import Graphinator.Asserted
import Graphinator.PersonNames

/-!
# What a release record asserts

The edges that a release record asks for, read off the record itself: one item of a list after
another, without the rows that the projection computes from it.

## Main definitions

* `elements`, `referredKey`, `mediaItems`, `companiesBlock` : how a record is read.
* `AssertsArc` : the edges that a record asserts.
* `releaseArcs` : the edges of a release that its record decides.

## Main results

* `mem_asserts_iff` : the rows of a record assert what the record does.
* `wellTyped_asserts` : an asserted edge leads where its type says.
-/

namespace Graphinator

open PropertyGraph PyValue

/-! ### Reading a record -/

/-- What `for x in record.get(key) or []` goes through. -/
def elements (record : PyValue) (key : String) : List PyValue :=
  match record.get key >>= fun value => (value.orElse (.arr [])).iter with
  | .ok items => items
  | .error _ => []

/-- The key of the node that a reference names, if it carries an id. -/
def referredKey (item : PyValue) : Option PyValue :=
  match item.get "id" with
  | .ok id => if id.truthy then (nodeKey id).toOption else none
  | .error _ => none

/-- The usable items of the media of a record. -/
def mediaItems (env : Env) (record : PyValue) : List MediaItem :=
  match resolveMediaBlock env record >>= usableMediaItems with
  | .ok items => items
  | .error _ => []

/-- The companies block of a record, if it carries one. -/
def companiesBlock (record : PyValue) : Option PyValue :=
  match resolveCompaniesBlock record with
  | .ok block => block
  | .error _ => none

/-- The edges that the record of a release asserts. -/
inductive AssertsArc (env : Env) (record id : PyValue) : Arc Node Rel → Prop
  | artist {item x : PyValue} : item ∈ elements record "artists" → referredKey item = some x →
    AssertsArc env record id ⟨.BY, .release id, .artist x⟩
  | label {item x : PyValue} : item ∈ elements record "labels" → referredKey item = some x →
    AssertsArc env record id ⟨.ON, .release id, .ofLabel x⟩
  | master {value : PyValue} {m : String} : record.get "master_id" = .ok value →
    usableMasterId value = some m →
    AssertsArc env record id ⟨.DERIVED_FROM, .release id, .master (.str m)⟩
  | genre {name x : PyValue} : name ∈ elements record "genres" → name.truthy = true →
    nodeKey name = .ok x → AssertsArc env record id ⟨.IS, .release id, .genre x⟩
  | style {name x : PyValue} : name ∈ elements record "styles" → name.truthy = true →
    nodeKey name = .ok x → AssertsArc env record id ⟨.IS, .release id, .style x⟩
  | medium {item : MediaItem} : item ∈ mediaItems env record →
    AssertsArc env record id ⟨.ISSUED_ON mediaSource, .release id, .medium item.medium⟩
  | company {block entry : PyValue} {row : CompanyRow} : companiesBlock record = some block →
    entry ∈ elements block "items" → usableCompany env entry = .ok (some row) →
    AssertsArc env record id
      ⟨.CREDITED_TO (.str row.role) companySource, .release id, .company row.id⟩
  | credit {credit : PyValue} {row : CreditRow} : credit ∈ elements record "extraartists" →
    usableCredit env credit = .ok (some row) →
    AssertsArc env record id ⟨.CREDITED_ON row.role, .person row.name, .release id⟩

/-! ### The rows of a record -/

section Rows

variable {env : Env} {record value block : PyValue} {items : List PyValue} {key : String}

theorem elements_eq (hvalue : record.get key = .ok value)
    (hitems : (value.orElse (.arr [])).iter = .ok items) : elements record key = items := by
  simp only [elements, hvalue, bind, Except.bind, hitems]

/-- What a comprehension keeps, item by item. -/
theorem mem_filterMap_mapM {α β : Type} {f : α → Except PyError (Option β)} {xs : List α}
    {ys : List (Option β)} (h : xs.mapM f = .ok ys) {y : β} :
    y ∈ ys.filterMap id ↔ ∃ x ∈ xs, f x = .ok (some y) := by
  have hrel := mapM_eq_ok.mp h
  rw [List.mem_filterMap]
  constructor
  · rintro ⟨y', hy', rfl⟩
    exact exists_left_of_mem hrel hy'
  · rintro ⟨x, hx, hf⟩
    obtain ⟨y', hy', hf'⟩ := exists_right_of_mem hrel hx
    rw [hf] at hf'
    exact ⟨some y, Except.ok.inj hf' ▸ hy', rfl⟩

theorem mem_references {refs : List Reference} (hvalue : record.get key = .ok value)
    (h : references value = .ok refs) {x : PyValue} :
    (∃ a ∈ refs, a.id = x) ↔ ∃ item ∈ elements record key, referredKey item = some x := by
  simp only [references, bind_eq_ok, pure_eq_ok] at h
  obtain ⟨items, hitems, rows, hrows, rfl⟩ := h
  rw [elements_eq hvalue hitems]
  simp only [mem_filterMap_mapM hrows, bind_eq_ok]
  constructor
  · rintro ⟨a, ⟨item, hitem, id, hid, ha⟩, rfl⟩
    refine ⟨item, hitem, ?_⟩
    split_ifs at ha with htruthy
    · simp only [bind_eq_ok, pure_eq_ok] at ha
      obtain ⟨id', hid', k, hk, name, -, hrow⟩ := ha
      cases hrow
      simp only [referredKey, hid', Except.ok.inj (hid.symm.trans hid') ▸ htruthy, hk, if_true]
      rfl
    · cases ha
  · rintro ⟨item, hitem, hkey⟩
    obtain ⟨row, -, hrow⟩ := exists_right_of_mem (mapM_eq_ok.mp hrows) hitem
    simp only [bind_eq_ok] at hrow
    obtain ⟨id, hid, hrow⟩ := hrow
    have htruthy : id.truthy = true := by
      by_contra hnot
      simp [referredKey, hid, hnot] at hkey
    rw [if_pos htruthy] at hrow
    simp only [bind_eq_ok, pure_eq_ok] at hrow
    obtain ⟨id', hid', k, hk, name, hname, rfl⟩ := hrow
    refine ⟨⟨k, name⟩, ⟨item, hitem, id, hid, ?_⟩, ?_⟩
    · rw [if_pos htruthy]
      simp only [bind_eq_ok, pure_eq_ok]
      exact ⟨id', hid', k, hk, name, hname, rfl⟩
    · obtain rfl := Except.ok.inj (hid.symm.trans hid')
      simpa [referredKey, hid, htruthy, hk, Except.toOption] using hkey

theorem mem_truthyNames {names : List PyValue} (hvalue : record.get key = .ok value)
    (h : truthyNames value = .ok names) {x : PyValue} :
    x ∈ names ↔ ∃ name ∈ elements record key, name.truthy = true ∧ nodeKey name = .ok x := by
  simp only [truthyNames, bind_eq_ok] at h
  obtain ⟨items, hitems, hnames⟩ := h
  rw [elements_eq hvalue hitems]
  have hrel := mapM_eq_ok.mp hnames
  constructor
  · intro hx
    obtain ⟨name, hname, hkey⟩ := exists_left_of_mem hrel hx
    obtain ⟨hmem, htruthy⟩ := List.mem_filter.mp hname
    exact ⟨name, hmem, htruthy, hkey⟩
  · rintro ⟨name, hmem, htruthy, hkey⟩
    obtain ⟨x', hx', hkey'⟩ := exists_right_of_mem hrel (List.mem_filter.mpr ⟨hmem, htruthy⟩)
    exact Except.ok.inj (hkey.symm.trans hkey') ▸ hx'

theorem mem_personCreditRows {rows : List CreditRow} (hvalue : record.get key = .ok value)
    (h : personCreditRows env value = .ok rows) {row : CreditRow} :
    row ∈ rows ↔ ∃ credit ∈ elements record key, usableCredit env credit = .ok (some row) := by
  simp only [personCreditRows, bind_eq_ok, pure_eq_ok] at h
  obtain ⟨items, hitems, rows', hrows, rfl⟩ := h
  rw [elements_eq hvalue hitems]
  exact mem_filterMap_mapM hrows

/-- The loop keeps one row of each company and role. -/
theorem mem_foldl_addCompany {kept rows : List CompanyRow} {id role : String} :
    (∃ row ∈ rows.foldl addCompany kept, row.id = id ∧ row.role = role) ↔
      ∃ row ∈ kept ++ rows, row.id = id ∧ row.role = role := by
  induction rows generalizing kept with
  | nil => rw [List.foldl_nil, List.append_nil]
  | cons row rows ih =>
    rw [List.foldl_cons, ih]
    unfold addCompany
    split_ifs with hany
    · obtain ⟨r, hr, hsame⟩ := List.any_eq_true.mp hany
      have hsame' : r.id = row.id ∧ r.role = row.role := of_decide_eq_true hsame
      constructor
      · rintro ⟨x, hx, hxs⟩
        refine ⟨x, ?_, hxs⟩
        rcases List.mem_append.mp hx with hx | hx
        · exact List.mem_append_left _ hx
        · exact List.mem_append_right _ (List.mem_cons_of_mem _ hx)
      · rintro ⟨x, hx, hid, hrole⟩
        rcases List.mem_append.mp hx with hx | hx
        · exact ⟨x, List.mem_append_left _ hx, hid, hrole⟩
        · rcases List.mem_cons.mp hx with rfl | hx
          · exact ⟨r, List.mem_append_left _ hr, hsame'.1.trans hid, hsame'.2.trans hrole⟩
          · exact ⟨x, List.mem_append_right _ hx, hid, hrole⟩
    · rw [List.append_assoc, List.singleton_append]

theorem mem_creditedToRows {rows : List CompanyRow} (h : creditedToRows env block = .ok rows)
    {id role : String} : (∃ row ∈ rows, row.id = id ∧ row.role = role) ↔
      ∃ entry ∈ elements block "items", ∃ row, usableCompany env entry = .ok (some row) ∧
        row.id = id ∧ row.role = role := by
  simp only [creditedToRows, bind_eq_ok, pure_eq_ok] at h
  obtain ⟨value, hvalue, items, hitems, rows', hrows, rfl⟩ := h
  rw [elements_eq hvalue hitems, mem_foldl_addCompany, List.nil_append]
  constructor
  · rintro ⟨row, hrow, hsame⟩
    obtain ⟨entry, hentry, husable⟩ := (mem_filterMap_mapM hrows).mp hrow
    exact ⟨entry, hentry, row, husable, hsame⟩
  · rintro ⟨entry, hentry, row, husable, hsame⟩
    exact ⟨row, (mem_filterMap_mapM hrows).mpr ⟨entry, hentry, husable⟩, hsame⟩

/-- The rows of a release, field by field. -/
structure ReleaseRowOf (env : Env) (record : PyValue) (r : ReleaseRow) : Prop where
  id : ∃ value, record.get "id" = .ok value ∧ nodeKey value = .ok r.id
  sha256 : ∃ value, record.get "sha256" = .ok value ∧ storable value = .ok r.sha256
  artists : ∃ value, record.get "artists" = .ok value ∧ references value = .ok r.artists
  labels : ∃ value, record.get "labels" = .ok value ∧ references value = .ok r.labels
  master : ∃ value, record.get "master_id" = .ok value ∧ r.masterId = usableMasterId value
  genres : ∃ value, record.get "genres" = .ok value ∧ truthyNames value = .ok r.genres
  keepGenres : r.keepGenres = r.genres
  styles : ∃ value, record.get "styles" = .ok value ∧ truthyNames value = .ok r.styles
  keepStyles : r.keepStyles = r.styles
  media : ∃ block, resolveMediaBlock env record = .ok block ∧
    issuedOnRows env block = .ok r.mediaRows
  companies : ∃ block, resolveCompaniesBlock record = .ok block ∧
    block.mapM (creditedToRows env) = .ok r.companyRows
  credits : ∃ value, record.get "extraartists" = .ok value ∧
    personCreditRows env value = .ok r.creditRows

theorem releaseRow_spec {r : ReleaseRow} (h : releaseRow env record = .ok r) :
    ReleaseRowOf env record r := by
  unfold releaseRow at h
  -- one field after another, in the order in which the row reads them
  obtain ⟨media, hmedia, h⟩ := bind_eq_ok.mp h
  obtain ⟨gs, hgs, h⟩ := bind_eq_ok.mp h
  obtain ⟨genres, hgenres, h⟩ := bind_eq_ok.mp h
  obtain ⟨ss, hss, h⟩ := bind_eq_ok.mp h
  obtain ⟨styles, hstyles, h⟩ := bind_eq_ok.mp h
  obtain ⟨i, hi, h⟩ := bind_eq_ok.mp h
  obtain ⟨key, hkey, h⟩ := bind_eq_ok.mp h
  obtain ⟨_, -, h⟩ := bind_eq_ok.mp h
  obtain ⟨title, -, h⟩ := bind_eq_ok.mp h
  obtain ⟨_, -, h⟩ := bind_eq_ok.mp h
  obtain ⟨year, -, h⟩ := bind_eq_ok.mp h
  obtain ⟨country, -, h⟩ := bind_eq_ok.mp h
  obtain ⟨formats, -, h⟩ := bind_eq_ok.mp h
  obtain ⟨families, -, h⟩ := bind_eq_ok.mp h
  obtain ⟨sha, hsha, h⟩ := bind_eq_ok.mp h
  obtain ⟨stored, hstored, h⟩ := bind_eq_ok.mp h
  obtain ⟨metadata, -, h⟩ := bind_eq_ok.mp h
  obtain ⟨as, has, h⟩ := bind_eq_ok.mp h
  obtain ⟨artists, hartists, h⟩ := bind_eq_ok.mp h
  obtain ⟨ls, hls, h⟩ := bind_eq_ok.mp h
  obtain ⟨labels, hlabels, h⟩ := bind_eq_ok.mp h
  obtain ⟨m, hm, h⟩ := bind_eq_ok.mp h
  obtain ⟨pairs, -, h⟩ := bind_eq_ok.mp h
  obtain ⟨rows, hrows, h⟩ := bind_eq_ok.mp h
  obtain ⟨cs, hcs, h⟩ := bind_eq_ok.mp h
  obtain ⟨companies, hcompanies, h⟩ := bind_eq_ok.mp h
  obtain ⟨es, hes, h⟩ := bind_eq_ok.mp h
  obtain ⟨credits, hcredits, h⟩ := bind_eq_ok.mp h
  obtain rfl := pure_eq_ok.mp h
  exact ⟨⟨i, hi, hkey⟩, ⟨sha, hsha, hstored⟩, ⟨as, has, hartists⟩, ⟨ls, hls, hlabels⟩, ⟨m, hm, rfl⟩,
    ⟨gs, hgs, hgenres⟩, rfl, ⟨ss, hss, hstyles⟩, rfl, ⟨media, hmedia, hrows⟩, ⟨cs, hcs, hcompanies⟩,
    ⟨es, hes, hcredits⟩⟩

theorem mediaItems_eq (hblock : resolveMediaBlock env record = .ok block) {items : List MediaItem}
    (hitems : usableMediaItems block = .ok items) : mediaItems env record = items := by
  simp only [mediaItems, hblock, bind, Except.bind, hitems]

theorem companiesBlock_eq {block : Option PyValue} (h : resolveCompaniesBlock record = .ok block) :
    companiesBlock record = block := by
  simp only [companiesBlock, h]

namespace ReleaseRowOf

variable {r : ReleaseRow} (h : ReleaseRowOf env record r)
include h

/-- One row for each medium, with the sum of the quantities of its items. -/
theorem mediaRowsOf : MediaRowsOf (mediaItems env record) r.mediaRows := by
  obtain ⟨block, hblock, hrows⟩ := h.media
  simp only [issuedOnRows, bind_eq_ok, pure_eq_ok] at hrows
  obtain ⟨items, hitems, hrows⟩ := hrows
  rw [mediaItems_eq hblock hitems, ← hrows]
  exact issuedOnRows_qty env items

/-- A record without a block has no company rows, and conversely. -/
theorem companyRows_eq_none : r.companyRows = none ↔ companiesBlock record = none := by
  obtain ⟨block, hblock, hrows⟩ := h.companies
  rw [companiesBlock_eq hblock]
  cases block with
  | none =>
    have hnone : r.companyRows = none := (Except.ok.inj hrows).symm
    simp [hnone]
  | some block =>
    rw [Option.mapM_some] at hrows
    obtain ⟨rows, -, hrows⟩ := bind_eq_ok.mp hrows
    have hsome : r.companyRows = some rows := (Except.ok.inj hrows).symm
    simp [hsome]

/-- The rows of the companies. -/
theorem mem_companyRows {id role : String} :
    (∃ row ∈ r.companyRows.getD [], row.id = id ∧ row.role = role) ↔
      ∃ block entry row, companiesBlock record = some block ∧ entry ∈ elements block "items" ∧
        usableCompany env entry = .ok (some row) ∧ row.id = id ∧ row.role = role := by
  obtain ⟨block, hblock, hrows⟩ := h.companies
  rw [companiesBlock_eq hblock]
  cases block with
  | none =>
    have hnone : r.companyRows = none := (Except.ok.inj hrows).symm
    simp [hnone]
  | some block =>
    rw [Option.mapM_some] at hrows
    obtain ⟨rows, hread, hrows⟩ := bind_eq_ok.mp hrows
    have hsome : r.companyRows = some rows := (Except.ok.inj hrows).symm
    rw [hsome, Option.getD_some, mem_creditedToRows hread]
    constructor
    · rintro ⟨entry, hentry, row, hrow, hsame⟩
      exact ⟨block, entry, row, rfl, hentry, hrow, hsame⟩
    · rintro ⟨block', entry, row, heq, hentry, hrow, hsame⟩
      obtain rfl := Option.some.inj heq
      exact ⟨entry, hentry, row, hrow, hsame⟩

end ReleaseRowOf

end Rows

/-! ### The edges of a release -/

/-- The edges of a release that its record decides. A record without a companies block is silent
about its companies. -/
def releaseArcs (record id : PyValue) : Set (Arc Node Rel) :=
  {a | (a.src = .release id ∧ match a.kind with
      | .BY | .ON | .DERIVED_FROM | .IS => True
      | .ISSUED_ON source => source = mediaSource
      | .CREDITED_TO _ source => source = companySource ∧ companiesBlock record ≠ none
      | _ => False) ∨
    (a.dst = .release id ∧ ∃ role, a.kind = .CREDITED_ON role)}

/-- Where an edge of a release leads. A merge with a null role fails, so no role is null. -/
def WellTyped (a : Arc Node Rel) : Prop :=
  match a.kind with
  | .BY => a.src.label = .release → a.dst.label = .artist
  | .ON => a.src.label = .release → a.dst.label = .label
  | .DERIVED_FROM => a.src.label = .release → a.dst.label = .master
  | .IS => a.src.label = .release → a.dst.label = .genre ∨ a.dst.label = .style
  | .ISSUED_ON _ => a.src.label = .release → a.dst.label = .medium
  | .CREDITED_TO role _ => a.src.label = .release → a.dst.label = .company ∧ role ≠ .null
  | .CREDITED_ON role => a.dst.label = .release → a.src.label = .person ∧ role ≠ .null
  | _ => True

section Arcs

variable {env : Env} {record : PyValue} {r : ReleaseRow} {a : Arc Node Rel}

/-- The edges that the record decides are those that its rows manage. -/
theorem releaseArcs_eq (h : ReleaseRowOf env record r) :
    releaseArcs record r.id = releaseManaged r := by
  ext ⟨kind, src, dst⟩
  have hnone := not_congr h.companyRows_eq_none
  cases kind <;> simp [releaseArcs, releaseManaged, replacesOut, hnone]

theorem role_ne_null {credit : PyValue} {row : CreditRow}
    (h : usableCredit env credit = .ok (some row)) : row.role ≠ .null := by
  simp only [usableCredit, bind_eq_ok] at h
  obtain ⟨name, -, role, -, h⟩ := h
  split_ifs at h
  · cases h
  · split at h
    · cases h
    · simp only [bind_eq_ok, pure_eq_ok] at h
      obtain ⟨_, -, _, -, _, -, _, -, key, hkey, hrow⟩ := h
      cases hrow
      exact ne_null_of_nodeKey hkey

theorem wellTyped_asserts (h : ReleaseRowOf env record r) (ha : a ∈ r.Asserts) : WellTyped a := by
  rcases ha with ⟨x, -, rfl⟩ | ⟨x, -, rfl⟩ | ⟨x, -, rfl⟩ | ⟨x, -, rfl⟩ | ⟨x, -, rfl⟩ | ⟨x, -, rfl⟩ |
    ⟨x, -, rfl | rfl⟩ | ⟨x, -, rfl⟩ | ⟨row, hrow, rfl⟩
  · exact fun _ => rfl
  · exact fun _ => rfl
  · exact fun _ => rfl
  · exact fun _ => Or.inl rfl
  · exact fun _ => Or.inr rfl
  · trivial
  · trivial
  · exact fun _ => rfl
  · exact fun _ => ⟨rfl, by rintro ⟨⟩⟩
  · obtain ⟨value, hvalue, hrows⟩ := h.credits
    obtain ⟨credit, -, husable⟩ := (mem_personCreditRows hvalue hrows).mp hrow
    exact fun _ => ⟨rfl, role_ne_null husable⟩

/-- **The rows of a record assert what the record does.** -/
theorem mem_asserts_iff (h : ReleaseRowOf env record r) (ha : a ∈ releaseArcs record r.id) :
    a ∈ r.Asserts ↔ AssertsArc env record r.id a := by
  obtain ⟨artists, hartists, hartistRows⟩ := h.artists
  obtain ⟨labels, hlabels, hlabelRows⟩ := h.labels
  obtain ⟨masterId, hmaster, hmasterId⟩ := h.master
  obtain ⟨genres, hgenres, hgenreRows⟩ := h.genres
  obtain ⟨styles, hstyles, hstyleRows⟩ := h.styles
  obtain ⟨credits, hcredits, hcreditRows⟩ := h.credits
  constructor
  · rintro (⟨x, hx, rfl⟩ | ⟨x, hx, rfl⟩ | ⟨m, hm, rfl⟩ | ⟨x, hx, rfl⟩ | ⟨x, hx, rfl⟩ | ⟨x, -, rfl⟩ |
      ⟨row, hrow, rfl | rfl⟩ | ⟨row, hrow, rfl⟩ | ⟨row, hrow, rfl⟩)
    · obtain ⟨item, hitem, hkey⟩ := (mem_references hartists hartistRows).mp ⟨x, hx, rfl⟩
      exact .artist hitem hkey
    · obtain ⟨item, hitem, hkey⟩ := (mem_references hlabels hlabelRows).mp ⟨x, hx, rfl⟩
      exact .label hitem hkey
    · rw [hmasterId] at hm
      exact .master hmaster (Option.mem_toList.mp hm)
    · obtain ⟨name, hname, htruthy, hkey⟩ := (mem_truthyNames hgenres hgenreRows).mp hx
      exact .genre hname htruthy hkey
    · obtain ⟨name, hname, htruthy, hkey⟩ := (mem_truthyNames hstyles hstyleRows).mp hx
      exact .style hname htruthy hkey
    · simp [releaseArcs] at ha
    · simp [releaseArcs] at ha
    · obtain ⟨item, hitem, heq⟩ := List.mem_map.mp
        ((h.mediaRowsOf.mem_iff row.medium).mp (List.mem_map_of_mem hrow))
      exact heq ▸ .medium hitem
    · obtain ⟨block, entry, row', hblock, hentry, husable, hid, hrole⟩ :=
        h.mem_companyRows.mp ⟨row, hrow, rfl, rfl⟩
      rw [← hid, ← hrole]
      exact .company hblock hentry husable
    · obtain ⟨credit, hcredit, husable⟩ := (mem_personCreditRows hcredits hcreditRows).mp hrow
      exact .credit hcredit husable
  · rintro hasserts
    cases hasserts with
    | artist hitem hkey =>
      obtain ⟨x, hx, rfl⟩ := (mem_references hartists hartistRows).mpr ⟨_, hitem, hkey⟩
      exact Or.inl ⟨x, hx, rfl⟩
    | label hitem hkey =>
      obtain ⟨x, hx, rfl⟩ := (mem_references hlabels hlabelRows).mpr ⟨_, hitem, hkey⟩
      exact Or.inr (Or.inl ⟨x, hx, rfl⟩)
    | master hvalue hm =>
      obtain rfl := Except.ok.inj (hmaster.symm.trans hvalue)
      exact Or.inr (Or.inr (Or.inl ⟨_, Option.mem_toList.mpr (hmasterId.trans hm), rfl⟩))
    | genre hname htruthy hkey =>
      have hx := (mem_truthyNames hgenres hgenreRows).mpr ⟨_, hname, htruthy, hkey⟩
      exact Or.inr (Or.inr (Or.inr (Or.inl ⟨_, hx, rfl⟩)))
    | style hname htruthy hkey =>
      have hx := (mem_truthyNames hstyles hstyleRows).mpr ⟨_, hname, htruthy, hkey⟩
      exact Or.inr (Or.inr (Or.inr (Or.inr (Or.inl ⟨_, hx, rfl⟩))))
    | medium hitem =>
      obtain ⟨row, hrow, heq⟩ := List.mem_map.mp
        ((h.mediaRowsOf.mem_iff _).mpr (List.mem_map_of_mem hitem))
      exact Or.inr (Or.inr (Or.inr (Or.inr (Or.inr (Or.inr (Or.inl
        ⟨row, hrow, Or.inr (by rw [heq])⟩))))))
    | company hblock hentry husable =>
      obtain ⟨row, hrow, hid, hrole⟩ :=
        h.mem_companyRows.mpr ⟨_, _, _, hblock, hentry, husable, rfl, rfl⟩
      exact Or.inr (Or.inr (Or.inr (Or.inr (Or.inr (Or.inr (Or.inr (Or.inl
        ⟨row, hrow, by rw [hid, hrole]⟩)))))))
    | credit hcredit husable =>
      have hrow := (mem_personCreditRows hcredits hcreditRows).mpr ⟨_, hcredit, husable⟩
      exact Or.inr (Or.inr (Or.inr (Or.inr (Or.inr (Or.inr (Or.inr (Or.inr ⟨_, hrow, rfl⟩)))))))

/-- **What a record does not assert, its rows drop.** -/
theorem mem_drops_of_notMem (h : ReleaseRowOf env record r) (ha : a ∈ releaseArcs record r.id)
    (htyped : WellTyped a) (hnot : a ∉ r.Asserts) : a ∈ r.Drops := by
  obtain ⟨kind, src, ⟨target, key⟩⟩ := a
  rcases ha with ⟨hsrc, hkind⟩ | ⟨hdst, role, hkind⟩
  · obtain rfl : src = .release r.id := hsrc
    cases kind with
    | BY =>
      obtain rfl : target = .artist := htyped rfl
      refine Or.inl ⟨rfl, Or.inl ⟨rfl, rfl, fun hmem => hnot (Or.inl ?_)⟩⟩
      obtain ⟨x, hx, rfl⟩ := List.mem_map.mp hmem
      exact ⟨x, hx, rfl⟩
    | ON =>
      obtain rfl : target = .label := htyped rfl
      refine Or.inl ⟨rfl, Or.inr (Or.inl ⟨rfl, rfl, fun hmem => hnot (Or.inr (Or.inl ?_))⟩)⟩
      obtain ⟨x, hx, rfl⟩ := List.mem_map.mp hmem
      exact ⟨x, hx, rfl⟩
    | DERIVED_FROM =>
      obtain rfl : target = .master := htyped rfl
      refine Or.inl ⟨rfl, Or.inr (Or.inr (Or.inl ⟨rfl, rfl, fun hmem =>
        hnot (Or.inr (Or.inr (Or.inl ?_)))⟩))⟩
      obtain ⟨m, hm, rfl⟩ := Option.map_eq_some_iff.mp (Option.mem_toList.mp hmem)
      exact ⟨m, Option.mem_toList.mpr hm, rfl⟩
    | IS =>
      have htarget : target = .genre ∨ target = .style := htyped rfl
      rcases htarget with rfl | rfl
      · refine Or.inl ⟨rfl, Or.inr (Or.inr (Or.inr (Or.inl ⟨rfl, rfl, fun hmem =>
          hnot (Or.inr (Or.inr (Or.inr (Or.inl ?_))))⟩)))⟩
        exact ⟨key, h.keepGenres ▸ hmem, rfl⟩
      · refine Or.inl ⟨rfl, Or.inr (Or.inr (Or.inr (Or.inr ⟨rfl, rfl, fun hmem =>
          hnot (Or.inr (Or.inr (Or.inr (Or.inr (Or.inl ?_)))))⟩)))⟩
        exact ⟨key, h.keepStyles ▸ hmem, rfl⟩
    | ISSUED_ON source =>
      obtain rfl : source = mediaSource := hkind
      obtain rfl : target = .medium := htyped rfl
      refine Or.inr (Or.inl ⟨rfl, rfl, rfl, fun hmem =>
        hnot (Or.inr (Or.inr (Or.inr (Or.inr (Or.inr (Or.inr (Or.inl ?_)))))))⟩)
      obtain ⟨row, hrow, rfl⟩ := List.mem_map.mp hmem
      exact ⟨row, hrow, Or.inr rfl⟩
    | CREDITED_TO role source =>
      obtain ⟨rfl, hblock⟩ : source = companySource ∧ companiesBlock record ≠ none := hkind
      obtain ⟨rfl, hrole⟩ : target = .company ∧ role ≠ .null := htyped rfl
      obtain ⟨rows, hrows⟩ :=
        Option.ne_none_iff_exists'.mp (mt h.companyRows_eq_none.mp hblock)
      refine Or.inr (Or.inr (Or.inl ⟨rows, hrows, rfl, rfl, ?_⟩))
      simp only [staleCompanyEdge, decide_true, Bool.true_and, notInPairs_iff hrole]
      intro hmem
      obtain ⟨row, hrow, heq⟩ := List.mem_map.mp hmem
      obtain ⟨rfl, rfl⟩ := Prod.mk.inj heq
      exact hnot (Or.inr (Or.inr (Or.inr (Or.inr (Or.inr (Or.inr (Or.inr (Or.inl
        ⟨row, by rw [hrows]; exact hrow, rfl⟩))))))))
    | _ => exact hkind.elim
  · obtain rfl : kind = .CREDITED_ON role := hkind
    obtain ⟨rfl, rfl⟩ := Node.mk.inj hdst
    obtain ⟨source, name⟩ := src
    obtain ⟨rfl, hrole⟩ : source = .person ∧ role ≠ .null := htyped rfl
    refine Or.inr (Or.inr (Or.inr ⟨rfl, rfl, ?_⟩))
    simp only [staleCreditEdge, notInPairs_iff hrole]
    intro hmem
    obtain ⟨row, hrow, heq⟩ := List.mem_map.mp hmem
    obtain ⟨rfl, rfl⟩ := Prod.mk.inj heq
    exact hnot (Or.inr (Or.inr (Or.inr (Or.inr (Or.inr (Or.inr (Or.inr (Or.inr
      ⟨row, hrow, rfl⟩))))))))

/-- **The edges of a release after its record was written** are those that the record asserts. -/
theorem hasArc_record_iff (h : ReleaseRowOf env record r) (ha : a ∈ releaseArcs record r.id)
    {g : Graph} (htyped : g.HasArc a → WellTyped a) :
    (releaseStages.record r g).HasArc a ↔ AssertsArc env record r.id a := by
  rw [arcEffect_release r, ← mem_asserts_iff h ha]
  constructor
  · rintro (⟨harc, hdrops⟩ | hasserts)
    · by_contra hnot
      exact hdrops (mem_drops_of_notMem h ha (htyped harc) hnot)
    · exact hasserts
  · exact Or.inr

end Arcs

end Graphinator
