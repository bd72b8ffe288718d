import Graphinator.NameOwnership

/-!
# The name of a company

A release writes a name on each company that it credits: the name of the credit, or the id of the
company where the credit carries no name. The last credit that is written decides, with a name or
without. Of the credits of one release for one company and role only the first is written.

## Main definitions

* `CompanyEntry`, `recordEntries`, `firstEntries` : the credits of a record, and those that count.
* `Names.processedEntries`, `Names.keptEntries` : the same for a company in a run.

## Main results

* `Names.row_company` : the last credit kept in a run gives the name.
* `Names.company_name_carried` : when the name is one that some credit carried.
-/

namespace Graphinator

open PropertyGraph PyValue

/-- A usable entry of a companies block. -/
structure CompanyEntry where
  id : String
  role : String
  /-- The trimmed name, if the entry carries one. -/
  name : Option String
deriving DecidableEq, Repr

/-- What an item of a companies block says, if it has an identity and a role. -/
def companyEntry (env : Env) (item : PyValue) : Except PyError (Option CompanyEntry) := do
  if !item.isDict then
    return none
  match text (← item.get "role"), ← companyIdentity env item with
  | some role, some id => return some { id, role, name := text (← item.get "name") }
  | _, _ => return none

/-- The usable entries of a companies block. -/
def companyEntries (env : Env) (block : PyValue) : Except PyError (List CompanyEntry) := do
  let items ← ((← block.get "items").orElse (.arr [])).iter
  return (← items.mapM (companyEntry env)).filterMap id

/-- The usable entries of a record. -/
def recordEntries (env : Env) (record : PyValue) : List CompanyEntry :=
  match resolveCompaniesBlock record >>= fun block => block.mapM (companyEntries env) with
  | .ok (some entries) => entries
  | _ => []

/-- One entry more: it counts where it is the first of its company and role. -/
def addEntry (entries : List CompanyEntry) (entry : CompanyEntry) : List CompanyEntry :=
  if entries.any fun e => e.id = entry.id ∧ e.role = entry.role then entries
  else entries ++ [entry]

/-- The entries that are the first of their company and role. -/
def firstEntries (entries : List CompanyEntry) : List CompanyEntry := entries.foldl addEntry []

section Entries

variable {env : Env} {entries kept : List CompanyEntry}

theorem subset_addEntry (entry : CompanyEntry) : kept ⊆ addEntry kept entry := by
  unfold addEntry
  split_ifs
  · exact List.Subset.refl _
  · exact List.subset_append_left ..

/-- An entry that does not count stands behind one that does. -/
theorem exists_mem_addEntry (entry : CompanyEntry) : ∃ e ∈ addEntry kept entry, e.id = entry.id := by
  unfold addEntry
  split_ifs with h
  · obtain ⟨e, he, hsame⟩ := List.any_eq_true.mp h
    exact ⟨e, he, (of_decide_eq_true hsame).1⟩
  · exact ⟨entry, List.mem_append_right _ (List.mem_singleton_self _), rfl⟩

theorem foldl_addEntry_subset : entries.foldl addEntry kept ⊆ kept ++ entries := by
  induction entries generalizing kept with
  | nil => simp
  | cons entry entries ih =>
    intro e he
    rcases List.mem_append.mp (ih he) with h | h
    · unfold addEntry at h
      split_ifs at h
      · exact List.mem_append_left _ h
      · simp only [List.mem_append, List.mem_cons, List.not_mem_nil, or_false] at h ⊢
        tauto
    · exact List.mem_append_right _ (List.mem_cons_of_mem _ h)

theorem firstEntries_subset (entries : List CompanyEntry) : firstEntries entries ⊆ entries :=
  foldl_addEntry_subset

theorem subset_foldl_addEntry (entries : List CompanyEntry) :
    kept ⊆ entries.foldl addEntry kept := by
  induction entries generalizing kept with
  | nil => exact List.Subset.refl _
  | cons entry entries ih => exact List.Subset.trans (subset_addEntry entry) ih

/-- Each company of a record has an entry that counts. -/
theorem exists_mem_firstEntries {e : CompanyEntry} (he : e ∈ entries) :
    ∃ e' ∈ firstEntries entries, e'.id = e.id := by
  suffices h : ∀ kept, ∃ e' ∈ entries.foldl addEntry kept, e'.id = e.id from h []
  induction entries with
  | nil => exact absurd he List.not_mem_nil
  | cons entry entries ih =>
    intro kept
    rcases List.mem_cons.mp he with rfl | he
    · obtain ⟨e', he', hid⟩ : ∃ e' ∈ addEntry kept e, e'.id = e.id := exists_mem_addEntry e
      exact ⟨e', subset_foldl_addEntry entries he', hid⟩
    · exact ih he _

/-- The row of an entry: one that carries no name is named by its id. -/
def RowOfEntry (row : CompanyRow) (entry : CompanyEntry) : Prop :=
  row.id = entry.id ∧ row.role = entry.role ∧ row.name = entry.name.getD entry.id

/-- An item is a row where it is an entry. -/
theorem companyEntry_of_usable {item : PyValue} {row : Option CompanyRow}
    (h : usableCompany env item = .ok row) :
    ∃ entry, companyEntry env item = .ok entry ∧ Option.Rel RowOfEntry row entry := by
  cases item with
  | obj fields =>
    have hget : ∀ key, (PyValue.obj fields).get key = .ok ((field? fields key).getD .null) :=
      fun _ => rfl
    simp only [usableCompany, companyEntry, isDict, Bool.not_true, Bool.false_eq_true, if_false,
      hget, bind, Except.bind] at h ⊢
    cases hid : companyIdentity env (.obj fields) with
    | error error => simp [hid] at h
    | ok id =>
      rw [hid] at h
      dsimp only at h ⊢
      generalize text ((field? fields "role").getD .null) = role at h ⊢
      cases role with
      | none =>
        obtain rfl : none = row := Except.ok.inj h
        exact ⟨none, rfl, .none⟩
      | some role =>
        cases id with
        | none =>
          obtain rfl : none = row := Except.ok.inj h
          exact ⟨none, rfl, .none⟩
        | some id =>
          obtain rfl := Except.ok.inj h
          exact ⟨_, rfl, .some ⟨rfl, rfl, rfl⟩⟩
  | _ =>
    obtain rfl : none = row := Except.ok.inj h
    exact ⟨none, rfl, .none⟩

/-- The rows of a block are its entries. -/
theorem companyEntries_of_rows {items : List PyValue} {rows : List (Option CompanyRow)}
    (h : items.mapM (usableCompany env) = .ok rows) :
    ∃ entries, items.mapM (companyEntry env) = .ok entries ∧
      List.Forall₂ RowOfEntry (rows.filterMap id) (entries.filterMap id) := by
  rw [mapM_eq_ok] at h
  induction h with
  | nil => exact ⟨[], rfl, .nil⟩
  | cons hrow _ ih =>
    obtain ⟨entries, hentries, hrest⟩ := ih
    obtain ⟨entry, hentry, hrel⟩ := companyEntry_of_usable hrow
    refine ⟨entry :: entries, mapM_eq_ok.mpr (.cons hentry (mapM_eq_ok.mp hentries)), ?_⟩
    cases hrel with
    | none => exact hrest
    | some hrel => exact .cons hrel hrest

theorem any_eq_of_forall₂ {rows : List CompanyRow} {id role : String}
    (h : List.Forall₂ RowOfEntry rows kept) :
    rows.any (fun r => r.id = id ∧ r.role = role) =
      kept.any fun e => e.id = id ∧ e.role = role := by
  induction h with
  | nil => rfl
  | cons hrow _ ih => rw [List.any_cons, List.any_cons, ih, hrow.1, hrow.2.1]

/-- The rows that count are those of the entries that count. -/
theorem foldl_addCompany {kept' rows : List CompanyRow} (hkept : List.Forall₂ RowOfEntry kept' kept)
    (h : List.Forall₂ RowOfEntry rows entries) :
    List.Forall₂ RowOfEntry (rows.foldl addCompany kept') (entries.foldl addEntry kept) := by
  induction h generalizing kept' kept with
  | nil => exact hkept
  | cons hrow _ ih =>
    refine ih ?_
    unfold addCompany addEntry
    rw [any_eq_of_forall₂ hkept, hrow.1, hrow.2.1]
    split_ifs
    · exact hkept
    · exact List.rel_append hkept (.cons hrow .nil)

theorem creditedToRows_entries {block : PyValue} {rows : List CompanyRow}
    (h : creditedToRows env block = .ok rows) :
    ∃ entries, companyEntries env block = .ok entries ∧
      List.Forall₂ RowOfEntry rows (firstEntries entries) := by
  simp only [creditedToRows, bind_eq_ok, pure_eq_ok] at h
  obtain ⟨value, hvalue, items, hitems, usable, husable, rfl⟩ := h
  obtain ⟨entries, hentries, hrel⟩ := companyEntries_of_rows husable
  refine ⟨entries.filterMap id, ?_, foldl_addCompany .nil hrel⟩
  simp only [companyEntries, bind_eq_ok, pure_eq_ok]
  exact ⟨value, hvalue, items, hitems, entries, hentries, rfl⟩

/-- The company rows of a record, on either path. -/
theorem RowFor.companyRows {record : PyValue} {r : ReleaseRow}
    (h : RowFor env .releases record r) :
    (resolveCompaniesBlock record >>= fun block => block.mapM (creditedToRows env)) =
      .ok r.companyRows := by
  simp only [bind_eq_ok]
  rcases h with h | h
  · change releaseRow env record = .ok r at h
    simp only [releaseRow, bind_eq_ok, pure_eq_ok] at h
    grind
  · change releaseRecord env record = .ok r at h
    simp only [releaseRecord, bind_eq_ok, pure_eq_ok] at h
    grind

/-- The company rows of a record are its entries that count. -/
theorem RowFor.recordEntries {record : PyValue} {r : ReleaseRow}
    (h : RowFor env .releases record r) :
    List.Forall₂ RowOfEntry (r.companyRows.getD []) (firstEntries (recordEntries env record)) := by
  obtain ⟨block, hblock, hrows⟩ := bind_eq_ok.mp h.companyRows
  unfold Graphinator.recordEntries
  rw [hblock]
  cases block with
  | none =>
    have hnone : r.companyRows = none := (Except.ok.inj hrows).symm
    rw [hnone]
    exact .nil
  | some block =>
    change (some <$> creditedToRows env block) = .ok r.companyRows at hrows
    cases hcredited : creditedToRows env block with
    | error error =>
      rw [hcredited] at hrows
      cases hrows
    | ok rows =>
      obtain ⟨entries, hentries, hrel⟩ := creditedToRows_entries hcredited
      rw [hcredited] at hrows
      have hsome : r.companyRows = some rows := (Except.ok.inj hrows).symm
      change List.Forall₂ RowOfEntry _ (firstEntries (match some <$> companyEntries env block with
        | .ok (some entries) => entries
        | _ => []))
      rw [hsome, hentries]
      exact hrel

end Entries

/-! ### What a batch makes of a company -/

section Rows

variable {ρ α : Type} {own : α → Node} {props : α → List (String × PyValue)} {v : Node}

/-- What the merges of a stage make of the row of a node. -/
theorem row_runAll_runAll {f : ρ → α → Graph → Graph}
    (hf : ∀ r x g, (f r x g).nodes.row v =
      if own x = v then setProps (props x) (g.nodes.row v) else g.nodes.row v)
    (xs : ρ → List α) (rows : List ρ) (g : Graph) :
    (runAll (fun r => runAll (f r) (xs r)) rows g).nodes.row v =
      updateRow own props (rows.flatMap xs) v (g.nodes.row v) := by
  have hone : ∀ (r : ρ) (ys : List α) (t : Graph),
      (runAll (f r) ys t).nodes.row v = updateRow own props ys v (t.nodes.row v) := by
    intro r ys
    induction ys with
    | nil => exact fun _ => rfl
    | cons y ys ih =>
      intro t
      rw [runAll_cons, ih, hf, updateRow, updateRow, List.foldl_cons]
  induction rows generalizing g with
  | nil => rfl
  | cons r rows ih =>
    rw [runAll_cons, ih, hone, List.flatMap_cons]
    unfold updateRow
    rw [List.foldl_append]

/-- The last value that a property was set to is the one that stays. -/
theorem updateRow_last {key : String} {value : α → PyValue}
    (hprops : ∀ x row, setProps (props x) row key = value x) (xs : List α) (row : Row) :
    updateRow own props xs v row key =
      ((xs.filter (own · = v)).getLast?.map value).getD (row key) := by
  induction xs using List.reverseRecOn with
  | nil => rfl
  | append_singleton xs x ih =>
    unfold updateRow at ih ⊢
    rw [List.foldl_append, List.foldl_cons, List.foldl_nil, List.filter_append]
    by_cases hx : own x = v
    · rw [if_pos hx, List.filter_cons_of_pos (by simpa using hx), List.filter_nil,
        List.getLast?_concat]
      exact hprops x _
    · rw [if_neg hx, ih, List.filter_cons_of_neg (by simpa using hx), List.filter_nil,
        List.append_nil]

end Rows

/-- The node of a company. -/
def CompanyRow.node (row : CompanyRow) : Node := .company row.id

theorem row_linkCompany (release : PyValue) (row : CompanyRow) (v : Node) (g : Graph) :
    (linkCompany release row g).nodes.row v =
      if row.node = v then setProps [("name", .str row.name)] (g.nodes.row v)
      else g.nodes.row v := by
  simp only [linkCompany, row_nodes_mergeEdge, row_nodes_mergeNode]
  exact if_congr eq_comm rfl rfl

/-- The last row of a company gives its name. -/
theorem writeReleases_company (rows : List ReleaseRow) (id : String) (g : Graph) :
    prop (writeReleases rows g) (.company id) "name" =
      (((rows.flatMap fun r => r.companyRows.getD []).filter
        (CompanyRow.node · = .company id)).getLast?.map fun row => PyValue.str row.name).getD
          (prop g (.company id) "name") := by
  have hlast : (writeReleases rows g).nodes.row (.company id) =
      (writeReleasesCore rows g).nodes.row (.company id) :=
    congrFun (row_nodes_mergeSameAs rows (writeReleasesCore rows g)).1 _
  have hstage : (some (Node.company id).label, fun r : ReleaseRow =>
      runAll (linkCompany r.id) (r.companyRows.getD [])) ∈ releaseStages.stages := by
    simp [releaseStages]
  obtain ⟨t, ht, hrun⟩ := releaseStages.row_zone hstage rows g
  have hrow := row_runAll_runAll (v := .company id)
    (f := fun r : ReleaseRow => linkCompany r.id) (fun r row g => row_linkCompany r.id row _ g)
    (fun r => r.companyRows.getD []) rows t
  unfold prop
  rw [hlast, writeReleasesCore_eq, hrun, ← ht, hrow]
  have hprops : ∀ (row : CompanyRow) (old : Row),
      setProps [("name", .str row.name)] old "name" = .str row.name :=
    fun row old => setProps_of_mem (by simp) (List.mem_singleton_self ("name", _)) old
  exact updateRow_last hprops _ _

/-! ### Runs -/

/-- The name that an entry writes. -/
def CompanyEntry.written (entry : CompanyEntry) : PyValue := .str (entry.name.getD entry.id)

namespace Names

/-- A projection of records of some of these types. -/
def Action.Projects (types : List DataType) : Action → Prop
  | .batch t _ | .record t _ => t ∈ types
  | .backfill .. => False

/-- The usable entries of a company in the records that a transaction writes. -/
def Action.entries (env : Env) (company : String) (g : Graph) (a : Action) : List CompanyEntry :=
  (writtenRecords env g a).flatMap fun record =>
    (recordEntries env record).filter (·.id = company)

/-- Those that are the first of their company and role in their record. -/
def Action.keptEntries (env : Env) (company : String) (g : Graph) (a : Action) :
    List CompanyEntry :=
  (writtenRecords env g a).flatMap fun record =>
    (firstEntries (recordEntries env record)).filter (·.id = company)

/-- The entries of a company that a run processes, in order. -/
def processedEntries (env : Env) (company : String) :=
  along env fun g a => a.entries env company g

/-- The entries of a company that a run keeps, in order. -/
def keptEntries (env : Env) (company : String) :=
  along env fun g a => a.keptEntries env company g

/-- The names that the entries of a company carried in a run. -/
def carriedNames (env : Env) (company : String) (actions : List Action) (g : Graph) :
    List String :=
  (processedEntries env company actions g).filterMap (·.name)

section Companies

variable {env : Env} {company : String} {g : Graph}

/-- A release projection writes the rows of its records. -/
theorem step_releases {a : Action} (ha : a.Projects [.releases]) (g : Graph) :
    ∃ rows : List ReleaseRow,
      List.Forall₂ (RowFor env .releases) (writtenRecords env g a) rows ∧
        step env a g = writeReleases rows g := by
  cases a with
  | batch t messages =>
    obtain rfl := List.mem_singleton.mp ha
    exact step_batch env .releases messages g
  | record t record =>
    obtain rfl := List.mem_singleton.mp ha
    exact step_record env .releases record g
  | backfill kind lines => exact ha.elim

theorem map_written {rows : List CompanyRow} {entries : List CompanyEntry}
    (h : List.Forall₂ RowOfEntry rows entries) :
    (entries.filter (·.id = company)).map CompanyEntry.written =
      (rows.filter (CompanyRow.node · = .company company)).map fun row => .str row.name := by
  induction h with
  | nil => rfl
  | cons hrow _ ih =>
    rename_i row entry rows entries _
    have hnode : row.node = .company company ↔ entry.id = company := by
      rw [← hrow.1]
      simp [CompanyRow.node, Node.company]
    by_cases hid : entry.id = company
    · rw [List.filter_cons_of_pos (by simpa using hid),
        List.filter_cons_of_pos (by simpa using hnode.mpr hid), List.map_cons, List.map_cons, ih,
        CompanyEntry.written, hrow.2.2]
    · rw [List.filter_cons_of_neg (by simpa using hid),
        List.filter_cons_of_neg (by simpa [hnode] using hid), ih]

/-- The last entry that a release projection keeps of a company names it. -/
theorem prop_company_step {a : Action} (ha : a.Projects [.releases]) (g : Graph) :
    prop (step env a g) (.company company) "name" =
      ((a.keptEntries env company g).getLast?.map CompanyEntry.written).getD
        (prop g (.company company) "name") := by
  obtain ⟨rows, hrows, hstep⟩ := step_releases ha g
  have hentries : (a.keptEntries env company g).map CompanyEntry.written =
      ((rows.flatMap fun r => r.companyRows.getD []).filter
        (CompanyRow.node · = .company company)).map fun row => .str row.name := by
    rw [List.filter_flatMap, List.map_flatMap, Action.keptEntries, List.map_flatMap]
    exact flatMap_eq_of_forall₂ hrows fun _ _ h => map_written h.recordEntries
  rw [hstep, writeReleases_company, ← List.getLast?_map, ← List.getLast?_map, hentries]

/-- **The last entry that a run keeps of a company names it.** -/
theorem prop_company {actions : List Action} (h : ∀ a ∈ actions, a.Projects [.releases])
    (g : Graph) : prop (runAll (step env) actions g) (.company company) "name" =
      ((keptEntries env company actions g).getLast?.map CompanyEntry.written).getD
        (prop g (.company company) "name") := by
  induction actions generalizing g with
  | nil => rfl
  | cons a actions ih =>
    rw [runAll_cons, ih fun b hb => h b (List.mem_cons_of_mem _ hb),
      prop_company_step (h a (List.mem_cons_self ..)), keptEntries, along, List.getLast?_append]
    cases (along env _ actions (step env a g)).getLast? <;> rfl

/-- A run keeps only entries that it processes, and one of each company that it processes. -/
theorem keptEntries_subset (actions : List Action) (g : Graph) :
    keptEntries env company actions g ⊆ processedEntries env company actions g := by
  induction actions generalizing g with
  | nil => exact List.Subset.refl _
  | cons a actions ih =>
    refine List.append_subset.mpr ⟨fun e he => List.mem_append_left _ ?_, fun e he =>
      List.mem_append_right _ (ih _ he)⟩
    obtain ⟨record, hrecord, he⟩ := List.mem_flatMap.mp he
    obtain ⟨hfirst, hid⟩ := List.mem_filter.mp he
    exact List.mem_flatMap.mpr ⟨record, hrecord,
      List.mem_filter.mpr ⟨firstEntries_subset _ hfirst, hid⟩⟩

theorem exists_mem_keptEntries {actions : List Action} {e : CompanyEntry} {g : Graph}
    (he : e ∈ processedEntries env company actions g) :
    ∃ e', e' ∈ keptEntries env company actions g := by
  induction actions generalizing g with
  | nil => exact absurd he List.not_mem_nil
  | cons a actions ih =>
    rcases List.mem_append.mp he with he | he
    · obtain ⟨record, hrecord, he⟩ := List.mem_flatMap.mp he
      obtain ⟨hentry, hid⟩ := List.mem_filter.mp he
      obtain ⟨e', he', hid'⟩ := exists_mem_firstEntries hentry
      refine ⟨e', List.mem_append_left _ (List.mem_flatMap.mpr ⟨record, hrecord, ?_⟩)⟩
      exact List.mem_filter.mpr ⟨he', hid' ▸ hid⟩
    · obtain ⟨e', he'⟩ := ih he
      exact ⟨e', List.mem_append_right _ he'⟩

theorem id_of_mem_keptEntries {actions : List Action} {e : CompanyEntry}
    (he : e ∈ keptEntries env company actions g) : e.id = company := by
  obtain ⟨a, -, t, h⟩ := mem_along he
  obtain ⟨record, -, h⟩ := List.mem_flatMap.mp h
  exact of_decide_eq_true (List.mem_filter.mp h).2

/-- The names that entries carry are trimmed and not blank. -/
theorem trimmed_companyEntry {item : PyValue} {e : CompanyEntry} {s : String}
    (h : companyEntry env item = .ok (some e)) (hs : e.name = some s) : s ≠ "" ∧ strip s = s := by
  unfold companyEntry at h
  split_ifs at h
  · cases h
  simp only [bind_eq_ok] at h
  obtain ⟨role, -, id, -, h⟩ := h
  split at h
  · simp only [bind_eq_ok, pure_eq_ok] at h
    obtain ⟨name, -, h⟩ := h
    cases h
    exact trimmed_text hs
  · cases h

theorem trimmed_companyEntries {block : PyValue} {entries : List CompanyEntry}
    (h : companyEntries env block = .ok entries) {e : CompanyEntry} (he : e ∈ entries) {s : String}
    (hs : e.name = some s) : s ≠ "" ∧ strip s = s := by
  simp only [companyEntries, bind_eq_ok, pure_eq_ok] at h
  obtain ⟨value, -, items, -, usable, husable, rfl⟩ := h
  obtain ⟨entry, hentry, rfl⟩ := List.mem_filterMap.mp he
  obtain ⟨item, -, hitem⟩ := exists_left_of_mem (mapM_eq_ok.mp husable) hentry
  exact trimmed_companyEntry hitem hs

theorem trimmed_carriedNames {actions : List Action} {s : String}
    (h : s ∈ carriedNames env company actions g) : s ≠ "" ∧ strip s = s := by
  obtain ⟨e, he, hs⟩ := List.mem_filterMap.mp h
  obtain ⟨a, -, t, he⟩ := mem_along he
  obtain ⟨record, -, he⟩ := List.mem_flatMap.mp he
  have hentry := (List.mem_filter.mp he).1
  unfold recordEntries at hentry
  split at hentry
  · next entries hrecord =>
    obtain ⟨block, -, hblock⟩ := bind_eq_ok.mp hrecord
    cases block with
    | none => cases hblock
    | some block =>
      change (some <$> companyEntries env block) = _ at hblock
      cases hentries : companyEntries env block with
      | error error =>
        rw [hentries] at hblock
        cases hblock
      | ok entries' =>
        rw [hentries] at hblock
        cases hblock
        exact trimmed_companyEntries hentries hentry hs
  · exact absurd hentry List.not_mem_nil

/-- **When a company has a name that a credit carried.** At every point of a run of release
projections: if a processed entry of a company carried a name, then the name of the company is one
that a processed entry carried, exactly if the last entry that was kept of the company carries a name
or one of the names is the id of the company. All these names are trimmed and not blank. -/
theorem company_name_carried (env : Env) (company : String) {actions : List Action}
    (h : ∀ a ∈ actions, a.Projects [.releases]) (g : Graph) :
    ((carriedNames env company actions g ≠ [] → ∃ name ∈ carriedNames env company actions g,
        prop (runAll (step env) actions g) (.company company) "name" = .str name) ↔
      (carriedNames env company actions g ≠ [] →
        ∃ e, (keptEntries env company actions g).getLast? = some e ∧
          (e.name ≠ none ∨ company ∈ carriedNames env company actions g))) ∧
    ∀ name ∈ carriedNames env company actions g, name ≠ "" ∧ strip name = name := by
  refine ⟨imp_congr_right fun hcarried => ?_, fun _ => trimmed_carriedNames⟩
  obtain ⟨name, hname⟩ := List.exists_mem_of_ne_nil _ hcarried
  obtain ⟨e, he, -⟩ := List.mem_filterMap.mp hname
  obtain ⟨kept, hkept⟩ := exists_mem_keptEntries he
  obtain ⟨last, hlast⟩ : ∃ last, (keptEntries env company actions g).getLast? = some last :=
    Option.isSome_iff_exists.mp (List.getLast?_isSome.mpr (List.ne_nil_of_mem hkept))
  have hmem := List.mem_of_getLast? hlast
  have hprop : prop (runAll (step env) actions g) (.company company) "name" =
      .str (last.name.getD company) := by
    rw [prop_company h, hlast, ← id_of_mem_keptEntries hmem]
    rfl
  simp only [hprop, hlast, Option.some.injEq, exists_eq_left', PyValue.str.injEq]
  cases hlastName : last.name with
  | none => simp
  | some s =>
    have hs : s ∈ carriedNames env company actions g :=
      List.mem_filterMap.mpr ⟨last, keptEntries_subset actions g hmem, hlastName⟩
    simp [hs]

end Companies

/-- A release that credits company 5 for a role, with a name or without. -/
def creditRelease (id : String) (name : PyValue) : PyValue :=
  .obj [("id", .str id), ("sha256", .str id), ("companies", .obj [("items", .arr [.obj [
    ("discogs_id", .int 5), ("role", .str "pressed_by"), ("name", name)]])])]

theorem company_name_carried_emi :
    prop (runAll (step plainEnv) [.batch .releases [creditRelease "1" .null],
      .record .releases (creditRelease "2" (.str " EMI "))] ∅) (.company "5") "name" =
        .str "EMI" := by
  have hreleases : ∀ a ∈ [Action.batch .releases [creditRelease "1" .null],
      .record .releases (creditRelease "2" (.str " EMI "))], a.Projects [.releases] := by
    simp [Action.Projects]
  obtain ⟨name, hname, hprop⟩ :=
    (company_name_carried plainEnv "5" hreleases ∅).1.mpr (fun _ => by decide) (by decide)
  have hcarried : carriedNames plainEnv "5" [.batch .releases [creditRelease "1" .null],
      .record .releases (creditRelease "2" (.str " EMI "))] ∅ = ["EMI"] := by decide
  rw [hcarried, List.mem_singleton] at hname
  rw [hprop, hname]

/-- A credit without a name replaces the name that an earlier release gave the company. -/
theorem company_name_counterexample :
    carriedNames plainEnv "5" [.record .releases (creditRelease "1" (.str "EMI")),
      .record .releases (creditRelease "2" .null)] ∅ = ["EMI"] ∧
    prop (runAll (step plainEnv) [.record .releases (creditRelease "1" (.str "EMI")),
      .record .releases (creditRelease "2" .null)] ∅) (.company "5") "name" = .str "5" := by
  decide

end Names

end Graphinator
