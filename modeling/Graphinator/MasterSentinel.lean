import Graphinator.Asserted
import Graphinator.CompanyNames
import Graphinator.Lib.PyInt

/-!
# The master that is none

Discogs writes 0 for the master of a release that has none. A release projection and a batch of
masters know the ways to spell it. The projection of one master does not: it writes a master under
whatever id its record has.

## Main definitions

* `SentinelId`, `NoSentinel` : a key that means no master, and a graph without such a master.
* `Masterless`, `Underived` : a release record without a master, and a node without DERIVED_FROM
  edges.
* `Names.Action.KeepsOut`, `Names.Action.Prunes` : when a transaction writes no sentinel, and when it
  leaves no edge of a release without a master.

## Main results

* `Names.noSentinel_step` : what one transaction does to the sentinel.
* `Names.underived_step` : what it does to the edges of a release.
* `Names.sentinel_kept_out` : a run keeps the sentinel out exactly if its transactions do.
-/

namespace Graphinator

open PropertyGraph PyValue

/-- The keys that spell "no master": 0, and a text that is blank or says 0. -/
def SentinelId (key : PyValue) : Prop :=
  key = .int 0 ∨ ∃ s, key = .str s ∧ (strip s = "" ∨ strip s = noMasterId)

/-- No Master of the graph is the sentinel. -/
def NoSentinel (g : Graph) : Prop := ∀ key, .master key ∈ g.nodes → ¬SentinelId key

/-- The record of a release has no master that is usable. -/
def Masterless (record : PyValue) : Prop :=
  ∀ masterId, record.get "master_id" = .ok masterId → usableMasterId masterId = none

/-- No DERIVED_FROM edge leaves the node. -/
def Underived (g : Graph) (v : Node) : Prop :=
  ∀ e ∈ g.edges, e.arc.src = v → e.arc.kind ≠ .DERIVED_FROM

/-- The DERIVED_FROM edges of the node lead to masters. -/
def DerivedFromMasters (g : Graph) (v : Node) : Prop :=
  ∀ e ∈ g.edges, e.arc.src = v → e.arc.kind = .DERIVED_FROM → e.arc.dst.label = .master

section Ids

variable {key : PyValue} {text : String}

/-- A usable id is not the sentinel, nor is its text. -/
theorem not_sentinelId (h : usableMasterId key = some text) :
    ¬SentinelId key ∧ ¬SentinelId (.str text) := by
  cases key with
  | int n =>
    change (if toString n = "" ∨ toString n = noMasterId then none else some (toString n)) = _ at h
    split_ifs at h with hnone
    cases h
    rw [not_or] at hnone
    refine ⟨?_, ?_⟩
    · rintro (hzero | ⟨s, hs, -⟩)
      · rw [PyValue.int.inj hzero] at hnone
        exact hnone.2 rfl
      · cases hs
    · rintro (hzero | ⟨s, hs, hblank⟩)
      · cases hzero
      · rw [← PyValue.str.inj hs, strip_toString] at hblank
        exact hblank.elim hnone.1 hnone.2
  | str s =>
    change (if strip s = "" ∨ strip s = noMasterId then none else some (strip s)) = _ at h
    split_ifs at h with hnone
    cases h
    refine ⟨?_, ?_⟩
    · rintro (hzero | ⟨s', hs', hblank⟩)
      · cases hzero
      · rw [← PyValue.str.inj hs'] at hblank
        exact hnone hblank
    · rintro (hzero | ⟨s', hs', hblank⟩)
      · cases hzero
      · rw [← PyValue.str.inj hs', strip_strip] at hblank
        exact hnone hblank
  | _ => cases h

/-- The key of a usable id is the id. -/
theorem nodeKey_usable {id : PyValue} (h : usableMasterId id = some text)
    (hkey : nodeKey id = .ok key) : key = id := by
  cases id with
  | int n => exact (Except.ok.inj hkey).symm
  | str s => exact (Except.ok.inj hkey).symm
  | _ => cases h

end Ids

/-! ### Rows -/

section Rows

variable {env : Env} {record : PyValue}

theorem RowFor.release {r : ReleaseRow} (h : RowFor env .releases record r) :
    recordNode? .release record = some (.release r.id) ∧
      ∃ masterId, record.get "master_id" = .ok masterId ∧ r.masterId = usableMasterId masterId := by
  rcases h with h | h
  · refine ⟨NodeWriter.recordNode?_eq (T := releasesWriter env) h, ?_⟩
    change releaseRow env record = .ok r at h
    simp only [releaseRow, bind_eq_ok, pure_eq_ok] at h
    grind
  · change releaseRecord env record = .ok r at h
    simp only [releaseRecord, bind_eq_ok, pure_eq_ok] at h
    refine ⟨?_, by grind⟩
    obtain ⟨id, hid, hkey⟩ : ∃ id, record.item "id" = .ok id ∧ nodeKey id = .ok r.id := by grind
    simp only [recordNode?, get_of_item hid, idNode?, hkey]

theorem RowFor.master {m : MasterRow} (h : RowFor env .masters record m) :
    recordNode? .master record = some (.master m.id) := by
  rcases h with h | h
  · exact NodeWriter.recordNode?_eq (T := mastersWriter env) h
  · change masterRecord record = .ok m at h
    simp only [masterRecord, bind_eq_ok, pure_eq_ok] at h
    obtain ⟨id, hid, hkey⟩ : ∃ id, record.item "id" = .ok id ∧ nodeKey id = .ok m.id := by grind
    simp only [recordNode?, get_of_item hid, idNode?, hkey]

/-- A release adds no sentinel. -/
theorem not_sentinelId_of_release {r : ReleaseRow} (h : RowFor env .releases record r) {key : PyValue}
    (hkey : .master key ∈ r.nodes) : ¬SentinelId key := by
  obtain ⟨-, masterId, -, hmaster⟩ := h.release
  have hmem : key ∈ (r.masterId.map PyValue.str).toList := hkey
  rw [hmaster] at hmem
  cases hid : usableMasterId masterId with
  | none => simp [hid] at hmem
  | some text =>
    rw [hid] at hmem
    obtain rfl : key = .str text := by simpa using hmem
    exact (not_sentinelId hid).2

end Rows

/-! ### Edges -/

section Edges

variable {env : Env} {g : Graph} {v w : Node} {r : ReleaseRow} {records : List PyValue}
  {rows : List ReleaseRow}

theorem underived_iff : Underived g v ↔ ∀ w, ¬g.HasArc ⟨.DERIVED_FROM, v, w⟩ := by
  constructor
  · rintro h w harc
    obtain ⟨n, he⟩ := hasArc_iff.mp harc
    exact h _ he rfl rfl
  · rintro h ⟨⟨kind, src, dst⟩, n⟩ he rfl rfl
    exact h dst (hasArc_of_mem he)

theorem derivedFromMasters_iff :
    DerivedFromMasters g v ↔ ∀ w, g.HasArc ⟨.DERIVED_FROM, v, w⟩ → w.label = .master := by
  constructor
  · rintro h w harc
    obtain ⟨n, he⟩ := hasArc_iff.mp harc
    exact h _ he rfl rfl
  · rintro h ⟨⟨kind, src, dst⟩, n⟩ he rfl rfl
    exact h dst (hasArc_of_mem he)

/-- The DERIVED_FROM edges that a release drops. -/
theorem mem_drops_derivedFrom : (⟨.DERIVED_FROM, v, w⟩ : Arc Node Rel) ∈ r.Drops ↔
    v = .release r.id ∧ w.label = .master ∧ w.key ∉ (r.masterId.map PyValue.str).toList := by
  simp [ReleaseRow.Drops, StaleReleaseEdge, droppedMedia, droppedArcs, droppedCompanies,
    droppedCredits, staleCompanyEdge, staleCreditEdge]

/-- The one that it asserts. -/
theorem mem_asserts_derivedFrom : (⟨.DERIVED_FROM, v, w⟩ : Arc Node Rel) ∈ r.Asserts ↔
    v = .release r.id ∧ ∃ m, r.masterId = some m ∧ w = .master (.str m) := by
  have hasserts : (⟨.DERIVED_FROM, v, w⟩ : Arc Node Rel) ∈ r.Asserts ↔
      ∃ m, r.masterId = some m ∧ v = .release r.id ∧ w = .master (.str m) := by
    simp [ReleaseRow.Asserts, arcsTo, partOfArcs, mediaArcs, companyArcs, creditArcs]
  rw [hasserts]
  constructor
  · rintro ⟨m, hm, hv, hw⟩
    exact ⟨hv, m, hm, hw⟩
  · rintro ⟨hv, m, hm, hw⟩
    exact ⟨m, hm, hv, hw⟩

/-- The row of a record without a master has none, and conversely. -/
theorem RowFor.masterless {record : PyValue} (h : RowFor env .releases record r) :
    Masterless record ↔ r.masterId = none := by
  obtain ⟨-, masterId, hget, hmaster⟩ := h.release
  rw [hmaster]
  constructor
  · exact fun hnone => hnone masterId hget
  · rintro hnone masterId' hget'
    obtain rfl : masterId = masterId' := Except.ok.inj (hget.symm.trans hget')
    exact hnone

/-- A batch leaves a release without DERIVED_FROM edges exactly if none of the records of the release
has a master and the edges that it had lead to masters. -/
theorem underived_writeReleases (hrows : List.Forall₂ (RowFor env .releases) records rows)
    {key record : PyValue} (hrecord : record ∈ records)
    (hnode : recordNode? .release record = some (.release key)) (hnone : Masterless record) :
    Underived (writeReleases rows g) (.release key) ↔
      (∀ other ∈ records, recordNode? .release other = some (.release key) → Masterless other) ∧
        DerivedFromMasters g (.release key) := by
  have hid : ∀ {other : PyValue} {r : ReleaseRow}, RowFor env .releases other r →
      (recordNode? .release other = some (.release key) ↔ (.release key : Node) = .release r.id) := by
    intro other r hrow
    rw [hrow.release.1, Option.some.injEq, eq_comm]
  rw [underived_iff, derivedFromMasters_iff]
  have harcs := fun m => @arcs_writeReleases rows ⟨.DERIVED_FROM, .release key, m⟩ g
    (show Rel.DERIVED_FROM ≠ .SAME_AS by simp)
  simp only [harcs, mem_drops_derivedFrom, mem_asserts_derivedFrom]
  constructor
  · intro h
    refine ⟨fun other hother hnode' => ?_, fun w harc => ?_⟩
    · obtain ⟨r, hr, hrow⟩ := exists_right_of_mem hrows hother
      rw [hrow.masterless]
      by_contra hsome
      obtain ⟨m, hm⟩ := Option.ne_none_iff_exists'.mp hsome
      exact h (.master (.str m)) (Or.inr ⟨r, hr, (hid hrow).mp hnode', m, hm, rfl⟩)
    · by_contra hlabel
      exact h w (Or.inl ⟨harc, fun r _ hdrop => hlabel hdrop.2.1⟩)
  · rintro ⟨hall, hmasters⟩ w (⟨harc, hkept⟩ | ⟨r, hr, hown, m, hm, -⟩)
    · obtain ⟨r, hr, hrow⟩ := exists_right_of_mem hrows hrecord
      refine hkept r hr ⟨(hid hrow).mp hnode, hmasters w harc, ?_⟩
      simp [hrow.masterless.mp hnone]
    · obtain ⟨other, hother, hrow⟩ := exists_left_of_mem hrows hr
      rw [hrow.masterless.mp (hall other hother ((hid hrow).mpr hown))] at hm
      cases hm

end Edges

/-! ### Transactions -/

namespace Names

/-- The steps of a run, each with the graph that it finds. -/
def visited (env : Env) : List Action → Graph → List (Graph × Action) :=
  along env fun g a => [(g, a)]

/-- The projection of one master writes no sentinel. -/
def Action.KeepsOut (env : Env) (g : Graph) : Action → Prop
  | .record .masters r => r ∈ writtenRecords env g (.record .masters r) →
      ∀ key, recordNode? .master r = some (.master key) → ¬SentinelId key
  | _ => True

/-- A release whose last record has no master has no DERIVED_FROM edge after the transaction. -/
def Action.Underives (env : Env) (g : Graph) (a : Action) : Prop :=
  ∀ key record, (a.ownRecords env g (.release key)).getLast? = some record → Masterless record →
    Underived (step env a g) (.release key)

/-- Where the last record of a release has no master, no other record of it in the transaction has
one, and its DERIVED_FROM edges lead to masters. -/
def Action.Prunes (env : Env) (g : Graph) (a : Action) : Prop :=
  ∀ key record, (a.ownRecords env g (.release key)).getLast? = some record → Masterless record →
    (∀ other ∈ a.ownRecords env g (.release key), Masterless other) ∧
      DerivedFromMasters g (.release key)

section Steps

variable {env : Env} {g : Graph} {a : Action}

/-- The messages that a batch writes have a usable id. -/
theorem usable_writtenRecords {t : DataType} {messages : List PyValue} {record : PyValue}
    (h : record ∈ writtenRecords env g (.batch t messages)) :
    (writerOf env t).projector.usable record = .ok true := by
  simp only [writtenRecords] at h
  split at h
  · next usable hwrite husable =>
    obtain ⟨m, hm, hrecord⟩ := List.mem_filterMap.mp (List.mem_filter.mp h).1
    split_ifs at hrecord with htrue
    obtain rfl : m.1 = record := Option.some.inj hrecord
    rw [mapM_eq_ok, List.forall₂_iff_zip] at husable
    rw [husable.2 hm, htrue]
  · exact absurd h List.not_mem_nil

theorem eq_of_mem_writtenRecords {t : DataType} {r record : PyValue}
    (h : record ∈ writtenRecords env g (.record t r)) : record = r := by
  simp only [writtenRecords] at h
  split at h
  · exact List.mem_singleton.mp h
  · exact absurd h List.not_mem_nil

/-- A projection takes no node away. -/
theorem mem_step (ha : a.Projects [.masters, .releases]) {v : Node} (hv : v ∈ g.nodes) :
    v ∈ (step env a g).nodes := by
  cases a with
  | batch t messages =>
    obtain ⟨rows, -, hstep⟩ := step_batch env t messages g
    rw [hstep]
    exact (writerOf env t).write_mem rows g (Or.inl hv)
  | record t record =>
    obtain ⟨rows, -, hstep⟩ := step_record env t record g
    rw [hstep]
    exact (writerOf env t).write_mem rows g (Or.inl hv)
  | backfill kind lines => exact ha.elim

/-- A batch of masters writes no sentinel. -/
theorem not_sentinelId_of_batch {messages : List PyValue} {rows : List MasterRow}
    (hrows : List.Forall₂ (RowFor env .masters)
      (writtenRecords env g (.batch .masters messages)) rows) {m : MasterRow} (hm : m ∈ rows) :
    ¬SentinelId m.id := by
  obtain ⟨record, hrecord, hrow⟩ := exists_left_of_mem hrows hm
  have husable := usable_writtenRecords hrecord
  change hasMasterId record = .ok true at husable
  simp only [hasMasterId, bind_eq_ok, pure_eq_ok] at husable
  obtain ⟨id, hid, hsome⟩ := husable
  obtain ⟨text, htext⟩ := Option.isSome_iff_exists.mp hsome
  have hnode : recordNode? .master record = some (.master m.id) := hrow.master
  have hkey : nodeKey id = .ok m.id := by
    simp only [recordNode?, hid, idNode?] at hnode
    split at hnode
    · next key hkey =>
      cases hnode
      exact hkey
    · cases hnode
  rw [nodeKey_usable htext hkey]
  exact (not_sentinelId htext).1

theorem noSentinel_releases {records : List PyValue} {rows : List ReleaseRow}
    (hrows : List.Forall₂ (RowFor env .releases) records rows) (hg : NoSentinel g) :
    NoSentinel (writeReleases rows g) := by
  intro key hkey
  rcases nodes_writeReleases hkey with hkey | ⟨r, hr, hmem⟩
  · exact hg key hkey
  · obtain ⟨record, -, hrow⟩ := exists_left_of_mem hrows hr
    exact not_sentinelId_of_release hrow hmem

/-- **What a transaction does to the sentinel.** -/
theorem noSentinel_step (ha : a.Projects [.masters, .releases]) (hg : NoSentinel g) :
    NoSentinel (step env a g) ↔ a.KeepsOut env g := by
  cases a with
  | batch t messages =>
    refine iff_of_true ?_ (by cases t <;> trivial)
    obtain rfl | rfl : t = .masters ∨ t = .releases := List.mem_pair.mp ha
    · obtain ⟨rows, hrows, hstep⟩ := step_batch env .masters messages g
      rw [hstep]
      intro key hkey
      rcases nodes_writeMasters hkey with hkey | ⟨m, hm, hmem⟩
      · exact hg key hkey
      · obtain rfl : key = m.id := congrArg Node.key (hmem rfl)
        exact not_sentinelId_of_batch hrows hm
    · obtain ⟨rows, hrows, hstep⟩ := step_batch env .releases messages g
      rw [hstep]
      exact noSentinel_releases hrows hg
  | record t r =>
    obtain rfl | rfl : t = .masters ∨ t = .releases := List.mem_pair.mp ha
    · obtain ⟨rows, hrows, hstep⟩ := step_record env .masters r g
      rw [hstep]
      constructor
      · intro hout hwritten key hnode
        obtain ⟨m, hm, hrow⟩ := exists_right_of_mem hrows hwritten
        have hown : Node.master m.id = .master key :=
          Option.some.inj (hrow.master.symm.trans hnode)
        exact hout key ((writerOf env .masters).write_mem rows g (Or.inr ⟨m, hm, hown⟩))
      · intro hout key hkey
        rcases nodes_writeMasters hkey with hkey | ⟨m, hm, hmem⟩
        · exact hg key hkey
        · obtain rfl : key = m.id := congrArg Node.key (hmem rfl)
          obtain ⟨record, hrecord, hrow⟩ := exists_left_of_mem hrows hm
          obtain rfl := eq_of_mem_writtenRecords hrecord
          exact hout hrecord m.id hrow.master
    · refine iff_of_true ?_ trivial
      obtain ⟨rows, hrows, hstep⟩ := step_record env .releases r g
      rw [hstep]
      exact noSentinel_releases hrows hg
  | backfill kind lines => exact ha.elim

/-- What a transaction of releases does to the edges of a release. -/
theorem underives_iff_prunes {rows : List ReleaseRow}
    (hrows : List.Forall₂ (RowFor env .releases) (writtenRecords env g a) rows)
    (hstep : step env a g = writeReleases rows g)
    (hown : ∀ v, a.ownRecords env g v =
      (writtenRecords env g a).filter fun record => recordNode? .release record = some v) :
    a.Underives env g ↔ a.Prunes env g := by
  refine forall₂_congr fun key record => imp_congr_right fun hlast => imp_congr_right fun hnone => ?_
  rw [hown] at hlast
  obtain ⟨hmem, hnode⟩ := List.mem_filter.mp (List.mem_of_getLast? hlast)
  rw [hstep, underived_writeReleases hrows hmem (of_decide_eq_true hnode) hnone, hown]
  simp only [List.mem_filter, decide_eq_true_eq, and_imp]

/-- A transaction of masters writes no release. -/
theorem ownRecords_masters {key : PyValue} (ha : a.Projects [.masters]) :
    a.ownRecords env g (.release key) = [] := by
  have hne : (Node.release key).label ≠ DataType.masters.nodeLabel := nofun
  cases a with
  | batch t messages =>
    obtain rfl := List.mem_singleton.mp ha
    exact filter_recordNode? hne
  | record t r =>
    obtain rfl := List.mem_singleton.mp ha
    exact filter_recordNode? hne
  | backfill kind lines => rfl

/-- **What a transaction does to the edges of a release.** -/
theorem underived_step (ha : a.Projects [.masters, .releases]) :
    a.Underives env g ↔ a.Prunes env g := by
  have hmasters : a.Projects [.masters] → (a.Underives env g ↔ a.Prunes env g) := by
    intro ha
    refine iff_of_true (fun key record hlast => ?_) fun key record hlast => ?_ <;>
    · rw [ownRecords_masters ha] at hlast
      cases hlast
  cases a with
  | batch t messages =>
    obtain rfl | rfl : t = .masters ∨ t = .releases := List.mem_pair.mp ha
    · exact hmasters (List.mem_singleton_self _)
    · obtain ⟨rows, hrows, hstep⟩ := step_batch env .releases messages g
      exact underives_iff_prunes hrows hstep fun _ => rfl
  | record t r =>
    obtain rfl | rfl : t = .masters ∨ t = .releases := List.mem_pair.mp ha
    · exact hmasters (List.mem_singleton_self _)
    · obtain ⟨rows, hrows, hstep⟩ := step_record env .releases r g
      exact underives_iff_prunes hrows hstep fun _ => rfl
  | backfill kind lines => exact ha.elim

theorem mem_run {actions : List Action} (h : ∀ a ∈ actions, a.Projects [.masters, .releases])
    {g : Graph} {v : Node} (hv : v ∈ g.nodes) : v ∈ (runAll (step env) actions g).nodes :=
  runAll_invariant (I := fun t : Graph => v ∈ t.nodes) (fun a ha _ ht => mem_step (h a ha) ht) hv

/-- **The sentinel is kept out.** A run of master and release projections on a graph without a
sentinel leaves none, and leaves no DERIVED_FROM edge at a release whose last record in a transaction
has no master, exactly if in every transaction: the projection of a single master writes no sentinel,
and where the last record of a release has no master, no other record of it has one and its
DERIVED_FROM edges led to masters. -/
theorem sentinel_kept_out (env : Env) {actions : List Action}
    (h : ∀ a ∈ actions, a.Projects [.masters, .releases]) {g : Graph} (hg : NoSentinel g) :
    (NoSentinel (runAll (step env) actions g) ∧
        ∀ s ∈ visited env actions g, s.2.Underives env s.1) ↔
      ∀ s ∈ visited env actions g, s.2.KeepsOut env s.1 ∧ s.2.Prunes env s.1 := by
  induction actions generalizing g with
  | nil => simp [visited, along, hg]
  | cons a actions ih =>
    have ha := h a (List.mem_cons_self ..)
    have hrest := fun b hb => h b (List.mem_cons_of_mem a hb)
    have hvisited : visited env (a :: actions) g = (g, a) :: visited env actions (step env a g) :=
      rfl
    rw [hvisited, List.forall_mem_cons, List.forall_mem_cons, runAll_cons, underived_step ha,
      ← noSentinel_step ha hg]
    constructor
    · rintro ⟨hout, hprunes, hall⟩
      have hstep : NoSentinel (step env a g) := fun key hkey => hout key (mem_run hrest hkey)
      exact ⟨⟨hstep, hprunes⟩, (ih hrest hstep).mp ⟨hout, hall⟩⟩
    · rintro ⟨⟨hstep, hprunes⟩, hall⟩
      obtain ⟨hout, hall⟩ := (ih hrest hstep).mpr hall
      exact ⟨hout, hprunes, hall⟩

end Steps

/-- A release of some master, or of none. -/
def releaseOf (sha256 : String) (masterId : PyValue) : PyValue :=
  .obj [("id", .str "1"), ("sha256", .str sha256), ("master_id", masterId)]

/-- A release that names a master, and then a version that names none. -/
def unmastered : List Action :=
  [.record .releases (releaseOf "a" (.str "7")), .batch .releases [releaseOf "b" (.str " 0 ")]]

theorem sentinel_kept_out_zero : NoSentinel (runAll (step plainEnv) unmastered ∅) ∧
    ∀ s ∈ visited plainEnv unmastered ∅, s.2.Underives plainEnv s.1 := by
  have hprojects : ∀ a ∈ unmastered, a.Projects [.masters, .releases] := by
    simp [unmastered, Action.Projects]
  have hempty : NoSentinel ∅ := fun key hkey => absurd hkey (Table.notMem_empty _)
  refine (sentinel_kept_out plainEnv hprojects hempty).mpr fun s hs => ?_
  rcases List.mem_pair.mp hs with rfl | rfl
  · refine ⟨trivial, fun key record hlast hnone => ?_⟩
    have hwritten : writtenRecords plainEnv ∅ (.record .releases (releaseOf "a" (.str "7"))) =
        [releaseOf "a" (.str "7")] := by decide
    have hmem := (List.mem_filter.mp (List.mem_of_getLast? hlast)).1
    rw [hwritten, List.mem_singleton] at hmem
    rw [hmem] at hnone
    exact absurd (hnone (.str "7") rfl) (by decide)
  · refine ⟨trivial, fun key record hlast hnone => ⟨fun other hother => ?_, fun e he _ => ?_⟩⟩
    · have hwritten : writtenRecords plainEnv
          (step plainEnv (.record .releases (releaseOf "a" (.str "7"))) ∅)
          (.batch .releases [releaseOf "b" (.str " 0 ")]) = [releaseOf "b" (.str " 0 ")] := by decide
      have hmem := (List.mem_filter.mp (List.mem_of_getLast? hlast)).1
      have hmem' := (List.mem_filter.mp hother).1
      rw [hwritten, List.mem_singleton] at hmem hmem'
      rwa [hmem', ← hmem]
    · have hmasters : ∀ e ∈ (step plainEnv (.record .releases (releaseOf "a" (.str "7")))
          ∅).edges.keys, e.arc.kind = .DERIVED_FROM → e.arc.dst.label = .master := by decide
      exact hmasters e he

/-- A master record. -/
def masterOf (id : PyValue) : PyValue := .obj [("id", id), ("sha256", .str "m")]

/-- The projection of one master writes the sentinel. A batch that names a master for a release and
then none leaves the edge. -/
theorem sentinel_counterexample :
    ¬NoSentinel (runAll (step plainEnv) [.record .masters (masterOf (.str "0"))] ∅) ∧
    (step plainEnv (.batch .releases [releaseOf "a" (.str "7"), releaseOf "b" (.str "0")]) ∅).HasArc
      ⟨.DERIVED_FROM, .release (.str "1"), .master (.str "7")⟩ := by
  refine ⟨fun h => ?_, by decide⟩
  have hnode : Node.master (.str "0") ∈
      (runAll (step plainEnv) [.record .masters (masterOf (.str "0"))] ∅).nodes := by decide
  exact h _ hnode (Or.inr ⟨"0", rfl, by decide⟩)

end Names

end Graphinator
