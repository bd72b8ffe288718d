import Mathlib.Data.Finset.Basic
import Mathlib.Data.Fintype.Basic
import Mathlib.Data.List.Basic

/-!
# The `ExtractionCompletion` nodes

The durable record of a dump: which of the four consumers have signalled `extraction_complete`
for a version, and what became of its maintenance. A graph may hold several nodes for one
version, left by first writes that raced before the latch lock existed, so every statement here
acts on all the nodes of its version.

The functions are the Cypher statements of `graphinator.py`, each as one atomic step of the
store. `datetime()` is the argument `now`, an instant counted from the epoch.

## Main definitions

* `ExtractionCompletion`, `CompletionStore`.
* `loadExtractionSignals`, `persistExtractionSignals`, `isExtractionMaintained`,
  `IsLatestExtraction`.
* `stampMaintenanceSuccess`, `recordMaintenanceFailure`, `stampStatsVersion`.

## Main results

* `loadExtractionSignals_persist` : a persist adds its signals to those of its version.
* `loadExtractionSignals_persist_of_ne` : and leaves those of other versions alone.
-/

namespace Graphinator

/-- The four entity types, one queue each. -/
inductive DataType
  | artists | labels | masters | releases
deriving DecidableEq, Repr

instance : Fintype DataType where
  elems := {.artists, .labels, .masters, .releases}
  complete t := by cases t <;> decide

/-- `DATA_TYPES`, in the order of the catalog contract. -/
def dataTypes : List DataType := [.artists, .labels, .masters, .releases]

/-- `DATA_TYPES` as the set that `issuperset` is asked about. -/
def allDataTypes : Finset DataType := dataTypes.toFinset

@[simp] theorem mem_dataTypes (t : DataType) : t ∈ dataTypes := by cases t <;> decide

@[simp] theorem mem_allDataTypes (t : DataType) : t ∈ allDataTypes := by
  simp [allDataTypes]

/-- The values of `maintenance_status`. -/
inductive MaintenanceStatus
  | succeeded | failed
deriving DecidableEq, Repr

/-- One `(:ExtractionCompletion)` node; an absent property is `none`. -/
structure ExtractionCompletion where
  version : String
  createdAt : Option ℕ := none
  updatedAt : Option ℕ := none
  signals : Option (List DataType) := none
  maintainedAt : Option ℕ := none
  maintenanceStatus : Option MaintenanceStatus := none
  maintenanceError : Option String := none
  maintenanceFailedAt : Option ℕ := none
  statsVersion : Option ℕ := none
deriving DecidableEq, Repr

/-- The `ExtractionCompletion` nodes of a graph. -/
abbrev CompletionStore := List ExtractionCompletion

namespace CompletionStore

/-- `_load_extraction_signals`: the signals on any node of the version. -/
def loadExtractionSignals (store : CompletionStore) (version : String) : Finset DataType :=
  ((store.filter (·.version = version)).flatMap fun m => m.signals.getD []).toFinset

/-- The `reduce` of the latch statement: append each signal not yet recorded. -/
def reduceSignals (recorded signals : List DataType) : List DataType :=
  signals.foldl (fun acc signal => if signal ∈ acc then acc else acc ++ [signal]) recorded

/-- The properties the latch statement sets on a node it merged. -/
def setSignals (now : ℕ) (signals : List DataType) (m : ExtractionCompletion) :
    ExtractionCompletion :=
  { m with
    signals := some (reduceSignals (m.signals.getD []) signals)
    updatedAt := some now }

/-- `_persist_extraction_signals`: merge the node of the version and union the signals into it.
`MERGE` binds every node of the version, and creates one only where there is none. -/
def persistExtractionSignals (store : CompletionStore) (now : ℕ) (version : String)
    (signals : Finset DataType) : CompletionStore :=
  let sorted := dataTypes.filter (· ∈ signals)
  if store.any (·.version = version) then
    store.map fun m => if m.version = version then setSignals now sorted m else m
  else
    store ++ [setSignals now sorted { version, createdAt := some now }]

/-- `_is_extraction_maintained`: some node of the version carries `maintained_at`. -/
def isExtractionMaintained (store : CompletionStore) (version : String) : Bool :=
  store.any fun m => m.version = version && m.maintainedAt.isSome

/-- `_latest_extraction_version` may answer `version`: no node was created after one of its
nodes. A node without `created_at` counts as created at the epoch, and ties are not ordered. -/
def IsLatestExtraction (store : CompletionStore) (version : String) : Prop :=
  ∃ m ∈ store, m.version = version ∧ ∀ m' ∈ store, m'.createdAt.getD 0 ≤ m.createdAt.getD 0

instance (store : CompletionStore) (version : String) :
    Decidable (store.IsLatestExtraction version) :=
  inferInstanceAs (Decidable (∃ m ∈ store, _))

/-- `_stamp_maintenance_success`, or `none` where it raises: there is no node to stamp. -/
def stampMaintenanceSuccess (store : CompletionStore) (now statsVersion : ℕ) (version : String) :
    Option CompletionStore :=
  if store.any (·.version = version) then
    some <| store.map fun m =>
      if m.version = version then
        { m with
          maintainedAt := some (m.maintainedAt.getD now)
          maintenanceStatus := some .succeeded
          statsVersion := some statsVersion
          maintenanceError := none
          maintenanceFailedAt := none }
      else m
  else none

/-- `MAINTENANCE_ERROR_MAX_CHARS`. -/
def maintenanceErrorMaxChars : ℕ := 500

/-- `_record_maintenance_failure`: a node that is already stamped is left untouched. -/
def recordMaintenanceFailure (store : CompletionStore) (now : ℕ) (version error : String) :
    CompletionStore :=
  store.map fun m =>
    if m.version = version ∧ m.maintainedAt = none then
      { m with
        maintenanceStatus := some .failed
        maintenanceError := some (String.ofList (error.toList.take maintenanceErrorMaxChars))
        maintenanceFailedAt := some now }
    else m

/-- `_stamp_stats_version`, or `none` where it raises: there is no node to stamp. -/
def stampStatsVersion (store : CompletionStore) (statsVersion : ℕ) (version : String) :
    Option CompletionStore :=
  if store.any (·.version = version) then
    some <| store.map fun m =>
      if m.version = version then { m with statsVersion := some statsVersion } else m
  else none

/-! ### The signals of a version -/

theorem mem_loadExtractionSignals {store : CompletionStore} {version : String} {t : DataType} :
    t ∈ store.loadExtractionSignals version ↔
      ∃ m ∈ store, m.version = version ∧ t ∈ m.signals.getD [] := by
  simp [loadExtractionSignals, and_assoc]

theorem mem_reduceSignals {recorded signals : List DataType} {t : DataType} :
    t ∈ reduceSignals recorded signals ↔ t ∈ recorded ∨ t ∈ signals := by
  induction signals generalizing recorded with
  | nil => simp [reduceSignals]
  | cons signal rest ih =>
    have hstep : reduceSignals recorded (signal :: rest) =
        reduceSignals (if signal ∈ recorded then recorded else recorded ++ [signal]) rest := rfl
    rw [hstep, ih]
    split_ifs with h
    · simp only [List.mem_cons]
      constructor
      · rintro (ht | ht)
        · exact Or.inl ht
        · exact Or.inr (Or.inr ht)
      · rintro (ht | rfl | ht)
        · exact Or.inl ht
        · exact Or.inl h
        · exact Or.inr ht
    · simp only [List.mem_append, List.mem_cons, List.not_mem_nil, or_false, or_assoc]

@[simp] theorem setSignals_version (now : ℕ) (signals : List DataType)
    (m : ExtractionCompletion) : (setSignals now signals m).version = m.version := rfl

theorem mem_setSignals {now : ℕ} {signals : List DataType} {m : ExtractionCompletion}
    {t : DataType} : t ∈ (setSignals now signals m).signals.getD [] ↔
      t ∈ m.signals.getD [] ∨ t ∈ signals := by
  simp [setSignals, mem_reduceSignals]

/-- A statement that maps nodes without touching versions or signals leaves the signals of every
version alone. -/
theorem loadExtractionSignals_map {store : CompletionStore}
    {f : ExtractionCompletion → ExtractionCompletion} (hv : ∀ m, (f m).version = m.version)
    (hs : ∀ m, (f m).signals = m.signals) (version : String) :
    loadExtractionSignals (store.map f) version = store.loadExtractionSignals version := by
  ext t
  simp [mem_loadExtractionSignals, hv, hs]

/-- The latch statement adds its signals to those of its version. -/
theorem loadExtractionSignals_persist (store : CompletionStore) (now : ℕ) (version : String)
    (signals : Finset DataType) :
    (store.persistExtractionSignals now version signals).loadExtractionSignals version =
      store.loadExtractionSignals version ∪ signals := by
  ext t
  rw [persistExtractionSignals, Finset.mem_union, mem_loadExtractionSignals,
    mem_loadExtractionSignals]
  split_ifs with h
  · obtain ⟨m₀, hm₀, hv₀⟩ := List.any_eq_true.mp h
    simp only [List.mem_map, exists_exists_and_eq_and]
    constructor
    · rintro ⟨m, hm, hv, ht⟩
      by_cases hmv : m.version = version
      · rw [if_pos hmv, mem_setSignals] at ht
        rcases ht with ht | ht
        · exact Or.inl ⟨m, hm, hmv, ht⟩
        · exact Or.inr (by simpa using ht)
      · simp [hmv] at hv
    · have hv₀ : m₀.version = version := by simpa using hv₀
      rintro (⟨m, hm, hv, ht⟩ | ht)
      · exact ⟨m, hm, by simp [hv], by rw [if_pos hv, mem_setSignals]; exact Or.inl ht⟩
      · refine ⟨m₀, hm₀, by simp [hv₀], ?_⟩
        rw [if_pos hv₀, mem_setSignals]
        exact Or.inr (by simpa using ht)
  · have hnone : ∀ m ∈ store, m.version ≠ version := by simpa using h
    constructor
    · rintro ⟨m, hm, hv, ht⟩
      rcases List.mem_append.mp hm with hm | hm
      · exact absurd hv (hnone m hm)
      · obtain rfl := List.mem_singleton.mp hm
        exact Or.inr (by simpa [mem_setSignals] using ht)
    · rintro (⟨m, hm, hv, -⟩ | ht)
      · exact absurd hv (hnone m hm)
      · exact ⟨_, List.mem_append_right _ (List.mem_singleton_self _), rfl, by
          rw [mem_setSignals]
          exact Or.inr (by simpa using ht)⟩

/-- The latch statement leaves the signals of other versions alone. -/
theorem loadExtractionSignals_persist_of_ne {version version' : String} (hne : version' ≠ version)
    (store : CompletionStore) (now : ℕ) (signals : Finset DataType) :
    (store.persistExtractionSignals now version signals).loadExtractionSignals version' =
      store.loadExtractionSignals version' := by
  ext t
  rw [persistExtractionSignals, mem_loadExtractionSignals, mem_loadExtractionSignals]
  split_ifs with h
  · simp only [List.mem_map, exists_exists_and_eq_and]
    refine exists_congr fun m => and_congr_right fun _ => ?_
    by_cases hmv : m.version = version
    · simp [hmv, Ne.symm hne]
    · simp [hmv]
  · constructor
    · rintro ⟨m, hm, hv, ht⟩
      rcases List.mem_append.mp hm with hm | hm
      · exact ⟨m, hm, hv, ht⟩
      · obtain rfl := List.mem_singleton.mp hm
        exact absurd hv.symm hne
    · rintro ⟨m, hm, hv, ht⟩
      exact ⟨m, List.mem_append_left _ hm, hv, ht⟩

/-- No persist takes a signal of any version away. -/
theorem subset_loadExtractionSignals_persist (store : CompletionStore) (now : ℕ)
    (version version' : String) (signals : Finset DataType) :
    store.loadExtractionSignals version' ⊆
      (store.persistExtractionSignals now version signals).loadExtractionSignals version' := by
  by_cases h : version' = version
  · subst h
    rw [loadExtractionSignals_persist]
    exact Finset.subset_union_left
  · rw [loadExtractionSignals_persist_of_ne h]

@[simp] theorem loadExtractionSignals_recordFailure (store : CompletionStore) (now : ℕ)
    (version error version' : String) :
    (store.recordMaintenanceFailure now version error).loadExtractionSignals version' =
      store.loadExtractionSignals version' :=
  loadExtractionSignals_map (fun m => by split_ifs <;> rfl) (fun m => by split_ifs <;> rfl) _

theorem loadExtractionSignals_stampSuccess {store store' : CompletionStore} {now sv : ℕ}
    {version : String} (h : store.stampMaintenanceSuccess now sv version = some store')
    (version' : String) :
    store'.loadExtractionSignals version' = store.loadExtractionSignals version' := by
  unfold stampMaintenanceSuccess at h
  split_ifs at h
  obtain rfl := Option.some.inj h
  exact loadExtractionSignals_map (fun m => by split_ifs <;> rfl) (fun m => by split_ifs <;> rfl) _

/-! ### The stamp -/

theorem isExtractionMaintained_iff {store : CompletionStore} {version : String} :
    store.isExtractionMaintained version = true ↔
      ∃ m ∈ store, m.version = version ∧ m.maintainedAt.isSome := by
  simp [isExtractionMaintained]

/-- A statement that keeps versions and sets no `maintained_at` back to null keeps every stamped
version stamped. -/
theorem isExtractionMaintained_map {store : CompletionStore}
    {f : ExtractionCompletion → ExtractionCompletion} (hv : ∀ m, (f m).version = m.version)
    (hs : ∀ m, m.maintainedAt.isSome → (f m).maintainedAt.isSome) {version : String}
    (h : store.isExtractionMaintained version = true) :
    isExtractionMaintained (store.map f) version = true := by
  obtain ⟨m, hm, hmv, hms⟩ := isExtractionMaintained_iff.mp h
  exact isExtractionMaintained_iff.mpr
    ⟨f m, List.mem_map_of_mem hm, (hv m).trans hmv, hs m hms⟩

theorem isExtractionMaintained_persist {store : CompletionStore} {version : String}
    (h : store.isExtractionMaintained version = true) (now : ℕ) (version' : String)
    (signals : Finset DataType) :
    (store.persistExtractionSignals now version' signals).isExtractionMaintained version =
      true := by
  rw [persistExtractionSignals]
  split_ifs
  · exact isExtractionMaintained_map (fun m => by split_ifs <;> rfl)
      (fun m hm => by split_ifs <;> exact hm) h
  · obtain ⟨m, hm, hmv, hms⟩ := isExtractionMaintained_iff.mp h
    exact isExtractionMaintained_iff.mpr ⟨m, List.mem_append_left _ hm, hmv, hms⟩

theorem isExtractionMaintained_recordFailure {store : CompletionStore} {version : String}
    (h : store.isExtractionMaintained version = true) (now : ℕ) (version' error : String) :
    (store.recordMaintenanceFailure now version' error).isExtractionMaintained version = true :=
  isExtractionMaintained_map (fun m => by split_ifs <;> rfl)
    (fun m hm => by split_ifs <;> exact hm) h

theorem isExtractionMaintained_stampSuccess_of {store store' : CompletionStore} {now sv : ℕ}
    {version version' : String} (hs : store.stampMaintenanceSuccess now sv version' = some store')
    (h : store.isExtractionMaintained version = true) :
    store'.isExtractionMaintained version = true := by
  unfold stampMaintenanceSuccess at hs
  split_ifs at hs
  obtain rfl := Option.some.inj hs
  exact isExtractionMaintained_map (fun m => by split_ifs <;> rfl)
    (fun m hm => by split_ifs <;> simp [hm]) h

/-- A stamp that does not raise leaves its version maintained. -/
theorem isExtractionMaintained_stampSuccess {store store' : CompletionStore} {now sv : ℕ}
    {version : String} (h : store.stampMaintenanceSuccess now sv version = some store') :
    store'.isExtractionMaintained version = true := by
  unfold stampMaintenanceSuccess at h
  split_ifs at h with hany
  obtain rfl := Option.some.inj h
  obtain ⟨m, hm, hmv⟩ := List.any_eq_true.mp hany
  have hmv : m.version = version := by simpa using hmv
  exact isExtractionMaintained_iff.mpr
    ⟨_, List.mem_map_of_mem hm, by simp [hmv], by simp [hmv]⟩

end CompletionStore

end Graphinator
