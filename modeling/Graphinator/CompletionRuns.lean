import Graphinator.Completion
import Graphinator.Lib.Machine

/-!
# The dump records under all their writers

The latch, the maintenance pass and the stats refresh all write `ExtractionCompletion` nodes. Every
statement rewrites the nodes of its version where they stand, and only a persist may append one. So
a node is known by its place in the store, and what a run does to it is a composition of the
rewrites of the statements.

## Main definitions

* `CompletionStore.Write`, `CompletionStore.writeMachine` : the four writers, in any order.
* `ExtractionCompletion.Consistent`, `ExtractionCompletion.Evolves`.

## Main results

* `CompletionStore.apply_shape` : what one statement can do, for every writer.
* `CompletionStore.records_consistent` : what holds over all runs.
-/

namespace Graphinator

namespace ExtractionCompletion

/-- A stamped node carries no trace of a failure. -/
def Consistent (m : ExtractionCompletion) : Prop :=
  m.maintainedAt ≠ none →
    m.maintenanceError = none ∧ m.maintenanceFailedAt = none ∧
      m.maintenanceStatus = some .succeeded

/-- The signals recorded on a node, in the order in which they were. -/
def recorded (m : ExtractionCompletion) : List DataType := m.signals.getD []

/-- What a node may become: its version stays, its signals grow at the end, its stamp stays as it
is, and it stays consistent. -/
structure Evolves (m m' : ExtractionCompletion) : Prop where
  version : m'.version = m.version
  signals : m.recorded <+: m'.recorded
  maintainedAt {now : ℕ} : m.maintainedAt = some now → m'.maintainedAt = some now
  consistent : m.Consistent → m'.Consistent

theorem Evolves.refl (m : ExtractionCompletion) : Evolves m m :=
  ⟨rfl, List.prefix_rfl, id, id⟩

theorem Evolves.trans {m m' m'' : ExtractionCompletion} (h : Evolves m m') (h' : Evolves m' m'') :
    Evolves m m'' where
  version := h'.version.trans h.version
  signals := h.signals.trans h'.signals
  maintainedAt hm := h'.maintainedAt (h.maintainedAt hm)
  consistent hc := h'.consistent (h.consistent hc)

end ExtractionCompletion

namespace CompletionStore

open ExtractionCompletion

/-- A statement of one of the writers. -/
inductive Write
  | persistSignals (now : ℕ) (version : String) (signals : Finset DataType)
  | stampSuccess (now statsVersion : ℕ) (version : String)
  | recordFailure (now : ℕ) (version error : String)
  | stampStats (statsVersion : ℕ) (version : String)

/-- The version a statement runs against. -/
def Write.version : Write → String
  | .persistSignals _ version _ | .stampSuccess _ _ version | .recordFailure _ version _
  | .stampStats _ version => version

/-- The signals a statement adds. -/
def Write.signals : Write → Finset DataType
  | .persistSignals _ _ signals => signals
  | _ => ∅

/-- The store after a statement, or `none` where it raises. -/
def apply (store : CompletionStore) : Write → Option CompletionStore
  | .persistSignals now version signals => some (store.persistExtractionSignals now version signals)
  | .stampSuccess now statsVersion version => store.stampMaintenanceSuccess now statsVersion version
  | .recordFailure now version error => some (store.recordMaintenanceFailure now version error)
  | .stampStats statsVersion version => store.stampStatsVersion statsVersion version

/-- The writers in any order, over any graph. A statement that raises changes nothing. -/
def writeMachine : Machine CompletionStore Write where
  init _ := True
  step store w := some ((store.apply w).getD store)

/-- What one statement does: it rewrites the nodes of its version where they stand, and a persist
without such a node appends one. -/
structure Shape (w : Write) (store store' : CompletionStore) : Prop where
  eq : ∃ f new, store' = store.map f ++ new ∧ (∀ m ∈ store, Evolves m (f m)) ∧
    (∀ m ∈ new, m.Consistent) ∧ (∀ m ∈ new, m.version = w.version) ∧
    (∀ m ∈ store, m.version ≠ w.version → f m = m) ∧
    ∀ m ∈ store, ∀ t, t ∈ (f m).recorded → t ∈ m.recorded ∨ t ∈ w.signals

section Shape

variable {store store' : CompletionStore}

theorem Shape.map {w : Write} {f : ExtractionCompletion → ExtractionCompletion}
    (hf : ∀ m ∈ store, m.version = w.version → Evolves m (f m))
    (hs : ∀ m ∈ store, ∀ t, t ∈ (f m).recorded → t ∈ m.recorded ∨ t ∈ w.signals) :
    Shape w store (store.map fun m => if m.version = w.version then f m else m) := by
  refine ⟨_, [], (List.append_nil _).symm, fun m hm => ?_, nofun, nofun, fun m _ hv => if_neg hv,
    fun m hm t ht => ?_⟩
  · split_ifs with hv
    · exact hf m hm hv
    · exact Evolves.refl m
  · split_ifs at ht with hv
    · exact hs m hm t ht
    · exact Or.inl ht

theorem prefix_reduceSignals (recorded signals : List DataType) :
    recorded <+: reduceSignals recorded signals := by
  induction signals generalizing recorded with
  | nil => exact List.prefix_rfl
  | cons signal rest ih =>
    have hstep : recorded <+: if signal ∈ recorded then recorded else recorded ++ [signal] := by
      split_ifs
      · exact List.prefix_rfl
      · exact List.prefix_append ..
    exact hstep.trans (ih _)

theorem evolves_setSignals (now : ℕ) (signals : List DataType) (m : ExtractionCompletion) :
    Evolves m (setSignals now signals m) where
  version := rfl
  signals := prefix_reduceSignals ..
  maintainedAt := id
  consistent := id

theorem shape_persist (now : ℕ) (version : String) (signals : Finset DataType) :
    Shape (.persistSignals now version signals) store
      (store.persistExtractionSignals now version signals) := by
  unfold persistExtractionSignals
  have hsorted : ∀ t, t ∈ dataTypes.filter (· ∈ signals) → t ∈ signals := by simp
  split_ifs with h
  · refine Shape.map (fun m _ _ => evolves_setSignals ..) fun m _ t ht => ?_
    exact (mem_setSignals.mp ht).imp_right (hsorted t)
  · refine ⟨id, _, by rw [List.map_id], fun m _ => Evolves.refl m, fun m hm => ?_, fun m hm => ?_,
      fun _ _ _ => rfl, fun _ _ _ => Or.inl⟩
    · obtain rfl := List.mem_singleton.mp hm
      exact fun h => absurd rfl h
    · obtain rfl := List.mem_singleton.mp hm
      rfl

theorem shape_stampSuccess {now sv : ℕ} {version : String}
    (h : store.stampMaintenanceSuccess now sv version = some store') :
    Shape (.stampSuccess now sv version) store store' := by
  simp only [stampMaintenanceSuccess, Option.ite_none_right_eq_some, Option.some.injEq] at h
  obtain ⟨-, rfl⟩ := h
  refine Shape.map (fun m _ _ => ⟨rfl, List.prefix_rfl, fun hm => ?_, fun _ _ => ?_⟩)
    fun _ _ _ => Or.inl
  · change some (m.maintainedAt.getD now) = _
    rw [hm]
    rfl
  · exact ⟨rfl, rfl, rfl⟩

theorem shape_recordFailure (now : ℕ) (version error : String) :
    Shape (.recordFailure now version error) store
      (store.recordMaintenanceFailure now version error) := by
  refine ⟨_, [], (List.append_nil _).symm, fun m _ => ?_, nofun, nofun, fun m _ hv => ?_,
    fun m _ t ht => ?_⟩
  · split_ifs with hv
    · refine ⟨rfl, List.prefix_rfl, fun hm => ?_, fun _ hm => ?_⟩
      · exact absurd (hv.2.symm.trans hm) nofun
      · exact absurd hv.2 hm
    · exact Evolves.refl m
  · exact if_neg fun h => hv h.1
  · split_ifs at ht
    · exact Or.inl ht
    · exact Or.inl ht

theorem shape_stampStats {sv : ℕ} {version : String}
    (h : store.stampStatsVersion sv version = some store') :
    Shape (.stampStats sv version) store store' := by
  simp only [stampStatsVersion, Option.ite_none_right_eq_some, Option.some.injEq] at h
  obtain ⟨-, rfl⟩ := h
  exact Shape.map (fun m _ _ => ⟨rfl, List.prefix_rfl, id, id⟩) fun _ _ _ => Or.inl

/-- Every statement that does not raise has the shape. -/
theorem apply_shape {w : Write} (h : store.apply w = some store') : Shape w store store' := by
  cases w with
  | persistSignals now version signals =>
    obtain rfl := Option.some.inj h
    exact shape_persist ..
  | stampSuccess now sv version => exact shape_stampSuccess h
  | recordFailure now version error =>
    obtain rfl := Option.some.inj h
    exact shape_recordFailure ..
  | stampStats sv version => exact shape_stampStats h

/-- No statement takes a signal of any version away. -/
theorem Shape.loadExtractionSignals_subset {w : Write} (h : Shape w store store')
    (version : String) :
    store.loadExtractionSignals version ⊆ store'.loadExtractionSignals version := by
  obtain ⟨f, new, rfl, hf, -⟩ := h.eq
  intro t ht
  obtain ⟨m, hm, hv, ht⟩ := mem_loadExtractionSignals.mp ht
  exact mem_loadExtractionSignals.mpr ⟨f m, List.mem_append_left _ (List.mem_map_of_mem hm),
    (hf m hm).version.trans hv, (hf m hm).signals.subset ht⟩

end Shape

/-! ### Runs -/

/-- What a run does to the nodes: each keeps its place and evolves, and those that were appended
are consistent. -/
structure Descends (store₀ store : CompletionStore) : Prop where
  length : store₀.length ≤ store.length
  evolves {i : ℕ} {m : ExtractionCompletion} : store₀[i]? = some m →
    ∃ m', store[i]? = some m' ∧ Evolves m m'
  appended {i : ℕ} {m : ExtractionCompletion} : store₀.length ≤ i → store[i]? = some m →
    m.Consistent

theorem Descends.refl (store : CompletionStore) : Descends store store where
  length := le_rfl
  evolves hm := ⟨_, hm, Evolves.refl _⟩
  appended hi hm := by
    rw [List.getElem?_eq_none hi] at hm
    cases hm

/-- One statement more. -/
theorem Descends.step {store₀ store store' : CompletionStore} {w : Write}
    (h : Descends store₀ store) (hs : Shape w store store') : Descends store₀ store' := by
  obtain ⟨f, new, rfl, hf, hnew, -, -, -⟩ := hs.eq
  have hold : ∀ {i : ℕ} {m : ExtractionCompletion}, store[i]? = some m →
      (store.map f ++ new)[i]? = some (f m) := by
    intro i m hm
    have hi : i < (store.map f).length := by
      rw [List.length_map]
      exact (List.getElem?_eq_some_iff.mp hm).1
    rw [List.getElem?_append_left hi, List.getElem?_map, hm]
    rfl
  refine ⟨?_, fun {i m} hm => ?_, fun {i m} hi hm => ?_⟩
  · rw [List.length_append, List.length_map]
    exact h.length.trans (Nat.le_add_right ..)
  · obtain ⟨m', hm', hev⟩ := h.evolves hm
    exact ⟨f m', hold hm', hev.trans (hf m' (List.mem_of_getElem? hm'))⟩
  · rcases lt_or_ge i store.length with hlt | hge
    · have hget : store[i]? = some store[i] := List.getElem?_eq_getElem hlt
      rw [hold hget] at hm
      obtain rfl := Option.some.inj hm
      exact (hf _ (List.mem_of_getElem? hget)).consistent (h.appended hi hget)
    · rw [List.getElem?_append_right (by simpa using hge)] at hm
      exact hnew m (List.mem_of_getElem? hm)

/-- What every run does to the nodes of its first state. -/
theorem descends_of_steps {store₀ store : CompletionStore}
    (h : writeMachine.Steps Machine.anyStep store₀ store) : Descends store₀ store := by
  refine h.invariant (I := Descends store₀) (Descends.refl store₀) fun t w t' _ hd hs => ?_
  obtain rfl := Option.some.inj hs
  cases happly : t.apply w with
  | none => exact hd
  | some t' => exact hd.step (apply_shape happly)

/-- A stamp of either kind raises exactly where its version has no node. -/
theorem stamp_raises_iff {store : CompletionStore} (now sv : ℕ) (version : String) :
    (store.stampMaintenanceSuccess now sv version = none ↔ ∀ m ∈ store, m.version ≠ version) ∧
    (store.stampStatsVersion sv version = none ↔ ∀ m ∈ store, m.version ≠ version) := by
  constructor
  · simp [stampMaintenanceSuccess]
  · simp [stampStatsVersion]

/-- **The record of a dump stays consistent under all its writers.** In every run over any graph,
each node keeps its place, its version, its signals and its stamp, and stays free of failures once
it is stamped, as does every node that the run creates. A statement changes only nodes of its own
version and adds only its own signals, so no statement but a persist adds any; and a stamp raises,
and changes nothing, exactly where its version has no node. -/
theorem records_consistent {store₀ store : CompletionStore}
    (h : writeMachine.Steps Machine.anyStep store₀ store) :
    (∀ (i : ℕ) (m : ExtractionCompletion), store₀[i]? = some m →
      ∃ m', store[i]? = some m' ∧ m'.version = m.version ∧
      m.recorded <+: m'.recorded ∧
      (∀ now, m.maintainedAt = some now → m'.maintainedAt = some now) ∧
      (m.Consistent → m'.Consistent)) ∧
    (∀ (i : ℕ) (m : ExtractionCompletion), store₀.length ≤ i → store[i]? = some m →
      m.Consistent) ∧
    (∀ w store', store.apply w = some store' → ∀ (i : ℕ) (m : ExtractionCompletion),
      store[i]? = some m →
      ∃ m', store'[i]? = some m' ∧ (m.version ≠ w.version → m' = m) ∧
        ∀ t ∈ m'.recorded, t ∈ m.recorded ∨ t ∈ w.signals) ∧
    ∀ now sv version,
      (store.stampMaintenanceSuccess now sv version = none ↔ ∀ m ∈ store, m.version ≠ version) ∧
      (store.stampStatsVersion sv version = none ↔ ∀ m ∈ store, m.version ≠ version) ∧
      ∀ w, store.apply w = none →
        writeMachine.step store w = some store ∧ ∀ m ∈ store, m.version ≠ w.version := by
  have hd := descends_of_steps h
  refine ⟨fun i m hm => ?_, fun i m => hd.appended, fun w store' hw i m hm => ?_,
    fun now sv version => ⟨(stamp_raises_iff now sv version).1, (stamp_raises_iff now sv version).2,
      fun w hw => ⟨?_, ?_⟩⟩⟩
  · obtain ⟨m', hm', hev⟩ := hd.evolves hm
    exact ⟨m', hm', hev.version, hev.signals, fun _ => hev.maintainedAt, hev.consistent⟩
  · obtain ⟨f, new, rfl, -, -, -, hframe, hsig⟩ := (apply_shape hw).eq
    have hmem := List.mem_of_getElem? hm
    have hi : i < (store.map f).length := by
      rw [List.length_map]
      exact (List.getElem?_eq_some_iff.mp hm).1
    refine ⟨f m, ?_, hframe m hmem, hsig m hmem⟩
    rw [List.getElem?_append_left hi, List.getElem?_map, hm]
    rfl
  · change some ((store.apply w).getD store) = _
    rw [hw]
    rfl
  · cases w with
    | persistSignals now version signals => cases hw
    | stampSuccess now sv version => exact (stamp_raises_iff now sv version).1.mp hw
    | recordFailure now version error => cases hw
    | stampStats sv version => exact (stamp_raises_iff 0 sv version).2.mp hw

/-- Two nodes of one dump, one of them stamped: a failure and another stamp leave the first stamp
where it is. -/
theorem records_consistent_two_nodes :
    let store₀ : CompletionStore :=
      [{ version := "20260701" },
       { version := "20260701", maintainedAt := some 5, maintenanceStatus := some .succeeded }]
    ∃ store, writeMachine.Steps Machine.anyStep store₀ store ∧
      ∃ m, store[1]? = some m ∧ m.maintainedAt = some 5 ∧ m.Consistent := by
  intro store₀
  have hrun : (writeMachine.exec (fun _ _ => true) store₀
      [.recordFailure 6 "20260701" "timeout", .persistSignals 7 "20260801" {.artists},
       .stampSuccess 8 1 "20260701"]).isSome = true := by decide
  obtain ⟨store, hs⟩ := Option.isSome_iff_exists.mp hrun
  have hsteps : writeMachine.Steps Machine.anyStep store₀ store :=
    Machine.steps_of_exec (fun _ _ _ => trivial) hs
  obtain ⟨m, hm, -, -, hstamp, hcons⟩ := (records_consistent hsteps).1 1 _ rfl
  exact ⟨store, hsteps, m, hm, hstamp 5 rfl, hcons fun _ => ⟨rfl, rfl, rfl⟩⟩

end CompletionStore

end Graphinator
