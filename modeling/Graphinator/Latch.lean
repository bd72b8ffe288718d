import Graphinator.Completion
import Graphinator.Lib.Machine
import Mathlib.Data.Finset.Lattice.Basic

/-!
# The extraction latch and the maintenance trigger

The handlers of `extraction_complete`, the process-local cache of the latch, and the single slot
of the post-import maintenance task, as one machine. A step runs one coroutine from the await it
is suspended in to the next one. The environment decides which coroutine resumes, what each call
returns, whether a transaction that a caller sees fail had committed, and when the process
restarts.

A pass appears here only through what it does to the slot and to the nodes of its version: it
stamps, it returns after a stamp, or it fails its last attempt.

## Main definitions

* `Latch.Signal` : an `extraction_complete` message.
* `Latch.State`, `Latch.Action`, `Latch.machine`.
* `Latch.startsMaintenance` : the version a step of a handler starts maintenance for.

## Main results

* `Latch.latch_safe` : acked signals are stored, the cache is a part of its version's stored
  signals, stored signals only grow and come from deliveries, and maintenance is started only
  over a full latch.
-/

namespace Graphinator.Latch

open CompletionStore

/-- `EXTRACTION_LATCH_UNKNOWN_VERSION`. -/
def extractionLatchUnknownVersion : String := "unknown"

/-- An `extraction_complete` message on the queue of `dataType`. Its `copy` tells apart messages
published more than once with the same content. -/
structure Signal where
  versionField : Option String
  dataType : DataType
  copy : ℕ := 0
deriving DecidableEq, Repr

/-- `str(data.get("version") or EXTRACTION_LATCH_UNKNOWN_VERSION)`. -/
def Signal.version (m : Signal) : String :=
  match m.versionField with
  | some v => if v = "" then extractionLatchUnknownVersion else v
  | none => extractionLatchUnknownVersion

/-- Where the handler of an `extraction_complete` is suspended. -/
inductive Pc
  /-- In `flush_queue`. -/
  | flushing
  /-- Waiting for `extraction_latch_lock`. -/
  | lockWait
  /-- Holding the lock, in `_load_extraction_signals`. -/
  | loading
  /-- Holding the lock, in `_persist_extraction_signals(version, candidate)`. -/
  | persisting (candidate : Finset DataType) (committed : Bool)
  /-- In `_is_extraction_maintained`, over a full latch. -/
  | checking
  /-- In `message.ack()`; `starts` when `start_post_import_maintenance` follows it. -/
  | acking (starts : Bool)
  /-- In the backoff or the settlement of `requeue_marker`. -/
  | requeueing
deriving DecidableEq

/-- What became of a message. -/
inductive Status
  /-- In the queue, never handed out or returned to it. -/
  | ready
  | handling (pc : Pc)
  /-- Acked at the broker. `some starts` while the handler has not resumed from `message.ack()`. -/
  | acked (resumes : Option Bool)
  | deadLettered
deriving DecidableEq

/-- The task in the `post_import_maintenance_task` slot while it is not done. -/
structure Pass where
  version : String
  /-- Its stamp has committed. -/
  stamped : Bool := false
deriving DecidableEq, Repr

/-- Where `resume_pending_maintenance` of the current process is. -/
inductive ResumePc
  | notRun
  | gotLatest (version : String)
  | gotSignals (version : String)
  | finished
deriving DecidableEq, Repr

/-- The durable nodes, the process-local latch and slot, and the deliveries. The last three
fields only record the past: which messages were ever handed out, for which versions a failed
pass recorded its failure, and which delivery brought a version its last missing signal. -/
structure State where
  store : CompletionStore
  extractionCompleteSignals : Finset DataType := ∅
  extractionCompleteVersion : Option String := none
  extractionLatchLock : Option Signal := none
  postImportMaintenanceTask : Option Pass := none
  resume : ResumePc := .notRun
  status : Signal → Status := fun _ => .ready
  delivered : Signal → Bool := fun _ => false
  recordedFailures : List String := []
  completedBy : String → Option Signal := fun _ => none

/-- A step of one coroutine, with what the environment answers it. -/
inductive Action
  /-- The broker hands the message to a handler, which runs to `flush_queue`. -/
  | handOut (m : Signal)
  /-- `flush_queue` returns `ok`. -/
  | flushed (m : Signal) (ok : Bool)
  /-- The handler is granted the lock and runs to its load or its persist. -/
  | acquire (m : Signal)
  /-- The load returns, or raises. -/
  | loaded (m : Signal) (ok : Bool)
  /-- The transaction of the persist commits. -/
  | commit (m : Signal) (now : ℕ)
  /-- The persist returns, or raises (whether or not it had committed). -/
  | persisted (m : Signal) (ok : Bool)
  /-- `_is_extraction_maintained` returns, or raises. -/
  | maintenanceRead (m : Signal) (ok : Bool)
  /-- The broker settles the ack. -/
  | ackSettles (m : Signal)
  /-- `message.ack()` returns, and the handler runs to its end. -/
  | ackReturns (m : Signal)
  /-- `message.ack()` raises, before or after the broker settled it. -/
  | ackRaises (m : Signal)
  /-- `requeue_or_dead_letter` settles the message. -/
  | requeue (m : Signal) (deadLetter : Bool)
  /-- The stamp of the running pass commits. -/
  | passStamps (now statsVersion : ℕ)
  /-- The running pass returns `True`. -/
  | passReturns
  /-- The running pass ends its last attempt in failure; `recorded` when the write of
  `maintenance_error` commits. -/
  | passFails (recorded : Bool) (now : ℕ) (error : String)
  /-- `_latest_extraction_version` answers `resume_pending_maintenance`, or raises. -/
  | resumeLatest (answer : Option String)
  /-- `_load_extraction_signals` answers it, or raises. -/
  | resumeSignals (ok : Bool)
  /-- `_is_extraction_maintained` answers it, or raises. -/
  | resumeMaintained (ok : Bool)
  /-- The process dies and a new one starts: the graph and the queues are kept. -/
  | restart

namespace State

/-- The stored signals of a version, over all its nodes. -/
def stored (s : State) (version : String) : Finset DataType :=
  s.store.loadExtractionSignals version

@[simps]
def put (s : State) (m : Signal) (st : Status) : State :=
  { s with status := Function.update s.status m st }

@[simps]
def deliver (s : State) (m : Signal) : State :=
  { s with delivered := Function.update s.delivered m true }

@[simps]
def setLock (s : State) (holder : Option Signal) : State := { s with extractionLatchLock := holder }

@[simps]
def setStore (s : State) (store : CompletionStore) : State := { s with store }

/-- Publish the candidate of a handler that returned from its persist. -/
@[simps]
def setCache (s : State) (version : String) (candidate : Finset DataType) : State :=
  { s with extractionCompleteSignals := candidate, extractionCompleteVersion := some version }

@[simps]
def setTask (s : State) (task : Option Pass) : State := { s with postImportMaintenanceTask := task }

@[simps]
def setResume (s : State) (pc : ResumePc) : State := { s with resume := pc }

@[simps]
def addFailure (s : State) (version : String) : State :=
  { s with recordedFailures := version :: s.recordedFailures }

/-- Commit `_persist_extraction_signals(version, candidate)` for the delivery `m`. -/
@[simps]
def commitSignals (s : State) (m : Signal) (now : ℕ) (candidate : Finset DataType) : State :=
  let store := s.store.persistExtractionSignals now m.version candidate
  { s with
    store
    completedBy :=
      if allDataTypes ⊆ store.loadExtractionSignals m.version ∧ ¬allDataTypes ⊆ s.stored m.version
      then Function.update s.completedBy m.version (some m) else s.completedBy }

/-- `start_post_import_maintenance(version)`: an unfinished task keeps the slot, and the trigger
is ignored. -/
def startPostImportMaintenance (s : State) (version : String) : State :=
  match s.postImportMaintenanceTask with
  | some _ => s
  | none => s.setTask (some { version })

/-- The status of a message when its process dies: what was not settled goes back to the queue. -/
def restartStatus : Status → Status
  | .handling _ => .ready
  | .acked _ => .acked none
  | st => st

end State

/-- One step. -/
def step (s : State) : Action → Option State
  | .handOut m =>
    if s.status m = .ready then some ((s.deliver m).put m (.handling .flushing)) else none
  | .flushed m ok =>
    if s.status m = .handling .flushing then
      some (s.put m (.handling (if ok then .lockWait else .requeueing)))
    else none
  | .acquire m =>
    if s.status m = .handling .lockWait ∧ s.extractionLatchLock = none then
      some <| (s.setLock (some m)).put m <| .handling <|
        if s.extractionCompleteVersion = some m.version then
          .persisting (insert m.dataType s.extractionCompleteSignals) false
        else .loading
    else none
  | .loaded m ok =>
    if s.status m = .handling .loading then
      some (if ok then s.put m (.handling (.persisting (insert m.dataType (s.stored m.version)) false))
        else (s.setLock none).put m (.handling .requeueing))
    else none
  | .commit m now =>
    match s.status m with
    | .handling (.persisting candidate false) =>
      some ((s.commitSignals m now candidate).put m (.handling (.persisting candidate true)))
    | _ => none
  | .persisted m ok =>
    match s.status m with
    | .handling (.persisting candidate committed) =>
      if ok then
        -- The statement's result is consumed before it returns, so a return follows a commit.
        if committed then
          some (((s.setCache m.version candidate).setLock none).put m
            (.handling (if allDataTypes ⊆ candidate then .checking else .acking false)))
        else none
      else some ((s.setLock none).put m (.handling .requeueing))
    | _ => none
  | .maintenanceRead m ok =>
    if s.status m = .handling .checking then
      some (s.put m (.handling
        (if ok then .acking (!s.store.isExtractionMaintained m.version) else .requeueing)))
    else none
  | .ackSettles m =>
    match s.status m with
    | .handling (.acking starts) => some (s.put m (.acked (some starts)))
    | _ => none
  | .ackReturns m =>
    match s.status m with
    | .acked (some starts) =>
      let s := s.put m (.acked none)
      some (if starts then s.startPostImportMaintenance m.version else s)
    | _ => none
  | .ackRaises m =>
    match s.status m with
    | .handling (.acking _) => some (s.put m (.handling .requeueing))
    | .acked (some _) => some (s.put m (.acked none))
    | _ => none
  | .requeue m deadLetter =>
    if s.status m = .handling .requeueing then
      some (s.put m (if deadLetter then .deadLettered else .ready))
    else none
  | .passStamps now statsVersion =>
    match s.postImportMaintenanceTask with
    | some pass =>
      -- The stamp runs under the latch lock.
      if s.extractionLatchLock = none then
        (s.store.stampMaintenanceSuccess now statsVersion pass.version).map fun store =>
          (s.setStore store).setTask (some { pass with stamped := true })
      else none
    | none => none
  | .passReturns =>
    match s.postImportMaintenanceTask with
    | some pass => if pass.stamped then some (s.setTask none) else none
    | none => none
  | .passFails recorded now error =>
    match s.postImportMaintenanceTask with
    | some pass =>
      if recorded then
        if s.extractionLatchLock = none then
          some (((s.setStore (s.store.recordMaintenanceFailure now pass.version error)).setTask
            none).addFailure pass.version)
        else none
      else some (s.setTask none)
    | none => none
  | .resumeLatest answer =>
    if s.resume = .notRun then
      match answer with
      | some version =>
        if s.store.IsLatestExtraction version then some (s.setResume (.gotLatest version))
        else none
      | none => some (s.setResume .finished)
    else none
  | .resumeSignals ok =>
    match s.resume with
    | .gotLatest version =>
      some (s.setResume
        (if ok = true ∧ allDataTypes ⊆ s.stored version then .gotSignals version else .finished))
    | _ => none
  | .resumeMaintained ok =>
    match s.resume with
    | .gotSignals version =>
      let s' := s.setResume .finished
      some (if ok = true ∧ s.store.isExtractionMaintained version = false
        then s'.startPostImportMaintenance version else s')
    | _ => none
  | .restart =>
    some { s with
      extractionCompleteSignals := ∅
      extractionCompleteVersion := none
      extractionLatchLock := none
      postImportMaintenanceTask := none
      resume := .notRun
      status := fun m => State.restartStatus (s.status m) }

/-- A process that has just started over some graph, with every message still in its queue. -/
def IsInitial (s : State) : Prop := ∃ store, s = { store }

/-- The latch and the maintenance slot, from any graph. -/
def machine : Machine State Action where
  init := IsInitial
  step := step

/-- The version for which a step of a handler calls `start_post_import_maintenance`. -/
def startsMaintenance (s : State) : Action → Option String
  | .ackReturns m => if s.status m = .acked (some true) then some m.version else none
  | _ => none

/-! ### The invariant -/

/-- What the place of a handler, or the settlement of its message, says about the stored signals
`st` of the message's version, for a message of type `t`. -/
def StatusOk (st : Finset DataType) (t : DataType) : Status → Prop
  | .handling (.persisting candidate committed) =>
    t ∈ candidate ∧ candidate ⊆ insert t st ∧ (committed = true → candidate ⊆ st)
  | .handling .checking => t ∈ st ∧ allDataTypes ⊆ st
  | .handling (.acking starts) => t ∈ st ∧ (starts = true → allDataTypes ⊆ st)
  | .acked resumes => t ∈ st ∧ (resumes = some true → allDataTypes ⊆ st)
  | _ => True

theorem StatusOk.mono {st st' : Finset DataType} {t : DataType} (hle : st ⊆ st') :
    ∀ {status : Status}, StatusOk st t status → StatusOk st' t status
  | .ready, _ | .deadLettered, _ => trivial
  | .handling .flushing, _ | .handling .lockWait, _ => trivial
  | .handling .loading, _ | .handling .requeueing, _ => trivial
  | .handling (.persisting _ _), ⟨ht, hsub, hc⟩ =>
    ⟨ht, hsub.trans (Finset.insert_subset_insert t hle), fun h => (hc h).trans hle⟩
  | .handling .checking, ⟨ht, hall⟩ => ⟨hle ht, hall.trans hle⟩
  | .handling (.acking _), ⟨ht, hall⟩ => ⟨hle ht, fun h => (hall h).trans hle⟩
  | .acked _, ⟨ht, hall⟩ => ⟨hle ht, fun h => (hall h).trans hle⟩

/-- A restart gives up what a handler knew and keeps what the broker settled. -/
theorem StatusOk.restart {st : Finset DataType} {t : DataType} :
    ∀ {status : Status}, StatusOk st t status → StatusOk st t (State.restartStatus status)
  | .ready, _ | .deadLettered, _ | .handling _, _ => trivial
  | .acked _, ⟨ht, _⟩ => ⟨ht, nofun⟩

/-- The invariant of the latch in a run from `s₀`. -/
structure Inv (s₀ s : State) : Prop where
  /-- Every handler and every settled message is backed by the stored signals. -/
  status (m : Signal) : StatusOk (s.stored m.version) m.dataType (s.status m)
  /-- The cache is a part of the stored signals of the version it is labelled with. -/
  cache {t : DataType} : t ∈ s.extractionCompleteSignals →
    ∃ version, s.extractionCompleteVersion = some version ∧ t ∈ s.stored version
  /-- Only messages that were handed out are anywhere but in the queue. -/
  delivered {m : Signal} : s.status m ≠ .ready → s.delivered m = true
  /-- A signal was stored at the start of the run or delivered in it. -/
  origin {version : String} {t : DataType} : t ∈ s.stored version → t ∈ s₀.stored version ∨
    ∃ m, s.delivered m = true ∧ m.version = version ∧ m.dataType = t

section Steps

variable {s₀ s s' : State}

@[simp] theorem startPostImportMaintenance_store (version : String) :
    (s.startPostImportMaintenance version).store = s.store := by
  unfold State.startPostImportMaintenance
  split <;> rfl

@[simp] theorem startPostImportMaintenance_delivered (version : String) :
    (s.startPostImportMaintenance version).delivered = s.delivered := by
  unfold State.startPostImportMaintenance
  split <;> rfl

@[simp] theorem stored_put (m : Signal) (st : Status) : (s.put m st).stored = s.stored := rfl

theorem put_status_self (m : Signal) (st : Status) : (s.put m st).status m = st := by simp

theorem put_status_of_ne {m m' : Signal} (h : m' ≠ m) (st : Status) :
    (s.put m st).status m' = s.status m' := by simp [h]

theorem stored_commitSignals (m : Signal) (now : ℕ) (candidate : Finset DataType) :
    (s.commitSignals m now candidate).stored m.version = s.stored m.version ∪ candidate :=
  loadExtractionSignals_persist ..

theorem stored_subset_commitSignals (m : Signal) (now : ℕ) (candidate : Finset DataType)
    (version : String) : s.stored version ⊆ (s.commitSignals m now candidate).stored version :=
  subset_loadExtractionSignals_persist ..

theorem Inv.init (h : IsInitial s) : Inv s s := by
  obtain ⟨store, rfl⟩ := h
  exact ⟨fun _ => trivial, fun h => absurd h (Finset.notMem_empty _), fun h => absurd rfl h,
    Or.inl⟩

/-- The coroutine of `m` moves on to a place that the stored signals back. -/
theorem Inv.put (hi : Inv s₀ s) {m : Signal} {st : Status}
    (hst : StatusOk (s.stored m.version) m.dataType st) (hd : s.delivered m = true) :
    Inv s₀ (s.put m st) where
  status m' := by
    rcases eq_or_ne m' m with rfl | hne
    · rw [put_status_self]
      exact hst
    · rw [put_status_of_ne hne]
      exact hi.status m'
  cache := hi.cache
  delivered {m'} h := by
    rcases eq_or_ne m' m with rfl | hne
    · exact hd
    · rw [put_status_of_ne hne] at h
      exact hi.delivered h
  origin := hi.origin

theorem Inv.deliver (hi : Inv s₀ s) (m : Signal) : Inv s₀ (s.deliver m) where
  status := hi.status
  cache := hi.cache
  delivered {m'} h := by
    rcases eq_or_ne m' m with rfl | hne
    · simp
    · simpa [hne] using hi.delivered h
  origin {version t} ht := by
    rcases hi.origin ht with ht | ⟨m', hd, hv, ht⟩
    · exact Or.inl ht
    · refine Or.inr ⟨m', ?_, hv, ht⟩
      rcases eq_or_ne m' m with rfl | hne
      · simp
      · simpa [hne] using hd

/-- The statement of a handler that persists commits. -/
theorem Inv.commitSignals (hi : Inv s₀ s) {m : Signal} {candidate : Finset DataType} (now : ℕ)
    (hsub : candidate ⊆ insert m.dataType (s.stored m.version)) (hd : s.delivered m = true) :
    Inv s₀ (s.commitSignals m now candidate) where
  status m' := (hi.status m').mono (stored_subset_commitSignals ..)
  cache ht := by
    obtain ⟨version, hv, hst⟩ := hi.cache ht
    exact ⟨version, hv, stored_subset_commitSignals _ _ _ _ hst⟩
  delivered := hi.delivered
  origin {version t} ht := by
    rcases eq_or_ne version m.version with rfl | hne
    · rw [stored_commitSignals, Finset.mem_union] at ht
      rcases ht with ht | ht
      · exact hi.origin ht
      · rcases Finset.mem_insert.mp (hsub ht) with rfl | ht
        · exact Or.inr ⟨m, hd, rfl, rfl⟩
        · exact hi.origin ht
    · have heq : (s.commitSignals m now candidate).stored version = s.stored version :=
        loadExtractionSignals_persist_of_ne hne ..
      exact hi.origin (heq ▸ ht)

/-- A statement that leaves the stored signals alone. -/
theorem Inv.setStore (hi : Inv s₀ s) {store : CompletionStore}
    (heq : ∀ v, store.loadExtractionSignals v = s.stored v) : Inv s₀ (s.setStore store) := by
  have hst : (s.setStore store).stored = s.stored := funext heq
  refine ⟨fun m => ?_, fun ht => ?_, hi.delivered, fun ht => ?_⟩
  · rw [hst]
    exact hi.status m
  · rw [hst]
    exact hi.cache ht
  · rw [hst] at ht
    exact hi.origin ht

theorem Inv.setLock (hi : Inv s₀ s) (holder : Option Signal) : Inv s₀ (s.setLock holder) :=
  ⟨hi.status, hi.cache, hi.delivered, hi.origin⟩

theorem Inv.setTask (hi : Inv s₀ s) (task : Option Pass) : Inv s₀ (s.setTask task) :=
  ⟨hi.status, hi.cache, hi.delivered, hi.origin⟩

theorem Inv.setResume (hi : Inv s₀ s) (pc : ResumePc) : Inv s₀ (s.setResume pc) :=
  ⟨hi.status, hi.cache, hi.delivered, hi.origin⟩

theorem Inv.addFailure (hi : Inv s₀ s) (version : String) : Inv s₀ (s.addFailure version) :=
  ⟨hi.status, hi.cache, hi.delivered, hi.origin⟩

theorem Inv.startPostImportMaintenance (hi : Inv s₀ s) (version : String) :
    Inv s₀ (s.startPostImportMaintenance version) := by
  unfold State.startPostImportMaintenance
  split
  · exact hi
  · exact hi.setTask _

/-- Publishing a candidate that is stored. -/
theorem Inv.setCache (hi : Inv s₀ s) {version : String} {candidate : Finset DataType}
    (h : candidate ⊆ s.stored version) : Inv s₀ (s.setCache version candidate) :=
  ⟨hi.status, fun ht => ⟨version, rfl, h ht⟩, hi.delivered, hi.origin⟩

theorem Inv.restart (hi : Inv s₀ s) (hs : Latch.step s .restart = some s') : Inv s₀ s' := by
  obtain rfl := Option.some.inj hs
  refine ⟨fun m => (hi.status m).restart, fun ht => absurd ht (Finset.notMem_empty _),
    fun {m} hne => hi.delivered fun heq => hne ?_, hi.origin⟩
  change State.restartStatus (s.status m) = .ready
  rw [heq]
  rfl

/-- A handler was handed its message. -/
theorem Inv.delivered_of_eq (hi : Inv s₀ s) {m : Signal} {st : Status} (h : s.status m = st)
    (hne : st ≠ .ready) : s.delivered m = true :=
  hi.delivered (h ▸ hne)

/-- Every step of the machine preserves the invariant: one case for each action. -/
theorem Inv.step (hi : Inv s₀ s) {a : Action} (h : Latch.step s a = some s') : Inv s₀ s' := by
  cases a with
  | handOut m =>
    simp only [Latch.step, Option.ite_none_right_eq_some, Option.some.injEq] at h
    obtain ⟨-, rfl⟩ := h
    exact (hi.deliver m).put trivial (by simp)
  | flushed m ok =>
    simp only [Latch.step, Option.ite_none_right_eq_some, Option.some.injEq] at h
    obtain ⟨hm, rfl⟩ := h
    refine hi.put ?_ (hi.delivered_of_eq hm nofun)
    cases ok <;> trivial
  | acquire m =>
    simp only [Latch.step, Option.ite_none_right_eq_some, Option.some.injEq] at h
    obtain ⟨⟨hm, -⟩, rfl⟩ := h
    refine (hi.setLock _).put ?_ (hi.delivered_of_eq hm nofun)
    split_ifs with hv
    · refine ⟨Finset.mem_insert_self .., Finset.insert_subset_insert _ fun t ht => ?_, nofun⟩
      obtain ⟨version, hver, hst⟩ := hi.cache ht
      obtain rfl : version = m.version := Option.some.inj (hver.symm.trans hv)
      exact hst
    · trivial
  | loaded m ok =>
    simp only [Latch.step, Option.ite_none_right_eq_some, Option.some.injEq] at h
    obtain ⟨hm, rfl⟩ := h
    have hd := hi.delivered_of_eq hm nofun
    cases ok
    · exact (hi.setLock _).put trivial hd
    · exact hi.put ⟨Finset.mem_insert_self .., Finset.Subset.refl _, nofun⟩ hd
  | commit m now =>
    simp only [Latch.step] at h
    split at h
    next candidate hm =>
      obtain rfl := Option.some.inj h
      have hd := hi.delivered_of_eq hm nofun
      have hok := hi.status m
      rw [hm] at hok
      obtain ⟨ht, hsub, -⟩ := hok
      have hst := stored_commitSignals (s := s) m now candidate
      refine (hi.commitSignals now hsub hd).put ⟨ht, ?_, fun _ => ?_⟩ hd <;> rw [hst]
      · exact Finset.subset_union_right.trans (Finset.subset_insert ..)
      · exact Finset.subset_union_right
    next => cases h
  | persisted m ok =>
    simp only [Latch.step] at h
    split at h
    next candidate committed hm =>
      have hd := hi.delivered_of_eq hm nofun
      have hok := hi.status m
      rw [hm] at hok
      obtain ⟨ht, -, hc⟩ := hok
      split_ifs at h with _ hcom hall <;> obtain rfl := Option.some.inj h
      · exact ((hi.setCache (hc hcom)).setLock _).put ⟨hc hcom ht, hall.trans (hc hcom)⟩ hd
      · exact ((hi.setCache (hc hcom)).setLock _).put ⟨hc hcom ht, nofun⟩ hd
      · exact (hi.setLock _).put trivial hd
    next => cases h
  | maintenanceRead m ok =>
    simp only [Latch.step, Option.ite_none_right_eq_some, Option.some.injEq] at h
    obtain ⟨hm, rfl⟩ := h
    have hok := hi.status m
    rw [hm] at hok
    refine hi.put ?_ (hi.delivered_of_eq hm nofun)
    cases ok
    · trivial
    · exact ⟨hok.1, fun _ => hok.2⟩
  | ackSettles m =>
    simp only [Latch.step] at h
    split at h
    next starts hm =>
      obtain rfl := Option.some.inj h
      have hok := hi.status m
      rw [hm] at hok
      exact hi.put ⟨hok.1, fun hs => hok.2 (Option.some.inj hs)⟩ (hi.delivered_of_eq hm nofun)
    next => cases h
  | ackReturns m =>
    simp only [Latch.step] at h
    split at h
    next starts hm =>
      obtain rfl := Option.some.inj h
      have hok := hi.status m
      rw [hm] at hok
      have hput : Inv s₀ (s.put m (.acked none)) :=
        hi.put ⟨hok.1, nofun⟩ (hi.delivered_of_eq hm nofun)
      split_ifs
      · exact hput.startPostImportMaintenance _
      · exact hput
    next => cases h
  | ackRaises m =>
    simp only [Latch.step] at h
    split at h
    next starts hm =>
      obtain rfl := Option.some.inj h
      exact hi.put trivial (hi.delivered_of_eq hm nofun)
    next starts hm =>
      obtain rfl := Option.some.inj h
      have hok := hi.status m
      rw [hm] at hok
      exact hi.put ⟨hok.1, nofun⟩ (hi.delivered_of_eq hm nofun)
    next => cases h
  | requeue m deadLetter =>
    simp only [Latch.step, Option.ite_none_right_eq_some, Option.some.injEq] at h
    obtain ⟨hm, rfl⟩ := h
    refine hi.put ?_ (hi.delivered_of_eq hm nofun)
    cases deadLetter <;> trivial
  | passStamps now statsVersion =>
    simp only [Latch.step] at h
    split at h
    next pass hp =>
      simp only [Option.ite_none_right_eq_some, Option.map_eq_some_iff] at h
      obtain ⟨-, store, hstore, rfl⟩ := h
      exact (hi.setStore fun v => loadExtractionSignals_stampSuccess hstore v).setTask _
    next => cases h
  | passReturns =>
    simp only [Latch.step] at h
    split at h
    next pass hp =>
      simp only [Option.ite_none_right_eq_some, Option.some.injEq] at h
      obtain ⟨-, rfl⟩ := h
      exact hi.setTask _
    next => cases h
  | passFails recorded now error =>
    simp only [Latch.step] at h
    split at h
    next pass hp =>
      split_ifs at h <;> obtain rfl := Option.some.inj h
      · exact ((hi.setStore fun v => loadExtractionSignals_recordFailure ..).setTask _).addFailure _
      · exact hi.setTask _
    next => cases h
  | resumeLatest answer =>
    simp only [Latch.step, Option.ite_none_right_eq_some] at h
    obtain ⟨-, h⟩ := h
    split at h
    · simp only [Option.ite_none_right_eq_some, Option.some.injEq] at h
      obtain ⟨-, rfl⟩ := h
      exact hi.setResume _
    · obtain rfl := Option.some.inj h
      exact hi.setResume _
  | resumeSignals ok =>
    simp only [Latch.step] at h
    split at h
    · obtain rfl := Option.some.inj h
      exact hi.setResume _
    · cases h
  | resumeMaintained ok =>
    simp only [Latch.step] at h
    split at h
    · obtain rfl := Option.some.inj h
      split_ifs
      · exact (hi.setResume _).startPostImportMaintenance _
      · exact hi.setResume _
    · cases h
  | restart => exact hi.restart h

/-- The statement a step commits, if it commits one. -/
theorem step_store {a : Action} (h : Latch.step s a = some s') :
    s'.store = s.store ∨
    (∃ now version signals,
      s'.store = s.store.persistExtractionSignals now version signals) ∨
    (∃ now statsVersion version,
      s.store.stampMaintenanceSuccess now statsVersion version = some s'.store) ∨
    ∃ now version error, s'.store = s.store.recordMaintenanceFailure now version error := by
  cases a with
  | commit m now =>
    simp only [Latch.step] at h
    split at h
    · obtain rfl := Option.some.inj h
      exact Or.inr (Or.inl ⟨now, m.version, _, rfl⟩)
    · cases h
  | passStamps now statsVersion =>
    simp only [Latch.step] at h
    split at h
    · simp only [Option.ite_none_right_eq_some, Option.map_eq_some_iff] at h
      obtain ⟨-, store, hstore, rfl⟩ := h
      exact Or.inr (Or.inr (Or.inl ⟨now, statsVersion, _, hstore⟩))
    · cases h
  | passFails recorded now error =>
    simp only [Latch.step] at h
    split at h
    · split_ifs at h <;> obtain rfl := Option.some.inj h
      · exact Or.inr (Or.inr (Or.inr ⟨now, _, error, rfl⟩))
      · exact Or.inl rfl
    · cases h
  | _ =>
    left
    simp only [Latch.step] at h
    repeat' split at h
    all_goals first
      | cases h
        done
      | obtain rfl := Option.some.inj h
        simp

/-- No step takes a signal away from a version. -/
theorem stored_subset_step {a : Action} (h : Latch.step s a = some s') (version : String) :
    s.stored version ⊆ s'.stored version := by
  unfold State.stored
  rcases step_store h with h | ⟨_, _, _, h⟩ | ⟨_, _, _, h⟩ | ⟨_, _, _, h⟩
  · rw [h]
  · rw [h]
    exact subset_loadExtractionSignals_persist ..
  · rw [loadExtractionSignals_stampSuccess h]
  · rw [h, loadExtractionSignals_recordFailure]

/-- Only a hand-out delivers a message. -/
theorem step_delivered {a : Action} (h : Latch.step s a = some s') {m : Signal}
    (hd : s'.delivered m = true) : s.delivered m = true ∨ a = .handOut m := by
  cases a with
  | handOut m' =>
    simp only [Latch.step, Option.ite_none_right_eq_some, Option.some.injEq] at h
    obtain ⟨-, rfl⟩ := h
    rcases eq_or_ne m m' with rfl | hne
    · exact Or.inr rfl
    · exact Or.inl (by simpa [hne] using hd)
  | passStamps now statsVersion =>
    simp only [Latch.step] at h
    split at h
    · simp only [Option.ite_none_right_eq_some, Option.map_eq_some_iff] at h
      obtain ⟨-, store, -, rfl⟩ := h
      exact Or.inl hd
    · cases h
  | _ =>
    left
    simp only [Latch.step] at h
    repeat' split at h
    all_goals first
      | cases h
        done
      | obtain rfl := Option.some.inj h
        simpa using hd

/-- The invariant holds along every run. -/
theorem Inv.of_steps (h₀ : machine.init s₀) (h : machine.Steps Machine.anyStep s₀ s) : Inv s₀ s :=
  h.invariant (Inv.init h₀) fun _ _ _ _ hi hs => hi.step hs

end Steps

/-- **The latch is safe.** In every run over any graph: an acked signal is stored; the cache is a
part of the stored signals of the version it is labelled with; signals of a version come from the
start of the run or from deliveries, and no later step removes one; and a handler starts
maintenance for a version only when all four of its signals are stored. -/
theorem latch_safe {s₀ s : State} (h₀ : machine.init s₀)
    (h : machine.Steps Machine.anyStep s₀ s) :
    (∀ m resumes, s.status m = .acked resumes → m.dataType ∈ s.stored m.version) ∧
    (∀ t ∈ s.extractionCompleteSignals,
      ∃ version, s.extractionCompleteVersion = some version ∧ t ∈ s.stored version) ∧
    (∀ version, ∀ t ∈ s.stored version, t ∈ s₀.stored version ∨
      ∃ m, s.delivered m = true ∧ m.version = version ∧ m.dataType = t) ∧
    (∀ s', machine.Steps Machine.anyStep s s' → ∀ version, s.stored version ⊆ s'.stored version) ∧
    ∀ a version, (machine.step s a).isSome → startsMaintenance s a = some version →
      allDataTypes ⊆ s.stored version := by
  have hi := Inv.of_steps h₀ h
  refine ⟨fun m resumes hm => ?_, fun t => hi.cache, fun version t => hi.origin,
    fun s' hs version => ?_, fun a version _ ha => ?_⟩
  · have hok := hi.status m
    rw [hm] at hok
    exact hok.1
  · exact hs.mono fun t a t' _ hstep => stored_subset_step hstep version
  · cases a with
    | ackReturns m =>
      simp only [startsMaintenance, Option.ite_none_right_eq_some, Option.some.injEq] at ha
      obtain ⟨hm, rfl⟩ := ha
      have hok := hi.status m
      rw [hm] at hok
      exact hok.2 rfl
    | _ => cases ha

/-- The steps of a handler whose calls all succeed: `loads` when the cache holds another version,
`last` when its signal leaves none missing. -/
def handlerRun (m : Signal) (now : ℕ) (loads last : Bool) : List Action :=
  [.handOut m, .flushed m true, .acquire m] ++ (if loads then [.loaded m true] else []) ++
    [.commit m now, .persisted m true] ++ (if last then [.maintenanceRead m true] else []) ++
    [.ackSettles m, .ackReturns m]

theorem latch_safe_fourth_signal :
    let m : Signal := { versionField := some "20260701", dataType := .releases }
    let s₀ : State :=
      { store := [{ version := "20260701", signals := some [.artists, .labels, .masters] }] }
    ∃ s, machine.Steps Machine.anyStep s₀ s ∧ startsMaintenance s (.ackReturns m) = some m.version ∧
      m.dataType ∈ s.stored m.version ∧ allDataTypes ⊆ s.stored m.version := by
  intro m s₀
  have hrun : (machine.exec (fun _ _ => true) s₀ (handlerRun m 7 true true).dropLast).any
      (·.status m = .acked (some true)) = true := by decide
  obtain ⟨s, hs, hm⟩ := (Option.any_eq_true ..).mp hrun
  have hm : s.status m = .acked (some true) := by simpa using hm
  have hsteps : machine.Steps Machine.anyStep s₀ s :=
    Machine.steps_of_exec (fun _ _ _ => trivial) hs
  have hstarts : startsMaintenance s (.ackReturns m) = some m.version := by
    simp [startsMaintenance, hm]
  have hsafe := latch_safe ⟨_, rfl⟩ hsteps
  have hstep : (machine.step s (.ackReturns m)).isSome := by simp [machine, step, hm]
  exact ⟨s, hsteps, hstarts, hsafe.1 m _ hm, hsafe.2.2.2.2 _ _ hstep hstarts⟩

end Graphinator.Latch
