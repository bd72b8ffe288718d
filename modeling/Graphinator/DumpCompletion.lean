import Graphinator.Consumers
import Graphinator.MarkerOrder

/-!
# The end of a dump

The four queues together with the service that consumes them. A message is published to its
queue, its deliveries move as `MarkerOrder` says, and every segment of a handler that touches the
module variables is an action of `Consumers`. First hand-outs follow the order of publication; a
returned message may be handed out again at any time.

`completed_files` and `extraction_signalled` have two writers. A marker that lands adds its type,
and a record takes it out again: records after a terminal marker are taken for the start of the
next dump. A recovery takes a type out of `completed_files` when its queue was not empty. Neither
can tell a new record from one that had been returned to the broker.

## Main definitions

* `Dumps.State`, `Dumps.Action`, `Dumps.machine`.
* `Dumps.Since` : an event has happened since the last one of another kind.
* `Dumps.Finished` : every type's marker is acked and nothing is left in the queues.
* `Dumps.Landed` : a type whose marker has landed.
* `Dumps.NotUndone` : the steps that leave landed types alone.

## Main results

* `Dumps.flags_step` : what each step of the service does to the two variables.
* `Dumps.finished_all_marked` : in runs of such steps a finished dump has every type marked.
* `Dumps.finished_unmarked` : a run that loses a type to a returned record.
-/

namespace Graphinator.Dumps

open MarkerOrder (Delivery)

/-! ### The state -/

/-- What the bodies of the messages say: the dump each belongs to, counted in the order of the
dumps, and which of the invalid ones parse to an object. -/
structure Feed where
  dump : DataType → Delivery → ℕ
  readable : DataType → Delivery → Bool

/-- A record whose body parses to an object, as that of every valid one does. -/
def Feed.opens (F : Feed) (t : DataType) (d : Delivery) : Bool :=
  match d.kind with
  | .record valid => valid || F.readable t d
  | _ => false

inductive Event
  | published (t : DataType) (d : Delivery)
  /-- The ack of a marker took effect. -/
  | acked (t : DataType) (d : Delivery)
deriving DecidableEq

def Event.message? : Event → Option (DataType × Delivery)
  | .published t d => some (t, d)
  | .acked _ _ => none

/-- A new record of `t` is published. -/
def Event.isNewRecord (t : DataType) : Event → Bool
  | .published t' d => decide (t' = t) && d.isRecord
  | .acked _ _ => false

structure State where
  service : Consumers.State
  queues : DataType → MarkerOrder.State
  /-- The latest event first. -/
  log : List Event := []

/-- The messages published so far. -/
def messages (log : List Event) : List (DataType × Delivery) := log.filterMap Event.message?

/-- The message of `t` that is first handed out next. -/
def State.next (s : State) (t : DataType) : Option Delivery :=
  (((messages s.log).reverse.filter fun m => m.1 = t).map Prod.snd).find? fun d =>
    (s.queues t).status d = .queued

/-! ### The steps -/

inductive Action
  | publish (t : DataType) (d : Delivery)
  /-- A step of a delivery of `t`. In a `recorded` step `landed` says whether the signal was
  recorded: after that the step may still fail, in the read of the maintenance state. -/
  | delivery (t : DataType) (a : MarkerOrder.Action) (landed : Bool)
  /-- A timer, the checker, the broker's side of a subscription, or the end of a record's
  handler. -/
  | service (a : Consumers.Action)
deriving DecidableEq

/-- What a step of a delivery does to the variables of the service. Without a batch processor a
`file_complete` lands in the segment that it starts in. -/
def handler (F : Feed) (t : DataType) (batchMode landed : Bool) :
    MarkerOrder.Action → List Consumers.Action
  | .handOut d _ =>
    match d.kind with
    | .record _ => if F.opens t d then [.recordStarts t] else []
    | .fileComplete =>
      if batchMode then [.fileCompleteStarts t]
      else [.fileCompleteStarts t, .fileCompleteEnds t true]
    | .extractionComplete => [.extractionCompleteStarts t]
  | .flushed d ok =>
    match d.kind with
    | .record _ => []
    | .fileComplete => [.fileCompleteEnds t ok]
    | .extractionComplete => if ok then [] else [.extractionCompleteEnds t false]
  | .recorded _ _ => [.extractionCompleteEnds t landed]
  | .engineSettles .. | .written .. | .requeueRecord .. | .channelCloses _ | .ackMarker ..
  | .requeueMarker .. => []

/-- The steps of a delivery that the broker and the handler allow. -/
def Allowed (s : State) (t : DataType) (landed : Bool) : MarkerOrder.Action → Prop
  | .handOut d _ => Consumers.Subscribed s.service t ∧
      ((s.queues t).status d = .queued → s.next t = some d)
  | .recorded _ ok => ok = true → landed = true
  | _ => True

instance (s : State) (t : DataType) (landed : Bool) :
    (a : MarkerOrder.Action) → Decidable (Allowed s t landed a)
  | .handOut .. => inferInstanceAs (Decidable (_ ∧ (_ → _)))
  | .recorded .. => inferInstanceAs (Decidable (_ → _))
  | .engineSettles .. | .written .. | .requeueRecord .. | .channelCloses _ | .flushed ..
  | .ackMarker .. | .requeueMarker .. => isTrue trivial

/-- The segments of the handlers happen only with a step of a delivery. The end of a record's
handler only counts the record. -/
def OfHandler : Consumers.Action → Prop
  | .recordStarts _ | .fileCompleteStarts _ | .fileCompleteEnds .. | .extractionCompleteStarts _
  | .extractionCompleteEnds .. => True
  | _ => False

instance : (a : Consumers.Action) → Decidable (OfHandler a)
  | .recordStarts _ | .fileCompleteStarts _ | .fileCompleteEnds .. | .extractionCompleteStarts _
  | .extractionCompleteEnds .. => isTrue trivial
  | .recordEnds .. | .timerFires _ | .cancelReturns .. | .timerCloseReturns .. | .interruptedResumes
  | .brokerSubscribes | .consumeReturns _ | .tick _ | .closeReturns _ | .connectReturns _
  | .probeReturns _ | .tempCloses _ | .qosReturns _ | .declareReturns _ | .depthReturns _ =>
    isFalse id

/-- The ack of a marker. -/
def ack? : MarkerOrder.Action → Option Delivery
  | .ackMarker d true => some d
  | _ => none

/-- The state after a step of a delivery of `t`. -/
def State.moved (s : State) (t : DataType) (a : MarkerOrder.Action) (queue : MarkerOrder.State)
    (service : Consumers.State) : State where
  service := service
  queues := Function.update s.queues t queue
  log := (ack? a).toList.map (.acked t) ++ s.log

/-- One step. -/
def step (F : Feed) (s : State) : Action → Option State
  | .publish t d =>
    if (t, d) ∈ messages s.log then none else some { s with log := .published t d :: s.log }
  | .delivery t a landed =>
    if (t, a.delivery) ∈ messages s.log ∧ Allowed s t landed a then
      (MarkerOrder.step (s.queues t) a).bind fun queue =>
        (Consumers.machine.exec (fun _ _ => true) s.service
          (handler F t (s.queues t).batchMode landed a)).map (s.moved t a queue)
    else none
  | .service a =>
    if OfHandler a then none
    else (Consumers.step s.service a).map fun service => { s with service }

/-- The service at its start, with its queues in either mode. -/
def machine (F : Feed) : Machine State Action where
  init s := ∃ cancelsConsumers batchMode,
    s = { service := Consumers.start cancelsConsumers, queues := fun _ => { batchMode } }
  step := step F

/-! ### What is said about a run -/

/-- An event `p` has happened, and no event `q` after it; the latest event comes first. -/
def Since (p q : Event → Prop) : List Event → Prop
  | [] => False
  | e :: log => p e ∨ ¬q e ∧ Since p q log

instance Since.decidable (p q : Event → Prop) [DecidablePred p] [DecidablePred q] :
    (log : List Event) → Decidable (Since p q log)
  | [] => isFalse id
  | e :: log =>
    have := Since.decidable p q log
    inferInstanceAs (Decidable (p e ∨ ¬q e ∧ Since p q log))

variable {F : Feed} {s s' : State} {t : DataType} {d : Delivery}

/-- The `extraction_complete` of `t` in the newest dump that anything was published of. -/
def Current (F : Feed) (s : State) (t : DataType) (d : Delivery) : Prop :=
  d.kind = .extractionComplete ∧ ∀ m ∈ messages s.log, F.dump m.1 m.2 ≤ F.dump t d

/-- The ack of the marker came after the last new record of its type. -/
def AckedSince (s : State) (t : DataType) (d : Delivery) : Prop :=
  Since (· = .acked t d) (fun e => e.isNewRecord t = true) s.log

/-- Each type's `extraction_complete` of the newest dump is acked, the queues are empty and no
delivery is unsettled. -/
structure Finished (F : Feed) (s : State) : Prop where
  acked (t : DataType) : ∃ m ∈ messages s.log, m.1 = t ∧ Current F s t m.2 ∧ AckedSince s t m.2
  settled : ∀ m ∈ messages s.log, ((s.queues m.1).status m.2).Settled

/-- `check_all_consumers_idle`. -/
def CheckAllConsumersIdle (s : Consumers.State) : Prop :=
  s.consumerTags = ∅ ∧ s.completedFiles = Finset.univ

/-- Every type is complete and signalled, so the service is idle once no consumer is left. -/
structure AllMarked (s : Consumers.State) : Prop where
  completed : s.completedFiles = Finset.univ
  signalled : s.extractionSignalled = Finset.univ
  idle : s.consumerTags = ∅ → CheckAllConsumersIdle s

/-- The `extraction_complete` of `t` in the newest dump has landed and awaits its ack, or was
acked since the last new record of `t` was published. -/
def Landed (F : Feed) (s : State) (t : DataType) : Prop :=
  ∃ m ∈ messages s.log, m.1 = t ∧ Current F s t m.2 ∧
    ((s.queues t).status m.2 = .acking ∨ AckedSince s t m.2)

/-- The type that an action of the service takes out of `completed_files`. -/
def unmarks (s : Consumers.State) : Consumers.Action → Option DataType
  | .recordStarts t => some t
  | .consumeReturns true =>
    match s.checker with
    | .registering _ pending c _ => if c.dataType ∈ pending then some c.dataType else none
    | _ => none
  | _ => none

/-- The type that a step takes out of it. -/
def undoes (F : Feed) (s : State) : Action → Option DataType
  | .delivery t (.handOut d _) _ => if F.opens t d then some t else none
  | .service a => unmarks s.service a
  | _ => none

/-- The steps that undo no type whose marker has landed: no record of it is handed out, and no
recovery finds its queue with a backlog. -/
def NotUndone (F : Feed) (s : State) (a : Action) : Prop :=
  ∀ t, undoes F s a = some t → ¬Landed F s t

instance (F : Feed) (s : State) (t : DataType) (d : Delivery) : Decidable (Current F s t d) :=
  inferInstanceAs (Decidable (_ ∧ ∀ m ∈ messages s.log, _))

instance (s : State) (t : DataType) (d : Delivery) : Decidable (AckedSince s t d) :=
  inferInstanceAs (Decidable (Since _ _ s.log))

instance (F : Feed) (s : State) (t : DataType) : Decidable (Landed F s t) :=
  inferInstanceAs (Decidable (∃ m ∈ messages s.log, _))

instance (F : Feed) (s : State) (a : Action) : Decidable (NotUndone F s a) :=
  inferInstanceAs (Decidable (∀ _, _ → _))

/-! ### The service -/

section Service

open Consumers

variable {s s' : Consumers.State}

/-- `completed_files` and `extraction_signalled`. -/
def flags (s : Consumers.State) : Finset DataType × Finset DataType :=
  (s.completedFiles, s.extractionSignalled)

@[simp] theorem flags_cancelTask : flags (s.cancelTask t) = flags s := rfl

@[simp] theorem flags_setTask (task : Option TimerPc) : flags (s.setTask t task) = flags s := rfl

@[simp] theorem flags_setChecker (pc : CheckerPc) : flags (s.setChecker pc) = flags s := rfl

@[simp] theorem flags_started : flags (s.started t) = flags s := rfl

@[simp] theorem flags_cancelled (queue : Transport) : flags (s.cancelled queue t) = flags s := rfl

@[simp] theorem flags_recoverFails (temp : Transport) : flags (s.recoverFails temp) = flags s := rfl

@[simp] theorem flags_foldl_cancelTask (ts : List DataType) :
    flags (ts.foldl Consumers.State.cancelTask s) = flags s := by
  induction ts generalizing s with
  | nil => rfl
  | cons t ts ih => rw [List.foldl_cons, ih, flags_cancelTask]

theorem flags_complete :
    flags (s.complete t) = (insert t s.completedFiles, s.extractionSignalled) := by
  unfold Consumers.State.complete
  dsimp only
  split
  · split_ifs <;> rfl
  · rfl

@[simp] theorem flags_closeFinish : flags s.closeFinish = flags s := by
  unfold Consumers.State.closeFinish
  split_ifs <;> rfl

@[simp] theorem flags_closeConnection : flags s.closeConnection.1 = flags s := by
  unfold Consumers.State.closeConnection
  split
  · rfl
  · exact flags_closeFinish

@[simp] theorem flags_closeStep (pc : ClosePc) (outcome : CloseOutcome) :
    flags (closeStep s pc outcome).1 = flags s := by
  cases pc <;> cases outcome <;>
    simp only [closeStep, flags_closeConnection, flags_closeFinish] <;> rfl

@[simp] theorem flags_recoverReconnect : flags s.recoverReconnect = flags s := by
  unfold Consumers.State.recoverReconnect
  split_ifs
  · rfl
  · exact flags_foldl_cancelTask dataTypes

@[simp] theorem flags_recoverConsumers : flags s.recoverConsumers = flags s := by
  unfold Consumers.State.recoverConsumers
  split
  · rfl
  · exact flags_recoverReconnect

@[simp] theorem flags_registerNext (temp : Transport) (pending : Finset DataType)
    (rest : List DataType) : flags (s.registerNext temp pending rest) = flags s := by
  induction rest with
  | nil => rfl
  | cons t rest ih =>
    rw [Consumers.State.registerNext]
    split
    · split_ifs
      · exact ih
      · rfl
    · exact ih

@[simp] theorem flags_resubscribeNext (rest : List DataType) :
    flags (s.resubscribeNext rest) = flags s := by
  cases rest <;> rfl

/-- The two variables after an action. -/
def flagsAfter (s : Consumers.State) : Consumers.Action → Finset DataType × Finset DataType
  | .recordStarts t => (s.completedFiles.erase t, s.extractionSignalled.erase t)
  | .fileCompleteEnds t true => (insert t s.completedFiles, s.extractionSignalled)
  | .extractionCompleteEnds t true =>
    (insert t s.completedFiles, insert t s.extractionSignalled)
  | .consumeReturns true =>
    match s.checker with
    | .registering _ pending c _ =>
      (if c.dataType ∈ pending then s.completedFiles.erase c.dataType else s.completedFiles,
        s.extractionSignalled)
    | _ => flags s
  | _ => flags s

/-- What a step of the service does to the two variables. -/
theorem flags_step {a : Consumers.Action} (h : Consumers.step s a = some s') :
    flags s' = flagsAfter s a := by
  cases a with
  | recordStarts t | recordEnds t counted | fileCompleteStarts t | extractionCompleteStarts t
  | interruptedResumes =>
    simp only [Consumers.step, Option.ite_none_right_eq_some, Option.some.injEq] at h
    obtain ⟨-, rfl⟩ := h
    rfl
  | fileCompleteEnds t landed =>
    simp only [Consumers.step, Option.ite_none_right_eq_some, Option.some.injEq] at h
    obtain ⟨-, rfl⟩ := h
    cases landed
    · rfl
    · exact flags_complete
  | extractionCompleteEnds t landed =>
    simp only [Consumers.step, Option.ite_none_right_eq_some, Option.some.injEq] at h
    obtain ⟨-, rfl⟩ := h
    cases landed
    · rfl
    · exact flags_complete
  | timerFires t =>
    simp only [Consumers.step] at h
    split at h
    · obtain rfl := Option.some.inj h
      rfl
    · cases h
  | cancelReturns t outcome =>
    simp only [Consumers.step] at h
    split at h
    · split at h
      · split_ifs at h <;> obtain rfl := Option.some.inj h <;> rfl
      · obtain rfl := Option.some.inj h
        rfl
    · cases h
  | timerCloseReturns t outcome =>
    simp only [Consumers.step] at h
    split at h
    · next pc hpc =>
      obtain rfl := Option.some.inj h
      exact flags_closeStep pc outcome
    · cases h
  | brokerSubscribes =>
    simp only [Consumers.step] at h
    split at h
    · split_ifs at h
      obtain rfl := Option.some.inj h
      rfl
    · cases h
  | consumeReturns ok =>
    simp only [Consumers.step] at h
    split at h
    next c rest hpc =>
      simp only [Option.ite_none_right_eq_some, Option.some.injEq] at h
      obtain ⟨⟨rfl, -⟩, rfl⟩ := h
      simp only [flagsAfter, hpc]
      rfl
    next temp pending c rest hpc =>
      split_ifs at h with hok <;> obtain rfl := Option.some.inj h
      · subst hok
        simp only [flagsAfter, hpc, flags_registerNext]
        rfl
      · simp [flagsAfter, hok]
    next c rest hpc =>
      split_ifs at h with hok <;> obtain rfl := Option.some.inj h
      · subst hok
        simp [flagsAfter, hpc]
      · simp [flagsAfter, hok]
    next => cases h
  | tick route =>
    simp only [Consumers.step, Option.ite_none_right_eq_some] at h
    obtain ⟨-, h⟩ := h
    cases route <;> simp only at h <;> split_ifs at h <;> obtain rfl := Option.some.inj h <;>
      simp [flagsAfter]
  | closeReturns outcome =>
    simp only [Consumers.step] at h
    split at h
    next pc hpc =>
      obtain rfl := Option.some.inj h
      split <;> simp [flagsAfter]
    next pc hpc =>
      obtain rfl := Option.some.inj h
      simp [flagsAfter]
    next => cases h
  | connectReturns ok =>
    simp only [Consumers.step, Option.ite_none_right_eq_some, Option.some.injEq] at h
    obtain ⟨-, rfl⟩ := h
    cases ok <;> rfl
  | probeReturns pending =>
    simp only [Consumers.step] at h
    split at h
    · split at h
      · obtain rfl := Option.some.inj h
        rfl
      · split_ifs at h <;> obtain rfl := Option.some.inj h <;> rfl
    · cases h
  | tempCloses ok | qosReturns ok =>
    simp only [Consumers.step] at h
    split at h
    · obtain rfl := Option.some.inj h
      cases ok <;> rfl
    · cases h
  | declareReturns ok =>
    simp only [Consumers.step] at h
    split at h
    · split_ifs at h
      · split at h
        · cases h
        · obtain rfl := Option.some.inj h
          split_ifs
          · exact flags_registerNext ..
          · rfl
      · obtain rfl := Option.some.inj h
        rfl
    · cases h
  | depthReturns positive =>
    simp only [Consumers.step] at h
    split at h
    · split at h
      · split_ifs at h <;> obtain rfl := Option.some.inj h <;> simp [flagsAfter]
      · obtain rfl := Option.some.inj h
        simp [flagsAfter]
    · cases h

/-- A type in both variables. -/
def Marked (s : Consumers.State) (t : DataType) : Prop :=
  t ∈ s.completedFiles ∧ t ∈ s.extractionSignalled

theorem marked_iff_flags : Marked s t ↔ t ∈ (flags s).1 ∧ t ∈ (flags s).2 := Iff.rfl

/-- An action leaves every type marked but the one it takes out. -/
theorem Marked.step {a : Consumers.Action} (hm : Marked s t) (ha : unmarks s a ≠ some t)
    (h : Consumers.step s a = some s') : Marked s' t := by
  rw [marked_iff_flags, flags_step h]
  unfold flagsAfter
  split
  · next u =>
    have hne : t ≠ u := fun heq => ha (congrArg some heq.symm)
    exact ⟨Finset.mem_erase_of_ne_of_mem hne hm.1, Finset.mem_erase_of_ne_of_mem hne hm.2⟩
  · exact ⟨Finset.mem_insert_of_mem hm.1, hm.2⟩
  · exact ⟨Finset.mem_insert_of_mem hm.1, Finset.mem_insert_of_mem hm.2⟩
  · split
    · next temp pending c rest hpc =>
      refine ⟨?_, hm.2⟩
      dsimp only
      split_ifs with hpending
      · refine Finset.mem_erase_of_ne_of_mem (fun heq => ha ?_) hm.1
        simp only [unmarks, hpc, if_pos hpending, heq]
      · exact hm.1
    · exact hm
  · exact hm

/-- Actions that take `t` out in no state leave it marked. -/
theorem Marked.exec {as : List Consumers.Action} (hm : Marked s t)
    (has : ∀ a ∈ as, ∀ s, unmarks s a ≠ some t)
    (h : Consumers.machine.exec (fun _ _ => true) s as = some s') : Marked s' t := by
  induction as generalizing s with
  | nil =>
    obtain rfl := Option.some.inj h
    exact hm
  | cons a as ih =>
    obtain ⟨s₁, hs₁, hrest⟩ := Option.bind_eq_some_iff.mp h
    exact ih (hm.step (has a List.mem_cons_self s) hs₁)
      (fun b hb => has b (List.mem_cons_of_mem a hb)) hrest

end Service

/-! ### The log -/

theorem Since.exists {p q : Event → Prop} {log : List Event} (h : Since p q log) :
    ∃ e ∈ log, p e := by
  induction log with
  | nil => exact h.elim
  | cons e log ih =>
    rcases h with h | h
    · exact ⟨e, List.mem_cons_self, h⟩
    · obtain ⟨e', he', hp⟩ := ih h.2
      exact ⟨e', List.mem_cons_of_mem e he', hp⟩

@[simp] theorem messages_published (log : List Event) :
    messages (.published t d :: log) = (t, d) :: messages log := rfl

section Moved

variable {a : MarkerOrder.Action} {queue : MarkerOrder.State} {service : Consumers.State}

@[simp] theorem messages_moved :
    messages (s.moved t a queue service).log = messages s.log := by
  unfold State.moved
  cases ack? a <;> rfl

@[simp] theorem queues_moved_self : (s.moved t a queue service).queues t = queue :=
  Function.update_self ..

@[simp] theorem queues_moved_of_ne {u : DataType} (h : u ≠ t) :
    (s.moved t a queue service).queues u = s.queues u := Function.update_of_ne h ..

end Moved

/-- An event `acked` is new only with the ack of that marker. -/
theorem since_acked {t u : DataType} {a : MarkerOrder.Action} {log : List Event}
    (h : Since (· = .acked u d) (fun e => e.isNewRecord u = true)
      ((ack? a).toList.map (.acked t) ++ log)) :
    Since (· = .acked u d) (fun e => e.isNewRecord u = true) log ∨
      u = t ∧ a = .ackMarker d true := by
  cases hack : ack? a with
  | none =>
    rw [hack] at h
    exact Or.inl h
  | some d' =>
    rw [hack] at h
    rcases h with h | h
    · obtain ⟨rfl, rfl⟩ := Event.acked.inj h
      refine Or.inr ⟨rfl, ?_⟩
      unfold ack? at hack
      split at hack
      · obtain rfl := Option.some.inj hack
        rfl
      · cases hack
    · exact Or.inl h.2

/-! ### The invariant -/

/-- The invariant of runs that undo no landed type. -/
structure Inv (F : Feed) (s : State) : Prop where
  /-- A message that was not published is in no handler, and no ack of it is logged. -/
  fresh {t : DataType} {d : Delivery} : (t, d) ∉ messages s.log →
    (s.queues t).status d = .queued ∧ .acked t d ∉ s.log
  marked {t : DataType} : Landed F s t → Marked s.service t

theorem Inv.init (h : (machine F).init s) : Inv F s := by
  obtain ⟨cancelsConsumers, batchMode, rfl⟩ := h
  refine ⟨fun _ => ⟨rfl, List.not_mem_nil⟩, ?_⟩
  rintro t ⟨m, hm, -⟩
  exact absurd hm List.not_mem_nil

/-- A publication lands nothing: it can only begin a newer dump or a new record. -/
theorem Inv.publish (hi : Inv F s) {t : DataType} {d : Delivery} (hd : (t, d) ∉ messages s.log) :
    Inv F { s with log := .published t d :: s.log } := by
  refine ⟨fun {u e} he => ?_, fun {u} h => hi.marked ?_⟩
  · rw [messages_published, List.mem_cons, not_or] at he
    obtain ⟨hqueued, hack⟩ := hi.fresh he.2
    exact ⟨hqueued, by simpa using hack⟩
  · obtain ⟨m, hm, rfl, ⟨hkind, hnewest⟩, hstate⟩ := h
    rw [messages_published] at hm hnewest
    have hstate' : (s.queues m.1).status m.2 = .acking ∨ AckedSince s m.1 m.2 :=
      hstate.imp_right fun h => (h.resolve_left Event.noConfusion).2
    refine ⟨m, ?_, rfl, ⟨hkind, fun m' hm' => hnewest m' (List.mem_cons_of_mem _ hm')⟩, hstate'⟩
    rcases List.mem_cons.mp hm with rfl | hm
    · -- the message itself is still in the queue
      obtain ⟨hqueued, hack⟩ := hi.fresh hd
      rcases hstate' with hacking | hsince
      · cases hqueued.symm.trans hacking
      · obtain ⟨e, he, rfl⟩ := hsince.exists
        exact absurd he hack
    · exact hm

/-- A segment of a handler leaves every type marked but that of a record. -/
theorem Marked.handler {service : Consumers.State} {t u : DataType} {batchMode landed : Bool}
    {a : MarkerOrder.Action} (hm : Marked s.service u)
    (hundo : undoes F s (.delivery t a landed) ≠ some u)
    (h : Consumers.machine.exec (fun _ _ => true) s.service (handler F t batchMode landed a) =
      some service) : Marked service u := by
  refine hm.exec (fun b hb s' => ?_) h
  cases a with
  | handOut d ok =>
    obtain ⟨kind, tag⟩ := d
    cases kind with
    | record valid =>
      simp only [Dumps.handler] at hb
      split_ifs at hb with hopens
      · obtain rfl := List.mem_singleton.mp hb
        exact fun heq => hundo ((if_pos hopens).trans heq)
      · cases hb
    | fileComplete =>
      simp only [Dumps.handler] at hb
      split_ifs at hb
      · obtain rfl := List.mem_singleton.mp hb
        simp [unmarks]
      · rcases List.mem_pair.mp hb with rfl | rfl <;> simp [unmarks]
    | extractionComplete =>
      obtain rfl := List.mem_singleton.mp hb
      simp [unmarks]
  | flushed d ok =>
    simp only [Dumps.handler] at hb
    split at hb
    · cases hb
    · obtain rfl := List.mem_singleton.mp hb
      simp [unmarks]
    · split_ifs at hb
      · cases hb
      · obtain rfl := List.mem_singleton.mp hb
        simp [unmarks]
  | recorded d ok =>
    obtain rfl := List.mem_singleton.mp hb
    simp [unmarks]
  | _ => cases hb

/-- A signal that is recorded marks its type. -/
theorem marked_of_recorded {service service' : Consumers.State} {t : DataType} {batchMode ok : Bool}
    (h : Consumers.machine.exec (fun _ _ => true) service
      (handler F t batchMode true (.recorded d ok)) = some service') : Marked service' t := by
  obtain ⟨s₁, hs₁, hrest⟩ := Option.bind_eq_some_iff.mp h
  obtain rfl := Option.some.inj hrest
  have hflags : flags s₁ = flagsAfter service (.extractionCompleteEnds t true) := flags_step hs₁
  rw [marked_iff_flags, hflags]
  exact ⟨Finset.mem_insert_self .., Finset.mem_insert_self ..⟩

/-- An `extraction_complete` reaches its ack from the recording of its signal. -/
theorem recording_of_moves {batchMode : Bool} {st st' : MarkerOrder.Status}
    (h : MarkerOrder.Moves batchMode .extractionComplete st st') (hst : st' = .acking) :
    st = .recording := by
  cases h with
  | handOut ok | handOutAgain ok => cases batchMode <;> cases hst
  | engineSettles outcome => cases outcome <;> cases hst
  | requeueRecord outcome => cases outcome <;> cases hst
  | recorded => rfl
  | _ => cases hst

/-- Only a recorded signal brings an `extraction_complete` to its ack. -/
theorem acking_of_step {q q' : MarkerOrder.State} {a : MarkerOrder.Action}
    (hkind : d.kind = .extractionComplete) (h : MarkerOrder.step q a = some q')
    (hd : q'.status d = .acking) : q.status d = .acking ∨ a = .recorded d true := by
  obtain ⟨hmoves, hother, -, -⟩ := MarkerOrder.step_eq h
  rcases eq_or_ne d a.delivery with rfl | hne
  · right
    rw [hkind] at hmoves
    have hst := recording_of_moves hmoves hd
    cases a with
    | recorded d ok =>
      cases ok
      · simp only [MarkerOrder.step, Option.ite_none_right_eq_some, Option.some.injEq] at h
        obtain ⟨-, rfl⟩ := h
        simp [MarkerOrder.Action.delivery] at hd
      · rfl
    | _ =>
      simp only [MarkerOrder.Action.delivery] at hst
      simp [MarkerOrder.step, hst] at h
  · rw [hother d hne] at hd
    exact Or.inl hd

/-- A step of a delivery lands no type, unless it records a signal of it. -/
theorem Landed.of_delivery {t u : DataType} {a : MarkerOrder.Action} {queue : MarkerOrder.State}
    {service : Consumers.State} (hq : MarkerOrder.step (s.queues t) a = some queue)
    (h : Landed F (s.moved t a queue service) u) :
    Landed F s u ∨ u = t ∧ ∃ d, a = .recorded d true := by
  obtain ⟨m, hm, rfl, ⟨hkind, hnewest⟩, hstate⟩ := h
  rw [messages_moved] at hm hnewest
  rcases hstate with hacking | hsince
  · rcases eq_or_ne m.1 t with heq | hne
    · rw [heq, queues_moved_self] at hacking
      rcases acking_of_step hkind hq hacking with hacking | rfl
      · exact Or.inl ⟨m, hm, rfl, ⟨hkind, hnewest⟩, Or.inl (heq ▸ hacking)⟩
      · exact Or.inr ⟨heq, m.2, rfl⟩
    · rw [queues_moved_of_ne hne] at hacking
      exact Or.inl ⟨m, hm, rfl, ⟨hkind, hnewest⟩, Or.inl hacking⟩
  · rcases since_acked hsince with hsince | ⟨heq, rfl⟩
    · exact Or.inl ⟨m, hm, rfl, ⟨hkind, hnewest⟩, Or.inr hsince⟩
    · simp only [MarkerOrder.step, Option.ite_none_right_eq_some] at hq
      exact Or.inl ⟨m, hm, rfl, ⟨hkind, hnewest⟩, Or.inl (heq ▸ hq.1)⟩

theorem Inv.delivery (hi : Inv F s) {t : DataType} {a : MarkerOrder.Action} {landed : Bool}
    {queue : MarkerOrder.State} {service : Consumers.State}
    (hundo : NotUndone F s (.delivery t a landed)) (hpublished : (t, a.delivery) ∈ messages s.log)
    (hallowed : Allowed s t landed a) (hq : MarkerOrder.step (s.queues t) a = some queue)
    (hservice : Consumers.machine.exec (fun _ _ => true) s.service
      (handler F t (s.queues t).batchMode landed a) = some service) :
    Inv F (s.moved t a queue service) := by
  refine ⟨fun {u e} he => ?_, fun {u} h => ?_⟩
  · rw [messages_moved] at he
    obtain ⟨hqueued, hack⟩ := hi.fresh he
    have hne : ¬(u = t ∧ e = a.delivery) := by
      rintro ⟨rfl, rfl⟩
      exact he hpublished
    refine ⟨?_, fun hmem => ?_⟩
    · rcases eq_or_ne u t with rfl | hut
      · rw [queues_moved_self, (MarkerOrder.step_eq hq).2.1 e fun heq => hne ⟨rfl, heq⟩]
        exact hqueued
      · rw [queues_moved_of_ne hut]
        exact hqueued
    · rcases List.mem_append.mp hmem with hmem | hmem
      · obtain ⟨d, hd, heq⟩ := List.mem_map.mp hmem
        obtain ⟨rfl, rfl⟩ := Event.acked.inj heq
        refine hne ⟨rfl, ?_⟩
        unfold ack? at hd
        split at hd <;> simp at hd
        exact hd
      · exact hack hmem
  · rcases h.of_delivery hq with h | ⟨rfl, d, rfl⟩
    · exact (hi.marked h).handler (fun heq => hundo u heq h) hservice
    · have hlanded : landed = true := hallowed rfl
      subst hlanded
      exact marked_of_recorded hservice

theorem Inv.service (hi : Inv F s) {a : Consumers.Action} {service : Consumers.State}
    (hundo : NotUndone F s (.service a)) (hservice : Consumers.step s.service a = some service) :
    Inv F { s with service } :=
  ⟨hi.fresh, fun {u} h => (hi.marked h).step (fun heq => hundo u heq h) hservice⟩

/-- Every step that undoes no landed type preserves the invariant. -/
theorem Inv.step (hi : Inv F s) {a : Action} (hundo : NotUndone F s a)
    (h : Dumps.step F s a = some s') : Inv F s' := by
  cases a with
  | publish t d =>
    simp only [Dumps.step, Option.ite_none_left_eq_some, Option.some.injEq] at h
    obtain ⟨hd, rfl⟩ := h
    exact hi.publish hd
  | delivery t a landed =>
    simp only [Dumps.step, Option.ite_none_right_eq_some] at h
    obtain ⟨⟨hpublished, hallowed⟩, h⟩ := h
    obtain ⟨queue, hq, h⟩ := Option.bind_eq_some_iff.mp h
    obtain ⟨service, hservice, rfl⟩ := Option.map_eq_some_iff.mp h
    exact hi.delivery hundo hpublished hallowed hq hservice
  | service a =>
    simp only [Dumps.step, Option.ite_none_left_eq_some] at h
    obtain ⟨-, h⟩ := h
    obtain ⟨service, hservice, rfl⟩ := Option.map_eq_some_iff.mp h
    exact hi.service hundo hservice

/-! ### The end of a dump -/

theorem Finished.landed (h : Finished F s) (t : DataType) : Landed F s t := by
  obtain ⟨m, hm, hmt, hcurrent, hsince⟩ := h.acked t
  exact ⟨m, hm, hmt, hcurrent, Or.inr hsince⟩

/-- **A finished dump ends with every type marked**, in runs of steps that satisfy `NotUndone`. -/
theorem finished_all_marked (F : Feed) (h : (machine F).ReachableIn (NotUndone F) s)
    (hfinished : Finished F s) : AllMarked s.service := by
  have hi : Inv F s := h.invariant (fun _ => Inv.init) fun _ _ _ hok hi hs => hi.step hok hs
  have hcompleted : s.service.completedFiles = Finset.univ :=
    Finset.eq_univ_of_forall fun t => (hi.marked (hfinished.landed t)).1
  exact ⟨hcompleted, Finset.eq_univ_of_forall fun t => (hi.marked (hfinished.landed t)).2,
    fun hempty => ⟨hempty, hcompleted⟩⟩

/-! ### Two runs of one dump -/

/-- One dump, with readable bodies. -/
def oneDump : Feed where
  dump _ _ := 0
  readable _ _ := true

def release : Delivery := ⟨.record true, 0⟩

def marker : Delivery := ⟨.extractionComplete, 1⟩

/-- The marker is handed out, its signal is recorded, and it is acked. -/
def lands (t : DataType) : List Action :=
  [.delivery t (.handOut marker true) false, .delivery t (.recorded marker true) true,
    .delivery t (.ackMarker marker true) false]

/-- The consumers are registered, a release is handed out, its write ends, and every marker
lands. -/
def importRun (ok : Bool) (rest : List Action) : List Action :=
  Consumers.registerAll.map .service ++ [.publish .releases release] ++
    dataTypes.map (fun t => .publish t marker) ++
    [.delivery .releases (.handOut release true) false,
      .delivery .releases (.written release ok) false] ++ rest ++ dataTypes.flatMap lands

theorem finished_all_marked_import : ∃ s, (machine oneDump).ReachableIn (NotUndone oneDump) s ∧
    Finished oneDump s ∧ AllMarked s.service := by
  have hrun : ((machine oneDump).exec (fun s a => NotUndone oneDump s a)
      { service := Consumers.start true, queues := fun _ => { batchMode := false } }
      (importRun true [])).any (fun s =>
        (∀ t, ∃ m ∈ messages s.log, m.1 = t ∧ Current oneDump s t m.2 ∧ AckedSince s t m.2) ∧
          ∀ m ∈ messages s.log, ((s.queues m.1).status m.2).Settled) = true := by decide
  obtain ⟨s, hs, hfinal⟩ := (Option.any_eq_true ..).mp hrun
  obtain ⟨hacked, hsettled⟩ := of_decide_eq_true hfinal
  have hreach : (machine oneDump).ReachableIn (NotUndone oneDump) s :=
    ⟨_, ⟨true, false, rfl⟩, Machine.steps_of_exec (fun _ _ => of_decide_eq_true) hs⟩
  exact ⟨s, hreach, ⟨hacked, hsettled⟩, finished_all_marked oneDump hreach ⟨hacked, hsettled⟩⟩

/-- The write of the release fails, and the release is handed out again after the markers. It is
written and acked, and `releases` is neither complete nor signalled. -/
theorem finished_unmarked : ∃ s, (machine oneDump).Reachable s ∧ Finished oneDump s ∧
    ¬AllMarked s.service ∧
    .releases ∉ s.service.completedFiles ∧ .releases ∉ s.service.extractionSignalled := by
  have hrun : ((machine oneDump).exec (fun _ _ => true)
      { service := Consumers.start true, queues := fun _ => { batchMode := false } }
      (importRun false [.delivery .releases (.requeueRecord release .requeued) false] ++
        [.delivery .releases (.handOut release true) false,
          .delivery .releases (.written release true) false])).any (fun s =>
        ((∀ t, ∃ m ∈ messages s.log, m.1 = t ∧ Current oneDump s t m.2 ∧ AckedSince s t m.2) ∧
          ∀ m ∈ messages s.log, ((s.queues m.1).status m.2).Settled) ∧
          .releases ∉ s.service.completedFiles ∧ .releases ∉ s.service.extractionSignalled) =
      true := by decide
  obtain ⟨s, hs, hfinal⟩ := (Option.any_eq_true ..).mp hrun
  obtain ⟨⟨hacked, hsettled⟩, hlost⟩ := of_decide_eq_true hfinal
  exact ⟨s, ⟨_, ⟨true, false, rfl⟩, Machine.steps_of_exec (fun _ _ _ => trivial) hs⟩,
    ⟨hacked, hsettled⟩, fun h => hlost.1 (h.completed ▸ Finset.mem_univ _), hlost⟩

end Graphinator.Dumps
