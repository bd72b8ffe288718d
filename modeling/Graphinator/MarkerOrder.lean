import Graphinator.Lib.Machine
import Mathlib.Data.List.Basic
import Mathlib.Data.List.TakeWhile
import Mathlib.Logic.Function.Basic

/-!
# Completion markers and the records before them

The deliveries of one queue: records and the two end-of-type markers, each handled by its own
coroutine. A handler runs from its hand-out to its first await in one step, and deliveries are
handed out in queue order, so the list of first hand-outs says which records a marker may not
overtake.

In batch mode a record is settled by the batch engine, and a marker first waits for
`flush_queue`. The engine is outside this repository; it is known here by what its flush
promises, that a flush returns `True` only when nothing that was submitted is unsettled. A
delivery that the engine gives back to the broker counts as settled there. Without batch mode
there is no engine and no flush.

## Main definitions

* `MarkerOrder.Delivery`, `MarkerOrder.Status`, `MarkerOrder.State`, `MarkerOrder.Action`.
* `MarkerOrder.before` : the records first handed out before a delivery.
* `MarkerOrder.DrainsAll` : the steps in which a drain that a marker passes has left no earlier
  record unsettled.

## Main results

* `MarkerOrder.marker_after_data` : in runs of such steps a marker lands after its data.
* `MarkerOrder.marker_overtakes` : runs of both modes in which it does not.
-/

namespace Graphinator.MarkerOrder

/-- What a message of the queue is. -/
inductive Kind
  /-- A record; an invalid one has an unreadable body, no usable `id`, or fails
  `normalize_record`. -/
  | record (valid : Bool)
  | fileComplete
  | extractionComplete
deriving DecidableEq, Repr

/-- A message of the queue; `tag` tells messages of one kind apart. -/
structure Delivery where
  kind : Kind
  tag : ℕ
deriving DecidableEq, Repr

def Delivery.isRecord (d : Delivery) : Bool :=
  match d.kind with
  | .record _ => true
  | _ => false

/-- Where a delivery is. -/
inductive Status
  /-- In the queue, never handed out. -/
  | queued
  /-- Back in the queue after a hand-out. -/
  | returned
  /-- A record the batch engine holds, or that waits in its `submit`. -/
  | submitted
  /-- A record in the write or the ack of non-batch mode. -/
  | writing
  /-- A record in `requeue_record`. -/
  | backoff
  /-- A record whose `nack` raised: unacked until its channel closes. -/
  | unacked
  /-- A marker in `flush_queue`. -/
  | flushing
  /-- An `extraction_complete` whose signal is being recorded. -/
  | recording
  /-- A marker between its drain, or its recorded signal, and its ack. -/
  | acking
  /-- A marker in `requeue_marker`. -/
  | requeueing
  | acked
  | deadLettered
deriving DecidableEq, Repr

/-- Acked or dead-lettered: the broker will not hand the delivery out again. -/
def Status.Settled (st : Status) : Prop := st = .acked ∨ st = .deadLettered

instance (st : Status) : Decidable st.Settled := inferInstanceAs (Decidable (_ ∨ _))

/-- How the batch engine ends its hold on a delivery, or how `add_message` fails. -/
inductive Outcome
  | ack
  /-- The nack callback: rejected, poison, or out of requeues. -/
  | reject
  /-- The requeue callback: held past `max_hold_s`. -/
  | giveBack
  /-- `add_message` raises, and the handler goes to `requeue_record`. -/
  | raise
deriving DecidableEq, Repr

def Outcome.status : Outcome → Status
  | .ack => .acked
  | .reject => .deadLettered
  | .giveBack => .returned
  | .raise => .backoff

/-- How `requeue_or_dead_letter` ends for a record. -/
inductive Requeue
  | requeued | deadLettered | raised
deriving DecidableEq, Repr

def Requeue.status : Requeue → Status
  | .requeued => .returned
  | .deadLettered => .deadLettered
  | .raised => .unacked

/-- The deliveries of the queue, and those handed out so far in the order of their first
hand-out. -/
structure State where
  batchMode : Bool
  status : Delivery → Status := fun _ => .queued
  handedOut : List Delivery := []

inductive Action
  /-- The broker hands out a delivery and its handler runs to its first await. An invalid record
  is nacked there; `ok` when that nack does not raise. -/
  | handOut (d : Delivery) (ok : Bool)
  /-- The batch engine lets go of a submitted record. -/
  | engineSettles (d : Delivery) (outcome : Outcome)
  /-- The write and the ack of a record in non-batch mode succeed, or one of them raises. -/
  | written (d : Delivery) (ok : Bool)
  /-- `requeue_record` ends. -/
  | requeueRecord (d : Delivery) (outcome : Requeue)
  /-- The channel of an unacked record closes. -/
  | channelCloses (d : Delivery)
  /-- `flush_queue` returns to the marker's handler. -/
  | flushed (d : Delivery) (ok : Bool)
  /-- The signal of an `extraction_complete` is recorded, or its recording or the read of the
  maintenance state raises. -/
  | recorded (d : Delivery) (ok : Bool)
  /-- The marker's ack takes effect, or raises. -/
  | ackMarker (d : Delivery) (ok : Bool)
  /-- `requeue_marker` ends. -/
  | requeueMarker (d : Delivery) (deadLetter : Bool)
deriving DecidableEq, Repr

def State.put (s : State) (d : Delivery) (st : Status) : State :=
  { s with status := Function.update s.status d st }

/-- What the handler does with a delivery before its first await. A marker without a batch
processor has nothing to flush. -/
def firstSegment (batchMode : Bool) (kind : Kind) (ok : Bool) : Status :=
  match kind with
  | .record true => if batchMode then .submitted else .writing
  | .record false => if ok then .deadLettered else .backoff
  | .fileComplete => if batchMode then .flushing else .acking
  | .extractionComplete => if batchMode then .flushing else .recording

/-- What a marker does once `flush_queue` returned `True`. -/
def afterFlush (kind : Kind) : Status :=
  if kind = .extractionComplete then .recording else .acking

/-- One step. -/
def step (s : State) : Action → Option State
  | .handOut d ok =>
    match s.status d with
    | .queued =>
      some { s.put d (firstSegment s.batchMode d.kind ok) with handedOut := s.handedOut ++ [d] }
    | .returned => some (s.put d (firstSegment s.batchMode d.kind ok))
    | _ => none
  | .engineSettles d outcome =>
    if s.status d = .submitted then some (s.put d outcome.status) else none
  | .written d ok =>
    if s.status d = .writing then some (s.put d (if ok then .acked else .backoff)) else none
  | .requeueRecord d outcome =>
    if s.status d = .backoff then some (s.put d outcome.status) else none
  | .channelCloses d => if s.status d = .unacked then some (s.put d .returned) else none
  | .flushed d ok =>
    if s.status d = .flushing then
      if ok then
        -- The engine's promise: nothing that was submitted is unsettled.
        if ∀ d' ∈ s.handedOut, s.status d' ≠ .submitted then some (s.put d (afterFlush d.kind))
        else none
      else some (s.put d .requeueing)
    else none
  | .recorded d ok =>
    if s.status d = .recording then some (s.put d (if ok then .acking else .requeueing)) else none
  | .ackMarker d ok =>
    if s.status d = .acking then some (s.put d (if ok then .acked else .requeueing)) else none
  | .requeueMarker d deadLetter =>
    if s.status d = .requeueing then some (s.put d (if deadLetter then .deadLettered else .returned))
    else none

/-- The handlers of one queue, in either mode. -/
def machine : Machine State Action where
  init s := ∃ batchMode, s = { batchMode }
  step := step

/-- The marker that a step lands: the signal of an `extraction_complete` is recorded, or a
marker is acked. -/
def lands (s : State) : Action → Option Delivery
  | .recorded d true => if s.status d = .recording then some d else none
  | .ackMarker d true => if s.status d = .acking then some d else none
  | _ => none

/-- The records first handed out before `d`. -/
def before (s : State) (d : Delivery) : List Delivery :=
  (s.handedOut.takeWhile (· ≠ d)).filter (·.isRecord)

/-- The steps that let no marker past an unsettled record. Without batch mode nothing is drained,
so when a marker is handed out every earlier record has to be settled. In batch mode the flush
settles what the engine holds, so when it returns `True` no earlier record may be outside of it:
in a backoff, unacked, or returned to the queue. -/
def DrainsAll (s : State) : Action → Prop
  | .handOut d _ => d.isRecord = false → s.batchMode = false →
      (s.status d = .queued ∨ s.status d = .returned) →
      ∀ d' ∈ before s d, (s.status d').Settled
  | .flushed d true => ∀ d' ∈ before s d,
      s.status d' ≠ .backoff ∧ s.status d' ≠ .unacked ∧ s.status d' ≠ .returned
  | _ => True

instance (s : State) : (a : Action) → Decidable (DrainsAll s a)
  | .handOut d _ => inferInstanceAs (Decidable (_ → _ → _ → ∀ d' ∈ before s d, _))
  | .flushed d true => inferInstanceAs (Decidable (∀ d' ∈ before s d, _ ∧ _ ∧ _))
  | .flushed _ false | .engineSettles .. | .written .. | .requeueRecord .. | .channelCloses _
  | .recorded .. | .ackMarker .. | .requeueMarker .. => isTrue trivial

/-! ### What a step does to one delivery -/

variable {s s' : State} {d d' : Delivery} {a : Action}

@[simp] theorem put_status_self (st : Status) : (s.put d st).status d = st := by simp [State.put]

@[simp] theorem put_status_of_ne (h : d' ≠ d) (st : Status) :
    (s.put d st).status d' = s.status d' := by simp [State.put, h]

/-- The delivery that an action is about. -/
def Action.delivery : Action → Delivery
  | .handOut d _ | .engineSettles d _ | .written d _ | .requeueRecord d _ | .channelCloses d
  | .flushed d _ | .recorded d _ | .ackMarker d _ | .requeueMarker d _ => d

/-- The moves of one delivery. -/
inductive Moves (batchMode : Bool) (kind : Kind) : Status → Status → Prop
  | handOut (ok : Bool) : Moves batchMode kind .queued (firstSegment batchMode kind ok)
  | handOutAgain (ok : Bool) : Moves batchMode kind .returned (firstSegment batchMode kind ok)
  | engineSettles (outcome : Outcome) : Moves batchMode kind .submitted outcome.status
  | written : Moves batchMode kind .writing .acked
  | writeFails : Moves batchMode kind .writing .backoff
  | requeueRecord (outcome : Requeue) : Moves batchMode kind .backoff outcome.status
  | channelCloses : Moves batchMode kind .unacked .returned
  | flushed : Moves batchMode kind .flushing (afterFlush kind)
  | flushFails : Moves batchMode kind .flushing .requeueing
  | recorded : Moves batchMode kind .recording .acking
  | recordFails : Moves batchMode kind .recording .requeueing
  | acked : Moves batchMode kind .acking .acked
  | ackFails : Moves batchMode kind .acking .requeueing
  | requeued : Moves batchMode kind .requeueing .returned
  | deadLettered : Moves batchMode kind .requeueing .deadLettered

/-- A step moves its own delivery and leaves every other where it is. It appends the delivery to
the hand-outs if it was never handed out. -/
theorem step_eq (h : step s a = some s') :
    Moves s.batchMode a.delivery.kind (s.status a.delivery) (s'.status a.delivery) ∧
    (∀ d' ≠ a.delivery, s'.status d' = s.status d') ∧ s'.batchMode = s.batchMode ∧
    s'.handedOut = s.handedOut ++ if s.status a.delivery = .queued then [a.delivery] else [] := by
  have hput (d : Delivery) (st : Status) (hm : Moves s.batchMode d.kind (s.status d) st)
      (hq : s.status d ≠ .queued) :
      Moves s.batchMode d.kind (s.status d) ((s.put d st).status d) ∧
      (∀ d' ≠ d, (s.put d st).status d' = s.status d') ∧ (s.put d st).batchMode = s.batchMode ∧
      (s.put d st).handedOut = s.handedOut ++ if s.status d = .queued then [d] else [] :=
    ⟨by rwa [put_status_self], fun d' hne => put_status_of_ne hne _, rfl, by simp [hq, State.put]⟩
  cases a with
  | handOut d ok =>
    simp only [step] at h
    split at h
    · next hd =>
      obtain rfl := Option.some.inj h
      refine ⟨?_, fun d' hne => put_status_of_ne hne _, rfl, by simp [Action.delivery, hd]⟩
      simpa [Action.delivery, hd, State.put] using Moves.handOut ok
    · next hd =>
      obtain rfl := Option.some.inj h
      exact hput d _ (hd ▸ Moves.handOutAgain ok) (by simp [hd])
    · cases h
  | flushed d ok =>
    simp only [step] at h
    split_ifs at h with hd <;> obtain rfl := Option.some.inj h
    · exact hput d _ (hd ▸ Moves.flushed) (by simp [hd])
    · exact hput d _ (hd ▸ Moves.flushFails) (by simp [hd])
  | engineSettles d outcome =>
    simp only [step, Option.ite_none_right_eq_some, Option.some.injEq] at h
    obtain ⟨hd, rfl⟩ := h
    exact hput d _ (hd ▸ Moves.engineSettles outcome) (by simp [hd])
  | requeueRecord d outcome =>
    simp only [step, Option.ite_none_right_eq_some, Option.some.injEq] at h
    obtain ⟨hd, rfl⟩ := h
    exact hput d _ (hd ▸ Moves.requeueRecord outcome) (by simp [hd])
  | channelCloses d =>
    simp only [step, Option.ite_none_right_eq_some, Option.some.injEq] at h
    obtain ⟨hd, rfl⟩ := h
    exact hput d _ (hd ▸ Moves.channelCloses) (by simp [hd])
  | written d ok =>
    simp only [step, Option.ite_none_right_eq_some, Option.some.injEq] at h
    obtain ⟨hd, rfl⟩ := h
    refine hput d _ (hd ▸ ?_) (by simp [hd])
    cases ok
    exacts [Moves.writeFails, Moves.written]
  | recorded d ok =>
    simp only [step, Option.ite_none_right_eq_some, Option.some.injEq] at h
    obtain ⟨hd, rfl⟩ := h
    refine hput d _ (hd ▸ ?_) (by simp [hd])
    cases ok
    exacts [Moves.recordFails, Moves.recorded]
  | ackMarker d ok =>
    simp only [step, Option.ite_none_right_eq_some, Option.some.injEq] at h
    obtain ⟨hd, rfl⟩ := h
    refine hput d _ (hd ▸ ?_) (by simp [hd])
    cases ok
    exacts [Moves.ackFails, Moves.acked]
  | requeueMarker d deadLetter =>
    simp only [step, Option.ite_none_right_eq_some, Option.some.injEq] at h
    obtain ⟨hd, rfl⟩ := h
    refine hput d _ (hd ▸ ?_) (by simp [hd])
    cases deadLetter
    exacts [Moves.requeued, Moves.deadLettered]

/-- A settled delivery does not move. -/
theorem Moves.not_settled {batchMode : Bool} {kind : Kind} {st st' : Status}
    (h : Moves batchMode kind st st') : ¬st.Settled := by
  cases h <;> simp [Status.Settled]

/-- A delivery that moves has been handed out. -/
theorem Moves.ne_queued {batchMode : Bool} {kind : Kind} {st st' : Status}
    (h : Moves batchMode kind st st') : st' ≠ .queued := by
  cases h with
  | handOut ok | handOutAgain ok =>
    rcases kind with (_ | _) | _ | _ <;> cases batchMode <;> cases ok <;> simp [firstSegment]
  | engineSettles outcome => cases outcome <;> simp [Outcome.status]
  | requeueRecord outcome => cases outcome <;> simp [Requeue.status]
  | flushed => cases kind <;> simp [afterFlush]
  | _ => simp

/-- Settled deliveries stay settled. -/
theorem settled_step (h : step s a = some s') (hd : (s.status d).Settled) :
    (s'.status d).Settled := by
  obtain ⟨hmoves, hother, -, -⟩ := step_eq h
  rcases eq_or_ne d a.delivery with rfl | hne
  · exact absurd hd hmoves.not_settled
  · rwa [hother d hne]

/-- Hand-outs after a delivery's own do not come before it. -/
theorem before_step (h : step s a = some s') (hd : d ∈ s.handedOut ∨ d = a.delivery) :
    before s' d = before s d := by
  obtain ⟨-, -, -, horder⟩ := step_eq h
  rw [before, before, horder]
  split_ifs
  · rw [List.takeWhile_append]
    split_ifs with hall
    · have hself := (List.takeWhile_prefix fun x => decide (x ≠ d)).eq_of_length hall
      have hne : d ∉ s.handedOut := fun hmem => by
        simpa using List.takeWhile_eq_self_iff.mp hself d hmem
      obtain rfl := hd.resolve_left hne
      rw [hself, List.takeWhile_cons_of_neg (by simp), List.append_nil]
    · rfl
  · rw [List.append_nil]

theorem mem_before : d' ∈ before s d → d' ∈ s.handedOut ∧ d'.isRecord = true := by
  intro h
  obtain ⟨hmem, hrec⟩ := List.mem_filter.mp h
  exact ⟨List.takeWhile_subset _ hmem, hrec⟩

/-! ### The invariant -/

/-- The statuses a record, or a marker, can have in a mode. -/
def Status.Ok (batchMode isRecord : Bool) : Status → Prop
  | .queued | .returned | .acked | .deadLettered => True
  | .submitted => isRecord = true ∧ batchMode = true
  | .writing => isRecord = true ∧ batchMode = false
  | .backoff | .unacked => isRecord = true
  | .flushing => isRecord = false ∧ batchMode = true
  | .recording | .acking | .requeueing => isRecord = false

/-- The invariant of runs in which no marker passes an unsettled record. -/
structure Inv (s : State) : Prop where
  ok (d : Delivery) : (s.status d).Ok s.batchMode d.isRecord
  handedOut {d : Delivery} : d ∈ s.handedOut ↔ s.status d ≠ .queued
  /-- Past its drain a marker has only settled records before it. -/
  passed {d : Delivery} : s.status d = .recording ∨ s.status d = .acking →
    ∀ d' ∈ before s d, (s.status d').Settled

theorem Inv.init (h : machine.init s) : Inv s := by
  obtain ⟨batchMode, rfl⟩ := h
  exact ⟨fun _ => trivial, by simp, fun h => by rcases h with h | h <;> cases h⟩

/-- A delivery moves only to statuses that fit it and the mode. -/
theorem Moves.ok {batchMode : Bool} {d : Delivery} {st st' : Status}
    (h : Moves batchMode d.kind st st') (hok : st.Ok batchMode d.isRecord) :
    st'.Ok batchMode d.isRecord := by
  obtain ⟨kind, tag⟩ := d
  cases h with
  | handOut ok | handOutAgain ok =>
    rcases kind with (_ | _) | _ | _ <;> cases batchMode <;> cases ok <;>
      simp [firstSegment, Status.Ok, Delivery.isRecord]
  | engineSettles outcome => cases outcome <;> simp [Outcome.status, Status.Ok, hok.1]
  | requeueRecord outcome =>
    have hrec : Delivery.isRecord ⟨kind, tag⟩ = true := hok
    cases outcome <;> simp [Requeue.status, Status.Ok, hrec]
  | flushed =>
    unfold afterFlush
    split_ifs <;> exact hok.1
  | written | channelCloses | acked | requeued | deadLettered => trivial
  | writeFails | flushFails => exact hok.1
  | recorded | recordFails | ackFails => exact hok

/-- No step gives a delivery back to the messages never handed out. -/
theorem handedOut_step (hi : Inv s) (h : step s a = some s') :
    d ∈ s'.handedOut ↔ s'.status d ≠ .queued := by
  obtain ⟨hmoves, hother, -, horder⟩ := step_eq h
  rcases eq_or_ne d a.delivery with rfl | hne
  · refine iff_of_true ?_ hmoves.ne_queued
    rw [horder, List.mem_append]
    by_cases hq : s.status a.delivery = .queued
    · simp [hq]
    · exact Or.inl (hi.handedOut.mpr hq)
  · rw [hother d hne, horder, List.mem_append, ← hi.handedOut]
    refine or_iff_left fun hmem => hne ?_
    split_ifs at hmem
    · exact List.mem_singleton.mp hmem
    · cases hmem

/-- When a flush returns `True`, a record before the marker is settled unless it is outside of
the engine. -/
theorem settled_of_flushed (hi : Inv s) (hbatch : s.batchMode = true)
    (hengine : ∀ d' ∈ s.handedOut, s.status d' ≠ .submitted) (hd' : d' ∈ before s d)
    (hout : s.status d' ≠ .backoff ∧ s.status d' ≠ .unacked ∧ s.status d' ≠ .returned) :
    (s.status d').Settled := by
  obtain ⟨hmem, hrec⟩ := mem_before hd'
  have hok := hi.ok d'
  have hqueued := hi.handedOut.mp hmem
  have hsub := hengine d' hmem
  rw [hrec, hbatch] at hok
  cases hst : s.status d' <;> simp_all [Status.Ok, Status.Settled]

/-- Only a marker without a batch processor is past its drain at its hand-out. -/
theorem firstSegment_passes {batchMode ok : Bool} {d : Delivery}
    (h : firstSegment batchMode d.kind ok = .recording ∨ firstSegment batchMode d.kind ok = .acking) :
    d.isRecord = false ∧ batchMode = false := by
  obtain ⟨kind, tag⟩ := d
  rcases kind with (_ | _) | _ | _ <;> cases batchMode <;> cases ok <;>
    simp_all [firstSegment, Delivery.isRecord]

/-- A marker that passes its drain has only settled records before it. -/
theorem settled_of_passes (hi : Inv s) (hdrain : DrainsAll s a) (h : step s a = some s')
    (hd : s'.status a.delivery = .recording ∨ s'.status a.delivery = .acking) :
    ∀ d' ∈ before s a.delivery, (s.status d').Settled := by
  cases a with
  | handOut d ok =>
    have hfirst : (s.status d = .queued ∨ s.status d = .returned) ∧
        s'.status d = firstSegment s.batchMode d.kind ok := by
      simp only [step] at h
      split at h
      · next hq =>
        obtain rfl := Option.some.inj h
        exact ⟨Or.inl hq, by simp [State.put]⟩
      · next hr =>
        obtain rfl := Option.some.inj h
        exact ⟨Or.inr hr, by simp⟩
      · cases h
    simp only [Action.delivery, hfirst.2] at hd
    obtain ⟨hmarker, hmode⟩ := firstSegment_passes hd
    exact hdrain hmarker hmode hfirst.1
  | flushed d ok =>
    simp only [step] at h
    split_ifs at h with hst hok hengine <;> obtain rfl := Option.some.inj h
    · subst hok
      have hbatch := hi.ok d
      rw [hst] at hbatch
      exact fun d' hd' => settled_of_flushed hi hbatch.2 hengine hd' (hdrain d' hd')
    · simp [Action.delivery] at hd
  | recorded d ok =>
    simp only [step, Option.ite_none_right_eq_some] at h
    exact hi.passed (Or.inl h.1)
  | engineSettles d outcome | requeueRecord d outcome =>
    simp only [step, Option.ite_none_right_eq_some, Option.some.injEq] at h
    obtain ⟨-, rfl⟩ := h
    cases outcome <;> simp [Action.delivery, Outcome.status, Requeue.status] at hd
  | channelCloses d =>
    simp only [step, Option.ite_none_right_eq_some, Option.some.injEq] at h
    obtain ⟨-, rfl⟩ := h
    simp [Action.delivery] at hd
  | written d ok | ackMarker d ok | requeueMarker d ok =>
    simp only [step, Option.ite_none_right_eq_some, Option.some.injEq] at h
    obtain ⟨-, rfl⟩ := h
    cases ok <;> simp [Action.delivery] at hd

/-- Every step in which no marker passes an unsettled record preserves the invariant. -/
theorem Inv.step (hi : Inv s) (hdrain : DrainsAll s a) (h : MarkerOrder.step s a = some s') :
    Inv s' := by
  obtain ⟨hmoves, hother, hmode, -⟩ := step_eq h
  refine ⟨fun d => ?_, handedOut_step hi h, fun {d} hd d' hd' => ?_⟩
  · rw [hmode]
    rcases eq_or_ne d a.delivery with rfl | hne
    · exact hmoves.ok (hi.ok _)
    · rw [hother d hne]
      exact hi.ok d
  · rcases eq_or_ne d a.delivery with rfl | hne
    · rw [before_step h (Or.inr rfl)] at hd'
      exact settled_step h (settled_of_passes hi hdrain h hd d' hd')
    · rw [hother d hne] at hd
      have hmem : d ∈ s.handedOut := hi.handedOut.mpr (by rcases hd with hd | hd <;> simp [hd])
      rw [before_step h (Or.inl hmem)] at hd'
      exact settled_step h (hi.passed hd d' hd')

/-- **A marker does not overtake its data**, in runs of steps that satisfy `DrainsAll`: when a
step records the signal of an `extraction_complete` or acks a marker, every record that was first
handed out before it is acked or dead-lettered. -/
theorem marker_after_data (h : machine.ReachableIn DrainsAll s) (hs : machine.step s a = some s')
    (hd : lands s a = some d) : ∀ d' ∈ before s d, (s.status d').Settled := by
  have hi : Inv s := h.invariant (fun _ => Inv.init) fun _ _ _ hok hi hs => hi.step hok hs
  refine hi.passed ?_
  unfold lands at hd
  split at hd <;> simp only [Option.ite_none_right_eq_some, Option.some.injEq, reduceCtorEq] at hd
  · obtain ⟨hst, rfl⟩ := hd
    exact Or.inl hst
  · obtain ⟨hst, rfl⟩ := hd
    exact Or.inr hst

theorem marker_after_data_batch :
    let record : Delivery := ⟨.record true, 0⟩
    let marker : Delivery := ⟨.fileComplete, 1⟩
    ∃ s, lands s (.ackMarker marker true) = some marker ∧ record ∈ before s marker ∧
      (s.status record).Settled := by
  intro record marker
  have hrun : (machine.exec (fun s a => DrainsAll s a) { batchMode := true }
      [.handOut record true, .handOut marker true, .engineSettles record .ack,
        .flushed marker true]).any (fun s => (machine.step s (.ackMarker marker true)).isSome ∧
      lands s (.ackMarker marker true) = some marker ∧ record ∈ before s marker) = true := by
    decide
  obtain ⟨s, hs, hfinal⟩ := (Option.any_eq_true ..).mp hrun
  obtain ⟨hstep, hlands, hbefore⟩ := of_decide_eq_true hfinal
  obtain ⟨s', hs'⟩ := Option.isSome_iff_exists.mp hstep
  exact ⟨s, hlands, hbefore, marker_after_data
    ⟨_, ⟨true, rfl⟩, Machine.steps_of_exec (fun _ _ => of_decide_eq_true) hs⟩ hs' hlands record
    hbefore⟩

/-- The marker lands over a record that is still being written, without batch mode, and over one
that the batch engine has given back to the queue, with it. -/
theorem marker_overtakes :
    let record : Delivery := ⟨.record true, 0⟩
    let marker : Delivery := ⟨.fileComplete, 1⟩
    (∃ s, machine.Reachable s ∧ s.batchMode = false ∧
      (machine.step s (.ackMarker marker true)).isSome ∧
      lands s (.ackMarker marker true) = some marker ∧
      record ∈ before s marker ∧ s.status record = .writing) ∧
    ∃ s, machine.Reachable s ∧ s.batchMode = true ∧
      (machine.step s (.ackMarker marker true)).isSome ∧
      lands s (.ackMarker marker true) = some marker ∧
      record ∈ before s marker ∧ s.status record = .returned := by
  intro record marker
  have hwriting : (machine.exec (fun _ _ => true) { batchMode := false }
      [.handOut record true, .handOut marker true]).any (fun s => s.batchMode = false ∧
        (machine.step s (.ackMarker marker true)).isSome ∧
        lands s (.ackMarker marker true) = some marker ∧ record ∈ before s marker ∧
        s.status record = .writing) = true := by decide
  have hreturned : (machine.exec (fun _ _ => true) { batchMode := true }
      [.handOut record true, .handOut marker true, .engineSettles record .giveBack,
        .flushed marker true]).any (fun s => s.batchMode = true ∧
        (machine.step s (.ackMarker marker true)).isSome ∧
        lands s (.ackMarker marker true) = some marker ∧ record ∈ before s marker ∧
        s.status record = .returned) = true := by decide
  obtain ⟨s, hs, hfinal⟩ := (Option.any_eq_true ..).mp hwriting
  obtain ⟨s', hs', hfinal'⟩ := (Option.any_eq_true ..).mp hreturned
  exact ⟨⟨s, ⟨_, ⟨false, rfl⟩, Machine.steps_of_exec (fun _ _ _ => trivial) hs⟩,
      of_decide_eq_true hfinal⟩,
    ⟨s', ⟨_, ⟨true, rfl⟩, Machine.steps_of_exec (fun _ _ _ => trivial) hs'⟩,
      of_decide_eq_true hfinal'⟩⟩

end Graphinator.MarkerOrder
