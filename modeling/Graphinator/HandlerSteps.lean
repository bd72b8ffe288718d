import Graphinator.MessageHandler
import Graphinator.Pipeline

/-!
# The steps of a handler in the pipeline

The handler of a delivery is modelled twice: as the code computes it, with one answer for each await
and a trace of what it did, and as the steps that it takes between the steps of other handlers. This
file states how the two belong together: what the handler finds, what it leaves, and how its steps
move its delivery while no other handler takes one.

## Main definitions

* `Handler.taken` : the settlement call that takes effect.
* `Pipeline.Action.About` : the steps of one delivery.
* `Pipeline.Meets`, `Pipeline.MeetsLatch` : the state that the handler finds.
* `Pipeline.Leaves` : the state that it leaves.
* `Pipeline.Comes` : the handler has come from one state to another.

## Main results

* `Pipeline.Comes.delivery`, `Pipeline.Comes.signal` : the delivery moves on.
* `Pipeline.settle_ends` : a settlement call of the body.
* `Pipeline.Fails.requeueRecord` : the return to the broker after the body has raised.
-/

namespace Graphinator

open Traced

/-! ### The call that takes effect -/

namespace Handler

/-- The settlement call of a trace that takes effect. -/
def taken (trace : List Event) : Option Call := (effective false (calls trace)).head?

/-- Where a call takes its message. -/
def Call.status : Call → MarkerOrder.Status
  | .ack => .acked
  | .reject => .deadLettered
  | .giveBack requeue => if requeue then .returned else .deadLettered

section Taken

variable {trace : List Event} {call : Call} {result : CallResult}

theorem head?_effective_append (attempts : List (Call × CallResult)) (attempt : Call × CallResult) :
    (effective false (attempts ++ [attempt])).head? =
      (effective false attempts).head?.or (if attempt.2.reached then some attempt.1 else none) := by
  induction attempts with
  | nil => cases hreached : attempt.2.reached <;> simp [effective, hreached]
  | cons first attempts ih =>
    cases hreached : first.2.reached with
    | true => simp [effective, hreached]
    | false => simpa [effective, hreached] using ih

theorem taken_record {event : Event} (hevent : event.call? = none) :
    taken (trace ++ [event]) = taken trace := by
  rw [taken, calls_record hevent, taken]

theorem taken_settled : taken (trace ++ [.settled call result]) =
    (taken trace).or (if result.reached then some call else none) := by
  rw [taken, calls_append, calls_settled, calls_nil, head?_effective_append, taken]

/-- A settlement call returns or raises. -/
theorem ensures_settle {w : World} {Q : Unit → List Event → Prop} {E : Failure → List Event → Prop}
    (hreturned : Q () (trace ++ [.settled call .returned]))
    (hraised : ∀ failure reached, E failure (trace ++ [.settled call (.raised failure reached)])) :
    Ensures (settle w call) trace Q E := by
  change Ensures (record _ >>= fun _ => _) trace _ _
  rw [ensures_bind, ensures_record]
  cases w.settle (calls trace).length with
  | returned => exact hreturned
  | raised failure reached => exact hraised failure reached

end Taken

end Handler

namespace Pipeline

open Handler (World Event Call taken)

/-! ### One delivery -/

/-- The signal of a delivery. -/
def signalOf (F : Feed) (t : DataType) (d : MarkerOrder.Delivery) : Latch.Signal :=
  { versionField := F.version t d.tag, dataType := t, copy := d.tag }

theorem sends_signalOf {F : Feed} {t : DataType} {d : MarkerOrder.Delivery} :
    F.Sends (signalOf F t d) := rfl

theorem marker_signalOf {F : Feed} {t : DataType} {d : MarkerOrder.Delivery}
    (hkind : d.kind = .extractionComplete) : marker (signalOf F t d) = d := by
  obtain ⟨kind, tag⟩ := d
  obtain rfl : kind = .extractionComplete := hkind
  rfl

/-- The steps of the handler of a delivery, and the transaction of its record. -/
def Action.About (F : Feed) (t : DataType) (d : MarkerOrder.Delivery) : Action → Prop
  | .delivery t' a => t' = t ∧ a.delivery = d
  | .latch a => d.kind = .extractionComplete ∧ a.signal? = some (signalOf F t d)
  | .write x => x = .single t (F.body t d)

/-- What a message with the body is. -/
def OfKind (w : World) (t : DataType) (body : Option PyValue) : MarkerOrder.Kind → Prop
  | .fileComplete => Handler.IsFile body
  | .extractionComplete => Handler.IsExtraction body
  | .record valid => ¬Handler.IsMarker body ∧
    match body, w.batchMode with
    -- `add_message` looks at the record itself.
    | some (.obj _), true => ∀ accepted, w.accept = .ok accepted → accepted = valid
    | _, _ => valid = false ↔ Handler.Rejected w t body

/-- What the handler of a delivery finds. -/
structure Meets (F : Feed) (w : World) (t : DataType) (body : Option PyValue)
    (d : MarkerOrder.Delivery) (s : State) : Prop where
  running : w.shutdownRequested = false
  driver : w.driver = true
  batchMode : w.batchMode = (s.queues t).batchMode
  processor : w.processor = (s.queues t).batchMode
  kind : OfKind w t body d.kind
  ready : (s.queues t).status d = .queued ∨
    (s.queues t).status d = .returned ∧ d ∈ (s.queues t).handedOut
  /-- A queue that has been flushed has no record left with the engine. -/
  flush : w.flush = .ok true → ∀ d' ∈ (s.queues t).handedOut, (s.queues t).status d' ≠ .submitted
  /-- The transaction holds what `normalize_record` makes of the message. -/
  normalized : d.isRecord = true → ∀ data fields, body = some (.obj data) →
    w.normalize t data = .ok fields → F.body t d = .obj fields

/-- What the handler of an `extraction_complete` finds of the latch. -/
structure MeetsLatch (F : Feed) (w : World) (t : DataType) (body : Option PyValue)
    (d : MarkerOrder.Delivery) (s : State) : Prop where
  version : ∀ data, body = some (.obj data) →
    Handler.version w data = (signalOf F t d).version
  ready : s.latch.status (signalOf F t d) = .ready
  unlocked : s.latch.extractionLatchLock = none
  latchVersion : w.latchVersion = s.latch.extractionCompleteVersion
  latchSignals : w.latchSignals = s.latch.extractionCompleteSignals
  load : ∀ signals, w.load = .ok signals → signals = s.latch.stored (signalOf F t d).version
  maintained : ∀ maintained, w.maintained = .ok maintained →
    maintained = s.latch.store.isExtractionMaintained (signalOf F t d).version

/-- What the trace of a delivery says of the transaction, the latch and the maintenance. -/
structure Effects (env : Env) (F : Feed) (w : World) (t : DataType) (body : Option PyValue)
    (d : MarkerOrder.Delivery) (trace : List Event) (s s' : State) : Prop where
  written : ∀ updated, .written updated ∈ trace → ∃ data fields, body = some (.obj data) ∧
    w.normalize t data = .ok fields ∧
      s'.past = s.past ++ [.transaction (.single t (.obj fields))] ∧
        s'.graph = (Transaction.single t (.obj fields)).run env s.graph
  unwritten : (∀ updated, .written updated ∉ trace) → s'.past = s.past ∧ s'.graph = s.graph
  latched : .latched ∈ trace → t ∈ s'.latch.stored (signalOf F t d).version ∧
    s'.latch.extractionCompleteVersion = some (signalOf F t d).version ∧
      t ∈ s'.latch.extractionCompleteSignals
  started : ∀ version, .maintenance version ∈ trace → version = (signalOf F t d).version ∧
    s'.latch.postImportMaintenanceTask =
      (s.latch.startPostImportMaintenance version).postImportMaintenanceTask
  idle : (∀ version, .maintenance version ∉ trace) →
    s'.latch.postImportMaintenanceTask = s.latch.postImportMaintenanceTask
  unlocked : s'.latch.extractionLatchLock = s.latch.extractionLatchLock

/-- What the handler of a delivery leaves. -/
structure Leaves (env : Env) (F : Feed) (w : World) (t : DataType) (body : Option PyValue)
    (d : MarkerOrder.Delivery) (trace : List Event) (s s' : State) : Prop
    extends Effects env F w t body d trace s s' where
  /-- The message is where its settlement calls left it. -/
  settled : ∀ call, taken trace = some call → (s'.queues t).status d = call.status
  unsettled : taken trace = none → (∀ accepted, .handedOver accepted ∉ trace) →
    (s'.queues t).status d = .unacked ∨ (s'.queues t).status d = .requeueing
  /-- The batch engine has it, or `add_message` has rejected it. -/
  handedOver : ∀ accepted, .handedOver accepted ∈ trace →
    (s'.queues t).status d = if accepted then .submitted else .deadLettered

/-! ### Its steps -/

/-- The delivery of a step is where the step takes it from. -/
def Enabled (q : MarkerOrder.State) : MarkerOrder.Action → Prop
  | .handOut d _ => q.status d = .queued ∨ q.status d = .returned
  | .engineSettles d _ => q.status d = .submitted
  | .written d _ => q.status d = .writing
  | .requeueRecord d _ => q.status d = .backoff
  | .channelCloses d => q.status d = .unacked
  | .flushed d ok => q.status d = .flushing ∧
      (ok = true → ∀ d' ∈ q.handedOut, q.status d' ≠ .submitted)
  | .recorded d _ => q.status d = .recording
  | .ackMarker d _ => q.status d = .acking
  | .requeueMarker d _ => q.status d = .requeueing

theorem exists_step {q : MarkerOrder.State} {b : MarkerOrder.Action} (h : Enabled q b) :
    ∃ q', MarkerOrder.step q b = some q' := by
  cases b with
  | handOut d ok =>
    rcases h with h | h
    · exact ⟨_, by rw [MarkerOrder.step, h]⟩
    · exact ⟨_, by rw [MarkerOrder.step, h]⟩
  | flushed d ok =>
    cases ok with
    | true => exact ⟨_, (if_pos h.1).trans ((if_pos rfl).trans (if_pos (h.2 rfl)))⟩
    | false => exact ⟨_, (if_pos h.1).trans (if_neg Bool.false_ne_true)⟩
  | _ => exact ⟨_, if_pos h⟩

/-- The state after a step of a handler. -/
def State.moved (s : State) (t : DataType) (q : MarkerOrder.State) (latch : Latch.State) : State :=
  { s with queues := Function.update s.queues t q, latch }

@[simp] theorem moved_queues {s : State} {t : DataType} {q : MarkerOrder.State}
    {latch : Latch.State} : (s.moved t q latch).queues t = q := Function.update_self ..

/-- The handler of a delivery has come from `s` to `s'`. -/
structure Comes (env : Env) (F : Feed) (t : DataType) (d : MarkerOrder.Delivery) (s s' : State) :
    Prop where
  steps : (machine env F).Steps (fun _ => Action.About F t d) s s'
  mode : (s'.queues t).batchMode = (s.queues t).batchMode
  handedOut : d ∈ (s'.queues t).handedOut
  /-- No other record is given to the batch engine. -/
  others {d' : MarkerOrder.Delivery} : d' ≠ d → d' ∈ (s'.queues t).handedOut →
    d' ∈ (s.queues t).handedOut ∧ (s'.queues t).status d' = (s.queues t).status d'
  place : d.kind = .extractionComplete → Place (s.queues t).batchMode
    (s'.latch.status (signalOf F t d)) ((s'.queues t).status d)

section Steps

variable {env : Env} {F : Feed} {t : DataType} {d : MarkerOrder.Delivery} {s s' : State}
  {a : Action} {b : MarkerOrder.Action} {q : MarkerOrder.State} {latch : Latch.State}

/-- A delivery that is ready can be handed out. -/
theorem exists_handOut {q : MarkerOrder.State}
    (hready : q.status d = .queued ∨ q.status d = .returned ∧ d ∈ q.handedOut) (ok : Bool) :
    ∃ q', MarkerOrder.step q (.handOut d ok) = some q' ∧ d ∈ q'.handedOut := by
  rcases hready with hst | ⟨hst, hmem⟩
  · exact ⟨{ q.put d (MarkerOrder.firstSegment q.batchMode d.kind ok) with
      handedOut := q.handedOut ++ [d] }, by rw [MarkerOrder.step, hst], by simp⟩
  · exact ⟨q.put d (MarkerOrder.firstSegment q.batchMode d.kind ok),
      by rw [MarkerOrder.step, hst], hmem⟩

/-- The other deliveries of a queue stay where they are. -/
theorem others_step {q' : MarkerOrder.State} (hb : b.delivery = d)
    (hq : MarkerOrder.step q b = some q') {d' : MarkerOrder.Delivery} (hne : d' ≠ d)
    (hd : d' ∈ q'.handedOut) : d' ∈ q.handedOut ∧ q'.status d' = q.status d' := by
  obtain ⟨-, hother, -, hout⟩ := MarkerOrder.step_eq hq
  rw [hb] at hother hout
  refine ⟨?_, hother d' hne⟩
  rw [hout] at hd
  rcases List.mem_append.mp hd with hd | hd
  · exact hd
  · split_ifs at hd
    · exact absurd (List.mem_singleton.mp hd) hne
    · cases hd

/-- The first step. -/
theorem Comes.head (ha : a.About F t d) (hb : b.delivery = d)
    (hq : MarkerOrder.step (s.queues t) b = some q) (hmem : d ∈ q.handedOut)
    (hplace : d.kind = .extractionComplete → Place (s.queues t).batchMode
      (latch.status (signalOf F t d)) (q.status d))
    (hstep : step env F s a = some (s.moved t q latch)) :
    Comes env F t d s (s.moved t q latch) := by
  refine ⟨.single ⟨a, ha, hstep⟩, ?_, ?_, fun {d'} hne hd => ?_, fun hkind => ?_⟩
  · rw [moved_queues]
    exact (MarkerOrder.step_eq hq).2.2.1
  · rwa [moved_queues]
  · rw [moved_queues] at hd ⊢
    exact others_step hb hq hne hd
  · rw [moved_queues]
    exact hplace hkind

/-- The delivery moves on. -/
theorem Comes.tail (h : Comes env F t d s s') (ha : a.About F t d)
    (b? : Option MarkerOrder.Action) (hb : ∀ b, b? = some b → b.delivery = d)
    (hq : follow (s'.queues t) b? = some q)
    (hplace : d.kind = .extractionComplete → Place (s.queues t).batchMode
      (latch.status (signalOf F t d)) (q.status d))
    (hstep : step env F s' a = some (s'.moved t q latch)) :
    Comes env F t d s (s'.moved t q latch) := by
  refine ⟨h.steps.tail ⟨a, ha, hstep⟩, ?_, ?_, fun {d'} hne hd => ?_, fun hkind => ?_⟩
  · rw [moved_queues, batchMode_follow hq]
    exact h.mode
  · rw [moved_queues]
    cases b? with
    | none =>
      obtain rfl := Option.some.inj hq
      exact h.handedOut
    | some b =>
      rw [(MarkerOrder.step_eq hq).2.2.2]
      exact List.mem_append_left _ h.handedOut
  · rw [moved_queues] at hd ⊢
    cases b? with
    | none =>
      obtain rfl := Option.some.inj hq
      exact h.others hne hd
    | some b =>
      obtain ⟨hmem, hstatus⟩ := others_step (hb b rfl) hq hne hd
      obtain ⟨hmem₀, hstatus₀⟩ := h.others hne hmem
      exact ⟨hmem₀, hstatus.trans hstatus₀⟩
  · rw [moved_queues]
    exact hplace hkind

/-- Nothing changes but the status of a delivery. -/
structure Quiet (s s' : State) : Prop where
  catalog : s'.past = s.past ∧ s'.graph = s.graph
  store : s'.latch.store = s.latch.store
  version : s'.latch.extractionCompleteVersion = s.latch.extractionCompleteVersion
  signals : s'.latch.extractionCompleteSignals = s.latch.extractionCompleteSignals
  task : s'.latch.postImportMaintenanceTask = s.latch.postImportMaintenanceTask
  lock : s'.latch.extractionLatchLock = s.latch.extractionLatchLock

theorem Quiet.refl (s : State) : Quiet s s := ⟨⟨rfl, rfl⟩, rfl, rfl, rfl, rfl, rfl⟩

/-- A queue moves alone. -/
theorem Quiet.moved (s : State) (q : MarkerOrder.State) : Quiet s (s.moved t q s.latch) :=
  ⟨⟨rfl, rfl⟩, rfl, rfl, rfl, rfl, rfl⟩

/-- The latch moves a delivery alone. -/
theorem Quiet.put {m : Latch.Signal} {st : Latch.Status}
    (hpast : s'.past = s.past ∧ s'.graph = s.graph) (hlatch : s'.latch = s.latch.put m st) :
    Quiet s s' := by
  constructor <;> first
    | exact hpast
    | rw [hlatch]
      rfl

variable (env F) in
/-- A delivery that is no `extraction_complete` is handed out. -/
theorem Comes.handOut (hkind : d.kind ≠ .extractionComplete)
    (hready : (s.queues t).status d = .queued ∨
      (s.queues t).status d = .returned ∧ d ∈ (s.queues t).handedOut) (ok : Bool) :
    ∃ s', Comes env F t d s s' ∧ Quiet s s' ∧
      (s'.queues t).status d = MarkerOrder.firstSegment (s.queues t).batchMode d.kind ok := by
  obtain ⟨q, hq, hmem⟩ := exists_handOut hready ok
  have hstep : step env F s (.delivery t (.handOut d ok)) = some (s.moved t q s.latch) := by
    simp only [step]
    rw [if_pos ⟨hkind, by rintro ⟨⟩⟩, hq]
    rfl
  refine ⟨_, .head (a := .delivery t (.handOut d ok)) ⟨rfl, rfl⟩ rfl hq hmem
    (fun h => absurd h hkind) hstep, .moved s q, ?_⟩
  rw [moved_queues]
  exact status_step hq

/-- A delivery that is no `extraction_complete` moves on. -/
theorem Comes.delivery (h : Comes env F t d s s') (hkind : d.kind ≠ .extractionComplete)
    (hb : b.delivery = d) (hacks : acks b = true → (t, F.body t d) ∈ s'.messages)
    (henabled : Enabled (s'.queues t) b) :
    ∃ s'', Comes env F t d s s'' ∧ Quiet s' s'' ∧
      (s''.queues t).status d = landing (s.queues t).batchMode b := by
  obtain ⟨q, hq⟩ := exists_step henabled
  have hstep : step env F s' (.delivery t b) = some (s'.moved t q s'.latch) := by
    simp only [step]
    rw [hb, if_pos ⟨hkind, hacks⟩, hq]
    rfl
  refine ⟨_, h.tail (a := .delivery t b) ⟨rfl, hb⟩ (some b) ?_ hq (fun h => absurd h hkind)
    hstep, .moved s' q, ?_⟩
  · rintro _ ⟨⟩
    exact hb
  · rw [moved_queues, ← h.mode, ← hb]
    exact status_step hq

/-- The queue follows a step of the handler of an `extraction_complete`, if a flush keeps the
engine's promise. -/
theorem exists_follow {q : MarkerOrder.State} {l l' : Latch.State} {a : Latch.Action}
    {m : Latch.Signal} (hm : a.signal? = some m) (hl : Latch.step l a = some l')
    (hplace : Place q.batchMode (l.status m) (q.status (marker m)))
    (hflush : ∀ ok, a = .flushed m ok → (q.batchMode = false → ok = true) ∧
      (q.batchMode = true → ok = true → ∀ d ∈ q.handedOut, q.status d ≠ .submitted)) :
    ∃ q', follow q (markerStep q.batchMode l a) = some q' := by
  have hfollow : ∀ b?, (∀ b, b? = some b → Enabled q b) → ∃ q', follow q b? = some q' := by
    rintro (_ | b) h
    · exact ⟨q, rfl⟩
    · exact exists_step (h b rfl)
  refine hfollow _ fun b hb => ?_
  cases a with
  | handOut m₁ =>
    cases hm
    cases hb
    simp only [Latch.step, Option.ite_none_right_eq_some] at hl
    rwa [hl.1] at hplace
  | flushed m₁ ok =>
    cases hm
    simp only [Latch.step, Option.ite_none_right_eq_some] at hl
    obtain ⟨hmode, hpromise⟩ := hflush ok rfl
    rw [hl.1] at hplace
    cases hbatch : q.batchMode with
    | false => simp [markerStep, hbatch, hmode hbatch] at hb
    | true =>
      simp only [markerStep, hbatch, Bool.true_eq_false, and_false, if_false] at hb
      obtain rfl := Option.some.inj hb
      rw [hbatch] at hplace
      exact ⟨hplace, hpromise hbatch⟩
  | loaded m₁ ok =>
    cases hm
    simp only [Latch.step, Option.ite_none_right_eq_some] at hl
    rw [hl.1] at hplace
    cases ok <;> cases hb
    exact hplace
  | persisted m₁ ok =>
    cases hm
    simp only [Latch.step] at hl
    split at hl
    · next candidate committed hst =>
      rw [hst] at hplace
      simp only [markerStep, hst] at hb
      split_ifs at hb <;> cases hb <;> exact hplace
    · cases hl
  | maintenanceRead m₁ ok =>
    cases hm
    cases hb
    simp only [Latch.step, Option.ite_none_right_eq_some] at hl
    rwa [hl.1] at hplace
  | ackSettles m₁ =>
    cases hm
    cases hb
    simp only [Latch.step] at hl
    split at hl
    · next starts hst => rwa [hst] at hplace
    · cases hl
  | ackRaises m₁ =>
    cases hm
    simp only [Latch.step] at hl
    split at hl
    · next starts hst =>
      simp only [markerStep, hst] at hb
      cases hb
      rwa [hst] at hplace
    · next starts hst => simp [markerStep, hst] at hb
    · cases hl
  | requeue m₁ deadLetter =>
    cases hm
    cases hb
    simp only [Latch.step, Option.ite_none_right_eq_some] at hl
    rwa [hl.1] at hplace
  | acquire m₁ | commit m₁ now | ackReturns m₁ => cases hb
  | _ => cases hm

/-- A step of the handler of an `extraction_complete` moves its delivery and the latch. -/
theorem latch_step {l : Latch.State} {a : Latch.Action}
    (hm : a.signal? = some (signalOf F t d)) (hl : Latch.step s.latch a = some l)
    (hq : follow (s.queues t) (markerStep (s.queues t).batchMode s.latch a) = some q) :
    step env F s (.latch a) = some (s.moved t q l) := by
  have hstep : step env F s (.latch a) = (Latch.step s.latch a).bind fun latch =>
      (follow (s.queues t) (markerStep (s.queues t).batchMode s.latch a)).map fun q =>
        s.moved t q latch := by
    cases a <;> first
      | cases hm
        done
      | obtain rfl := Option.some.inj hm
        exact if_pos sends_signalOf
  rw [hstep, hl, hq]
  rfl

variable (env) in
/-- An `extraction_complete` is handed out. -/
theorem Comes.handOutSignal (hkind : d.kind = .extractionComplete)
    (hready : (s.queues t).status d = .queued ∨
      (s.queues t).status d = .returned ∧ d ∈ (s.queues t).handedOut)
    (hlatch : s.latch.status (signalOf F t d) = .ready) :
    ∃ s', Comes env F t d s s' ∧ (s'.past = s.past ∧ s'.graph = s.graph) ∧
      Latch.step s.latch (.handOut (signalOf F t d)) = some s'.latch := by
  have hmarker := marker_signalOf (F := F) (t := t) hkind
  obtain ⟨q, hq, hmem⟩ := exists_handOut hready true
  have hl : Latch.step s.latch (.handOut (signalOf F t d)) = _ := if_pos hlatch
  have hfollow : follow (s.queues t) (markerStep (s.queues t).batchMode s.latch
      (.handOut (signalOf F t d))) = some q := by
    change MarkerOrder.step _ (.handOut (marker _) true) = _
    rwa [hmarker]
  have hplace : Place (s.queues t).batchMode (s.latch.status (signalOf F t d))
      ((s.queues t).status (marker (signalOf F t d))) := by
    rw [hlatch, hmarker]
    exact hready.imp_right And.left
  refine ⟨_, .head (a := .latch (.handOut (signalOf F t d))) ⟨hkind, rfl⟩ rfl hq hmem (fun _ => ?_)
    (latch_step rfl hl hfollow), ⟨rfl, rfl⟩, hl⟩
  have h := place_signal rfl hl hfollow hplace
  rwa [batchMode_follow hfollow, hmarker] at h

/-- The handler of an `extraction_complete` goes on. -/
theorem Comes.signal (h : Comes env F t d s s') {a : Latch.Action} {l : Latch.State}
    (hkind : d.kind = .extractionComplete) (hm : a.signal? = some (signalOf F t d))
    (hl : Latch.step s'.latch a = some l)
    (hflush : ∀ ok, a = .flushed (signalOf F t d) ok →
      ((s.queues t).batchMode = false → ok = true) ∧ ((s.queues t).batchMode = true → ok = true →
        ∀ d' ∈ (s.queues t).handedOut, (s.queues t).status d' ≠ .submitted)) :
    ∃ s'', Comes env F t d s s'' ∧ s''.latch = l ∧ (s''.past = s'.past ∧ s''.graph = s'.graph) ∧
      ∀ b, markerStep (s.queues t).batchMode s'.latch a = some b →
        (s''.queues t).status d = landing (s.queues t).batchMode b := by
  have hmarker := marker_signalOf (F := F) (t := t) hkind
  have hplace : Place (s'.queues t).batchMode (s'.latch.status (signalOf F t d))
      ((s'.queues t).status (marker (signalOf F t d))) := by
    rw [hmarker, h.mode]
    exact h.place hkind
  obtain ⟨q, hq⟩ := exists_follow hm hl hplace fun ok hok => by
    obtain ⟨hmode, hpromise⟩ := hflush ok hok
    refine ⟨fun hfalse => hmode (h.mode ▸ hfalse), fun hbatch htrue d' hd' hst => ?_⟩
    rcases eq_or_ne d' d with rfl | hne
    · subst hok
      simp only [Latch.step, Option.ite_none_right_eq_some] at hl
      rw [hl.1, hmarker, hst] at hplace
      rw [hbatch] at hplace
      cases hplace
    · obtain ⟨hmem, hstatus⟩ := h.others hne hd'
      exact hpromise (h.mode ▸ hbatch) htrue d' hmem (hstatus ▸ hst)
  have hmoves : ∀ b, markerStep (s'.queues t).batchMode s'.latch a = some b → b.delivery = d :=
    fun b hb => (delivery_markerStep hm hb).trans hmarker
  refine ⟨_, h.tail (a := .latch a) ⟨hkind, hm⟩ _ hmoves hq (fun _ => ?_) (latch_step hm hl hq),
    rfl, ⟨rfl, rfl⟩, fun b hb => ?_⟩
  · have hnext := place_signal hm hl hq hplace
    rwa [batchMode_follow hq, hmarker, h.mode] at hnext
  · rw [← h.mode] at hb ⊢
    rw [moved_queues, ← hmoves b hb]
    rw [hb] at hq
    exact status_step hq

/-! ### Back to the broker -/

/-- Where a delivery waits for its return to the broker. -/
def pending (d : MarkerOrder.Delivery) : MarkerOrder.Status :=
  if d.isRecord then .backoff else .requeueing

theorem pending_record {valid : Bool} (hkind : d.kind = .record valid) : pending d = .backoff := by
  simp [pending, MarkerOrder.Delivery.isRecord, hkind]

theorem pending_marker (hkind : d.kind = .fileComplete ∨ d.kind = .extractionComplete) :
    pending d = .requeueing := by
  rcases hkind with hkind | hkind <;> simp [pending, MarkerOrder.Delivery.isRecord, hkind]

/-- The handler of an `extraction_complete` that is about to return it has its delivery wait. -/
theorem Comes.waits (h : Comes env F t d s s') (hkind : d.kind = .extractionComplete)
    (hst : s'.latch.status (signalOf F t d) = .handling .requeueing) :
    (s'.queues t).status d = pending d := by
  have hplace := h.place hkind
  rw [hst] at hplace
  exact hplace.trans (pending_marker (Or.inr hkind)).symm

theorem place_requeueing {batchMode : Bool} {st : Latch.Status}
    (h : Place batchMode st .requeueing) : st = .handling .requeueing := by
  cases st with
  | ready => rcases h with h | h <;> cases h
  | handling pc =>
    cases pc with
    | requeueing => rfl
    | flushing => cases batchMode <;> cases h
    | _ => cases h
  | _ => cases h

/-- The return to the broker takes effect. -/
theorem Comes.giveBack (h : Comes env F t d s s') (hst : (s'.queues t).status d = pending d)
    (requeue : Bool) : ∃ s'', Comes env F t d s s'' ∧ Quiet s' s'' ∧
      (s''.queues t).status d = (Call.giveBack requeue).status := by
  cases hkind : d.kind with
  | record valid =>
    have hrecord : d.kind ≠ .extractionComplete := by simp [hkind]
    have hbackoff : (s'.queues t).status d = .backoff := hst.trans (pending_record hkind)
    obtain ⟨s'', hs, hquiet, hstatus⟩ := h.delivery (b := .requeueRecord d
      (if requeue then .requeued else .deadLettered)) hrecord rfl (by rintro ⟨⟩) hbackoff
    refine ⟨s'', hs, hquiet, hstatus.trans ?_⟩
    cases requeue <;> rfl
  | fileComplete =>
    have hfile : d.kind ≠ .extractionComplete := by simp [hkind]
    have hrequeueing : (s'.queues t).status d = .requeueing :=
      hst.trans (pending_marker (Or.inl hkind))
    obtain ⟨s'', hs, hquiet, hstatus⟩ := h.delivery (b := .requeueMarker d !requeue) hfile rfl
      (by rintro ⟨⟩) hrequeueing
    refine ⟨s'', hs, hquiet, hstatus.trans ?_⟩
    cases requeue <;> rfl
  | extractionComplete =>
    have hrequeueing : (s'.queues t).status d = .requeueing :=
      hst.trans (pending_marker (Or.inr hkind))
    have hplace := h.place hkind
    rw [hrequeueing] at hplace
    have hl : Latch.step s'.latch (.requeue (signalOf F t d) !requeue) = _ :=
      if_pos (place_requeueing hplace)
    obtain ⟨s'', hs, hlatch, hpast, hstatus⟩ := h.signal hkind rfl hl (by rintro _ ⟨⟩)
    refine ⟨s'', hs, .put hpast hlatch, (hstatus _ rfl).trans ?_⟩
    cases requeue <;> rfl

/-- No return to the broker takes effect. -/
theorem Comes.stays (h : Comes env F t d s s') (hst : (s'.queues t).status d = pending d) :
    ∃ s'', Comes env F t d s s'' ∧ Quiet s' s'' ∧
      ((s''.queues t).status d = .unacked ∨ (s''.queues t).status d = .requeueing) := by
  unfold pending at hst
  split_ifs at hst with hrecord
  · have hkind : d.kind ≠ .extractionComplete := by
      intro hkind
      simp [MarkerOrder.Delivery.isRecord, hkind] at hrecord
    obtain ⟨s'', hs, hquiet, hstatus⟩ := h.delivery (b := .requeueRecord d .raised) hkind rfl
      (by rintro ⟨⟩) hst
    exact ⟨s'', hs, hquiet, Or.inl hstatus⟩
  · exact ⟨s', h, .refl s', Or.inr hst⟩

end Steps

/-! ### What the trace tells -/

section Traces

variable {env : Env} {F : Feed} {w : World} {t : DataType} {body : Option PyValue}
  {d : MarkerOrder.Delivery} {s s' s'' : State} {trace : List Event} {event : Event}

theorem Effects.refl : Effects env F w t body d [] s s where
  written _ h := by cases h
  unwritten _ := ⟨rfl, rfl⟩
  latched h := by cases h
  started _ h := by cases h
  idle _ := rfl
  unlocked := rfl

theorem Effects.quiet (h : Effects env F w t body d trace s s') (hq : Quiet s' s'') :
    Effects env F w t body d trace s s'' where
  written updated hmem := by
    rw [hq.catalog.1, hq.catalog.2]
    exact h.written updated hmem
  unwritten hnot := by
    rw [hq.catalog.1, hq.catalog.2]
    exact h.unwritten hnot
  latched hmem := by
    rw [Latch.State.stored, hq.store, hq.version, hq.signals]
    exact h.latched hmem
  started version hmem := by
    rw [hq.task]
    exact h.started version hmem
  idle hnot := hq.task.trans (h.idle hnot)
  unlocked := hq.lock.trans h.unlocked

/-- The event tells nothing of the transaction, the latch and the maintenance. -/
def Silent : Event → Prop
  | .written _ | .latched | .maintenance _ => False
  | _ => True

theorem mem_append_silent (hsilent : Silent event) {event' : Event} (hevent' : ¬Silent event') :
    event' ∈ trace ++ [event] ↔ event' ∈ trace := by
  rw [List.mem_append, List.mem_singleton]
  refine ⟨fun h => h.resolve_right ?_, Or.inl⟩
  rintro rfl
  exact hevent' hsilent

theorem Effects.silent (h : Effects env F w t body d trace s s') (hsilent : Silent event) :
    Effects env F w t body d (trace ++ [event]) s s' where
  written updated hmem := h.written updated ((mem_append_silent hsilent id).mp hmem)
  unwritten hnot := h.unwritten fun updated hmem =>
    hnot updated ((mem_append_silent hsilent id).mpr hmem)
  latched hmem := h.latched ((mem_append_silent hsilent id).mp hmem)
  started version hmem := h.started version ((mem_append_silent hsilent id).mp hmem)
  idle hnot := h.idle fun version hmem => hnot version ((mem_append_silent hsilent id).mpr hmem)
  unlocked := h.unlocked

/-- The batch engine has not been asked. -/
def NotHandedOver (trace : List Event) : Prop := ∀ accepted, .handedOver accepted ∉ trace

theorem NotHandedOver.append (h : NotHandedOver trace)
    (hevent : ∀ accepted, event ≠ .handedOver accepted) :
    NotHandedOver (trace ++ [event]) := by
  intro accepted hmem
  rcases List.mem_append.mp hmem with hmem | hmem
  · exact h accepted hmem
  · exact hevent accepted (List.mem_singleton.mp hmem).symm

/-! ### Settlement calls -/

/-- The delivery is not settled yet, and stands at `st`. -/
structure Holds (env : Env) (F : Feed) (w : World) (t : DataType) (body : Option PyValue)
    (d : MarkerOrder.Delivery) (trace : List Event) (st : MarkerOrder.Status) (s s' : State) : Prop
    extends Comes env F t d s s', Effects env F w t body d trace s s' where
  kept : NotHandedOver trace
  unsettled : taken trace = none
  status : (s'.queues t).status d = st

/-- The handler returns. -/
def Ends (env : Env) (F : Feed) (w : World) (t : DataType) (body : Option PyValue)
    (d : MarkerOrder.Delivery) (s : State) (trace : List Event) : Prop :=
  ∃ s', (machine env F).Steps (fun _ => Action.About F t d) s s' ∧
    Leaves env F w t body d trace s s'

/-- The body of the handler raises. -/
def Fails (env : Env) (F : Feed) (w : World) (t : DataType) (body : Option PyValue)
    (d : MarkerOrder.Delivery) (s : State) (trace : List Event) : Prop :=
  ∃ s', Comes env F t d s s' ∧ Effects env F w t body d trace s s' ∧ NotHandedOver trace ∧
    ((∃ call, taken trace = some call ∧ (s'.queues t).status d = call.status) ∨
      taken trace = none ∧ (s'.queues t).status d = pending d)

theorem Holds.silent {st : MarkerOrder.Status} (h : Holds env F w t body d trace st s s')
    (event : Event) (hsilent : Silent event) (hevent : event.call? = none)
    (hne : ∀ accepted, event ≠ .handedOver accepted) :
    Holds env F w t body d (trace ++ [event]) st s s' :=
  ⟨h.toComes, h.toEffects.silent hsilent, h.kept.append hne,
    (Handler.taken_record hevent).trans h.unsettled, h.status⟩

theorem Holds.fails (h : Holds env F w t body d trace (pending d) s s') :
    Fails env F w t body d s trace :=
  ⟨s', h.toComes, h.toEffects, h.kept, Or.inr ⟨h.unsettled, h.status⟩⟩

/-- A call takes effect, and the handler returns. -/
theorem ends_settled {call : Call} {result : Handler.CallResult} (hs : Comes env F t d s s')
    (heffects : Effects env F w t body d trace s s') (hkept : NotHandedOver trace)
    (htaken : taken (trace ++ [.settled call result]) = some call)
    (hstatus : (s'.queues t).status d = call.status) :
    Ends env F w t body d s (trace ++ [.settled call result]) := by
  have hkept' : NotHandedOver (trace ++ [.settled call result]) := hkept.append (by rintro _ ⟨⟩)
  refine ⟨s', hs.steps, heffects.silent trivial, fun call' hcall' => ?_, fun hnone => ?_,
    fun accepted hmem => absurd hmem (hkept' accepted)⟩
  · obtain rfl := Option.some.inj (htaken.symm.trans hcall')
    exact hstatus
  · rw [htaken] at hnone
    cases hnone

/-- A settlement call of the body, which takes effect or leaves the delivery to wait for its return
to the broker. -/
theorem settle_ends {call : Call} (heffects : Effects env F w t body d trace s s')
    (hkept : NotHandedOver trace) (hnone : taken trace = none)
    (hreached : ∃ s'', Comes env F t d s s'' ∧ Quiet s' s'' ∧
      (s''.queues t).status d = call.status)
    (hlost : ∃ s'', Comes env F t d s s'' ∧ Quiet s' s'' ∧
      (s''.queues t).status d = pending d) :
    Ensures (Handler.settle w call) trace (fun _ => Ends env F w t body d s)
      fun _ => Fails env F w t body d s := by
  refine Handler.ensures_settle ?_ fun failure reached => ?_
  · obtain ⟨s'', hs, hquiet, hstatus⟩ := hreached
    refine ends_settled hs (heffects.quiet hquiet) hkept ?_ hstatus
    rw [Handler.taken_settled, hnone]
    rfl
  · have hkept' : NotHandedOver (trace ++ [.settled call (.raised failure reached)]) :=
      hkept.append (by rintro _ ⟨⟩)
    cases reached with
    | true =>
      obtain ⟨s'', hs, hquiet, hstatus⟩ := hreached
      refine ⟨s'', hs, (heffects.quiet hquiet).silent trivial, hkept', Or.inl ⟨call, ?_, hstatus⟩⟩
      rw [Handler.taken_settled, hnone]
      rfl
    | false =>
      obtain ⟨s'', hs, hquiet, hstatus⟩ := hlost
      refine ⟨s'', hs, (heffects.quiet hquiet).silent trivial, hkept', Or.inr ⟨?_, hstatus⟩⟩
      rw [Handler.taken_settled, hnone]
      rfl

/-- A settlement call of a delivery that has been handed out. -/
theorem Holds.settle {st : MarkerOrder.Status} {call : Call}
    (h : Holds env F w t body d trace st s s')
    (hreached : ∃ s'', Comes env F t d s s'' ∧ Quiet s' s'' ∧
      (s''.queues t).status d = call.status)
    (hlost : ∃ s'', Comes env F t d s s'' ∧ Quiet s' s'' ∧
      (s''.queues t).status d = pending d) :
    Ensures (Handler.settle w call) trace (fun _ => Ends env F w t body d s)
      fun _ => Fails env F w t body d s :=
  settle_ends h.toEffects h.kept h.unsettled hreached hlost

/-- The return to the broker. -/
theorem Holds.giveBack (h : Holds env F w t body d trace (pending d) s s') (requeue : Bool) :
    Ensures (Handler.settle w (.giveBack requeue)) trace (fun _ => Ends env F w t body d s)
      fun _ => Fails env F w t body d s :=
  h.settle (h.toComes.giveBack h.status requeue)
    ⟨s', h.toComes, .refl s', h.status⟩

/-- **The last return to the broker**: the handler returns, whatever becomes of it. -/
theorem Fails.requeueRecord (h : Fails env F w t body d s trace) :
    Ensures (tryCatch (Handler.requeueRecord w) fun _ => pure ()) trace
      (fun _ => Ends env F w t body d s) fun _ _ => False := by
  obtain ⟨s', hs, heffects, hkept, hcase⟩ := h
  rw [ensures_tryCatch]
  have hends : ∀ result, Ends env F w t body d s (trace ++ [.settled
      (.giveBack (w.requeues w.handouts w.recordMaxRequeues)) result]) := by
    intro result
    have hkept' : NotHandedOver (trace ++ [.settled
        (.giveBack (w.requeues w.handouts w.recordMaxRequeues)) result]) :=
      hkept.append (by rintro _ ⟨⟩)
    rcases hcase with ⟨call, htaken, hstatus⟩ | ⟨hnone, hstatus⟩
    · -- The body's call took effect, and the broker refuses this one.
      refine ⟨s', hs.steps, heffects.silent trivial, fun call' hcall' => ?_, fun hnone => ?_,
        fun accepted hmem => absurd hmem (hkept' accepted)⟩
      · rw [Handler.taken_settled, htaken] at hcall'
        obtain rfl := Option.some.inj hcall'
        exact hstatus
      · rw [Handler.taken_settled, htaken] at hnone
        cases hnone
    · cases hreached : result.reached with
      | true =>
        obtain ⟨s'', hs', hquiet, hstatus'⟩ := hs.giveBack hstatus
          (w.requeues w.handouts w.recordMaxRequeues)
        refine ends_settled hs' (heffects.quiet hquiet) hkept ?_ hstatus'
        rw [Handler.taken_settled, hnone, hreached]
        rfl
      | false =>
        -- The delivery stays unsettled until its channel closes.
        obtain ⟨s'', hs', hquiet, hstatus'⟩ := hs.stays hstatus
        refine ⟨s'', hs'.steps, (heffects.quiet hquiet).silent trivial, fun call hcall => ?_,
          fun _ _ => hstatus', fun accepted hmem => absurd hmem (hkept' accepted)⟩
        rw [Handler.taken_settled, hnone, hreached] at hcall
        cases hcall
  exact Handler.ensures_settle (hends _) fun failure reached => hends _

end Traces

end Pipeline

end Graphinator
