import Graphinator.CatalogLog
import Graphinator.FullLatch
import Graphinator.MarkerOrder

/-!
# From the queues to the stamp

The four queues with the handlers of their deliveries, the latch with its pass, and the catalog, as
one transition system. The handler of an `extraction_complete` moves its delivery and the latch
together. A transaction of records commits at some time after they were handed out, and a record is
acked only when one that holds it has committed. A restart returns to the queues what was not
settled, and forgets what the process held in memory.

A pass starts when the latch holds the signals of all types. What its stamp says about the records
of the dump rests on the whole way to it: a marker passes its drain after the records before it, its
signal is stored after that, and a record is acked after its transaction.

## Main definitions

* `Pipeline.State`, `Pipeline.Step` : the queues, the latch and the catalog.
* `Pipeline.Orderly` : the steps in which a drain leaves no earlier record unsettled, and a
  transaction holds one message of a record.
* `Pipeline.Inv` : the invariant.

## Main results

* `Pipeline.place_signal` : a delivery is where its handler says.
* `Pipeline.Inv.step` : every step keeps the invariant.
* `Pipeline.stamped_dump_landed` : what a stamp says about the records of its dump.
-/

namespace Graphinator

/-! ### The steps -/

namespace Pipeline

/-- What the messages say: the bodies of the records, and the versions of the `extraction_complete`
messages of each type. -/
structure Feed where
  body : DataType → MarkerOrder.Delivery → PyValue
  version : DataType → ℕ → Option String

/-- The feed sends the signal. -/
def Feed.Sends (F : Feed) (m : Latch.Signal) : Prop := F.version m.dataType m.copy = m.versionField

instance (F : Feed) (m : Latch.Signal) : Decidable (F.Sends m) :=
  inferInstanceAs (Decidable (_ = _))

/-- The delivery of a signal. -/
def marker (m : Latch.Signal) : MarkerOrder.Delivery := ⟨.extractionComplete, m.copy⟩

/-- The queues, the latch, and the catalog with what was written to it. -/
structure State where
  queues : DataType → MarkerOrder.State
  latch : Latch.State
  /-- The transactions that committed, with the upkeep in between. -/
  past : List Delivery := []
  graph : Graph := ∅

/-- The records of the transactions that committed. -/
def State.messages (s : State) : List (DataType × PyValue) := s.past.flatMap Delivery.messages

inductive Action
  /-- A delivery of a type moves that is no `extraction_complete`. -/
  | delivery (t : DataType) (a : MarkerOrder.Action)
  /-- The handler of a marker, the pass or a resume goes on, or the process restarts. -/
  | latch (a : Latch.Action)
  /-- A transaction commits. -/
  | write (x : Transaction)

/-- What a step of the handler of an `extraction_complete` does to its delivery. Without batch mode
there is nothing to flush, and no flush that fails. -/
def markerStep (batchMode : Bool) (s : Latch.State) : Latch.Action → Option MarkerOrder.Action
  | .handOut m => some (.handOut (marker m) true)
  | .flushed m ok =>
    if ok = true ∧ batchMode = false then none else some (.flushed (marker m) ok)
  | .loaded m ok => if ok then none else some (.recorded (marker m) false)
  | .persisted m ok =>
    if ok then
      match s.status m with
      | .handling (.persisting candidate _) =>
        -- Over a full latch the maintenance state is still to be read.
        if allDataTypes ⊆ candidate then none else some (.recorded (marker m) true)
      | _ => none
    else some (.recorded (marker m) false)
  | .maintenanceRead m ok => some (.recorded (marker m) ok)
  | .ackSettles m => some (.ackMarker (marker m) true)
  | .ackRaises m =>
    match s.status m with
    | .handling _ => some (.ackMarker (marker m) false)
    | _ => none
  | .requeue m deadLetter => some (.requeueMarker (marker m) deadLetter)
  | _ => none

/-- The queue after the step of a delivery, if there is one. -/
def follow (q : MarkerOrder.State) : Option MarkerOrder.Action → Option MarkerOrder.State
  | some a => MarkerOrder.step q a
  | none => some q

/-- What was handed out and not settled goes back to the queue. -/
def returnedStatus : MarkerOrder.Status → MarkerOrder.Status
  | .queued => .queued
  | .acked => .acked
  | .deadLettered => .deadLettered
  | _ => .returned

def returnAll (q : MarkerOrder.State) : MarkerOrder.State :=
  { q with status := fun d => returnedStatus (q.status d) }

/-- The batch engine, or the handler after its write, acks a record. -/
def acks : MarkerOrder.Action → Bool
  | .engineSettles _ .ack | .written _ true => true
  | _ => false

/-- The records of a transaction were handed out. In batch mode it is a batch. -/
def FromQueue (F : Feed) (q : MarkerOrder.State) : Transaction → Prop
  | .batch t messages => ∀ record ∈ messages, ∃ d ∈ q.handedOut,
      d.kind = .record true ∧ F.body t d = record
  | .single t record => q.batchMode = false ∧ ∃ d ∈ q.handedOut,
      d.kind = .record true ∧ F.body t d = record

instance (F : Feed) (q : MarkerOrder.State) : (x : Transaction) → Decidable (FromQueue F q x)
  | .batch .. => inferInstanceAs (Decidable (∀ record ∈ _, ∃ d ∈ q.handedOut, _))
  | .single .. => inferInstanceAs (Decidable (_ ∧ ∃ d ∈ q.handedOut, _))

/-- One step. -/
def step (env : Env) (F : Feed) (s : State) : Action → Option State
  | .delivery t a =>
    -- A record is acked only when a transaction that holds it has committed.
    if a.delivery.kind ≠ .extractionComplete ∧
        (acks a = true → (t, F.body t a.delivery) ∈ s.messages) then
      (MarkerOrder.step (s.queues t) a).map fun q =>
        { s with queues := Function.update s.queues t q }
    else none
  | .latch .restart =>
    (Latch.step s.latch .restart).map fun latch =>
      { s with queues := fun t => returnAll (s.queues t), latch }
  | .latch a =>
    match a.signal? with
    | some m =>
      if F.Sends m then
        (Latch.step s.latch a).bind fun latch =>
          (follow (s.queues m.dataType)
            (markerStep (s.queues m.dataType).batchMode s.latch a)).map fun q =>
              { s with queues := Function.update s.queues m.dataType q, latch }
      else none
    | none => (Latch.step s.latch a).map fun latch => { s with latch }
  | .write x =>
    if FromQueue F (s.queues x.queue) x then
      some { s with past := s.past ++ [.transaction x], graph := x.run env s.graph }
    else none

/-- The steps in which a drain that a marker passes has left no earlier record unsettled, and a
transaction holds one message of a record at most. -/
def Orderly (s : State) : Action → Prop
  | .delivery t a => MarkerOrder.DrainsAll (s.queues t) a
  | .latch a => ∀ m ∈ a.signal?, ∀ b ∈ markerStep (s.queues m.dataType).batchMode s.latch a,
      MarkerOrder.DrainsAll (s.queues m.dataType) b
  | .write x => (x.records.map (·.get "id")).Nodup

instance (s : State) : (a : Action) → Decidable (Orderly s a)
  | .delivery .. => inferInstanceAs (Decidable (MarkerOrder.DrainsAll _ _))
  | .latch _ => inferInstanceAs (Decidable (∀ m ∈ _, ∀ b ∈ _, MarkerOrder.DrainsAll _ _))
  | .write _ => inferInstanceAs (Decidable (List.Nodup _))

/-- A process that has just started over an empty catalog, with every message still in its queue. -/
structure Init (s : State) : Prop where
  queues : ∃ batchMode, s.queues = fun _ => { batchMode }
  latch : Latch.machine.init s.latch
  past : s.past = []
  graph : s.graph = ∅

/-- The queues, the latch and the catalog without upkeep. -/
def machine (env : Env) (F : Feed) : Machine State Action where
  init := Init
  step := step env F

/-- An orderly step, or upkeep. -/
def Step (env : Env) (allCategories : List String) (F : Feed) (s s' : State) : Prop :=
  (machine env F).Step Orderly s s' ∨ ∃ g, Upkeep env allCategories s.graph g ∧
    s' = { s with past := s.past ++ [.upkeep], graph := g }

/-- The runs of these steps. -/
def Run (env : Env) (allCategories : List String) (F : Feed) : State → State → Prop :=
  Relation.ReflTransGen (Step env allCategories F)

/-! ### Where a delivery is -/

/-- Where the delivery of a signal is, by what its handler says. -/
def Place (batchMode : Bool) : Latch.Status → MarkerOrder.Status → Prop
  | .ready, st => st = .queued ∨ st = .returned
  | .handling .flushing, st => st = if batchMode then .flushing else .recording
  | .handling .lockWait, st | .handling .loading, st | .handling (.persisting _ _), st
  | .handling .checking, st => st = .recording
  | .handling (.acking _), st => st = .acking
  | .handling .requeueing, st => st = .requeueing
  | .acked _, st => st = .acked
  | .deadLettered, st => st = .deadLettered

/-- Where a step takes its delivery. -/
def landing (batchMode : Bool) : MarkerOrder.Action → MarkerOrder.Status
  | .handOut d ok => MarkerOrder.firstSegment batchMode d.kind ok
  | .engineSettles _ outcome => outcome.status
  | .written _ ok => if ok then .acked else .backoff
  | .requeueRecord _ outcome => outcome.status
  | .channelCloses _ => .returned
  | .flushed d ok => if ok then MarkerOrder.afterFlush d.kind else .requeueing
  | .recorded _ ok => if ok then .acking else .requeueing
  | .ackMarker _ ok => if ok then .acked else .requeueing
  | .requeueMarker _ deadLetter => if deadLetter then .deadLettered else .returned

section Place

variable {l l' : Latch.State} {a : Latch.Action} {b : MarkerOrder.Action} {m : Latch.Signal}
  {q q' : MarkerOrder.State}

theorem status_step (h : MarkerOrder.step q b = some q') :
    q'.status b.delivery = landing q.batchMode b := by
  cases b with
  | handOut d ok =>
    simp only [MarkerOrder.step] at h
    split at h
    · obtain rfl := Option.some.inj h
      exact MarkerOrder.put_status_self _
    · obtain rfl := Option.some.inj h
      exact MarkerOrder.put_status_self _
    · cases h
  | flushed d ok =>
    simp only [MarkerOrder.step] at h
    split_ifs at h with hst hok hengine <;> obtain rfl := Option.some.inj h <;>
      simp [MarkerOrder.Action.delivery, landing, hok]
  | _ =>
    simp only [MarkerOrder.step, Option.ite_none_right_eq_some, Option.some.injEq] at h
    obtain ⟨-, rfl⟩ := h
    exact MarkerOrder.put_status_self _

theorem batchMode_follow {b? : Option MarkerOrder.Action} (h : follow q b? = some q') :
    q'.batchMode = q.batchMode := by
  cases b? with
  | none => exact congrArg _ (Option.some.inj h).symm
  | some b => exact (MarkerOrder.step_eq h).2.2.1

/-- **A delivery is where its handler says.** -/
theorem place_signal (hm : a.signal? = some m) (h : Latch.step l a = some l')
    (hq : follow q (markerStep q.batchMode l a) = some q')
    (hplace : Place q.batchMode (l.status m) (q.status (marker m))) :
    Place q'.batchMode (l'.status m) (q'.status (marker m)) := by
  rw [batchMode_follow hq]
  have hmoved : ∀ b, markerStep q.batchMode l a = some b →
      q'.status b.delivery = landing q.batchMode b := by
    intro b hb
    rw [hb] at hq
    exact status_step hq
  cases a with
  | handOut m₁ =>
    cases hm
    simp only [Latch.step, Option.ite_none_right_eq_some, Option.some.injEq] at h
    obtain ⟨-, rfl⟩ := h
    have hst : q'.status (marker m) = _ := hmoved _ rfl
    rw [hst, Latch.put_status_self]
    rfl
  | flushed m₁ ok =>
    cases hm
    simp only [Latch.step, Option.ite_none_right_eq_some, Option.some.injEq] at h
    obtain ⟨hflushing, rfl⟩ := h
    rw [Latch.put_status_self]
    cases hmode : q.batchMode with
    | true =>
      have hst : q'.status (marker m) = _ :=
        hmoved (.flushed (marker m) ok) (by simp [markerStep, hmode])
      rw [hst]
      cases ok <;> rfl
    | false =>
      cases ok with
      | true =>
        simp only [markerStep, hmode, and_self, if_true] at hq
        obtain rfl := Option.some.inj hq
        rwa [hflushing, hmode] at hplace
      | false =>
        have hst : q.status (marker m) = .recording := by rwa [hflushing, hmode] at hplace
        simp [markerStep, follow, MarkerOrder.step, hst] at hq
  | acquire m₁ =>
    cases hm
    simp only [Latch.step, Option.ite_none_right_eq_some, Option.some.injEq] at h
    obtain ⟨⟨hwaiting, -⟩, rfl⟩ := h
    obtain rfl := Option.some.inj hq
    rw [hwaiting] at hplace
    rw [Latch.put_status_self]
    split_ifs <;> exact hplace
  | loaded m₁ ok =>
    cases hm
    simp only [Latch.step, Option.ite_none_right_eq_some, Option.some.injEq] at h
    obtain ⟨hloading, rfl⟩ := h
    cases ok with
    | true =>
      obtain rfl := Option.some.inj hq
      rw [hloading] at hplace
      rw [if_pos rfl, Latch.put_status_self]
      exact hplace
    | false =>
      have hst : q'.status (marker m) = _ := hmoved _ rfl
      rw [hst, if_neg (by decide), Latch.put_status_self]
      rfl
  | commit m₁ now =>
    cases hm
    simp only [Latch.step] at h
    split at h
    · next candidate hpersisting =>
      obtain rfl := Option.some.inj h
      obtain rfl := Option.some.inj hq
      rw [hpersisting] at hplace
      rw [Latch.put_status_self]
      exact hplace
    · cases h
  | persisted m₁ ok =>
    cases hm
    simp only [Latch.step] at h
    split at h
    · next candidate committed hpersisting =>
      rw [hpersisting] at hplace
      cases ok with
      | true =>
        simp only [if_true, Option.ite_none_right_eq_some, Option.some.injEq] at h
        obtain ⟨-, rfl⟩ := h
        simp only [markerStep, if_true, hpersisting] at hq
        rw [Latch.put_status_self]
        split_ifs at hq ⊢ with hall
        · obtain rfl := Option.some.inj hq
          exact hplace
        · exact hmoved (.recorded (marker m) true) (by simp [markerStep, hpersisting, hall])
      | false =>
        obtain rfl := Option.some.inj h
        have hst : q'.status (marker m) = _ := hmoved _ rfl
        rw [hst, Latch.put_status_self]
        rfl
    · cases h
  | maintenanceRead m₁ ok =>
    cases hm
    simp only [Latch.step, Option.ite_none_right_eq_some, Option.some.injEq] at h
    obtain ⟨-, rfl⟩ := h
    have hst : q'.status (marker m) = _ := hmoved _ rfl
    rw [hst, Latch.put_status_self]
    cases ok <;> rfl
  | ackSettles m₁ =>
    cases hm
    simp only [Latch.step] at h
    split at h
    · obtain rfl := Option.some.inj h
      have hst : q'.status (marker m) = _ := hmoved _ rfl
      rw [hst, Latch.put_status_self]
      rfl
    · cases h
  | ackReturns m₁ =>
    cases hm
    simp only [Latch.step] at h
    split at h
    · next starts hacked =>
      obtain rfl := Option.some.inj h
      obtain rfl := Option.some.inj hq
      rw [hacked] at hplace
      have hst : (if starts then (l.put m (.acked none)).startPostImportMaintenance m.version
          else l.put m (.acked none)).status m = .acked none := by
        split_ifs
        · unfold Latch.State.startPostImportMaintenance
          split <;> exact Latch.put_status_self ..
        · exact Latch.put_status_self ..
      rw [hst]
      exact hplace
    · cases h
  | ackRaises m₁ =>
    cases hm
    simp only [Latch.step] at h
    split at h
    · next starts hacking =>
      obtain rfl := Option.some.inj h
      have hst : q'.status (marker m) = _ :=
        hmoved (.ackMarker (marker m) false) (by simp [markerStep, hacking])
      rw [hst, Latch.put_status_self]
      rfl
    · next starts hacked =>
      obtain rfl := Option.some.inj h
      simp only [markerStep, hacked] at hq
      obtain rfl := Option.some.inj hq
      rw [hacked] at hplace
      rw [Latch.put_status_self]
      exact hplace
    · cases h
  | requeue m₁ deadLetter =>
    cases hm
    simp only [Latch.step, Option.ite_none_right_eq_some, Option.some.injEq] at h
    obtain ⟨-, rfl⟩ := h
    have hst : q'.status (marker m) = _ := hmoved _ rfl
    rw [hst, Latch.put_status_self]
    cases deadLetter
    · exact Or.inr rfl
    · rfl
  | _ => cases hm

end Place

/-! ### What a queue keeps -/

/-- What stays in a queue while its deliveries move. -/
structure Keeps (q q' : MarkerOrder.State) : Prop where
  inv : MarkerOrder.Inv q → MarkerOrder.Inv q'
  mode : q'.batchMode = q.batchMode
  before {d : MarkerOrder.Delivery} : d ∈ q.handedOut →
    d ∈ q'.handedOut ∧ MarkerOrder.before q' d = MarkerOrder.before q d
  settled {d : MarkerOrder.Delivery} : (q.status d).Settled → (q'.status d).Settled

section Keeps

variable {q q' : MarkerOrder.State} {b : MarkerOrder.Action}

theorem Keeps.refl (q : MarkerOrder.State) : Keeps q q := ⟨id, rfl, fun h => ⟨h, rfl⟩, id⟩

theorem Keeps.step (hdrains : MarkerOrder.DrainsAll q b) (h : MarkerOrder.step q b = some q') :
    Keeps q q' where
  inv hi := hi.step hdrains h
  mode := (MarkerOrder.step_eq h).2.2.1
  before hd := by
    refine ⟨?_, MarkerOrder.before_step h (Or.inl hd)⟩
    rw [(MarkerOrder.step_eq h).2.2.2]
    exact List.mem_append_left _ hd
  settled := MarkerOrder.settled_step h

theorem Keeps.follow {b? : Option MarkerOrder.Action}
    (hdrains : ∀ b, b? = some b → MarkerOrder.DrainsAll q b) (h : follow q b? = some q') :
    Keeps q q' := by
  cases b? with
  | none =>
    obtain rfl := Option.some.inj h
    exact .refl q
  | some b => exact .step (hdrains b rfl) h

theorem returnedStatus_cases (st : MarkerOrder.Status) :
    returnedStatus st = st ∧ (st = .queued ∨ st.Settled) ∨
      returnedStatus st = .returned ∧ ¬(st = .queued ∨ st.Settled) := by
  cases st <;> simp [returnedStatus, MarkerOrder.Status.Settled]

theorem Keeps.returnAll (q : MarkerOrder.State) : Keeps q (returnAll q) where
  inv hi := by
    refine ⟨fun d => ?_, fun {d} => hi.handedOut.trans (not_congr ?_), fun {d} hd => ?_⟩
    · change (returnedStatus (q.status d)).Ok q.batchMode d.isRecord
      rcases returnedStatus_cases (q.status d) with ⟨heq, -⟩ | ⟨heq, -⟩ <;> rw [heq]
      · exact hi.ok d
      · trivial
    · change q.status d = .queued ↔ returnedStatus (q.status d) = .queued
      rcases returnedStatus_cases (q.status d) with ⟨heq, -⟩ | ⟨heq, hne⟩ <;> rw [heq]
      exact iff_of_false (fun h => hne (Or.inl h)) (by rintro ⟨⟩)
    · change returnedStatus (q.status d) = _ ∨ returnedStatus (q.status d) = _ at hd
      rcases returnedStatus_cases (q.status d) with ⟨heq, hst⟩ | ⟨heq, -⟩ <;> rw [heq] at hd
      · rcases hst with hst | hst | hst <;> rw [hst] at hd <;> simp at hd
      · simp at hd
  mode := rfl
  before hd := ⟨hd, rfl⟩
  settled {d} hd := by
    change (returnedStatus (q.status d)).Settled
    rcases returnedStatus_cases (q.status d) with ⟨heq, -⟩ | ⟨-, hne⟩
    · rwa [heq]
    · exact absurd (Or.inr hd) hne

/-- A record is acked by the engine or after its write. -/
theorem acks_of_landing (hi : MarkerOrder.Inv q) (h : MarkerOrder.step q b = some q')
    (hrecord : b.delivery.isRecord = true) (hacked : q'.status b.delivery = .acked) :
    acks b = true := by
  rw [status_step h] at hacked
  cases b with
  | handOut d ok =>
    obtain ⟨kind, tag⟩ := d
    rcases kind with (_ | _) | _ | _ <;> cases hmode : q.batchMode <;> cases ok <;>
      simp [landing, MarkerOrder.firstSegment, hmode] at hacked
  | engineSettles d outcome =>
    cases outcome with
    | ack => rfl
    | _ => cases hacked
  | written d ok =>
    cases ok with
    | true => rfl
    | false => cases hacked
  | requeueRecord d outcome => cases outcome <;> cases hacked
  | channelCloses d => cases hacked
  | flushed d ok =>
    cases ok with
    | true =>
      simp only [landing, if_true, MarkerOrder.afterFlush] at hacked
      split_ifs at hacked
    | false => cases hacked
  | recorded d ok => cases ok <;> cases hacked
  | ackMarker d ok =>
    simp only [MarkerOrder.step, Option.ite_none_right_eq_some] at h
    have hok := hi.ok d
    rw [h.1] at hok
    have hnot : d.isRecord = false := hok
    rw [show d.isRecord = true from hrecord] at hnot
    cases hnot
  | requeueMarker d deadLetter => cases deadLetter <;> cases hacked

end Keeps

/-! ### The invariant -/

/-- The records before the marker of a type and a version are settled. -/
def Landed (F : Feed) (s : State) (version : String) (t : DataType) : Prop :=
  ∃ m : Latch.Signal, F.Sends m ∧ m.version = version ∧ m.dataType = t ∧
    marker m ∈ (s.queues t).handedOut ∧
      ∀ d ∈ MarkerOrder.before (s.queues t) (marker m), ((s.queues t).status d).Settled

/-- A transaction of records of the feed, with one message of each. -/
structure FromFeed (F : Feed) (batchMode : Bool) (x : Transaction) : Prop where
  records : ∀ record ∈ x.records, ∃ d, d.kind = .record true ∧ F.body x.queue d = record
  nodup : (x.records.map (·.get "id")).Nodup
  batch : batchMode = true → ∃ t messages, x = .batch t messages

theorem FromQueue.fromFeed {F : Feed} {q : MarkerOrder.State} {x : Transaction}
    (h : FromQueue F q x) (hnodup : (x.records.map (·.get "id")).Nodup) {batchMode : Bool}
    (hmode : q.batchMode = batchMode) : FromFeed F batchMode x := by
  cases x with
  | batch t messages =>
    refine ⟨fun record hrecord => ?_, hnodup, fun _ => ⟨t, messages, rfl⟩⟩
    obtain ⟨d, -, hkind, hbody⟩ := h record hrecord
    exact ⟨d, hkind, hbody⟩
  | single t record =>
    obtain ⟨hsingle, d, -, hkind, hbody⟩ := h
    refine ⟨fun other hother => ⟨d, hkind, ?_⟩, hnodup, fun hbatch => ?_⟩
    · rw [List.mem_singleton.mp hother]
      exact hbody
    · rw [← hmode, hsingle] at hbatch
      cases hbatch

/-- The invariant of the runs from `s₀`. -/
structure Inv (env : Env) (allCategories : List String) (F : Feed) (s₀ s : State) : Prop where
  queue (t : DataType) : MarkerOrder.Inv (s.queues t)
  mode (t : DataType) : (s.queues t).batchMode = (s₀.queues t).batchMode
  latch : Latch.Inv s₀.latch s.latch
  full : Latch.Full s.latch
  place {m : Latch.Signal} : F.Sends m → Place (s.queues m.dataType).batchMode (s.latch.status m)
    ((s.queues m.dataType).status (marker m))
  /-- A signal was stored at the start of the run, or its marker came after its records. -/
  landed {version : String} {t : DataType} : t ∈ s.latch.stored version →
    t ∈ s₀.latch.stored version ∨ Landed F s version t
  /-- A record that is acked was written. -/
  written {t : DataType} {d : MarkerOrder.Delivery} : d.isRecord = true →
    (s.queues t).status d = .acked → (t, F.body t d) ∈ s.messages
  run : (catalogReceiver env allCategories).Run s.past s₀.graph s.graph
  past {x : Transaction} : .transaction x ∈ s.past →
    FromFeed F (s₀.queues x.queue).batchMode x

section Invariant

variable {env : Env} {allCategories : List String} {F : Feed} {s₀ s s' : State}

theorem Landed.keeps {version : String} {t : DataType} (h : Landed F s version t)
    (hkeeps : ∀ t, Keeps (s.queues t) (s'.queues t)) : Landed F s' version t := by
  obtain ⟨m, hsends, hversion, htype, hmem, hsettled⟩ := h
  obtain ⟨hmem', hbefore⟩ := (hkeeps t).before hmem
  refine ⟨m, hsends, hversion, htype, hmem', fun d hd => (hkeeps t).settled (hsettled d ?_)⟩
  rwa [hbefore] at hd

/-- Two signals of the feed with the same delivery are one. -/
theorem marker_ne {m m' : Latch.Signal} (hm : F.Sends m) (hm' : F.Sends m') (hne : m' ≠ m)
    (htype : m'.dataType = m.dataType) : marker m' ≠ marker m := by
  intro heq
  have hcopy : m'.copy = m.copy := congrArg MarkerOrder.Delivery.tag heq
  have hversion : m'.versionField = m.versionField := by
    rw [← hm, ← hm', htype, hcopy]
  obtain ⟨versionField, dataType, copy⟩ := m
  obtain ⟨versionField', dataType', copy'⟩ := m'
  obtain rfl : versionField' = versionField := hversion
  obtain rfl : dataType' = dataType := htype
  obtain rfl : copy' = copy := hcopy
  exact hne rfl

/-- The queues and the latch move on, and the catalog stays as it is. -/
theorem Inv.move (h : Inv env allCategories F s₀ s) {queues : DataType → MarkerOrder.State}
    {latch : Latch.State} {a : Latch.Action} (hkeeps : ∀ t, Keeps (s.queues t) (queues t))
    (hlatch : latch = s.latch ∨ Latch.step s.latch a = some latch)
    (hplace : ∀ m, F.Sends m → Place (queues m.dataType).batchMode (latch.status m)
      ((queues m.dataType).status (marker m)))
    (hsends : ∀ m, a.signal? = some m → F.Sends m)
    (hwritten : ∀ t d, d.isRecord = true → (queues t).status d = .acked →
      (s.queues t).status d = .acked ∨ (t, F.body t d) ∈ s.messages) :
    Inv env allCategories F s₀ { s with queues, latch } where
  queue t := (hkeeps t).inv (h.queue t)
  mode t := (hkeeps t).mode.trans (h.mode t)
  latch := by
    rcases hlatch with rfl | hstep
    · exact h.latch
    · exact h.latch.step hstep
  full := by
    rcases hlatch with rfl | hstep
    · exact h.full
    · exact h.full.step h.latch hstep
  place {m} hm := hplace m hm
  landed {version t} ht := by
    have hbefore : t ∈ s.latch.stored version →
        t ∈ s₀.latch.stored version ∨ Landed F { s with queues, latch } version t :=
      fun ht => (h.landed ht).imp_right fun hlanded => hlanded.keeps hkeeps
    rcases hlatch with rfl | hstep
    · exact hbefore ht
    · rcases Latch.mem_stored_step h.latch hstep ht with ht | ⟨m, candidate, hm, rfl, rfl, hst⟩
      · exact hbefore ht
      · -- The delivery of a signal that is being stored has passed its drain.
        have hplaced := h.place (hsends m hm)
        rw [hst] at hplaced
        have hrecording : (s.queues m.dataType).status (marker m) = .recording := hplaced
        refine Or.inr (Landed.keeps (s := s) ⟨m, hsends m hm, rfl, rfl, ?_, ?_⟩ hkeeps)
        · rw [(h.queue m.dataType).handedOut, hrecording]
          rintro ⟨⟩
        · exact (h.queue m.dataType).passed (Or.inl hrecording)
  written {t d} hrecord hacked := by
    rcases hwritten t d hrecord hacked with hacked | hmem
    · exact h.written hrecord hacked
    · exact hmem
  run := h.run
  past := h.past

/-- A handler moves the delivery of its signal. -/
theorem delivery_markerStep {batchMode : Bool} {l : Latch.State} {a : Latch.Action}
    {m : Latch.Signal} {b : MarkerOrder.Action} (hm : a.signal? = some m)
    (hb : markerStep batchMode l a = some b) : b.delivery = marker m := by
  cases a with
  | acquire m₁ | commit m₁ now | ackReturns m₁ => cases hb
  | passStamps now statsVersion | passReturns | passFails recorded now error | resumeLatest answer
  | resumeSignals ok | resumeMaintained ok | restart => cases hm
  | _ =>
    cases hm
    simp only [markerStep] at hb
    repeat' split at hb
    all_goals first
      | cases hb
        done
      | obtain rfl := Option.some.inj hb
        rfl

theorem follow_status_of_ne {q q' : MarkerOrder.State} {b? : Option MarkerOrder.Action}
    (h : follow q b? = some q') {d : MarkerOrder.Delivery}
    (hne : ∀ b, b? = some b → d ≠ b.delivery) : q'.status d = q.status d := by
  cases b? with
  | none => exact congrFun (congrArg _ (Option.some.inj h).symm) d
  | some b => exact (MarkerOrder.step_eq h).2.1 d (hne b rfl)

/-- A restart returns a delivery to its queue as its handler is forgotten. -/
theorem place_restart {batchMode : Bool} {st : Latch.Status} {st' : MarkerOrder.Status}
    (h : Place batchMode st st') :
    Place batchMode (Latch.State.restartStatus st) (returnedStatus st') := by
  cases st with
  | ready =>
    rcases h with rfl | rfl
    · exact Or.inl rfl
    · exact Or.inr rfl
  | handling pc =>
    refine Or.inr ?_
    cases pc with
    | flushing =>
      obtain rfl := h
      cases batchMode <;> rfl
    | _ =>
      obtain rfl := h
      rfl
  | acked resumes =>
    obtain rfl := h
    rfl
  | deadLettered =>
    obtain rfl := h
    rfl

/-- The handler of an `extraction_complete` goes on. -/
theorem Inv.signal (h : Inv env allCategories F s₀ s) {a : Latch.Action} {m : Latch.Signal}
    {l : Latch.State} {q : MarkerOrder.State} (hm : a.signal? = some m) (hsends : F.Sends m)
    (hdrains : ∀ b, markerStep (s.queues m.dataType).batchMode s.latch a = some b →
      MarkerOrder.DrainsAll (s.queues m.dataType) b)
    (hs : Latch.step s.latch a = some l)
    (hq : follow (s.queues m.dataType)
      (markerStep (s.queues m.dataType).batchMode s.latch a) = some q) :
    Inv env allCategories F s₀
      { s with queues := Function.update s.queues m.dataType q, latch := l } := by
  have hstatus : ∀ d, d ≠ marker m → q.status d = (s.queues m.dataType).status d := fun d hd =>
    follow_status_of_ne hq fun b hb heq => hd (heq.trans (delivery_markerStep hm hb))
  refine h.move (fun t => ?_) (Or.inr hs) (fun m' hm' => ?_) (fun m' hsignal => ?_)
    fun t d hrecord hacked => ?_
  · rcases eq_or_ne t m.dataType with rfl | hne
    · rw [Function.update_self]
      exact .follow hdrains hq
    · rw [Function.update_of_ne hne]
      exact .refl _
  · rcases eq_or_ne m' m with rfl | hne
    · rw [Function.update_self]
      exact place_signal hm hs hq (h.place hm')
    · rw [Latch.status_of_ne hm hs hne]
      by_cases htype : m'.dataType = m.dataType
      · have hplace := h.place hm'
        rw [htype] at hplace ⊢
        rw [Function.update_self, batchMode_follow hq, hstatus _ (marker_ne hsends hm' hne htype)]
        exact hplace
      · rw [Function.update_of_ne htype]
        exact h.place hm'
  · obtain rfl : m = m' := Option.some.inj (hm.symm.trans hsignal)
    exact hsends
  · rcases eq_or_ne t m.dataType with rfl | hne
    · rw [Function.update_self, hstatus] at hacked
      · exact Or.inl hacked
      · rintro rfl
        cases hrecord
    · rw [Function.update_of_ne hne] at hacked
      exact Or.inl hacked

/-- A delivery that is no `extraction_complete` moves. -/
theorem Inv.delivery (h : Inv env allCategories F s₀ s) {t : DataType} {b : MarkerOrder.Action}
    {q : MarkerOrder.State} (hkind : b.delivery.kind ≠ .extractionComplete)
    (hdrains : MarkerOrder.DrainsAll (s.queues t) b) (hs : MarkerOrder.step (s.queues t) b = some q)
    (hacked : acks b = true → (t, F.body t b.delivery) ∈ s.messages) :
    Inv env allCategories F s₀ { s with queues := Function.update s.queues t q } := by
  obtain ⟨-, hother, hmode, -⟩ := MarkerOrder.step_eq hs
  refine h.move (a := .passReturns) (fun t' => ?_) (Or.inl rfl) (fun m hm => ?_) (by rintro _ ⟨⟩)
    fun t' d hrecord hst => ?_
  · rcases eq_or_ne t' t with rfl | hne
    · rw [Function.update_self]
      exact .step hdrains hs
    · rw [Function.update_of_ne hne]
      exact .refl _
  · have hplace := h.place hm
    by_cases htype : m.dataType = t
    · rw [htype] at hplace ⊢
      rw [Function.update_self, hmode, hother (marker m) fun heq => hkind (heq ▸ rfl)]
      exact hplace
    · rw [Function.update_of_ne htype]
      exact hplace
  · rcases eq_or_ne t' t with rfl | hne
    · rw [Function.update_self] at hst
      rcases eq_or_ne d b.delivery with rfl | hd
      · exact Or.inr (hacked (acks_of_landing (h.queue t') hs hrecord hst))
      · rw [hother d hd] at hst
        exact Or.inl hst
    · rw [Function.update_of_ne hne] at hst
      exact Or.inl hst

/-- The process restarts. -/
theorem Inv.restart (h : Inv env allCategories F s₀ s) {l : Latch.State}
    (hs : Latch.step s.latch .restart = some l) : Inv env allCategories F s₀
      { s with queues := fun t => returnAll (s.queues t), latch := l } := by
  refine h.move (fun t => .returnAll _) (Or.inr hs) (fun m hsends => ?_) (by rintro _ ⟨⟩)
    fun t d _ hacked => ?_
  · obtain rfl := Option.some.inj hs
    exact place_restart (h.place hsends)
  · change returnedStatus ((s.queues t).status d) = .acked at hacked
    rcases returnedStatus_cases ((s.queues t).status d) with ⟨heq, -⟩ | ⟨heq, -⟩
    · exact Or.inl (heq.symm.trans hacked)
    · rw [heq] at hacked
      cases hacked

/-- The catalog changes. -/
theorem Inv.catalog (h : Inv env allCategories F s₀ s) {d : Graphinator.Delivery} {g : Graph}
    (hs : (catalogReceiver env allCategories).Step d s.graph g)
    (hd : ∀ x, d = .transaction x → FromFeed F (s₀.queues x.queue).batchMode x) :
    Inv env allCategories F s₀ { s with past := s.past ++ [d], graph := g } := by
  refine ⟨h.queue, h.mode, h.latch, h.full, h.place, h.landed, fun hrecord hacked => ?_,
    Receiver.run_append_singleton h.run hs, fun {x} hx => ?_⟩
  · rw [State.messages, List.flatMap_append]
    exact List.mem_append_left _ (h.written hrecord hacked)
  · rcases List.mem_append.mp hx with hx | hx
    · exact h.past hx
    · exact hd x (List.mem_singleton.mp hx).symm

/-- **Every step keeps the invariant.** -/
theorem Inv.step (h : Inv env allCategories F s₀ s) (hs : Step env allCategories F s s') :
    Inv env allCategories F s₀ s' := by
  rcases hs with ⟨a, hok, hs⟩ | ⟨g, hup, rfl⟩
  · change Pipeline.step env F s a = some s' at hs
    cases a with
    | delivery t b =>
      simp only [Pipeline.step] at hs
      split_ifs at hs with hguard
      obtain ⟨q, hq, rfl⟩ := Option.map_eq_some_iff.mp hs
      exact h.delivery hguard.1 hok hq hguard.2
    | latch b =>
      rcases eq_or_ne b .restart with rfl | hb
      · simp only [Pipeline.step, Option.map_eq_some_iff] at hs
        obtain ⟨l, hl, rfl⟩ := hs
        exact h.restart hl
      · simp only [Pipeline.step] at hs
        cases hm : b.signal? with
        | some m =>
          rw [hm] at hs
          dsimp only at hs
          split_ifs at hs with hsends
          obtain ⟨l, hl, hs⟩ := Option.bind_eq_some_iff.mp hs
          obtain ⟨q, hq, rfl⟩ := Option.map_eq_some_iff.mp hs
          exact h.signal hm hsends (hok m hm) hl hq
        | none =>
          rw [hm] at hs
          obtain ⟨l, hl, rfl⟩ := Option.map_eq_some_iff.mp hs
          refine h.move (fun t => .refl _) (Or.inr hl) (fun m hsends => ?_) (fun m hsignal => ?_)
            fun t d _ hacked => Or.inl hacked
          · rw [Latch.status_of_signal_none hm hb hl]
            exact h.place hsends
          · rw [hm] at hsignal
            cases hsignal
    | write x =>
      simp only [Pipeline.step] at hs
      split_ifs at hs with hx
      obtain rfl := Option.some.inj hs
      refine h.catalog rfl ?_
      rintro _ ⟨⟩
      exact hx.fromFeed hok (h.mode _)
  · exact h.catalog hup (by rintro _ ⟨⟩)

theorem Inv.init (h : Init s) : Inv env allCategories F s s := by
  obtain ⟨⟨batchMode, hqueues⟩, ⟨store, hlatch⟩, hpast, hgraph⟩ := h
  refine ⟨fun t => ?_, fun _ => rfl, Latch.Inv.init ⟨store, hlatch⟩, ?_, fun {m} _ => ?_, Or.inl,
    fun {t d} _ hacked => ?_, ?_, fun {x} hx => ?_⟩
  · rw [hqueues]
    exact .init ⟨batchMode, rfl⟩
  · rw [hlatch]
    exact ⟨by rintro _ ⟨⟩, by rintro _ ⟨⟩⟩
  · rw [hqueues, hlatch]
    exact Or.inl rfl
  · rw [hqueues] at hacked
    cases hacked
  · rw [hpast]
    rfl
  · rw [hpast] at hx
    cases hx

theorem Inv.of_run (hinit : Init s₀) (hrun : Run env allCategories F s₀ s) :
    Inv env allCategories F s₀ s := by
  induction hrun with
  | refl => exact .init hinit
  | tail _ hs ih => exact ih.step hs

end Invariant

/-! ### What a stamp says -/

/-- The records are records of the feed. -/
def Feed.Deliverable (F : Feed) (env : Env) : Prop :=
  ∀ t d, d.kind = .record true → Graphinator.Deliverable env t (F.body t d)

section Transactions

variable {env : Env} {F : Feed} {batchMode : Bool} {x : Transaction}

theorem FromFeed.deliverable (h : FromFeed F batchMode x) (hfeed : F.Deliverable env) :
    x.Deliverable env where
  record record hrecord := by
    obtain ⟨d, hkind, rfl⟩ := h.records record hrecord
    exact hfeed x.queue d hkind
  same record hrecord other hother heq := by
    rw [List.inj_on_of_nodup_map h.nodup hrecord hother heq]

theorem FromFeed.isBatchMode (h : FromFeed F true x) : x.BatchMode := ⟨h.batch rfl, h.nodup⟩

end Transactions

def dubRelease : PyValue :=
  .obj [("id", .str "1"), ("sha256", .str "d"), ("name", .str "Dub"), ("genres", .arr [.str "Dub"])]

def dubFeed : Feed where
  body _ _ := dubRelease
  version _ n := some (if n = 0 then "20260701" else "20260801")

def dubStart : State where
  queues _ := { batchMode := true }
  latch := { store := [{ version := "20260701", signals := some [.artists, .labels, .masters] }] }

def dubRecord : MarkerOrder.Delivery := ⟨.record true, 0⟩

def dubSignal : Latch.Signal := { versionField := some "20260701", dataType := .releases }

/-- The record is written and acked, and its marker starts the pass. -/
def dubRun : List Action :=
  [.delivery .releases (.handOut dubRecord true), .latch (.handOut dubSignal),
    .write (.batch .releases [dubRelease]), .delivery .releases (.engineSettles dubRecord .ack),
    .latch (.flushed dubSignal true), .latch (.acquire dubSignal), .latch (.loaded dubSignal true),
    .latch (.commit dubSignal 7), .latch (.persisted dubSignal true),
    .latch (.maintenanceRead dubSignal true), .latch (.ackSettles dubSignal),
    .latch (.ackReturns dubSignal)]

theorem dubFeed_deliverable : dubFeed.Deliverable plainEnv := by
  rintro t d -
  have hnamed : Named dubRelease := ⟨"Dub", rfl, by decide⟩
  refine ⟨⟨⟨"1", by decide, rfl⟩, ⟨.str "d", (by rintro ⟨⟩), rfl⟩, fun _ => hnamed⟩,
    ⟨"d", by decide, rfl⟩, ?_, ?_, ?_⟩
  · cases t <;> rfl
  · cases t <;> exact ⟨_, rfl⟩
  · cases t <;> exact ⟨_, rfl⟩

/-- Only the first marker carries the version of the dump. -/
theorem marker_of_version {m : Latch.Signal} (hsends : dubFeed.Sends m)
    (hversion : m.version = "20260701") : marker m = marker dubSignal := by
  obtain ⟨versionField, dataType, copy⟩ := m
  obtain rfl : some (if copy = 0 then "20260701" else "20260801") = versionField := hsends
  by_cases hcopy : copy = 0
  · rw [hcopy]
    rfl
  · rw [if_neg hcopy] at hversion
    exact absurd (show "20260801" = "20260701" from hversion) (by decide)

end Pipeline

end Graphinator
