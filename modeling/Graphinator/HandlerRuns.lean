import Graphinator.HandlerSteps

/-!
# The handler as a run of the pipeline

Whatever the awaits of a delivery answer, the steps of its handler are steps of the pipeline, and
they lead to a state with the message where its settlement calls left it, and with what the trace
tells of the transaction, the latch and the maintenance.

The transitions of the pipeline ask that a record is acked only when a transaction that holds it has
committed, and this is where the code keeps to it.

## Main definitions

* `Pipeline.Inside`, `Pipeline.Published`, `Pipeline.Recorded` : where the handler of an
  `extraction_complete` stands.

## Main results

* `Pipeline.fileComplete_ends`, `Pipeline.handleRecord_ends`, `Pipeline.extractionComplete_ends` :
  the three kinds of messages.
* `Pipeline.handler_runs` : the handler is a run of the pipeline.
-/

namespace Graphinator

open Traced

namespace Pipeline

open Handler (World Event Call taken)

section Runs

variable {env : Env} {F : Feed} {w : World} {t : DataType} {body : Option PyValue}
  {d : MarkerOrder.Delivery} {s s' s'' : State} {trace : List Event}

/-! ### `file_complete` -/

/-- The delivery moves on. -/
theorem Holds.delivery {st : MarkerOrder.Status} (h : Holds env F w t body d trace st s s')
    (hkind : d.kind ≠ .extractionComplete) {b : MarkerOrder.Action} (hb : b.delivery = d)
    (hacks : acks b = true → (t, F.body t d) ∈ s'.messages) (henabled : Enabled (s'.queues t) b) :
    ∃ s'', Holds env F w t body d trace (landing (s.queues t).batchMode b) s s'' ∧
      Quiet s' s'' := by
  obtain ⟨s'', hs, hquiet, hstatus⟩ := h.toComes.delivery hkind hb hacks henabled
  exact ⟨s'', ⟨hs, h.toEffects.quiet hquiet, h.kept, h.unsettled, hstatus⟩, hquiet⟩

/-- The ack of a `file_complete`. -/
theorem Holds.ackFile (h : Holds env F w t body d trace .acking s s')
    (hkind : d.kind = .fileComplete) :
    Ensures (Handler.settle w .ack) trace (fun _ => Ends env F w t body d s)
      fun _ => Fails env F w t body d s := by
  have hfile : d.kind ≠ .extractionComplete := by simp [hkind]
  have hpending : pending d = .requeueing := pending_marker (Or.inl hkind)
  obtain ⟨s₁, h₁, hquiet₁⟩ := h.delivery hfile (b := .ackMarker d true) rfl (by rintro ⟨⟩) h.status
  obtain ⟨s₂, h₂, hquiet₂⟩ := h.delivery hfile (b := .ackMarker d false) rfl (by rintro ⟨⟩) h.status
  exact h.settle ⟨s₁, h₁.toComes, hquiet₁, h₁.status⟩
    ⟨s₂, h₂.toComes, hquiet₂, h₂.status.trans hpending.symm⟩

theorem fileComplete_ends (h : Meets F w t body d s)
    (hkind : d.kind = .fileComplete) :
    Ensures (Handler.fileComplete w) [] (fun _ => Ends env F w t body d s)
      fun _ => Fails env F w t body d s := by
  have hfile : d.kind ≠ .extractionComplete := by simp [hkind]
  have hpending : pending d = .requeueing := pending_marker (Or.inl hkind)
  obtain ⟨s₁, hs₁, hquiet, hstatus⟩ := Comes.handOut env F hfile h.ready true
  have hstart : Holds env F w t body d [] _ s s₁ := ⟨hs₁, Effects.refl.quiet hquiet,
    fun _ hmem => (List.not_mem_nil hmem).elim, rfl, hstatus⟩
  unfold Handler.fileComplete Handler.drain
  rw [ensures_bind, h.processor]
  cases hmode : (s.queues t).batchMode with
  | false =>
    rw [hmode, hkind] at hstart
    exact (hstart.silent .completed trivial rfl (by rintro _ ⟨⟩)).ackFile hkind
  | true =>
    rw [hmode, hkind] at hstart
    simp only [if_true, ensures_bind]
    have hflushed (ok : Bool) (hpromise : ok = true → w.flush = .ok true) :
        ∃ s₂, Holds env F w t body d [] (if ok then .acking else .requeueing) s s₂ := by
      have henabled : Enabled (s₁.queues t) (.flushed d ok) := by
        refine ⟨hstart.status, fun hok d' hd' => ?_⟩
        rcases eq_or_ne d' d with rfl | hne
        · rw [hstart.status]
          rintro ⟨⟩
        · obtain ⟨hmem, hsame⟩ := hstart.others hne hd'
          rw [hsame]
          exact h.flush (hpromise hok) d' hmem
      obtain ⟨s₂, h₂, -⟩ := hstart.delivery hfile rfl (by rintro ⟨⟩) henabled
      have hlanding : landing (s.queues t).batchMode (.flushed d ok) =
          if ok then .acking else .requeueing := by
        simp only [landing, MarkerOrder.afterFlush, hkind, reduceCtorEq, if_false]
      exact ⟨s₂, hlanding ▸ h₂⟩
    cases hflush : w.flush with
    | error failure =>
      obtain ⟨s₂, h₂⟩ := hflushed false (by rintro ⟨⟩)
      exact Holds.fails (by rwa [hpending])
    | ok drained =>
      cases drained with
      | true =>
        obtain ⟨s₂, h₂⟩ := hflushed true fun _ => hflush
        have h₃ := (h₂.silent .drained trivial rfl (by rintro _ ⟨⟩)).silent .completed trivial rfl
          (by rintro _ ⟨⟩)
        exact h₃.ackFile hkind
      | false =>
        obtain ⟨s₂, h₂⟩ := hflushed false (by rintro ⟨⟩)
        exact Holds.giveBack (by rwa [hpending]) _

/-! ### Records -/

/-- The type has records again, which says nothing of the record. -/
theorem effects_reopened :
    Effects env F w t body d [.reopened] s s ∧ NotHandedOver [.reopened] := by
  have hsilent : Silent .reopened := trivial
  refine ⟨Effects.refl.silent hsilent, fun accepted hmem => ?_⟩
  cases List.mem_singleton.mp hmem

/-- A delivery that is no marker is a record. -/
theorem OfKind.record {kind : MarkerOrder.Kind} (h : OfKind w t body kind)
    (hmarker : ¬Handler.IsMarker body) : ∃ valid, kind = .record valid := by
  cases kind with
  | record valid => exact ⟨valid, rfl⟩
  | fileComplete => exact absurd (Or.inl h) hmarker
  | extractionComplete => exact absurd (Or.inr h) hmarker

/-- A record that no retry can help is rejected. -/
theorem reject_ends (hkind : d.kind = .record false)
    (hready : (s.queues t).status d = .queued ∨
      (s.queues t).status d = .returned ∧ d ∈ (s.queues t).handedOut)
    (heffects : Effects env F w t body d trace s s) (hkept : NotHandedOver trace)
    (hnone : taken trace = none) :
    Ensures (Handler.settle w .reject) trace (fun _ => Ends env F w t body d s)
      fun _ => Fails env F w t body d s := by
  have hrecord : d.kind ≠ .extractionComplete := by simp [hkind]
  have hpending : pending d = .backoff := pending_record hkind
  obtain ⟨s₁, hs₁, hquiet₁, hstatus₁⟩ := Comes.handOut env F hrecord hready true
  obtain ⟨s₂, hs₂, hquiet₂, hstatus₂⟩ := Comes.handOut env F hrecord hready false
  rw [hkind] at hstatus₁ hstatus₂
  exact settle_ends heffects hkept hnone ⟨s₁, hs₁, hquiet₁, hstatus₁⟩
    ⟨s₂, hs₂, hquiet₂, hstatus₂.trans hpending.symm⟩

/-- The batch engine takes a record, or `add_message` rejects it or raises. -/
theorem handOver_ends {data : List (String × PyValue)} {valid : Bool} (h : Meets F w t body d s)
    (hmode : (s.queues t).batchMode = true) (hbody : body = some (.obj data))
    (hkind : d.kind = .record valid) :
    Ensures (outcome w.accept >>= fun accepted => record (.handedOver accepted)) [.reopened]
      (fun _ => Ends env F w t body d s) fun _ => Fails env F w t body d s := by
  have hrecord : d.kind ≠ .extractionComplete := by simp [hkind]
  have hpending : pending d = .backoff := pending_record hkind
  have haccept : ∀ accepted, w.accept = .ok accepted → accepted = valid := by
    have hof := h.kind
    simp only [hkind, hbody, OfKind, h.batchMode, hmode] at hof
    exact hof.2
  obtain ⟨hreopened, hnot⟩ : Effects env F w t body d [.reopened] s s ∧ _ := effects_reopened
  rw [ensures_bind]
  cases hanswer : w.accept with
  | ok accepted =>
    obtain rfl := haccept accepted hanswer
    obtain ⟨s₁, hs₁, hquiet, hstatus⟩ := Comes.handOut env F hrecord h.ready true
    rw [hkind, hmode] at hstatus
    refine ⟨s₁, hs₁.steps, (hreopened.quiet hquiet).silent trivial,
      fun call hcall => ?_, fun _ hkept => ?_, fun accepted' hmem => ?_⟩
    · cases hcall
    · exact absurd (List.mem_append_right _ (List.mem_singleton_self _)) (hkept accepted)
    · obtain rfl : accepted' = accepted := by simpa using hmem
      rw [hstatus]
      cases accepted' <;> rfl
  | error failure =>
    cases valid with
    | false =>
      -- The rejection of `add_message` raises.
      obtain ⟨s₁, hs₁, hquiet, hstatus⟩ := Comes.handOut env F hrecord h.ready false
      rw [hkind] at hstatus
      exact ⟨s₁, hs₁, hreopened.quiet hquiet, hnot,
        Or.inr ⟨rfl, hstatus.trans hpending.symm⟩⟩
    | true =>
      obtain ⟨s₁, hs₁, hquiet, hstatus⟩ := Comes.handOut env F hrecord h.ready true
      rw [hkind, hmode] at hstatus
      obtain ⟨s₂, hs₂, hquiet₂, hstatus₂⟩ := hs₁.delivery (b := .engineSettles d .raise) hrecord
        rfl (by rintro ⟨⟩) hstatus
      exact ⟨s₂, hs₂, (hreopened.quiet hquiet).quiet hquiet₂, hnot,
        Or.inr ⟨rfl, hstatus₂.trans hpending.symm⟩⟩

/-- The transaction of a record commits. -/
theorem Comes.write (h : Comes env F t d s s') (hkind : d.kind = .record true)
    (hmode : (s.queues t).batchMode = false) :
    ∃ s'', Comes env F t d s s'' ∧ s''.queues = s'.queues ∧ s''.latch = s'.latch ∧
      s''.past = s'.past ++ [.transaction (.single t (F.body t d))] ∧
        s''.graph = (Transaction.single t (F.body t d)).run env s'.graph := by
  have hqueue : FromQueue F (s'.queues t) (.single t (F.body t d)) :=
    ⟨h.mode.trans hmode, d, h.handedOut, hkind, rfl⟩
  refine ⟨_, ⟨h.steps.tail ⟨.write (.single t (F.body t d)), rfl, if_pos hqueue⟩, h.mode,
    h.handedOut, h.others, h.place⟩, rfl, rfl, rfl, rfl⟩

/-- The transaction of a record has committed. -/
theorem effects_written {data fields : List (String × PyValue)} {updated : Bool}
    (hquiet : Quiet s s') (hbody : body = some (.obj data))
    (hnormalize : w.normalize t data = .ok fields) (hlatch : s''.latch = s'.latch)
    (hpast : s''.past = s'.past ++ [.transaction (.single t (.obj fields))])
    (hgraph : s''.graph = (Transaction.single t (.obj fields)).run env s'.graph) :
    Effects env F w t body d [.reopened, .written updated] s s'' := by
  refine ⟨fun _ _ => ⟨data, fields, hbody, hnormalize, ?_, ?_⟩, fun hnone => ?_, fun hmem => ?_,
    fun _ hmem => ?_, fun _ => ?_, ?_⟩
  · rw [hpast, hquiet.catalog.1]
  · rw [hgraph, hquiet.catalog.2]
  · exact absurd (by simp) (hnone updated)
  · simp at hmem
  · simp at hmem
  · rw [hlatch, hquiet.task]
  · rw [hlatch, hquiet.lock]

/-- A record is acked after its transaction. -/
theorem write_ends {data fields : List (String × PyValue)} (h : Meets F w t body d s)
    (hmode : (s.queues t).batchMode = false) (hbody : body = some (.obj data))
    (hnormalize : w.normalize t data = .ok fields) (hkind : d.kind = .record true) :
    Ensures (outcome w.transaction >>= fun updated => record (.written updated) >>= fun _ =>
      Handler.settle w .ack) [.reopened] (fun _ => Ends env F w t body d s)
      fun _ => Fails env F w t body d s := by
  have hrecord : d.kind ≠ .extractionComplete := by simp [hkind]
  have hpending : pending d = .backoff := pending_record hkind
  have hisRecord : d.isRecord = true := by simp [MarkerOrder.Delivery.isRecord, hkind]
  have hbodyOf : F.body t d = .obj fields := h.normalized hisRecord data fields hbody hnormalize
  obtain ⟨hstart, hnot⟩ : Effects env F w t body d [.reopened] s s ∧ _ := effects_reopened
  obtain ⟨s₁, hs₁, hquiet₁, hstatus₁⟩ := Comes.handOut env F hrecord h.ready true
  rw [hkind, hmode] at hstatus₁
  rw [ensures_bind]
  cases w.transaction with
  | error failure =>
    obtain ⟨s₂, hs₂, hquiet₂, hstatus₂⟩ := hs₁.delivery (b := .written d false) hrecord rfl
      (by rintro ⟨⟩) hstatus₁
    exact ⟨s₂, hs₂, (hstart.quiet hquiet₁).quiet hquiet₂, hnot,
      Or.inr ⟨rfl, hstatus₂.trans hpending.symm⟩⟩
  | ok updated =>
    obtain ⟨s₂, hs₂, hqueues, hlatch, hpast, hgraph⟩ := hs₁.write hkind hmode
    have hwriting : (s₂.queues t).status d = .writing := by
      rw [hqueues]
      exact hstatus₁
    have hmem : (t, F.body t d) ∈ s₂.messages := by
      rw [State.messages, hpast, List.flatMap_append]
      exact List.mem_append_right _
        (by simp [Delivery.messages, Transaction.records, Transaction.queue])
    rw [hbodyOf] at hpast hgraph
    have heffects : Effects env F w t body d [.reopened, .written updated] s s₂ :=
      effects_written hquiet₁ hbody hnormalize hlatch hpast hgraph
    obtain ⟨s₃, hs₃, hquiet₃, hstatus₃⟩ := hs₂.delivery (b := .written d true) hrecord rfl
      (fun _ => hmem) hwriting
    obtain ⟨s₄, hs₄, hquiet₄, hstatus₄⟩ := hs₂.delivery (b := .written d false) hrecord rfl
      (by rintro ⟨⟩) hwriting
    exact settle_ends heffects (hnot.append (by rintro _ ⟨⟩)) rfl ⟨s₃, hs₃, hquiet₃, hstatus₃⟩
      ⟨s₄, hs₄, hquiet₄, hstatus₄.trans hpending.symm⟩

/-- **A record** is handed over, rejected, or written and acked. -/
theorem handleRecord_ends {data : List (String × PyValue)} (h : Meets F w t body d s)
    (hbody : body = some (.obj data)) (hmarker : ¬Handler.IsMarker body) :
    Ensures (Handler.handleRecord w t data) [] (fun _ => Ends env F w t body d s)
      fun _ => Fails env F w t body d s := by
  obtain ⟨valid, hkind⟩ := h.kind.record hmarker
  obtain ⟨hreopened, hnot⟩ : Effects env F w t body d [.reopened] s s ∧ _ := effects_reopened
  unfold Handler.handleRecord
  rw [ensures_bind, ensures_record, h.batchMode, h.processor, Bool.and_self]
  cases hmode : (s.queues t).batchMode with
  | true => exact handOver_ends h hmode hbody hkind
  | false =>
    rw [if_neg Bool.false_ne_true]
    have hvalid : valid = false ↔ Handler.Rejected w t body := by
      have hof := h.kind
      simp only [hkind, hbody, OfKind, h.batchMode, hmode] at hof
      rw [hbody]
      exact hof.2
    have hreject : valid = false → Ensures (Handler.settle w .reject) [.reopened]
        (fun _ => Ends env F w t body d s) fun _ => Fails env F w t body d s := by
      rintro rfl
      exact reject_ends hkind h.ready hreopened hnot rfl
    cases hnormalize : w.normalize t data with
    | error failure =>
      refine hreject (hvalid.mpr ⟨hmarker, ?_⟩)
      simp [hbody, hnormalize]
    | ok fields =>
      cases hid : ((PyValue.field? fields "id").getD .null).truthy with
      | false =>
        simp only [hid, Bool.not_false, if_true]
        refine hreject (hvalid.mpr ⟨hmarker, ?_⟩)
        simp [hbody, hnormalize, hid]
      | true =>
        have hkept : valid = true := by
          by_contra hinvalid
          obtain ⟨-, hrejected⟩ := hvalid.mp (Bool.not_eq_true _ ▸ hinvalid)
          simp [hbody, hnormalize, hid] at hrejected
        simp only [hid, h.driver, Bool.not_true, Bool.false_eq_true, if_false]
        exact write_ends h hmode hbody hnormalize (hkept ▸ hkind)

/-! ### `extraction_complete` -/

/-- The handler of an `extraction_complete` stands at `pc`, and has left the latch as it was. -/
structure Inside (env : Env) (F : Feed) (t : DataType) (d : MarkerOrder.Delivery) (pc : Latch.Pc)
    (s s' : State) : Prop extends Comes env F t d s s' where
  catalog : s'.past = s.past ∧ s'.graph = s.graph
  store : s'.latch.store = s.latch.store
  version : s'.latch.extractionCompleteVersion = s.latch.extractionCompleteVersion
  signals : s'.latch.extractionCompleteSignals = s.latch.extractionCompleteSignals
  task : s'.latch.postImportMaintenanceTask = s.latch.postImportMaintenanceTask
  status : s'.latch.status (signalOf F t d) = .handling pc

theorem Inside.quiet {pc : Latch.Pc} (h : Inside env F t d pc s s')
    (hlock : s'.latch.extractionLatchLock = s.latch.extractionLatchLock) : Quiet s s' :=
  ⟨h.catalog, h.store, h.version, h.signals, h.task, hlock⟩

/-- The handler goes on with a step that only moves it, and the lock. -/
theorem Inside.step {pc : Latch.Pc} (h : Inside env F t d pc s s') (pc' : Latch.Pc)
    {a : Latch.Action}
    (hkind : d.kind = .extractionComplete) (hm : a.signal? = some (signalOf F t d))
    {holder : Option Latch.Signal} (hl : Latch.step s'.latch a =
      some ((s'.latch.setLock holder).put (signalOf F t d) (.handling pc')))
    (hflush : ∀ ok, a = .flushed (signalOf F t d) ok →
      ((s.queues t).batchMode = false → ok = true) ∧ ((s.queues t).batchMode = true → ok = true →
        ∀ d' ∈ (s.queues t).handedOut, (s.queues t).status d' ≠ .submitted)) :
    ∃ s'', Inside env F t d pc' s s'' ∧ s''.latch.extractionLatchLock = holder := by
  obtain ⟨s'', hs, hlatch, hcatalog, -⟩ := h.toComes.signal hkind hm hl hflush
  refine ⟨s'', ⟨hs, ?_, ?_, ?_, ?_, ?_, ?_⟩, ?_⟩
  · rw [hcatalog.1, hcatalog.2]
    exact h.catalog
  · rw [hlatch]
    exact h.store
  · rw [hlatch]
    exact h.version
  · rw [hlatch]
    exact h.signals
  · rw [hlatch]
    exact h.task
  · rw [hlatch, Latch.put_status_self]
  · rw [hlatch]
    rfl

theorem setLock_eq_self {l : Latch.State} {holder : Option Latch.Signal}
    (h : l.extractionLatchLock = holder) : l.setLock holder = l := by
  subst h
  rfl

/-- The trace before the signal is recorded. -/
theorem effects_drainTrace (h : Quiet s s') (trace : List Event)
    (htrace : trace = [] ∨ trace = Handler.drainTrace w) :
    Effects env F w t body d trace s s' ∧ NotHandedOver trace ∧ taken trace = none := by
  have hnil : Effects env F w t body d [] s s' := Effects.refl.quiet h
  have hnot : NotHandedOver [] := fun accepted hmem => List.not_mem_nil hmem
  have hdrained : Effects env F w t body d [.drained] s s' := hnil.silent trivial
  rcases htrace with rfl | rfl
  · exact ⟨hnil, hnot, rfl⟩
  · unfold Handler.drainTrace
    split_ifs
    · exact ⟨hdrained, hnot.append (by rintro _ ⟨⟩), rfl⟩
    · exact ⟨hnil, hnot, rfl⟩

/-- The handler of an `extraction_complete` is about to return it to the broker. -/
theorem Inside.holds (h : Inside env F t d .requeueing s s') (hkind : d.kind = .extractionComplete)
    (hlock : s'.latch.extractionLatchLock = s.latch.extractionLatchLock)
    (htrace : trace = [] ∨ trace = Handler.drainTrace w) :
    Holds env F w t body d trace (pending d) s s' := by
  obtain ⟨heffects, hkept, hnone⟩ := effects_drainTrace (h.quiet hlock) trace htrace
  exact ⟨h.toComes, heffects, hkept, hnone, h.toComes.waits hkind h.status⟩

variable (env) in
/-- The handler of an `extraction_complete` drains its queue. -/
theorem drain_inside (h : Meets F w t body d s) (hl : MeetsLatch F w t body d s)
    (hkind : d.kind = .extractionComplete) :
    Ensures (Handler.drain w) []
      (fun drained trace => trace = (if drained then Handler.drainTrace w else []) ∧
        ∃ s', Inside env F t d (if drained then .lockWait else .requeueing) s s' ∧
          s'.latch.extractionLatchLock = none)
      fun _ trace => trace = [] ∧ ∃ s', Inside env F t d .requeueing s s' ∧
        s'.latch.extractionLatchLock = none := by
  obtain ⟨s₁, hs₁, hcatalog, hstep⟩ := Comes.handOutSignal env hkind h.ready hl.ready
  simp only [Latch.step, if_pos hl.ready] at hstep
  have hlatch := Option.some.inj hstep
  have hstart : Inside env F t d .flushing s s₁ := by
    refine ⟨hs₁, hcatalog, ?_, ?_, ?_, ?_, ?_⟩ <;> rw [← hlatch]
    · rfl
    · rfl
    · rfl
    · rfl
    · exact Latch.put_status_self _ _
  have hunlocked : s₁.latch.extractionLatchLock = none := by
    rw [← hlatch]
    exact hl.unlocked
  have hflushed (ok : Bool) (hmode : (s.queues t).batchMode = false → ok = true)
      (hpromise : (s.queues t).batchMode = true → ok = true → w.flush = .ok true) :
      ∃ s₂, Inside env F t d (if ok then .lockWait else .requeueing) s s₂ ∧
        s₂.latch.extractionLatchLock = none := by
    refine hstart.step _ (a := .flushed (signalOf F t d) ok) hkind rfl ?_ fun ok' hok => ?_
    · rw [setLock_eq_self hunlocked]
      exact if_pos hstart.status
    · cases hok
      exact ⟨hmode, fun hbatch htrue => h.flush (hpromise hbatch htrue)⟩
  unfold Handler.drain Handler.drainTrace
  rw [h.processor]
  cases hmode : (s.queues t).batchMode with
  | false => exact ⟨rfl, hflushed true (fun _ => rfl) fun hbatch => by simp [hmode] at hbatch⟩
  | true =>
    have hbatch : (s.queues t).batchMode ≠ false := by simp [hmode]
    simp only [if_true, ensures_bind]
    cases hflush : w.flush with
    | error failure =>
      exact ⟨rfl, hflushed false (fun hfalse => absurd hfalse hbatch) (by rintro _ ⟨⟩)⟩
    | ok drained =>
      cases drained with
      | true => exact ⟨rfl, hflushed true (fun _ => rfl) fun _ _ => hflush⟩
      | false => exact ⟨rfl, hflushed false (fun hfalse => absurd hfalse hbatch) (by rintro _ ⟨⟩)⟩

/-- A persist leaves the maintenance state alone. -/
theorem isExtractionMaintained_persist_eq (store : CompletionStore) (now : ℕ) (version : String)
    (signals : Finset DataType) :
    (store.persistExtractionSignals now version signals).isExtractionMaintained version =
      store.isExtractionMaintained version := by
  unfold CompletionStore.persistExtractionSignals CompletionStore.isExtractionMaintained
  split_ifs
  · rw [List.any_map]
    congr 1
    funext m
    by_cases hm : m.version = version <;> simp [hm, CompletionStore.setSignals]
  · simp [CompletionStore.setSignals]

/-- The handler of an `extraction_complete` has stored its signal and published the candidate. -/
structure Published (env : Env) (F : Feed) (t : DataType) (d : MarkerOrder.Delivery)
    (candidate : Finset DataType) (s s' : State) : Prop extends Comes env F t d s s' where
  catalog : s'.past = s.past ∧ s'.graph = s.graph
  task : s'.latch.postImportMaintenanceTask = s.latch.postImportMaintenanceTask
  lock : s'.latch.extractionLatchLock = none
  version : s'.latch.extractionCompleteVersion = some (signalOf F t d).version
  signals : s'.latch.extractionCompleteSignals = candidate
  mem : t ∈ candidate
  stored : t ∈ s'.latch.stored (signalOf F t d).version
  maintained : s'.latch.store.isExtractionMaintained (signalOf F t d).version =
    s.latch.store.isExtractionMaintained (signalOf F t d).version
  status : s'.latch.status (signalOf F t d) =
    .handling (if allDataTypes ⊆ candidate then .checking else .acking false)

/-- A persist that commits and returns. -/
theorem Inside.publish {candidate : Finset DataType}
    (h : Inside env F t d (.persisting candidate false) s s')
    (hkind : d.kind = .extractionComplete) (hmem : t ∈ candidate) :
    ∃ s'', Published env F t d candidate s s'' := by
  have hcommit : Latch.step s'.latch (.commit (signalOf F t d) 0) =
      some ((s'.latch.commitSignals (signalOf F t d) 0 candidate).put (signalOf F t d)
        (.handling (.persisting candidate true))) := by
    simp only [Latch.step, h.status]
  obtain ⟨s₁, hs₁, hlatch₁, hcatalog₁, -⟩ := h.toComes.signal hkind rfl hcommit (by rintro _ ⟨⟩)
  have hpersisting : s₁.latch.status (signalOf F t d) = .handling (.persisting candidate true) := by
    rw [hlatch₁, Latch.put_status_self]
  have hpersisted : Latch.step s₁.latch (.persisted (signalOf F t d) true) =
      some (((s₁.latch.setCache (signalOf F t d).version candidate).setLock none).put
        (signalOf F t d)
        (.handling (if allDataTypes ⊆ candidate then .checking else .acking false))) := by
    simp only [Latch.step, hpersisting, if_true]
  obtain ⟨s₂, hs₂, hlatch₂, hcatalog₂, -⟩ := hs₁.signal hkind rfl hpersisted (by rintro _ ⟨⟩)
  have hstore : s₂.latch.store =
      s.latch.store.persistExtractionSignals 0 (signalOf F t d).version candidate := by
    rw [hlatch₂, ← h.store]
    change s₁.latch.store = _
    rw [hlatch₁]
    rfl
  refine ⟨s₂, hs₂, ?_, ?_, ?_, ?_, ?_, hmem, ?_, ?_, ?_⟩
  · rw [hcatalog₂.1, hcatalog₂.2, hcatalog₁.1, hcatalog₁.2]
    exact h.catalog
  · rw [hlatch₂]
    change s₁.latch.postImportMaintenanceTask = _
    rw [hlatch₁]
    exact h.task
  · rw [hlatch₂]
    rfl
  · rw [hlatch₂]
    rfl
  · rw [hlatch₂]
    rfl
  · rw [Latch.State.stored, hstore, CompletionStore.loadExtractionSignals_persist]
    exact Finset.mem_union_right _ hmem
  · rw [hstore, isExtractionMaintained_persist_eq]
  · rw [hlatch₂, Latch.put_status_self]

/-- The handler of an `extraction_complete` records its signal. -/
theorem record_inside (h : Meets F w t body d s) (hl : MeetsLatch F w t body d s)
    (hkind : d.kind = .extractionComplete) (hs : Inside env F t d .lockWait s s')
    (hunlocked : s'.latch.extractionLatchLock = none) :
    Ensures (Handler.recordExtractionSignal w t (signalOf F t d).version) trace
      (fun candidate trace' => trace' = trace ++ [.latched] ∧
        ∃ s'', Published env F t d candidate s s'')
      fun _ trace' => trace' = trace ∧ ∃ s'', Inside env F t d .requeueing s s'' ∧
        s''.latch.extractionLatchLock = none := by
  have hpersist (persisted : Finset DataType) {s₂ : State}
      (h₂ : Inside env F t d (.persisting (insert t persisted) false) s s₂) :
      Ensures (Handler.persistExtractionSignals w >>= fun _ =>
        record .latched >>= fun _ => pure (insert t persisted)) trace
        (fun candidate trace' => trace' = trace ++ [.latched] ∧
          ∃ s'', Published env F t d candidate s s'')
        fun _ trace' => trace' = trace ∧ ∃ s'', Inside env F t d .requeueing s s'' ∧
          s''.latch.extractionLatchLock = none := by
    unfold Handler.persistExtractionSignals
    rw [ensures_bind, if_pos h.driver]
    cases w.persist with
    | ok => exact ⟨rfl, h₂.publish hkind (Finset.mem_insert_self _ _)⟩
    | error failure =>
      refine ⟨rfl, h₂.step _ (a := .persisted (signalOf F t d) false) hkind rfl ?_ (by rintro _ ⟨⟩)⟩
      simp only [Latch.step, h₂.status, Bool.false_eq_true, if_false]
  have hacquire : Latch.step s'.latch (.acquire (signalOf F t d)) = _ :=
    if_pos ⟨hs.status, hunlocked⟩
  unfold Handler.recordExtractionSignal
  rw [ensures_bind, hl.latchVersion, hl.latchSignals]
  rw [hs.version, hs.signals] at hacquire
  split_ifs with hcached
  · rw [if_pos hcached] at hacquire
    obtain ⟨s₁, h₁, -⟩ := hs.step (.persisting (insert t s.latch.extractionCompleteSignals)
      false) hkind rfl hacquire (by rintro _ ⟨⟩)
    exact hpersist _ h₁
  · rw [if_neg hcached] at hacquire
    obtain ⟨s₁, h₁, -⟩ := hs.step .loading hkind rfl hacquire (by rintro _ ⟨⟩)
    unfold Handler.loadExtractionSignals
    rw [if_pos h.driver]
    cases hload : w.load with
    | ok signals =>
      obtain rfl := hl.load signals hload
      have hloaded : Latch.step s₁.latch (.loaded (signalOf F t d) true) =
          some ((s₁.latch.setLock s₁.latch.extractionLatchLock).put (signalOf F t d)
            (.handling
              (.persisting (insert t (s.latch.stored (signalOf F t d).version)) false))) := by
        rw [setLock_eq_self rfl, Latch.State.stored, ← h₁.store]
        exact if_pos h₁.status
      obtain ⟨s₂, h₂, -⟩ := h₁.step _ hkind rfl hloaded (by rintro _ ⟨⟩)
      exact hpersist _ h₂
    | error failure =>
      exact ⟨rfl, h₁.step _ (a := .loaded (signalOf F t d) false) hkind rfl (if_pos h₁.status)
        (by rintro _ ⟨⟩)⟩

/-- What is left to do once the signal is recorded. -/
structure Recorded (env : Env) (F : Feed) (w : World) (t : DataType) (body : Option PyValue)
    (d : MarkerOrder.Delivery) (trace : List Event) (pc : Latch.Pc) (s s' : State) : Prop
    extends Comes env F t d s s', Effects env F w t body d trace s s' where
  kept : NotHandedOver trace
  unsettled : taken trace = none
  idleTrace : ∀ version, .maintenance version ∉ trace
  status : s'.latch.status (signalOf F t d) = .handling pc

theorem Published.recorded {candidate : Finset DataType}
    (h : Published env F t d candidate s s') (hlock : s.latch.extractionLatchLock = none) :
    Recorded env F w t body d
      (Handler.drainTrace w ++ [.latched] ++ [.completed] ++ [.signalled])
      (if allDataTypes ⊆ candidate then .checking else .acking false) s s' := by
  have hmem {event : Event} (h : event ∈ Handler.drainTrace w ++ [.latched]) :
      event = .drained ∨ event = .latched := by
    unfold Handler.drainTrace at h
    split_ifs at h <;> simp at h <;> tauto
  have heffects : Effects env F w t body d (Handler.drainTrace w ++ [.latched]) s s' := by
    refine ⟨fun updated hw => ?_, fun _ => h.catalog, fun _ => ⟨h.stored, h.version, ?_⟩,
      fun version hm => ?_, fun _ => h.task, h.lock.trans hlock.symm⟩
    · rcases hmem hw with hw | hw <;> cases hw
    · rw [h.signals]
      exact h.mem
    · rcases hmem hm with hm | hm <;> cases hm
  have hkept : NotHandedOver (Handler.drainTrace w ++ [.latched]) := by
    intro accepted hm
    rcases hmem hm with hm | hm <;> cases hm
  have hcompleted : Silent .completed := trivial
  have hsignalled : Silent .signalled := trivial
  refine ⟨h.toComes, (heffects.silent hcompleted).silent hsignalled,
    (hkept.append (by rintro _ ⟨⟩)).append (by rintro _ ⟨⟩), ?_, fun version hm => ?_, h.status⟩
  · rw [Handler.taken_record rfl, Handler.taken_record rfl, Handler.taken_record rfl, taken,
      Handler.calls_drainTrace]
    rfl
  · rw [mem_append_silent hsignalled id, mem_append_silent hcompleted id] at hm
    rcases hmem hm with hm | hm <;> cases hm

/-- A step that only moves the handler. -/
theorem Recorded.step {pc pc' : Latch.Pc} (h : Recorded env F w t body d trace pc s s')
    {a : Latch.Action} (hkind : d.kind = .extractionComplete)
    (hm : a.signal? = some (signalOf F t d))
    (hl : Latch.step s'.latch a = some (s'.latch.put (signalOf F t d) (.handling pc')))
    (hflush : ∀ ok, a ≠ .flushed (signalOf F t d) ok) :
    ∃ s'', Recorded env F w t body d trace pc' s s'' := by
  obtain ⟨s'', hs, hlatch, hcatalog, -⟩ := h.toComes.signal hkind hm hl
    fun ok hok => absurd hok (hflush ok)
  refine ⟨s'', hs, h.toEffects.quiet (.put hcatalog hlatch), h.kept, h.unsettled, h.idleTrace, ?_⟩
  rw [hlatch, Latch.put_status_self]

/-- The ack of an `extraction_complete` that does not take effect. -/
theorem Recorded.ackLost {starts : Bool} (h : Recorded env F w t body d trace (.acking starts) s s')
    (hkind : d.kind = .extractionComplete) :
    ∃ s'', Comes env F t d s s'' ∧ Quiet s' s'' ∧ (s''.queues t).status d = pending d := by
  have hl : Latch.step s'.latch (.ackRaises (signalOf F t d)) =
      some (s'.latch.put (signalOf F t d) (.handling .requeueing)) := by
    simp only [Latch.step, h.status]
  obtain ⟨s'', hs, hlatch, hcatalog, -⟩ := h.toComes.signal hkind rfl hl (by rintro _ ⟨⟩)
  refine ⟨s'', hs, .put hcatalog hlatch, hs.waits hkind ?_⟩
  rw [hlatch, Latch.put_status_self]

/-- The ack of an `extraction_complete` takes effect. -/
theorem Recorded.ackSettles {starts : Bool}
    (h : Recorded env F w t body d trace (.acking starts) s s')
    (hkind : d.kind = .extractionComplete) :
    ∃ s'', Comes env F t d s s'' ∧ Quiet s' s'' ∧ (s''.queues t).status d = .acked ∧
      s''.latch.status (signalOf F t d) = .acked (some starts) := by
  have hl : Latch.step s'.latch (.ackSettles (signalOf F t d)) =
      some (s'.latch.put (signalOf F t d) (.acked (some starts))) := by
    simp only [Latch.step, h.status]
  obtain ⟨s'', hs, hlatch, hcatalog, -⟩ := h.toComes.signal hkind rfl hl (by rintro _ ⟨⟩)
  have hstatus : s''.latch.status (signalOf F t d) = .acked (some starts) := by
    rw [hlatch, Latch.put_status_self]
  refine ⟨s'', hs, .put hcatalog hlatch, ?_, hstatus⟩
  have hplace := hs.place hkind
  rwa [hstatus] at hplace

/-- The ack of an `extraction_complete` that starts nothing. -/
theorem Recorded.ack (h : Recorded env F w t body d trace (.acking false) s s')
    (hkind : d.kind = .extractionComplete) :
    Ensures (Handler.settle w .ack) trace (fun _ => Ends env F w t body d s)
      fun _ => Fails env F w t body d s := by
  obtain ⟨s₁, hs₁, hquiet₁, hstatus₁, -⟩ := h.ackSettles hkind
  exact settle_ends h.toEffects h.kept h.unsettled ⟨s₁, hs₁, hquiet₁, hstatus₁⟩ (h.ackLost hkind)

/-- The start of a pass moves the slot alone. -/
theorem startPostImportMaintenance_eq_setTask (l : Latch.State) (version : String) :
    l.startPostImportMaintenance version =
      l.setTask (l.startPostImportMaintenance version).postImportMaintenanceTask := by
  unfold Latch.State.startPostImportMaintenance
  split <;> rfl

theorem startPostImportMaintenance_congr {l l' : Latch.State} (version : String)
    (h : l.postImportMaintenanceTask = l'.postImportMaintenanceTask) :
    (l.startPostImportMaintenance version).postImportMaintenanceTask =
      (l'.startPostImportMaintenance version).postImportMaintenanceTask := by
  unfold Latch.State.startPostImportMaintenance
  rw [h]
  cases l'.postImportMaintenanceTask with
  | none => rfl
  | some pass => exact h

/-- The handler starts the maintenance. -/
theorem Effects.starts (h : Effects env F w t body d trace s s')
    (hidle : ∀ version, .maintenance version ∉ trace)
    (hcatalog : s''.past = s'.past ∧ s''.graph = s'.graph) {st : Latch.Status}
    (hlatch : s''.latch = (s'.latch.put (signalOf F t d) st).startPostImportMaintenance
      (signalOf F t d).version) :
    Effects env F w t body d (trace ++ [.maintenance (signalOf F t d).version]) s s'' := by
  have htask := hlatch
  rw [startPostImportMaintenance_eq_setTask] at hlatch
  have hmem {event : Event} (hevent : ∀ version, event ≠ .maintenance version)
      (hm : event ∈ trace ++ [.maintenance (signalOf F t d).version]) : event ∈ trace :=
    (List.mem_append.mp hm).resolve_right fun hlast => hevent _ (List.mem_singleton.mp hlast)
  refine ⟨fun updated hm => ?_, fun hnot => ?_, fun hm => ?_, fun version hm => ?_, fun hnot => ?_,
    ?_⟩
  · rw [hcatalog.1, hcatalog.2]
    exact h.written updated (hmem (by rintro _ ⟨⟩) hm)
  · rw [hcatalog.1, hcatalog.2]
    exact h.unwritten fun updated hm => hnot updated (List.mem_append_left _ hm)
  · rw [hlatch]
    exact h.latched (hmem (by rintro _ ⟨⟩) hm)
  · rcases List.mem_append.mp hm with hm | hm
    · exact absurd hm (hidle version)
    · obtain rfl : version = (signalOf F t d).version := by simpa using hm
      refine ⟨rfl, ?_⟩
      rw [htask]
      exact startPostImportMaintenance_congr _ (h.idle hidle)
  · exact absurd (List.mem_append_right _ (List.mem_singleton_self _)) (hnot _)
  · rw [hlatch]
    exact h.unlocked

/-- The ack of an `extraction_complete` that starts the maintenance. -/
theorem Recorded.ackStarts (h : Recorded env F w t body d trace (.acking true) s s')
    (hkind : d.kind = .extractionComplete) :
    Ensures (Handler.settle w .ack >>= fun _ =>
      record (.maintenance (signalOf F t d).version)) trace (fun _ => Ends env F w t body d s)
      fun _ => Fails env F w t body d s := by
  obtain ⟨s₁, hs₁, hquiet₁, hacked₁, hst₁⟩ := h.ackSettles hkind
  have hkept (result : Handler.CallResult) : NotHandedOver (trace ++ [.settled .ack result]) :=
    h.kept.append (by rintro _ ⟨⟩)
  have htaken {result : Handler.CallResult} (hreached : result.reached = true) :
      taken (trace ++ [.settled .ack result]) = some .ack := by
    rw [Handler.taken_settled, h.unsettled, hreached]
    rfl
  rw [ensures_bind]
  refine Handler.ensures_settle ?_ fun failure reached => ?_
  · -- The handler resumes from its ack and starts the maintenance.
    have hl : Latch.step s₁.latch (.ackReturns (signalOf F t d)) =
        some ((s₁.latch.put (signalOf F t d) (.acked none)).startPostImportMaintenance
          (signalOf F t d).version) := by
      simp only [Latch.step, hst₁, if_true]
    obtain ⟨s₂, hs₂, hlatch₂, hcatalog₂, -⟩ := hs₁.signal hkind rfl hl (by rintro _ ⟨⟩)
    have hsettled : Effects env F w t body d (trace ++ [.settled .ack .returned]) s s₁ :=
      (h.toEffects.quiet hquiet₁).silent trivial
    have hidle : ∀ version, .maintenance version ∉ trace ++ [.settled .ack .returned] := by
      intro version hm
      have hsilent : Silent (.settled .ack .returned) := trivial
      exact h.idleTrace version ((mem_append_silent hsilent id).mp hm)
    have hacked₂ : (s₂.queues t).status d = .acked := by
      have hplace := hs₂.place hkind
      rw [hlatch₂, startPostImportMaintenance_eq_setTask] at hplace
      change Place _ ((s₁.latch.put (signalOf F t d) _).status _) _ at hplace
      rwa [Latch.put_status_self] at hplace
    have hlast : taken (trace ++ [.settled .ack .returned] ++
        [.maintenance (signalOf F t d).version]) = some .ack :=
      (Handler.taken_record rfl).trans (htaken rfl)
    refine ⟨s₂, hs₂.steps, hsettled.starts hidle hcatalog₂ hlatch₂, fun call hcall => ?_,
      fun hnone => ?_, fun accepted hm => ?_⟩
    · obtain rfl := Option.some.inj (hlast.symm.trans hcall)
      exact hacked₂
    · rw [hlast] at hnone
      cases hnone
    · exact absurd hm ((hkept .returned).append (by rintro _ ⟨⟩) accepted)
  · cases reached with
    | true =>
      exact ⟨s₁, hs₁, (h.toEffects.quiet hquiet₁).silent trivial, hkept _,
        Or.inl ⟨.ack, htaken rfl, hacked₁⟩⟩
    | false =>
      obtain ⟨s₂, hs₂, hquiet₂, hstatus₂⟩ := h.ackLost hkind
      refine ⟨s₂, hs₂, (h.toEffects.quiet hquiet₂).silent trivial, hkept _, Or.inr ⟨?_, hstatus₂⟩⟩
      rw [Handler.taken_settled, h.unsettled]
      rfl

/-- A landed `extraction_complete` is acked, and the maintenance of its version starts if it is not
maintained. -/
theorem allComplete_ends (h : Meets F w t body d s) (hl : MeetsLatch F w t body d s)
    (hkind : d.kind = .extractionComplete)
    (hs : Recorded env F w t body d trace .checking s s')
    (hmaintained : s'.latch.store.isExtractionMaintained (signalOf F t d).version =
      s.latch.store.isExtractionMaintained (signalOf F t d).version) :
    Ensures (Handler.allComplete w (signalOf F t d).version) trace
      (fun _ => Ends env F w t body d s) fun _ => Fails env F w t body d s := by
  have hread (ok : Bool) : Latch.step s'.latch (.maintenanceRead (signalOf F t d) ok) = _ :=
    if_pos hs.status
  unfold Handler.allComplete Handler.isExtractionMaintained
  rw [ensures_bind, ensures_observing, if_pos h.driver]
  cases hanswer : w.maintained with
  | error failure =>
    obtain ⟨s₁, h₁⟩ := hs.step hkind rfl (hread false) (by rintro _ ⟨⟩)
    have hpending : Holds env F w t body d trace (pending d) s s₁ :=
      ⟨h₁.toComes, h₁.toEffects, h₁.kept, h₁.unsettled, h₁.toComes.waits hkind h₁.status⟩
    exact hpending.giveBack _
  | ok maintained =>
    have heq := hl.maintained maintained hanswer
    obtain ⟨s₁, h₁⟩ := hs.step hkind rfl (hread true) (by rintro _ ⟨⟩)
    rw [hmaintained, ← heq] at h₁
    cases maintained with
    | true => exact h₁.ack hkind
    | false => exact h₁.ackStarts hkind

/-- **An `extraction_complete`** is drained, recorded and settled. -/
theorem extractionComplete_ends (h : Meets F w t body d s) (hl : MeetsLatch F w t body d s)
    (hkind : d.kind = .extractionComplete) :
    Ensures (Handler.extractionComplete w t (signalOf F t d).version) []
      (fun _ => Ends env F w t body d s) fun _ => Fails env F w t body d s := by
  unfold Handler.extractionComplete
  rw [ensures_bind]
  refine (drain_inside env h hl hkind).mono (fun drained trace' => ?_) fun failure trace' => ?_
  · rintro ⟨rfl, s₁, h₁, hlock₁⟩
    cases drained with
    | false =>
      exact (h₁.holds hkind (hlock₁.trans hl.unlocked.symm) (Or.inl rfl)).giveBack _
    | true =>
      simp only [if_true, ensures_bind, ensures_observing]
      refine (record_inside h hl hkind h₁ hlock₁).mono (fun candidate trace₂ => ?_)
        fun failure trace₂ => ?_
      · rintro ⟨rfl, s₂, h₂⟩
        have hrecorded : Recorded env F w t body d _ _ s s₂ := h₂.recorded hl.unlocked
        simp only [ensures_record]
        split_ifs with hall
        · rw [if_pos hall] at hrecorded
          exact allComplete_ends h hl hkind hrecorded h₂.maintained
        · rw [if_neg hall] at hrecorded
          exact hrecorded.ack hkind
      · rintro ⟨rfl, s₂, h₂, hlock₂⟩
        exact (h₂.holds hkind (hlock₂.trans hl.unlocked.symm) (Or.inr rfl)).giveBack _
  · rintro ⟨rfl, s₁, h₁, hlock₁⟩
    exact (h₁.holds hkind (hlock₁.trans hl.unlocked.symm) (Or.inl rfl)).fails

/-! ### The handler -/

theorem OfKind.file {kind : MarkerOrder.Kind} (h : OfKind w t body kind)
    (hfile : Handler.IsFile body) : kind = .fileComplete := by
  cases kind with
  | record valid => exact absurd (Or.inl hfile) h.1
  | fileComplete => rfl
  | extractionComplete =>
    rw [OfKind, Handler.IsExtraction, hfile] at h
    simp at h

theorem OfKind.extraction {kind : MarkerOrder.Kind} (h : OfKind w t body kind)
    (hextraction : Handler.IsExtraction body) : kind = .extractionComplete := by
  cases kind with
  | record valid => exact absurd (Or.inr hextraction) h.1
  | fileComplete =>
    rw [OfKind, Handler.IsFile, hextraction] at h
    simp at h
  | extractionComplete => rfl

/-- A body that is no object is a record that no retry can help. -/
theorem OfKind.malformed {kind : MarkerOrder.Kind} (h : OfKind w t body kind)
    (hbody : ∀ data, body ≠ some (.obj data)) : kind = .record false := by
  have hmarker : ¬Handler.IsMarker body := by
    rcases body with _ | _ | _ | _ | _ | _ | _ | data
    case some.obj => exact absurd rfl (hbody data)
    all_goals simp [Handler.IsMarker, Handler.IsFile, Handler.IsExtraction, Handler.type?]
  have hrejected : Handler.Rejected w t body := by
    refine ⟨hmarker, ?_⟩
    split
    · next data => exact absurd rfl (hbody data)
    · trivial
  obtain ⟨valid, rfl⟩ := h.record hmarker
  obtain ⟨-, hvalid⟩ := h
  split at hvalid
  · next data _ => exact absurd rfl (hbody data)
  · exact congrArg _ (hvalid.mpr hrejected)

/-- **A marker** ends in `check_file_completion`; a record passes through it. -/
theorem checkFileCompletion_ends {data : List (String × PyValue)} (h : Meets F w t body d s)
    (hlatch : d.kind = .extractionComplete → MeetsLatch F w t body d s)
    (hbody : body = some (.obj data)) :
    Ensures (Handler.checkFileCompletion w t data) []
      (fun handled trace => if handled then Ends env F w t body d s trace
        else trace = [] ∧ ¬Handler.IsMarker body)
      fun _ => Fails env F w t body d s := by
  unfold Handler.checkFileCompletion
  split_ifs with hfile hextraction
  · have hkind : d.kind = .fileComplete := h.kind.file (by rw [hbody]; exact hfile)
    rw [ensures_bind]
    exact (fileComplete_ends h hkind).mono (fun _ _ h => h) fun _ _ h => h
  · have hkind : d.kind = .extractionComplete :=
      h.kind.extraction (by rw [hbody]; exact hextraction)
    rw [ensures_bind, (hlatch hkind).version data hbody]
    exact (extractionComplete_ends h (hlatch hkind) hkind).mono (fun _ _ h => h) fun _ _ h => h
  · refine ⟨rfl, ?_⟩
    rw [hbody]
    exact fun hmarker => hmarker.elim hfile hextraction

/-- **The body of the handler** settles its message, hands it over, or raises. -/
theorem deliver_ends (h : Meets F w t body d s)
    (hlatch : d.kind = .extractionComplete → MeetsLatch F w t body d s) :
    Ensures (Handler.deliver w t body) [] (fun _ => Ends env F w t body d s)
      fun _ => Fails env F w t body d s := by
  have hmalformed : (∀ data, body ≠ some (.obj data)) → Ensures (Handler.settle w .reject) []
      (fun _ => Ends env F w t body d s) fun _ => Fails env F w t body d s := fun hbody =>
    reject_ends (h.kind.malformed hbody) h.ready Effects.refl
      (fun _ hmem => (List.not_mem_nil hmem).elim) rfl
  have hobject : ∀ data, body = some (.obj data) →
      Ensures (Handler.checkFileCompletion w t data >>= fun handled =>
        if !handled then Handler.handleRecord w t data else pure ()) []
        (fun _ => Ends env F w t body d s) fun _ => Fails env F w t body d s := by
    intro data hbody
    rw [ensures_bind]
    refine (checkFileCompletion_ends h hlatch hbody).mono (fun handled trace hends => ?_)
      fun _ _ hfails => hfails
    cases handled with
    | true => exact hends
    | false =>
      obtain ⟨rfl, hmarker⟩ := hends
      exact handleRecord_ends h hbody hmarker
  unfold Handler.deliver
  split
  · next data => exact hobject data rfl
  · next hbody => exact hmalformed fun data heq => hbody data heq

end Runs

/-- **The handler is a run of the pipeline.** However the awaits of a delivery end, its handler
returns, and the steps of the delivery lead from the state that the handler finds to one with the
message where the settlement calls left it: acked where an ack took effect, back in the queue or
dead-lettered where the broker took it back, with the batch engine where that has it, and unsettled
where no call reached the broker. The transaction, the signal and the maintenance are in that state
what the trace of the handler tells. -/
theorem handler_runs {env : Env} {F : Feed} {w : World} {t : DataType} {body : Option PyValue}
    {d : MarkerOrder.Delivery} {s : State} (h : Meets F w t body d s)
    (hlatch : d.kind = .extractionComplete → MeetsLatch F w t body d s) :
    ∃ trace s', Handler.handler w t body [] = .ok () trace ∧
      (machine env F).Steps (fun _ => Action.About F t d) s s' ∧
        Leaves env F w t body d trace s s' := by
  have hhandler : Ensures (Handler.handler w t body) [] (fun _ => Ends env F w t body d s)
      fun _ _ => False := by
    unfold Handler.handler
    rw [h.running, Bool.not_false, if_pos rfl, ensures_tryCatch]
    exact (deliver_ends h hlatch).mono (fun _ _ hends => hends) fun _ _ hfails =>
      hfails.requeueRecord
  obtain ⟨⟨⟩, trace, hrun, s', hsteps, hleaves⟩ := hhandler.exists_ok
  exact ⟨trace, s', hrun, hsteps, hleaves⟩

/-! The last marker of a dump. -/

def dubMarkerBody : PyValue :=
  .obj [("type", .str "extraction_complete"), ("version", .str "20260701")]

def dubWorld : World :=
  { Handler.plainWorld fun _ => .returned with
    batchMode := true
    processor := true
    load := .ok [.artists, .labels, .masters].toFinset }

theorem dubStart_meets :
    Meets dubFeed dubWorld .releases (some dubMarkerBody) (marker dubSignal) dubStart where
  running := rfl
  driver := rfl
  batchMode := rfl
  processor := rfl
  kind := rfl
  ready := Or.inl rfl
  flush _ _ hmem := by cases hmem
  normalized hrecord := by cases hrecord

theorem dubStart_meetsLatch :
    MeetsLatch dubFeed dubWorld .releases (some dubMarkerBody) (marker dubSignal) dubStart where
  version data hbody := by
    cases hbody
    rfl
  ready := rfl
  unlocked := rfl
  latchVersion := rfl
  latchSignals := rfl
  load signals hload := by
    cases hload
    rfl
  maintained maintained hmaintained := by
    cases hmaintained
    rfl

theorem handler_runs_last_marker :
    ∃ trace, ∃ s' : State,
      Handler.handler dubWorld .releases (some dubMarkerBody) [] = .ok () trace ∧
      (s'.queues .releases).status (marker dubSignal) = .acked ∧
      s'.latch.postImportMaintenanceTask = some { version := "20260701" } := by
  obtain ⟨trace, s', hrun, -, hleaves⟩ := @handler_runs plainEnv dubFeed dubWorld .releases
    (some dubMarkerBody) (marker dubSignal) dubStart dubStart_meets fun _ => dubStart_meetsLatch
  have htrace : Handler.handler dubWorld .releases (some dubMarkerBody) [] = .ok ()
      [.drained, .latched, .completed, .signalled, .settled .ack .returned,
        .maintenance "20260701"] := rfl
  obtain rfl := (EStateM.Result.ok.inj (hrun.symm.trans htrace)).2
  exact ⟨_, s', hrun, hleaves.settled .ack rfl, (hleaves.started "20260701" (by simp)).2⟩

end Pipeline

end Graphinator
