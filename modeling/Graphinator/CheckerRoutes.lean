import Graphinator.Subscriptions

/-!
# The service is never left deaf

`periodic_queue_checker` brings consumption back along four routes: recovery was requested, a type
awaits its marker, the stuck check, and the probe of an idle service, which wants the connection
closed. When the last tag goes, either every file is complete and the timer closes the transport,
or one is not and the stuck check stays true. Two things break that: a timer that is cancelled
inside `close_rabbitmq_connection` leaves the connection open without requesting recovery, and a
marker of a type without a consumer may complete the last file when no timer is left to close.

## Main definitions

* `Consumers.Unattended` : the connection is open and nothing is closing or recovering it.
* `Consumers.TeardownKept` : the steps that keep a route open.

## Main results

* `Consumers.route_enabled` : in runs of such steps a quiescent service without consumers has a
  route.
* `Consumers.left_deaf` : a run that leaves none.
-/

namespace Graphinator.Consumers

/-- The timer of `t` is inside `close_rabbitmq_connection`. -/
def Closing (s : State) (t : DataType) : Prop :=
  ∃ pc, s.consumerCancelTasks t = some (.closing pc)

instance (s : State) (t : DataType) : Decidable (Closing s t) :=
  match h : s.consumerCancelTasks t with
  | some (.closing pc) => isTrue ⟨pc, h⟩
  | none | some (.sleeping _) | some (.cancelling _) =>
    isFalse fun ⟨_, hc⟩ => by cases h.symm.trans hc

/-- The connection is open, no timer is closing it, and neither the registration nor a recovery is
under way. -/
def Unattended (s : State) : Prop :=
  s.activeConnection.isSome ∧ ¬s.checker.Busy ∧ ∀ t, ¬Closing s t

instance (s : State) : Decidable (Unattended s) := inferInstanceAs (Decidable (_ ∧ _ ∧ _))

/-- The steps that keep a route open. No handler cancels a timer that is inside
`close_rabbitmq_connection`; no completion marker completes the last file while there is no
consumer and the connection is unattended; and a confirmed cancel that removes the last tag from an
unattended connection while a file is incomplete comes after some record was counted. -/
def TeardownKept (s : State) : Action → Prop
  | .recordStarts t | .extractionCompleteStarts t => ¬Closing s t
  | .fileCompleteEnds t true | .extractionCompleteEnds t true => ¬Closing s t ∧
      (s.consumerTags = ∅ → Unattended s → s.completedFiles ≠ Finset.univ →
        insert t s.completedFiles ≠ Finset.univ)
  | .cancelReturns t .ok => s.consumerTags.erase t = ∅ → Unattended s →
      s.completedFiles ≠ Finset.univ → ∃ t', 0 < s.messageCounts t'
  | _ => True

instance (s : State) : (a : Action) → Decidable (TeardownKept s a)
  | .recordStarts t | .extractionCompleteStarts t => inferInstanceAs (Decidable (¬Closing s t))
  | .fileCompleteEnds _ true | .extractionCompleteEnds _ true =>
    inferInstanceAs (Decidable (_ ∧ (_ → _ → _ → _)))
  | .cancelReturns _ .ok => inferInstanceAs (Decidable (_ → _ → _ → _))
  | .recordEnds .. | .fileCompleteStarts _ | .fileCompleteEnds _ false
  | .extractionCompleteEnds _ false | .timerFires _ | .cancelReturns _ (.fails _)
  | .timerCloseReturns .. | .interruptedResumes | .brokerSubscribes | .consumeReturns _ | .tick _
  | .closeReturns _ | .connectReturns _ | .probeReturns _ | .tempCloses _ | .qosReturns _
  | .declareReturns _ | .depthReturns _ => isTrue trivial

/-- A service without consumers on an unattended connection has requested recovery or is stuck.
Where the checker is declaring the queues of a new connection, those before are there. -/
structure Attended (s : State) : Prop where
  routed : s.consumerTags = ∅ → Unattended s →
    s.consumerRecoveryRequested = true ∨ s.UnexpectedlyDead
  declared {temp : Transport} {pending : Finset DataType} {rest : List DataType} :
    s.checker = .declaring temp pending rest → ∀ t ∉ rest, (s.queues t).isSome

variable {s s' : State}

theorem Attended.init (h : IsInitial s) : Attended s := by
  obtain ⟨cancelsConsumers, rfl⟩ := h
  exact ⟨fun _ hu => absurd trivial hu.2.1, nofun⟩

/-! ### Timers -/

theorem closing_setTask_of_ne {t t' : DataType} (hne : t' ≠ t) (task : Option TimerPc) :
    Closing (s.setTask t task) t' ↔ Closing s t' := by
  simp [Closing, State.setTask, hne]

/-- A step that changes the timer of `t` alone, from one that does not close the transport. -/
theorem unattended_of_setTask {t : DataType} {task : Option TimerPc} (ht : ¬Closing s t)
    (hu : Unattended (s.setTask t task)) : Unattended s := by
  refine ⟨hu.1, hu.2.1, fun t' => ?_⟩
  rcases eq_or_ne t' t with rfl | hne
  · exact ht
  · rw [← closing_setTask_of_ne hne task]
    exact hu.2.2 t'

theorem unattended_of_complete {t : DataType} (ht : ¬Closing s t) (hu : Unattended (s.complete t)) :
    Unattended s := by
  unfold State.complete at hu
  dsimp only at hu
  split at hu
  · split_ifs at hu
    · have hcancelled : Unattended (s.setTask t none) :=
        unattended_of_setTask (by simp [Closing, State.setTask]) hu
      exact unattended_of_setTask ht hcancelled
    · exact hu
  · exact hu

theorem complete_fields (t : DataType) : (s.complete t).consumerTags = s.consumerTags ∧
    (s.complete t).consumerRecoveryRequested = s.consumerRecoveryRequested ∧
    (s.complete t).completedFiles = insert t s.completedFiles ∧
    (s.complete t).messageCounts = s.messageCounts ∧ (s.complete t).checker = s.checker ∧
    (s.complete t).queues = s.queues := by
  unfold State.complete
  dsimp only
  split
  · split_ifs <;> exact ⟨rfl, rfl, rfl, rfl, rfl, rfl⟩
  · exact ⟨rfl, rfl, rfl, rfl, rfl, rfl⟩

/-- A completion marker lands. -/
theorem Attended.complete (ha : Attended s) {t : DataType} (ht : ¬Closing s t)
    (hlast : s.consumerTags = ∅ → Unattended s → s.completedFiles ≠ Finset.univ →
      insert t s.completedFiles ≠ Finset.univ) : Attended (s.complete t) := by
  obtain ⟨htags, hreq, hcompleted, hcounts, hchecker, hqueues⟩ := complete_fields (s := s) t
  refine ⟨fun hempty hu => ?_, by rw [hchecker, hqueues]; exact ha.declared⟩
  rw [htags] at hempty
  have hu := unattended_of_complete ht hu
  rw [hreq, State.UnexpectedlyDead, htags, hcompleted, hcounts]
  refine (ha.routed hempty hu).imp_right ?_
  rintro ⟨-, hincomplete, hcount⟩
  exact ⟨hempty, hlast hempty hu hincomplete, hcount⟩

/-- A step after which a consumer has its tag. -/
theorem Attended.of_nonempty (htags : s.consumerTags.Nonempty)
    (hpc : ∀ temp pending rest, s.checker ≠ .declaring temp pending rest) : Attended s :=
  ⟨fun hempty => absurd hempty htags.ne_empty, fun h => absurd h (hpc _ _ _)⟩

/-- A step into a recovery. -/
theorem Attended.of_busy (hbusy : s.checker.Busy)
    (hpc : ∀ temp pending rest, s.checker ≠ .declaring temp pending rest) : Attended s :=
  ⟨fun _ hu => absurd hbusy hu.2.1, fun h => absurd h (hpc _ _ _)⟩

/-- A step that requests recovery, or after which there is no connection. -/
theorem Attended.of_ended
    (hended : s.consumerRecoveryRequested = true ∨ s.activeConnection = none)
    (hpc : ∀ temp pending rest, s.checker ≠ .declaring temp pending rest) : Attended s := by
  refine ⟨fun _ hu => hended.imp id fun hnone => ?_, fun h => absurd h (hpc _ _ _)⟩
  have hconn := hu.1
  rw [hnone] at hconn
  cases hconn

theorem Attended.recoverReconnect
    (hended : s.consumerRecoveryRequested = true ∨ s.activeConnection = none) :
    Attended s.recoverReconnect := by
  unfold State.recoverReconnect
  split_ifs
  · exact Attended.of_ended hended nofun
  · exact Attended.of_busy trivial nofun

theorem Attended.recoverConsumers : Attended s.recoverConsumers := by
  unfold State.recoverConsumers
  split
  · exact Attended.of_busy trivial nofun
  · next hnone => exact Attended.recoverReconnect (Or.inr (closeStart_eq_none hnone).1)

theorem Attended.resubscribeNext (ha : Attended s) (hb : ¬s.checker.Busy) (rest : List DataType) :
    Attended (s.resubscribeNext rest) := by
  cases rest <;> exact ⟨fun hempty hu => ha.routed hempty ⟨hu.1, hb, hu.2.2⟩, nofun⟩

/-- The registration loop stops at a type to register, or every type has its tag. -/
theorem Attended.registerNext {temp : Transport} {pending : Finset DataType} {rest : List DataType}
    (h : s.consumerTags.Nonempty ∨ rest ≠ [] ∧ ∀ t ∈ rest, (s.queues t).isSome) :
    Attended (s.registerNext temp pending rest) := by
  induction rest with
  | nil => exact Attended.of_nonempty (h.resolve_right fun h => h.1 rfl) (by rintro _ _ _ ⟨⟩)
  | cons t rest ih =>
    rw [State.registerNext]
    split
    · split_ifs with ht
      · exact ih (Or.inl ⟨t, ht⟩)
      · exact Attended.of_busy trivial (by rintro _ _ _ ⟨⟩)
    · next hq =>
      refine ih (Or.inl (h.resolve_right fun h => ?_))
      have := h.2 t List.mem_cons_self
      rw [hq] at this
      cases this

/-- Every step that keeps a route open preserves the invariant. -/
theorem Attended.step (hi : Inv s) (ha : Attended s) {a : Action} (hok : TeardownKept s a)
    (h : Consumers.step s a = some s') : Attended s' := by
  cases a with
  | recordStarts t =>
    simp only [Consumers.step, Option.ite_none_right_eq_some, Option.some.injEq] at h
    obtain ⟨-, rfl⟩ := h
    refine ⟨fun hempty hu => ?_, ha.declared⟩
    have hu : Unattended (s.setTask t none) := hu
    refine (ha.routed hempty (unattended_of_setTask hok hu)).imp_right ?_
    rintro ⟨-, -, hcount⟩
    refine ⟨hempty, fun (huniv : s.completedFiles.erase t = Finset.univ) => ?_, hcount⟩
    exact Finset.notMem_erase t s.completedFiles (huniv ▸ Finset.mem_univ t)
  | extractionCompleteStarts t =>
    simp only [Consumers.step, Option.ite_none_right_eq_some, Option.some.injEq] at h
    obtain ⟨-, rfl⟩ := h
    refine ⟨fun hempty hu => ?_, ha.declared⟩
    have hu : Unattended (s.setTask t none) := hu
    exact ha.routed hempty (unattended_of_setTask hok hu)
  | recordEnds t counted =>
    simp only [Consumers.step, Option.ite_none_right_eq_some, Option.some.injEq] at h
    obtain ⟨-, rfl⟩ := h
    refine ⟨fun hempty hu => (ha.routed hempty hu).imp_right ?_, ha.declared⟩
    rintro ⟨-, hincomplete, t', ht'⟩
    refine ⟨hempty, hincomplete, t', ?_⟩
    dsimp only
    split_ifs
    · rcases eq_or_ne t' t with rfl | hne
      · simp
      · simpa [hne] using ht'
    · exact ht'
  | fileCompleteStarts t =>
    simp only [Consumers.step, Option.ite_none_right_eq_some, Option.some.injEq] at h
    obtain ⟨-, rfl⟩ := h
    exact ⟨ha.routed, ha.declared⟩
  | fileCompleteEnds t landed | extractionCompleteEnds t landed =>
    simp only [Consumers.step, Option.ite_none_right_eq_some, Option.some.injEq] at h
    obtain ⟨-, rfl⟩ := h
    cases landed
    · exact ⟨ha.routed, ha.declared⟩
    · refine Attended.complete ?_ hok.1 hok.2
      exact ⟨ha.routed, ha.declared⟩
  | timerFires t =>
    simp only [Consumers.step] at h
    split at h
    next queue hq =>
      obtain rfl := Option.some.inj h
      have ht : ¬Closing s t := by
        rintro ⟨pc, hpc⟩
        cases hq.symm.trans hpc
      exact ⟨fun hempty hu => ha.routed hempty (unattended_of_setTask ht hu), ha.declared⟩
    next => cases h
  | cancelReturns t outcome =>
    simp only [Consumers.step] at h
    split at h
    next queue hq =>
      have ht : ¬Closing s t := by
        rintro ⟨pc, hpc⟩
        cases hq.symm.trans hpc
      cases outcome with
      | ok =>
        simp only [Option.ite_none_left_eq_some] at h
        obtain ⟨-, h⟩ := h
        split_ifs at h with hidle <;> obtain rfl := Option.some.inj h
        · -- Every file is complete: the timer goes on to close what there is to close.
          refine ⟨fun _ hu => ?_, ha.declared⟩
          cases hstart : (s.cancelled queue t).closeStart with
          | none =>
            have hconn : s.activeConnection.isSome := hu.1
            rw [show s.activeConnection = none from (closeStart_eq_none hstart).1] at hconn
            cases hconn
          | some pc => exact absurd ⟨pc, by simp [State.setTask, hstart]⟩ (hu.2.2 t)
        · refine ⟨fun hempty hu => ?_, ha.declared⟩
          have hu : Unattended (s.setTask t none) := hu
          have hu := unattended_of_setTask ht hu
          have hincomplete : s.completedFiles ≠ Finset.univ := fun h => hidle ⟨hempty, h⟩
          exact Or.inr ⟨hempty, hincomplete, hok hempty hu hincomplete⟩
      | fails removed =>
        obtain rfl := Option.some.inj h
        exact ⟨fun _ _ => Or.inl rfl, ha.declared⟩
    next => cases h
  | timerCloseReturns t outcome =>
    simp only [Consumers.step] at h
    split at h
    next pc hpc =>
      obtain rfl := Option.some.inj h
      have hb : ¬s.checker.Between := fun hb => (hi.between hb).2.2 t pc hpc
      have hcloses := closeStep_closes hi hb (hi.timer hpc) outcome
      have hdeclared {temp : Transport} {pending : Finset DataType} {rest : List DataType}
          (hpc : (closeStep s pc outcome).1.checker = .declaring temp pending rest) :
          ∀ t ∉ rest, ((closeStep s pc outcome).1.queues t).isSome := by
        rw [hcloses.queues]
        exact ha.declared (hcloses.checker ▸ hpc)
      refine ⟨fun _ hu => ?_, hdeclared⟩
      cases hnext : (closeStep s pc outcome).2 with
      | none =>
        refine (hcloses.ended hnext).imp_right fun hnone => ?_
        have hconn : (closeStep s pc outcome).1.activeConnection.isSome := hu.1
        rw [hnone] at hconn
        cases hconn
      | some pc' => exact absurd ⟨pc', by simp [State.setTask, hnext]⟩ (hu.2.2 t)
    next => cases h
  | interruptedResumes =>
    simp only [Consumers.step, Option.ite_none_right_eq_some, Option.some.injEq] at h
    obtain ⟨-, rfl⟩ := h
    exact ⟨fun _ _ => Or.inl rfl, ha.declared⟩
  | brokerSubscribes =>
    simp only [Consumers.step] at h
    split at h
    next c hc =>
      simp only [Option.ite_none_left_eq_some, Option.some.injEq] at h
      obtain ⟨-, rfl⟩ := h
      have hbusy : s.checker.subscribe.Busy ↔ s.checker.Busy := by
        cases s.checker <;> exact Iff.rfl
      refine ⟨fun hempty hu => ha.routed hempty ⟨hu.1, fun hb => hu.2.1 (hbusy.mpr hb), hu.2.2⟩,
        fun h => ?_⟩
      cases hpc : s.checker <;> rw [hpc] at hc <;> cases hc <;>
        simp [hpc, CheckerPc.subscribe] at h
    next => cases h
  | consumeReturns ok =>
    simp only [Consumers.step] at h
    split at h
    next c rest hpc =>
      simp only [Option.ite_none_right_eq_some, Option.some.injEq] at h
      obtain ⟨-, rfl⟩ := h
      exact Attended.of_nonempty ⟨_, Finset.mem_insert_self ..⟩ (by cases rest <;> rintro _ _ _ ⟨⟩)
    next temp pending c rest hpc =>
      split_ifs at h <;> obtain rfl := Option.some.inj h
      · exact Attended.registerNext (Or.inl ⟨_, Finset.mem_insert_self ..⟩)
      · exact Attended.of_busy trivial (by rintro _ _ _ ⟨⟩)
    next c rest hpc =>
      split_ifs at h <;> obtain rfl := Option.some.inj h
      · cases rest <;> exact Attended.of_nonempty ⟨_, Finset.mem_insert_self ..⟩ (by rintro _ _ _ ⟨⟩)
      · exact ha.resubscribeNext (by rw [hpc]; exact id) rest
    next => cases h
  | tick route =>
    simp only [Consumers.step, Option.ite_none_right_eq_some] at h
    obtain ⟨hsleeping, h⟩ := h
    cases route with
    | requested | stuck =>
      simp only [Option.ite_none_right_eq_some, Option.some.injEq] at h
      obtain ⟨-, rfl⟩ := h
      exact Attended.recoverConsumers
    | idle =>
      simp only [Option.ite_none_left_eq_some, Option.some.injEq] at h
      obtain ⟨-, rfl⟩ := h
      exact Attended.recoverConsumers
    | parked =>
      simp only [Option.ite_none_left_eq_some] at h
      obtain ⟨-, h⟩ := h
      split_ifs at h <;> obtain rfl := Option.some.inj h
      · exact ha.resubscribeNext (by rw [hsleeping]; exact id) _
      · exact Attended.recoverConsumers
  | closeReturns outcome =>
    simp only [Consumers.step] at h
    split at h
    next pc hpc =>
      obtain rfl := Option.some.inj h
      have hb : ¬s.checker.Between := by
        rw [hpc]
        exact id
      have hcloses := closeStep_closes hi hb (hi.closer (by rw [hpc]; rfl)) outcome
      split
      · exact Attended.of_busy trivial (by rintro _ _ _ ⟨⟩)
      · next hnext => exact Attended.recoverReconnect (hcloses.ended hnext)
    next pc hpc =>
      obtain rfl := Option.some.inj h
      have hb : ¬s.checker.Between := by
        rw [hpc]
        exact id
      have hcloses := closeStep_closes hi hb (hi.closer (by rw [hpc]; rfl)) outcome
      split
      · exact Attended.of_busy trivial (by rintro _ _ _ ⟨⟩)
      · next hnext => exact Attended.of_ended (hcloses.ended hnext) (by rintro _ _ _ ⟨⟩)
    next => cases h
  | connectReturns ok =>
    simp only [Consumers.step, Option.ite_none_right_eq_some, Option.some.injEq] at h
    obtain ⟨-, rfl⟩ := h
    cases ok
    · exact Attended.of_ended (Or.inl rfl) (by rintro _ _ _ ⟨⟩)
    · exact Attended.of_busy trivial (by rintro _ _ _ ⟨⟩)
  | probeReturns pending =>
    simp only [Consumers.step] at h
    split at h
    next temp hpc =>
      cases pending with
      | none =>
        obtain rfl := Option.some.inj h
        exact Attended.of_busy trivial (by rintro _ _ _ ⟨⟩)
      | some pending =>
        dsimp only at h
        split_ifs at h <;> obtain rfl := Option.some.inj h <;> exact Attended.of_busy trivial (by rintro _ _ _ ⟨⟩)
    next => cases h
  | tempCloses ok =>
    simp only [Consumers.step] at h
    split at h
    next temp hpc =>
      obtain rfl := Option.some.inj h
      have hconn : s.activeConnection = none := (hi.between (by rw [hpc]; trivial)).1
      cases ok
      · exact Attended.of_busy trivial (by rintro _ _ _ ⟨⟩)
      · exact Attended.of_ended (Or.inr hconn) (by rintro _ _ _ ⟨⟩)
    next => cases h
  | qosReturns ok =>
    simp only [Consumers.step] at h
    split at h
    next temp pending hpc =>
      obtain rfl := Option.some.inj h
      cases ok
      · exact Attended.of_busy trivial (by rintro _ _ _ ⟨⟩)
      · refine ⟨fun _ hu => absurd trivial hu.2.1, ?_⟩
        rintro _ _ _ ⟨⟩ t ht
        exact absurd (mem_dataTypes t) ht
    next => cases h
  | declareReturns ok =>
    simp only [Consumers.step] at h
    split at h
    next temp pending rest hpc =>
      split_ifs at h
      · cases rest with
        | nil => cases h
        | cons t rest =>
          have hdeclared : ∀ t' ∉ rest, (Function.update s.queues t (some temp) t').isSome := by
            intro t' ht'
            rcases eq_or_ne t' t with rfl | hne
            · simp
            · rw [Function.update_of_ne hne]
              exact ha.declared hpc t' (by simp [hne, ht'])
          obtain rfl := Option.some.inj h
          split_ifs with hrest
          · subst hrest
            exact Attended.registerNext
              (Or.inr ⟨List.cons_ne_nil _ _, fun t' _ => hdeclared t' List.not_mem_nil⟩)
          · refine ⟨fun _ hu => absurd trivial hu.2.1, ?_⟩
            rintro _ _ _ ⟨⟩
            exact hdeclared
      · obtain rfl := Option.some.inj h
        exact Attended.of_busy trivial (by rintro _ _ _ ⟨⟩)
    next => cases h
  | depthReturns positive =>
    simp only [Consumers.step] at h
    split at h
    next t rest hpc =>
      have hb : ¬s.checker.Busy := by
        rw [hpc]
        exact id
      split at h
      · split_ifs at h <;> obtain rfl := Option.some.inj h
        · exact ⟨fun hempty hu => ha.routed hempty ⟨hu.1, hb, hu.2.2⟩, by rintro _ _ _ ⟨⟩⟩
        · exact ha.resubscribeNext hb rest
      · obtain rfl := Option.some.inj h
        exact ha.resubscribeNext hb rest
    next => cases h

/-- **The service is never left deaf**, in runs of steps that satisfy `TeardownKept`: when no
timer, teardown or recovery is inside a broker call and no consumer has a tag, the checker has a
route that brings consumption back. -/
theorem route_enabled (h : machine.ReachableIn TeardownKept s) (hquiescent : Quiescent s)
    (hempty : s.consumerTags = ∅) :
    s.consumerRecoveryRequested = true ∨ s.typesAwaitingMarker ≠ [] ∨ s.UnexpectedlyDead ∨
      s.activeConnection = none := by
  have hinv : Inv s ∧ Attended s := by
    refine h.invariant (I := fun t => Inv t ∧ Attended t)
      (fun t ht => ⟨Inv.init ht, Attended.init ht⟩) ?_
    rintro t a t' hok ⟨hi, ha⟩ hs
    exact ⟨hi.step hs, ha.step hi hok hs⟩
  obtain ⟨hsleeping, -, htimers⟩ := hquiescent
  cases hconn : s.activeConnection with
  | none => exact Or.inr (Or.inr (Or.inr rfl))
  | some τ =>
    have hu : Unattended s := by
      refine ⟨by simp [hconn], by rw [hsleeping]; exact id, ?_⟩
      rintro t ⟨pc, hpc⟩
      rcases htimers t with h | ⟨queue, h⟩ <;> cases hpc.symm.trans h
    rcases hinv.2.routed hempty hu with h | h
    · exact Or.inl h
    · exact Or.inr (Or.inr (Or.inl h))

/-- Both completion markers of a type land, and its consumer is cancelled. -/
def completeAndCancel (t : DataType) : List Action :=
  [.fileCompleteStarts t, .fileCompleteEnds t true, .extractionCompleteStarts t,
    .extractionCompleteEnds t true, .timerFires t, .cancelReturns t .ok]

theorem route_enabled_all_complete :
    ∃ s : State, s.consumerTags = ∅ ∧ s.completedFiles = Finset.univ ∧
      (s.consumerRecoveryRequested = true ∨ s.typesAwaitingMarker ≠ [] ∨ s.UnexpectedlyDead ∨
        s.activeConnection = none) := by
  have hrun : (machine.exec (fun s a => TeardownKept s a) (start true)
      (registerAll ++ dataTypes.flatMap completeAndCancel ++
        [.timerCloseReturns .releases .ok, .timerCloseReturns .releases .ok])).any (fun s =>
      s.consumerTags = ∅ ∧ s.completedFiles = Finset.univ ∧ s.checker = .sleeping ∧
        s.interruptedCancels = 0 ∧ ∀ t, s.consumerCancelTasks t = none) = true := by decide
  obtain ⟨s, hs, hfinal⟩ := (Option.any_eq_true ..).mp hrun
  obtain ⟨hempty, hcompleted, hsleeping, hinterrupted, htimers⟩ := of_decide_eq_true hfinal
  have hsteps : machine.Steps TeardownKept (start true) s :=
    Machine.steps_of_exec (fun _ _ => of_decide_eq_true) hs
  exact ⟨s, hempty, hcompleted, route_enabled ⟨_, ⟨true, rfl⟩, hsteps⟩
    ⟨hsleeping, hinterrupted, fun t => Or.inl (htimers t)⟩ hempty⟩

/-- The last timer is inside `close_rabbitmq_connection` when the `extraction_complete` of its type
lands and arms the next one. The teardown is abandoned: the connection stays open, nothing is
subscribed, every type is complete and signalled, and no recovery is requested. -/
theorem left_deaf :
    ∃ s, machine.Reachable s ∧ Quiescent s ∧ s.consumerTags = ∅ ∧
      ¬(s.consumerRecoveryRequested = true ∨ s.typesAwaitingMarker ≠ [] ∨ s.UnexpectedlyDead ∨
        s.activeConnection = none) := by
  have hrun : (machine.exec (fun _ _ => true) (start true)
      (registerAll ++ [.artists, .labels, .masters].flatMap completeAndCancel ++
        [.fileCompleteStarts .releases, .extractionCompleteStarts .releases,
          .fileCompleteEnds .releases true, .timerFires .releases, .cancelReturns .releases .ok,
          .extractionCompleteEnds .releases true])).any (fun s =>
      (s.checker = .sleeping ∧ s.interruptedCancels = 0 ∧
        ∀ t, s.consumerCancelTasks t = none ∨ s.consumerCancelTasks t = some (.sleeping 0)) ∧
      s.consumerTags = ∅ ∧
      ¬(s.consumerRecoveryRequested = true ∨ s.typesAwaitingMarker ≠ [] ∨ s.UnexpectedlyDead ∨
        s.activeConnection = none)) = true := by decide
  obtain ⟨s, hs, hfinal⟩ := (Option.any_eq_true ..).mp hrun
  obtain ⟨⟨hsleeping, hinterrupted, htimers⟩, hempty, hdeaf⟩ := of_decide_eq_true hfinal
  exact ⟨s, ⟨_, ⟨true, rfl⟩, Machine.steps_of_exec (fun _ _ _ => trivial) hs⟩,
    ⟨hsleeping, hinterrupted, fun t => (htimers t).imp_right fun h => ⟨0, h⟩⟩, hempty, hdeaf⟩

end Graphinator.Consumers
