import Graphinator.Consumers
import Mathlib.Data.Finset.Insert

/-!
# No live subscription is forgotten

Every subscription that the broker holds on a transport not confirmed closed is one the service
knows about: its type is in `consumer_tags`, or recovery is requested, or the coroutine that asked
for it has not resumed. The exception is `recover_parked_markers`, which takes a failed consume for
a consume that had no effect; the other two places that fail with an unknown outcome request
recovery.

At any time there is at most one transport that is not confirmed closed: the one opened last.
Everything that closes or subscribes acts on it, and a recovery opens the next one only after the
connection variables are empty and every timer is cancelled.

## Main definitions

* `Consumers.Inv` : the invariant of every run.
* `Consumers.Known` : what is known about the broker's subscriptions.
* `Consumers.ResubscribeUnambiguous` : the steps in which no consume of `recover_parked_markers`
  fails after it took effect.

## Main results

* `Consumers.subscription_known` : in runs of such steps no live subscription is forgotten, and
  the gauge of active consumers is the size of `consumer_tags`.
* `Consumers.subscription_forgotten` : a run that forgets one.
-/

namespace Graphinator.Consumers

/-- The invariant of every run. -/
structure Inv (s : State) : Prop where
  connection {τ : Transport} : s.activeConnection = some τ → τ = s.transport
  channel {τ : Transport} : s.activeChannel = some τ → τ = s.transport
  timer {t : DataType} {pc : ClosePc} :
    s.consumerCancelTasks t = some (.closing pc) → pc.handle = s.transport
  timerQueue {t : DataType} {queue : Transport} :
    s.consumerCancelTasks t = some (.sleeping queue) ∨
      s.consumerCancelTasks t = some (.cancelling queue) → queue ≤ s.transport
  queues {t : DataType} {τ : Transport} : s.queues t = some τ → τ ≤ s.transport
  subscriptions {p : Transport × DataType} : p ∈ s.subscriptions → p.1 ≤ s.transport
  /-- A transport not confirmed closed is active, or the temporary one of a recovery. -/
  opened {τ : Transport} : τ ≤ s.transport → τ ∉ s.closed →
    s.activeConnection = some τ ∨ s.activeChannel = some τ ∨
      s.checker = .probing τ ∨ s.checker = .closingTemp τ
  closer {pc : ClosePc} : s.checker.closing = some pc → pc.handle = s.transport
  temp {τ : Transport} : s.checker.temp = some τ → τ = s.transport
  between : s.checker.Between → s.activeConnection = none ∧ s.activeChannel = none ∧
    ∀ t pc, s.consumerCancelTasks t ≠ some (.closing pc)
  consume {c : Consume} : s.checker.consume = some c →
    c.queue ≤ s.transport ∧ c.dataType ∉ s.consumerTags
  booting {c : Consume} {rest : List DataType} : s.checker = .booting c rest →
    (c.dataType :: rest).Nodup ∧ ∀ t ∈ rest, t ∉ s.consumerTags
  activeConsumers : s.activeConsumers = s.consumerTags.card

/-- Every live subscription is one the service knows about. -/
def Known (s : State) : Prop :=
  ∀ p ∈ s.subscriptions, p.1 ∉ s.closed →
    p.2 ∈ s.consumerTags ∨ s.consumerRecoveryRequested = true ∨
      ∃ c, s.checker.consume = some c ∧ c.subscribed = true ∧ c.queue = p.1 ∧ c.dataType = p.2

/-- The same, while no consume is in flight. -/
def Held (s : State) : Prop :=
  ∀ p ∈ s.subscriptions, p.1 ∉ s.closed →
    p.2 ∈ s.consumerTags ∨ s.consumerRecoveryRequested = true

/-- The steps in which no consume of `recover_parked_markers` fails after the broker registered
it. -/
def ResubscribeUnambiguous (s : State) : Action → Prop
  | .consumeReturns false => ∀ c rest, s.checker = .resubscribing c rest → c.subscribed = false
  | _ => True

variable {s s' : State}

theorem Inv.init (h : IsInitial s) : Inv s := by
  obtain ⟨cancelsConsumers, rfl⟩ := h
  constructor <;> simp [start, CheckerPc.closing, CheckerPc.temp, CheckerPc.Between, CheckerPc.consume]

/-! ### Timers -/

theorem Inv.setTask (hi : Inv s) {t : DataType} {task : Option TimerPc}
    (hclosing : ∀ pc, task = some (.closing pc) → pc.handle = s.transport ∧ ¬s.checker.Between)
    (hqueue : ∀ queue, task = some (.sleeping queue) ∨ task = some (.cancelling queue) →
      queue ≤ s.transport) : Inv (s.setTask t task) where
  connection := hi.connection
  channel := hi.channel
  timer {t' pc} h := by
    rcases eq_or_ne t' t with rfl | hne
    · exact (hclosing pc (by simpa [State.setTask] using h)).1
    · exact hi.timer (t := t') (by simpa [State.setTask, hne] using h)
  timerQueue {t' queue} h := by
    rcases eq_or_ne t' t with rfl | hne
    · exact hqueue queue (by simpa [State.setTask] using h)
    · exact hi.timerQueue (t := t') (by simpa [State.setTask, hne] using h)
  queues := hi.queues
  subscriptions := hi.subscriptions
  opened := hi.opened
  closer := hi.closer
  temp := hi.temp
  between hb := by
    obtain ⟨hconn, hchan, hnone⟩ := hi.between hb
    refine ⟨hconn, hchan, fun t' pc h => ?_⟩
    rcases eq_or_ne t' t with rfl | hne
    · exact (hclosing pc (by simpa [State.setTask] using h)).2 hb
    · exact hnone t' pc (by simpa [State.setTask, hne] using h)
  consume := hi.consume
  booting := hi.booting
  activeConsumers := hi.activeConsumers

theorem Inv.cancelTask (hi : Inv s) (t : DataType) : Inv (s.cancelTask t) := by
  have hnone : Inv (s.setTask t none) := hi.setTask nofun (by rintro _ (h | h) <;> cases h)
  exact { hnone with }

theorem Inv.complete (hi : Inv s) (t : DataType) : Inv (s.complete t) := by
  have hi' : Inv { s with completedFiles := insert t s.completedFiles } := { hi with }
  unfold State.complete
  dsimp only
  split
  · next queue hq =>
    split_ifs
    · refine (hi'.cancelTask t).setTask nofun ?_
      rintro _ (h | h) <;> cases h
      exact hi.queues hq
    · exact hi'
  · exact hi'

theorem Inv.cancelled (hi : Inv s) (queue : Transport) (t : DataType) :
    Inv (s.cancelled queue t) :=
  { hi with
    subscriptions := fun hp => hi.subscriptions (Finset.mem_of_mem_erase hp)
    consume := fun h =>
      ⟨(hi.consume h).1, fun hm => (hi.consume h).2 (Finset.mem_of_mem_erase hm)⟩
    booting := fun h =>
      ⟨(hi.booting h).1, fun u hu hm => (hi.booting h).2 u hu (Finset.mem_of_mem_erase hm)⟩
    activeConsumers := by
      unfold State.cancelled
      dsimp only
      split_ifs with ht
      · have hpos : 0 < s.consumerTags.card := Finset.card_pos.mpr ⟨t, ht⟩
        rw [Finset.card_erase_of_mem ht, hi.activeConsumers]
        omega
      · rw [Finset.erase_eq_of_notMem ht, hi.activeConsumers] }

/-! ### The transport -/

/-- Outside of a recovery's probe, a transport not confirmed closed is active. -/
theorem Inv.active (hi : Inv s) (hb : ¬s.checker.Between) {τ : Transport} (hle : τ ≤ s.transport)
    (hopen : τ ∉ s.closed) : s.activeConnection = some τ ∨ s.activeChannel = some τ := by
  rcases hi.opened hle hopen with h | h | h | h
  · exact Or.inl h
  · exact Or.inr h
  · exact absurd (h ▸ trivial) hb
  · exact absurd (h ▸ trivial) hb

theorem Inv.closeFinish (hi : Inv s) : Inv s.closeFinish := by
  unfold State.closeFinish
  split_ifs
  · exact { hi with }
  · exact { hi with
      consume := fun h => ⟨(hi.consume h).1, Finset.notMem_empty _⟩
      booting := fun h => ⟨(hi.booting h).1, fun _ _ => Finset.notMem_empty _⟩
      activeConsumers := by simp [hi.activeConsumers] }

theorem closeFinish_transport : s.closeFinish.transport = s.transport := by
  unfold State.closeFinish
  split_ifs <;> rfl

theorem closeFinish_checker : s.closeFinish.checker = s.checker := by
  unfold State.closeFinish
  split_ifs <;> rfl

theorem closeFinish_queues : s.closeFinish.queues = s.queues := by
  unfold State.closeFinish
  split_ifs <;> rfl

theorem closeFinish_activeConnection : s.closeFinish.activeConnection = s.activeConnection := by
  unfold State.closeFinish
  split_ifs <;> rfl

/-- A teardown that ends without a connection leaves no subscription unknown: either it requests
recovery, or every transport is confirmed closed. -/
theorem Known.closeFinish (hi : Inv s) (hb : ¬s.checker.Between)
    (hconn : s.activeConnection = none) : Known s.closeFinish := by
  intro p hp hopen
  unfold State.closeFinish at hp hopen ⊢
  split_ifs at hp hopen ⊢ with hchan
  · exact Or.inr (Or.inl rfl)
  · rcases hi.active hb (hi.subscriptions hp) hopen with h | h
    · rw [hconn] at h
      cases h
    · rw [h] at hchan
      exact absurd rfl hchan

/-- What one step of `close_rabbitmq_connection` over the last transport does: it keeps the
invariant, and where it ends, recovery is requested or the connection is gone. -/
structure Closes (s s' : State) (next : Option ClosePc) : Prop where
  inv : Inv s'
  known : Known s → Known s'
  checker : s'.checker = s.checker
  transport : s'.transport = s.transport
  queues : s'.queues = s.queues
  handle {pc : ClosePc} : next = some pc → pc.handle = s'.transport
  ended : next = none → s'.consumerRecoveryRequested = true ∨ s'.activeConnection = none

theorem closeConnection_closes (hi : Inv s) (hb : ¬s.checker.Between) :
    Closes s s.closeConnection.1 s.closeConnection.2 := by
  unfold State.closeConnection
  split
  · next handle hconn =>
    exact ⟨hi, id, rfl, rfl, rfl, fun h => by cases h; exact hi.connection hconn, nofun⟩
  · next hconn =>
    exact ⟨hi.closeFinish, fun _ => Known.closeFinish hi hb hconn, closeFinish_checker,
      closeFinish_transport, closeFinish_queues, nofun,
      fun _ => Or.inr (closeFinish_activeConnection.trans hconn)⟩

theorem closeStep_closes (hi : Inv s) (hb : ¬s.checker.Between) {pc : ClosePc}
    (hpc : pc.handle = s.transport) (outcome : CloseOutcome) :
    Closes s (closeStep s pc outcome).1 (closeStep s pc outcome).2 := by
  have htimeout : Closes s { s with consumerRecoveryRequested := true } none :=
    ⟨{ hi with }, fun _ _ _ _ => Or.inr (Or.inl rfl), rfl, rfl, rfl, nofun,
      fun _ => Or.inl rfl⟩
  obtain handle | handle := pc <;> cases outcome
  case channel.error => exact closeConnection_closes hi hb
  case channel.timeout | connection.error | connection.timeout => exact htimeout
  case channel.ok =>
    obtain rfl : handle = s.transport := hpc
    have hi' : Inv { s with activeChannel := none, closed := insert s.transport s.closed } :=
      { hi with
        channel := nofun
        between := fun h => absurd h hb
        opened := fun hle hopen => by
          simp only [Finset.mem_insert, not_or] at hopen
          rcases hi.active hb hle hopen.2 with h | h
          · exact Or.inl h
          · exact absurd (hi.channel h) hopen.1 }
    have hknown : Known s →
        Known { s with activeChannel := none, closed := insert s.transport s.closed } :=
      fun hk p hp hopen => hk p hp fun h => hopen (Finset.mem_insert_of_mem h)
    have h := closeConnection_closes hi' hb
    exact ⟨h.inv, fun hk => h.known (hknown hk), h.checker, h.transport, h.queues, h.handle,
      h.ended⟩
  case connection.ok =>
    obtain rfl : handle = s.transport := hpc
    have hi' : Inv { s with
        activeConnection := none, activeChannel := none
        closed := insert s.transport s.closed } :=
      { hi with
        connection := nofun
        channel := nofun
        between := fun h => absurd h hb
        opened := fun hle hopen => by
          simp only [Finset.mem_insert, not_or] at hopen
          rcases hi.active hb hle hopen.2 with h | h
          · exact absurd (hi.connection h) hopen.1
          · exact absurd (hi.channel h) hopen.1 }
    exact ⟨hi'.closeFinish, fun _ => Known.closeFinish hi' hb rfl, closeFinish_checker,
      closeFinish_transport, closeFinish_queues, nofun, fun _ => Or.inr (closeFinish_activeConnection.trans rfl)⟩

theorem closeStart_handle (hi : Inv s) {pc : ClosePc} (h : s.closeStart = some pc) :
    pc.handle = s.transport ∧ ¬s.checker.Between := by
  have hb : s.checker.Between → s.closeStart = none := fun hb => by
    obtain ⟨hconn, hchan, -⟩ := hi.between hb
    simp [State.closeStart, hconn, hchan]
  refine ⟨?_, fun hbetween => by simp [hb hbetween] at h⟩
  unfold State.closeStart at h
  split at h
  · next handle hchan =>
    cases h
    exact hi.channel hchan
  · obtain ⟨handle, hconn, rfl⟩ := Option.map_eq_some_iff.mp h
    exact hi.connection hconn

theorem closeStart_eq_none (h : s.closeStart = none) :
    s.activeConnection = none ∧ s.activeChannel = none := by
  unfold State.closeStart at h
  split at h
  · cases h
  · next hchan => exact ⟨by simpa using h, hchan⟩

/-! ### The checker -/

theorem Inv.setChecker (hi : Inv s) {pc : CheckerPc}
    (hopened : ∀ τ ≤ s.transport, τ ∉ s.closed → s.activeConnection = some τ ∨
      s.activeChannel = some τ ∨ pc = .probing τ ∨ pc = .closingTemp τ)
    (hcloser : ∀ c, pc.closing = some c → c.handle = s.transport)
    (htemp : ∀ τ, pc.temp = some τ → τ = s.transport)
    (hbetween : pc.Between → s.activeConnection = none ∧ s.activeChannel = none ∧
      ∀ t c, s.consumerCancelTasks t ≠ some (.closing c))
    (hconsume : ∀ c, pc.consume = some c → c.queue ≤ s.transport ∧ c.dataType ∉ s.consumerTags)
    (hbooting : ∀ c rest, pc = .booting c rest →
      (c.dataType :: rest).Nodup ∧ ∀ t ∈ rest, t ∉ s.consumerTags) : Inv (s.setChecker pc) :=
  { hi with
    opened := fun hle => hopened _ hle
    closer := hcloser _
    temp := htemp _
    between := hbetween
    consume := hconsume _
    booting := hbooting _ _ }

/-- The checker goes back to its sleep, or to a coroutine that holds no transport. -/
theorem Inv.setChecker_of_active (hi : Inv s) {pc : CheckerPc} (hb : ¬s.checker.Between)
    (hcloser : ∀ c, pc.closing = some c → c.handle = s.transport)
    (htemp : ∀ τ, pc.temp = some τ → τ = s.transport) (hpc : ¬pc.Between)
    (hconsume : ∀ c, pc.consume = some c → c.queue ≤ s.transport ∧ c.dataType ∉ s.consumerTags)
    (hbooting : ∀ c rest, pc ≠ .booting c rest) : Inv (s.setChecker pc) :=
  hi.setChecker (fun _ hle hopen => (hi.active hb hle hopen).imp_right Or.inl) hcloser htemp
    (fun h => absurd h hpc) hconsume fun c rest h => absurd h (hbooting c rest)

theorem Inv.resubscribeNext (hi : Inv s) (hb : ¬s.checker.Between) (rest : List DataType) :
    Inv (s.resubscribeNext rest) := by
  cases rest <;> exact hi.setChecker_of_active hb nofun nofun id nofun nofun

theorem Inv.registerNext (hi : Inv s) (hb : ¬s.checker.Between) {temp : Transport}
    (htemp : temp = s.transport) (pending : Finset DataType) (rest : List DataType) :
    Inv (s.registerNext temp pending rest) := by
  induction rest with
  | nil => exact hi.setChecker_of_active hb nofun nofun id nofun nofun
  | cons t rest ih =>
    rw [State.registerNext]
    split
    · next queue hq =>
      split_ifs with ht
      · exact ih
      · refine hi.setChecker_of_active hb nofun ?_ id ?_ nofun
        · rintro _ ⟨⟩
          exact htemp
        · rintro _ ⟨⟩
          exact ⟨hi.queues hq, ht⟩
    · exact ih

/-- A transport not confirmed closed is the one opened last. -/
theorem Inv.eq_transport (hi : Inv s) {τ : Transport} (hle : τ ≤ s.transport)
    (hopen : τ ∉ s.closed) : τ = s.transport := by
  rcases hi.opened hle hopen with h | h | h | h
  · exact hi.connection h
  · exact hi.channel h
  · exact hi.temp (by rw [h]; rfl)
  · exact hi.temp (by rw [h]; rfl)

/-- The `except` path makes the temporary transport the active one. -/
theorem Inv.recoverFails (hi : Inv s) {temp : Transport} (htemp : temp = s.transport) :
    Inv (s.recoverFails temp) := by
  subst htemp
  exact { hi with
    connection := fun h => (Option.some.inj h).symm
    channel := fun h => (Option.some.inj h).symm
    queues := nofun
    opened := fun hle hopen => Or.inl (congrArg some (hi.eq_transport hle hopen).symm)
    closer := by
      rintro _ ⟨⟩
      rfl
    temp := nofun
    between := False.elim
    consume := nofun
    booting := nofun }

theorem foldl_cancelTask_consumerCancelTasks :
    (dataTypes.foldl State.cancelTask s).consumerCancelTasks = fun _ => none := by
  funext t
  cases t <;> simp [dataTypes, State.cancelTask]

theorem Inv.foldl_cancelTask (hi : Inv s) (ts : List DataType) :
    Inv (ts.foldl State.cancelTask s) := by
  induction ts generalizing s with
  | nil => exact hi
  | cons t ts ih => exact ih (hi.cancelTask t)

theorem Inv.recoverReconnect (hi : Inv s) (hb : ¬s.checker.Between) : Inv s.recoverReconnect := by
  unfold State.recoverReconnect
  split_ifs with h
  · exact hi.setChecker_of_active hb nofun nofun id nofun nofun
  · obtain ⟨hconn, hchan⟩ : s.activeConnection = none ∧ s.activeChannel = none := by
      simpa [not_or] using h
    have hi' := hi.foldl_cancelTask dataTypes
    refine { hi' with
      opened := fun {τ} hle hopen => ?_, closer := nofun, temp := nofun
      between := fun _ => ⟨hconn, hchan, fun t pc ht => ?_⟩, consume := nofun, booting := nofun }
    · rcases hi.active hb hle hopen with h' | h'
      · cases hconn.symm.trans h'
      · cases hchan.symm.trans h'
    · rw [foldl_cancelTask_consumerCancelTasks] at ht
      cases ht

theorem Inv.recoverConsumers (hi : Inv s) (hb : ¬s.checker.Between) : Inv s.recoverConsumers := by
  unfold State.recoverConsumers
  split
  · next pc hpc =>
    refine hi.setChecker_of_active hb ?_ nofun id nofun nofun
    rintro _ ⟨⟩
    exact (closeStart_handle hi hpc).1
  · exact hi.recoverReconnect hb

/-- A consume returned for a type that had no tag. -/
theorem Inv.started (hi : Inv s) (hsleeping : s.checker = .sleeping) {t : DataType}
    (ht : t ∉ s.consumerTags) : Inv (s.started t) :=
  { hi with
    consume := fun h => by
      change s.checker.consume = _ at h
      rw [hsleeping] at h
      cases h
    booting := fun h => by
      change s.checker = _ at h
      rw [hsleeping] at h
      cases h
    activeConsumers := by simp [State.started, ht, hi.activeConsumers] }

/-- The loops overwrite the place of the checker. -/
theorem registerNext_setChecker (pc : CheckerPc) (temp : Transport) (pending : Finset DataType)
    (rest : List DataType) :
    (s.setChecker pc).registerNext temp pending rest = s.registerNext temp pending rest := by
  induction rest with
  | nil => rfl
  | cons t rest ih =>
    simp only [State.registerNext, ih]
    rfl

/-- The state after a consume returned, up to where the checker goes next. -/
theorem Inv.consumed (hi : Inv s) {c : Consume} (hc : s.checker.consume = some c)
    (hb : ¬s.checker.Between) : Inv ((s.started c.dataType).setChecker .sleeping) :=
  have hsleeping : Inv (s.setChecker .sleeping) :=
    hi.setChecker_of_active hb nofun nofun id nofun nofun
  hsleeping.started rfl (hi.consume hc).2

/-- Every step of the machine preserves the invariant. -/
theorem Inv.step (hi : Inv s) {a : Action} (h : Consumers.step s a = some s') : Inv s' := by
  cases a with
  | recordStarts t | extractionCompleteStarts t =>
    simp only [Consumers.step, Option.ite_none_right_eq_some, Option.some.injEq] at h
    obtain ⟨-, rfl⟩ := h
    exact { hi.cancelTask t with }
  | recordEnds t counted | fileCompleteStarts t =>
    simp only [Consumers.step, Option.ite_none_right_eq_some, Option.some.injEq] at h
    obtain ⟨-, rfl⟩ := h
    exact { hi with }
  | fileCompleteEnds t landed =>
    simp only [Consumers.step, Option.ite_none_right_eq_some, Option.some.injEq] at h
    obtain ⟨-, rfl⟩ := h
    split_ifs
    · refine Inv.complete ?_ t
      exact { hi with }
    · exact { hi with }
  | extractionCompleteEnds t landed =>
    simp only [Consumers.step, Option.ite_none_right_eq_some, Option.some.injEq] at h
    obtain ⟨-, rfl⟩ := h
    split_ifs
    · refine Inv.complete ?_ t
      exact { hi with }
    · exact { hi with }
  | timerFires t =>
    simp only [Consumers.step] at h
    split at h
    next queue hq =>
      obtain rfl := Option.some.inj h
      refine hi.setTask (by split_ifs <;> exact nofun) fun queue' h => ?_
      have hle := hi.timerQueue (Or.inl hq)
      split_ifs at h
      · rcases h with h | h <;> cases h
        exact hle
      · rcases h with h | h <;> cases h
    next => cases h
  | cancelReturns t outcome =>
    simp only [Consumers.step] at h
    split at h
    next queue hq =>
      cases outcome with
      | ok =>
        simp only [Option.ite_none_left_eq_some] at h
        obtain ⟨-, h⟩ := h
        have hi' := hi.cancelled queue t
        split_ifs at h <;> obtain rfl := Option.some.inj h
        · refine hi'.setTask (fun pc hpc => ?_) (by rintro _ (h | h) <;> simp at h)
          obtain ⟨pc', hstart, ⟨⟩⟩ := Option.map_eq_some_iff.mp hpc
          exact closeStart_handle hi' hstart
        · exact hi'.setTask nofun (by rintro _ (h | h) <;> cases h)
      | fails removed =>
        obtain rfl := Option.some.inj h
        have hi' : Inv (s.setTask t none) :=
          hi.setTask nofun (by rintro _ (h | h) <;> cases h)
        refine { hi' with subscriptions := fun hp => hi.subscriptions ?_ }
        split_ifs at hp
        · exact Finset.mem_of_mem_erase hp
        · exact hp
    next => cases h
  | timerCloseReturns t outcome =>
    simp only [Consumers.step] at h
    split at h
    next pc hpc =>
      obtain rfl := Option.some.inj h
      have hb : ¬s.checker.Between := fun hb => (hi.between hb).2.2 t pc hpc
      have hcloses := closeStep_closes hi hb (hi.timer hpc) outcome
      refine hcloses.inv.setTask (fun pc' h => ?_) ?_
      · obtain ⟨pc'', hnext, ⟨⟩⟩ := Option.map_eq_some_iff.mp h
        exact ⟨hcloses.handle hnext, by rwa [hcloses.checker]⟩
      · rintro _ (h | h) <;> simp at h
    next => cases h
  | interruptedResumes =>
    simp only [Consumers.step, Option.ite_none_right_eq_some, Option.some.injEq] at h
    obtain ⟨-, rfl⟩ := h
    exact { hi with }
  | tick route =>
    simp only [Consumers.step, Option.ite_none_right_eq_some] at h
    obtain ⟨hsleeping, h⟩ := h
    have hb : ¬s.checker.Between := by
      rw [hsleeping]
      exact id
    cases route with
    | requested | stuck =>
      simp only [Option.ite_none_right_eq_some, Option.some.injEq] at h
      obtain ⟨-, rfl⟩ := h
      exact hi.recoverConsumers hb
    | idle =>
      simp only [Option.ite_none_left_eq_some, Option.some.injEq] at h
      obtain ⟨-, rfl⟩ := h
      exact hi.recoverConsumers hb
    | parked =>
      simp only [Option.ite_none_left_eq_some] at h
      obtain ⟨-, h⟩ := h
      split_ifs at h <;> obtain rfl := Option.some.inj h
      · exact hi.resubscribeNext hb _
      · exact hi.recoverConsumers hb
  | brokerSubscribes =>
    simp only [Consumers.step] at h
    split at h
    next c hc =>
      simp only [Option.ite_none_left_eq_some, Option.some.injEq] at h
      obtain ⟨-, rfl⟩ := h
      obtain ⟨hle, htag⟩ := hi.consume hc
      have hsub {p : Transport × DataType}
          (hp : p ∈ insert (c.queue, c.dataType) s.subscriptions) : p.1 ≤ s.transport := by
        rcases Finset.mem_insert.mp hp with rfl | hp
        · exact hle
        · exact hi.subscriptions hp
      have hi' : Inv { s with subscriptions := insert (c.queue, c.dataType) s.subscriptions } :=
        { hi with subscriptions := hsub }
      have hb : ¬s.checker.Between := by
        cases hpc : s.checker <;> rw [hpc] at hc <;> cases hc <;> exact id
      have hopened (pc : CheckerPc) (τ : Transport) (hle : τ ≤ s.transport) (hopen : τ ∉ s.closed) :
          s.activeConnection = some τ ∨ s.activeChannel = some τ ∨
            pc = .probing τ ∨ pc = .closingTemp τ := (hi.active hb hle hopen).imp_right Or.inl
      -- Only the flag of the consume in flight changes.
      cases hpc : s.checker <;> rw [hpc] at hc <;> cases hc
      case booting rest =>
        refine hi'.setChecker (hopened _) nofun nofun False.elim ?_ ?_
        · rintro _ ⟨⟩
          exact ⟨hle, htag⟩
        · rintro _ _ ⟨⟩
          have hboot := hi.booting hpc
          exact hboot
      case registering temp pending rest =>
        refine hi'.setChecker (hopened _) nofun ?_ False.elim ?_ nofun
        · rintro _ ⟨⟩
          exact hi.temp (by rw [hpc]; rfl)
        · rintro _ ⟨⟩
          exact ⟨hle, htag⟩
      case resubscribing rest =>
        refine hi'.setChecker (hopened _) nofun nofun False.elim ?_ nofun
        rintro _ ⟨⟩
        exact ⟨hle, htag⟩
    next => cases h
  | consumeReturns ok =>
    simp only [Consumers.step] at h
    split at h
    next c rest hpc =>
      simp only [Option.ite_none_right_eq_some, Option.some.injEq] at h
      obtain ⟨-, rfl⟩ := h
      have hi' := hi.consumed (c := c) (by rw [hpc]; rfl) (by rw [hpc]; exact id)
      cases rest with
      | nil => exact hi'
      | cons t rest =>
        obtain ⟨hnodup, htags⟩ := hi.booting hpc
        have hnotmem : ∀ u ∈ t :: rest, u ∉ insert c.dataType s.consumerTags := fun u hu hm => by
          rcases Finset.mem_insert.mp hm with rfl | hm
          · exact (List.nodup_cons.mp hnodup).1 hu
          · exact htags u hu hm
        refine hi'.setChecker ?_ nofun nofun False.elim ?_ ?_
        · exact fun τ hle hopen => (hi'.active id hle hopen).imp_right Or.inl
        · rintro _ ⟨⟩
          have hle : c.queue ≤ s.transport := (hi.consume (c := c) (by rw [hpc]; rfl)).1
          exact ⟨hle, hnotmem t List.mem_cons_self⟩
        · rintro _ _ ⟨⟩
          exact ⟨hnodup.of_cons, fun u hu => hnotmem u (List.mem_cons_of_mem t hu)⟩
    next temp pending c rest hpc =>
      have hb : ¬s.checker.Between := by
        rw [hpc]
        exact id
      have htemp : temp = s.transport := hi.temp (by rw [hpc]; rfl)
      split_ifs at h <;> obtain rfl := Option.some.inj h
      · have hi' := hi.consumed (c := c) (by rw [hpc]; rfl) hb
        have hi'' : Inv ((s.registered c.dataType pending).setChecker .sleeping) := { hi' with }
        rw [← registerNext_setChecker .sleeping]
        exact hi''.registerNext id htemp pending rest
      · exact hi.recoverFails htemp
    next c rest hpc =>
      have hb : ¬s.checker.Between := by
        rw [hpc]
        exact id
      split_ifs at h <;> obtain rfl := Option.some.inj h
      · have hi' := hi.consumed (c := c) (by rw [hpc]; rfl) hb
        exact (hi'.resubscribeNext id rest)
      · exact hi.resubscribeNext hb rest
    next => cases h
  | closeReturns outcome =>
    simp only [Consumers.step] at h
    split at h
    next pc hpc =>
      obtain rfl := Option.some.inj h
      have hb : ¬s.checker.Between := by
        rw [hpc]
        exact id
      have hcloses := closeStep_closes hi hb (hi.closer (by rw [hpc]; rfl)) outcome
      have hb' : ¬(closeStep s pc outcome).1.checker.Between := by rwa [hcloses.checker]
      split
      · next pc' hnext =>
        refine hcloses.inv.setChecker_of_active hb' ?_ nofun id nofun nofun
        rintro _ ⟨⟩
        exact hcloses.handle hnext
      · exact hcloses.inv.recoverReconnect hb'
    next pc hpc =>
      obtain rfl := Option.some.inj h
      have hb : ¬s.checker.Between := by
        rw [hpc]
        exact id
      have hcloses := closeStep_closes hi hb (hi.closer (by rw [hpc]; rfl)) outcome
      have hb' : ¬(closeStep s pc outcome).1.checker.Between := by rwa [hcloses.checker]
      split
      · next pc' hnext =>
        refine hcloses.inv.setChecker_of_active hb' ?_ nofun id nofun nofun
        rintro _ ⟨⟩
        exact hcloses.handle hnext
      · exact hcloses.inv.setChecker_of_active hb' nofun nofun id nofun nofun
    next => cases h
  | connectReturns ok =>
    simp only [Consumers.step, Option.ite_none_right_eq_some, Option.some.injEq] at h
    obtain ⟨hpc, rfl⟩ := h
    obtain ⟨hconn, hchan, hnone⟩ := hi.between (by rw [hpc]; trivial)
    have hclosed : ∀ τ ≤ s.transport, τ ∈ s.closed := fun τ hle => by
      by_contra hopen
      have := hi.opened hle hopen
      simp [hconn, hchan, hpc] at this
    cases ok
    · exact { hi with
        opened := fun hle hopen => absurd (hclosed _ hle) hopen, closer := nofun, temp := nofun
        between := False.elim, consume := nofun, booting := nofun }
    · have hle : s.transport ≤ s.transport + 1 := Nat.le_succ _
      exact {
        connection := fun h => by cases hconn.symm.trans h
        channel := fun h => by cases hchan.symm.trans h
        timer := fun h => absurd h (hnone _ _)
        timerQueue := fun h => (hi.timerQueue h).trans hle
        queues := fun h => (hi.queues h).trans hle
        subscriptions := fun h => (hi.subscriptions h).trans hle
        opened := fun {τ} hτ hopen => by
          have hτ : τ = s.transport + 1 := by
            by_contra hne
            have hτ : τ ≤ s.transport + 1 := hτ
            exact hopen (hclosed τ (Nat.le_of_lt_succ (lt_of_le_of_ne hτ hne)))
          exact Or.inr (Or.inr (Or.inl (congrArg CheckerPc.probing hτ.symm)))
        closer := nofun
        temp := fun h => (Option.some.inj h).symm
        between := fun _ => ⟨hconn, hchan, hnone⟩
        consume := nofun
        booting := nofun
        activeConsumers := hi.activeConsumers }
  | probeReturns pending =>
    simp only [Consumers.step] at h
    split at h
    next temp hpc =>
      obtain rfl : temp = s.transport := hi.temp (by rw [hpc]; rfl)
      have hbetween := hi.between (by rw [hpc]; trivial)
      cases pending with
      | none =>
        obtain rfl := Option.some.inj h
        exact hi.recoverFails rfl
      | some pending =>
        dsimp only at h
        split_ifs at h <;> obtain rfl := Option.some.inj h
        · refine hi.setChecker (fun τ hle hopen => ?_) nofun ?_ (fun _ => hbetween) nofun nofun
          · exact Or.inr (Or.inr (Or.inr (congrArg _ (hi.eq_transport hle hopen).symm)))
          · rintro _ ⟨⟩
            rfl
        · exact { hi with
            connection := fun h => (Option.some.inj h).symm
            channel := fun h => (Option.some.inj h).symm
            opened := fun hle hopen => Or.inl (congrArg some (hi.eq_transport hle hopen).symm)
            closer := nofun, temp := fun h => (Option.some.inj h).symm, between := False.elim
            consume := nofun, booting := nofun }
    next => cases h
  | tempCloses ok =>
    simp only [Consumers.step] at h
    split at h
    next temp hpc =>
      obtain rfl : temp = s.transport := hi.temp (by rw [hpc]; rfl)
      obtain rfl := Option.some.inj h
      cases ok
      · exact hi.recoverFails rfl
      · exact { hi with
          opened := fun {τ} hle (hopen : τ ∉ insert s.transport s.closed) => by
            rw [Finset.mem_insert, not_or] at hopen
            exact absurd (hi.eq_transport hle hopen.2) hopen.1
          closer := nofun, temp := nofun, between := False.elim, consume := nofun
          booting := nofun }
    next => cases h
  | qosReturns ok =>
    simp only [Consumers.step] at h
    split at h
    next temp pending hpc =>
      have htemp : temp = s.transport := hi.temp (by rw [hpc]; rfl)
      have hb : ¬s.checker.Between := by
        rw [hpc]
        exact id
      obtain rfl := Option.some.inj h
      cases ok
      · exact hi.recoverFails htemp
      · exact { hi with
          queues := nofun
          opened := fun hle hopen => (hi.active hb hle hopen).imp_right Or.inl
          closer := nofun, temp := fun h => (Option.some.inj h).symm.trans htemp
          between := False.elim, consume := nofun, booting := nofun }
    next => cases h
  | declareReturns ok =>
    simp only [Consumers.step] at h
    split at h
    next temp pending rest hpc =>
      have htemp : temp = s.transport := hi.temp (by rw [hpc]; rfl)
      have hb : ¬s.checker.Between := by
        rw [hpc]
        exact id
      split_ifs at h with hok
      · cases rest with
        | nil => cases h
        | cons t rest =>
          have hi' : Inv { s with queues := Function.update s.queues t (some temp) } :=
            { hi with
              queues := fun {t' τ} (hq : Function.update s.queues t (some temp) t' = some τ) => by
                rcases eq_or_ne t' t with rfl | hne
                · rw [Function.update_self] at hq
                  exact ((Option.some.inj hq).symm.trans htemp).le
                · rw [Function.update_of_ne hne] at hq
                  exact hi.queues hq }
          obtain rfl := Option.some.inj h
          split_ifs
          · exact hi'.registerNext hb htemp pending dataTypes
          · exact hi'.setChecker_of_active hb nofun
              (fun τ h => (Option.some.inj h).symm.trans htemp) id nofun nofun
      · obtain rfl := Option.some.inj h
        exact hi.recoverFails htemp
    next => cases h
  | depthReturns positive =>
    simp only [Consumers.step] at h
    split at h
    next t rest hpc =>
      have hb : ¬s.checker.Between := by
        rw [hpc]
        exact id
      split at h
      next queue hq =>
        split_ifs at h with hconsume <;> obtain rfl := Option.some.inj h
        · refine hi.setChecker_of_active hb nofun nofun id ?_ nofun
          rintro _ ⟨⟩
          exact ⟨hi.queues hq, hconsume.2.1⟩
        · exact hi.resubscribeNext hb rest
      next =>
        obtain rfl := Option.some.inj h
        exact hi.resubscribeNext hb rest
    next => cases h

/-! ### The subscriptions -/

theorem Held.known (hh : Held s) : Known s := fun p hp hopen =>
  (hh p hp hopen).imp_right Or.inl

theorem Known.held (hk : Known s)
    (hnone : ∀ c, s.checker.consume = some c → c.subscribed = false) : Held s := by
  intro p hp hopen
  rcases hk p hp hopen with h | h | ⟨c, hc, hsub, -⟩
  · exact Or.inl h
  · exact Or.inr h
  · rw [hnone c hc] at hsub
    cases hsub

theorem Held.of_requested (h : s.consumerRecoveryRequested = true) : Held s :=
  fun _ _ _ => Or.inr h

/-- A consume returned, and its type has its tag. -/
theorem Known.held_started (hk : Known s) {c : Consume} (hc : s.checker.consume = some c) :
    Held (s.started c.dataType) := by
  intro p hp hopen
  rcases hk p hp hopen with h | h | ⟨c', hc', -, -, htype⟩
  · exact Or.inl (Finset.mem_insert_of_mem h)
  · exact Or.inr h
  · obtain rfl : c = c' := Option.some.inj (hc.symm.trans hc')
    exact Or.inl (htype ▸ Finset.mem_insert_self ..)

theorem Held.registerNext (hh : Held s) (temp : Transport) (pending : Finset DataType)
    (rest : List DataType) : Held (s.registerNext temp pending rest) := by
  induction rest with
  | nil => exact hh
  | cons t rest ih =>
    rw [State.registerNext]
    split
    · split_ifs
      · exact ih
      · exact hh
    · exact ih

theorem Held.resubscribeNext (hh : Held s) (rest : List DataType) :
    Held (s.resubscribeNext rest) := by
  cases rest <;> exact hh

theorem Held.recoverReconnect (hi : Inv s) (hb : ¬s.checker.Between) (hh : Held s) :
    Held s.recoverReconnect := by
  unfold State.recoverReconnect
  split_ifs with h
  · exact hh
  · intro p hp hopen
    obtain ⟨hconn, hchan⟩ : s.activeConnection = none ∧ s.activeChannel = none := by
      simpa [not_or] using h
    rcases hi.active hb (hi.subscriptions hp) hopen with h' | h'
    · cases hconn.symm.trans h'
    · cases hchan.symm.trans h'

theorem Held.recoverConsumers (hi : Inv s) (hb : ¬s.checker.Between) (hh : Held s) :
    Held s.recoverConsumers := by
  unfold State.recoverConsumers
  split
  · exact hh
  · exact hh.recoverReconnect hi hb

theorem Known.complete (hk : Known s) (t : DataType) : Known (s.complete t) := by
  unfold State.complete
  dsimp only
  split
  · split_ifs <;> exact hk
  · exact hk

/-- The broker confirmed the cancel of `t` on an open transport: the subscription of `t` that is
left, if any, is on a closed one. -/
theorem Known.cancelled (hi : Inv s) (hk : Known s) {queue : Transport} {t : DataType}
    (hle : queue ≤ s.transport) (hopen : queue ∉ s.closed) : Known (s.cancelled queue t) := by
  have hgone {p : Transport × DataType} (hp : p ∈ s.subscriptions.erase (queue, t))
      (hpopen : p.1 ∉ s.closed) : p.2 ≠ t := by
    rintro rfl
    obtain ⟨hne, hmem⟩ := Finset.mem_erase.mp hp
    exact hne (Prod.ext ((hi.eq_transport (hi.subscriptions hmem) hpopen).trans
      (hi.eq_transport hle hopen).symm) rfl)
  intro p hp hpopen
  exact (hk p (Finset.mem_of_mem_erase hp) hpopen).imp_left fun h =>
    Finset.mem_erase.mpr ⟨hgone hp hpopen, h⟩

/-- Every step in which no consume of `recover_parked_markers` fails after it took effect keeps
the subscriptions known. -/
theorem Known.step (hi : Inv s) (hk : Known s) {a : Action} (hok : ResubscribeUnambiguous s a)
    (h : Consumers.step s a = some s') : Known s' := by
  cases a with
  | recordStarts t | extractionCompleteStarts t | recordEnds t counted | fileCompleteStarts t =>
    simp only [Consumers.step, Option.ite_none_right_eq_some, Option.some.injEq] at h
    obtain ⟨-, rfl⟩ := h
    exact hk
  | fileCompleteEnds t landed | extractionCompleteEnds t landed =>
    simp only [Consumers.step, Option.ite_none_right_eq_some, Option.some.injEq] at h
    obtain ⟨-, rfl⟩ := h
    split_ifs
    · refine Known.complete ?_ t
      exact hk
    · exact hk
  | timerFires t =>
    simp only [Consumers.step] at h
    split at h
    · obtain rfl := Option.some.inj h
      exact hk
    · cases h
  | cancelReturns t outcome =>
    simp only [Consumers.step] at h
    split at h
    next queue hq =>
      cases outcome with
      | ok =>
        simp only [Option.ite_none_left_eq_some] at h
        obtain ⟨hopen, h⟩ := h
        have hk' := Known.cancelled (t := t) hi hk (hi.timerQueue (Or.inr hq)) hopen
        split_ifs at h <;> obtain rfl := Option.some.inj h <;> exact hk'
      | fails removed =>
        obtain rfl := Option.some.inj h
        exact (Held.of_requested rfl).known
    next => cases h
  | timerCloseReturns t outcome =>
    simp only [Consumers.step] at h
    split at h
    next pc hpc =>
      obtain rfl := Option.some.inj h
      have hb : ¬s.checker.Between := fun hb => (hi.between hb).2.2 t pc hpc
      exact (closeStep_closes hi hb (hi.timer hpc) outcome).known hk
    next => cases h
  | interruptedResumes =>
    simp only [Consumers.step, Option.ite_none_right_eq_some, Option.some.injEq] at h
    obtain ⟨-, rfl⟩ := h
    exact (Held.of_requested rfl).known
  | brokerSubscribes =>
    simp only [Consumers.step] at h
    split at h
    next c hc =>
      simp only [Option.ite_none_left_eq_some, Option.some.injEq, not_or] at h
      obtain ⟨⟨-, hsub⟩, rfl⟩ := h
      have hh : Held s := hk.held fun c' hc' => by
        obtain rfl : c = c' := Option.some.inj (hc.symm.trans hc')
        simpa using hsub
      intro p hp hopen
      rcases Finset.mem_insert.mp hp with rfl | hp
      · refine Or.inr (Or.inr ⟨{ c with subscribed := true }, ?_, rfl, rfl, rfl⟩)
        change s.checker.subscribe.consume = _
        cases hpc : s.checker <;> rw [hpc] at hc <;> cases hc <;> rfl
      · exact (hh p hp hopen).imp_right Or.inl
    next => cases h
  | consumeReturns ok =>
    simp only [Consumers.step] at h
    split at h
    next c rest hpc =>
      simp only [Option.ite_none_right_eq_some, Option.some.injEq] at h
      obtain ⟨-, rfl⟩ := h
      have hh := hk.held_started (c := c) (by rw [hpc]; rfl)
      exact Held.known hh
    next temp pending c rest hpc =>
      split_ifs at h <;> obtain rfl := Option.some.inj h
      · have hh := hk.held_started (c := c) (by rw [hpc]; rfl)
        have hh' : Held (s.registered c.dataType pending) := hh
        exact (hh'.registerNext temp pending rest).known
      · exact (Held.of_requested rfl).known
    next c rest hpc =>
      split_ifs at h with hret <;> obtain rfl := Option.some.inj h
      · exact ((hk.held_started (c := c) (by rw [hpc]; rfl)).resubscribeNext rest).known
      · obtain rfl : ok = false := by simpa using hret
        have hh : Held s := hk.held fun c' hc' => by
          rw [hpc] at hc'
          cases hc'
          exact hok c rest hpc
        exact (hh.resubscribeNext rest).known
    next => cases h
  | tick route =>
    simp only [Consumers.step, Option.ite_none_right_eq_some] at h
    obtain ⟨hsleeping, h⟩ := h
    have hb : ¬s.checker.Between := by
      rw [hsleeping]
      exact id
    have hh : Held s := hk.held fun c hc => by
      rw [hsleeping] at hc
      cases hc
    cases route with
    | requested | stuck =>
      simp only [Option.ite_none_right_eq_some, Option.some.injEq] at h
      obtain ⟨-, rfl⟩ := h
      exact (hh.recoverConsumers hi hb).known
    | idle =>
      simp only [Option.ite_none_left_eq_some, Option.some.injEq] at h
      obtain ⟨-, rfl⟩ := h
      exact (hh.recoverConsumers hi hb).known
    | parked =>
      simp only [Option.ite_none_left_eq_some] at h
      obtain ⟨-, h⟩ := h
      split_ifs at h <;> obtain rfl := Option.some.inj h
      · exact (hh.resubscribeNext _).known
      · exact (hh.recoverConsumers hi hb).known
  | closeReturns outcome =>
    simp only [Consumers.step] at h
    split at h
    next pc hpc =>
      obtain rfl := Option.some.inj h
      have hb : ¬s.checker.Between := by
        rw [hpc]
        exact id
      have hcloses := closeStep_closes hi hb (hi.closer (by rw [hpc]; rfl)) outcome
      have hh : Held (closeStep s pc outcome).1 := (hcloses.known hk).held fun c hc => by
        rw [hcloses.checker, hpc] at hc
        cases hc
      split
      · exact Held.known hh
      · exact (hh.recoverReconnect hcloses.inv (by rwa [hcloses.checker])).known
    next pc hpc =>
      obtain rfl := Option.some.inj h
      have hb : ¬s.checker.Between := by
        rw [hpc]
        exact id
      have hcloses := closeStep_closes hi hb (hi.closer (by rw [hpc]; rfl)) outcome
      have hh : Held (closeStep s pc outcome).1 := (hcloses.known hk).held fun c hc => by
        rw [hcloses.checker, hpc] at hc
        cases hc
      exact Held.known hh
    next => cases h
  | connectReturns ok =>
    simp only [Consumers.step, Option.ite_none_right_eq_some, Option.some.injEq] at h
    obtain ⟨hpc, rfl⟩ := h
    have hh : Held s := hk.held (by rw [hpc]; exact nofun)
    cases ok
    · exact (Held.of_requested rfl).known
    · exact Held.known hh
  | probeReturns pending =>
    simp only [Consumers.step] at h
    split at h
    next temp hpc =>
      have hh : Held s := hk.held (by rw [hpc]; exact nofun)
      cases pending with
      | none =>
        obtain rfl := Option.some.inj h
        exact (Held.of_requested rfl).known
      | some pending =>
        dsimp only at h
        split_ifs at h <;> obtain rfl := Option.some.inj h <;> exact Held.known hh
    next => cases h
  | tempCloses ok =>
    simp only [Consumers.step] at h
    split at h
    next temp hpc =>
      have hh : Held s := hk.held (by rw [hpc]; exact nofun)
      obtain rfl := Option.some.inj h
      cases ok
      · exact (Held.of_requested rfl).known
      · have hh' : Held { s with closed := insert temp s.closed } := fun p hp hopen =>
          hh p hp fun hm => hopen (Finset.mem_insert_of_mem hm)
        exact Held.known hh'
    next => cases h
  | qosReturns ok =>
    simp only [Consumers.step] at h
    split at h
    next temp pending hpc =>
      have hh : Held s := hk.held (by rw [hpc]; exact nofun)
      obtain rfl := Option.some.inj h
      cases ok
      · exact (Held.of_requested rfl).known
      · exact Held.known hh
    next => cases h
  | declareReturns ok =>
    simp only [Consumers.step] at h
    split at h
    next temp pending rest hpc =>
      have hh : Held s := hk.held (by rw [hpc]; exact nofun)
      split_ifs at h
      · cases rest with
        | nil => cases h
        | cons t rest =>
          have hh' : Held { s with queues := Function.update s.queues t (some temp) } := hh
          obtain rfl := Option.some.inj h
          split_ifs
          · exact (hh'.registerNext temp pending dataTypes).known
          · exact Held.known hh'
      · obtain rfl := Option.some.inj h
        exact (Held.of_requested rfl).known
    next => cases h
  | depthReturns positive =>
    simp only [Consumers.step] at h
    split at h
    next t rest hpc =>
      have hh : Held s := hk.held (by rw [hpc]; exact nofun)
      split at h
      · split_ifs at h <;> obtain rfl := Option.some.inj h
        · exact Held.known hh
        · exact (hh.resubscribeNext rest).known
      · obtain rfl := Option.some.inj h
        exact (hh.resubscribeNext rest).known
    next => cases h

end Graphinator.Consumers
