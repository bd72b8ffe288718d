import Graphinator.Aggregates
import Graphinator.MaintenanceStamps

/-!
# What a stamp says about the aggregates

The maintenance tasks and the graph that they work on, as one transition system. The statements of
a page commit one by one, before the page returns to its task; the writers of the catalog, the
cleanups and the backfills commit between any two of them. A page that returned was swept over a
graph that may have changed since: a record that is written changes what the aggregates should be.

A stamp is written after the sweeps of its run key, made in one attempt or in several, have run to
their ends. If no record was written since the first of these attempts started a step, the
aggregates of all nodes are exact when the stamp commits.

## Main definitions

* `World`, `World.Step`, `World.Reachable` : the tasks and the graph.
* `World.Undisturbed` : no record was written since a step started under a run key.
* `World.Inv` : the invariant.

## Main results

* `Task.step_resumed` : the pages an action of a task logs, and the sweeps it goes on with.
* `World.Inv.step` : every step keeps the invariant.
* `stamped_aggregates_exact` : what a stamp says.
-/

namespace Graphinator.Maintenance

open PropertyGraph PyValue

/-! ### What an action of a task logs -/

section Tasks

variable {κ : Type} [LinearOrder κ] [OrderBot κ]

/-- The task sweeps in a step. -/
def Task.Sweeps (t : Task κ) (step : StepName) : Prop :=
  ∃ rest ok sweep later pc, t.pc = .sweeping step rest ok sweep later pc

/-- A task that goes on from `t` sweeps in a step that was started, and not yet a page. -/
structure Started (t : Task κ) (steps : StepName → Prop)
    (next : Option (Task κ) × List (Event κ)) : Prop where
  quiet : ∀ A sweep keys cursor page, .page A sweep keys cursor page ∉ next.2
  sweeps {t' : Task κ} {step : StepName} : next.1 = some t' → t'.Sweeps step →
    t'.attempt = t.attempt ∧ (.stepStarted t.attempt step ∈ next.2 ∨ steps step)
  paging {t' : Task κ} : next.1 = some t' →
    ∀ step rest ok sweep later l, t'.pc ≠ .sweeping step rest ok sweep later (.paging l)

omit [LinearOrder κ] [OrderBot κ] in
/-- A task that is done, or at no sweep. -/
theorem started_of_idle {t : Task κ} {steps : StepName → Prop} {task : Option (Task κ)}
    {events : List (Event κ)}
    (hevents : ∀ A sweep keys cursor page, .page A sweep keys cursor page ∉ events)
    (hidle : ∀ t', task = some t' →
      ∀ step rest ok sweep later pc, t'.pc ≠ .sweeping step rest ok sweep later pc) :
    Started t steps (task, events) where
  quiet := hevents
  sweeps {t' step} ht' hsweeps := by
    obtain ⟨rest, ok, sweep, later, pc, hpc⟩ := hsweeps
    exact absurd hpc (hidle t' ht' _ _ _ _ _ _)
  paging {t'} ht' step rest ok sweep later l := hidle t' ht' _ _ _ _ _ _

omit [LinearOrder κ] [OrderBot κ] in
theorem not_sweeping_of_over {t : Task κ} (hpc : t.pc = .delaying ∨ t.pc = .recording)
    (step : StepName) (rest : List StepName) (ok : Bool) (sweep : SweepName)
    (later : List SweepName) (pc : SweepPc κ) : t.pc ≠ .sweeping step rest ok sweep later pc := by
  rcases hpc with hpc | hpc <;> rw [hpc] <;> rintro ⟨⟩

omit [LinearOrder κ] [OrderBot κ] in
theorem started_nextStep (t : Task κ) (steps : StepName → Prop) (rest : List StepName) :
    Started t steps (t.nextStep rest) := by
  cases rest with
  | nil =>
    refine started_of_idle (by simp) fun t' ht' => ?_
    obtain ⟨-, ⟨-, hpc⟩ | hpc⟩ := afterSteps_eq_some ht'
    · rw [hpc]
      rintro _ _ _ _ _ _ ⟨⟩
    · exact not_sweeping_of_over hpc
  | cons step rest =>
    refine ⟨by simp [Task.nextStep], fun {t' step'} ht' hsweeps => ?_, fun {t'} ht' => ?_⟩
    · obtain rfl := Option.some.inj ht'
      obtain ⟨rest', ok, sweep, later, pc, hpc⟩ := hsweeps
      refine ⟨rfl, Or.inl ?_⟩
      have hstep : step = step' := by
        cases hs : step.sweeps with
        | nil => simp [hs] at hpc
        | cons sweep later => simpa [hs] using (show _ ∧ _ from by simpa [hs] using hpc).1
      exact hstep ▸ List.mem_singleton_self _
    · obtain rfl := Option.some.inj ht'
      rintro step' rest' ok sweep later l hpc
      cases hs : step.sweeps with
      | nil => simp [hs] at hpc
      | cons sweep later => simp [hs] at hpc

omit [LinearOrder κ] [OrderBot κ] in
theorem started_stepEnds (t : Task κ) (steps : StepName → Prop) (step : StepName)
    (rest : List StepName) (failure : Option String) :
    Started t steps (t.stepEnds step rest failure) := by
  have h := started_nextStep { t with failedSteps := t.failedSteps ++ failure.toList } steps rest
  refine ⟨fun A sweep keys cursor page hmem => ?_, fun ht' hsweeps => ?_, h.paging⟩
  · rcases List.mem_cons.mp hmem with heq | hmem
    · cases heq
    · exact h.quiet _ _ _ _ _ hmem
  · exact (h.sweeps ht' hsweeps).imp_right (Or.imp_left (List.mem_cons_of_mem _))

omit [LinearOrder κ] [OrderBot κ] in
theorem started_sweepEnds (t : Task κ) (step : StepName) (rest : List StepName) (ok : Bool)
    (later : List SweepName) : Started t (· = step) (t.sweepEnds step rest ok later) := by
  cases later with
  | nil => exact started_stepEnds ..
  | cons sweep later =>
    refine ⟨by simp [Task.sweepEnds], fun {t' step'} ht' hsweeps => ?_, fun {t'} ht' => ?_⟩
    · obtain rfl := Option.some.inj ht'
      obtain ⟨rest', ok', sweep', later', pc, hpc⟩ := hsweeps
      cases hpc
      exact ⟨rfl, Or.inr rfl⟩
    · obtain rfl := Option.some.inj ht'
      rintro step' rest' ok' sweep' later' l ⟨⟩

/-- What an action of a task logs, and where the task goes on. -/
structure Resumed (s : State κ) (t : Task κ) (b : TaskAction κ) (o : Outcome κ) : Prop where
  /-- A page is logged when it returns, with the keys that there are. -/
  page {A : Attempt} {sweep : SweepName} {keys : Finset κ} {cursor : κ} {page : List κ} :
    .page A sweep keys cursor page ∈ o.events → b = .pageReturns page ∧ A = t.attempt ∧
      keys = s.keys sweep ∧
        ∃ step rest ok later l, t.pc = .sweeping step rest ok sweep later (.paging l)
  /-- The task sweeps in a step that the action started, or that it was in. -/
  sweeps {t' : Task κ} {step : StepName} : o.task = some t' → t'.Sweeps step →
    t'.attempt = t.attempt ∧ (.stepStarted t.attempt step ∈ o.events ∨ t.Sweeps step)
  /-- A page statement begins when `before_page` returns. -/
  paging {t' : Task κ} {step : StepName} {rest : List StepName} {ok : Bool} {sweep : SweepName}
    {later : List SweepName} {l : SweepLocals κ} : o.task = some t' →
      t'.pc = .sweeping step rest ok sweep later (.paging l) → b = .beforePageReturns

variable {s : State κ} {t : Task κ} {b : TaskAction κ} {o : Outcome κ}

theorem Started.resumed {steps : StepName → Prop} {next : Option (Task κ) × List (Event κ)}
    (h : Started t steps next) (hsteps : ∀ step, steps step → t.Sweeps step)
    {events : List (Event κ)}
    (hevents : ∀ A sweep keys cursor page, .page A sweep keys cursor page ∉ events)
    {commits abandons : Bool} :
    Resumed s t b { task := next.1, events := events ++ next.2, commits, abandons } where
  page hmem := by
    rcases List.mem_append.mp hmem with hmem | hmem
    · exact absurd hmem (hevents _ _ _ _ _)
    · exact absurd hmem (h.quiet _ _ _ _ _)
  sweeps ht' hsweeps := (h.sweeps ht' hsweeps).imp_right
    (Or.imp (List.mem_append_right _) (hsteps _))
  paging ht' hpc := absurd hpc (h.paging ht' _ _ _ _ _ _)

theorem resumed_of_idle {task : Option (Task κ)} {events : List (Event κ)}
    (hevents : ∀ A sweep keys cursor page, .page A sweep keys cursor page ∉ events)
    (hidle : ∀ t', task = some t' →
      ∀ step rest ok sweep later pc, t'.pc ≠ .sweeping step rest ok sweep later pc)
    {commits abandons : Bool} : Resumed s t b { task, events, commits, abandons } := by
  have hstarted : Started t (fun _ => False) (task, events) := started_of_idle hevents hidle
  have hresumed : Resumed s t b { task, events := [] ++ events, commits, abandons } :=
    hstarted.resumed (fun _ h => h.elim) fun _ _ _ _ _ => List.not_mem_nil
  rwa [List.nil_append] at hresumed

/-- The task goes on with its sweep, and not into a page. -/
theorem resumed_goto {step : StepName} {rest : List StepName} {ok : Bool} {sweep : SweepName}
    {later : List SweepName} {pc pc' : SweepPc κ}
    (hpc : t.pc = .sweeping step rest ok sweep later pc)
    (hpaging : ∀ l, pc' = .paging l → b = .beforePageReturns) :
    Resumed s t b (t.goto (.sweeping step rest ok sweep later pc')) where
  page hmem := by cases hmem
  sweeps {t' step'} ht' hsweeps := by
    obtain rfl := Option.some.inj ht'
    obtain ⟨rest', ok', sweep', later', pc'', hpc''⟩ := hsweeps
    cases hpc''
    exact ⟨rfl, Or.inr ⟨_, _, _, _, _, hpc⟩⟩
  paging {t' step' rest' ok' sweep' later' l} ht' hpc' := by
    obtain rfl := Option.some.inj ht'
    cases hpc'
    exact hpaging l rfl

/-- A sweep goes on. -/
theorem resumed_sweepStep {step : StepName} {rest : List StepName} {ok : Bool} {sweep : SweepName}
    {later : List SweepName} {pc : SweepPc κ} (hpc : t.pc = .sweeping step rest ok sweep later pc)
    (hs : t.sweepStep s step rest ok sweep later pc b = some o) : Resumed s t b o := by
  have hin : ∀ step', step' = step → t.Sweeps step' := by
    rintro _ rfl
    exact ⟨_, _, _, _, _, hpc⟩
  have hends (ok : Bool) {events : List (Event κ)} {commits abandons : Bool}
      (hevents : ∀ A sweep keys cursor page, .page A sweep keys cursor page ∉ events) :
      Resumed s t b { task := (t.sweepEnds step rest ok later).1
                      events := events ++ (t.sweepEnds step rest ok later).2, commits, abandons } :=
    (started_sweepEnds t step rest ok later).resumed hin hevents
  cases b with
  | readReturns =>
    simp only [Task.sweepStep] at hs
    split at hs
    · obtain rfl := Option.some.inj hs
      split_ifs
      · exact hends ok (by simp)
      · exact resumed_goto hpc (by rintro _ ⟨⟩)
    · cases hs
  | readRaises =>
    simp only [Task.sweepStep] at hs
    split at hs
    · obtain rfl := Option.some.inj hs
      exact hends false (by simp)
    · cases hs
  | beforePageReturns =>
    simp only [Task.sweepStep] at hs
    split at hs
    · obtain rfl := Option.some.inj hs
      exact resumed_goto hpc fun _ _ => rfl
    · cases hs
  | beforePageRaises =>
    simp only [Task.sweepStep] at hs
    split at hs
    · obtain rfl := Option.some.inj hs
      exact hends false (by simp)
    · cases hs
  | beforePageStops =>
    simp only [Task.sweepStep] at hs
    split at hs
    · obtain rfl := Option.some.inj hs
      exact resumed_of_idle (by simp) fun t' ht' => by cases ht'
    · cases hs
  | pageReturns page =>
    simp only [Task.sweepStep] at hs
    split at hs
    · next l =>
      split_ifs at hs
      obtain rfl := Option.some.inj hs
      refine ⟨fun hmem => ?_, fun ht' hsweeps => ?_, fun ht' hpc' => ?_⟩
      · cases List.mem_singleton.mp hmem
        exact ⟨rfl, rfl, rfl, _, _, _, _, _, hpc⟩
      · obtain rfl := Option.some.inj ht'
        obtain ⟨rest', ok', sweep', later', pc'', hpc''⟩ := hsweeps
        cases hpc''
        exact ⟨rfl, Or.inr (hin _ rfl)⟩
      · obtain rfl := Option.some.inj ht'
        cases hlast : page.getLast? <;> simp [Sweep.afterPage, hlast] at hpc'
    · cases hs
  | pageRaises retryable =>
    simp only [Task.sweepStep] at hs
    split at hs
    · next l =>
      split at hs
      · obtain rfl := Option.some.inj hs
        exact hends false (by simp)
      · next pc' =>
        obtain rfl := Option.some.inj hs
        refine resumed_goto hpc ?_
        intro l' hafter'
        unfold Sweep.afterError at hafter'
        split_ifs at hafter'
    · cases hs
  | sleepReturns =>
    simp only [Task.sweepStep] at hs
    split at hs
    · obtain rfl := Option.some.inj hs
      exact resumed_goto hpc (by rintro _ ⟨⟩)
    · cases hs
  | writeReturns =>
    simp only [Task.sweepStep] at hs
    split at hs
    · next l done =>
      obtain rfl := Option.some.inj hs
      cases done with
      | true => exact hends ok (by simp)
      | false =>
        have hgoto : Resumed s t .writeReturns
            (t.goto (.sweeping step rest ok sweep later (.before l))) :=
          resumed_goto hpc (by rintro _ ⟨⟩)
        exact ⟨hgoto.page, hgoto.sweeps, hgoto.paging⟩
    · cases hs
  | writeRaises =>
    simp only [Task.sweepStep] at hs
    split at hs
    · obtain rfl := Option.some.inj hs
      exact hends false (by simp)
    · cases hs
  | _ => simp [Task.sweepStep] at hs

/-- **What an action of a task logs, and where the task goes on.** -/
theorem Task.step_resumed {p : Process} (hs : t.step s p b = some o) : Resumed s t b o := by
  have hnext (rest : List StepName) {events : List (Event κ)} {commits abandons : Bool}
      (hevents : ∀ A sweep keys cursor page, .page A sweep keys cursor page ∉ events) :
      Resumed s t b { task := (t.nextStep rest).1, events := events ++ (t.nextStep rest).2,
                      commits, abandons } :=
    (started_nextStep t (fun _ => False) rest).resumed (fun _ h => h.elim) hevents
  have hends (step : StepName) (rest : List StepName) (failure : Option String) :
      Resumed s t b { task := (t.stepEnds step rest failure).1
                      events := [] ++ (t.stepEnds step rest failure).2 } :=
    (started_stepEnds t (fun _ => False) step rest failure).resumed (fun _ h => h.elim) (by simp)
  have hretry (failure : String) {events : List (Event κ)} {commits abandons : Bool}
      (hevents : ∀ A sweep keys cursor page, .page A sweep keys cursor page ∉ events) :
      Resumed s t b { task := t.retry failure, events, commits, abandons } :=
    resumed_of_idle hevents fun t' ht' => not_sweeping_of_over (retry_eq_some ht').2
  cases hpc : t.pc with
  | entering =>
    cases b with
    | enter =>
      simp only [Task.step, hpc] at hs
      split_ifs at hs
      · obtain rfl := Option.some.inj hs
        exact hnext _ (by simp)
      · obtain rfl := Option.some.inj hs
        exact resumed_of_idle (by simp) fun t' ht' => by cases ht'
      · obtain rfl := Option.some.inj hs
        refine resumed_of_idle (by simp) fun t' ht' => ?_
        obtain rfl := Option.some.inj ht'
        rintro _ _ _ _ _ _ ⟨⟩
      · obtain rfl := Option.some.inj hs
        exact hnext _ (by simp)
    | _ => simp [Task.step, hpc] at hs
  | draining =>
    cases b with
    | flushAllReturns drained =>
      simp only [Task.step, hpc] at hs
      obtain rfl := Option.some.inj hs
      split_ifs
      · exact hnext _ (by simp)
      · refine resumed_of_idle (by simp) fun t' ht' => ?_
        obtain ⟨-, ⟨-, hpc'⟩ | hpc'⟩ := afterSteps_eq_some ht'
        · rw [hpc']
          rintro _ _ _ _ _ _ ⟨⟩
        · exact not_sweeping_of_over hpc'
    | flushAllRaises error =>
      simp only [Task.step, hpc] at hs
      obtain rfl := Option.some.inj hs
      exact hretry _ (by simp)
    | _ => simp [Task.step, hpc] at hs
  | cleaning step rest =>
    cases b with
    | cleanupReturns ok =>
      simp only [Task.step, hpc] at hs
      obtain rfl := Option.some.inj hs
      exact hends step rest _
    | cleanupRaises error =>
      simp only [Task.step, hpc] at hs
      obtain rfl := Option.some.inj hs
      exact hends step rest _
    | _ => simp [Task.step, hpc] at hs
  | sweeping step rest ok sweep later pc =>
    simp only [Task.step, hpc] at hs
    exact resumed_sweepStep hpc hs
  | stamping =>
    cases b with
    | stampReturns =>
      simp only [Task.step, hpc] at hs
      split_ifs at hs
      obtain rfl := Option.some.inj hs
      exact resumed_of_idle (by simp) fun t' ht' => by cases ht'
    | stampRaises error =>
      simp only [Task.step, hpc] at hs
      obtain rfl := Option.some.inj hs
      split
      · exact hretry _ (by simp)
      · exact hretry _ (by simp)
      · exact resumed_of_idle (by simp) fun t' ht' => by cases ht'
    | _ => simp [Task.step, hpc] at hs
  | recording =>
    cases b with
    | recordReturns =>
      simp only [Task.step, hpc] at hs
      obtain rfl := Option.some.inj hs
      exact resumed_of_idle (by simp) fun t' ht' => by cases ht'
    | recordRaises =>
      simp only [Task.step, hpc] at hs
      obtain rfl := Option.some.inj hs
      exact resumed_of_idle (by simp) fun t' ht' => by cases ht'
    | _ => simp [Task.step, hpc] at hs
  | delaying =>
    cases b with
    | delayReturns =>
      simp only [Task.step, hpc] at hs
      obtain rfl := Option.some.inj hs
      refine resumed_of_idle (by simp) fun t' ht' => ?_
      obtain rfl := Option.some.inj ht'
      rintro _ _ _ _ _ _ ⟨⟩
    | _ => simp [Task.step, hpc] at hs

/-- What an action does to the log, the tasks and the keys. -/
structure Moved (s : State κ) (a : Action κ) (s' : State κ) (events : List (Event κ)) : Prop where
  log : s'.log = s.log ++ events
  page {A : Attempt} {sweep : SweepName} {keys : Finset κ} {cursor : κ} {page : List κ} :
    .page A sweep keys cursor page ∈ events → ∃ slot now t step rest ok later l,
      a = .run slot (.pageReturns page) now ∧ s.task slot = some t ∧ A = t.attempt ∧
        keys = s.keys sweep ∧ t.pc = .sweeping step rest ok sweep later (.paging l)
  task {slot : Slot} {t' : Task κ} {step : StepName} : s'.task slot = some t' → t'.Sweeps step →
    (s.task slot = some t' ∧ ∀ b now, a ≠ .run slot b now) ∨
    ∃ b now t, a = .run slot b now ∧ s.task slot = some t ∧ t'.attempt = t.attempt ∧
      (.stepStarted t.attempt step ∈ events ∨ t.Sweeps step) ∧
      ∀ rest ok sweep later l,
        t'.pc = .sweeping step rest ok sweep later (.paging l) → b = .beforePageReturns
  keys : (∀ keys, a ≠ .writeCatalog keys) → s'.keys = s.keys

variable {s' : State κ} {slot : Slot}

/-- An action that logs no page and runs no task. -/
theorem moved_of_tasks {a : Action κ} {events : List (Event κ)} (hlog : s'.log = s.log ++ events)
    (hevents : ∀ A sweep keys cursor page, .page A sweep keys cursor page ∉ events)
    (htask : ∀ slot t' step, s'.task slot = some t' → t'.Sweeps step → s.task slot = some t')
    (hrun : ∀ slot b now, a ≠ .run slot b now)
    (hkeys : (∀ keys, a ≠ .writeCatalog keys) → s'.keys = s.keys) : Moved s a s' events where
  log := hlog
  page hmem := absurd hmem (hevents _ _ _ _ _)
  task ht' hsweeps := Or.inl ⟨htask _ _ _ ht' hsweeps, hrun _⟩
  keys := hkeys

/-- A task that is ended is in no slot, and logs no page. -/
theorem endTask_spec (s : State κ) (slot : Slot) (why : Cut) :
    ∃ events, (s.endTask slot why).log = s.log ++ events ∧
      (∀ A sweep keys cursor page, .page A sweep keys cursor page ∉ events) ∧
      (∀ slot' t, (s.endTask slot why).task slot' = some t → s.task slot' = some t) ∧
      (s.endTask slot why).keys = s.keys := by
  unfold State.endTask
  split
  · next t ht =>
    refine ⟨_, rfl, by simp, fun slot' t' ht' => ?_, rfl⟩
    rcases eq_or_ne slot' slot with rfl | hne
    · change Function.update s.task slot' none slot' = some t' at ht'
      rw [Function.update_self] at ht'
      cases ht'
    · exact (Function.update_of_ne hne ..).symm.trans ht'
  · exact ⟨[], (List.append_nil _).symm, by simp, fun _ _ => id, rfl⟩

/-- A task that is created does not sweep yet. -/
theorem createTask_task {work : Work} {statsVersion : ℕ} {slot' : Slot} {t' : Task κ}
    {step : StepName} (ht' : (s.createTask slot work statsVersion).task slot' = some t')
    (hsweeps : t'.Sweeps step) : s.task slot' = some t' := by
  rcases eq_or_ne slot' slot with rfl | hne
  · change Function.update s.task slot' _ slot' = some t' at ht'
    rw [Function.update_self] at ht'
    obtain rfl := Option.some.inj ht'
    obtain ⟨rest, ok, sweep, later, pc, hpc⟩ := hsweeps
    cases hpc
  · exact (Function.update_of_ne hne ..).symm.trans ht'

theorem commit_frame (s : State κ) (now : ℕ) (statement : Option (Statement κ)) :
    (s.commit now statement).log = s.log ∧ (s.commit now statement).task = s.task ∧
      (s.commit now statement).keys = s.keys := by
  unfold State.commit
  split <;> exact ⟨rfl, rfl, rfl⟩

/-- A task that ran. -/
theorem moved_advance {p : Process} {now : ℕ} (ht : s.task slot = some t)
    (hs : t.step s p b = some o) :
    Moved s (.run slot b now) (s.advance slot t o now) o.events := by
  have hresumed := Task.step_resumed hs
  obtain ⟨hlog, htask, hkeys⟩ := commit_frame s now (if o.commits then t.inFlight else none)
  refine ⟨congrArg (· ++ o.events) hlog, fun hmem => ?_, fun {slot' t' step} ht' hsweeps => ?_,
    fun _ => hkeys⟩
  · obtain ⟨rfl, rfl, rfl, step, rest, ok, later, l, hpc⟩ := hresumed.page hmem
    exact ⟨slot, now, t, step, rest, ok, later, l, rfl, ht, rfl, rfl, hpc⟩
  · change Function.update (s.commit now _).task slot o.task slot' = some t' at ht'
    rw [htask] at ht'
    rcases eq_or_ne slot' slot with rfl | hne
    · rw [Function.update_self] at ht'
      obtain ⟨hattempt, hstarted⟩ := hresumed.sweeps ht' hsweeps
      exact Or.inr ⟨b, now, t, rfl, ht, hattempt, hstarted,
        fun _ _ _ _ _ hpc => hresumed.paging ht' hpc⟩
    · rw [Function.update_of_ne hne] at ht'
      exact Or.inl ⟨ht', fun _ _ heq => hne (by cases heq; rfl)⟩

/-- **What a step of the tasks does to the log, the tasks and the keys.** -/
theorem State.step_moved {a : Action κ} (hs : s.step a = some s') :
    ∃ events, Moved s a s' events := by
  have hsame (hlog : s'.log = s.log) (htask : s'.task = s.task)
      (hkeys : (∀ keys, a ≠ .writeCatalog keys) → s'.keys = s.keys)
      (hrun : ∀ slot b now, a ≠ .run slot b now) : ∃ events, Moved s a s' events :=
    ⟨[], moved_of_tasks (hlog.trans (List.append_nil _).symm) (by simp)
      (fun slot t' _ ht' _ => by rwa [htask] at ht') hrun hkeys⟩
  cases a with
  | run slot b now =>
    simp only [State.step] at hs
    split at hs
    · next p t hp ht =>
      obtain ⟨o, ho, rfl⟩ := Option.map_eq_some_iff.mp hs
      exact ⟨_, moved_advance ht ho⟩
    · cases hs
  | cancel slot =>
    simp only [State.step] at hs
    split_ifs at hs
    obtain rfl := Option.some.inj hs
    obtain ⟨events, hlog, hevents, htask, hkeys⟩ := endTask_spec s slot .cancelled
    exact ⟨events, moved_of_tasks hlog hevents (fun _ _ _ h _ => htask _ _ h) (by simp)
      fun _ => hkeys⟩
  | startPostImportMaintenance version timeNs =>
    simp only [State.step] at hs
    split at hs
    · next p hp =>
      split_ifs at hs
      split at hs
      · obtain rfl := Option.some.inj hs
        exact hsame rfl rfl (fun _ => rfl) (by simp)
      · obtain rfl := Option.some.inj hs
        obtain ⟨events, hlog, hevents, htask, hkeys⟩ := endTask_spec s .statsRefresh .cancelled
        exact ⟨events, moved_of_tasks hlog hevents
          (fun _ _ _ h hsweeps => htask _ _ (createTask_task h hsweeps)) (by simp) fun _ => hkeys⟩
    · cases hs
  | startStatsRefresh version =>
    simp only [State.step] at hs
    split at hs
    · next p hp =>
      split_ifs at hs
      split at hs
      · obtain rfl := Option.some.inj hs
        exact ⟨[], moved_of_tasks (List.append_nil _).symm (by simp)
          (fun _ _ _ h hsweeps => createTask_task h hsweeps) (by simp) fun _ => rfl⟩
      · obtain rfl := Option.some.inj hs
        exact hsame rfl rfl (fun _ => rfl) (by simp)
    · cases hs
  | requestShutdown =>
    simp only [State.step] at hs
    split at hs
    · obtain rfl := Option.some.inj hs
      exact hsame rfl rfl (fun _ => rfl) (by simp)
    · cases hs
  | crash =>
    obtain rfl := Option.some.inj hs
    obtain ⟨events, hlog, hevents, htask, hkeys⟩ := endTask_spec s .postImportMaintenance .crashed
    obtain ⟨events', hlog', hevents', htask', hkeys'⟩ :=
      endTask_spec (s.endTask .postImportMaintenance .crashed) .statsRefresh .crashed
    refine ⟨events ++ events', moved_of_tasks ?_ (fun A sweep keys cursor page hmem => ?_)
      (fun _ _ _ h _ => htask _ _ (htask' _ _ h)) (by simp) fun _ => hkeys'.trans hkeys⟩
    · exact hlog'.trans (by rw [hlog, List.append_assoc])
    · exact (List.mem_append.mp hmem).elim (hevents _ _ _ _ _) (hevents' _ _ _ _ _)
  | start statsVersion batchProcessor =>
    simp only [State.step] at hs
    split at hs
    · cases hs
    · obtain rfl := Option.some.inj hs
      exact hsame rfl rfl (fun _ => rfl) (by simp)
  | land i now =>
    simp only [State.step] at hs
    split at hs
    · next st hst =>
      obtain rfl := Option.some.inj hs
      obtain ⟨hlog, htask, hkeys⟩ := commit_frame s now (some st)
      exact hsame hlog htask (fun _ => hkeys) (by simp)
    · cases hs
  | persistSignals now version signals =>
    obtain rfl := Option.some.inj hs
    exact hsame rfl rfl (fun _ => rfl) (by simp)
  | writeCatalog keys =>
    obtain rfl := Option.some.inj hs
    exact hsame rfl rfl (fun h => absurd rfl (h keys)) (by simp)

end Tasks

/-! ### The tasks and the graph -/

/-- Keys are texts. The empty one is before all others. -/
instance orderBotString : OrderBot String where
  bot := ""
  bot_le _ := not_lt.mp fun h => List.not_lt_nil _ (String.lt_iff_toList_lt.mp h)

/-- The tasks, and the graph that they work on. -/
structure World where
  tasks : State String
  graph : Graph
  /-- The statements that committed since the task of the slot last began a page, each with its
  number among those of its sweep for a node. -/
  ran : Slot → List (SweepName × String × ℕ)
  /-- What the tasks had logged when a record was last written. -/
  loggedAtWrite : List (Event String)

namespace World

/-- A page that returns was swept: the statements of each of its keys committed since it began. -/
def PageRan (w : World) : Action String → Prop
  | .run slot (.pageReturns page) _ => ∀ t step rest ok sweep later l,
      w.tasks.task slot = some t → t.pc = .sweeping step rest ok sweep later (.paging l) →
      ∀ key ∈ page, ∀ i < statementCount sweep, (sweep, key, i) ∈ w.ran slot
  | _ => True

/-- A page begins when `before_page` returns. -/
def ranAfter (w : World) : Action String → Slot → List (SweepName × String × ℕ)
  | .run slot .beforePageReturns _ => Function.update w.ran slot []
  | _ => w.ran

/-- The graph changes, and with it the keys that the sweeps find. -/
def setGraph (w : World) (g : Graph) : World :=
  { w with
    graph := g
    tasks := { w.tasks with keys := fun sweep => keyTexts g (nodeLabelOf sweep) } }

/-- A batch or a single record is written. -/
def write (w : World) (g : Graph) : World :=
  { w.setGraph g with loggedAtWrite := w.tasks.log }

/-- A step of the world. The statements of the sweeps commit one by one, and at any time, also for a
task that no longer waits for them. -/
inductive Step (env : Env) (allCategories : List String) (w : World) : World → Prop
  | tasks (a : Action String) {s' : State String} (h : w.tasks.step a = some s')
    (hkeys : ∀ keys, a ≠ .writeCatalog keys) (hpage : w.PageRan a) :
    Step env allCategories w { w with tasks := s', ran := w.ranAfter a }
  | statement (E : Enumeration) (sweep : SweepName) (key : String) {i : ℕ}
    {st : Graphinator.Statement} (hst : (keyStatements E allCategories sweep key)[i]? = some st)
    (h : sweepNode sweep key ∈ w.graph.nodes) :
    Step env allCategories w
      { w with
        graph := (st w.graph).1
        ran := fun slot => (sweep, key, i) :: w.ran slot }
  | upkeep {g : Graph} (h : Upkeep env allCategories w.graph g) :
    Step env allCategories w (w.setGraph g)
  | batch (t : DataType) (messages : List PyValue) :
    Step env allCategories w (w.write (Names.step env (.batch t messages) w.graph))
  | record (t : DataType) (record : PyValue) :
    Step env allCategories w (w.write (Names.step env (.record t record) w.graph))

/-- A start of the service over a graph that it built. -/
structure Init (env : Env) (allCategories : List String) (w : World) : Prop where
  tasks : (machine String).init w.tasks
  graph : ∃ written, Reached env allCategories written w.graph
  keys : ∀ sweep, w.tasks.keys sweep = keyTexts w.graph (nodeLabelOf sweep)

/-- The worlds that runs of the service reach, over crashes and restarts. -/
def Reachable (env : Env) (allCategories : List String) (w : World) : Prop :=
  ∃ w₀, Init env allCategories w₀ ∧ Relation.ReflTransGen (Step env allCategories) w₀ w

/-- No record was written since a step of an attempt started under the run key. -/
def Undisturbed (w : World) (runKey : String) : Prop :=
  ∀ A step, A.runKey = runKey → .stepStarted A step ∉ w.loggedAtWrite

/-! ### The invariant -/

/-- What holds in every reachable world. -/
structure Inv (allCategories : List String) (w : World) : Prop where
  tasks : Maintenance.Inv w.tasks
  schema : Schema w.graph
  keys (sweep : SweepName) : w.tasks.keys sweep = keyTexts w.graph (nodeLabelOf sweep)
  /-- A page belongs to a step that was started. -/
  paged {A : Attempt} {sweep : SweepName} {keys : Finset String} {cursor : String}
    {page : List String} : .page A sweep keys cursor page ∈ w.tasks.log →
    ∃ step, .stepStarted A step ∈ w.tasks.log
  sweeps {slot : Slot} {t : Task String} {step : StepName} : w.tasks.task slot = some t →
    t.Sweeps step → .stepStarted t.attempt step ∈ w.tasks.log
  /-- The nodes of a page are exact, and no node has come since. -/
  exact {A : Attempt} {sweep : SweepName} {keys : Finset String} {cursor : String}
    {page : List String} : .page A sweep keys cursor page ∈ w.tasks.log →
    w.Undisturbed A.runKey →
      (∀ key ∈ page, ∀ i < statementCount sweep, sweepNode sweep key ∈ w.graph.nodes →
        ExactPart allCategories w.graph sweep i (sweepNode sweep key)) ∧
      ∀ key, sweepNode sweep key ∈ w.graph.nodes → key ∈ keys
  /-- So are the nodes whose statements ran for a page that has not returned. -/
  ran {slot : Slot} {t : Task String} {step : StepName} {rest : List StepName} {ok : Bool}
    {sweep : SweepName} {later : List SweepName} {l : SweepLocals String} :
    w.tasks.task slot = some t → t.pc = .sweeping step rest ok sweep later (.paging l) →
    w.Undisturbed t.attempt.runKey → ∀ key i, (sweep, key, i) ∈ w.ran slot →
      sweepNode sweep key ∈ w.graph.nodes →
        ExactPart allCategories w.graph sweep i (sweepNode sweep key)

section Invariant

variable {env : Env} {allCategories : List String} {w w' : World}

theorem mem_keyTexts_sweepNode {g : Graph} {sweep : SweepName} {key : String} :
    key ∈ keyTexts g (nodeLabelOf sweep) ↔ sweepNode sweep key ∈ g.nodes := mem_keyTexts

/-- A statement that ran commits, and everything exact stays so. -/
theorem Inv.upkeep (h : Inv allCategories w) {g : Graph}
    (hup : Upkeep env allCategories w.graph g) : Inv allCategories (w.setGraph g) where
  tasks := h.tasks.step (a := .writeCatalog _) rfl
  schema := (hup.schema h.schema).1
  keys _ := rfl
  paged := h.paged
  sweeps := h.sweeps
  exact {A sweep keys cursor page} hmem hquiet := by
    obtain ⟨hexact, hkeys⟩ := h.exact hmem hquiet
    have hnodes := (hup.schema h.schema).2.1
    exact ⟨fun key hkey i hi hnode =>
      hup.exactPart h.schema hnode (hexact key hkey i hi (hnodes _ hnode)),
      fun key hnode => hkeys key (hnodes _ hnode)⟩
  ran ht hpc hquiet key i hkey hnode :=
    hup.exactPart h.schema hnode
      (h.ran ht hpc hquiet key i hkey ((hup.schema h.schema).2.1 _ hnode))

/-- A statement makes exact what it stores. -/
theorem Inv.statement (h : Inv allCategories w) {E : Enumeration} {sweep : SweepName} {key : String}
    {i : ℕ} {st : Graphinator.Statement}
    (hst : (keyStatements E allCategories sweep key)[i]? = some st)
    (hmem : sweepNode sweep key ∈ w.graph.nodes) :
    Inv allCategories
      { w with graph := (st w.graph).1, ran := fun slot => (sweep, key, i) :: w.ran slot } := by
  obtain ⟨hframe, hschema⟩ := keyStatements_frame h.schema hst hmem
  have hup : Upkeep plainEnv allCategories w.graph (st w.graph).1 := .statement E sweep key hst hmem
  have hnext := h.upkeep hup
  refine ⟨h.tasks, hschema, fun sweep => ?_, h.paged, h.sweeps, hnext.exact, ?_⟩
  · rw [h.keys sweep]
    exact (keyTexts_congr hframe.mem_nodes _).symm
  · intro slot t step rest ok sweep' later l ht hpc hquiet key' i' hkey' hnode
    rcases List.mem_cons.mp hkey' with heq | hkey'
    · cases heq
      exact exactPart_statement h.schema hst hmem
    · exact hnext.ran ht hpc hquiet key' i' hkey' hnode

/-- After a write of a record, no run key with a step that was started is undisturbed. -/
theorem Inv.write (h : Inv allCategories w) {g : Graph} (hschema : Schema g) :
    Inv allCategories (w.write g) where
  tasks := h.tasks.step (a := .writeCatalog _) rfl
  schema := hschema
  keys _ := rfl
  paged := h.paged
  sweeps := h.sweeps
  exact hmem hquiet := by
    obtain ⟨step, hstep⟩ := h.paged hmem
    exact absurd hstep (hquiet _ step rfl)
  ran ht hpc hquiet := absurd (h.sweeps ht ⟨_, _, _, _, _, hpc⟩) (hquiet _ _ rfl)

/-- A step of the tasks. -/
theorem Inv.tasksStep (h : Inv allCategories w) {a : Action String} {s' : State String}
    (hs : w.tasks.step a = some s') (hcatalog : ∀ keys, a ≠ .writeCatalog keys)
    (hpage : w.PageRan a) :
    Inv allCategories { w with tasks := s', ran := w.ranAfter a } := by
  obtain ⟨events, hmoved⟩ := State.step_moved hs
  have hsub : w.tasks.log ⊆ s'.log := hmoved.log ▸ List.subset_append_left ..
  have hevents : events ⊆ s'.log := hmoved.log ▸ List.subset_append_right ..
  refine ⟨h.tasks.step hs, h.schema, fun sweep => ?_, fun {A sweep keys cursor page} hmem => ?_,
    fun {slot t step} ht hsweeps => ?_, fun {A sweep keys cursor page} hmem hquiet => ?_, ?_⟩
  · rw [hmoved.keys hcatalog]
    exact h.keys sweep
  · change _ ∈ s'.log at hmem
    rw [hmoved.log] at hmem
    rcases List.mem_append.mp hmem with hmem | hmem
    · obtain ⟨step, hstep⟩ := h.paged hmem
      exact ⟨step, hsub hstep⟩
    · obtain ⟨slot, now, t, step, rest, ok, later, l, -, ht, rfl, -, hpc⟩ := hmoved.page hmem
      exact ⟨step, hsub (h.sweeps ht ⟨_, _, _, _, _, hpc⟩)⟩
  · rcases hmoved.task ht hsweeps with ⟨ht, -⟩ | ⟨b, now, t₀, -, ht₀, hattempt, hstarted, -⟩
    · exact hsub (h.sweeps ht hsweeps)
    · rw [hattempt]
      exact hstarted.elim (fun hmem => hevents hmem) fun hsweeps => hsub (h.sweeps ht₀ hsweeps)
  · change _ ∈ s'.log at hmem
    rw [hmoved.log] at hmem
    rcases List.mem_append.mp hmem with hmem | hmem
    · exact h.exact hmem hquiet
    · -- The page that returns now: its statements ran, and the keys are those of the graph.
      obtain ⟨slot, now, t, step, rest, ok, later, l, rfl, ht, rfl, rfl, hpc⟩ := hmoved.page hmem
      refine ⟨fun key hkey i hi hnode => ?_, fun key hnode => ?_⟩
      · exact h.ran ht hpc hquiet key i (hpage t _ _ _ _ _ _ ht hpc key hkey i hi) hnode
      · rw [h.keys]
        exact mem_keyTexts_sweepNode.mpr hnode
  · intro slot t step rest ok sweep later l ht hpc hquiet key i hkey hnode
    rcases hmoved.task ht ⟨_, _, _, _, _, hpc⟩ with
      ⟨ht₀, hother⟩ | ⟨b, now, t₀, rfl, -, -, -, hbegan⟩
    · refine h.ran ht₀ hpc hquiet key i ?_ hnode
      -- Only the task of the slot begins a page of the slot.
      change (sweep, key, i) ∈ w.ranAfter a slot at hkey
      unfold ranAfter at hkey
      split at hkey
      · next slot' now =>
        rwa [Function.update_of_ne fun heq => hother _ now (by rw [heq])] at hkey
      · exact hkey
    · obtain rfl := hbegan _ _ _ _ _ hpc
      change (sweep, key, i) ∈ Function.update w.ran slot [] slot at hkey
      rw [Function.update_self] at hkey
      cases hkey

/-- **Every step keeps the invariant.** -/
theorem Inv.step (h : Inv allCategories w) (hs : Step env allCategories w w') :
    Inv allCategories w' := by
  cases hs with
  | tasks a hs hkeys hpage => exact h.tasksStep hs hkeys hpage
  | statement E sweep key hst hmem => exact h.statement hst hmem
  | upkeep hup => exact h.upkeep hup
  | batch t messages =>
    obtain ⟨rows, -, hstep⟩ := Names.step_batch env t messages w.graph
    exact h.write (hstep ▸ h.schema.write rows)
  | record t record =>
    obtain ⟨rows, -, hstep⟩ := Names.step_record env t record w.graph
    exact h.write (hstep ▸ h.schema.write rows)

theorem Inv.init (h : Init env allCategories w) : Inv allCategories w := by
  obtain ⟨written, hreached⟩ := h.graph
  obtain ⟨-, htask, -, hlog, -⟩ := h.tasks
  have hempty : ∀ e, e ∉ w.tasks.log := by simp [hlog]
  have hfree : ∀ slot t, w.tasks.task slot ≠ some t := by simp [htask]
  exact ⟨inv_init h.tasks, hreached.grounded.schema, h.keys, fun hmem => absurd hmem (hempty _),
    fun ht => absurd ht (hfree _ _), fun hmem => absurd hmem (hempty _),
    fun ht => absurd ht (hfree _ _)⟩

/-- The invariant holds in every reachable world. -/
theorem inv_of_reachable (h : Reachable env allCategories w) : Inv allCategories w := by
  obtain ⟨w₀, hinit, hrun⟩ := h
  induction hrun with
  | refl => exact .init hinit
  | tail _ hs ih => exact ih.step hs

/-- A sweep that ran to its end under an undisturbed run key left its nodes exact. -/
theorem Inv.exact_of_ranToEnd (h : Inv allCategories w) {runKey : String} {sweep : SweepName}
    (hran : RanToEnd w.tasks.log runKey sweep) (hquiet : w.Undisturbed runKey) {key : String}
    (hkey : key ≠ "") (hnode : sweepNode sweep key ∈ w.graph.nodes) :
    Exact allCategories w.graph sweep (sweepNode sweep key) := by
  obtain ⟨A, keys, cursor, page, rfl, hmem, hpage⟩ :=
    hran.covers (bot_lt_iff_ne_bot.mpr hkey) fun A keys cursor page hA hmem =>
      ⟨(h.exact hmem (hA ▸ hquiet)).2 key hnode, h.tasks.log.page hmem⟩
  exact exact_of_parts fun i hi => (h.exact hmem hquiet).1 key hpage i hi hnode

end Invariant

end World

/-- Every sweep is one of some step of a pass. -/
theorem exists_passStep (sweep : SweepName) : ∃ step ∈ passSteps, sweep ∈ step.sweeps := by
  cases sweep with
  | genreStats | styleStats | labelStats => exact ⟨.genreStyleLabelStats, by decide, by decide⟩
  | artistStats => exact ⟨.artistStats, by decide, by decide⟩
  | personCreditCounts => exact ⟨.personCreditCounts, by decide, by decide⟩

/-- **What a stamp says about the aggregates.** In every run of the tasks over a graph that changes
between their statements, with failures, cancellations, crashes and restarts: if no record was
written since an attempt under the run key of a version and STATS_VERSION first started a step, then
whenever a pass stamps `maintained_at` of the version, the aggregates of all genres, styles, labels,
artists and persons with a name are exact in the graph of that moment; and whenever a refresh stamps
`stats_version`, those of the labels and artists are. -/
theorem stamped_aggregates_exact {env : Env} {allCategories : List String} {w : World}
    (h : World.Reachable env allCategories w) {version : String} {sv : ℕ}
    (hquiet : w.Undisturbed (maintenanceRunKey version sv)) {a : Action String} :
    (∀ now, w.tasks.writes a = some (.stampSuccess now sv version) →
      ∀ sweep key, key ≠ "" → sweepNode sweep key ∈ w.graph.nodes →
        Exact allCategories w.graph sweep (sweepNode sweep key)) ∧
    (w.tasks.writes a = some (.stampStats sv version) →
      ∀ sweep ∈ [SweepName.labelStats, .artistStats], ∀ key, key ≠ "" →
        sweepNode sweep key ∈ w.graph.nodes →
          Exact allCategories w.graph sweep (sweepNode sweep key)) := by
  have hinv := World.inv_of_reachable h
  refine ⟨fun now hw sweep key hkey hnode => ?_, fun hw sweep hsweep key hkey hnode => ?_⟩
  · rcases writes_cases hinv.tasks hw with ⟨_, _, _, heq⟩ | ⟨st, now', hj, hst⟩
    · cases heq
    · obtain ⟨A, rfl, hwork, rfl⟩ := (stamped_by hst).1 now rfl
      obtain ⟨step, hstep, hsweep⟩ := exists_passStep sweep
      have hran := ((hj.1.steps step (by rw [hwork]; exact hstep)).sweeps sweep hsweep).2
      exact hinv.exact_of_ranToEnd (runKey_pass hwork ▸ hran) hquiet hkey hnode
  · rcases writes_cases hinv.tasks hw with ⟨_, _, _, heq⟩ | ⟨st, now', hj, hst⟩
    · cases heq
    · obtain ⟨A, rfl, hwork, rfl⟩ := (stamped_by hst).2 rfl
      obtain ⟨hlabel, hartist⟩ := runKey_refresh hwork ▸ hj.1.stats
      simp only [List.mem_cons, List.not_mem_nil, or_false] at hsweep
      rcases hsweep with rfl | rfl
      · exact hinv.exact_of_ranToEnd hlabel hquiet hkey hnode
      · exact hinv.exact_of_ranToEnd hartist hquiet hkey hnode

/-! ### A pass over one genre -/

/-- An action of the tasks for which no statement has to run. -/
def Action.idle : Action String → Bool
  | .writeCatalog _ | .run _ (.pageReturns (_ :: _)) _ => false
  | _ => true

/-- The tasks run on, over a graph that stays as it is. -/
theorem World.steps_of_exec {env : Env} {allCategories : List String} {as : List (Action String)}
    {w : World} {s : State String}
    (h : (machine String).exec (fun _ a => a.idle) w.tasks as = some s) :
    ∃ ran, Relation.ReflTransGen (World.Step env allCategories) w { w with tasks := s, ran } := by
  induction as generalizing w with
  | nil =>
    obtain rfl : w.tasks = s := by simpa [Machine.exec] using h
    exact ⟨w.ran, .refl⟩
  | cons a as ih =>
    simp only [Machine.exec] at h
    split at h
    · next hidle =>
      obtain ⟨s₁, hs, hrest⟩ := Option.bind_eq_some_iff.mp h
      have hstep : World.Step env allCategories w { w with tasks := s₁, ran := w.ranAfter a } := by
        refine .tasks a hs (fun keys => ?_) ?_
        · rintro rfl
          cases hidle
        · unfold World.PageRan
          split
          · next slot page now =>
            cases page with
            | nil => exact fun _ _ _ _ _ _ _ _ _ _ hkey => absurd hkey List.not_mem_nil
            | cons key page => cases hidle
          · trivial
      obtain ⟨ran, hrun⟩ := ih (w := { w with tasks := s₁, ran := w.ranAfter a }) hrest
      exact ⟨ran, .head hstep hrun⟩
    · cases h

/-- The statements of a node that is there may commit one after the other. -/
theorem World.steps_statements {env : Env} {allCategories : List String} {w : World}
    (h : Schema w.graph) (E : Enumeration) {sweep : SweepName} {key : String}
    (hmem : sweepNode sweep key ∈ w.graph.nodes) {n : ℕ}
    (hn : n ≤ (keyStatements E allCategories sweep key).length) :
    ∃ g ran, Relation.ReflTransGen (World.Step env allCategories) w { w with graph := g, ran } ∧
      Schema g ∧ StatFrame (sweepNode sweep key) w.graph g ∧
      ∀ slot, ∀ i < n, (sweep, key, i) ∈ ran slot := by
  induction n with
  | zero => exact ⟨w.graph, w.ran, .refl, h, .refl .., fun _ _ hi => absurd hi (Nat.not_lt_zero _)⟩
  | succ n ih =>
    obtain ⟨g, ran, hrun, hschema, hframe, hran⟩ := ih (Nat.le_of_succ_le hn)
    have hst := List.getElem?_eq_getElem (Nat.lt_of_succ_le hn)
    have hmem' := (hframe.mem_nodes _).mpr hmem
    obtain ⟨hframe', hschema'⟩ := keyStatements_frame hschema hst hmem'
    refine ⟨_, _, hrun.tail (.statement E sweep key hst hmem'), hschema', hframe.trans hframe',
      fun slot i hi => ?_⟩
    rcases Nat.lt_succ_iff_lt_or_eq.mp hi with hi | rfl
    · exact List.mem_cons_of_mem _ (hran slot i hi)
    · exact List.mem_cons_self ..

/-- The sweep that the task is in. -/
def Task.sweep? (t : Task String) : Option SweepName :=
  match t.pc with
  | .sweeping _ _ _ sweep _ _ => some sweep
  | _ => none

/-- The start of the service over the graph of one release, with a full latch. -/
def rockStart : World where
  tasks :=
    { store := [{ version := "20260701", signals := some dataTypes }]
      checkpoints := fun _ => none
      keys := fun sweep => match sweep with
        | .genreStats => {"Rock"}
        | _ => ∅ }
  graph := rockGraph
  ran := fun _ => []
  loggedAtWrite := []

/-- The pass up to its page of genres. -/
def passToPage : List (Action String) :=
  let run (a : TaskAction String) : Action String := .run .postImportMaintenance a 0
  [.start 1 true, .startPostImportMaintenance (some "20260701") 0, run .enter,
    run (.flushAllReturns true), run (.cleanupReturns true), run (.cleanupReturns true),
    run .readReturns, run .beforePageReturns]

/-- The page returns. -/
def pageOfGenres : Action String := .run .postImportMaintenance (.pageReturns ["Rock"]) 0

/-- The pass from its page of genres up to its stamp. -/
def passFromPage : List (Action String) :=
  let run (a : TaskAction String) : Action String := .run .postImportMaintenance a 0
  [run .writeReturns, run .beforePageReturns, run (.pageReturns []), run .writeReturns] ++
    (List.replicate 4 [run .readReturns, run .beforePageReturns, run (.pageReturns []),
      run .writeReturns]).flatten

theorem rockStart_init : World.Init plainEnv [] rockStart where
  tasks := ⟨rfl, rfl, rfl, rfl, fun _ _ h => by cases h⟩
  graph := ⟨_, rockGraph_reached⟩
  keys sweep := by cases sweep <;> decide

/-- The pass counts the release of its genre. -/
theorem stamped_aggregates_exact_one_genre :
    ∃ w, World.Reachable plainEnv [] w ∧
      w.tasks.writes (.run .postImportMaintenance .stampReturns 9) =
        some (.stampSuccess 9 1 "20260701") ∧
      prop w.graph (.genre (.str "Rock")) "release_count" = .int 1 := by
  let exec (s : State String) := (machine String).exec (fun _ a => a.idle) s
  let toPage := exec rockStart.tasks passToPage
  have hsweeps : (toPage.bind fun s => (s.task .postImportMaintenance).map Task.sweep?) =
      some (some .genreStats) := by decide
  have hruns : ((toPage.bind fun s => s.step pageOfGenres).bind fun s =>
      (exec s passFromPage).bind fun s =>
        s.writes (.run .postImportMaintenance .stampReturns 9)) =
          some (.stampSuccess 9 1 "20260701") := rfl
  obtain ⟨s₁, h₁, hsweep⟩ := Option.bind_eq_some_iff.mp hsweeps
  rw [h₁, Option.bind_some] at hruns
  obtain ⟨s₂, h₂, hruns⟩ := Option.bind_eq_some_iff.mp hruns
  obtain ⟨s₃, h₃, hwrites⟩ := Option.bind_eq_some_iff.mp hruns
  have hschema : Schema rockGraph := (World.Inv.init rockStart_init).schema
  have hgenre : sweepNode .genreStats "Rock" ∈ rockGraph.nodes := by decide
  -- The tasks come to the page, its statements commit, the page returns, and the pass goes on.
  obtain ⟨ran₁, hrun₁⟩ : ∃ ran₁, Relation.ReflTransGen (World.Step plainEnv []) rockStart
      ⟨s₁, rockGraph, ran₁, []⟩ := World.steps_of_exec h₁
  obtain ⟨counted, ran₂, hrun₂, -, hframe, hran⟩ :
      ∃ g ran₂, Relation.ReflTransGen (World.Step plainEnv []) ⟨s₁, rockGraph, ran₁, []⟩
        ⟨s₁, g, ran₂, []⟩ ∧ Schema g ∧ StatFrame (sweepNode .genreStats "Rock") rockGraph g ∧
        ∀ slot, ∀ i < 3, (SweepName.genreStats, "Rock", i) ∈ ran₂ slot :=
    World.steps_statements (w := ⟨s₁, rockGraph, ran₁, []⟩) hschema default hgenre le_rfl
  have hpage : World.Step plainEnv [] ⟨s₁, counted, ran₂, []⟩ ⟨s₂, counted, ran₂, []⟩ := by
    refine .tasks pageOfGenres h₂ (by rintro _ ⟨⟩) ?_
    intro t step rest ok sweep later l ht hpc key hkey i hi
    change s₁.task .postImportMaintenance = some t at ht
    rw [ht, Option.map_some, Task.sweep?, hpc] at hsweep
    obtain rfl := Option.some.inj (Option.some.inj hsweep)
    obtain rfl := List.mem_singleton.mp hkey
    exact hran _ i hi
  obtain ⟨ran₃, hrun₃⟩ : ∃ ran₃, Relation.ReflTransGen (World.Step plainEnv [])
      ⟨s₂, counted, ran₂, []⟩ ⟨s₃, counted, ran₃, []⟩ := World.steps_of_exec h₃
  have hreach : World.Reachable plainEnv [] ⟨s₃, counted, ran₃, []⟩ :=
    ⟨rockStart, rockStart_init, ((hrun₁.trans hrun₂).tail hpage).trans hrun₃⟩
  have hquiet : World.Undisturbed ⟨s₃, counted, ran₃, []⟩ (maintenanceRunKey "20260701" 1) :=
    fun _ _ _ => List.not_mem_nil
  have hexact := (stamped_aggregates_exact hreach hquiet).1 9 hwrites .genreStats "Rock" (by decide)
    ((hframe.mem_nodes _).mpr hgenre)
  refine ⟨_, hreach, hwrites, hexact.release_count.trans ?_⟩
  rw [(hframe.sameReleases (by rintro ⟨⟩)).releasesOf_eq _ (by decide)]
  decide

end Graphinator.Maintenance
