import Graphinator.MaintenancePasses

/-!
# A stamp is written only over a finished pass

The argument is carried by the log. What a task knows at its await, what a checkpoint says and what
a statement in flight would write are each backed by events, and the log only grows. So a stamp may
commit long after its attempt, in another process, and still stand on the steps of that attempt.

A run key belongs to a version and to one STATS_VERSION. A sweep under it may have been made by
several attempts, of passes and of refreshes, and by several processes. Its pages are linked by
their cursors from the start of the key space to a page without keys.

## Main definitions

* `SweptTo`, `RanToEnd` : the pages of a sweep, linked by their cursors.
* `StepSucceeded`, `AttemptSucceeded` : what a stamp stands on.
* `Through`, `PcInv`, `TaskInv` : what a task knows.
* `LogInv`, `Continued`, `Inv` : the invariant.

## Main results

* `good_step` : what an action of a task does to the log.
* `Inv.step` : every action keeps the invariant.
* `stamps_over_finished_passes` : what each stamp stands on, in every run.
-/

namespace Graphinator.Maintenance

variable {κ : Type} [LinearOrder κ] [OrderBot κ]

/-! ### What the log says -/

section Log

variable (log : List (Event κ))

/-- The pages under the run key lead from the start of the key space to the cursor. -/
inductive SweptTo (runKey : String) (sweep : SweepName) : κ → Prop
  | start : SweptTo runKey sweep ⊥
  | page {A : Attempt} {keys : Finset κ} {cursor last : κ} {page : List κ} :
      SweptTo runKey sweep cursor → .page A sweep keys cursor page ∈ log → A.runKey = runKey →
      page.getLast? = some last → SweptTo runKey sweep last

/-- The sweep ran to the end of its key space under the run key, in one invocation or in several. -/
def RanToEnd (runKey : String) (sweep : SweepName) : Prop :=
  ∃ A keys cursor, A.runKey = runKey ∧ SweptTo log runKey sweep cursor ∧
    .page A sweep keys cursor [] ∈ log

/-- The sweep succeeded in the attempt: it came to a page without keys, or its checkpoint was
done. -/
def SweepSucceeded (A : Attempt) (sweep : SweepName) : Prop :=
  (∃ keys cursor, .page A sweep keys cursor [] ∈ log) ∨ .alreadyDone A sweep ∈ log

/-- The step succeeded in the attempt, with all its sweeps. -/
structure StepSucceeded (A : Attempt) (step : StepName) : Prop where
  ended : .stepEnded A step none ∈ log
  sweeps : ∀ sweep ∈ step.sweeps, SweepSucceeded log A sweep ∧ RanToEnd log A.runKey sweep

/-- The queues had drained, unless it is a refresh, and every step succeeded. -/
structure AttemptSucceeded (A : Attempt) : Prop where
  drained : A.work.isRefresh = false → .drained A ∈ log
  steps : ∀ step ∈ A.work.steps, StepSucceeded log A step

/-- The attempt runs no step any more. -/
def Over (A : Attempt) : Prop :=
  .notDrained A ∈ log ∨ .finished A ∈ log ∨ ∃ why, .cut A why ∈ log

/-- What a checkpoint says. -/
structure CheckpointOk (runKey : String) (sweep : SweepName) (c : Checkpoint κ) : Prop where
  cursor : SweptTo log runKey sweep c.cursor
  done : c.done = true → RanToEnd log runKey sweep

end Log

section Mono

variable {log log' : List (Event κ)} {A : Attempt} {runKey : String} {sweep : SweepName}

theorem SweptTo.mono (hsub : log ⊆ log') {cursor : κ} (h : SweptTo log runKey sweep cursor) :
    SweptTo log' runKey sweep cursor := by
  induction h with
  | start => exact .start
  | page _ hmem hkey hlast ih => exact .page ih (hsub hmem) hkey hlast

theorem RanToEnd.mono (hsub : log ⊆ log') (h : RanToEnd log runKey sweep) :
    RanToEnd log' runKey sweep := by
  obtain ⟨A, keys, cursor, hkey, hto, hmem⟩ := h
  exact ⟨A, keys, cursor, hkey, hto.mono hsub, hsub hmem⟩

omit [LinearOrder κ] [OrderBot κ] in
theorem SweepSucceeded.mono (hsub : log ⊆ log') (h : SweepSucceeded log A sweep) :
    SweepSucceeded log' A sweep := by
  rcases h with ⟨keys, cursor, hmem⟩ | hmem
  · exact Or.inl ⟨keys, cursor, hsub hmem⟩
  · exact Or.inr (hsub hmem)

theorem StepSucceeded.mono (hsub : log ⊆ log') {step : StepName} (h : StepSucceeded log A step) :
    StepSucceeded log' A step where
  ended := hsub h.ended
  sweeps sweep hsweep := ⟨(h.sweeps sweep hsweep).1.mono hsub, (h.sweeps sweep hsweep).2.mono hsub⟩

theorem AttemptSucceeded.mono (hsub : log ⊆ log') (h : AttemptSucceeded log A) :
    AttemptSucceeded log' A where
  drained hwork := hsub (h.drained hwork)
  steps step hstep := (h.steps step hstep).mono hsub

omit [LinearOrder κ] [OrderBot κ] in
theorem Over.mono (hsub : log ⊆ log') (h : Over log A) : Over log' A := by
  rcases h with h | h | ⟨why, h⟩
  · exact Or.inl (hsub h)
  · exact Or.inr (Or.inl (hsub h))
  · exact Or.inr (Or.inr ⟨why, hsub h⟩)

theorem CheckpointOk.mono (hsub : log ⊆ log') {c : Checkpoint κ}
    (h : CheckpointOk log runKey sweep c) : CheckpointOk log' runKey sweep c where
  cursor := h.cursor.mono hsub
  done hdone := (h.done hdone).mono hsub

/-- A checkpoint that reads as fresh says nothing. -/
theorem checkpointOk_fresh : CheckpointOk log runKey sweep {} where
  cursor := .start
  done h := by cases h

/-- A key that every page statement of a sweep found in the graph is on one of its pages, once the
sweep ran to its end. -/
theorem RanToEnd.covers (h : RanToEnd log runKey sweep) {k : κ} (hk : ⊥ < k)
    (hpages : ∀ A keys cursor page, A.runKey = runKey → .page A sweep keys cursor page ∈ log →
      k ∈ keys ∧ ∃ size, IsPage keys cursor size page) :
    ∃ A keys cursor page, A.runKey = runKey ∧ .page A sweep keys cursor page ∈ log ∧ k ∈ page := by
  obtain ⟨A, keys, cursor, hkey, hto, hmem⟩ := h
  have hle : k ≤ cursor := by
    obtain ⟨hk, size, hpage⟩ := hpages A keys cursor [] hkey hmem
    exact not_lt.mp (hpage.exhausted rfl k hk)
  clear hmem
  induction hto with
  | start => exact absurd hk hle.not_gt
  | @page A' keys' before last page _ hmem' hkey' hlast ih =>
    rcases le_or_gt k before with hle' | hlt
    · exact ih hle'
    · obtain ⟨hk', size, hpage⟩ := hpages A' keys' before page hkey' hmem'
      exact ⟨A', keys', before, page, hkey', hmem', hpage.mem_of_le hlast hk' hlt hle⟩

end Mono

/-! ### What a task knows -/

/-- The steps of its attempt that the task has come through. -/
structure Through (log : List (Event κ)) (t : Task κ) (past : List StepName) : Prop where
  drained : t.attempt.work.isRefresh = false → .drained t.attempt ∈ log
  notDrained : .notDrained t.attempt ∉ log
  ended : ∀ step ∈ past, ∃ failure, .stepEnded t.attempt step failure ∈ log
  succeeded : t.failedSteps = [] → ∀ step ∈ past, StepSucceeded log t.attempt step

/-- Where a sweep of the attempt is. -/
def SweepInv (log : List (Event κ)) (A : Attempt) (sweep : SweepName) : SweepPc κ → Prop
  | .idle => False
  | .reading _ => True
  | .before l | .paging l | .sleeping l => SweptTo log A.runKey sweep l.cursor
  | .writing l done => SweptTo log A.runKey sweep l.cursor ∧
      (done = true → ∃ keys, .page A sweep keys l.cursor [] ∈ log)

/-- What a task knows at its await. -/
def PcInv (log : List (Event κ)) (t : Task κ) : Prop :=
  match t.pc with
  | .entering => ∀ e ∈ log, e.attempt ≠ t.attempt
  | .draining => ∀ e ∈ log, e.attempt = t.attempt → e = .begun t.attempt
  | .cleaning step rest =>
    step.sweeps = [] ∧
      ∃ past, t.attempt.work.steps = past ++ step :: rest ∧ Through log t past
  | .sweeping step rest ok sweep later pc =>
    (∃ past, t.attempt.work.steps = past ++ step :: rest ∧ Through log t past) ∧
    (∃ before, step.sweeps = before ++ sweep :: later ∧ (ok = true → ∀ sweep ∈ before,
      SweepSucceeded log t.attempt sweep ∧ RanToEnd log t.attempt.runKey sweep)) ∧
    SweepInv log t.attempt sweep pc
  | .stamping => AttemptSucceeded log t.attempt ∧ Over log t.attempt
  | .recording | .delaying => Over log t.attempt

/-- The task has logged nothing for a later attempt. -/
def NoLater (log : List (Event κ)) (A : Attempt) : Prop :=
  ∀ e ∈ log, e.attempt.task = A.task → e.attempt.number ≤ A.number

/-- The task has logged nothing for a later attempt, and knows what its await says. -/
structure TaskInv (log : List (Event κ)) (t : Task κ) : Prop where
  numbers : NoLater log t.attempt
  pc : PcInv log t

/-- What an event may say of the log before it. -/
def EventOk (log : List (Event κ)) : Event κ → Prop
  | .finished A => ∀ step ∈ A.work.steps, ∃ failure, .stepEnded A step failure ∈ log
  | .notDrained A => ∀ step, .stepStarted A step ∉ log
  | .stepStarted A _ =>
    .notDrained A ∉ log ∧ (A.work.isRefresh = false → .drained A ∈ log)
  | .page _ _ keys cursor page => ∃ size, IsPage keys cursor size page
  | .cut A why => why = .stopped → A.work.isRefresh = true
  | _ => True

/-- What the log says of each attempt. -/
structure LogInv (log : List (Event κ)) : Prop where
  finished {A : Attempt} : .finished A ∈ log →
    ∀ step ∈ A.work.steps, ∃ failure, .stepEnded A step failure ∈ log
  notDrained {A : Attempt} : .notDrained A ∈ log → ∀ step, .stepStarted A step ∉ log
  started {A : Attempt} {step : StepName} : .stepStarted A step ∈ log →
    A.work.isRefresh = false → .drained A ∈ log
  page {A : Attempt} {sweep : SweepName} {keys : Finset κ} {cursor : κ} {page : List κ} :
    .page A sweep keys cursor page ∈ log → ∃ size, IsPage keys cursor size page
  stopped {A : Attempt} : .cut A .stopped ∈ log → A.work.isRefresh = true

/-- After every step that ended, however it did, the next one was started, unless MaintenanceStopped
had been raised in the attempt. -/
def Continued (log : List (Event κ)) : Prop :=
  ∀ A step failure, .stepEnded A step failure ∈ log → ∀ before next after,
    A.work.steps = before ++ step :: next :: after →
      .stepStarted A next ∈ log ∨ .cut A .stopped ∈ log

/-- What becomes of the log and of a task in the attempt `A`. -/
structure Good (log : List (Event κ)) (A : Attempt) (task : Option (Task κ))
    (events : List (Event κ)) : Prop where
  logInv : LogInv (log ++ events)
  continued : Continued log → Continued (log ++ events)
  attempts : ∀ e ∈ events, e.attempt = A
  taskInv : ∀ t, task = some t → TaskInv (log ++ events) t ∧ t.attempt.task = A.task ∧
    t.attempt.work = A.work
  begun : .begun A ∈ log ++ events →
    (∃ t, task = some t ∧ t.attempt = A) ∨ Over (log ++ events) A

section Events

variable {log : List (Event κ)} {A : Attempt} {t : Task κ}

omit [OrderBot κ] in
theorem LogInv.snoc (h : LogInv log) {e : Event κ} (he : EventOk log e) : LogInv (log ++ [e]) where
  finished {A} hA step hstep := by
    rcases List.mem_append.mp hA with hA | hA
    · obtain ⟨failure, hmem⟩ := h.finished hA step hstep
      exact ⟨failure, List.mem_append_left _ hmem⟩
    · obtain rfl := List.mem_singleton.mp hA
      obtain ⟨failure, hmem⟩ := he step hstep
      exact ⟨failure, List.mem_append_left _ hmem⟩
  notDrained {A} hA step hstep := by
    rcases List.mem_append.mp hA with hold | hA
    · rcases List.mem_append.mp hstep with hstep | hstep
      · exact h.notDrained hold step hstep
      · obtain rfl := List.mem_singleton.mp hstep
        exact he.1 hold
    · obtain rfl := List.mem_singleton.mp hA
      rcases List.mem_append.mp hstep with hstep | hstep
      · exact he step hstep
      · cases List.mem_singleton.mp hstep
  started {A step} hA hwork := by
    rcases List.mem_append.mp hA with hA | hA
    · exact List.mem_append_left _ (h.started hA hwork)
    · obtain rfl := List.mem_singleton.mp hA
      exact List.mem_append_left _ (he.2 hwork)
  page hA := by
    rcases List.mem_append.mp hA with hA | hA
    · exact h.page hA
    · obtain rfl := List.mem_singleton.mp hA
      exact he
  stopped hA := by
    rcases List.mem_append.mp hA with hA | hA
    · exact h.stopped hA
    · obtain rfl := List.mem_singleton.mp hA
      exact he rfl

omit [LinearOrder κ] [OrderBot κ] in
/-- Events that end no step keep the steps continued. -/
theorem Continued.append (h : Continued log) {events : List (Event κ)}
    (he : ∀ A step failure, .stepEnded A step failure ∉ events) : Continued (log ++ events) := by
  intro A step failure hmem before next after hsteps
  rcases List.mem_append.mp hmem with hmem | hmem
  · exact (h A step failure hmem before next after hsteps).imp (List.mem_append_left _)
      (List.mem_append_left _)
  · exact absurd hmem (he A step failure)

/-- One event before the others. -/
theorem Good.cons {e : Event κ} {task : Option (Task κ)} {events : List (Event κ)}
    (he : e.attempt = A) (h : Good (log ++ [e]) A task events)
    (hcont : Continued log → Continued (log ++ e :: events)) : Good log A task (e :: events) := by
  have hassoc : log ++ [e] ++ events = log ++ e :: events := by simp
  refine ⟨hassoc ▸ h.logInv, hcont, fun e' he' => ?_, hassoc ▸ h.taskInv, hassoc ▸ h.begun⟩
  rcases List.mem_cons.mp he' with rfl | he'
  · exact he
  · exact h.attempts e' he'

/-- One event that ends no step before the others. -/
theorem Good.before {e : Event κ} {task : Option (Task κ)} {events : List (Event κ)}
    (he : e.attempt = A) (hend : ∀ A step failure, e ≠ .stepEnded A step failure)
    (h : Good (log ++ [e]) A task events) : Good log A task (e :: events) := by
  refine h.cons he fun hc => ?_
  have hassoc : log ++ [e] ++ events = log ++ e :: events := by simp
  refine hassoc ▸ h.continued (hc.append fun A step failure hmem => ?_)
  exact hend A step failure (List.mem_singleton.mp hmem).symm

/-- Nothing is logged, and the task goes on in its attempt. -/
theorem Good.silent (hlog : LogInv log) (ht : TaskInv log t) : Good log t.attempt (some t) [] where
  logInv := by simpa using hlog
  continued h := by simpa using h
  attempts e he := absurd he List.not_mem_nil
  taskInv t' h := by
    obtain rfl := Option.some.inj h
    exact ⟨by simpa using ht, rfl, rfl⟩
  begun _ := Or.inl ⟨t, rfl, rfl⟩

omit [LinearOrder κ] [OrderBot κ] in
theorem NoLater.append (h : NoLater log A) {events : List (Event κ)}
    (he : ∀ e ∈ events, e.attempt = A) : NoLater (log ++ events) A := by
  intro e hmem htask
  rcases List.mem_append.mp hmem with hmem | hmem
  · exact h e hmem htask
  · rw [he e hmem]

theorem Through.append {past : List StepName} (h : Through log t past) (events : List (Event κ))
    (he : .notDrained t.attempt ∉ events) : Through (log ++ events) t past where
  drained hwork := List.mem_append_left _ (h.drained hwork)
  notDrained hmem := (List.mem_append.mp hmem).elim h.notDrained he
  ended step hstep := by
    obtain ⟨failure, hmem⟩ := h.ended step hstep
    exact ⟨failure, List.mem_append_left _ hmem⟩
  succeeded hnil step hstep := (h.succeeded hnil step hstep).mono (List.subset_append_left ..)

end Events

/-! ### What a task does to the log -/

section Steps

variable {log : List (Event κ)} {t t' : Task κ} {step : StepName} {rest past : List StepName}

omit [LinearOrder κ] [OrderBot κ] in
theorem retry_eq_some {failure : String} (h : t.retry failure = some t') :
    t'.attempt = t.attempt ∧ (t'.pc = .delaying ∨ t'.pc = .recording) := by
  unfold Task.retry at h
  split at h
  · obtain rfl := Option.some.inj h
    exact ⟨rfl, Or.inl rfl⟩
  · split at h
    · obtain rfl := Option.some.inj h
      exact ⟨rfl, Or.inr rfl⟩
    · cases h
    · cases h

omit [LinearOrder κ] [OrderBot κ] in
theorem afterSteps_eq_some (h : t.afterSteps = some t') :
    t'.attempt = t.attempt ∧
      (t.failedSteps = [] ∧ t'.pc = .stamping ∨ t'.pc = .delaying ∨ t'.pc = .recording) := by
  unfold Task.afterSteps at h
  split at h
  · next hnil =>
    split at h
    · cases h
    · obtain rfl := Option.some.inj h
      exact ⟨rfl, Or.inl ⟨hnil, rfl⟩⟩
    · obtain rfl := Option.some.inj h
      exact ⟨rfl, Or.inl ⟨hnil, rfl⟩⟩
  · split at h
    · exact (retry_eq_some h).imp_right Or.inr
    · exact (retry_eq_some h).imp_right Or.inr
    · exact (retry_eq_some h).imp_right Or.inr

/-- A task in the pause after an attempt, or at the record of its failure. -/
theorem pcInv_of_over (hover : Over log t.attempt) (hpc : t.pc = .delaying ∨ t.pc = .recording) :
    PcInv log t := by
  unfold PcInv
  rcases hpc with hpc | hpc
  · rwa [hpc]
  · rwa [hpc]

/-- A task whose attempt is over may be done, or go on to anything that only needs that. -/
theorem good_of_over {A : Attempt} {task : Option (Task κ)} {events : List (Event κ)}
    (hlog : LogInv (log ++ events)) (hevents : ∀ e ∈ events, e.attempt = A)
    (hend : ∀ A step failure, .stepEnded A step failure ∉ events)
    (hnumbers : NoLater log A)
    (hover : Over (log ++ events) A)
    (htask : ∀ t, task = some t → t.attempt = A ∧ PcInv (log ++ events) t) :
    Good log A task events where
  logInv := hlog
  continued hc := hc.append hend
  attempts := hevents
  taskInv t h := by
    obtain ⟨rfl, hpc⟩ := htask t h
    exact ⟨⟨hnumbers.append hevents, hpc⟩, rfl, rfl⟩
  begun _ := Or.inr hover

/-- A task that came to the end of its steps. -/
theorem good_finished (hlog : LogInv log)
    (hnumbers : NoLater log t.attempt)
    (h : Through log t t.attempt.work.steps) :
    Good log t.attempt t.afterSteps [.finished t.attempt] := by
  have hover : Over (log ++ [.finished t.attempt]) t.attempt :=
    Or.inr (Or.inl (List.mem_append_right _ (List.mem_singleton_self _)))
  refine good_of_over (hlog.snoc h.ended) (by simp [Event.attempt]) (by simp) hnumbers hover
    fun t' ht' => ?_
  obtain ⟨hattempt, ⟨hnil, hpc⟩ | hpc⟩ := afterSteps_eq_some ht'
  · refine ⟨hattempt, ?_⟩
    unfold PcInv
    rw [hpc, hattempt]
    have hsucceeded : AttemptSucceeded log t.attempt := ⟨h.drained, h.succeeded hnil⟩
    exact ⟨hsucceeded.mono (List.subset_append_left ..), hover⟩
  · exact ⟨hattempt, pcInv_of_over (hattempt.symm ▸ hover) hpc⟩

/-- The next step starts, or the attempt is at the end of its steps. -/
theorem good_nextStep (hlog : LogInv log)
    (hnumbers : NoLater log t.attempt)
    (h : Through log t past) (hsteps : t.attempt.work.steps = past ++ rest) :
    Good log t.attempt (t.nextStep rest).1 (t.nextStep rest).2 := by
  cases rest with
  | nil =>
    rw [List.append_nil] at hsteps
    exact good_finished hlog hnumbers (hsteps ▸ h)
  | cons step rest =>
    have hthrough := h.append [.stepStarted t.attempt step] (by simp)
    have hevents : ∀ e ∈ [Event.stepStarted (κ := κ) t.attempt step], e.attempt = t.attempt := by
      simp [Event.attempt]
    refine ⟨hlog.snoc ⟨h.notDrained, h.drained⟩, fun hc => hc.append (by simp [Task.nextStep]),
      hevents, fun t' ht' => ?_, fun _ => Or.inl ⟨_, rfl, rfl⟩⟩
    obtain rfl := Option.some.inj ht'
    refine ⟨⟨hnumbers.append hevents, ?_⟩, rfl, rfl⟩
    unfold PcInv
    cases hsweeps : step.sweeps with
    | nil => exact ⟨hsweeps, past, hsteps, ⟨hthrough.1, hthrough.2, hthrough.3, hthrough.4⟩⟩
    | cons sweep later =>
      exact ⟨⟨past, hsteps, ⟨hthrough.1, hthrough.2, hthrough.3, hthrough.4⟩⟩,
        ⟨[], hsweeps, fun _ => List.forall_mem_nil _⟩, trivial⟩

theorem steps_nodup (work : Work) : work.steps.Nodup := by
  cases work with
  | pass version => exact (by decide : passSteps.Nodup)
  | adhoc timeNs => exact (by decide : passSteps.Nodup)
  | refresh version => exact (by decide : refreshSteps.Nodup)

omit [LinearOrder κ] [OrderBot κ] in
/-- Where a step of the attempt ends and the loop goes on, the steps stay continued. -/
theorem continued_stepEnds (hsteps : t.attempt.work.steps = past ++ step :: rest)
    (failure : Option String) (h : Continued log) :
    Continued (log ++ (t.stepEnds step rest failure).2) := by
  intro A step' failure' hmem before next after hsteps'
  rcases List.mem_append.mp hmem with hmem | hmem
  · exact (h A step' failure' hmem before next after hsteps').imp (List.mem_append_left _)
      (List.mem_append_left _)
  · left
    have hnodup := steps_nodup t.attempt.work
    rw [hsteps, List.nodup_middle, List.nodup_cons, List.mem_append, not_or] at hnodup
    cases rest with
    | nil =>
      simp only [Task.stepEnds, Task.nextStep, List.mem_cons, Event.stepEnded.injEq, reduceCtorEq,
        List.not_mem_nil, or_false] at hmem
      obtain ⟨rfl, rfl, -⟩ := hmem
      obtain ⟨-, -, hafter⟩ :=
        (List.append_cons_inj_of_notMem hnodup.1.1 hnodup.1.2).mp (hsteps.symm.trans hsteps')
      cases hafter
    | cons next' rest =>
      simp only [Task.stepEnds, Task.nextStep, List.mem_cons, Event.stepEnded.injEq, reduceCtorEq,
        List.not_mem_nil, or_false] at hmem
      obtain ⟨rfl, rfl, -⟩ := hmem
      obtain ⟨-, -, hafter⟩ :=
        (List.append_cons_inj_of_notMem hnodup.1.1 hnodup.1.2).mp (hsteps.symm.trans hsteps')
      obtain ⟨rfl, rfl⟩ := List.cons.inj hafter
      simp [Task.stepEnds, Task.nextStep]

/-- A step of the attempt ends. It succeeded only if all its sweeps did. -/
theorem good_stepEnds (hlog : LogInv log)
    (hnumbers : NoLater log t.attempt)
    (h : Through log t past) (hsteps : t.attempt.work.steps = past ++ step :: rest)
    {failure : Option String} (hok : failure = none → ∀ sweep ∈ step.sweeps,
      SweepSucceeded log t.attempt sweep ∧ RanToEnd log t.attempt.runKey sweep) :
    Good log t.attempt (t.stepEnds step rest failure).1 (t.stepEnds step rest failure).2 := by
  have hsub : log ⊆ log ++ [.stepEnded t.attempt step failure] := List.subset_append_left ..
  have hself : .stepEnded t.attempt step failure ∈ log ++ [.stepEnded t.attempt step failure] :=
    List.mem_append_right _ (List.mem_singleton_self _)
  have hthrough := h.append [.stepEnded t.attempt step failure] (by simp)
  have hthrough' : Through (log ++ [.stepEnded t.attempt step failure])
      { t with failedSteps := t.failedSteps ++ failure.toList } (past ++ [step]) := by
    refine ⟨hthrough.drained, hthrough.notDrained, fun step' hstep' => ?_,
      fun hnone step' hstep' => ?_⟩
    · rcases List.mem_append.mp hstep' with hstep' | hstep'
      · exact hthrough.ended step' hstep'
      · obtain rfl := List.mem_singleton.mp hstep'
        exact ⟨failure, hself⟩
    · obtain ⟨hnil, hfailure⟩ := List.append_eq_nil_iff.mp hnone
      obtain rfl : failure = none := by simpa using hfailure
      rcases List.mem_append.mp hstep' with hstep' | hstep'
      · exact hthrough.succeeded hnil step' hstep'
      · obtain rfl := List.mem_singleton.mp hstep'
        exact ⟨hself, fun sweep hsweep =>
          ⟨(hok rfl sweep hsweep).1.mono hsub, (hok rfl sweep hsweep).2.mono hsub⟩⟩
  refine Good.cons rfl ?_ (continued_stepEnds hsteps failure)
  refine good_nextStep (t := { t with failedSteps := t.failedSteps ++ failure.toList })
    (hlog.snoc trivial) (hnumbers.append (by simp [Event.attempt])) hthrough' ?_
  rw [List.append_assoc]
  exact hsteps

/-- A task in a sweep of a step. -/
theorem taskInv_sweeping
    (hnumbers : NoLater log t.attempt)
    (h : Through log t past) (hsteps : t.attempt.work.steps = past ++ step :: rest)
    {before later : List SweepName} {sweep : SweepName} {ok : Bool} {pc : SweepPc κ}
    (hsweeps : step.sweeps = before ++ sweep :: later)
    (hok : ok = true → ∀ sweep ∈ before,
      SweepSucceeded log t.attempt sweep ∧ RanToEnd log t.attempt.runKey sweep)
    (hpc : SweepInv log t.attempt sweep pc) :
    TaskInv log { t with pc := .sweeping step rest ok sweep later pc } := by
  refine ⟨hnumbers, ?_⟩
  unfold PcInv
  exact ⟨⟨past, hsteps, ⟨h.drained, h.notDrained, h.ended, h.succeeded⟩⟩,
    ⟨before, hsweeps, hok⟩, hpc⟩

/-- A sweep of a step ends, and the next one or the end of the step follows. -/
theorem good_sweepEnds (hlog : LogInv log)
    (hnumbers : NoLater log t.attempt)
    (h : Through log t past) (hsteps : t.attempt.work.steps = past ++ step :: rest)
    {before later : List SweepName} {ok : Bool} (hsweeps : step.sweeps = before ++ later)
    (hok : ok = true → ∀ sweep ∈ before,
      SweepSucceeded log t.attempt sweep ∧ RanToEnd log t.attempt.runKey sweep) :
    Good log t.attempt (t.sweepEnds step rest ok later).1 (t.sweepEnds step rest ok later).2 := by
  cases later with
  | nil =>
    rw [List.append_nil] at hsweeps
    refine good_stepEnds hlog hnumbers h hsteps fun hnone => ?_
    rw [hsweeps]
    refine hok ?_
    by_contra hfalse
    simp [hfalse] at hnone
  | cons sweep later =>
    have hpc : SweepInv log t.attempt sweep (.reading sweep.pageSize) := trivial
    exact Good.silent hlog (taskInv_sweeping hnumbers h hsteps hsweeps hok hpc)

omit [LinearOrder κ] [OrderBot κ] in
/-- An error of a page ends the sweep, or leaves its cursor where it is. -/
theorem afterError_cases (retryable : Bool) (l : SweepLocals κ) :
    Sweep.afterError 1 retryable l = .idle ∨ ∃ l', l'.cursor = l.cursor ∧
      (Sweep.afterError 1 retryable l = .before l' ∨
        Sweep.afterError 1 retryable l = .sleeping l') := by
  unfold Sweep.afterError
  split_ifs
  · exact Or.inl rfl
  · exact Or.inr ⟨{ l with size := max 1 (l.size / 2) }, rfl, Or.inl rfl⟩
  · exact Or.inl rfl
  · exact Or.inr ⟨{ l with failuresAtMin := l.failuresAtMin + 1 }, rfl, Or.inr rfl⟩

/-- A page statement returned: the sweep is at its checkpoint write, with the page in the log. -/
theorem sweepInv_afterPage {A : Attempt} {sweep : SweepName} {keys : Finset κ} {l : SweepLocals κ}
    {page : List κ} (h : SweptTo log A.runKey sweep l.cursor) :
    SweepInv (log ++ [.page A sweep keys l.cursor page]) A sweep
      (Sweep.afterPage (some A.runKey) l page) := by
  have hsub : log ⊆ log ++ [.page A sweep keys l.cursor page] := List.subset_append_left ..
  have hmem : .page A sweep keys l.cursor page ∈ log ++ [.page A sweep keys l.cursor page] :=
    List.mem_append_right _ (List.mem_singleton_self _)
  cases hlast : page.getLast? with
  | none =>
    simp only [Sweep.afterPage, hlast, SweepInv]
    obtain rfl := List.getLast?_eq_none_iff.mp hlast
    exact ⟨h.mono hsub, fun _ => ⟨keys, hmem⟩⟩
  | some last =>
    simp only [Sweep.afterPage, hlast, SweepInv]
    exact ⟨.page (h.mono hsub) hmem rfl hlast, fun hfalse => by cases hfalse⟩

omit [LinearOrder κ] [OrderBot κ] in
/-- MaintenanceStopped ends the step and the whole attempt. -/
theorem continued_stopped (A : Attempt) (step : StepName) (failure : Option String)
    (h : Continued log) :
    Continued (log ++ [.stepEnded A step failure, .cut A .stopped]) := by
  intro A' step' failure' hmem before next after hsteps
  rcases List.mem_append.mp hmem with hmem | hmem
  · exact (h A' step' failure' hmem before next after hsteps).imp (List.mem_append_left _)
      (List.mem_append_left _)
  · simp only [List.mem_cons, Event.stepEnded.injEq, reduceCtorEq, List.not_mem_nil,
      or_false] at hmem
    obtain ⟨rfl, -, -⟩ := hmem
    exact Or.inr (by simp)

theorem good_stopped (hlog : LogInv log) {A : Attempt} (hwork : A.work.isRefresh = true)
    (step : StepName) : Good (κ := κ) log A none
      [.stepEnded A step (some "MaintenanceStopped"), .cut A .stopped] where
  logInv := by
    have hended : LogInv (log ++ [.stepEnded A step (some "MaintenanceStopped")]) :=
      hlog.snoc trivial
    have hcut := hended.snoc (e := .cut A .stopped) fun _ => hwork
    rwa [List.append_assoc] at hcut
  continued := continued_stopped A step _
  attempts := by simp [Event.attempt]
  taskInv t h := by cases h
  begun _ := Or.inr (Or.inr (Or.inr ⟨.stopped, by simp⟩))

/-- An action of a sweep. -/
theorem good_sweepStep {s : State κ} (hlog : LogInv s.log)
    (hcheckpoint : ∀ sweep, CheckpointOk s.log t.attempt.runKey sweep
      (readCheckpoint (s.checkpoints sweep) t.attempt.runKey))
    (hnumbers : NoLater s.log t.attempt)
    (h : Through s.log t past) (hsteps : t.attempt.work.steps = past ++ step :: rest)
    {before later : List SweepName} {sweep : SweepName} {ok : Bool} {pc : SweepPc κ}
    (hsweeps : step.sweeps = before ++ sweep :: later)
    (hok : ok = true → ∀ sweep ∈ before,
      SweepSucceeded s.log t.attempt sweep ∧ RanToEnd s.log t.attempt.runKey sweep)
    (hpc : SweepInv s.log t.attempt sweep pc) {a : TaskAction κ} {o : Outcome κ}
    (hs : t.sweepStep s step rest ok sweep later pc a = some o) :
    Good s.log t.attempt o.task o.events := by
  have hsweeps' : step.sweeps = before ++ [sweep] ++ later := by simp [hsweeps]
  have hfails : Good s.log t.attempt (t.sweepEnds step rest false later).1
      (t.sweepEnds step rest false later).2 :=
    good_sweepEnds hlog hnumbers h hsteps hsweeps' fun hfalse => by cases hfalse
  have hgoto {pc' : SweepPc κ} (hpc' : SweepInv s.log t.attempt sweep pc') :
      Good s.log t.attempt (some { t with pc := .sweeping step rest ok sweep later pc' }) [] :=
    Good.silent hlog (taskInv_sweeping hnumbers h hsteps hsweeps hok hpc')
  cases a with
  | readReturns =>
    simp only [Task.sweepStep] at hs
    split at hs
    · next pageSize =>
      obtain rfl := Option.some.inj hs
      split_ifs with hdone
      · have hmem : .alreadyDone t.attempt sweep ∈ s.log ++ [.alreadyDone t.attempt sweep] :=
          List.mem_append_right _ (List.mem_singleton_self _)
        have hsub : s.log ⊆ s.log ++ [.alreadyDone t.attempt sweep] := List.subset_append_left ..
        have hlog' : LogInv (s.log ++ [.alreadyDone t.attempt sweep]) := hlog.snoc trivial
        have hnumbers' : NoLater (s.log ++ [.alreadyDone t.attempt sweep]) t.attempt :=
          hnumbers.append (by simp [Event.attempt])
        refine Good.before rfl (by simp) (good_sweepEnds hlog' hnumbers' (h.append _ (by simp))
          hsteps hsweeps' fun hok' sweep' hsweep' => ?_)
        rcases List.mem_append.mp hsweep' with hsweep' | hsweep'
        · exact ⟨(hok hok' sweep' hsweep').1.mono hsub, (hok hok' sweep' hsweep').2.mono hsub⟩
        · obtain rfl := List.mem_singleton.mp hsweep'
          exact ⟨Or.inr hmem, ((hcheckpoint sweep').done hdone).mono hsub⟩
      · exact hgoto (hcheckpoint sweep).cursor
    · cases hs
  | readRaises =>
    simp only [Task.sweepStep] at hs
    split at hs
    · obtain rfl := Option.some.inj hs
      exact hfails
    · cases hs
  | beforePageReturns =>
    simp only [Task.sweepStep] at hs
    split at hs
    · obtain rfl := Option.some.inj hs
      exact hgoto hpc
    · cases hs
  | beforePageRaises =>
    simp only [Task.sweepStep] at hs
    split at hs
    · obtain rfl := Option.some.inj hs
      exact hfails
    · cases hs
  | beforePageStops =>
    simp only [Task.sweepStep] at hs
    split at hs
    · next l version hwork =>
      obtain rfl := Option.some.inj hs
      exact good_stopped hlog (by rw [hwork]; rfl) step
    · cases hs
  | pageReturns page =>
    simp only [Task.sweepStep] at hs
    split at hs
    · next l =>
      split_ifs at hs with hpage
      obtain rfl := Option.some.inj hs
      have hevents : ∀ e ∈ [Event.page t.attempt sweep (s.keys sweep) l.cursor page],
          e.attempt = t.attempt := by simp [Event.attempt]
      refine ⟨hlog.snoc ⟨_, hpage⟩, fun hc => hc.append (by simp), hevents, fun t' ht' => ?_,
        fun _ => Or.inl ⟨_, rfl, rfl⟩⟩
      obtain rfl := Option.some.inj ht'
      have hsub := List.subset_append_left s.log
        [Event.page t.attempt sweep (s.keys sweep) l.cursor page]
      exact ⟨taskInv_sweeping (hnumbers.append hevents) (h.append _ (by simp)) hsteps hsweeps
        (fun hok' sweep' hsweep' => ⟨(hok hok' sweep' hsweep').1.mono hsub,
          (hok hok' sweep' hsweep').2.mono hsub⟩) (sweepInv_afterPage hpc), rfl, rfl⟩
    · cases hs
  | pageRaises retryable =>
    simp only [Task.sweepStep] at hs
    split at hs
    · next l =>
      rcases afterError_cases retryable l with hidle | ⟨l', hcursor, hl' | hl'⟩
      · rw [hidle] at hs
        obtain rfl := Option.some.inj hs
        exact hfails
      · rw [hl'] at hs
        obtain rfl := Option.some.inj hs
        exact hgoto (show SweptTo _ _ _ _ from hcursor ▸ hpc)
      · rw [hl'] at hs
        obtain rfl := Option.some.inj hs
        exact hgoto (show SweptTo _ _ _ _ from hcursor ▸ hpc)
    · cases hs
  | sleepReturns =>
    simp only [Task.sweepStep] at hs
    split at hs
    · obtain rfl := Option.some.inj hs
      exact hgoto hpc
    · cases hs
  | writeReturns =>
    simp only [Task.sweepStep] at hs
    split at hs
    · next l done =>
      obtain rfl := Option.some.inj hs
      cases done with
      | false => exact hgoto hpc.1
      | true =>
        obtain ⟨keys, hmem⟩ := hpc.2 rfl
        refine good_sweepEnds hlog hnumbers h hsteps hsweeps' fun hok' sweep' hsweep' => ?_
        rcases List.mem_append.mp hsweep' with hsweep' | hsweep'
        · exact hok hok' sweep' hsweep'
        · obtain rfl := List.mem_singleton.mp hsweep'
          exact ⟨Or.inl ⟨keys, l.cursor, hmem⟩, t.attempt, keys, l.cursor, rfl, hpc.1, hmem⟩
    · cases hs
  | writeRaises =>
    simp only [Task.sweepStep] at hs
    split at hs
    · obtain rfl := Option.some.inj hs
      exact hfails
    · cases hs
  | _ => cases hs

/-- The loop starts the steps of an attempt whose queues drained, or of a refresh. -/
theorem good_begin (hlog : LogInv log)
    (hnumbers : NoLater log t.attempt)
    (hdrained : t.attempt.work.isRefresh = false → .drained t.attempt ∈ log)
    (hnot : .notDrained t.attempt ∉ log) :
    Good log t.attempt (t.nextStep t.attempt.work.steps).1
      (t.nextStep t.attempt.work.steps).2 := by
  have hthrough : Through log t [] :=
    ⟨hdrained, hnot, List.forall_mem_nil _, fun _ => List.forall_mem_nil _⟩
  exact good_nextStep hlog hnumbers hthrough rfl

/-- The queues did not drain: no step runs. -/
theorem good_notDrained (hlog : LogInv log)
    (hnumbers : NoLater log t.attempt)
    (hbegun : ∀ e ∈ log, e.attempt = t.attempt → e = .begun t.attempt) {task : Option (Task κ)}
    (htask : ∀ t', task = some t' → t'.attempt = t.attempt ∧
      (t'.pc = .delaying ∨ t'.pc = .recording)) :
    Good log t.attempt task [.notDrained t.attempt] := by
  have hover : Over (log ++ [.notDrained t.attempt]) t.attempt :=
    Or.inl (List.mem_append_right _ (List.mem_singleton_self _))
  refine good_of_over (hlog.snoc fun step hstep => ?_) (by simp [Event.attempt]) (by simp) hnumbers
    hover fun t' ht' => ?_
  · cases hbegun _ hstep rfl
  · obtain ⟨hattempt, hpc⟩ := htask t' ht'
    exact ⟨hattempt, pcInv_of_over (hattempt.symm ▸ hover) hpc⟩

/-- A task whose attempt is over logs nothing more for it. -/
theorem good_silent_over (hlog : LogInv log)
    (hnumbers : NoLater log t.attempt)
    (hover : Over log t.attempt) {task : Option (Task κ)}
    (htask : ∀ t', task = some t' → t'.attempt = t.attempt ∧
      (t'.pc = .delaying ∨ t'.pc = .recording)) : Good log t.attempt task [] := by
  refine good_of_over (by simpa using hlog) (List.forall_mem_nil _)
    (fun _ _ _ => List.not_mem_nil) hnumbers (by simpa using hover) fun t' ht' => ?_
  obtain ⟨hattempt, hpc⟩ := htask t' ht'
  rw [List.append_nil]
  exact ⟨hattempt, pcInv_of_over (hattempt.symm ▸ hover) hpc⟩

/-- The loop goes on to the next attempt. -/
theorem good_renew (hlog : LogInv log)
    (hnumbers : NoLater log t.attempt)
    (hover : Over log t.attempt) :
    Good log t.attempt (some { t with
      attempt := { t.attempt with number := t.attempt.number + 1 }
      failedSteps := []
      pc := .entering }) [] where
  logInv := by simpa using hlog
  continued h := by simpa using h
  attempts := List.forall_mem_nil _
  taskInv t' ht' := by
    obtain rfl := Option.some.inj ht'
    rw [List.append_nil]
    refine ⟨⟨fun e he htask => (hnumbers e he htask).trans (Nat.le_succ _), fun e he h => ?_⟩,
      rfl, rfl⟩
    have hle := hnumbers e he (by rw [h])
    rw [h] at hle
    exact absurd hle (Nat.not_succ_le_self _)
  begun _ := Or.inr (by simpa using hover)

/-- The loop is at the top of an attempt. -/
theorem good_enter {s : State κ} {p : Process} (hlog : LogInv s.log)
    (hnumbers : NoLater s.log t.attempt)
    (hfresh : ∀ e ∈ s.log, e.attempt ≠ t.attempt) (hpc : t.pc = .entering) {o : Outcome κ}
    (hs : t.step s p .enter = some o) : Good s.log t.attempt o.task o.events := by
  have hbegun : LogInv (s.log ++ [.begun t.attempt]) := hlog.snoc trivial
  have hnumbers' : NoLater (s.log ++ [.begun t.attempt]) t.attempt :=
    hnumbers.append (by simp [Event.attempt])
  have honly : ∀ e ∈ s.log ++ [.begun t.attempt], e.attempt = t.attempt →
      e = .begun t.attempt := by
    intro e he hattempt
    rcases List.mem_append.mp he with he | he
    · exact absurd hattempt (hfresh e he)
    · exact List.mem_singleton.mp he
  have hnot : .notDrained t.attempt ∉ s.log ++ [.begun t.attempt] := fun h => by
    cases honly _ h rfl
  simp only [Task.step, hpc] at hs
  split_ifs at hs with hrefresh hshutdown hprocessor
  · obtain rfl := Option.some.inj hs
    refine Good.before rfl (by simp) (good_begin hbegun hnumbers' (fun hwork => ?_) hnot)
    rw [hrefresh] at hwork
    cases hwork
  · obtain rfl := Option.some.inj hs
    refine ⟨by simpa using hlog, fun h => by simpa using h, List.forall_mem_nil _,
      fun t' h => (by cases h), fun h => ?_⟩
    rw [List.append_nil] at h
    exact absurd rfl (hfresh _ h)
  · obtain rfl := Option.some.inj hs
    refine ⟨hbegun, fun hc => hc.append (by simp), by simp [Event.attempt], fun t' ht' => ?_,
      fun _ => Or.inl ⟨_, rfl, rfl⟩⟩
    obtain rfl := Option.some.inj ht'
    exact ⟨⟨hnumbers', honly⟩, rfl, rfl⟩
  · obtain rfl := Option.some.inj hs
    refine Good.before rfl (by simp) (Good.before rfl (by simp) ?_)
    refine good_begin (hbegun.snoc trivial) (hnumbers'.append (by simp [Event.attempt]))
      (fun _ => ?_) fun h => ?_
    · exact List.mem_append_right _ (List.mem_singleton_self _)
    · exact (List.mem_append.mp h).elim hnot (by simp)

/-- `flush_all` returned or raised. -/
theorem good_draining {s : State κ} {p : Process} (hlog : LogInv s.log)
    (hnumbers : NoLater s.log t.attempt)
    (honly : ∀ e ∈ s.log, e.attempt = t.attempt → e = .begun t.attempt) (hpc : t.pc = .draining)
    {a : TaskAction κ} {o : Outcome κ} (hs : t.step s p a = some o) :
    Good s.log t.attempt o.task o.events := by
  have hnot : .notDrained t.attempt ∉ s.log := fun h => by cases honly _ h rfl
  cases a with
  | flushAllReturns drained =>
    simp only [Task.step, hpc] at hs
    obtain rfl := Option.some.inj hs
    cases drained with
    | true =>
      refine Good.before rfl (by simp) (good_begin (hlog.snoc trivial)
        (hnumbers.append (by simp [Event.attempt])) (fun _ => ?_) fun h => ?_)
      · exact List.mem_append_right _ (List.mem_singleton_self _)
      · exact (List.mem_append.mp h).elim hnot (by simp)
    | false =>
      refine good_notDrained hlog hnumbers honly fun t' ht' => ?_
      simp only [Bool.false_eq_true, ↓reduceIte] at ht'
      obtain ⟨hattempt, ⟨hnil, -⟩ | hpc'⟩ := afterSteps_eq_some ht'
      · cases hnil
      · exact ⟨hattempt, hpc'⟩
  | flushAllRaises error =>
    simp only [Task.step, hpc] at hs
    obtain rfl := Option.some.inj hs
    exact good_notDrained hlog hnumbers honly fun t' ht' => retry_eq_some ht'
  | _ => simp [Task.step, hpc] at hs

/-- A step without sweeps returned or raised. -/
theorem good_cleaning {s : State κ} {p : Process} (hlog : LogInv s.log)
    (hnumbers : NoLater s.log t.attempt)
    (h : Through s.log t past) (hsteps : t.attempt.work.steps = past ++ step :: rest)
    (hsweeps : step.sweeps = []) (hpc : t.pc = .cleaning step rest)
    {a : TaskAction κ} {o : Outcome κ} (hs : t.step s p a = some o) :
    Good s.log t.attempt o.task o.events := by
  have hends (failure : Option String) :
      Good s.log t.attempt (t.stepEnds step rest failure).1 (t.stepEnds step rest failure).2 := by
    refine good_stepEnds hlog hnumbers h hsteps fun _ => ?_
    rw [hsweeps]
    exact List.forall_mem_nil _
  cases a with
  | cleanupReturns ok =>
    simp only [Task.step, hpc] at hs
    obtain rfl := Option.some.inj hs
    exact hends _
  | cleanupRaises error =>
    simp only [Task.step, hpc] at hs
    obtain rfl := Option.some.inj hs
    exact hends _
  | _ => simp [Task.step, hpc] at hs

/-- The stamp returned or raised. -/
theorem good_stamping {s : State κ} {p : Process} (hlog : LogInv s.log)
    (hnumbers : NoLater s.log t.attempt)
    (hover : Over s.log t.attempt) (hpc : t.pc = .stamping) {a : TaskAction κ} {o : Outcome κ}
    (hs : t.step s p a = some o) : Good s.log t.attempt o.task o.events := by
  cases a with
  | stampReturns =>
    simp only [Task.step, hpc] at hs
    split_ifs at hs
    obtain rfl := Option.some.inj hs
    exact good_silent_over hlog hnumbers hover fun t' h => by cases h
  | stampRaises error =>
    simp only [Task.step, hpc] at hs
    obtain rfl := Option.some.inj hs
    refine good_silent_over hlog hnumbers hover fun t' ht' => ?_
    dsimp only at ht'
    split at ht'
    · exact retry_eq_some ht'
    · exact retry_eq_some ht'
    · cases ht'
  | _ => simp [Task.step, hpc] at hs

/-- What an action of a task does to the log. -/
theorem good_step {s : State κ} {p : Process} (hlog : LogInv s.log)
    (hcheckpoint : ∀ sweep, CheckpointOk s.log t.attempt.runKey sweep
      (readCheckpoint (s.checkpoints sweep) t.attempt.runKey))
    (ht : TaskInv s.log t) {a : TaskAction κ} {o : Outcome κ} (hs : t.step s p a = some o) :
    Good s.log t.attempt o.task o.events := by
  have hnumbers := ht.numbers
  have hinv := ht.pc
  unfold PcInv at hinv
  cases hpc : t.pc with
  | entering =>
    rw [hpc] at hinv
    cases a with
    | enter => exact good_enter hlog hnumbers hinv hpc hs
    | _ => simp [Task.step, hpc] at hs
  | draining =>
    rw [hpc] at hinv
    exact good_draining hlog hnumbers hinv hpc hs
  | cleaning step rest =>
    rw [hpc] at hinv
    obtain ⟨hsweeps, past, hsteps, hthrough⟩ := hinv
    exact good_cleaning hlog hnumbers hthrough hsteps hsweeps hpc hs
  | sweeping step rest ok sweep later pc =>
    rw [hpc] at hinv
    obtain ⟨⟨past, hsteps, hthrough⟩, ⟨before, hsweeps, hok⟩, hsweep⟩ := hinv
    simp only [Task.step, hpc] at hs
    exact good_sweepStep hlog hcheckpoint hnumbers hthrough hsteps hsweeps hok hsweep hs
  | stamping =>
    rw [hpc] at hinv
    exact good_stamping hlog hnumbers hinv.2 hpc hs
  | recording =>
    rw [hpc] at hinv
    cases a with
    | recordReturns =>
      simp only [Task.step, hpc] at hs
      obtain rfl := Option.some.inj hs
      exact good_silent_over hlog hnumbers hinv fun t' h => by cases h
    | recordRaises =>
      simp only [Task.step, hpc] at hs
      obtain rfl := Option.some.inj hs
      exact good_silent_over hlog hnumbers hinv fun t' h => by cases h
    | _ => simp [Task.step, hpc] at hs
  | delaying =>
    rw [hpc] at hinv
    cases a with
    | delayReturns =>
      simp only [Task.step, hpc] at hs
      obtain rfl := Option.some.inj hs
      exact good_renew hlog hnumbers hinv
    | _ => simp [Task.step, hpc] at hs

end Steps

/-! ### The invariant -/

/-- The latch of the version of a pass is full. -/
def Guarded (store : CompletionStore) (A : Attempt) : Prop :=
  ∀ version, A.work = .pass version → allDataTypes ⊆ store.loadExtractionSignals version

/-- What a statement in flight would write is backed by the log. -/
def Justified (store : CompletionStore) (log : List (Event κ)) : Statement κ → Prop
  | .writeCheckpoint sweep runKey c => CheckpointOk log runKey sweep c
  | .stamp A => AttemptSucceeded log A ∧ Guarded store A
  | .recordFailure _ _ => True

/-- The invariant of the machine. -/
structure Inv (s : State κ) : Prop where
  log : LogInv s.log
  continued : Continued s.log
  created : ∀ e ∈ s.log, e.attempt.task < s.created
  task {slot : Slot} {t : Task κ} : s.task slot = some t →
    TaskInv s.log t ∧ t.attempt.task < s.created ∧ Guarded s.store t.attempt
  distinct {slot slot' : Slot} {t t' : Task κ} : s.task slot = some t → s.task slot' = some t' →
    t.attempt.task = t'.attempt.task → slot = slot'
  checkpoint (sweep : SweepName) (A : Attempt) :
    CheckpointOk s.log A.runKey sweep (readCheckpoint (s.checkpoints sweep) A.runKey)
  late : ∀ statement ∈ s.late, Justified s.store s.log statement
  begun {A : Attempt} : .begun A ∈ s.log →
    (∃ slot t, s.task slot = some t ∧ t.attempt = A) ∨ Over s.log A

section Invariant

variable {s s' : State κ} {t : Task κ} {slot : Slot}

theorem Justified.mono {store store' : CompletionStore} {log log' : List (Event κ)}
    (hstore : ∀ version, store.loadExtractionSignals version ⊆ store'.loadExtractionSignals version)
    (hsub : log ⊆ log') {statement : Statement κ} (h : Justified store log statement) :
    Justified store' log' statement := by
  cases statement with
  | writeCheckpoint sweep runKey c => exact CheckpointOk.mono hsub h
  | stamp A =>
    exact ⟨h.1.mono hsub, fun version hwork => (h.2 version hwork).trans (hstore version)⟩
  | recordFailure version error => trivial

/-- No write to the dump records takes a signal away. -/
theorem signals_applyWrite (s : State κ) (w : Option CompletionStore.Write) (version : String) :
    s.store.loadExtractionSignals version ⊆ (s.applyWrite w).loadExtractionSignals version := by
  cases w with
  | none => exact Finset.Subset.refl _
  | some w =>
    simp only [State.applyWrite]
    cases happly : s.store.apply w with
    | none => exact Finset.Subset.refl _
    | some store =>
      exact (CompletionStore.apply_shape happly).loadExtractionSignals_subset version

/-- The statement a task waits for is backed by what the task knows. -/
theorem justified_inFlight {store : CompletionStore} {log : List (Event κ)} (ht : TaskInv log t)
    (hguard : Guarded store t.attempt) {statement : Statement κ}
    (h : t.inFlight = some statement) : Justified store log statement := by
  have hinv := ht.pc
  unfold PcInv at hinv
  unfold Task.inFlight at h
  cases hpc : t.pc with
  | sweeping step rest ok sweep later pc =>
    rw [hpc] at hinv h
    cases pc with
    | writing l done =>
      obtain rfl := Option.some.inj h
      obtain ⟨-, -, hto, hdone⟩ := hinv
      refine ⟨hto, fun hd => ?_⟩
      obtain ⟨keys, hmem⟩ := hdone hd
      exact ⟨t.attempt, keys, l.cursor, rfl, hto, hmem⟩
    | _ => cases h
  | stamping =>
    rw [hpc] at hinv h
    obtain rfl := Option.some.inj h
    exact ⟨hinv.1, hguard⟩
  | recording =>
    rw [hpc] at h
    dsimp only at h
    split at h
    · obtain rfl := Option.some.inj h
      trivial
    · obtain rfl := Option.some.inj h
      trivial
    · cases h
  | _ =>
    rw [hpc] at h
    cases h

theorem SweepInv.mono {log log' : List (Event κ)} (hsub : log ⊆ log') {A : Attempt}
    {sweep : SweepName} {pc : SweepPc κ} (h : SweepInv log A sweep pc) :
    SweepInv log' A sweep pc := by
  cases pc with
  | idle => exact h
  | reading pageSize => trivial
  | before l => exact SweptTo.mono hsub h
  | paging l => exact SweptTo.mono hsub h
  | sleeping l => exact SweptTo.mono hsub h
  | writing l done =>
    refine ⟨h.1.mono hsub, fun hdone => ?_⟩
    obtain ⟨keys, hmem⟩ := h.2 hdone
    exact ⟨keys, hsub hmem⟩

/-- What another task logs changes nothing for a task. -/
theorem TaskInv.append {log events : List (Event κ)} (h : TaskInv log t)
    (hother : ∀ e ∈ events, e.attempt.task ≠ t.attempt.task) : TaskInv (log ++ events) t where
  numbers e he htask := by
    rcases List.mem_append.mp he with he | he
    · exact h.numbers e he htask
    · exact absurd htask (hother e he)
  pc := by
    have hsub : log ⊆ log ++ events := List.subset_append_left ..
    have hnot : .notDrained t.attempt ∉ events := fun hmem => hother _ hmem rfl
    have hinv := h.pc
    unfold PcInv at hinv ⊢
    cases hpc : t.pc with
    | entering =>
      rw [hpc] at hinv
      intro e he hattempt
      rcases List.mem_append.mp he with he | he
      · exact hinv e he hattempt
      · exact hother e he (by rw [hattempt])
    | draining =>
      rw [hpc] at hinv
      intro e he hattempt
      rcases List.mem_append.mp he with he | he
      · exact hinv e he hattempt
      · exact absurd (by rw [hattempt]) (hother e he)
    | cleaning step rest =>
      rw [hpc] at hinv
      obtain ⟨hsweeps, past, hsteps, hthrough⟩ := hinv
      exact ⟨hsweeps, past, hsteps, hthrough.append _ hnot⟩
    | sweeping step rest ok sweep later pc =>
      rw [hpc] at hinv
      obtain ⟨⟨past, hsteps, hthrough⟩, ⟨before, hsweeps, hok⟩, hsweep⟩ := hinv
      exact ⟨⟨past, hsteps, hthrough.append _ hnot⟩, ⟨before, hsweeps, fun hok' sweep' hsweep' =>
        ⟨(hok hok' sweep' hsweep').1.mono hsub, (hok hok' sweep' hsweep').2.mono hsub⟩⟩,
        hsweep.mono hsub⟩
    | stamping =>
      rw [hpc] at hinv
      exact ⟨hinv.1.mono hsub, hinv.2.mono hsub⟩
    | recording =>
      rw [hpc] at hinv
      exact Over.mono hsub hinv
    | delaying =>
      rw [hpc] at hinv
      exact Over.mono hsub hinv

/-- A statement commits, whether or not somebody waits for it. -/
theorem Inv.commit (h : Inv s) {statement : Statement κ}
    (hj : Justified s.store s.log statement) (now : ℕ) : Inv (s.commit now (some statement)) where
  log := h.log
  continued := h.continued
  created := h.created
  task ht := by
    obtain ⟨hinv, hcreated, hguard⟩ := h.task ht
    exact ⟨hinv, hcreated, fun version hwork =>
      (hguard version hwork).trans (signals_applyWrite s _ version)⟩
  distinct := h.distinct
  checkpoint sweep A := by
    cases statement with
    | writeCheckpoint sweep' runKey c =>
      simp only [State.commit, Statement.checkpoints]
      rcases eq_or_ne sweep sweep' with rfl | hne
      · rw [Function.update_self]
        by_cases hkey : runKey = A.runKey
        · subst hkey
          rw [readCheckpoint_writeCheckpoint]
          exact hj
        · have hfresh : readCheckpoint (Graphinator.writeCheckpoint runKey c) A.runKey = {} := by
            simp [readCheckpoint, Graphinator.writeCheckpoint, hkey]
          rw [hfresh]
          exact checkpointOk_fresh
      · rw [Function.update_of_ne hne]
        exact h.checkpoint sweep A
    | stamp A' => exact h.checkpoint sweep A
    | recordFailure version error => exact h.checkpoint sweep A
  late st hst := (h.late st hst).mono (signals_applyWrite s _) (List.Subset.refl _)
  begun := h.begun

/-- A task went through an action, as far as the log and the slots go. -/
theorem Inv.advanceLog (h : Inv s) (ht : s.task slot = some t) {task : Option (Task κ)}
    {events : List (Event κ)} {late : Option (Statement κ)}
    (hgood : Good s.log t.attempt task events)
    (hlate : ∀ st, late = some st → Justified s.store s.log st) :
    Inv { s with
      task := Function.update s.task slot task
      late := s.late ++ late.toList
      log := s.log ++ events } := by
  have hsub : s.log ⊆ s.log ++ events := List.subset_append_left ..
  obtain ⟨-, hcreated, hguard⟩ := h.task ht
  refine ⟨hgood.logInv, hgood.continued h.continued, fun e he => ?_, fun {slot' t'} ht' => ?_,
    fun {slot₁ slot₂ t₁ t₂} ht₁ ht₂ heq => ?_, fun sweep A => (h.checkpoint sweep A).mono hsub,
    fun st hst => ?_, fun {A} hA => ?_⟩
  · rcases List.mem_append.mp he with he | he
    · exact h.created e he
    · rw [hgood.attempts e he]
      exact hcreated
  · rcases eq_or_ne slot' slot with rfl | hne
    · dsimp only at ht'
      rw [Function.update_self] at ht'
      obtain ⟨hinv, htask, hwork⟩ := hgood.taskInv t' ht'
      exact ⟨hinv, htask ▸ hcreated, fun version h => hguard version (hwork ▸ h)⟩
    · dsimp only at ht'
      rw [Function.update_of_ne hne] at ht'
      obtain ⟨hinv, hcreated', hguard'⟩ := h.task ht'
      refine ⟨hinv.append fun e he heq => hne ?_, hcreated', hguard'⟩
      rw [hgood.attempts e he] at heq
      exact (h.distinct ht ht' heq).symm
  · have hslot : ∀ {slot' t'}, Function.update s.task slot task slot' = some t' →
        ∃ t'', s.task slot' = some t'' ∧ t''.attempt.task = t'.attempt.task := by
      intro slot' t' ht'
      rcases eq_or_ne slot' slot with rfl | hne
      · rw [Function.update_self] at ht'
        exact ⟨t, ht, (hgood.taskInv t' ht').2.1.symm⟩
      · rw [Function.update_of_ne hne] at ht'
        exact ⟨t', ht', rfl⟩
    obtain ⟨t₁', ht₁', heq₁⟩ := hslot ht₁
    obtain ⟨t₂', ht₂', heq₂⟩ := hslot ht₂
    exact h.distinct ht₁' ht₂' (heq₁.trans (heq.trans heq₂.symm))
  · rcases List.mem_append.mp hst with hst | hst
    · exact (h.late st hst).mono (fun _ => Finset.Subset.refl _) hsub
    · exact (hlate st (by simpa using hst)).mono (fun _ => Finset.Subset.refl _) hsub
  · by_cases hself : A = t.attempt
    · subst hself
      refine (hgood.begun hA).imp_left ?_
      rintro ⟨t', ht', hattempt⟩
      exact ⟨slot, t', by rw [← ht']; exact Function.update_self .., hattempt⟩
    · have hold : .begun A ∈ s.log := by
        rcases List.mem_append.mp hA with hA | hA
        · exact hA
        · exact absurd (hgood.attempts _ hA) hself
      rcases h.begun hold with ⟨slot', t', ht', hattempt⟩ | hover
      · refine Or.inl ⟨slot', t', ?_, hattempt⟩
        have hne : slot' ≠ slot := by
          rintro rfl
          obtain rfl := Option.some.inj (ht.symm.trans ht')
          exact hself hattempt.symm
        exact (Function.update_of_ne hne ..).trans ht'
      · exact Or.inr (hover.mono hsub)

/-- The task of the slot resumes. -/
theorem Inv.advance (h : Inv s) (ht : s.task slot = some t) {p : Process} {a : TaskAction κ}
    {o : Outcome κ} (hs : t.step s p a = some o) (now : ℕ) : Inv (s.advance slot t o now) := by
  obtain ⟨hinv, -, hguard⟩ := h.task ht
  have hjustified : ∀ st, t.inFlight = some st → Justified s.store s.log st :=
    fun st => justified_inFlight hinv hguard
  have hgood := good_step h.log (fun sweep => h.checkpoint sweep t.attempt) hinv hs
  have hcommit : Inv (s.commit now (if o.commits then t.inFlight else none)) := by
    split_ifs
    · cases hst : t.inFlight with
      | none => exact h
      | some st => exact h.commit (hjustified st hst) now
    · exact h
  have hlog : (s.commit now (if o.commits then t.inFlight else none)).log = s.log := by
    unfold State.commit
    split <;> rfl
  have htask : (s.commit now (if o.commits then t.inFlight else none)).task = s.task := by
    unfold State.commit
    split <;> rfl
  refine hcommit.advanceLog (htask ▸ ht) (hlog ▸ hgood) fun st hst => ?_
  split_ifs at hst
  exact justified_inFlight (hcommit.task (htask ▸ ht)).1 (hcommit.task (htask ▸ ht)).2.2 hst

/-- The task of a slot ends at its await. -/
theorem Inv.endTask (h : Inv s) (slot : Slot) {why : Cut} (hwhy : why ≠ .stopped) :
    Inv (s.endTask slot why) := by
  unfold State.endTask
  split
  · next t ht =>
    obtain ⟨hinv, -, hguard⟩ := h.task ht
    refine h.advanceLog ht ?_ fun st => justified_inFlight hinv hguard
    refine good_of_over (h.log.snoc fun h => absurd h hwhy) (by simp [Event.attempt]) (by simp)
      hinv.numbers ?_ fun t' h => by cases h
    exact Or.inr (Or.inr ⟨why, List.mem_append_right _ (List.mem_singleton_self _)⟩)
  · exact h

theorem endTask_task_of_ne {slot' : Slot} (hne : slot' ≠ slot) (why : Cut) :
    (s.endTask slot why).task slot' = s.task slot' := by
  unfold State.endTask
  split
  · exact Function.update_of_ne hne ..
  · rfl

theorem endTask_store (slot : Slot) (why : Cut) : (s.endTask slot why).store = s.store := by
  unfold State.endTask
  split <;> rfl

/-- A task is created in a slot that is free. -/
theorem Inv.createTask (h : Inv s) (hfree : s.task slot = none) {work : Work} (statsVersion : ℕ)
    (hguard : ∀ version, work = .pass version →
      allDataTypes ⊆ s.store.loadExtractionSignals version) :
    Inv (s.createTask slot work statsVersion) := by
  have hother : ∀ {slot' t'}, (s.createTask slot work statsVersion).task slot' = some t' →
      slot' = slot ∧ t' = { attempt := ⟨s.created, work, statsVersion, 1⟩ } ∨
        slot' ≠ slot ∧ s.task slot' = some t' := by
    intro slot' t' ht'
    rcases eq_or_ne slot' slot with rfl | hne
    · change Function.update s.task slot' _ slot' = some t' at ht'
      rw [Function.update_self] at ht'
      exact Or.inl ⟨rfl, (Option.some.inj ht').symm⟩
    · exact Or.inr ⟨hne, (Function.update_of_ne hne ..).symm.trans ht'⟩
  have hlt : ∀ e ∈ s.log, e.attempt.task ≠ s.created := fun e he => (h.created e he).ne
  refine ⟨h.log, h.continued, fun e he => (h.created e he).trans (Nat.lt_succ_self _),
    fun {slot' t'} ht' => ?_, fun {slot₁ slot₂ t₁ t₂} ht₁ ht₂ heq => ?_, h.checkpoint, h.late,
    fun {A} hA => ?_⟩
  · rcases hother ht' with ⟨rfl, rfl⟩ | ⟨-, ht'⟩
    · refine ⟨⟨fun e he htask => absurd htask (hlt e he), fun e he hattempt => ?_⟩,
        Nat.lt_succ_self _, hguard⟩
      exact hlt e he (by rw [hattempt])
    · obtain ⟨hinv, hcreated, hguard'⟩ := h.task ht'
      exact ⟨hinv, hcreated.trans (Nat.lt_succ_self _), hguard'⟩
  · rcases hother ht₁ with ⟨rfl, rfl⟩ | ⟨-, hold₁⟩
    · rcases hother ht₂ with ⟨rfl, rfl⟩ | ⟨-, hold₂⟩
      · rfl
      · exact absurd heq.symm (h.task hold₂).2.1.ne
    · rcases hother ht₂ with ⟨rfl, rfl⟩ | ⟨-, hold₂⟩
      · exact absurd heq (h.task hold₁).2.1.ne
      · exact h.distinct hold₁ hold₂ heq
  · refine (h.begun hA).imp_left ?_
    rintro ⟨slot', t', ht', hattempt⟩
    have hne : slot' ≠ slot := by
      rintro rfl
      rw [hfree] at ht'
      cases ht'
    exact ⟨slot', t', (Function.update_of_ne hne ..).trans ht', hattempt⟩

/-- Every action keeps the invariant. -/
theorem Inv.step (h : Inv s) {a : Action κ} (hs : s.step a = some s') : Inv s' := by
  cases a with
  | run slot a now =>
    simp only [State.step] at hs
    split at hs
    · next p t hp ht =>
      obtain ⟨o, ho, rfl⟩ := Option.map_eq_some_iff.mp hs
      exact h.advance ht ho now
    · cases hs
  | cancel slot =>
    simp only [State.step] at hs
    split_ifs at hs
    obtain rfl := Option.some.inj hs
    exact h.endTask slot (by simp)
  | startPostImportMaintenance version timeNs =>
    simp only [State.step] at hs
    split at hs
    · next p hp =>
      split_ifs at hs with hfull
      split at hs
      · obtain rfl := Option.some.inj hs
        exact h
      · next hfree =>
        obtain rfl := Option.some.inj hs
        refine (h.endTask .statsRefresh (by simp)).createTask ?_ _ fun v hwork => ?_
        · rw [endTask_task_of_ne (by simp)]
          exact hfree
        · rw [endTask_store]
          cases version with
          | none => cases hwork
          | some version =>
            obtain rfl := Work.pass.inj hwork
            exact hfull _ rfl
    · cases hs
  | startStatsRefresh version =>
    simp only [State.step] at hs
    split at hs
    · next p hp =>
      split_ifs at hs
      split at hs
      · next hfree =>
        obtain rfl := Option.some.inj hs
        exact h.createTask hfree _ fun v hwork => by cases hwork
      · obtain rfl := Option.some.inj hs
        exact h
    · cases hs
  | requestShutdown =>
    simp only [State.step] at hs
    split at hs
    · obtain rfl := Option.some.inj hs
      exact ⟨h.log, h.continued, h.created, h.task, h.distinct, h.checkpoint, h.late, h.begun⟩
    · cases hs
  | crash =>
    obtain rfl := Option.some.inj hs
    have hwhy : Cut.crashed ≠ .stopped := by simp
    have hends := (h.endTask .postImportMaintenance hwhy).endTask .statsRefresh hwhy
    exact ⟨hends.log, hends.continued, hends.created, hends.task, hends.distinct,
      hends.checkpoint, hends.late, hends.begun⟩
  | start statsVersion batchProcessor =>
    simp only [State.step] at hs
    split at hs
    · cases hs
    · obtain rfl := Option.some.inj hs
      exact ⟨h.log, h.continued, h.created, h.task, h.distinct, h.checkpoint, h.late, h.begun⟩
  | land i now =>
    simp only [State.step] at hs
    split at hs
    · next st hst =>
      obtain rfl := Option.some.inj hs
      have hcommit := h.commit (h.late st (List.mem_of_getElem? hst)) now
      exact ⟨hcommit.log, hcommit.continued, hcommit.created, hcommit.task, hcommit.distinct,
        hcommit.checkpoint, fun st' hst' => hcommit.late st' (List.mem_of_mem_eraseIdx hst'),
        hcommit.begun⟩
    · cases hs
  | persistSignals now version signals =>
    obtain rfl := Option.some.inj hs
    have hstore := signals_applyWrite s (some (.persistSignals now version signals))
    refine ⟨h.log, h.continued, h.created, fun ht => ?_, h.distinct, h.checkpoint, fun st hst =>
      (h.late st hst).mono hstore (List.Subset.refl _), h.begun⟩
    obtain ⟨hinv, hcreated, hguard⟩ := h.task ht
    exact ⟨hinv, hcreated, fun v hwork => (hguard v hwork).trans (hstore v)⟩
  | writeCatalog keys =>
    obtain rfl := Option.some.inj hs
    exact ⟨h.log, h.continued, h.created, h.task, h.distinct, h.checkpoint, h.late, h.begun⟩

theorem inv_init (h : (machine κ).init s) : Inv s := by
  obtain ⟨-, htask, hlate, hlog, hcheckpoint⟩ := h
  refine ⟨?_, ?_, ?_, fun ht => ?_, fun ht => ?_, fun sweep A => ?_, ?_, fun hA => ?_⟩
  · constructor <;> simp [hlog]
  · intro A step failure hmem
    simp [hlog] at hmem
  · simp [hlog]
  · simp [htask] at ht
  · simp [htask] at ht
  · have hfresh : readCheckpoint (s.checkpoints sweep) A.runKey = {} := by
      unfold readCheckpoint
      split
      · next c hc => exact if_neg (hcheckpoint sweep c hc A)
      · rfl
    rw [hfresh]
    exact checkpointOk_fresh
  · simp [hlate]
  · simp [hlog] at hA

/-- The invariant holds in every reachable state. -/
theorem inv_of_reachable (h : (machine κ).Reachable s) : Inv s :=
  Machine.ReachableIn.invariant h (fun _ => inv_init) fun _ _ _ _ hI hs => hI.step hs

/-- An action changes the dump records by the write it makes, and by nothing else. -/
theorem store_of_step {a : Action κ} (hs : s.step a = some s') :
    s'.store = s.applyWrite (s.writes a) := by
  cases a with
  | run slot a now =>
    simp only [State.step] at hs
    simp only [State.writes]
    split at hs
    · next p t hp ht =>
      obtain ⟨o, ho, rfl⟩ := Option.map_eq_some_iff.mp hs
      simp only [ho, Option.bind_some, State.advance]
      cases (if o.commits then t.inFlight else none) with
      | none => rfl
      | some st => rfl
    · cases hs
  | cancel slot =>
    simp only [State.step] at hs
    split_ifs at hs
    obtain rfl := Option.some.inj hs
    exact endTask_store slot .cancelled
  | startPostImportMaintenance version timeNs =>
    simp only [State.step] at hs
    split at hs
    · split_ifs at hs
      split at hs
      · obtain rfl := Option.some.inj hs
        rfl
      · obtain rfl := Option.some.inj hs
        exact endTask_store .statsRefresh .cancelled
    · cases hs
  | startStatsRefresh version =>
    simp only [State.step] at hs
    split at hs
    · split_ifs at hs
      split at hs
      · obtain rfl := Option.some.inj hs
        rfl
      · obtain rfl := Option.some.inj hs
        rfl
    · cases hs
  | requestShutdown =>
    simp only [State.step] at hs
    split at hs
    · obtain rfl := Option.some.inj hs
      rfl
    · cases hs
  | crash =>
    obtain rfl := Option.some.inj hs
    exact (endTask_store ..).trans (endTask_store ..)
  | start statsVersion batchProcessor =>
    simp only [State.step] at hs
    split at hs
    · cases hs
    · obtain rfl := Option.some.inj hs
      rfl
  | land i now =>
    simp only [State.step] at hs
    simp only [State.writes]
    split at hs
    · next st hst =>
      obtain rfl := Option.some.inj hs
      rw [hst]
      rfl
    · cases hs
  | persistSignals now version signals =>
    obtain rfl := Option.some.inj hs
    rfl
  | writeCatalog keys =>
    obtain rfl := Option.some.inj hs
    rfl

/-- A write to the dump records is that of a latch, or of a statement backed by the log. -/
theorem writes_cases (h : Inv s) {a : Action κ} {w : CompletionStore.Write}
    (hw : s.writes a = some w) :
    (∃ now version signals, w = .persistSignals now version signals) ∨
      ∃ (st : Statement κ) (now : ℕ), Justified s.store s.log st ∧ st.write now = some w := by
  cases a with
  | run slot a now =>
    simp only [State.writes] at hw
    split at hw
    · next p t hp ht =>
      obtain ⟨o, ho, hw⟩ := Option.bind_eq_some_iff.mp hw
      obtain ⟨st, hst, hw⟩ := Option.bind_eq_some_iff.mp hw
      split_ifs at hst
      obtain ⟨hinv, -, hguard⟩ := h.task ht
      exact Or.inr ⟨st, now, justified_inFlight hinv hguard hst, hw⟩
    · cases hw
  | land i now =>
    obtain ⟨st, hst, hw⟩ := Option.bind_eq_some_iff.mp hw
    exact Or.inr ⟨st, now, h.late st (List.mem_of_getElem? hst), hw⟩
  | persistSignals now version signals =>
    obtain rfl := Option.some.inj hw
    exact Or.inl ⟨now, version, signals, rfl⟩
  | _ => cases hw

/-- Both kinds of attempts sweep the Label and the Artist nodes. -/
theorem AttemptSucceeded.stats {log : List (Event κ)} {A : Attempt}
    (h : AttemptSucceeded log A) :
    RanToEnd log A.runKey .labelStats ∧ RanToEnd log A.runKey .artistStats := by
  have hpass (hwork : A.work.steps = passSteps) :
      RanToEnd log A.runKey .labelStats ∧ RanToEnd log A.runKey .artistStats := by
    have hlabel := h.steps .genreStyleLabelStats (hwork ▸ by decide)
    have hartist := h.steps .artistStats (hwork ▸ by decide)
    exact ⟨(hlabel.sweeps .labelStats (by decide)).2, (hartist.sweeps .artistStats (by decide)).2⟩
  cases hwork : A.work with
  | pass version => exact hpass (by rw [hwork]; rfl)
  | adhoc timeNs => exact hpass (by rw [hwork]; rfl)
  | refresh version =>
    have hsteps : A.work.steps = refreshSteps := by rw [hwork]; rfl
    have hlabel := h.steps .labelStats (hsteps ▸ by decide)
    have hartist := h.steps .artistStats (hsteps ▸ by decide)
    exact ⟨(hlabel.sweeps .labelStats (by decide)).2, (hartist.sweeps .artistStats (by decide)).2⟩

theorem runKey_pass {A : Attempt} {version : String} (h : A.work = .pass version) :
    A.runKey = maintenanceRunKey version A.statsVersion := by
  unfold Attempt.runKey
  rw [h]

theorem runKey_refresh {A : Attempt} {version : String} (h : A.work = .refresh version) :
    A.runKey = maintenanceRunKey version A.statsVersion := by
  unfold Attempt.runKey
  rw [h]

/-- A stamp of either kind is that of an attempt that succeeded. -/
theorem stamped_by {st : Statement κ} {now sv : ℕ} {version : String}
    {w : CompletionStore.Write} (hw : st.write now = some w) :
    (∀ now', w = .stampSuccess now' sv version →
      ∃ A, st = .stamp A ∧ A.work = .pass version ∧ A.statsVersion = sv) ∧
    (w = .stampStats sv version →
      ∃ A, st = .stamp A ∧ A.work = .refresh version ∧ A.statsVersion = sv) := by
  cases st with
  | writeCheckpoint sweep runKey c => cases hw
  | stamp A =>
    simp only [Statement.write] at hw
    split at hw
    · next v hwork =>
      obtain rfl := Option.some.inj hw
      refine ⟨fun now' heq => ?_, fun heq => by cases heq⟩
      cases heq
      exact ⟨A, rfl, hwork, rfl⟩
    · next v hwork =>
      obtain rfl := Option.some.inj hw
      refine ⟨fun now' heq => (by cases heq), fun heq => ?_⟩
      cases heq
      exact ⟨A, rfl, hwork, rfl⟩
    · cases hw
  | recordFailure version' error =>
    obtain rfl := Option.some.inj hw
    exact ⟨fun now' heq => (by cases heq), fun heq => by cases heq⟩

end Invariant

/-- **A stamp is written only over a finished pass.** In every run, with any failures,
cancellations, takeovers, crashes and restarts: a pass stamps `maintained_at` of a version only when
the stored signals of the version are of all types, the queues had drained in the same attempt, and
its five steps all succeeded, each sweep of them at a page without keys or over a checkpoint that
was done, and each having run to its end under the run key of the version and STATS_VERSION. A stamp
of either kind sets `stats_version` only when the Label and the Artist sweep ran to their ends under
that run key. The dump records change by these writes and nothing else. After a step that failed or
raised, the next step of the attempt is started, except that MaintenanceStopped ends the attempt of
a refresh. An attempt that is not cut short comes to the end of its steps, whatever they returned,
unless its queues did not drain: then it starts no step at all. -/
theorem stamps_over_finished_passes {s : State κ} (h : (machine κ).Reachable s) :
    (∀ a s' now sv version, (machine κ).step s a = some s' →
      s.writes a = some (.stampSuccess now sv version) →
      allDataTypes ⊆ s.store.loadExtractionSignals version ∧
      ∃ A, A.work = .pass version ∧ A.statsVersion = sv ∧ .drained A ∈ s.log ∧
        ∀ step ∈ passSteps, .stepEnded A step none ∈ s.log ∧ ∀ sweep ∈ step.sweeps,
          SweepSucceeded s.log A sweep ∧
            RanToEnd s.log (maintenanceRunKey version sv) sweep) ∧
    (∀ a s' sv version, (machine κ).step s a = some s' →
      ((∃ now, s.writes a = some (.stampSuccess now sv version)) ∨
        s.writes a = some (.stampStats sv version)) →
      RanToEnd s.log (maintenanceRunKey version sv) .labelStats ∧
        RanToEnd s.log (maintenanceRunKey version sv) .artistStats) ∧
    (∀ a s', (machine κ).step s a = some s' → s'.store = s.applyWrite (s.writes a)) ∧
    (∀ A sweep keys cursor, .page A sweep keys cursor [] ∈ s.log → ∀ k ∈ keys, ¬cursor < k) ∧
    (∀ A step failure, .stepEnded A step failure ∈ s.log → ∀ before next after,
      A.work.steps = before ++ step :: next :: after →
        .stepStarted A next ∈ s.log ∨ .cut A .stopped ∈ s.log) ∧
    (∀ A, .cut A .stopped ∈ s.log → A.work.isRefresh = true) ∧
    (∀ A, .begun A ∈ s.log →
      (∃ slot t, s.task slot = some t ∧ t.attempt = A) ∨
      .notDrained A ∈ s.log ∨
      (∀ step ∈ A.work.steps, ∃ failure, .stepEnded A step failure ∈ s.log) ∨
      ∃ why, .cut A why ∈ s.log) ∧
    (∀ A, .notDrained A ∈ s.log → ∀ step, .stepStarted A step ∉ s.log) ∧
    ∀ A step, .stepStarted A step ∈ s.log → A.work.isRefresh = false → .drained A ∈ s.log := by
  have hinv := inv_of_reachable h
  refine ⟨fun a s' now sv version _ hw => ?_, fun a s' sv version _ hw => ?_,
    fun a s' hs => store_of_step hs, fun A sweep keys cursor hmem => ?_, hinv.continued,
    fun A => hinv.log.stopped, fun A hA => ?_, fun A => hinv.log.notDrained,
    fun A step => hinv.log.started⟩
  · rcases writes_cases hinv hw with ⟨_, _, _, heq⟩ | ⟨st, now', hj, hst⟩
    · cases heq
    · obtain ⟨A, rfl, hwork, rfl⟩ := (stamped_by hst).1 now rfl
      obtain ⟨hsucceeded, hguard⟩ := hj
      refine ⟨hguard version hwork, A, hwork, rfl, hsucceeded.drained (by rw [hwork]; rfl),
        fun step hstep => ?_⟩
      have hkey := runKey_pass hwork
      have hstep' := hsucceeded.steps step (by rw [hwork]; exact hstep)
      exact ⟨hstep'.ended, fun sweep hsweep => hkey ▸ hstep'.sweeps sweep hsweep⟩
  · rcases hw with ⟨now, hw⟩ | hw
    · rcases writes_cases hinv hw with ⟨_, _, _, heq⟩ | ⟨st, now', hj, hst⟩
      · cases heq
      · obtain ⟨A, rfl, hwork, rfl⟩ := (stamped_by hst).1 now rfl
        exact runKey_pass hwork ▸ hj.1.stats
    · rcases writes_cases hinv hw with ⟨_, _, _, heq⟩ | ⟨st, now', hj, hst⟩
      · cases heq
      · obtain ⟨A, rfl, hwork, rfl⟩ := (stamped_by hst).2 rfl
        exact runKey_refresh hwork ▸ hj.1.stats
  · obtain ⟨size, hpage⟩ := hinv.log.page hmem
    exact hpage.exhausted rfl
  · refine (hinv.begun hA).imp_right fun hover => hover.imp_right fun h => h.imp_left ?_
    exact hinv.log.finished

section Runs

/-- A graph with one key in each sweep, and the node of one dump. -/
def dumpState (maintainedAt : Option ℕ) : State ℕ :=
  { store := [{ version := "20260701", signals := some dataTypes, maintainedAt }]
    checkpoints := fun _ => none
    keys := fun _ => {7} }

theorem dumpState_init (maintainedAt : Option ℕ) : (machine ℕ).init (dumpState maintainedAt) :=
  ⟨rfl, rfl, rfl, rfl, fun _ _ h => by cases h⟩

/-- One sweep of a pass over the one key. -/
def passSweep : List (Action ℕ) :=
  [.readReturns, .beforePageReturns, .pageReturns [7], .writeReturns, .beforePageReturns,
    .pageReturns [], .writeReturns].map fun a => .run .postImportMaintenance a 0

/-- A pass up to the stamp of its second attempt. In the first one the last sweep fails at a
checkpoint write, which commits later. The sweeps that were done are not made again. -/
def passToStamp : List (Action ℕ) :=
  let run (a : TaskAction ℕ) : Action ℕ := .run .postImportMaintenance a 0
  [.start 1 true, .startPostImportMaintenance (some "20260701") 0, run .enter,
    run (.flushAllReturns true), run (.cleanupReturns true), run (.cleanupReturns true)] ++
  (List.replicate 4 passSweep).flatten ++
  [run .readReturns, run .beforePageReturns, run (.pageReturns [7]), run .writeRaises,
    run .delayReturns, run .enter, run (.flushAllReturns true), run (.cleanupReturns true),
    run (.cleanupReturns true), run .readReturns, run .readReturns, run .readReturns,
    run .readReturns, .land 0 5, run .readReturns, run .beforePageReturns, run (.pageReturns []),
    run .writeReturns]

/-- The stamp of the second attempt of `passToStamp`. -/
theorem stamps_over_finished_passes_second_attempt :
    ∃ s s', (machine ℕ).Reachable s ∧
      (machine ℕ).step s (.run .postImportMaintenance .stampReturns 9) = some s' ∧
      s'.store.isExtractionMaintained "20260701" = true ∧
      ∃ A, A.work = .pass "20260701" ∧ .drained A ∈ s.log ∧
        RanToEnd s.log (maintenanceRunKey "20260701" 1) .personCreditCounts := by
  have hrun : ((machine ℕ).exec (fun _ _ => true) (dumpState none) passToStamp).isSome = true := by
    decide
  obtain ⟨s, hs⟩ := Option.isSome_iff_exists.mp hrun
  have hreach : (machine ℕ).Reachable s :=
    ⟨dumpState none, dumpState_init none, Machine.steps_of_exec (fun _ _ _ => trivial) hs⟩
  have hstamp : (((machine ℕ).exec (fun _ _ => true) (dumpState none) passToStamp).bind
      fun s => (s.step (.run .postImportMaintenance .stampReturns 9)).map
        fun s' => s'.store.isExtractionMaintained "20260701") = some true := by decide
  have hwrites : (((machine ℕ).exec (fun _ _ => true) (dumpState none) passToStamp).bind
      fun s => s.writes (.run .postImportMaintenance .stampReturns 9)) =
        some (.stampSuccess 9 1 "20260701") := rfl
  rw [hs, Option.bind_some] at hstamp hwrites
  obtain ⟨s', hstep, hmaintained⟩ := Option.map_eq_some_iff.mp hstamp
  obtain ⟨-, A, hwork, -, hdrained, hsteps⟩ :=
    (stamps_over_finished_passes hreach).1 (.run .postImportMaintenance .stampReturns 9) s' 9 1
      "20260701" hstep hwrites
  exact ⟨s, s', hreach, hstep, hmaintained, A, hwork, hdrained,
    ((hsteps .personCreditCounts (by decide)).2 .personCreditCounts (by decide)).2⟩

/-- A step that raises may prevent the later ones. MaintenanceStopped in the Label sweep of a
refresh, when a message of a new dump arrives, ends the attempt before its Artist sweep, without any
cancellation or crash. -/
theorem stopped_refresh_skips_artist_stats :
    ¬∀ s, (machine ℕ).Reachable s → ∀ A step failure, .stepEnded A step failure ∈ s.log →
      ∀ before next after, A.work.steps = before ++ step :: next :: after →
        .stepStarted A next ∈ s.log := by
  intro hall
  let A : Attempt := { task := 0, work := .refresh "20260701", statsVersion := 1, number := 1 }
  have hrun : ((machine ℕ).exec (fun _ _ => true) (dumpState (some 5))
      [.start 1 true, .startStatsRefresh "20260701", .run .statsRefresh .enter 0,
        .run .statsRefresh .readReturns 0, .run .statsRefresh .beforePageStops 0]).map (·.log) =
      some [.begun A, .stepStarted A .labelStats,
        .stepEnded A .labelStats (some "MaintenanceStopped"), .cut A .stopped] := by decide
  obtain ⟨s, hs, hlog⟩ := Option.map_eq_some_iff.mp hrun
  have hreach : (machine ℕ).Reachable s :=
    ⟨dumpState (some 5), dumpState_init _, Machine.steps_of_exec (fun _ _ _ => trivial) hs⟩
  have hended : .stepEnded A .labelStats (some "MaintenanceStopped") ∈ s.log := by simp [hlog]
  have hstarted := hall s hreach A .labelStats _ hended [] .artistStats [] rfl
  simp [hlog] at hstarted

end Runs

end Graphinator.Maintenance
