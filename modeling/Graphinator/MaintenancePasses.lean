import Graphinator.CompletionRuns
import Graphinator.MaintenancePaging

/-!
# Maintenance passes and stats refreshes

The tasks behind `start_post_import_maintenance` and `start_stats_refresh`, over the checkpoints
and the dump records that they share. A task makes up to three attempts. An attempt of a pass drains
the batch queues and runs five steps; one of a refresh runs two. A step is a cleanup, taken as one
call, or some checkpointed sweeps, taken await by await.

An action resumes one task with what its await gave. A statement in flight when its task stops
waiting for it, because the call raised, the task was cancelled or the process died, may still
commit at any later time, after a restart as well. The catalog writers show only in the keys that a
page statement finds. The log records what the tasks went through.

## Main definitions

* `SweepName`, `StepName`, `Work` : the sweeps, the steps and the two kinds of tasks.
* `Attempt`, `Task`, `Task.step` : the attempts of a task, await by await.
* `State`, `State.step`, `machine` : the tasks of one process after another.
* `State.writes` : what an action writes to the dump records.
-/

namespace Graphinator.Maintenance

/-! ### Steps -/

/-- The step names of the checkpoints. -/
inductive SweepName
  | genreStats | styleStats | labelStats | artistStats | personCreditCounts
deriving DecidableEq, Repr

/-- GENRE_STYLE_STATS_PAGE_SIZE. -/
def genreStyleStatsPageSize : ℕ := 10

/-- LABEL_STATS_PAGE_SIZE. -/
def labelStatsPageSize : ℕ := 100

/-- ARTIST_STATS_PAGE_SIZE. -/
def artistStatsPageSize : ℕ := 1000

/-- PERSON_CREDIT_COUNT_BATCH_SIZE. -/
def personCreditCountBatchSize : ℕ := 1000

/-- The `page_size` a sweep is called with. -/
def SweepName.pageSize : SweepName → ℕ
  | .genreStats | .styleStats => genreStyleStatsPageSize
  | .labelStats => labelStatsPageSize
  | .artistStats => artistStatsPageSize
  | .personCreditCounts => personCreditCountBatchSize

/-- The steps of a pass and of a refresh. -/
inductive StepName
  | stubCleanup | sentinelMasterCleanup | genreStyleLabelStats | labelStats | artistStats
  | personCreditCounts
deriving DecidableEq, Repr

/-- The name of a step in the logs and in `maintenance_error`. -/
def StepName.name : StepName → String
  | .stubCleanup => "stub_cleanup"
  | .sentinelMasterCleanup => "sentinel_master_cleanup"
  | .genreStyleLabelStats => "genre_style_label_stats"
  | .labelStats => "label_stats"
  | .artistStats => "artist_stats"
  | .personCreditCounts => "person_credit_counts"

/-- The checkpointed sweeps of a step. The two cleanups have none. -/
def StepName.sweeps : StepName → List SweepName
  | .stubCleanup | .sentinelMasterCleanup => []
  | .genreStyleLabelStats => [.genreStats, .styleStats, .labelStats]
  | .labelStats => [.labelStats]
  | .artistStats => [.artistStats]
  | .personCreditCounts => [.personCreditCounts]

/-- The `steps` of `_run_post_import_maintenance_attempts`. -/
def passSteps : List StepName :=
  [.stubCleanup, .sentinelMasterCleanup, .genreStyleLabelStats, .artistStats, .personCreditCounts]

/-- The steps of `run_stats_refresh`. -/
def refreshSteps : List StepName := [.labelStats, .artistStats]

/-- What a task runs: `run_post_import_maintenance` with a version or without one, at the time that
makes up its run key, or `run_stats_refresh`. -/
inductive Work
  | pass (version : String)
  | adhoc (timeNs : ℕ)
  | refresh (version : String)
deriving DecidableEq, Repr

def Work.steps : Work → List StepName
  | .pass _ | .adhoc _ => passSteps
  | .refresh _ => refreshSteps

def Work.version : Work → Option String
  | .pass version | .refresh version => some version
  | .adhoc _ => none

def Work.isRefresh : Work → Bool
  | .refresh _ => true
  | _ => false

/-- `maintenance_run_key`. -/
def maintenanceRunKey (version : String) (statsVersion : ℕ) : String :=
  version ++ "@stats-" ++ toString statsVersion

/-- One attempt: which task makes it, counted over all processes, what the task runs, the
STATS_VERSION of its code, and the number of the attempt. -/
structure Attempt where
  task : ℕ
  work : Work
  statsVersion : ℕ
  number : ℕ
deriving DecidableEq, Repr

/-- `_maintenance_run_key` during the attempt. -/
def Attempt.runKey (A : Attempt) : String :=
  match A.work with
  | .pass version | .refresh version => maintenanceRunKey version A.statsVersion
  | .adhoc timeNs => "adhoc-" ++ toString timeNs

/-- POST_IMPORT_MAINTENANCE_MAX_ATTEMPTS. -/
def postImportMaintenanceMaxAttempts : ℕ := 3

/-! ### Tasks -/

/-- Why an attempt was cut short. -/
inductive Cut
  /-- `before_page` raised MaintenanceStopped. -/
  | stopped
  | cancelled
  | crashed
deriving DecidableEq, Repr

section Tasks

variable (κ : Type) [LinearOrder κ] [OrderBot κ]

/-- Where a task is suspended. -/
inductive TaskPc
  /-- At the top of its loop. -/
  | entering
  /-- In `flush_all`. -/
  | draining
  /-- In a step without sweeps. -/
  | cleaning (step : StepName) (rest : List StepName)
  /-- In a sweep of a step. The sweeps before it all succeeded if `ok`. -/
  | sweeping (step : StepName) (rest : List StepName) (ok : Bool) (sweep : SweepName)
      (later : List SweepName) (pc : SweepPc κ)
  /-- In `_stamp_maintenance_success` or `_stamp_stats_version`. -/
  | stamping
  /-- In `_record_maintenance_failure`. -/
  | recording
  /-- In the pause before the next attempt. -/
  | delaying

/-- A task that is not done, with the locals of its loop. -/
structure Task where
  attempt : Attempt
  failedSteps : List String := []
  failure : String := "post-import maintenance failed"
  pc : TaskPc κ := .entering

/-- What the log records. -/
inductive Event
  /-- The loop began the attempt. -/
  | begun (A : Attempt)
  /-- `flush_all` returned True, or there is no batch processor. -/
  | drained (A : Attempt)
  | notDrained (A : Attempt)
  | stepStarted (A : Attempt) (step : StepName)
  /-- The step came to its end, with the failure it was given if it did not succeed. -/
  | stepEnded (A : Attempt) (step : StepName) (failure : Option String)
  /-- A page statement found `page` after its cursor, among the keys there were. -/
  | page (A : Attempt) (sweep : SweepName) (keys : Finset κ) (cursor : κ) (page : List κ)
  /-- A sweep found its checkpoint done under the run key of the attempt. -/
  | alreadyDone (A : Attempt) (sweep : SweepName)
  /-- The attempt came to the end of its steps. -/
  | finished (A : Attempt)
  | cut (A : Attempt) (why : Cut)
deriving DecidableEq

/-- A statement whose commit matters to other tasks. -/
inductive Statement
  | writeCheckpoint (sweep : SweepName) (runKey : String) (checkpoint : Checkpoint κ)
  /-- The stamp at the end of the attempt. -/
  | stamp (A : Attempt)
  | recordFailure (version error : String)

/-- The process that runs. -/
structure Process where
  /-- STATS_VERSION of its code. -/
  statsVersion : ℕ
  /-- There is a batch processor. -/
  batchProcessor : Bool
  shutdownRequested : Bool := false

/-- `post_import_maintenance_task` and `stats_refresh_task`. -/
inductive Slot
  | postImportMaintenance | statsRefresh
deriving DecidableEq, Repr

/-- The graph as far as maintenance shares it, the tasks of the process that runs, and the past:
the tasks created and the log. -/
structure State where
  store : CompletionStore
  checkpoints : SweepName → Option (MaintenanceCheckpoint κ)
  /-- The keys of each sweep that are in the graph. -/
  keys : SweepName → Finset κ
  /-- Statements that nobody waits for and that have not committed. -/
  late : List (Statement κ) := []
  process : Option Process := none
  /-- The task of each slot while it is not done. -/
  task : Slot → Option (Task κ) := fun _ => none
  created : ℕ := 0
  log : List (Event κ) := []

/-- What an await of a task gives. -/
inductive TaskAction
  /-- The loop goes on to its next attempt. -/
  | enter
  | flushAllReturns (drained : Bool)
  | flushAllRaises (error : String)
  /-- A step without sweeps returns. -/
  | cleanupReturns (ok : Bool)
  | cleanupRaises (error : String)
  | readReturns
  | readRaises
  | beforePageReturns
  /-- `_latest_extraction_version` raises in `before_page`. -/
  | beforePageRaises
  /-- `before_page` raises MaintenanceStopped. -/
  | beforePageStops
  | pageReturns (page : List κ)
  | pageRaises (retryable : Bool)
  | sleepReturns
  | writeReturns
  | writeRaises
  | stampReturns
  | stampRaises (error : String)
  | recordReturns
  | recordRaises
  | delayReturns

/-- What an action of a task comes to. -/
structure Outcome where
  /-- The task, unless it is done. -/
  task : Option (Task κ)
  events : List (Event κ) := []
  /-- The statement in flight committed. -/
  commits : Bool := false
  /-- Nobody waits any more for the statement in flight. -/
  abandons : Bool := false

end Tasks

variable {κ : Type} [LinearOrder κ] [OrderBot κ]

def Event.attempt : Event κ → Attempt
  | .begun A | .drained A | .notDrained A | .stepStarted A _ | .stepEnded A _ _ | .page A _ _ _ _
  | .alreadyDone A _ | .finished A | .cut A _ => A

namespace Task

variable (t : Task κ)

/-- The attempt did not succeed: a pause and another one follow, unless it was the last. -/
def retry (failure : String) : Option (Task κ) :=
  if t.attempt.number < postImportMaintenanceMaxAttempts then
    some { t with failure, pc := .delaying }
  else match t.attempt.work with
    | .pass _ => some { t with failure, pc := .recording }
    | .adhoc _ | .refresh _ => none

/-- `failure` of an attempt with failed steps. -/
def stepsFailure : String :=
  "maintenance step(s) did not complete: " ++ ", ".intercalate t.failedSteps ++
    " (see service logs)"

/-- What follows the steps of an attempt. Without a version there is nothing to stamp. -/
def afterSteps : Option (Task κ) :=
  if t.failedSteps = [] then
    match t.attempt.work with
    | .adhoc _ => none
    | .pass _ | .refresh _ => some { t with pc := .stamping }
  else match t.attempt.work with
    | .pass _ | .adhoc _ => t.retry t.stepsFailure
    | .refresh _ => t.retry t.failure

/-- Start the next of the steps that are left. -/
def nextStep : List StepName → Option (Task κ) × List (Event κ)
  | [] => (t.afterSteps, [.finished t.attempt])
  | step :: rest =>
    (some { t with pc := match step.sweeps with
      | [] => .cleaning step rest
      | sweep :: later => .sweeping step rest true sweep later (.reading sweep.pageSize) },
     [.stepStarted t.attempt step])

/-- `_run_maintenance_step` returns `failure`, and the loop over the steps goes on. -/
def stepEnds (step : StepName) (rest : List StepName) (failure : Option String) :
    Option (Task κ) × List (Event κ) :=
  let next := nextStep { t with failedSteps := t.failedSteps ++ failure.toList } rest
  (next.1, .stepEnded t.attempt step failure :: next.2)

/-- A sweep of a step ended, and the next one follows whether it succeeded or not. -/
def sweepEnds (step : StepName) (rest : List StepName) (ok : Bool) :
    List SweepName → Option (Task κ) × List (Event κ)
  | [] => t.stepEnds step rest (if ok then none else some step.name)
  | sweep :: later =>
    (some { t with pc := .sweeping step rest ok sweep later (.reading sweep.pageSize) }, [])

/-- The statement that the task waits for. -/
def inFlight : Option (Statement κ) :=
  match t.pc with
  | .sweeping _ _ _ sweep _ (.writing l done) =>
    some (.writeCheckpoint sweep t.attempt.runKey { cursor := l.cursor, size := some l.size, done })
  | .stamping => some (.stamp t.attempt)
  | .recording => match t.attempt.work with
    | .pass version | .refresh version => some (.recordFailure version t.failure)
    | .adhoc _ => none
  | _ => none

/-- The task goes on at `pc`, and nothing else happens. -/
def goto (pc : TaskPc κ) : Outcome κ := { task := some { t with pc } }

/-- `_run_maintenance_step` or the loop around it takes the task on. -/
def goOn (before : List (Event κ)) (next : Option (Task κ) × List (Event κ)) : Outcome κ :=
  { task := next.1, events := before ++ next.2 }

end Task

/-- `run_checkpointed_step` inside a sweep of a step of the task. -/
def Task.sweepStep (s : State κ) (t : Task κ) (step : StepName) (rest : List StepName) (ok : Bool)
    (sweep : SweepName) (later : List SweepName) (pc : SweepPc κ) :
    TaskAction κ → Option (Outcome κ)
  | .readReturns => match pc with
    | .reading pageSize =>
      let checkpoint := readCheckpoint (s.checkpoints sweep) t.attempt.runKey
      some <| if checkpoint.done then
        goOn [.alreadyDone t.attempt sweep] (t.sweepEnds step rest ok later)
      else t.goto (.sweeping step rest ok sweep later (.before (.start 1 pageSize checkpoint)))
    | _ => none
  | .readRaises => match pc with
    | .reading _ => some (goOn [] (t.sweepEnds step rest false later))
    | _ => none
  | .beforePageReturns => match pc with
    | .before l => some (t.goto (.sweeping step rest ok sweep later (.paging l)))
    | _ => none
  -- Only a refresh sets `_maintenance_before_page`.
  | .beforePageRaises => match pc, t.attempt.work with
    | .before _, .refresh _ => some (goOn [] (t.sweepEnds step rest false later))
    | _, _ => none
  | .beforePageStops => match pc, t.attempt.work with
    | .before _, .refresh _ =>
      some { task := none
             events := [.stepEnded t.attempt step (some "MaintenanceStopped"),
               .cut t.attempt .stopped] }
    | _, _ => none
  | .pageReturns page => match pc with
    | .paging l =>
      if IsPage (s.keys sweep) l.cursor l.size page then
        let pc := Sweep.afterPage (some t.attempt.runKey) l page
        some { task := some { t with pc := .sweeping step rest ok sweep later pc }
               events := [.page t.attempt sweep (s.keys sweep) l.cursor page] }
      else none
    | _ => none
  | .pageRaises retryable => match pc with
    | .paging l => match Sweep.afterError 1 retryable l with
      | .idle => some (goOn [] (t.sweepEnds step rest false later))
      | pc => some (t.goto (.sweeping step rest ok sweep later pc))
    | _ => none
  | .sleepReturns => match pc with
    | .sleeping l => some (t.goto (.sweeping step rest ok sweep later (.before l)))
    | _ => none
  | .writeReturns => match pc with
    | .writing l done =>
      let next := if done then goOn [] (t.sweepEnds step rest ok later)
        else t.goto (.sweeping step rest ok sweep later (.before l))
      some { next with commits := true }
    | _ => none
  | .writeRaises => match pc with
    | .writing _ _ => some { goOn [] (t.sweepEnds step rest false later) with abandons := true }
    | _ => none
  | _ => none

/-- One step of `_run_post_import_maintenance_attempts` or of `run_stats_refresh`. -/
def Task.step (s : State κ) (p : Process) (t : Task κ) (a : TaskAction κ) : Option (Outcome κ) :=
  match t.pc, a with
  | .entering, .enter =>
    let begun : Event κ := .begun t.attempt
    if t.attempt.work.isRefresh then
      some (goOn [begun] (t.nextStep t.attempt.work.steps))
    else if p.shutdownRequested then
      some { task := none }
    else if p.batchProcessor then
      some { task := some { t with pc := .draining }, events := [begun] }
    else
      some (goOn [begun, .drained t.attempt] (t.nextStep t.attempt.work.steps))
  | .draining, .flushAllReturns drained =>
    some <| if drained then goOn [.drained t.attempt] (t.nextStep t.attempt.work.steps)
    else
      { task := Task.afterSteps { t with failedSteps := ["batch_queue_drain"] }
        events := [.notDrained t.attempt] }
  | .draining, .flushAllRaises error =>
    some { task := t.retry error, events := [.notDrained t.attempt] }
  | .cleaning step rest, .cleanupReturns ok =>
    some (goOn [] (t.stepEnds step rest (if ok then none else some step.name)))
  | .cleaning step rest, .cleanupRaises error =>
    some (goOn [] (t.stepEnds step rest (some (step.name ++ ": " ++ error))))
  | .sweeping step rest ok sweep later pc, a => t.sweepStep s step rest ok sweep later pc a
  -- A stamp that finds no node of its version raises.
  | .stamping, .stampReturns =>
    if s.store.any fun m => t.attempt.work.version = some m.version then
      some { task := none, commits := true }
    else none
  | .stamping, .stampRaises error =>
    some { task := match t.attempt.work with
             | .pass _ | .adhoc _ => t.retry error
             | .refresh _ => none
           abandons := true }
  | .recording, .recordReturns => some { task := none, commits := true }
  | .recording, .recordRaises => some { task := none, abandons := true }
  | .delaying, .delayReturns =>
    some { task := some { t with
             attempt := { t.attempt with number := t.attempt.number + 1 }
             failedSteps := []
             pc := .entering } }
  | _, _ => none

/-! ### The machine -/

/-- What a statement writes to the dump records when it commits at `now`. -/
def Statement.write (now : ℕ) : Statement κ → Option CompletionStore.Write
  | .writeCheckpoint .. => none
  | .stamp A => match A.work with
    | .pass version => some (.stampSuccess now A.statsVersion version)
    | .refresh version => some (.stampStats A.statsVersion version)
    | .adhoc _ => none
  | .recordFailure version error => some (.recordFailure now version error)

/-- What a statement makes of the checkpoints. -/
def Statement.checkpoints (checkpoints : SweepName → Option (MaintenanceCheckpoint κ)) :
    Statement κ → SweepName → Option (MaintenanceCheckpoint κ)
  | .writeCheckpoint sweep runKey c =>
    Function.update checkpoints sweep (Graphinator.writeCheckpoint runKey c)
  | .stamp _ | .recordFailure .. => checkpoints

/-- A step of the machine. `now` is the time of the commit it makes, if any. -/
inductive Action (κ : Type)
  /-- The task of the slot resumes. -/
  | run (slot : Slot) (a : TaskAction κ) (now : ℕ)
  /-- The task of the slot is cancelled, as at a shutdown. -/
  | cancel (slot : Slot)
  /-- `start_post_import_maintenance`; `timeNs` makes up the run key without a version. -/
  | startPostImportMaintenance (version : Option String) (timeNs : ℕ)
  | startStatsRefresh (version : String)
  | requestShutdown
  | crash
  /-- A process of some release of the code starts. -/
  | start (statsVersion : ℕ) (batchProcessor : Bool)
  /-- A statement that nobody waits for commits. -/
  | land (i now : ℕ)
  /-- `_persist_extraction_signals` commits. -/
  | persistSignals (now : ℕ) (version : String) (signals : Finset DataType)
  /-- The catalog writers change the keys there are. -/
  | writeCatalog (keys : SweepName → Finset κ)

namespace State

variable (s : State κ)

/-- A write to the dump records. One that raises changes nothing. -/
def applyWrite (w : Option CompletionStore.Write) : CompletionStore :=
  match w with
  | some w => (s.store.apply w).getD s.store
  | none => s.store

/-- The statement commits. -/
def commit (now : ℕ) : Option (Statement κ) → State κ
  | some statement =>
    { s with
      store := s.applyWrite (statement.write now)
      checkpoints := statement.checkpoints s.checkpoints }
  | none => s

/-- The task of the slot ends at the await it is suspended in. -/
def endTask (slot : Slot) (why : Cut) : State κ :=
  match s.task slot with
  | some t =>
    { s with
      task := Function.update s.task slot none
      late := s.late ++ t.inFlight.toList
      log := s.log ++ [.cut t.attempt why] }
  | none => s

/-- `asyncio.create_task` for the slot. -/
def createTask (slot : Slot) (work : Work) (statsVersion : ℕ) : State κ :=
  { s with
    task := Function.update s.task slot
      (some { attempt := { task := s.created, work, statsVersion, number := 1 } })
    created := s.created + 1 }

/-- The task of the slot went through an action. -/
def advance (slot : Slot) (t : Task κ) (o : Outcome κ) (now : ℕ) : State κ :=
  let s := s.commit now (if o.commits then t.inFlight else none)
  { s with
    task := Function.update s.task slot o.task
    late := s.late ++ (if o.abandons then t.inFlight else none).toList
    log := s.log ++ o.events }

/-- One step. A pass is started only over a full latch: its handlers hold the signals of all types
(`Latch.latch_safe`), and `resume_pending_maintenance` has read them. A refresh is started only over
a stamped one. What else they read may have changed since. -/
def step : Action κ → Option (State κ)
  | .run slot a now => match s.process, s.task slot with
    | some p, some t => (t.step s p a).map fun o => s.advance slot t o now
    | _, _ => none
  | .cancel slot => if s.process.isSome then some (s.endTask slot .cancelled) else none
  | .startPostImportMaintenance version timeNs => match s.process with
    | some p =>
      if ∀ v ∈ version, allDataTypes ⊆ s.store.loadExtractionSignals v then
        match s.task .postImportMaintenance with
        | some _ => some s
        | none =>
          let work := match version with
            | some v => .pass v
            | none => .adhoc timeNs
          some ((s.endTask .statsRefresh .cancelled).createTask .postImportMaintenance work
            p.statsVersion)
      else none
    | none => none
  | .startStatsRefresh version => match s.process with
    | some p =>
      if allDataTypes ⊆ s.store.loadExtractionSignals version ∧
          s.store.isExtractionMaintained version then
        match s.task .postImportMaintenance, s.task .statsRefresh with
        | none, none => some (s.createTask .statsRefresh (.refresh version) p.statsVersion)
        | _, _ => some s
      else none
    | none => none
  | .requestShutdown => match s.process with
    | some p => some { s with process := some { p with shutdownRequested := true } }
    | none => none
  | .crash =>
    some { (s.endTask .postImportMaintenance .crashed).endTask .statsRefresh .crashed with
      process := none }
  | .start statsVersion batchProcessor => match s.process with
    | some _ => none
    | none => some { s with process := some { statsVersion, batchProcessor } }
  | .land i now => match s.late[i]? with
    | some statement => some { s.commit now (some statement) with late := s.late.eraseIdx i }
    | none => none
  | .persistSignals now version signals =>
    some { s with store := s.applyWrite (some (.persistSignals now version signals)) }
  | .writeCatalog keys => some { s with keys }

/-- What an action writes to the dump records. -/
def writes : Action κ → Option CompletionStore.Write
  | .run slot a now => match s.process, s.task slot with
    | some p, some t => (t.step s p a).bind fun o =>
      (if o.commits then t.inFlight else none).bind (·.write now)
    | _, _ => none
  | .land i now => s.late[i]?.bind (·.write now)
  | .persistSignals now version signals => some (.persistSignals now version signals)
  | _ => none

end State

/-- The tasks of all processes, over any dump records and any graph. No checkpoint bears the run key
of an attempt yet. -/
def machine (κ : Type) [LinearOrder κ] [OrderBot κ] : Machine (State κ) (Action κ) where
  init s := s.process = none ∧ s.task = (fun _ => none) ∧ s.late = [] ∧ s.log = [] ∧
    ∀ sweep c, s.checkpoints sweep = some c → ∀ A : Attempt, c.runKey ≠ some A.runKey
  step := State.step

end Graphinator.Maintenance
