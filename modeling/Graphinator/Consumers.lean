import Graphinator.Completion
import Graphinator.Lib.Machine
import Mathlib.Data.Finset.Card
import Mathlib.Data.Finset.Prod

/-!
# The lifecycle of the consumers

The subscriptions of the four queues and the coroutines that create and remove them: the
registration at start, the grace timers that cancel a consumer and close the transport after the
last one, the handlers that arm and cancel those timers, and the periodic checker with its two
recoveries. A step runs one coroutine from one await to the next, and the environment decides
which one resumes and how its broker call ended.

A transport is one connection with its channel. The broker's side is part of the state: which
subscriptions it holds, and which transports a close was confirmed for. A request may take effect
at the broker and still fail for its caller. Deliveries that the broker sent before it confirmed a
cancel are handled before the caller resumes, so a confirmed cancel is one step and a handler
starts only for a subscribed type.

## Main definitions

* `Consumers.State`, `Consumers.Action`, `Consumers.machine`.
* `Consumers.TimerPc`, `Consumers.CheckerPc` : where a timer and the checker are suspended.
* `Consumers.Quiescent` : no coroutine is inside a broker call.
-/

namespace Graphinator.Consumers

/-- A connection to the broker together with its channel, numbered as they are opened. -/
abbrev Transport := ℕ

/-- Where `close_rabbitmq_connection` is suspended, over the handle it is closing. -/
inductive ClosePc
  | channel (handle : Transport)
  | connection (handle : Transport)
deriving DecidableEq, Repr

def ClosePc.handle : ClosePc → Transport
  | .channel handle | .connection handle => handle

/-- Where `cancel_after_delay` is suspended. `queue` is the transport of the queue handle that
`schedule_consumer_cancellation` was given. -/
inductive TimerPc
  | sleeping (queue : Transport)
  /-- In `queue.cancel`. -/
  | cancelling (queue : Transport)
  | closing (pc : ClosePc)
deriving DecidableEq, Repr

/-- A `queue.consume` in flight; `subscribed` once the broker has registered it. -/
structure Consume where
  queue : Transport
  dataType : DataType
  subscribed : Bool := false
deriving DecidableEq, Repr

/-- Where the service task is suspended: `main` up to the start of the checker, then
`periodic_queue_checker`. -/
inductive CheckerPc
  /-- The registration in `main`. -/
  | booting (consume : Consume) (rest : List DataType)
  /-- In the sleep between two ticks. -/
  | sleeping
  /-- `_recover_consumers`: closing the old transport. -/
  | closingOld (pc : ClosePc)
  | connecting
  /-- Reading the depth of every queue over the temporary transport. -/
  | probing (temp : Transport)
  /-- Closing the temporary transport, because no queue holds a message. -/
  | closingTemp (temp : Transport)
  | settingQos (temp : Transport) (pending : Finset DataType)
  /-- Declaring the queue of the first of `rest`. -/
  | declaring (temp : Transport) (pending : Finset DataType) (rest : List DataType)
  | registering (temp : Transport) (pending : Finset DataType) (consume : Consume)
      (rest : List DataType)
  /-- The `except` path: closing what the failed recovery opened. -/
  | closingFailed (pc : ClosePc)
  /-- `recover_parked_markers`: in `queue_depth` of a type. -/
  | readingDepth (t : DataType) (rest : List DataType)
  | resubscribing (consume : Consume) (rest : List DataType)
deriving DecidableEq

namespace CheckerPc

/-- The consume in flight. -/
def consume : CheckerPc → Option Consume
  | .booting c _ | .registering _ _ c _ | .resubscribing c _ => some c
  | _ => none

/-- The broker registers the consume in flight. -/
def subscribe : CheckerPc → CheckerPc
  | .booting c rest => .booting { c with subscribed := true } rest
  | .registering temp pending c rest => .registering temp pending { c with subscribed := true } rest
  | .resubscribing c rest => .resubscribing { c with subscribed := true } rest
  | pc => pc

/-- The temporary transport of a recovery. -/
def temp : CheckerPc → Option Transport
  | .probing τ | .closingTemp τ | .settingQos τ _ | .declaring τ _ _ | .registering τ _ _ _ => some τ
  | _ => none

def closing : CheckerPc → Option ClosePc
  | .closingOld pc | .closingFailed pc => some pc
  | _ => none

/-- A recovery that has given up the old transport and not yet taken the new one. -/
def Between : CheckerPc → Prop
  | .connecting | .probing _ | .closingTemp _ => True
  | _ => False

/-- Registering at start, or recovering. -/
def Busy : CheckerPc → Prop
  | .sleeping | .readingDepth _ _ | .resubscribing _ _ => False
  | _ => True

instance : (pc : CheckerPc) → Decidable pc.Busy
  | .sleeping | .readingDepth _ _ | .resubscribing _ _ => isFalse id
  | .booting .. | .closingOld _ | .connecting | .probing _ | .closingTemp _ | .settingQos ..
  | .declaring .. | .registering .. | .closingFailed _ => isTrue trivial

end CheckerPc

/-- The module variables, the suspended coroutines, and the broker. -/
structure State where
  /-- `CONSUMER_CANCEL_DELAY > 0`. -/
  cancelsConsumers : Bool
  /-- The keys of `consumer_tags`; the tag of a type is always the same string. -/
  consumerTags : Finset DataType
  consumerCancelTasks : DataType → Option TimerPc
  completedFiles : Finset DataType
  extractionSignalled : Finset DataType
  activeConnection : Option Transport
  activeChannel : Option Transport
  consumerRecoveryRequested : Bool
  messageCounts : DataType → ℕ
  /-- The keys of `queues`, with the transport of each handle. -/
  queues : DataType → Option Transport
  /-- `record_consumer_started` minus `record_consumer_stopped`. -/
  activeConsumers : ℤ
  checker : CheckerPc
  /-- Timers that were cancelled inside `queue.cancel` and have not resumed. -/
  interruptedCancels : ℕ
  /-- Handlers between their start and their end. -/
  records : DataType → ℕ
  fileCompletes : DataType → ℕ
  extractionCompletes : DataType → ℕ
  /-- What the broker holds. -/
  subscriptions : Finset (Transport × DataType)
  /-- The transports whose channel or connection is confirmed closed. -/
  closed : Finset Transport
  /-- The transport opened last. -/
  transport : Transport

namespace State

variable (s : State)

/-- Cancel the timer of a type, if it has one, and forget it. One that sleeps or closes the
transport just ends; one inside `queue.cancel` still has to resume. -/
def cancelTask (t : DataType) : State :=
  { s with
    consumerCancelTasks := Function.update s.consumerCancelTasks t none
    interruptedCancels := s.interruptedCancels +
      match s.consumerCancelTasks t with
      | some (.cancelling _) => 1
      | _ => 0 }

def setTask (t : DataType) (task : Option TimerPc) : State :=
  { s with consumerCancelTasks := Function.update s.consumerCancelTasks t task }

/-- A completion marker lands: mark the file complete, and arm its timer where the type has a
queue. -/
def complete (t : DataType) : State :=
  let s' := { s with completedFiles := insert t s.completedFiles }
  match s'.queues t with
  | some queue =>
    if s'.cancelsConsumers then (s'.cancelTask t).setTask t (some (.sleeping queue)) else s'
  | none => s'

/-- The broker has confirmed the cancel of `t`: `_cancel_consumer` drops its tag, if it is still
there. -/
def cancelled (queue : Transport) (t : DataType) : State :=
  { s with
    subscriptions := s.subscriptions.erase (queue, t)
    consumerTags := s.consumerTags.erase t
    activeConsumers := if t ∈ s.consumerTags then s.activeConsumers - 1 else s.activeConsumers }

/-- `close_rabbitmq_connection` up to its first await, or `none` where there is nothing to
close. -/
def closeStart : Option ClosePc :=
  match s.activeChannel with
  | some handle => some (.channel handle)
  | none => s.activeConnection.map .connection

/-- Its end after the last await. -/
def closeFinish : State :=
  if s.activeChannel.isSome then { s with consumerRecoveryRequested := true }
  else { s with activeConsumers := s.activeConsumers - s.consumerTags.card, consumerTags := ∅ }

/-- Its way on from the channel to the connection. -/
def closeConnection : State × Option ClosePc :=
  match s.activeConnection with
  | some handle => (s, some (.connection handle))
  | none => (s.closeFinish, none)

/-- The types of `types_awaiting_marker`. -/
def typesAwaitingMarker : List DataType :=
  dataTypes.filter fun t =>
    t ∈ s.completedFiles ∧ t ∉ s.consumerTags ∧ t ∉ s.extractionSignalled

/-- `check_consumers_unexpectedly_dead`. -/
def UnexpectedlyDead : Prop :=
  s.consumerTags = ∅ ∧ s.completedFiles ≠ Finset.univ ∧ ∃ t, 0 < s.messageCounts t

instance : Decidable s.UnexpectedlyDead := inferInstanceAs (Decidable (_ ∧ _ ∧ _))

end State

/-- How a close call ends. -/
inductive CloseOutcome
  | ok | error | timeout
deriving DecidableEq, Repr

/-- `close_rabbitmq_connection` from one await to the next. -/
def closeStep (s : State) (pc : ClosePc) (outcome : CloseOutcome) : State × Option ClosePc :=
  match pc, outcome with
  | .channel handle, .ok =>
    State.closeConnection { s with activeChannel := none, closed := insert handle s.closed }
  | .channel _, .error => s.closeConnection
  | .connection handle, .ok =>
    (State.closeFinish { s with
      activeConnection := none, activeChannel := none, closed := insert handle s.closed }, none)
  | .channel _, .timeout | .connection _, .error | .connection _, .timeout =>
    ({ s with consumerRecoveryRequested := true }, none)

namespace State

variable (s : State)

def setChecker (pc : CheckerPc) : State := { s with checker := pc }

/-- `_recover_consumers` once the old transport is closed, or has failed to close. -/
def recoverReconnect : State :=
  if s.activeConnection.isSome ∨ s.activeChannel.isSome then s.setChecker .sleeping
  else
    { dataTypes.foldl cancelTask s with consumerRecoveryRequested := false, checker := .connecting }

/-- `_recover_consumers` up to its first await. -/
def recoverConsumers : State :=
  match s.closeStart with
  | some pc => s.setChecker (.closingOld pc)
  | none => s.recoverReconnect

/-- Its `except` path. -/
def recoverFails (temp : Transport) : State :=
  { s with
    consumerRecoveryRequested := true
    activeConnection := some temp
    activeChannel := some temp
    queues := fun _ => none
    checker := .closingFailed (.channel temp) }

/-- The registration loop of a recovery, up to the next type that has no consumer. -/
def registerNext (temp : Transport) (pending : Finset DataType) : List DataType → State
  | [] => s.setChecker .sleeping
  | t :: rest =>
    match s.queues t with
    | some queue =>
      if t ∈ s.consumerTags then registerNext temp pending rest
      else s.setChecker (.registering temp pending { queue, dataType := t } rest)
    | none => registerNext temp pending rest

/-- The loop of `recover_parked_markers`. -/
def resubscribeNext : List DataType → State
  | [] => s.setChecker .sleeping
  | t :: rest => s.setChecker (.readingDepth t rest)

/-- A consume returned: the type has its tag. -/
def started (t : DataType) : State :=
  { s with consumerTags := insert t s.consumerTags, activeConsumers := s.activeConsumers + 1 }

/-- A consume of a recovery returned: a type with a backlog is not complete. -/
def registered (t : DataType) (pending : Finset DataType) : State :=
  let s' := s.started t
  { s' with
    completedFiles := if t ∈ pending then s'.completedFiles.erase t else s'.completedFiles }

end State

/-- The route a tick of `periodic_queue_checker` takes. -/
inductive Route
  /-- `consumer_recovery_requested` is set. -/
  | requested
  /-- `recover_parked_markers`. -/
  | parked
  /-- The stuck check. -/
  | stuck
  /-- The idle check at `QUEUE_CHECK_INTERVAL`. -/
  | idle
deriving DecidableEq, Repr

/-- How `queue.cancel` ends. -/
inductive CancelOutcome
  | ok
  /-- An error or a timeout, whether or not the broker removed the consumer. -/
  | fails (removed : Bool)
deriving DecidableEq, Repr

/-- A step of one coroutine, with what the environment answers it. -/
inductive Action
  /-- The handler of a record starts and runs past `check_file_completion`. -/
  | recordStarts (t : DataType)
  /-- It ends; `counted` when it was written, or accepted by the batch processor. -/
  | recordEnds (t : DataType) (counted : Bool)
  | fileCompleteStarts (t : DataType)
  /-- The drain of a `file_complete` ends, `landed` when it drained. -/
  | fileCompleteEnds (t : DataType) (landed : Bool)
  | extractionCompleteStarts (t : DataType)
  /-- The drain and the latch write of an `extraction_complete` end. -/
  | extractionCompleteEnds (t : DataType) (landed : Bool)
  /-- The delay of a timer is over. -/
  | timerFires (t : DataType)
  | cancelReturns (t : DataType) (outcome : CancelOutcome)
  | timerCloseReturns (t : DataType) (outcome : CloseOutcome)
  /-- A timer that was cancelled inside `queue.cancel` resumes. -/
  | interruptedResumes
  /-- The broker registers the consume in flight. -/
  | brokerSubscribes
  | consumeReturns (ok : Bool)
  | tick (route : Route)
  /-- A close call of a recovery returns. -/
  | closeReturns (outcome : CloseOutcome)
  | connectReturns (ok : Bool)
  /-- The passive declares return the types with messages, or one of them raises. -/
  | probeReturns (pending : Option (Finset DataType))
  | tempCloses (ok : Bool)
  | qosReturns (ok : Bool)
  | declareReturns (ok : Bool)
  /-- `queue_depth` returns a positive depth, or not. -/
  | depthReturns (positive : Bool)
deriving DecidableEq

/-- The broker delivers messages of `t` to this process. -/
def Subscribed (s : State) (t : DataType) : Prop :=
  ∃ τ ∈ s.subscriptions, τ.2 = t ∧ τ.1 ∉ s.closed

instance (s : State) (t : DataType) : Decidable (Subscribed s t) :=
  inferInstanceAs (Decidable (∃ τ ∈ s.subscriptions, _))

/-- One step. -/
def step (s : State) : Action → Option State
  | .recordStarts t =>
    if Subscribed s t then
      some ({ s with
        completedFiles := s.completedFiles.erase t
        extractionSignalled := s.extractionSignalled.erase t
        records := Function.update s.records t (s.records t + 1) }.cancelTask t)
    else none
  | .recordEnds t counted =>
    if 0 < s.records t then
      some { s with
        records := Function.update s.records t (s.records t - 1)
        messageCounts := if counted then
          Function.update s.messageCounts t (s.messageCounts t + 1) else s.messageCounts }
    else none
  | .fileCompleteStarts t =>
    if Subscribed s t then
      some { s with fileCompletes := Function.update s.fileCompletes t (s.fileCompletes t + 1) }
    else none
  | .fileCompleteEnds t landed =>
    if 0 < s.fileCompletes t then
      let s' := { s with fileCompletes := Function.update s.fileCompletes t (s.fileCompletes t - 1) }
      some (if landed then s'.complete t else s')
    else none
  | .extractionCompleteStarts t =>
    if Subscribed s t then
      some ({ s with
        extractionCompletes :=
          Function.update s.extractionCompletes t (s.extractionCompletes t + 1) }.cancelTask t)
    else none
  | .extractionCompleteEnds t landed =>
    if 0 < s.extractionCompletes t then
      let s' := { s with
        extractionCompletes :=
          Function.update s.extractionCompletes t (s.extractionCompletes t - 1) }
      some (if landed then
        { s' with extractionSignalled := insert t s.extractionSignalled }.complete t else s')
    else none
  | .timerFires t =>
    match s.consumerCancelTasks t with
    | some (.sleeping queue) =>
      some (s.setTask t (if t ∈ s.consumerTags then some (.cancelling queue) else none))
    | _ => none
  | .cancelReturns t outcome =>
    match s.consumerCancelTasks t with
    | some (.cancelling queue) =>
      match outcome with
      | .ok =>
        if queue ∈ s.closed then none
        else
          let s' := s.cancelled queue t
          -- `check_all_consumers_idle`
          if s'.consumerTags = ∅ ∧ s'.completedFiles = Finset.univ then
            some (s'.setTask t (s'.closeStart.map .closing))
          else some (s'.setTask t none)
      | .fails removed =>
        some { s.setTask t none with
          consumerRecoveryRequested := true
          subscriptions :=
            if removed then s.subscriptions.erase (queue, t) else s.subscriptions }
    | _ => none
  | .timerCloseReturns t outcome =>
    match s.consumerCancelTasks t with
    | some (.closing pc) =>
      let (s', next) := closeStep s pc outcome
      some (s'.setTask t (next.map .closing))
    | _ => none
  | .interruptedResumes =>
    if 0 < s.interruptedCancels then
      some { s with
        interruptedCancels := s.interruptedCancels - 1, consumerRecoveryRequested := true }
    else none
  | .brokerSubscribes =>
    match s.checker.consume with
    | some c =>
      if c.queue ∈ s.closed ∨ c.subscribed = true then none
      else
        some { s with
          subscriptions := insert (c.queue, c.dataType) s.subscriptions
          checker := s.checker.subscribe }
    | none => none
  | .consumeReturns ok =>
    match s.checker with
    | .booting c rest =>
      -- A consume that raises ends `main`, and the process with it.
      if ok = true ∧ c.subscribed = true then
        some ((s.started c.dataType).setChecker (match rest with
          | [] => .sleeping
          | t :: rest => .booting { queue := c.queue, dataType := t } rest))
      else none
    | .registering temp pending c rest =>
      if ok then
        if c.subscribed then
          some ((s.registered c.dataType pending).registerNext temp pending rest)
        else none
      else some (s.recoverFails temp)
    | .resubscribing c rest =>
      if ok then
        if c.subscribed then some ((s.started c.dataType).resubscribeNext rest) else none
      else some (s.resubscribeNext rest)
    | _ => none
  | .tick route =>
    if s.checker = .sleeping then
      match route with
      | .requested =>
        if s.consumerRecoveryRequested then some s.recoverConsumers else none
      | .parked =>
        if s.consumerRecoveryRequested = true ∨ s.typesAwaitingMarker = [] then none
        else if s.activeConnection.isSome then some (s.resubscribeNext s.typesAwaitingMarker)
        else some s.recoverConsumers
      | .stuck => if s.UnexpectedlyDead then some s.recoverConsumers else none
      | .idle =>
        if s.activeConnection.isSome ∨ s.consumerTags.Nonempty then none
        else some s.recoverConsumers
    else none
  | .closeReturns outcome =>
    match s.checker with
    | .closingOld pc =>
      let (s', next) := closeStep s pc outcome
      some (match next with
        | some pc => s'.setChecker (.closingOld pc)
        | none => s'.recoverReconnect)
    | .closingFailed pc =>
      let (s', next) := closeStep s pc outcome
      some (s'.setChecker (match next with
        | some pc => .closingFailed pc
        | none => .sleeping))
    | _ => none
  | .connectReturns ok =>
    if s.checker = .connecting then
      some (if ok then { s with transport := s.transport + 1, checker := .probing (s.transport + 1) }
        else { s with consumerRecoveryRequested := true, checker := .sleeping })
    else none
  | .probeReturns pending =>
    match s.checker with
    | .probing temp =>
      match pending with
      | none => some (s.recoverFails temp)
      | some pending =>
        if pending = ∅ then some (s.setChecker (.closingTemp temp))
        else some { s with
          activeConnection := some temp
          activeChannel := some temp
          checker := .settingQos temp pending }
    | _ => none
  | .tempCloses ok =>
    match s.checker with
    | .closingTemp temp =>
      some (if ok then { s with closed := insert temp s.closed, checker := .sleeping }
        else s.recoverFails temp)
    | _ => none
  | .qosReturns ok =>
    match s.checker with
    | .settingQos temp pending =>
      some (if ok then
        { s with queues := fun _ => none, checker := .declaring temp pending dataTypes }
        else s.recoverFails temp)
    | _ => none
  | .declareReturns ok =>
    match s.checker with
    | .declaring temp pending rest =>
      if ok then
        match rest with
        | [] => none
        | t :: rest =>
          let s' := { s with queues := Function.update s.queues t (some temp) }
          some (if rest = [] then s'.registerNext temp pending dataTypes
            else s'.setChecker (.declaring temp pending rest))
      else some (s.recoverFails temp)
    | _ => none
  | .depthReturns positive =>
    match s.checker with
    | .readingDepth t rest =>
      match s.queues t with
      | some queue =>
        if positive = true ∧ t ∉ s.consumerTags ∧ s.activeConnection.isSome then
          some (s.setChecker (.resubscribing { queue, dataType := t } rest))
        else some (s.resubscribeNext rest)
      | none => some (s.resubscribeNext rest)
    | _ => none

/-- `main` has connected and declared its queues, and registers its first consumer. -/
def start (cancelsConsumers : Bool) : State where
  cancelsConsumers := cancelsConsumers
  consumerTags := ∅
  consumerCancelTasks _ := none
  completedFiles := ∅
  extractionSignalled := ∅
  activeConnection := some 0
  activeChannel := some 0
  consumerRecoveryRequested := false
  messageCounts _ := 0
  queues _ := some 0
  activeConsumers := 0
  checker := .booting { queue := 0, dataType := .artists } [.labels, .masters, .releases]
  interruptedCancels := 0
  records _ := 0
  fileCompletes _ := 0
  extractionCompletes _ := 0
  subscriptions := ∅
  closed := ∅
  transport := 0

def IsInitial (s : State) : Prop := ∃ cancelsConsumers, s = start cancelsConsumers

/-- The consumers of the service, from its start. -/
def machine : Machine State Action where
  init := IsInitial
  step := step

/-- The registration in `main`, each consume answered before the next. -/
def registerAll : List Action := dataTypes.flatMap fun _ => [.brokerSubscribes, .consumeReturns true]

/-- No timer, teardown, registration or recovery is suspended in a broker call. -/
def Quiescent (s : State) : Prop :=
  s.checker = .sleeping ∧ s.interruptedCancels = 0 ∧
    ∀ t, s.consumerCancelTasks t = none ∨ ∃ queue, s.consumerCancelTasks t = some (.sleeping queue)

end Graphinator.Consumers
