import Graphinator.Latch
import Graphinator.Lib.PyValue
import Graphinator.Lib.Traced

/-!
# The message handler

The handler that `make_message_handler` makes, with `check_file_completion` inside it. Every delivery
ends in a settlement call: an ack, a rejection of what no retry can help, or the return to the
broker that `requeue_or_dead_letter` makes. About a dozen awaits may raise, the settlement calls
among them, and two handlers of exceptions settle again.

The trace of a delivery records what the handler did that outlasts it, and its settlement calls with
what became of them. The world says how each await ends.

## Main definitions

* `World`, `Event`, `Call` : what the environment decides, and what a delivery leaves.
* `handler`, `checkFileCompletion`, `handleRecord`.
* `Rejected`, `Recorded`, `Admits` : the right reason for each call.

## Main results

* `checkFileCompletion_ensures`, `handleRecord_ensures`, `deliver_ensures` : one call, for the right
  reason.
* `delivery_settled` : what settles a delivery.
-/

namespace Graphinator.Handler

open PyValue Traced

/-! ### Deliveries -/

/-- What an await raises: `ServiceUnavailable` and its kin, or another exception. -/
inductive Failure
  | unavailable | other
deriving DecidableEq, Repr

/-- A settlement call. -/
inductive Call
  | ack
  /-- `message.nack(requeue=False)` for bad input. -/
  | reject
  /-- The nack of `requeue_or_dead_letter`. -/
  | giveBack (requeue : Bool)
deriving DecidableEq, Repr

/-- What became of a settlement call; one that raises may have reached the broker. -/
inductive CallResult
  | returned
  | raised (failure : Failure) (reached : Bool)
deriving DecidableEq, Repr

/-- What a delivery leaves behind. -/
inductive Event
  /-- `flush_queue` returned True. -/
  | drained
  /-- `completed_files.add`. -/
  | completed
  /-- `_record_extraction_signal` returned. -/
  | latched
  /-- `extraction_signalled.add`. -/
  | signalled
  /-- The type has records again. -/
  | reopened
  /-- The transaction of the record returned. -/
  | written (updated : Bool)
  /-- The batch processor has the record. -/
  | handedOver (accepted : Bool)
  | settled (call : Call) (result : CallResult)
  /-- `start_post_import_maintenance`. -/
  | maintenance (version : String)
deriving DecidableEq, Repr

/-- What the environment decides about a delivery, and the state that its handler finds. -/
structure World where
  shutdownRequested : Bool
  /-- `BATCH_MODE`. -/
  batchMode : Bool
  /-- There is a batch processor. -/
  processor : Bool
  /-- There is a Neo4j driver. -/
  driver : Bool
  /-- `RECORD_MAX_REQUEUES`. -/
  recordMaxRequeues : ℕ
  /-- Whether `requeue_or_dead_letter` requeues, by the hand-outs and the budget. -/
  requeues : ℕ → ℕ → Bool
  /-- `broker_handouts`. -/
  handouts : ℕ
  repr : PyValue → String
  /-- `normalize_record`. -/
  normalize : DataType → List (String × PyValue) → Except Failure (List (String × PyValue))
  flush : Except Failure Bool
  /-- The cache of the latch. -/
  latchVersion : Option String
  latchSignals : Finset DataType
  load : Except Failure (Finset DataType)
  persist : Except Failure Unit
  maintained : Except Failure Bool
  accept : Except Failure Bool
  transaction : Except Failure Bool
  /-- What becomes of each settlement call. -/
  settle : ℕ → CallResult

/-- `MARKER_MAX_REQUEUES`. -/
def markerMaxRequeues : ℕ := 500

/-- The settlement call of an event. -/
def Event.call? : Event → Option (Call × CallResult)
  | .settled call result => some (call, result)
  | _ => none

/-- The settlement calls of a trace. -/
def calls (trace : List Event) : List (Call × CallResult) := trace.filterMap Event.call?

/-- The handler of a delivery. -/
abbrev Handling := Traced Event Failure

/-! ### Settlement -/

/-- A settlement call. -/
def settle (w : World) (call : Call) : Handling Unit := do
  let result := w.settle (calls (← get)).length
  record (.settled call result)
  match result with
  | .returned => pure ()
  | .raised failure _ => throw failure

/-- `requeue_marker`. -/
def requeueMarker (w : World) : Handling Unit :=
  settle w (.giveBack (w.requeues w.handouts markerMaxRequeues))

/-- `requeue_record`. -/
def requeueRecord (w : World) : Handling Unit :=
  settle w (.giveBack (w.requeues w.handouts w.recordMaxRequeues))

/-! ### Markers -/

/-- `batch_processor is None or await batch_processor.flush_queue(data_type)`. -/
def drain (w : World) : Handling Bool := do
  if w.processor then
    let drained ← outcome w.flush
    if drained then
      record .drained
    return drained
  else
    return true

/-- `str(data.get("version") or EXTRACTION_LATCH_UNKNOWN_VERSION)`. -/
def version (w : World) (data : List (String × PyValue)) : String :=
  (((field? data "version").getD .null).orElse
    (.str Latch.extractionLatchUnknownVersion)).pyStr w.repr

/-- `_load_extraction_signals`. -/
def loadExtractionSignals (w : World) : Handling (Finset DataType) :=
  if w.driver then outcome w.load else pure ∅

/-- `_persist_extraction_signals`. -/
def persistExtractionSignals (w : World) : Handling Unit :=
  if w.driver then outcome w.persist else throw .other

/-- `_record_extraction_signal`. -/
def recordExtractionSignal (w : World) (t : DataType) (version : String) :
    Handling (Finset DataType) := do
  let persisted ←
    (if w.latchVersion = some version then pure w.latchSignals else loadExtractionSignals w)
  persistExtractionSignals w
  record .latched
  return insert t persisted

/-- `_is_extraction_maintained`. -/
def isExtractionMaintained (w : World) : Handling Bool :=
  if w.driver then outcome w.maintained else pure false

/-- The branch of `file_complete`. -/
def fileComplete (w : World) : Handling Unit := do
  if ← drain w then
    record .completed
    settle w .ack
  else
    requeueMarker w

/-- The branch of `extraction_complete`, where every type has signalled. -/
def allComplete (w : World) (version : String) : Handling Unit := do
  match ← observing (isExtractionMaintained w) with
  | .error _ => requeueMarker w
  | .ok true => settle w .ack
  | .ok false =>
    settle w .ack
    record (.maintenance version)

/-- The branch of `extraction_complete`. -/
def extractionComplete (w : World) (t : DataType) (version : String) : Handling Unit := do
  if ← drain w then
    match ← observing (recordExtractionSignal w t version) with
    | .error _ => requeueMarker w
    | .ok signals =>
      record .completed
      record .signalled
      if allDataTypes ⊆ signals then allComplete w version else settle w .ack
  else
    requeueMarker w

/-- `check_file_completion`. -/
def checkFileCompletion (w : World) (t : DataType) (data : List (String × PyValue)) :
    Handling Bool := do
  if field? data "type" = some (.str "file_complete") then
    fileComplete w
    return true
  else if field? data "type" = some (.str "extraction_complete") then
    extractionComplete w t (version w data)
    return true
  else
    return false

/-! ### Records -/

/-- The part of the handler for records. -/
def handleRecord (w : World) (t : DataType) (data : List (String × PyValue)) : Handling Unit := do
  record .reopened
  if w.batchMode && w.processor then
    record (.handedOver (← outcome w.accept))
  else
    match w.normalize t data with
    | .error _ => settle w .reject
    | .ok normalized =>
      if !((field? normalized "id").getD .null).truthy then
        settle w .reject
      else if !w.driver then
        throw .other
      else
        record (.written (← outcome w.transaction))
        settle w .ack

/-- The body of the handler. A body that is no JSON text has no value. -/
def deliver (w : World) (t : DataType) (body : Option PyValue) : Handling Unit := do
  match body with
  | some (.obj data) =>
    if !(← checkFileCompletion w t data) then
      handleRecord w t data
  | _ => settle w .reject

/-- `handler`. -/
def handler (w : World) (t : DataType) (body : Option PyValue) : Handling Unit := do
  if !w.shutdownRequested then
    tryCatch (deliver w t body) fun _ => tryCatch (requeueRecord w) fun _ => pure ()

/-! ### The right reason -/

/-- `data.get("type")`, of a body that is an object. -/
def type? : Option PyValue → Option PyValue
  | some (.obj data) => field? data "type"
  | _ => none

def IsFile (body : Option PyValue) : Prop := type? body = some (.str "file_complete")

def IsExtraction (body : Option PyValue) : Prop := type? body = some (.str "extraction_complete")

def IsMarker (body : Option PyValue) : Prop := IsFile body ∨ IsExtraction body

instance (body : Option PyValue) : Decidable (IsMarker body) :=
  inferInstanceAs (Decidable (type? body = _ ∨ type? body = _))

/-- A record that no retry can help: it is no JSON object, or its normalization raises, or it has no
id. -/
def Rejected (w : World) (t : DataType) (body : Option PyValue) : Prop :=
  ¬IsMarker body ∧ match body with
    | some (.obj data) => match w.normalize t data with
      | .ok normalized => ((field? normalized "id").getD .null).truthy = false
      | .error _ => True
    | _ => True

/-- What has to be in the trace before an ack. -/
structure Recorded (w : World) (body : Option PyValue) (trace : List Event) : Prop where
  drained : IsMarker body → w.processor = true → .drained ∈ trace
  completed : IsFile body → .completed ∈ trace
  latched : IsExtraction body → .latched ∈ trace
  written : ¬IsMarker body → ∃ updated, .written updated ∈ trace

/-- The hand-out budget of a delivery. -/
def budget (w : World) (body : Option PyValue) : ℕ :=
  if IsMarker body then markerMaxRequeues else w.recordMaxRequeues

/-- A settlement call has its reason. -/
structure Admits (w : World) (t : DataType) (body : Option PyValue) (trace : List Event)
    (call : Call) : Prop where
  reject : call = .reject ↔ Rejected w t body
  ack : call = .ack → Recorded w body trace
  giveBack : ∀ requeue, call = .giveBack requeue →
    requeue = w.requeues w.handouts (budget w body)

/-- A trace with one settlement call, which returned. -/
def SettledOnce (w : World) (t : DataType) (body : Option PyValue) (trace : List Event) : Prop :=
  ∃ before call rest, trace = before ++ .settled call .returned :: rest ∧ calls before = [] ∧
    calls rest = [] ∧ Admits w t body before call

/-- A trace that ends with the first settlement call, which raised, or has none. -/
def RaisedOnce (w : World) (t : DataType) (body : Option PyValue) (trace : List Event) : Prop :=
  (calls trace = [] ∧ ¬Rejected w t body) ∨
    ∃ before call failure reached, trace = before ++ [.settled call (.raised failure reached)] ∧
      calls before = [] ∧ Admits w t body before call

section Deliveries

variable {w : World} {t : DataType} {body : Option PyValue} {trace : List Event} {call : Call}
  {data : List (String × PyValue)}

@[simp] theorem calls_nil : calls [] = [] := rfl

@[simp] theorem calls_append (trace trace' : List Event) :
    calls (trace ++ trace') = calls trace ++ calls trace' := List.filterMap_append

@[simp] theorem calls_settled (result : CallResult) (rest : List Event) :
    calls (.settled call result :: rest) = (call, result) :: calls rest := rfl

/-- Other events are no settlement calls. -/
theorem calls_record {event : Event} (hevent : event.call? = none) (trace : List Event) :
    calls (trace ++ [event]) = calls trace := by
  simp [calls, hevent]

theorem SettledOnce.record (h : SettledOnce w t body trace) {event : Event}
    (hevent : event.call? = none) : SettledOnce w t body (trace ++ [event]) := by
  obtain ⟨before, call, rest, rfl, hbefore, hrest, hadmits⟩ := h
  exact ⟨before, call, rest ++ [event], by simp, hbefore, (calls_record hevent rest).trans hrest,
    hadmits⟩

/-- What draining the queue leaves in the trace. -/
def drainTrace (w : World) : List Event := if w.processor then [.drained] else []

@[simp] theorem calls_drainTrace : calls (drainTrace w) = [] := by
  unfold drainTrace
  split_ifs <;> rfl

theorem mem_drainTrace (h : w.processor = true) : .drained ∈ drainTrace w := by
  simp [drainTrace, h]

/-- **A settlement call** is the only one, and the handler goes on only if it returned. -/
theorem settle_ensures (htrace : calls trace = []) (hadmits : Admits w t body trace call) :
    Ensures (settle w call) trace (fun _ => SettledOnce w t body)
      fun _ => RaisedOnce w t body := by
  change Ensures (record _ >>= fun _ => _) trace _ _
  rw [ensures_bind, ensures_record]
  cases w.settle (calls trace).length with
  | returned => exact ⟨trace, call, [], rfl, htrace, rfl, hadmits⟩
  | raised failure reached => exact Or.inr ⟨trace, call, failure, reached, rfl, htrace, hadmits⟩

theorem drain_ensures : Ensures (drain w) trace
    (fun drained trace' => if drained then trace' = trace ++ drainTrace w else trace' = trace)
    fun _ trace' => trace' = trace := by
  unfold drain drainTrace
  cases hprocessor : w.processor with
  | false => simp
  | true =>
    cases hflush : w.flush with
    | error failure => simp
    | ok drained => cases drained <;> simp

theorem recordExtractionSignal_ensures {version : String} :
    Ensures (recordExtractionSignal w t version) trace
      (fun _ trace' => trace' = trace ++ [.latched]) fun _ trace' => trace' = trace := by
  have hload : Ensures (loadExtractionSignals w) trace (fun _ trace' => trace' = trace)
      fun _ trace' => trace' = trace := by
    unfold loadExtractionSignals
    split_ifs
    · cases w.load <;> rfl
    · rfl
  have hpersist : Ensures (persistExtractionSignals w) trace (fun _ trace' => trace' = trace)
      fun _ trace' => trace' = trace := by
    unfold persistExtractionSignals
    split_ifs
    · cases w.persist <;> rfl
    · rfl
  have hcached : Ensures (if w.latchVersion = some version then pure w.latchSignals
      else loadExtractionSignals w) trace (fun _ trace' => trace' = trace)
      fun _ trace' => trace' = trace := by
    split_ifs
    · rfl
    · exact hload
  unfold recordExtractionSignal
  rw [ensures_bind]
  refine hcached.mono (fun signals trace' htrace => ?_) fun _ _ htrace => htrace
  subst htrace
  rw [ensures_bind]
  refine hpersist.mono (fun _ trace' htrace => ?_) fun _ _ htrace => htrace
  subst htrace
  simp

/-- A marker goes back under its own budget. -/
theorem requeueMarker_ensures (hmarker : IsMarker body) (htrace : calls trace = []) :
    Ensures (requeueMarker w) trace (fun _ => SettledOnce w t body)
      fun _ => RaisedOnce w t body := by
  refine settle_ensures htrace ⟨⟨nofun, fun h => absurd hmarker h.1⟩, nofun, ?_⟩
  rintro _ ⟨⟩
  rw [budget, if_pos hmarker]

theorem admits_ack (hmarker : IsMarker body) (hrecorded : Recorded w body trace) :
    Admits w t body trace .ack :=
  ⟨⟨nofun, fun h => absurd hmarker h.1⟩, fun _ => hrecorded, nofun⟩

theorem raisedOnce_of_marker (hmarker : IsMarker body) (htrace : calls trace = []) :
    RaisedOnce w t body trace := Or.inl ⟨htrace, fun h => h.1 hmarker⟩

theorem fileComplete_ensures (hfile : IsFile body) :
    Ensures (fileComplete w) [] (fun _ => SettledOnce w t body) fun _ => RaisedOnce w t body := by
  have hmarker : IsMarker body := Or.inl hfile
  have hextraction : ¬IsExtraction body := by
    intro h
    rw [IsExtraction, hfile] at h
    simp at h
  unfold fileComplete
  rw [ensures_bind]
  refine drain_ensures.mono (fun drained trace' htrace => ?_) fun failure trace' htrace => ?_
  · cases drained with
    | false =>
      subst htrace
      exact requeueMarker_ensures hmarker rfl
    | true =>
      subst htrace
      simp only [if_true, ensures_bind, ensures_record, List.nil_append]
      refine settle_ensures ((calls_record rfl _).trans calls_drainTrace) (admits_ack hmarker
        ⟨fun _ h => by simp [mem_drainTrace h], fun _ => by simp, fun h => absurd h hextraction,
          fun h => absurd hmarker h⟩)
  · subst htrace
    exact raisedOnce_of_marker hmarker rfl

theorem isExtractionMaintained_ensures :
    Ensures (isExtractionMaintained w) trace (fun _ trace' => trace' = trace)
      fun _ trace' => trace' = trace := by
  unfold isExtractionMaintained
  split_ifs
  · cases w.maintained <;> rfl
  · rfl

/-- A landed `extraction_complete` is acked, or goes back. -/
theorem allComplete_ensures (hmarker : IsMarker body) (htrace : calls trace = [])
    (hrecorded : Recorded w body trace) {version : String} :
    Ensures (allComplete w version) trace (fun _ => SettledOnce w t body)
      fun _ => RaisedOnce w t body := by
  have hack : Ensures (settle w .ack) trace (fun _ => SettledOnce w t body)
      fun _ => RaisedOnce w t body := settle_ensures htrace (admits_ack hmarker hrecorded)
  unfold allComplete
  rw [ensures_bind, ensures_observing]
  refine isExtractionMaintained_ensures.mono (fun maintained trace' htrace' => ?_)
    fun failure trace' htrace' => ?_
  · subst htrace'
    cases maintained with
    | true => exact hack
    | false =>
      rw [ensures_bind]
      exact hack.mono (fun _ trace' h => h.record rfl) fun _ _ h => h
  · subst htrace'
    exact requeueMarker_ensures hmarker htrace

theorem extractionComplete_ensures (hextraction : IsExtraction body) {version : String} :
    Ensures (extractionComplete w t version) [] (fun _ => SettledOnce w t body)
      fun _ => RaisedOnce w t body := by
  have hmarker : IsMarker body := Or.inr hextraction
  have hfile : ¬IsFile body := by
    intro h
    rw [IsFile, hextraction] at h
    simp at h
  unfold extractionComplete
  rw [ensures_bind]
  refine drain_ensures.mono (fun drained trace' htrace => ?_) fun failure trace' htrace => ?_
  · cases drained with
    | false =>
      subst htrace
      exact requeueMarker_ensures hmarker rfl
    | true =>
      subst htrace
      simp only [if_true, ensures_bind, ensures_observing, List.nil_append]
      refine recordExtractionSignal_ensures.mono (fun signals trace' htrace => ?_)
        fun failure trace' htrace => ?_
      · subst htrace
        simp only [ensures_record]
        have hquiet : calls (drainTrace w ++ [.latched] ++ [.completed] ++ [.signalled]) = [] := by
          rw [calls_record rfl, calls_record rfl, calls_record rfl, calls_drainTrace]
        have hrecorded : Recorded w body
            (drainTrace w ++ [.latched] ++ [.completed] ++ [.signalled]) :=
          ⟨fun _ h => by simp [mem_drainTrace h], fun h => absurd h hfile, fun _ => by simp,
            fun h => absurd hmarker h⟩
        split_ifs with hall
        · exact allComplete_ensures hmarker hquiet hrecorded
        · exact settle_ensures hquiet (admits_ack hmarker hrecorded)
      · subst htrace
        exact requeueMarker_ensures hmarker calls_drainTrace
  · subst htrace
    exact raisedOnce_of_marker hmarker rfl

/-- **A marker** is settled in `check_file_completion`; a record passes through it. -/
theorem checkFileCompletion_ensures :
    Ensures (checkFileCompletion w t data) []
      (fun handled trace => if handled then SettledOnce w t (some (.obj data)) trace
        else trace = [] ∧ ¬IsMarker (some (.obj data)))
      fun _ => RaisedOnce w t (some (.obj data)) := by
  unfold checkFileCompletion
  split_ifs with hfile hextraction
  · rw [ensures_bind]
    have hbody : IsFile (some (.obj data)) := hfile
    exact (fileComplete_ensures hbody).mono (fun _ _ h => h) fun _ _ h => h
  · rw [ensures_bind]
    have hbody : IsExtraction (some (.obj data)) := hextraction
    exact (extractionComplete_ensures hbody).mono (fun _ _ h => h) fun _ _ h => h
  · rw [ensures_pure]
    exact ⟨rfl, fun h => h.elim hfile hextraction⟩

/-- **A record** is rejected if no retry can help it, and acked once it is written. -/
theorem handleRecord_ensures (hrecord : ¬IsMarker (some (.obj data)))
    (hmode : (w.batchMode && w.processor) = false) :
    Ensures (handleRecord w t data) [] (fun _ => SettledOnce w t (some (.obj data)))
      fun _ => RaisedOnce w t (some (.obj data)) := by
  have hreject : Rejected w t (some (.obj data)) →
      Ensures (settle w .reject) [.reopened] (fun _ => SettledOnce w t (some (.obj data)))
        fun _ => RaisedOnce w t (some (.obj data)) := fun h =>
    settle_ensures rfl ⟨iff_of_true rfl h, (by rintro ⟨⟩), (by rintro _ ⟨⟩)⟩
  unfold handleRecord
  rw [ensures_bind, ensures_record, hmode]
  simp only [Bool.false_eq_true, if_false, List.nil_append]
  cases hnormalize : w.normalize t data with
  | error failure => exact hreject ⟨hrecord, by simp [hnormalize]⟩
  | ok normalized =>
    cases hid : ((field? normalized "id").getD .null).truthy with
    | false =>
      simp only [hid, Bool.not_false, if_true]
      exact hreject ⟨hrecord, by simp [hnormalize, hid]⟩
    | true =>
      have hkept : ¬Rejected w t (some (.obj data)) := by
        rintro ⟨-, h⟩
        simp [hnormalize, hid] at h
      simp only [hid, Bool.not_true, Bool.false_eq_true, if_false]
      cases w.driver with
      | false => exact Or.inl ⟨rfl, hkept⟩
      | true =>
        simp only [Bool.not_true, Bool.false_eq_true, if_false, ensures_bind]
        cases w.transaction with
        | error failure => exact Or.inl ⟨rfl, hkept⟩
        | ok updated =>
          have hrecorded : Recorded w (some (.obj data)) [.reopened, .written updated] :=
            ⟨fun h => absurd h hrecord, fun h => absurd (Or.inl h) hrecord,
              fun h => absurd (Or.inr h) hrecord, fun _ => ⟨updated, by simp⟩⟩
          exact settle_ensures rfl
            ⟨⟨(by rintro ⟨⟩), fun h => absurd h hkept⟩, fun _ => hrecorded, (by rintro _ ⟨⟩)⟩

/-- **The body of the handler** makes one settlement call, unless it raises first. -/
theorem deliver_ensures (hmode : (w.batchMode && w.processor) = false ∨ IsMarker body) :
    Ensures (deliver w t body) [] (fun _ => SettledOnce w t body) fun _ => RaisedOnce w t body := by
  have hmalformed : (∀ data, body ≠ some (.obj data)) →
      Ensures (settle w .reject) [] (fun _ => SettledOnce w t body) fun _ => RaisedOnce w t body := by
    intro hbody
    have htype : ¬IsMarker body := by
      rcases body with _ | _ | _ | _ | _ | _ | _ | data
      case some.obj => exact absurd rfl (hbody data)
      all_goals simp [IsMarker, IsFile, IsExtraction, type?]
    refine settle_ensures rfl ⟨iff_of_true rfl ⟨htype, ?_⟩, nofun, nofun⟩
    split
    · next data => exact absurd rfl (hbody data)
    · trivial
  unfold deliver
  split
  · next data =>
    rw [ensures_bind]
    refine checkFileCompletion_ensures.mono (fun handled trace h => ?_) fun _ _ h => h
    cases handled with
    | true => exact h
    | false =>
      obtain ⟨rfl, hrecord⟩ := h
      exact handleRecord_ensures hrecord (hmode.resolve_right hrecord)
  · next hbody => exact hmalformed fun data h => hbody data h

/-- **The handler** returns, with the settlement call of its body, or with one more where that
raised. -/
theorem handler_ensures (hshutdown : w.shutdownRequested = false)
    (hmode : (w.batchMode && w.processor) = false ∨ IsMarker body) :
    Ensures (handler w t body) [] (fun _ trace => SettledOnce w t body trace ∨
      ∃ before result, trace = before ++
        [.settled (.giveBack (w.requeues w.handouts w.recordMaxRequeues)) result] ∧
          RaisedOnce w t body before) fun _ _ => False := by
  unfold handler
  simp only [hshutdown, Bool.not_false, if_true, ensures_tryCatch]
  refine (deliver_ensures hmode).mono (fun _ _ h => Or.inl h) fun failure trace h => ?_
  change Ensures (record _ >>= fun _ => _) trace _ _
  rw [ensures_bind, ensures_record]
  cases hresult : w.settle (calls trace).length with
  | returned => exact Or.inr ⟨trace, _, rfl, h⟩
  | raised failure reached => exact Or.inr ⟨trace, _, rfl, h⟩

end Deliveries

/-! ### What settles a delivery -/

/-- The call reaches the broker. -/
def CallResult.reached : CallResult → Bool
  | .returned => true
  | .raised _ reached => reached

/-- The calls that take effect: the broker takes the first one that reaches it, and refuses to settle
a delivery again. -/
def effective (settled : Bool) : List (Call × CallResult) → List Call
  | [] => []
  | (call, result) :: rest =>
    if !settled && result.reached then call :: effective true rest else effective settled rest

theorem effective_true (attempts : List (Call × CallResult)) : effective true attempts = [] := by
  induction attempts with
  | nil => rfl
  | cons attempt attempts ih => simpa [effective] using ih

theorem length_effective_le (attempts : List (Call × CallResult)) :
    (effective false attempts).length ≤ 1 := by
  induction attempts with
  | nil => exact Nat.zero_le 1
  | cons attempt attempts ih =>
    simp only [effective, effective_true]
    split_ifs
    · exact le_refl 1
    · exact ih

/-- The delivery is settled for the right reason: at most one call takes effect, and another call is
made only after one that raised; an ack comes after what it stands for; the first call is a rejection
exactly for what no retry can help, and no later one is; and a return dead-letters only where the
budget is spent. -/
structure Settled (w : World) (t : DataType) (body : Option PyValue) (trace : List Event) : Prop where
  once : (effective false (calls trace)).length ≤ 1
  attempted : calls trace ≠ []
  raised : ∀ attempt ∈ (calls trace).dropLast, attempt.2 ≠ .returned
  ack : ∀ before result rest, trace = before ++ .settled .ack result :: rest →
    Recorded w body before
  reject : (∃ result, (calls trace).head? = some (.reject, result)) ↔ Rejected w t body
  kept : ∀ attempt ∈ (calls trace).tail, ∃ requeue, attempt.1 = .giveBack requeue
  spent : ∀ result, (.giveBack false, result) ∈ calls trace → budget w body ≤ w.handouts

section Settled

variable {w : World} {t : DataType} {body : Option PyValue} {trace : List Event}

/-- The first settlement call of a trace stands at one place. -/
theorem eq_of_append {before rest before' rest' : List Event} {call call' : Call}
    {result result' : CallResult}
    (h : before ++ .settled call result :: rest = before' ++ .settled call' result' :: rest')
    (hbefore : calls before = []) (hrest : ∀ attempt ∈ calls rest, attempt.1 ≠ call') :
    before' = before ∧ call = call' := by
  rcases List.append_eq_append_iff.mp h with ⟨between, rfl, hbetween⟩ | ⟨between, rfl, hbetween⟩
  · cases between with
    | nil =>
      cases hbetween
      exact ⟨List.append_nil before, rfl⟩
    | cons event between =>
      cases hbetween
      exact absurd rfl (hrest (call', result') (by simp))
  · cases between with
    | nil =>
      cases hbetween
      exact ⟨(List.append_nil before').symm, rfl⟩
    | cons event between =>
      cases hbetween
      simp at hbefore

/-- A return to the broker under either budget. -/
theorem budget_le (hrequeues : ∀ handouts max, w.requeues handouts max = decide (handouts < max))
    (hbudget : w.recordMaxRequeues = 500) :
    (w.requeues w.handouts (budget w body) = false → budget w body ≤ w.handouts) ∧
      (w.requeues w.handouts w.recordMaxRequeues = false → budget w body ≤ w.handouts) := by
  have heq : budget w body = w.recordMaxRequeues := by
    unfold budget markerMaxRequeues
    split_ifs
    · exact hbudget.symm
    · rfl
  rw [heq, hrequeues]
  simp

/-- One call that returned. -/
theorem SettledOnce.settled (h : SettledOnce w t body trace)
    (hrequeues : ∀ handouts max, w.requeues handouts max = decide (handouts < max))
    (hbudget : w.recordMaxRequeues = 500) : Settled w t body trace := by
  obtain ⟨before, call, rest, rfl, hbefore, hrest, hadmits⟩ := h
  have hcalls : calls (before ++ .settled call .returned :: rest) = [(call, .returned)] := by
    simp [hbefore, hrest]
  refine ⟨length_effective_le _, ?_, ?_, fun before' result rest' heq => ?_, ?_, ?_,
    fun result hmem => ?_⟩
  · simp [hcalls]
  · simp [hcalls]
  · obtain ⟨rfl, rfl⟩ := eq_of_append heq hbefore (by simp [hrest])
    exact hadmits.ack rfl
  · simpa [hcalls] using hadmits.reject
  · simp [hcalls]
  · rw [hcalls, List.mem_singleton, Prod.mk.injEq] at hmem
    exact (budget_le hrequeues hbudget).1 (hadmits.giveBack false hmem.1.symm).symm

/-- The return to the broker after the body has raised. -/
theorem RaisedOnce.settled (h : RaisedOnce w t body trace) {result : CallResult}
    (hrequeues : ∀ handouts max, w.requeues handouts max = decide (handouts < max))
    (hbudget : w.recordMaxRequeues = 500) :
    Settled w t body (trace ++
      [.settled (.giveBack (w.requeues w.handouts w.recordMaxRequeues)) result]) := by
  rcases h with ⟨htrace, hkept⟩ | ⟨before, call, failure, reached, rfl, hbefore, hadmits⟩
  · have hcalls : calls (trace ++
        [.settled (.giveBack (w.requeues w.handouts w.recordMaxRequeues)) result]) =
          [(.giveBack (w.requeues w.handouts w.recordMaxRequeues), result)] := by
      simp [htrace]
    refine ⟨length_effective_le _, ?_, ?_, fun before' result' rest' heq => ?_, ?_, ?_,
      fun result' hmem => ?_⟩
    · simp [hcalls]
    · simp [hcalls]
    · cases (eq_of_append heq htrace (by simp)).2
    · simpa [hcalls] using hkept
    · simp [hcalls]
    · rw [hcalls, List.mem_singleton, Prod.mk.injEq, Call.giveBack.injEq] at hmem
      exact (budget_le hrequeues hbudget).2 hmem.1.symm
  · rw [List.append_assoc, List.singleton_append]
    have hcalls : calls (before ++ .settled call (.raised failure reached) ::
        [.settled (.giveBack (w.requeues w.handouts w.recordMaxRequeues)) result]) =
          [(call, .raised failure reached),
            (.giveBack (w.requeues w.handouts w.recordMaxRequeues), result)] := by
      simp [hbefore]
    refine ⟨length_effective_le _, ?_, ?_, fun before' result' rest' heq => ?_, ?_, ?_,
      fun result' hmem => ?_⟩
    · simp [hcalls]
    · simp [hcalls]
    · obtain ⟨rfl, rfl⟩ := eq_of_append heq hbefore (by simp)
      exact hadmits.ack rfl
    · simpa [hcalls] using hadmits.reject
    · simp [hcalls]
    · rw [hcalls, List.mem_cons, List.mem_singleton, Prod.mk.injEq, Prod.mk.injEq,
        Call.giveBack.injEq] at hmem
      rcases hmem with ⟨hcall, -⟩ | ⟨hcall, -⟩
      · exact (budget_le hrequeues hbudget).1 (hadmits.giveBack false hcall.symm).symm
      · exact (budget_le hrequeues hbudget).2 hcall.symm

end Settled

/-- **The settlement of a delivery.** However its awaits end, the handler returns with the delivery
settled for the right reason: a record in non-batch mode, and a marker in either mode. -/
theorem delivery_settled {w : World} (t : DataType) {body : Option PyValue}
    (hshutdown : w.shutdownRequested = false)
    (hmode : (w.batchMode && w.processor) = false ∨ IsMarker body)
    (hrequeues : ∀ handouts max, w.requeues handouts max = decide (handouts < max))
    (hbudget : w.recordMaxRequeues = 500) :
    ∃ trace, handler w t body [] = .ok () trace ∧ Settled w t body trace := by
  obtain ⟨⟨⟩, trace, hrun, h⟩ := (handler_ensures (t := t) hshutdown hmode).exists_ok
  refine ⟨trace, hrun, ?_⟩
  rcases h with h | ⟨before, result, rfl, h⟩
  · exact h.settled hrequeues hbudget
  · exact h.settled hrequeues hbudget

/-- A world in which every call returns but the settlement calls, which end as given. -/
def plainWorld (settle : ℕ → CallResult) : World where
  shutdownRequested := false
  batchMode := false
  processor := false
  driver := true
  recordMaxRequeues := 500
  requeues handouts max := handouts < max
  handouts := 0
  repr _ := ""
  normalize _ data := .ok data
  flush := .ok true
  latchVersion := none
  latchSignals := ∅
  load := .ok ∅
  persist := .ok ()
  maintained := .ok false
  accept := .ok true
  transaction := .ok true
  settle

/-- A record is written and acked; the ack raises, and the record goes back. -/
theorem delivery_settled_ack_raises :
    ∃ trace, handler (plainWorld fun _ => .raised .other false) .artists
        (some (.obj [("id", .str "1")])) [] = .ok () trace ∧
      Settled (plainWorld fun _ => .raised .other false) .artists
        (some (.obj [("id", .str "1")])) trace :=
  delivery_settled .artists rfl (Or.inl rfl) (fun _ _ => rfl) rfl

/-- A malformed body whose rejection raises goes back to the queue. -/
theorem delivery_counterexample :
    ∃ trace, handler (plainWorld fun n => if n = 0 then .raised .other false else .returned) .artists
        none [] = .ok () trace ∧
      Rejected (plainWorld fun n => if n = 0 then .raised .other false else .returned) .artists none ∧
      effective false (calls trace) = [.giveBack true] := by
  refine ⟨_, rfl, ⟨?_, trivial⟩, rfl⟩
  simp [IsMarker, IsFile, IsExtraction, type?]

end Graphinator.Handler
