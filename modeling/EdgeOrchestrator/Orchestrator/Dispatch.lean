import EdgeOrchestrator.Library.Utf8
import EdgeOrchestrator.Orchestrator.Session
import EdgeOrchestrator.Orchestrator.SubmissionRoundTrip

/-!
# Messages and their handlers

`OffloadCodec` writes and reads four kinds of messages, and `handle_message` answers
what arrives: an offload request is run, a workload submission is carried out, and
everything else is turned down.  Protobuf is a parameter; what is assumed of it is
`Protobuf`.

Main results:

- `decode_encodeRequest`, `decode_encodeResponse`, `decode_encodeResult` and
  `parsed_encodeSubmission`: what an encoder wrote is of its kind and is read back.
- `handleMessage_submission` and `handleMessage_other`: every request gets an answer that the
  decoder for its kind accepts.
- `dispatch_agrees`: all of it.
-/

namespace EdgeOrchestrator

/-! ## Protobuf -/

open Utf8

/-- The strings of a task specification. -/
def TaskSpec.strings (spec : TaskSpec) : List ByteString :=
  spec.taskId :: spec.name :: spec.dependencies

/-- The string fields of a message. -/
def Envelope.strings : Envelope → List ByteString
  | .offloadRequest request => [request.taskId]
  | .offloadResponse response => [response.errorMessage]
  | .workloadSubmission submission =>
    submission.workloadId :: submission.tasks.flatMap TaskSpec.strings
  | .workloadResult result => [result.workloadId, result.errorMessage]
  | .otherPayload => []

/-- All strings of a message are valid. -/
def Envelope.Utf8 (envelope : Envelope) : Prop :=
  ∀ text ∈ envelope.strings, IsUtf8 text

instance : DecidablePred Envelope.Utf8 := fun envelope =>
  inferInstanceAs (Decidable (∀ text ∈ envelope.strings, IsUtf8 text))

/-- The documented behaviour of protobuf: a message of less than 2 GiB whose strings
are valid comes back from its bytes, and the strings of a parsed message are valid. -/
structure Protobuf (parse : ParseFromArray) (serialize : SerializeToArray) : Prop where
  parse_serialize : ∀ envelope, envelope.Utf8 → (serialize envelope).length < 2 ^ 31 →
    parse (serialize envelope) = some envelope
  utf8_of_parse : ∀ data envelope, parse data = some envelope → envelope.Utf8

namespace OffloadCodec

open TaskRunner

/-! ## Kinds -/

/-- `WireKind`. -/
inductive WireKind where
  | unknown
  | offloadRequest
  | offloadResponse
  | workloadSubmission
  | workloadResult
deriving DecidableEq, Repr

variable (parse : ParseFromArray)

/-- `classify`: by the case that is set. -/
def classify (data : List UInt8) : WireKind :=
  match parse data with
  | none => .unknown
  | some envelope =>
    match envelope with
    | .offloadRequest _ => .offloadRequest
    | .offloadResponse _ => .offloadResponse
    | .workloadSubmission _ => .workloadSubmission
    | .workloadResult _ => .workloadResult
    | .otherPayload => .unknown

/-! ## Encoders and decoders -/

/-- `static_cast<uint64_t>` of a count of microseconds, and back. -/
def durationToWire (duration : Duration) : U64 :=
  BitVec.ofInt 64 duration

/-- The cast back to `int64_t`. -/
def durationFromWire (microseconds : U64) : Duration :=
  microseconds.toInt

/-- `profile_to_wire`. -/
def profileToWire (profile : TaskProfile) : TaskProfileMsg where
  computeCostUs := durationToWire profile.computeCost
  memoryBytes := profile.memoryBytes
  inputBytes := profile.inputBytes
  outputBytes := profile.outputBytes

/-- `profile_from_wire`. -/
def profileFromWire (profile : TaskProfileMsg) : TaskProfile where
  computeCost := durationFromWire profile.computeCostUs
  memoryBytes := profile.memoryBytes
  inputBytes := profile.inputBytes
  outputBytes := profile.outputBytes

variable (serialize : SerializeToArray)

/-- `encode_request`. -/
def encodeRequest (taskId : TaskId) (profile : TaskProfile) (inputData : List UInt8) : List UInt8 :=
  serialize (.offloadRequest
    { taskId := taskId
      profile := profileToWire profile
      inputData := inputData })

/-- The output parameters, on success. -/
def decodeRequest (data : List UInt8) : Option (TaskId × TaskProfile × List UInt8) :=
  match parse data with
  | some (.offloadRequest request) =>
    some (request.taskId, profileFromWire request.profile, request.inputData)
  | _ => none

/-- `encode_response`. -/
def encodeResponse (success : Bool) (duration : Duration) (peakMemory : U64) (errorMsg : ByteString)
    (output : List UInt8) : List UInt8 :=
  serialize (.offloadResponse
    { success := success
      actualDurationUs := durationToWire duration
      peakMemoryBytes := peakMemory
      errorMessage := errorMsg
      outputData := output })

/-- `decode_response`. -/
def decodeResponse (data : List UInt8) : Option (Bool × Duration × U64 × ByteString × List UInt8) :=
  match parse data with
  | some (.offloadResponse response) =>
    some (response.success, durationFromWire response.actualDurationUs,
      response.peakMemoryBytes, response.errorMessage, response.outputData)
  | _ => none

/-- The parts of an `OrchestrationResult` that are sent to the submitter. -/
structure Report where
  counters : SubmitWorkload.OrchestrationResult := ⟨0, 0, 0, 0, 0⟩
  estimatedMakespan : Duration := 0
  totalDuration : Duration := 0
deriving DecidableEq, Repr

/-- `encode_workload_result`. -/
def encodeWorkloadResult (workloadId : ByteString) (accepted : Bool) (errorMsg : ByteString)
    (result : Report) : List UInt8 :=
  serialize (.workloadResult
    { workloadId := workloadId
      accepted := accepted
      errorMessage := errorMsg
      localTasks := BitVec.ofNat 64 result.counters.localTasks
      offloadedTasks := BitVec.ofNat 64 result.counters.offloadedTasks
      completedTasks := BitVec.ofNat 64 result.counters.completedTasks
      failedTasks := BitVec.ofNat 64 result.counters.failedTasks
      offloadFallbacks := BitVec.ofNat 64 result.counters.offloadFallbacks
      makespanEstimateUs := durationToWire result.estimatedMakespan
      totalDurationUs := durationToWire result.totalDuration })

/-- `decode_workload_result`. -/
def decodeWorkloadResult (data : List UInt8) : Option (ByteString × Bool × ByteString × Report) :=
  match parse data with
  | some (.workloadResult result) =>
    some (result.workloadId, result.accepted, result.errorMessage,
      { counters :=
          { localTasks := result.localTasks.toNat
            offloadedTasks := result.offloadedTasks.toNat
            completedTasks := result.completedTasks.toNat
            failedTasks := result.failedTasks.toNat
            offloadFallbacks := result.offloadFallbacks.toNat }
        estimatedMakespan := durationFromWire result.makespanEstimateUs
        totalDuration := durationFromWire result.totalDurationUs })
  | _ => none

/-! ## Handlers -/

/-- What the calls of a handler return: whether the arena gave memory to the task and
how long it ran, and what `submit_workload` returned for a graph. -/
structure Outcomes where
  granted : Bool
  elapsed : Duration
  submitted : WorkloadDAG → Except ByteString Report

/-- The error for a bad request. -/
def failedToDecode : ByteString :=
  "Failed to decode request".toUTF8.toList

/-- The error for a bad submission. -/
def invalidSubmission : ByteString :=
  "Invalid workload submission".toUTF8.toList

/-- The error for everything else. -/
def unsupportedMessage : ByteString :=
  "Unsupported message type".toUTF8.toList

/-- The run of an offloaded task; its stop token never requests a stop. -/
def runOffloaded (outcomes : Outcomes) (taskId : TaskId) (profile : TaskProfile) :
    ExecutionResult :=
  execute taskId profile outcomes.granted outcomes.elapsed false

section Handlers

variable (parse : ParseFromArray) (serialize : SerializeToArray) (h : HashOrders)
  (outcomes : Outcomes) (request : List UInt8)

/-- `handle_offload_request`. -/
def handleOffloadRequest : List UInt8 :=
  match decodeRequest parse request with
  | none => encodeResponse serialize false 0 0 failedToDecode []
  | some (taskId, profile, _) =>
    let result := runOffloaded outcomes taskId profile
    encodeResponse serialize (result.finalState = .completed) result.actualDuration
      result.peakMemoryBytes (result.errorMessage.getD []) []

/-- `handle_workload_submission`. -/
def handleWorkloadSubmission : List UInt8 :=
  match decodeSubmission parse h request [] .empty with
  | (false, workloadId, _) => encodeWorkloadResult serialize workloadId false invalidSubmission {}
  | (true, workloadId, dag) =>
    match outcomes.submitted dag with
    | .error message => encodeWorkloadResult serialize workloadId false message {}
    | .ok result => encodeWorkloadResult serialize workloadId true [] result

/-- `handle_message`. -/
def handleMessage : List UInt8 :=
  match classify parse request with
  | .offloadRequest => handleOffloadRequest parse serialize outcomes request
  | .workloadSubmission => handleWorkloadSubmission parse serialize h outcomes request
  | _ => encodeResponse serialize false 0 0 unsupportedMessage []

end Handlers

/-! ## Kinds and decoders -/

/-- Each decoder accepts exactly the payloads of its own kind. -/
theorem classify_accepts (parse : ParseFromArray) (data : List UInt8) :
    ((decodeRequest parse data).isSome = true ↔ classify parse data = .offloadRequest) ∧
      ((decodeResponse parse data).isSome = true ↔ classify parse data = .offloadResponse) ∧
      ((parsedSubmission parse data).isSome = true ↔
        classify parse data = .workloadSubmission) ∧
      ((decodeWorkloadResult parse data).isSome = true ↔
        classify parse data = .workloadResult) := by
  unfold decodeRequest decodeResponse parsedSubmission decodeWorkloadResult classify
  cases parse data with
  | none => simp
  | some envelope => cases envelope <;> simp

/-! ## Round trips -/

/-- The two casts cancel out, also on negative durations. -/
theorem durationFromWire_toWire {duration : Duration} (h : IsInt64 duration) :
    durationFromWire (durationToWire duration) = duration :=
  toInt_ofInt_of_int64 h

theorem profileFromWire_toWire {profile : TaskProfile} (h : IsInt64 profile.computeCost) :
    profileFromWire (profileToWire profile) = profile := by
  simp only [profileFromWire, profileToWire, durationFromWire_toWire h]

/-- The ranges of the C++ types behind a result. -/
structure Report.Fits (result : Report) : Prop where
  localTasks : result.counters.localTasks < 2 ^ 64
  offloadedTasks : result.counters.offloadedTasks < 2 ^ 64
  completedTasks : result.counters.completedTasks < 2 ^ 64
  failedTasks : result.counters.failedTasks < 2 ^ 64
  offloadFallbacks : result.counters.offloadFallbacks < 2 ^ 64
  estimatedMakespan : IsInt64 result.estimatedMakespan
  totalDuration : IsInt64 result.totalDuration

section RoundTrip

variable {parse : ParseFromArray} {serialize : SerializeToArray}

theorem decode_encodeRequest (hproto : Protobuf parse serialize) {taskId : TaskId}
    {profile : TaskProfile} {inputData : List UInt8} (hid : IsUtf8 taskId)
    (hcost : IsInt64 profile.computeCost)
    (hsize : (encodeRequest serialize taskId profile inputData).length < 2 ^ 31) :
    classify parse (encodeRequest serialize taskId profile inputData) = .offloadRequest ∧
      decodeRequest parse (encodeRequest serialize taskId profile inputData) =
        some (taskId, profile, inputData) := by
  have hparse := hproto.parse_serialize _ (by simpa [Envelope.Utf8, Envelope.strings] using hid)
    hsize
  simp only [classify, decodeRequest, encodeRequest, hparse, profileFromWire_toWire hcost,
    and_self]

theorem decode_encodeResponse (hproto : Protobuf parse serialize) {success : Bool}
    {duration : Duration} {peakMemory : U64} {errorMsg : ByteString} {output : List UInt8}
    (herror : IsUtf8 errorMsg) (hduration : IsInt64 duration)
    (hsize : (encodeResponse serialize success duration peakMemory errorMsg output).length <
      2 ^ 31) :
    classify parse (encodeResponse serialize success duration peakMemory errorMsg output) =
        .offloadResponse ∧
      decodeResponse parse (encodeResponse serialize success duration peakMemory errorMsg output) =
        some (success, duration, peakMemory, errorMsg, output) := by
  have hparse := hproto.parse_serialize _
    (by simpa [Envelope.Utf8, Envelope.strings] using herror) hsize
  simp only [classify, decodeResponse, encodeResponse, hparse, durationFromWire_toWire hduration,
    and_self]

theorem decode_encodeResult (hproto : Protobuf parse serialize) {workloadId : ByteString}
    {accepted : Bool} {errorMsg : ByteString} {result : Report} (hid : IsUtf8 workloadId)
    (herror : IsUtf8 errorMsg) (hfits : result.Fits)
    (hsize : (encodeWorkloadResult serialize workloadId accepted errorMsg result).length <
      2 ^ 31) :
    classify parse (encodeWorkloadResult serialize workloadId accepted errorMsg result) =
        .workloadResult ∧
      decodeWorkloadResult parse
          (encodeWorkloadResult serialize workloadId accepted errorMsg result) =
        some (workloadId, accepted, errorMsg, result) := by
  have hparse := hproto.parse_serialize _
    (by simpa [Envelope.Utf8, Envelope.strings] using ⟨hid, herror⟩) hsize
  simp only [classify, decodeWorkloadResult, encodeWorkloadResult, hparse, BitVec.toNat_ofNat,
    Nat.mod_eq_of_lt hfits.localTasks, Nat.mod_eq_of_lt hfits.offloadedTasks,
    Nat.mod_eq_of_lt hfits.completedTasks, Nat.mod_eq_of_lt hfits.failedTasks,
    Nat.mod_eq_of_lt hfits.offloadFallbacks, durationFromWire_toWire hfits.estimatedMakespan,
    durationFromWire_toWire hfits.totalDuration, and_self]

/-- The tasks that `encode_submission` writes, in their order. -/
def sentTasks (h : HashOrders) (dag : WorkloadDAG) : List Task :=
  (dag.topologicalOrder h).filterMap dag.getTask

/-- The strings that `encode_submission` writes are valid. -/
def SendableStrings (h : HashOrders) (workloadId : ByteString) (dag : WorkloadDAG) : Prop :=
  (Envelope.workloadSubmission (submissionOf h workloadId dag)).Utf8

instance (h : HashOrders) (workloadId : ByteString) (dag : WorkloadDAG) :
    Decidable (SendableStrings h workloadId dag) :=
  inferInstanceAs (Decidable (Envelope.Utf8 _))

/-- What a specification says about a task, as the decoder reads it. -/
def specDescription (spec : TaskSpec) : TaskId × ByteString × TaskProfile × List TaskId :=
  (spec.taskId, spec.name, profileFromWire spec.profile, spec.dependencies)

theorem specDescription_specOfTask {task : Task} (h : IsInt64 task.profile.computeCost) :
    specDescription (specOfTask task) = description task := by
  have hprofile := profileFromWire_toWire h
  simp only [specDescription, specOfTask, description]
  exact congrArg (fun profile => (task.id, task.name, profile, task.dependencies)) hprofile

theorem parsed_encodeSubmission (hproto : Protobuf parse serialize) {h h' : HashOrders}
    {workloadId : ByteString} {dag : WorkloadDAG} (hstrings : SendableStrings h workloadId dag)
    (hcosts : ∀ task ∈ sentTasks h dag, IsInt64 task.profile.computeCost)
    (hsize : (encodeSubmission serialize h workloadId dag).length < 2 ^ 31) :
    classify parse (encodeSubmission serialize h workloadId dag) = .workloadSubmission ∧
      ∃ submission,
        parsedSubmission parse (encodeSubmission serialize h workloadId dag) = some submission ∧
        submission.workloadId = workloadId ∧
        submission.tasks.map specDescription = (sentTasks h dag).map description ∧
        ∀ before into, (decodeSubmission parse h' (encodeSubmission serialize h workloadId dag)
          before into).2 = (workloadId, buildSubmission into submission) := by
  have hparse := hproto.parse_serialize _ hstrings hsize
  refine ⟨?_, submissionOf h workloadId dag, parsedSubmission_eq_some.2 hparse, rfl, ?_, ?_⟩
  · simp only [classify, encodeSubmission, hparse]
  · rw [submissionOf, ← sentTasks, List.map_map]
    apply List.map_congr_left
    intro task htask
    exact specDescription_specOfTask (hcosts task htask)
  · intro before into
    rw [encodeSubmission, decodeSubmission_of_parse hparse]
    rfl

end RoundTrip

/-! ## Answers -/

section Answers

variable {parse : ParseFromArray} {serialize : SerializeToArray} {h : HashOrders}
  {outcomes : Outcomes} {request : List UInt8}

/-- The answer of an encoder for results is accepted, whatever it reports. -/
theorem decode_result (hproto : Protobuf parse serialize) {workloadId errorMsg : ByteString}
    {accepted : Bool} {result : Report} (hid : IsUtf8 workloadId) (herror : IsUtf8 errorMsg)
    (hsize : (encodeWorkloadResult serialize workloadId accepted errorMsg result).length <
      2 ^ 31) :
    ∃ result', decodeWorkloadResult parse
        (encodeWorkloadResult serialize workloadId accepted errorMsg result) =
      some (workloadId, accepted, errorMsg, result') := by
  have hparse := hproto.parse_serialize _
    (by simpa [Envelope.Utf8, Envelope.strings] using ⟨hid, herror⟩) hsize
  simp only [decodeWorkloadResult, encodeWorkloadResult, hparse]
  exact ⟨_, rfl⟩

theorem decode_response (hproto : Protobuf parse serialize) {success : Bool}
    {duration : Duration} {peakMemory : U64} {errorMsg : ByteString} (herror : IsUtf8 errorMsg)
    (hsize : (encodeResponse serialize success duration peakMemory errorMsg []).length < 2 ^ 31) :
    ∃ duration', decodeResponse parse
        (encodeResponse serialize success duration peakMemory errorMsg []) =
      some (success, duration', peakMemory, errorMsg, []) := by
  have hparse := hproto.parse_serialize _
    (by simpa [Envelope.Utf8, Envelope.strings] using herror) hsize
  simp only [decodeResponse, encodeResponse, hparse]
  exact ⟨_, rfl⟩

/-- The answer to a submission carries its id.  It is accepted when the graph was
valid and `submit_workload` returned a result. -/
theorem handleMessage_submission (hproto : Protobuf parse serialize)
    (herrors : ∀ dag message, outcomes.submitted dag = .error message → IsUtf8 message)
    (hsize : (handleMessage parse serialize h outcomes request).length < 2 ^ 31)
    {submission : WorkloadSubmission}
    (hrequest : parse request = some (.workloadSubmission submission)) :
    ∃ accepted errorMsg result,
      decodeWorkloadResult parse (handleMessage parse serialize h outcomes request) =
        some (submission.workloadId, accepted, errorMsg, result) ∧
      (accepted = true ↔
        (decodeSubmission parse h request [] .empty).1 = true ∧
          ∃ result, outcomes.submitted (decodeSubmission parse h request [] .empty).2.2 =
            .ok result) := by
  have hid : IsUtf8 submission.workloadId :=
    hproto.utf8_of_parse request _ hrequest _ List.mem_cons_self
  have hkind : classify parse request = .workloadSubmission := by
    rw [classify, hrequest]
  have hsame : (decodeSubmission parse h request [] .empty).2.1 = submission.workloadId := by
    rw [decodeSubmission_of_parse hrequest]
  simp only [handleMessage, hkind, handleWorkloadSubmission] at hsize ⊢
  generalize decodeSubmission parse h request [] .empty = decoded at hsame hsize ⊢
  obtain ⟨valid, workloadId, dag⟩ := decoded
  obtain rfl : workloadId = submission.workloadId := hsame
  cases valid with
  | false =>
    obtain ⟨result, hresult⟩ := decode_result hproto hid (isUtf8_toUTF8 _) hsize
    exact ⟨false, _, result, hresult, by simp⟩
  | true =>
    simp only at hsize ⊢
    cases hsubmitted : outcomes.submitted dag with
    | error message =>
      rw [hsubmitted] at hsize
      obtain ⟨result, hresult⟩ :=
        decode_result hproto hid (herrors dag message hsubmitted) hsize
      exact ⟨false, _, result, hresult, by simp⟩
    | ok report =>
      rw [hsubmitted] at hsize
      obtain ⟨result, hresult⟩ := decode_result hproto hid isUtf8_nil hsize
      exact ⟨true, _, result, hresult, by simp⟩

theorem isUtf8_errorMessage (outcomes : Outcomes) (taskId : TaskId) (profile : TaskProfile) :
    IsUtf8 ((runOffloaded outcomes taskId profile).errorMessage.getD []) := by
  unfold runOffloaded execute
  split
  · exact isUtf8_nil
  · exact isUtf8_toUTF8 _

/-- Everything else is answered by a response, which reports success only for a task
that was run and completed. -/
theorem handleMessage_other (hproto : Protobuf parse serialize)
    (hsize : (handleMessage parse serialize h outcomes request).length < 2 ^ 31)
    (hkind : classify parse request ≠ .workloadSubmission) :
    ∃ success duration peakMemory errorMsg output,
      decodeResponse parse (handleMessage parse serialize h outcomes request) =
        some (success, duration, peakMemory, errorMsg, output) ∧
      (success = true ↔ ∃ taskId profile inputData,
        decodeRequest parse request = some (taskId, profile, inputData) ∧
          (runOffloaded outcomes taskId profile).finalState = .completed) := by
  have hrefused : ∀ errorMsg, IsUtf8 errorMsg → decodeRequest parse request = none →
      handleMessage parse serialize h outcomes request =
        encodeResponse serialize false 0 0 errorMsg [] →
      ∃ success duration peakMemory errorMsg output,
        decodeResponse parse (handleMessage parse serialize h outcomes request) =
          some (success, duration, peakMemory, errorMsg, output) ∧
        (success = true ↔ ∃ taskId profile inputData,
          decodeRequest parse request = some (taskId, profile, inputData) ∧
            (runOffloaded outcomes taskId profile).finalState = .completed) := by
    intro errorMsg herror hnone hanswer
    rw [hanswer] at hsize ⊢
    obtain ⟨duration, hdecoded⟩ := decode_response hproto herror hsize
    exact ⟨false, duration, _, _, _, hdecoded, by simp [hnone]⟩
  have haccepts := (classify_accepts parse request).1
  cases hclass : classify parse request with
  | offloadRequest =>
    rw [hclass] at haccepts
    obtain ⟨⟨taskId, profile, inputData⟩, hdecoded⟩ :=
      Option.isSome_iff_exists.1 (haccepts.2 rfl)
    simp only [handleMessage, hclass, handleOffloadRequest, hdecoded] at hsize ⊢
    obtain ⟨duration, hanswer⟩ :=
      decode_response hproto (isUtf8_errorMessage outcomes taskId profile) hsize
    refine ⟨_, duration, _, _, _, hanswer, ?_⟩
    simp
  | workloadSubmission => exact absurd hclass hkind
  | _ =>
    refine hrefused unsupportedMessage (isUtf8_toUTF8 _) ?_ ?_
    · rw [hclass] at haccepts
      simpa using haccepts
    · simp only [handleMessage, hclass]

end Answers

/-- For every pair of functions that behave as protobuf does:
the kind of a payload tells which decoder accepts it; what an encoder wrote is of its
kind and its decoder gives the encoded values back; and every request is answered by a
message that the decoder for its kind accepts. -/
theorem dispatch_agrees (parse : ParseFromArray) (serialize : SerializeToArray)
    (hproto : Protobuf parse serialize) (h : HashOrders) :
    (∀ data,
      ((decodeRequest parse data).isSome = true ↔ classify parse data = .offloadRequest) ∧
      ((decodeResponse parse data).isSome = true ↔ classify parse data = .offloadResponse) ∧
      ((parsedSubmission parse data).isSome = true ↔
        classify parse data = .workloadSubmission) ∧
      ((decodeWorkloadResult parse data).isSome = true ↔
        classify parse data = .workloadResult)) ∧
    (∀ taskId profile inputData, IsUtf8 taskId → IsInt64 profile.computeCost →
      (encodeRequest serialize taskId profile inputData).length < 2 ^ 31 →
      classify parse (encodeRequest serialize taskId profile inputData) = .offloadRequest ∧
      decodeRequest parse (encodeRequest serialize taskId profile inputData) =
        some (taskId, profile, inputData)) ∧
    (∀ success duration peakMemory errorMsg output, IsUtf8 errorMsg → IsInt64 duration →
      (encodeResponse serialize success duration peakMemory errorMsg output).length < 2 ^ 31 →
      classify parse (encodeResponse serialize success duration peakMemory errorMsg output) =
        .offloadResponse ∧
      decodeResponse parse (encodeResponse serialize success duration peakMemory errorMsg output) =
        some (success, duration, peakMemory, errorMsg, output)) ∧
    (∀ workloadId accepted errorMsg result, IsUtf8 workloadId → IsUtf8 errorMsg →
      Report.Fits result →
      (encodeWorkloadResult serialize workloadId accepted errorMsg result).length < 2 ^ 31 →
      classify parse (encodeWorkloadResult serialize workloadId accepted errorMsg result) =
        .workloadResult ∧
      decodeWorkloadResult parse
          (encodeWorkloadResult serialize workloadId accepted errorMsg result) =
        some (workloadId, accepted, errorMsg, result)) ∧
    (∀ sender workloadId dag, SendableStrings sender workloadId dag →
      (∀ task ∈ sentTasks sender dag, IsInt64 task.profile.computeCost) →
      (encodeSubmission serialize sender workloadId dag).length < 2 ^ 31 →
      classify parse (encodeSubmission serialize sender workloadId dag) = .workloadSubmission ∧
      ∃ submission,
        parsedSubmission parse (encodeSubmission serialize sender workloadId dag) =
          some submission ∧
        submission.workloadId = workloadId ∧
        submission.tasks.map specDescription = (sentTasks sender dag).map description ∧
        ∀ before into, (decodeSubmission parse h
          (encodeSubmission serialize sender workloadId dag) before into).2 =
            (workloadId, buildSubmission into submission)) ∧
    ∀ outcomes request,
      (∀ dag message, outcomes.submitted dag = .error message → IsUtf8 message) →
      (handleMessage parse serialize h outcomes request).length < 2 ^ 31 →
      (∀ submission, parse request = some (.workloadSubmission submission) →
        ∃ accepted errorMsg result,
          decodeWorkloadResult parse (handleMessage parse serialize h outcomes request) =
            some (submission.workloadId, accepted, errorMsg, result) ∧
          (accepted = true ↔
            (decodeSubmission parse h request [] .empty).1 = true ∧
              ∃ result, outcomes.submitted (decodeSubmission parse h request [] .empty).2.2 =
                .ok result)) ∧
      (classify parse request ≠ .workloadSubmission →
        ∃ success duration peakMemory errorMsg output,
          decodeResponse parse (handleMessage parse serialize h outcomes request) =
            some (success, duration, peakMemory, errorMsg, output) ∧
          (success = true ↔ ∃ taskId profile inputData,
            decodeRequest parse request = some (taskId, profile, inputData) ∧
              (runOffloaded outcomes taskId profile).finalState = .completed)) := by
  refine ⟨classify_accepts parse, ?_, ?_, ?_, ?_, ?_⟩
  · intro taskId profile inputData hid hcost hsize
    exact decode_encodeRequest hproto hid hcost hsize
  · intro success duration peakMemory errorMsg output herror hduration hsize
    exact decode_encodeResponse hproto herror hduration hsize
  · intro workloadId accepted errorMsg result hid herror hfits hsize
    exact decode_encodeResult hproto hid herror hfits hsize
  · intro sender workloadId dag hstrings hcosts hsize
    exact parsed_encodeSubmission hproto hstrings hcosts hsize
  · intro outcomes request herrors hsize
    constructor
    · intro submission hrequest
      exact handleMessage_submission hproto herrors hsize hrequest
    · exact handleMessage_other hproto hsize

end OffloadCodec

end EdgeOrchestrator
