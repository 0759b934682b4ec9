import EdgeOrchestrator.Library.ProtoWire
import EdgeOrchestrator.Orchestrator.Dispatch

/-!
# The envelopes as bytes

The field numbers of `protocol.proto`, and envelopes written and read in the wire
format of protocol buffers.  A payload that occurs several times is not merged: the
last one is read.  Fields that the codecs neither set nor look at are skipped.

Main results:

- `protobuf_wire`: the two functions behave as protobuf does.
- `dispatch_agrees_wire`: what this means for a request and its answer.
-/

namespace EdgeOrchestrator

open ProtoWire Utf8

/-! ## Writing -/

/-- The fields of a profile, zeros left out. -/
def TaskProfileMsg.fields (profile : TaskProfileMsg) : List Field :=
  varintField 1 profile.computeCostUs.toNat ++ varintField 2 profile.memoryBytes.toNat ++
    varintField 3 profile.inputBytes.toNat ++ varintField 4 profile.outputBytes.toNat

/-- The fields of a task; the profile is always set. -/
def TaskSpec.fields (spec : TaskSpec) : List Field :=
  bytesField 1 spec.taskId ++ bytesField 2 spec.name ++
    [⟨3, .bytes (encodeFields spec.profile.fields)⟩] ++
    spec.dependencies.map fun dep => ⟨4, .bytes dep⟩

/-- The fields of a request. -/
def OffloadRequest.fields (request : OffloadRequest) : List Field :=
  bytesField 2 request.taskId ++ [⟨4, .bytes (encodeFields request.profile.fields)⟩] ++
    bytesField 5 request.inputData

/-- The fields of a response. -/
def OffloadResponse.fields (response : OffloadResponse) : List Field :=
  varintField 3 response.success.toNat ++ bytesField 4 response.outputData ++
    varintField 5 response.actualDurationUs.toNat ++
    varintField 6 response.peakMemoryBytes.toNat ++ bytesField 7 response.errorMessage

/-- The fields of a submission, one for each task. -/
def WorkloadSubmission.fields (submission : WorkloadSubmission) : List Field :=
  bytesField 1 submission.workloadId ++
    (submission.tasks.map fun spec => encodeFields spec.fields).map fun content =>
      ⟨2, .bytes content⟩

/-- The fields of a result. -/
def WorkloadResult.fields (result : WorkloadResult) : List Field :=
  bytesField 1 result.workloadId ++ varintField 2 result.accepted.toNat ++
    bytesField 3 result.errorMessage ++ varintField 4 result.localTasks.toNat ++
    varintField 5 result.offloadedTasks.toNat ++ varintField 6 result.completedTasks.toNat ++
    varintField 7 result.failedTasks.toNat ++ varintField 8 result.offloadFallbacks.toNat ++
    varintField 9 result.makespanEstimateUs.toNat ++ varintField 10 result.totalDurationUs.toNat

/-- The case of the payload. -/
def Envelope.fields : Envelope → List Field
  | .offloadRequest request => [⟨2, .bytes (encodeFields request.fields)⟩]
  | .offloadResponse response => [⟨3, .bytes (encodeFields response.fields)⟩]
  | .workloadSubmission submission => [⟨4, .bytes (encodeFields submission.fields)⟩]
  | .workloadResult result => [⟨5, .bytes (encodeFields result.fields)⟩]
  | .otherPayload => []

/-- The bytes of an envelope. -/
def wireBytes : SerializeToArray := fun envelope => encodeFields envelope.fields

/-! ## Reading -/

/-- A field of type `uint64`, or zero. -/
def u64Field (number : Nat) (fields : List Field) : U64 :=
  BitVec.ofNat 64 (lastVarint number fields)

/-- A field of type `bool`, or false. -/
def boolField (number : Nat) (fields : List Field) : Bool :=
  lastVarint number fields ≠ 0

variable (fields : List Field)

/-- The profile that fields describe. -/
def TaskProfileMsg.ofFields : TaskProfileMsg where
  computeCostUs := u64Field 1 fields
  memoryBytes := u64Field 2 fields
  inputBytes := u64Field 3 fields
  outputBytes := u64Field 4 fields

/-- The task, if its profile can be read. -/
def TaskSpec.ofFields (fields : List Field) : Option TaskSpec :=
  (readFields (lastContent 3 fields)).map fun profile =>
    { taskId := lastContent 1 fields
      name := lastContent 2 fields
      profile := TaskProfileMsg.ofFields profile
      dependencies := contents 4 fields }

/-- The request, if its profile can be read. -/
def OffloadRequest.ofFields (fields : List Field) : Option OffloadRequest :=
  (readFields (lastContent 4 fields)).map fun profile =>
    { taskId := lastContent 2 fields
      profile := TaskProfileMsg.ofFields profile
      inputData := lastContent 5 fields }

/-- The response that fields describe. -/
def OffloadResponse.ofFields : OffloadResponse where
  success := boolField 3 fields
  outputData := lastContent 4 fields
  actualDurationUs := u64Field 5 fields
  peakMemoryBytes := u64Field 6 fields
  errorMessage := lastContent 7 fields

/-- The submission, if all its tasks can be read. -/
def WorkloadSubmission.ofFields (fields : List Field) : Option WorkloadSubmission :=
  ((contents 2 fields).mapM fun content => (readFields content).bind TaskSpec.ofFields).map
    fun tasks => { workloadId := lastContent 1 fields, tasks := tasks }

/-- The result that fields describe. -/
def WorkloadResult.ofFields : WorkloadResult where
  workloadId := lastContent 1 fields
  accepted := boolField 2 fields
  errorMessage := lastContent 3 fields
  localTasks := u64Field 4 fields
  offloadedTasks := u64Field 5 fields
  completedTasks := u64Field 6 fields
  failedTasks := u64Field 7 fields
  offloadFallbacks := u64Field 8 fields
  makespanEstimateUs := u64Field 9 fields
  totalDurationUs := u64Field 10 fields

/-- Read a payload from the field that holds it. -/
def Envelope.ofField (field : Field) : Option Envelope :=
  match field.value with
  | .varint _ => some .otherPayload
  | .bytes content =>
    (readFields content).bind fun fields =>
      match field.number with
      | 2 => (OffloadRequest.ofFields fields).map .offloadRequest
      | 3 => some (.offloadResponse (OffloadResponse.ofFields fields))
      | 4 => (WorkloadSubmission.ofFields fields).map .workloadSubmission
      | 5 => some (.workloadResult (WorkloadResult.ofFields fields))
      | _ => some .otherPayload

/-- The last case that is set counts. -/
def Envelope.ofFields : Option Envelope :=
  match (fields.filter fun field => field.number ∈ [1, 2, 3, 4, 5]).getLast? with
  | none => some .otherPayload
  | some field => Envelope.ofField field

/-- Proto3 rejects messages with strings that are not valid. -/
def parseWire : ParseFromArray := fun data =>
  ((readFields data).bind Envelope.ofFields).filter fun envelope => envelope.Utf8

/-! ## Round trips -/

section RoundTrip

theorem bool_toNat_lt (b : Bool) : b.toNat < 2 ^ 64 :=
  Nat.lt_of_le_of_lt (Bool.toNat_le b) (by decide)

/-- A profile is read back from its fields. -/
theorem TaskProfileMsg.ofFields_fields (profile : TaskProfileMsg) :
    TaskProfileMsg.ofFields profile.fields = profile := by
  simp [TaskProfileMsg.ofFields, TaskProfileMsg.fields, u64Field, lastVarint]

/-- A response is read back from its fields. -/
theorem OffloadResponse.ofFields_fields (response : OffloadResponse) :
    OffloadResponse.ofFields response.fields = response := by
  obtain ⟨success, _, _, _, _⟩ := response
  cases success <;>
    simp [OffloadResponse.ofFields, OffloadResponse.fields, u64Field, boolField, lastVarint,
      lastContent]

/-- A result is read back from its fields. -/
theorem WorkloadResult.ofFields_fields (result : WorkloadResult) :
    WorkloadResult.ofFields result.fields = result := by
  obtain ⟨_, accepted, _, _, _, _, _, _, _, _⟩ := result
  cases accepted <;>
    simp [WorkloadResult.ofFields, WorkloadResult.fields, u64Field, boolField, lastVarint,
      lastContent]

/-- Field numbers and integers stay in their wire ranges. -/
theorem TaskProfileMsg.small_fields (profile : TaskProfileMsg) :
    ∀ field ∈ profile.fields, field.Small :=
  small_append (small_append (small_append
    (small_varintField (by decide) profile.computeCostUs.isLt)
    (small_varintField (by decide) profile.memoryBytes.isLt))
    (small_varintField (by decide) profile.inputBytes.isLt))
    (small_varintField (by decide) profile.outputBytes.isLt)

/-- The fields of a task stay in range. -/
theorem TaskSpec.small_fields (spec : TaskSpec) : ∀ field ∈ spec.fields, field.Small :=
  small_append (small_append (small_append
    (small_bytesField (by decide) spec.taskId) (small_bytesField (by decide) spec.name))
    (small_map_bytes (by decide) [encodeFields spec.profile.fields]))
    (small_map_bytes (by decide) spec.dependencies)

/-- A task is read back from its fields. -/
theorem TaskSpec.read_fields (spec : TaskSpec)
    (hsize : (encodeFields spec.fields).length < 2 ^ 64) :
    (readFields (encodeFields spec.fields)).bind TaskSpec.ofFields = some spec := by
  have hprofile : (encodeFields spec.profile.fields).length < 2 ^ 64 := by
    have hmem : ⟨3, .bytes (encodeFields spec.profile.fields)⟩ ∈ spec.fields := by
      simp [TaskSpec.fields]
    exact Nat.lt_of_le_of_lt (length_content_le hmem) hsize
  have hread := readFields_of_small spec.profile.small_fields hprofile
  rw [readFields_of_small spec.small_fields hsize, Option.bind_some]
  simp [TaskSpec.ofFields, TaskSpec.fields, lastContent, hread, TaskProfileMsg.ofFields_fields]

/-- The fields of a request stay in range. -/
theorem OffloadRequest.small_fields (request : OffloadRequest) :
    ∀ field ∈ request.fields, field.Small :=
  small_append (small_append (small_bytesField (by decide) request.taskId)
    (small_map_bytes (by decide) [encodeFields request.profile.fields]))
    (small_bytesField (by decide) request.inputData)

/-- A request is read back from its fields. -/
theorem OffloadRequest.read_fields (request : OffloadRequest)
    (hsize : (encodeFields request.fields).length < 2 ^ 64) :
    (readFields (encodeFields request.fields)).bind OffloadRequest.ofFields = some request := by
  have hprofile : (encodeFields request.profile.fields).length < 2 ^ 64 := by
    have hmem : ⟨4, .bytes (encodeFields request.profile.fields)⟩ ∈ request.fields := by
      simp [OffloadRequest.fields]
    exact Nat.lt_of_le_of_lt (length_content_le hmem) hsize
  have hread := readFields_of_small request.profile.small_fields hprofile
  rw [readFields_of_small request.small_fields hsize, Option.bind_some]
  simp [OffloadRequest.ofFields, OffloadRequest.fields, lastContent, hread,
    TaskProfileMsg.ofFields_fields]

/-- The fields of a response stay in range. -/
theorem OffloadResponse.small_fields (response : OffloadResponse) :
    ∀ field ∈ response.fields, field.Small :=
  small_append (small_append (small_append (small_append
    (small_varintField (by decide) (bool_toNat_lt response.success))
    (small_bytesField (by decide) response.outputData))
    (small_varintField (by decide) response.actualDurationUs.isLt))
    (small_varintField (by decide) response.peakMemoryBytes.isLt))
    (small_bytesField (by decide) response.errorMessage)

/-- The fields of a submission stay in range. -/
theorem WorkloadSubmission.small_fields (submission : WorkloadSubmission) :
    ∀ field ∈ submission.fields, field.Small :=
  small_append (small_bytesField (by decide) submission.workloadId)
    (small_map_bytes (by decide) _)

/-- A submission is read back from its fields. -/
theorem WorkloadSubmission.read_fields (submission : WorkloadSubmission)
    (hsize : (encodeFields submission.fields).length < 2 ^ 64) :
    (readFields (encodeFields submission.fields)).bind WorkloadSubmission.ofFields =
      some submission := by
  have hread : ∀ spec ∈ submission.tasks,
      (readFields (encodeFields spec.fields)).bind TaskSpec.ofFields = some spec := by
    intro spec hspec
    have hmem : ⟨2, .bytes (encodeFields spec.fields)⟩ ∈ submission.fields := by
      simp only [WorkloadSubmission.fields, List.map_map, List.mem_append, List.mem_map]
      exact Or.inr ⟨spec, hspec, rfl⟩
    exact spec.read_fields (Nat.lt_of_le_of_lt (length_content_le hmem) hsize)
  have htasks : (submission.tasks.map fun spec => encodeFields spec.fields).mapM
      (fun content => (readFields content).bind TaskSpec.ofFields) = some submission.tasks :=
    mapM_map_of_read hread
  rw [readFields_of_small submission.small_fields hsize, Option.bind_some]
  simp [-List.map_map, WorkloadSubmission.ofFields, WorkloadSubmission.fields, lastContent,
    htasks]

/-- The fields of a result stay in range. -/
theorem WorkloadResult.small_fields (result : WorkloadResult) :
    ∀ field ∈ result.fields, field.Small :=
  small_append (small_append (small_append (small_append (small_append (small_append
    (small_append (small_append (small_append
      (small_bytesField (by decide) result.workloadId)
      (small_varintField (by decide) (bool_toNat_lt result.accepted)))
      (small_bytesField (by decide) result.errorMessage))
      (small_varintField (by decide) result.localTasks.isLt))
      (small_varintField (by decide) result.offloadedTasks.isLt))
      (small_varintField (by decide) result.completedTasks.isLt))
      (small_varintField (by decide) result.failedTasks.isLt))
      (small_varintField (by decide) result.offloadFallbacks.isLt))
      (small_varintField (by decide) result.makespanEstimateUs.isLt))
      (small_varintField (by decide) result.totalDurationUs.isLt)

/-- The fields of an envelope stay in range. -/
theorem Envelope.small_fields (envelope : Envelope) : ∀ field ∈ envelope.fields, field.Small := by
  cases envelope with
  | otherPayload => simp [Envelope.fields]
  | _ => exact small_map_bytes (by decide) [_]

/-- An envelope of less than 2 GiB is read back from its fields. -/
theorem Envelope.ofFields_fields (envelope : Envelope)
    (hsize : (wireBytes envelope).length < 2 ^ 64) :
    Envelope.ofFields envelope.fields = some envelope := by
  have hpayload : ∀ number content, envelope.fields = [⟨number, .bytes content⟩] →
      content.length < 2 ^ 64 := by
    intro number content hfields
    have hmem : ⟨number, .bytes content⟩ ∈ envelope.fields := by
      rw [hfields]
      exact List.mem_singleton_self _
    exact Nat.lt_of_le_of_lt (length_content_le hmem) hsize
  cases envelope with
  | offloadRequest request =>
    have hread := request.read_fields (hpayload _ _ rfl)
    simp only [Envelope.ofFields, Envelope.fields, Envelope.ofField]
    rw [Option.bind_eq_some_iff] at hread
    obtain ⟨fields, hfields, hrequest⟩ := hread
    simp [hfields, hrequest]
  | offloadResponse response =>
    have hread := readFields_of_small response.small_fields (hpayload _ _ rfl)
    simp [Envelope.ofFields, Envelope.fields, Envelope.ofField, hread,
      OffloadResponse.ofFields_fields]
  | workloadSubmission submission =>
    have hread := submission.read_fields (hpayload _ _ rfl)
    simp only [Envelope.ofFields, Envelope.fields, Envelope.ofField]
    rw [Option.bind_eq_some_iff] at hread
    obtain ⟨fields, hfields, hsubmission⟩ := hread
    simp [hfields, hsubmission]
  | workloadResult result =>
    have hread := readFields_of_small result.small_fields (hpayload _ _ rfl)
    simp [Envelope.ofFields, Envelope.fields, Envelope.ofField, hread,
      WorkloadResult.ofFields_fields]
  | otherPayload => rfl

end RoundTrip

/-- The wire format behaves as protobuf is documented to. -/
theorem protobuf_wire : Protobuf parseWire wireBytes where
  parse_serialize := by
    intro envelope hutf8 hsize
    have hsize' : (wireBytes envelope).length < 2 ^ 64 := Nat.lt_trans hsize (by decide)
    have hread : readFields (wireBytes envelope) = some envelope.fields :=
      readFields_of_small envelope.small_fields hsize'
    simp only [parseWire, hread, Option.bind_some, envelope.ofFields_fields hsize']
    exact Option.filter_some_pos (by simpa using hutf8)
  utf8_of_parse := by
    intro data envelope hparse
    have hutf8 := (Option.filter_eq_some_iff.1 hparse).2
    simpa using hutf8

namespace OffloadCodec

/-- A request for task `t`, and the answer once its run has completed. -/
theorem dispatch_agrees_wire :
    classify parseWire [0x12, 0x05, 0x12, 0x01, 0x74, 0x22, 0x00] = .offloadRequest ∧
      ∃ success duration peakMemory errorMsg output,
        decodeResponse parseWire (handleMessage parseWire wireBytes .insertion
            ⟨true, 7, fun _ => .ok {}⟩ [0x12, 0x05, 0x12, 0x01, 0x74, 0x22, 0x00]) =
          some (success, duration, peakMemory, errorMsg, output) ∧ success = true := by
  have hkind : classify parseWire [0x12, 0x05, 0x12, 0x01, 0x74, 0x22, 0x00] =
      .offloadRequest := by
    decide
  obtain ⟨-, -, -, -, -, hanswers⟩ :=
    dispatch_agrees parseWire wireBytes protobuf_wire .insertion
  obtain ⟨success, duration, peakMemory, errorMsg, output, hdecoded, hsuccess⟩ :=
    (hanswers ⟨true, 7, fun _ => .ok {}⟩ [0x12, 0x05, 0x12, 0x01, 0x74, 0x22, 0x00]
      (by intro dag message h; cases h) (by decide)).2 (by rw [hkind]; decide)
  refine ⟨hkind, success, duration, peakMemory, errorMsg, output, hdecoded, hsuccess.2 ?_⟩
  exact ⟨[0x74], {}, [], by decide, rfl⟩

end OffloadCodec

end EdgeOrchestrator
