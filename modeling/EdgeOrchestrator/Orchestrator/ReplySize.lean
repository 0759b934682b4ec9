import EdgeOrchestrator.Network.FrameAlignment
import EdgeOrchestrator.Orchestrator.Coverage
import EdgeOrchestrator.Orchestrator.WireFormat

/-!
# The sizes of replies

A client refuses a reply that is longer than a request may be, and the server writes
replies of any length.  Most replies have a bounded size.  The reply to a workload
submission repeats its id and adds fields of its own, so it can be longer than the
request.

Main results:

- `length_encodeWorkloadResult_le_iff`: how long an id may be.
- `reply_receivable_iff`: the replies that the client accepts.
- `reply_too_large`: a submission of the largest size accepted whose reply is refused.
-/

namespace EdgeOrchestrator

namespace OffloadCodec

open ProtoWire TaskRunner

open SubmitWorkload (monitorNotReady)

/-- Messages are as long as the encoding of proto3 makes them. -/
def EncodingSizes (serialize : SerializeToArray) : Prop :=
  ∀ envelope, (serialize envelope).length = (wireBytes envelope).length

/-- What `submit_workload` returns; there is no report while the monitor has no
snapshot. -/
def submitResult (report : WorkloadDAG → Option Report) (dag : WorkloadDAG) :
    Except ByteString Report :=
  match report dag with
  | none => .error monitorNotReady
  | some result => .ok result

/-! ## Sizes of messages -/

section Sizes

variable {serialize : SerializeToArray}

theorem length_fields_response (response : OffloadResponse) :
    (encodeFields response.fields).length =
      integerSize response.success.toNat + textSize response.outputData +
        integerSize response.actualDurationUs.toNat +
        integerSize response.peakMemoryBytes.toNat + textSize response.errorMessage := by
  simp only [OffloadResponse.fields, length_encodeFields_append, Nat.reduceLT,
    length_encodeFields_varintField, length_encodeFields_bytesField]

/-- The fields of a result behind the workload id. -/
def resultSize (accepted : Bool) (errorMsg : ByteString) (result : Report) : Nat :=
  integerSize accepted.toNat + textSize errorMsg +
    integerSize (BitVec.ofNat 64 result.counters.localTasks).toNat +
    integerSize (BitVec.ofNat 64 result.counters.offloadedTasks).toNat +
    integerSize (BitVec.ofNat 64 result.counters.completedTasks).toNat +
    integerSize (BitVec.ofNat 64 result.counters.failedTasks).toNat +
    integerSize (BitVec.ofNat 64 result.counters.offloadFallbacks).toNat +
    integerSize (durationToWire result.estimatedMakespan).toNat +
    integerSize (durationToWire result.totalDuration).toNat

theorem length_encodeWorkloadResult (hsizes : EncodingSizes serialize) (workloadId : ByteString)
    (accepted : Bool) (errorMsg : ByteString) (result : Report) :
    (encodeWorkloadResult serialize workloadId accepted errorMsg result).length =
      1 + (varint (textSize workloadId + resultSize accepted errorMsg result)).length +
        (textSize workloadId + resultSize accepted errorMsg result) := by
  rw [encodeWorkloadResult, hsizes, wireBytes, Envelope.fields,
    length_encodeFields_bytes (by decide)]
  simp only [WorkloadResult.fields, length_encodeFields_append, Nat.reduceLT,
    length_encodeFields_varintField, length_encodeFields_bytesField, resultSize, Nat.add_assoc]

/-- Each of the seven numbers takes eleven bytes at most. -/
theorem resultSize_le (accepted : Bool) (errorMsg : ByteString) (result : Report) :
    resultSize accepted errorMsg result ≤
      integerSize accepted.toNat + textSize errorMsg + 77 := by
  have hlocal := integerSize_le (BitVec.ofNat 64 result.counters.localTasks).toNat
  have hoffloaded := integerSize_le (BitVec.ofNat 64 result.counters.offloadedTasks).toNat
  have hcompleted := integerSize_le (BitVec.ofNat 64 result.counters.completedTasks).toNat
  have hfailed := integerSize_le (BitVec.ofNat 64 result.counters.failedTasks).toNat
  have hfallbacks := integerSize_le (BitVec.ofNat 64 result.counters.offloadFallbacks).toNat
  have hmakespan := integerSize_le (durationToWire result.estimatedMakespan).toNat
  have htotal := integerSize_le (durationToWire result.totalDuration).toNat
  unfold resultSize
  omega

/-- A response carries no output, so only its error text can be long. -/
theorem length_encodeResponse_le (hsizes : EncodingSizes serialize) (success : Bool)
    (duration : Duration) (peakMemory : U64) (errorMsg : ByteString) :
    (encodeResponse serialize success duration peakMemory errorMsg []).length ≤
      66 + errorMsg.length := by
  rw [encodeResponse, hsizes, wireBytes, Envelope.fields, length_encodeFields_bytes (by decide),
    length_fields_response]
  simp only
  have hlength := length_varint_le (integerSize success.toNat + textSize [] +
    integerSize (durationToWire duration).toNat + integerSize peakMemory.toNat +
    textSize errorMsg)
  have hsuccess := integerSize_le success.toNat
  have houtput := textSize_le []
  have hduration := integerSize_le (durationToWire duration).toNat
  have hpeak := integerSize_le peakMemory.toNat
  have herror := textSize_le errorMsg
  simp only [List.length_nil] at houtput
  omega

/-- A result with little else in it fits exactly when the id leaves room for the rest and
for two tags and two lengths.  Where the limit matters the lengths take four bytes. -/
theorem length_encodeWorkloadResult_le_iff (hsizes : EncodingSizes serialize)
    {workloadId : ByteString} {accepted : Bool} {errorMsg : ByteString} {result : Report}
    (herror : errorMsg.length ≤ 27) :
    (encodeWorkloadResult serialize workloadId accepted errorMsg result).length ≤
        AsyncTransport.maxMessageSize.toNat ↔
      workloadId.length + 10 + resultSize accepted errorMsg result ≤
        AsyncTransport.maxMessageSize.toNat := by
  have hmax : AsyncTransport.maxMessageSize.toNat = 16777216 := rfl
  rw [length_encodeWorkloadResult hsizes, hmax]
  have hrest := resultSize_le accepted errorMsg result
  have haccepted := integerSize_le accepted.toNat
  have htext := textSize_le errorMsg
  generalize resultSize accepted errorMsg result = rest at hrest ⊢
  by_cases hshort : workloadId.length < 2 ^ 21
  · have hid := textSize_le workloadId
    have hinner := length_varint_le (textSize workloadId + rest)
    constructor
    · intro _
      omega
    · intro _
      omega
  · have hne : workloadId ≠ [] := by
      rintro rfl
      exact hshort (by decide)
    have hid : textSize workloadId =
        1 + (varint workloadId.length).length + workloadId.length := if_neg hne
    constructor
    · intro hle
      have hlength := three_lt_length_varint (not_lt.1 hshort)
      have hinner := three_lt_length_varint (n := textSize workloadId + rest) (by omega)
      omega
    · intro hle
      have hlength := length_varint_eq_four (not_lt.1 hshort) (by omega)
      have hinner := length_varint_eq_four (n := textSize workloadId + rest) (by omega) (by omega)
      omega

end Sizes

/-! ## Replies -/

section Replies

variable (parse : ParseFromArray) (serialize : SerializeToArray) (h : HashOrders)
  (granted : Bool) (elapsed : Duration) (report : WorkloadDAG → Option Report)
  (request : List UInt8)

/-- The reply of a server on which an offloaded task would end with `granted` and
`elapsed`, and a submission with `report`. -/
def reply : List UInt8 :=
  handleMessage parse serialize h ⟨granted, elapsed, submitResult report⟩ request

/-- The fields of the reply to a submission behind the id: 29 bytes for one that is turned
down, 28 while the monitor is not ready, at most 79 for a report. -/
def answerSize : Nat :=
  let decoded := decodeSubmission parse h request [] .empty
  if decoded.1 then
    match report decoded.2.2 with
    | none => resultSize false monitorNotReady {}
    | some result => resultSize true [] result
  else resultSize false invalidSubmission {}

/-- The id of a submission leaves room for the other fields of the reply. -/
def LeavesRoom : Prop :=
  ∀ submission, parse request = some (.workloadSubmission submission) →
    submission.workloadId.length + 10 + answerSize parse h report request ≤
      AsyncTransport.maxMessageSize.toNat

end Replies

section Receivable

variable {parse : ParseFromArray} {serialize : SerializeToArray} {request : List UInt8}
  (h : HashOrders) (granted : Bool) (elapsed : Duration) (report : WorkloadDAG → Option Report)

/-- The refusal of an unknown payload is a fixed text. -/
theorem length_unsupportedMessage : unsupportedMessage.length = 24 := by
  rw [unsupportedMessage, Utf8.toList_eq_data]
  rfl

theorem length_invalidSubmission : invalidSubmission.length = 27 := by
  rw [invalidSubmission, Utf8.toList_eq_data]
  rfl

theorem length_monitorNotReady : monitorNotReady.length = 26 := by
  rw [monitorNotReady, Utf8.toList_eq_data]
  rfl

theorem length_outOfMemory : outOfMemory.length = 21 := by
  rw [outOfMemory, Utf8.toList_eq_data]
  rfl

/-- A failed task's message has at most 21 bytes. -/
theorem length_errorMessage_le (outcomes : Outcomes) (taskId : TaskId) (profile : TaskProfile) :
    ((runOffloaded outcomes taskId profile).errorMessage.getD []).length ≤ 21 := by
  unfold runOffloaded execute
  split
  · exact Nat.zero_le _
  · exact Nat.le_of_eq length_outOfMemory

/-- Everything but a submission gets a short reply. -/
theorem length_reply_of_other (hsizes : EncodingSizes serialize)
    (hother : ∀ submission, parse request ≠ some (.workloadSubmission submission)) :
    (reply parse serialize h granted elapsed report request).length ≤ 90 := by
  have hresponse : ∀ success duration peakMemory errorMsg, errorMsg.length ≤ 24 →
      (encodeResponse serialize success duration peakMemory errorMsg []).length ≤ 90 := by
    intro success duration peakMemory errorMsg herror
    have := length_encodeResponse_le hsizes success duration peakMemory errorMsg
    omega
  have hunsupported := hresponse false 0 0 unsupportedMessage
    (Nat.le_of_eq length_unsupportedMessage)
  unfold reply handleMessage classify
  cases hparse : parse request with
  | none => exact hunsupported
  | some envelope =>
    cases envelope with
    | offloadRequest offload =>
      simp only [handleOffloadRequest, decodeRequest, hparse]
      exact hresponse _ _ _ _ (Nat.le_trans (length_errorMessage_le _ _ _) (by decide))
    | workloadSubmission submission => exact absurd hparse (hother submission)
    | offloadResponse response | workloadResult result | otherPayload => exact hunsupported

/-- The reply to a submission fits exactly when the id leaves room. -/
theorem length_reply_of_submission (hsizes : EncodingSizes serialize)
    {submission : WorkloadSubmission}
    (hparse : parse request = some (.workloadSubmission submission)) :
    (reply parse serialize h granted elapsed report request).length ≤
        AsyncTransport.maxMessageSize.toNat ↔
      submission.workloadId.length + 10 + answerSize parse h report request ≤
        AsyncTransport.maxMessageSize.toNat := by
  have hkind : classify parse request = .workloadSubmission := by
    rw [classify, hparse]
  have hid : (decodeSubmission parse h request [] .empty).2.1 = submission.workloadId := by
    rw [decodeSubmission_of_parse hparse]
  unfold reply handleMessage answerSize
  rw [hkind]
  simp only [handleWorkloadSubmission]
  generalize decodeSubmission parse h request [] .empty = decoded at hid ⊢
  obtain ⟨valid, workloadId, dag⟩ := decoded
  obtain rfl : workloadId = submission.workloadId := hid
  cases valid with
  | false =>
    exact length_encodeWorkloadResult_le_iff hsizes (Nat.le_of_eq length_invalidSubmission)
  | true =>
    simp only [submitResult, if_true]
    cases report dag with
    | none =>
      apply length_encodeWorkloadResult_le_iff hsizes
      rw [length_monitorNotReady]
      decide
    | some result => exact length_encodeWorkloadResult_le_iff hsizes (by decide)

/-- The reply fits exactly when the request leaves room. -/
theorem length_reply_le_iff (hsizes : EncodingSizes serialize) :
    (reply parse serialize h granted elapsed report request).length ≤
        AsyncTransport.maxMessageSize.toNat ↔
      LeavesRoom parse h report request := by
  by_cases hsubmission : ∃ submission, parse request = some (.workloadSubmission submission)
  · rcases hsubmission with ⟨submission, hparse⟩
    rw [length_reply_of_submission h granted elapsed report hsizes hparse]
    constructor
    · intro hroom other hother
      rw [hparse] at hother
      cases hother
      exact hroom
    · intro hroom
      exact hroom submission hparse
  · have hother := not_exists.1 hsubmission
    have hshort := length_reply_of_other h granted elapsed report hsizes hother
    constructor
    · intro _ submission hparse
      exact absurd hparse (hother submission)
    · intro _
      exact Nat.le_trans hshort (by decide)

/-- A client accepts a framed reply exactly when it is not too long. -/
theorem recvOnFd_encode_iff {client : Socket} (hclient : client.Smooth) (payload : ByteString)
    (hstream : client.incoming = Frame.encode payload) :
    (TcpTransport.recvOnFd client).1 = .ok payload ↔
      payload.length ≤ TcpTransport.maxMessageSize.toNat := by
  constructor
  · intro hok
    rcases TcpTransport.recvOnFd_consumes client with
      ⟨consumed, -, ⟨received, hreceived, -, hsize⟩ | ⟨⟨message, herror⟩, -⟩⟩
    · rw [hok] at hreceived
      cases hreceived
      exact hsize
    · rw [hok] at herror
      cases herror
  · intro hsize
    have hresult := (TcpTransport.recvOnFd_parse hclient).1
    have hparse := Frame.parse_encode hsize []
    rw [List.append_nil] at hparse
    rw [hresult, hstream, hparse]
    rfl

/-- A request of at most the accepted size arrives, its reply is written back and read.
For every outcome of its execution the reply is at most as long as the client accepts, and
is received, exactly when the id of a submission leaves room for the other fields. -/
theorem reply_receivable_iff (parse : ParseFromArray) (serialize : SerializeToArray)
    (hsizes : EncodingSizes serialize) (h : HashOrders) (granted : Bool) (elapsed : Duration)
    (report : WorkloadDAG → Option Report) (request after : List UInt8)
    (hrequest : request.length ≤ AsyncTransport.maxMessageSize.toNat) (server client : Socket)
    (hserver : server.Smooth) (hclient : client.Smooth)
    (hasked : server.incoming = Frame.encode request ++ after)
    (hanswered : client.incoming =
      (AsyncTransport.handleConnection (reply parse serialize h granted elapsed report) false
        server).2.outgoing.drop server.outgoing.length) :
    ((reply parse serialize h granted elapsed report request).length ≤
        AsyncTransport.maxMessageSize.toNat ↔ LeavesRoom parse h report request) ∧
      ((TcpTransport.recvOnFd client).1 =
        .ok (reply parse serialize h granted elapsed report request) ↔
          LeavesRoom parse h report request) := by
  have hreply : (reply parse serialize h granted elapsed report request).length ≤
      AsyncTransport.maxMessageSize.toNat ↔ LeavesRoom parse h report request :=
    length_reply_le_iff h granted elapsed report hsizes
  rw [AsyncTransport.handleConnection_answers _ hserver hrequest hasked, List.drop_left]
    at hanswered
  exact ⟨hreply, (recvOnFd_encode_iff hclient _ hanswered).trans hreply⟩

/-- A refused workload costs its message alone. -/
theorem resultSize_of_error (errorMsg : ByteString) :
    resultSize false errorMsg {} = textSize errorMsg := by
  simp [resultSize, integerSize, durationToWire]

/-- The other fields of the reply to a submission are short. -/
theorem answerSize_le (parse : ParseFromArray) (h : HashOrders)
    (report : WorkloadDAG → Option Report) (request : List UInt8) :
    answerSize parse h report request ≤ 79 := by
  unfold answerSize
  simp only
  split
  · split
    · rw [resultSize_of_error]
      have := textSize_le monitorNotReady
      have := length_monitorNotReady
      omega
    · rename_i result _
      have hsize := resultSize_le true [] result
      have haccepted : integerSize (true : Bool).toNat = 2 := rfl
      have hno : textSize [] = 0 := rfl
      omega
  · rw [resultSize_of_error]
    have := textSize_le invalidSubmission
    have := length_invalidSubmission
    omega

/-- A chain of two tasks, submitted under the id `w`. -/
def namedChain : WorkloadSubmission :=
  { chainSubmission with workloadId := [0x77] }

def namedBytes : List UInt8 :=
  wireBytes (.workloadSubmission namedChain)

/-- Both tasks have been run here. -/
def bothRun : WorkloadDAG → Option Report := fun _ =>
  some { counters := ⟨2, 0, 2, 0, 0⟩, estimatedMakespan := 30, totalDuration := 35 }

/-- A server that is asked to run the chain. -/
def chainServer : Socket :=
  { incoming := Frame.encode namedBytes ++ [], outgoing := [], transfers := [.moves 5],
    waits := [] }

/-- A client that reads the reply in pieces. -/
def chainClient : Socket :=
  { incoming := (AsyncTransport.handleConnection
      (reply parseWire wireBytes .insertion true 7 bothRun) false
      chainServer).2.outgoing.drop chainServer.outgoing.length
    outgoing := []
    transfers := [.moves 2]
    waits := [true] }

theorem reply_receivable_namedChain :
    parseWire namedBytes = some (.workloadSubmission namedChain) ∧
      (TcpTransport.recvOnFd chainClient).1 =
        .ok (reply parseWire wireBytes .insertion true 7 bothRun namedBytes) := by
  have hparse : parseWire namedBytes = some (.workloadSubmission namedChain) := by
    decide
  refine ⟨hparse, ?_⟩
  apply (reply_receivable_iff parseWire wireBytes (fun _ => rfl) .insertion true 7 bothRun
    namedBytes [] (by decide) chainServer chainClient (by decide) (by decide) rfl rfl).2.2
  intro submission hsubmission
  rw [hparse] at hsubmission
  cases hsubmission
  have hmax : AsyncTransport.maxMessageSize.toNat = 16777216 := rfl
  have hid : namedChain.workloadId.length = 1 := rfl
  have := answerSize_le parseWire .insertion bothRun namedBytes
  omega

end Receivable

/-! ## A reply that is refused -/

section Refused

variable {parse : ParseFromArray} {serialize : SerializeToArray} {request : List UInt8}
  {workloadId : ByteString}

/-- A submission without tasks is turned down, and its id repeated. -/
theorem reply_of_no_tasks
    (hparse : parse request = some (.workloadSubmission { workloadId := workloadId }))
    (h : HashOrders) (granted : Bool) (elapsed : Duration)
    (report : WorkloadDAG → Option Report) :
    reply parse serialize h granted elapsed report request =
      encodeWorkloadResult serialize workloadId false invalidSubmission {} := by
  have hdecoded : decodeSubmission parse h request [] .empty = (false, workloadId, .empty) := by
    rw [decodeSubmission_of_parse hparse]
    rfl
  unfold reply handleMessage
  rw [classify, hparse]
  simp only [handleWorkloadSubmission, hdecoded]

theorem length_wireBytes_no_tasks (workloadId : ByteString) :
    (wireBytes (.workloadSubmission { workloadId := workloadId })).length =
      1 + (varint (textSize workloadId)).length + textSize workloadId := by
  rw [wireBytes, Envelope.fields, length_encodeFields_bytes (by decide)]
  simp only [WorkloadSubmission.fields, List.map_nil, List.append_nil]
  rw [length_encodeFields_bytesField (by decide)]

/-- A longer payload is refused by the receiver. -/
theorem recvOnFd_ne_ok_of_lt {payload : ByteString}
    (hlong : TcpTransport.maxMessageSize.toNat < payload.length) :
    (TcpTransport.recvOnFd
      { incoming := Frame.encode payload, outgoing := [], transfers := [], waits := [] }).1 ≠
        .ok payload := by
  intro hok
  have hsize := (recvOnFd_encode_iff (by simp [Socket.Smooth]) payload rfl).1 hok
  exact absurd hlong (not_lt.2 hsize)

/-- An id that fills a submission of the largest size accepted. -/
def longId : ByteString :=
  List.replicate 16777206 0x61

theorem length_longId : longId.length = 16777206 :=
  List.length_replicate

theorem textSize_longId : textSize longId = 16777211 := by
  have hne : longId ≠ [] := by
    intro hnil
    have hlength := length_longId
    rw [hnil] at hlength
    cases hlength
  rw [textSize, if_neg hne, length_longId, length_varint_eq_four (by decide) (by decide)]

theorem parseWire_longId :
    (wireBytes (.workloadSubmission { workloadId := longId })).length = 16777216 ∧
      parseWire (wireBytes (.workloadSubmission { workloadId := longId })) =
        some (.workloadSubmission { workloadId := longId }) := by
  have hlength : (wireBytes (.workloadSubmission { workloadId := longId })).length =
      16777216 := by
    rw [length_wireBytes_no_tasks, textSize_longId, length_varint_eq_four (by decide) (by decide)]
  refine ⟨hlength, protobuf_wire.parse_serialize _ ?_ ?_⟩
  · intro text htext
    obtain rfl : text = longId := List.mem_singleton.1 htext
    apply Utf8.isUtf8_of_ascii
    intro byte hbyte
    rw [List.eq_of_mem_replicate hbyte]
    decide
  · rw [hlength]
    decide

/-- The request is as long as one may be; the reply repeats its id next to an error text
and is 29 bytes longer, and the client refuses it. -/
theorem reply_too_large :
    (wireBytes (.workloadSubmission { workloadId := longId })).length =
        AsyncTransport.maxMessageSize.toNat ∧
      (reply parseWire wireBytes .insertion true 0 (fun _ => some {})
        (wireBytes (.workloadSubmission { workloadId := longId }))).length =
          AsyncTransport.maxMessageSize.toNat + 29 ∧
      (TcpTransport.recvOnFd
        { incoming := Frame.encode (reply parseWire wireBytes .insertion true 0
            (fun _ => some {}) (wireBytes (.workloadSubmission { workloadId := longId }))),
          outgoing := [], transfers := [], waits := [] }).1 ≠
        .ok (reply parseWire wireBytes .insertion true 0 (fun _ => some {})
          (wireBytes (.workloadSubmission { workloadId := longId }))) := by
  have hmax : AsyncTransport.maxMessageSize.toNat = 16777216 := rfl
  have hrest : resultSize false invalidSubmission {} = 29 := by
    have hne : invalidSubmission ≠ [] := by
      intro hnil
      have hlength := length_invalidSubmission
      rw [hnil] at hlength
      cases hlength
    rw [resultSize_of_error, textSize, if_neg hne, length_invalidSubmission]
    rfl
  have hreply : (reply parseWire wireBytes .insertion true 0 (fun _ => some {})
      (wireBytes (.workloadSubmission { workloadId := longId }))).length = 16777245 := by
    rw [reply_of_no_tasks parseWire_longId.2, length_encodeWorkloadResult (fun _ => rfl),
      textSize_longId, hrest, length_varint_eq_four (by decide) (by decide)]
  refine ⟨parseWire_longId.1, hreply, ?_⟩
  apply recvOnFd_ne_ok_of_lt
  rw [hreply]
  decide

end Refused

end OffloadCodec

end EdgeOrchestrator
