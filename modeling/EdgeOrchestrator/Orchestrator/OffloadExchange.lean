import EdgeOrchestrator.Network.Connections
import EdgeOrchestrator.Orchestrator.ReplySize

/-!
# An offload from one node to another

`offload_to_peer` on one node against the offload server of another one: the client
looks up the endpoint, connects, sends the request and waits for the reply; the server
reads one request, hands it to `handle_message` and writes the reply.  Between them is a
stream in each direction that delivers a beginning of what was handed over.  Calls may
fail on either side at any point, and the server may be stopping.

When the round trip breaks the client runs the task itself, so what matters is that a
round trip counts as successful only if the peer has run this very task.

Main results:

- `handleMessage_encodeRequest`: the server runs the task of the request with its profile, and
  its reply says how that ended.
- `offload_faithful`: an offload that is reported as done has been run once by the peer, with
  the outcome that is reported; and undisturbed offloads are done.
-/

namespace EdgeOrchestrator

open TcpTransport (connect connect_ok_iff maxMessageSize receive recvOnFd recvOnFd_consumes
  recvOnFd_parse send sendOnFd sendOnFd_encode sendOnFd_ok sendOnFd_prefix)

namespace OffloadExchange

open OffloadCodec SubmitWorkload TaskRunner Utf8

/-! ## The client -/

/-- What the client looks at in a decoded response. -/
def decodedReply (parse : ParseFromArray) (reply : List UInt8) : Option DecodedReply :=
  (decodeResponse parse reply).map fun (success, duration, _, errorMsg, _) =>
    ⟨success, duration, errorMsg⟩

/-- The calls of `offload_to_peer`, each on the transport that the one before it left. -/
def roundTrip (parse : ParseFromArray) (serialize : SerializeToArray) (view : ClusterViewManager)
    (taskId : TaskId) (profile : TaskProfile) (target : NodeId)
    (script : TcpTransport.ConnectScript) (client : Socket) : RoundTrip :=
  let peer := view.peerInfo target
  let connected := connect none ((peer.map PeerInfo.address).getD []) script client
  let sent := send connected.2 (encodeRequest serialize taskId profile [])
  let received := receive sent.2
  { peer := peer
    connect := connected.1
    send := sent.1.mapError text
    receive := (received.1.mapError text).map (decodedReply parse) }

/-! ## The connection -/

/-- Both ends are new, and each side receives a beginning of what the other one has
handed over. -/
structure Joined (handler : ByteString → ByteString) (stopping : Bool) (request : ByteString)
    (client server : Socket) : Prop where
  client_new : client.outgoing = []
  server_new : server.outgoing = []
  request : server.incoming <+: (sendOnFd client request).2.outgoing
  reply : client.incoming <+:
    (AsyncTransport.handleConnection handler stopping server).2.outgoing

section Exchange

variable {handler : ByteString → ByteString} {stopping : Bool} {request : ByteString}
  {client server : Socket}

/-- A request that is too large is not sent. -/
theorem sendOnFd_tooLarge (client : Socket)
    (hlarge : ¬ request.length ≤ maxMessageSize.toNat) :
    sendOnFd client request = (.error "Message too large", client) :=
  if_pos (not_le.1 hlarge)

theorem encode_ne_nil (payload : ByteString) : Frame.encode payload ≠ [] := by
  intro hnil
  have hlength := Frame.length_encode payload
  rw [hnil, List.length_nil] at hlength
  omega

/-- The server is called with the request that was sent, or not at all. -/
theorem Joined.served (h : Joined handler stopping request client server) :
    (AsyncTransport.handleConnection handler stopping server).1 = [] ∨
      (AsyncTransport.handleConnection handler stopping server).1 = [request] := by
  have hmax : maxMessageSize.toNat = 16777216 := rfl
  have hpart := h.request
  rcases AsyncTransport.handleConnection_cases handler stopping server with
    ⟨hnone, -⟩ | ⟨payload, rest, -, hone, -, hsize, hstream, -, -⟩
  · exact Or.inl hnone
  · right
    rw [hstream] at hpart
    by_cases hrequest : request.length ≤ maxMessageSize.toNat
    · rcases sendOnFd_prefix client request with ⟨sent, hsent, hout, -, -⟩
      rw [hout, h.client_new, List.nil_append] at hpart
      rw [hone, Frame.eq_of_prefix hsize (by omega) (hpart.trans hsent)]
    · rw [sendOnFd_tooLarge client hrequest, h.client_new] at hpart
      have hnil := List.append_eq_nil_iff.1 (List.prefix_nil.1 hpart)
      exact absurd hnil.1 (encode_ne_nil payload)

/-- A reply that arrives is the one that the handler returned for the request. -/
theorem Joined.reply_eq (h : Joined handler stopping request client server)
    (hresponse : (handler request).length < 2 ^ 32) {reply : ByteString}
    (hreply : (recvOnFd (sendOnFd client request).2).1 = .ok reply) :
    (AsyncTransport.handleConnection handler stopping server).1 = [request] ∧
      reply = handler request := by
  rcases sendOnFd_prefix client request with ⟨-, -, -, hincoming, -⟩
  -- What was received is a whole frame at the beginning of what the server wrote.
  rcases recvOnFd_consumes (sendOnFd client request).2 with
    ⟨consumed, hstream, ⟨payload, hok, rfl, hsize⟩ | ⟨⟨message, herror⟩, -⟩⟩
  · rw [hreply] at hok
    cases hok
    have hwritten := h.reply
    rw [← hincoming, hstream] at hwritten
    rcases AsyncTransport.handleConnection_cases handler stopping server with
      ⟨-, hout⟩ | ⟨request', rest, sent, hone, -, -, -, hsent, hout⟩
    · rw [hout, h.server_new] at hwritten
      have hnil := List.append_eq_nil_iff.1 (List.prefix_nil.1 hwritten)
      exact absurd hnil.1 (encode_ne_nil reply)
    · have hcalled : request' = request := by
        rcases h.served with hnone | hsame
        · rw [hone] at hnone
          cases hnone
        · rw [hone] at hsame
          exact List.singleton_inj.1 hsame
      subst hcalled
      rw [hout, h.server_new, List.nil_append] at hwritten
      exact ⟨hone, Frame.eq_of_prefix hsize hresponse (hwritten.trans hsent)⟩
  · rw [hreply] at herror
    cases herror

end Exchange

/-! ## The server's answer -/

section Answer

variable {parse : ParseFromArray} {serialize : SerializeToArray} (h : HashOrders)
  (outcomes : Outcomes) {taskId : TaskId} {profile : TaskProfile}

/-- The response that `handle_offload_request` builds from a run. -/
def responseOf (serialize : SerializeToArray) (result : ExecutionResult) : List UInt8 :=
  encodeResponse serialize (result.finalState = .completed) result.actualDuration
    result.peakMemoryBytes (result.errorMessage.getD []) []

/-- The server runs the task that the request carries, with its profile. -/
theorem handleMessage_encodeRequest (hproto : Protobuf parse serialize) (hid : IsUtf8 taskId)
    (hcost : IsInt64 profile.computeCost)
    (hsize : (encodeRequest serialize taskId profile []).length < 2 ^ 31) :
    handleMessage parse serialize h outcomes (encodeRequest serialize taskId profile []) =
      responseOf serialize (runOffloaded outcomes taskId profile) := by
  rcases decode_encodeRequest hproto hid hcost hsize with ⟨hkind, hdecoded⟩
  simp only [handleMessage, hkind, handleOffloadRequest, hdecoded]
  rfl

theorem isInt64_actualDuration (helapsed : IsInt64 outcomes.elapsed) (taskId : TaskId)
    (profile : TaskProfile) :
    IsInt64 (runOffloaded outcomes taskId profile).actualDuration := by
  unfold runOffloaded execute
  split
  · exact helapsed
  · exact (by decide : IsInt64 0)

/-- The response is short. -/
theorem length_responseOf_le (hsizes : EncodingSizes serialize) (taskId : TaskId)
    (profile : TaskProfile) :
    (responseOf serialize (runOffloaded outcomes taskId profile)).length ≤ 87 := by
  have hresponse := length_encodeResponse_le hsizes
    ((runOffloaded outcomes taskId profile).finalState = .completed)
    (runOffloaded outcomes taskId profile).actualDuration
    (runOffloaded outcomes taskId profile).peakMemoryBytes
    ((runOffloaded outcomes taskId profile).errorMessage.getD [])
  have herror := length_errorMessage_le outcomes taskId profile
  unfold responseOf
  omega

/-- The client reads back how the run ended. -/
theorem decodedReply_responseOf (hproto : Protobuf parse serialize)
    (hsizes : EncodingSizes serialize) (helapsed : IsInt64 outcomes.elapsed) (taskId : TaskId)
    (profile : TaskProfile) :
    decodedReply parse (responseOf serialize (runOffloaded outcomes taskId profile)) =
      some ⟨(runOffloaded outcomes taskId profile).finalState = .completed,
        (runOffloaded outcomes taskId profile).actualDuration,
        (runOffloaded outcomes taskId profile).errorMessage.getD []⟩ := by
  have hlength := length_responseOf_le outcomes hsizes taskId profile
  rw [decodedReply, responseOf, (decode_encodeResponse hproto
    (isUtf8_errorMessage outcomes taskId profile)
    (isInt64_actualDuration outcomes helapsed taskId profile)
    (by unfold responseOf at hlength; omega)).2]
  rfl

end Answer

/-! ## The round trip -/

theorem ok_of_toOption {ε α : Type} {r : Except ε α} {a : α} (h : r.toOption = some a) :
    r = .ok a := by
  cases r with
  | error e => cases h
  | ok b =>
    cases h
    rfl

/-- An answered round trip has succeeded in every step. -/
theorem answer_eq_some {trip : RoundTrip} {reply : DecodedReply} (h : trip.answer = some reply) :
    trip.connect = .ok () ∧ trip.send = .ok () ∧ trip.receive = .ok (some reply) := by
  unfold RoundTrip.answer at h
  simp only [Option.bind_eq_bind, Option.bind_eq_some_iff] at h
  rcases h with ⟨peer, -, h⟩
  split at h
  · cases h
  · rcases Option.bind_eq_some_iff.1 h with ⟨_, hconnect, h⟩
    rcases Option.bind_eq_some_iff.1 h with ⟨_, hsend, h⟩
    rcases Option.bind_eq_some_iff.1 h with ⟨received, hreceive, rfl⟩
    exact ⟨ok_of_toOption hconnect, ok_of_toOption hsend, ok_of_toOption hreceive⟩

section RoundTrip

variable {parse : ParseFromArray} {serialize : SerializeToArray} {taskId : TaskId}
  {profile : TaskProfile} {view : ClusterViewManager} {target : NodeId}
  {script : TcpTransport.ConnectScript} {client : Socket}

/-- The calls after the connection go to the socket it gave. -/
theorem roundTrip_connected
    (hconnect : (roundTrip parse serialize view taskId profile target script client).connect =
      .ok ()) :
    (roundTrip parse serialize view taskId profile target script client).send =
        (sendOnFd client (encodeRequest serialize taskId profile [])).1.mapError text ∧
      (roundTrip parse serialize view taskId profile target script client).receive =
        ((recvOnFd (sendOnFd client
          (encodeRequest serialize taskId profile [])).2).1.mapError text).map
            (decodedReply parse) := by
  have hsocket := connect_ok_iff.1 ⟨hconnect, rfl⟩
  simp only [roundTrip] at hsocket ⊢
  rw [hsocket]
  exact ⟨rfl, rfl⟩

theorem ok_of_mapError {ε ε' α : Type} {f : ε → ε'} {r : Except ε α} {a : α}
    (h : r.mapError f = .ok a) : r = .ok a := by
  cases r with
  | error e => cases h
  | ok b => simpa [Except.mapError] using h

end RoundTrip

variable {client server : Socket}

/-- A round trip that counts as successful was answered by the peer's one run of the
task. -/
theorem Joined.outcome_eq {parse : ParseFromArray} {serialize : SerializeToArray}
    (hproto : Protobuf parse serialize) (hsizes : EncodingSizes serialize) {taskId : TaskId}
    {profile : TaskProfile} (hid : IsUtf8 taskId) (hcost : IsInt64 profile.computeCost)
    {h : HashOrders} {outcomes : Outcomes} (helapsed : IsInt64 outcomes.elapsed)
    {view : ClusterViewManager} {target : NodeId} {script : TcpTransport.ConnectScript}
    {stopping : Bool}
    (hjoined : Joined (handleMessage parse serialize h outcomes) stopping
      (encodeRequest serialize taskId profile []) client server)
    (hok : (offloadToPeer target
      (roundTrip parse serialize view taskId profile target script client)).transportOk = true) :
    (AsyncTransport.handleConnection (handleMessage parse serialize h outcomes) stopping
        server).1 = [encodeRequest serialize taskId profile []] ∧
      offloadToPeer target (roundTrip parse serialize view taskId profile target script client) =
        ⟨true, (runOffloaded outcomes taskId profile).finalState = .completed,
          (runOffloaded outcomes taskId profile).actualDuration,
          (runOffloaded outcomes taskId profile).errorMessage.getD []⟩ := by
  have hmax : maxMessageSize.toNat = 16777216 := rfl
  have hlength := length_responseOf_le outcomes hsizes taskId profile
  have hdecoded := decodedReply_responseOf outcomes hproto hsizes helapsed taskId profile
  rw [← (offloadToPeer_spec _ _).2, Option.isSome_iff_exists] at hok
  rcases hok with ⟨response, hanswer⟩
  have houtcome := (offloadToPeer_spec target _).1 response hanswer
  rcases answer_eq_some hanswer with ⟨hconnect, hsend, hreceive⟩
  rcases roundTrip_connected hconnect with ⟨hsent, hreceived⟩
  rw [hsent] at hsend
  rw [hreceived] at hreceive
  have hrequest := (sendOnFd_ok (Prod.ext (ok_of_mapError hsend) rfl)).1
  have hreply := handleMessage_encodeRequest h outcomes hproto hid hcost (by omega)
  cases hgot : (recvOnFd (sendOnFd client
      (encodeRequest serialize taskId profile [])).2).1 with
  | error message =>
    rw [hgot] at hreceive
    cases hreceive
  | ok reply =>
    rcases hjoined.reply_eq (by rw [hreply]; omega) hgot with ⟨hserved, hsame⟩
    rw [hgot, hsame, hreply] at hreceive
    simp only [Except.mapError, Except.map, hdecoded, Except.ok.injEq, Option.some.injEq]
      at hreceive
    subst hreceive
    exact ⟨hserved, houtcome⟩

/-- Nothing fails, nothing is lost and the server is not stopping. -/
structure Undisturbed (handler : ByteString → ByteString) (stopping : Bool)
    (request : ByteString) (client server : Socket) : Prop where
  client_smooth : client.Smooth
  server_smooth : server.Smooth
  running : stopping = false
  request_whole : server.incoming = (sendOnFd client request).2.outgoing
  reply_whole : client.incoming =
    (AsyncTransport.handleConnection handler stopping server).2.outgoing

/-- An undisturbed request is answered. -/
theorem Joined.replied {handler : ByteString → ByteString} {stopping : Bool} {request : ByteString}
    (h : Joined handler stopping request client server)
    (hcalm : Undisturbed handler stopping request client server)
    (hrequest : request.length ≤ maxMessageSize.toNat)
    (hresponse : (handler request).length ≤ maxMessageSize.toNat) :
    (sendOnFd client request).1 = .ok () ∧
      (recvOnFd (sendOnFd client request).2).1 =
        .ok (handler request) := by
  rcases sendOnFd_encode hcalm.client_smooth hrequest with ⟨hsent, hout⟩
  refine ⟨hsent, ?_⟩
  have hstream : server.incoming = Frame.encode request ++ [] := by
    rw [hcalm.request_whole, hout, h.client_new, List.nil_append, List.append_nil]
  have hanswer := AsyncTransport.handleConnection_answers handler hcalm.server_smooth hrequest
    hstream
  rcases sendOnFd_prefix client request with ⟨-, -, -, hsame, hsmooth⟩
  have hincoming : (sendOnFd client request).2.incoming =
      Frame.encode (handler request) ++ [] := by
    rw [hsame, hcalm.reply_whole, hcalm.running, hanswer, h.server_new, List.nil_append,
      List.append_nil]
  have hparse := (recvOnFd_parse (hsmooth hcalm.client_smooth)).1
  rw [hincoming, Frame.parse_encode hresponse] at hparse
  exact hparse

/-- Offloading is faithful, whatever fails on the way.  The peer's handler is called with
the request of this task or not at all.  An outcome that says `transport_ok` says how the
peer's one run of this task with this profile ended.  And an offload to a known endpoint
on which nothing fails says `transport_ok`. -/
theorem offload_faithful {parse : ParseFromArray} {serialize : SerializeToArray}
    (hproto : Protobuf parse serialize) (hsizes : EncodingSizes serialize) {taskId : TaskId}
    {profile : TaskProfile} (hid : IsUtf8 taskId) (hcost : IsInt64 profile.computeCost)
    (h : HashOrders) {outcomes : Outcomes} (helapsed : IsInt64 outcomes.elapsed)
    (view : ClusterViewManager) (target : NodeId) (script : TcpTransport.ConnectScript)
    {stopping : Bool}
    (hjoined : Joined (handleMessage parse serialize h outcomes) stopping
      (encodeRequest serialize taskId profile []) client server) :
    ((AsyncTransport.handleConnection (handleMessage parse serialize h outcomes) stopping
          server).1 = [] ∨
      (AsyncTransport.handleConnection (handleMessage parse serialize h outcomes) stopping
          server).1 = [encodeRequest serialize taskId profile []]) ∧
    ((offloadToPeer target
        (roundTrip parse serialize view taskId profile target script client)).transportOk = true →
      (AsyncTransport.handleConnection (handleMessage parse serialize h outcomes) stopping
          server).1 = [encodeRequest serialize taskId profile []] ∧
        offloadToPeer target (roundTrip parse serialize view taskId profile target script client) =
          ⟨true, (runOffloaded outcomes taskId profile).finalState = .completed,
            (runOffloaded outcomes taskId profile).actualDuration,
            (runOffloaded outcomes taskId profile).errorMessage.getD []⟩) ∧
    (Undisturbed (handleMessage parse serialize h outcomes) stopping
        (encodeRequest serialize taskId profile []) client server →
      (encodeRequest serialize taskId profile []).length ≤ maxMessageSize.toNat →
      (∃ peer, view.peerInfo target = some peer ∧ peer.address ≠ [] ∧ peer.tcpPort ≠ 0) →
      (roundTrip parse serialize view taskId profile target script client).connect = .ok () →
      (offloadToPeer target
        (roundTrip parse serialize view taskId profile target script client)).transportOk =
          true) := by
  have hmax : maxMessageSize.toNat = 16777216 := rfl
  have hlength := length_responseOf_le outcomes hsizes taskId profile
  have hdecoded := decodedReply_responseOf outcomes hproto hsizes helapsed taskId profile
  have hanswer := handleMessage_encodeRequest h outcomes hproto hid hcost
  refine ⟨hjoined.served, hjoined.outcome_eq hproto hsizes hid hcost helapsed, ?_⟩
  · intro hcalm hrequest hendpoint hconnect
    have hreply := hanswer (by omega)
    rcases roundTrip_connected hconnect with ⟨hsent, hreceived⟩
    rcases hjoined.replied hcalm hrequest (by rw [hreply]; omega) with ⟨hsend, hrecv⟩
    rw [hsend] at hsent
    rw [hrecv, hreply] at hreceived
    simp only [Except.mapError, Except.map, hdecoded] at hsent hreceived
    rcases hendpoint with ⟨peer, hpeer, haddress, hport⟩
    have hknown : (roundTrip parse serialize view taskId profile target script client).peer =
        some peer := hpeer
    simp only [offloadToPeer, hknown, haddress, hport, or_self, if_false, hconnect, hsent,
      hreceived]

/-! ## An offload that goes through -/

/-- The view of a node that has discovered the peer `b`. -/
def peerView : ClusterViewManager :=
  ClusterViewManager.after
    [.updatePeer
      { nodeId := [0x62], resources := { nodeId := [0x62] }, address := text "10.0.0.2",
        tcpPort := 5202 }]

/-- A peer on which the task gets its memory and runs for seven microseconds. -/
def sampleOutcomes : Outcomes :=
  ⟨true, 7, fun _ => .error []⟩

def sampleRequest : ByteString :=
  encodeRequest wireBytes [116] { computeCost := 5 } []

def sampleHandler : ByteString → ByteString :=
  handleMessage parseWire wireBytes .insertion sampleOutcomes

/-- The client gets the reply in pieces; the server is blocked once. -/
def sampleClient : Socket :=
  ⟨Frame.encode (sampleHandler sampleRequest), [], [.moves 0, .moves 1], []⟩

def sampleServer : Socket :=
  ⟨Frame.encode sampleRequest, [], [.wouldBlock], []⟩

theorem sample_undisturbed :
    Undisturbed sampleHandler false sampleRequest sampleClient sampleServer := by
  have hclient : sampleClient.Smooth := ⟨by decide, by decide⟩
  have hserver : sampleServer.Smooth := ⟨by decide, by decide⟩
  have hsize : sampleRequest.length ≤ maxMessageSize.toNat := by decide
  refine ⟨hclient, hserver, rfl, ?_, ?_⟩
  · rw [(sendOnFd_encode hclient hsize).2]
    rfl
  · rw [AsyncTransport.handleConnection_answers sampleHandler hserver hsize
      (List.append_nil _).symm]
    rfl

theorem offload_faithful_sample :
    offloadToPeer [0x62] (roundTrip parseWire wireBytes peerView [116] { computeCost := 5 } [0x62]
      ⟨none, true, .inProgress true none⟩ sampleClient) = ⟨true, true, 7, []⟩ := by
  have hcalm := sample_undisturbed
  have hjoined : Joined sampleHandler false sampleRequest sampleClient sampleServer :=
    ⟨rfl, rfl, by rw [hcalm.request_whole], by rw [hcalm.reply_whole]⟩
  have hfaithful := offload_faithful protobuf_wire (fun _ => rfl) (by decide : IsUtf8 [116])
    (by decide : IsInt64 5) .insertion (by decide : IsInt64 sampleOutcomes.elapsed) peerView [0x62]
    ⟨none, true, .inProgress true none⟩ hjoined
  have hok := hfaithful.2.2 hcalm (by decide) ⟨_, rfl, by decide, by decide⟩ rfl
  exact (hfaithful.2.1 hok).2

end OffloadExchange

end EdgeOrchestrator
