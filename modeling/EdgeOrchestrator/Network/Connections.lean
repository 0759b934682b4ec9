import EdgeOrchestrator.Network.FrameAlignment

/-!
# Connections between two nodes

How a client gets connected, and what the two servers do with a connection when
anything may fail: sends and receives stop in the middle, the stream breaks off, the
server is stopping.  `AsyncTransport` serves the daemon, `TcpTransport::serve` tests
and tools.

Main results:

- `TcpTransport.connect_ok_iff`: a transport holds a descriptor exactly when `connect` has
  succeeded.
- `AsyncTransport.handleConnection_cases`: on every connection the handler is not called and
  nothing is written, or it is called once with the payload of the first frame and some
  beginning of the framed response is written.
- `servers_agree`: on undisturbed connections the two servers behave alike exactly when the
  response respects the cap.
-/

namespace EdgeOrchestrator

namespace TcpTransport

/-! ## Connecting -/

/-- The answer to `::connect` on a non-blocking socket. -/
inductive ConnectAnswer where
  | connected
  | refused (reason : ByteString)
  /-- `EINPROGRESS`: whether `poll` reports the socket in time, and then `SO_ERROR`. -/
  | inProgress (ready : Bool) (soError : Option ByteString)
deriving DecidableEq, Repr

/-- What the calls of `connect` return; a reason is the text of `strerror`. -/
structure ConnectScript where
  socketError : Option ByteString
  addressValid : Bool
  answer : ConnectAnswer
deriving DecidableEq, Repr

/-- `connection` is the socket on success.  Every failure after `::socket` closes the
descriptor again. -/
def connect (client : Option Socket) (address : ByteString) (script : ConnectScript)
    (connection : Socket) : Except ByteString Unit × Option Socket :=
  match client with
  | some socket => (.error (text "Already connected"), some socket)
  | none =>
    match script.socketError with
    | some reason => (.error (text "Failed to create socket: " ++ reason), none)
    | none =>
      if script.addressValid = false then (.error (text "Invalid address: " ++ address), none)
      else
        match script.answer with
        | .connected => (.ok (), some connection)
        | .refused reason => (.error (text "Connect failed: " ++ reason), none)
        | .inProgress false _ => (.error (text "Connect timed out"), none)
        | .inProgress true (some reason) => (.error (text "Connect failed: " ++ reason), none)
        | .inProgress true none => (.ok (), some connection)

/-- A transport that was not connected is so exactly after a success. -/
theorem connect_ok_iff {address : ByteString} {script : ConnectScript}
    {connection socket : Socket} :
    (connect none address script connection).1 = .ok () ∧ socket = connection ↔
      (connect none address script connection).2 = some socket := by
  unfold connect
  simp only
  split
  · simp
  · split
    · simp
    · split <;> simp [eq_comm]

/-! ## The blocking server -/

/-- One connection of `serve`: the requests the handler was called with, and the
socket.  The result of sending the response is not looked at. -/
def serveConnection (handler : ByteString → ByteString) (socket : Socket) :
    List ByteString × Socket :=
  match recvOnFd socket with
  | (.ok request, received) => ([request], (sendOnFd received (handler request)).2)
  | (.error _, received) => ([], received)

/-- Receiving writes nothing and leaves an undisturbed connection undisturbed. -/
theorem recvOnFd_keeps (socket : Socket) :
    (recvOnFd socket).2.outgoing = socket.outgoing ∧
      (socket.Smooth → (recvOnFd socket).2.Smooth) := by
  have hheader := recvAll_outcome socket 4
  unfold recvOnFd
  simp only
  split
  · exact ⟨hheader.reading.outgoing, hheader.smooth⟩
  split
  · exact ⟨hheader.reading.outgoing, hheader.smooth⟩
  split
  · have hpayload := recvAll_outcome (recvAll socket 4).2.2
      (decodeU32 (recvAll socket 4).2.1).toNat
    have hboth := hpayload.reading.outgoing.trans hheader.reading.outgoing
    split
    · exact ⟨hboth, fun hsmooth => hpayload.smooth (hheader.smooth hsmooth)⟩
    · exact ⟨hboth, fun hsmooth => hpayload.smooth (hheader.smooth hsmooth)⟩
  · exact ⟨hheader.reading.outgoing, hheader.smooth⟩

/-- What has been handed over of a frame is a beginning of it, and nothing is read. -/
theorem sendOnFd_prefix (socket : Socket) (data : ByteString) :
    ∃ sent, sent <+: Frame.encode data ∧
      (sendOnFd socket data).2.outgoing = socket.outgoing ++ sent ∧
      (sendOnFd socket data).2.incoming = socket.incoming ∧
      (socket.Smooth → (sendOnFd socket data).2.Smooth) := by
  have hheader := sendAll_outcome socket (encodeU32 (UInt32.ofNat data.length))
  rcases hheader.writing with ⟨done, hwriting, hdone⟩
  have hcut : (encodeU32 (UInt32.ofNat data.length)).take done <+: Frame.encode data :=
    (List.take_prefix _ _).trans (List.prefix_append _ _)
  unfold sendOnFd
  simp only
  split
  · exact ⟨[], List.nil_prefix, (List.append_nil _).symm, rfl, id⟩
  split
  · exact ⟨_, hcut, hwriting.outgoing, hwriting.incoming, hwriting.smooth⟩
  rename_i hsent
  have hwhole := hheader.outgoing_of_ok (by simpa using hsent)
  split
  · rcases (sendAll_outcome (sendAll socket (encodeU32 (UInt32.ofNat data.length))).2
      data).writing with ⟨more, hmore, -⟩
    have hout := hmore.outgoing
    rw [hwhole, List.append_assoc] at hout
    have hpart : encodeU32 (UInt32.ofNat data.length) ++ data.take more <+:
        Frame.encode data :=
      (List.prefix_append_right_inj _).2 (List.take_prefix more data)
    have hsmooth := fun h => hmore.smooth (hwriting.smooth h)
    split
    · exact ⟨_, hpart, hout, hmore.incoming.trans hwriting.incoming, hsmooth⟩
    · exact ⟨_, hpart, hout, hmore.incoming.trans hwriting.incoming, hsmooth⟩
  · exact ⟨_, List.prefix_append _ _, hwhole, hwriting.incoming, hwriting.smooth⟩

end TcpTransport

namespace Frame

/-- A frame that can be received and lies at the beginning of another one is that
frame. -/
theorem eq_of_prefix {p q rest : ByteString} (hp : p.length ≤ TcpTransport.maxMessageSize.toNat)
    (hq : q.length < 2 ^ 32) (h : encode p ++ rest <+: encode q) : p = q := by
  rcases h with ⟨after, hafter⟩
  have hmax : TcpTransport.maxMessageSize.toNat = 16777216 := rfl
  rw [encode, encode, List.append_assoc, List.append_assoc] at hafter
  have hsame := congrArg ByteOrder.getU32 hafter
  rw [ByteOrder.getU32_putU32, ByteOrder.getU32_putU32] at hsame
  have hlength : p.length = q.length := by
    have hnat := congrArg UInt32.toNat hsame
    rw [UInt32.toNat_ofNat', UInt32.toNat_ofNat', Nat.mod_eq_of_lt (by omega),
      Nat.mod_eq_of_lt hq] at hnat
    exact hnat
  rw [hsame] at hafter
  have hpayload := List.append_cancel_left hafter
  exact (List.append_inj (hpayload.trans (List.append_nil q).symm) hlength).1

end Frame

namespace AsyncTransport

/-- What is written for a request is a beginning of the framed response. -/
theorem respond_prefix (handler : ByteString → ByteString) (socket : Socket)
    (payload : ByteString) :
    ∃ sent, sent <+: Frame.encode (handler payload) ∧
      (respond handler socket payload).outgoing = socket.outgoing ++ sent := by
  have hheader := writeExact_outcome socket
    (encodeU32Be (UInt32.ofNat (handler payload).length))
  unfold respond
  simp only
  split
  · rename_i hok
    have hwhole := hheader.outgoing_of_ok hok
    rcases (writeExact_outcome (writeExact socket
      (encodeU32Be (UInt32.ofNat (handler payload).length))).2
        (handler payload)).writing with ⟨done, hwriting, -⟩
    have hout := hwriting.outgoing
    rw [hwhole, List.append_assoc] at hout
    exact ⟨_, (List.prefix_append_right_inj _).2 (List.take_prefix done _), hout⟩
  · rcases hheader.writing with ⟨done, hwriting, -⟩
    exact ⟨_, (List.take_prefix done _).trans (List.prefix_append _ _), hwriting.outgoing⟩

/-- On every connection, whatever fails: the handler is not called and nothing is
written, or it is called once with the payload of the frame that the stream begins with,
and what is written is a beginning of the framed response. -/
theorem handleConnection_cases (handler : ByteString → ByteString) (stopping : Bool)
    (socket : Socket) :
    ((handleConnection handler stopping socket).1 = [] ∧
        (handleConnection handler stopping socket).2.outgoing = socket.outgoing) ∨
      ∃ request rest sent, (handleConnection handler stopping socket).1 = [request] ∧
        stopping = false ∧ request.length ≤ maxMessageSize.toNat ∧
        socket.incoming = Frame.encode request ++ rest ∧
        sent <+: Frame.encode (handler request) ∧
        (handleConnection handler stopping socket).2.outgoing = socket.outgoing ++ sent := by
  have hheader := readExact_outcome socket 4
  have hpayload : Socket.ReadOutcome (readExact socket 4).2.2
      (decodeU32Be (readExact socket 4).2.1).toNat
      (if decodeU32Be (readExact socket 4).2.1 = 0 then (true, [], (readExact socket 4).2.2)
        else readExact (readExact socket 4).2.2 (decodeU32Be (readExact socket 4).2.1).toNat) := by
    split
    · rename_i hzero
      rw [hzero]
      exact (Socket.reading_start _ _).complete (Nat.le_refl 0)
    · exact readExact_outcome _ _
  unfold handleConnection
  simp only
  generalize (if decodeU32Be (readExact socket 4).2.1 = 0 then
      (true, [], (readExact socket 4).2.2)
    else readExact (readExact socket 4).2.2 (decodeU32Be (readExact socket 4).2.1).toNat) =
      payload at hpayload ⊢
  split
  · rename_i hok
    have hfour := hheader.ok_iff.1 hok
    split
    · rename_i hcap
      split
      · rename_i hread
        right
        have hlength := hpayload.ok_iff.1 hread.1
        rcases respond_prefix handler payload.2.2 payload.2.1 with ⟨sent, hsent, hout⟩
        refine ⟨payload.2.1, payload.2.2.incoming, sent, rfl, by simpa using hread.2, ?_, ?_,
          hsent, ?_⟩
        · rw [hlength]
          exact UInt32.le_iff_toNat_le.1 hcap
        · rw [Frame.encode_eq_append hfour hlength, List.append_assoc, hpayload.reading.stream,
            hheader.reading.stream]
        · rw [hout, hpayload.reading.outgoing, hheader.reading.outgoing]
      · exact Or.inl ⟨rfl, hpayload.reading.outgoing.trans hheader.reading.outgoing⟩
    · exact Or.inl ⟨rfl, hheader.reading.outgoing⟩
  · exact Or.inl ⟨rfl, hheader.reading.outgoing⟩

end AsyncTransport

/-! ## Two servers -/

namespace TcpTransport

/-- What the blocking server does on an undisturbed connection. -/
theorem serveConnection_parse (handler : ByteString → ByteString) {socket : Socket}
    (hsmooth : socket.Smooth) :
    (serveConnection handler socket).1 = (Frame.parse socket.incoming).payload.toList ∧
      (serveConnection handler socket).2.incoming = (Frame.parse socket.incoming).rest ∧
      (serveConnection handler socket).2.outgoing = socket.outgoing ++
        (((Frame.parse socket.incoming).payload.toList.map handler).filter
          fun response => response.length ≤ maxMessageSize.toNat).flatMap Frame.encode := by
  rcases recvOnFd_parse hsmooth with ⟨hresult, hrest⟩
  rcases recvOnFd_keeps socket with ⟨hkeeps, hafter⟩
  have hsplit : recvOnFd socket = ((recvOnFd socket).1, (recvOnFd socket).2) := rfl
  unfold serveConnection
  rw [hsplit, hresult]
  generalize Frame.parse socket.incoming = verdict at hrest ⊢
  cases verdict with
  | complete payload rest =>
    rcases sendOnFd_prefix (recvOnFd socket).2 (handler payload) with ⟨-, -, -, hincoming, -⟩
    refine ⟨rfl, hincoming.trans hrest, ?_⟩
    simp only [report]
    by_cases hcap : (handler payload).length ≤ maxMessageSize.toNat
    · rw [(sendOnFd_encode (hafter hsmooth) hcap).2, hkeeps]
      simp [Frame.Verdict.payload, hcap]
    · have hrefused : sendOnFd (recvOnFd socket).2 (handler payload) =
          (.error "Message too large", (recvOnFd socket).2) :=
        if_pos (not_le.1 hcap)
      rw [hrefused]
      simp [Frame.Verdict.payload, hcap, hkeeps]
  | truncatedHeader | tooLarge length rest | truncatedPayload =>
    exact ⟨rfl, hrest, by simp [report, Frame.Verdict.payload, hkeeps]⟩

end TcpTransport

namespace AsyncTransport

/-- What the coroutine server writes on an undisturbed connection. -/
theorem handleConnection_outgoing (handler : ByteString → ByteString) {socket : Socket}
    (hsmooth : socket.Smooth) :
    (handleConnection handler false socket).2.outgoing = socket.outgoing ++
      ((Frame.parse socket.incoming).payload.toList.map handler).flatMap Frame.encode := by
  have hcalls := (handleConnection_parse handler hsmooth).1
  rcases handleConnection_cases handler false socket with
    ⟨hnone, hout⟩ | ⟨request, rest, -, hone, -, hsize, hstream, -, -⟩
  · rw [hnone] at hcalls
    rw [← hcalls, hout]
    simp
  · rw [hone] at hcalls
    rw [← hcalls, handleConnection_answers handler hsmooth hsize hstream]
    simp

end AsyncTransport

/-- The daemon's server and the blocking one call the handler alike and leave the same
bytes unread on every stream; they write the same bytes exactly when the response
respects the cap. -/
theorem servers_agree (handler : ByteString → ByteString) {blocking daemon : Socket}
    (hblocking : blocking.Smooth) (hdaemon : daemon.Smooth)
    (hincoming : blocking.incoming = daemon.incoming)
    (houtgoing : blocking.outgoing = daemon.outgoing) :
    (TcpTransport.serveConnection handler blocking).1 =
        (AsyncTransport.handleConnection handler false daemon).1 ∧
      (TcpTransport.serveConnection handler blocking).2.incoming =
        (AsyncTransport.handleConnection handler false daemon).2.incoming ∧
      ((TcpTransport.serveConnection handler blocking).2.outgoing =
          (AsyncTransport.handleConnection handler false daemon).2.outgoing ↔
        ∀ request ∈ (AsyncTransport.handleConnection handler false daemon).1,
          (handler request).length ≤ TcpTransport.maxMessageSize.toNat) := by
  rcases TcpTransport.serveConnection_parse handler hblocking with ⟨hcalls, hrest, hout⟩
  rcases AsyncTransport.handleConnection_parse handler hdaemon with ⟨hcalls', hrest'⟩
  have hout' := AsyncTransport.handleConnection_outgoing handler hdaemon
  rw [hincoming] at hcalls hrest hout
  refine ⟨hcalls.trans hcalls'.symm, hrest.trans hrest'.symm, ?_⟩
  rw [hout, hout', hcalls', houtgoing, List.append_cancel_left_eq]
  cases hpayload : (Frame.parse daemon.incoming).payload with
  | none => simp
  | some request =>
    by_cases hcap : (handler request).length ≤ TcpTransport.maxMessageSize.toNat
    · simp [hcap]
    · -- Nothing against a header at least.
      have hframe : Frame.encode (handler request) ≠ [] := by
        intro hnil
        have hlength := Frame.length_encode (handler request)
        rw [hnil] at hlength
        simp at hlength
        omega
      simp [hcap, Ne.symm hframe]

/-- A request that arrives in pieces, answered with itself. -/
theorem servers_agree_echo :
    (TcpTransport.serveConnection id
      { incoming := [0, 0, 0, 2, 7, 8], outgoing := [], transfers := [.moves 0, .wouldBlock],
        waits := [] }).2.outgoing =
      (AsyncTransport.handleConnection id false
        { incoming := [0, 0, 0, 2, 7, 8], outgoing := [], transfers := [.moves 4],
          waits := [] }).2.outgoing := by
  refine (servers_agree id (by decide) (by decide) rfl rfl).2.2.2 ?_
  decide

end EdgeOrchestrator
