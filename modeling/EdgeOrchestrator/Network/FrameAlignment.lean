import EdgeOrchestrator.Library.ForLoop
import EdgeOrchestrator.Network.Framing

/-!
# Receiving after errors

A receive that gives up has taken bytes off the stream: some of the header, or the
header and some of the payload.  The transport keeps neither these bytes nor their
number, and it stays connected, so the next receive takes whatever follows for a
header.

Main results:

- `recvOnFd_consumes`: a receive takes one frame off the stream and returns its payload, or
  fails having taken no whole frame.
- `receive_aligned`: where every receive starts behind a whole number of frames, the payloads
  returned are those sent first, in their order.
- `receive_returns_unsent`: a receive after one that timed out behind the header returns bytes
  that nobody sent as a payload.
-/

namespace EdgeOrchestrator

namespace TcpTransport

/-! ## The client side of a transport -/

/-- `client` is the connected socket; there is none while `client_fd_` is negative. -/
def send (client : Option Socket) (data : ByteString) : Except String Unit × Option Socket :=
  match client with
  | none => (.error "Not connected", none)
  | some socket => ((sendOnFd socket data).1, some (sendOnFd socket data).2)

/-- An error leaves the transport connected. -/
def receive (client : Option Socket) : Except String ByteString × Option Socket :=
  match client with
  | none => (.error "Not connected", none)
  | some socket => ((recvOnFd socket).1, some (recvOnFd socket).2)

/-- `TcpTransport::disconnect`. -/
def disconnect (_client : Option Socket) : Option Socket :=
  none

/-- One send after the other: the results, and the transport. -/
def sends (client : Option Socket) : List ByteString → List (Except String Unit) × Option Socket
  | [] => ([], client)
  | data :: rest =>
    let first := send client data
    let later := sends first.2 rest
    (first.1 :: later.1, later.2)

/-- The calls of a client that only receives. -/
inductive ClientCall where
  | receive
  | disconnect
deriving DecidableEq, Repr

/-- A transport together with the payloads that its receives have returned. -/
structure Session where
  client : Option Socket
  returned : List ByteString

/-- One call of the client. -/
def Session.call (s : Session) : ClientCall → Session
  | .receive =>
    match (TcpTransport.receive s.client).1 with
    | .ok payload =>
      { client := (TcpTransport.receive s.client).2, returned := s.returned ++ [payload] }
    | .error _ => { s with client := (TcpTransport.receive s.client).2 }
  | .disconnect => { s with client := TcpTransport.disconnect s.client }

end TcpTransport

/-! ## Frames in a stream -/

namespace Frame

variable {p q : ByteString} {a b bytes : ByteString}

theorem length_encode (payload : ByteString) : (encode payload).length = 4 + payload.length := by
  rw [encode, List.length_append, ByteOrder.length_putU32]

/-- Two frames at the beginning of one stream are the same frame. -/
theorem encode_append_inj (hp : p.length ≤ TcpTransport.maxMessageSize.toNat)
    (hq : q.length ≤ TcpTransport.maxMessageSize.toNat) (heq : encode p ++ a = encode q ++ b) :
    p = q ∧ a = b := by
  have hparse := parse_encode hp a
  rw [heq, parse_encode hq b] at hparse
  injection hparse with hpayload hrest
  exact ⟨hpayload.symm, hrest.symm⟩

/-- The bytes begin with a frame that `send` can have written. -/
def Whole (bytes : ByteString) : Prop :=
  ∃ payload, payload.length ≤ TcpTransport.maxMessageSize.toNat ∧ encode payload <+: bytes

/-- A whole frame is as long as its header says. -/
theorem Whole.length_le (hwhole : Whole bytes) :
    ByteOrder.getU32 bytes ≤ TcpTransport.maxMessageSize ∧
      4 + (ByteOrder.getU32 bytes).toNat ≤ bytes.length := by
  rcases hwhole with ⟨payload, hsize, after, rfl⟩
  have hmax : TcpTransport.maxMessageSize.toNat = 16777216 := rfl
  have hlength : (UInt32.ofNat payload.length).toNat = payload.length := by
    rw [UInt32.toNat_ofNat']
    omega
  have hget : ByteOrder.getU32 (encode payload ++ after) = UInt32.ofNat payload.length := by
    rw [encode, List.append_assoc, ByteOrder.getU32_putU32]
  rw [hget, UInt32.le_iff_toNat_le, hlength, List.length_append, length_encode]
  exact ⟨hsize, Nat.le_add_right _ _⟩

/-- A header and as many bytes as it announces are a frame. -/
theorem encode_eq_append (hheader : a.length = 4)
    (hpayload : p.length = (ByteOrder.getU32 a).toNat) : encode p = a ++ p := by
  rw [encode, hpayload, UInt32.ofNat_toNat, ByteOrder.putU32_getU32 hheader]

theorem getU32_append (hheader : a.length = 4) :
    ByteOrder.getU32 (a ++ b) = ByteOrder.getU32 a := by
  rw [← ByteOrder.getU32_take (a ++ b), List.take_left' hheader]

end Frame

namespace TcpTransport

/-! ## One call -/

/-- A frame is reported as sent only when all of it has been handed over. -/
theorem sendOnFd_ok {socket t : Socket} {data : ByteString}
    (hsend : sendOnFd socket data = (.ok (), t)) :
    data.length ≤ maxMessageSize.toNat ∧ t.outgoing = socket.outgoing ++ Frame.encode data := by
  have hheader := sendAll_outcome socket (encodeU32 (UInt32.ofNat data.length))
  unfold sendOnFd at hsend
  simp only at hsend
  split at hsend
  · cases hsend
  rename_i hsize
  split at hsend
  · cases hsend
  rename_i hsent
  have hfirst := hheader.outgoing_of_ok (by simpa using hsent)
  refine ⟨not_lt.1 hsize, ?_⟩
  split at hsend
  · split at hsend
    · cases hsend
    rename_i hall
    cases hsend
    rw [(sendAll_outcome _ data).outgoing_of_ok (by simpa using hall), hfirst, List.append_assoc]
    rfl
  · rename_i hempty
    rw [not_not] at hempty
    cases hsend
    rw [hfirst, Frame.encode, hempty, List.append_nil]
    rfl

/-- The frames of the payloads follow each other in what has been handed over. -/
theorem sends_ok {payloads : List ByteString} {sender final : Socket}
    (hsent : sends (some sender) payloads = (payloads.map fun _ => .ok (), some final)) :
    (∀ payload ∈ payloads, payload.length ≤ maxMessageSize.toNat) ∧
      final.outgoing = sender.outgoing ++ payloads.flatMap Frame.encode := by
  induction payloads generalizing sender with
  | nil =>
    cases hsent
    simp
  | cons data rest ih =>
    simp only [sends, send, List.map_cons, Prod.mk.injEq, List.cons.injEq] at hsent
    rcases hsent with ⟨⟨hfirst, hlater⟩, hfinal⟩
    rcases sendOnFd_ok (Prod.ext hfirst rfl) with ⟨hsize, houtgoing⟩
    rcases ih (Prod.ext hlater hfinal) with ⟨hsizes, hrest⟩
    constructor
    · exact List.forall_mem_cons.2 ⟨hsize, hsizes⟩
    · rw [hrest, houtgoing, List.flatMap_cons, List.append_assoc]

/-- A receive takes one frame off the stream and returns its payload, or fails having
taken no whole frame.  Timeouts, closed connections and chunks do not matter. -/
theorem recvOnFd_consumes (socket : Socket) :
    ∃ consumed, socket.incoming = consumed ++ (recvOnFd socket).2.incoming ∧
      ((∃ payload, (recvOnFd socket).1 = .ok payload ∧ consumed = Frame.encode payload ∧
          payload.length ≤ maxMessageSize.toNat) ∨
        (∃ message, (recvOnFd socket).1 = .error message) ∧ ¬ Frame.Whole consumed) := by
  have hheader := recvAll_outcome socket 4
  have hstream := hheader.reading.stream
  unfold recvOnFd
  simp only
  split
  · -- Less than a header.
    rename_i hfail
    refine ⟨_, hstream.symm, Or.inr ⟨⟨_, rfl⟩, ?_⟩⟩
    intro hwhole
    have hle := hheader.reading.length_le
    have hne : (recvAll socket 4).2.1.length ≠ 4 := by
      intro hfour
      rw [hheader.ok_iff.2 hfour] at hfail
      cases hfail
    have := hwhole.length_le.2
    omega
  rename_i hok
  have hfour := hheader.ok_iff.1 (by simpa using hok)
  split
  · -- A header that announces too much.
    rename_i hlarge
    refine ⟨_, hstream.symm, Or.inr ⟨⟨_, rfl⟩, ?_⟩⟩
    intro hwhole
    exact absurd hwhole.length_le.1 (UInt32.not_le.2 hlarge)
  rename_i hsmall
  have hsize : (decodeU32 (recvAll socket 4).2.1).toNat ≤ maxMessageSize.toNat :=
    UInt32.le_iff_toNat_le.1 (UInt32.not_lt.1 hsmall)
  split
  · have hpayload := recvAll_outcome (recvAll socket 4).2.2
      (decodeU32 (recvAll socket 4).2.1).toNat
    have hall : socket.incoming = ((recvAll socket 4).2.1 ++ _) ++ _ :=
      hstream.symm.trans ((congrArg _ hpayload.reading.stream.symm).trans
        (List.append_assoc _ _ _).symm)
    split
    · -- A header and less than it announces.
      rename_i hfail
      refine ⟨_, hall, Or.inr ⟨⟨_, rfl⟩, ?_⟩⟩
      intro hwhole
      have hlong := hwhole.length_le.2
      rw [Frame.getU32_append hfour, List.length_append, hfour] at hlong
      have hlength := Nat.le_antisymm hpayload.reading.length_le (Nat.le_of_add_le_add_left hlong)
      rw [hpayload.ok_iff.2 hlength] at hfail
      cases hfail
    · rename_i hgot
      have hlength := hpayload.ok_iff.1 (by simpa using hgot)
      refine ⟨_, hall, Or.inl ⟨_, rfl, ?_, ?_⟩⟩
      · exact (Frame.encode_eq_append hfour hlength).symm
      · rw [hlength]
        exact hsize
  · -- The header of an empty payload.
    rename_i hzero
    refine ⟨_, hstream.symm, Or.inl ⟨[], rfl, ?_, Nat.zero_le _⟩⟩
    have hempty : (ByteOrder.getU32 (recvAll socket 4).2.1).toNat = 0 := by
      rw [gt_iff_lt, UInt32.lt_iff_toNat_lt] at hzero
      exact Nat.eq_zero_of_not_pos hzero
    rw [Frame.encode_eq_append (p := []) hfour hempty.symm, List.append_nil]

/-! ## A sequence of calls -/

section Alignment

variable {payloads : List ByteString} {stream : ByteString} {s : Session}

/-- What has been read of the stream is a whole number of the frames sent. -/
def Session.AtBoundary (payloads : List ByteString) (stream : ByteString) (s : Session) : Prop :=
  ∀ socket, s.client = some socket →
    ∃ count, stream = (payloads.take count).flatMap Frame.encode ++ socket.incoming

/-- The payloads returned are those sent first; behind their frames, less than a
frame has been lost. -/
structure Session.Aligned (payloads : List ByteString) (stream : ByteString) (s : Session) :
    Prop where
  returned : s.returned <+: payloads
  lost : ∀ socket, s.client = some socket → ∃ lost, ¬ Frame.Whole lost ∧
    stream = s.returned.flatMap Frame.encode ++ lost ++ socket.incoming

theorem not_whole_nil : ¬ Frame.Whole [] := by
  intro hwhole
  exact absurd hwhole.length_le.2 (by decide)

/-- At a boundary nothing has been lost. -/
theorem Session.Aligned.at_boundary (haligned : s.Aligned payloads stream)
    (hsizes : ∀ payload ∈ payloads, payload.length ≤ maxMessageSize.toNat)
    (hboundary : s.AtBoundary payloads stream) {socket : Socket}
    (hclient : s.client = some socket) :
    stream = s.returned.flatMap Frame.encode ++ socket.incoming := by
  rcases haligned.lost socket hclient with ⟨lost, hlost, hstream⟩
  rcases hboundary socket hclient with ⟨count, hcount⟩
  have hread : (payloads.take count).flatMap Frame.encode =
      s.returned.flatMap Frame.encode ++ lost :=
    List.append_cancel_right (hcount.symm.trans hstream)
  suffices hnil : lost = [] by
    rw [hstream, hnil, List.append_nil]
  rcases List.prefix_or_prefix_of_prefix haligned.returned (List.take_prefix count payloads) with
    ⟨more, hmore⟩ | ⟨more, hmore⟩
  · rw [← hmore, List.flatMap_append] at hread
    have hframes := List.append_cancel_left hread
    cases more with
    | nil => exact hframes.symm
    | cons payload more =>
      -- The next frame would have been read and not returned.
      have hmem : payload ∈ payloads := by
        apply List.mem_of_mem_take (i := count)
        rw [← hmore]
        simp
      exact absurd ⟨payload, hsizes payload hmem, _, hframes⟩ hlost
  · rw [← hmore, List.flatMap_append, List.append_assoc] at hread
    have hframes := List.append_cancel_left (hread.symm.trans (List.append_nil _).symm)
    exact (List.append_eq_nil_iff.1 hframes).2

/-- The frame read behind the frames of the first payloads is that of the next one. -/
theorem concat_prefix_of_stream {returned : List ByteString} {payload rest : ByteString}
    (hsizes : ∀ payload ∈ payloads, payload.length ≤ maxMessageSize.toNat)
    (hsize : payload.length ≤ maxMessageSize.toNat) (hreturned : returned <+: payloads)
    (hstream : returned.flatMap Frame.encode ++ (Frame.encode payload ++ rest) <+:
      payloads.flatMap Frame.encode) : returned ++ [payload] <+: payloads := by
  rcases hreturned with ⟨next, rfl⟩
  rcases hstream with ⟨unseen, hunseen⟩
  rw [List.flatMap_append, List.append_assoc, List.append_assoc] at hunseen
  have hframes := List.append_cancel_left hunseen
  cases next with
  | nil => simp [Frame.encode, ByteOrder.putU32] at hframes
  | cons first next =>
    rw [List.flatMap_cons] at hframes
    have hfirst := hsizes first (by simp)
    rcases Frame.encode_append_inj hsize hfirst hframes with ⟨rfl, -⟩
    exact ⟨next, by rw [List.append_assoc, List.singleton_append]⟩

/-- One call keeps the alignment, if a receive starts at a boundary. -/
theorem Session.Aligned.call (haligned : s.Aligned payloads stream)
    (hsizes : ∀ payload ∈ payloads, payload.length ≤ maxMessageSize.toNat)
    (hstream : stream <+: payloads.flatMap Frame.encode) (call : ClientCall)
    (hboundary : call = .receive → s.AtBoundary payloads stream) :
    (s.call call).Aligned payloads stream := by
  cases call with
  | disconnect => exact ⟨haligned.returned, fun socket hclient => by cases hclient⟩
  | receive =>
    unfold Session.call
    cases hclient : s.client with
    | none => exact ⟨haligned.returned, fun socket hclient => by cases hclient⟩
    | some socket =>
      have hread := haligned.at_boundary hsizes (hboundary rfl) hclient
      rcases recvOnFd_consumes socket with
        ⟨consumed, hconsumed, ⟨payload, hok, rfl, hsize⟩ | ⟨⟨message, herror⟩, hpart⟩⟩
      · simp only [TcpTransport.receive, hok]
        rw [hconsumed] at hread
        constructor
        · rw [hread] at hstream
          exact concat_prefix_of_stream hsizes hsize haligned.returned hstream
        · rintro after ⟨⟩
          refine ⟨[], not_whole_nil, ?_⟩
          rw [hread, List.flatMap_append]
          simp
      · simp only [TcpTransport.receive, herror]
        refine ⟨haligned.returned, ?_⟩
        rintro after ⟨⟩
        refine ⟨consumed, hpart, ?_⟩
        rw [hread, hconsumed, List.append_assoc]

/-- Frames are sent, and what arrives of them is read with any calls, in any chunks and
with any timeouts.  If every receive starts behind a whole number of frames, the payloads
returned at any time are those sent first, in their order. -/
theorem receive_aligned (sender final receiver : Socket) (payloads : List ByteString)
    (calls : List ClientCall)
    (hsent : sends (some sender) payloads = (payloads.map fun _ => .ok (), some final))
    (hstream : receiver.incoming <+: final.outgoing.drop sender.outgoing.length)
    (hboundary : ForLoop.Along
      (fun s call => call = .receive → s.AtBoundary payloads receiver.incoming)
      Session.call ⟨some receiver, []⟩ calls) :
    (calls.foldl Session.call ⟨some receiver, []⟩).returned <+: payloads := by
  rcases sends_ok hsent with ⟨hsizes, houtgoing⟩
  rw [houtgoing, List.drop_left] at hstream
  suffices haligned : (calls.foldl Session.call ⟨some receiver, []⟩).Aligned payloads
      receiver.incoming from haligned.returned
  refine hboundary.keeps ?_ ?_
  · intro s call hcall haligned
    exact haligned.call hsizes hstream call hcall
  · refine ⟨List.nil_prefix, ?_⟩
    rintro socket ⟨⟩
    exact ⟨[], not_whole_nil, rfl⟩

/-- A receiver of two frames in small pieces whose first wait ends without a byte. -/
def patient : Socket :=
  { incoming := [0, 0, 0, 2, 1, 2, 0, 0, 0, 1, 3], outgoing := [],
    transfers := [.moves 2, .wouldBlock, .moves 0, .moves 0], waits := [false] }

/-- The first call times out between two frames, so nothing is lost. -/
theorem receive_aligned_patient :
    ([.receive, .receive, .disconnect, .receive].foldl Session.call
        ⟨some patient, []⟩).returned = [[1, 2]] ∧
      ([.receive, .receive, .disconnect, .receive].foldl Session.call
        ⟨some patient, []⟩).returned <+: [[1, 2], [3]] := by
  refine ⟨rfl, ?_⟩
  apply receive_aligned trickling _ patient [[1, 2], [3]] _ rfl ⟨[], rfl⟩
  refine ⟨?_, ?_, ?_, ?_, trivial⟩
  · rintro - socket ⟨⟩
    exact ⟨0, rfl⟩
  · rintro - socket ⟨⟩
    exact ⟨0, rfl⟩
  · rintro ⟨⟩
  · rintro - socket ⟨⟩

/-- A receiver whose second wait, the one for the payload, times out. -/
def impatient : Socket :=
  { incoming := [0, 0, 0, 5, 0, 0, 0, 1, 7], outgoing := [], transfers := [],
    waits := [true, false] }

/-- One frame is sent.  The first receive times out behind its header; the second one
takes the payload for a frame and returns a byte that was not sent as a payload. -/
theorem receive_returns_unsent :
    sends (some trickling) [[0, 0, 0, 1, 7]] =
        ([.ok ()], some { trickling with outgoing := impatient.incoming, transfers := [] }) ∧
      ([.receive, .receive].foldl Session.call ⟨some impatient, []⟩).returned = [[7]] := by
  exact ⟨rfl, rfl⟩

end Alignment

end TcpTransport

end EdgeOrchestrator
