import EdgeOrchestrator.Core.Types
import EdgeOrchestrator.Library.ByteOrder
import EdgeOrchestrator.Library.Socket

/-!
# Framing

A message travels as four bytes of length, most significant first, and the
payload.  `TcpTransport` writes and reads frames on a blocking path that polls
before every call, `AsyncTransport` reads requests and writes responses on a path
that waits only after a call would have blocked.  Both bound the announced length.

Main results:

- `TcpTransport.recvAll_outcome` and `AsyncTransport.readExact_outcome`: either loop ends, and
  collects the first bytes of the stream.
- `TcpTransport.recvOnFd_parse` and `AsyncTransport.handleConnection_parse`: both read paths
  compute `Frame.parse`.
- `framing_agrees`: what one side sends the other receives, and the two read paths accept the
  same streams.
-/

namespace EdgeOrchestrator

/-! ## The blocking path -/

namespace TcpTransport

/-- `MAX_MESSAGE_SIZE`. -/
def maxMessageSize : UInt32 := 16 * 1024 * 1024

/-- The header of the blocking transport. -/
def encodeU32 (val : UInt32) : ByteString :=
  ByteOrder.putU32 val

/-- The length in a header. -/
def decodeU32 (buf : ByteString) : UInt32 :=
  ByteOrder.getU32 buf

/-- The loop variables of `send_all`; `ptr` is an index into the buffer. -/
structure SendLoop where
  socket : Socket
  ptr : Nat
  remaining : Nat

/-- One iteration: poll, then send what is left. -/
def sendAllStep (buf : ByteString) (s : SendLoop) : SendLoop ⊕ (Bool × Socket) :=
  if s.remaining > 0 then
    match s.socket.wait with
    | (false, socket) => .inr (false, socket)
    | (true, socket) =>
      match socket.send ((buf.drop s.ptr).take s.remaining) with
      | (.sent count, socket) =>
        .inl { socket, ptr := s.ptr + count, remaining := s.remaining - count }
      | (.again, socket) => .inl { s with socket }
      | (.failed, socket) => .inr (false, socket)
  else .inr (true, s.socket)

/-- The loop of `send_all`. -/
def sendAllFuel (fuel : Nat) (socket : Socket) (buf : ByteString) : Option (Bool × Socket) :=
  FuelLoop.run (sendAllStep buf) fuel { socket, ptr := 0, remaining := buf.length }

variable (socket : Socket)

/-- `send_all`, with enough fuel. -/
def sendAll (buf : ByteString) : Bool × Socket :=
  (sendAllFuel (socket.transfers.length + buf.length + 1) socket buf).getD (false, socket)

/-- The loop variables of `recv_all`; `buf` is the part that has been filled. -/
structure RecvLoop where
  socket : Socket
  buf : ByteString
  remaining : Nat

/-- One iteration: poll, then receive what is missing. -/
def recvAllStep (s : RecvLoop) : RecvLoop ⊕ (Bool × ByteString × Socket) :=
  if s.remaining > 0 then
    match s.socket.wait with
    | (false, socket) => .inr (false, s.buf, socket)
    | (true, socket) =>
      match socket.recv s.remaining with
      | (.bytes [], socket) => .inr (false, s.buf, socket)
      | (.bytes data, socket) =>
        .inl { socket, buf := s.buf ++ data, remaining := s.remaining - data.length }
      | (.again, socket) => .inl { s with socket }
      | (.failed, socket) => .inr (false, s.buf, socket)
  else .inr (true, s.buf, s.socket)

/-- The loop of `recv_all`. -/
def recvAllFuel (fuel : Nat) (socket : Socket) (len : Nat) : Option (Bool × ByteString × Socket) :=
  FuelLoop.run recvAllStep fuel { socket, buf := [], remaining := len }

/-- `recv_all`, with enough fuel. -/
def recvAll (len : Nat) : Bool × ByteString × Socket :=
  (recvAllFuel (socket.transfers.length + len + 1) socket len).getD (false, [], socket)

/-- `send_on_fd`: header, then payload. -/
def sendOnFd (data : ByteString) : Except String Unit × Socket :=
  if data.length > maxMessageSize.toNat then (.error "Message too large", socket)
  else
    let header := sendAll socket (encodeU32 (UInt32.ofNat data.length))
    if header.1 = false then (.error "Failed to send header", header.2)
    else if data ≠ [] then
      let payload := sendAll header.2 data
      if payload.1 = false then (.error "Failed to send payload", payload.2)
      else (.ok (), payload.2)
    else (.ok (), header.2)

/-- `recv_on_fd`: header, size check, payload. -/
def recvOnFd : Except String ByteString × Socket :=
  let header := recvAll socket 4
  if header.1 = false then (.error "Failed to receive header", header.2.2)
  else
    let length := decodeU32 header.2.1
    if length > maxMessageSize then
      (.error ("Message too large: " ++ toString length.toNat ++ " bytes"), header.2.2)
    else if length > 0 then
      let payload := recvAll header.2.2 length.toNat
      if payload.1 = false then (.error "Failed to receive payload", payload.2.2)
      else (.ok payload.2.1, payload.2.2)
    else (.ok [], header.2.2)

end TcpTransport

/-! ## The coroutine path -/

namespace AsyncTransport

/-- `MAX_MESSAGE_SIZE`. -/
def maxMessageSize : UInt32 := 16 * 1024 * 1024

/-- The header of the coroutine transport. -/
def encodeU32Be (val : UInt32) : ByteString :=
  ByteOrder.putU32 val

/-- The length in a header. -/
def decodeU32Be (buf : ByteString) : UInt32 :=
  ByteOrder.getU32 buf

/-- The loop variables of `read_exact`; `buf` is the part that has been filled. -/
structure ReadLoop where
  socket : Socket
  buf : ByteString
  done : Nat

/-- One iteration: receive, and park on the reactor if that would have blocked. -/
def readExactStep (len : Nat) (s : ReadLoop) : ReadLoop ⊕ (Bool × ByteString × Socket) :=
  if s.done < len then
    match s.socket.recv (len - s.done) with
    | (.bytes [], socket) => .inr (false, s.buf, socket)
    | (.bytes data, socket) =>
      .inl { socket, buf := s.buf ++ data, done := s.done + data.length }
    | (.failed, socket) => .inr (false, s.buf, socket)
    | (.again, socket) =>
      match socket.wait with
      | (false, socket) => .inr (false, s.buf, socket)
      | (true, socket) => .inl { s with socket }
  else .inr (true, s.buf, s.socket)

/-- The loop of `read_exact`. -/
def readExactFuel (fuel : Nat) (socket : Socket) (len : Nat) :
    Option (Bool × ByteString × Socket) :=
  FuelLoop.run (readExactStep len) fuel { socket, buf := [], done := 0 }

/-- `read_exact`, with enough fuel. -/
def readExact (socket : Socket) (len : Nat) : Bool × ByteString × Socket :=
  (readExactFuel (socket.transfers.length + len + 1) socket len).getD (false, [], socket)

/-- The variables of `write_exact`. -/
structure WriteLoop where
  socket : Socket
  done : Nat

/-- One iteration of `write_exact`. -/
def writeExactStep (buf : ByteString) (s : WriteLoop) : WriteLoop ⊕ (Bool × Socket) :=
  if s.done < buf.length then
    match s.socket.send ((buf.drop s.done).take (buf.length - s.done)) with
    | (.sent 0, socket) => .inr (false, socket)
    | (.sent count, socket) => .inl { socket, done := s.done + count }
    | (.failed, socket) => .inr (false, socket)
    | (.again, socket) =>
      match socket.wait with
      | (false, socket) => .inr (false, socket)
      | (true, socket) => .inl { s with socket }
  else .inr (true, s.socket)

/-- The loop of `write_exact`. -/
def writeExactFuel (fuel : Nat) (socket : Socket) (buf : ByteString) : Option (Bool × Socket) :=
  FuelLoop.run (writeExactStep buf) fuel { socket, done := 0 }

/-- `write_exact`, with enough fuel. -/
def writeExact (socket : Socket) (buf : ByteString) : Bool × Socket :=
  (writeExactFuel (socket.transfers.length + buf.length + 1) socket buf).getD (false, socket)

/-- Hand a payload to the handler and write the response. -/
def respond (handler : ByteString → ByteString) (socket : Socket) (payload : ByteString) : Socket :=
  let response := handler payload
  let header := writeExact socket (encodeU32Be (UInt32.ofNat response.length))
  if header.1 then (writeExact header.2 response).2 else header.2

/-- One connection up to its shutdown: the payloads the handler was called with, and
the socket.  `stopping` is what the flag holds when the payload has arrived. -/
def handleConnection (handler : ByteString → ByteString) (stopping : Bool) (socket : Socket) :
    List ByteString × Socket :=
  let header := readExact socket 4
  if header.1 then
    let length := decodeU32Be header.2.1
    if length ≤ maxMessageSize then
      let payload :=
        if length = 0 then (true, [], header.2.2) else readExact header.2.2 length.toNat
      if payload.1 ∧ !stopping then ([payload.2.1], respond handler payload.2.2 payload.2.1)
      else ([], payload.2.2)
    else ([], header.2.2)
  else ([], header.2.2)

end AsyncTransport

/-! ## The loops -/

section Loops

open Socket

variable {socket : Socket} {buf : ByteString} {len fuel : Nat}

namespace TcpTransport

theorem recvAllFuel_outcome (hfuel : socket.transfers.length + len < fuel) :
    ∃ r, recvAllFuel fuel socket len = some r ∧ ReadOutcome socket len r := by
  refine FuelLoop.run_total
    (I := fun s => Reading socket len s.socket s.buf ∧ s.remaining = len - s.buf.length)
    (fun s => s.socket.transfers.length + s.remaining) ?_
    ⟨reading_start socket len, rfl⟩ hfuel
  rintro s ⟨hreading, hremaining⟩
  unfold recvAllStep
  split
  · rename_i hmissing
    have hlt : s.buf.length < len := by omega
    split
    · rename_i polled hwait
      rcases hreading.waited hwait with ⟨hwaited, -, hready⟩
      exact hwaited.incomplete hlt fun hsmooth => absurd (hready hsmooth) (by decide)
    · rename_i polled hwait
      rcases hreading.waited hwait with ⟨hwaited, htransfers, -⟩
      rw [hremaining]
      split
      · rename_i received hrecv
        have hend := hwaited.received hrecv
        rw [List.append_nil] at hend
        exact hend.1.incomplete hlt fun _ => incoming_of_recv_nil (by omega) hrecv
      · rename_i data received hnonempty hrecv
        rcases hwaited.received hrecv with ⟨hreceived, hle⟩
        have hpos : 0 < data.length := List.length_pos_iff.2 hnonempty
        refine ⟨⟨hreceived, ?_⟩, ?_⟩
        · simp only [List.length_append]
          omega
        · rw [htransfers] at hle
          simp only
          omega
      · rename_i received hrecv
        rcases hwaited.again hrecv with ⟨hagain, hless⟩
        refine ⟨⟨hagain, rfl⟩, ?_⟩
        rw [htransfers] at hless
        simp only
        omega
      · rename_i received hrecv
        rcases hwaited.failed hrecv with ⟨hfailed, hrough⟩
        exact hfailed.incomplete hlt fun hsmooth => absurd hsmooth hrough
  · exact hreading.complete (by omega)

theorem recvAll_outcome (socket : Socket) (len : Nat) :
    ReadOutcome socket len (recvAll socket len) :=
  FuelLoop.getD_of_total (recvAllFuel_outcome (Nat.lt_succ_self _)) _

/-- The loop ends: more fuel changes nothing. -/
theorem recvAllFuel_eq (hfuel : socket.transfers.length + len < fuel) :
    recvAllFuel fuel socket len = some (recvAll socket len) :=
  FuelLoop.run_eq_getD (recvAllFuel_outcome (Nat.lt_succ_self _)) _ hfuel

theorem sendAllFuel_outcome (hfuel : socket.transfers.length + buf.length < fuel) :
    ∃ r, sendAllFuel fuel socket buf = some r ∧ WriteOutcome socket buf r := by
  refine FuelLoop.run_total
    (I := fun s => Writing socket buf s.socket s.ptr ∧ s.remaining = buf.length - s.ptr)
    (fun s => s.socket.transfers.length + s.remaining) ?_
    ⟨writing_start socket buf, rfl⟩ hfuel
  rintro s ⟨hwriting, hremaining⟩
  unfold sendAllStep
  split
  · rename_i hmissing
    have hlt : s.ptr < buf.length := by omega
    split
    · rename_i polled hwait
      rcases hwriting.waited hwait with ⟨hwaited, -, hready⟩
      exact hwaited.incomplete hlt fun hsmooth => absurd (hready hsmooth) (by decide)
    · rename_i polled hwait
      rcases hwriting.waited hwait with ⟨hwaited, htransfers, -⟩
      rw [hremaining]
      split
      · rename_i count sent hsend
        rcases hwaited.sent hsend with ⟨hsent, hle, hpos⟩
        have hcount := hpos hlt
        refine ⟨⟨hsent, ?_⟩, ?_⟩
        · simp only
          omega
        · rw [htransfers] at hle
          simp only
          omega
      · rename_i sent hsend
        rcases hwaited.again hsend with ⟨hagain, hless⟩
        refine ⟨⟨hagain, rfl⟩, ?_⟩
        rw [htransfers] at hless
        simp only
        omega
      · rename_i sent hsend
        rcases hwaited.failed hsend with ⟨hfailed, hrough⟩
        exact hfailed.incomplete hlt hrough
  · exact hwriting.complete (by omega)

theorem sendAll_outcome (socket : Socket) (buf : ByteString) :
    WriteOutcome socket buf (sendAll socket buf) :=
  FuelLoop.getD_of_total (sendAllFuel_outcome (Nat.lt_succ_self _)) _

theorem sendAllFuel_eq (hfuel : socket.transfers.length + buf.length < fuel) :
    sendAllFuel fuel socket buf = some (sendAll socket buf) :=
  FuelLoop.run_eq_getD (sendAllFuel_outcome (Nat.lt_succ_self _)) _ hfuel

end TcpTransport

namespace AsyncTransport

theorem readExactFuel_outcome (hfuel : socket.transfers.length + len < fuel) :
    ∃ r, readExactFuel fuel socket len = some r ∧ ReadOutcome socket len r := by
  refine FuelLoop.run_total
    (I := fun s => Reading socket len s.socket s.buf ∧ s.done = s.buf.length)
    (fun s => s.socket.transfers.length + (len - s.done)) ?_
    ⟨reading_start socket len, rfl⟩ hfuel
  rintro s ⟨hreading, hdone⟩
  unfold readExactStep
  rw [hdone]
  split
  · rename_i hlt
    split
    · rename_i received hrecv
      have hend := hreading.received hrecv
      rw [List.append_nil] at hend
      exact hend.1.incomplete hlt fun _ => incoming_of_recv_nil (by omega) hrecv
    · rename_i data received hnonempty hrecv
      rcases hreading.received hrecv with ⟨hreceived, hle⟩
      have hpos : 0 < data.length := List.length_pos_iff.2 hnonempty
      refine ⟨⟨hreceived, ?_⟩, ?_⟩
      · simp only [List.length_append]
      · simp only
        omega
    · rename_i received hrecv
      rcases hreading.failed hrecv with ⟨hfailed, hrough⟩
      exact hfailed.incomplete hlt fun hsmooth => absurd hsmooth hrough
    · rename_i received hrecv
      rcases hreading.again hrecv with ⟨hagain, hless⟩
      split
      · rename_i parked hwait
        rcases hagain.waited hwait with ⟨hwaited, -, hready⟩
        exact hwaited.incomplete hlt fun hsmooth => absurd (hready hsmooth) (by decide)
      · rename_i parked hwait
        rcases hagain.waited hwait with ⟨hwaited, htransfers, -⟩
        refine ⟨⟨hwaited, rfl⟩, ?_⟩
        simp only
        rw [htransfers]
        omega
  · exact hreading.complete (by omega)

theorem readExact_outcome (socket : Socket) (len : Nat) :
    ReadOutcome socket len (readExact socket len) :=
  FuelLoop.getD_of_total (readExactFuel_outcome (Nat.lt_succ_self _)) _

theorem readExactFuel_eq (hfuel : socket.transfers.length + len < fuel) :
    readExactFuel fuel socket len = some (readExact socket len) :=
  FuelLoop.run_eq_getD (readExactFuel_outcome (Nat.lt_succ_self _)) _ hfuel

theorem writeExactFuel_outcome (hfuel : socket.transfers.length + buf.length < fuel) :
    ∃ r, writeExactFuel fuel socket buf = some r ∧ WriteOutcome socket buf r := by
  refine FuelLoop.run_total (I := fun s => Writing socket buf s.socket s.done)
    (fun s => s.socket.transfers.length + (buf.length - s.done)) ?_
    (writing_start socket buf) hfuel
  intro s hwriting
  unfold writeExactStep
  split
  · rename_i hlt
    split
    · rename_i sent hsend
      exact absurd ((hwriting.sent hsend).2.2 hlt) (Nat.lt_irrefl 0)
    · rename_i count sent _ hsend
      rcases hwriting.sent hsend with ⟨hsent, hle, hpos⟩
      have hcount := hpos hlt
      refine ⟨hsent, ?_⟩
      simp only
      omega
    · rename_i sent hsend
      rcases hwriting.failed hsend with ⟨hfailed, hrough⟩
      exact hfailed.incomplete hlt hrough
    · rename_i sent hsend
      rcases hwriting.again hsend with ⟨hagain, hless⟩
      split
      · rename_i parked hwait
        rcases hagain.waited hwait with ⟨hwaited, -, hready⟩
        exact hwaited.incomplete hlt fun hsmooth => absurd (hready hsmooth) (by decide)
      · rename_i parked hwait
        rcases hagain.waited hwait with ⟨hwaited, htransfers, -⟩
        refine ⟨hwaited, ?_⟩
        simp only
        rw [htransfers]
        omega
  · exact hwriting.complete (by omega)

theorem writeExact_outcome (socket : Socket) (buf : ByteString) :
    WriteOutcome socket buf (writeExact socket buf) :=
  FuelLoop.getD_of_total (writeExactFuel_outcome (Nat.lt_succ_self _)) _

theorem writeExactFuel_eq (hfuel : socket.transfers.length + buf.length < fuel) :
    writeExactFuel fuel socket buf = some (writeExact socket buf) :=
  FuelLoop.run_eq_getD (writeExactFuel_outcome (Nat.lt_succ_self _)) _ hfuel

/-- Writing the response does not touch what has not been read. -/
theorem incoming_respond (handler : ByteString → ByteString) (socket : Socket)
    (payload : ByteString) : (respond handler socket payload).incoming = socket.incoming := by
  have hheader := (writeExact_outcome socket
    (encodeU32Be (UInt32.ofNat (handler payload).length))).incoming
  unfold respond
  simp only
  split
  · rw [(writeExact_outcome _ (handler payload)).incoming, hheader]
  · exact hheader

end AsyncTransport

end Loops

/-! ## What a stream says -/

namespace Frame

/-- A stream begins with a whole frame, or does not. -/
inductive Verdict where
  | complete (payload rest : ByteString)
  | truncatedHeader
  | tooLarge (length : UInt32) (rest : ByteString)
  | truncatedPayload

/-- The payload, if there is one. -/
def Verdict.payload : Verdict → Option ByteString
  | .complete payload _ => some payload
  | _ => none

/-- What a reader leaves behind. -/
def Verdict.rest : Verdict → ByteString
  | .complete _ rest => rest
  | .tooLarge _ rest => rest
  | _ => []

/-- Read a frame off the beginning of a stream. -/
def parse (stream : ByteString) : Verdict :=
  let length := ByteOrder.getU32 stream
  if stream.length < 4 then .truncatedHeader
  else if length > TcpTransport.maxMessageSize then .tooLarge length (stream.drop 4)
  else if stream.length < 4 + length.toNat then .truncatedPayload
  else .complete ((stream.drop 4).take length.toNat) ((stream.drop 4).drop length.toNat)

/-- The bytes that carry a payload. -/
def encode (payload : ByteString) : ByteString :=
  ByteOrder.putU32 (UInt32.ofNat payload.length) ++ payload

/-- A frame is recognised, whatever follows it. -/
theorem parse_encode {payload : ByteString}
    (hsize : payload.length ≤ TcpTransport.maxMessageSize.toNat) (after : ByteString) :
    parse (encode payload ++ after) = .complete payload after := by
  have hmax : TcpTransport.maxMessageSize.toNat = 16777216 := rfl
  have hlength : (UInt32.ofNat payload.length).toNat = payload.length := by
    rw [UInt32.toNat_ofNat']
    omega
  have hget : ByteOrder.getU32 (encode payload ++ after) = UInt32.ofNat payload.length := by
    rw [encode, List.append_assoc, ByteOrder.getU32_putU32]
  have hbytes : (encode payload ++ after).length = 4 + payload.length + after.length := by
    simp [encode, Nat.add_assoc]
  have hfit : ¬ UInt32.ofNat payload.length > TcpTransport.maxMessageSize := by
    rw [gt_iff_lt, UInt32.lt_iff_toNat_lt, hlength]
    omega
  have hdrop : (encode payload ++ after).drop 4 = payload ++ after := by
    rw [encode, List.append_assoc, List.drop_left' (ByteOrder.length_putU32 _)]
  unfold parse
  simp only [hget, hlength, hbytes, hdrop]
  rw [if_neg (by omega), if_neg hfit, if_neg (by omega), List.take_left, List.drop_left]

end Frame

/-! ## Both read paths parse frames -/

section Parse

open Socket

variable {socket : Socket}

namespace TcpTransport

/-- How `recv_on_fd` reports what it has found. -/
def report : Frame.Verdict → Except String ByteString
  | .complete payload _ => .ok payload
  | .truncatedHeader => .error "Failed to receive header"
  | .tooLarge length _ => .error ("Message too large: " ++ toString length.toNat ++ " bytes")
  | .truncatedPayload => .error "Failed to receive payload"

/-- Whatever the chunks, the result is that of parsing the stream. -/
theorem recvOnFd_parse (hsmooth : socket.Smooth) :
    (recvOnFd socket).1 = report (Frame.parse socket.incoming) ∧
      (recvOnFd socket).2.incoming = (Frame.parse socket.incoming).rest := by
  have hheader := recvAll_outcome socket 4
  have hafter := hheader.smooth hsmooth
  unfold recvOnFd Frame.parse
  simp only
  by_cases hshort : socket.incoming.length < 4
  · rcases hheader.eq_of_lt hsmooth hshort with ⟨hfail, hend⟩
    rw [if_pos hfail, if_pos hshort]
    exact ⟨rfl, hend⟩
  · rcases hheader.eq_of_le hsmooth (not_lt.1 hshort) with ⟨hok, hbytes, hrest⟩
    have hpayload := recvAll_outcome (recvAll socket 4).2.2
      (ByteOrder.getU32 socket.incoming).toNat
    have hlength : (recvAll socket 4).2.2.incoming.length = socket.incoming.length - 4 := by
      rw [hrest, List.length_drop]
    rw [hok, if_neg (by decide), if_neg hshort, hbytes, decodeU32, ByteOrder.getU32_take]
    by_cases hlarge : ByteOrder.getU32 socket.incoming > maxMessageSize
    · rw [if_pos hlarge, if_pos hlarge]
      exact ⟨rfl, hrest⟩
    · rw [if_neg hlarge, if_neg hlarge]
      by_cases hzero : ByteOrder.getU32 socket.incoming > 0
      · rw [if_pos hzero]
        by_cases hcut : socket.incoming.length < 4 + (ByteOrder.getU32 socket.incoming).toNat
        · rcases hpayload.eq_of_lt hafter (by omega) with ⟨hfail, hend⟩
          rw [if_pos hfail, if_pos hcut]
          exact ⟨rfl, hend⟩
        · rcases hpayload.eq_of_le hafter (by omega) with ⟨hgot, hdata, hleft⟩
          rw [hgot, if_neg (by decide), if_neg hcut]
          simp only [hdata, hleft, hrest]
          exact ⟨rfl, rfl⟩
      · have hempty : (ByteOrder.getU32 socket.incoming).toNat = 0 := by
          rw [gt_iff_lt, UInt32.lt_iff_toNat_lt] at hzero
          exact Nat.eq_zero_of_not_pos hzero
        rw [if_neg hzero, hempty, if_neg (by omega)]
        exact ⟨rfl, hrest⟩

/-- Without failures the frame is handed over whole. -/
theorem sendOnFd_encode {payload : ByteString} (hsmooth : socket.Smooth)
    (hsize : payload.length ≤ maxMessageSize.toNat) :
    (sendOnFd socket payload).1 = .ok () ∧
      (sendOnFd socket payload).2.outgoing = socket.outgoing ++ Frame.encode payload := by
  rcases (sendAll_outcome socket (encodeU32 (UInt32.ofNat payload.length))).eq_of_smooth hsmooth
    with ⟨hheader, hsent, hafter⟩
  unfold sendOnFd
  simp only
  rw [if_neg (not_lt.2 hsize), hheader, if_neg (by decide)]
  split
  · rcases (sendAll_outcome (sendAll socket (encodeU32 (UInt32.ofNat payload.length))).2
      payload).eq_of_smooth hafter with ⟨hpayload, hall, -⟩
    rw [hpayload, if_neg (by decide)]
    refine ⟨rfl, ?_⟩
    rw [hall, hsent, List.append_assoc]
    rfl
  · rename_i hempty
    rw [not_not] at hempty
    refine ⟨rfl, ?_⟩
    rw [hsent, Frame.encode, hempty, List.append_nil]
    rfl

end TcpTransport

namespace AsyncTransport

/-- Whatever the chunks, the handler is called with the payload of the frame that
the stream begins with, and not called without one. -/
theorem handleConnection_parse (handler : ByteString → ByteString) (hsmooth : socket.Smooth) :
    (handleConnection handler false socket).1 = (Frame.parse socket.incoming).payload.toList ∧
      (handleConnection handler false socket).2.incoming =
        (Frame.parse socket.incoming).rest := by
  have hheader := readExact_outcome socket 4
  have hafter := hheader.smooth hsmooth
  unfold handleConnection Frame.parse
  simp only
  by_cases hshort : socket.incoming.length < 4
  · rcases hheader.eq_of_lt hsmooth hshort with ⟨hfail, hend⟩
    rw [hfail, if_neg (by decide), if_pos hshort]
    exact ⟨rfl, hend⟩
  · rcases hheader.eq_of_le hsmooth (not_lt.1 hshort) with ⟨hok, hbytes, hrest⟩
    have hpayload := readExact_outcome (readExact socket 4).2.2
      (ByteOrder.getU32 socket.incoming).toNat
    have hlength : (readExact socket 4).2.2.incoming.length = socket.incoming.length - 4 := by
      rw [hrest, List.length_drop]
    rw [if_pos hok, if_neg hshort, hbytes, decodeU32Be, ByteOrder.getU32_take]
    have hcap : maxMessageSize = TcpTransport.maxMessageSize := rfl
    rw [hcap]
    by_cases hlarge : ByteOrder.getU32 socket.incoming > TcpTransport.maxMessageSize
    · rw [if_neg (UInt32.not_le.2 hlarge), if_pos hlarge]
      exact ⟨rfl, hrest⟩
    · rw [if_pos (UInt32.not_lt.1 hlarge), if_neg hlarge]
      by_cases hzero : ByteOrder.getU32 socket.incoming = 0
      · have hwhole : ¬ socket.incoming.length < 4 + UInt32.toNat 0 := hshort
        rw [if_pos hzero, hzero, if_neg hwhole]
        refine ⟨rfl, ?_⟩
        exact (incoming_respond handler _ _).trans hrest
      · rw [if_neg hzero]
        by_cases hcut : socket.incoming.length < 4 + (ByteOrder.getU32 socket.incoming).toNat
        · rcases hpayload.eq_of_lt hafter (by omega) with ⟨hfail, hend⟩
          rw [hfail, if_neg (by decide), if_pos hcut]
          exact ⟨rfl, hend⟩
        · rcases hpayload.eq_of_le hafter (by omega) with ⟨hgot, hdata, hleft⟩
          rw [hgot, if_pos (by decide), if_neg hcut, incoming_respond, hleft, hrest, hdata, hrest]
          exact ⟨rfl, rfl⟩

/-- Without failures the response is framed, whatever its size. -/
theorem respond_encode (handler : ByteString → ByteString) (hsmooth : socket.Smooth)
    (payload : ByteString) :
    (respond handler socket payload).outgoing =
      socket.outgoing ++ Frame.encode (handler payload) := by
  rcases (writeExact_outcome socket
    (encodeU32Be (UInt32.ofNat (handler payload).length))).eq_of_smooth hsmooth with
    ⟨hheader, hsent, hafter⟩
  rcases (writeExact_outcome (writeExact socket
    (encodeU32Be (UInt32.ofNat (handler payload).length))).2
      (handler payload)).eq_of_smooth hafter with ⟨-, hall, -⟩
  unfold respond
  simp only
  rw [if_pos hheader, hall, hsent, List.append_assoc]
  rfl

/-- A request is answered with the frame of what the handler returns for it. -/
theorem handleConnection_answers (handler : ByteString → ByteString) (hsmooth : socket.Smooth)
    {request after : ByteString} (hsize : request.length ≤ maxMessageSize.toNat)
    (hstream : socket.incoming = Frame.encode request ++ after) :
    (handleConnection handler false socket).2.outgoing =
      socket.outgoing ++ Frame.encode (handler request) := by
  have hcall := (handleConnection_parse handler hsmooth).1
  rw [hstream, Frame.parse_encode hsize] at hcall
  have hheader := readExact_outcome socket 4
  have hafter := hheader.smooth hsmooth
  unfold handleConnection at hcall ⊢
  simp only at hcall ⊢
  -- An empty payload is not read, with the outcome that reading it would have.
  have hpayload : ReadOutcome (readExact socket 4).2.2
      (decodeU32Be (readExact socket 4).2.1).toNat
      (if decodeU32Be (readExact socket 4).2.1 = 0 then (true, [], (readExact socket 4).2.2)
        else readExact (readExact socket 4).2.2 (decodeU32Be (readExact socket 4).2.1).toNat) := by
    split
    · rename_i hzero
      rw [hzero]
      exact (reading_start _ _).complete (Nat.le_refl 0)
    · exact readExact_outcome _ _
  generalize (if decodeU32Be (readExact socket 4).2.1 = 0 then
      (true, [], (readExact socket 4).2.2)
    else readExact (readExact socket 4).2.2 (decodeU32Be (readExact socket 4).2.1).toNat) =
      payload at hcall hpayload ⊢
  split at hcall
  · rename_i hok
    rw [if_pos hok]
    split at hcall
    · rename_i hlength
      rw [if_pos hlength]
      split at hcall
      · rename_i hread
        rw [if_pos hread]
        cases hcall
        rw [respond_encode handler (hpayload.smooth hafter), hpayload.reading.outgoing,
          hheader.reading.outgoing]
      · cases hcall
    · cases hcall
  · cases hcall

end AsyncTransport

end Parse

/-! ## The two implementations agree -/

/-- The stream ends inside the header, or inside the payload that it announces. -/
def Frame.Truncated (stream : ByteString) : Prop :=
  stream.length < 4 ∨ stream.length < 4 + (TcpTransport.decodeU32 stream).toNat

/-- The stream announces more than either implementation accepts. -/
def Frame.TooLarge (stream : ByteString) : Prop :=
  4 ≤ stream.length ∧ TcpTransport.maxMessageSize < TcpTransport.decodeU32 stream

theorem Frame.parse_of_tooLarge {stream : ByteString} (hlarge : TooLarge stream) :
    parse stream = .tooLarge (TcpTransport.decodeU32 stream) (stream.drop 4) := by
  unfold parse
  simp only
  rw [if_neg (not_lt.2 hlarge.1)]
  exact if_pos hlarge.2

theorem Frame.payload_parse_of_truncated {stream : ByteString} (hcut : Truncated stream) :
    (parse stream).payload = none := by
  unfold parse
  simp only
  split
  · rfl
  · rename_i hheader
    split
    · rfl
    · have hpayload := hcut.resolve_left hheader
      rw [TcpTransport.decodeU32] at hpayload
      rw [if_pos hpayload]
      rfl

/-- A payload that is sent is received, whatever chunks it travels in, and what
follows its frame stays unread.  On every stream the blocking reader and the server
accept the same payload or none; they reject what is cut short and what is too
large, the latter after the header.  The four loops end. -/
theorem framing_agrees (handler : ByteString → ByteString) :
    (∀ payload after : ByteString, ∀ sender receiver : Socket,
      payload.length ≤ TcpTransport.maxMessageSize.toNat → sender.Smooth → receiver.Smooth →
      receiver.incoming =
        (TcpTransport.sendOnFd sender payload).2.outgoing.drop sender.outgoing.length ++ after →
      (TcpTransport.sendOnFd sender payload).1 = .ok () ∧
        (TcpTransport.recvOnFd receiver).1 = .ok payload ∧
        (TcpTransport.recvOnFd receiver).2.incoming = after) ∧
    (∀ stream : ByteString, ∀ client server : Socket, client.Smooth → server.Smooth →
      client.incoming = stream → server.incoming = stream →
      (∀ payload, (TcpTransport.recvOnFd client).1 = .ok payload ↔
        (AsyncTransport.handleConnection handler false server).1 = [payload]) ∧
      ((∃ message, (TcpTransport.recvOnFd client).1 = .error message) ↔
        (AsyncTransport.handleConnection handler false server).1 = []) ∧
      (Frame.Truncated stream ∨ Frame.TooLarge stream →
        (AsyncTransport.handleConnection handler false server).1 = []) ∧
      (Frame.TooLarge stream →
        (TcpTransport.recvOnFd client).2.incoming = stream.drop 4 ∧
          (AsyncTransport.handleConnection handler false server).2.incoming =
            stream.drop 4)) ∧
    (∀ (socket : Socket) (buf : ByteString) (fuel : Nat),
      socket.transfers.length + buf.length < fuel →
      TcpTransport.sendAllFuel fuel socket buf = some (TcpTransport.sendAll socket buf) ∧
        AsyncTransport.writeExactFuel fuel socket buf =
          some (AsyncTransport.writeExact socket buf)) ∧
    ∀ (socket : Socket) (len fuel : Nat), socket.transfers.length + len < fuel →
      TcpTransport.recvAllFuel fuel socket len = some (TcpTransport.recvAll socket len) ∧
        AsyncTransport.readExactFuel fuel socket len =
          some (AsyncTransport.readExact socket len) := by
  refine ⟨?_, ?_, ?_, ?_⟩
  · intro payload after sender receiver hsize hsender hreceiver hincoming
    rcases TcpTransport.sendOnFd_encode hsender hsize with ⟨hok, houtgoing⟩
    rcases TcpTransport.recvOnFd_parse hreceiver with ⟨hresult, hrest⟩
    rw [hincoming, houtgoing, List.drop_left, Frame.parse_encode hsize] at hresult hrest
    exact ⟨hok, hresult, hrest⟩
  · rintro stream client server hclient hserver rfl hsame
    rcases TcpTransport.recvOnFd_parse hclient with ⟨hresult, hleft⟩
    rcases AsyncTransport.handleConnection_parse handler hserver with ⟨hcalls, hleft'⟩
    rw [hsame] at hcalls hleft'
    rw [hresult, hcalls, hleft, hleft']
    refine ⟨?_, ?_, ?_, ?_⟩
    · intro payload
      cases Frame.parse client.incoming <;> simp [TcpTransport.report, Frame.Verdict.payload]
    · cases Frame.parse client.incoming <;> simp [TcpTransport.report, Frame.Verdict.payload]
    · rintro (hcut | hlarge)
      · rw [Frame.payload_parse_of_truncated hcut]
        rfl
      · rw [Frame.parse_of_tooLarge hlarge]
        rfl
    · intro hlarge
      rw [Frame.parse_of_tooLarge hlarge]
      exact ⟨rfl, rfl⟩
  · intro socket buf fuel hfuel
    exact ⟨TcpTransport.sendAllFuel_eq hfuel, AsyncTransport.writeExactFuel_eq hfuel⟩
  · intro socket len fuel hfuel
    exact ⟨TcpTransport.recvAllFuel_eq hfuel, AsyncTransport.readExactFuel_eq hfuel⟩

/-- A sender that gets one byte across before it is blocked. -/
def trickling : Socket :=
  { incoming := [], outgoing := [], transfers := [.moves 0, .wouldBlock], waits := [] }

/-- Three bytes sent in pieces, the receiver seeing other pieces and a byte that
follows; and an announcement of more than the cap. -/
theorem framing_three_bytes :
    (TcpTransport.recvOnFd
      { incoming := (TcpTransport.sendOnFd trickling [1, 2, 3]).2.outgoing.drop 0 ++ [9],
        outgoing := [], transfers := [.moves 2, .moves 0, .wouldBlock, .moves 1],
        waits := [true] }).1 = .ok [1, 2, 3] ∧
    (AsyncTransport.handleConnection id false
      { incoming := [2, 0, 0, 0, 7], outgoing := [], transfers := [.moves 1], waits := [] }).1 =
        [] := by
  refine ⟨((framing_agrees id).1 [1, 2, 3] [9] trickling _ (by decide) (by decide) (by decide)
    rfl).2.1, ?_⟩
  exact ((framing_agrees id).2.1 [2, 0, 0, 0, 7]
    { incoming := [2, 0, 0, 0, 7], outgoing := [], transfers := [], waits := [] } _ (by decide)
    (by decide) rfl rfl).2.2.1 (Or.inr ⟨by decide, by decide⟩)

end EdgeOrchestrator
