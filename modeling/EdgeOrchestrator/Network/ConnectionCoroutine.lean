import EdgeOrchestrator.Network.Framing

/-!
# The coroutine of a connection, piece by piece

`handle_connection` of `network/async_transport.cpp` is suspended wherever it waits for
its socket, and changes the thread to call the handler.  Here it is cut at every call of
the kernel, at the one read of `stopping_` and at the hop to the handler pool, so that
other threads can move in between.  The awaits are answered one by one by whoever
resumes the coroutine.

`Coroutine.result` says what a coroutine in the middle of its work comes to in the end,
in terms of the loops of `handleConnection`.  No piece changes it: taken together, the
pieces are `handleConnection` on a socket whose waits end as the awaits have ended.

Main results:

- `Coroutine.result_advance`: a piece that does not wait keeps the result.
- `Coroutine.Faithful.advance`, `Coroutine.Faithful.resume`: a coroutine stays on the way to
  what `handleConnection` does.
-/

namespace EdgeOrchestrator

namespace AsyncTransport

open Socket

/-! ## One call of the kernel -/

/-- What one round of `read_exact` or `write_exact` comes to. -/
inductive Progress (α : Type*) where
  | more (done : α)
  | complete
  | failed
  | blocked

/-- One round of `read_exact`, up to the await; `buf` is the part that has been filled. -/
def readSome (len : Nat) (buf : ByteString) (socket : Socket) : Progress ByteString × Socket :=
  if buf.length < len then
    match socket.recv (len - buf.length) with
    | (.bytes [], socket) => (.failed, socket)
    | (.bytes data, socket) => (.more (buf ++ data), socket)
    | (.failed, socket) => (.failed, socket)
    | (.again, socket) => (.blocked, socket)
  else (.complete, socket)

/-- One round of `write_exact`, up to the await. -/
def writeSome (buf : ByteString) (done : Nat) (socket : Socket) : Progress Nat × Socket :=
  if done < buf.length then
    match socket.send ((buf.drop done).take (buf.length - done)) with
    | (.sent 0, socket) => (.failed, socket)
    | (.sent count, socket) => (.more (done + count), socket)
    | (.failed, socket) => (.failed, socket)
    | (.again, socket) => (.blocked, socket)
  else (.complete, socket)

/-! ## The coroutine -/

/-- Where `handle_connection` is. -/
inductive Phase where
  /-- Before `active_connections_.fetch_add(1)`. -/
  | entered
  | readHeader (header : ByteString)
  | readPayload (length : UInt32) (payload : ByteString)
  /-- The payload is there, and `stopping_` has not been read. -/
  | received (payload : ByteString)
  /-- Submitted to the handler pool. -/
  | hopped (payload : ByteString)
  /-- On a thread of the handler pool. -/
  | handle (payload : ByteString)
  | writeHeader (response : ByteString) (done : Nat)
  | writeBody (response : ByteString) (done : Nat)
  | close
  /-- Before `active_connections_.fetch_sub(1)`. -/
  | leave
  | ended
deriving DecidableEq

/-- The state of one `handle_connection`. -/
structure Coroutine where
  phase : Phase
  socket : Socket
  /-- The payloads that the handler was called with. -/
  calls : List ByteString
deriving DecidableEq

/-- What a piece asks for beyond its own work. -/
inductive Effect where
  | nothing
  /-- `active_connections_.fetch_add(1)`. -/
  | count
  /-- `co_await` on the reactor. -/
  | await
  /-- `co_await PoolHop{handler_pool_}`. -/
  | hop
  /-- `active_connections_.fetch_sub(1)`, and the end of the coroutine. -/
  | leave
deriving DecidableEq

/-- The next phase after a header of four bytes. -/
def afterHeader (header : ByteString) : Phase :=
  if decodeU32Be header ≤ maxMessageSize then
    if decodeU32Be header = 0 then .received [] else .readPayload (decodeU32Be header) []
  else .close

/-- The rounds of one `read_exact` or `write_exact` inside the coroutine. -/
def Coroutine.afterRound {α : Type*} (c : Coroutine) (again : α → Phase) (next : Phase) :
    Progress α × Socket → Effect × Coroutine
  | (.more done, socket) => (.nothing, { c with phase := again done, socket })
  | (.complete, socket) => (.nothing, { c with phase := next, socket })
  | (.failed, socket) => (.nothing, { c with phase := .close, socket })
  | (.blocked, socket) => (.await, { c with socket })

/-- One piece of `handle_connection`; `stopping` is what the flag holds. -/
def Coroutine.advance (handler : ByteString → ByteString) (stopping : Bool) (c : Coroutine) :
    Effect × Coroutine :=
  match c.phase with
  | .entered => (.count, { c with phase := .readHeader [] })
  | .readHeader header =>
    c.afterRound .readHeader (afterHeader header) (readSome 4 header c.socket)
  | .readPayload length payload =>
    c.afterRound (.readPayload length) (.received payload)
      (readSome length.toNat payload c.socket)
  | .received payload =>
    if stopping then (.nothing, { c with phase := .close })
    else (.hop, { c with phase := .hopped payload })
  | .hopped payload => (.nothing, { c with phase := .handle payload })
  | .handle payload =>
    (.nothing,
      { c with phase := .writeHeader (handler payload) 0, calls := c.calls ++ [payload] })
  | .writeHeader response done =>
    c.afterRound (.writeHeader response) (.writeBody response 0)
      (writeSome (encodeU32Be (UInt32.ofNat response.length)) done c.socket)
  | .writeBody response done =>
    c.afterRound (.writeBody response) .close (writeSome response done c.socket)
  | .close => (.nothing, { c with phase := .leave })
  | .leave => (.leave, { c with phase := .ended })
  | .ended => (.nothing, c)

/-- The await ends: with readiness the round is made again, otherwise the connection is
given up. -/
def Coroutine.resume (c : Coroutine) (ready : Bool) : Coroutine :=
  if ready then c else { c with phase := .close }

/-! ## The order of the phases -/

/-- The coroutine is inside `read_exact` or `write_exact`. -/
def Phase.transfers : Phase → Bool
  | .readHeader _ | .readPayload _ _ | .writeHeader _ _ | .writeBody _ _ => true
  | _ => false

/-- Which phase a piece leads to, and what it asks for on the way. -/
inductive Phase.Next : Phase → Effect → Phase → Prop where
  | count : Next .entered .count (.readHeader [])
  | transfer {p q : Phase} (hp : p.transfers = true) (hq : q.transfers = true) : Next p .nothing q
  | giveUp {p : Phase} (hp : p.transfers = true) : Next p .nothing .close
  | await {p : Phase} (hp : p.transfers = true) : Next p .await p
  | receive {p : Phase} (payload : ByteString) (hp : p.transfers = true) :
      Next p .nothing (.received payload)
  | refuse (payload : ByteString) : Next (.received payload) .nothing .close
  | hop (payload : ByteString) : Next (.received payload) .hop (.hopped payload)
  | pickUp (payload : ByteString) : Next (.hopped payload) .nothing (.handle payload)
  | call (payload response : ByteString) :
      Next (.handle payload) .nothing (.writeHeader response 0)
  | close : Next .close .nothing .leave
  | leave : Next .leave .leave .ended
  | ended : Next .ended .nothing .ended

theorem next_afterRound {α : Type*} {c : Coroutine} {p : Phase} {again : α → Phase}
    {next : Phase} (hphase : c.phase = p) (hp : p.transfers = true)
    (hagain : ∀ done, (again done).transfers = true) (hnext : p.Next .nothing next)
    (outcome : Progress α × Socket) :
    p.Next (c.afterRound again next outcome).1 (c.afterRound again next outcome).2.phase := by
  rcases outcome with ⟨progress, socket⟩
  cases progress with
  | more done => exact .transfer hp (hagain done)
  | complete => exact hnext
  | failed => exact .giveUp hp
  | blocked =>
    simp only [Coroutine.afterRound]
    rw [hphase]
    exact .await hp

theorem next_afterHeader {p : Phase} (hp : p.transfers = true) (header : ByteString) :
    p.Next .nothing (afterHeader header) := by
  unfold afterHeader
  split
  · split
    · exact .receive [] hp
    · exact .transfer hp rfl
  · exact .giveUp hp

theorem Coroutine.next_advance (handler : ByteString → ByteString) (stopping : Bool)
    (c : Coroutine) :
    c.phase.Next (c.advance handler stopping).1 (c.advance handler stopping).2.phase := by
  unfold Coroutine.advance
  cases hphase : c.phase with
  | entered => exact .count
  | readHeader header =>
    exact next_afterRound hphase rfl (fun _ => rfl) (next_afterHeader rfl header) _
  | readPayload length payload =>
    exact next_afterRound hphase rfl (fun _ => rfl) (.receive payload rfl) _
  | received payload =>
    cases stopping with
    | true => exact .refuse payload
    | false => exact .hop payload
  | hopped payload => exact .pickUp payload
  | handle payload => exact .call payload (handler payload)
  | writeHeader response done =>
    exact next_afterRound hphase rfl (fun _ => rfl) (.transfer rfl rfl) _
  | writeBody response done =>
    exact next_afterRound hphase rfl (fun _ => rfl) (.giveUp rfl) _
  | close => exact .close
  | leave => exact .leave
  | ended =>
    simp only
    rw [hphase]
    exact .ended

/-! ## The loops, continued -/

section Loops

/-- A continuing round of `read_exact` uses up an answer of the kernel or makes
progress. -/
theorem readExactStep_lower (len : Nat) (s t : ReadLoop) (h : readExactStep len s = .inl t) :
    t.socket.transfers.length + (len - t.done) <
      s.socket.transfers.length + (len - s.done) := by
  have hstart := reading_start s.socket (len - s.done)
  unfold readExactStep at h
  split at h
  · split at h
    · cases h
    · rename_i data socket hnonempty hrecv
      cases h
      have hle := (hstart.received hrecv).2
      have hpos : 0 < data.length := List.length_pos_iff.2 hnonempty
      simp only
      omega
    · cases h
    · rename_i socket hrecv
      have hless := (hstart.again hrecv).2
      split at h
      · cases h
      · rename_i parked hwait
        cases h
        have hsame := (wait_spec hwait).2.2.1
        simp only
        rw [hsame]
        omega
  · cases h

/-- The loop of `read_exact` from the middle. -/
def readLoop (len : Nat) (buf : ByteString) (socket : Socket) : Bool × ByteString × Socket :=
  (FuelLoop.run (readExactStep len) (socket.transfers.length + (len - buf.length) + 1)
    ⟨socket, buf, buf.length⟩).getD (false, [], socket)

theorem readExactStep_eq (len : Nat) (buf : ByteString) (socket : Socket) :
    readExactStep len ⟨socket, buf, buf.length⟩ =
      match readSome len buf socket with
      | (.more buf, socket) => .inl ⟨socket, buf, buf.length⟩
      | (.complete, socket) => .inr (true, buf, socket)
      | (.failed, socket) => .inr (false, buf, socket)
      | (.blocked, socket) =>
        if socket.wait.1 then .inl ⟨socket.wait.2, buf, buf.length⟩
        else .inr (false, buf, socket.wait.2) := by
  unfold readExactStep readSome
  dsimp only
  by_cases hlt : buf.length < len
  · rw [if_pos hlt, if_pos hlt]
    rcases socket.recv (len - buf.length) with ⟨result, received⟩
    cases result with
    | bytes data =>
      cases data with
      | nil => rfl
      | cons first rest => simp only [List.length_append]
    | failed => rfl
    | again =>
      rcases hwait : received.wait with ⟨ready, waited⟩
      cases ready <;> simp [hwait]
  · rw [if_neg hlt, if_neg hlt]

/-- One round, then the loop from there. -/
theorem readLoop_eq (len : Nat) (buf : ByteString) (socket : Socket) :
    readLoop len buf socket =
      match readSome len buf socket with
      | (.more buf, socket) => readLoop len buf socket
      | (.complete, socket) => (true, buf, socket)
      | (.failed, socket) => (false, buf, socket)
      | (.blocked, socket) =>
        if socket.wait.1 then readLoop len buf socket.wait.2
        else (false, buf, socket.wait.2) := by
  have hunfold := FuelLoop.getD_run_eq
    (fun s : ReadLoop => s.socket.transfers.length + (len - s.done)) (readExactStep_lower len)
    ⟨socket, buf, buf.length⟩ (fun s => (false, [], s.socket))
  rw [readExactStep_eq] at hunfold
  refine Eq.trans hunfold ?_
  rcases readSome len buf socket with ⟨progress, socket⟩
  cases progress with
  | blocked =>
    by_cases hready : socket.wait.1 = true
    · simp only [if_pos hready]
      rfl
    · simp only [if_neg hready]
  | _ => rfl

theorem transfers_of_sent {s t : Socket} {data : ByteString} {count : Nat}
    (hsend : s.send data = (.sent count, t)) : t.transfers.length ≤ s.transfers.length := by
  unfold Socket.send at hsend
  split at hsend
  · cases hsend
    exact Nat.le_refl _
  · rename_i htransfers
    cases hsend
    rw [htransfers]
    exact Nat.le_succ _
  · cases hsend
  · cases hsend

variable (buf : ByteString)

theorem writeExactStep_lower (s t : WriteLoop) (h : writeExactStep buf s = .inl t) :
    t.socket.transfers.length + (buf.length - t.done) <
      s.socket.transfers.length + (buf.length - s.done) := by
  have hstart := writing_start s.socket buf
  unfold writeExactStep at h
  split at h
  · rename_i hlt
    split at h
    · cases h
    · rename_i count socket hcount hsend
      cases h
      have hle := transfers_of_sent hsend
      have hpos : 0 < count := Nat.pos_of_ne_zero fun hzero => hcount (by rw [hzero])
      simp only
      omega
    · cases h
    · rename_i socket hsend
      have hless := (hstart.again hsend).2
      split at h
      · cases h
      · rename_i parked hwait
        cases h
        have hsame := (wait_spec hwait).2.2.1
        simp only
        rw [hsame]
        omega
  · cases h

/-- The loop of `write_exact` from the middle. -/
def writeLoop (done : Nat) (socket : Socket) : Bool × Socket :=
  (FuelLoop.run (writeExactStep buf) (socket.transfers.length + (buf.length - done) + 1)
    ⟨socket, done⟩).getD (false, socket)

theorem writeExactStep_eq (done : Nat) (socket : Socket) :
    writeExactStep buf ⟨socket, done⟩ =
      match writeSome buf done socket with
      | (.more done, socket) => .inl ⟨socket, done⟩
      | (.complete, socket) => .inr (true, socket)
      | (.failed, socket) => .inr (false, socket)
      | (.blocked, socket) =>
        if socket.wait.1 then .inl ⟨socket.wait.2, done⟩ else .inr (false, socket.wait.2) := by
  unfold writeExactStep writeSome
  dsimp only
  by_cases hlt : done < buf.length
  · rw [if_pos hlt, if_pos hlt]
    rcases socket.send ((buf.drop done).take (buf.length - done)) with ⟨result, written⟩
    cases result with
    | sent count =>
      cases count with
      | zero | succ count => rfl
    | failed => rfl
    | again =>
      rcases hwait : written.wait with ⟨ready, waited⟩
      cases ready <;> simp [hwait]
  · rw [if_neg hlt, if_neg hlt]

theorem writeLoop_eq (done : Nat) (socket : Socket) :
    writeLoop buf done socket =
      match writeSome buf done socket with
      | (.more done, socket) => writeLoop buf done socket
      | (.complete, socket) => (true, socket)
      | (.failed, socket) => (false, socket)
      | (.blocked, socket) =>
        if socket.wait.1 then writeLoop buf done socket.wait.2
        else (false, socket.wait.2) := by
  have hunfold := FuelLoop.getD_run_eq
    (fun s : WriteLoop => s.socket.transfers.length + (buf.length - s.done))
    (writeExactStep_lower buf) ⟨socket, done⟩ (fun s => (false, s.socket))
  rw [writeExactStep_eq] at hunfold
  refine Eq.trans hunfold ?_
  rcases writeSome buf done socket with ⟨progress, socket⟩
  cases progress with
  | blocked =>
    by_cases hready : socket.wait.1 = true
    · simp only [if_pos hready]
      rfl
    · simp only [if_neg hready]
  | _ => rfl

end Loops

/-! ## What is left to do -/

section Rest

variable (handler : ByteString → ByteString) (stopping : Bool)

/-- The rest of `handle_connection` after the payload was read or given up. -/
def finishPayload (payload : Bool × ByteString × Socket) : List ByteString × Socket :=
  if payload.1 ∧ !stopping then ([payload.2.1], respond handler payload.2.2 payload.2.1)
  else ([], payload.2.2)

/-- The rest of `handle_connection` after the header was read or given up. -/
def finishHeader (header : Bool × ByteString × Socket) : List ByteString × Socket :=
  if header.1 then
    if decodeU32Be header.2.1 ≤ maxMessageSize then
      finishPayload handler stopping
        (if decodeU32Be header.2.1 = 0 then (true, [], header.2.2)
          else readExact header.2.2 (decodeU32Be header.2.1).toNat)
    else ([], header.2.2)
  else ([], header.2.2)

/-- The rest of `handle_connection` after the header of the response. -/
def finishResponse (response : ByteString) (header : Bool × Socket) : Socket :=
  if header.1 then (writeLoop response 0 header.2).2 else header.2

/-- The calls of the handler that are still to come, and the socket at the end. -/
def Phase.rest : Phase → Socket → List ByteString × Socket
  | .entered, socket => handleConnection handler stopping socket
  | .readHeader header, socket => finishHeader handler stopping (readLoop 4 header socket)
  | .readPayload length payload, socket =>
    finishPayload handler stopping (readLoop length.toNat payload socket)
  | .received payload, socket => finishPayload handler stopping (true, payload, socket)
  | .hopped payload, socket => ([payload], respond handler socket payload)
  | .handle payload, socket => ([payload], respond handler socket payload)
  | .writeHeader response done, socket =>
    ([], finishResponse response
      (writeLoop (encodeU32Be (UInt32.ofNat response.length)) done socket))
  | .writeBody response done, socket => ([], (writeLoop response done socket).2)
  | .close, socket => ([], socket)
  | .leave, socket => ([], socket)
  | .ended, socket => ([], socket)

/-- What the coroutine comes to if its waits end as given. -/
def Coroutine.result (waits : List Bool) (c : Coroutine) : List ByteString × Socket :=
  (c.calls ++ (c.phase.rest handler stopping (c.socket.withWaits waits)).1,
    (c.phase.rest handler stopping (c.socket.withWaits waits)).2)

/-- One round, and what is left to do then. -/
structure Rounds {α : Type*} (again : α → Phase) (next : α → Phase)
    (round : α → Socket → Progress α × Socket) : Prop where
  rest : ∀ done socket, (again done).rest handler stopping socket =
    match round done socket with
    | (.more done, socket) => (again done).rest handler stopping socket
    | (.complete, socket) => (next done).rest handler stopping socket
    | (.failed, socket) => ([], socket)
    | (.blocked, socket) =>
      if socket.wait.1 then (again done).rest handler stopping socket.wait.2
      else ([], socket.wait.2)
  waits : ∀ done socket waits, round done (socket.withWaits waits) =
    ((round done socket).1, (round done socket).2.withWaits waits)

end Rest

section Results

variable {handler : ByteString → ByteString} {stopping : Bool}

theorem readSome_withWaits (len : Nat) (buf : ByteString) (socket : Socket)
    (waits : List Bool) :
    readSome len buf (socket.withWaits waits) =
      ((readSome len buf socket).1, (readSome len buf socket).2.withWaits waits) := by
  unfold readSome
  rw [recv_withWaits]
  by_cases hlt : buf.length < len
  · rw [if_pos hlt, if_pos hlt]
    rcases socket.recv (len - buf.length) with ⟨result, received⟩
    cases result with
    | bytes data => cases data <;> rfl
    | _ => rfl
  · rw [if_neg hlt, if_neg hlt]

theorem writeSome_withWaits (buf : ByteString) (done : Nat) (socket : Socket)
    (waits : List Bool) :
    writeSome buf done (socket.withWaits waits) =
      ((writeSome buf done socket).1, (writeSome buf done socket).2.withWaits waits) := by
  unfold writeSome
  rw [send_withWaits]
  by_cases hlt : done < buf.length
  · rw [if_pos hlt, if_pos hlt]
    rcases socket.send ((buf.drop done).take (buf.length - done)) with ⟨result, written⟩
    cases result with
    | sent count => cases count <;> rfl
    | _ => rfl
  · rw [if_neg hlt, if_neg hlt]

theorem rest_afterHeader (header : ByteString) (socket : Socket) :
    (afterHeader header).rest handler stopping socket =
      finishHeader handler stopping (true, header, socket) := by
  unfold afterHeader finishHeader
  split
  · rw [if_pos rfl]
    split
    · rfl
    · rfl
  · rfl

theorem rounds_readHeader :
    Rounds handler stopping Phase.readHeader afterHeader (readSome 4) where
  rest header socket := by
    simp only [Phase.rest]
    rw [readLoop_eq]
    rcases readSome 4 header socket with ⟨progress, socket⟩
    cases progress with
    | complete => exact (rest_afterHeader header socket).symm
    | blocked =>
      simp only
      split
      · rfl
      · rfl
    | _ => rfl
  waits := readSome_withWaits 4

theorem rounds_readPayload (length : UInt32) :
    Rounds handler stopping (Phase.readPayload length) Phase.received
      (readSome length.toNat) where
  rest payload socket := by
    simp only [Phase.rest]
    rw [readLoop_eq]
    rcases readSome length.toNat payload socket with ⟨progress, socket⟩
    cases progress with
    | blocked =>
      simp only
      split
      · rfl
      · simp [finishPayload]
    | failed => simp [finishPayload]
    | _ => rfl
  waits := readSome_withWaits length.toNat

theorem rounds_writeHeader (response : ByteString) :
    Rounds handler stopping (Phase.writeHeader response) (fun _ => .writeBody response 0)
      (writeSome (encodeU32Be (UInt32.ofNat response.length))) where
  rest done socket := by
    simp only [Phase.rest]
    rw [writeLoop_eq]
    rcases writeSome (encodeU32Be (UInt32.ofNat response.length)) done socket with
      ⟨progress, socket⟩
    cases progress with
    | blocked =>
      simp only
      split
      · rfl
      · rfl
    | _ => rfl
  waits := writeSome_withWaits _

theorem rounds_writeBody (response : ByteString) :
    Rounds handler stopping (Phase.writeBody response) (fun _ => .close)
      (writeSome response) where
  rest done socket := by
    simp only [Phase.rest]
    rw [writeLoop_eq]
    rcases writeSome response done socket with ⟨progress, socket⟩
    cases progress with
    | blocked =>
      simp only
      split
      · rfl
      · rfl
    | _ => rfl
  waits := writeSome_withWaits response

/-! ## No piece changes the result -/

/-- A round that does not block. -/
theorem Coroutine.result_afterRound {α : Type*} {again next : α → Phase}
    {round : α → Socket → Progress α × Socket} (h : Rounds handler stopping again next round)
    (c : Coroutine) {done : α} (hphase : c.phase = again done) (waits : List Bool)
    (heffect : (c.afterRound again (next done) (round done c.socket)).1 ≠ .await) :
    (c.afterRound again (next done) (round done c.socket)).2.result handler stopping waits =
      c.result handler stopping waits := by
  unfold Coroutine.result
  rw [hphase, h.rest, h.waits]
  generalize round done c.socket = outcome at heffect ⊢
  rcases outcome with ⟨progress, socket⟩
  cases progress with
  | blocked => exact absurd rfl heffect
  | _ => rfl

/-- A round that blocks, and the answer to its await. -/
theorem Coroutine.result_blockedRound {α : Type*} {again next : α → Phase}
    {round : α → Socket → Progress α × Socket} (h : Rounds handler stopping again next round)
    (c : Coroutine) {done : α} (hphase : c.phase = again done) (ready : Bool)
    (waits : List Bool)
    (heffect : (c.afterRound again (next done) (round done c.socket)).1 = .await) :
    ((c.afterRound again (next done) (round done c.socket)).2.resume ready).result handler
        stopping waits =
      c.result handler stopping (ready :: waits) := by
  unfold Coroutine.result
  rw [hphase, h.rest, h.waits]
  generalize round done c.socket = outcome at heffect ⊢
  rcases outcome with ⟨progress, socket⟩
  cases progress with
  | blocked =>
    cases ready with
    | true =>
      simp only [Coroutine.afterRound, Coroutine.resume, if_pos, hphase]
      rfl
    | false => rfl
  | _ => cases heffect

/-- A piece that does not wait keeps the result, if the flag is read as given. -/
theorem Coroutine.result_advance (c : Coroutine) {seen : Bool} (waits : List Bool)
    (hseen : ∀ payload, c.phase = .received payload → seen = stopping)
    (heffect : (c.advance handler seen).1 ≠ .await) :
    (c.advance handler seen).2.result handler stopping waits =
      c.result handler stopping waits := by
  unfold Coroutine.advance at heffect ⊢
  cases hphase : c.phase with
  | readHeader header =>
    rw [hphase] at heffect
    exact c.result_afterRound rounds_readHeader hphase waits heffect
  | readPayload length payload =>
    rw [hphase] at heffect
    exact c.result_afterRound (rounds_readPayload length) hphase waits heffect
  | writeHeader response done =>
    rw [hphase] at heffect
    exact c.result_afterRound (rounds_writeHeader response) hphase waits heffect
  | writeBody response done =>
    rw [hphase] at heffect
    exact c.result_afterRound (rounds_writeBody response) hphase waits heffect
  | received payload =>
    rw [hseen payload hphase]
    unfold Coroutine.result
    cases stopping <;> simp [hphase, Phase.rest, finishPayload]
  | handle payload =>
    unfold Coroutine.result
    rw [hphase]
    simp only [Phase.rest, List.append_nil]
    rfl
  | ended => rfl
  | entered | hopped payload | close | leave =>
    unfold Coroutine.result
    rw [hphase]
    rfl

/-- Nor does a wait change it, with whatever answer. -/
theorem Coroutine.result_await (c : Coroutine) {seen : Bool} (ready : Bool) (waits : List Bool)
    (heffect : (c.advance handler seen).1 = .await) :
    ((c.advance handler seen).2.resume ready).result handler stopping waits =
      c.result handler stopping (ready :: waits) := by
  unfold Coroutine.advance at heffect ⊢
  cases hphase : c.phase with
  | readHeader header =>
    rw [hphase] at heffect
    exact c.result_blockedRound rounds_readHeader hphase ready waits heffect
  | readPayload length payload =>
    rw [hphase] at heffect
    exact c.result_blockedRound (rounds_readPayload length) hphase ready waits heffect
  | writeHeader response done =>
    rw [hphase] at heffect
    exact c.result_blockedRound (rounds_writeHeader response) hphase ready waits heffect
  | writeBody response done =>
    rw [hphase] at heffect
    exact c.result_blockedRound (rounds_writeBody response) hphase ready waits heffect
  | received payload =>
    rw [hphase] at heffect
    cases seen <;> cases heffect
  | _ =>
    rw [hphase] at heffect
    cases heffect

/-! ## Connections are served faithfully -/

/-- `stopping_` has not been read. -/
def Phase.undecided : Phase → Bool
  | .entered | .readHeader _ | .readPayload _ _ | .received _ => true
  | _ => false

/-- The coroutine is on the way to what `handleConnection` does on the socket `start`, if
the waits end as the awaits have ended so far and as they will end; with `stopping_` as
it has been read, which is set only if `stopped` holds. -/
def Coroutine.Faithful (handler : ByteString → ByteString) (start : Socket) (stopped : Prop)
    (answers : List Bool) (c : Coroutine) : Prop :=
  (c.phase.undecided = true ∧ ∀ b waits, c.result handler b waits =
      handleConnection handler b (start.withWaits (answers ++ waits))) ∨
    (c.phase.undecided = false ∧ ∃ b, (b = true → stopped) ∧ ∀ waits,
      c.result handler b waits = handleConnection handler b (start.withWaits (answers ++ waits)))

variable {start : Socket} {stopped : Prop} {answers : List Bool} {c : Coroutine}

theorem faithful_entered (handler : ByteString → ByteString) (start : Socket) (stopped : Prop) :
    Coroutine.Faithful handler start stopped [] ⟨.entered, start, []⟩ :=
  Or.inl ⟨rfl, fun _ _ => rfl⟩

theorem Coroutine.Faithful.mono {stopped' : Prop} (h : c.Faithful handler start stopped answers)
    (hstopped : stopped → stopped') : c.Faithful handler start stopped' answers := by
  rcases h with hundecided | ⟨hdecided, b, hb, hresult⟩
  · exact Or.inl hundecided
  · exact Or.inr ⟨hdecided, b, fun h => hstopped (hb h), hresult⟩

/-- From what one value of the flag gives, for a coroutine that has read it. -/
theorem Coroutine.Faithful.of_result {b : Bool} (hb : b = true → stopped)
    (hall : c.phase.undecided = true → ∀ b waits, c.result handler b waits =
      handleConnection handler b (start.withWaits (answers ++ waits)))
    (hresult : ∀ waits, c.result handler b waits =
      handleConnection handler b (start.withWaits (answers ++ waits))) :
    c.Faithful handler start stopped answers := by
  cases hphase : c.phase.undecided with
  | true => exact Or.inl ⟨hphase, hall hphase⟩
  | false => exact Or.inr ⟨hphase, b, hb, hresult⟩

theorem undecided_afterRound {α : Type*} {again : α → Phase} {next : Phase}
    (hagain : ∀ done, (again done).undecided = false) (hnext : next.undecided = false)
    (hc : c.phase.undecided = false) (outcome : Progress α × Socket) :
    (c.afterRound again next outcome).2.phase.undecided = false := by
  rcases outcome with ⟨progress, socket⟩
  cases progress with
  | more done => exact hagain done
  | complete => exact hnext
  | failed => rfl
  | blocked => exact hc

/-- What is decided stays so. -/
theorem Coroutine.undecided_advance (hc : c.phase.undecided = false) (seen : Bool) :
    (c.advance handler seen).2.phase.undecided = false := by
  unfold Coroutine.advance
  cases hphase : c.phase with
  | writeHeader response done | writeBody response done =>
    exact undecided_afterRound (fun _ => rfl) rfl hc _
  | ended =>
    rw [hphase] at hc
    simpa [hphase] using hc
  | hopped payload | handle payload | close | leave => rfl
  | entered | readHeader header | readPayload length payload | received payload =>
    rw [hphase] at hc
    cases hc

/-- Reading `stopping_` decides. -/
theorem Coroutine.decided_of_received {payload : ByteString} (hphase : c.phase = .received payload)
    (seen : Bool) : (c.advance handler seen).2.phase.undecided = false := by
  unfold Coroutine.advance
  rw [hphase]
  cases seen <;> rfl

/-- A piece that does not wait. -/
theorem Coroutine.Faithful.advance {seen : Bool} (h : c.Faithful handler start stopped answers)
    (hseen : seen = true → stopped) (heffect : (c.advance handler seen).1 ≠ .await) :
    (c.advance handler seen).2.Faithful handler start stopped answers := by
  rcases h with ⟨hundecided, hall⟩ | ⟨hdecided, b, hb, hresult⟩
  · by_cases hreceived : ∃ payload, c.phase = .received payload
    · rcases hreceived with ⟨payload, hphase⟩
      refine Or.inr ⟨Coroutine.decided_of_received hphase seen, seen, hseen, fun waits => ?_⟩
      rw [c.result_advance waits (fun _ _ => rfl) heffect]
      exact hall seen waits
    · have hkeep : ∀ b waits, (c.advance handler seen).2.result handler b waits =
          handleConnection handler b (start.withWaits (answers ++ waits)) := by
        intro b waits
        rw [c.result_advance waits (fun payload hphase => absurd ⟨payload, hphase⟩ hreceived)
          heffect]
        exact hall b waits
      have hfalse : false = true → stopped := fun hft => by cases hft
      exact Coroutine.Faithful.of_result hfalse (fun _ => hkeep) (hkeep false)
  · refine Or.inr ⟨Coroutine.undecided_advance hdecided seen, b, hb, fun waits => ?_⟩
    have hnot : ∀ payload, c.phase = .received payload → seen = b := by
      intro payload hphase
      rw [hphase] at hdecided
      cases hdecided
    rw [c.result_advance waits hnot heffect]
    exact hresult waits

/-- A wait, with whatever answer. -/
theorem Coroutine.Faithful.await {seen : Bool} (h : c.Faithful handler start stopped answers)
    (heffect : (c.advance handler seen).1 = .await) (ready : Bool) :
    ((c.advance handler seen).2.resume ready).Faithful handler start stopped
      (answers ++ [ready]) := by
  have hmove : ∀ b, (∀ waits, c.result handler b waits =
        handleConnection handler b (start.withWaits (answers ++ waits))) →
      ∀ waits, ((c.advance handler seen).2.resume ready).result handler b waits =
        handleConnection handler b (start.withWaits ((answers ++ [ready]) ++ waits)) := by
    intro b hb waits
    rw [c.result_await ready waits heffect, hb, List.append_assoc]
    rfl
  rcases h with ⟨hundecided, hall⟩ | ⟨hdecided, b, hb, hresult⟩
  · have hfalse : false = true → stopped := fun hft => by cases hft
    exact Coroutine.Faithful.of_result hfalse (fun _ b => hmove b (hall b))
      (hmove false (hall false))
  · refine Or.inr ⟨?_, b, hb, hmove b hresult⟩
    unfold Coroutine.resume
    split
    · exact Coroutine.undecided_advance hdecided seen
    · rfl

/-- At its end the coroutine has done what `handleConnection` does. -/
theorem Coroutine.Faithful.ended (h : c.Faithful handler start stopped answers)
    (hphase : c.phase = .ended) :
    ∃ b, (b = true → stopped) ∧
      handleConnection handler b (start.withWaits answers) = (c.calls, c.socket.withWaits []) := by
  rcases h with ⟨hundecided, -⟩ | ⟨-, b, hb, hresult⟩
  · rw [hphase] at hundecided
    cases hundecided
  · refine ⟨b, hb, ?_⟩
    have hend := hresult []
    rw [List.append_nil] at hend
    rw [← hend]
    unfold Coroutine.result
    rw [hphase]
    simp only [Phase.rest, List.append_nil]

end Results

end AsyncTransport

end EdgeOrchestrator
