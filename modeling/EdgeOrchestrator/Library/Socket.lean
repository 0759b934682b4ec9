import EdgeOrchestrator.Library.FuelLoop

/-!
# One end of a stream connection

A socket as a program sees it: the bytes that the peer sends before it closes, the
bytes handed over for sending, and the answers that the kernel will give to the
coming calls.  A call may move fewer bytes than requested, report that it would
block, or fail; waiting for readiness may end without readiness.  Answers are a
finite script, after which every call moves all it can.

Main results:

- `Socket.Reading.received`, `Socket.Reading.again`, `Socket.Reading.failed` and
  `Socket.Reading.waited`: what one call does to a program that is collecting bytes.
- `Socket.ReadOutcome.eq_of_le` and `Socket.ReadOutcome.eq_of_lt`: with answers that never
  fail, only the length of the stream decides the outcome.
-/

/-- The answer to one `send` or `recv`. -/
inductive Transfer where
  /-- At most `k + 1` bytes are moved. -/
  | moves (k : Nat)
  | wouldBlock
  | fails
deriving DecidableEq, Repr

/-- One end of a connection and the kernel's answers to come. -/
structure Socket where
  /-- What the peer sends before it closes, as far as it has not been read. -/
  incoming : List UInt8
  /-- What has been handed over for sending. -/
  outgoing : List UInt8
  transfers : List Transfer
  /-- The answers to the coming waits: ready, or not. -/
  waits : List Bool
deriving DecidableEq, Repr

namespace Socket

/-- The result of `recv`; no bytes means that the peer has closed. -/
inductive RecvResult where
  | bytes (data : List UInt8)
  | again
  | failed
deriving DecidableEq, Repr

/-- What `send` returns. -/
inductive SendResult where
  | sent (count : Nat)
  | again
  | failed
deriving DecidableEq, Repr

variable (s : Socket)

/-- Read at most `requested` bytes. -/
def recv (requested : Nat) : RecvResult × Socket :=
  match s.transfers with
  | [] => (.bytes (s.incoming.take requested), { s with incoming := s.incoming.drop requested })
  | .moves k :: rest =>
    (.bytes (s.incoming.take (min (k + 1) requested)),
      { s with incoming := s.incoming.drop (min (k + 1) requested), transfers := rest })
  | .wouldBlock :: rest => (.again, { s with transfers := rest })
  | .fails :: rest => (.failed, { s with transfers := rest })

/-- Hand over some of the given bytes. -/
def send (data : List UInt8) : SendResult × Socket :=
  match s.transfers with
  | [] => (.sent data.length, { s with outgoing := s.outgoing ++ data })
  | .moves k :: rest =>
    (.sent (min (k + 1) data.length),
      { s with outgoing := s.outgoing ++ data.take (k + 1), transfers := rest })
  | .wouldBlock :: rest => (.again, { s with transfers := rest })
  | .fails :: rest => (.failed, { s with transfers := rest })

/-- Wait until a call would not block; `false` when the wait ends without that. -/
def wait : Bool × Socket :=
  match s.waits with
  | [] => (true, s)
  | ready :: rest => (ready, { s with waits := rest })

/-- No call fails and no wait ends early. -/
def Smooth : Prop :=
  (∀ t ∈ s.transfers, t ≠ .fails) ∧ ∀ ready ∈ s.waits, ready = true

instance (s : Socket) : Decidable s.Smooth :=
  inferInstanceAs (Decidable (_ ∧ _))

/-! ## Another script of waits -/

/-- The same socket with other answers to the coming waits. -/
def withWaits (waits : List Bool) : Socket :=
  { s with waits }

theorem recv_withWaits (waits : List Bool) (requested : Nat) :
    (s.withWaits waits).recv requested =
      ((s.recv requested).1, (s.recv requested).2.withWaits waits) := by
  unfold recv withWaits
  cases s.transfers with
  | nil => rfl
  | cons first rest => cases first <;> rfl

theorem send_withWaits (waits : List Bool) (data : List UInt8) :
    (s.withWaits waits).send data = ((s.send data).1, (s.send data).2.withWaits waits) := by
  unfold send withWaits
  cases s.transfers with
  | nil => rfl
  | cons first rest => cases first <;> rfl

/-! ## Collecting bytes -/

section Reading

variable {start s t : Socket} {len : Nat} {buf data : List UInt8}

/-- `buf` holds what has been read since `start`, on the way to `len` bytes. -/
structure Reading (start : Socket) (len : Nat) (s : Socket) (buf : List UInt8) : Prop where
  stream : buf ++ s.incoming = start.incoming
  length_le : buf.length ≤ len
  outgoing : s.outgoing = start.outgoing
  smooth : start.Smooth → s.Smooth

theorem reading_start (start : Socket) (len : Nat) : Reading start len start [] :=
  ⟨rfl, Nat.zero_le _, rfl, id⟩

/-- A script that is smooth stays so when its first answer has been used. -/
theorem Smooth.tail {first : Transfer} {rest : List Transfer} (hs : s.Smooth)
    (htransfers : s.transfers = first :: rest) {incoming outgoing : List UInt8} :
    Smooth { s with incoming := incoming, outgoing := outgoing, transfers := rest } := by
  refine ⟨?_, hs.2⟩
  intro x hx
  apply hs.1
  rw [htransfers]
  exact List.mem_cons_of_mem _ hx

/-- Bytes arrive. -/
theorem Reading.received (hreading : Reading start len s buf)
    (hrecv : s.recv (len - buf.length) = (.bytes data, t)) :
    Reading start len t (buf ++ data) ∧ t.transfers.length ≤ s.transfers.length := by
  have hlength := hreading.length_le
  unfold recv at hrecv
  split at hrecv
  · cases hrecv
    refine ⟨⟨?_, ?_, hreading.outgoing, hreading.smooth⟩, Nat.le_refl _⟩
    · rw [List.append_assoc, List.take_append_drop]
      exact hreading.stream
    · rw [List.length_append, List.length_take]
      omega
  · rename_i k rest htransfers
    cases hrecv
    refine ⟨⟨?_, ?_, hreading.outgoing, ?_⟩, ?_⟩
    · rw [List.append_assoc, List.take_append_drop]
      exact hreading.stream
    · rw [List.length_append, List.length_take]
      omega
    · intro hstart
      exact (hreading.smooth hstart).tail htransfers
    · rw [htransfers]
      exact Nat.le_succ _
  · cases hrecv
  · cases hrecv

/-- No bytes arrive: the stream is at its end. -/
theorem incoming_of_recv_nil {requested : Nat} (hpos : 0 < requested)
    (hrecv : s.recv requested = (.bytes [], t)) : t.incoming = [] := by
  unfold recv at hrecv
  split at hrecv
  · simp only [Prod.mk.injEq, RecvResult.bytes.injEq, List.take_eq_nil_iff] at hrecv
    rw [← hrecv.2]
    rcases hrecv.1 with hzero | hend
    · omega
    · simp [hend]
  · simp only [Prod.mk.injEq, RecvResult.bytes.injEq, List.take_eq_nil_iff] at hrecv
    rw [← hrecv.2]
    rcases hrecv.1 with hzero | hend
    · omega
    · simp [hend]
  · cases hrecv
  · cases hrecv

theorem Reading.again {requested : Nat} (hreading : Reading start len s buf)
    (hrecv : s.recv requested = (.again, t)) :
    Reading start len t buf ∧ t.transfers.length < s.transfers.length := by
  unfold recv at hrecv
  split at hrecv
  · cases hrecv
  · cases hrecv
  · rename_i rest htransfers
    cases hrecv
    refine ⟨⟨hreading.stream, hreading.length_le, hreading.outgoing, ?_⟩, ?_⟩
    · intro hstart
      exact (hreading.smooth hstart).tail htransfers
    · rw [htransfers]
      exact Nat.lt_succ_self _
  · cases hrecv

theorem Reading.failed {requested : Nat} (hreading : Reading start len s buf)
    (hrecv : s.recv requested = (.failed, t)) :
    Reading start len t buf ∧ ¬ start.Smooth := by
  unfold recv at hrecv
  split at hrecv
  · cases hrecv
  · cases hrecv
  · cases hrecv
  · rename_i rest htransfers
    have hrough : ¬ start.Smooth := by
      intro hstart
      apply (hreading.smooth hstart).1 .fails _ rfl
      rw [htransfers]
      exact List.mem_cons_self
    cases hrecv
    exact ⟨⟨hreading.stream, hreading.length_le, hreading.outgoing,
      fun hstart => absurd hstart hrough⟩, hrough⟩

/-- What a wait changes. -/
theorem wait_spec {ready : Bool} (hwait : s.wait = (ready, t)) :
    t.incoming = s.incoming ∧ t.outgoing = s.outgoing ∧ t.transfers = s.transfers ∧
      (s.Smooth → t.Smooth ∧ ready = true) := by
  unfold wait at hwait
  split at hwait
  · cases hwait
    exact ⟨rfl, rfl, rfl, fun hs => ⟨hs, rfl⟩⟩
  · rename_i first rest hwaits
    cases hwait
    refine ⟨rfl, rfl, rfl, ?_⟩
    intro hs
    have hall := hs.2
    rw [hwaits] at hall
    exact ⟨⟨hs.1, fun x hx => hall x (List.mem_cons_of_mem _ hx)⟩, hall ready List.mem_cons_self⟩

theorem Reading.waited {ready : Bool} (hreading : Reading start len s buf)
    (hwait : s.wait = (ready, t)) :
    Reading start len t buf ∧ t.transfers = s.transfers ∧ (start.Smooth → ready = true) := by
  rcases wait_spec hwait with ⟨hincoming, houtgoing, htransfers, hsmooth⟩
  refine ⟨⟨?_, hreading.length_le, houtgoing.trans hreading.outgoing, ?_⟩, htransfers, ?_⟩
  · rw [hincoming]
    exact hreading.stream
  · intro hstart
    exact (hsmooth (hreading.smooth hstart)).1
  · intro hstart
    exact (hsmooth (hreading.smooth hstart)).2

/-- What a program that reads until it has `len` bytes ends with: whether it has
them, the bytes, and the socket. -/
structure ReadOutcome (start : Socket) (len : Nat) (r : Bool × List UInt8 × Socket) : Prop where
  reading : Reading start len r.2.2 r.2.1
  ok_iff : r.1 = true ↔ r.2.1.length = len
  closed : start.Smooth → r.1 = false → r.2.2.incoming = []

/-- All bytes are there. -/
theorem Reading.complete (hreading : Reading start len s buf) (hlength : len ≤ buf.length) :
    ReadOutcome start len (true, buf, s) := by
  refine ⟨hreading, ?_, ?_⟩
  · constructor
    · intro _
      exact Nat.le_antisymm hreading.length_le hlength
    · intro _
      rfl
  · intro _ hfalse
    cases hfalse

/-- The program gives up. -/
theorem Reading.incomplete (hreading : Reading start len s buf) (hlength : buf.length < len)
    (hclosed : start.Smooth → s.incoming = []) : ReadOutcome start len (false, buf, s) := by
  refine ⟨hreading, ?_, fun hstart _ => hclosed hstart⟩
  constructor
  · intro hfalse
    cases hfalse
  · intro heq
    exact absurd heq (Nat.ne_of_lt hlength)

variable {r : Bool × List UInt8 × Socket}

/-- On success the bytes are the first ones of the stream. -/
theorem ReadOutcome.eq_of_ok (hout : ReadOutcome start len r) (hok : r.1 = true) :
    len ≤ start.incoming.length ∧ r.2.1 = start.incoming.take len ∧
      r.2.2.incoming = start.incoming.drop len := by
  have hlength := hout.ok_iff.1 hok
  rw [← hout.reading.stream]
  refine ⟨?_, ?_, ?_⟩
  · rw [List.length_append]
    omega
  · rw [List.take_left' hlength]
  · rw [List.drop_left' hlength]

/-- A stream that is long enough is read, whatever the chunks. -/
theorem ReadOutcome.eq_of_le (hout : ReadOutcome start len r) (hstart : start.Smooth)
    (hlen : len ≤ start.incoming.length) :
    r.1 = true ∧ r.2.1 = start.incoming.take len ∧
      r.2.2.incoming = start.incoming.drop len := by
  have hok : r.1 = true := by
    by_contra hnot
    have hend := hout.closed hstart (by simpa using hnot)
    have hstream := hout.reading.stream
    rw [hend, List.append_nil] at hstream
    apply hnot
    apply hout.ok_iff.2
    have := hout.reading.length_le
    rw [hstream] at this ⊢
    omega
  exact ⟨hok, (hout.eq_of_ok hok).2⟩

/-- A stream that ends early is read to its end, and reported. -/
theorem ReadOutcome.eq_of_lt (hout : ReadOutcome start len r) (hstart : start.Smooth)
    (hlen : start.incoming.length < len) : r.1 = false ∧ r.2.2.incoming = [] := by
  have hok : r.1 = false := by
    by_contra hnot
    have := (hout.eq_of_ok (by simpa using hnot)).1
    omega
  exact ⟨hok, hout.closed hstart hok⟩

theorem ReadOutcome.smooth (hout : ReadOutcome start len r) (hstart : start.Smooth) :
    r.2.2.Smooth :=
  hout.reading.smooth hstart

end Reading

/-! ## Handing bytes over -/

section Writing

variable {start s t : Socket} {data : List UInt8} {done : Nat}

/-- The first `done` bytes of `data` have been handed over since `start`. -/
structure Writing (start : Socket) (data : List UInt8) (s : Socket) (done : Nat) : Prop where
  outgoing : s.outgoing = start.outgoing ++ data.take done
  done_le : done ≤ data.length
  incoming : s.incoming = start.incoming
  smooth : start.Smooth → s.Smooth

theorem writing_start (start : Socket) (data : List UInt8) : Writing start data start 0 :=
  ⟨by simp, Nat.zero_le _, rfl, id⟩

/-- Some bytes are taken; at least one, if there was one. -/
theorem Writing.sent {count : Nat} (hwriting : Writing start data s done)
    (hsend : s.send ((data.drop done).take (data.length - done)) = (.sent count, t)) :
    Writing start data t (done + count) ∧ t.transfers.length ≤ s.transfers.length ∧
      (done < data.length → 0 < count) := by
  have hdone := hwriting.done_le
  have hall : (data.drop done).take (data.length - done) = data.drop done :=
    List.take_of_length_le (Nat.le_of_eq List.length_drop)
  rw [hall] at hsend
  unfold send at hsend
  split at hsend
  · cases hsend
    refine ⟨⟨?_, ?_, hwriting.incoming, hwriting.smooth⟩, Nat.le_refl _, ?_⟩
    · rw [hwriting.outgoing, List.length_drop, Nat.add_sub_cancel' hdone, List.take_length,
        List.append_assoc, List.take_append_drop]
    · rw [List.length_drop]
      omega
    · intro hlt
      rw [List.length_drop]
      omega
  · rename_i k rest htransfers
    cases hsend
    refine ⟨⟨?_, ?_, hwriting.incoming, ?_⟩, ?_, ?_⟩
    · have htake : (data.drop done).take (k + 1) =
          (data.drop done).take (min (k + 1) (data.drop done).length) := by
        rw [List.take_eq_take_iff]
        omega
      rw [hwriting.outgoing, htake, List.take_add, List.append_assoc]
    · rw [List.length_drop]
      omega
    · intro hstart
      exact (hwriting.smooth hstart).tail htransfers
    · rw [htransfers]
      exact Nat.le_succ _
    · intro hlt
      rw [List.length_drop]
      omega
  · cases hsend
  · cases hsend

theorem Writing.again {request : List UInt8} (hwriting : Writing start data s done)
    (hsend : s.send request = (.again, t)) :
    Writing start data t done ∧ t.transfers.length < s.transfers.length := by
  unfold send at hsend
  split at hsend
  · cases hsend
  · cases hsend
  · rename_i rest htransfers
    cases hsend
    refine ⟨⟨hwriting.outgoing, hwriting.done_le, hwriting.incoming, ?_⟩, ?_⟩
    · intro hstart
      exact (hwriting.smooth hstart).tail htransfers
    · rw [htransfers]
      exact Nat.lt_succ_self _
  · cases hsend

theorem Writing.failed {request : List UInt8} (hwriting : Writing start data s done)
    (hsend : s.send request = (.failed, t)) : Writing start data t done ∧ ¬ start.Smooth := by
  unfold send at hsend
  split at hsend
  · cases hsend
  · cases hsend
  · cases hsend
  · rename_i rest htransfers
    have hrough : ¬ start.Smooth := by
      intro hstart
      apply (hwriting.smooth hstart).1 .fails _ rfl
      rw [htransfers]
      exact List.mem_cons_self
    cases hsend
    exact ⟨⟨hwriting.outgoing, hwriting.done_le, hwriting.incoming,
      fun hstart => absurd hstart hrough⟩, hrough⟩

theorem Writing.waited {ready : Bool} (hwriting : Writing start data s done)
    (hwait : s.wait = (ready, t)) :
    Writing start data t done ∧ t.transfers = s.transfers ∧ (start.Smooth → ready = true) := by
  rcases wait_spec hwait with ⟨hincoming, houtgoing, htransfers, hsmooth⟩
  refine ⟨⟨houtgoing.trans hwriting.outgoing, hwriting.done_le,
    hincoming.trans hwriting.incoming, ?_⟩, htransfers, ?_⟩
  · intro hstart
    exact (hsmooth (hwriting.smooth hstart)).1
  · intro hstart
    exact (hsmooth (hwriting.smooth hstart)).2

/-- What a program that sends all of `data` ends with: whether it has, and the
socket. -/
structure WriteOutcome (start : Socket) (data : List UInt8) (r : Bool × Socket) : Prop where
  writing : ∃ done, Writing start data r.2 done ∧ (r.1 = true ↔ done = data.length)
  ok : start.Smooth → r.1 = true

theorem Writing.complete (hwriting : Writing start data s done) (hdone : data.length ≤ done) :
    WriteOutcome start data (true, s) := by
  refine ⟨⟨done, hwriting, ?_⟩, fun _ => rfl⟩
  constructor
  · intro _
    exact Nat.le_antisymm hwriting.done_le hdone
  · intro _
    rfl

theorem Writing.incomplete (hwriting : Writing start data s done) (hdone : done < data.length)
    (hrough : ¬ start.Smooth) : WriteOutcome start data (false, s) := by
  refine ⟨⟨done, hwriting, ?_⟩, fun hstart => absurd hstart hrough⟩
  constructor
  · intro hfalse
    cases hfalse
  · intro heq
    exact absurd heq (Nat.ne_of_lt hdone)

variable {r : Bool × Socket}

theorem WriteOutcome.incoming (hout : WriteOutcome start data r) :
    r.2.incoming = start.incoming := by
  rcases hout.writing with ⟨done, hwriting, -⟩
  exact hwriting.incoming

/-- On success everything has been handed over. -/
theorem WriteOutcome.outgoing_of_ok (hout : WriteOutcome start data r) (hok : r.1 = true) :
    r.2.outgoing = start.outgoing ++ data := by
  rcases hout.writing with ⟨done, hwriting, hdone⟩
  rw [hwriting.outgoing, hdone.1 hok, List.take_length]

/-- Without failures everything is handed over, whatever the chunks. -/
theorem WriteOutcome.eq_of_smooth (hout : WriteOutcome start data r) (hstart : start.Smooth) :
    r.1 = true ∧ r.2.outgoing = start.outgoing ++ data ∧ r.2.Smooth := by
  have hok := hout.ok hstart
  rcases hout.writing with ⟨done, hwriting, -⟩
  exact ⟨hok, hout.outgoing_of_ok hok, hwriting.smooth hstart⟩

end Writing

end Socket
