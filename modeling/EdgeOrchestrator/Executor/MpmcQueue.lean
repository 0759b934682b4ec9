import EdgeOrchestrator.Library.StateMachine
import Mathlib.Data.Nat.Log
import Mathlib.Data.Nat.ModEq

/-!
# The bounded lock-free queue

`MpmcQueue` is a ring of cells, each with a sequence number that says whose
turn the cell is on.  Any number of threads run `try_push` and `try_pop`; every
load, compare-exchange, value access and store is one step, in any
interleaving.  Positions and sequence numbers are 64-bit words.

Three logs record what a run has done: which position each push claimed with
which value, which values have been written, and which values were returned
by which dequeue position.

Main result:

- `Queue.step_cases` and `Queue.Transition.step_eq`: the steps of the machine are the named
  transitions.
-/

namespace EdgeOrchestrator

open Function (update update_eq_self update_of_ne update_self)

namespace MpmcQueue

/-! ## The ring -/

/-- A ring of `2 ^ log` cells, between 2 and `2 ^ 63`. -/
structure RingSize where
  log : Nat
  one_le : 1 ≤ log
  le : log ≤ 63

namespace RingSize

variable (size : RingSize)

/-- The number of cells. -/
def capacity : Nat :=
  2 ^ size.log

/-- The constructor: `bit_ceil(capacity < 2 ? 2 : capacity)`. -/
def ofRequested (capacity : Nat) (h : capacity ≤ 2 ^ 63) : RingSize where
  log := Nat.clog 2 (max 2 capacity)
  one_le := Nat.clog_pos (by decide) (le_max_left 2 capacity)
  le := (Nat.clog_le_iff_le_pow (by decide)).2 (max_le (by decide) h)

/-- `pos & mask_`. -/
def index (pos : Nat) : Nat :=
  pos &&& (size.capacity - 1)

/-- The mask takes the position modulo the capacity. -/
theorem index_eq_mod (pos : Nat) : size.index pos = pos % size.capacity :=
  Nat.and_two_pow_sub_one_eq_mod pos size.log

theorem two_le_capacity : 2 ≤ size.capacity := by
  have hpow : 2 ^ 1 ≤ 2 ^ size.log := Nat.pow_le_pow_right (by decide) size.one_le
  simpa [capacity] using hpow

theorem capacity_le : size.capacity ≤ 2 ^ 63 :=
  Nat.pow_le_pow_right (by decide) size.le

/-- Two positions less than one lap apart use different cells. -/
theorem index_ne {p q : Nat} (hlt : p < q) (hlap : q < p + size.capacity) :
    size.index p ≠ size.index q := by
  rw [size.index_eq_mod, size.index_eq_mod]
  intro h
  have hdvd : size.capacity ∣ q - p := (Nat.modEq_iff_dvd' hlt.le).1 h
  have hle := Nat.le_of_dvd (by omega) hdvd
  omega

/-- Positions within one lap use different cells. -/
theorem index_ne_of_near {p q : Nat} (hne : q ≠ p) (hlt : q < p + size.capacity)
    (hgt : p < q + size.capacity) :
    size.index q ≠ size.index p := by
  rcases Nat.lt_or_gt_of_ne hne with h | h
  · exact size.index_ne h hgt
  · exact (size.index_ne h hlt).symm

/-- Updating the cell of `p` leaves the cell of any other position alone that is
less than one lap away. -/
theorem update_index {β : Type*} (size : RingSize) (f : Nat → β) (x : β) {p q : Nat}
    (hne : q ≠ p) (hlt : q < p + size.capacity) (hgt : p < q + size.capacity) :
    update f (size.index p) x (size.index q) = f (size.index q) :=
  update_of_ne (size.index_ne_of_near hne hlt hgt) x f

/-- One lap further is the same cell. -/
theorem index_add_capacity (p : Nat) : size.index (p + size.capacity) = size.index p := by
  rw [size.index_eq_mod, size.index_eq_mod, Nat.add_mod_right]

end RingSize

/-! ## The machine -/

/-- `static_cast<intptr_t>(a) - static_cast<intptr_t>(b)` in two's complement. -/
def signedDiff (a b : Nat) : Int :=
  Int.bmod ((a : Int) - b) (2 ^ 64)

/-- Counters that are less than half the range apart compare as numbers. -/
theorem signedDiff_eq {a b : Nat} (hlow : b ≤ a + 2 ^ 63) (hhigh : a < b + 2 ^ 63) :
    signedDiff a b = (a : Int) - b := by
  rw [signedDiff, Int.bmod_def]
  split
  · omega
  · omega

/-- Wrapped counters compare as the counters themselves. -/
theorem signedDiff_mod (a b : Nat) : signedDiff (a % 2 ^ 64) (b % 2 ^ 64) = signedDiff a b := by
  rw [signedDiff, signedDiff, Int.bmod_def, Int.bmod_def]
  omega

/-- Where a thread stands in a call; the atomic step named is the next one.  A push refers to
the caller's object, which holds the value until it is moved into the cell.  A push that has
returned tells what the object holds now: the value, or nothing after the move. -/
inductive Phase (α : Type*) where
  | idle
  | pushLoad (value : α)
  | pushSeq (value : α) (pos : Nat)
  | pushCas (value : α) (pos : Nat)
  | pushWrite (value : α) (pos : Nat)
  | pushStore (pos : Nat)
  | pushDone (ok : Bool) (left : Option α)
  | popLoad
  | popSeq (pos : Nat)
  | popCas (pos : Nat)
  | popRead (pos : Nat)
  | popStore (pos : Nat) (out : α)
  | popDone (out : Option α)
deriving DecidableEq, Repr

/-- The shared ring, the threads, and the logs of the run. -/
structure Queue (ι α : Type*) where
  enqueuePos : Nat
  dequeuePos : Nat
  sequence : Nat → Nat
  value : Nat → α
  phase : ι → Phase α
  /-- Claimed enqueue positions with the value of the push. -/
  pushLog : List (Nat × α)
  /-- Positions whose value has been written. -/
  written : List Nat
  /-- Claimed dequeue positions with the value the pop returned. -/
  popLog : List (Nat × α)

/-- What the scheduler lets a thread do. -/
inductive Act (α : Type*) where
  | callPush (value : α)
  | callPop
  /-- The next atomic step of the running call. -/
  | next
  /-- The weak compare-exchange fails spuriously. -/
  | spurious
  /-- The move out of the cell, which leaves an unspecified value behind. -/
  | take (residue : α)
  | leave
deriving DecidableEq, Repr

/-- The steps inside a call, as opposed to calling and returning. -/
def isInner {α : Type*} : Act α → Bool
  | .next => true
  | .spurious => true
  | .take _ => true
  | _ => false

namespace Queue

variable {ι α : Type*} [DecidableEq ι] (s : Queue ι α) (t : ι)

def setPhase (phase : Phase α) : Queue ι α :=
  { s with phase := update s.phase t phase }

/-- The successful compare-exchange of `try_push`. -/
def claimPush (value : α) (pos : Nat) : Queue ι α :=
  { s with
    enqueuePos := (pos + 1) % 2 ^ 64
    phase := update s.phase t (.pushWrite value pos)
    pushLog := s.pushLog ++ [(pos, value)] }

variable (size : RingSize)

/-- `cell->value = std::move(value)`. -/
def writeCell (s : Queue ι α) (t : ι) (value : α) (pos : Nat) : Queue ι α :=
  { s with
    value := update s.value (size.index pos) value
    phase := update s.phase t (.pushStore pos)
    written := s.written ++ [pos] }

/-- `cell->sequence.store(pos + 1)`. -/
def publish (s : Queue ι α) (t : ι) (pos : Nat) : Queue ι α :=
  { s with
    sequence := update s.sequence (size.index pos) ((pos + 1) % 2 ^ 64)
    phase := update s.phase t (.pushDone true none) }

/-- The successful compare-exchange of `try_pop`. -/
def claimPop (pos : Nat) : Queue ι α :=
  { s with
    dequeuePos := (pos + 1) % 2 ^ 64
    phase := update s.phase t (.popRead pos) }

/-- `out = std::move(cell->value)`. -/
def takeValue (s : Queue ι α) (t : ι) (pos : Nat) (residue : α) : Queue ι α :=
  { s with
    value := update s.value (size.index pos) residue
    phase := update s.phase t (.popStore pos (s.value (size.index pos))) }

/-- `cell->sequence.store(pos + capacity_)`, after which the pop returns. -/
def recycle (s : Queue ι α) (t : ι) (pos : Nat) (out : α) : Queue ι α :=
  { s with
    sequence :=
      update s.sequence (size.index pos) ((pos + size.capacity) % 2 ^ 64)
    phase := update s.phase t (.popDone (some out))
    popLog := s.popLog ++ [(pos, out)] }

/-! ### Where a thread stands after an update -/

@[simp]
theorem phase_setPhase (phase : Phase α) : (s.setPhase t phase).phase t = phase :=
  update_self t _ s.phase

@[simp]
theorem setPhase_setPhase (phase phase' : Phase α) :
    (s.setPhase t phase).setPhase t phase' = s.setPhase t phase' := by
  simp [setPhase]

theorem claimPush_setPhase (phase : Phase α) (value : α) (pos : Nat)
    : (s.setPhase t phase).claimPush t value pos = s.claimPush t value pos := by
  simp [setPhase, claimPush]

theorem claimPop_setPhase (phase : Phase α) (pos : Nat) :
    (s.setPhase t phase).claimPop t pos = s.claimPop t pos := by
  simp [setPhase, claimPop]

/-- A thread that is back where it was. -/
theorem setPhase_eq_self {s : Queue ι α} {t : ι} {phase : Phase α} (h : s.phase t = phase) :
    s.setPhase t phase = s := by
  rw [setPhase, ← h, update_eq_self]

@[simp]
theorem phase_claimPush (value : α) (pos : Nat) :
    (s.claimPush t value pos).phase t = .pushWrite value pos :=
  update_self t _ s.phase

variable (size : RingSize)

@[simp]
theorem phase_writeCell (s : Queue ι α) (t : ι) (value : α) (pos : Nat) :
    (s.writeCell size t value pos).phase t = .pushStore pos :=
  update_self t _ s.phase

@[simp]
theorem phase_publish (s : Queue ι α) (t : ι) (pos : Nat) :
    (s.publish size t pos).phase t = .pushDone true none :=
  update_self t _ s.phase

@[simp]
theorem phase_claimPop (pos : Nat) : (s.claimPop t pos).phase t = .popRead pos :=
  update_self t _ s.phase

@[simp]
theorem phase_takeValue (s : Queue ι α) (t : ι) (pos : Nat) (residue : α) :
    (s.takeValue size t pos residue).phase t = .popStore pos (s.value (size.index pos)) :=
  update_self t _ s.phase

@[simp]
theorem phase_recycle (s : Queue ι α) (t : ι) (pos : Nat) (out : α) :
    (s.recycle size t pos out).phase t = .popDone (some out) :=
  update_self t _ s.phase

/-! ### Steps -/

/-- The branch `try_push` takes on the loaded sequence number. -/
def pushBranch (value : α) (pos sequence : Nat) : Phase α :=
  let diff := signedDiff sequence pos
  if diff = 0 then .pushCas value pos
  else if diff < 0 then .pushDone false (some value)
  else .pushLoad value

/-- The branch `try_pop` takes on the loaded sequence number. -/
def popBranch (pos sequence : Nat) : Phase α :=
  let diff := signedDiff sequence ((pos + 1) % 2 ^ 64)
  if diff = 0 then .popCas pos
  else if diff < 0 then .popDone none
  else .popLoad

/-- One atomic step of one thread. -/
def step (s : Queue ι α) (t : ι) (act : Act α) : Option (Queue ι α) :=
  match s.phase t, act with
  | .idle, .callPush value => some (s.setPhase t (.pushLoad value))
  | .idle, .callPop => some (s.setPhase t .popLoad)
  | .pushLoad value, .next => some (s.setPhase t (.pushSeq value s.enqueuePos))
  | .pushSeq value pos, .next =>
    some (s.setPhase t (pushBranch value pos (s.sequence (size.index pos))))
  | .pushCas value pos, .next =>
    if s.enqueuePos = pos then some (s.claimPush t value pos)
    else some (s.setPhase t (.pushSeq value s.enqueuePos))
  | .pushCas value _, .spurious => some (s.setPhase t (.pushSeq value s.enqueuePos))
  | .pushWrite value pos, .next => some (s.writeCell size t value pos)
  | .pushStore pos, .next => some (s.publish size t pos)
  | .pushDone _ _, .leave => some (s.setPhase t .idle)
  | .popLoad, .next => some (s.setPhase t (.popSeq s.dequeuePos))
  | .popSeq pos, .next =>
    some (s.setPhase t (popBranch pos (s.sequence (size.index pos))))
  | .popCas pos, .next =>
    if s.dequeuePos = pos then some (s.claimPop t pos)
    else some (s.setPhase t (.popSeq s.dequeuePos))
  | .popCas _, .spurious => some (s.setPhase t (.popSeq s.dequeuePos))
  | .popRead pos, .take residue => some (s.takeValue size t pos residue)
  | .popStore pos out, .next => some (s.recycle size t pos out)
  | .popDone _, .leave => some (s.setPhase t .idle)
  | _, _ => none

/-- What one step can do: one constructor for each atomic step of a call. -/
inductive Transition (size : RingSize) (s : Queue ι α) (t : ι) : Act α → Queue ι α → Prop
  | callPush (value : α) (h : s.phase t = .idle) :
      Transition size s t (.callPush value) (s.setPhase t (.pushLoad value))
  | callPop (h : s.phase t = .idle) : Transition size s t .callPop (s.setPhase t .popLoad)
  | pushLoad (value : α) (h : s.phase t = .pushLoad value) :
      Transition size s t .next (s.setPhase t (.pushSeq value s.enqueuePos))
  | pushSeq (value : α) (pos : Nat) (h : s.phase t = .pushSeq value pos) :
      Transition size s t .next
        (s.setPhase t (pushBranch value pos (s.sequence (size.index pos))))
  | claimPush (value : α) (pos : Nat) (h : s.phase t = .pushCas value pos)
      (hpos : s.enqueuePos = pos) : Transition size s t .next (s.claimPush t value pos)
  | pushReload (value : α) (pos : Nat) (h : s.phase t = .pushCas value pos)
      (hpos : s.enqueuePos ≠ pos) :
      Transition size s t .next (s.setPhase t (.pushSeq value s.enqueuePos))
  | pushSpurious (value : α) (pos : Nat) (h : s.phase t = .pushCas value pos) :
      Transition size s t .spurious (s.setPhase t (.pushSeq value s.enqueuePos))
  | writeCell (value : α) (pos : Nat) (h : s.phase t = .pushWrite value pos) :
      Transition size s t .next (s.writeCell size t value pos)
  | publish (pos : Nat) (h : s.phase t = .pushStore pos) :
      Transition size s t .next (s.publish size t pos)
  | leavePush (ok : Bool) (left : Option α) (h : s.phase t = .pushDone ok left) :
      Transition size s t .leave (s.setPhase t .idle)
  | popLoad (h : s.phase t = .popLoad) :
      Transition size s t .next (s.setPhase t (.popSeq s.dequeuePos))
  | popSeq (pos : Nat) (h : s.phase t = .popSeq pos) :
      Transition size s t .next (s.setPhase t (popBranch pos (s.sequence (size.index pos))))
  | claimPop (pos : Nat) (h : s.phase t = .popCas pos) (hpos : s.dequeuePos = pos) :
      Transition size s t .next (s.claimPop t pos)
  | popReload (pos : Nat) (h : s.phase t = .popCas pos) (hpos : s.dequeuePos ≠ pos) :
      Transition size s t .next (s.setPhase t (.popSeq s.dequeuePos))
  | popSpurious (pos : Nat) (h : s.phase t = .popCas pos) :
      Transition size s t .spurious (s.setPhase t (.popSeq s.dequeuePos))
  | takeValue (pos : Nat) (residue : α) (h : s.phase t = .popRead pos) :
      Transition size s t (.take residue) (s.takeValue size t pos residue)
  | recycle (pos : Nat) (out : α) (h : s.phase t = .popStore pos out) :
      Transition size s t .next (s.recycle size t pos out)
  | leavePop (out : Option α) (h : s.phase t = .popDone out) :
      Transition size s t .leave (s.setPhase t .idle)

/-- Every step of the machine is one of the transitions. -/
theorem step_cases {size : RingSize} {s s' : Queue ι α} {t : ι} {act : Act α}
    (hstep : s.step size t act = some s') : Transition size s t act s' := by
  unfold step at hstep
  split at hstep
  case h_1 value hphase => cases hstep; exact .callPush value hphase
  case h_2 hphase => cases hstep; exact .callPop hphase
  case h_3 value hphase => cases hstep; exact .pushLoad value hphase
  case h_4 value pos hphase => cases hstep; exact .pushSeq value pos hphase
  case h_5 value pos hphase =>
    split at hstep
    case isTrue hpos => cases hstep; exact .claimPush value pos hphase hpos
    case isFalse hpos => cases hstep; exact .pushReload value pos hphase hpos
  case h_6 value pos hphase => cases hstep; exact .pushSpurious value pos hphase
  case h_7 value pos hphase => cases hstep; exact .writeCell value pos hphase
  case h_8 pos hphase => cases hstep; exact .publish pos hphase
  case h_9 ok left hphase => cases hstep; exact .leavePush ok left hphase
  case h_10 hphase => cases hstep; exact .popLoad hphase
  case h_11 pos hphase => cases hstep; exact .popSeq pos hphase
  case h_12 pos hphase =>
    split at hstep
    case isTrue hpos => cases hstep; exact .claimPop pos hphase hpos
    case isFalse hpos => cases hstep; exact .popReload pos hphase hpos
  case h_13 pos hphase => cases hstep; exact .popSpurious pos hphase
  case h_14 pos residue hphase => cases hstep; exact .takeValue pos residue hphase
  case h_15 pos out hphase => cases hstep; exact .recycle pos out hphase
  case h_16 out hphase => cases hstep; exact .leavePop out hphase
  case h_17 => cases hstep

/-- Every transition is a step of the machine. -/
theorem Transition.step_eq {size : RingSize} {s s' : Queue ι α} {t : ι} {act : Act α}
    (htransition : Transition size s t act s') : s.step size t act = some s' := by
  unfold step
  cases htransition with
  | claimPush value pos h hpos =>
    rw [h]
    exact if_pos hpos
  | pushReload value pos h hpos =>
    rw [h]
    exact if_neg hpos
  | claimPop pos h hpos =>
    rw [h]
    exact if_pos hpos
  | popReload pos h hpos =>
    rw [h]
    exact if_neg hpos
  | _ => simp only [*]

/-- A finished push can return. -/
theorem step_leave_push {size : RingSize} {s : Queue ι α} {t : ι} {ok : Bool} {left : Option α}
    (h : s.phase t = .pushDone ok left) : s.step size t .leave = some (s.setPhase t .idle) :=
  (Transition.leavePush ok left h).step_eq

/-- A finished pop can return. -/
theorem step_leave_pop {size : RingSize} {s : Queue ι α} {t : ι} {out : Option α}
    (h : s.phase t = .popDone out) : s.step size t .leave = some (s.setPhase t .idle) :=
  (Transition.leavePop out h).step_eq

/-! ### The steps of a call that nobody disturbs -/

section Undisturbed

variable (size : RingSize) (s : Queue ι α) (t : ι) (value : α)

theorem step_pushLoad :
    (s.setPhase t (.pushLoad value)).step size t .next =
      some (s.setPhase t (.pushSeq value s.enqueuePos)) := by
  rw [(Transition.pushLoad value (phase_setPhase s t _)).step_eq, setPhase_setPhase]
  rfl

variable (pos : Nat)

theorem step_pushSeq :
    (s.setPhase t (.pushSeq value pos)).step size t .next =
      some (s.setPhase t (pushBranch value pos (s.sequence (size.index pos)))) := by
  rw [(Transition.pushSeq value pos (phase_setPhase s t _)).step_eq, setPhase_setPhase]
  rfl

/-- The compare-exchange succeeds at the current position. -/
theorem step_pushCas :
    (s.setPhase t (.pushCas value s.enqueuePos)).step size t .next =
      some (s.claimPush t value s.enqueuePos) := by
  rw [(Transition.claimPush value s.enqueuePos (phase_setPhase s t _) rfl).step_eq,
    claimPush_setPhase]

theorem step_pushWrite :
    (s.claimPush t value pos).step size t .next =
      some ((s.claimPush t value pos).writeCell size t value pos) :=
  (Transition.writeCell value pos (phase_claimPush s t value pos)).step_eq

theorem step_pushStore :
    (s.writeCell size t value pos).step size t .next =
      some ((s.writeCell size t value pos).publish size t pos) :=
  (Transition.publish pos (phase_writeCell size s t value pos)).step_eq

theorem step_popLoad :
    (s.setPhase t .popLoad).step size t .next = some (s.setPhase t (.popSeq s.dequeuePos)) := by
  rw [(Transition.popLoad (phase_setPhase s t _)).step_eq, setPhase_setPhase]
  rfl

theorem step_popSeq :
    (s.setPhase t (.popSeq pos)).step size t .next =
      some (s.setPhase t (popBranch pos (s.sequence (size.index pos)))) := by
  rw [(Transition.popSeq pos (phase_setPhase s t _)).step_eq, setPhase_setPhase]
  rfl

/-- The compare-exchange succeeds at the current position. -/
theorem step_popCas :
    (s.setPhase t (.popCas s.dequeuePos)).step size t .next =
      some (s.claimPop t s.dequeuePos) := by
  rw [(Transition.claimPop s.dequeuePos (phase_setPhase s t _) rfl).step_eq, claimPop_setPhase]

theorem step_popRead (residue : α) :
    (s.claimPop t pos).step size t (.take residue) =
      some ((s.claimPop t pos).takeValue size t pos residue) :=
  (Transition.takeValue pos residue (phase_claimPop s t pos)).step_eq

theorem step_popStore (residue : α) :
    (s.takeValue size t pos residue).step size t .next =
      some ((s.takeValue size t pos residue).recycle size t pos (s.value (size.index pos))) :=
  (Transition.recycle pos _ (phase_takeValue size s t pos residue)).step_eq

end Undisturbed

/-- `size_approx`. -/
def sizeApprox (s : Queue ι α) : Nat :=
  if s.enqueuePos ≥ s.dequeuePos then s.enqueuePos - s.dequeuePos else 0

end Queue

/-- A fresh queue: cell `i` has sequence number `i` and a default value. -/
def fresh (ι α : Type*) [Inhabited α] : Queue ι α where
  enqueuePos := 0
  dequeuePos := 0
  sequence := fun i => i
  value := fun _ => default
  phase := fun _ => .idle
  pushLog := []
  written := []
  popLog := []

/-- All interleavings of any threads on a fresh queue. -/
def machine (size : RingSize) (ι α : Type*) [DecidableEq ι] [Inhabited α] :
    StateMachine (Queue ι α) (ι × Act α) where
  initial := fresh ι α
  step s label := s.step size label.1 label.2

end MpmcQueue

end EdgeOrchestrator
