import EdgeOrchestrator.Core.Types
import EdgeOrchestrator.Library.Alignment
import EdgeOrchestrator.Library.StateMachine

/-!
# The bump arena

`MemoryPool` hands out blocks of one buffer by moving a single atomic offset.
`allocate` computes the aligned start and the new offset in wrapping 64-bit
arithmetic, compares the wrapped sum with the capacity, and claims the block
with a compare-exchange that may fail spuriously.  Any number of threads
allocate and reset in any interleaving.

A request near `2 ^ 64` wraps the sum around, so that the comparison accepts a
block that lies outside the buffer.  `can_allocate` makes the same comparison
without aligning the offset, so that it and `allocate` can disagree.

Main results:

- `arena_safe_iff`: an interleaving is safe at every step exactly when no block it returns
  wraps.
- `blocks_of_run_attempts`: a call that runs alone returns the block of `allocate`, or none.
- `canAllocate_agrees_iff`: when the capacity query agrees with the allocator.
-/

namespace EdgeOrchestrator

namespace MemoryPool

open Alignment

/-! ## The machine -/

/-- A returned block, in exact arithmetic. -/
structure Block where
  start : Nat
  size : Nat
  alignment : Nat
deriving DecidableEq, Repr

/-- A thread inside `allocate` holds the offset it last read; the alignment is
`2 ^ log`. -/
inductive Phase where
  | idle
  | attempting (current size : U64) (log : Fin 64)
deriving DecidableEq, Repr

/-- The offset, the threads, and the blocks returned since the last reset. -/
structure Arena (ι : Type*) where
  offset : U64
  phase : ι → Phase
  blocks : List Block

/-- `reset` may run at any time; `attempt` is one round of the loop. -/
inductive Label (ι : Type*) where
  | load (t : ι) (size : U64) (log : Fin 64)
  | attempt (t : ι) (spurious : Bool)
  | reset
deriving DecidableEq, Repr

/-- `(current + alignment - 1) & ~(alignment - 1)`. -/
def alignedOffset (current : U64) (log : Fin 64) : U64 :=
  (current + BitVec.ofNat 64 (2 ^ log.val) - 1) &&& ~~~(BitVec.ofNat 64 (2 ^ log.val) - 1)

/-- `MemoryPool::used`. -/
def used {ι : Type*} (s : Arena ι) : Nat :=
  s.offset.toNat

section Machine

variable {ι : Type*} [DecidableEq ι]

def setPhase (s : Arena ι) (t : ι) (phase : Phase) : Arena ι :=
  { s with phase := Function.update s.phase t phase }

/-- The successful compare-exchange. -/
def commit (s : Arena ι) (t : ι) (size : U64) (log : Fin 64) : Arena ι where
  offset := alignedOffset s.offset log + size
  phase := Function.update s.phase t .idle
  blocks := ⟨(alignedOffset s.offset log).toNat, size.toNat, 2 ^ log.val⟩ :: s.blocks

/-- One step; the bounds check compares the wrapped sum. -/
def step (capacity : U64) (s : Arena ι) : Label ι → Option (Arena ι)
  | .load t size log =>
    match s.phase t with
    | .idle => some (setPhase s t (.attempting s.offset size log))
    | .attempting _ _ _ => none
  | .attempt t spurious =>
    match s.phase t with
    | .idle => none
    | .attempting current size log =>
      if alignedOffset current log + size > capacity then some (setPhase s t .idle)
      else if s.offset = current ∧ spurious = false then some (commit s t size log)
      else some (setPhase s t (.attempting s.offset size log))
  | .reset => some { s with offset := 0, blocks := [] }

end Machine

/-- A pool from which nothing has been taken. -/
def fresh (ι : Type*) : Arena ι where
  offset := 0
  phase := fun _ => .idle
  blocks := []

/-- All interleavings of calls on one pool. -/
def machine (capacity : U64) (ι : Type*) [DecidableEq ι] :
    StateMachine (Arena ι) (Label ι) where
  initial := fresh ι
  step := step capacity

/-! ## Safety -/

/-- No byte belongs to both blocks. -/
def Block.Disjoint (b c : Block) : Prop :=
  ∀ x, b.start ≤ x → x < b.start + b.size → c.start ≤ x → ¬ x < c.start + c.size

/-- The blocks since the last reset are disjoint, inside the buffer and aligned,
and the offset is inside the buffer. -/
structure Safe {ι : Type*} (capacity : U64) (s : Arena ι) : Prop where
  disjoint : s.blocks.Pairwise Block.Disjoint
  inside : ∀ b ∈ s.blocks, b.start + b.size ≤ capacity.toNat
  aligned : ∀ b ∈ s.blocks, b.alignment ∣ b.start
  used_le : used s ≤ capacity.toNat

/-- The step ends in a safe state, and only a reset lowers the offset. -/
def SafeStep {ι : Type*} (capacity : U64) (s : Arena ι) (label : Label ι) (t : Arena ι) : Prop :=
  Safe capacity t ∧ (label ≠ .reset → used s ≤ used t)

/-- The size and alignment of the block the step would return. -/
def commits {ι : Type*} (capacity : U64) (s : Arena ι) : Label ι → Option (U64 × Fin 64)
  | .attempt t spurious =>
    match s.phase t with
    | .idle => none
    | .attempting current size log =>
      if alignedOffset current log + size > capacity then none
      else if s.offset = current ∧ spurious = false then some (size, log)
      else none
  | _ => none

/-- If the step returns a block, its exact end fits into 64 bits. -/
def CommitFits {ι : Type*} (capacity : U64) (s : Arena ι) (label : Label ι) : Prop :=
  ∀ size log, commits capacity s label = some (size, log) →
    alignUp (2 ^ log.val) s.offset.toNat + size.toNat < 2 ^ 64

/-! ## One step -/

/-- Alignment rounds up, modulo the word size. -/
theorem toNat_alignedOffset (current : U64) (log : Fin 64) :
    (alignedOffset current log).toNat = alignUp (2 ^ log.val) current.toNat % 2 ^ 64 :=
  toNat_alignMask log.isLt current

section Step

variable {ι : Type*} [DecidableEq ι] {capacity : U64} {s t : Arena ι} {label : Label ι}

/-- What a step can do to the offset and the blocks. -/
theorem step_cases (hstep : step capacity s label = some t) :
    (label = .reset ∧ t.offset = 0 ∧ t.blocks = []) ∨
      (label ≠ .reset ∧ commits capacity s label = none ∧ t.offset = s.offset ∧
        t.blocks = s.blocks) ∨
      ∃ u size log, label ≠ .reset ∧ commits capacity s label = some (size, log) ∧
        ¬ alignedOffset s.offset log + size > capacity ∧ t = commit s u size log := by
  cases label with
  | load u size log =>
    simp only [step] at hstep
    split at hstep
    · cases hstep
      exact Or.inr (Or.inl ⟨by simp, rfl, rfl, rfl⟩)
    · cases hstep
  | attempt u spurious =>
    simp only [step] at hstep
    split at hstep
    · cases hstep
    · rename_i current size log hphase
      have hcommits : commits capacity s (.attempt u spurious) =
          if alignedOffset current log + size > capacity then none
          else if s.offset = current ∧ spurious = false then some (size, log)
          else none := by
        simp only [commits, hphase]
      split at hstep
      · rename_i hfull
        cases hstep
        rw [if_pos hfull] at hcommits
        exact Or.inr (Or.inl ⟨by simp, hcommits, rfl, rfl⟩)
      · rename_i hroom
        rw [if_neg hroom] at hcommits
        split at hstep
        · rename_i hwins
          cases hstep
          rw [if_pos hwins] at hcommits
          rw [← hwins.1] at hroom
          exact Or.inr (Or.inr ⟨u, size, log, by simp, hcommits, hroom, rfl⟩)
        · rename_i hloses
          cases hstep
          rw [if_neg hloses] at hcommits
          exact Or.inr (Or.inl ⟨by simp, hcommits, rfl, rfl⟩)
  | reset =>
    cases hstep
    exact Or.inl ⟨rfl, rfl, rfl⟩

/-- What holds as long as no step has been unsafe: every block ends at or below
the offset, and a nonzero offset comes from a nonempty block. -/
structure ArenaInv (capacity : U64) (s : Arena ι) : Prop where
  safe : Safe capacity s
  below : ∀ b ∈ s.blocks, b.start + b.size ≤ used s
  nonempty : 0 < used s → ∃ b ∈ s.blocks, 0 < b.size

omit [DecidableEq ι] in
/-- The empty arena is sound. -/
theorem fresh_arenaInv (capacity : U64) : ArenaInv capacity (fresh ι) where
  safe :=
    { disjoint := List.Pairwise.nil
      inside := by simp [fresh]
      aligned := by simp [fresh]
      used_le := by simp [fresh, used] }
  below := by simp [fresh]
  nonempty := by
    intro h
    simp [fresh, used] at h

omit [DecidableEq ι] in
/-- A state that a reset has just emptied. -/
theorem arenaInv_of_reset (hoffset : t.offset = 0) (hblocks : t.blocks = []) :
    ArenaInv capacity t where
  safe :=
    { disjoint := by simp [hblocks]
      inside := by simp [hblocks]
      aligned := by simp [hblocks]
      used_le := by simp [used, hoffset] }
  below := by simp [hblocks]
  nonempty := by
    intro h
    simp [used, hoffset] at h

omit [DecidableEq ι] in
theorem ArenaInv.congr (hinv : ArenaInv capacity s) (hoffset : t.offset = s.offset)
    (hblocks : t.blocks = s.blocks) : ArenaInv capacity t where
  safe :=
    { disjoint := by
        rw [hblocks]
        exact hinv.safe.disjoint
      inside := by
        rw [hblocks]
        exact hinv.safe.inside
      aligned := by
        rw [hblocks]
        exact hinv.safe.aligned
      used_le := by
        rw [used, hoffset]
        exact hinv.safe.used_le }
  below := by
    rw [hblocks, used, hoffset]
    exact hinv.below
  nonempty := by
    rw [hblocks, used, hoffset]
    exact hinv.nonempty

/-- The wrapped sum that the bounds check looks at. -/
theorem toNat_commit_offset (s : Arena ι) (u : ι) (size : U64) (log : Fin 64) :
    used (commit s u size log) =
      (alignUp (2 ^ log.val) s.offset.toNat + size.toNat) % 2 ^ 64 := by
  rw [used, commit, BitVec.toNat_add, toNat_alignedOffset, Nat.mod_add_mod]

/-- A block whose exact end fits into 64 bits keeps the invariant. -/
theorem ArenaInv.commit_of_fits (hinv : ArenaInv capacity s) (u : ι) {size : U64}
    {log : Fin 64} (hroom : ¬ alignedOffset s.offset log + size > capacity)
    (hfits : alignUp (2 ^ log.val) s.offset.toNat + size.toNat < 2 ^ 64) :
    ArenaInv capacity (commit s u size log) ∧ used s ≤ used (commit s u size log) := by
  have hstart : (alignedOffset s.offset log).toNat =
      alignUp (2 ^ log.val) s.offset.toNat := by
    rw [toNat_alignedOffset]
    exact Nat.mod_eq_of_lt (by omega)
  have hused : used (commit s u size log) =
      alignUp (2 ^ log.val) s.offset.toNat + size.toNat := by
    rw [toNat_commit_offset]
    exact Nat.mod_eq_of_lt hfits
  have hcapacity : used (commit s u size log) ≤ capacity.toNat := by
    simpa [used, commit, BitVec.le_def] using hroom
  have hge : used s ≤ alignUp (2 ^ log.val) s.offset.toNat :=
    le_alignUp (Nat.two_pow_pos _) _
  refine ⟨⟨⟨?_, ?_, ?_, hcapacity⟩, ?_, ?_⟩, by omega⟩
  · refine List.pairwise_cons.2 ⟨?_, hinv.safe.disjoint⟩
    intro b hb x hlower _ _ hx
    have hbelow := hinv.below b hb
    simp only [hstart] at hlower
    omega
  · intro b hb
    rcases List.mem_cons.1 hb with rfl | hb
    · simp only [hstart]
      omega
    · exact hinv.safe.inside b hb
  · intro b hb
    rcases List.mem_cons.1 hb with rfl | hb
    · simp only [hstart]
      exact dvd_alignUp _ _
    · exact hinv.safe.aligned b hb
  · intro b hb
    rcases List.mem_cons.1 hb with rfl | hb
    · simp only [hstart]
      omega
    · have hbelow := hinv.below b hb
      omega
  · intro hpos
    by_cases hsize : 0 < size.toNat
    · exact ⟨_, List.mem_cons_self, hsize⟩
    · -- An empty block moves the offset only if an earlier one already did.
      have hzero : 0 < used s := by
        by_contra hnot
        have hoffset : s.offset.toNat = 0 := by
          simp only [used] at hnot
          omega
        have hlt := alignUp_lt (Nat.two_pow_pos log.val) s.offset.toNat
        have hdvd := dvd_alignUp (2 ^ log.val) s.offset.toNat
        have := Nat.eq_zero_of_dvd_of_lt hdvd (by omega)
        omega
      rcases hinv.nonempty hzero with ⟨b, hb, hbpos⟩
      exact ⟨b, List.mem_cons_of_mem _ hb, hbpos⟩

/-- A block whose exact end does not fit breaks safety: it leaves the buffer, or
it starts again at 0 and lowers the offset or overlaps an earlier block. -/
theorem ArenaInv.not_safeStep_of_wrap (hinv : ArenaInv capacity s) {u : ι} {size : U64}
    {log : Fin 64} (hlabel : label ≠ .reset)
    (hwrap : 2 ^ 64 ≤ alignUp (2 ^ log.val) s.offset.toNat + size.toNat) :
    ¬ SafeStep capacity s label (commit s u size log) := by
  intro hsafe
  have hnew : (⟨(alignedOffset s.offset log).toNat, size.toNat, 2 ^ log.val⟩ : Block) ∈
      (commit s u size log).blocks := List.mem_cons_self
  rcases alignUp_lt_or_eq log.isLt.le s.offset.isLt with hlt | heq
  · have hinside := hsafe.1.inside _ hnew
    simp only [toNat_alignedOffset, Nat.mod_eq_of_lt hlt] at hinside
    have := capacity.isLt
    omega
  · have hstart : (alignedOffset s.offset log).toNat = 0 := by
      rw [toNat_alignedOffset, heq, Nat.mod_self]
    have hmono := hsafe.2 hlabel
    have hsize := size.isLt
    rw [toNat_commit_offset, heq, Nat.add_mod_left, Nat.mod_eq_of_lt hsize] at hmono
    have hpos : 0 < used s := by
      have hupper := alignUp_lt (Nat.two_pow_pos log.val) s.offset.toNat
      have hpow : 2 ^ log.val ≤ 2 ^ 64 := Nat.pow_le_pow_right (by decide) log.isLt.le
      simp only [used]
      omega
    rcases hinv.nonempty hpos with ⟨b, hb, hbpos⟩
    have hbelow := hinv.below b hb
    have hdisjoint := (List.pairwise_cons.1 hsafe.1.disjoint).1 b hb
    refine hdisjoint b.start ?_ ?_ (le_refl _) (by omega)
    · simp only [hstart]
      omega
    · simp only [hstart]
      omega

/-- A round of the loop whose block fits: it wins the block, or reads the offset
again. -/
theorem attempt_of_fits {u : ι} {current size : U64} {log : Fin 64} {spurious : Bool}
    (hphase : s.phase u = .attempting current size log)
    (hfits : alignUp (2 ^ log.val) current.toNat + size.toNat ≤ capacity.toNat)
    (hstep : step capacity s (.attempt u spurious) = some t) :
    (commits capacity s (.attempt u spurious) = some (size, log) ∧ t = commit s u size log ∧
        used t = alignUp (2 ^ log.val) s.offset.toNat + size.toNat) ∨
      (commits capacity s (.attempt u spurious) = none ∧
        t = setPhase s u (.attempting s.offset size log)) := by
  have hcapacity := capacity.isLt
  have hroom : ¬ alignedOffset current log + size > capacity := by
    rw [gt_iff_lt, BitVec.lt_def, BitVec.toNat_add, toNat_alignedOffset, Nat.mod_add_mod,
      Nat.mod_eq_of_lt (by omega)]
    omega
  simp only [step, hphase, if_neg hroom] at hstep
  by_cases hwins : s.offset = current ∧ spurious = false
  · rw [if_pos hwins] at hstep
    cases hstep
    refine Or.inl ⟨?_, rfl, ?_⟩
    · simp only [commits, hphase, if_neg hroom, if_pos hwins]
    · rw [toNat_commit_offset, hwins.1]
      exact Nat.mod_eq_of_lt (by omega)
  · rw [if_neg hwins] at hstep
    cases hstep
    refine Or.inr ⟨?_, rfl⟩
    simp only [commits, hphase, if_neg hroom, if_neg hwins]

/-- At a state with sound blocks, a step is safe exactly when the block it
returns fits into 64 bits. -/
theorem safeStep_iff_commitFits (hinv : ArenaInv capacity s)
    (hstep : step capacity s label = some t) :
    SafeStep capacity s label t ↔ CommitFits capacity s label := by
  rcases step_cases hstep with ⟨hlabel, hoffset, hblocks⟩ |
    ⟨hlabel, hnone, hoffset, hblocks⟩ | ⟨u, size, log, hlabel, hsome, hroom, rfl⟩
  · refine iff_of_true ⟨(arenaInv_of_reset hoffset hblocks).safe, ?_⟩ ?_
    · intro h
      exact absurd hlabel h
    · intro size log hcommits
      rw [hlabel] at hcommits
      cases hcommits
  · refine iff_of_true ⟨(hinv.congr hoffset hblocks).safe, ?_⟩ ?_
    · intro _
      rw [used, used, hoffset]
    · intro size log hcommits
      rw [hnone] at hcommits
      cases hcommits
  · constructor
    · intro hsafe size' log' hcommits
      rw [hsome] at hcommits
      cases hcommits
      by_contra hwrap
      exact hinv.not_safeStep_of_wrap hlabel (by omega) hsafe
    · intro hfits
      have hcommit := hinv.commit_of_fits u hroom (hfits size log hsome)
      exact ⟨hcommit.1.safe, fun _ => hcommit.2⟩

/-- A safe step keeps the invariant. -/
theorem ArenaInv.step (hinv : ArenaInv capacity s) (hstep : step capacity s label = some t)
    (hsafe : SafeStep capacity s label t) : ArenaInv capacity t := by
  have hfits := (safeStep_iff_commitFits hinv hstep).1 hsafe
  rcases step_cases hstep with ⟨-, hoffset, hblocks⟩ |
    ⟨-, -, hoffset, hblocks⟩ | ⟨u, size, log, -, hsome, hroom, rfl⟩
  · exact arenaInv_of_reset hoffset hblocks
  · exact hinv.congr hoffset hblocks
  · exact (hinv.commit_of_fits u hroom (hfits size log hsome)).1

end Step

/-! ## Every interleaving -/

/-- For every capacity and every interleaving of allocations and resets: every
step is safe exactly when no returned block has an exact end beyond 64 bits. -/
theorem arena_safe_iff {ι : Type*} [DecidableEq ι] (capacity : U64)
    (labels : List (Label ι)) :
    (machine capacity ι).Along (SafeStep capacity) (machine capacity ι).initial labels ↔
      (machine capacity ι).Along (fun s label _ => CommitFits capacity s label)
        (machine capacity ι).initial labels := by
  apply StateMachine.along_iff_along (I := ArenaInv capacity)
  · intro s label t hinv hstep
    exact safeStep_iff_commitFits hinv hstep
  · intro s label t hinv hstep hsafe
    exact hinv.step hstep hsafe
  · exact fresh_arenaInv capacity

/-- Sixteen bytes, then `2 ^ 64 - 16` bytes, then sixteen bytes. -/
def wrappingRun : List (Label Unit) :=
  [.load () 16 4, .attempt () false, .load () (BitVec.ofNat 64 (2 ^ 64 - 16)) 4,
    .attempt () false, .load () 16 4, .attempt () false]

def wrappedArena : Arena Unit :=
  ((machine 1024 Unit).run (fresh Unit) wrappingRun).getD (fresh Unit)

/-- In a pool of 1024 bytes the second request is granted a block that ends far
outside the buffer, and the third one the same bytes as the first. -/
theorem arena_wraps :
    (machine 1024 Unit).Reachable wrappedArena ∧
      wrappedArena.blocks = [⟨0, 16, 16⟩, ⟨16, 2 ^ 64 - 16, 16⟩, ⟨0, 16, 16⟩] ∧
      ¬ Safe 1024 wrappedArena := by
  have hrun : (machine 1024 Unit).run (machine 1024 Unit).initial wrappingRun =
      some wrappedArena := rfl
  have hblocks : wrappedArena.blocks =
      [⟨0, 16, 16⟩, ⟨16, 2 ^ 64 - 16, 16⟩, ⟨0, 16, 16⟩] := by
    decide
  refine ⟨StateMachine.reachable_iff_run.2 ⟨_, hrun⟩, hblocks, ?_⟩
  intro hsafe
  have hinside := hsafe.inside ⟨16, 2 ^ 64 - 16, 16⟩ (by rw [hblocks]; simp)
  simp at hinside

/-! ## The capacity query -/

/-- `alignof(std::max_align_t)` is `2 ^ 4`. -/
def defaultAlignment : Fin 64 := 4

section Query

variable {ι : Type*}

/-- The query looks at the offset without aligning it. -/
def canAllocate (capacity : U64) (s : Arena ι) (size : U64) : Bool :=
  s.offset + size ≤ capacity

/-- What `allocate` returns when no other call interferes: a block or `nullptr`. -/
def allocate (capacity : U64) (s : Arena ι) (size : U64) (log : Fin 64) : Option Block :=
  if alignedOffset s.offset log + size > capacity then none
  else some ⟨(alignedOffset s.offset log).toNat, size.toNat, 2 ^ log.val⟩

/-- The bytes `allocate` skips to reach the default alignment. -/
def padding (s : Arena ι) : Nat :=
  alignUp (2 ^ defaultAlignment.val) s.offset.toNat - s.offset.toNat

/-- Moved on by the padding, the sum that the query computes passes a mark. -/
def Passes (s : Arena ι) (size : U64) (mark : Nat) : Prop :=
  ∃ k < padding s, (s.offset.toNat + size.toNat + k) % 2 ^ 64 = mark

/-- The query compares the wrapped sum with the capacity. -/
theorem canAllocate_iff {capacity : U64} {s : Arena ι} {size : U64} :
    canAllocate capacity s size = true ↔
      (s.offset.toNat + size.toNat) % 2 ^ 64 ≤ capacity.toNat := by
  rw [canAllocate, decide_eq_true_eq, BitVec.le_def, BitVec.toNat_add]

/-- The allocator aligns first, then compares the wrapped sum. -/
theorem allocate_isSome_iff {capacity : U64} {s : Arena ι} {size : U64} {log : Fin 64} :
    (allocate capacity s size log).isSome = true ↔
      (alignUp (2 ^ log.val) s.offset.toNat + size.toNat) % 2 ^ 64 ≤ capacity.toNat := by
  have hsum : (alignedOffset s.offset log + size).toNat =
      (alignUp (2 ^ log.val) s.offset.toNat + size.toNat) % 2 ^ 64 := by
    rw [BitVec.toNat_add, toNat_alignedOffset, Nat.mod_add_mod]
  rw [allocate, ← hsum, ← BitVec.le_def]
  split
  · rename_i hfull
    simpa using hfull
  · rename_i hroom
    simpa using hroom

theorem padding_lt (s : Arena ι) : padding s < 16 := by
  have hlt := alignUp_lt (a := 2 ^ defaultAlignment.val) (by decide) s.offset.toNat
  have hval : 2 ^ defaultAlignment.val = 16 := by decide
  rw [padding]
  omega

/-- The marks that are passed lie between the sum and the padded sum, on the circle of the
64-bit numbers. -/
theorem passes_iff {s : Arena ι} {size : U64} {mark : Nat} (hmark : mark < 2 ^ 64) :
    Passes s size mark ↔
      ((s.offset.toNat + size.toNat) % 2 ^ 64 ≤ mark ∧
          mark < (s.offset.toNat + size.toNat) % 2 ^ 64 + padding s) ∨
        mark + 2 ^ 64 < (s.offset.toNat + size.toNat) % 2 ^ 64 + padding s := by
  have hpadding := padding_lt s
  rw [Passes]
  constructor
  · rintro ⟨k, hk, hmod⟩
    omega
  · rintro (⟨hle, hlt⟩ | hwrap)
    · exact ⟨mark - (s.offset.toNat + size.toNat) % 2 ^ 64, by omega, by omega⟩
    · exact ⟨mark + 2 ^ 64 - (s.offset.toNat + size.toNat) % 2 ^ 64, by omega, by omega⟩

/-- The query agrees with `allocate` exactly when moving the sum on by the padding passes the
capacity and the largest offset, or neither. -/
theorem canAllocate_agrees_iff (capacity : U64) (s : Arena ι) (size : U64) :
    (canAllocate capacity s size = true ↔
        (allocate capacity s size defaultAlignment).isSome = true) ↔
      (Passes s size capacity.toNat ↔ Passes s size (2 ^ 64 - 1)) := by
  have hcapacity := capacity.isLt
  have hle := le_alignUp (a := 2 ^ defaultAlignment.val) (by decide) s.offset.toNat
  have hpadding : padding s < 16 := padding_lt s
  rw [canAllocate_iff, allocate_isSome_iff, passes_iff hcapacity, passes_iff (by omega)]
  have hsum : (alignUp (2 ^ defaultAlignment.val) s.offset.toNat + size.toNat) % 2 ^ 64 =
      ((s.offset.toNat + size.toNat) % 2 ^ 64 + padding s) % 2 ^ 64 := by
    rw [padding, Nat.mod_add_mod]
    congr 1
    omega
  rw [hsum]
  omega

section Call

variable [DecidableEq ι] {capacity : U64} {s : Arena ι} {t : ι} {size : U64} {log : Fin 64}

/-- A thread that has returned makes no further attempt. -/
theorem run_attempts_of_idle (hidle : s.phase t = .idle) (attempts : List Bool) {s' : Arena ι}
    (hrun : (machine capacity ι).run s (attempts.map (Label.attempt t)) = some s') :
    s' = s := by
  cases attempts with
  | nil =>
    cases hrun
    rfl
  | cons spurious attempts => simp [StateMachine.run_cons, machine, step, hidle] at hrun

/-- However often the compare-exchange fails spuriously, a call that runs alone returns the
block of `allocate`, or none. -/
theorem blocks_of_run_attempts (attempts : List Bool) {s' : Arena ι}
    (hrun : (machine capacity ι).run (setPhase s t (.attempting s.offset size log))
      (attempts.map (Label.attempt t)) = some s') (hidle : s'.phase t = .idle) :
    s'.blocks = (allocate capacity s size log).toList ++ s.blocks := by
  induction attempts with
  | nil =>
    cases hrun
    simp [setPhase] at hidle
  | cons spurious attempts ih =>
    rw [List.map_cons, StateMachine.run_cons] at hrun
    obtain ⟨next, hstep, hrest⟩ := Option.bind_eq_some_iff.1 hrun
    simp only [machine, step, setPhase, Function.update_self, true_and] at hstep
    by_cases hfull : alignedOffset s.offset log + size > capacity
    · rw [if_pos hfull] at hstep
      cases hstep
      rw [run_attempts_of_idle (by simp) attempts hrest, allocate, if_pos hfull]
      rfl
    · rw [if_neg hfull] at hstep
      cases spurious with
      | false =>
        cases hstep
        rw [run_attempts_of_idle (by simp [commit]) attempts hrest, allocate, if_neg hfull]
        rfl
      | true =>
        simp only [Bool.true_eq_false, if_false, Function.update_idem] at hstep
        cases hstep
        exact ih hrest

/-- A call that runs alone returns at its first attempt that does not fail spuriously. -/
theorem exists_run_allocate (hidle : s.phase t = .idle) :
    ∃ s', (machine capacity ι).run s [.load t size log, .attempt t false] = some s' ∧
      s'.phase t = .idle := by
  simp only [StateMachine.run_cons, StateMachine.run_nil, machine, step, hidle, setPhase,
    Option.bind_some, Function.update_self]
  split
  · exact ⟨_, rfl, by simp⟩
  · exact ⟨_, rfl, by simp [commit]⟩

end Call

end Query

/-- A pool of sixteen bytes after one request for a single byte. -/
def unalignedArena : Arena Unit :=
  ((machine 16 Unit).run (fresh Unit) [.load () 1 0, .attempt () false]).getD (fresh Unit)

/-- The query promises the fifteen bytes that are left; the allocator skips them. -/
theorem canAllocate_ignores_padding :
    (machine 16 Unit).Reachable unalignedArena ∧
      canAllocate 16 unalignedArena 15 = true ∧
      allocate 16 unalignedArena 15 defaultAlignment = none := by
  have hrun : (machine 16 Unit).run (machine 16 Unit).initial
      [.load () 1 0, .attempt () false] = some unalignedArena := rfl
  exact ⟨StateMachine.reachable_iff_run.2 ⟨_, hrun⟩, by decide, by decide⟩

end MemoryPool

end EdgeOrchestrator
