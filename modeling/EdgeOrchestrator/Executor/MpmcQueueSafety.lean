import EdgeOrchestrator.Executor.MpmcQueue
import Mathlib.Data.List.Nodup
import Mathlib.Data.List.Range

/-!
# Safety of the bounded lock-free queue

The invariant ties every cell's sequence number to the two global positions
and to the threads that own a cell, while positions that a thread has merely
loaded may be stale.  It is kept by each of the seven shared-memory
transitions.

Main results:

- `RingInv.step`: one atomic step keeps the ring invariant.
- `queue_safe`: nothing is lost, duplicated or torn, and the positions stay within one lap.
-/

namespace EdgeOrchestrator

open scoped StateMachine
open Function (update update_of_ne update_self)

namespace MpmcQueue

/-! ## The ring invariant -/

section Invariant

variable {ι α : Type*} (size : RingSize)

/-- A push owns the cell of position `p`. -/
structure Writing (s : Queue ι α) (p : Nat) : Prop where
  lower : s.dequeuePos ≤ p
  upper : p < s.enqueuePos
  sequence : s.sequence (size.index p) = p

/-- A pop owns the cell of position `p`. -/
structure Reading (s : Queue ι α) (p : Nat) : Prop where
  upper : p < s.dequeuePos
  lap : s.enqueuePos ≤ p + size.capacity
  sequence : s.sequence (size.index p) = p + 1
  fresh : p ∉ s.popLog.map Prod.fst

/-- What a thread may rely on in each phase.  A position it has only loaded may
be stale; its cell says something about it only as long as it is current. -/
def ThreadInv (s : Queue ι α) : Phase α → Prop
  | .pushSeq _ p => p ≤ s.enqueuePos
  | .pushCas _ p => p ≤ s.enqueuePos ∧ (p = s.enqueuePos →
      p < s.dequeuePos + size.capacity ∧ s.sequence (size.index p) = p)
  | .pushWrite v p => Writing size s p ∧ (p, v) ∈ s.pushLog
  | .pushStore p => Writing size s p ∧ (p, s.value (size.index p)) ∈ s.pushLog ∧
      p ∈ s.written
  | .popSeq p => p ≤ s.dequeuePos
  | .popCas p => p ≤ s.dequeuePos ∧ (p = s.dequeuePos →
      p < s.enqueuePos ∧ s.sequence (size.index p) = p + 1)
  | .popRead p => Reading size s p ∧ (p, s.value (size.index p)) ∈ s.pushLog ∧
      p ∈ s.written
  | .popStore p v => Reading size s p ∧ (p, v) ∈ s.pushLog ∧ p ∈ s.written
  | _ => True

/-- The position whose cell a push owns. -/
def Phase.writes : Phase α → Option Nat
  | .pushWrite _ p => some p
  | .pushStore p => some p
  | _ => none

/-- The position whose cell a pop owns. -/
def Phase.reads : Phase α → Option Nat
  | .popRead p => some p
  | .popStore p _ => some p
  | _ => none

/-- The invariant of the ring.  The window of live positions runs from the
dequeue position over one lap: below the enqueue position a cell is claimed or
published, above it a cell is free or still being emptied for the last lap. -/
structure RingInv (s : Queue ι α) : Prop where
  small : s.enqueuePos < 2 ^ 64
  positions : s.pushLog.map Prod.fst = List.range s.enqueuePos
  order : s.dequeuePos ≤ s.enqueuePos
  lap : s.enqueuePos ≤ s.dequeuePos + size.capacity
  occupied : ∀ p, s.dequeuePos ≤ p → p < s.enqueuePos →
    (s.sequence (size.index p) = p ∧ ∃ t, (s.phase t).writes = some p) ∨
      (s.sequence (size.index p) = p + 1 ∧ (p, s.value (size.index p)) ∈ s.pushLog ∧
        p ∈ s.written)
  vacant : ∀ p, s.enqueuePos ≤ p → p < s.dequeuePos + size.capacity →
    s.sequence (size.index p) = p % 2 ^ 64 ∨
      (size.capacity ≤ p ∧ s.sequence (size.index p) = p - size.capacity + 1 ∧
        ∃ t, (s.phase t).reads = some (p - size.capacity))
  claimed : ∀ p, p < s.dequeuePos →
    p ∈ s.popLog.map Prod.fst ∨ ∃ t, (s.phase t).reads = some p
  threads : ∀ t, ThreadInv size s (s.phase t)
  writers : ∀ t u p, (s.phase t).writes = some p → (s.phase u).writes = some p → t = u
  readers : ∀ t u p, (s.phase t).reads = some p → (s.phase u).reads = some p → t = u
  popped : ∀ e ∈ s.popLog, e.1 < s.dequeuePos ∧ e ∈ s.pushLog ∧ e.1 ∈ s.written
  popped_nodup : (s.popLog.map Prod.fst).Nodup

variable {size} {s : Queue ι α} {t : ι}

/-- Positions are handed out in order, so the log holds each exactly once. -/
theorem RingInv.pushed_nodup (hinv : RingInv size s) : (s.pushLog.map Prod.fst).Nodup := by
  rw [hinv.positions]
  exact List.nodup_range

theorem RingInv.enqueuePos_eq (hinv : RingInv size s) : s.enqueuePos = s.pushLog.length := by
  simpa using (congrArg List.length hinv.positions).symm

/-- An owning push is in the live window. -/
theorem RingInv.writing (hinv : RingInv size s) {p : Nat}
    (hp : (s.phase t).writes = some p) : Writing size s p := by
  have ht := hinv.threads t
  cases hphase : s.phase t <;> rw [hphase] at hp ht <;> simp only [Phase.writes] at hp <;>
    cases hp
  · exact ht.1
  · exact ht.1

/-- Two pushes never own one cell. -/
theorem RingInv.writes_ne (hinv : RingInv size s) {u : ι} {p q : Nat} (hut : u ≠ t)
    (hq : (s.phase u).writes = some q) (hp : (s.phase t).writes = some p) : q ≠ p := by
  intro h
  rw [h] at hq
  exact hut (hinv.writers u t p hq hp)

/-- Two pops never own one cell. -/
theorem RingInv.reads_ne (hinv : RingInv size s) {u : ι} {p q : Nat} (hut : u ≠ t)
    (hq : (s.phase u).reads = some q) (hp : (s.phase t).reads = some p) : q ≠ p := by
  intro h
  rw [h] at hq
  exact hut (hinv.readers u t p hq hp)

/-- An owning pop is less than one lap behind. -/
theorem RingInv.reading (hinv : RingInv size s) {p : Nat}
    (hp : (s.phase t).reads = some p) : Reading size s p := by
  have ht := hinv.threads t
  cases hphase : s.phase t <;> rw [hphase] at hp ht <;> simp only [Phase.reads] at hp <;>
    cases hp
  · exact ht.1
  · exact ht.1

/-- A thread's knowledge survives a step of another thread that moves the
positions forward, keeps the logs, and leaves alone the cell at the enqueue
position while it is free, the cell at the dequeue position while it is
published, and every cell the thread owns. -/
theorem ThreadInv.frame {s' : Queue ι α} {ph : Phase α} (h : ThreadInv size s ph)
    (henq : s.enqueuePos ≤ s'.enqueuePos) (hdeq : s.dequeuePos ≤ s'.dequeuePos)
    (hlog : ∀ e ∈ s.pushLog, e ∈ s'.pushLog) (hwritten : ∀ p ∈ s.written, p ∈ s'.written)
    (hfree : s'.enqueuePos = s.enqueuePos → s.enqueuePos < s.dequeuePos + size.capacity →
      s.sequence (size.index s.enqueuePos) = s.enqueuePos →
      s'.sequence (size.index s.enqueuePos) = s.enqueuePos)
    (hpublished : s'.dequeuePos = s.dequeuePos → s.dequeuePos < s.enqueuePos →
      s.sequence (size.index s.dequeuePos) = s.dequeuePos + 1 →
      s'.sequence (size.index s.dequeuePos) = s.dequeuePos + 1)
    (hwrites : ∀ p, ph.writes = some p → Writing size s p →
      Writing size s' p ∧ s'.value (size.index p) = s.value (size.index p))
    (hreads : ∀ p, ph.reads = some p → Reading size s p →
      Reading size s' p ∧ s'.value (size.index p) = s.value (size.index p)) :
    ThreadInv size s' ph := by
  cases ph with
  | pushSeq v p => exact le_trans h henq
  | pushCas v p =>
    refine ⟨le_trans h.1 henq, fun hp => ?_⟩
    have hp' : p = s.enqueuePos := by
      have := h.1
      omega
    subst hp'
    rcases h.2 rfl with ⟨hlt, hseq⟩
    exact ⟨by omega, hfree hp.symm hlt hseq⟩
  | pushWrite v p => exact ⟨(hwrites p rfl h.1).1, hlog _ h.2⟩
  | pushStore p =>
    rcases hwrites p rfl h.1 with ⟨hwriting, hvalue⟩
    refine ⟨hwriting, ?_, hwritten _ h.2.2⟩
    rw [hvalue]
    exact hlog _ h.2.1
  | popSeq p => exact le_trans h hdeq
  | popCas p =>
    refine ⟨le_trans h.1 hdeq, fun hp => ?_⟩
    have hp' : p = s.dequeuePos := by
      have := h.1
      omega
    subst hp'
    rcases h.2 rfl with ⟨hlt, hseq⟩
    exact ⟨by omega, hpublished hp.symm hlt hseq⟩
  | popRead p =>
    rcases hreads p rfl h.1 with ⟨hreading, hvalue⟩
    refine ⟨hreading, ?_, hwritten _ h.2.2⟩
    rw [hvalue]
    exact hlog _ h.2.1
  | popStore p v => exact ⟨(hreads p rfl h.1).1, hlog _ h.2.1, hwritten _ h.2.2⟩
  | idle | pushLoad v | pushDone ok left | popLoad | popDone out => trivial

variable [DecidableEq ι]

/-- Ownership stays unique when one thread changes its phase to one that owns
nothing a different thread owns. -/
theorem owners_update {f : Phase α → Option Nat} {phase : ι → Phase α} {ph : Phase α}
    (hold : ∀ t u p, f (phase t) = some p → f (phase u) = some p → t = u)
    (hnew : ∀ p, f ph = some p → ∀ u, u ≠ t → f (phase u) ≠ some p) (u v : ι) (p : Nat)
    (hu : f (update phase t ph u) = some p)
    (hv : f (update phase t ph v) = some p) : u = v := by
  by_cases hut : u = t <;> by_cases hvt : v = t
  · rw [hut, hvt]
  · subst hut
    rw [update_self] at hu
    rw [update_of_ne hvt] at hv
    exact absurd hv (hnew p hu v hvt)
  · subst hvt
    rw [update_self] at hv
    rw [update_of_ne hut] at hu
    exact absurd hu (hnew p hv u hut)
  · rw [update_of_ne hut] at hu
    rw [update_of_ne hvt] at hv
    exact hold u v p hu hv

/-- An owner is not lost when a thread that is not the owner, or that stays the
owner, changes its phase. -/
theorem owner_update {f : Phase α → Option Nat} {phase : ι → Phase α} {ph : Phase α} {p : Nat}
    (hself : f (phase t) = some p → f ph = some p) (hold : ∃ u, f (phase u) = some p) :
    ∃ u, f (update phase t ph u) = some p := by
  rcases hold with ⟨u, hu⟩
  by_cases hut : u = t
  · subst hut
    exact ⟨u, by rw [update_self]; exact hself hu⟩
  · exact ⟨u, by rw [update_of_ne hut]; exact hu⟩

section Owners

variable {ph : Phase α} {p : Nat}

/-- The live cells keep their writers when a thread changes its phase and goes on writing
what it wrote. -/
theorem RingInv.occupied_update (hinv : RingInv size s)
    (hwrites : (s.phase t).writes = some p → ph.writes = some p) (hlower : s.dequeuePos ≤ p)
    (hupper : p < s.enqueuePos) :
    (s.sequence (size.index p) = p ∧ ∃ u, (update s.phase t ph u).writes = some p) ∨
      (s.sequence (size.index p) = p + 1 ∧ (p, s.value (size.index p)) ∈ s.pushLog ∧
        p ∈ s.written) :=
  (hinv.occupied p hlower hupper).imp_left fun h => ⟨h.1, owner_update hwrites h.2⟩

/-- The cells that are not yet free keep their readers. -/
theorem RingInv.vacant_update (hinv : RingInv size s)
    (hreads : (s.phase t).reads = some (p - size.capacity) →
      ph.reads = some (p - size.capacity))
    (hlower : s.enqueuePos ≤ p) (hupper : p < s.dequeuePos + size.capacity) :
    s.sequence (size.index p) = p % 2 ^ 64 ∨
      (size.capacity ≤ p ∧ s.sequence (size.index p) = p - size.capacity + 1 ∧
        ∃ u, (update s.phase t ph u).reads = some (p - size.capacity)) :=
  (hinv.vacant p hlower hupper).imp_right fun h => ⟨h.1, h.2.1, owner_update hreads h.2.2⟩

/-- A position that has been passed has been popped, or keeps its reader. -/
theorem RingInv.claimed_update (hinv : RingInv size s)
    (hreads : (s.phase t).reads = some p → ph.reads = some p) (hp : p < s.dequeuePos) :
    p ∈ s.popLog.map Prod.fst ∨ ∃ u, (update s.phase t ph u).reads = some p :=
  (hinv.claimed p hp).imp_right (owner_update hreads)

end Owners

/-- Thread knowledge after one thread changed its phase. -/
theorem threads_update {s' : Queue ι α} {phase : ι → Phase α} {ph : Phase α}
    (hself : ThreadInv size s' ph) (hothers : ∀ u, u ≠ t → ThreadInv size s' (phase u))
    (u : ι) : ThreadInv size s' (update phase t ph u) := by
  by_cases hu : u = t
  · rw [hu, update_self]
    exact hself
  · rw [update_of_ne hu]
    exact hothers u hu

/-! ## One lemma per transition -/

theorem RingInv.setPhase (hinv : RingInv size s) {ph : Phase α} (hph : ThreadInv size s ph)
    (hw : ph.writes = none) (hr : ph.reads = none) (hw₀ : (s.phase t).writes = none)
    (hr₀ : (s.phase t).reads = none) : RingInv size (s.setPhase t ph) where
  small := hinv.small
  positions := hinv.positions
  order := hinv.order
  lap := hinv.lap
  occupied := fun p => hinv.occupied_update (by simp [hw₀])
  vacant := fun p => hinv.vacant_update (by simp [hr₀])
  claimed := fun p => hinv.claimed_update (by simp [hr₀])
  threads := by
    have hframe : ∀ ph', ThreadInv size s ph' → ThreadInv size (s.setPhase t ph) ph' := by
      intro ph' h
      exact h.frame (le_refl _) (le_refl _) (fun _ he => he) (fun _ hp => hp)
        (fun _ _ hs => hs) (fun _ _ hs => hs)
        (fun _ _ h => ⟨⟨h.lower, h.upper, h.sequence⟩, rfl⟩)
        (fun _ _ h => ⟨⟨h.upper, h.lap, h.sequence, h.fresh⟩, rfl⟩)
    exact threads_update (hframe ph hph) fun u _ => hframe _ (hinv.threads u)
  writers := owners_update hinv.writers fun p hp => by simp [hw] at hp
  readers := owners_update hinv.readers fun p hp => by simp [hr] at hp
  popped := hinv.popped
  popped_nodup := hinv.popped_nodup

/-- A claimed enqueue position: the free cell now belongs to the push. -/
theorem RingInv.claimPush (hinv : RingInv size s) {v : α} {p : Nat}
    (ht : s.phase t = .pushCas v p) (hp : s.enqueuePos = p)
    (hsmall : s.enqueuePos + 1 < 2 ^ 64) : RingInv size (s.claimPush t v p) := by
  have htwo := size.two_le_capacity
  have hthread := hinv.threads t
  rw [ht] at hthread
  rcases hthread.2 hp.symm with ⟨hlap, hseq⟩
  have hnext : (p + 1) % 2 ^ 64 = p + 1 := Nat.mod_eq_of_lt (by omega)
  have horder := hinv.order
  have hframe : ∀ u, ThreadInv size (s.claimPush t v p) (s.phase u) := by
    intro u
    refine (hinv.threads u).frame ?_ (le_refl _) (fun e he => List.mem_append_left _ he)
      (fun _ h => h) ?_ (fun _ _ h => h) ?_ ?_
    · simp only [Queue.claimPush, hnext]
      omega
    · simp only [Queue.claimPush, hnext]
      omega
    · intro q _ hq
      refine ⟨⟨hq.lower, ?_, hq.sequence⟩, rfl⟩
      have := hq.upper
      simp only [Queue.claimPush, hnext]
      omega
    · intro q _ hq
      refine ⟨⟨hq.upper, ?_, hq.sequence, hq.fresh⟩, rfl⟩
      -- A pop one lap behind would still hold the cell that was found free.
      have hne : q + size.capacity ≠ p := by
        intro h
        have hq' := hq.sequence
        rw [← h, size.index_add_capacity] at hseq
        omega
      have := hq.lap
      simp only [Queue.claimPush, hnext]
      omega
  exact
    { small := by
        simp only [Queue.claimPush, hnext]
        omega
      positions := by
        simp only [Queue.claimPush, hnext, List.map_append, hinv.positions, List.range_succ]
        rw [hp]
        rfl
      order := by
        simp only [Queue.claimPush, hnext]
        omega
      lap := by
        simp only [Queue.claimPush, hnext]
        omega
      occupied := by
        intro q hlower hupper
        simp only [Queue.claimPush, hnext] at hlower hupper ⊢
        by_cases hq : q = p
        · rw [hq]
          exact Or.inl ⟨hseq, t, by simp [Phase.writes]⟩
        · rcases hinv.occupied q hlower (by omega) with h | h
          · exact Or.inl ⟨h.1, owner_update (fun hq' => by simp [ht, Phase.writes] at hq') h.2⟩
          · exact Or.inr ⟨h.1, List.mem_append_left _ h.2.1, h.2.2⟩
      vacant := by
        intro q hlower hupper
        simp only [Queue.claimPush, hnext] at hlower hupper ⊢
        exact hinv.vacant_update (by simp [ht, Phase.reads]) (by omega) hupper
      claimed := fun q => hinv.claimed_update (by simp [ht, Phase.reads])
      threads := by
        refine threads_update ⟨⟨?_, ?_, hseq⟩, ?_⟩ fun u _ => hframe u
        · simp only [Queue.claimPush]
          omega
        · simp only [Queue.claimPush, hnext]
          omega
        · simp [Queue.claimPush]
      writers := by
        refine owners_update hinv.writers fun q hq u _ hu => ?_
        have := (hinv.writing hu).upper
        cases hq
        omega
      readers := owners_update hinv.readers fun q hq => by cases hq
      popped := by
        intro e he
        have h := hinv.popped e he
        exact ⟨h.1, List.mem_append_left _ h.2.1, h.2.2⟩
      popped_nodup := hinv.popped_nodup }

/-- The value write touches only the cell the push owns. -/
theorem RingInv.writeCell (hinv : RingInv size s) {v : α} {p : Nat}
    (ht : s.phase t = .pushWrite v p) : RingInv size (s.writeCell size t v p) := by
  have hthread := hinv.threads t
  rw [ht] at hthread
  rcases hthread with ⟨hown, hlogged⟩
  have hlower := hown.lower
  have hupper := hown.upper
  have hlap := hinv.lap
  have hkeep : ∀ q, q ≠ p → q < p + size.capacity → p < q + size.capacity →
      (s.writeCell size t v p).value (size.index q) = s.value (size.index q) := by
    intro q hne hlt hgt
    exact size.update_index _ _ hne hlt hgt
  have hframe : ∀ u, u ≠ t → ThreadInv size (s.writeCell size t v p) (s.phase u) := by
    intro u hut
    refine (hinv.threads u).frame (le_refl _) (le_refl _) (fun _ he => he)
      (fun _ h => List.mem_append_left _ h) (fun _ _ h => h) (fun _ _ h => h) ?_ ?_
    · intro q hq hown'
      have hne : q ≠ p := hinv.writes_ne hut hq (by rw [ht]; rfl)
      have := hown'.lower
      have := hown'.upper
      exact ⟨⟨hown'.lower, hown'.upper, hown'.sequence⟩, hkeep q hne (by omega) (by omega)⟩
    · intro q _ hown'
      have := hown'.upper
      have := hown'.lap
      exact ⟨⟨hown'.upper, hown'.lap, hown'.sequence, hown'.fresh⟩,
        hkeep q (by omega) (by omega) (by omega)⟩
  exact
    { hinv with
      occupied := by
        intro q hq hq'
        rcases hinv.occupied q hq hq' with ⟨hseq, hwriter⟩ | ⟨hseq, hlog, hwritten⟩
        · refine Or.inl ⟨hseq, owner_update (fun hq => ?_) hwriter⟩
          rw [ht] at hq
          exact hq
        · have hne : q ≠ p := by
            intro h
            subst h
            have := hown.sequence
            omega
          simp only [Queue.writeCell] at hq hq'
          refine Or.inr ⟨hseq, ?_, List.mem_append_left _ hwritten⟩
          rw [hkeep q hne (by omega) (by omega)]
          exact hlog
      vacant := fun q => hinv.vacant_update (by simp [ht, Phase.reads])
      claimed := fun q => hinv.claimed_update (by simp [ht, Phase.reads])
      threads := by
        refine threads_update ⟨⟨hlower, hupper, hown.sequence⟩, ?_, ?_⟩ hframe
        · simpa [Queue.writeCell] using hlogged
        · simp [Queue.writeCell]
      writers := by
        refine owners_update hinv.writers fun q hq u hut hu => ?_
        cases hq
        exact hut (hinv.writers u t p hu (by rw [ht]; rfl))
      readers := owners_update hinv.readers fun q hq => by cases hq
      popped := by
        intro e he
        have h := hinv.popped e he
        exact ⟨h.1, h.2.1, List.mem_append_left _ h.2.2⟩
      popped_nodup := hinv.popped_nodup }

/-- Publishing hands the cell from the push to whoever pops the position. -/
theorem RingInv.publish (hinv : RingInv size s) {p : Nat}
    (ht : s.phase t = .pushStore p) : RingInv size (s.publish size t p) := by
  have hthread := hinv.threads t
  rw [ht] at hthread
  rcases hthread with ⟨hown, hlogged, hwritten⟩
  have hlower := hown.lower
  have hupper := hown.upper
  have hlap := hinv.lap
  have hsmall := hinv.small
  have hnext : (p + 1) % 2 ^ 64 = p + 1 := Nat.mod_eq_of_lt (by omega)
  have hkeep : ∀ q, q ≠ p → q < p + size.capacity → p < q + size.capacity →
      (s.publish size t p).sequence (size.index q) = s.sequence (size.index q) := by
    intro q hne hlt hgt
    exact size.update_index _ _ hne hlt hgt
  have hframe : ∀ u, u ≠ t → ThreadInv size (s.publish size t p) (s.phase u) := by
    intro u hut
    refine (hinv.threads u).frame (le_refl _) (le_refl _) (fun _ he => he)
      (fun _ h => h) ?_ ?_ ?_ ?_
    · intro _ hlt hseq
      rw [hkeep _ (by omega) (by omega) (by omega)]
      exact hseq
    · intro _ hlt hseq
      -- The published head cannot be the cell whose push is still under way.
      have hne : s.dequeuePos ≠ p := by
        intro h
        have := hown.sequence
        rw [h] at hseq
        omega
      rw [hkeep _ hne (by omega) (by omega)]
      exact hseq
    · intro q hq hown'
      have hne : q ≠ p := hinv.writes_ne hut hq (by rw [ht]; rfl)
      have := hown'.lower
      have := hown'.upper
      refine ⟨⟨hown'.lower, hown'.upper, ?_⟩, rfl⟩
      rw [hkeep q hne (by omega) (by omega)]
      exact hown'.sequence
    · intro q _ hown'
      have := hown'.upper
      have := hown'.lap
      refine ⟨⟨hown'.upper, hown'.lap, ?_, hown'.fresh⟩, rfl⟩
      rw [hkeep q (by omega) (by omega) (by omega)]
      exact hown'.sequence
  exact
    { hinv with
      occupied := by
        intro q hq hq'
        simp only [Queue.publish] at hq hq'
        by_cases hqp : q = p
        · subst hqp
          right
          refine ⟨?_, hlogged, hwritten⟩
          simp only [Queue.publish, update_self]
          exact hnext
        · rw [hkeep q hqp (by omega) (by omega)]
          refine hinv.occupied_update (fun hw => ?_) hq hq'
          rw [ht] at hw
          cases hw
          exact absurd rfl hqp
      vacant := by
        intro q hq hq'
        simp only [Queue.publish] at hq hq'
        rw [hkeep q (by omega) (by omega) (by omega)]
        exact hinv.vacant_update (by simp [ht, Phase.reads]) hq hq'
      claimed := fun q => hinv.claimed_update (by simp [ht, Phase.reads])
      threads := threads_update trivial hframe
      writers := owners_update hinv.writers fun q hq => by cases hq
      readers := owners_update hinv.readers fun q hq => by cases hq }

/-- A claimed dequeue position: the published cell now belongs to the pop, and
its next lap enters the window. -/
theorem RingInv.claimPop (hinv : RingInv size s) {p : Nat}
    (ht : s.phase t = .popCas p) (hp : s.dequeuePos = p) :
    RingInv size (s.claimPop t p) := by
  have hthread := hinv.threads t
  rw [ht] at hthread
  rcases hthread.2 hp.symm with ⟨hlt, hseq⟩
  have hsmall := hinv.small
  have hnext : (p + 1) % 2 ^ 64 = p + 1 := Nat.mod_eq_of_lt (by omega)
  have hlap := hinv.lap
  have hpublished : (p, s.value (size.index p)) ∈ s.pushLog ∧ p ∈ s.written := by
    rcases hinv.occupied p hp.le hlt with h | h
    · omega
    · exact h.2
  have hframe : ∀ u, ThreadInv size (s.claimPop t p) (s.phase u) := by
    intro u
    refine (hinv.threads u).frame (le_refl _) ?_ (fun _ he => he) (fun _ h => h)
      (fun _ _ h => h) ?_ ?_ ?_
    · simp only [Queue.claimPop, hnext]
      omega
    · simp only [Queue.claimPop, hnext]
      omega
    · intro q _ hq
      refine ⟨⟨?_, hq.upper, hq.sequence⟩, rfl⟩
      have hne : q ≠ p := by
        intro h
        have := hq.sequence
        rw [h] at this
        omega
      have := hq.lower
      simp only [Queue.claimPop, hnext]
      omega
    · intro q _ hq
      refine ⟨⟨?_, hq.lap, hq.sequence, hq.fresh⟩, rfl⟩
      have := hq.upper
      simp only [Queue.claimPop, hnext]
      omega
  exact
    { small := hinv.small
      positions := hinv.positions
      order := by
        simp only [Queue.claimPop, hnext]
        omega
      lap := by
        simp only [Queue.claimPop, hnext]
        omega
      occupied := by
        intro q hlower hupper
        simp only [Queue.claimPop, hnext] at hlower
        exact hinv.occupied_update (by simp [ht, Phase.writes]) (by omega) hupper
      vacant := by
        intro q hlower hupper
        simp only [Queue.claimPop, hnext] at hlower hupper ⊢
        by_cases hq : q = p + size.capacity
        · subst hq
          right
          rw [size.index_add_capacity, hseq, Nat.add_sub_cancel]
          exact ⟨by omega, rfl, t, by simp [Phase.reads]⟩
        · exact hinv.vacant_update (by simp [ht, Phase.reads]) hlower (by omega)
      claimed := by
        intro q hq
        simp only [Queue.claimPop, hnext] at hq ⊢
        by_cases hqp : q = p
        · rw [hqp]
          exact Or.inr ⟨t, by simp [Phase.reads]⟩
        · exact hinv.claimed_update (by simp [ht, Phase.reads]) (by omega)
      threads := by
        refine threads_update ⟨⟨?_, ?_, hseq, ?_⟩, hpublished⟩ fun u _ => hframe u
        · simp only [Queue.claimPop, hnext]
          omega
        · simp only [Queue.claimPop]
          omega
        · intro hmem
          rcases List.mem_map.1 hmem with ⟨e, he, heq⟩
          have := (hinv.popped e he).1
          omega
      writers := owners_update hinv.writers fun q hq => by cases hq
      readers := by
        refine owners_update hinv.readers fun q hq u _ hu => ?_
        have := (hinv.reading hu).upper
        cases hq
        omega
      popped := by
        intro e he
        have h := hinv.popped e he
        refine ⟨?_, h.2⟩
        simp only [Queue.claimPop, hnext]
        omega
      popped_nodup := hinv.popped_nodup }

/-- Moving the value out touches only the cell the pop owns. -/
theorem RingInv.takeValue (hinv : RingInv size s) {p : Nat} (residue : α)
    (ht : s.phase t = .popRead p) : RingInv size (s.takeValue size t p residue) := by
  have hthread := hinv.threads t
  rw [ht] at hthread
  rcases hthread with ⟨hown, hlogged, hwritten⟩
  have hupper := hown.upper
  have hlap := hown.lap
  have horder := hinv.order
  have hkeep : ∀ q, q ≠ p → q < p + size.capacity → p < q + size.capacity →
      (s.takeValue size t p residue).value (size.index q) = s.value (size.index q) := by
    intro q hne hlt hgt
    exact size.update_index _ _ hne hlt hgt
  have hframe : ∀ u, u ≠ t → ThreadInv size (s.takeValue size t p residue) (s.phase u) := by
    intro u hut
    refine (hinv.threads u).frame (le_refl _) (le_refl _) (fun _ he => he)
      (fun _ h => h) (fun _ _ h => h) (fun _ _ h => h) ?_ ?_
    · intro q _ hown'
      have := hown'.lower
      have := hown'.upper
      exact ⟨⟨hown'.lower, hown'.upper, hown'.sequence⟩,
        hkeep q (by omega) (by omega) (by omega)⟩
    · intro q hq hown'
      have hne : q ≠ p := hinv.reads_ne hut hq (by rw [ht]; rfl)
      have := hown'.upper
      have := hown'.lap
      exact ⟨⟨hown'.upper, hown'.lap, hown'.sequence, hown'.fresh⟩,
        hkeep q hne (by omega) (by omega)⟩
  exact
    { hinv with
      occupied := by
        intro q hq hq'
        simp only [Queue.takeValue] at hq hq'
        rw [hkeep q (by omega) (by omega) (by omega)]
        exact hinv.occupied_update (by simp [ht, Phase.writes]) hq hq'
      vacant := fun q => hinv.vacant_update (by rw [ht]; exact id)
      claimed := fun q => hinv.claimed_update (by rw [ht]; exact id)
      threads := threads_update
        ⟨⟨hown.upper, hown.lap, hown.sequence, hown.fresh⟩, hlogged, hwritten⟩ hframe
      writers := owners_update hinv.writers fun q hq => by cases hq
      readers := by
        refine owners_update hinv.readers fun q hq u hut hu => ?_
        cases hq
        exact hut (hinv.readers u t p hu (by rw [ht]; rfl)) }

/-- Recycling frees the cell for the position one lap further. -/
theorem RingInv.recycle (hinv : RingInv size s) {p : Nat} {out : α}
    (ht : s.phase t = .popStore p out) : RingInv size (s.recycle size t p out) := by
  have hthread := hinv.threads t
  rw [ht] at hthread
  rcases hthread with ⟨hown, hlogged, hwritten⟩
  have htwo := size.two_le_capacity
  have hupper := hown.upper
  have hlap := hown.lap
  have horder := hinv.order
  have hkeep : ∀ q, q ≠ p → q < p + size.capacity → p < q + size.capacity →
      (s.recycle size t p out).sequence (size.index q) = s.sequence (size.index q) := by
    intro q hne hlt hgt
    exact size.update_index _ _ hne hlt hgt
  -- The same statement for positions on the next lap of the owned cell.
  have hkeepLap : ∀ q, q ≠ p + size.capacity → p < q → q < p + size.capacity + size.capacity →
      (s.recycle size t p out).sequence (size.index q) = s.sequence (size.index q) := by
    intro q hne hlt hgt
    simp only [Queue.recycle]
    rw [← size.index_add_capacity p]
    exact size.update_index _ _ hne hgt (by omega)
  have hframe : ∀ u, u ≠ t → ThreadInv size (s.recycle size t p out) (s.phase u) := by
    intro u hut
    refine (hinv.threads u).frame (le_refl _) (le_refl _) (fun _ he => he)
      (fun _ h => h) ?_ ?_ ?_ ?_
    · intro _ hlt hseq
      have hne : s.enqueuePos ≠ p + size.capacity := by
        intro h
        have := hown.sequence
        rw [h, size.index_add_capacity] at hseq
        omega
      rw [hkeepLap _ hne (by omega) (by omega)]
      exact hseq
    · intro _ hlt hseq
      rw [hkeep _ (by omega) (by omega) (by omega)]
      exact hseq
    · intro q _ hown'
      have := hown'.lower
      have := hown'.upper
      refine ⟨⟨hown'.lower, hown'.upper, ?_⟩, rfl⟩
      rw [hkeep q (by omega) (by omega) (by omega)]
      exact hown'.sequence
    · intro q hq hown'
      have hne : q ≠ p := hinv.reads_ne hut hq (by rw [ht]; rfl)
      have := hown'.upper
      have := hown'.lap
      refine ⟨⟨hown'.upper, hown'.lap, ?_, ?_⟩, rfl⟩
      · rw [hkeep q hne (by omega) (by omega)]
        exact hown'.sequence
      · simp only [Queue.recycle, List.map_append, List.map_cons, List.map_nil,
          List.mem_append, List.mem_singleton, not_or]
        exact ⟨hown'.fresh, hne⟩
  exact
    { hinv with
      occupied := by
        intro q hq hq'
        simp only [Queue.recycle] at hq hq'
        rw [hkeep q (by omega) (by omega) (by omega)]
        exact hinv.occupied_update (by simp [ht, Phase.writes]) hq hq'
      vacant := by
        intro q hq hq'
        simp only [Queue.recycle] at hq hq'
        by_cases hqp : q = p + size.capacity
        · subst hqp
          left
          simp [Queue.recycle, size.index_add_capacity]
        · rw [hkeepLap q hqp (by omega) (by omega)]
          refine (hinv.vacant q hq hq').imp_right fun h => ⟨h.1, h.2.1, ?_⟩
          refine owner_update (fun hr => ?_) h.2.2
          rw [ht] at hr
          cases hr
          omega
      claimed := by
        intro q hq
        simp only [Queue.recycle, List.map_append, List.map_cons, List.map_nil,
          List.mem_append, List.mem_singleton]
        by_cases hqp : q = p
        · exact Or.inl (Or.inr hqp)
        · rcases hinv.claimed q hq with h | h
          · exact Or.inl (Or.inl h)
          · refine Or.inr (owner_update (fun hr => ?_) h)
            rw [ht] at hr
            cases hr
            exact absurd rfl hqp
      threads := threads_update trivial hframe
      writers := owners_update hinv.writers fun q hq => by cases hq
      readers := owners_update hinv.readers fun q hq => by cases hq
      popped := by
        intro e he
        rcases List.mem_append.1 he with hold | hnew
        · exact hinv.popped e hold
        · rw [List.mem_singleton.1 hnew]
          exact ⟨hupper, hlogged, hwritten⟩
      popped_nodup := by
        simp only [Queue.recycle, List.map_append, List.map_cons, List.map_nil]
        refine List.nodup_append.2 ⟨hinv.popped_nodup, List.nodup_singleton p, ?_⟩
        intro q hq r hr hqr
        rw [List.mem_singleton.1 hr] at hqr
        rw [hqr] at hq
        exact hown.fresh hq }

/-! ## Loaded sequence numbers -/

theorem eq_of_signedDiff_eq_zero {a b : Nat} (ha : a < 2 ^ 64) (hb : b < 2 ^ 64)
    (h : signedDiff a b = 0) : a = b := by
  have hdvd : ((2 ^ 64 : Nat) : Int) ∣ (a : Int) - b := Int.dvd_of_bmod_eq_zero h
  omega

omit [DecidableEq ι] in
/-- A push goes on to claim a current position only if its cell is free. -/
theorem RingInv.pushBranch (hinv : RingInv size s) {v : α} {p : Nat}
    (hp : p ≤ s.enqueuePos) :
    ThreadInv size s (Queue.pushBranch v p (s.sequence (size.index p))) := by
  have htwo := size.two_le_capacity
  have hcap := size.capacity_le
  have hsmall := hinv.small
  have horder := hinv.order
  have hlap := hinv.lap
  unfold Queue.pushBranch
  simp only
  split
  · rename_i hdiff
    refine ⟨hp, fun hcurrent => ?_⟩
    by_cases hroom : p < s.dequeuePos + size.capacity
    · refine ⟨hroom, ?_⟩
      rcases hinv.vacant p (by omega) hroom with hseq | ⟨-, hseq, -⟩
      · rw [hseq]
        omega
      · exact eq_of_signedDiff_eq_zero (by omega) (by omega) hdiff
    · -- The ring is full, so the cell still holds the head of the queue.
      have hfull : p = s.dequeuePos + size.capacity := by omega
      have hhead := hinv.occupied s.dequeuePos (le_refl _) (by omega)
      rw [hfull, size.index_add_capacity] at hdiff
      have heq : s.sequence (size.index s.dequeuePos) = s.dequeuePos + size.capacity := by
        refine eq_of_signedDiff_eq_zero ?_ (by omega) hdiff
        rcases hhead with h | h
        · omega
        · omega
      rcases hhead with h | h
      · omega
      · omega
  · split
    · trivial
    · trivial

omit [DecidableEq ι] in
/-- A pop goes on to claim a current position only if its cell is published. -/
theorem RingInv.popBranch (hinv : RingInv size s) {p : Nat} (hp : p ≤ s.dequeuePos) :
    ThreadInv size s (Queue.popBranch p (s.sequence (size.index p))) := by
  have htwo := size.two_le_capacity
  have hcap := size.capacity_le
  have hsmall := hinv.small
  have horder := hinv.order
  unfold Queue.popBranch
  simp only
  split
  · rename_i hdiff
    refine ⟨hp, fun hcurrent => ?_⟩
    by_cases hempty : p < s.enqueuePos
    · refine ⟨hempty, ?_⟩
      rw [Nat.mod_eq_of_lt (by omega)] at hdiff
      rcases hinv.occupied p (by omega) hempty with hseq | hseq
      · exact eq_of_signedDiff_eq_zero (by omega) (by omega) hdiff
      · exact hseq.1
    · -- The queue is empty: the cell waits for this position or is being emptied.
      have hdvd : ((2 ^ 64 : Nat) : Int) ∣
          (s.sequence (size.index p) : Int) - ((p + 1) % 2 ^ 64 : Nat) :=
        Int.dvd_of_bmod_eq_zero hdiff
      rcases hinv.vacant p (by omega) (by omega) with hseq | ⟨hle, hseq, -⟩
      · omega
      · omega
  · split
    · trivial
    · trivial

omit [DecidableEq ι] in
theorem pushBranch_owns (v : α) (p seq : Nat) :
    (Queue.pushBranch v p seq).writes = none ∧ (Queue.pushBranch v p seq).reads = none := by
  unfold Queue.pushBranch
  simp only
  split
  · exact ⟨rfl, rfl⟩
  · split
    · exact ⟨rfl, rfl⟩
    · exact ⟨rfl, rfl⟩

omit [DecidableEq ι] in
theorem popBranch_owns (p seq : Nat) :
    (Queue.popBranch p seq : Phase α).writes = none ∧
      (Queue.popBranch p seq : Phase α).reads = none := by
  unfold Queue.popBranch
  simp only
  split
  · exact ⟨rfl, rfl⟩
  · split
    · exact ⟨rfl, rfl⟩
    · exact ⟨rfl, rfl⟩

/-! ## Every interleaving -/

/-- One atomic step keeps the invariant. -/
theorem RingInv.step {s' : Queue ι α} {act : Act α} (hinv : RingInv size s)
    (hsmall : s'.pushLog.length < 2 ^ 64) (hstep : s.step size t act = some s') :
    RingInv size s' := by
  have hthread := hinv.threads t
  -- Most steps only change where the moving thread stands.
  have hlocal : ∀ ph, ThreadInv size s ph → ph.writes = none → ph.reads = none →
      (s.phase t).writes = none → (s.phase t).reads = none → RingInv size (s.setPhase t ph) :=
    fun ph hph hw hr hw₀ hr₀ => hinv.setPhase hph hw hr hw₀ hr₀
  cases Queue.step_cases hstep with
  | callPush value h | callPop h | leavePush ok left h | leavePop out h =>
    exact hlocal _ trivial rfl rfl (by rw [h]; rfl) (by rw [h]; rfl)
  | pushLoad value h | pushReload value pos h hpos | pushSpurious value pos h | popLoad h
  | popReload pos h hpos | popSpurious pos h =>
    exact hlocal _ (le_refl _) rfl rfl (by rw [h]; rfl) (by rw [h]; rfl)
  | pushSeq value pos h =>
    rw [h] at hthread
    have howns := pushBranch_owns value pos (s.sequence (size.index pos))
    exact hlocal _ (hinv.pushBranch hthread) howns.1 howns.2 (by rw [h]; rfl) (by rw [h]; rfl)
  | claimPush value pos h hpos =>
    apply hinv.claimPush h hpos
    rw [hinv.enqueuePos_eq]
    simpa [Queue.claimPush] using hsmall
  | writeCell value pos h => exact hinv.writeCell h
  | publish pos h => exact hinv.publish h
  | popSeq pos h =>
    rw [h] at hthread
    have howns := popBranch_owns (α := α) pos (s.sequence (size.index pos))
    exact hlocal _ (hinv.popBranch hthread) howns.1 howns.2 (by rw [h]; rfl) (by rw [h]; rfl)
  | claimPop pos h hpos => exact hinv.claimPop h hpos
  | takeValue pos residue h => exact hinv.takeValue residue h
  | recycle pos out h => exact hinv.recycle h

/-- Pushes are only ever added to the log. -/
theorem pushLog_length_le {s' : Queue ι α} {act : Act α}
    (hstep : s.step size t act = some s') : s.pushLog.length ≤ s'.pushLog.length := by
  cases Queue.step_cases hstep with
  | claimPush value pos h hpos => simp [Queue.claimPush]
  | _ => exact le_refl _

variable [Inhabited α]

omit [DecidableEq ι] in
theorem fresh_ringInv (size : RingSize) : RingInv size (fresh ι α) where
  small := by simp [fresh]
  positions := rfl
  order := le_refl _
  lap := Nat.zero_le _
  occupied := by
    intro p _ hp
    simp [fresh] at hp
  vacant := by
    intro p _ hp
    left
    have hcap := size.capacity_le
    simp only [fresh, Nat.zero_add] at hp ⊢
    rw [size.index_eq_mod, Nat.mod_eq_of_lt hp, Nat.mod_eq_of_lt (by omega)]
  claimed := by
    intro p hp
    simp [fresh] at hp
  threads := fun _ => trivial
  writers := by
    intro t u p hp
    cases hp
  readers := by
    intro t u p hp
    cases hp
  popped := by simp [fresh]
  popped_nodup := List.nodup_nil

/-- The invariant holds in every interleaving with fewer than `2 ^ 64` pushes. -/
theorem reachable_ringInv (hreach : (machine size ι α).Reachable s)
    (hsmall : s.pushLog.length < 2 ^ 64) : RingInv size s := by
  have hall : s.pushLog.length < 2 ^ 64 → RingInv size s := by
    refine hreach.invariant (I := fun s => s.pushLog.length < 2 ^ 64 → RingInv size s)
      (fun _ => fresh_ringInv size) ?_
    intro s label s' ih hstep hsmall'
    have hle := pushLog_length_le hstep
    exact (ih (by omega)).step hsmall' hstep
  exact hall hsmall

/-! ## Safety -/

/-- The position whose cell value the thread's next step writes or moves out. -/
def Phase.accesses : Phase α → Option Nat
  | .pushWrite _ p => some p
  | .popRead p => some p
  | _ => none

omit [DecidableEq ι] [Inhabited α] in
/-- Owned cells of different threads are different. -/
theorem RingInv.accesses_ne (hinv : RingInv size s) {t u : ι} (htu : t ≠ u) {p q : Nat}
    (hp : (s.phase t).accesses = some p) (hq : (s.phase u).accesses = some q) :
    size.index p ≠ size.index q := by
  have hsplit : ∀ (v : ι) (r : Nat), (s.phase v).accesses = some r →
      (s.phase v).writes = some r ∨ (s.phase v).reads = some r := by
    intro v r hr
    cases hphase : s.phase v <;> rw [hphase] at hr <;> cases hr
    · exact Or.inl rfl
    · exact Or.inr rfl
  have hlap := hinv.lap
  -- Two writers, or two readers, at different positions of one window; a writer
  -- is ahead of every reader by less than one lap.
  have hww : ∀ p q, Writing size s p → Writing size s q → p < q →
      size.index p ≠ size.index q := by
    intro p q hp hq hlt
    have := hp.lower
    have := hq.upper
    exact size.index_ne hlt (by omega)
  have hrr : ∀ p q, Reading size s p → Reading size s q → p < q →
      size.index p ≠ size.index q := by
    intro p q hp hq hlt
    have := hp.lap
    have := hq.upper
    have := hinv.order
    exact size.index_ne hlt (by omega)
  have hrw : ∀ p q, Reading size s p → Writing size s q →
      size.index p ≠ size.index q := by
    intro p q hp hq
    have := hp.lap
    have := hp.upper
    have := hq.lower
    have := hq.upper
    exact size.index_ne (by omega) (by omega)
  rcases hsplit t p hp with hp | hp <;> rcases hsplit u q hq with hq | hq
  · have hne := hinv.writes_ne htu hp hq
    rcases Nat.lt_or_gt_of_ne hne with hlt | hlt
    · exact hww p q (hinv.writing hp) (hinv.writing hq) hlt
    · exact (hww q p (hinv.writing hq) (hinv.writing hp) hlt).symm
  · exact (hrw q p (hinv.reading hq) (hinv.writing hp)).symm
  · exact hrw p q (hinv.reading hp) (hinv.writing hq)
  · have hne := hinv.reads_ne htu hp hq
    rcases Nat.lt_or_gt_of_ne hne with hlt | hlt
    · exact hrr p q (hinv.reading hp) (hinv.reading hq) hlt
    · exact (hrr q p (hinv.reading hq) (hinv.reading hp) hlt).symm

omit [DecidableEq ι] [Inhabited α] in
/-- A pop under way has claimed a written position that nobody has returned. -/
theorem RingInv.reads_written (hinv : RingInv size s) {p : Nat}
    (hp : (s.phase t).reads = some p) : p ∈ s.written ∧ p ∉ s.popLog.map Prod.fst := by
  refine ⟨?_, (hinv.reading hp).fresh⟩
  have ht := hinv.threads t
  cases hphase : s.phase t <;> rw [hphase] at hp ht <;> cases hp
  · exact ht.2.2
  · exact ht.2.2

omit [DecidableEq ι] [Inhabited α] in
/-- Every push is still in the window, under way in a pop, or returned. -/
theorem RingInv.accounted (hinv : RingInv size s) {e : Nat × α} (he : e ∈ s.pushLog) :
    s.dequeuePos ≤ e.1 ∨ (∃ t, (s.phase t).reads = some e.1) ∨ e ∈ s.popLog := by
  by_cases hlt : e.1 < s.dequeuePos
  · right
    rcases hinv.claimed e.1 hlt with hpopped | hreader
    · right
      rcases List.mem_map.1 hpopped with ⟨e', he', heq⟩
      have hpushed := (hinv.popped e' he').2.1
      have hsame : e' = e := List.inj_on_of_nodup_map hinv.pushed_nodup hpushed he heq
      rw [← hsame]
      exact he'
    · exact Or.inl hreader
  · exact Or.inl (by omega)

/-- In every interleaving of any threads: a pop returns the value of the push
that claimed the same position; positions are claimed and returned at most once,
and only after the write; no push goes missing; no two threads access one cell;
and the positions stay within one lap. -/
theorem queue_safe (size : RingSize) (s : Queue ι α)
    (hreach : (machine size ι α).Reachable s) (hpushes : s.pushLog.length < 2 ^ 64) :
    (s.pushLog.map Prod.fst).Nodup ∧
      (∀ e ∈ s.popLog, e ∈ s.pushLog ∧ e.1 ∈ s.written) ∧
      (s.popLog.map Prod.fst).Nodup ∧
      (∀ t p, (s.phase t).reads = some p → p ∈ s.written ∧ p ∉ s.popLog.map Prod.fst) ∧
      (∀ t u p, (s.phase t).reads = some p → (s.phase u).reads = some p → t = u) ∧
      (∀ e ∈ s.pushLog, s.dequeuePos ≤ e.1 ∨ (∃ t, (s.phase t).reads = some e.1) ∨
        e ∈ s.popLog) ∧
      (∀ t u p q, t ≠ u → (s.phase t).accesses = some p → (s.phase u).accesses = some q →
        size.index p ≠ size.index q) ∧
      s.dequeuePos ≤ s.enqueuePos ∧ s.enqueuePos ≤ s.dequeuePos + size.capacity := by
  have hinv := reachable_ringInv hreach hpushes
  refine ⟨hinv.pushed_nodup, ?_, hinv.popped_nodup, ?_, hinv.readers, ?_, ?_, hinv.order,
    hinv.lap⟩
  · intro e he
    exact (hinv.popped e he).2
  · intro t p hp
    exact hinv.reads_written hp
  · intro e he
    exact hinv.accounted he
  · intro t u p q htu hp hq
    exact hinv.accesses_ne htu hp hq

end Invariant

/-- Thread 0 claims position 0 and stalls; thread 1 fills position 1; thread 2
finds the head unpublished; after thread 0 has published, thread 2 pops 10. -/
def stalledPush : List (Fin 3 × Act Nat) :=
  [(0, .callPush 10), (0, .next), (0, .next), (0, .next),
    (1, .callPush 11), (1, .next), (1, .next), (1, .spurious), (1, .next), (1, .next),
    (1, .next), (1, .next),
    (2, .callPop), (2, .next), (2, .next), (2, .leave),
    (0, .next), (0, .next),
    (2, .callPop), (2, .next), (2, .next), (2, .next), (2, .take 0), (2, .next)]

def stalledPushState : Queue (Fin 3) Nat :=
  ((machine (.ofRequested 2 (by decide)) (Fin 3) Nat).run (fresh (Fin 3) Nat) stalledPush).getD
    (fresh (Fin 3) Nat)

theorem queue_safe_stalledPush :
    stalledPushState.popLog = [(0, 10)] ∧
      stalledPushState.dequeuePos ≤ stalledPushState.enqueuePos := by
  have hrun : (machine (.ofRequested 2 (by decide)) (Fin 3) Nat).run
      (machine (.ofRequested 2 (by decide)) (Fin 3) Nat).initial stalledPush =
        some stalledPushState := by
    rfl
  refine ⟨rfl, ?_⟩
  exact (queue_safe _ stalledPushState (StateMachine.reachable_iff_run.2 ⟨_, hrun⟩)
    (by decide)).2.2.2.2.2.2.2.1

end MpmcQueue

end EdgeOrchestrator
