import EdgeOrchestrator.Executor.ThreadPoolRefinement

/-!
# Enqueues that do not overlap

When enqueues do not overlap, the only position that can be claimed and not yet
published is the last one, and its permit has not been released.  A worker that
has acquired a permit then finds the head published, so that a pop fails only
after the destructor has released its own permits, and only on an empty queue.

Main results:

- `Orderly.match_permits`: permits, waiting tasks, workers under way and workers that have
  given up are in balance.
- `Orderly.step`: every step of a run without overlapping enqueues keeps that balance.
-/

namespace EdgeOrchestrator

open Function (update update_of_ne update_self)

/-! ## When a pop gives up -/

namespace MpmcQueue

section GivingUp

variable {ι α : Type*} {size : RingSize} {q q' : Queue ι α} {t : ι}

/-- The cell of a position that has been passed shows a later sequence number. -/
theorem RingInv.sequence_of_lt (hinv : RingInv size q)
    (hsmall : q.enqueuePos ≤ 2 ^ 63) {pos : Nat} (hpos : pos < q.dequeuePos) :
    pos + 1 ≤ q.sequence (size.index pos) ∧ q.sequence (size.index pos) < pos + 1 + 2 ^ 63 := by
  have htwo := size.two_le_capacity
  have horder := hinv.order
  obtain ⟨k, hk⟩ : ∃ k, q.dequeuePos ≤ pos + (k + 1) * size.capacity ∧
      pos + (k + 1) * size.capacity < q.dequeuePos + size.capacity := by
    refine ⟨(q.dequeuePos - pos - 1) / size.capacity, ?_⟩
    have hdiv := Nat.div_add_mod (q.dequeuePos - pos - 1) size.capacity
    have hmod := Nat.mod_lt (q.dequeuePos - pos - 1) (show 0 < size.capacity by omega)
    rw [Nat.add_mul, Nat.one_mul, Nat.mul_comm]
    omega
  have hindex : size.index (pos + (k + 1) * size.capacity) = size.index pos := by
    rw [size.index_eq_mod, size.index_eq_mod, Nat.add_mul_mod_self_right]
  have hstep : size.capacity ≤ (k + 1) * size.capacity :=
    Nat.le_mul_of_pos_left _ (Nat.succ_pos k)
  -- The capacity divides `2 ^ 63`, so a lap that starts below it ends there at the latest.
  have hlap : (k + 1) * size.capacity ≤ 2 ^ 63 := by
    obtain ⟨laps, hlaps⟩ : size.capacity ∣ 2 ^ 63 := Nat.pow_dvd_pow 2 size.le
    rw [Nat.add_mul, Nat.one_mul] at hk
    rw [hlaps, Nat.mul_comm size.capacity] at hsmall ⊢
    have hlt : k * size.capacity < laps * size.capacity := by omega
    exact Nat.mul_le_mul_right _ (Nat.lt_of_mul_lt_mul_right hlt)
  generalize (k + 1) * size.capacity = jump at hk hindex hstep hlap
  rw [← hindex]
  by_cases hlive : pos + jump < q.enqueuePos
  · rcases hinv.occupied (pos + jump) hk.1 hlive with ⟨hseq, -⟩ | ⟨hseq, -⟩
    · omega
    · omega
  · rcases hinv.vacant (pos + jump) (by omega) hk.2 with hseq | ⟨-, hseq, -⟩
    · rw [Nat.mod_eq_of_lt (by omega)] at hseq
      omega
    · omega

/-- A pop that finds its cell unpublished is looking at the head of a queue that is
empty, or whose head is being written. -/
theorem RingInv.of_headUnpublished (hinv : RingInv size q)
    (hsmall : q.enqueuePos ≤ 2 ^ 63)
    (hhead : ThreadPool.headUnpublished size q (q.phase t) = true) :
    q.dequeuePos = q.enqueuePos ∨ ∃ u, (q.phase u).writes = some q.dequeuePos := by
  have hthread := hinv.threads t
  cases hphase : q.phase t with
  | popSeq pos =>
    rw [hphase] at hthread hhead
    have hle : pos ≤ q.dequeuePos := hthread
    have horder := hinv.order
    have htwo := size.two_le_capacity
    have hnext : (pos + 1) % 2 ^ 64 = pos + 1 := Nat.mod_eq_of_lt (by omega)
    simp only [ThreadPool.headUnpublished, decide_eq_true_eq, hnext] at hhead
    by_cases hstale : pos < q.dequeuePos
    · rcases hinv.sequence_of_lt hsmall hstale with ⟨hlower, hupper⟩
      rw [signedDiff_eq (by omega) (by omega)] at hhead
      omega
    · obtain rfl : pos = q.dequeuePos := by omega
      by_cases hempty : q.dequeuePos < q.enqueuePos
      · rcases hinv.occupied _ (le_refl _) hempty with ⟨-, hwriter⟩ | ⟨hseq, -⟩
        · exact Or.inr hwriter
        · rw [hseq, signedDiff_self] at hhead
          exact absurd hhead (lt_irrefl 0)
      · exact Or.inl (by omega)
  | _ =>
    rw [hphase] at hhead
    cases hhead

variable [DecidableEq ι]

/-- What a step does to the log of pushes and to the two positions. -/
theorem step_positions {act : Act α} (hstep : q.step size t act = some q') :
    ((q'.pushLog = q.pushLog ∧ q'.enqueuePos = q.enqueuePos) ∨
      ∃ value, q.phase t = .pushCas value q.enqueuePos ∧
        q'.pushLog = q.pushLog ++ [(q.enqueuePos, value)] ∧
        q'.enqueuePos = (q.enqueuePos + 1) % 2 ^ 64) ∧
    (q'.dequeuePos = q.dequeuePos ∨
      (q.phase t = .popCas q.dequeuePos ∧ q'.dequeuePos = (q.dequeuePos + 1) % 2 ^ 64)) := by
  cases Queue.step_cases hstep with
  | claimPush value pos h hpos =>
    subst hpos
    exact ⟨Or.inr ⟨value, h, rfl, rfl⟩, Or.inl rfl⟩
  | claimPop pos h hpos =>
    subst hpos
    exact ⟨Or.inl ⟨rfl, rfl⟩, Or.inr ⟨h, rfl⟩⟩
  | _ => exact ⟨Or.inl ⟨rfl, rfl⟩, Or.inl rfl⟩

/-- A thread that owns a cell for writing after a step did so before, or has just
claimed it. -/
theorem writes_of_step {act : Act α} (hstep : q.step size t act = some q') {u : ι} {pos : Nat}
    (hwrites : (q'.phase u).writes = some pos) :
    (q.phase u).writes = some pos ∨
      u = t ∧ pos = q.enqueuePos ∧ q'.enqueuePos = (q.enqueuePos + 1) % 2 ^ 64 := by
  have hlocal : ∀ ph : Phase α, ph.writes = none →
      (update q.phase t ph u).writes = some pos → (q.phase u).writes = some pos := by
    intro ph hph hupdate
    by_cases hu : u = t
    · rw [hu, update_self, hph] at hupdate
      cases hupdate
    · rw [update_of_ne hu] at hupdate
      exact hupdate
  cases Queue.step_cases hstep with
  | claimPush value p h hpos =>
    simp only [Queue.claimPush] at hwrites ⊢
    by_cases hu : u = t
    · rw [hu, update_self] at hwrites
      cases hwrites
      exact Or.inr ⟨hu, hpos.symm, by rw [hpos]⟩
    · rw [update_of_ne hu] at hwrites
      exact Or.inl hwrites
  | writeCell value p h =>
    simp only [Queue.writeCell] at hwrites
    by_cases hu : u = t
    · rw [hu, update_self] at hwrites
      rw [hu, h]
      exact Or.inl hwrites
    · rw [update_of_ne hu] at hwrites
      exact Or.inl hwrites
  | pushSeq value p h => exact Or.inl (hlocal _ (pushBranch_owns value p _).1 hwrites)
  | popSeq p h => exact Or.inl (hlocal _ (popBranch_owns p _).1 hwrites)
  | _ => exact Or.inl (hlocal _ rfl hwrites)

omit [DecidableEq ι] in
/-- The positions that have been passed are those returned and those that a pop
owns. -/
theorem RingInv.card_passed [Fintype ι] (hinv : RingInv size q) :
    q.popLog.length + ∑ t, (if (q.phase t).reads.isSome then 1 else 0) = q.dequeuePos := by
  classical
  have hreaders : ∑ t, (if (q.phase t).reads.isSome then 1 else 0) =
      ((Finset.univ.filter fun t => (q.phase t).reads.isSome).image
        fun t => (q.phase t).reads.getD 0).card := by
    rw [Finset.card_image_of_injOn, Finset.card_filter]
    intro t ht u hu heq
    simp only [Finset.coe_filter, Finset.mem_univ, true_and, Set.mem_ofPred_eq] at ht hu
    rcases Option.isSome_iff_exists.1 ht with ⟨p, hp⟩
    rcases Option.isSome_iff_exists.1 hu with ⟨p', hp'⟩
    simp only [hp, hp', Option.getD_some] at heq
    exact hinv.readers t u p hp (heq ▸ hp')
  have hreturned : q.popLog.length = (q.popLog.map Prod.fst).toFinset.card := by
    rw [List.toFinset_card_of_nodup hinv.popped_nodup, List.length_map]
  rw [hreaders, hreturned, ← Finset.card_union_of_disjoint]
  · have hpassed : (q.popLog.map Prod.fst).toFinset ∪
        ((Finset.univ.filter fun t => (q.phase t).reads.isSome).image
          fun t => (q.phase t).reads.getD 0) = Finset.range q.dequeuePos := by
      ext p
      simp only [Finset.mem_union, List.mem_toFinset, Finset.mem_image, Finset.mem_filter,
        Finset.mem_univ, true_and, Finset.mem_range]
      constructor
      · rintro (hpopped | ⟨t, ht, rfl⟩)
        · rcases List.mem_map.1 hpopped with ⟨e, he, rfl⟩
          exact (hinv.popped e he).1
        · rcases Option.isSome_iff_exists.1 ht with ⟨p, hp⟩
          rw [hp]
          exact (hinv.reading hp).upper
      · intro hp
        refine (hinv.claimed p hp).imp_right ?_
        rintro ⟨t, ht⟩
        exact ⟨t, by rw [ht]; rfl, by rw [ht]; rfl⟩
    rw [hpassed, Finset.card_range]
  · rw [Finset.disjoint_left]
    intro p hpopped hread
    simp only [Finset.mem_image, Finset.mem_filter, Finset.mem_univ, true_and] at hread
    rcases hread with ⟨t, ht, rfl⟩
    rcases Option.isSome_iff_exists.1 ht with ⟨p, hp⟩
    rw [hp] at hpopped
    exact (hinv.reading hp).fresh (List.mem_toFinset.1 hpopped)

end GivingUp

end MpmcQueue

/-! ## Enqueues that do not overlap -/

namespace ThreadPool

open MpmcQueue

section Serial

variable {π ω τ : Type*}

/-- An enqueue starts only while no other is in progress and before the destructor,
which starts only when all have returned. -/
def Serial (s : Pool π ω τ) : Label π ω τ → Prop
  | .producer _ (.enqueue _) => s.teardown = .alive ∧ ∀ p, s.producer p = .idle
  | .destructor .destroy => ∀ p, s.producer p = .idle
  | _ => True

instance [Fintype π] [DecidableEq τ] (s : Pool π ω τ) : ∀ label, Decidable (Serial s label)
  | .producer _ (.enqueue _) => inferInstanceAs (Decidable (_ ∧ _))
  | .producer _ (.push _) => isTrue trivial
  | .producer _ .pushed => isTrue trivial
  | .producer _ .retry => isTrue trivial
  | .producer _ .release => isTrue trivial
  | .worker _ _ => isTrue trivial
  | .destructor .destroy => inferInstanceAs (Decidable (∀ _, _))
  | .destructor (.requestStop _) => isTrue trivial
  | .destructor .releaseWorkers => isTrue trivial

/-- The pool under callers whose enqueues do not overlap. -/
def serialized (size : RingSize) (π ω τ : Type*) [DecidableEq π] [DecidableEq ω] [Fintype π]
    [Fintype ω] [DecidableEq τ] [Inhabited τ] : StateMachine (Pool π ω τ) (Label π ω τ) :=
  (machine size π ω τ).restrict Serial

/-- One for a pop that has not claimed a position yet. -/
def unclaimed : Phase τ → Nat
  | .popLoad => 1
  | .popSeq _ => 1
  | .popCas _ => 1
  | _ => 0

theorem popPending_eq (phase : Phase τ) :
    popPending phase = unclaimed phase + if phase.reads.isSome then 1 else 0 := by
  cases phase <;> rfl

/-- One for a worker whose pop has failed and that is on its way out. -/
def gaveUp (control : WorkerPhase τ) (phase : Phase τ) : Nat :=
  match control, phase with
  | .popping, .popDone none => 1
  | .checkingStop, _ => 1
  | .exited, _ => 1
  | _, _ => 0

theorem gaveUp_le_one (control : WorkerPhase τ) (phase : Phase τ) : gaveUp control phase ≤ 1 := by
  unfold gaveUp
  split <;> decide

/-- One for a worker whose pop has failed. -/
def failure (s : Pool π ω τ) (w : ω) : Nat :=
  gaveUp (s.worker w) (s.queue.phase (.inr w))

variable {size : RingSize} {s t : Pool π ω τ}

theorem inPush_of_writes {phase : Phase τ} {pos : Nat} (h : phase.writes = some pos) :
    inPush phase = true ∧ pushClaimed phase = 1 := by
  cases phase <;> simp_all [inPush, pushClaimed, Phase.writes]

theorem reads_of_inPush {phase : Phase τ} (h : inPush phase = true) : phase.reads = none := by
  cases phase <;> simp_all [inPush, Phase.reads]

/-- Only producers push. -/
theorem Consistent.inPush (hs : Consistent s) {u : π ⊕ ω}
    (hpush : ThreadPool.inPush (s.queue.phase u) = true) :
    ∃ p, u = .inl p ∧ s.producer p ≠ .idle := by
  cases u with
  | inl p =>
    refine ⟨p, rfl, ?_⟩
    intro hidle
    have hok := hs.producers p
    rw [hidle] at hok
    rw [hok] at hpush
    cases hpush
  | inr w =>
    have hnone : ThreadPool.inPush (s.queue.phase (.inr w)) = false := by
      have hok := hs.workers w
      unfold WorkerOk at hok
      split at hok
      · exact inPush_of_inPop hok
      · rw [hok]
        rfl
    rw [hnone] at hpush
    cases hpush

/-- Only producers own a cell for writing, and they owe the permit for it. -/
theorem Consistent.writes (hs : Consistent s) {u : π ⊕ ω} {pos : Nat}
    (hwrites : (s.queue.phase u).writes = some pos) :
    ∃ p, u = .inl p ∧ s.producer p ≠ .idle ∧ 1 ≤ producerDebt s p := by
  rcases inPush_of_writes hwrites with ⟨hpush, hclaimed⟩
  rcases hs.inPush hpush with ⟨p, rfl, hbusy⟩
  refine ⟨p, rfl, hbusy, ?_⟩
  unfold producerDebt permitOwed
  omega

/-- Only workers own a cell for reading. -/
theorem Consistent.reads_producer (hs : Consistent s) (p : π) :
    (s.queue.phase (.inl p)).reads = none := by
  have hok := hs.producers p
  unfold ProducerOk at hok
  split at hok
  · exact reads_of_inPush hok
  · rw [hok]
    rfl

variable [Fintype π] [Fintype ω]

/-- What holds between the steps of callers that do not overlap: the last position
is the only one that may be unpublished, and workers give up only on an empty queue
during shutdown. -/
structure Orderly (size : RingSize) (s : Pool π ω τ) : Prop extends Carried size s where
  single : ∀ p q, s.producer p ≠ .idle → s.producer q ≠ .idle → p = q
  closed : s.teardown ≠ .alive → ∀ p, s.producer p = .idle
  stops : s.teardown = .released → ∀ w, s.stopRequested w = true
  last : ∀ u pos, (s.queue.phase u).writes = some pos → pos + 1 = s.queue.enqueuePos
  balance : deficit s = ∑ w, failure s w
  failed : ∀ w, failure s w ≠ 0 →
    s.teardown = .released ∧ s.queue.dequeuePos = s.queue.enqueuePos

/-- Positions that no pop has claimed and permits released for shutdown are matched
by available permits, permits that are owed, workers under way and workers that have
given up. -/
theorem Orderly.match_permits (hs : Orderly size s) :
    s.queue.enqueuePos + shutdownPermits s = s.queue.dequeuePos + s.permits +
      ∑ p, producerDebt s p + ∑ w, unclaimed (s.queue.phase (.inr w)) + ∑ w, failure s w := by
  have hpassed := hs.ring.card_passed
  rw [Fintype.sum_sum_type] at hpassed
  have hproducers : ∑ p : π, (if (s.queue.phase (.inl p)).reads.isSome then 1 else 0) = 0 := by
    apply Finset.sum_eq_zero
    intro p _
    rw [hs.consistent.reads_producer p]
    rfl
  have hpending : ∑ w, workerClaim s w = ∑ w, unclaimed (s.queue.phase (.inr w)) +
      ∑ w : ω, (if (s.queue.phase (.inr w)).reads.isSome then 1 else 0) := by
    rw [← Finset.sum_add_distrib]
    exact Finset.sum_congr rfl fun w _ => popPending_eq _
  have hbalance := hs.balance
  have hpushed := hs.ring.enqueuePos_eq
  rw [deficit] at hbalance
  omega

/-- With every worker out of the queue and no producer at work, what is left of the
balance is the permits and the workers that have given up. -/
theorem Orderly.match_atRest (hs : Orderly size s) (hproducers : ∀ p, s.producer p = .idle)
    (hworkers : ∀ w, s.worker w = .exited ∨ s.worker w = .acquiring) :
    s.queue.enqueuePos + shutdownPermits s =
      s.queue.dequeuePos + s.permits + ∑ w, failure s w := by
  have hmatch := hs.match_permits
  have hdebts : ∑ p, producerDebt s p = 0 := by
    apply Finset.sum_eq_zero
    intro p _
    have hok := hs.consistent.producers p
    rw [hproducers p] at hok
    rw [producerDebt, hproducers p, hok]
    rfl
  have hunclaimed : ∑ w, unclaimed (s.queue.phase (.inr w)) = 0 := by
    apply Finset.sum_eq_zero
    intro w _
    have hok := hs.consistent.workers w
    rcases hworkers w with hw | hw
    · rw [hw] at hok
      rw [hok]
      rfl
    · rw [hw] at hok
      rw [hok]
      rfl
  omega

/-- While enqueues do not overlap, a pop that holds a permit gives up only after the
release of the shutdown permits, and only on an empty queue. -/
theorem Orderly.of_headUnpublished (hs : Orderly size s)
    (hsmall : s.queue.pushLog.length ≤ 2 ^ 63) {w : ω}
    (hhead : headUnpublished size s.queue (s.queue.phase (.inr w)) = true) :
    s.teardown = .released ∧ s.queue.dequeuePos = s.queue.enqueuePos := by
  rw [← hs.ring.enqueuePos_eq] at hsmall
  have hcase := hs.ring.of_headUnpublished hsmall hhead
  by_cases hreleased : s.teardown = .released
  · refine ⟨hreleased, hcase.resolve_right ?_⟩
    rintro ⟨u, hu⟩
    rcases hs.consistent.writes hu with ⟨p, -, hbusy, -⟩
    exact hbusy (hs.closed (by simp [hreleased]) p)
  · exfalso
    have hmatch := hs.match_permits
    have hshutdown : shutdownPermits s = 0 := by
      unfold shutdownPermits
      split
      · contradiction
      · rfl
    have hunclaimed : 1 ≤ ∑ v, unclaimed (s.queue.phase (.inr v)) := by
      have hone : unclaimed (s.queue.phase (.inr w)) = 1 := by
        cases hphase : s.queue.phase (.inr w) <;> rw [hphase] at hhead <;> first | rfl | cases hhead
      rw [← hone]
      exact Finset.single_le_sum (f := fun v => unclaimed (s.queue.phase (.inr v)))
        (fun _ _ => Nat.zero_le _) (Finset.mem_univ w)
    rcases hcase with hempty | ⟨u, hu⟩
    · omega
    · -- The head is the last position, and its permit is still owed.
      rcases hs.consistent.writes hu with ⟨p, -, -, hdebt⟩
      have hdebts : producerDebt s p ≤ ∑ q, producerDebt s q :=
        Finset.single_le_sum (fun _ _ => Nat.zero_le _) (Finset.mem_univ p)
      have hlast := hs.last u _ hu
      omega

end Serial

/-! ## One step -/

section SerialStep

variable {π ω τ : Type*} [DecidableEq π] [DecidableEq ω] {size : RingSize} {s t : Pool π ω τ}

omit [DecidableEq π] [DecidableEq ω] in
theorem gaveUp_popBranch (pos sequence : Nat) :
    gaveUp .popping (Queue.popBranch pos sequence : Phase τ) =
      (decide (signedDiff sequence ((pos + 1) % 2 ^ 64) < 0)).toNat := by
  unfold Queue.popBranch
  simp only
  split
  · rename_i hzero
    rw [hzero]
    rfl
  · split
    · rename_i hneg
      rw [decide_eq_true hneg]
      rfl
    · rename_i hneg
      rw [decide_eq_false hneg]
      rfl

/-- A step inside a pop gives up exactly in the empty branch. -/
theorem gaveUp_step {act : Act τ} {queue : Queue (π ⊕ ω) τ} {u : π ⊕ ω}
    (hin : inPop (s.queue.phase u) = true) (hact : isInner act = true)
    (hqueue : s.queue.step size u act = some queue) :
    gaveUp .popping (queue.phase u) =
      gaveUp .popping (s.queue.phase u) + (takesEmptyBranch size s.queue u act).toNat := by
  have hself : ∀ ph : Phase τ, queue.phase = update s.queue.phase u ph →
      queue.phase u = ph := by
    intro ph hph
    rw [hph, update_self]
  have hnext : takesEmptyBranch size s.queue u .next =
      headUnpublished size s.queue (s.queue.phase u) := rfl
  cases Queue.step_cases hqueue with
  | callPush value h | callPop h | leavePush ok left h | leavePop out h => cases hact
  | pushLoad value h | pushSeq value pos h | claimPush value pos h hpos
  | pushReload value pos h hpos | pushSpurious value pos h | writeCell value pos h
  | publish pos h => simp [h, inPop] at hin
  | popLoad h | claimPop pos h hpos | popReload pos h hpos | recycle pos out h =>
    rw [hself _ rfl, hnext, h]; rfl
  | popSeq pos h =>
    rw [hself _ rfl, hnext, h, gaveUp_popBranch]
    exact (Nat.zero_add _).symm
  | popSpurious pos h | takeValue pos residue h => rw [hself _ rfl, h]; rfl

/-- A worker gives up exactly when its pop takes the empty branch; with a stop
requested it does not come back. -/
theorem failure_workerStep {w : ω} {event : WorkerEvent τ} (hs : Consistent s)
    (hstop : failure s w ≠ 0 → s.stopRequested w = true)
    (hstep : workerStep size s w event = some t) :
    failure t w = failure s w + (popFails size s (.worker w event)).toNat := by
  have hok := hs.workers w
  unfold failure at hstop ⊢
  cases workerStep_cases hstep with
  | acquire queue hcontrol hpermits hqueue =>
    rw [hcontrol] at hok
    rw [step_callPop hok] at hqueue
    cases hqueue
    simp only [setWorker, Queue.setPhase, update_self, hcontrol]
    rfl
  | pop act queue hcontrol hact hqueue =>
    rw [hcontrol] at hok
    simp only [hcontrol]
    exact gaveUp_step hok hact hqueue
  | popped task hcontrol hphase | failed hcontrol hphase =>
    simp only [setWorker, update_self, hcontrol, hphase]
    rfl
  | finish task hcontrol =>
    simp only [setWorker, update_self, hcontrol]
    rfl
  | checkStop hcontrol =>
    rw [hcontrol] at hstop
    simp only [setWorker, update_self, hcontrol, hstop (by simp [gaveUp]), if_true]
    rfl

omit [DecidableEq π] [DecidableEq ω] in
/-- A worker that does not move has the same standing. -/
theorem failure_congr {v : ω} (hcontrol : t.worker v = s.worker v)
    (hphase : t.queue.phase (.inr v) = s.queue.phase (.inr v)) : failure t v = failure s v := by
  rw [failure, failure, hcontrol, hphase]

omit [DecidableEq π] [DecidableEq ω] in
theorem headUnpublished_of_popFails {w : ω} {event : WorkerEvent τ}
    (h : popFails size s (.worker w event) = true) :
    headUnpublished size s.queue (s.queue.phase (.inr w)) = true := by
  cases event with
  | pop act =>
    cases act with
    | next => exact h
    | _ => cases h
  | _ => cases h

variable [Fintype π] [Fintype ω]

/-- A producer moves only before shutdown, and alone. -/
theorem Orderly.alone {p : π} {event : ProducerEvent τ} (hs : Orderly size s)
    (hserial : Serial s (.producer p event)) (hstep : producerStep size s p event = some t) :
    s.teardown = .alive ∧ ∀ q, q ≠ p → s.producer q = .idle := by
  have hbusy : s.producer p ≠ .idle →
      s.teardown = .alive ∧ ∀ q, q ≠ p → s.producer q = .idle := by
    intro hbusy
    constructor
    · by_contra hdown
      exact hbusy (hs.closed hdown p)
    · intro q hq
      by_contra hother
      exact hq (hs.single q p hother hbusy)
  cases producerStep_cases hstep with
  | enqueue task queue hcontrol hqueue => exact ⟨hserial.1, fun q _ => hserial.2 q⟩
  | push act task queue hcontrol hact hqueue | pushed task ok left hcontrol hphase
  | retry task queue hcontrol hqueue | release hcontrol => exact hbusy (by simp [hcontrol])

/-- A position is claimed only when the one before it has been published. -/
theorem Orderly.last_step {label : Label π ω τ} (hs : Orderly size s)
    (hsmall : t.queue.pushLog.length ≤ 2 ^ 63)
    (hstep : step size s label = some t) {u : π ⊕ ω} {pos : Nat}
    (hwrites : (t.queue.phase u).writes = some pos) : pos + 1 = t.queue.enqueuePos := by
  rcases step_queue hstep with hsame | ⟨v, act, hqueue⟩
  · rw [hsame] at hwrites ⊢
    exact hs.last u pos hwrites
  · have hbound := pushLog_length_le hqueue
    have hpushed := hs.ring.enqueuePos_eq
    have hnext : (s.queue.enqueuePos + 1) % 2 ^ 64 = s.queue.enqueuePos + 1 :=
      Nat.mod_eq_of_lt (by omega)
    rcases writes_of_step hqueue hwrites with hold | ⟨-, hpos, hclaimed⟩
    · rcases (step_positions hqueue).1 with ⟨-, henqueue⟩ | ⟨value, hphase, -⟩
      · rw [henqueue]
        exact hs.last u pos hold
      · -- The thread that claims would be the one that writes.
        rcases hs.consistent.writes hold with ⟨p, rfl, hp, -⟩
        rcases hs.consistent.inPush (u := v) (by rw [hphase]; rfl) with ⟨q, rfl, hq⟩
        rw [hs.single p q hp hq, hphase] at hold
        cases hold
    · rw [hpos, hclaimed, hnext]

theorem Orderly.producerStep {p : π} {event : ProducerEvent τ} (hs : Orderly size s)
    (hserial : Serial s (.producer p event))
    (hsmall : t.queue.pushLog.length ≤ 2 ^ 63)
    (hstep : producerStep size s p event = some t) : Orderly size t := by
  have honly := producerStep_only hs.consistent hstep
  have hpool : ThreadPool.step size s (.producer p event) = some t := hstep
  rcases hs.alone hserial hstep with ⟨halive, hothers⟩
  have hfailure : ∀ w, failure t w = failure s w := by
    intro w
    exact failure_congr (congrFun honly.workers w) (honly.phases _ (by simp))
  have hmover : ∀ q, t.producer q ≠ .idle → q = p := by
    intro q hbusy
    by_contra hq
    rw [honly.control q hq] at hbusy
    exact hbusy (hothers q hq)
  have halive' : t.teardown = .alive := by rw [honly.teardown, halive]
  constructor
  · exact hs.toCarried.step (by omega) hpool
  · intro q r hq hr
    rw [hmover q hq, hmover r hr]
  · intro hdown
    exact absurd halive' hdown
  · intro hreleased
    rw [halive'] at hreleased
    cases hreleased
  · intro u pos hwrites
    exact hs.last_step hsmall hpool hwrites
  · rw [honly.deficit_eq, hs.balance]
    simp only [hfailure]
  · intro w hw
    rw [hfailure w] at hw
    have hreleased := (hs.failed w hw).1
    rw [halive] at hreleased
    cases hreleased

theorem Orderly.workerStep {w : ω} {event : WorkerEvent τ} (hs : Orderly size s)
    (hsmall : t.queue.pushLog.length ≤ 2 ^ 63)
    (hstep : workerStep size s w event = some t) : Orderly size t := by
  have honly := workerStep_only hs.consistent hstep
  have hpool : ThreadPool.step size s (.worker w event) = some t := hstep
  have hcarried := hs.toCarried.step (by omega) hpool
  have hstops : t.stopRequested = s.stopRequested := by
    cases workerStep_cases hstep <;> rfl
  have hfailure := failure_workerStep hs.consistent
    (fun hw => hs.stops (hs.failed w hw).1 w) hstep
  have hothers : ∀ v, v ≠ w → failure t v = failure s v := by
    intro v hv
    exact failure_congr (honly.control v hv) (honly.phases _ (by simpa using hv))
  have henqueue : t.queue.enqueuePos = s.queue.enqueuePos := by
    rw [hcarried.ring.enqueuePos_eq, hs.ring.enqueuePos_eq, honly.pushLog]
  have hdequeue : s.queue.dequeuePos ≤ t.queue.dequeuePos := by
    rcases step_queue hpool with hsame | ⟨u, act, hqueue⟩
    · rw [hsame]
    · have hpushed := hs.ring.enqueuePos_eq
      have horder := hs.ring.order
      have hbound := pushLog_length_le hqueue
      rcases (step_positions hqueue).2 with hsame | ⟨-, hclaimed⟩
      · omega
      · rw [hclaimed, Nat.mod_eq_of_lt (by omega)]
        exact Nat.le_succ _
  constructor
  · exact hcarried
  · rw [honly.producers]
    exact hs.single
  · rw [honly.teardown, honly.producers]
    exact hs.closed
  · rw [honly.teardown, hstops]
    exact hs.stops
  · intro u pos hwrites
    exact hs.last_step hsmall hpool hwrites
  · have hchange := Counting.sum_change (f := failure s) (g := failure t) w hothers
    rw [honly.deficit_eq, hs.balance]
    omega
  · intro v hv
    -- A worker that has given up did so before, or finds the queue empty now.
    have hempty : s.teardown = .released ∧ s.queue.dequeuePos = s.queue.enqueuePos := by
      by_cases hold : failure s v = 0
      · have hself : v = w := by
          by_contra hother
          exact hv ((hothers v hother).trans hold)
        rw [hself] at hv hold
        rw [hfailure, hold, Nat.zero_add] at hv
        have hfails : popFails size s (.worker w event) = true := by
          cases hfails : popFails size s (.worker w event) with
          | true => rfl
          | false => exact absurd (by rw [hfails]; rfl) hv
        rw [honly.pushLog] at hsmall
        exact hs.of_headUnpublished hsmall (headUnpublished_of_popFails hfails)
      · exact hs.failed v hold
    have horder := hcarried.ring.order
    rw [honly.teardown]
    exact ⟨hempty.1, by omega⟩

omit [DecidableEq π] in
theorem Orderly.destructorStep {event : DestructorEvent ω} (hs : Orderly size s)
    (hserial : Serial s (.destructor event)) (hstep : destructorStep s event = some t) :
    Orderly size t := by
  rcases destructorStep_balance hs.consistent hstep with ⟨hconsistent, hdeficit⟩
  rcases destructorStep_frame hstep with ⟨hqueue, hproducer, hworker⟩
  have hfailure : ∀ w, failure t w = failure s w := by
    intro w
    exact failure_congr (congrFun hworker w) (by rw [hqueue])
  -- The destructor goes forward, starts with no producer at work, and releases its
  -- permits when every worker has been asked to stop.
  have hprogress : (s.teardown = .released → t.teardown = .released) ∧
      (t.teardown ≠ .alive → ∀ p, s.producer p = .idle) ∧
      (t.teardown = .released → ∀ w, t.stopRequested w = true) := by
    cases event with
    | destroy =>
      simp only [ThreadPool.destructorStep] at hstep
      split at hstep
      · rename_i halive
        cases hstep
        exact ⟨by simp [halive], fun _ => hserial, by simp⟩
      · cases hstep
    | requestStop w =>
      simp only [ThreadPool.destructorStep] at hstep
      split at hstep
      · rename_i hstopping
        cases hstep
        exact ⟨by simp [hstopping.1], hs.closed, by simp [hstopping.1]⟩
      · cases hstep
    | releaseWorkers =>
      simp only [ThreadPool.destructorStep] at hstep
      split at hstep
      · rename_i hstopping
        cases hstep
        exact ⟨fun _ => rfl, fun _ => hs.closed (by simp [hstopping.1]), fun _ => hstopping.2⟩
      · cases hstep
  rcases hprogress with ⟨hreleased, hidle, hstops⟩
  constructor
  · constructor
    · rw [hqueue]
      exact hs.ring
    · exact hconsistent
    · rw [hqueue, hproducer]
      exact hs.carries
  · rw [hproducer]
    exact hs.single
  · rw [hproducer]
    exact hidle
  · exact hstops
  · rw [hqueue]
    exact hs.last
  · rw [hdeficit, hs.balance]
    simp only [hfailure]
  · intro w hw
    rw [hfailure w] at hw
    rw [hqueue]
    exact ⟨hreleased (hs.failed w hw).1, (hs.failed w hw).2⟩

theorem Orderly.step {label : Label π ω τ} (hs : Orderly size s) (hserial : Serial s label)
    (hsmall : t.queue.pushLog.length ≤ 2 ^ 63)
    (hstep : step size s label = some t) : Orderly size t := by
  cases label with
  | producer p event => exact hs.producerStep hserial hsmall hstep
  | worker w event => exact hs.workerStep hsmall hstep
  | destructor event => exact hs.destructorStep hserial hstep

end SerialStep

end ThreadPool

end EdgeOrchestrator
