import EdgeOrchestrator.Executor.MpmcQueue
import EdgeOrchestrator.Library.Counting

/-!
# The thread pool

`ThreadPool` couples the lock-free queue with a counting semaphore: `enqueue`
pushes a task and then releases a permit, a worker acquires a permit and then
pops once.  Producers and workers interleave at the level of the queue's atomic
steps.

A permit stands for a published task somewhere in the ring, while `try_pop`
looks only at the head.  When a producer has claimed the head but not yet
published it, a worker woken by a later task finds the head unpublished, drops
its permit, and one task stays behind without one.

Main results:

- `deficit_step`: one step leaves the number of tasks without a permit alone, except that a
  failing pop raises it by one.
- `quiescent_isEmpty_iff`: at rest before shutdown the queue is empty exactly when no pop of
  the run has failed.
-/

namespace EdgeOrchestrator

open scoped StateMachine
open Function (update update_of_ne update_self)

namespace ThreadPool

open MpmcQueue

/-! ## The machine -/

/-- `QUEUE_CAPACITY` is 1024 cells. -/
def queueSize : RingSize where
  log := 10
  one_le := by decide
  le := by decide

/-- How many workers the constructor starts. -/
def workerCount (numThreads hardwareConcurrency : Nat) : Nat :=
  if numThreads = 0 then (if hardwareConcurrency = 0 then 4 else hardwareConcurrency)
  else numThreads

theorem workerCount_pos (numThreads hardwareConcurrency : Nat) :
    0 < workerCount numThreads hardwareConcurrency := by
  unfold workerCount
  split
  · split <;> omega
  · omega

/-- Where a caller of `enqueue` is. -/
inductive ProducerPhase (τ : Type*) where
  | idle
  | pushing (task : τ)
  | yielding (task : τ)
  | releasing
deriving DecidableEq, Repr

/-- Where a thread of `worker_loop` is. -/
inductive WorkerPhase (τ : Type*) where
  | acquiring
  | popping
  | running (task : τ)
  | checkingStop
  | exited
deriving DecidableEq, Repr

/-- How far the destructor has come. -/
inductive Teardown where
  | alive
  | stopping
  | released
deriving DecidableEq, Repr

/-- `π` are the threads that call `enqueue`, `ω` the workers, `τ` the tasks. -/
structure Pool (π ω τ : Type*) where
  queue : Queue (π ⊕ ω) τ
  permits : Nat
  producer : π → ProducerPhase τ
  worker : ω → WorkerPhase τ
  stopRequested : ω → Bool
  teardown : Teardown

/-- The steps of `enqueue`. -/
inductive ProducerEvent (τ : Type*) where
  | enqueue (task : τ)
  | push (act : Act τ)
  | pushed
  | retry
  | release
deriving DecidableEq, Repr

/-- The steps of `worker_loop`. -/
inductive WorkerEvent (τ : Type*) where
  | acquire
  | pop (act : Act τ)
  | popped
  | finish
  | checkStop
deriving DecidableEq, Repr

/-- The steps of the destructor. -/
inductive DestructorEvent (ω : Type*) where
  | destroy
  | requestStop (w : ω)
  | releaseWorkers
deriving DecidableEq, Repr

/-- The steps of the pool, by thread. -/
inductive Label (π ω τ : Type*) where
  | producer (p : π) (event : ProducerEvent τ)
  | worker (w : ω) (event : WorkerEvent τ)
  | destructor (event : DestructorEvent ω)
deriving DecidableEq, Repr

section Machine

variable {π ω τ : Type*} [DecidableEq π] [DecidableEq ω] [Fintype ω] (size : RingSize)
  (s : Pool π ω τ)

/-- Run one queue step of a thread and update the rest of the pool with it. -/
def queueStep (t : π ⊕ ω) (act : Act τ) (rest : Pool π ω τ → Pool π ω τ) : Option (Pool π ω τ) :=
  (s.queue.step size t act).map fun queue => rest { s with queue := queue }

def setProducer (p : π) (phase : ProducerPhase τ) (s : Pool π ω τ) : Pool π ω τ :=
  { s with producer := update s.producer p phase }

def setWorker (w : ω) (phase : WorkerPhase τ) (s : Pool π ω τ) : Pool π ω τ :=
  { s with worker := update s.worker w phase }

/-- `while (!try_push(task)) yield(); tasks_available_.release();` -/
def producerStep (p : π) : ProducerEvent τ → Option (Pool π ω τ)
  | .enqueue task =>
    match s.producer p with
    | .idle => queueStep size s (.inl p) (.callPush task) (setProducer p (.pushing task))
    | _ => none
  | .push act =>
    match s.producer p with
    | .pushing _ => if isInner act then queueStep size s (.inl p) act id else none
    | _ => none
  | .pushed =>
    match s.producer p, s.queue.phase (.inl p) with
    | .pushing task, .pushDone ok _ =>
      queueStep size s (.inl p) .leave
        (setProducer p (if ok then .releasing else .yielding task))
    | _, _ => none
  | .retry =>
    match s.producer p with
    | .yielding task =>
      queueStep size s (.inl p) (.callPush task) (setProducer p (.pushing task))
    | _ => none
  | .release =>
    match s.producer p with
    | .releasing => some (setProducer p .idle { s with permits := s.permits + 1 })
    | _ => none

/-- `worker_loop`: acquire a permit, pop once, run the task or look for a stop. -/
def workerStep (w : ω) : WorkerEvent τ → Option (Pool π ω τ)
  | .acquire =>
    match s.worker w with
    | .acquiring =>
      if 0 < s.permits then
        queueStep size { s with permits := s.permits - 1 } (.inr w) .callPop
          (setWorker w .popping)
      else none
    | _ => none
  | .pop act =>
    match s.worker w with
    | .popping => if isInner act then queueStep size s (.inr w) act id else none
    | _ => none
  | .popped =>
    match s.worker w, s.queue.phase (.inr w) with
    | .popping, .popDone (some task) =>
      queueStep size s (.inr w) .leave (setWorker w (.running task))
    | .popping, .popDone none =>
      queueStep size s (.inr w) .leave (setWorker w .checkingStop)
    | _, _ => none
  | .finish =>
    match s.worker w with
    | .running _ => some (setWorker w .acquiring s)
    | _ => none
  | .checkStop =>
    match s.worker w with
    | .checkingStop =>
      some (setWorker w (if s.stopRequested w then .exited else .acquiring) s)
    | _ => none

/-- The destructor: request a stop from every worker, then release one permit
for each. -/
def destructorStep : DestructorEvent ω → Option (Pool π ω τ)
  | .destroy => if s.teardown = .alive then some { s with teardown := .stopping } else none
  | .requestStop w =>
    if s.teardown = .stopping ∧ s.stopRequested w = false then
      some { s with stopRequested := update s.stopRequested w true }
    else none
  | .releaseWorkers =>
    if s.teardown = .stopping ∧ ∀ w, s.stopRequested w = true then
      some { s with permits := s.permits + Fintype.card ω, teardown := .released }
    else none

/-- The next step of one thread. -/
def step : Label π ω τ → Option (Pool π ω τ)
  | .producer p event => producerStep size s p event
  | .worker w event => workerStep size s w event
  | .destructor event => destructorStep s event

end Machine

/-- A pool whose workers are about to acquire their first permit. -/
def started (π ω τ : Type*) [Inhabited τ] : Pool π ω τ where
  queue := fresh (π ⊕ ω) τ
  permits := 0
  producer := fun _ => .idle
  worker := fun _ => .acquiring
  stopRequested := fun _ => false
  teardown := .alive

/-- All interleavings of a new pool. -/
def machine (size : RingSize) (π ω τ : Type*) [DecidableEq π] [DecidableEq ω] [Fintype ω]
    [Inhabited τ] : StateMachine (Pool π ω τ) (Label π ω τ) where
  initial := started π ω τ
  step := step size

/-! ## What the property speaks about -/

/-- Every pushed task has been popped. -/
def IsEmpty {ι τ : Type*} (queue : Queue ι τ) : Prop :=
  queue.popLog.length = queue.pushLog.length

/-- No enqueue is in progress and every worker is blocked in `acquire`. -/
structure Quiescent {π ω τ : Type*} (s : Pool π ω τ) : Prop where
  producers : ∀ p, s.producer p = .idle
  workers : ∀ w, s.worker w = .acquiring
  permits : s.permits = 0

/-- A pop in this phase would find its cell unpublished: `diff < 0`. -/
def headUnpublished {ι τ : Type*} (size : RingSize) (queue : Queue ι τ) : Phase τ → Bool
  | .popSeq pos => signedDiff (queue.sequence (size.index pos)) ((pos + 1) % 2 ^ 64) < 0
  | _ => false

/-- The thread's step is a `try_pop` taking its `diff < 0` branch. -/
def takesEmptyBranch {ι τ : Type*} (size : RingSize) (queue : Queue ι τ) (t : ι) :
    Act τ → Bool
  | .next => headUnpublished size queue (queue.phase t)
  | _ => false

/-- The step is a worker's failing pop. -/
def popFails {π ω τ : Type*} (size : RingSize) (s : Pool π ω τ) : Label π ω τ → Bool
  | .worker w (.pop act) => takesEmptyBranch size s.queue (.inr w) act
  | _ => false

/-! ## What queue calls do to the logs -/

section QueueCalls

variable {ι τ : Type*} [DecidableEq ι] {size : RingSize} {s s' : Queue ι τ} {t : ι}

/-- The thread is inside `try_push`. -/
def inPush : Phase τ → Bool
  | .pushLoad _ => true
  | .pushSeq _ _ => true
  | .pushCas _ _ => true
  | .pushWrite _ _ => true
  | .pushStore _ => true
  | .pushDone _ _ => true
  | _ => false

/-- The thread is inside `try_pop`. -/
def inPop : Phase τ → Bool
  | .popLoad => true
  | .popSeq _ => true
  | .popCas _ => true
  | .popRead _ => true
  | .popStore _ _ => true
  | .popDone _ => true
  | _ => false

/-- One for a push that has claimed a position and has not returned. -/
def pushClaimed : Phase τ → Nat
  | .pushWrite _ _ => 1
  | .pushStore _ => 1
  | .pushDone true _ => 1
  | _ => 0

/-- One for a pop that has neither failed nor delivered its value. -/
def popPending : Phase τ → Nat
  | .popLoad => 1
  | .popSeq _ => 1
  | .popCas _ => 1
  | .popRead _ => 1
  | .popStore _ _ => 1
  | _ => 0

theorem step_callPush (h : s.phase t = .idle) (value : τ) :
    s.step size t (.callPush value) = some (s.setPhase t (.pushLoad value)) :=
  (Queue.Transition.callPush value h).step_eq

theorem step_callPop (h : s.phase t = .idle) :
    s.step size t .callPop = some (s.setPhase t .popLoad) :=
  (Queue.Transition.callPop h).step_eq

/-- The branch after the sequence load of a push claims nothing yet. -/
theorem pushBranch_inPush (value : τ) (pos sequence : Nat) :
    inPush (Queue.pushBranch value pos sequence) = true ∧
      pushClaimed (Queue.pushBranch value pos sequence) = 0 := by
  unfold Queue.pushBranch
  simp only
  split
  · exact ⟨rfl, rfl⟩
  · split
    · exact ⟨rfl, rfl⟩
    · exact ⟨rfl, rfl⟩

/-- The branch after the sequence load of a pop gives up exactly on a negative
difference. -/
theorem popBranch_inPop (pos sequence : Nat) :
    inPop (Queue.popBranch pos sequence : Phase τ) = true ∧
      popPending (Queue.popBranch pos sequence : Phase τ) +
        (decide (signedDiff sequence ((pos + 1) % 2 ^ 64) < 0)).toNat = 1 := by
  unfold Queue.popBranch
  simp only
  split
  · rename_i hzero
    rw [hzero]
    exact ⟨rfl, rfl⟩
  · split
    · rename_i hneg
      rw [decide_eq_true hneg]
      exact ⟨rfl, rfl⟩
    · rename_i hneg
      rw [decide_eq_false hneg]
      exact ⟨rfl, rfl⟩

/-- The steps inside a push log a push exactly when they claim a position. -/
theorem step_inPush {act : Act τ} (hin : inPush (s.phase t) = true)
    (hact : isInner act = true) (hstep : s.step size t act = some s') :
    ∃ ph, inPush ph = true ∧ s'.phase = update s.phase t ph ∧
      s'.popLog = s.popLog ∧
      s'.pushLog.length + pushClaimed (s.phase t) = s.pushLog.length + pushClaimed ph := by
  cases Queue.step_cases hstep with
  | callPush value h | callPop h | leavePush ok left h | leavePop out h => cases hact
  | pushLoad value h | pushReload value pos h hpos | pushSpurious value pos h
  | writeCell value pos h | publish pos h => exact ⟨_, rfl, rfl, rfl, by rw [h]; rfl⟩
  | pushSeq value pos h =>
    have hbranch := pushBranch_inPush value pos (s.sequence (size.index pos))
    exact ⟨_, hbranch.1, rfl, rfl, by rw [h, hbranch.2]; rfl⟩
  | claimPush value pos h hpos =>
    exact ⟨_, rfl, rfl, rfl, by
      rw [h]
      simp only [Queue.claimPush, List.length_append, List.length_singleton, pushClaimed]⟩
  | popLoad h | popSeq pos h | claimPop pos h hpos | popReload pos h hpos | popSpurious pos h
  | takeValue pos residue h | recycle pos out h => simp [h, inPush] at hin

/-- The steps inside a pop either keep it pending, deliver a value, or take the
empty branch. -/
theorem step_inPop {act : Act τ} (hin : inPop (s.phase t) = true)
    (hact : isInner act = true) (hstep : s.step size t act = some s') :
    ∃ ph, inPop ph = true ∧ s'.phase = update s.phase t ph ∧
      s'.pushLog = s.pushLog ∧
      s'.popLog.length + popPending ph + (takesEmptyBranch size s t act).toNat =
        s.popLog.length + popPending (s.phase t) := by
  have hnext : takesEmptyBranch size s t .next = headUnpublished size s (s.phase t) := rfl
  cases Queue.step_cases hstep with
  | callPush value h | callPop h | leavePush ok left h | leavePop out h => cases hact
  | pushLoad value h | pushSeq value pos h | claimPush value pos h hpos
  | pushReload value pos h hpos | pushSpurious value pos h | writeCell value pos h
  | publish pos h => simp [h, inPop] at hin
  | popLoad h | claimPop pos h hpos | popReload pos h hpos =>
    exact ⟨_, rfl, rfl, rfl, by rw [hnext, h]; rfl⟩
  | popSeq pos h =>
    have hbranch := popBranch_inPop (τ := τ) pos (s.sequence (size.index pos))
    refine ⟨_, hbranch.1, rfl, rfl, ?_⟩
    rw [hnext, h, Nat.add_assoc]
    exact congrArg (s.popLog.length + ·) hbranch.2
  | popSpurious pos h | takeValue pos residue h => exact ⟨_, rfl, rfl, rfl, by rw [h]; rfl⟩
  | recycle pos out h =>
    refine ⟨_, rfl, rfl, rfl, ?_⟩
    rw [hnext, h]
    simp only [Queue.recycle, List.length_append, List.length_singleton]
    rfl

end QueueCalls

/-! ## Permits and tasks balance -/

section Balance

variable {π ω τ : Type*}

/-- A producer is inside the queue exactly while it is pushing. -/
def ProducerOk (control : ProducerPhase τ) (phase : Phase τ) : Prop :=
  match control with
  | .pushing _ => inPush phase = true
  | _ => phase = .idle

/-- A worker is inside the queue exactly while it is popping. -/
def WorkerOk (control : WorkerPhase τ) (phase : Phase τ) : Prop :=
  match control with
  | .popping => inPop phase = true
  | _ => phase = .idle

/-- Every thread is where its call on the ring is. -/
structure Consistent (s : Pool π ω τ) : Prop where
  producers : ∀ p, ProducerOk (s.producer p) (s.queue.phase (.inl p))
  workers : ∀ w, WorkerOk (s.worker w) (s.queue.phase (.inr w))

/-- One while a producer has claimed a position and owes the permit for it. -/
def permitOwed (control : ProducerPhase τ) (phase : Phase τ) : Nat :=
  (match control with
    | .releasing => 1
    | _ => 0) + pushClaimed phase

/-- The permits that a caller still has to release. -/
def producerDebt (s : Pool π ω τ) (p : π) : Nat :=
  permitOwed (s.producer p) (s.queue.phase (.inl p))

/-- One while the pop of a worker is under way. -/
def workerClaim (s : Pool π ω τ) (w : ω) : Nat :=
  popPending (s.queue.phase (.inr w))

/-- A step that only concerns producer `p`. -/
structure OnlyProducer (s t : Pool π ω τ) (p : π) : Prop where
  control : ∀ q, q ≠ p → t.producer q = s.producer q
  workers : t.worker = s.worker
  phases : ∀ u, u ≠ .inl p → t.queue.phase u = s.queue.phase u
  popLog : t.queue.popLog = s.queue.popLog
  teardown : t.teardown = s.teardown
  ok : ProducerOk (t.producer p) (t.queue.phase (.inl p))
  balance : t.queue.pushLog.length + producerDebt s p + s.permits =
    s.queue.pushLog.length + producerDebt t p + t.permits

/-- A step that only concerns worker `w`; `failed` counts a failing pop. -/
structure OnlyWorker (s t : Pool π ω τ) (w : ω) (failed : Nat) : Prop where
  control : ∀ v, v ≠ w → t.worker v = s.worker v
  producers : t.producer = s.producer
  phases : ∀ u, u ≠ .inr w → t.queue.phase u = s.queue.phase u
  pushLog : t.queue.pushLog = s.queue.pushLog
  teardown : t.teardown = s.teardown
  ok : WorkerOk (t.worker w) (t.queue.phase (.inr w))
  balance : t.queue.popLog.length + workerClaim t w + t.permits + failed =
    s.queue.popLog.length + workerClaim s w + s.permits

variable {s t : Pool π ω τ}

theorem OnlyProducer.consistent {p : π} (h : OnlyProducer s t p) (hs : Consistent s) :
    Consistent t := by
  constructor
  · intro q
    by_cases hq : q = p
    · rw [hq]
      exact h.ok
    · rw [h.control q hq, h.phases _ (by simpa using hq)]
      exact hs.producers q
  · intro w
    rw [h.workers, h.phases _ (by simp)]
    exact hs.workers w

theorem OnlyWorker.consistent {w : ω} {failed : Nat} (h : OnlyWorker s t w failed)
    (hs : Consistent s) : Consistent t := by
  constructor
  · intro p
    rw [h.producers, h.phases _ (by simp)]
    exact hs.producers p
  · intro v
    by_cases hv : v = w
    · rw [hv]
      exact h.ok
    · rw [h.control v hv, h.phases _ (by simpa using hv)]
      exact hs.workers v

variable [Fintype π] [Fintype ω]

/-- Permits released for shutdown stand for no task. -/
def shutdownPermits (s : Pool π ω τ) : Nat :=
  match s.teardown with
  | .released => Fintype.card ω
  | _ => 0

/-- Tasks that no permit stands for: pushes minus the tasks taken, the permits
available, those still owed by producers and those held by popping workers. -/
def deficit (s : Pool π ω τ) : Int :=
  (s.queue.pushLog.length : Int) + shutdownPermits s - s.queue.popLog.length - s.permits -
    ∑ p, producerDebt s p - ∑ w, workerClaim s w

theorem OnlyProducer.deficit_eq {p : π} (h : OnlyProducer s t p) : deficit t = deficit s := by
  have hproducers := Counting.sum_change (f := producerDebt s) (g := producerDebt t) p (by
    intro q hq
    rw [producerDebt, producerDebt, h.control q hq, h.phases _ (by simpa using hq)])
  have hworkers : ∑ w, workerClaim t w = ∑ w, workerClaim s w := by
    apply Finset.sum_congr rfl
    intro w _
    rw [workerClaim, workerClaim, h.phases _ (by simp)]
  have hshutdown : shutdownPermits t = shutdownPermits s := by
    rw [shutdownPermits, shutdownPermits, h.teardown]
  have hbalance := h.balance
  rw [deficit, deficit, hshutdown, h.popLog, hworkers]
  omega

theorem OnlyWorker.deficit_eq {w : ω} {failed : Nat} (h : OnlyWorker s t w failed) :
    deficit t = deficit s + failed := by
  have hworkers := Counting.sum_change (f := workerClaim s) (g := workerClaim t) w (by
    intro v hv
    rw [workerClaim, workerClaim, h.phases _ (by simpa using hv)])
  have hproducers : ∑ p, producerDebt t p = ∑ p, producerDebt s p := by
    apply Finset.sum_congr rfl
    intro p _
    rw [producerDebt, producerDebt, h.producers, h.phases _ (by simp)]
  have hshutdown : shutdownPermits t = shutdownPermits s := by
    rw [shutdownPermits, shutdownPermits, h.teardown]
  have hbalance := h.balance
  rw [deficit, deficit, hshutdown, h.pushLog, hproducers]
  omega

end Balance

/-! ## One step -/

section Step

variable {π ω τ : Type*} [DecidableEq π] [DecidableEq ω] {size : RingSize}
  {s t : Pool π ω τ}

theorem queueStep_eq_some {u : π ⊕ ω} {act : Act τ} {rest : Pool π ω τ → Pool π ω τ}
    (h : queueStep size s u act rest = some t) :
    ∃ queue, s.queue.step size u act = some queue ∧ t = rest { s with queue := queue } := by
  rw [queueStep, Option.map_eq_some_iff] at h
  rcases h with ⟨queue, hqueue, ht⟩
  exact ⟨queue, hqueue, ht.symm⟩

/-- What a producer's step can do. -/
inductive ProducerTransition (size : RingSize) (s : Pool π ω τ) (p : π) :
    ProducerEvent τ → Pool π ω τ → Prop
  | enqueue (task : τ) (queue : Queue (π ⊕ ω) τ) (hcontrol : s.producer p = .idle)
      (hqueue : s.queue.step size (.inl p) (.callPush task) = some queue) :
      ProducerTransition size s p (.enqueue task)
        (setProducer p (.pushing task) { s with queue := queue })
  | push (act : Act τ) (task : τ) (queue : Queue (π ⊕ ω) τ)
      (hcontrol : s.producer p = .pushing task) (hact : isInner act = true)
      (hqueue : s.queue.step size (.inl p) act = some queue) :
      ProducerTransition size s p (.push act) { s with queue := queue }
  | pushed (task : τ) (ok : Bool) (left : Option τ) (hcontrol : s.producer p = .pushing task)
      (hphase : s.queue.phase (.inl p) = .pushDone ok left) :
      ProducerTransition size s p .pushed
        (setProducer p (if ok then .releasing else .yielding task)
          { s with queue := s.queue.setPhase (.inl p) .idle })
  | retry (task : τ) (queue : Queue (π ⊕ ω) τ) (hcontrol : s.producer p = .yielding task)
      (hqueue : s.queue.step size (.inl p) (.callPush task) = some queue) :
      ProducerTransition size s p .retry
        (setProducer p (.pushing task) { s with queue := queue })
  | release (hcontrol : s.producer p = .releasing) :
      ProducerTransition size s p .release
        (setProducer p .idle { s with permits := s.permits + 1 })

theorem producerStep_cases {p : π} {event : ProducerEvent τ}
    (hstep : producerStep size s p event = some t) : ProducerTransition size s p event t := by
  unfold producerStep at hstep
  split at hstep
  · split at hstep
    · rename_i hcontrol
      rcases queueStep_eq_some hstep with ⟨queue, hqueue, rfl⟩
      exact .enqueue _ queue hcontrol hqueue
    · cases hstep
  · split at hstep
    · rename_i task hcontrol
      split at hstep
      · rename_i hact
        rcases queueStep_eq_some hstep with ⟨queue, hqueue, rfl⟩
        exact .push _ task queue hcontrol hact hqueue
      · cases hstep
    · cases hstep
  · split at hstep
    · rename_i task ok left hcontrol hphase
      rcases queueStep_eq_some hstep with ⟨queue, hqueue, rfl⟩
      rw [Queue.step_leave_push hphase] at hqueue
      cases hqueue
      exact .pushed task ok left hcontrol hphase
    · cases hstep
  · split at hstep
    · rename_i task hcontrol
      rcases queueStep_eq_some hstep with ⟨queue, hqueue, rfl⟩
      exact .retry task queue hcontrol hqueue
    · cases hstep
  · split at hstep
    · rename_i hcontrol
      cases hstep
      exact .release hcontrol
    · cases hstep

/-- What a worker's step can do. -/
inductive WorkerTransition (size : RingSize) (s : Pool π ω τ) (w : ω) :
    WorkerEvent τ → Pool π ω τ → Prop
  | acquire (queue : Queue (π ⊕ ω) τ) (hcontrol : s.worker w = .acquiring)
      (hpermits : 0 < s.permits)
      (hqueue : s.queue.step size (.inr w) .callPop = some queue) :
      WorkerTransition size s w .acquire
        (setWorker w .popping { s with queue := queue, permits := s.permits - 1 })
  | pop (act : Act τ) (queue : Queue (π ⊕ ω) τ) (hcontrol : s.worker w = .popping)
      (hact : isInner act = true) (hqueue : s.queue.step size (.inr w) act = some queue) :
      WorkerTransition size s w (.pop act) { s with queue := queue }
  | popped (task : τ) (hcontrol : s.worker w = .popping)
      (hphase : s.queue.phase (.inr w) = .popDone (some task)) :
      WorkerTransition size s w .popped
        (setWorker w (.running task) { s with queue := s.queue.setPhase (.inr w) .idle })
  | failed (hcontrol : s.worker w = .popping)
      (hphase : s.queue.phase (.inr w) = .popDone none) :
      WorkerTransition size s w .popped
        (setWorker w .checkingStop { s with queue := s.queue.setPhase (.inr w) .idle })
  | finish (task : τ) (hcontrol : s.worker w = .running task) :
      WorkerTransition size s w .finish (setWorker w .acquiring s)
  | checkStop (hcontrol : s.worker w = .checkingStop) :
      WorkerTransition size s w .checkStop
        (setWorker w (if s.stopRequested w then .exited else .acquiring) s)

theorem workerStep_cases {w : ω} {event : WorkerEvent τ}
    (hstep : workerStep size s w event = some t) : WorkerTransition size s w event t := by
  unfold workerStep at hstep
  split at hstep
  · split at hstep
    · rename_i hcontrol
      split at hstep
      · rename_i hpermits
        rcases queueStep_eq_some hstep with ⟨queue, hqueue, rfl⟩
        exact .acquire queue hcontrol hpermits hqueue
      · cases hstep
    · cases hstep
  · split at hstep
    · rename_i hcontrol
      split at hstep
      · rename_i hact
        rcases queueStep_eq_some hstep with ⟨queue, hqueue, rfl⟩
        exact .pop _ queue hcontrol hact hqueue
      · cases hstep
    · cases hstep
  · split at hstep
    · rename_i task hcontrol hphase
      rcases queueStep_eq_some hstep with ⟨queue, hqueue, rfl⟩
      rw [Queue.step_leave_pop hphase] at hqueue
      cases hqueue
      exact .popped task hcontrol hphase
    · rename_i hcontrol hphase
      rcases queueStep_eq_some hstep with ⟨queue, hqueue, rfl⟩
      rw [Queue.step_leave_pop hphase] at hqueue
      cases hqueue
      exact .failed hcontrol hphase
    · cases hstep
  · split at hstep
    · rename_i task hcontrol
      cases hstep
      exact .finish task hcontrol
    · cases hstep
  · split at hstep
    · rename_i hcontrol
      cases hstep
      exact .checkStop hcontrol
    · cases hstep

/-- Calling or leaving the queue, or acting outside it, with a new control phase
for producer `p`. -/
theorem onlyProducer_of_setPhase {p : π} {control : ProducerPhase τ} {phase : Phase τ}
    {permits : Nat} (hok : ProducerOk control phase)
    (hbalance : permitOwed (s.producer p) (s.queue.phase (.inl p)) + s.permits =
      permitOwed control phase + permits) :
    OnlyProducer s
      (setProducer p control
        { s with queue := s.queue.setPhase (.inl p) phase, permits := permits }) p where
  control := by
    intro q hq
    exact update_of_ne hq _ _
  workers := rfl
  phases := by
    intro u hu
    exact update_of_ne hu _ _
  popLog := rfl
  teardown := rfl
  ok := by simpa [setProducer, Queue.setPhase] using hok
  balance := by
    simp only [producerDebt, setProducer, Queue.setPhase, update_self]
    omega

theorem producerStep_only {p : π} {event : ProducerEvent τ} (hs : Consistent s)
    (hstep : producerStep size s p event = some t) : OnlyProducer s t p := by
  have hok := hs.producers p
  cases producerStep_cases hstep with
  | enqueue task queue hcontrol hqueue | retry task queue hcontrol hqueue =>
    rw [hcontrol] at hok
    rw [step_callPush hok] at hqueue
    cases hqueue
    refine onlyProducer_of_setPhase rfl ?_
    rw [hcontrol, hok]
    rfl
  | push act task queue hcontrol hact hqueue =>
    rw [hcontrol] at hok
    rcases step_inPush hok hact hqueue with ⟨ph, hph, hphase, hpopLog, hbalance⟩
    refine ⟨fun _ _ => rfl, rfl, ?_, hpopLog, rfl, ?_, ?_⟩
    · intro u hu
      simp [hphase, hu]
    · simp only [hcontrol, hphase, update_self]
      exact hph
    · simp only [producerDebt, permitOwed, hcontrol, hphase, update_self]
      omega
  | pushed task ok left hcontrol hphase =>
    cases ok with
    | true | false =>
      refine onlyProducer_of_setPhase rfl ?_
      rw [hcontrol, hphase]
      rfl
  | release hcontrol =>
    rw [hcontrol] at hok
    refine ⟨?_, rfl, fun _ _ => rfl, rfl, rfl, ?_, ?_⟩
    · intro q hq
      exact update_of_ne hq _ _
    · simpa [setProducer, ProducerOk] using hok
    · simp only [producerDebt, setProducer, hcontrol, permitOwed, update_self]
      omega

/-- Calling or leaving the queue with a new control phase for worker `w`. -/
theorem onlyWorker_of_setPhase {w : ω} {control : WorkerPhase τ} {phase : Phase τ}
    {permits : Nat} (hok : WorkerOk control phase)
    (hbalance : popPending phase + permits =
      popPending (s.queue.phase (.inr w)) + s.permits) :
    OnlyWorker s
      (setWorker w control
        { s with queue := s.queue.setPhase (.inr w) phase, permits := permits }) w 0 where
  control := by
    intro v hv
    exact update_of_ne hv _ _
  producers := rfl
  phases := by
    intro u hu
    exact update_of_ne hu _ _
  pushLog := rfl
  teardown := rfl
  ok := by simpa [setWorker, Queue.setPhase] using hok
  balance := by
    simp only [workerClaim, setWorker, Queue.setPhase, update_self]
    omega

omit [DecidableEq π] in
/-- A change of the worker's control phase outside the queue. -/
theorem onlyWorker_of_control {w : ω} {control : WorkerPhase τ}
    (hok : WorkerOk control (s.queue.phase (.inr w))) :
    OnlyWorker s (setWorker w control s) w 0 where
  control := by
    intro v hv
    exact update_of_ne hv _ _
  producers := rfl
  phases := fun _ _ => rfl
  pushLog := rfl
  teardown := rfl
  ok := by simpa [setWorker] using hok
  balance := rfl

theorem workerStep_only {w : ω} {event : WorkerEvent τ} (hs : Consistent s)
    (hstep : workerStep size s w event = some t) :
    OnlyWorker s t w (popFails size s (.worker w event)).toNat := by
  have hok := hs.workers w
  cases workerStep_cases hstep with
  | acquire queue hcontrol hpermits hqueue =>
    rw [hcontrol] at hok
    rw [step_callPop hok] at hqueue
    cases hqueue
    refine onlyWorker_of_setPhase rfl ?_
    rw [hok]
    simp only [popPending]
    omega
  | pop act queue hcontrol hact hqueue =>
    rw [hcontrol] at hok
    rcases step_inPop hok hact hqueue with ⟨ph, hph, hphase, hpushLog, hbalance⟩
    refine ⟨fun _ _ => rfl, rfl, ?_, hpushLog, rfl, ?_, ?_⟩
    · intro u hu
      simp [hphase, hu]
    · simp only [hcontrol, hphase, update_self]
      exact hph
    · simp only [workerClaim, hphase, update_self, popFails]
      omega
  | popped task hcontrol hphase | failed hcontrol hphase =>
    refine onlyWorker_of_setPhase rfl ?_
    rw [hphase]
    rfl
  | finish task hcontrol =>
    rw [hcontrol] at hok
    exact onlyWorker_of_control hok
  | checkStop hcontrol =>
    rw [hcontrol] at hok
    apply onlyWorker_of_control
    split
    · exact hok
    · exact hok

omit [DecidableEq π] in
/-- The destructor only touches permits, stop requests and its own progress. -/
theorem destructorStep_frame [Fintype ω] {event : DestructorEvent ω}
    (hstep : destructorStep s event = some t) :
    t.queue = s.queue ∧ t.producer = s.producer ∧ t.worker = s.worker := by
  unfold destructorStep at hstep
  split at hstep
  all_goals
    split at hstep
    · cases hstep
      exact ⟨rfl, rfl, rfl⟩
    · cases hstep

variable [Fintype π] [Fintype ω]

omit [DecidableEq π] in
/-- The destructor touches no task, and its permits are accounted for. -/
theorem destructorStep_balance {event : DestructorEvent ω} (hs : Consistent s)
    (hstep : destructorStep s event = some t) : Consistent t ∧ deficit t = deficit s := by
  cases event with
  | destroy =>
    simp only [destructorStep] at hstep
    split at hstep
    · rename_i halive
      cases hstep
      refine ⟨⟨hs.producers, hs.workers⟩, ?_⟩
      simp only [deficit, shutdownPermits, halive]
      rfl
    · cases hstep
  | requestStop w =>
    simp only [destructorStep] at hstep
    split at hstep
    · cases hstep
      exact ⟨⟨hs.producers, hs.workers⟩, rfl⟩
    · cases hstep
  | releaseWorkers =>
    simp only [destructorStep] at hstep
    split at hstep
    · rename_i hstopping
      cases hstep
      refine ⟨⟨hs.producers, hs.workers⟩, ?_⟩
      simp only [deficit, shutdownPermits, hstopping.1, producerDebt, workerClaim]
      push_cast
      omega
    · cases hstep

/-- One step leaves the number of tasks without a permit alone, except that a
failing pop raises it by one. -/
theorem deficit_step {label : Label π ω τ} (hs : Consistent s)
    (hstep : step size s label = some t) :
    Consistent t ∧ deficit t = deficit s + (popFails size s label).toNat := by
  cases label with
  | producer p event =>
    have honly := producerStep_only hs hstep
    refine ⟨honly.consistent hs, ?_⟩
    simpa [popFails] using honly.deficit_eq
  | worker w event =>
    have honly := workerStep_only hs hstep
    exact ⟨honly.consistent hs, honly.deficit_eq⟩
  | destructor event => simpa [popFails] using destructorStep_balance hs hstep

omit [DecidableEq π] [DecidableEq ω] in
/-- At rest and before shutdown, the tasks without a permit are those left in
the queue. -/
theorem deficit_of_quiescent (hs : Consistent s) (hquiet : Quiescent s)
    (halive : s.teardown = .alive) :
    deficit s = s.queue.pushLog.length - s.queue.popLog.length := by
  have hproducers : ∑ p, producerDebt s p = 0 := by
    apply Finset.sum_eq_zero
    intro p _
    have hok := hs.producers p
    rw [hquiet.producers p] at hok
    rw [producerDebt, hquiet.producers p, hok]
    rfl
  have hworkers : ∑ w, workerClaim s w = 0 := by
    apply Finset.sum_eq_zero
    intro w _
    have hok := hs.workers w
    rw [hquiet.workers w] at hok
    rw [workerClaim, hok]
    rfl
  rw [deficit, hproducers, hworkers, hquiet.permits, shutdownPermits, halive]
  push_cast
  omega

end Step

/-! ## No task is stranded exactly when no pop fails -/

theorem deficit_started {π ω τ : Type*} [Fintype π] [Fintype ω] [Inhabited τ] :
    deficit (started π ω τ) = 0 := by
  have hproducers : ∑ p, producerDebt (started π ω τ) p = 0 := by
    apply Finset.sum_eq_zero
    intro p _
    rfl
  have hworkers : ∑ w, workerClaim (started π ω τ) w = 0 := by
    apply Finset.sum_eq_zero
    intro w _
    rfl
  rw [deficit, hproducers, hworkers]
  rfl

/-- For every interleaving of any producers and workers: when it ends at rest
before shutdown, the queue is empty exactly when no `try_pop` of the run has
taken its `diff < 0` branch. -/
theorem quiescent_isEmpty_iff {π ω τ : Type*} [DecidableEq π] [DecidableEq ω] [Fintype π]
    [Fintype ω] [Inhabited τ] (size : RingSize) (labels : List (Label π ω τ))
    (s : Pool π ω τ)
    (hrun : (machine size π ω τ).run (machine size π ω τ).initial labels = some s)
    (halive : s.teardown = .alive) (hquiet : Quiescent s) :
    IsEmpty s.queue ↔
      (machine size π ω τ).Along (fun s label _ => popFails size s label = false)
        (machine size π ω τ).initial labels := by
  have hinit : Consistent (machine size π ω τ).initial := ⟨fun _ => rfl, fun _ => rfl⟩
  rcases StateMachine.run_balance (popFails size) deficit
    (fun s label t hs hstep => deficit_step hs hstep) hinit hrun with ⟨hs, hdeficit⟩
  have hrest := deficit_of_quiescent hs hquiet halive
  have hstart : deficit (machine size π ω τ).initial = 0 := deficit_started
  rw [← StateMachine.tally_eq_zero_iff hrun, IsEmpty]
  omega

/-- Producer 0 claims the head and stalls; producer 1 publishes behind it and
releases; the worker finds the head unpublished and drops the permit; producer 0
publishes and releases; the worker takes one task and blocks. -/
def strandingRun : List (Label (Fin 2) (Fin 1) Nat) :=
  [.producer 0 (.enqueue 10), .producer 0 (.push .next), .producer 0 (.push .next),
    .producer 0 (.push .next),
    .producer 1 (.enqueue 11), .producer 1 (.push .next), .producer 1 (.push .next),
    .producer 1 (.push .next), .producer 1 (.push .next), .producer 1 (.push .next),
    .producer 1 .pushed, .producer 1 .release,
    .worker 0 .acquire, .worker 0 (.pop .next), .worker 0 (.pop .next), .worker 0 .popped,
    .worker 0 .checkStop,
    .producer 0 (.push .next), .producer 0 (.push .next), .producer 0 .pushed,
    .producer 0 .release,
    .worker 0 .acquire, .worker 0 (.pop .next), .worker 0 (.pop .next), .worker 0 (.pop .next),
    .worker 0 (.pop (.take 0)), .worker 0 (.pop .next), .worker 0 .popped, .worker 0 .finish]

def strandedState : Pool (Fin 2) (Fin 1) Nat :=
  ((machine queueSize (Fin 2) (Fin 1) Nat).run (started (Fin 2) (Fin 1) Nat)
    strandingRun).getD (started (Fin 2) (Fin 1) Nat)

/-- The stranded state is reachable, alive and at rest, and task 11 is still in
the queue. -/
theorem task_stranded :
    (machine queueSize (Fin 2) (Fin 1) Nat).Reachable strandedState ∧
      strandedState.teardown = .alive ∧ Quiescent strandedState ∧
      strandedState.queue.pushLog = [(0, 10), (1, 11)] ∧
      strandedState.queue.popLog = [(0, 10)] ∧ strandedState.queue.sizeApprox = 1 ∧
      ¬ IsEmpty strandedState.queue := by
  have hrun : (machine queueSize (Fin 2) (Fin 1) Nat).run
      (machine queueSize (Fin 2) (Fin 1) Nat).initial strandingRun = some strandedState := rfl
  refine ⟨StateMachine.reachable_iff_run.2 ⟨_, hrun⟩, rfl, ⟨by decide, by decide, rfl⟩, rfl,
    rfl, rfl, ?_⟩
  intro hempty
  cases hempty

/-- One producer, one worker, one task that is pushed and popped. -/
def servedRun : List (Label (Fin 1) (Fin 1) Nat) :=
  [.producer 0 (.enqueue 10), .producer 0 (.push .next), .producer 0 (.push .next),
    .producer 0 (.push .next), .producer 0 (.push .next), .producer 0 (.push .next),
    .producer 0 .pushed, .producer 0 .release,
    .worker 0 .acquire, .worker 0 (.pop .next), .worker 0 (.pop .next), .worker 0 (.pop .next),
    .worker 0 (.pop (.take 0)), .worker 0 (.pop .next), .worker 0 .popped, .worker 0 .finish]

def servedState : Pool (Fin 1) (Fin 1) Nat :=
  ((machine queueSize (Fin 1) (Fin 1) Nat).run (started (Fin 1) (Fin 1) Nat)
    servedRun).getD (started (Fin 1) (Fin 1) Nat)

/-- The queue is empty, so that no `try_pop` has given up. -/
theorem quiescent_isEmpty_servedRun :
    IsEmpty servedState.queue ∧
      (machine queueSize (Fin 1) (Fin 1) Nat).Along
        (fun s label _ => popFails queueSize s label = false)
        (machine queueSize (Fin 1) (Fin 1) Nat).initial servedRun := by
  have hempty : IsEmpty servedState.queue := rfl
  exact ⟨hempty, (quiescent_isEmpty_iff queueSize servedRun servedState rfl rfl
    ⟨by decide, by decide, rfl⟩).1 hempty⟩

end ThreadPool

end EdgeOrchestrator
