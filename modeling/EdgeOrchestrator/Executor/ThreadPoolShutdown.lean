import EdgeOrchestrator.Executor.SerialPool

/-!
# Shutdown of the thread pool

The destructor requests a stop from every worker, releases one permit for each and
joins them.  When enqueues do not overlap, each of these permits is used by a worker
that gives up, finds the stop and exits, after all submitted tasks have been served.

Main results:

- `Orderly.done_of_stuck`: a stuck state after the release of the shutdown permits is one in
  which all workers have exited and nothing is waiting.
- `serialized_shutdown`: every submitted task is executed once.
-/

namespace EdgeOrchestrator

open scoped StateMachine

namespace ThreadPool

open MpmcQueue

/-! ## No deadlock -/

section Stuck

variable {π ω τ : Type*} [DecidableEq π] [DecidableEq ω] [Inhabited τ] {size : RingSize}
  {s : Pool π ω τ}

/-- A pop that has not finished can move. -/
theorem exists_step_of_inPop (size : RingSize) {u : π ⊕ ω} (hin : inPop (s.queue.phase u) = true) :
    (∃ out, s.queue.phase u = .popDone out) ∨
      ∃ act, isInner act = true ∧ (s.queue.step size u act).isSome = true := by
  cases hphase : s.queue.phase u with
  | popDone out => exact Or.inl ⟨out, rfl⟩
  | popRead pos => exact Or.inr ⟨.take default, rfl, by simp [Queue.step, hphase]⟩
  | popLoad => exact Or.inr ⟨.next, rfl, by simp [Queue.step, hphase]⟩
  | popSeq pos => exact Or.inr ⟨.next, rfl, by simp [Queue.step, hphase]⟩
  | popCas pos =>
    refine Or.inr ⟨.next, rfl, ?_⟩
    simp only [Queue.step, hphase]
    split <;> rfl
  | popStore pos out => exact Or.inr ⟨.next, rfl, by simp [Queue.step, hphase]⟩
  | _ =>
    rw [hphase] at hin
    cases hin

omit [Inhabited τ] in
theorem queueStep_isSome {u : π ⊕ ω} {act : Act τ} (rest : Pool π ω τ → Pool π ω τ)
    (h : (s.queue.step size u act).isSome = true) :
    (queueStep size s u act rest).isSome = true := by
  rw [queueStep, Option.isSome_map]
  exact h

/-- A worker that cannot move has exited or waits for a permit. -/
theorem worker_of_stuck {w : ω} (hs : Consistent s)
    (hstuck : ∀ event, workerStep size s w event = none) :
    s.worker w = .exited ∨ s.worker w = .acquiring ∧ s.permits = 0 := by
  have hok := hs.workers w
  have hnone : ∀ event, (workerStep size s w event).isSome = true → False := by
    intro event hsome
    rw [hstuck event] at hsome
    cases hsome
  cases hcontrol : s.worker w with
  | exited => exact Or.inl rfl
  | acquiring =>
    refine Or.inr ⟨rfl, ?_⟩
    by_contra hpermits
    rw [hcontrol] at hok
    refine hnone .acquire ?_
    simp only [workerStep, hcontrol, if_pos (Nat.pos_of_ne_zero hpermits)]
    apply queueStep_isSome
    rw [step_callPop hok]
    rfl
  | popping =>
    exfalso
    rw [hcontrol] at hok
    rcases exists_step_of_inPop size hok with ⟨out, hphase⟩ | ⟨act, hact, hmove⟩
    · refine hnone .popped ?_
      have hleave : (s.queue.step size (.inr w) .leave).isSome = true := by
        rw [Queue.step_leave_pop hphase]
        rfl
      cases out with
      | none | some task =>
        simp only [workerStep, hcontrol, hphase]
        exact queueStep_isSome _ hleave
    · refine hnone (.pop act) ?_
      simp only [workerStep, hcontrol, hact, if_true]
      exact queueStep_isSome id hmove
  | running task =>
    exfalso
    exact hnone .finish (by simp [workerStep, hcontrol])
  | checkingStop =>
    exfalso
    exact hnone .checkStop (by simp [workerStep, hcontrol])

variable [Fintype π] [Fintype ω]

/-- After the release of the shutdown permits, a state in which nobody can move is
one in which all workers have exited and nothing is waiting. -/
theorem Orderly.done_of_stuck [Nonempty ω] (hs : Orderly size s)
    (hreleased : s.teardown = .released)
    (hstuck : ∀ w event, ThreadPool.workerStep size s w event = none) :
    (∀ w, s.worker w = .exited) ∧ s.queue.dequeuePos = s.queue.enqueuePos := by
  have hworkers := fun w => worker_of_stuck hs.consistent (hstuck w)
  have hmatch := hs.match_atRest (hs.closed (by simp [hreleased]))
    (fun w => (hworkers w).imp_right And.left)
  have hshutdown : shutdownPermits s = Fintype.card ω := by
    rw [shutdownPermits, hreleased]
  have hexited : ∀ w, s.worker w = .exited := by
    intro w
    rcases hworkers w with hw | ⟨hw, hpermits⟩
    · exact hw
    · -- A worker without a permit would leave more permits released than used.
      exfalso
      have hless : ∑ v, failure s v < Fintype.card ω := by
        apply Counting.sum_lt_card (fun v => gaveUp_le_one _ _) (i := w)
        rw [hw]
        rfl
      have horder := hs.ring.order
      omega
  refine ⟨hexited, ?_⟩
  rcases ‹Nonempty ω› with ⟨w⟩
  refine (hs.failed w ?_).2
  rw [failure, hexited w]
  exact Nat.one_ne_zero

end Stuck

/-! ## Where every submitted task is -/

section Accounting

variable {π ω τ : Type*}

/-- The task of an enqueue that has not claimed a position for it yet. -/
def pending (s : Pool π ω τ) (p : π) : Option τ :=
  match s.producer p with
  | .pushing task => if pushClaimed (s.queue.phase (.inl p)) = 0 then some task else none
  | .yielding task => some task
  | _ => none

/-- The task that a step submits. -/
def submits : Label π ω τ → Option τ
  | .producer _ (.enqueue task) => some task
  | _ => none

/-- The task that a worker has run to its end in a step. -/
def executes (s : Pool π ω τ) : Label π ω τ → Option τ
  | .worker w .finish =>
    match s.worker w with
    | .running task => some task
    | _ => none
  | _ => none

variable [Fintype π] [Fintype ω] [DecidableEq τ]

/-- How often a task waits to be pushed, waits in the queue, or is held by a worker. -/
def located (s : Pool π ω τ) (x : τ) : Nat :=
  (toFifo s).copies x + ∑ p, (pending s p).toList.count x

variable {size : RingSize} {s t : Pool π ω τ}

/-- A step that concerns one producer's task. -/
theorem located_of_producer {p : π} (hothers : ∀ q, q ≠ p → pending t q = pending s q) {x : τ}
    {k : Nat}
    (hmoved : (toFifo t).copies x + (pending t p).toList.count x =
      (toFifo s).copies x + (pending s p).toList.count x + k) :
    located t x = located s x + k := by
  have hchange := Counting.sum_change (f := fun q => (pending s q).toList.count x)
    (g := fun q => (pending t q).toList.count x) p (by
      intro q hq
      rw [hothers q hq])
  rw [located, located]
  omega

variable [DecidableEq π] [DecidableEq ω]

omit [Fintype π] in
/-- A step inside a push: the task moves from the producer into the queue when the
position is claimed. -/
theorem copies_push {p : π} {act : Act τ} {task : τ} {queue : Queue (π ⊕ ω) τ}
    (hs : Carried size s) (hcontrol : s.producer p = .pushing task) (hact : isInner act = true)
    (hqueue : s.queue.step size (.inl p) act = some queue) (x : τ) :
    (toFifo { s with queue := queue }).copies x +
        (pending { s with queue := queue } p).toList.count x =
      (toFifo s).copies x + (pending s p).toList.count x := by
  rcases hs.push hcontrol hact hqueue with ⟨hsame, hclaimed⟩ | ⟨hsubmit, hbefore, hafter⟩
  · simp only [hsame, pending, hcontrol, hclaimed]
  · rw [FifoPool.copies_submit hsubmit]
    simp [pending, hcontrol, hbefore, hafter]

/-- An enqueue brings one task; the other steps of a producer bring none. -/
theorem producerStep_located {p : π} {event : ProducerEvent τ} (hs : Carried size s)
    (hstep : producerStep size s p event = some t) (x : τ) :
    located t x = located s x +
      (submits (Label.producer p event : Label π ω τ)).toList.count x := by
  have honly := producerStep_only hs.consistent hstep
  have hok := hs.consistent.producers p
  have hothers : ∀ q, q ≠ p → pending t q = pending s q := by
    intro q hq
    rw [pending, pending, honly.control q hq, honly.phases _ (by simpa using hq)]
  refine located_of_producer hothers ?_
  cases producerStep_cases hstep with
  | enqueue task queue hcontrol hqueue | retry task queue hcontrol hqueue =>
    rw [hcontrol] at hok
    rw [step_callPush hok] at hqueue
    cases hqueue
    rw [toFifo_setProducer]
    simp [pending, setProducer, Queue.setPhase, hcontrol, pushClaimed, submits]
  | push act task queue hcontrol hact hqueue => exact copies_push hs hcontrol hact hqueue x
  | pushed task ok left hcontrol hphase =>
    rw [toFifo_setProducer]
    cases ok with
    | true | false => simp [pending, setProducer, hcontrol, hphase, pushClaimed, submits]
  | release hcontrol =>
    have hsame : toFifo (setProducer p .idle { s with permits := s.permits + 1 }) = toFifo s :=
      rfl
    rw [hsame]
    simp [pending, setProducer, hcontrol, submits]

/-- A worker moves tasks, and gives one up when it has run it to its end. -/
theorem workerStep_located {w : ω} {event : WorkerEvent τ} (hs : Carried size s)
    (hstep : workerStep size s w event = some t) (x : τ) :
    located t x + (executes s (.worker w event)).toList.count x = located s x := by
  have honly := workerStep_only hs.consistent hstep
  have hpending : ∀ p, pending t p = pending s p := by
    intro p
    rw [pending, pending, honly.producers, honly.phases _ (by simp)]
  simp only [located, hpending]
  rcases workerStep_toFifo_event hs.ring hs.consistent hstep with
    ⟨rfl, ⟨task, hcontrol⟩, hrelease⟩ | ⟨hother, hmove⟩
  · have hheld : (toFifo s).worker w = some task := holding_of_running task hcontrol
    have hcopies := FifoPool.copies_release hheld x
    simp only [hrelease, executes, hcontrol, Option.toList_some]
    omega
  · have hnone : executes s (.worker w event : Label π ω τ) = none := by
      cases event with
      | finish => exact absurd rfl hother
      | _ => rfl
    have hcopies : (toFifo t).copies x = (toFifo s).copies x := by
      rcases hmove with hsame | htake
      · rw [hsame]
      · exact FifoPool.copies_take htake x
    simp [hnone, hcopies]

/-- One step: what is submitted is added, what is executed is taken away. -/
theorem step_located {label : Label π ω τ} (hs : Carried size s)
    (hstep : step size s label = some t) (x : τ) :
    located t x + (executes s label).toList.count x =
      located s x + (submits label).toList.count x := by
  cases label with
  | producer p event =>
    rw [producerStep_located hs hstep x]
    rfl
  | worker w event =>
    rw [workerStep_located hs hstep x]
    rfl
  | destructor event =>
    rcases destructorStep_frame hstep with ⟨hqueue, hproducer, hworker⟩
    have hfifo : toFifo t = toFifo s := by
      apply toFifo_congr (by rw [hqueue])
      intro w
      exact holding_congr (congrFun hworker w) (by rw [hqueue])
    simp only [located, hfifo, pending, hproducer, hqueue]
    rfl

omit [DecidableEq π] [DecidableEq ω] in
/-- With nothing waiting and everybody at rest no task is left anywhere. -/
theorem Orderly.located_eq_zero (hs : Orderly size s) (hproducers : ∀ p, s.producer p = .idle)
    (hworkers : ∀ w, s.worker w = .exited ∨ s.worker w = .acquiring)
    (hempty : s.queue.dequeuePos = s.queue.enqueuePos) (x : τ) :
    s.queue.waiting = [] ∧ located s x = 0 := by
  have hwaiting : s.queue.waiting = [] := by
    rw [← List.length_eq_zero_iff, hs.ring.length_waiting]
    omega
  have hpending : ∀ p, pending s p = none := by
    intro p
    rw [pending, hproducers p]
  have hholding : ∀ w, (toFifo s).worker w = none := by
    intro w
    have hok := hs.consistent.workers w
    have hidle : s.queue.phase (.inr w) = .idle := by
      rcases hworkers w with hw | hw
      · rw [hw] at hok
        exact hok
      · rw [hw] at hok
        exact hok
    have hnot : ∀ task, s.worker w ≠ .running task := by
      intro task hrunning
      rcases hworkers w with hw | hw
      · rw [hw] at hrunning
        cases hrunning
      · rw [hw] at hrunning
        cases hrunning
    refine (holding_eq_held hnot).trans ?_
    rw [Queue.held, hidle]
    rfl
  refine ⟨hwaiting, ?_⟩
  have hqueue : (toFifo s).queue = [] := hwaiting
  simp [located, FifoPool.copies, hqueue, hholding, hpending]

variable [Inhabited τ]

omit [DecidableEq π] [DecidableEq ω] [DecidableEq τ] in
theorem started_orderly (size : RingSize) : Orderly size (started π ω τ) := by
  have hfailure : ∀ w, failure (started π ω τ) w = 0 := fun _ => rfl
  constructor
  · constructor
    · exact fresh_ringInv size
    · exact ⟨fun _ => rfl, fun _ => rfl⟩
    · intro p task hoffers
      cases hoffers
  · intro p q hp
    exact absurd rfl hp
  · intro _ p
    rfl
  · intro hreleased
    cases hreleased
  · intro u pos hwrites
    cases hwrites
  · rw [deficit_started]
    simp only [hfailure, Finset.sum_const_zero, Nat.cast_zero]
  · intro w hw
    exact absurd (hfailure w) hw

/-- Along every interleaving of enqueues that do not overlap, a task has been
submitted as often as it has been executed or is still on its way. -/
theorem serialized_accounts {labels : List (Label π ω τ)}
    (hrun : (serialized size π ω τ).run (serialized size π ω τ).initial labels = some s)
    (hsmall : s.queue.pushLog.length ≤ 2 ^ 63) :
    Orderly size s ∧ ∀ x, (labels.filterMap submits).count x = located s x +
      ((serialized size π ω τ).collect executes (serialized size π ω τ).initial labels).count
        x := by
  revert hsmall
  refine StateMachine.run_induction (m := serialized size π ω τ) (P := fun labels s =>
    s.queue.pushLog.length ≤ 2 ^ 63 → Orderly size s ∧ ∀ x,
      (labels.filterMap submits).count x = located s x +
        ((serialized size π ω τ).collect executes (serialized size π ω τ).initial labels).count x)
    ?_ ?_ hrun
  · intro _
    refine ⟨started_orderly size, ?_⟩
    intro x
    have hnone := (started_orderly (π := π) (ω := ω) (τ := τ) size).located_eq_zero
      (fun _ => rfl) (fun _ => Or.inr rfl) rfl x
    exact hnone.2.symm
  · intro labels s label t hrun ih hstep hsmall
    rcases StateMachine.restrict_step_eq_some.1 hstep with ⟨hserial, hmachine⟩
    have hle := pushLog_length_le_of_step hmachine
    rcases ih (by omega) with ⟨hs, hcount⟩
    refine ⟨hs.step hserial hsmall hmachine, ?_⟩
    intro x
    have hmoved := step_located hs.toCarried hmachine x
    rw [StateMachine.collect_concat executes hrun hstep, List.filterMap_append, List.count_append,
      List.count_append, hcount x]
    have hlast : [label].filterMap submits = (submits label).toList := by
      cases hlabel : submits label <;> simp [hlabel]
    rw [hlast]
    omega

end Accounting

/-- One task is served; then the destructor stops the worker, which finds the queue
empty and exits. -/
def shutdownRun : List (Label (Fin 1) (Fin 1) Nat) :=
  servedRun ++
    [.destructor .destroy, .destructor (.requestStop 0), .destructor .releaseWorkers,
      .worker 0 .acquire, .worker 0 (.pop .next), .worker 0 (.pop .next), .worker 0 .popped,
      .worker 0 .checkStop]

def shutdownState : Pool (Fin 1) (Fin 1) Nat :=
  ((serialized queueSize (Fin 1) (Fin 1) Nat).run (started (Fin 1) (Fin 1) Nat)
    shutdownRun).getD (started (Fin 1) (Fin 1) Nat)

end ThreadPool

end EdgeOrchestrator
