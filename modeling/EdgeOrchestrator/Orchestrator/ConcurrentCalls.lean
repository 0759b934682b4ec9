import EdgeOrchestrator.Executor.ThreadPoolRefinement
import EdgeOrchestrator.Orchestrator.Accounting
import EdgeOrchestrator.Orchestrator.SharedArena

/-!
# Calls of `submit_workload` at the same time

The handlers of several submissions, and whoever else calls `submit_workload`, share one
thread pool and one arena.  Here any number of calls run at once, on the pool as it is
(the ring with its atomic steps, the semaphore, and the workers that pop) and on the
arena as it is (the shared mutex and the atomic steps of `allocate`), which the offload
server uses for the tasks of peers as well.

The plan of each call is arbitrary, as is the moment at which its caller moves.  How
`run_task` ends is decided by the arena, so by all calls together.

Main results:

- `Transition.follows`: a step of the daemon is a step of one call on its own, or none, for
  every call.
- `concurrent_calls_refine`: the fan-out, the counters and the wait of a call among others are
  those of a call alone, for the same ends of its tasks; and the arena they share is the arena
  of `SharedArena`.
- `closures_run_once`: no closure of any call is run twice.
-/

namespace EdgeOrchestrator

open scoped StateMachine
open Function (update update_eq_self update_of_ne update_self)

namespace ConcurrentCalls

open SubmitWorkload MpmcQueue
open ThreadPool (Pool ProducerEvent WorkerEvent ProducerPhase queueSize toFifo)

/-! ## State -/

/-- The threads that use the arena: workers run the tasks of closures, callers reset it at
the end of their call, and the offload server runs the tasks of peers and resets it too. -/
inductive Thread (κ ω : Type) where
  | caller (k : κ)
  | worker (w : ω)
  | server (connection : Nat)
deriving DecidableEq

/-- `κ` are the calls, each on its own thread, and `ω` the workers.  A closure is known
by its call and its number there. -/
structure Daemon (κ ω : Type) where
  pool : Pool κ ω (κ × Nat)
  clock : Nat
  call : κ → Call
  node : SharedArena.Node (Thread κ ω)
  /-- The call has tried to reset the arena. -/
  resetTried : κ → Bool

/-- The workloads, their plans and the size of the arena. -/
structure Config (κ : Type) where
  nodeId : NodeId
  dag : κ → WorkloadDAG
  plan : κ → SchedulingPlan
  arenaCapacity : U64

/-- What a call submits. -/
def Config.closures {κ : Type} (cfg : Config κ) (k : κ) : List Closure :=
  SubmitWorkload.closures cfg.nodeId (cfg.dag k) (cfg.plan k)

/-- The steps of all threads of the daemon. -/
inductive Label (κ ω : Type) where
  | tick (elapsed : Nat)
  /-- A step of a caller that does not submit. -/
  | caller (k : κ)
  /-- A step of a caller inside `enqueue`. -/
  | enqueue (k : κ) (event : ProducerEvent (κ × Nat))
  /-- A step of a worker between two closures. -/
  | worker (w : ω) (event : WorkerEvent (κ × Nat))
  /-- A step of a worker inside a closure. -/
  | closure (w : ω) (event : ClosureEvent)
  /-- A step of `run_task` or `try_reset_arena`. -/
  | arena (label : SharedArena.Label (Thread κ ω))

/-! ## Steps -/

section Steps

variable {κ ω : Type} [DecidableEq κ] [DecidableEq ω] (cfg : Config κ) (s : Daemon κ ω)

/-- A caller inside `enqueue`. -/
def enqueueStep (k : κ) (event : ProducerEvent (κ × Nat)) : Option (Daemon κ ω) :=
  match (s.call k).caller with
  | .fanOut next =>
    let moved := (ThreadPool.producerStep queueSize s.pool k event).map fun pool =>
      { s with pool := pool }
    match event with
    | .enqueue task =>
      if next < (cfg.closures k).length ∧ task = (k, next) then moved else none
    | .release =>
      moved.map fun s =>
        { s with
          call := update s.call k { s.call k with caller := .fanOut (next + 1) } }
    | _ => moved
  | _ => none

/-- The closure that a worker runs, with its call and its number. -/
def runningClosure (w : ω) : Option (κ × Nat × Closure) :=
  match s.pool.worker w with
  | .running (k, i) => ((cfg.closures k)[i]?).map fun closure => (k, i, closure)
  | _ => none

/-- `run_task` returns what `execute` has found, and gives back the shared lock. -/
def returnFromRun (w : ω) : ClosureEvent → Option (SharedArena.Node (Thread κ ω))
  | .finish finalState =>
    match s.node.role (.worker w) with
    | .executed result =>
      if result.finalState = finalState then
        SharedArena.step cfg.arenaCapacity s.node (.unlockShared (.worker w))
      else none
    | _ => none
  | _ => some s.node

/-- A worker inside a closure. -/
def closureStep (s : Daemon κ ω) (w : ω) (event : ClosureEvent) : Option (Daemon κ ω) := do
  let (k, i, closure) ← runningClosure cfg s w
  let node ← returnFromRun cfg s w event
  let progress ← SubmitWorkload.closureStep closure ((s.call k).progress i) event
  some { s with
    node := node
    pool := if event.isLeave then ThreadPool.setWorker w .acquiring s.pool else s.pool
    call := update s.call k ((s.call k).advance i progress event) }

/-- Who calls `run_task` and `try_reset_arena`, and when: a closure for its task, without a
request to stop; a caller once, when it has its result; the server at any time. -/
def mayUse : SharedArena.Label (Thread κ ω) → Bool
  | .lockShared (.worker w) taskId profile =>
    match runningClosure cfg s w with
    | some (k, i, closure) =>
      (s.call k).progress i = .running ∧ closure.taskId = taskId ∧ closure.profile = profile
    | none => false
  | .lockShared (.caller _) _ _ => false
  | .compute (.worker _) _ stopRequested => !stopRequested
  | .unlockShared (.worker _) => false
  | .tryLock (.worker _) _ => false
  | .tryLock (.caller k) _ =>
    match (s.call k).caller with
    | .returning _ => !s.resetTried k
    | _ => false
  | _ => true

/-- The attempt to reset has been made. -/
def noteReset (tried : κ → Bool) : SharedArena.Label (Thread κ ω) → κ → Bool
  | .tryLock (.caller k) _ => update tried k true
  | _ => tried

/-- A caller returns when its `try_reset_arena` is over. -/
def mayMove (k : κ) : Bool :=
  match (s.call k).caller with
  | .returning _ => s.resetTried k = true ∧ s.node.role (.caller k) = .idle
  | _ => true

/-- The next step of one thread. -/
def step (s : Daemon κ ω) : Label κ ω → Option (Daemon κ ω)
  | .tick elapsed => some { s with clock := s.clock + elapsed }
  | .caller k =>
    if s.pool.producer k = .idle ∧ mayMove s k = true then
      ((s.call k).next (cfg.plan k).decisions.length s.clock (cfg.closures k)).map
        fun phase => { s with call := update s.call k { s.call k with caller := phase } }
    else none
  | .enqueue k event => enqueueStep cfg s k event
  | .worker w event =>
    match event with
    | .finish => none
    | _ => (ThreadPool.workerStep queueSize s.pool w event).map fun pool =>
      { s with pool := pool }
  | .closure w event => closureStep cfg s w event
  | .arena label =>
    if mayUse cfg s label then
      (SharedArena.step cfg.arenaCapacity s.node label).map fun node =>
        { s with node := node, resetTried := noteReset s.resetTried label }
    else none

end Steps

/-- No caller has moved, and the workers wait. -/
def initial (κ ω : Type) [Inhabited κ] : Daemon κ ω where
  pool := ThreadPool.started κ ω (κ × Nat)
  clock := 0
  call := fun _ => (planned ω).toCall
  node := SharedArena.started _
  resetTried := fun _ => false

/-- All interleavings of the calls. -/
def machine {κ : Type} (cfg : Config κ) (ω : Type) [Inhabited κ] [DecidableEq κ]
    [DecidableEq ω] : StateMachine (Daemon κ ω) (Label κ ω) where
  initial := initial κ ω
  step := step cfg

/-! ## What one step can do -/

section Transitions

variable {κ ω : Type} [DecidableEq κ] [DecidableEq ω]

/-- One constructor for each kind of step. -/
inductive Transition (cfg : Config κ) (s : Daemon κ ω) : Label κ ω → Daemon κ ω → Prop
  | tick (elapsed : Nat) :
      Transition cfg s (.tick elapsed) { s with clock := s.clock + elapsed }
  | caller (k : κ) (phase : CallerPhase) (hidle : s.pool.producer k = .idle)
      (hnext : (s.call k).next (cfg.plan k).decisions.length s.clock (cfg.closures k) =
        some phase) :
      Transition cfg s (.caller k)
        { s with call := update s.call k { s.call k with caller := phase } }
  | enqueue (k : κ) (next : Nat) (event : ProducerEvent (κ × Nat)) (pool : Pool κ ω (κ × Nat))
      (hcaller : (s.call k).caller = .fanOut next) (hrelease : event ≠ .release)
      (hsubmit : ∀ task, event = .enqueue task →
        next < (cfg.closures k).length ∧ task = (k, next))
      (hpool : ThreadPool.producerStep queueSize s.pool k event = some pool) :
      Transition cfg s (.enqueue k event) { s with pool }
  | release (k : κ) (next : Nat) (pool : Pool κ ω (κ × Nat))
      (hcaller : (s.call k).caller = .fanOut next)
      (hpool : ThreadPool.producerStep queueSize s.pool k .release = some pool) :
      Transition cfg s (.enqueue k .release)
        { s with
          pool
          call := update s.call k { s.call k with caller := .fanOut (next + 1) } }
  | worker (w : ω) (event : WorkerEvent (κ × Nat)) (pool : Pool κ ω (κ × Nat))
      (hfinish : event ≠ .finish)
      (hpool : ThreadPool.workerStep queueSize s.pool w event = some pool) :
      Transition cfg s (.worker w event) { s with pool }
  | closure (w : ω) (k : κ) (i : Nat) (closure : Closure) (event : ClosureEvent)
      (node : SharedArena.Node (Thread κ ω)) (progress : Progress)
      (hrunning : s.pool.worker w = .running (k, i))
      (hclosure : (cfg.closures k)[i]? = some closure)
      (hnode : returnFromRun cfg s w event = some node)
      (hprogress : SubmitWorkload.closureStep closure ((s.call k).progress i) event =
        some progress) :
      Transition cfg s (.closure w event)
        { s with
          node
          pool := if event.isLeave then ThreadPool.setWorker w .acquiring s.pool else s.pool
          call := update s.call k ((s.call k).advance i progress event) }
  | arena (label : SharedArena.Label (Thread κ ω)) (node : SharedArena.Node (Thread κ ω))
      (hnode : SharedArena.step cfg.arenaCapacity s.node label = some node) :
      Transition cfg s (.arena label)
        { s with node, resetTried := noteReset s.resetTried label }

variable {cfg : Config κ} {s t : Daemon κ ω}

theorem enqueueStep_cases {k : κ} {event : ProducerEvent (κ × Nat)}
    (hstep : enqueueStep cfg s k event = some t) : Transition cfg s (.enqueue k event) t := by
  unfold enqueueStep at hstep
  split at hstep
  · rename_i next hcaller
    simp only at hstep
    split at hstep
    · rename_i task
      rcases Option.ite_none_right_eq_some.1 hstep with ⟨hsubmit, hmoved⟩
      rcases Option.map_eq_some_iff.1 hmoved with ⟨pool, hpool, rfl⟩
      refine .enqueue k next _ pool hcaller (by simp) ?_ hpool
      intro task' heq
      cases heq
      exact hsubmit
    · rcases Option.map_eq_some_iff.1 hstep with ⟨u, hmoved, rfl⟩
      rcases Option.map_eq_some_iff.1 hmoved with ⟨pool, hpool, rfl⟩
      exact .release k next pool hcaller hpool
    · rename_i henqueue hrelease
      rcases Option.map_eq_some_iff.1 hstep with ⟨pool, hpool, rfl⟩
      refine .enqueue k next _ pool hcaller hrelease ?_ hpool
      intro task heq
      exact absurd heq (henqueue task)
  · cases hstep

omit [DecidableEq κ] [DecidableEq ω] in
theorem runningClosure_eq_some {w : ω} {k : κ} {i : Nat} {closure : Closure}
    (h : runningClosure cfg s w = some (k, i, closure)) :
    s.pool.worker w = .running (k, i) ∧ (cfg.closures k)[i]? = some closure := by
  unfold runningClosure at h
  split at h
  · rename_i k' i' hrunning
    rcases Option.map_eq_some_iff.1 h with ⟨closure', hclosure, heq⟩
    cases heq
    exact ⟨hrunning, hclosure⟩
  · cases h

theorem closureStep_cases {w : ω} {event : ClosureEvent}
    (hstep : closureStep cfg s w event = some t) : Transition cfg s (.closure w event) t := by
  rcases Option.bind_eq_some_iff.1 hstep with ⟨⟨k, i, closure⟩, hrunning, hstep⟩
  rcases Option.bind_eq_some_iff.1 hstep with ⟨node, hnode, hstep⟩
  rcases Option.bind_eq_some_iff.1 hstep with ⟨progress, hprogress, hstep⟩
  cases hstep
  rcases runningClosure_eq_some hrunning with ⟨hrunning, hclosure⟩
  exact .closure w k i closure event node progress hrunning hclosure hnode hprogress

/-- Every step of the machine is one of the transitions. -/
theorem step_cases {label : Label κ ω} (hstep : step cfg s label = some t) :
    Transition cfg s label t := by
  cases label with
  | tick elapsed =>
    cases hstep
    exact .tick elapsed
  | caller k =>
    rcases Option.ite_none_right_eq_some.1 hstep with ⟨⟨hidle, -⟩, hmoved⟩
    rcases Option.map_eq_some_iff.1 hmoved with ⟨phase, hnext, rfl⟩
    exact .caller k phase hidle hnext
  | enqueue k event => exact enqueueStep_cases hstep
  | worker w event =>
    simp only [step] at hstep
    split at hstep
    · cases hstep
    · rename_i hfinish
      rcases Option.map_eq_some_iff.1 hstep with ⟨pool, hpool, rfl⟩
      exact .worker w event pool hfinish hpool
  | closure w event => exact closureStep_cases hstep
  | arena label =>
    rcases Option.ite_none_right_eq_some.1 hstep with ⟨-, hmoved⟩
    rcases Option.map_eq_some_iff.1 hmoved with ⟨node, hnode, rfl⟩
    exact .arena label node hnode

end Transitions

/-! ## One call among the others -/

section View

variable {κ ω : Type}

/-- The caller's `enqueue` has claimed its position in the ring. -/
def entered (pool : Pool κ ω (κ × Nat)) (k : κ) : Bool :=
  match pool.producer k with
  | .releasing => true
  | .pushing _ => ThreadPool.pushClaimed (pool.queue.phase (.inl k)) = 1
  | _ => false

/-- In the abstract pool a closure is submitted when its position has been claimed. -/
def ahead (entered : Bool) : CallerPhase → CallerPhase
  | .fanOut next => .fanOut (next + entered.toNat)
  | phase => phase

variable [DecidableEq κ]

/-- The closures of one call among those of all. -/
def ofCall (k : κ) (task : κ × Nat) : Option Nat :=
  if task.1 = k then some task.2 else none

/-- A call as if it were alone: its own tasks in the pool, its own counters. -/
def view (s : Daemon κ ω) (k : κ) : Submission ω where
  toCall := { s.call k with caller := ahead (entered s.pool k) (s.call k).caller }
  pool := (toFifo s.pool).project (ofCall k)
  clock := s.clock

end View

/-! ## The invariant -/

section Refinement

variable {κ ω : Type} [DecidableEq κ] [DecidableEq ω] {cfg : Config κ}

/-- The caller submits the closure it has come to. -/
def Submitting (cfg : Config κ) (k : κ) (caller : CallerPhase) (task : κ × Nat) : Prop :=
  ∃ next, caller = .fanOut next ∧ next < (cfg.closures k).length ∧ task = (k, next)

/-- What a caller inside `enqueue` is submitting. -/
def CallerOk (cfg : Config κ) (k : κ) (caller : CallerPhase) : ProducerPhase (κ × Nat) → Prop
  | .idle => True
  | .pushing task => Submitting cfg k caller task
  | .yielding task => Submitting cfg k caller task
  | .releasing => ∃ task, Submitting cfg k caller task

/-- What every step keeps. -/
structure Inv (cfg : Config κ) (s : Daemon κ ω) : Prop where
  pool : ThreadPool.Carried queueSize s.pool
  callers : ∀ k, CallerOk cfg k (s.call k).caller (s.pool.producer k)
  views : ∀ k, (SubmitWorkload.machine cfg.nodeId (cfg.dag k) (cfg.plan k) ω).Reachable (view s k)

/-! ### A caller inside `enqueue` -/

section Producers

variable {pool pool' : Pool κ ω (κ × Nat)} {k : κ}

/-- A step of `enqueue` before the permit is released: the position is claimed for the
task, or nothing happens that others see. -/
theorem producer_effect {caller : CallerPhase} {event : ProducerEvent (κ × Nat)}
    (hpool : ThreadPool.Carried queueSize pool) (hok : CallerOk cfg k caller (pool.producer k))
    (henqueue : ∀ task, event = .enqueue task → Submitting cfg k caller task)
    (hrelease : event ≠ .release)
    (hstep : ThreadPool.producerStep queueSize pool k event = some pool') :
    CallerOk cfg k caller (pool'.producer k) ∧
      ((toFifo pool' = toFifo pool ∧ entered pool' k = entered pool k) ∨
        ∃ task, Submitting cfg k caller task ∧
          (toFifo pool).submit queueSize.capacity task = some (toFifo pool') ∧
          entered pool k = false ∧ entered pool' k = true) := by
  have hphases := hpool.consistent.producers k
  cases ThreadPool.producerStep_cases hstep with
  | enqueue task queue hcontrol hqueue =>
    rw [hcontrol] at hphases
    rw [ThreadPool.step_callPush hphases] at hqueue
    cases hqueue
    refine ⟨?_, Or.inl ⟨ThreadPool.toFifo_setProducer k _ _, ?_⟩⟩
    · simp only [ThreadPool.setProducer, update_self, CallerOk]
      exact henqueue task rfl
    · simp [entered, ThreadPool.setProducer, hcontrol, ThreadPool.pushClaimed]
  | push act task queue hcontrol hact hqueue =>
    refine ⟨hok, ?_⟩
    rw [hcontrol] at hok
    rcases hpool.push hcontrol hact hqueue with ⟨hsame, hclaimed⟩ | ⟨hsubmit, hbefore, hafter⟩
    · exact Or.inl ⟨hsame, by simp only [entered, hcontrol, hclaimed]⟩
    · refine Or.inr ⟨task, hok, hsubmit, ?_, ?_⟩
      · simp only [entered, hcontrol, hbefore]
        rfl
      · simp only [entered, hcontrol, hafter]
        rfl
  | pushed task ok left hcontrol hphase =>
    rw [hcontrol] at hok
    refine ⟨?_, Or.inl ⟨ThreadPool.toFifo_setProducer k _ _, ?_⟩⟩
    · cases ok with
      | true =>
        simp only [ThreadPool.setProducer, update_self, CallerOk]
        exact ⟨task, hok⟩
      | false =>
        simp only [ThreadPool.setProducer, update_self, CallerOk]
        exact hok
    · cases ok with
      | true | false =>
        simp [entered, ThreadPool.setProducer, hcontrol, hphase, ThreadPool.pushClaimed]
  | retry task queue hcontrol hqueue =>
    rw [hcontrol] at hphases hok
    rw [ThreadPool.step_callPush hphases] at hqueue
    cases hqueue
    refine ⟨?_, Or.inl ⟨ThreadPool.toFifo_setProducer k _ _, ?_⟩⟩
    · simp only [ThreadPool.setProducer, update_self, CallerOk]
      exact hok
    · simp [entered, ThreadPool.setProducer, hcontrol, ThreadPool.pushClaimed]
  | release hcontrol => exact absurd rfl hrelease

end Producers

/-! ### What the calls see -/

variable {s t : Daemon κ ω}

/-- Every call sees a step of its own, or nothing. -/
def Follows (cfg : Config κ) (s t : Daemon κ ω) : Prop :=
  ∀ k, view t k = view s k ∨
    ∃ label, SubmitWorkload.step (cfg.plan k).decisions.length queueSize.capacity
      (cfg.closures k) (view s k) label = some (view t k)

omit [DecidableEq ω] in
/-- Only one call changes. -/
theorem view_setCall_of_ne {j k : κ} (hj : j ≠ k) (c : Call) :
    view { s with call := update s.call k c } j = view s j := by
  simp only [view, update_of_ne hj]

omit [DecidableEq ω] in
theorem view_setCall (k : κ) (c : Call) :
    view { s with call := update s.call k c } k =
      { view s k with toCall := { c with caller := ahead (entered s.pool k) c.caller } } := by
  simp only [view, update_self]

variable {k : κ}

/-- A step that concerns call `k`. -/
theorem follows_of_view (hothers : ∀ j, j ≠ k → view t j = view s j)
    (hk : view t k = view s k ∨ ∃ label,
      SubmitWorkload.step (cfg.plan k).decisions.length queueSize.capacity (cfg.closures k)
        (view s k) label = some (view t k))
    : Follows cfg s t := by
  intro j
  by_cases hj : j = k
  · rw [hj]
    exact hk
  · exact Or.inl (hothers j hj)

theorem follows_caller {phase : CallerPhase} (hidle : s.pool.producer k = .idle)
    (hnext : (s.call k).next (cfg.plan k).decisions.length s.clock (cfg.closures k) = some phase) :
    Follows cfg s
      { s with call := update s.call k { s.call k with caller := phase } } := by
  have houtside : entered s.pool k = false := by
    simp only [entered, hidle]
  have hahead : ∀ phase, ahead false phase = phase := by
    intro phase
    cases phase <;> rfl
  apply follows_of_view (k := k) fun j hj => view_setCall_of_ne hj _
  refine Or.inr ⟨.caller, ?_⟩
  have hview : (view s k).toCall = s.call k := by
    simp only [view, houtside, hahead]
  rw [view_setCall, houtside, hahead]
  simp only [SubmitWorkload.step, callerStep, hview]
  rw [show (view s k).clock = s.clock from rfl, hnext]

omit [DecidableEq κ] [DecidableEq ω] in
theorem entered_congr {pool pool' : Pool κ ω (κ × Nat)}
    (hproducer : pool'.producer k = pool.producer k)
    (hphase : pool'.queue.phase (.inl k) = pool.queue.phase (.inl k)) :
    entered pool' k = entered pool k := by
  simp only [entered, hproducer, hphase]

variable {pool : Pool κ ω (κ × Nat)}

theorem follows_enqueue {event : ProducerEvent (κ × Nat)} (hs : Inv cfg s)
    (henqueue : ∀ task, event = .enqueue task → Submitting cfg k (s.call k).caller task)
    (hrelease : event ≠ .release)
    (hstep : ThreadPool.producerStep queueSize s.pool k event = some pool) :
    Follows cfg s { s with pool } := by
  have honly := ThreadPool.producerStep_only hs.pool.consistent hstep
  rcases (producer_effect hs.pool (hs.callers k) henqueue hrelease hstep).2 with
    ⟨hsame, hentered⟩ | ⟨task, ⟨next, hcaller, hnext, rfl⟩, hsubmit, hbefore, hafter⟩
  · intro j
    refine Or.inl ?_
    by_cases hj : j = k
    · subst hj
      simp only [view, hsame, hentered]
    · have hother := entered_congr (honly.control j hj) (honly.phases (.inl j) (by simpa using hj))
      simp only [view, hsame, hother]
  · refine follows_of_view (k := k) ?_ (Or.inr ⟨.caller, ?_⟩)
    · intro j hj
      have hother := entered_congr (honly.control j hj) (honly.phases (.inl j) (by simpa using hj))
      have hshare := FifoPool.project_submit_of_none (f := ofCall j) hsubmit
        (if_neg fun heq => hj heq.symm)
      simp only [view, hshare, hother]
    · have hshare := FifoPool.project_submit (f := ofCall k) (x := next) hsubmit (if_pos rfl)
      simp only [SubmitWorkload.step, callerStep, Call.next, view, hbefore, hafter, hcaller,
        ahead, Bool.toNat_false, Bool.toNat_true, Nat.add_zero, if_pos hnext, hshare,
        Option.map_some]

/-- The permit is released, and the caller turns to the next decision. -/
theorem follows_release {next : Nat} (hs : Inv cfg s) (hcaller : (s.call k).caller = .fanOut next)
    (hstep : ThreadPool.producerStep queueSize s.pool k .release = some pool) :
    Follows cfg s
      { s with
        pool
        call := update s.call k { s.call k with caller := .fanOut (next + 1) } } := by
  have honly := ThreadPool.producerStep_only hs.pool.consistent hstep
  cases ThreadPool.producerStep_cases hstep with
  | release hcontrol =>
    intro j
    refine Or.inl ?_
    by_cases hj : j = k
    · subst hj
      simp only [view, entered, hcontrol, hcaller, ahead, ThreadPool.setProducer,
        update_self, Bool.toNat_true, Bool.toNat_false, Nat.add_zero]
      rfl
    · have hother := entered_congr (honly.control j hj)
        (honly.phases (.inl j) (by simpa using hj))
      simp only [view, hother, update_of_ne hj]
      rfl

/-- A worker between two closures. -/
theorem follows_worker {w : ω} {event : WorkerEvent (κ × Nat)} (hs : Inv cfg s)
    (hfinish : event ≠ .finish)
    (hstep : ThreadPool.workerStep queueSize s.pool w event = some pool) :
    Follows cfg s { s with pool } := by
  have honly := ThreadPool.workerStep_only hs.pool.consistent hstep
  intro k
  have hentered : entered pool k = entered s.pool k :=
    entered_congr (congrFun honly.producers k) (honly.phases (.inl k) (by simp))
  rcases ThreadPool.workerStep_toFifo_event hs.pool.ring hs.pool.consistent hstep with
    ⟨heq, -⟩ | ⟨-, hsame | htake⟩
  · exact absurd heq hfinish
  · refine Or.inl ?_
    simp only [view, hsame, hentered]
  · rcases FifoPool.project_take (f := ofCall k) htake with hshare | hshare
    · refine Or.inl ?_
      simp only [view, hshare, hentered]
    · refine Or.inr ⟨.take w, ?_⟩
      simp only [SubmitWorkload.step, view, hshare, hentered, Option.map_some]

/-! ### A worker inside a closure -/

omit [DecidableEq ω] in
/-- The worker of a closure, in the pool of its call and in the others. -/
theorem worker_of_running {w : ω} {i : Nat} (hrunning : s.pool.worker w = .running (k, i)) (j : κ)
    : (view s j).pool.worker w = if k = j then some i else none := by
  simp only [view, FifoPool.project, toFifo, ThreadPool.holding_of_running _ hrunning,
    Option.bind_some, ofCall]

/-- The part of the calls in the pool after a step of a closure. -/
theorem project_afterEvent {w : ω} {i : Nat} (hs : Inv cfg s)
    (hrunning : s.pool.worker w = .running (k, i)) (event : ClosureEvent) (j : κ) :
    (toFifo (if event.isLeave then ThreadPool.setWorker w .acquiring s.pool else s.pool)).project
        (ofCall j) =
      if event.isLeave then (view s j).pool.release w else (view s j).pool := by
  have hphase := hs.pool.consistent.workers w
  rw [hrunning] at hphase
  split
  · rw [ThreadPool.toFifo_finish hphase, FifoPool.project_release]
    rfl
  · rfl

omit [DecidableEq κ] in
theorem entered_afterEvent (w : ω) (event : ClosureEvent) (j : κ) :
    entered (if event.isLeave then ThreadPool.setWorker w .acquiring s.pool else s.pool) j =
      entered s.pool j := by
  cases event.isLeave <;> exact entered_congr rfl rfl

theorem follows_closure {w : ω} {i : Nat} {closure : Closure} {event : ClosureEvent}
    {node : SharedArena.Node (Thread κ ω)} {progress : Progress} (hs : Inv cfg s)
    (hrunning : s.pool.worker w = .running (k, i)) (hclosure : (cfg.closures k)[i]? = some closure)
    (hprogress : SubmitWorkload.closureStep closure ((s.call k).progress i) event = some progress) :
    Follows cfg s
      { s with
        node
        pool := if event.isLeave then ThreadPool.setWorker w .acquiring s.pool else s.pool
        call := update s.call k ((s.call k).advance i progress event) } := by
  refine follows_of_view (k := k) ?_ (Or.inr ⟨.closure w event, ?_⟩)
  · intro j hj
    have hnone : (view s j).pool.worker w = none := by
      rw [worker_of_running hrunning, if_neg fun heq => hj heq.symm]
    have hsame : (view s j).pool.release w = (view s j).pool := by
      rw [FifoPool.release, ← hnone, update_eq_self]
    have hshare := project_afterEvent hs hrunning event j
    rw [hsame, ite_self] at hshare
    simp only [view, update_of_ne hj, entered_afterEvent] at hshare ⊢
    rw [hshare]
  · have hworker : (view s k).pool.worker w = some i := by
      rw [worker_of_running hrunning, if_pos rfl]
    have hstep : SubmitWorkload.closureStep closure ((view s k).progress i) event =
        some progress := hprogress
    simp only [SubmitWorkload.step, SubmitWorkload.workerStep, hworker, hclosure, hstep,
      Option.map_some]
    simp only [Submission.advance, view, update_self, entered_afterEvent,
      project_afterEvent hs hrunning, Call.advance_setCaller,
      Call.advance_caller]

/-! ### Whole runs -/

theorem Follows.reachable (h : Follows cfg s t)
    (hviews : ∀ k, (SubmitWorkload.machine cfg.nodeId (cfg.dag k) (cfg.plan k) ω).Reachable
      (view s k)) (k : κ) :
    (SubmitWorkload.machine cfg.nodeId (cfg.dag k) (cfg.plan k) ω).Reachable (view t k) := by
  rcases h k with hsame | ⟨label, hstep⟩
  · rw [hsame]
    exact hviews k
  · exact (hviews k).step hstep

theorem Transition.follows {label : Label κ ω} (hs : Inv cfg s) (h : Transition cfg s label t) :
    Follows cfg s t := by
  cases h with
  | tick elapsed => exact fun k => Or.inr ⟨.tick elapsed, rfl⟩
  | caller k phase hidle hnext => exact follows_caller hidle hnext
  | enqueue k next event pool hcaller hrelease hsubmit hpool =>
    refine follows_enqueue hs ?_ hrelease hpool
    intro task heq
    rcases hsubmit task heq with ⟨hnext, htask⟩
    exact ⟨next, hcaller, hnext, htask⟩
  | release k next pool hcaller hpool => exact follows_release hs hcaller hpool
  | worker w event pool hfinish hpool => exact follows_worker hs hfinish hpool
  | closure w k i closure event node progress hrunning hclosure hnode hprogress =>
    exact follows_closure hs hrunning hclosure hprogress
  | arena label node hnode => exact fun k => Or.inl rfl

/-- A caller that is not inside `enqueue` may move. -/
theorem Inv.callers_setCall (hs : Inv cfg s) (hidle : s.pool.producer k = .idle) (c : Call)
    (j : κ) : CallerOk cfg j (update s.call k c j).caller (s.pool.producer j) := by
  by_cases hj : j = k
  · rw [hj, hidle]
    trivial
  · rw [update_of_ne hj]
    exact hs.callers j

/-- No caller has moved. -/
theorem Inv.callers_of_eq (hs : Inv cfg s)
    (hcaller : ∀ j, (t.call j).caller = (s.call j).caller)
    (hproducer : t.pool.producer = s.pool.producer) (j : κ) :
    CallerOk cfg j (t.call j).caller (t.pool.producer j) := by
  rw [hcaller, hproducer]
  exact hs.callers j

omit [DecidableEq ω] in
theorem caller_setCall {c : Call} (hc : c.caller = (s.call k).caller) (j : κ) :
    (update s.call k c j).caller = (s.call j).caller := by
  by_cases hj : j = k
  · rw [hj, update_self, hc]
  · rw [update_of_ne hj]

variable [Fintype ω]

/-- A step of the pool keeps the ring and the callers that it does not concern. -/
theorem Inv.pool_step (hs : Inv cfg s) (label : ThreadPool.Label κ ω (κ × Nat))
    (hpool : ThreadPool.step queueSize s.pool label = some t.pool)
    (hsmall : t.pool.queue.pushLog.length < 2 ^ 64) (hfollows : Follows cfg s t)
    (hcallers : ∀ k, CallerOk cfg k (t.call k).caller (t.pool.producer k)) : Inv cfg t :=
  ⟨hs.pool.step hsmall hpool, hcallers, hfollows.reachable hs.views⟩

theorem Inv.step {label : Label κ ω} (hs : Inv cfg s)
    (hsmall : t.pool.queue.pushLog.length < 2 ^ 64) (hstep : step cfg s label = some t) :
    Inv cfg t := by
  have htransition := step_cases hstep
  have hviews := (htransition.follows hs).reachable hs.views
  have hfollows := htransition.follows hs
  cases htransition with
  | tick elapsed | arena label node hnode => exact ⟨hs.pool, hs.callers, hviews⟩
  | caller k phase hidle hnext =>
    exact ⟨hs.pool, hs.callers_setCall hidle _, hviews⟩
  | enqueue k next event pool hcaller hrelease hsubmit hpool =>
    refine hs.pool_step (.producer k event) hpool hsmall hfollows fun j => ?_
    have honly := ThreadPool.producerStep_only hs.pool.consistent hpool
    by_cases hj : j = k
    · subst hj
      refine (producer_effect hs.pool (hs.callers j) ?_ hrelease hpool).1
      intro task heq
      rcases hsubmit task heq with ⟨hnext, htask⟩
      exact ⟨next, hcaller, hnext, htask⟩
    · simp only
      rw [honly.control j hj]
      exact hs.callers j
  | release k next pool hcaller hpool =>
    refine hs.pool_step (.producer k .release) hpool hsmall hfollows fun j => ?_
    have honly := ThreadPool.producerStep_only hs.pool.consistent hpool
    by_cases hj : j = k
    · subst hj
      cases ThreadPool.producerStep_cases hpool with
      | release hcontrol =>
        simp only [ThreadPool.setProducer, update_self]
        trivial
    · simp only [update_of_ne hj]
      rw [honly.control j hj]
      exact hs.callers j
  | worker w event pool hfinish hpool =>
    have honly := ThreadPool.workerStep_only hs.pool.consistent hpool
    exact hs.pool_step (.worker w event) hpool hsmall hfollows
      (hs.callers_of_eq (fun _ => rfl) honly.producers)
  | closure w k i closure event node progress hrunning hclosure hnode hprogress =>
    have hcaller := caller_setCall (s := s) (k := k)
      (c := (s.call k).advance i progress event)
      (Call.advance_caller _ i progress event)
    cases hleave : event.isLeave with
    | false =>
      rw [hleave] at hviews
      exact ⟨hs.pool, hs.callers_of_eq hcaller rfl, hviews⟩
    | true =>
      rw [hleave] at hfollows hsmall
      refine hs.pool_step (.worker w .finish) ?_ hsmall hfollows
        (hs.callers_of_eq hcaller rfl)
      simp only [ThreadPool.step, ThreadPool.workerStep, hrunning]
      rfl

/-- The ring's log never shrinks. -/
theorem pushLog_length_le {label : Label κ ω} (hstep : step cfg s label = some t) :
    s.pool.queue.pushLog.length ≤ t.pool.queue.pushLog.length := by
  have hpool : ∀ (label : ThreadPool.Label κ ω (κ × Nat)) {pool : Pool κ ω (κ × Nat)},
      ThreadPool.step queueSize s.pool label = some pool →
        s.pool.queue.pushLog.length ≤ pool.queue.pushLog.length :=
    fun _ _ => ThreadPool.pushLog_length_le_of_step
  cases step_cases hstep with
  | enqueue k next event pool hcaller hrelease hsubmit hmove =>
    exact hpool (.producer k event) hmove
  | release k next pool hcaller hmove => exact hpool (.producer k .release) hmove
  | worker w event pool hfinish hmove => exact hpool (.worker w event) hmove
  | closure w k i closure event node progress hrunning hclosure hnode hprogress =>
    cases event.isLeave <;> exact le_rfl
  | _ => exact le_rfl

variable [Inhabited κ]

omit [Fintype ω] in
theorem initial_inv : Inv cfg (initial κ ω) where
  pool := ⟨fresh_ringInv queueSize, ⟨fun _ => rfl, fun _ => rfl⟩, fun _ _ h => by cases h⟩
  callers := fun _ => trivial
  views := fun _ => .initial

theorem reachable_inv (hs : (machine cfg ω).Reachable s)
    (hsmall : s.pool.queue.pushLog.length < 2 ^ 64) : Inv cfg s := by
  refine hs.invariant (I := fun s => s.pool.queue.pushLog.length < 2 ^ 64 → Inv cfg s)
    (fun _ => initial_inv) ?_ hsmall
  intro s label t ih hstep hsmall'
  have hle := pushLog_length_le hstep
  exact (ih (by omega)).step hsmall' hstep

omit [Fintype ω] [Inhabited κ] in
/-- A closure returns from `run_task` by a step of the arena. -/
theorem returnFromRun_cases {w : ω} {event : ClosureEvent} {node : SharedArena.Node (Thread κ ω)}
    (h : returnFromRun cfg s w event = some node) :
    node = s.node ∨
      SharedArena.step cfg.arenaCapacity s.node (.unlockShared (.worker w)) = some node := by
  unfold returnFromRun at h
  split at h
  · split at h
    · exact Or.inr (Option.ite_none_right_eq_some.1 h).2
    · cases h
  · exact Or.inl (Option.some.inj h).symm

omit [Fintype ω] in
/-- What the calls, the workers and the server do with the arena is a run of the arena. -/
theorem reachable_node (hs : (machine cfg ω).Reachable s) :
    (SharedArena.machine cfg.arenaCapacity (Thread κ ω)).Reachable s.node := by
  refine hs.invariant
    (I := fun s => (SharedArena.machine cfg.arenaCapacity (Thread κ ω)).Reachable s.node)
    .initial ?_
  intro s label t hnode hstep
  cases step_cases hstep with
  | closure w k i closure event node progress hrunning hclosure hreturn hprogress =>
    rcases returnFromRun_cases hreturn with rfl | hunlock
    · exact hnode
    · exact hnode.step (a := .unlockShared (.worker w)) hunlock
  | arena label node hmove => exact hnode.step hmove
  | _ => exact hnode

/-- Calls that share the pool and the arena.  In every state of the daemon, with fewer than
`2 ^ 64` closures submitted so far, each call stands where a call on an idle pool stands
whose tasks have ended in the same way; and the arena, which decides how they end, is in a
state of `SharedArena`, with the callers, the workers and the server as its threads. -/
theorem concurrent_calls_refine (hs : (machine cfg ω).Reachable s)
    (hsmall : s.pool.queue.pushLog.length < 2 ^ 64) :
    (∀ k, (SubmitWorkload.machine cfg.nodeId (cfg.dag k) (cfg.plan k) ω).Reachable (view s k)) ∧
      (SharedArena.machine cfg.arenaCapacity (Thread κ ω)).Reachable s.node :=
  ⟨(reachable_inv hs hsmall).views, reachable_node hs⟩

omit [DecidableEq ω] [Fintype ω] [Inhabited κ] in
/-- What waits in the ring waits for its call. -/
theorem mem_queue_view {k : κ} {i : Nat} (hmem : (k, i) ∈ s.pool.queue.waiting) :
    i ∈ (view s k).pool.queue :=
  List.mem_filterMap.2 ⟨(k, i), hmem, if_pos rfl⟩

/-- No closure is run twice, whichever calls share the pool.  Two workers never run the
same one, what is run does not wait any more, what has ended neither waits nor is run; and
the counters of a call are the number of its closures that have counted. -/
theorem closures_run_once (hs : (machine cfg ω).Reachable s)
    (hsmall : s.pool.queue.pushLog.length < 2 ^ 64) (k : κ) :
    (∀ w i, s.pool.worker w = .running (k, i) → i < (cfg.closures k).length ∧
      (k, i) ∉ s.pool.queue.waiting ∧ ∀ v, s.pool.worker v = .running (k, i) → v = w) ∧
    (∀ i, ((s.call k).progress i).isEnded = true → (k, i) ∉ s.pool.queue.waiting ∧
      ∀ w, s.pool.worker w ≠ .running (k, i)) ∧
    (s.call k).completed + (s.call k).failed =
      ∑ i : Fin (cfg.closures k).length, ((s.call k).progress i).isCounted.toNat := by
  have hcall := reachable_submissionInv ((reachable_inv hs hsmall).views k)
  have hworker : ∀ w i, s.pool.worker w = .running (k, i) →
      (view s k).pool.worker w = some i := by
    intro w i hrunning
    rw [worker_of_running hrunning, if_pos rfl]
  refine ⟨fun w i hrunning => ⟨?_, ?_, ?_⟩, fun i hended => ⟨?_, ?_⟩, hcall.counters⟩
  · exact (hcall.held w i (hworker w i hrunning)).1.trans_le hcall.bound
  · exact fun hmem => hcall.distinct.apart w i (hworker w i hrunning) (mem_queue_view hmem)
  · exact fun v hv => hcall.distinct.owner v w i (hworker v i hv) (hworker w i hrunning)
  · intro hmem
    have hwaiting : (s.call k).progress i = .waiting := (hcall.queued i (mem_queue_view hmem)).2
    rw [hwaiting] at hended
    cases hended
  · intro w hrunning
    have hrunning := (hcall.held w i (hworker w i hrunning)).2
    exact absurd (hrunning.symm.trans hended) (by decide)

end Refinement

/-! ## Two calls at once -/

/-- More than half of the arena. -/
def largeProfile : TaskProfile where
  memoryBytes := 600

def largeDag : WorkloadDAG := 
  WorkloadDAG.build [.addTask { id := [97], profile := largeProfile }]

/-- Two calls with one such task each. -/
def twoCalls : Config (Fin 2) where
  nodeId := [115]
  dag := fun _ => largeDag
  plan := fun _ => { mixedPlan with decisions := mixedPlan.decisions.take 1 }
  arenaCapacity := 1024

/-- The state after some steps of two callers and one worker. -/
def reached (labels : List (Label (Fin 2) (Fin 1))) : Daemon (Fin 2) (Fin 1) :=
  ((machine twoCalls (Fin 1)).run (initial (Fin 2) (Fin 1)) labels).getD
    (initial (Fin 2) (Fin 1))

/-- Both callers submit their closure; the second one claims its position first. -/
def submitting : List (Label (Fin 2) (Fin 1)) :=
  List.flatten [[.enqueue 0 (.enqueue (0, 0)), .enqueue 1 (.enqueue (1, 0))],
    List.replicate 2 (.enqueue 0 (.push .next)), List.replicate 5 (.enqueue 1 (.push .next)),
    List.replicate 5 (.enqueue 0 (.push .next)),
    [.enqueue 0 .pushed, .enqueue 1 .pushed, .enqueue 1 .release, .enqueue 0 .release]]

/-- The worker pops a closure and enters `run_task`. -/
def entering : List (Label (Fin 2) (Fin 1)) :=
  List.flatten [[.worker 0 .acquire], List.replicate 3 (.worker 0 (.pop .next)),
    [.worker 0 (.pop (.take (0, 0))), .worker 0 (.pop .next), .worker 0 .popped,
      .closure 0 .start, .arena (.lockShared (.worker 0) [97] largeProfile),
      .arena (.load (.worker 0)), .arena (.attempt (.worker 0) false)]]

/-- The worker counts the task and leaves the closure. -/
def counting (finalState : TaskState) : List (Label (Fin 2) (Fin 1)) :=
  [.closure 0 (.finish finalState), .closure 0 .count, .closure 0 .leave]

/-- A caller finds its closure counted, resets the arena and returns. -/
def returning (k : Fin 2) : List (Label (Fin 2) (Fin 1)) :=
  List.flatten [List.replicate 6 (.caller k), [.arena (.tryLock (.caller k) false),
    .arena (.reset (.caller k)), .arena (.unlock (.caller k)), .caller k]]

/-- Both tasks are run before either call resets the arena. -/
def bothRun : List (Label (Fin 2) (Fin 1)) :=
  List.flatten [submitting, entering, [.arena (.compute (.worker 0) 10 false)],
    counting .completed, entering, counting .failed, returning 0, returning 1]

theorem reachable_reached (labels : List (Label (Fin 2) (Fin 1)))
    (hrun : ((machine twoCalls (Fin 1)).run (initial (Fin 2) (Fin 1)) labels).isSome = true) :
    (machine twoCalls (Fin 1)).Reachable (reached labels) := by
  rcases Option.isSome_iff_exists.1 hrun with ⟨s, hs⟩
  have hreached : (machine twoCalls (Fin 1)).run (initial (Fin 2) (Fin 1)) labels =
      some (reached labels) := by
    rw [reached, hs]
    rfl
  exact StateMachine.Reachable.initial.run hreached

/-- There is no room for the second task: it fails, and its call says so. -/
theorem concurrent_calls_refine_two :
    ((reached bothRun).call 1).caller = .returned ⟨1, 0, 1, 0, 0⟩ ∧
      ((reached bothRun).call 0).caller = .returned ⟨1, 0, 0, 1, 0⟩ ∧
      (∀ k, (SubmitWorkload.machine [115] largeDag (twoCalls.plan k) (Fin 1)).Reachable
        (view (reached bothRun) k)) ∧
      (SharedArena.machine 1024 (Thread (Fin 2) (Fin 1))).Reachable (reached bothRun).node :=
  ⟨by decide +kernel, by decide +kernel,
    concurrent_calls_refine (reachable_reached bothRun (by decide +kernel)) (by decide +kernel)⟩

/-- The worker runs the closure of one call while the other one's still waits. -/
theorem closures_run_once_first :
    (reached (submitting ++ entering)).pool.worker 0 = .running (1, 0) ∧
      (reached (submitting ++ entering)).pool.queue.waiting = [(0, 0)] ∧
      (1, 0) ∉ (reached (submitting ++ entering)).pool.queue.waiting := by
  have hrunning : (reached (submitting ++ entering)).pool.worker 0 = .running (1, 0) := by
    decide +kernel
  exact ⟨hrunning, by decide +kernel, ((closures_run_once
    (reachable_reached _ (by decide +kernel)) (by decide +kernel) 1).1 0 0 hrunning).2.1⟩

end ConcurrentCalls

end EdgeOrchestrator
