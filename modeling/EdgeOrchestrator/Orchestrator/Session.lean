import EdgeOrchestrator.Orchestrator.Accounting
import EdgeOrchestrator.Orchestrator.SharedArena
import EdgeOrchestrator.Scheduler.OptimizerBudgets

/-!
# Calls of `submit_workload` one after another

Tasks of a workload take their memory from one arena that is only emptied as a
whole: `submit_workload` tries to reset it before it returns.  `run_task` holds the
shared side of the arena's mutex while a task runs and gives it back before the
closure makes its increment.

Calls follow one another; inside a call the closures of all workers interleave at
the level of the lock operations and of the atomic steps of `allocate`, as in
`SharedArena`.

Main results:

- `reachable_node`: what the calls do with the arena is a run of `SharedArena`.
- `sum_cost_le`: the closures of a plan that decides about distinct tasks ask for no more than
  the memory of the workload.
-/

namespace EdgeOrchestrator

open Alignment

namespace SubmitWorkload

open TaskRunner
open SharedArena (Node Role)

/-- `run_task` allocates with the default alignment. -/
def defaultLog : Fin 64 := MemoryPool.defaultAlignment

/-! ## Calls one after another -/

/-- The present call, or the last one when it has returned.  A worker inside `run_task` is
known by the number of its closure, and `none` is the caller. -/
structure Session (ω : Type*) where
  dag : WorkloadDAG
  plan : SchedulingPlan
  call : Submission ω
  node : Node (Option Nat)
  /-- What `run_task` has returned to the closures. -/
  returned : Nat → Option ExecutionResult
  /-- The call has tried to reset the arena. -/
  resetTried : Bool
  deadline : Option Nat
  /-- The last call has returned before its deadline. -/
  onTime : Bool
  /-- The workers still inside a closure of an earlier call that has been counted. -/
  leaving : ω → Bool

/-- The result of a task, from the end of `execute` on. -/
def resultOf (role : Role) (returned : Option ExecutionResult) : Option ExecutionResult :=
  match role with
  | .executed result => some result
  | _ => returned

/-- What `submit_workload` is given and looks up before it has a plan: the workload,
the configured policy, the resource snapshot and the view of the cluster. -/
structure Request where
  dag : WorkloadDAG
  policy : Policy
  env : SchedulerEnv
  localNode : ResourceSnapshot
  cluster : ClusterView

/-- What the policy decides. -/
def Request.plan (request : Request) : SchedulingPlan :=
  request.policy.schedule request.env request.dag request.localNode request.cluster

/-- The steps of a session. -/
inductive SessionLabel (ω : Type*) where
  | begin (request : Request)
  | call (label : Label ω)
  /-- A step of `run_task` or of `try_reset_arena`. -/
  | arena (label : SharedArena.Label (Option Nat))
  | leave (w : ω)

section Machine

variable {ω : Type*} (nodeId : NodeId) (capacity : U64)

/-- What the present call submits. -/
def Session.closures (s : Session ω) : List Closure :=
  SubmitWorkload.closures nodeId s.dag s.plan

variable (s : Session ω)

/-- The next call starts when the last one has returned before its deadline. -/
def beginCall (request : Request) : Option (Session ω) :=
  if s.onTime then
    some { s with
      dag := request.dag
      plan := request.plan
      call := { planned ω with clock := s.call.clock }
      returned := fun _ => none
      resetTried := false
      deadline := none
      onTime := false
      leaving := fun w => s.leaving w || (s.call.pool.worker w).isSome }
  else none

/-- What a step of the call waits for: a worker that has left earlier closures, the
reset before the return, and the result of `run_task`. -/
def callEnabled : Label ω → Bool
  | .tick _ => true
  | .caller =>
    match s.call.caller with
    | .returning _ => s.resetTried = true ∧ s.node.role none = .idle
    | _ => true
  | .take w => !s.leaving w
  | .closure w (.finish finalState) =>
    match (s.call.pool.worker w).bind s.returned with
    | some result => result.finalState = finalState
    | none => false
  | .closure _ _ => true

/-- Who calls `run_task` and `try_reset_arena`, and when: a closure for its task, without a
request to stop; the caller once, when it has its result.  A `try_lock` of a mutex that
nobody owns succeeds. -/
def arenaEnabled : SharedArena.Label (Option Nat) → Bool
  | .lockShared (some i) taskId profile =>
    s.call.progress i = .running ∧ s.returned i = none ∧
      ((s.closures nodeId)[i]?).any fun closure =>
        closure.taskId = taskId ∧ closure.profile = profile
  | .lockShared none _ _ => false
  | .compute _ _ stopRequested => !stopRequested
  | .tryLock none spurious =>
    match s.call.caller with
    | .returning _ => !s.resetTried && !spurious
    | _ => false
  | .tryLock (some _) _ => false
  | _ => true

/-- `run_task` returns to its closure. -/
def afterArena : SharedArena.Label (Option Nat) → Nat → Option ExecutionResult
  | .unlockShared (some i) =>
    Function.update s.returned i (resultOf (s.node.role (some i)) (s.returned i))
  | _ => s.returned

/-- An attempt to get the lock for a reset. -/
def isTryLock : SharedArena.Label (Option Nat) → Bool
  | .tryLock _ _ => true
  | _ => false

/-- A step of `run_task` or `try_reset_arena`. -/
def arenaStep (label : SharedArena.Label (Option Nat)) : Option (Session ω) :=
  if arenaEnabled nodeId s label then
    (SharedArena.step capacity s.node label).map fun node =>
      { s with
        node := node
        returned := afterArena s label
        resetTried := isTryLock label || s.resetTried }
  else none

/-- Whether the call has returned before its deadline. -/
def returnsOnTime : Label ω → Bool
  | .caller =>
    match s.call.caller with
    | .returning _ => s.deadline.all fun deadline => s.call.clock < deadline
    | _ => s.onTime
  | _ => s.onTime

variable [DecidableEq ω]

/-- A step of the present call. -/
def callStep (s : Session ω) (label : Label ω) : Option (Session ω) :=
  if callEnabled s label then
    (SubmitWorkload.step s.plan.decisions.length ThreadPool.queueSize.capacity
      (s.closures nodeId) s.call label).map fun call =>
        { s with
          call := call
          deadline := (setsDeadline (s.closures nodeId) s.call label).or s.deadline
          onTime := returnsOnTime s label }
  else none

/-- The next step of a session. -/
def sessionStep (s : Session ω) : SessionLabel ω → Option (Session ω)
  | .begin request => beginCall s request
  | .call label => callStep nodeId s label
  | .arena label => arenaStep nodeId capacity s label
  | .leave w =>
    if s.leaving w then some { s with leaving := Function.update s.leaving w false } else none

end Machine

/-- A node that has started and has not been given a workload yet. -/
def startedSession (ω : Type*) : Session ω where
  dag := WorkloadDAG.build []
  plan := {}
  call := { planned ω with caller := .returned ⟨0, 0, 0, 0, 0⟩ }
  node := SharedArena.started _
  returned := fun _ => none
  resetTried := true
  deadline := none
  onTime := true
  leaving := fun _ => false

/-- Calls of `submit_workload` that do not overlap, on a node with the given id and
arena capacity. -/
def sessionMachine (nodeId : NodeId) (capacity : U64) (ω : Type*) [DecidableEq ω] :
    StateMachine (Session ω) (SessionLabel ω) where
  initial := startedSession ω
  step := sessionStep nodeId capacity

/-- What the calls do with the arena is a run of `SharedArena`. -/
theorem reachable_node {ω : Type*} [DecidableEq ω] {nodeId : NodeId} {capacity : U64}
    {s : Session ω} (hs : (sessionMachine nodeId capacity ω).Reachable s) :
    (SharedArena.machine capacity (Option Nat)).Reachable s.node := by
  refine hs.invariant
    (I := fun s => (SharedArena.machine capacity (Option Nat)).Reachable s.node) .initial ?_
  intro s label t hnode hstep
  cases label with
  | begin request =>
    rcases Option.ite_none_right_eq_some.1 hstep with ⟨-, hbegin⟩
    cases hbegin
    exact hnode
  | call label =>
    rcases Option.ite_none_right_eq_some.1 hstep with ⟨-, hcall⟩
    rcases Option.map_eq_some_iff.1 hcall with ⟨call, -, rfl⟩
    exact hnode
  | arena label =>
    rcases Option.ite_none_right_eq_some.1 hstep with ⟨-, harena⟩
    rcases Option.map_eq_some_iff.1 harena with ⟨node, hmove, rfl⟩
    exact hnode.step hmove
  | leave w =>
    rcases Option.ite_none_right_eq_some.1 hstep with ⟨-, hleave⟩
    cases hleave
    exact hnode

/-! ## The memory of a workload -/

/-- The memory of a task, rounded up to the default alignment. -/
def paddedMemory (dag : WorkloadDAG) (id : TaskId) : Nat :=
  match dag.getTask id with
  | some task => alignUp (2 ^ defaultLog.val) task.profile.memoryBytes.toNat
  | none => 0

/-- The sum over all tasks of the workload. -/
def workloadMemory (dag : WorkloadDAG) : Nat :=
  (dag.tasks.keys.map (paddedMemory dag)).sum

/-- The memory of a closure, rounded up to the default alignment. -/
def Closure.padded (closure : Closure) : Nat :=
  alignUp (2 ^ defaultLog.val) closure.profile.memoryBytes.toNat

/-- The memory of closure `i`. -/
def cost (cs : List Closure) (i : Nat) : Nat :=
  ((cs[i]?).map Closure.padded).getD 0

theorem sum_cost (cs : List Closure) :
    ∑ i : Fin cs.length, cost cs i = (cs.map Closure.padded).sum := by
  rw [← Fin.sum_univ_fun_getElem]
  apply Finset.sum_congr rfl
  intro i _
  rw [cost, List.getElem?_eq_getElem i.2]
  rfl

section Workload

variable {nodeId : NodeId} {dag : WorkloadDAG} {plan : SchedulingPlan}

theorem padded_of_closureOf {decision : SchedulingDecision} {closure : Closure}
    (h : closureOf nodeId dag decision = some closure) :
    closure.padded = paddedMemory dag decision.taskId := by
  rcases Option.map_eq_some_iff.1 h with ⟨task, htask, rfl⟩
  rw [paddedMemory, htask]
  split <;> rfl

/-- A plan that decides every task at most once needs no more memory than the
workload. -/
theorem sum_cost_le (hnodup : plan.taskIds.Nodup) :
    ∑ i : Fin (closures nodeId dag plan).length, cost (closures nodeId dag plan) i ≤
      workloadMemory dag := by
  have hspec : ∀ closure ∈ closures nodeId dag plan, closure.taskId ∈ dag.tasks.keys ∧
      closure.padded = paddedMemory dag closure.taskId := by
    intro closure hclosure
    rcases List.mem_filterMap.1 hclosure with ⟨decision, -, hdecision⟩
    rcases closureOf_taskId hdecision with ⟨hid, hmem⟩
    rw [hid]
    exact ⟨AList.mem_keys.1 hmem, padded_of_closureOf hdecision⟩
  have hpadded : (closures nodeId dag plan).map Closure.padded =
      ((closures nodeId dag plan).map Closure.taskId).map (paddedMemory dag) := by
    rw [List.map_map]
    exact List.map_congr_left fun closure hclosure => (hspec closure hclosure).2
  rw [sum_cost, hpadded]
  apply Counting.sum_map_le_of_subset
  · rw [map_taskId_closures_eq_filter]
    exact hnodup.filter _
  · intro id hid
    rcases List.mem_map.1 hid with ⟨closure, hclosure, rfl⟩
    exact (hspec closure hclosure).1
  · intro id _
    exact Nat.zero_le _

end Workload

/-- On any graph, every policy decides about distinct tasks. -/
theorem schedule_taskIds_nodup (env : SchedulerEnv) (policy : Policy) (dag : WorkloadDAG)
    (localNode : ResourceSnapshot) (cluster : ClusterView) :
    (policy.schedule env dag localNode cluster).taskIds.Nodup := by
  have htopo := dag.topologicalOrder_nodup env.hash
  cases policy with
  | greedy =>
    have hshape := greedySchedule_shape env.floats env.hash dag localNode cluster
    exact hshape.taskIds_perm.nodup_iff.2 (htopo.filter _)
  | threshold config =>
    have hshape := thresholdSchedule_shape env.floats config env.hash dag localNode cluster
    exact hshape.taskIds_perm.nodup_iff.2 (htopo.filter _)
  | optimizer config =>
    have hshape : PlanShape (packedIds env dag localNode) (candidateIds localNode cluster)
        (optimizerSchedule env config dag localNode cluster) :=
      localSearchImprove_shape env config (packedPlan_shape env dag localNode cluster)
    exact hshape.taskIds_perm.nodup_iff.2 packedIds_nodup

/-- A workload that is submitted fits into the arena, each task rounded up to the
default alignment. -/
def Fits {ω : Type*} (capacity : U64) : SessionLabel ω → Prop
  | .begin request => workloadMemory request.dag ≤ capacity.toNat
  | _ => True

instance {ω : Type*} (capacity : U64) : DecidablePred (Fits (ω := ω) capacity)
  | .begin request => inferInstanceAs (Decidable (workloadMemory request.dag ≤ capacity.toNat))
  | .call _ | .arena _ | .leave _ => isTrue trivial

end SubmitWorkload

end EdgeOrchestrator
