import EdgeOrchestrator.Network.ClusterView
import EdgeOrchestrator.Scheduler.Greedy
import EdgeOrchestrator.Scheduler.Optimizer
import EdgeOrchestrator.Scheduler.Threshold
import EdgeOrchestrator.Workload.HasCycle

/-!
# The scheduling policies

The three implementations of `ISchedulingPolicy` behind one dispatcher.

Main results:

- `Policy.schedule_shape`: every policy decides exactly the ids of the topological order when
  these are tasks.
- `Policy.schedule_covers`: on an acyclic graph of tasks and a snapshot of the cluster view,
  every task gets one decision on a node that exists.
-/

namespace EdgeOrchestrator

/-- The policies of the scheduler. -/
inductive Policy where
  | greedy
  | threshold (config : ThresholdPolicyConfig)
  | optimizer (config : OptimizerPolicyConfig)

namespace Policy

/-- The policy's `schedule`. -/
def schedule (env : SchedulerEnv) (policy : Policy) (dag : WorkloadDAG)
    (localNode : ResourceSnapshot) (cluster : ClusterView) : SchedulingPlan :=
  match policy with
  | .greedy => greedySchedule env.floats env.hash dag localNode cluster
  | .threshold config => thresholdSchedule env.floats config env.hash dag localNode cluster
  | .optimizer config => optimizerSchedule env config dag localNode cluster

/-- The `while` loops a policy runs, Kahn's loop and the trace along the
critical path, come back with the results that `schedule` works with. -/
def LoopsReturn (h : HashOrders) (dag : WorkloadDAG) : Prop :=
  ∃ bound, ∀ fuel ≥ bound,
    WorkloadDAG.topologicalOrderFuel h dag fuel = some (dag.topologicalOrder h) ∧
      criticalSetFuel h dag fuel = some (criticalSet h dag)

theorem loopsReturn (h : HashOrders) (dag : WorkloadDAG) : LoopsReturn h dag := by
  refine ⟨max ((WorkloadDAG.countInDegrees h dag).keys.length + 1)
    ((dag.topologicalOrder h).length + 2), ?_⟩
  intro fuel hfuel
  constructor
  · apply WorkloadDAG.topologicalOrder_terminates
    omega
  · apply criticalSet_terminates
    omega

/-- Every policy decides exactly the listed tasks, on candidate nodes. -/
theorem schedule_shape (env : SchedulerEnv) (policy : Policy) {dag : WorkloadDAG}
    (localNode : ResourceSnapshot) (cluster : ClusterView)
    (htasks : ∀ id ∈ dag.topologicalOrder env.hash, id ∈ dag.tasks) :
    PlanShape (dag.topologicalOrder env.hash) (candidateIds localNode cluster)
      (policy.schedule env dag localNode cluster) := by
  have hall : (dag.topologicalOrder env.hash).filter (fun id => (dag.getTask id).isSome) =
      dag.topologicalOrder env.hash := by
    apply List.filter_eq_self.2
    intro id hid
    exact WorkloadDAG.getTask_isSome.2 (htasks id hid)
  cases policy with
  | greedy =>
    have hshape := greedySchedule_shape env.floats env.hash dag localNode cluster
    rw [hall] at hshape
    exact hshape
  | threshold config =>
    have hshape := thresholdSchedule_shape env.floats config env.hash dag localNode cluster
    rw [hall] at hshape
    exact hshape
  | optimizer config => exact optimizerSchedule_shape env config htasks

/-- The assigned node exists: it is the local node, or exactly one reachable
peer of the view carries its id and the manager returns that peer for it. -/
def AssignedTo (m : ClusterViewManager) (o : IterationOrder NodeId)
    (localNode : ResourceSnapshot) (node : NodeId) : Prop :=
  node = localNode.nodeId ∨
    ∃ peer, (m.snapshot o).peers.filter (fun p => p.reachable && p.nodeId = node) = [peer] ∧
      m.peerInfo node = some peer

theorem assignedTo_of_mem_candidateIds {m : ClusterViewManager} {o : IterationOrder NodeId}
    {localNode : ResourceSnapshot} {node : NodeId}
    (h : node ∈ candidateIds localNode (m.snapshot o)) : AssignedTo m o localNode node := by
  rcases List.mem_cons.1 h with hlocal | hpeer
  · exact Or.inl hlocal
  · right
    rcases List.mem_map.1 hpeer with ⟨peer, hlisted, rfl⟩
    exact ⟨peer, ClusterViewManager.filter_snapshot (List.mem_of_mem_filter hlisted)⟩

/-- On an acyclic graph of tasks and a snapshot of the cluster view, every
policy returns one decision per task, none for any other id, and assigns only
nodes that exist. -/
theorem schedule_covers (env : SchedulerEnv) (policy : Policy) (dag : WorkloadDAG)
    (hends : dag.EndpointsAreTasks) (hacyclic : dag.Acyclic) (localNode : ResourceSnapshot)
    (o : IterationOrder NodeId) (ops : List ClusterViewManager.Op) :
    LoopsReturn env.hash dag ∧
      (policy.schedule env dag localNode
        ((ClusterViewManager.after ops).snapshot o)).taskIds.Nodup ∧
      (∀ id, id ∈ (policy.schedule env dag localNode
          ((ClusterViewManager.after ops).snapshot o)).taskIds ↔ id ∈ dag.tasks) ∧
      ∀ d ∈ (policy.schedule env dag localNode
          ((ClusterViewManager.after ops).snapshot o)).decisions,
        AssignedTo (ClusterViewManager.after ops) o localNode d.assignedNode := by
  have hlisted := hends.mem_topologicalOrder_of_acyclic hacyclic env.hash
  have hshape := schedule_shape env policy localNode
    ((ClusterViewManager.after ops).snapshot o) fun id hid => (hlisted id).1 hid
  refine ⟨loopsReturn env.hash dag, ?_, ?_, ?_⟩
  · exact hshape.taskIds_perm.nodup_iff.2 (dag.topologicalOrder_nodup env.hash)
  · intro id
    exact hshape.taskIds_perm.mem_iff.trans (hlisted id)
  · intro d hd
    exact assignedTo_of_mem_candidateIds (hshape.assigned d hd)

/-- Two tasks, the second depending on the first. -/
def chainDag : WorkloadDAG :=
  WorkloadDAG.build
    [.addTask { id := [97], profile := { computeCost := 10, memoryBytes := 64 } },
      .addTask { id := [98], profile := { computeCost := 20, memoryBytes := 128 } },
      .addDependency [97] [98]]

/-- A peer that is learned, and a second one that has become unreachable. -/
def chainOps : List ClusterViewManager.Op :=
  [.updatePeer { nodeId := [112], resources := { nodeId := [112], memoryAvailableBytes := 512 } },
    .updateResources [113] { nodeId := [113] }, .markUnreachable [113]]

/-- The host's arithmetic, maps in insertion order, an insertion sort. -/
def hostEnv : SchedulerEnv where
  floats := .host
  hash := .insertion
  sort := .insertion TaskId
  draws := ⟨id, id⟩

theorem schedule_covers_chainDag :
    (∀ id, id ∈ (Policy.schedule hostEnv (.optimizer ⟨100, oneHundred⟩) chainDag
        { nodeId := [115] }
        ((ClusterViewManager.after chainOps).snapshot (.insertion NodeId))).taskIds ↔
          id ∈ chainDag.tasks) ∧
      ∀ d ∈ (Policy.schedule hostEnv (.optimizer ⟨100, oneHundred⟩) chainDag
          { nodeId := [115] }
          ((ClusterViewManager.after chainOps).snapshot (.insertion NodeId))).decisions,
        AssignedTo (ClusterViewManager.after chainOps) (.insertion NodeId) { nodeId := [115] }
          d.assignedNode := by
  have hends : chainDag.EndpointsAreTasks := by decide
  have hacyclic : chainDag.Acyclic :=
    (hends.hasCycle_eq_false_iff HashOrders.insertion).1 (by decide)
  exact (schedule_covers hostEnv _ chainDag hends hacyclic _ _ _).2.2

end Policy

end EdgeOrchestrator
