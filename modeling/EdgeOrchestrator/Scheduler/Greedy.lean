import EdgeOrchestrator.Scheduler.PlanShape
import EdgeOrchestrator.Workload.TopologicalOrder

/-!
# The greedy policy

`GreedyPolicy::schedule` walks the topological order and gives each task to the
node with the best score among those whose simulated memory still fits it; if
no node fits, the local node takes the task.

Main result:

- `greedySchedule_shape`: the plan decides exactly the tasks of the topological order, each on
  the local node or on a reachable peer.
-/

namespace EdgeOrchestrator

/-! ## Scores -/

/-- The weight of the processor, `1.0f`. -/
def wCpu : F32 := 0x3F800000#32
/-- The weight of memory, `0.5f`. -/
def wMem : F32 := 0x3F000000#32
/-- The weight of the network, `0.3f`. -/
def wNet : F32 := 0x3E99999A#32
def float1024 : F32 := 0x44800000#32
/-- `std::numeric_limits<float>::lowest()`. -/
def lowestFloat : F32 := 0xFF7FFFFF#32

variable (fl : FloatOps)

/-- `compute_node_score`. -/
def computeNodeScore (resources : ResourceSnapshot) (profile : TaskProfile) (isLocal : Bool)
    : F32 :=
  let cpuHeadroom := resources.cpuHeadroomPercent fl
  let memHeadroom := fl.sub oneHundred (resources.memoryUsagePercent fl)
  let transferCost :=
    if isLocal then 0
    else fl.div (fl.ofU64 (profile.inputBytes + profile.outputBytes)) (fl.mul float1024 float1024)
  fl.sub (fl.add (fl.mul wCpu cpuHeadroom) (fl.mul wMem memHeadroom)) (fl.mul wNet transferCost)

/-! ## The walk -/

/-- Simulated state of one node. -/
structure GreedyNode where
  id : NodeId
  resources : ResourceSnapshot
  assignedCompute : Duration := 0

/-- The variables of the loop. -/
structure GreedyState where
  nodes : List GreedyNode
  decisions : List SchedulingDecision

/-- The local node followed by the reachable peers. -/
def greedyNodes (localNode : ResourceSnapshot) (cluster : ClusterView) : List GreedyNode :=
  { id := localNode.nodeId, resources := localNode } ::
    (cluster.peers.filter PeerInfo.reachable).map fun peer =>
      { id := peer.nodeId, resources := peer.resources }

/-- One comparison of the search for the best node. -/
def considerNode (profile : TaskProfile) (best : F32 × Nat) (entry : GreedyNode × Nat)
    : F32 × Nat :=
  if profile.memoryBytes > entry.1.resources.memoryAvailableBytes then best
  else
    let score := computeNodeScore fl entry.1.resources profile (entry.2 == 0)
    if fl.lt best.1 score then (score, entry.2) else best

/-- Index of the best node that fits; the local node when none does. -/
def greedyBest (nodes : List GreedyNode) (profile : TaskProfile) : Nat :=
  (nodes.zipIdx.foldl (considerNode fl profile) (lowestFloat, 0)).2

/-- Charge a task to a node; memory that does not fit is not subtracted. -/
def GreedyNode.charge (profile : TaskProfile) (node : GreedyNode) : GreedyNode :=
  { node with
    assignedCompute := node.assignedCompute + profile.computeCost
    resources :=
      if node.resources.memoryAvailableBytes ≥ profile.memoryBytes then
        { node.resources with
          memoryAvailableBytes := node.resources.memoryAvailableBytes - profile.memoryBytes }
      else node.resources }

/-- The loop body for one task id. -/
def greedyAssign (dag : WorkloadDAG) (localNode : ResourceSnapshot) (s : GreedyState)
    (taskId : TaskId) : GreedyState :=
  match dag.getTask taskId with
  | none => s
  | some task =>
    let best := greedyBest fl s.nodes task.profile
    let node := s.nodes.getD best { id := localNode.nodeId, resources := localNode }
    { nodes := s.nodes.modify best (GreedyNode.charge task.profile)
      decisions := s.decisions ++
        [{ taskId := taskId
           assignedNode := node.id
           reason := if best = 0 then .localCapacity else .leastLoaded }] }

/-- The whole walk over the topological order. -/
def greedyWalk (h : HashOrders) (dag : WorkloadDAG) (localNode : ResourceSnapshot)
    (cluster : ClusterView) : GreedyState :=
  (dag.topologicalOrder h).foldl (greedyAssign fl dag localNode)
    { nodes := greedyNodes localNode cluster, decisions := [] }

/-- `GreedyPolicy::schedule`. -/
def greedySchedule (h : HashOrders) (dag : WorkloadDAG) (localNode : ResourceSnapshot)
    (cluster : ClusterView) : SchedulingPlan :=
  let s := greedyWalk fl h dag localNode cluster
  { decisions := s.decisions
    estimatedMakespan := s.nodes.foldl (fun acc node => max acc node.assignedCompute) 0 }

/-! ## Every decision names a candidate -/

theorem map_id_greedyNodes (localNode : ResourceSnapshot) (cluster : ClusterView) :
    (greedyNodes localNode cluster).map GreedyNode.id = candidateIds localNode cluster := by
  simp [greedyNodes, candidateIds]

/-- The walk keeps the node ids and appends one candidate decision per task. -/
theorem greedyAssign_extends (dag : WorkloadDAG) (localNode : ResourceSnapshot)
    (cluster : ClusterView) (s : GreedyState) (taskId : TaskId)
    (hnodes : s.nodes.map GreedyNode.id = candidateIds localNode cluster) :
    (greedyAssign fl dag localNode s taskId).nodes.map GreedyNode.id =
        candidateIds localNode cluster ∧
      Extends s.decisions (if (dag.getTask taskId).isSome then [taskId] else [])
        (candidateIds localNode cluster)
        (greedyAssign fl dag localNode s taskId).decisions := by
  unfold greedyAssign
  cases htask : dag.getTask taskId with
  | none => exact ⟨hnodes, Extends.refl _ _⟩
  | some task =>
    have hkeep := map_modify_of_key_eq GreedyNode.id (GreedyNode.charge task.profile)
      (fun _ => rfl) s.nodes (greedyBest fl s.nodes task.profile)
    refine ⟨hkeep.trans hnodes, ?_⟩
    refine Extends.single s.decisions ?_
    simp only
    rw [← hnodes]
    rw [List.getD_eq_getElem?_getD]
    cases hbest : s.nodes[greedyBest fl s.nodes task.profile]? with
    | none =>
      rw [hnodes]
      exact List.mem_cons_self
    | some node => exact List.mem_map.2 ⟨node, List.mem_of_getElem? hbest, rfl⟩

/-- The greedy plan decides exactly the tasks of the topological order. -/
theorem greedySchedule_shape (h : HashOrders) (dag : WorkloadDAG) (localNode : ResourceSnapshot)
    (cluster : ClusterView) :
    PlanShape ((dag.topologicalOrder h).filter fun id => (dag.getTask id).isSome)
      (candidateIds localNode cluster) (greedySchedule fl h dag localNode cluster) := by
  have hwalk := foldl_decides
    (fun s : GreedyState => s.nodes.map GreedyNode.id = candidateIds localNode cluster)
    (fun id => (dag.getTask id).isSome) GreedyState.decisions
    (fun s id hs => greedyAssign_extends fl dag localNode cluster s id hs)
    (s := { nodes := greedyNodes localNode cluster, decisions := [] })
    (map_id_greedyNodes localNode cluster) (dag.topologicalOrder h)
  exact PlanShape.of_extends hwalk.2

end EdgeOrchestrator
