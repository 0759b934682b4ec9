import EdgeOrchestrator.Scheduler.PlanShape
import EdgeOrchestrator.Workload.TopologicalOrder

/-!
# The threshold policy

`ThresholdPolicy::schedule` keeps tasks local while the simulated local load
stays under two thresholds, offloads to the least-loaded peer with enough
memory beyond them, and falls back to the local node when no peer fits.

Main result:

- `thresholdSchedule_shape`: the plan decides exactly the tasks of the topological order, each
  on the local node or on a reachable peer.
-/

namespace EdgeOrchestrator

/-- `ThresholdPolicy::Config`. -/
structure ThresholdPolicyConfig where
  cpuThresholdPercent : F32
  memoryThresholdPercent : F32

/-- The largest finite float. -/
def maxFloat : F32 := 0x7F7FFFFF#32

/-- Simulated load of one peer. -/
structure PeerState where
  id : NodeId
  cpuLoad : F32
  memAvailable : U64
  assignedCompute : Duration := 0

/-- The variables of the loop. -/
structure ThresholdState where
  simCpu : F32
  simMemUsed : U64
  localCompute : Duration
  peers : List PeerState
  decisions : List SchedulingDecision

/-- The reachable peers before the loop. -/
def thresholdPeers (cluster : ClusterView) : List PeerState :=
  (cluster.peers.filter PeerInfo.reachable).map fun peer =>
    { id := peer.nodeId
      cpuLoad := peer.resources.cpuUsagePercent
      memAvailable := peer.resources.memoryAvailableBytes }

/-- The subtraction is the code's unsigned one. -/
def thresholdInit (localNode : ResourceSnapshot) (cluster : ClusterView) : ThresholdState where
  simCpu := localNode.cpuUsagePercent
  simMemUsed := localNode.memoryTotalBytes - localNode.memoryAvailableBytes
  localCompute := 0
  peers := thresholdPeers cluster
  decisions := []

variable (fl : FloatOps)

/-- One comparison of the search for the least-loaded peer that fits. -/
def considerPeer (profile : TaskProfile) (best : F32 × Nat) (entry : PeerState × Nat) : F32 × Nat :=
  if entry.1.memAvailable ≥ profile.memoryBytes ∧ fl.lt entry.1.cpuLoad best.1 = true then
    (entry.1.cpuLoad, entry.2)
  else best

/-- Index of the chosen peer; `peers.length` when none fits. -/
def thresholdBest (peers : List PeerState) (profile : TaskProfile) : Nat :=
  (peers.zipIdx.foldl (considerPeer fl profile) (maxFloat, peers.length)).2

/-- A task is offloaded to the peer. -/
def PeerState.charge (profile : TaskProfile) (peer : PeerState) : PeerState :=
  { peer with
    assignedCompute := peer.assignedCompute + profile.computeCost
    memAvailable := peer.memAvailable - profile.memoryBytes
    cpuLoad := fl.add peer.cpuLoad (fl.mul (fl.ofI64 profile.computeCost) oneThousandth) }

/-- `sim_mem_pct`: the simulated memory usage in percent, `0` on a node without memory. -/
def simMemPct (memTotal simMemUsed : U64) : F32 :=
  if memTotal > 0 then
    fl.div (fl.mul oneHundred (fl.ofU64 simMemUsed)) (fl.ofU64 memTotal)
  else 0

variable (config : ThresholdPolicyConfig)

/-- The guard on the load. -/
def withinCpuThreshold (simCpu : F32) : Bool :=
  fl.lt simCpu config.cpuThresholdPercent

/-- The guard on the memory. -/
def withinMemThreshold (memTotal simMemUsed : U64) : Bool :=
  fl.lt (simMemPct fl memTotal simMemUsed) config.memoryThresholdPercent

/-- Whether the local node is under both thresholds and has the memory; the subtraction is the
code's unsigned one. -/
def withinThresholds (localNode : ResourceSnapshot) (s : ThresholdState) (profile : TaskProfile)
    : Bool :=
  withinCpuThreshold fl config s.simCpu &&
    withinMemThreshold fl config localNode.memoryTotalBytes s.simMemUsed &&
    decide (localNode.memoryTotalBytes - s.simMemUsed ≥ profile.memoryBytes)

/-- The loop body for one task id. -/
def thresholdAssign (dag : WorkloadDAG) (localNode : ResourceSnapshot) (s : ThresholdState)
    (taskId : TaskId) : ThresholdState :=
  match dag.getTask taskId with
  | none => s
  | some task =>
    if withinThresholds fl config localNode s task.profile then
      { s with
        decisions := s.decisions ++ [⟨taskId, localNode.nodeId, .localCapacity⟩]
        localCompute := s.localCompute + task.profile.computeCost
        simMemUsed := s.simMemUsed + task.profile.memoryBytes
        simCpu :=
          fl.min (fl.add s.simCpu (fl.mul (fl.ofI64 task.profile.computeCost) oneThousandth))
            oneHundred }
    else
      match s.peers[thresholdBest fl s.peers task.profile]? with
      | some peer =>
        { s with
          decisions := s.decisions ++ [⟨taskId, peer.id, .thresholdOffload⟩]
          peers := s.peers.modify (thresholdBest fl s.peers task.profile)
            (PeerState.charge fl task.profile) }
      | none =>
        { s with
          decisions := s.decisions ++ [⟨taskId, localNode.nodeId, .fallback⟩]
          localCompute := s.localCompute + task.profile.computeCost
          simMemUsed := s.simMemUsed + task.profile.memoryBytes }

/-- The loop over the topological order. -/
def thresholdWalk (h : HashOrders) (dag : WorkloadDAG) (localNode : ResourceSnapshot)
    (cluster : ClusterView) :
    ThresholdState :=
  (dag.topologicalOrder h).foldl (thresholdAssign fl config dag localNode)
    (thresholdInit localNode cluster)

/-- `ThresholdPolicy::schedule`. -/
def thresholdSchedule (h : HashOrders) (dag : WorkloadDAG) (localNode : ResourceSnapshot)
    (cluster : ClusterView) :
    SchedulingPlan :=
  let s := thresholdWalk fl config h dag localNode cluster
  { decisions := s.decisions
    estimatedMakespan :=
      max s.localCompute (s.peers.foldl (fun acc peer => max acc peer.assignedCompute) 0) }

/-! ## Every decision names a candidate -/

theorem map_id_thresholdPeers (localNode : ResourceSnapshot) (cluster : ClusterView) :
    localNode.nodeId :: (thresholdPeers cluster).map PeerState.id =
      candidateIds localNode cluster := by
  simp [thresholdPeers, candidateIds]

/-- The walk keeps the peer ids and appends one candidate decision per task. -/
theorem thresholdAssign_extends (dag : WorkloadDAG) (localNode : ResourceSnapshot)
    (cluster : ClusterView) (s : ThresholdState) (taskId : TaskId)
    (hpeers : localNode.nodeId :: s.peers.map PeerState.id = candidateIds localNode cluster) :
    localNode.nodeId ::
          (thresholdAssign fl config dag localNode s taskId).peers.map PeerState.id =
        candidateIds localNode cluster ∧
      Extends s.decisions (if (dag.getTask taskId).isSome then [taskId] else [])
        (candidateIds localNode cluster)
        (thresholdAssign fl config dag localNode s taskId).decisions := by
  have hlocal : localNode.nodeId ∈ candidateIds localNode cluster := List.mem_cons_self
  unfold thresholdAssign
  cases htask : dag.getTask taskId with
  | none => exact ⟨hpeers, Extends.refl _ _⟩
  | some task =>
    simp only [Option.isSome_some, if_true]
    split
    · exact ⟨hpeers, Extends.single s.decisions hlocal⟩
    · split
      · rename_i peer hpeer
        refine ⟨?_, Extends.single s.decisions ?_⟩
        · rw [map_modify_of_key_eq PeerState.id (PeerState.charge fl task.profile) fun _ => rfl]
          exact hpeers
        · rw [← hpeers]
          exact List.mem_cons_of_mem _
            (List.mem_map.2 ⟨peer, List.mem_of_getElem? hpeer, rfl⟩)
      · exact ⟨hpeers, Extends.single s.decisions hlocal⟩

/-- The threshold plan decides exactly the tasks of the topological order. -/
theorem thresholdSchedule_shape (h : HashOrders) (dag : WorkloadDAG) (localNode : ResourceSnapshot)
    (cluster : ClusterView) :
    PlanShape ((dag.topologicalOrder h).filter fun id => (dag.getTask id).isSome)
      (candidateIds localNode cluster)
      (thresholdSchedule fl config h dag localNode cluster) := by
  have hwalk := foldl_decides
    (fun s : ThresholdState =>
      localNode.nodeId :: s.peers.map PeerState.id = candidateIds localNode cluster)
    (fun id => (dag.getTask id).isSome) ThresholdState.decisions
    (fun s id hs => thresholdAssign_extends fl config dag localNode cluster s id hs)
    (s := thresholdInit localNode cluster)
    (map_id_thresholdPeers localNode cluster) (dag.topologicalOrder h)
  exact PlanShape.of_extends hwalk.2

end EdgeOrchestrator
