import EdgeOrchestrator.Library.Counting
import EdgeOrchestrator.Scheduler.OptimizerBudgets
import Mathlib.Algebra.Order.Group.Int

/-!
# Memory promised to a node

No policy promises a peer more memory than it has.  The local node is different:
it is the fallback when nothing fits, and the optimizer pins the critical path to
it without looking at memory.

Main results:

- `Policy.peer_memory_respected`: no policy overcommits a peer, and no counter kept for a peer
  wraps.
- `optimizer_local_memory_iff`: with one peer that could hold everything and costs that add up
  to less than `2 ^ 63 - 1`, the optimizer respects the memory of the local node for every
  choice of draws exactly when the tasks it pins fit there.
-/

namespace EdgeOrchestrator

/-! ## No peer is overcommitted -/

namespace Policy

/-- The loops of a policy in which counters are changed: every addition and
subtraction on a peer's counter is exact. -/
def CountersExact (env : SchedulerEnv) (policy : Policy) (dag : WorkloadDAG)
    (localNode : ResourceSnapshot) (cluster : ClusterView) : Prop :=
  match policy with
  | .greedy =>
    ForLoop.Along (greedyExact env.floats dag) (greedyAssign env.floats dag localNode)
      { nodes := greedyNodes localNode cluster, decisions := [] }
      (dag.topologicalOrder env.hash)
  | .threshold config =>
    ForLoop.Along (thresholdExact env.floats config dag localNode)
      (thresholdAssign env.floats config dag localNode) (thresholdInit localNode cluster)
      (dag.topologicalOrder env.hash)
  | .optimizer config =>
    ForLoop.Along (accountExact dag) (accountDecision dag) (nodeBudgets localNode cluster)
      (criticalPathAssignment env.hash dag localNode).decisions ∧
    ForLoop.Along (packExact dag) (packTask dag localNode)
      (packInit env dag localNode cluster) (packQueue env dag localNode) ∧
    ForLoop.Along (replayExact dag (nodeIndex (nodeBudgets localNode cluster)))
      (replayDecision dag (nodeIndex (nodeBudgets localNode cluster)))
      (nodeBudgets localNode cluster, ∅) (packedPlan env dag localNode cluster).decisions ∧
    ForLoop.Along (searchExact env dag) (searchStep env config dag)
      (searchInit env config dag localNode cluster (packedPlan env dag localNode cluster))
      (List.range config.maxIterations)

variable {env : SchedulerEnv} {dag : WorkloadDAG} {localNode : ResourceSnapshot}
  {cluster : ClusterView}

/-- The budget of a reachable peer. -/
theorem exists_peer_budget (localNode : ResourceSnapshot) {peer : PeerInfo}
    (hpeer : peer ∈ reachablePeers cluster) :
    ∃ i budget, i ≠ 0 ∧ (nodeBudgets localNode cluster)[i]? = some budget ∧
      budget.id = peer.nodeId ∧
      budget.memoryCapacity = peer.resources.memoryAvailableBytes := by
  rcases List.getElem?_of_mem hpeer with ⟨i, hi⟩
  rw [reachablePeers] at hi
  refine ⟨i + 1, { id := peer.nodeId, memoryCapacity := peer.resources.memoryAvailableBytes },
    Nat.succ_ne_zero i, ?_, rfl, rfl⟩
  simp [nodeBudgets, hi]

/-- The optimizer's part: exact counters, and every peer within its memory. -/
theorem optimizer_bounded (env : SchedulerEnv) (config : OptimizerPolicyConfig)
    (dag : WorkloadDAG) (hdistinct : (candidateIds localNode cluster).Nodup) :
    CountersExact env (.optimizer config) dag localNode cluster ∧
      ∀ i budget, i ≠ 0 → (nodeBudgets localNode cluster)[i]? = some budget →
        memoryLoad dag (optimizerSchedule env config dag localNode cluster).decisions budget.id ≤
          budget.memoryCapacity.toNat := by
  rcases packing_bounded env dag hdistinct with ⟨haccount, hpack, hpacked⟩
  have hcandidates := (packedPlan_shape env dag localNode cluster).assigned
  have htracks := searchInit_tracks env config dag
    (packedPlan_nodup env dag localNode cluster) hcandidates
  rcases replay_bounded env config dag hdistinct hcandidates
    (fun i budget hi hbudget => (hpacked i budget hi hbudget).2) with ⟨hreplay, hstart⟩
  rcases search_bounded env config hdistinct htracks hstart
    (List.range config.maxIterations) with ⟨hsearch, hfinal⟩
  refine ⟨⟨haccount, hpack, hreplay, hsearch⟩, ?_⟩
  intro i budget hi hbudget
  have hbefore := (hpacked i budget hi hbudget).2
  change memoryLoad dag (localSearchImprove env config dag localNode cluster
    (packedPlan env dag localNode cluster)).decisions budget.id ≤ _
  rw [localSearchImprove_eq]
  split
  · exact hbefore
  · split
    · exact hbefore
    · exact (hfinal i budget hi hbudget).2

/-- Every policy names candidate nodes only, whatever the graph. -/
theorem schedule_assigned (policy : Policy) :
    ∀ d ∈ (policy.schedule env dag localNode cluster).decisions,
      d.assignedNode ∈ candidateIds localNode cluster := by
  cases policy with
  | greedy => exact (greedySchedule_shape env.floats env.hash dag localNode cluster).assigned
  | threshold config =>
    exact (thresholdSchedule_shape env.floats config env.hash dag localNode cluster).assigned
  | optimizer config => exact (localSearchImprove_shape env config
      (packedPlan_shape env dag localNode cluster)).assigned

/-- No policy assigns more memory to a peer than the peer has, and no counter that
is kept for a peer wraps.  An unreachable peer is assigned nothing; the second
alternative excludes entries that share the id of a candidate. -/
theorem peer_memory_respected (env : SchedulerEnv) (policy : Policy) (dag : WorkloadDAG)
    (localNode : ResourceSnapshot) (cluster : ClusterView)
    (hdistinct : (candidateIds localNode cluster).Nodup) :
    (∀ peer ∈ cluster.peers,
      (peer.reachable = true ∨ peer.nodeId ∉ candidateIds localNode cluster) →
      memoryLoad dag (policy.schedule env dag localNode cluster).decisions peer.nodeId ≤
        peer.resources.memoryAvailableBytes.toNat) ∧
    policy.CountersExact env dag localNode cluster := by
  have hreachable : (∀ peer ∈ reachablePeers cluster,
      memoryLoad dag (policy.schedule env dag localNode cluster).decisions peer.nodeId ≤
        peer.resources.memoryAvailableBytes.toNat) ∧
      policy.CountersExact env dag localNode cluster := by
    cases policy with
    | greedy =>
      have hwalk := greedyWalk_counts env.floats env.hash dag hdistinct
      exact ⟨fun peer hpeer => hwalk.2.load_le hpeer, hwalk.1⟩
    | threshold config =>
      have hwalk := thresholdWalk_counts env.floats config env.hash dag hdistinct
      exact ⟨fun peer hpeer => hwalk.2.load_le hpeer, hwalk.1⟩
    | optimizer config =>
      rcases optimizer_bounded env config dag hdistinct with ⟨hexact, hloads⟩
      refine ⟨?_, hexact⟩
      intro peer hpeer
      rcases exists_peer_budget localNode hpeer
        with ⟨i, budget, hi, hbudget, hid, hcapacity⟩
      rw [← hid, ← hcapacity]
      exact hloads i budget hi hbudget
  refine ⟨?_, hreachable.2⟩
  rintro peer hpeer (hup | hother)
  · exact hreachable.1 peer (List.mem_filter.2 ⟨hpeer, hup⟩)
  · rw [memoryLoad_eq_zero]
    · exact Nat.zero_le _
    · intro d hd heq
      exact hother (heq ▸ schedule_assigned policy d hd)

/-- A peer with 256 bytes. -/
def smallPeer : PeerInfo :=
  { nodeId := [112], resources := { nodeId := [112], memoryAvailableBytes := 256 } }

theorem peer_memory_respected_smallPeer :
    memoryLoad chainDag (Policy.schedule hostEnv .greedy chainDag { nodeId := [115] }
      ⟨[smallPeer]⟩).decisions smallPeer.nodeId ≤
        smallPeer.resources.memoryAvailableBytes.toNat := by
  have hdistinct : (candidateIds { nodeId := [115] } ⟨[smallPeer]⟩).Nodup := by decide
  exact (peer_memory_respected hostEnv .greedy chainDag { nodeId := [115] } ⟨[smallPeer]⟩
    hdistinct).1 smallPeer (List.mem_singleton.2 rfl) (Or.inl rfl)

end Policy

/-! ## The local node -/

/-- The positive compute costs of the listed tasks, added up exactly. -/
def costSum (dag : WorkloadDAG) (ids : List TaskId) : Int :=
  (ids.map fun id => max (dag.costOf id) 0).sum

/-- The tasks on the longest path that is traced back, in topological order. -/
def criticalTasks (h : HashOrders) (dag : WorkloadDAG) : List TaskId :=
  (dag.topologicalOrder h).filter fun id => id ∈ criticalSet h dag

/-- The entry of the local node. -/
def localBudget (localNode : ResourceSnapshot) : NodeBudget :=
  { id := localNode.nodeId, memoryCapacity := localNode.memoryAvailableBytes }

section LocalNode

variable {env : SchedulerEnv} {config : OptimizerPolicyConfig} {dag : WorkloadDAG}
  {localNode : ResourceSnapshot} {cluster : ClusterView} {h : HashOrders}

theorem memorySum_concat (ids : List TaskId) (id : TaskId) :
    memorySum dag (ids ++ [id]) = memorySum dag ids + (dag.memoryOf id).toNat := by
  simp [memorySum]

theorem costSum_concat (ids : List TaskId) (id : TaskId) :
    costSum dag (ids ++ [id]) = costSum dag ids + max (dag.costOf id) 0 := by
  simp [costSum]

/-- Distinct tasks weigh at most as much as all of them. -/
theorem memorySum_le (dag : WorkloadDAG) {ids all : List TaskId} (hnodup : ids.Nodup)
    (hsub : ids ⊆ all) : memorySum dag ids ≤ memorySum dag all :=
  Counting.sum_map_le_of_subset hnodup hsub fun _ _ => Nat.zero_le _

theorem costSum_le (dag : WorkloadDAG) {ids all : List TaskId} (hnodup : ids.Nodup)
    (hsub : ids ⊆ all) : costSum dag ids ≤ costSum dag all :=
  Counting.sum_map_le_of_subset hnodup hsub fun _ _ => le_max_right _ _

/-! ### What phase 1 pins stays -/

theorem memoryLoad_criticalPathAssignment (h : HashOrders) (dag : WorkloadDAG)
    (localNode : ResourceSnapshot) :
    memoryLoad dag (criticalPathAssignment h dag localNode).decisions localNode.nodeId =
      memorySum dag (criticalTasks h dag) := by
  have hall : (criticalPathAssignment h dag localNode).decisions.filter
      (fun d => d.assignedNode = localNode.nodeId) =
        (criticalPathAssignment h dag localNode).decisions := by
    apply List.filter_eq_self.2
    intro d hd
    simpa using criticalPathAssignment_local h dag localNode d hd
  have hids := taskIds_criticalPathAssignment h dag localNode
  rw [memoryLoad, assignedSum, hall, memorySum, criticalTasks, ← hids, SchedulingPlan.taskIds,
    List.map_map]
  rfl

/-- A round that draws the node on which the drawn task already is. -/
theorem searchStep_same {s : SearchState} {iter : Nat} {d : SchedulingDecision}
    (hd : s.decisions[env.draws.task iter % s.decisions.length]? = some d)
    (hsame : (dag.getTask d.taskId).isSome →
      s.assignment.lookup d.taskId = some (env.draws.node iter % s.nodes.length)) :
    searchStep env config dag s iter = s := by
  unfold searchStep searchRound
  rw [hd]
  cases htask : dag.getTask d.taskId with
  | none => simp only [htask]
  | some task =>
    have hlookup := hsame (by rw [htask]; rfl)
    have htouch : UnorderedMap.touch s.assignment d.taskId = s.assignment :=
      if_pos (UnorderedMap.mem_iff_lookup.2 ⟨_, hlookup⟩)
    have hsubscript : UnorderedMap.subscript s.assignment d.taskId =
        env.draws.node iter % s.nodes.length := by
      rw [UnorderedMap.subscript, hlookup]
      rfl
    simp only [htask, htouch, hsubscript, true_or, if_true]
    split
    · rfl
    · rfl

/-- Some draws leave the plan of phase 2 as it is. -/
theorem exists_draws_keeping (env : SchedulerEnv) (config : OptimizerPolicyConfig)
    (dag : WorkloadDAG) (localNode : ResourceSnapshot) (cluster : ClusterView) :
    ∃ draws, (optimizerSchedule { env with draws := draws } config dag localNode
      cluster).decisions = (packedPlan env dag localNode cluster).decisions := by
  set plan := packedPlan env dag localNode cluster with hplan
  have htracks : SearchTracks dag (candidateIds localNode cluster)
      (searchInit env config dag localNode cluster plan) :=
    searchInit_tracks env config dag (packedPlan_nodup env dag localNode cluster)
      (packedPlan_shape env dag localNode cluster).assigned
  -- Always draw the first decision, and the node its task starts on.
  have hfirst : ∃ f, ∀ d, plan.decisions[0]? = some d → (dag.getTask d.taskId).isSome →
      (searchInit env config dag localNode cluster plan).assignment.lookup d.taskId =
        some (f % (searchInit env config dag localNode cluster plan).nodes.length) := by
    cases hzero : plan.decisions[0]? with
    | none => exact ⟨0, fun d hd => absurd hd (by simp)⟩
    | some d =>
      by_cases hisTask : (dag.getTask d.taskId).isSome
      · rcases htracks.assigned d (List.mem_of_getElem? hzero) hisTask with ⟨f, hf, hname⟩
        refine ⟨f, ?_⟩
        intro d' hd' _
        cases hd'
        have hlt : f < (searchInit env config dag localNode cluster plan).nodes.length := by
          rw [← List.length_map (f := NodeBudget.id), htracks.nodes]
          exact (List.getElem?_eq_some_iff.1 hname).1
        rw [hf, Nat.mod_eq_of_lt hlt]
      · refine ⟨0, ?_⟩
        intro d' hd' hisTask'
        cases hd'
        exact absurd hisTask' hisTask
  rcases hfirst with ⟨f, hf⟩
  refine ⟨⟨fun _ => 0, fun _ => f⟩, ?_⟩
  change (localSearchImprove _ config dag localNode cluster plan).decisions = plan.decisions
  rw [localSearchImprove_eq]
  split
  · rfl
  · rename_i htwo
    split
    · rfl
    · have hstays : (List.range config.maxIterations).foldl
          (searchStep { env with draws := ⟨fun _ => 0, fun _ => f⟩ } config dag)
          (searchInit env config dag localNode cluster plan) =
            searchInit env config dag localNode cluster plan := by
        refine List.foldlRecOn (motive := fun s => s =
          searchInit env config dag localNode cluster plan) _ _ rfl ?_
        rintro s rfl iter _
        have hpos : 0 < plan.decisions.length := by omega
        apply searchStep_same (d := plan.decisions[0])
        · change plan.decisions[0 % plan.decisions.length]? = _
          rw [Nat.zero_mod]
          exact List.getElem?_eq_getElem hpos
        · exact hf _ (List.getElem?_eq_getElem hpos)
      exact congrArg SearchState.decisions hstays

/-! ### With a large peer the fallback is not used -/

/-- What fits beside the used memory is not more than what `memory_remaining`
reports. -/
theorem le_memoryRemaining {node : NodeBudget} {memory : U64}
    (hroom : node.memoryUsed.toNat + memory.toNat ≤ node.memoryCapacity.toNat) :
    memory ≤ node.memoryRemaining := by
  apply BitVec.le_def.2
  unfold NodeBudget.memoryRemaining
  split
  · rename_i hgreater
    have hlt : node.memoryUsed.toNat < node.memoryCapacity.toNat := BitVec.lt_def.1 hgreater
    rw [BitVec.toNat_sub_of_le (BitVec.le_def.2 hlt.le)]
    omega
  · rename_i hfull
    have hle : node.memoryCapacity.toNat ≤ node.memoryUsed.toNat :=
      BitVec.le_def.1 (BitVec.not_lt.1 hfull)
    have hzero : memory.toNat = 0 := by omega
    rw [hzero]
    exact Nat.zero_le _

/-- If one node fits and is not at the limit of the search, some fitting node is
chosen and the fallback is not used. -/
theorem packBest_fits {nodes : List NodeBudget} {profile : TaskProfile} {node : NodeBudget}
    (hnode : node ∈ nodes) (hfits : profile.memoryBytes ≤ node.memoryRemaining)
    (hcompute : node.assignedCompute < (2 ^ 63 - 1 : Int)) :
    ∃ chosen, nodes[packBest nodes profile]? = some chosen ∧
      profile.memoryBytes ≤ chosen.memoryRemaining := by
  have hfound := ForLoop.foldl_found nodes.zipIdx
    (fun (best : Duration × Nat) (entry : NodeBudget × Nat) =>
      if entry.1.memoryRemaining ≥ profile.memoryBytes ∧ entry.1.assignedCompute < best.1 then
        (entry.1.assignedCompute, entry.2)
      else best)
    (2 ^ 63 - 1, nodes.length)
    (fun best => ∃ chosen, nodes[best.2]? = some chosen ∧
      profile.memoryBytes ≤ chosen.memoryRemaining) ?_ ?_ ?_
  · rcases hfound with ⟨chosen, hchosen, hroom⟩
    unfold packBest
    simp only
    rw [if_neg (not_le.2 (List.getElem?_eq_some_iff.1 hchosen).1)]
    exact ⟨chosen, hchosen, hroom⟩
  · intro best entry hentry hbest
    split
    · rename_i hpick
      exact ⟨entry.1, List.mk_mem_zipIdx_iff_getElem?.1 hentry, hpick.1⟩
    · exact hbest
  · intro entry hentry
    split
    · rename_i hpick
      exact Or.inr ⟨entry.1, List.mk_mem_zipIdx_iff_getElem?.1 hentry, hpick.1⟩
    · exact Or.inl rfl
  · rcases List.getElem?_of_mem hnode with ⟨j, hj⟩
    refine ⟨(node, j), List.mk_mem_zipIdx_iff_getElem?.2 hj, ?_⟩
    rw [if_pos ⟨hfits, hcompute⟩]
    exact ⟨node, hj, hfits⟩

/-- No node holds more than what has been decided, and capacities do not change. -/
structure NodesWithin (dag : WorkloadDAG) (capacities : List U64) (decided : List TaskId)
    (nodes : List NodeBudget) : Prop where
  capacities_eq : nodes.map NodeBudget.memoryCapacity = capacities
  memory_le : ∀ node ∈ nodes, node.memoryUsed.toNat ≤ memorySum dag decided
  cost_le : ∀ node ∈ nodes, node.assignedCompute ≤ costSum dag decided

theorem nodesWithin_nodeBudgets (dag : WorkloadDAG) (localNode : ResourceSnapshot)
    (cluster : ClusterView) :
    NodesWithin dag ((nodeBudgets localNode cluster).map NodeBudget.memoryCapacity) []
      (nodeBudgets localNode cluster) := by
  have hfresh : ∀ node ∈ nodeBudgets localNode cluster,
      node.memoryUsed = 0 ∧ node.assignedCompute = 0 := by
    intro node hnode
    rcases List.mem_cons.1 hnode with rfl | hnode
    · exact ⟨rfl, rfl⟩
    · rcases List.mem_map.1 hnode with ⟨peer, -, rfl⟩
      exact ⟨rfl, rfl⟩
  refine ⟨rfl, ?_, ?_⟩
  · intro node hnode
    rw [(hfresh node hnode).1]
    exact Nat.zero_le _
  · intro node hnode
    rw [(hfresh node hnode).2]
    exact le_refl _

theorem NodesWithin.assign {capacities : List U64} {decided : List TaskId}
    {nodes : List NodeBudget} (hnodes : NodesWithin dag capacities decided nodes) (j : Nat)
    {taskId : TaskId} {task : Task} (htask : dag.getTask taskId = some task)
    (hroom : memorySum dag (decided ++ [taskId]) < 2 ^ 64) :
    NodesWithin dag capacities (decided ++ [taskId])
      (nodes.modify j (NodeBudget.assign taskId task.profile)) := by
  have hmodified : ∀ node ∈ nodes.modify j (NodeBudget.assign taskId task.profile),
      ∃ old ∈ nodes, node = old ∨ node = old.assign taskId task.profile := by
    intro node hnode
    rcases List.getElem?_of_mem hnode with ⟨k, hk⟩
    rw [List.getElem?_modify] at hk
    rcases Option.map_eq_some_iff.1 hk with ⟨old, hold, rfl⟩
    refine ⟨old, List.mem_of_getElem? hold, ?_⟩
    split
    · exact Or.inr rfl
    · exact Or.inl rfl
  rw [memorySum_concat, memoryOf_of_getTask htask] at hroom
  refine ⟨?_, ?_, ?_⟩
  · rw [map_modify_of_key_eq NodeBudget.memoryCapacity (NodeBudget.assign taskId task.profile)
      fun _ => rfl]
    exact hnodes.capacities_eq
  · rw [memorySum_concat, memoryOf_of_getTask htask]
    intro node hnode
    rcases hmodified node hnode with ⟨old, hold, rfl | rfl⟩
    · exact (hnodes.memory_le _ hold).trans (Nat.le_add_right _ _)
    · have hle := hnodes.memory_le old hold
      change (old.memoryUsed + task.profile.memoryBytes).toNat ≤ _
      rw [BitVec.toNat_add, Nat.mod_eq_of_lt (by omega)]
      omega
  · rw [costSum_concat, WorkloadDAG.costOf_of_getTask htask]
    intro node hnode
    rcases hmodified node hnode with ⟨old, hold, rfl | rfl⟩
    · have hnonneg := le_max_right task.profile.computeCost 0
      exact (hnodes.cost_le _ hold).trans (le_add_of_nonneg_right hnonneg)
    · exact add_le_add (hnodes.cost_le old hold) (le_max_left _ _)

/-- Some reachable peer could hold the whole workload. -/
def Spacious (dag : WorkloadDAG) (cluster : ClusterView) : Prop :=
  ∃ peer ∈ reachablePeers cluster,
    memorySum dag dag.tasks.keys ≤ peer.resources.memoryAvailableBytes.toNat

theorem Spacious.memorySum_lt (hspace : Spacious dag cluster) {ids : List TaskId}
    (hnodup : ids.Nodup) (htasks : ∀ id ∈ ids, id ∈ dag.tasks) :
    memorySum dag ids < 2 ^ 64 := by
  rcases hspace with ⟨peer, -, hpeer⟩
  have hle : memorySum dag ids ≤ memorySum dag dag.tasks.keys :=
    memorySum_le dag hnodup fun id hid => AList.mem_keys.1 (htasks id hid)
  exact (hle.trans hpeer).trans_lt peer.resources.memoryAvailableBytes.isLt

/-- The next task goes to a node with room for it, as long as no sum of costs reaches the
value that the search for a node starts from. -/
theorem Spacious.packBest_fits (hspace : Spacious dag cluster)
    (hcosts : costSum dag dag.tasks.keys < 2 ^ 63 - 1) {decided : List TaskId}
    {nodes : List NodeBudget}
    (hnodes : NodesWithin dag ((nodeBudgets localNode cluster).map NodeBudget.memoryCapacity)
      decided nodes)
    {taskId : TaskId} {task : Task} (htask : dag.getTask taskId = some task)
    (hnodup : (decided ++ [taskId]).Nodup)
    (htasks : ∀ id ∈ decided ++ [taskId], id ∈ dag.tasks) :
    ∃ chosen, nodes[packBest nodes task.profile]? = some chosen ∧
      task.profile.memoryBytes ≤ chosen.memoryRemaining := by
  have hsub : decided ++ [taskId] ⊆ dag.tasks.keys := fun id hid => AList.mem_keys.1 (htasks id hid)
  rcases hspace with ⟨peer, hpeer, hcapacity⟩
  rcases Policy.exists_peer_budget localNode hpeer with ⟨i, budget, -, hbudget, -, hbytes⟩
  have hget : (nodes.map NodeBudget.memoryCapacity)[i]? = some budget.memoryCapacity := by
    rw [hnodes.capacities_eq, List.getElem?_map, hbudget]
    rfl
  rw [List.getElem?_map, Option.map_eq_some_iff] at hget
  rcases hget with ⟨node, hnode, hnodeCapacity⟩
  have hmem := List.mem_of_getElem? hnode
  apply EdgeOrchestrator.packBest_fits hmem
  · apply le_memoryRemaining
    have hused := hnodes.memory_le node hmem
    have htotal := (memorySum_le dag hnodup hsub).trans hcapacity
    rw [memorySum_concat, memoryOf_of_getTask htask] at htotal
    rw [hnodeCapacity, hbytes]
    omega
  · have hcost := hnodes.cost_le node hmem
    have hdecided : costSum dag decided ≤ costSum dag dag.tasks.keys :=
      costSum_le dag (List.Nodup.of_append_left hnodup)
        (List.Subset.trans (List.subset_append_left _ _) hsub)
    exact (hcost.trans hdecided).trans_lt hcosts

theorem owns_local (hlocal : localNode.nodeId ∉ (reachablePeers cluster).map PeerInfo.nodeId) :
    Owns (candidateIds localNode cluster) 0 localNode.nodeId := by
  intro j
  rw [candidateIds_eq]
  cases j with
  | zero => simp
  | succ j =>
    rw [List.getElem?_cons_succ]
    constructor
    · intro hj
      exact absurd (List.mem_of_getElem? hj) hlocal
    · intro hj
      cases hj

/-- After phase 1 has been accounted for, no node holds more than the pinned tasks. -/
theorem Spacious.packInit_within (hspace : Spacious dag cluster)
    (htopo : ∀ id ∈ dag.topologicalOrder env.hash, id ∈ dag.tasks) :
    NodesWithin dag ((nodeBudgets localNode cluster).map NodeBudget.memoryCapacity)
      (criticalTasks env.hash dag) (packInit env dag localNode cluster).nodes := by
  have hids := taskIds_criticalPathAssignment env.hash dag localNode
  have hwalk := (ForLoop.invariant (criticalPathAssignment env.hash dag localNode).decisions
    (accountDecision dag) (nodeBudgets localNode cluster) (P := fun _ _ => True)
    (I := fun before nodes => NodesWithin dag
      ((nodeBudgets localNode cluster).map NodeBudget.memoryCapacity)
      (before.map SchedulingDecision.taskId) nodes) ?_ ?_).2
  · have hcritical : (criticalPathAssignment env.hash dag localNode).decisions.map
        SchedulingDecision.taskId = criticalTasks env.hash dag := hids
    rw [hcritical] at hwalk
    exact hwalk
  · exact nodesWithin_nodeBudgets dag localNode cluster
  · intro before d after nodes hplan hnodes
    refine ⟨trivial, ?_⟩
    have hsub : List.Sublist (before.map SchedulingDecision.taskId ++ [d.taskId])
        (dag.topologicalOrder env.hash) := by
      have hprefix : List.Sublist (before.map SchedulingDecision.taskId ++ [d.taskId])
          (criticalPathAssignment env.hash dag localNode).taskIds := by
        rw [SchedulingPlan.taskIds, hplan, List.map_append, List.map_cons]
        exact (List.Sublist.refl _).append (List.singleton_sublist.2 List.mem_cons_self)
      rw [hids] at hprefix
      exact hprefix.trans List.filter_sublist
    have htasks : ∀ id ∈ before.map SchedulingDecision.taskId ++ [d.taskId], id ∈ dag.tasks :=
      fun id hid => htopo id (hsub.subset hid)
    have hroom := hspace.memorySum_lt ((dag.topologicalOrder_nodup env.hash).sublist hsub) htasks
    rcases WorkloadDAG.exists_getTask (htasks d.taskId (by simp)) with ⟨task, htask⟩
    simp only [accountDecision, htask, List.map_append, List.map_cons, List.map_nil]
    exact hnodes.assign _ htask hroom

/-- If phase 2 chooses the local node for the task, by the search or as the fallback, the
task fits there. -/
def FitsIfLocal (dag : WorkloadDAG) (s : PackState) (taskId : TaskId) : Prop :=
  ∀ task, dag.getTask taskId = some task → packBest s.nodes task.profile = 0 →
    ∀ node, s.nodes[0]? = some node → task.profile.memoryBytes ≤ node.memoryRemaining

/-- One task of phase 2: the local node stays within its memory iff it was and the task
fits if it is put there. -/
theorem packTask_local_le_iff {s : PackState}
    (hnodes : s.nodes.map NodeBudget.id = candidateIds localNode cluster)
    (howns : Owns (candidateIds localNode cluster) 0 (localBudget localNode).id)
    (hcharged : Charged dag 0 (localBudget localNode) s.decisions s.nodes) (taskId : TaskId) :
    memoryLoad dag (packTask dag localNode s taskId).decisions (localBudget localNode).id ≤
        (localBudget localNode).memoryCapacity.toNat ↔
      memoryLoad dag s.decisions (localBudget localNode).id ≤
          (localBudget localNode).memoryCapacity.toNat ∧ FitsIfLocal dag s taskId := by
  cases htask : dag.getTask taskId with
  | none => simp [packTask, FitsIfLocal, htask]
  | some task =>
    rw [memoryLoad_packTask hnodes howns htask]
    constructor
    · intro hafter
      have hload : memoryLoad dag s.decisions (localBudget localNode).id ≤
          (localBudget localNode).memoryCapacity.toNat := le_of_add_le_left hafter
      refine ⟨hload, ?_⟩
      intro task' htask' hbest node hnode
      cases htask.symm.trans htask'
      rw [if_pos hbest] at hafter
      apply le_memoryRemaining
      rw [hcharged.toNat_memoryUsed (hload.trans_lt (localBudget localNode).memoryCapacity.isLt)
        hnode, hcharged.capacity_eq hnode]
      exact hafter
    · rintro ⟨hload, hfits⟩
      split
      · rename_i hbest
        have hzero : (s.nodes.map NodeBudget.id)[0]? = some (localBudget localNode).id := by
          rw [hnodes]
          exact (howns 0).2 rfl
        rw [List.getElem?_map, Option.map_eq_some_iff] at hzero
        rcases hzero with ⟨node, hnode, -⟩
        exact (hcharged.add_le hload hnode (hfits task htask hbest node hnode)).2
      · exact hload

/-- The loop of phase 2, started anywhere. -/
theorem packTasks_local_le_iff
    (howns : Owns (candidateIds localNode cluster) 0 (localBudget localNode).id)
    (queue : List TaskId) (s : PackState)
    (hnodes : s.nodes.map NodeBudget.id = candidateIds localNode cluster)
    (hcharged : Charged dag 0 (localBudget localNode) s.decisions s.nodes) :
    memoryLoad dag (queue.foldl (packTask dag localNode) s).decisions (localBudget localNode).id ≤
        (localBudget localNode).memoryCapacity.toNat ↔
      memoryLoad dag s.decisions (localBudget localNode).id ≤
          (localBudget localNode).memoryCapacity.toNat ∧
        ForLoop.Along (FitsIfLocal dag) (packTask dag localNode) s queue := by
  induction queue generalizing s with
  | nil => simp [ForLoop.Along]
  | cons taskId queue ih =>
    rw [List.foldl_cons, ih _ (packTask_extends s taskId hnodes).1
      (packTask_charged hnodes howns hcharged taskId),
      packTask_local_le_iff hnodes howns hcharged, ForLoop.Along, and_assoc]

/-- Phase 2 keeps the local node within its memory iff the pinned tasks fit and every task
that it puts there fits. -/
theorem packedPlan_local_le_iff
    (hlocal : localNode.nodeId ∉ (reachablePeers cluster).map PeerInfo.nodeId) :
    memoryLoad dag (packedPlan env dag localNode cluster).decisions localNode.nodeId ≤
        localNode.memoryAvailableBytes.toNat ↔
      memorySum dag (criticalTasks env.hash dag) ≤ localNode.memoryAvailableBytes.toNat ∧
        ForLoop.Along (FitsIfLocal dag) (packTask dag localNode)
          (packInit env dag localNode cluster) (packQueue env dag localNode) := by
  have howns : Owns (candidateIds localNode cluster) 0 (localBudget localNode).id :=
    owns_local hlocal
  have hstart := (accountDecisions_charged dag
    (criticalPathAssignment_local env.hash dag localNode) howns rfl).2
  rw [← memoryLoad_criticalPathAssignment env.hash dag localNode]
  exact packTasks_local_le_iff howns (packQueue env dag localNode) _ hstart.1 hstart.2

/-- With a spacious peer and small costs the fallback is not used. -/
theorem Spacious.fitsIfLocal (hspace : Spacious dag cluster)
    (hcosts : costSum dag dag.tasks.keys < 2 ^ 63 - 1)
    (htopo : ∀ id ∈ dag.topologicalOrder env.hash, id ∈ dag.tasks) :
    ForLoop.Along (FitsIfLocal dag) (packTask dag localNode)
      (packInit env dag localNode cluster) (packQueue env dag localNode) := by
  refine (ForLoop.invariant (packQueue env dag localNode) (packTask dag localNode)
    (packInit env dag localNode cluster)
    (I := fun before s => NodesWithin dag
      ((nodeBudgets localNode cluster).map NodeBudget.memoryCapacity)
      (criticalTasks env.hash dag ++ before) s.nodes) ?_ ?_).1
  · rw [List.append_nil]
    exact hspace.packInit_within htopo
  · intro before taskId after s hqueue hwithin
    have hsub : List.Sublist (criticalTasks env.hash dag ++ before ++ [taskId])
        (criticalTasks env.hash dag ++ packQueue env dag localNode) := by
      rw [hqueue, List.append_assoc]
      apply (List.Sublist.refl _).append
      exact (List.Sublist.refl _).append (List.singleton_sublist.2 List.mem_cons_self)
    have hnodup := (pinned_append_packQueue_nodup env dag localNode).sublist hsub
    have htasks : ∀ id ∈ criticalTasks env.hash dag ++ before ++ [taskId], id ∈ dag.tasks := by
      intro id hid
      apply htopo
      rcases List.mem_append.1 (hsub.subset hid) with hpin | hpack
      · exact List.mem_of_mem_filter hpin
      · exact List.mem_of_mem_filter ((env.sort.perm _ _).mem_iff.1 hpack)
    rcases WorkloadDAG.exists_getTask (htasks taskId (by simp)) with ⟨task, htask⟩
    constructor
    · intro task' htask' hbest node hnode
      rcases hspace.packBest_fits hcosts hwithin htask' hnodup htasks with
        ⟨chosen, hchosen, hfits⟩
      rw [hbest, hnode] at hchosen
      cases hchosen
      exact hfits
    · have hroom := hspace.memorySum_lt hnodup htasks
      simp only [packTask, htask]
      rw [← List.append_assoc]
      exact hwithin.assign _ htask hroom

/-- Phase 3 never takes the local node above its memory. -/
theorem optimizer_local_le
    (hlocal : localNode.nodeId ∉ (reachablePeers cluster).map PeerInfo.nodeId)
    (hpacked : memoryLoad dag (packedPlan env dag localNode cluster).decisions
      localNode.nodeId ≤ localNode.memoryAvailableBytes.toNat) :
    memoryLoad dag (optimizerSchedule env config dag localNode cluster).decisions
      localNode.nodeId ≤ localNode.memoryAvailableBytes.toNat := by
  have howns : Owns (candidateIds localNode cluster) 0 (localBudget localNode).id :=
    owns_local hlocal
  have hcandidates := (packedPlan_shape env dag localNode cluster).assigned
  have hsearch := (ForLoop.invariant (List.range config.maxIterations)
    (searchStep env config dag)
    (searchInit env config dag localNode cluster (packedPlan env dag localNode cluster))
    (P := fun _ _ => True)
    (I := fun _ s => SearchTracks dag (candidateIds localNode cluster) s ∧
      Charged dag 0 (localBudget localNode) s.decisions s.nodes ∧
      memoryLoad dag s.decisions localNode.nodeId ≤ localNode.memoryAvailableBytes.toNat)
    ?_ ?_).2
  · change memoryLoad dag (localSearchImprove env config dag localNode cluster
      (packedPlan env dag localNode cluster)).decisions localNode.nodeId ≤ _
    rw [localSearchImprove_eq]
    split
    · exact hpacked
    · split
      · exact hpacked
      · exact hsearch.2.2
  · exact ⟨searchInit_tracks env config dag (packedPlan_nodup env dag localNode cluster)
      hcandidates, searchInit_charged hcandidates howns rfl, hpacked⟩
  · rintro _ iter _ s _ ⟨htracks, hcharged, hload⟩
    have hmove : SearchMove _ _ dag iter s (searchStep env config dag s iter) :=
      searchRound_cases _ _ htracks iter
    exact ⟨trivial, htracks.move hmove, hcharged.searchMove howns htracks hmove,
      memoryLoad_searchMove_le howns htracks hcharged hload hmove⟩

/-- Some draws keep the plan of phase 2, and no draws take the local node above its
memory. -/
theorem optimizer_local_le_iff (env : SchedulerEnv) (config : OptimizerPolicyConfig)
    (dag : WorkloadDAG) (localNode : ResourceSnapshot) (cluster : ClusterView)
    (hlocal : localNode.nodeId ∉ (reachablePeers cluster).map PeerInfo.nodeId) :
    (∀ draws, memoryLoad dag
        (optimizerSchedule { env with draws := draws } config dag localNode cluster).decisions
          localNode.nodeId ≤ localNode.memoryAvailableBytes.toNat) ↔
      memoryLoad dag (packedPlan env dag localNode cluster).decisions localNode.nodeId ≤
        localNode.memoryAvailableBytes.toNat := by
  constructor
  · intro hall
    rcases exists_draws_keeping env config dag localNode cluster with ⟨draws, hdraws⟩
    rw [← hdraws]
    exact hall draws
  · intro hpacked draws
    exact optimizer_local_le hlocal hpacked

end LocalNode

/-- A peer with 512 bytes. -/
def largePeer : PeerInfo :=
  { nodeId := [112], resources := { nodeId := [112], memoryAvailableBytes := 512 } }

/-- Two tasks with the largest cost and a byte each, and a third one of 100 bytes. -/
def costlyDag : WorkloadDAG :=
  WorkloadDAG.build
    [.addTask { id := [97], profile := { computeCost := 2 ^ 63 - 1, memoryBytes := 1 } },
      .addTask { id := [98], profile := { computeCost := 2 ^ 63 - 1, memoryBytes := 1 } },
      .addTask { id := [99], profile := { memoryBytes := 100 } }]

/-- The bound on the costs is needed: the pinned task fits, but no node is below the value
the search starts from when the last task is packed, and it falls back to the local node. -/
example :
    memorySum costlyDag (criticalTasks Policy.hostEnv.hash costlyDag) = 1 ∧
      memoryLoad costlyDag (optimizerSchedule Policy.hostEnv ⟨0, oneHundred⟩ costlyDag
        { nodeId := [115], memoryAvailableBytes := 1 } ⟨[largePeer]⟩).decisions [115] = 101 := by
  decide

end EdgeOrchestrator
