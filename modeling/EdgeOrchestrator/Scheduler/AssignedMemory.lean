import EdgeOrchestrator.Library.ForLoop
import EdgeOrchestrator.Scheduler.Policy
import EdgeOrchestrator.Workload.Metrics

/-!
# Memory assigned by the greedy and the threshold policy

Both policies keep a 64-bit counter of available memory per node and count it
down.  On a peer every charge is made after a comparison with the counter, so
what is left and what has been assigned always add up to what the peer had.

Main results:

- `CountsDown.keep` and `CountsDown.charge`: one more decision, for a node that is no peer and
  for a peer whose counter covers the task.
- `greedyWalk_counts` and `thresholdWalk_counts`: the counters of peers are exact throughout
  the two walks.
-/

namespace EdgeOrchestrator

/-! ## What a plan assigns to a node -/

/-- The sum of a quantity over the decisions for one node. -/
def assignedSum {M : Type*} [AddCommMonoid M] (quantity : TaskId → M)
    (decisions : List SchedulingDecision) (node : NodeId) : M :=
  ((decisions.filter fun d => d.assignedNode = node).map fun d => quantity d.taskId).sum

/-- The memory of the tasks a plan assigns to a node, added up exactly. -/
def memoryLoad (dag : WorkloadDAG) (decisions : List SchedulingDecision) (node : NodeId) : Nat :=
  assignedSum (fun id => (dag.memoryOf id).toNat) decisions node

/-- The memory of the listed tasks, added up exactly. -/
def memorySum (dag : WorkloadDAG) (ids : List TaskId) : Nat :=
  (ids.map fun id => (dag.memoryOf id).toNat).sum

/-- The peers that a policy considers. -/
def reachablePeers (cluster : ClusterView) : List PeerInfo :=
  cluster.peers.filter PeerInfo.reachable

section Sums

variable {M : Type*} [AddCommMonoid M] {quantity : TaskId → M}
  {decisions : List SchedulingDecision} {node : NodeId} {d : SchedulingDecision}

@[simp]
theorem assignedSum_nil : assignedSum quantity [] node = 0 :=
  rfl

theorem assignedSum_concat (decisions : List SchedulingDecision) (d : SchedulingDecision)
    (node : NodeId) :
    assignedSum quantity (decisions ++ [d]) node =
      assignedSum quantity decisions node +
        if d.assignedNode = node then quantity d.taskId else 0 := by
  unfold assignedSum
  rw [List.filter_append, List.map_append, List.sum_append]
  by_cases hnode : d.assignedNode = node
  · simp [hnode]
  · simp [hnode]

theorem memoryLoad_concat (dag : WorkloadDAG) (decisions : List SchedulingDecision)
    (d : SchedulingDecision) (node : NodeId) :
    memoryLoad dag (decisions ++ [d]) node =
      memoryLoad dag decisions node +
        if d.assignedNode = node then (dag.memoryOf d.taskId).toNat else 0 :=
  assignedSum_concat decisions d node

end Sums

theorem memoryOf_of_getTask {dag : WorkloadDAG} {id : TaskId} {task : Task}
    (htask : dag.getTask id = some task) : dag.memoryOf id = task.profile.memoryBytes := by
  rw [WorkloadDAG.memoryOf, htask]
  rfl

/-- The candidate ids are those of the local node and of the reachable peers. -/
theorem candidateIds_eq (localNode : ResourceSnapshot) (cluster : ClusterView) :
    candidateIds localNode cluster =
      localNode.nodeId :: (reachablePeers cluster).map PeerInfo.nodeId :=
  rfl

/-! ## Counting down -/

/-- What is left on every peer and what has been assigned to it add up to what it
had; `counter` gives the 64-bit counter kept for each reachable peer. -/
def CountsDown (dag : WorkloadDAG) (peers : List PeerInfo) (decisions : List SchedulingDecision)
    (counter : Nat → Option U64) : Prop :=
  ∀ i peer, peers[i]? = some peer → ∃ left, counter i = some left ∧
    left.toNat + memoryLoad dag decisions peer.nodeId =
      peer.resources.memoryAvailableBytes.toNat

section CountsDown

variable {dag : WorkloadDAG} {peers : List PeerInfo} {decisions : List SchedulingDecision}
  {counter counter' : Nat → Option U64} {d : SchedulingDecision}

theorem CountsDown.load_le (hcount : CountsDown dag peers decisions counter) {peer : PeerInfo}
    (hpeer : peer ∈ peers) :
    memoryLoad dag decisions peer.nodeId ≤ peer.resources.memoryAvailableBytes.toNat := by
  rcases List.getElem?_of_mem hpeer with ⟨i, hi⟩
  rcases hcount i peer hi with ⟨left, -, hsum⟩
  omega

/-- A decision for a node that is no peer. -/
theorem CountsDown.keep (hcount : CountsDown dag peers decisions counter)
    (hnode : d.assignedNode ∉ peers.map PeerInfo.nodeId) (hsame : ∀ i, counter' i = counter i) :
    CountsDown dag peers (decisions ++ [d]) counter' := by
  intro i peer hpeer
  have hne : d.assignedNode ≠ peer.nodeId := by
    intro heq
    exact hnode (heq ▸ List.mem_map_of_mem (List.mem_of_getElem? hpeer))
  rw [hsame, memoryLoad_concat, if_neg hne]
  exact hcount i peer hpeer

/-- A decision for a peer whose counter covers the task. -/
theorem CountsDown.charge (hcount : CountsDown dag peers decisions counter)
    (hdistinct : (peers.map PeerInfo.nodeId).Nodup) {j : Nat} {target : PeerInfo}
    (htarget : peers[j]? = some target) (hnode : d.assignedNode = target.nodeId) (left : U64)
    (hleft : counter j = some left) (hfits : dag.memoryOf d.taskId ≤ left)
    (hself : counter' j = some (left - dag.memoryOf d.taskId))
    (hother : ∀ i, i ≠ j → counter' i = counter i) :
    CountsDown dag peers (decisions ++ [d]) counter' := by
  intro i peer hpeer
  rw [memoryLoad_concat, hnode]
  by_cases hij : i = j
  · subst hij
    obtain rfl : target = peer := Option.some.inj (htarget.symm.trans hpeer)
    rcases hcount i target htarget with ⟨left', hleft', hsum⟩
    obtain rfl : left = left' := Option.some.inj (hleft.symm.trans hleft')
    refine ⟨_, hself, ?_⟩
    have hle : (dag.memoryOf d.taskId).toNat ≤ left.toNat := BitVec.le_def.1 hfits
    rw [if_pos rfl, BitVec.toNat_sub_of_le hfits]
    omega
  · have hne : target.nodeId ≠ peer.nodeId := by
      intro heq
      apply hij
      have hi : (peers.map PeerInfo.nodeId)[i]? = some peer.nodeId := by simp [hpeer]
      have hj : (peers.map PeerInfo.nodeId)[j]? = some peer.nodeId := by simp [htarget, heq]
      have hlt : i < (peers.map PeerInfo.nodeId).length :=
        (List.getElem?_eq_some_iff.1 hi).1
      exact (List.getElem?_inj hlt hdistinct).1 (hi.trans hj.symm)
    rw [hother i hij, if_neg hne]
    exact hcount i peer hpeer

end CountsDown

/-! ## Greedy -/

section Greedy

variable {fl : FloatOps} {dag : WorkloadDAG} {localNode : ResourceSnapshot}
  {cluster : ClusterView}

/-- The subtraction an iteration makes on a peer's counter does not wrap. -/
def greedyExact (fl : FloatOps) (dag : WorkloadDAG) (s : GreedyState) (taskId : TaskId) : Prop :=
  ∀ task, dag.getTask taskId = some task → greedyBest fl s.nodes task.profile ≠ 0 →
    ∀ node, s.nodes[greedyBest fl s.nodes task.profile]? = some node →
      task.profile.memoryBytes ≤ node.resources.memoryAvailableBytes

/-- The chosen node is the local one, or one that fits. -/
theorem greedyBest_spec (fl : FloatOps) (nodes : List GreedyNode) (profile : TaskProfile) :
    greedyBest fl nodes profile = 0 ∨ ∃ node,
      nodes[greedyBest fl nodes profile]? = some node ∧
        profile.memoryBytes ≤ node.resources.memoryAvailableBytes := by
  apply ForLoop.scan_spec
  intro best entry
  unfold considerNode
  split
  · exact Or.inl rfl
  · rename_i hfits
    simp only
    split
    · exact Or.inr ⟨rfl, BitVec.not_lt.1 hfits⟩
    · exact Or.inl rfl

theorem greedy_exact (s : GreedyState) (taskId : TaskId) : greedyExact fl dag s taskId := by
  intro task _ hne node hnode
  rcases greedyBest_spec fl s.nodes task.profile with hzero | ⟨node', hnode', hfits⟩
  · exact absurd hzero hne
  · rw [hnode] at hnode'
    cases hnode'
    exact hfits

/-- The counters of the greedy policy: the nodes after the local one. -/
def greedyCounter (s : GreedyState) (i : Nat) : Option U64 :=
  (s.nodes[i + 1]?).map fun node => node.resources.memoryAvailableBytes

theorem greedyAssign_counts (hdistinct : (candidateIds localNode cluster).Nodup)
    {s : GreedyState} (hnodes : s.nodes.map GreedyNode.id = candidateIds localNode cluster)
    (hcount : CountsDown dag (reachablePeers cluster) s.decisions (greedyCounter s))
    (taskId : TaskId) :
    CountsDown dag (reachablePeers cluster) (greedyAssign fl dag localNode s taskId).decisions
      (greedyCounter (greedyAssign fl dag localNode s taskId)) := by
  rw [candidateIds_eq, List.nodup_cons] at hdistinct
  cases htask : dag.getTask taskId with
  | none => simpa only [greedyAssign, htask] using hcount
  | some task =>
    have hbest := greedyBest_spec fl s.nodes task.profile
    have hmemory := memoryOf_of_getTask htask
    simp only [greedyAssign, htask]
    generalize greedyBest fl s.nodes task.profile = best at hbest ⊢
    cases best with
    | zero =>
      have hlocal : (s.nodes.getD 0 ⟨localNode.nodeId, localNode, 0⟩).id =
          localNode.nodeId := by
        cases hlist : s.nodes with
        | nil => rfl
        | cons first rest =>
          rw [hlist, candidateIds_eq, List.map_cons, List.cons.injEq] at hnodes
          exact hnodes.1
      apply hcount.keep
      · rw [hlocal]
        exact hdistinct.1
      · intro i
        simp [greedyCounter]
    | succ j =>
      rcases hbest with hzero | ⟨node, hnode, hfits⟩
      · cases hzero
      · have hid : ((reachablePeers cluster).map PeerInfo.nodeId)[j]? = some node.id := by
          have hget := congrArg (fun ids : List NodeId => ids[j + 1]?) hnodes
          simpa [hnode, candidateIds_eq] using hget.symm
        rw [List.getElem?_map, Option.map_eq_some_iff] at hid
        rcases hid with ⟨target, htarget, htargetId⟩
        refine hcount.charge hdistinct.2 htarget ?_
          node.resources.memoryAvailableBytes ?_ ?_ ?_ ?_
        · simp [List.getD_eq_getElem?_getD, hnode, htargetId]
        · simp [greedyCounter, hnode]
        · rw [hmemory]
          exact hfits
        · simp [greedyCounter, hnode, GreedyNode.charge, hmemory, hfits]
        · intro i hij
          simp [greedyCounter, Ne.symm hij]

/-- Every iteration of the greedy walk is exact on peers, and so is its result. -/
theorem greedyWalk_counts (fl : FloatOps) (h : HashOrders) (dag : WorkloadDAG)
    (hdistinct : (candidateIds localNode cluster).Nodup) :
    ForLoop.Along (greedyExact fl dag) (greedyAssign fl dag localNode)
        { nodes := greedyNodes localNode cluster, decisions := [] } (dag.topologicalOrder h) ∧
      CountsDown dag (reachablePeers cluster) (greedyWalk fl h dag localNode cluster).decisions
        (greedyCounter (greedyWalk fl h dag localNode cluster)) := by
  have hwalk := ForLoop.invariant (dag.topologicalOrder h) (greedyAssign fl dag localNode)
    { nodes := greedyNodes localNode cluster, decisions := [] }
    (P := greedyExact fl dag)
    (I := fun _ s => s.nodes.map GreedyNode.id = candidateIds localNode cluster ∧
      CountsDown dag (reachablePeers cluster) s.decisions (greedyCounter s)) ?_ ?_
  · exact ⟨hwalk.1, hwalk.2.2⟩
  · refine ⟨map_id_greedyNodes localNode cluster, ?_⟩
    intro i peer hpeer
    refine ⟨peer.resources.memoryAvailableBytes, ?_, rfl⟩
    rw [reachablePeers] at hpeer
    simp [greedyCounter, greedyNodes, hpeer]
  · intro _ taskId _ s _ hs
    exact ⟨greedy_exact s taskId, (greedyAssign_extends fl dag localNode cluster s taskId hs.1).1,
      greedyAssign_counts hdistinct hs.1 hs.2 taskId⟩

end Greedy

/-! ## Threshold -/

section Threshold

variable {fl : FloatOps} {config : ThresholdPolicyConfig} {dag : WorkloadDAG}
  {localNode : ResourceSnapshot} {cluster : ClusterView}

/-- The subtraction an iteration makes on a peer's counter does not wrap. -/
def thresholdExact (fl : FloatOps) (config : ThresholdPolicyConfig) (dag : WorkloadDAG)
    (localNode : ResourceSnapshot) (s : ThresholdState) (taskId : TaskId) : Prop :=
  ∀ task, dag.getTask taskId = some task →
    withinThresholds fl config localNode s task.profile = false →
    ∀ peer, s.peers[thresholdBest fl s.peers task.profile]? = some peer →
      task.profile.memoryBytes ≤ peer.memAvailable

/-- The chosen peer fits, if one was chosen. -/
theorem thresholdBest_spec (fl : FloatOps) (peers : List PeerState) (profile : TaskProfile)
    {peer : PeerState} (hpeer : peers[thresholdBest fl peers profile]? = some peer) :
    profile.memoryBytes ≤ peer.memAvailable := by
  have hscan := ForLoop.scan_spec (Q := fun peer : PeerState =>
    profile.memoryBytes ≤ peer.memAvailable) (considerPeer fl profile) ?_ peers
    (maxFloat, peers.length)
  · rcases hscan with hnone | ⟨peer', hpeer', hfits⟩
    · rw [thresholdBest, hnone] at hpeer
      simp at hpeer
    · rw [thresholdBest, hpeer'] at hpeer
      cases hpeer
      exact hfits
  · intro best entry
    unfold considerPeer
    split
    · rename_i hfits
      exact Or.inr ⟨rfl, hfits.1⟩
    · exact Or.inl rfl

theorem threshold_exact (s : ThresholdState) (taskId : TaskId) :
    thresholdExact fl config dag localNode s taskId := by
  intro task _ _ peer hpeer
  exact thresholdBest_spec fl s.peers task.profile hpeer

/-- The memory counter of a peer. -/
def thresholdCounter (s : ThresholdState) (i : Nat) : Option U64 :=
  (s.peers[i]?).map PeerState.memAvailable

theorem thresholdAssign_counts (hdistinct : (candidateIds localNode cluster).Nodup)
    {s : ThresholdState}
    (hpeers : localNode.nodeId :: s.peers.map PeerState.id = candidateIds localNode cluster)
    (hcount : CountsDown dag (reachablePeers cluster) s.decisions (thresholdCounter s))
    (taskId : TaskId) :
    CountsDown dag (reachablePeers cluster)
      (thresholdAssign fl config dag localNode s taskId).decisions
      (thresholdCounter (thresholdAssign fl config dag localNode s taskId)) := by
  rw [candidateIds_eq, List.nodup_cons] at hdistinct
  rw [candidateIds_eq, List.cons.injEq] at hpeers
  cases htask : dag.getTask taskId with
  | none => simpa only [thresholdAssign, htask] using hcount
  | some task =>
    have hmemory := memoryOf_of_getTask htask
    simp only [thresholdAssign, htask]
    split
    · exact hcount.keep hdistinct.1 fun i => rfl
    · split
      · rename_i peer hpeer
        have hfits := thresholdBest_spec fl s.peers task.profile hpeer
        generalize thresholdBest fl s.peers task.profile = best at hpeer ⊢
        have hid : ((reachablePeers cluster).map PeerInfo.nodeId)[best]? = some peer.id := by
          rw [← hpeers.2]
          simp [hpeer]
        rw [List.getElem?_map, Option.map_eq_some_iff] at hid
        rcases hid with ⟨target, htarget, htargetId⟩
        refine hcount.charge hdistinct.2 htarget htargetId.symm peer.memAvailable
          ?_ ?_ ?_ ?_
        · simp [thresholdCounter, hpeer]
        · rw [hmemory]
          exact hfits
        · simp [thresholdCounter, hpeer, PeerState.charge, hmemory]
        · intro i hij
          simp [thresholdCounter, Ne.symm hij]
      · exact hcount.keep hdistinct.1 fun i => rfl

/-- Every iteration of the threshold walk is exact on peers, and so is its result. -/
theorem thresholdWalk_counts (fl : FloatOps) (config : ThresholdPolicyConfig) (h : HashOrders)
    (dag : WorkloadDAG) (hdistinct : (candidateIds localNode cluster).Nodup) :
    ForLoop.Along (thresholdExact fl config dag localNode)
        (thresholdAssign fl config dag localNode) (thresholdInit localNode cluster)
        (dag.topologicalOrder h) ∧
      CountsDown dag (reachablePeers cluster)
        (thresholdWalk fl config h dag localNode cluster).decisions
        (thresholdCounter (thresholdWalk fl config h dag localNode cluster)) := by
  have hwalk := ForLoop.invariant (dag.topologicalOrder h)
    (thresholdAssign fl config dag localNode) (thresholdInit localNode cluster)
    (P := thresholdExact fl config dag localNode)
    (I := fun _ s => localNode.nodeId :: s.peers.map PeerState.id =
        candidateIds localNode cluster ∧
      CountsDown dag (reachablePeers cluster) s.decisions (thresholdCounter s)) ?_ ?_
  · exact ⟨hwalk.1, hwalk.2.2⟩
  · refine ⟨map_id_thresholdPeers localNode cluster, ?_⟩
    intro i peer hpeer
    refine ⟨peer.resources.memoryAvailableBytes, ?_, rfl⟩
    rw [reachablePeers] at hpeer
    simp [thresholdCounter, thresholdInit, thresholdPeers, hpeer]
  · intro _ taskId _ s _ hs
    exact ⟨threshold_exact s taskId,
      (thresholdAssign_extends fl config dag localNode cluster s taskId hs.1).1,
      thresholdAssign_counts hdistinct hs.1 hs.2 taskId⟩

end Threshold

end EdgeOrchestrator
