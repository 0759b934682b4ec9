import EdgeOrchestrator.Scheduler.AssignedMemory

/-!
# The optimizer's budgets

The optimizer counts used memory up.  Phase 2 charges the pinned tasks and then
every packed one, phase 3 rebuilds the budgets from the plan and moves tasks
between them, tentatively at first.  A budget whose id no other candidate carries
always shows the 64-bit sum of what the decisions assign to it; for a peer that
sum is exact, because a task comes to it only after `memory_remaining` has been
looked at.

Main results:

- `Charged.assign`, `Charged.move` and `Charged.revert`: one budget under the three changes of
  the policy.
- `packing_bounded`: phase 2 keeps every peer within its memory.
- `search_bounded`: so does phase 3, whatever is drawn.
-/

namespace EdgeOrchestrator

/-! ## Counting up: the optimizer's budgets -/

/-- Position `i` is the only one that carries the id `node`. -/
def Owns (ids : List NodeId) (i : Nat) (node : NodeId) : Prop :=
  ∀ j, ids[j]? = some node ↔ j = i

/-- The budget at position `i` has kept its id and capacity, and its used memory is
the 64-bit sum of what the decisions assign to it. -/
def Charged (dag : WorkloadDAG) (i : Nat) (budget : NodeBudget)
    (decisions : List SchedulingDecision) (nodes : List NodeBudget) : Prop :=
  ∃ node, nodes[i]? = some node ∧ node.id = budget.id ∧
    node.memoryCapacity = budget.memoryCapacity ∧
    node.memoryUsed = assignedSum dag.memoryOf decisions budget.id

section Budgets

variable {dag : WorkloadDAG} {ids : List NodeId} {i : Nat} {budget : NodeBudget}
  {decisions : List SchedulingDecision} {nodes : List NodeBudget} {d : SchedulingDecision}

theorem owns_of_nodup (hdistinct : ids.Nodup) {node : NodeId} (hnode : ids[i]? = some node) :
    Owns ids i node := by
  intro j
  constructor
  · intro hj
    have hlt : j < ids.length := (List.getElem?_eq_some_iff.1 hj).1
    exact (List.getElem?_inj hlt hdistinct).1 (hj.trans hnode.symm)
  · intro hji
    rw [hji]
    exact hnode

theorem toNat_assignedSum (dag : WorkloadDAG) (decisions : List SchedulingDecision)
    (node : NodeId) :
    (assignedSum dag.memoryOf decisions node).toNat = memoryLoad dag decisions node % 2 ^ 64 := by
  have hsum := WorkloadDAG.toNat_sum_map dag.memoryOf
    ((decisions.filter fun d => d.assignedNode = node).map SchedulingDecision.taskId)
  rw [List.map_map, List.map_map] at hsum
  exact hsum

/-- An exact sum that fits a word is what the counter shows. -/
theorem Charged.toNat_memoryUsed (hcharged : Charged dag i budget decisions nodes)
    (hload : memoryLoad dag decisions budget.id < 2 ^ 64) {node : NodeBudget}
    (hnode : nodes[i]? = some node) :
    node.memoryUsed.toNat = memoryLoad dag decisions budget.id := by
  rcases hcharged with ⟨node', hnode', -, -, hused⟩
  rw [hnode] at hnode'
  cases hnode'
  rw [hused, toNat_assignedSum, Nat.mod_eq_of_lt hload]

theorem Charged.capacity_eq (hcharged : Charged dag i budget decisions nodes) {node : NodeBudget}
    (hnode : nodes[i]? = some node) : node.memoryCapacity = budget.memoryCapacity := by
  rcases hcharged with ⟨node', hnode', -, hcapacity, -⟩
  rw [hnode] at hnode'
  cases hnode'
  exact hcapacity

/-- The memory that `memory_remaining` reports can be added to what is used. -/
theorem add_le_of_le_memoryRemaining {node : NodeBudget} {memory : U64}
    (hused : node.memoryUsed.toNat ≤ node.memoryCapacity.toNat)
    (hfits : memory ≤ node.memoryRemaining) :
    node.memoryUsed.toNat + memory.toNat ≤ node.memoryCapacity.toNat := by
  have hle : memory.toNat ≤ node.memoryRemaining.toNat := BitVec.le_def.1 hfits
  unfold NodeBudget.memoryRemaining at hle
  split at hle
  · rename_i hgreater
    have hlt : node.memoryUsed.toNat < node.memoryCapacity.toNat := BitVec.lt_def.1 hgreater
    rw [BitVec.toNat_sub_of_le (BitVec.le_def.2 hlt.le)] at hle
    omega
  · have hzero : memory.toNat ≤ 0 := hle
    omega

/-- A decision about an id that is no task charges nothing. -/
theorem Charged.skip (hcharged : Charged dag i budget decisions nodes)
    (htask : dag.getTask d.taskId = none) : Charged dag i budget (decisions ++ [d]) nodes := by
  rcases hcharged with ⟨node, hnode, hid, hcapacity, hused⟩
  refine ⟨node, hnode, hid, hcapacity, ?_⟩
  have hzero : dag.memoryOf d.taskId = 0 := by
    rw [WorkloadDAG.memoryOf, htask]
    rfl
  rw [hused, assignedSum_concat, hzero]
  simp

/-- Charging the node that a decision names. -/
theorem Charged.assign (hcharged : Charged dag i budget decisions nodes)
    (howns : Owns ids i budget.id) {j : Nat} (hnode : ids[j]? = some d.assignedNode) {task : Task}
    (htask : dag.getTask d.taskId = some task) :
    Charged dag i budget (decisions ++ [d])
      (nodes.modify j (NodeBudget.assign d.taskId task.profile)) := by
  rcases hcharged with ⟨node, hget, hid, hcapacity, hused⟩
  by_cases hji : j = i
  · have hassigned : d.assignedNode = budget.id := by
      have := (howns j).2 hji
      rw [hnode] at this
      exact Option.some.inj this
    refine ⟨node.assign d.taskId task.profile, ?_, hid, hcapacity, ?_⟩
    · rw [hji]
      simp [hget]
    · rw [assignedSum_concat, if_pos hassigned, ← hused, memoryOf_of_getTask htask]
      rfl
  · have hassigned : d.assignedNode ≠ budget.id := by
      intro heq
      exact hji ((howns j).1 (heq ▸ hnode))
    refine ⟨node, ?_, hid, hcapacity, ?_⟩
    · simp [hji, hget]
    · rw [assignedSum_concat, if_neg hassigned, hused, add_zero]

/-- The addition of a charge to the counter at position `j` does not wrap. -/
def chargeExact (nodes : List NodeBudget) (j : Nat) (memory : U64) : Prop :=
  j ≠ 0 → ∀ node, nodes[j]? = some node → node.memoryUsed.toNat + memory.toNat < 2 ^ 64

end Budgets

/-! ## Phase 2 -/

/-- The addition made when a decision of phase 1 is accounted for. -/
def accountExact (dag : WorkloadDAG) (nodes : List NodeBudget) (d : SchedulingDecision) : Prop :=
  ∀ task, dag.getTask d.taskId = some task →
    chargeExact nodes (nodes.findIdx fun node => node.id = d.assignedNode)
      task.profile.memoryBytes

/-- The addition made when a task is packed. -/
def packExact (dag : WorkloadDAG) (s : PackState) (taskId : TaskId) : Prop :=
  ∀ task, dag.getTask taskId = some task →
    chargeExact s.nodes (packBest s.nodes task.profile) task.profile.memoryBytes

section Packing

variable {env : SchedulerEnv} {dag : WorkloadDAG} {localNode : ResourceSnapshot}
  {cluster : ClusterView} {i : Nat} {budget : NodeBudget}

/-- The chosen node is the local one, or one that fits. -/
theorem packBest_spec (nodes : List NodeBudget) (profile : TaskProfile) :
    packBest nodes profile = 0 ∨ ∃ node, nodes[packBest nodes profile]? = some node ∧
      profile.memoryBytes ≤ node.memoryRemaining := by
  have hscan := ForLoop.scan_spec
    (Q := fun node : NodeBudget => profile.memoryBytes ≤ node.memoryRemaining)
    (fun (best : Duration × Nat) (entry : NodeBudget × Nat) =>
      if entry.1.memoryRemaining ≥ profile.memoryBytes ∧ entry.1.assignedCompute < best.1 then
        (entry.1.assignedCompute, entry.2)
      else best) ?_ nodes (2 ^ 63 - 1, nodes.length)
  · unfold packBest
    simp only
    split
    · exact Or.inl rfl
    · rename_i hlt
      rcases hscan with hnone | hfound
      · exact absurd hnone.ge hlt
      · exact Or.inr hfound
  · intro best entry
    split
    · rename_i hfits
      exact Or.inr ⟨rfl, hfits.1⟩
    · exact Or.inl rfl

variable {nodes : List NodeBudget}

theorem packBest_lt (hpos : 0 < nodes.length) (profile : TaskProfile) :
    packBest nodes profile < nodes.length := by
  unfold packBest
  simp only
  split
  · exact hpos
  · rename_i hlt
    exact not_le.1 hlt

/-- The node at the chosen position is the one the decision names. -/
theorem getElem?_packBest {s : PackState}
    (hnodes : s.nodes.map NodeBudget.id = candidateIds localNode cluster) (profile : TaskProfile) :
    (candidateIds localNode cluster)[packBest s.nodes profile]? =
      some (((s.nodes[packBest s.nodes profile]?).map NodeBudget.id).getD localNode.nodeId) := by
  have hpos : 0 < s.nodes.length := by
    rw [← List.length_map (f := NodeBudget.id), hnodes]
    exact Nat.succ_pos _
  rw [← hnodes, List.getElem?_map, List.getElem?_eq_getElem (packBest_lt hpos profile)]
  rfl

/-- The budgets before anything is charged. -/
theorem charged_nodeBudgets (hbudget : (nodeBudgets localNode cluster)[i]? = some budget) :
    Charged dag i budget [] (nodeBudgets localNode cluster) := by
  refine ⟨budget, hbudget, rfl, rfl, ?_⟩
  have hfresh : ∀ node ∈ nodeBudgets localNode cluster, node.memoryUsed = 0 := by
    intro node hnode
    rcases List.mem_cons.1 hnode with rfl | hnode
    · rfl
    · rcases List.mem_map.1 hnode with ⟨peer, -, rfl⟩
      rfl
  rw [hfresh budget (List.mem_of_getElem? hbudget), assignedSum_nil]

theorem getElem?_candidateIds (hbudget : (nodeBudgets localNode cluster)[i]? = some budget) :
    (candidateIds localNode cluster)[i]? = some budget.id := by
  rw [← map_id_nodeBudgets, List.getElem?_map, hbudget]
  rfl

/-- The first node that carries a candidate's id carries it. -/
theorem getElem?_findIdx {id : NodeId} (hmem : id ∈ nodes.map NodeBudget.id) :
    (nodes.map NodeBudget.id)[nodes.findIdx fun node => node.id = id]? = some id := by
  rcases List.mem_map.1 hmem with ⟨node, hnode, rfl⟩
  have hlt : nodes.findIdx (fun other => other.id = node.id) < nodes.length :=
    List.findIdx_lt_length_of_exists ⟨node, hnode, by simp⟩
  have hfound := List.findIdx_getElem (w := hlt)
  rw [List.getElem?_map, List.getElem?_eq_getElem hlt, Option.map_some, Option.some.injEq]
  simpa using hfound

/-- Accounting for the decisions of phase 1, all of which name the local node. -/
theorem accountDecisions_charged (dag : WorkloadDAG) {plan : SchedulingPlan}
    (hlocal : ∀ d ∈ plan.decisions, d.assignedNode = localNode.nodeId)
    (howns : Owns (candidateIds localNode cluster) i budget.id)
    (hbudget : (nodeBudgets localNode cluster)[i]? = some budget) :
    ForLoop.Along (accountExact dag) (accountDecision dag) (nodeBudgets localNode cluster)
        plan.decisions ∧
      (plan.decisions.foldl (accountDecision dag) (nodeBudgets localNode cluster)).map
        NodeBudget.id = candidateIds localNode cluster ∧
      Charged dag i budget plan.decisions
        (plan.decisions.foldl (accountDecision dag) (nodeBudgets localNode cluster)) := by
  refine ForLoop.invariant _ _ _
    (I := fun before nodes => nodes.map NodeBudget.id = candidateIds localNode cluster ∧
      Charged dag i budget before nodes) ?_ ?_
  · exact ⟨map_id_nodeBudgets localNode cluster, charged_nodeBudgets hbudget⟩
  · intro before d after nodes hplan hnodes
    have hname := hlocal d (hplan ▸ List.mem_append_right _ List.mem_cons_self)
    have hzero : nodes.findIdx (fun node => node.id = d.assignedNode) = 0 := by
      cases hlist : nodes with
      | nil => rfl
      | cons first rest =>
        have hfirst := hnodes.1
        rw [hlist, candidateIds_eq, List.map_cons, List.cons.injEq] at hfirst
        rw [List.findIdx_cons, hname, hfirst.1]
        simp
    refine ⟨?_, (accountDecision_ids nodes d).trans hnodes.1, ?_⟩
    · intro task _ hne
      exact absurd hzero hne
    · cases htask : dag.getTask d.taskId with
      | none =>
        simp only [accountDecision, htask]
        exact hnodes.2.skip htask
      | some task =>
        simp only [accountDecision, htask]
        refine hnodes.2.assign howns ?_ htask
        rw [← hnodes.1]
        apply getElem?_findIdx
        rw [hnodes.1, hname]
        exact List.mem_cons_self

/-- One packed task: the node that is charged is the node that is named. -/
theorem packTask_charged {s : PackState}
    (hnodes : s.nodes.map NodeBudget.id = candidateIds localNode cluster)
    (howns : Owns (candidateIds localNode cluster) i budget.id)
    (hcharged : Charged dag i budget s.decisions s.nodes) (taskId : TaskId) :
    Charged dag i budget (packTask dag localNode s taskId).decisions
      (packTask dag localNode s taskId).nodes := by
  cases htask : dag.getTask taskId with
  | none => simpa only [packTask, htask] using hcharged
  | some task =>
    simp only [packTask, htask]
    exact hcharged.assign howns (getElem?_packBest hnodes task.profile) htask

/-- What packing one task adds to the load of the node at position `i`. -/
theorem memoryLoad_packTask {s : PackState} {taskId : TaskId} {task : Task}
    (hnodes : s.nodes.map NodeBudget.id = candidateIds localNode cluster)
    (howns : Owns (candidateIds localNode cluster) i budget.id)
    (htask : dag.getTask taskId = some task) :
    memoryLoad dag (packTask dag localNode s taskId).decisions budget.id =
      memoryLoad dag s.decisions budget.id +
        if packBest s.nodes task.profile = i then task.profile.memoryBytes.toNat else 0 := by
  simp only [packTask, htask]
  rw [memoryLoad_concat, memoryOf_of_getTask htask]
  have hid := howns (packBest s.nodes task.profile)
  rw [getElem?_packBest hnodes, Option.some.injEq] at hid
  simp only [hid]

/-- The counter of every peer is exact and within the peer's memory. -/
def PeersBounded (dag : WorkloadDAG) (localNode : ResourceSnapshot) (cluster : ClusterView)
    (decisions : List SchedulingDecision) (nodes : List NodeBudget) : Prop :=
  ∀ i budget, i ≠ 0 → (nodeBudgets localNode cluster)[i]? = some budget →
    Charged dag i budget decisions nodes ∧
      memoryLoad dag decisions budget.id ≤ budget.memoryCapacity.toNat

/-- Adding a task that `memory_remaining` admits keeps a node within its memory. -/
theorem Charged.add_le {decisions : List SchedulingDecision} {nodes : List NodeBudget}
    (hcharged : Charged dag i budget decisions nodes)
    (hload : memoryLoad dag decisions budget.id ≤ budget.memoryCapacity.toNat)
    {node : NodeBudget} (hnode : nodes[i]? = some node) {memory : U64}
    (hfits : memory ≤ node.memoryRemaining) :
    node.memoryUsed.toNat = memoryLoad dag decisions budget.id ∧
      memoryLoad dag decisions budget.id + memory.toNat ≤ budget.memoryCapacity.toNat := by
  have hused := hcharged.toNat_memoryUsed (hload.trans_lt budget.memoryCapacity.isLt) hnode
  have hcapacity := hcharged.capacity_eq hnode
  have hadd := add_le_of_le_memoryRemaining (by rw [hused, hcapacity]; exact hload) hfits
  rw [hused, hcapacity] at hadd
  exact ⟨hused, hadd⟩

/-- The budgets have as many entries as there are nodes. -/
theorem exists_budget {node : NodeBudget}
    (hnodes : nodes.map NodeBudget.id = candidateIds localNode cluster)
    (hnode : nodes[i]? = some node) :
    ∃ budget, (nodeBudgets localNode cluster)[i]? = some budget := by
  have hlength : nodes.length = (nodeBudgets localNode cluster).length := by
    rw [← List.length_map (f := NodeBudget.id), hnodes, ← map_id_nodeBudgets, List.length_map]
  have hlt := (List.getElem?_eq_some_iff.1 hnode).1
  exact ⟨_, List.getElem?_eq_getElem (hlength ▸ hlt)⟩

theorem packTask_bounded (hdistinct : (candidateIds localNode cluster).Nodup) {s : PackState}
    (hnodes : s.nodes.map NodeBudget.id = candidateIds localNode cluster)
    (hbounded : PeersBounded dag localNode cluster s.decisions s.nodes) (taskId : TaskId) :
    packExact dag s taskId ∧
      PeersBounded dag localNode cluster (packTask dag localNode s taskId).decisions
        (packTask dag localNode s taskId).nodes := by
  have hfits : ∀ task : Task, ∀ j node budget, j ≠ 0 →
      packBest s.nodes task.profile = j → s.nodes[j]? = some node →
      (nodeBudgets localNode cluster)[j]? = some budget →
      node.memoryUsed.toNat = memoryLoad dag s.decisions budget.id ∧
        memoryLoad dag s.decisions budget.id + task.profile.memoryBytes.toNat ≤
          budget.memoryCapacity.toNat := by
    intro task j node budget hj hbest hnode hbudget
    rcases hbounded j budget hj hbudget with ⟨hcharged, hload⟩
    rcases packBest_spec s.nodes task.profile with hzero | ⟨node', hnode', hroom⟩
    · exact absurd (hbest.symm.trans hzero) hj
    · rw [hbest, hnode] at hnode'
      cases hnode'
      exact hcharged.add_le hload hnode hroom
  constructor
  · intro task _ hne node hnode
    rcases exists_budget hnodes hnode with ⟨budget, hbudget⟩
    rcases hfits task _ node budget hne rfl hnode hbudget with ⟨hused, hadd⟩
    rw [hused]
    exact hadd.trans_lt budget.memoryCapacity.isLt
  · intro i budget hi hbudget
    have howns := owns_of_nodup hdistinct (getElem?_candidateIds hbudget)
    rcases hbounded i budget hi hbudget with ⟨hcharged, hload⟩
    refine ⟨packTask_charged hnodes howns hcharged taskId, ?_⟩
    cases htask : dag.getTask taskId with
    | none => simpa only [packTask, htask] using hload
    | some task =>
      rw [memoryLoad_packTask hnodes howns htask]
      split
      · rename_i hbest
        rcases hcharged with ⟨node, hnode, -⟩
        exact (hfits task i node budget hi hbest hnode hbudget).2
      · exact hload

/-- The decisions of phase 1 name the local node only. -/
theorem criticalPathAssignment_local (h : HashOrders) (dag : WorkloadDAG)
    (localNode : ResourceSnapshot) :
    ∀ d ∈ (criticalPathAssignment h dag localNode).decisions,
      d.assignedNode = localNode.nodeId := by
  intro d hd
  unfold criticalPathAssignment at hd
  split at hd
  · cases hd
  · rcases List.mem_map.1 hd with ⟨id, -, rfl⟩
    rfl

/-- Decisions that name one node load no other. -/
theorem memoryLoad_eq_zero {decisions : List SchedulingDecision} {node : NodeId}
    (hother : ∀ d ∈ decisions, d.assignedNode ≠ node) : memoryLoad dag decisions node = 0 := by
  have hnil : (decisions.filter fun d => d.assignedNode = node) = [] := by
    apply List.filter_eq_nil_iff.2
    intro d hd
    simpa using hother d hd
  rw [memoryLoad, assignedSum, hnil]
  rfl

/-- The state in which packing starts. -/
def packInit (env : SchedulerEnv) (dag : WorkloadDAG) (localNode : ResourceSnapshot)
    (cluster : ClusterView) : PackState :=
  let plan := criticalPathAssignment env.hash dag localNode
  { nodes := plan.decisions.foldl (accountDecision dag) (nodeBudgets localNode cluster)
    decisions := plan.decisions }

/-- The tasks that phase 2 packs, in the order in which it does. -/
def packQueue (env : SchedulerEnv) (dag : WorkloadDAG) (localNode : ResourceSnapshot) :
    List TaskId :=
  env.sort.sort (costlier dag) ((dag.topologicalOrder env.hash).filter fun id =>
    id ∉ (criticalPathAssignment env.hash dag localNode).taskIds)

/-- The plan after phase 2. -/
def packedPlan (env : SchedulerEnv) (dag : WorkloadDAG) (localNode : ResourceSnapshot)
    (cluster : ClusterView) : SchedulingPlan :=
  binPackRemaining env dag localNode cluster (criticalPathAssignment env.hash dag localNode)

/-- After phase 2 every peer is within its memory. -/
theorem packing_bounded (env : SchedulerEnv) (dag : WorkloadDAG)
    (hdistinct : (candidateIds localNode cluster).Nodup) :
    ForLoop.Along (accountExact dag) (accountDecision dag) (nodeBudgets localNode cluster)
        (criticalPathAssignment env.hash dag localNode).decisions ∧
      ForLoop.Along (packExact dag) (packTask dag localNode)
        (packInit env dag localNode cluster) (packQueue env dag localNode) ∧
      PeersBounded dag localNode cluster (packedPlan env dag localNode cluster).decisions
        ((packQueue env dag localNode).foldl (packTask dag localNode)
          (packInit env dag localNode cluster)).nodes := by
  have hlocal := criticalPathAssignment_local env.hash dag localNode
  have hfirst : ∀ i budget, (nodeBudgets localNode cluster)[i]? = some budget → _ :=
    fun i budget hbudget => accountDecisions_charged dag hlocal
      (owns_of_nodup hdistinct (getElem?_candidateIds hbudget)) hbudget
  have hzero : (nodeBudgets localNode cluster)[0]? = some
      { id := localNode.nodeId, memoryCapacity := localNode.memoryAvailableBytes } :=
    rfl
  have hwalk := ForLoop.invariant (packQueue env dag localNode) (packTask dag localNode)
    (packInit env dag localNode cluster)
    (P := packExact dag)
    (I := fun _ s => s.nodes.map NodeBudget.id = candidateIds localNode cluster ∧
      PeersBounded dag localNode cluster s.decisions s.nodes) ?_ ?_
  · exact ⟨(hfirst 0 _ hzero).1, hwalk.1, hwalk.2.2⟩
  · refine ⟨(hfirst 0 _ hzero).2.1, ?_⟩
    intro i budget hi hbudget
    refine ⟨(hfirst i budget hbudget).2.2, ?_⟩
    have hnone : memoryLoad dag (criticalPathAssignment env.hash dag localNode).decisions
        budget.id = 0 := by
      apply memoryLoad_eq_zero
      intro d hd heq
      rw [hlocal d hd] at heq
      have howns := owns_of_nodup hdistinct (getElem?_candidateIds hbudget)
      exact hi ((howns 0).1 (by rw [← heq]; rfl)).symm
    rw [packInit, hnone]
    exact Nat.zero_le _
  · intro _ taskId _ s _ hs
    rcases packTask_bounded hdistinct hs.1 hs.2 taskId with ⟨hexact, hbounded⟩
    exact ⟨hexact, (packTask_extends s taskId hs.1).1, hbounded⟩

end Packing

/-! ## Phase 3 -/

/-- Moving one decision to another node moves its quantity. -/
theorem assignedSum_set {M : Type*} [AddCommMonoid M] (quantity : TaskId → M)
    {decisions : List SchedulingDecision} {k : Nat} {d : SchedulingDecision}
    (hd : decisions[k]? = some d) (target node : NodeId) :
    assignedSum quantity (decisions.set k { d with assignedNode := target }) node +
        (if d.assignedNode = node then quantity d.taskId else 0) =
      assignedSum quantity decisions node +
        if target = node then quantity d.taskId else 0 := by
  have hcons : ∀ (first : SchedulingDecision) (rest : List SchedulingDecision),
      assignedSum quantity (first :: rest) node =
        (if first.assignedNode = node then quantity first.taskId else 0) +
          assignedSum quantity rest node := by
    intro first rest
    unfold assignedSum
    rw [List.filter_cons]
    by_cases hfirst : first.assignedNode = node
    · simp [hfirst]
    · simp [hfirst]
  induction decisions generalizing k with
  | nil => simp at hd
  | cons first rest ih =>
    cases k with
    | zero =>
      obtain rfl : first = d := by simpa using hd
      rw [List.set_cons_zero, hcons, hcons]
      simp only
      ac_rfl
    | succ k =>
      rw [List.set_cons_succ, hcons, hcons, add_assoc, ih (by simpa using hd), add_assoc]

section Search

variable {env : SchedulerEnv} {config : OptimizerPolicyConfig} {dag : WorkloadDAG}
  {localNode : ResourceSnapshot} {cluster : ClusterView} {ids : List NodeId} {i : Nat}
  {budget : NodeBudget} {s t : SearchState} {draws : Draws}
  {estimate : Nat → UnorderedMap TaskId Nat → Duration} {iter : Nat}

/-- Budgets, assignment map and decisions are about the same nodes and tasks. -/
structure SearchTracks (dag : WorkloadDAG) (ids : List NodeId) (s : SearchState) : Prop where
  nodes : s.nodes.map NodeBudget.id = ids
  nodup : (s.decisions.map SchedulingDecision.taskId).Nodup
  assigned : ∀ d ∈ s.decisions, (dag.getTask d.taskId).isSome → ∃ j,
    s.assignment.lookup d.taskId = some j ∧ ids[j]? = some d.assignedNode

variable (nodes : List NodeBudget)

/-- The budgets after a task has moved from position `f` to position `j`. -/
def movedNodes (f j : Nat) (taskId : TaskId) (profile : TaskProfile) : List NodeBudget :=
  (nodes.modify f (NodeBudget.release taskId profile)).modify j
    (NodeBudget.assign taskId profile)

/-- The budgets after the move has been taken back. -/
def revertedNodes (f j : Nat) (taskId : TaskId) (profile : TaskProfile) : List NodeBudget :=
  ((movedNodes nodes f j taskId profile).modify j (NodeBudget.unassignLast profile)).modify f
    (NodeBudget.assign taskId profile)

/-- What one round can do, for any draws and any estimate: nothing, or a move of a drawn
task from its node `f` to a drawn node `j` with room for it, which is kept if it
lowers the makespan and taken back otherwise. -/
inductive SearchMove (draws : Draws) (estimate : Nat → UnorderedMap TaskId Nat → Duration)
    (dag : WorkloadDAG) (iter : Nat) (s : SearchState) : SearchState → Prop
  | stay : SearchMove draws estimate dag iter s s
  | accept {f j : Nat} {d : SchedulingDecision} {task : Task} {target : NodeBudget}
      (hd : s.decisions[draws.task iter % s.decisions.length]? = some d)
      (htask : dag.getTask d.taskId = some task)
      (hfrom : s.assignment.lookup d.taskId = some f) (htarget : s.nodes[j]? = some target)
      (hne : j ≠ f) (hfits : task.profile.memoryBytes ≤ target.memoryRemaining)
      (hbetter : estimate s.nodes.length (s.assignment.insert d.taskId j) < s.makespan) :
      SearchMove draws estimate dag iter s
        { nodes := movedNodes s.nodes f j d.taskId task.profile
          assignment := s.assignment.insert d.taskId j
          decisions := s.decisions.set (draws.task iter % s.decisions.length)
            { d with assignedNode := target.id }
          makespan := estimate s.nodes.length (s.assignment.insert d.taskId j) }
  | revert {f j : Nat} {d : SchedulingDecision} {task : Task}
      (hd : s.decisions[draws.task iter % s.decisions.length]? = some d)
      (htask : dag.getTask d.taskId = some task)
      (hfrom : s.assignment.lookup d.taskId = some f) (hne : j ≠ f) :
      SearchMove draws estimate dag iter s
        { s with
          nodes := revertedNodes s.nodes f j d.taskId task.profile
          assignment := (s.assignment.insert d.taskId j).insert d.taskId f }

/-- Every round is one of the three moves. -/
theorem searchRound_cases (draws : Draws)
    (estimate : Nat → UnorderedMap TaskId Nat → Duration) (hs : SearchTracks dag ids s)
    (iter : Nat) :
    SearchMove draws estimate dag iter s (searchRound draws estimate dag s iter) := by
  unfold searchRound
  split
  · exact .stay
  · rename_i d hd
    split
    · exact .stay
    · rename_i task htask
      -- The task has an entry in the assignment map, so reading it adds none.
      rcases hs.assigned d (List.mem_of_getElem? hd) (by rw [htask]; rfl) with ⟨f, hfrom, -⟩
      have htouch : UnorderedMap.touch s.assignment d.taskId = s.assignment :=
        if_pos (UnorderedMap.mem_iff_lookup.2 ⟨f, hfrom⟩)
      have hsubscript : UnorderedMap.subscript s.assignment d.taskId = f := by
        rw [UnorderedMap.subscript, hfrom]
        rfl
      simp only [htouch, hsubscript]
      split
      · exact .stay
      · rename_i target htarget
        split
        · exact .stay
        · rename_i hgo
          rw [not_or, BitVec.not_lt] at hgo
          split
          · rename_i hbetter
            exact .accept hd htask hfrom htarget hgo.1 hgo.2 hbetter
          · exact .revert hd htask hfrom hgo.1

/-- The node that the assignment map names for a task is the one its decision names. -/
theorem SearchTracks.source (hs : SearchTracks dag ids s) {k f : Nat} {d : SchedulingDecision}
    {task : Task} (hd : s.decisions[k]? = some d) (htask : dag.getTask d.taskId = some task)
    (hfrom : s.assignment.lookup d.taskId = some f) : ids[f]? = some d.assignedNode := by
  rcases hs.assigned d (List.mem_of_getElem? hd) (by rw [htask]; rfl) with ⟨i, hi, hsource⟩
  rw [hfrom] at hi
  cases hi
  exact hsource

/-- A move re-charges exactly the two nodes it names. -/
theorem Charged.move {decisions : List SchedulingDecision} {nodes : List NodeBudget}
    (hcharged : Charged dag i budget decisions nodes) (howns : Owns ids i budget.id)
    {k f j : Nat} {d : SchedulingDecision} {task : Task} {target : NodeId}
    (hd : decisions[k]? = some d) (htask : dag.getTask d.taskId = some task)
    (hsource : ids[f]? = some d.assignedNode) (htarget : ids[j]? = some target) (hne : j ≠ f) :
    Charged dag i budget (decisions.set k { d with assignedNode := target })
      (movedNodes nodes f j d.taskId task.profile) := by
  rcases hcharged with ⟨node, hget, hid, hcapacity, hused⟩
  have hsum := assignedSum_set dag.memoryOf hd target budget.id
  rw [← hused, memoryOf_of_getTask htask] at hsum
  have hfrom : d.assignedNode = budget.id ↔ f = i := by
    rw [← howns f, hsource, Option.some.injEq]
  have hto : target = budget.id ↔ j = i := by
    rw [← howns j, htarget, Option.some.injEq]
  simp only [hfrom, hto] at hsum
  unfold movedNodes
  by_cases hfi : f = i
  · have hji : j ≠ i := fun heq => hne (heq.trans hfi.symm)
    refine ⟨node.release d.taskId task.profile, ?_, hid, hcapacity, ?_⟩
    · simp [hfi, hji, hget]
    · rw [if_pos hfi, if_neg hji, add_zero] at hsum
      rw [← eq_sub_iff_add_eq] at hsum
      exact hsum.symm
  · by_cases hji : j = i
    · refine ⟨node.assign d.taskId task.profile, ?_, hid, hcapacity, ?_⟩
      · simp [hfi, hji, hget]
      · rw [if_neg hfi, if_pos hji, add_zero] at hsum
        exact hsum.symm
    · refine ⟨node, ?_, hid, hcapacity, ?_⟩
      · simp [hfi, hji, hget]
      · rw [if_neg hfi, if_neg hji, add_zero, add_zero] at hsum
        exact hsum.symm

/-- Taking a move back restores the counters. -/
theorem Charged.revert {decisions : List SchedulingDecision} {nodes : List NodeBudget}
    (hcharged : Charged dag i budget decisions nodes) {f j : Nat} (hne : j ≠ f) (taskId : TaskId)
    (profile : TaskProfile) :
    Charged dag i budget decisions (revertedNodes nodes f j taskId profile) := by
  rcases hcharged with ⟨node, hget, hid, hcapacity, hused⟩
  unfold revertedNodes movedNodes
  by_cases hfi : f = i
  · have hji : j ≠ i := fun heq => hne (heq.trans hfi.symm)
    refine ⟨(node.release taskId profile).assign taskId profile, ?_, hid, hcapacity, ?_⟩
    · simp [hfi, hji, hget]
    · rw [← hused]
      exact sub_add_cancel _ _
  · by_cases hji : j = i
    · refine ⟨(node.assign taskId profile).unassignLast profile, ?_, hid, hcapacity, ?_⟩
      · simp [hfi, hji, hget]
      · rw [← hused]
        exact add_sub_cancel_right _ _
    · exact ⟨node, by simp [hfi, hji, hget], hid, hcapacity, hused⟩

theorem map_id_movedNodes (f j : Nat) (taskId : TaskId) (profile : TaskProfile) :
    (movedNodes nodes f j taskId profile).map NodeBudget.id = nodes.map NodeBudget.id := by
  simp [movedNodes]

/-- The decisions still name their tasks, and the assignment map their nodes. -/
theorem SearchTracks.move (hs : SearchTracks dag ids s)
    (hmove : SearchMove draws estimate dag iter s t) :
    SearchTracks dag ids t := by
  cases hmove with
  | stay => exact hs
  | @accept f j d task target hd htask hfrom htarget hne hfits hbetter =>
    have htargetId : ids[j]? = some target.id := by
      rw [← hs.nodes, List.getElem?_map, htarget]
      rfl
    generalize draws.task iter % s.decisions.length = k at hd ⊢
    have hids : (s.decisions.set k { d with assignedNode := target.id }).map
        SchedulingDecision.taskId = s.decisions.map SchedulingDecision.taskId := by
      have hk : (s.decisions.map SchedulingDecision.taskId)[k]? = some d.taskId := by
        simp [hd]
      rcases List.getElem?_eq_some_iff.1 hk with ⟨hlt, hget⟩
      rw [List.map_set, ← hget]
      exact List.set_getElem_self hlt
    refine ⟨(map_id_movedNodes ..).trans hs.nodes, ?_, ?_⟩
    · rw [hids]
      exact hs.nodup
    · intro other hother hisTask
      rw [UnorderedMap.lookup_insert_eq]
      by_cases hsame : other.taskId = d.taskId
      · -- Ids are distinct, so this is the decision that moved.
        have hmoved : ({ d with assignedNode := target.id } : SchedulingDecision) ∈
            s.decisions.set k { d with assignedNode := target.id } :=
          List.mem_set (List.getElem?_eq_some_iff.1 hd).1 _
        have hnodup : ((s.decisions.set k { d with assignedNode := target.id }).map
            SchedulingDecision.taskId).Nodup := hids ▸ hs.nodup
        rw [List.inj_on_of_nodup_map hnodup hother hmoved hsame]
        exact ⟨j, by simp, htargetId⟩
      · rw [if_neg hsame]
        rcases List.mem_or_eq_of_mem_set hother with hold | rfl
        · exact hs.assigned other hold hisTask
        · exact absurd rfl hsame
  | @revert f j d task hd htask hfrom hne =>
    refine ⟨?_, hs.nodup, ?_⟩
    · simp only [revertedNodes, map_id_modify_assign, map_id_modify_unassignLast,
        map_id_movedNodes]
      exact hs.nodes
    · intro other hother hisTask
      rw [UnorderedMap.lookup_insert_eq, UnorderedMap.lookup_insert_eq]
      rcases hs.assigned other hother hisTask with ⟨k, hk, hname⟩
      by_cases hsame : other.taskId = d.taskId
      · rw [hsame, hfrom] at hk
        cases hk
        exact ⟨f, by simp [hsame], hname⟩
      · exact ⟨k, by simp [hsame, hk], hname⟩

theorem Charged.searchMove (hcharged : Charged dag i budget s.decisions s.nodes)
    (howns : Owns ids i budget.id) (hs : SearchTracks dag ids s)
    (hmove : SearchMove draws estimate dag iter s t) :
    Charged dag i budget t.decisions t.nodes := by
  cases hmove with
  | stay => exact hcharged
  | accept hd htask hfrom htarget hne hfits hbetter =>
    refine hcharged.move howns hd htask (hs.source hd htask hfrom) ?_ hne
    rw [← hs.nodes, List.getElem?_map, htarget]
    rfl
  | revert hd htask hfrom hne => exact hcharged.revert hne _ _

/-- A round never takes a node above its memory. -/
theorem memoryLoad_searchMove_le (howns : Owns ids i budget.id) (hs : SearchTracks dag ids s)
    (hcharged : Charged dag i budget s.decisions s.nodes)
    (hload : memoryLoad dag s.decisions budget.id ≤ budget.memoryCapacity.toNat)
    (hmove : SearchMove draws estimate dag iter s t) :
    memoryLoad dag t.decisions budget.id ≤ budget.memoryCapacity.toNat := by
  cases hmove with
  | stay | revert => exact hload
  | @accept f j d task target hd htask hfrom htarget hne hfits hbetter =>
    have hsum := assignedSum_set (fun id => (dag.memoryOf id).toNat) hd target.id
      budget.id
    change memoryLoad dag _ _ + _ = memoryLoad dag _ _ + _ at hsum
    rw [memoryOf_of_getTask htask] at hsum
    change memoryLoad dag (s.decisions.set _ _) budget.id ≤ _
    by_cases hto : target.id = budget.id
    · have hji : j = i := by
        apply (howns j).1
        rw [← hs.nodes, List.getElem?_map, htarget, ← hto]
        rfl
      subst hji
      have hadd := (hcharged.add_le hload htarget hfits).2
      rw [if_pos hto] at hsum
      omega
    · rw [if_neg hto] at hsum
      omega

/-! ## The state in which the search starts -/

theorem lookup_nodeIndex {nodes : List NodeBudget} {id : NodeId} {j : Nat}
    (hlookup : (nodeIndex nodes).lookup id = some j) :
    (nodes.map NodeBudget.id)[j]? = some id := by
  have hall : ∀ id j, (nodeIndex nodes).lookup id = some j →
      (nodes.map NodeBudget.id)[j]? = some id := by
    refine List.foldlRecOn (motive := fun index : UnorderedMap NodeId Nat =>
      ∀ id j, index.lookup id = some j → (nodes.map NodeBudget.id)[j]? = some id) _ _ ?_ ?_
    · intro id j hnone
      cases hnone
    · intro index hindex entry hentry id j hid
      rw [UnorderedMap.lookup_insert_eq] at hid
      split at hid
      · rename_i hsame
        cases hid
        have hget := List.mk_mem_zipIdx_iff_getElem?.1 hentry
        rw [List.getElem?_map, hget, hsame]
        rfl
      · exact hindex id j hid
  exact hall id j hlookup

theorem mem_nodeIndex {nodes : List NodeBudget} {id : NodeId}
    (hmem : id ∈ nodes.map NodeBudget.id) : id ∈ nodeIndex nodes := by
  have hall : ∀ (entries : List (NodeBudget × Nat)) (index : UnorderedMap NodeId Nat),
      (id ∈ index ∨ ∃ entry ∈ entries, entry.1.id = id) →
        id ∈ entries.foldl (fun index entry => index.insert entry.1.id entry.2) index := by
    intro entries
    induction entries with
    | nil =>
      rintro index (hold | ⟨entry, hentry, -⟩)
      · exact hold
      · cases hentry
    | cons first entries ih =>
      intro index hid
      rw [List.foldl_cons]
      apply ih
      rw [AList.mem_insert]
      rcases hid with hold | ⟨entry, hentry, hname⟩
      · exact Or.inl (Or.inr hold)
      · rcases List.mem_cons.1 hentry with rfl | hentry
        · exact Or.inl (Or.inl hname.symm)
        · exact Or.inr ⟨entry, hentry, hname⟩
  apply hall
  right
  rcases List.mem_map.1 hmem with ⟨node, hnode, hname⟩
  rcases List.getElem?_of_mem hnode with ⟨j, hj⟩
  exact ⟨(node, j), List.mk_mem_zipIdx_iff_getElem?.2 hj, hname⟩

/-- The addition made when a decision is replayed. -/
def replayExact (dag : WorkloadDAG) (index : UnorderedMap NodeId Nat)
    (s : List NodeBudget × UnorderedMap TaskId Nat) (d : SchedulingDecision) : Prop :=
  ∀ task idx, dag.getTask d.taskId = some task → index.lookup d.assignedNode = some idx →
    chargeExact s.1 idx task.profile.memoryBytes

/-- Replaying one decision charges the node that it names. -/
theorem replayDecision_charged {before : List SchedulingDecision}
    {state : List NodeBudget × UnorderedMap TaskId Nat} {d : SchedulingDecision}
    (hcandidate : d.assignedNode ∈ candidateIds localNode cluster)
    (howns : Owns (candidateIds localNode cluster) i budget.id)
    (hcharged : Charged dag i budget before state.1) :
    Charged dag i budget (before ++ [d])
      (replayDecision dag (nodeIndex (nodeBudgets localNode cluster)) state d).1 := by
  rw [← map_id_nodeBudgets] at hcandidate
  rcases UnorderedMap.mem_iff_lookup.1 (mem_nodeIndex hcandidate) with ⟨j, hj⟩
  have hname := lookup_nodeIndex hj
  rw [map_id_nodeBudgets] at hname
  cases htask : dag.getTask d.taskId with
  | none =>
    simp only [replayDecision, htask]
    exact hcharged.skip htask
  | some task =>
    simp only [replayDecision, htask, hj]
    exact hcharged.assign howns hname htask

variable {plan : SchedulingPlan}

/-- Replaying the plan rebuilds the assignment map of its tasks. -/
theorem searchStart_tracks (estimate : Nat → UnorderedMap TaskId Nat → Duration) (dag : WorkloadDAG)
    (hnodup : plan.taskIds.Nodup)
    (hcandidates : ∀ d ∈ plan.decisions, d.assignedNode ∈ candidateIds localNode cluster) :
    SearchTracks dag (candidateIds localNode cluster)
      (searchStart estimate dag localNode cluster plan) := by
  have hreplay := ForLoop.invariant plan.decisions
    (replayDecision dag (nodeIndex (nodeBudgets localNode cluster)))
    (nodeBudgets localNode cluster, ∅) (P := fun _ _ => True)
    (I := fun before state => state.1.map NodeBudget.id = candidateIds localNode cluster ∧
      ∀ d ∈ before, (dag.getTask d.taskId).isSome → ∃ j,
        state.2.lookup d.taskId = some j ∧
          (candidateIds localNode cluster)[j]? = some d.assignedNode) ?_ ?_
  · exact ⟨hreplay.2.1, hnodup, hreplay.2.2⟩
  · refine ⟨map_id_nodeBudgets localNode cluster, ?_⟩
    intro d hd
    cases hd
  · intro before d after state hplan hstate
    refine ⟨trivial, (replayDecision_ids _ _ _).trans hstate.1, ?_⟩
    have hother : ∀ old ∈ before, old.taskId ≠ d.taskId := by
      rw [SchedulingPlan.taskIds, hplan, List.map_append, List.map_cons] at hnodup
      intro old hold heq
      exact (List.disjoint_of_nodup_append hnodup) (List.mem_map_of_mem hold)
        (heq ▸ List.mem_cons_self)
    have hcandidate := hcandidates d (hplan ▸ List.mem_append_right _ List.mem_cons_self)
    rw [← map_id_nodeBudgets] at hcandidate
    rcases UnorderedMap.mem_iff_lookup.1 (mem_nodeIndex hcandidate) with ⟨j, hj⟩
    have hname := lookup_nodeIndex hj
    rw [map_id_nodeBudgets] at hname
    intro old hold hisTask
    rcases List.mem_append.1 hold with hold | hold
    · rcases hstate.2 old hold hisTask with ⟨l, hl, hlname⟩
      refine ⟨l, ?_, hlname⟩
      unfold replayDecision
      split
      · rw [UnorderedMap.lookup_insert_eq, if_neg (hother old hold)]
        exact hl
      · exact hl
    · rw [List.mem_singleton] at hold
      subst hold
      rcases Option.isSome_iff_exists.1 hisTask with ⟨task, htask⟩
      refine ⟨j, ?_, hname⟩
      simp [replayDecision, htask, hj]

theorem searchInit_tracks (env : SchedulerEnv) (config : OptimizerPolicyConfig) (dag : WorkloadDAG)
    (hnodup : plan.taskIds.Nodup)
    (hcandidates : ∀ d ∈ plan.decisions, d.assignedNode ∈ candidateIds localNode cluster) :
    SearchTracks dag (candidateIds localNode cluster)
      (searchInit env config dag localNode cluster plan) :=
  searchStart_tracks _ dag hnodup hcandidates

theorem searchInit_charged
    (hcandidates : ∀ d ∈ plan.decisions, d.assignedNode ∈ candidateIds localNode cluster)
    (howns : Owns (candidateIds localNode cluster) i budget.id)
    (hbudget : (nodeBudgets localNode cluster)[i]? = some budget) :
    Charged dag i budget plan.decisions
      (searchInit env config dag localNode cluster plan).nodes := by
  refine (ForLoop.invariant plan.decisions
    (replayDecision dag (nodeIndex (nodeBudgets localNode cluster)))
    (nodeBudgets localNode cluster, ∅) (P := fun _ _ => True)
    (I := fun before state => Charged dag i budget before state.1) ?_ ?_).2
  · exact charged_nodeBudgets hbudget
  · intro before d after state hplan hstate
    refine ⟨trivial, replayDecision_charged ?_ howns hstate⟩
    exact hcandidates d (hplan ▸ List.mem_append_right _ List.mem_cons_self)

/-! ## Peers throughout the search -/

theorem memoryLoad_append (first second : List SchedulingDecision) (node : NodeId) :
    memoryLoad dag (first ++ second) node =
      memoryLoad dag first node + memoryLoad dag second node := by
  simp only [memoryLoad, assignedSum, List.filter_append, List.map_append, List.sum_append]

/-- A decision for a node is part of the node's load. -/
theorem le_memoryLoad_of_mem (dag : WorkloadDAG) {decisions : List SchedulingDecision}
    {d : SchedulingDecision} (hd : d ∈ decisions) :
    (dag.memoryOf d.taskId).toNat ≤ memoryLoad dag decisions d.assignedNode := by
  rcases List.append_of_mem hd with ⟨before, after, rfl⟩
  have hconcat := memoryLoad_concat dag before d d.assignedNode
  rw [if_pos rfl] at hconcat
  rw [List.append_cons, memoryLoad_append, hconcat]
  omega

/-- The subtraction and the addition of the move that a round tries, if it tries
one, do not wrap on a peer. -/
def searchExact (env : SchedulerEnv) (dag : WorkloadDAG) (s : SearchState) (iter : Nat) : Prop :=
  ∀ d task target, s.decisions[env.draws.task iter % s.decisions.length]? = some d →
    dag.getTask d.taskId = some task →
    s.nodes[env.draws.node iter % s.nodes.length]? = some target →
    env.draws.node iter % s.nodes.length ≠ UnorderedMap.subscript s.assignment d.taskId →
    task.profile.memoryBytes ≤ target.memoryRemaining →
    (UnorderedMap.subscript s.assignment d.taskId ≠ 0 →
      ∀ source, s.nodes[UnorderedMap.subscript s.assignment d.taskId]? = some source →
        task.profile.memoryBytes ≤ source.memoryUsed) ∧
    chargeExact s.nodes (env.draws.node iter % s.nodes.length) task.profile.memoryBytes

theorem search_exact (hs : SearchTracks dag (candidateIds localNode cluster) s)
    (hbounded : PeersBounded dag localNode cluster s.decisions s.nodes) (iter : Nat) :
    searchExact env dag s iter := by
  intro d task target hd htask htarget _ hfits
  constructor
  · intro hne source hsource
    rcases hs.assigned d (List.mem_of_getElem? hd) (by rw [htask]; rfl) with ⟨f, hfrom, hname⟩
    have hsubscript : UnorderedMap.subscript s.assignment d.taskId = f := by
      rw [UnorderedMap.subscript, hfrom]
      rfl
    rw [hsubscript] at hne hsource
    rcases exists_budget hs.nodes hsource with ⟨budget, hbudget⟩
    rcases hbounded f budget hne hbudget with ⟨hcharged, hload⟩
    have hused := hcharged.toNat_memoryUsed (hload.trans_lt budget.memoryCapacity.isLt) hsource
    have hmember := le_memoryLoad_of_mem dag (List.mem_of_getElem? hd)
    rw [getElem?_candidateIds hbudget, Option.some.injEq] at hname
    rw [memoryOf_of_getTask htask, ← hname, ← hused] at hmember
    exact BitVec.le_def.2 hmember
  · intro hne node hnode
    rw [htarget] at hnode
    cases hnode
    rcases exists_budget hs.nodes htarget with ⟨budget, hbudget⟩
    rcases hbounded _ budget hne hbudget with ⟨hcharged, hload⟩
    rcases hcharged.add_le hload htarget hfits with ⟨hused, hadd⟩
    rw [hused]
    exact hadd.trans_lt budget.memoryCapacity.isLt

theorem PeersBounded.searchMove (hdistinct : (candidateIds localNode cluster).Nodup)
    (hs : SearchTracks dag (candidateIds localNode cluster) s)
    (hbounded : PeersBounded dag localNode cluster s.decisions s.nodes)
    (hmove : SearchMove draws estimate dag iter s t) :
    PeersBounded dag localNode cluster t.decisions t.nodes := by
  intro i budget hi hbudget
  have howns := owns_of_nodup hdistinct (getElem?_candidateIds hbudget)
  rcases hbounded i budget hi hbudget with ⟨hcharged, hload⟩
  exact ⟨hcharged.searchMove howns hs hmove, memoryLoad_searchMove_le howns hs hcharged hload hmove⟩

/-- Replaying a plan that keeps every peer within its memory is exact on peers. -/
theorem replay_bounded (env : SchedulerEnv) (config : OptimizerPolicyConfig) (dag : WorkloadDAG)
    (hdistinct : (candidateIds localNode cluster).Nodup)
    (hcandidates : ∀ d ∈ plan.decisions, d.assignedNode ∈ candidateIds localNode cluster)
    (hloads : ∀ i budget, i ≠ 0 → (nodeBudgets localNode cluster)[i]? = some budget →
      memoryLoad dag plan.decisions budget.id ≤ budget.memoryCapacity.toNat) :
    ForLoop.Along (replayExact dag (nodeIndex (nodeBudgets localNode cluster)))
        (replayDecision dag (nodeIndex (nodeBudgets localNode cluster)))
        (nodeBudgets localNode cluster, ∅) plan.decisions ∧
      PeersBounded dag localNode cluster plan.decisions
        (searchInit env config dag localNode cluster plan).nodes := by
  have hcharged : ∀ i budget, (nodeBudgets localNode cluster)[i]? = some budget →
      Charged dag i budget plan.decisions
        (searchInit env config dag localNode cluster plan).nodes :=
    fun i budget hbudget => searchInit_charged hcandidates
      (owns_of_nodup hdistinct (getElem?_candidateIds hbudget)) hbudget
  refine ⟨?_, fun i budget hi hbudget => ⟨hcharged i budget hbudget, hloads i budget hi hbudget⟩⟩
  refine (ForLoop.invariant _ _ _ (P := replayExact dag (nodeIndex (nodeBudgets localNode cluster)))
    (I := fun before state => state.1.map NodeBudget.id = candidateIds localNode cluster ∧
      ∀ i budget, (nodeBudgets localNode cluster)[i]? = some budget →
        Charged dag i budget before state.1) ?_ ?_).1
  · exact ⟨map_id_nodeBudgets localNode cluster, fun i budget => charged_nodeBudgets⟩
  · intro before d after state hplan hstate
    have hcandidate := hcandidates d (hplan ▸ List.mem_append_right _ List.mem_cons_self)
    refine ⟨?_, (replayDecision_ids _ _ _).trans hstate.1, ?_⟩
    · intro task idx htask hidx hne node hnode
      have hname := lookup_nodeIndex hidx
      rw [map_id_nodeBudgets] at hname
      rcases exists_budget hstate.1 hnode with ⟨budget, hbudget⟩
      rw [getElem?_candidateIds hbudget, Option.some.injEq] at hname
      have hload := hloads idx budget hne hbudget
      have hconcat := memoryLoad_concat dag before d budget.id
      rw [if_pos hname.symm, memoryOf_of_getTask htask] at hconcat
      rw [hplan, List.append_cons, memoryLoad_append, hconcat] at hload
      have hcap := budget.memoryCapacity.isLt
      have hused := (hstate.2 idx budget hbudget).toNat_memoryUsed (by omega) hnode
      omega
    · intro i budget hbudget
      exact replayDecision_charged hcandidate
        (owns_of_nodup hdistinct (getElem?_candidateIds hbudget)) (hstate.2 i budget hbudget)

/-- The rounds of the search keep every peer within its memory. -/
theorem search_bounded (env : SchedulerEnv) (config : OptimizerPolicyConfig)
    (hdistinct : (candidateIds localNode cluster).Nodup)
    (hs : SearchTracks dag (candidateIds localNode cluster) s)
    (hbounded : PeersBounded dag localNode cluster s.decisions s.nodes) (rounds : List Nat) :
    ForLoop.Along (searchExact env dag) (searchStep env config dag) s rounds ∧
      PeersBounded dag localNode cluster
        (rounds.foldl (searchStep env config dag) s).decisions
        (rounds.foldl (searchStep env config dag) s).nodes := by
  have hrounds := ForLoop.invariant rounds (searchStep env config dag) s (P := searchExact env dag)
    (I := fun _ s => SearchTracks dag (candidateIds localNode cluster) s ∧
      PeersBounded dag localNode cluster s.decisions s.nodes) ⟨hs, hbounded⟩ ?_
  · exact ⟨hrounds.1, hrounds.2.2⟩
  · intro _ iter _ s _ hstate
    have hmove : SearchMove _ _ dag iter s (searchStep env config dag s iter) :=
      searchRound_cases _ _ hstate.1 iter
    exact ⟨search_exact hstate.1 hstate.2 iter, hstate.1.move hmove,
      hstate.2.searchMove hdistinct hstate.1 hmove⟩

end Search

/-! ## The plan after phase 2 -/

section PackedPlan

variable {env : SchedulerEnv} {dag : WorkloadDAG} {localNode : ResourceSnapshot}
  {cluster : ClusterView}

/-- The ids that phases 1 and 2 decide about, in plan order. -/
def packedIds (env : SchedulerEnv) (dag : WorkloadDAG) (localNode : ResourceSnapshot) :
    List TaskId :=
  ((dag.topologicalOrder env.hash).filter fun id => id ∈ criticalSet env.hash dag) ++
    (packQueue env dag localNode).filter fun id => (dag.getTask id).isSome

/-- Phase 2 extends the decisions of phase 1. -/
theorem packedPlan_extends (env : SchedulerEnv) (dag : WorkloadDAG)
    (localNode : ResourceSnapshot) (cluster : ClusterView) :
    Extends (criticalPathAssignment env.hash dag localNode).decisions
      ((packQueue env dag localNode).filter fun id => (dag.getTask id).isSome)
      (candidateIds localNode cluster) (packedPlan env dag localNode cluster).decisions := by
  have hnodes : (packInit env dag localNode cluster).nodes.map NodeBudget.id =
      candidateIds localNode cluster := by
    refine List.foldlRecOn (motive := fun nodes : List NodeBudget =>
      nodes.map NodeBudget.id = candidateIds localNode cluster) _ _ ?_ ?_
    · exact map_id_nodeBudgets localNode cluster
    · intro nodes hnodes d _
      rw [accountDecision_ids, hnodes]
  exact (foldl_decides
    (fun s : PackState => s.nodes.map NodeBudget.id = candidateIds localNode cluster)
    (fun id => (dag.getTask id).isSome) PackState.decisions
    (fun s id hs => packTask_extends s id hs) hnodes (packQueue env dag localNode)).2

/-- On any graph, phases 1 and 2 decide about distinct ids, on candidate nodes. -/
theorem packedPlan_shape (env : SchedulerEnv) (dag : WorkloadDAG)
    (localNode : ResourceSnapshot) (cluster : ClusterView) :
    PlanShape (packedIds env dag localNode) (candidateIds localNode cluster)
      (packedPlan env dag localNode cluster) := by
  have hfirst : Extends [] _ (candidateIds localNode cluster)
      (criticalPathAssignment env.hash dag localNode).decisions :=
    criticalPathAssignment_extends env.hash
  exact PlanShape.of_extends (hfirst.trans (packedPlan_extends env dag localNode cluster))

theorem taskIds_criticalPathAssignment (h : HashOrders) (dag : WorkloadDAG)
    (localNode : ResourceSnapshot) :
    (criticalPathAssignment h dag localNode).taskIds =
      (dag.topologicalOrder h).filter fun id => id ∈ criticalSet h dag := by
  have hextends : Extends [] _ (candidateIds localNode ⟨[]⟩)
      (criticalPathAssignment h dag localNode).decisions :=
    criticalPathAssignment_extends h
  rcases hextends with ⟨added, hdecisions, hids, -⟩
  rw [SchedulingPlan.taskIds, hdecisions, List.nil_append, hids]

/-- The pinned and the packed tasks are distinct. -/
theorem pinned_append_packQueue_nodup (env : SchedulerEnv) (dag : WorkloadDAG)
    (localNode : ResourceSnapshot) :
    (((dag.topologicalOrder env.hash).filter fun id => id ∈ criticalSet env.hash dag) ++
      packQueue env dag localNode).Nodup := by
  have htopo := dag.topologicalOrder_nodup env.hash
  apply List.nodup_append.2
  refine ⟨htopo.filter _, (env.sort.perm _ _).nodup_iff.2 (htopo.filter _), ?_⟩
  intro id hid other hother heq
  subst heq
  have hmem := (env.sort.perm _ _).mem_iff.1 hother
  have hnot : id ∉ (criticalPathAssignment env.hash dag localNode).taskIds := by
    simpa using (List.mem_filter.1 hmem).2
  rw [taskIds_criticalPathAssignment] at hnot
  exact hnot hid

theorem packedIds_nodup : (packedIds env dag localNode).Nodup :=
  (pinned_append_packQueue_nodup env dag localNode).sublist
    ((List.Sublist.refl _).append List.filter_sublist)

theorem packedPlan_nodup (env : SchedulerEnv) (dag : WorkloadDAG) (localNode : ResourceSnapshot)
    (cluster : ClusterView) : (packedPlan env dag localNode cluster).taskIds.Nodup :=
  (packedPlan_shape env dag localNode cluster).taskIds_perm.nodup_iff.2 packedIds_nodup

end PackedPlan

end EdgeOrchestrator
