import EdgeOrchestrator.Scheduler.PlanShape
import EdgeOrchestrator.Workload.TopologicalOrder
import Mathlib.Data.List.Sort

/-!
# The optimizer policy

`OptimizerPolicy::schedule` runs three phases: the tasks of a longest path are
placed on the local node, the others are packed by decreasing cost, and random
single-task moves are kept when they lower an estimated makespan.  The order
`std::sort` gives to equal costs, the order in which the distance map is
traversed and the random draws are left open.

Main results:

- `criticalSet_terminates`: tracing the longest path back ends.
- `optimizerSchedule_shape`: when the topological order lists only tasks, the plan decides
  exactly those, each on the local node or on a reachable peer.
-/

namespace EdgeOrchestrator

/-! ## What the policy leaves to its environment -/

/-- `std::sort`: some sorted rearrangement, with ties in any order. -/
structure StdSort (α : Type) where
  sort : (α → α → Bool) → List α → List α
  perm : ∀ lt l, (sort lt l).Perm l
  sorted : ∀ lt l, (∀ a b c, lt b a = false → lt c b = false → lt c a = false) →
    (∀ a b, lt b a = false ∨ lt a b = false) →
    (sort lt l).Pairwise fun a b => lt b a = false

/-- Insertion sort, one of the permitted ones. -/
def StdSort.insertion (α : Type) : StdSort α where
  sort lt l := l.insertionSort fun a b => lt b a = false
  perm lt l := List.perm_insertionSort _ l
  sorted := by
    intro lt l htrans htotal
    have : Std.Total fun a b => lt b a = false := ⟨htotal⟩
    have : IsTrans α fun a b => lt b a = false := ⟨htrans⟩
    exact List.pairwise_insertionSort _ l

/-- The values drawn in each round of the local search, before they are brought
into the range of the distribution. -/
structure Draws where
  task : Nat → Nat
  node : Nat → Nat

/-- What the code leaves open: floats, hash orders, draws. -/
structure SchedulerEnv where
  floats : FloatOps
  hash : HashOrders
  sort : StdSort TaskId
  draws : Draws

/-- `OptimizerPolicy::Config`. -/
structure OptimizerPolicyConfig where
  maxIterations : Nat
  communicationWeight : F32

/-! ## Node budgets -/

/-- Per-node state during optimization. -/
structure NodeBudget where
  id : NodeId
  memoryCapacity : U64
  memoryUsed : U64 := 0
  assignedCompute : Duration := 0
  assignedTasks : List TaskId := []

namespace NodeBudget

/-- `memory_remaining`. -/
def memoryRemaining (node : NodeBudget) : U64 :=
  if node.memoryCapacity > node.memoryUsed then node.memoryCapacity - node.memoryUsed else 0

/-- Charge a task to the node and append it to its list. -/
def assign (taskId : TaskId) (profile : TaskProfile) (node : NodeBudget) : NodeBudget :=
  { node with
    memoryUsed := node.memoryUsed + profile.memoryBytes
    assignedCompute := node.assignedCompute + profile.computeCost
    assignedTasks := node.assignedTasks ++ [taskId] }

/-- Take a task off the node; its first occurrence leaves the list. -/
def release (taskId : TaskId) (profile : TaskProfile) (node : NodeBudget) : NodeBudget :=
  { node with
    memoryUsed := node.memoryUsed - profile.memoryBytes
    assignedCompute := node.assignedCompute - profile.computeCost
    assignedTasks := node.assignedTasks.erase taskId }

/-- Undo the last `assign`: the list is popped at its end. -/
def unassignLast (profile : TaskProfile) (node : NodeBudget) : NodeBudget :=
  { node with
    memoryUsed := node.memoryUsed - profile.memoryBytes
    assignedCompute := node.assignedCompute - profile.computeCost
    assignedTasks := node.assignedTasks.dropLast }

end NodeBudget

/-- The local node followed by the reachable peers. -/
def nodeBudgets (localNode : ResourceSnapshot) (cluster : ClusterView) : List NodeBudget :=
  { id := localNode.nodeId, memoryCapacity := localNode.memoryAvailableBytes } ::
    (cluster.peers.filter PeerInfo.reachable).map fun peer =>
      { id := peer.nodeId, memoryCapacity := peer.resources.memoryAvailableBytes }

/-! ## Makespan estimate -/

/-- The loop variables of the list schedule. -/
structure ListSchedule where
  endTime : UnorderedMap TaskId Int
  nodeFree : List Int
  makespan : Int

/-- Delay of moving a task's output to another node. -/
def transferDelay (fl : FloatOps) (commWeight : F32) (outputBytes : U64) : Int :=
  fl.toI64 (fl.mul (fl.mul (fl.ofU64 outputBytes) commWeight) oneThousandth)

variable (delay : U64 → Int) (dag : WorkloadDAG)

/-- When the output of a dependency arrives at a node; `none` if it never ran. -/
def arrival (assignment : UnorderedMap TaskId Nat) (endTime : UnorderedMap TaskId Int) (node : Nat)
    (dep : TaskId) : Option Int :=
  match endTime.lookup dep with
  | none => none
  | some depEnd =>
    match assignment.lookup dep, dag.getTask dep with
    | some depNode, some depTask =>
      if depNode ≠ node then some (depEnd + delay depTask.profile.outputBytes)
      else some depEnd
    | _, _ => some depEnd

/-- One task of the list schedule. -/
def placeTask (assignment : UnorderedMap TaskId Nat) (s : ListSchedule) (taskId : TaskId) :
    ListSchedule :=
  match dag.getTask taskId, assignment.lookup taskId with
  | some task, some node =>
    let ready := (dag.dependencies taskId).foldl
      (fun ready dep =>
        match arrival delay dag assignment s.endTime node dep with
        | none => ready
        | some time => max ready time) 0
    let finish := max ready (s.nodeFree.getD node 0) + task.profile.computeCost
    { endTime := s.endTime.insert taskId finish
      nodeFree := s.nodeFree.set node finish
      makespan := max s.makespan finish }
  | _, _ => s

/-- The list schedule, for any transfer delay of a number of bytes. -/
def listSchedule (h : HashOrders) (dag : WorkloadDAG) (nodeCount : Nat)
    (assignment : UnorderedMap TaskId Nat) : ListSchedule :=
  (dag.topologicalOrder h).foldl (placeTask delay dag assignment)
    { endTime := ∅, nodeFree := List.replicate nodeCount 0, makespan := 0 }

/-- The makespan for any delay function. -/
def makespanWith (h : HashOrders) (dag : WorkloadDAG) (nodeCount : Nat)
    (assignment : UnorderedMap TaskId Nat) : Duration :=
  (listSchedule delay h dag nodeCount assignment).makespan

/-- `estimate_makespan`: the delay is computed in floating point. -/
def estimateMakespan (fl : FloatOps) (h : HashOrders) (commWeight : F32) (dag : WorkloadDAG)
    (nodeCount : Nat) (assignment : UnorderedMap TaskId Nat) : Duration :=
  makespanWith (transferDelay fl commWeight) h dag nodeCount assignment

/-! ## Phase 1: critical path -/

/-- Longest distances and, for each relaxed task, the task it was relaxed from. -/
structure LongestPaths where
  dist : UnorderedMap TaskId Int
  predecessor : UnorderedMap TaskId TaskId

/-- Relax the edge from `u` to `v`; reading `dist[v]` creates the entry. -/
def relaxDependent (u : TaskId) (s : LongestPaths) (v : TaskId) : LongestPaths :=
  match dag.getTask v with
  | none => s
  | some vTask =>
    let dist := UnorderedMap.touch (UnorderedMap.touch s.dist u) v
    let candidate := UnorderedMap.subscript dist u + vTask.profile.computeCost
    if candidate > UnorderedMap.subscript dist v then
      { dist := dist.insert v candidate, predecessor := s.predecessor.insert v u }
    else { s with dist := dist }

/-- Relax the edges of one task. -/
def relaxFrom (s : LongestPaths) (u : TaskId) : LongestPaths :=
  match dag.getTask u with
  | none => s
  | some task =>
    let s' : LongestPaths :=
      if (dag.dependencies u).isEmpty then
        { s with dist := s.dist.insert u task.profile.computeCost }
      else s
    (dag.dependents u).foldl (relaxDependent dag u) s'

/-- The loop over the topological order. -/
def longestPaths (h : HashOrders) (dag : WorkloadDAG) : LongestPaths :=
  (dag.topologicalOrder h).foldl (relaxFrom dag)
    { dist := (dag.topologicalOrder h).foldl (fun dist id => dist.insert id 0) ∅
      predecessor := ∅ }

/-- The first task of maximal distance in hash order; empty when no distance
is above `-1`. -/
def endTask (h : HashOrders) (dist : UnorderedMap TaskId Int) : TaskId :=
  ((h.dist.order dist.keys).foldl
    (fun (best : Int × TaskId) id =>
      if UnorderedMap.subscript dist id > best.1 then (UnorderedMap.subscript dist id, id)
      else best)
    (-1, [])).2

/-- One iteration of `while (!curr.empty())`. -/
def traceStep (predecessor : UnorderedMap TaskId TaskId) (s : TaskId × List TaskId) :
    (TaskId × List TaskId) ⊕ List TaskId :=
  if s.1 = [] then .inr s.2
  else .inl ((predecessor.lookup s.1).getD [], s.1 :: s.2)

/-- The loop that traces the path back. -/
def criticalSetFuel (h : HashOrders) (dag : WorkloadDAG) (fuel : Nat) : Option (List TaskId) :=
  FuelLoop.run (traceStep (longestPaths h dag).predecessor) fuel
    (endTask h (longestPaths h dag).dist, [])

/-- The tasks on the critical path. -/
def criticalSet (h : HashOrders) (dag : WorkloadDAG) : List TaskId :=
  (criticalSetFuel h dag ((dag.topologicalOrder h).length + 2)).getD []

/-- Phase 1: the critical path stays local. -/
def criticalPathAssignment (h : HashOrders) (dag : WorkloadDAG)
    (localNode : ResourceSnapshot) : SchedulingPlan :=
  if (dag.topologicalOrder h).isEmpty then {}
  else
    { decisions :=
        ((dag.topologicalOrder h).filter fun id => id ∈ criticalSet h dag).map fun id =>
          ⟨id, localNode.nodeId, .optimizationResult⟩ }

/-! ## Phase 2: bin packing -/

/-- Charge a decision to the first node that carries its id. -/
def accountDecision (dag : WorkloadDAG) (nodes : List NodeBudget) (d : SchedulingDecision) :
    List NodeBudget :=
  match dag.getTask d.taskId with
  | none => nodes
  | some task =>
    nodes.modify (nodes.findIdx fun node => node.id = d.assignedNode)
      (NodeBudget.assign d.taskId task.profile)

/-- The sort's comparison: larger compute cost first, an unknown task counts zero. -/
def costlier (dag : WorkloadDAG) (a b : TaskId) : Bool :=
  let cost := fun id => ((dag.getTask id).map fun task => task.profile.computeCost).getD 0
  cost a > cost b

/-- Index of the fitting node with the least assigned compute; the local node
when none fits. -/
def packBest (nodes : List NodeBudget) (profile : TaskProfile) : Nat :=
  let best := (nodes.zipIdx.foldl
    (fun (best : Duration × Nat) entry =>
      if entry.1.memoryRemaining ≥ profile.memoryBytes ∧ entry.1.assignedCompute < best.1 then
        (entry.1.assignedCompute, entry.2)
      else best)
    (2 ^ 63 - 1, nodes.length)).2
  if best ≥ nodes.length then 0 else best

/-- The variables of phase 2. -/
structure PackState where
  nodes : List NodeBudget
  decisions : List SchedulingDecision

/-- One iteration of phase 2. -/
def packTask (dag : WorkloadDAG) (localNode : ResourceSnapshot) (s : PackState)
    (taskId : TaskId) : PackState :=
  match dag.getTask taskId with
  | none => s
  | some task =>
    let best := packBest s.nodes task.profile
    let id := ((s.nodes[best]?).map NodeBudget.id).getD localNode.nodeId
    { nodes := s.nodes.modify best (NodeBudget.assign taskId task.profile)
      decisions := s.decisions ++ [⟨taskId, id, .optimizationResult⟩] }

variable (env : SchedulerEnv)

/-- Phase 2: the other tasks, the costliest first. -/
def binPackRemaining (dag : WorkloadDAG) (localNode : ResourceSnapshot) (cluster : ClusterView)
    (plan : SchedulingPlan) : SchedulingPlan :=
  let nodes := plan.decisions.foldl (accountDecision dag) (nodeBudgets localNode cluster)
  let remaining := (dag.topologicalOrder env.hash).filter fun id => id ∉ plan.taskIds
  { plan with
    decisions := ((env.sort.sort (costlier dag) remaining).foldl (packTask dag localNode)
      { nodes := nodes, decisions := plan.decisions }).decisions }

/-! ## Phase 3: local search -/

/-- The variables of phase 3. -/
structure SearchState where
  nodes : List NodeBudget
  assignment : UnorderedMap TaskId Nat
  decisions : List SchedulingDecision
  makespan : Duration

/-- The map from node id to index; the last node of an id wins. -/
def nodeIndex (nodes : List NodeBudget) : UnorderedMap NodeId Nat :=
  nodes.zipIdx.foldl (fun index entry => index.insert entry.1.id entry.2) ∅

/-- Rebuild budgets and assignment from one decision of the plan. -/
def replayDecision (dag : WorkloadDAG) (index : UnorderedMap NodeId Nat)
    (s : List NodeBudget × UnorderedMap TaskId Nat) (d : SchedulingDecision) :
    List NodeBudget × UnorderedMap TaskId Nat :=
  match dag.getTask d.taskId, index.lookup d.assignedNode with
  | some task, some idx =>
    (s.1.modify idx (NodeBudget.assign d.taskId task.profile), s.2.insert d.taskId idx)
  | _, _ => s

/-- One round: try to move one drawn task to one drawn node.  `estimate` is the
makespan of an assignment to a number of nodes. -/
def searchRound (draws : Draws) (estimate : Nat → UnorderedMap TaskId Nat → Duration)
    (dag : WorkloadDAG) (s : SearchState) (iter : Nat) : SearchState :=
  match s.decisions[draws.task iter % s.decisions.length]? with
  | none => s
  | some d =>
    match dag.getTask d.taskId with
    | none => s
    | some task =>
      let fromNode := UnorderedMap.subscript s.assignment d.taskId
      let assignment := UnorderedMap.touch s.assignment d.taskId
      let toNode := draws.node iter % s.nodes.length
      match s.nodes[toNode]? with
      | none => { s with assignment := assignment }
      | some target =>
        if toNode = fromNode ∨ target.memoryRemaining < task.profile.memoryBytes then
          { s with assignment := assignment }
        else
          let moved := (s.nodes.modify fromNode (NodeBudget.release d.taskId task.profile)).modify
            toNode (NodeBudget.assign d.taskId task.profile)
          let makespan := estimate s.nodes.length (assignment.insert d.taskId toNode)
          if makespan < s.makespan then
            { nodes := moved
              assignment := assignment.insert d.taskId toNode
              decisions := s.decisions.set (draws.task iter % s.decisions.length)
                { d with assignedNode := target.id }
              makespan := makespan }
          else
            { s with
              nodes := (moved.modify toNode (NodeBudget.unassignLast task.profile)).modify
                fromNode (NodeBudget.assign d.taskId task.profile)
              assignment := (assignment.insert d.taskId toNode).insert d.taskId fromNode }

variable (config : OptimizerPolicyConfig) (dag : WorkloadDAG)

/-- One iteration of phase 3. -/
def searchStep (s : SearchState) (iter : Nat) : SearchState :=
  searchRound env.draws
    (estimateMakespan env.floats env.hash config.communicationWeight dag) dag s iter

/-- The state in which the local search starts. -/
def searchStart (estimate : Nat → UnorderedMap TaskId Nat → Duration) (dag : WorkloadDAG)
    (localNode : ResourceSnapshot) (cluster : ClusterView) (plan : SchedulingPlan) :
    SearchState :=
  let nodes := nodeBudgets localNode cluster
  let replayed := plan.decisions.foldl (replayDecision dag (nodeIndex nodes)) (nodes, ∅)
  { nodes := replayed.1
    assignment := replayed.2
    decisions := plan.decisions
    makespan := estimate replayed.1.length replayed.2 }

variable (localNode : ResourceSnapshot) (cluster : ClusterView)

/-- Phase 3 starts from the plan of phase 2. -/
def searchInit (plan : SchedulingPlan) : SearchState :=
  searchStart (estimateMakespan env.floats env.hash config.communicationWeight dag) dag
    localNode cluster plan

/-- The local search, for any estimate of the makespan. -/
def localSearchWith (draws : Draws) (estimate : Nat → UnorderedMap TaskId Nat → Duration)
    (maxIterations : Nat) (dag : WorkloadDAG) (localNode : ResourceSnapshot)
    (cluster : ClusterView) (plan : SchedulingPlan) : SchedulingPlan :=
  if plan.decisions.length < 2 then plan
  else if (nodeBudgets localNode cluster).length < 2 then plan
  else
    let s := (List.range maxIterations).foldl (searchRound draws estimate dag)
      (searchStart estimate dag localNode cluster plan)
    { decisions := s.decisions, estimatedMakespan := s.makespan }

/-- Phase 3: random moves that shorten the makespan. -/
def localSearchImprove (plan : SchedulingPlan) : SchedulingPlan :=
  localSearchWith env.draws
    (estimateMakespan env.floats env.hash config.communicationWeight dag) config.maxIterations
    dag localNode cluster plan

/-- The rounds of the policy's own search. -/
theorem localSearchImprove_eq (plan : SchedulingPlan) :
    localSearchImprove env config dag localNode cluster plan =
      if plan.decisions.length < 2 then plan
      else if (nodeBudgets localNode cluster).length < 2 then plan
      else
        let s := (List.range config.maxIterations).foldl (searchStep env config dag)
          (searchInit env config dag localNode cluster plan)
        { decisions := s.decisions, estimatedMakespan := s.makespan } :=
  rfl

/-- `OptimizerPolicy::schedule`. -/
def optimizerSchedule : SchedulingPlan :=
  localSearchImprove env config dag localNode cluster
    (binPackRemaining env dag localNode cluster
      (criticalPathAssignment env.hash dag localNode))

/-! ## The trace back ends -/

section Trace

variable {h : HashOrders} {dag : WorkloadDAG}

/-- Recorded predecessors are listed sources of an edge. -/
def PredecessorsListed (h : HashOrders) (dag : WorkloadDAG) (s : LongestPaths) : Prop :=
  ∀ v u, s.predecessor.lookup v = some u → u ∈ dag.topologicalOrder h ∧ dag.Edge u v

theorem relaxDependent_listed {u v : TaskId} {s : LongestPaths}
    (hu : u ∈ dag.topologicalOrder h) (huv : dag.Edge u v)
    (hs : PredecessorsListed h dag s) : PredecessorsListed h dag (relaxDependent dag u s v) := by
  unfold relaxDependent
  split
  · exact hs
  · simp only
    split
    · intro w x hw
      rw [UnorderedMap.lookup_insert_eq] at hw
      split at hw
      · rename_i hwv
        cases hw
        rw [hwv]
        exact ⟨hu, huv⟩
      · exact hs w x hw
    · exact hs

theorem relaxFrom_listed {u : TaskId} {s : LongestPaths} (hu : u ∈ dag.topologicalOrder h)
    (hs : PredecessorsListed h dag s) : PredecessorsListed h dag (relaxFrom dag s u) := by
  unfold relaxFrom
  split
  · exact hs
  · refine List.foldlRecOn (dag.dependents u) (relaxDependent dag u) ?_ ?_
    · split
      · exact hs
      · exact hs
    · intro s' hs' v hv
      exact relaxDependent_listed hu hv hs'

theorem longestPaths_listed (h : HashOrders) (dag : WorkloadDAG) :
    PredecessorsListed h dag (longestPaths h dag) := by
  refine List.foldlRecOn (dag.topologicalOrder h) (relaxFrom dag) ?_ ?_
  · intro v u hv
    cases hv
  · intro s hs u hu
    exact relaxFrom_listed hu hs

/-- How far the trace can still go: the position of the current task in the
topological order, one past its end for a task that is not listed. -/
def traceMeasure (topo : List TaskId) (curr : TaskId) : Nat :=
  if curr = [] then 0 else if curr ∈ topo then topo.idxOf curr + 1 else topo.length + 1

theorem traceMeasure_le (topo : List TaskId) (curr : TaskId) :
    traceMeasure topo curr ≤ topo.length + 1 := by
  unfold traceMeasure
  split
  · omega
  · split
    · have := List.idxOf_le_length (l := topo) (a := curr)
      omega
    · omega

theorem traceMeasure_pred {u v : TaskId} (hv : v ≠ []) (hu : u ∈ dag.topologicalOrder h)
    (huv : dag.Edge u v) :
    traceMeasure (dag.topologicalOrder h) u < traceMeasure (dag.topologicalOrder h) v := by
  have hlt : (dag.topologicalOrder h).idxOf u < (dag.topologicalOrder h).length :=
    List.idxOf_lt_length_of_mem hu
  have hmeasure : traceMeasure (dag.topologicalOrder h) u ≤
      (dag.topologicalOrder h).idxOf u + 1 := by
    unfold traceMeasure
    rw [if_pos hu]
    split
    · omega
    · omega
  by_cases hlisted : v ∈ dag.topologicalOrder h
  · have hearlier := ((dag.topologicalOrder_predsEarlier h).idxOf_lt hlisted huv).2
    have hvm : traceMeasure (dag.topologicalOrder h) v =
        (dag.topologicalOrder h).idxOf v + 1 := by
      simp [traceMeasure, hv, hlisted]
    omega
  · have hvm : traceMeasure (dag.topologicalOrder h) v =
        (dag.topologicalOrder h).length + 1 := by
      simp [traceMeasure, hv, hlisted]
    omega

/-- The trace back ends, and any larger amount of fuel gives the same set. -/
theorem criticalSet_terminates (h : HashOrders) (dag : WorkloadDAG) {fuel : Nat}
    (hfuel : (dag.topologicalOrder h).length + 2 ≤ fuel) :
    criticalSetFuel h dag fuel = some (criticalSet h dag) := by
  have hrun : ∃ set, criticalSetFuel h dag ((dag.topologicalOrder h).length + 2) = some set ∧
      True := by
    refine FuelLoop.run_spec (I := fun _ => True) (Q := fun _ => True)
      (fun s => traceMeasure (dag.topologicalOrder h) s.1) ?_ (fun _ _ _ _ => trivial) trivial ?_
    · intro s t _ hstep
      refine ⟨trivial, ?_⟩
      unfold traceStep at hstep
      split at hstep
      · cases hstep
      · rename_i hcurr
        cases hstep
        cases hpred : (longestPaths h dag).predecessor.lookup s.1 with
        | none =>
          simp only [Option.getD_none, traceMeasure, if_true, hcurr, if_false]
          split <;> omega
        | some u =>
          rcases longestPaths_listed h dag s.1 u hpred with ⟨hu, hedge⟩
          exact traceMeasure_pred hcurr hu hedge
    · exact Nat.lt_succ_of_le (traceMeasure_le _ _)
  rcases hrun with ⟨set, hset, -⟩
  rw [criticalSet, hset, Option.getD_some]
  exact FuelLoop.run_mono hset hfuel

end Trace

/-! ## Every phase keeps the plan's shape -/

section Shape

variable {dag : WorkloadDAG} {localNode : ResourceSnapshot} {cluster : ClusterView}

theorem map_id_nodeBudgets (localNode : ResourceSnapshot) (cluster : ClusterView) :
    (nodeBudgets localNode cluster).map NodeBudget.id = candidateIds localNode cluster := by
  simp [nodeBudgets, candidateIds]

@[simp]
theorem map_id_modify_assign (taskId : TaskId) (profile : TaskProfile)
    (nodes : List NodeBudget) (i : Nat) :
    (nodes.modify i (NodeBudget.assign taskId profile)).map NodeBudget.id =
      nodes.map NodeBudget.id :=
  map_modify_of_key_eq NodeBudget.id (NodeBudget.assign taskId profile) (fun _ => rfl) nodes i

@[simp]
theorem map_id_modify_release (taskId : TaskId) (profile : TaskProfile)
    (nodes : List NodeBudget) (i : Nat) :
    (nodes.modify i (NodeBudget.release taskId profile)).map NodeBudget.id =
      nodes.map NodeBudget.id :=
  map_modify_of_key_eq NodeBudget.id (NodeBudget.release taskId profile) (fun _ => rfl) nodes i

@[simp]
theorem map_id_modify_unassignLast (profile : TaskProfile) (nodes : List NodeBudget)
    (i : Nat) :
    (nodes.modify i (NodeBudget.unassignLast profile)).map NodeBudget.id =
      nodes.map NodeBudget.id :=
  map_modify_of_key_eq NodeBudget.id (NodeBudget.unassignLast profile) (fun _ => rfl) nodes i

theorem criticalPathAssignment_extends (h : HashOrders) :
    Extends [] ((dag.topologicalOrder h).filter fun id => id ∈ criticalSet h dag)
      (candidateIds localNode cluster)
      (criticalPathAssignment h dag localNode).decisions := by
  unfold criticalPathAssignment
  split
  · rename_i hempty
    rw [List.isEmpty_iff.1 hempty]
    exact Extends.refl _ _
  · refine ⟨_, (List.nil_append _).symm, ?_, ?_⟩
    · simp [Function.comp_def]
    · intro d hd
      rcases List.mem_map.1 hd with ⟨id, -, rfl⟩
      exact List.mem_cons_self

theorem accountDecision_ids (nodes : List NodeBudget) (d : SchedulingDecision) :
    (accountDecision dag nodes d).map NodeBudget.id = nodes.map NodeBudget.id := by
  unfold accountDecision
  split
  · rfl
  · simp

theorem packTask_extends (s : PackState) (taskId : TaskId)
    (hnodes : s.nodes.map NodeBudget.id = candidateIds localNode cluster) :
    (packTask dag localNode s taskId).nodes.map NodeBudget.id =
        candidateIds localNode cluster ∧
      Extends s.decisions (if (dag.getTask taskId).isSome then [taskId] else [])
        (candidateIds localNode cluster) (packTask dag localNode s taskId).decisions := by
  unfold packTask
  cases htask : dag.getTask taskId with
  | none => exact ⟨hnodes, Extends.refl _ _⟩
  | some task =>
    refine ⟨by simpa using hnodes, Extends.single s.decisions ?_⟩
    simp only
    cases hbest : s.nodes[packBest s.nodes task.profile]? with
    | none => exact List.mem_cons_self
    | some node =>
      rw [← hnodes]
      exact List.mem_map.2 ⟨node, List.mem_of_getElem? hbest, rfl⟩

/-- After bin packing the plan decides every task of the topological order. -/
theorem binPackRemaining_shape (env : SchedulerEnv)
    (htasks : ∀ id ∈ dag.topologicalOrder env.hash, id ∈ dag.tasks) :
    PlanShape (dag.topologicalOrder env.hash) (candidateIds localNode cluster)
      (binPackRemaining env dag localNode cluster
        (criticalPathAssignment env.hash dag localNode)) := by
  set topo := dag.topologicalOrder env.hash with htopo
  set plan := criticalPathAssignment env.hash dag localNode with hplan
  have hfirst : Extends [] (topo.filter fun id => id ∈ criticalSet env.hash dag)
      (candidateIds localNode cluster) plan.decisions :=
    criticalPathAssignment_extends env.hash
  have hplanIds : plan.taskIds = topo.filter fun id => id ∈ criticalSet env.hash dag := by
    rcases hfirst with ⟨added, hdecisions, hids, -⟩
    rw [SchedulingPlan.taskIds, hdecisions, List.nil_append, hids]
  have hnodes : (plan.decisions.foldl (accountDecision dag)
      (nodeBudgets localNode cluster)).map NodeBudget.id = candidateIds localNode cluster := by
    refine List.foldlRecOn (motive := fun nodes : List NodeBudget =>
      nodes.map NodeBudget.id = candidateIds localNode cluster) _ _ ?_ ?_
    · exact map_id_nodeBudgets localNode cluster
    · intro nodes hnodes d _
      rw [accountDecision_ids, hnodes]
  set remaining := topo.filter fun id => id ∉ plan.taskIds with hremaining
  have hwalk := foldl_decides
    (fun s : PackState => s.nodes.map NodeBudget.id = candidateIds localNode cluster)
    (fun id => (dag.getTask id).isSome) PackState.decisions
    (fun s id hs => packTask_extends s id hs)
    (s := { nodes := plan.decisions.foldl (accountDecision dag) (nodeBudgets localNode cluster)
            decisions := plan.decisions })
    hnodes (env.sort.sort (costlier dag) remaining)
  have hall : (env.sort.sort (costlier dag) remaining).filter
      (fun id => (dag.getTask id).isSome) = env.sort.sort (costlier dag) remaining := by
    refine List.filter_eq_self.2 fun id hid => ?_
    have hid' : id ∈ remaining := (env.sort.perm _ _).mem_iff.1 hid
    exact WorkloadDAG.getTask_isSome.2 (htasks id (List.mem_of_mem_filter hid'))
  have hrest : remaining = topo.filter fun id => !decide (id ∈ criticalSet env.hash dag) := by
    refine List.filter_congr fun id hid => ?_
    rw [hplanIds]
    simp [hid]
  have hext := hfirst.trans hwalk.2
  rw [hall] at hext
  have hshape : PlanShape _ _ (binPackRemaining env dag localNode cluster plan) :=
    PlanShape.of_extends hext
  refine ⟨hshape.taskIds_perm.trans ?_, hshape.assigned⟩
  refine ((env.sort.perm (costlier dag) remaining).append_left _).trans ?_
  rw [hrest]
  exact List.filter_append_perm _ topo

/-- What a round of the local search keeps: the node ids, the decided tasks and
the validity of the assigned nodes. -/
structure SearchInv (candidates : List NodeId) (ids : List TaskId) (s : SearchState) :
    Prop where
  nodes : s.nodes.map NodeBudget.id = candidates
  ids : s.decisions.map SchedulingDecision.taskId = ids
  assigned : ∀ d ∈ s.decisions, d.assignedNode ∈ candidates

theorem searchStep_inv {env : SchedulerEnv} {config : OptimizerPolicyConfig}
    {candidates : List NodeId} {ids : List TaskId} {s : SearchState}
    (hs : SearchInv candidates ids s) (iter : Nat) :
    SearchInv candidates ids (searchStep env config dag s iter) := by
  unfold searchStep searchRound
  split
  · exact hs
  · rename_i d hd
    split
    · exact hs
    · rename_i task _
      simp only
      split
      · exact ⟨hs.nodes, hs.ids, hs.assigned⟩
      · rename_i target htarget
        split
        · exact ⟨hs.nodes, hs.ids, hs.assigned⟩
        · split
          · refine ⟨by simpa using hs.nodes, ?_, ?_⟩
            · have hid : (s.decisions.map SchedulingDecision.taskId)[
                  env.draws.task iter % s.decisions.length]? = some d.taskId := by
                simp [hd]
              rcases List.getElem?_eq_some_iff.1 hid with ⟨hlt, hget⟩
              rw [List.map_set, ← hs.ids, ← hget]
              exact List.set_getElem_self hlt
            · intro d' hd'
              rcases List.mem_or_eq_of_mem_set hd' with hold | rfl
              · exact hs.assigned d' hold
              · rw [← hs.nodes]
                exact List.mem_map.2 ⟨target, List.mem_of_getElem? htarget, rfl⟩
          · exact ⟨by simpa using hs.nodes, hs.ids, hs.assigned⟩

theorem replayDecision_ids (index : UnorderedMap NodeId Nat)
    (s : List NodeBudget × UnorderedMap TaskId Nat) (d : SchedulingDecision) :
    (replayDecision dag index s d).1.map NodeBudget.id = s.1.map NodeBudget.id := by
  unfold replayDecision
  split
  · simp
  · rfl

/-- The local search only moves decisions between candidate nodes. -/
theorem localSearchImprove_shape (env : SchedulerEnv) (config : OptimizerPolicyConfig)
    {ids : List TaskId} {plan : SchedulingPlan}
    (hplan : PlanShape ids (candidateIds localNode cluster) plan) :
    PlanShape ids (candidateIds localNode cluster)
      (localSearchImprove env config dag localNode cluster plan) := by
  rw [localSearchImprove_eq]
  split
  · exact hplan
  · split
    · exact hplan
    · have hnodes : (searchInit env config dag localNode cluster plan).nodes.map NodeBudget.id =
          candidateIds localNode cluster := by
        refine List.foldlRecOn
          (motive := fun s : List NodeBudget × UnorderedMap TaskId Nat =>
            s.1.map NodeBudget.id = candidateIds localNode cluster) _ _ ?_ ?_
        · exact map_id_nodeBudgets localNode cluster
        · intro s hs d _
          rw [replayDecision_ids, hs]
      have hinv : SearchInv (candidateIds localNode cluster) plan.taskIds
          ((List.range config.maxIterations).foldl (searchStep env config dag)
            (searchInit env config dag localNode cluster plan)) := by
        refine List.foldlRecOn _ _ ?_ ?_
        · exact ⟨hnodes, rfl, hplan.assigned⟩
        · intro s hs iter _
          exact searchStep_inv hs iter
      constructor
      · rw [SchedulingPlan.taskIds, hinv.ids]
        exact hplan.taskIds_perm
      · exact hinv.assigned

/-- The optimizer's plan decides exactly the listed tasks. -/
theorem optimizerSchedule_shape (env : SchedulerEnv) (config : OptimizerPolicyConfig)
    (htasks : ∀ id ∈ dag.topologicalOrder env.hash, id ∈ dag.tasks) :
    PlanShape (dag.topologicalOrder env.hash) (candidateIds localNode cluster)
      (optimizerSchedule env config dag localNode cluster) :=
  localSearchImprove_shape env config (binPackRemaining_shape env htasks)

end Shape

end EdgeOrchestrator
