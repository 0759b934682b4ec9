import EdgeOrchestrator.Scheduler.OptimizerBudgets

/-!
# The local search of the optimizer

Phase 3 holds the same assignment five times: in the plan's decisions, in the
assignment map and in the memory, compute and task list of every node budget.  A
round changes the budgets and the map tentatively and takes the change back if it
does not pay.  The five stay in step through every round, whatever is drawn and
whatever the estimate of the makespan is, as long as the estimate looks at nothing
but the nodes of the tasks.

Main results:

- `BudgetsMatch.move` and `BudgetsMatch.revert`: the budgets under a move and under a move that
  is taken back.
- `Faithful.start` and `Faithful.round`: the five agree when the search starts and after every
  round.
- `localSearch_faithful`: what the search keeps, and what it returns.
-/

namespace EdgeOrchestrator

/-! ## Budgets that match an assignment -/

/-- The listed tasks that an assignment puts on the node at position `i`. -/
def assignedTo (taskIds : List TaskId) (assignment : UnorderedMap TaskId Nat) (i : Nat) :
    List TaskId :=
  taskIds.filter fun id => assignment.lookup id = some i

/-- The counters of a node are the sums over the given tasks, and its list holds
these tasks, in any order. -/
structure BudgetMatches (dag : WorkloadDAG) (tasks : List TaskId) (node : NodeBudget) : Prop where
  memoryUsed : node.memoryUsed = (tasks.map dag.memoryOf).sum
  assignedCompute : node.assignedCompute = (tasks.map dag.costOf).sum
  assignedTasks : node.assignedTasks.Perm tasks

/-- Every node has what the assignment gives it. -/
def BudgetsMatch (dag : WorkloadDAG) (taskIds : List TaskId)
    (assignment : UnorderedMap TaskId Nat) (nodes : List NodeBudget) : Prop :=
  ∀ i node, nodes[i]? = some node → BudgetMatches dag (assignedTo taskIds assignment i) node

section Budgets

variable {dag : WorkloadDAG} {tasks : List TaskId} {node : NodeBudget} {id : TaskId} {task : Task}

theorem BudgetMatches.perm {tasks' : List TaskId} (hnode : BudgetMatches dag tasks node)
    (hperm : tasks.Perm tasks') : BudgetMatches dag tasks' node where
  memoryUsed := by rw [hnode.memoryUsed, (hperm.map _).sum_eq]
  assignedCompute := by rw [hnode.assignedCompute, (hperm.map _).sum_eq]
  assignedTasks := hnode.assignedTasks.trans hperm

theorem BudgetMatches.assign (hnode : BudgetMatches dag tasks node)
    (htask : dag.getTask id = some task) :
    BudgetMatches dag (tasks ++ [id]) (node.assign id task.profile) where
  memoryUsed := by
    rw [List.map_append, List.sum_append, List.map_singleton, List.sum_singleton,
      ← hnode.memoryUsed, memoryOf_of_getTask htask]
    rfl
  assignedCompute := by
    rw [List.map_append, List.sum_append, List.map_singleton, List.sum_singleton,
      ← hnode.assignedCompute, WorkloadDAG.costOf_of_getTask htask]
    rfl
  assignedTasks := hnode.assignedTasks.append_right [id]

theorem sum_map_eq_add_erase {M : Type*} [AddCommMonoid M] (quantity : TaskId → M)
    (hmem : id ∈ tasks) :
    (tasks.map quantity).sum = quantity id + ((tasks.erase id).map quantity).sum := by
  rw [((List.perm_cons_erase hmem).map quantity).sum_eq, List.map_cons, List.sum_cons]

theorem BudgetMatches.release (hnode : BudgetMatches dag tasks node)
    (htask : dag.getTask id = some task) (hmem : id ∈ tasks) :
    BudgetMatches dag (tasks.erase id) (node.release id task.profile) where
  memoryUsed := by
    change node.memoryUsed - task.profile.memoryBytes = _
    rw [hnode.memoryUsed, ← memoryOf_of_getTask htask]
    exact sub_eq_of_eq_add' (sum_map_eq_add_erase dag.memoryOf hmem)
  assignedCompute := by
    change node.assignedCompute - task.profile.computeCost = _
    rw [hnode.assignedCompute, ← WorkloadDAG.costOf_of_getTask htask]
    exact sub_eq_of_eq_add' (sum_map_eq_add_erase dag.costOf hmem)
  assignedTasks := hnode.assignedTasks.erase id

/-- A tentative assignment that is popped leaves the node as it was. -/
theorem BudgetMatches.unassignLast (hnode : BudgetMatches dag tasks node) (id : TaskId)
    (profile : TaskProfile) :
    BudgetMatches dag tasks ((node.assign id profile).unassignLast profile) where
  memoryUsed := (add_sub_cancel_right _ _).trans hnode.memoryUsed
  assignedCompute := (add_sub_cancel_right _ _).trans hnode.assignedCompute
  assignedTasks := by
    change (node.assignedTasks ++ [id]).dropLast.Perm tasks
    rw [List.dropLast_concat]
    exact hnode.assignedTasks

end Budgets

/-! ## The tasks of a node when one task moves -/

section AssignedTo

variable {dag : WorkloadDAG} {taskIds : List TaskId} {assignment : UnorderedMap TaskId Nat}
  {nodes : List NodeBudget} {id : TaskId} {task : Task} {f i j : Nat}

theorem mem_assignedTo {v : TaskId} :
    v ∈ assignedTo taskIds assignment i ↔ v ∈ taskIds ∧ assignment.lookup v = some i := by
  rw [assignedTo, List.mem_filter, decide_eq_true_iff]

theorem assignedTo_congr {assignment' : UnorderedMap TaskId Nat}
    (hsame : ∀ v, assignment.lookup v = assignment'.lookup v) :
    assignedTo taskIds assignment i = assignedTo taskIds assignment' i := by
  simp only [assignedTo, hsame]

/-- The task leaves the list of the node it was on. -/
theorem assignedTo_insert_from (hnodup : taskIds.Nodup) (hne : j ≠ f) :
    assignedTo taskIds (assignment.insert id j) f = (assignedTo taskIds assignment f).erase id := by
  unfold assignedTo
  rw [(hnodup.filter _).erase_eq_filter, List.filter_filter]
  apply List.filter_congr
  intro v _
  rw [UnorderedMap.lookup_insert_eq]
  by_cases hv : v = id
  · simp [hv, hne]
  · simp [hv]

/-- It enters the list of the node it moves to. -/
theorem assignedTo_insert_to (hnodup : taskIds.Nodup) (hmem : id ∈ taskIds)
    (hother : assignment.lookup id ≠ some j) :
    (assignedTo taskIds (assignment.insert id j) j).Perm
      (assignedTo taskIds assignment j ++ [id]) := by
  have hnew : id ∉ assignedTo taskIds assignment j := fun hid => hother (mem_assignedTo.1 hid).2
  have hnodup' : (assignedTo taskIds assignment j ++ [id]).Nodup :=
    List.nodup_append.2 ⟨hnodup.filter _, List.nodup_singleton id, fun a ha b hb heq =>
      hnew (List.mem_singleton.1 hb ▸ heq ▸ ha)⟩
  refine (List.perm_ext_iff_of_nodup (hnodup.filter _) hnodup').2 ?_
  intro v
  rw [← assignedTo, mem_assignedTo, List.mem_append, mem_assignedTo, List.mem_singleton,
    UnorderedMap.lookup_insert_eq]
  by_cases hv : v = id
  · simp [hv, hmem]
  · simp [hv]

/-- No other list changes. -/
theorem assignedTo_insert_other (hfrom : assignment.lookup id ≠ some i) (hto : j ≠ i) :
    assignedTo taskIds (assignment.insert id j) i = assignedTo taskIds assignment i := by
  apply List.filter_congr
  intro v _
  rw [UnorderedMap.lookup_insert_eq]
  by_cases hv : v = id
  · subst hv
    simp [hto, hfrom]
  · simp [hv]

/-- What a position holds after one position has been changed. -/
theorem exists_of_getElem?_modify {g : NodeBudget → NodeBudget} {k : Nat} {node : NodeBudget}
    (hnode : (nodes.modify k g)[i]? = some node) :
    ∃ old, nodes[i]? = some old ∧ node = if k = i then g old else old := by
  rw [List.getElem?_modify] at hnode
  rcases Option.map_eq_some_iff.1 hnode with ⟨old, hold, rfl⟩
  exact ⟨old, hold, rfl⟩

/-- The budgets follow a task that moves from `f` to `j`. -/
theorem BudgetsMatch.move (hmatch : BudgetsMatch dag taskIds assignment nodes)
    (hnodup : taskIds.Nodup) (hmem : id ∈ taskIds) (htask : dag.getTask id = some task)
    (hfrom : assignment.lookup id = some f) (hne : j ≠ f) :
    BudgetsMatch dag taskIds (assignment.insert id j) (movedNodes nodes f j id task.profile) := by
  intro i node hnode
  rcases exists_of_getElem?_modify hnode with ⟨released, hreleased, rfl⟩
  rcases exists_of_getElem?_modify hreleased with ⟨old, hold, rfl⟩
  have hold' := hmatch i old hold
  by_cases hif : f = i
  · subst hif
    rw [if_neg hne, if_pos rfl, assignedTo_insert_from hnodup hne]
    exact hold'.release htask (mem_assignedTo.2 ⟨hmem, hfrom⟩)
  · have hother : assignment.lookup id ≠ some i := by
      rw [hfrom]
      exact fun heq => hif (Option.some.inj heq)
    rw [if_neg hif]
    by_cases hji : j = i
    · subst hji
      rw [if_pos rfl]
      exact (hold'.assign htask).perm (assignedTo_insert_to hnodup hmem hother).symm
    · rw [if_neg hji, assignedTo_insert_other hother hji]
      exact hold'

/-- A move that is taken back leaves the budgets as they were, up to the order of
one task list. -/
theorem BudgetsMatch.revert (hmatch : BudgetsMatch dag taskIds assignment nodes)
    (hmem : id ∈ taskIds) (htask : dag.getTask id = some task)
    (hfrom : assignment.lookup id = some f) (hne : j ≠ f) :
    BudgetsMatch dag taskIds assignment (revertedNodes nodes f j id task.profile) := by
  intro i node hnode
  rcases exists_of_getElem?_modify hnode with ⟨popped, hpopped, rfl⟩
  rcases exists_of_getElem?_modify hpopped with ⟨moved, hmoved, rfl⟩
  rcases exists_of_getElem?_modify hmoved with ⟨released, hreleased, rfl⟩
  rcases exists_of_getElem?_modify hreleased with ⟨old, hold, rfl⟩
  have hold' := hmatch i old hold
  by_cases hif : f = i
  · subst hif
    have hself := mem_assignedTo.2 ⟨hmem, hfrom⟩
    simp only [if_neg hne, if_true]
    refine ((hold'.release htask hself).assign htask).perm ?_
    exact (List.perm_append_singleton _ _).trans (List.perm_cons_erase hself).symm
  · simp only [if_neg hif]
    by_cases hji : j = i
    · simp only [if_pos hji]
      exact hold'.unassignLast id task.profile
    · simp only [if_neg hji]
      exact hold'

end AssignedTo

/-! ## The five representations -/

/-- The estimate looks at nothing but the node of each task. -/
def LookupOnly (estimate : Nat → UnorderedMap TaskId Nat → Duration) : Prop :=
  ∀ n assignment assignment', (∀ v, assignment.lookup v = assignment'.lookup v) →
    estimate n assignment = estimate n assignment'

/-- The list schedule does so. -/
theorem makespanWith_lookupOnly (delay : U64 → Int) (h : HashOrders) (dag : WorkloadDAG) :
    LookupOnly (makespanWith delay h dag) := by
  intro n assignment assignment' hsame
  have hplace : placeTask delay dag assignment = placeTask delay dag assignment' := by
    funext s v
    simp only [placeTask, arrival, hsame]
  rw [makespanWith, makespanWith, listSchedule, listSchedule, hplace]

/-- Decisions, assignment map and budgets agree, and the makespan is the estimate for
the assignment. -/
structure Faithful (dag : WorkloadDAG) (nodeIds : List NodeId) (taskIds : List TaskId)
    (estimate : Nat → UnorderedMap TaskId Nat → Duration) (s : SearchState) : Prop where
  tracks : SearchTracks dag nodeIds s
  decided : s.decisions.map SchedulingDecision.taskId = taskIds
  keys : ∀ id, id ∈ s.assignment → id ∈ taskIds
  budgets : BudgetsMatch dag taskIds s.assignment s.nodes
  makespan : s.makespan = estimate s.nodes.length s.assignment

section Rounds

variable {dag : WorkloadDAG} {nodeIds : List NodeId} {taskIds : List TaskId} {draws : Draws}
  {estimate : Nat → UnorderedMap TaskId Nat → Duration} {s t : SearchState}
  {localNode : ResourceSnapshot} {cluster : ClusterView}

theorem map_taskId_set {decisions : List SchedulingDecision} {k : Nat} {d : SchedulingDecision}
    (hd : decisions[k]? = some d) (target : NodeId) :
    (decisions.set k { d with assignedNode := target }).map SchedulingDecision.taskId =
      decisions.map SchedulingDecision.taskId := by
  have hk : (decisions.map SchedulingDecision.taskId)[k]? = some d.taskId := by
    rw [List.getElem?_map, hd]
    rfl
  rcases List.getElem?_eq_some_iff.1 hk with ⟨hlt, hget⟩
  rw [List.map_set, ← hget]
  exact List.set_getElem_self hlt

/-- One round keeps the agreement and does not raise the makespan. -/
theorem Faithful.round (hestimate : LookupOnly estimate)
    (hs : Faithful dag nodeIds taskIds estimate s) (draws : Draws) (iter : Nat) :
    Faithful dag nodeIds taskIds estimate (searchRound draws estimate dag s iter) ∧
      (searchRound draws estimate dag s iter).makespan ≤ s.makespan := by
  have hmove := searchRound_cases draws estimate hs.tracks iter
  have htracks := hs.tracks.move hmove
  have hnodup : taskIds.Nodup := hs.decided ▸ hs.tracks.nodup
  revert htracks
  generalize searchRound draws estimate dag s iter = t at hmove
  intro htracks
  cases hmove with
  | stay => exact ⟨hs, le_rfl⟩
  | @accept f j d task target hd htask hfrom htarget hne hfits hbetter =>
    have hmem : d.taskId ∈ taskIds := by
      rw [← hs.decided]
      exact List.mem_map_of_mem (List.mem_of_getElem? hd)
    refine ⟨⟨htracks, (map_taskId_set hd target.id).trans hs.decided, ?_, ?_, ?_⟩, hbetter.le⟩
    · intro id hid
      rcases AList.mem_insert _ |>.1 hid with rfl | hid
      · exact hmem
      · exact hs.keys id hid
    · exact hs.budgets.move hnodup hmem htask hfrom hne
    · simp only [movedNodes, List.length_modify]
  | @revert f j d task hd htask hfrom hne =>
    have hmem : d.taskId ∈ taskIds := by
      rw [← hs.decided]
      exact List.mem_map_of_mem (List.mem_of_getElem? hd)
    have hsame : ∀ v, s.assignment.lookup v =
        ((s.assignment.insert d.taskId j).insert d.taskId f).lookup v := by
      intro v
      rw [UnorderedMap.lookup_insert_eq, UnorderedMap.lookup_insert_eq]
      by_cases hv : v = d.taskId
      · subst hv
        simp [hfrom]
      · simp [hv]
    refine ⟨⟨htracks, hs.decided, ?_, ?_, ?_⟩, le_rfl⟩
    · intro id hid
      rw [UnorderedMap.mem_iff_lookup] at hid
      simp only [← hsame] at hid
      exact hs.keys id (UnorderedMap.mem_iff_lookup.2 hid)
    · intro i node hnode
      rw [← assignedTo_congr hsame]
      exact hs.budgets.revert hmem htask hfrom hne i node hnode
    · rw [hs.makespan]
      simp only [revertedNodes, movedNodes, List.length_modify]
      exact hestimate _ _ _ hsame

/-- The task that a round would move is on the list of its node. -/
def MoveFound (draws : Draws) (dag : WorkloadDAG) (s : SearchState) (iter : Nat) : Prop :=
  ∀ d, s.decisions[draws.task iter % s.decisions.length]? = some d →
    (dag.getTask d.taskId).isSome →
    ∃ source, s.nodes[UnorderedMap.subscript s.assignment d.taskId]? = some source ∧
      d.taskId ∈ source.assignedTasks

theorem Faithful.moveFound (hs : Faithful dag nodeIds taskIds estimate s) (draws : Draws)
    (iter : Nat) : MoveFound draws dag s iter := by
  intro d hd hisTask
  have hmem := List.mem_of_getElem? hd
  rcases hs.tracks.assigned d hmem hisTask with ⟨f, hfrom, hname⟩
  have hsubscript : UnorderedMap.subscript s.assignment d.taskId = f := by
    rw [UnorderedMap.subscript, hfrom]
    rfl
  rw [← hs.tracks.nodes, List.getElem?_map] at hname
  rcases Option.map_eq_some_iff.1 hname with ⟨source, hsource, -⟩
  rw [hsubscript]
  refine ⟨source, hsource, (hs.budgets f source hsource).assignedTasks.mem_iff.2 ?_⟩
  apply mem_assignedTo.2
  refine ⟨?_, hfrom⟩
  rw [← hs.decided]
  exact List.mem_map_of_mem hmem

/-- With distinct nodes and every decided id a task, the assignment map is the one
that the decisions describe. -/
theorem Faithful.lookup_iff (hdistinct : nodeIds.Nodup)
    (hs : Faithful dag nodeIds taskIds estimate s)
    (htasks : ∀ id ∈ taskIds, (dag.getTask id).isSome) (id : TaskId) (j : Nat) :
    s.assignment.lookup id = some j ↔
      ∃ d ∈ s.decisions, d.taskId = id ∧ nodeIds[j]? = some d.assignedNode := by
  have hassigned : ∀ d ∈ s.decisions, ∃ i, s.assignment.lookup d.taskId = some i ∧
      nodeIds[i]? = some d.assignedNode := by
    intro d hd
    apply hs.tracks.assigned d hd
    apply htasks
    rw [← hs.decided]
    exact List.mem_map_of_mem hd
  constructor
  · intro hlookup
    have hid := hs.keys id (UnorderedMap.mem_iff_lookup.2 ⟨j, hlookup⟩)
    rw [← hs.decided] at hid
    rcases List.mem_map.1 hid with ⟨d, hd, rfl⟩
    rcases hassigned d hd with ⟨i, hi, hname⟩
    rw [hlookup] at hi
    cases hi
    exact ⟨d, hd, rfl, hname⟩
  · rintro ⟨d, hd, rfl, hname⟩
    rcases hassigned d hd with ⟨i, hi, hname'⟩
    rw [hi, (owns_of_nodup hdistinct hname' j).1 hname]

/-! ## The search as a whole -/

/-- Replaying a further decision charges it to the node that the map gives it. -/
theorem BudgetsMatch.replay {nodes : List NodeBudget} {assignment : UnorderedMap TaskId Nat}
    {id : TaskId} {task : Task} {j : Nat}
    (hmatch : BudgetsMatch dag taskIds assignment nodes) (hnew : id ∉ taskIds)
    (htask : dag.getTask id = some task) :
    BudgetsMatch dag (taskIds ++ [id]) (assignment.insert id j)
      (nodes.modify j (NodeBudget.assign id task.profile)) := by
  have hold : ∀ i, assignedTo taskIds (assignment.insert id j) i =
      assignedTo taskIds assignment i := by
    intro i
    apply List.filter_congr
    intro v hv
    have hne : v ≠ id := fun heq => hnew (heq ▸ hv)
    rw [UnorderedMap.lookup_insert_eq, if_neg hne]
  have hsplit : ∀ i, assignedTo (taskIds ++ [id]) (assignment.insert id j) i =
      assignedTo taskIds assignment i ++ if j = i then [id] else [] := by
    intro i
    rw [assignedTo, List.filter_append, ← assignedTo, hold]
    by_cases hji : j = i
    · simp [hji]
    · simp [hji]
  intro i node hnode
  rcases exists_of_getElem?_modify hnode with ⟨old, hget, rfl⟩
  rw [hsplit]
  by_cases hji : j = i
  · rw [if_pos hji, if_pos hji]
    exact (hmatch i old hget).assign htask
  · rw [if_neg hji, if_neg hji, List.append_nil]
    exact hmatch i old hget

/-- The representations agree when the search starts. -/
theorem Faithful.start (estimate : Nat → UnorderedMap TaskId Nat → Duration)
    {plan : SchedulingPlan} (hnodup : plan.taskIds.Nodup)
    (hcandidates : ∀ d ∈ plan.decisions, d.assignedNode ∈ candidateIds localNode cluster)
    (htasks : ∀ id ∈ plan.taskIds, (dag.getTask id).isSome) :
    Faithful dag (candidateIds localNode cluster) plan.taskIds estimate
      (searchStart estimate dag localNode cluster plan) := by
  have hreplay := (ForLoop.invariant plan.decisions
    (replayDecision dag (nodeIndex (nodeBudgets localNode cluster)))
    (nodeBudgets localNode cluster, ∅) (P := fun _ _ => True)
    (I := fun before state =>
      (∀ id, id ∈ state.2 → id ∈ before.map SchedulingDecision.taskId) ∧
        BudgetsMatch dag (before.map SchedulingDecision.taskId) state.2 state.1) ?_ ?_).2
  · exact ⟨searchStart_tracks estimate dag hnodup hcandidates, rfl, hreplay.1, hreplay.2, rfl⟩
  · refine ⟨fun id hid => absurd hid (AList.notMem_empty id), ?_⟩
    intro i node hnode
    have hfresh : node.memoryUsed = 0 ∧ node.assignedCompute = 0 ∧ node.assignedTasks = [] := by
      rcases List.mem_cons.1 (List.mem_of_getElem? hnode) with rfl | hmem
      · exact ⟨rfl, rfl, rfl⟩
      · rcases List.mem_map.1 hmem with ⟨peer, -, rfl⟩
        exact ⟨rfl, rfl, rfl⟩
    exact ⟨hfresh.1, hfresh.2.1, hfresh.2.2 ▸ List.Perm.refl []⟩
  · intro before d after state hplan hstate
    refine ⟨trivial, ?_⟩
    have hmem : d ∈ plan.decisions := hplan ▸ List.mem_append_right _ List.mem_cons_self
    have hnew : d.taskId ∉ before.map SchedulingDecision.taskId := by
      rw [SchedulingPlan.taskIds, hplan, List.map_append, List.map_cons] at hnodup
      exact fun hold => (List.disjoint_of_nodup_append hnodup) hold List.mem_cons_self
    have hcandidate := hcandidates d hmem
    rw [← map_id_nodeBudgets] at hcandidate
    rcases UnorderedMap.mem_iff_lookup.1 (mem_nodeIndex hcandidate) with ⟨j, hj⟩
    rcases Option.isSome_iff_exists.1 (htasks d.taskId (List.mem_map_of_mem hmem))
      with ⟨task, htask⟩
    simp only [replayDecision, htask, hj, List.map_append, List.map_singleton]
    refine ⟨?_, hstate.2.replay hnew htask⟩
    intro id hid
    rw [List.mem_append, List.mem_singleton]
    rcases AList.mem_insert _ |>.1 hid with rfl | hid
    · exact Or.inr rfl
    · exact Or.inl (hstate.1 id hid)

/-- The state before round `k`. -/
def searchState (draws : Draws) (estimate : Nat → UnorderedMap TaskId Nat → Duration)
    (dag : WorkloadDAG) (localNode : ResourceSnapshot) (cluster : ClusterView)
    (plan : SchedulingPlan) (k : Nat) : SearchState :=
  (List.range k).foldl (searchRound draws estimate dag)
    (searchStart estimate dag localNode cluster plan)

theorem searchState_succ (draws : Draws)
    (estimate : Nat → UnorderedMap TaskId Nat → Duration) (dag : WorkloadDAG)
    (localNode : ResourceSnapshot) (cluster : ClusterView) (plan : SchedulingPlan) (k : Nat) :
    searchState draws estimate dag localNode cluster plan (k + 1) =
      searchRound draws estimate dag
        (searchState draws estimate dag localNode cluster plan k) k := by
  rw [searchState, List.range_succ, List.foldl_append]
  rfl

/-- The representations agree before every round, and the makespan only falls. -/
theorem Faithful.run (hestimate : LookupOnly estimate) {plan : SchedulingPlan}
    (hstart : Faithful dag nodeIds taskIds estimate
      (searchStart estimate dag localNode cluster plan)) (draws : Draws) :
    (∀ k, Faithful dag nodeIds taskIds estimate
        (searchState draws estimate dag localNode cluster plan k)) ∧
      ∀ k l, k ≤ l → (searchState draws estimate dag localNode cluster plan l).makespan ≤
        (searchState draws estimate dag localNode cluster plan k).makespan := by
  have hall : ∀ k, Faithful dag nodeIds taskIds estimate
      (searchState draws estimate dag localNode cluster plan k) := by
    intro k
    induction k with
    | zero => exact hstart
    | succ k ih =>
      rw [searchState_succ]
      exact (ih.round hestimate draws k).1
  refine ⟨hall, fun k l hkl => ?_⟩
  induction l, hkl using Nat.le_induction with
  | base => exact le_refl _
  | succ l _ ih =>
    rw [searchState_succ]
    exact le_trans ((hall l).round hestimate draws l).2 ih

theorem localSearchWith_eq {plan : SchedulingPlan} (htwo : 2 ≤ plan.decisions.length)
    (hpeer : ∃ peer ∈ cluster.peers, peer.reachable = true) (k : Nat) :
    localSearchWith draws estimate k dag localNode cluster plan =
      { decisions := (searchState draws estimate dag localNode cluster plan k).decisions
        estimatedMakespan :=
          (searchState draws estimate dag localNode cluster plan k).makespan } := by
  have hnodes : 2 ≤ (nodeBudgets localNode cluster).length := by
    rcases hpeer with ⟨peer, hpeer, hreachable⟩
    have hpos : 0 < (cluster.peers.filter PeerInfo.reachable).length :=
      List.length_pos_of_mem (List.mem_filter.2 ⟨hpeer, hreachable⟩)
    rw [nodeBudgets, List.length_cons, List.length_map]
    omega
  rw [localSearchWith, if_neg (Nat.not_lt.2 htwo), if_neg (Nat.not_lt.2 hnodes)]
  rfl

end Rounds

/-- The assignment map of a plan, as phase 3 reads it off the decisions. -/
def planAssignment (dag : WorkloadDAG) (localNode : ResourceSnapshot) (cluster : ClusterView)
    (plan : SchedulingPlan) : UnorderedMap TaskId Nat :=
  (plan.decisions.foldl (replayDecision dag (nodeIndex (nodeBudgets localNode cluster)))
    (nodeBudgets localNode cluster, ∅)).2

/-- The estimated makespan of the assignment in a plan's decisions. -/
def planMakespan (delay : U64 → Int) (h : HashOrders) (dag : WorkloadDAG)
    (localNode : ResourceSnapshot) (cluster : ClusterView) (plan : SchedulingPlan) : Duration :=
  makespanWith delay h dag (nodeBudgets localNode cluster).length
    (planAssignment dag localNode cluster plan)

/-- The map gives each decided task the position of the node that its decision names,
and nothing else. -/
def AssignmentOf (nodeIds : List NodeId) (decisions : List SchedulingDecision)
    (assignment : UnorderedMap TaskId Nat) : Prop :=
  ∀ id j, assignment.lookup id = some j ↔
    ∃ d ∈ decisions, d.taskId = id ∧ nodeIds[j]? = some d.assignedNode

section Search

variable {dag : WorkloadDAG} {localNode : ResourceSnapshot} {cluster : ClusterView}
  {taskIds : List TaskId} {delay : U64 → Int} {h : HashOrders} {s : SearchState}

/-- The makespan of a faithful state is that of its decisions. -/
theorem Faithful.makespan_eq (hdistinct : (candidateIds localNode cluster).Nodup)
    (htasks : ∀ id ∈ taskIds, (dag.getTask id).isSome)
    (hs : Faithful dag (candidateIds localNode cluster) taskIds (makespanWith delay h dag) s)
    {plan : SchedulingPlan} (hplan : plan.decisions = s.decisions) :
    s.makespan = planMakespan delay h dag localNode cluster plan := by
  have hids : plan.taskIds = taskIds := by
    rw [SchedulingPlan.taskIds, hplan, hs.decided]
  have hcandidates : ∀ d ∈ plan.decisions, d.assignedNode ∈ candidateIds localNode cluster := by
    intro d hd
    rw [hplan] at hd
    have hisTask := htasks d.taskId (hs.decided ▸ List.mem_map_of_mem hd)
    rcases hs.tracks.assigned d hd hisTask with ⟨j, -, hname⟩
    exact List.mem_of_getElem? hname
  have hnodup : plan.taskIds.Nodup := by
    rw [hids, ← hs.decided]
    exact hs.tracks.nodup
  have hstart : Faithful dag (candidateIds localNode cluster) plan.taskIds
      (makespanWith delay h dag)
      (searchStart (makespanWith delay h dag) dag localNode cluster plan) :=
    Faithful.start _ hnodup hcandidates (hids ▸ htasks)
  have hsame : ∀ v, s.assignment.lookup v =
      (planAssignment dag localNode cluster plan).lookup v := by
    intro v
    apply Option.ext
    intro j
    rw [hs.lookup_iff hdistinct htasks, ← hplan]
    exact (hstart.lookup_iff hdistinct (hids ▸ htasks) v j).symm
  have hlength : s.nodes.length = (nodeBudgets localNode cluster).length := by
    rw [← List.length_map (f := NodeBudget.id), hs.tracks.nodes, ← map_id_nodeBudgets,
      List.length_map]
  rw [hs.makespan, hlength]
  exact makespanWith_lookupOnly delay h dag _ _ _ hsame

/-- For every graph of tasks, every plan of phases 1 and 2 with two decisions or
more, every cluster of distinct nodes with a reachable peer, all draws and any
transfer delay: before every round the task to be moved is on the list of its node,
the assignment map is that of the decisions and the budgets are those of the
assignment.  The returned makespan is that of the returned decisions, at most that
of the plan, and never larger for more rounds. -/
theorem localSearch_faithful (ops : List WorkloadDAG.BuildOp)
    (hends : (WorkloadDAG.build ops).EndpointsAreTasks) (env : SchedulerEnv)
    (localNode : ResourceSnapshot) (cluster : ClusterView)
    (hdistinct : (candidateIds localNode cluster).Nodup)
    (hpeer : ∃ peer ∈ cluster.peers, peer.reachable = true) (plan : SchedulingPlan)
    (hplan : plan = packedPlan env (WorkloadDAG.build ops) localNode cluster)
    (htwo : 2 ≤ plan.decisions.length) (delay : U64 → Int) (h : HashOrders) (draws : Draws) :
    let dag := WorkloadDAG.build ops
    let estimate := makespanWith delay h dag
    let state := searchState draws estimate dag localNode cluster plan
    let result := fun maxIterations =>
      localSearchWith draws estimate maxIterations dag localNode cluster plan
    (∀ k, MoveFound draws dag (state k) k ∧
      AssignmentOf (candidateIds localNode cluster) (state k).decisions (state k).assignment ∧
      BudgetsMatch dag ((state k).decisions.map SchedulingDecision.taskId) (state k).assignment
        (state k).nodes) ∧
    (∀ k, (result k).decisions = (state k).decisions ∧
      (result k).estimatedMakespan = planMakespan delay h dag localNode cluster (result k) ∧
      (result k).estimatedMakespan ≤ planMakespan delay h dag localNode cluster plan) ∧
    ∀ k l, k ≤ l → (result l).estimatedMakespan ≤ (result k).estimatedMakespan := by
  intro dag estimate state result
  have hshape : PlanShape (dag.topologicalOrder env.hash) (candidateIds localNode cluster)
      plan := by
    rw [hplan]
    apply binPackRemaining_shape env
    intro id hid
    exact ((hends.mem_topologicalOrder_iff env.hash id).1 hid).1
  have htasks : ∀ id ∈ plan.taskIds, (dag.getTask id).isSome := by
    intro id hid
    have hlisted := hshape.taskIds_perm.mem_iff.1 hid
    exact WorkloadDAG.getTask_isSome.2 ((hends.mem_topologicalOrder_iff env.hash id).1 hlisted).1
  have hnodup : plan.taskIds.Nodup :=
    hshape.taskIds_perm.nodup_iff.2 (dag.topologicalOrder_nodup env.hash)
  have hstart : Faithful dag (candidateIds localNode cluster) plan.taskIds estimate
      (searchStart estimate dag localNode cluster plan) :=
    Faithful.start estimate hnodup hshape.assigned htasks
  rcases hstart.run (makespanWith_lookupOnly delay h dag) draws with ⟨hall, hfalls⟩
  have hresult : ∀ k, result k = { decisions := (state k).decisions
                                   estimatedMakespan := (state k).makespan } :=
    fun k => localSearchWith_eq htwo hpeer k
  refine ⟨?_, ?_, ?_⟩
  · intro k
    refine ⟨(hall k).moveFound draws k, (hall k).lookup_iff hdistinct htasks, ?_⟩
    rw [(hall k).decided]
    exact (hall k).budgets
  · intro k
    have hdecisions : (result k).decisions = (state k).decisions := by rw [hresult]
    have hmakespan : (result k).estimatedMakespan = (state k).makespan := by rw [hresult]
    refine ⟨hdecisions, ?_, ?_⟩
    · rw [hmakespan]
      exact (hall k).makespan_eq hdistinct htasks hdecisions
    · rw [hmakespan]
      exact (hfalls 0 k (Nat.zero_le k)).trans (hstart.makespan_eq hdistinct htasks rfl).le
  · intro k l hkl
    rw [hresult, hresult]
    exact hfalls k l hkl

/-- Three tasks without dependencies. -/
def independentExample : List WorkloadDAG.BuildOp :=
  [.addTask { id := [97], profile := { computeCost := 3, memoryBytes := 1 } },
    .addTask { id := [98], profile := { computeCost := 5, memoryBytes := 2 } },
    .addTask { id := [99], profile := { computeCost := 4, memoryBytes := 1 } }]

/-- One reachable peer. -/
def onePeer : ClusterView :=
  ⟨[{ nodeId := [112], resources := { nodeId := [112], memoryAvailableBytes := 8 } }]⟩

theorem localSearch_faithful_independentExample :
    2 ≤ (packedPlan Policy.hostEnv (WorkloadDAG.build independentExample) { nodeId := [115] }
        onePeer).decisions.length ∧
      ∀ k l, k ≤ l →
        (localSearchWith ⟨id, id⟩ (makespanWith (fun bytes => bytes.toNat) .insertion
          (WorkloadDAG.build independentExample)) l (WorkloadDAG.build independentExample)
          { nodeId := [115] } onePeer (packedPlan Policy.hostEnv
            (WorkloadDAG.build independentExample) { nodeId := [115] } onePeer)).estimatedMakespan ≤
        (localSearchWith ⟨id, id⟩ (makespanWith (fun bytes => bytes.toNat) .insertion
          (WorkloadDAG.build independentExample)) k (WorkloadDAG.build independentExample)
          { nodeId := [115] } onePeer (packedPlan Policy.hostEnv
            (WorkloadDAG.build independentExample) { nodeId := [115] }
              onePeer)).estimatedMakespan :=
  ⟨by decide +kernel,
    (localSearch_faithful independentExample (by decide) Policy.hostEnv _ _ (by decide)
      ⟨_, List.mem_cons_self, rfl⟩ _ rfl (by decide +kernel) _ _ _).2.2⟩

end Search

end EdgeOrchestrator
