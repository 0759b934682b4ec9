import EdgeOrchestrator.Scheduler.LocalSearch
import EdgeOrchestrator.Scheduler.Makespan

/-!
# What the optimizer promises

Phase 1 computes longest distances a second time, next to the graph's own
`critical_path_cost`, and records for every relaxed task where it was relaxed from.
A task without such a link is a source or costs nothing, so that following the links
back from a task of maximal distance collects a path of maximal cost.

The makespan that a plan reports is written at the end of phase 3 only.  With a single
task, or without a reachable peer, phase 3 returns before it, and the plan promises to
take no time at all.

Main results:

- `criticalSet_isCritical`: the traced tasks are a path of maximal cost.
- `criticalPathAssignment_isPath`: phase 1 places a critical path on the local node.
- `estimatedMakespan_ge_iff`: when the reported makespan is at least the critical path cost.
-/

namespace EdgeOrchestrator

open UnorderedMap (lookup_insert_eq mem_foldl_insert subscript subscript_foldl_insert_default
  subscript_insert subscript_touch)
open WorkloadDAG

/-! ## Links -/

/-- The loop of phase 1 after the tasks `before`: its distances are longest ones, a link is
an edge that attains the distance of its target, and a task without a link has the cost of
a source or nothing. -/
structure Linked (dag : WorkloadDAG) (before : List TaskId) (s : LongestPaths) : Prop where
  keys : ∀ v, v ∈ s.dist ↔ v ∈ dag.tasks
  settling : LongestPath.Settling dag.Edge dag.costOf dag.seedOf before
    (subscript s.dist)
  linked : ∀ v u, s.predecessor.lookup v = some u → dag.Edge u v ∧ u ∈ before ∧
    subscript s.dist v = subscript s.dist u + dag.costOf v
  unlinked : ∀ v, s.predecessor.lookup v = none →
    subscript s.dist v =
      if v ∈ before ∧ dag.dependencies v = [] then dag.costOf v else 0

section Links

variable {dag : WorkloadDAG} {h : HashOrders} {u v w : TaskId} {s : LongestPaths}

theorem relaxDependent_dist (dag : WorkloadDAG) (u : TaskId) (s : LongestPaths) (v : TaskId) :
    (relaxDependent dag u s v).dist = relaxEdge dag u s.dist v := by
  unfold relaxDependent relaxEdge
  cases dag.getTask v with
  | none => rfl
  | some task => exact apply_ite LongestPaths.dist _ _ _

theorem foldl_relaxDependent_dist (targets : List TaskId) (s : LongestPaths) :
    (targets.foldl (relaxDependent dag u) s).dist =
      targets.foldl (relaxEdge dag u) s.dist := by
  induction targets generalizing s with
  | nil => rfl
  | cons v targets ih => rw [List.foldl_cons, List.foldl_cons, ih, relaxDependent_dist]

/-- Relaxing an edge links its target and gives it the distance over the edge, or changes
nothing. -/
theorem relaxDependent_cases (hv : v ∈ dag.tasks) (s : LongestPaths) (w : TaskId) :
    (w = v ∧ (relaxDependent dag u s v).predecessor.lookup w = some u ∧
        subscript (relaxDependent dag u s v).dist w =
          subscript s.dist u + dag.costOf w) ∨
      ((relaxDependent dag u s v).predecessor.lookup w = s.predecessor.lookup w ∧
        subscript (relaxDependent dag u s v).dist w =
          subscript s.dist w) := by
  rcases exists_getTask hv with ⟨task, htask⟩
  simp only [relaxDependent, htask, subscript_touch]
  split
  · by_cases hwv : w = v
    · left
      subst hwv
      rw [lookup_insert_eq, subscript_insert, if_pos rfl, if_pos rfl,
        costOf_of_getTask htask]
      exact ⟨rfl, rfl, rfl⟩
    · right
      rw [lookup_insert_eq, subscript_insert, if_neg hwv, if_neg hwv,
        subscript_touch, subscript_touch]
      exact ⟨rfl, rfl⟩
  · right
    simp

/-- The same for all edges out of a task. -/
theorem foldl_relaxDependent_cases {targets : List TaskId}
    (htasks : ∀ v ∈ targets, v ∈ dag.tasks) (hu : u ∉ targets) (s : LongestPaths) (w : TaskId) :
    (w ∈ targets ∧ (targets.foldl (relaxDependent dag u) s).predecessor.lookup w = some u ∧
        subscript (targets.foldl (relaxDependent dag u) s).dist w =
          subscript s.dist u + dag.costOf w) ∨
      ((targets.foldl (relaxDependent dag u) s).predecessor.lookup w = s.predecessor.lookup w ∧
        subscript (targets.foldl (relaxDependent dag u) s).dist w =
          subscript s.dist w) := by
  induction targets generalizing s with
  | nil => exact Or.inr ⟨rfl, rfl⟩
  | cons v targets ih =>
    rw [List.mem_cons, not_or] at hu
    have hone := relaxDependent_cases (u := u) (htasks v List.mem_cons_self) s
    have hself : subscript (relaxDependent dag u s v).dist u =
        subscript s.dist u := by
      rcases hone u with ⟨huv, -⟩ | ⟨-, hkeep⟩
      · exact absurd huv hu.1
      · exact hkeep
    rw [List.foldl_cons]
    rcases ih (fun x hx => htasks x (List.mem_cons_of_mem _ hx)) hu.2
        (relaxDependent dag u s v) with ⟨hw, hlink, hdist⟩ | ⟨hlink, hdist⟩
    · rw [hself] at hdist
      exact Or.inl ⟨List.mem_cons_of_mem _ hw, hlink, hdist⟩
    · rw [hlink, hdist]
      rcases hone w with ⟨hwv, hrest⟩ | hkeep
      · exact Or.inl ⟨List.mem_cons.2 (Or.inl hwv), hrest⟩
      · exact Or.inr hkeep

/-- Where a source has no distance yet, phase 1 settles a task as the graph does. -/
theorem relaxFrom_dist
    (hsource : dag.dependencies u = [] → subscript s.dist u ≤ dag.costOf u) :
    (relaxFrom dag s u).dist = settleTask dag s.dist u := by
  unfold relaxFrom settleTask
  cases htask : dag.getTask u with
  | none => rfl
  | some task =>
    simp only
    rw [foldl_relaxDependent_dist, apply_ite LongestPaths.dist]
    by_cases hempty : dag.dependencies u = []
    · have hle := hsource hempty
      rw [costOf_of_getTask htask] at hle
      rw [max_eq_right hle]
    · have hfalse : ¬ (dag.dependencies u).isEmpty = true := by
        simpa using hempty
      rw [if_neg hfalse, if_neg hfalse]

/-- What one iteration does to the links and distances. -/
theorem relaxFrom_cases (hdag : dag.Closed) (hu : u ∈ dag.tasks) (s : LongestPaths)
    (w : TaskId) :
    (dag.Edge u w ∧ (relaxFrom dag s u).predecessor.lookup w = some u ∧
        subscript (relaxFrom dag s u).dist w =
          subscript (relaxFrom dag s u).dist u + dag.costOf w) ∨
      ((relaxFrom dag s u).predecessor.lookup w = s.predecessor.lookup w ∧
        subscript (relaxFrom dag s u).dist w =
          if w = u ∧ dag.dependencies u = [] then dag.costOf u
          else subscript s.dist w) := by
  rcases exists_getTask hu with ⟨task, htask⟩
  have hloop : u ∉ dag.dependents u := fun hmem => hdag.acyclic u (Relation.TransGen.single hmem)
  have htargets : ∀ v ∈ dag.dependents u, v ∈ dag.tasks := fun v hv => (hdag.endpoints u v hv).2
  set fixed : LongestPaths :=
    if (dag.dependencies u).isEmpty then
      { s with dist := s.dist.insert u task.profile.computeCost }
    else s with hfixed
  have hfold : relaxFrom dag s u = (dag.dependents u).foldl (relaxDependent dag u) fixed := by
    rw [relaxFrom, htask]
  have hpredecessor : fixed.predecessor = s.predecessor := by
    rw [hfixed]
    split
    · rfl
    · rfl
  have hdist : ∀ x, subscript fixed.dist x =
      if x = u ∧ dag.dependencies u = [] then dag.costOf u
      else subscript s.dist x := by
    intro x
    rw [hfixed]
    by_cases hempty : dag.dependencies u = []
    · simp only [hempty, List.isEmpty_nil, if_true, and_true, subscript_insert,
        costOf_of_getTask htask]
    · have hfalse : (dag.dependencies u).isEmpty = false := by
        simpa using hempty
      simp only [hfalse, Bool.false_eq_true, if_false, hempty, and_false]
  have hcases := foldl_relaxDependent_cases htargets hloop fixed
  rw [← hfold, hpredecessor] at hcases
  have hself : subscript (relaxFrom dag s u).dist u =
      subscript fixed.dist u := by
    rcases hcases u with ⟨hmem, -⟩ | ⟨-, hkeep⟩
    · exact absurd hmem hloop
    · exact hkeep
  rcases hcases w with ⟨hw, hlink, hvalue⟩ | ⟨hlink, hvalue⟩
  · rw [← hself] at hvalue
    exact Or.inl ⟨hw, hlink, hvalue⟩
  · rw [hdist] at hvalue
    exact Or.inr ⟨hlink, hvalue⟩

/-- One iteration keeps the links. -/
theorem relaxFrom_linked (hdag : dag.Closed) (hcosts : dag.NonnegCosts) {before : List TaskId}
    (hs : Linked dag before s) (hu : u ∈ dag.tasks) (hnew : u ∉ before)
    (hclosed : ∀ v ∈ before, ¬ dag.Edge u v) :
    Linked dag (before ++ [u]) (relaxFrom dag s u) := by
  have hcases := relaxFrom_cases hdag hu s
  have hnoPred : dag.dependencies u = [] → s.predecessor.lookup u = none := by
    intro hempty
    cases hlink : s.predecessor.lookup u with
    | none => rfl
    | some x =>
      have hmem := hdag.mirrored.mem_dependencies.2 (hs.linked u x hlink).1
      rw [hempty] at hmem
      cases hmem
  have hdist : (relaxFrom dag s u).dist = settleTask dag s.dist u := by
    apply relaxFrom_dist
    intro hempty
    rw [hs.unlinked u (hnoPred hempty), if_neg fun hin => hnew hin.1]
    exact hcosts.costOf_nonneg u
  have hkept : ∀ x ∈ before, subscript (relaxFrom dag s u).dist x =
      subscript s.dist x := by
    intro x hx
    rcases hcases x with ⟨hedge, -⟩ | ⟨-, hvalue⟩
    · exact absurd hedge (hclosed x hx)
    · rw [hvalue, if_neg]
      rintro ⟨rfl, -⟩
      exact hnew hx
  constructor
  · intro v
    rw [hdist]
    exact hdag.mem_settleTask hu hs.keys
  · rw [hdist]
    exact hdag.settleTask_step hu hnew hclosed hs.settling
  · intro v x hlink
    rcases hcases v with ⟨hedge, hlink', hvalue⟩ | ⟨hlink', hvalue⟩
    · rw [hlink'] at hlink
      cases hlink
      exact ⟨hedge, List.mem_append_right _ (List.mem_singleton.2 rfl), hvalue⟩
    · rw [hlink'] at hlink
      rcases hs.linked v x hlink with ⟨hedge, hx, hold⟩
      refine ⟨hedge, List.mem_append_left _ hx, ?_⟩
      rw [hvalue, hkept x hx, if_neg, hold]
      rintro ⟨rfl, hempty⟩
      rw [hnoPred hempty] at hlink
      cases hlink
  · intro v hlink
    rcases hcases v with ⟨-, hlink', -⟩ | ⟨hlink', hvalue⟩
    · rw [hlink'] at hlink
      cases hlink
    · rw [hlink'] at hlink
      rw [hvalue, hs.unlinked v hlink]
      by_cases hvu : v = u
      · subst hvu
        by_cases hempty : dag.dependencies v = []
        · simp [hempty]
        · simp [hempty]
      · simp [hvu]

/-- The links when the loop is done. -/
theorem longestPaths_linked (hdag : dag.Closed) (hcosts : dag.NonnegCosts) :
    Linked dag (dag.topologicalOrder h) (longestPaths h dag) := by
  apply (dag.topologicalOrder_predsEarlier h).foldl_induction (dag.topologicalOrder_nodup h)
  · have hzero : ∀ v, subscript ((dag.topologicalOrder h).foldl
        (fun dist id => dist.insert id 0) (∅ : UnorderedMap TaskId Int)) v = 0 :=
      fun v => subscript_foldl_insert_default ∅ (fun _ => rfl) _ v
    constructor
    · intro v
      rw [mem_foldl_insert, hdag.mem_topologicalOrder]
      exact or_iff_right (AList.notMem_empty v)
    · exact LongestPath.Settling.nil hzero
    · intro v u hlink
      cases hlink
    · intro v _
      rw [hzero, if_neg fun hin => List.not_mem_nil hin.1]
  · intro before u s hs hu hnew _ hclosed
    exact relaxFrom_linked hdag hcosts hs ((hdag.mem_topologicalOrder u).1 hu) hnew hclosed

/-- The distances are those of `critical_path_cost`. -/
theorem longestPaths_dist_eq (hdag : dag.Closed) (hcosts : dag.NonnegCosts) (h h' : HashOrders)
    (hv : v ∈ dag.tasks) :
    subscript (longestPaths h dag).dist v =
      subscript (criticalPathDist h' dag) v := by
  apply (longestPaths_linked hdag hcosts).settling.table.unique
    (dag.topologicalOrder_predsEarlier h) (dag.topologicalOrder_nodup h) _
    (hdag.criticalPathDist_settling (h := h')).2.table v ((hdag.mem_topologicalOrder v).2 hv)
  intro w
  rw [hdag.mem_topologicalOrder, hdag.mem_topologicalOrder]

theorem costOf_le_dist (hdag : dag.Closed) (hcosts : dag.NonnegCosts) (hv : v ∈ dag.tasks) :
    dag.costOf v ≤ subscript (longestPaths h dag).dist v := by
  rw [longestPaths_dist_eq hdag hcosts h h hv]
  apply (hdag.isGreatest_dist hcosts hv).2
  refine ⟨[v], LongestPath.singleton_mem_pathsTo dag.Edge v, ?_⟩
  rw [pathCost, List.map_singleton, List.sum_singleton]

/-- A task without a link is a source or costs nothing; its distance is its cost. -/
theorem dist_of_unlinked (hdag : dag.Closed) (hcosts : dag.NonnegCosts) (hv : v ∈ dag.tasks)
    (hlink : (longestPaths h dag).predecessor.lookup v = none) :
    subscript (longestPaths h dag).dist v = dag.costOf v := by
  have hvalue := (longestPaths_linked (h := h) hdag hcosts).unlinked v hlink
  by_cases hempty : dag.dependencies v = []
  · rw [hvalue, if_pos ⟨(hdag.mem_topologicalOrder v).2 hv, hempty⟩]
  · rw [if_neg fun hin => hempty hin.2] at hvalue
    apply le_antisymm _ (costOf_le_dist hdag hcosts hv)
    rw [hvalue]
    exact hcosts.costOf_nonneg v

end Links

/-! ## Tracing back -/

/-- A state of the trace: the collected tasks are a path, and the current task continues it
to the front with what is missing of the distance `goal`. -/
structure TraceInv (dag : WorkloadDAG) (dist : TaskId → Int) (goal : Int)
    (s : TaskId × List TaskId) : Prop where
  chain : s.2.IsChain dag.Edge
  tasks : ∀ v ∈ s.2, v ∈ dag.tasks
  continues : s.1 ≠ [] → s.1 ∈ dag.tasks ∧ (∀ v ∈ s.2.head?, dag.Edge s.1 v) ∧
    dist s.1 + dag.pathCost s.2 = goal
  complete : s.1 = [] → s.2 ≠ [] ∧ dag.pathCost s.2 = goal

section Trace

variable {dag : WorkloadDAG} {h : HashOrders}

/-- The loop over the distance map returns a task of maximal distance. -/
theorem endTask_spec {dist : UnorderedMap TaskId Int} (hne : ∃ v, v ∈ dist)
    (hnonneg : ∀ v ∈ dist, 0 ≤ subscript dist v) :
    endTask h dist ∈ dist ∧
      ∀ v ∈ dist, subscript dist v ≤ subscript dist (endTask h dist) := by
  rcases LongestPath.foldl_argmax_spec (subscript dist) (h.dist.order dist.keys)
    (-1, []) with ⟨hfrom, -, hbound⟩
  simp only [IterationOrder.mem_order, ← AList.mem_keys] at hfrom hbound
  rcases hfrom with hnone | ⟨hmem, hvalue⟩
  · -- some distance is above `-1`
    rcases hne with ⟨v, hv⟩
    have hle := hbound v hv
    rw [hnone] at hle
    have := hnonneg v hv
    omega
  · refine ⟨hmem, fun v hv => ?_⟩
    rw [endTask, ← hvalue]
    exact hbound v hv

/-- One iteration of the trace. -/
theorem traceStep_inv (hdag : dag.Closed) (hcosts : dag.NonnegCosts) (hids : [] ∉ dag.tasks)
    {goal : Int} {s t : TaskId × List TaskId}
    (hs : TraceInv dag (subscript (longestPaths h dag).dist) goal s)
    (hstep : traceStep (longestPaths h dag).predecessor s = .inl t) :
    TraceInv dag (subscript (longestPaths h dag).dist) goal t := by
  unfold traceStep at hstep
  split at hstep
  · cases hstep
  · rename_i hcurr
    cases hstep
    rcases hs.continues hcurr with ⟨htask, hhead, hcost⟩
    have hchain : (s.1 :: s.2).IsChain dag.Edge := List.isChain_cons.2 ⟨hhead, hs.chain⟩
    have htasks : ∀ v ∈ s.1 :: s.2, v ∈ dag.tasks := by
      intro v hv
      rcases List.mem_cons.1 hv with rfl | hv
      · exact htask
      · exact hs.tasks v hv
    have hsum : dag.pathCost (s.1 :: s.2) = dag.costOf s.1 + dag.pathCost s.2 := by
      rw [pathCost, List.map_cons, List.sum_cons]
      rfl
    cases hlink : (longestPaths h dag).predecessor.lookup s.1 with
    | none =>
      have hdist := dist_of_unlinked hdag hcosts htask hlink
      refine ⟨hchain, htasks, fun hne => absurd rfl hne, fun _ => ⟨List.cons_ne_nil _ _, ?_⟩⟩
      rw [hsum, ← hdist, hcost]
    | some u =>
      rcases (longestPaths_linked (h := h) hdag hcosts).linked s.1 u hlink
        with ⟨hedge, -, hdist⟩
      have hu : u ∈ dag.tasks := (hdag.endpoints u s.1 hedge).1
      refine ⟨hchain, htasks, fun _ => ⟨hu, ?_, ?_⟩, fun hnil => ?_⟩
      · intro v hv
        cases hv
        exact hedge
      · rw [hdist] at hcost
        simp only [Option.getD_some]
        rw [hsum]
        omega
      · exact absurd (hnil ▸ hu) hids

/-- The trace starts at a task whose distance is the critical path cost. -/
theorem endTask_longestPaths (hdag : dag.Closed) (hcosts : dag.NonnegCosts)
    (hne : dag.taskCount ≠ 0) (h' : HashOrders) :
    endTask h (longestPaths h dag).dist ∈ dag.tasks ∧
      subscript (longestPaths h dag).dist (endTask h (longestPaths h dag).dist) =
        criticalPathCost h' dag := by
  have hlinked := longestPaths_linked (h := h) hdag hcosts
  obtain ⟨v, hv⟩ := List.exists_mem_of_length_pos (Nat.pos_of_ne_zero hne)
  have hnonneg : ∀ v ∈ (longestPaths h dag).dist,
      0 ≤ subscript (longestPaths h dag).dist v := by
    intro v hv
    exact (hcosts.costOf_nonneg v).trans (costOf_le_dist hdag hcosts ((hlinked.keys v).1 hv))
  rcases endTask_spec (h := h) ⟨v, (hlinked.keys v).2 (AList.mem_keys.2 hv)⟩ hnonneg
    with ⟨hmem, hmax⟩
  have htask := (hlinked.keys _).1 hmem
  have hgreatest := hdag.isGreatest_criticalPathCost (h := h')
  refine ⟨htask, le_antisymm ?_ ?_⟩
  · rw [longestPaths_dist_eq hdag hcosts h h' htask]
    exact hgreatest.2 (Or.inr ⟨_, htask, rfl⟩)
  · rcases hgreatest.1 with hzero | ⟨w, hw, hcost⟩
    · rw [hzero]
      exact hnonneg _ hmem
    · rw [hcost, ← longestPaths_dist_eq hdag hcosts h h' hw]
      exact hmax w ((hlinked.keys w).2 hw)

/-- The traced tasks are a path whose cost is the largest distance. -/
theorem criticalSet_isCritical (hdag : dag.Closed) (hcosts : dag.NonnegCosts)
    (hids : [] ∉ dag.tasks) (hne : dag.taskCount ≠ 0) (h' : HashOrders) :
    dag.IsPath (criticalSet h dag) ∧
      dag.pathCost (criticalSet h dag) = criticalPathCost h' dag := by
  rcases endTask_longestPaths (h := h) hdag hcosts hne h' with ⟨htask, hgoal⟩
  have hstart : TraceInv dag (subscript (longestPaths h dag).dist)
      (criticalPathCost h' dag) (endTask h (longestPaths h dag).dist, []) := by
    refine ⟨List.isChain_nil, fun v hv => absurd hv List.not_mem_nil, fun _ => ⟨htask, ?_, ?_⟩, ?_⟩
    · intro v hv
      cases hv
    · rw [hgoal]
      exact add_zero _
    · intro hnil
      exact absurd (hnil ▸ htask) hids
  refine FuelLoop.run_invariant
    (Q := fun path => dag.IsPath path ∧
      dag.pathCost path = criticalPathCost h' dag)
    (fun s t hs => traceStep_inv hdag hcosts hids hs) ?_ hstart
    (criticalSet_terminates h dag le_rfl)
  intro s path hs hexit
  unfold traceStep at hexit
  split at hexit
  · rename_i hcurr
    cases hexit
    rcases hs.complete hcurr with ⟨hnonempty, hcost⟩
    exact ⟨⟨hnonempty, hs.tasks, hs.chain⟩, hcost⟩
  · cases hexit

end Trace

/-- On every graph of tasks without a cycle, with ids that are not empty and costs that are
not negative, and for every traversal of the hash maps: the trace back ends, and phase 1
places exactly the tasks of one directed path of maximal cost, all of them on the local
node. -/
theorem criticalPathAssignment_isPath (ops : List WorkloadDAG.BuildOp)
    (hends : (build ops).EndpointsAreTasks)
    (hacyclic : (build ops).Acyclic) (hcosts : (build ops).NonnegCosts)
    (hne : (build ops).taskCount ≠ 0) (hids : [] ∉ (build ops).tasks)
    (localNode : ResourceSnapshot) (h h' : HashOrders) :
    let dag := build ops
    let plan := criticalPathAssignment h dag localNode
    (∀ fuel, (dag.topologicalOrder h).length + 2 ≤ fuel →
      criticalSetFuel h dag fuel = some (criticalSet h dag)) ∧
    (∀ d ∈ plan.decisions, d.assignedNode = localNode.nodeId) ∧
    ∃ path, dag.IsPath path ∧ (∀ id, id ∈ plan.taskIds ↔ id ∈ path) ∧
      dag.pathCost path = criticalPathCost h' dag := by
  intro dag plan
  have hdag : dag.Closed := closed_build hends hacyclic
  rcases criticalSet_isCritical (h := h) hdag hcosts hids hne h' with ⟨hpath, hcost⟩
  have hlisted : dag.topologicalOrder h ≠ [] := by
    rw [← List.length_pos_iff_ne_nil, hdag.length_topologicalOrder]
    exact Nat.pos_of_ne_zero hne
  have hplan : plan.decisions =
      ((dag.topologicalOrder h).filter fun id => id ∈ criticalSet h dag).map fun id =>
        ⟨id, localNode.nodeId, .optimizationResult⟩ := by
    simp only [plan, criticalPathAssignment, List.isEmpty_iff, hlisted, if_false]
  refine ⟨fun fuel => criticalSet_terminates h dag, ?_, criticalSet h dag, hpath, ?_, hcost⟩
  · intro d hd
    rw [hplan] at hd
    rcases List.mem_map.1 hd with ⟨id, -, rfl⟩
    rfl
  · intro id
    have hids : plan.taskIds =
        (dag.topologicalOrder h).filter fun id => id ∈ criticalSet h dag := by
      rw [SchedulingPlan.taskIds, hplan, List.map_map]
      exact List.map_id _
    rw [hids, List.mem_filter, decide_eq_true_iff, hdag.mem_topologicalOrder]
    exact and_iff_right_of_imp (hpath.tasks id)

/-- In the diamond, the path over the costlier branch. -/
theorem criticalPathAssignment_diamondExample :
    (criticalPathAssignment .insertion (build diamondExample)
        { nodeId := [115] }).taskIds = [[97], [99], [100]] ∧
      ∃ path, (build diamondExample).IsPath path ∧
        (∀ id, id ∈ (criticalPathAssignment .insertion
          (build diamondExample) { nodeId := [115] }).taskIds ↔
            id ∈ path) ∧
        (build diamondExample).pathCost path =
          criticalPathCost .insertion
            (build diamondExample) :=
  ⟨by decide,
    (criticalPathAssignment_isPath diamondExample (by decide)
      diamondExample_acyclic (by decide) (by decide) (by decide) _ _ _).2.2⟩

/-! ## The reported makespan -/

section Promise

variable {dag : WorkloadDAG} {localNode : ResourceSnapshot} {cluster : ClusterView}

/-- Every task has a node in every state of the search. -/
theorem Faithful.totalAssignment {nodeIds : List NodeId} {taskIds : List TaskId}
    {estimate : Nat → UnorderedMap TaskId Nat → Duration} {s : SearchState}
    (hs : Faithful dag nodeIds taskIds estimate s) (hall : ∀ v ∈ dag.tasks, v ∈ taskIds) :
    TotalAssignment dag s.nodes.length s.assignment := by
  intro v hv
  have htask := AList.mem_keys.2 hv
  have hdecided := hall v htask
  rw [← hs.decided] at hdecided
  rcases List.mem_map.1 hdecided with ⟨d, hd, rfl⟩
  rcases hs.tracks.assigned d hd (getTask_isSome.2 htask) with ⟨j, hlookup, hname⟩
  refine ⟨j, ?_, hlookup⟩
  rw [← List.length_map (f := NodeBudget.id), hs.tracks.nodes]
  exact (List.getElem?_eq_some_iff.1 hname).1

/-- Phase 3 returns early. -/
theorem localSearchImprove_of_not {env : SchedulerEnv} {config : OptimizerPolicyConfig}
    {plan : SchedulingPlan}
    (hearly : ¬ (2 ≤ plan.decisions.length ∧ ∃ peer ∈ cluster.peers, peer.reachable = true)) :
    localSearchImprove env config dag localNode cluster plan = plan := by
  rw [localSearchImprove, localSearchWith]
  split
  · rfl
  · rename_i htwo
    rw [if_pos]
    have hnone : cluster.peers.filter PeerInfo.reachable = [] := by
      apply List.filter_eq_nil_iff.2
      intro peer hpeer hreachable
      exact hearly ⟨not_lt.1 htwo, peer, hpeer, hreachable⟩
    rw [nodeBudgets, hnone]
    exact Nat.one_lt_two

/-- After phase 3 has run, the makespan is that of a schedule of all tasks. -/
theorem criticalPathCost_le_localSearchImprove (hdag : dag.Closed) (hcosts : dag.NonnegCosts)
    {env : SchedulerEnv} {config : OptimizerPolicyConfig}
    (hdelay : ∀ bytes, 0 ≤ transferDelay env.floats config.communicationWeight bytes)
    {plan : SchedulingPlan}
    (hplan : PlanShape (dag.topologicalOrder env.hash) (candidateIds localNode cluster) plan)
    (htwo : 2 ≤ plan.decisions.length)
    (hpeer : ∃ peer ∈ cluster.peers, peer.reachable = true) (h' : HashOrders) :
    criticalPathCost h' dag ≤
      (localSearchImprove env config dag localNode cluster plan).estimatedMakespan := by
  have hmem : ∀ v, v ∈ plan.taskIds ↔ v ∈ dag.tasks := by
    intro v
    rw [hplan.taskIds_perm.mem_iff, hdag.mem_topologicalOrder]
  have hnodup : plan.taskIds.Nodup :=
    hplan.taskIds_perm.nodup_iff.2 (dag.topologicalOrder_nodup env.hash)
  have hstart := Faithful.start
    (estimateMakespan env.floats env.hash config.communicationWeight dag) hnodup hplan.assigned
    fun v hv => getTask_isSome.2 ((hmem v).1 hv)
  have hlookup : LookupOnly
      (estimateMakespan env.floats env.hash config.communicationWeight dag) :=
    makespanWith_lookupOnly _ _ _
  have hlast := (hstart.run hlookup env.draws).1 config.maxIterations
  rw [localSearchImprove, localSearchWith_eq htwo hpeer, hlast.makespan]
  exact criticalPathCost_le_makespanWith hdag hcosts
    (hlast.totalAssignment fun v hv => (hmem v).2 hv) hdelay h'

end Promise

/-- All costs and transfer delays together fit into an int64 number of microseconds. -/
def TimesInRange (delay : U64 → Int) (dag : WorkloadDAG) : Prop :=
  (dag.tasks.keys.map dag.costOf).sum + transferTotal delay dag < 2 ^ 63

instance (delay : U64 → Int) (dag : WorkloadDAG) : Decidable (TimesInRange delay dag) :=
  inferInstanceAs (Decidable (_ < _))

/-- For every graph of tasks without a cycle and with costs that are not negative, every
node, cluster, number of rounds, draws and delay that is not negative, with all costs and
delays together in the range of int64.  No sum leaves that range: the makespan, which is at
least every arrival and every end of a task, stays in it for every assignment.  The plan's
makespan is at least the critical path cost exactly when phase 3 does not return early, or
when no task costs anything. -/
theorem estimatedMakespan_ge_iff (ops : List WorkloadDAG.BuildOp)
    (hends : (build ops).EndpointsAreTasks)
    (hacyclic : (build ops).Acyclic) (hcosts : (build ops).NonnegCosts)
    (env : SchedulerEnv) (config : OptimizerPolicyConfig) (localNode : ResourceSnapshot)
    (cluster : ClusterView)
    (hdelay : ∀ bytes, 0 ≤ transferDelay env.floats config.communicationWeight bytes)
    (hrange : TimesInRange (transferDelay env.floats config.communicationWeight)
      (build ops)) (h' : HashOrders) :
    let dag := build ops
    (∀ nodeCount assignment, TotalAssignment dag nodeCount assignment →
      estimateMakespan env.floats env.hash config.communicationWeight dag nodeCount assignment <
        2 ^ 63) ∧
    (criticalPathCost h' dag ≤
        (optimizerSchedule env config dag localNode cluster).estimatedMakespan ↔
      (2 ≤ dag.taskCount ∧ ∃ peer ∈ cluster.peers, peer.reachable = true) ∨
        ∀ v ∈ dag.tasks, dag.costOf v = 0) := by
  intro dag
  have hdag : dag.Closed := closed_build hends hacyclic
  refine ⟨fun nodeCount assignment htotal => ?_, ?_⟩
  · have hserial := makespanWith_le (h := env.hash) hdag hcosts htotal hdelay h'
    have hcross : crossNodeDelay _ dag assignment ≤ transferTotal _ dag :=
      crossNodeDelay_le_transferTotal hdelay
    rw [totalComputeCost_eq_sum] at hserial
    exact (hserial.trans (by gcongr)).trans_lt hrange
  have hshape : PlanShape (dag.topologicalOrder env.hash) (candidateIds localNode cluster)
      (binPackRemaining env dag localNode cluster
        (criticalPathAssignment env.hash dag localNode)) :=
    binPackRemaining_shape env fun id hid => (hdag.mem_topologicalOrder id).1 hid
  have hlength : (binPackRemaining env dag localNode cluster
      (criticalPathAssignment env.hash dag localNode)).decisions.length = dag.taskCount := by
    rw [← hdag.length_topologicalOrder (h := env.hash), ← hshape.taskIds_perm.length_eq,
      SchedulingPlan.taskIds, List.length_map]
  have hgreatest := hdag.isGreatest_criticalPathCost (h := h')
  rw [optimizerSchedule]
  by_cases hsearch : 2 ≤ dag.taskCount ∧ ∃ peer ∈ cluster.peers, peer.reachable = true
  · rw [← hlength] at hsearch
    have hle := criticalPathCost_le_localSearchImprove hdag hcosts hdelay hshape hsearch.1
      hsearch.2 h'
    rw [hlength] at hsearch
    exact iff_of_true hle (Or.inl hsearch)
  · rw [localSearchImprove_of_not (hlength.symm ▸ hsearch)]
    have hzero : (binPackRemaining env dag localNode cluster
        (criticalPathAssignment env.hash dag localNode)).estimatedMakespan = 0 := by
      rw [binPackRemaining, criticalPathAssignment]
      split
      · rfl
      · rfl
    rw [hzero, or_iff_right hsearch]
    constructor
    · intro hle v hv
      have hcost := costOf_le_dist (h := h') hdag hcosts hv
      rw [longestPaths_dist_eq hdag hcosts h' h' hv] at hcost
      have hbound := hgreatest.2 (Or.inr ⟨v, hv, rfl⟩)
      exact le_antisymm ((hcost.trans hbound).trans hle) (hcosts.costOf_nonneg v)
    · intro hfree
      rcases hgreatest.1 with hnone | ⟨v, hv, hcost⟩
      · exact hnone.le
      · rcases (hdag.isGreatest_dist (h := h') hcosts hv).1 with ⟨path, hpath, hvalue⟩
        rw [hcost, hvalue]
        apply le_of_eq
        apply List.sum_eq_zero
        intro x hx
        rcases List.mem_map.1 hx with ⟨w, hw, rfl⟩
        exact hfree w ((hends.isPath hv hpath).tasks w hw)

/-- The host with whole numbers in place of floats. -/
def wholeNumberEnv : SchedulerEnv :=
  { Policy.hostEnv with floats := .wholeNumber }

theorem transferDelay_wholeNumber_nonneg (commWeight : F32) (bytes : U64) :
    0 ≤ transferDelay wholeNumberEnv.floats commWeight bytes :=
  Int.natCast_nonneg _

/-- Three tasks and one reachable peer. -/
theorem estimatedMakespan_ge_independentExample :
    (2 ≤ (build independentExample).taskCount ∧
        ∃ peer ∈ onePeer.peers, peer.reachable = true) ∧
      criticalPathCost .insertion (build independentExample) ≤
        (optimizerSchedule wholeNumberEnv ⟨3, 1⟩ (build independentExample)
          { nodeId := [115] } onePeer).estimatedMakespan := by
  have hsearch : 2 ≤ (build independentExample).taskCount ∧
      ∃ peer ∈ onePeer.peers, peer.reachable = true :=
    ⟨by decide, _, List.mem_cons_self, rfl⟩
  have hends : (build independentExample).EndpointsAreTasks := by decide
  have hacyclic := (hends.hasCycle_eq_false_iff .insertion).1 (by decide)
  exact ⟨hsearch, (estimatedMakespan_ge_iff independentExample hends hacyclic (by decide)
    wholeNumberEnv ⟨3, 1⟩ _ _ (transferDelay_wholeNumber_nonneg 1) (by decide +kernel)
      .insertion).2.2 (Or.inl hsearch)⟩

/-- A single task of cost five, promised to take no time. -/
def singleTask : List WorkloadDAG.BuildOp :=
  [.addTask { id := [97], profile := { computeCost := 5 } }]

theorem optimizer_promises_nothing :
    (∀ bytes, 0 ≤ transferDelay wholeNumberEnv.floats 1 bytes) ∧
      criticalPathCost .insertion (build singleTask) = 5 ∧
      (optimizerSchedule wholeNumberEnv ⟨3, 1⟩ (build singleTask)
        { nodeId := [115] } onePeer).estimatedMakespan = 0 :=
  ⟨transferDelay_wholeNumber_nonneg 1, by decide, by decide +kernel⟩

end EdgeOrchestrator
