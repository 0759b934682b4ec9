import EdgeOrchestrator.Workload.Metrics
import Mathlib.Algebra.Order.Group.Int
import Mathlib.Algebra.Order.Group.Nat
import Mathlib.Order.Lattice.Nat

/-!
# Longest paths

What the distances and levels of the metrics mean on the graph: the distance of a
task is the largest cost of a directed path that ends in it, and its level is the
largest number of edges on such a path.

Main results:

- `WorkloadDAG.Closed.isGreatest_dist` and `WorkloadDAG.Closed.level_eq_depth`: the two tables.
- `WorkloadDAG.criticalPathCost_isGreatest`: the critical path cost is the largest cost of a
  directed path.
-/

namespace EdgeOrchestrator

namespace WorkloadDAG

/-! ## Directed paths -/

/-- A directed path of the graph: a task, or tasks each of which has an edge to
the next one. -/
structure IsPath (dag : WorkloadDAG) (path : List TaskId) : Prop where
  nonempty : path ≠ []
  tasks : ∀ v ∈ path, v ∈ dag.tasks
  chain : path.IsChain dag.Edge

/-- The compute costs along a path. -/
def pathCost (dag : WorkloadDAG) (path : List TaskId) : Duration :=
  (path.map dag.costOf).sum

/-- No task has a negative compute cost. -/
def NonnegCosts (dag : WorkloadDAG) : Prop :=
  ∀ id ∈ dag.tasks.keys, 0 ≤ dag.costOf id

instance (dag : WorkloadDAG) : Decidable dag.NonnegCosts :=
  inferInstanceAs (Decidable (∀ id ∈ dag.tasks.keys, 0 ≤ dag.costOf id))

/-- The largest number of edges on a path that ends in a task. -/
noncomputable def depth (dag : WorkloadDAG) (v : TaskId) : Nat :=
  sSup {n | ∃ path ∈ LongestPath.PathsTo dag.Edge v, path.length = n + 1}

section Paths

variable {dag : WorkloadDAG} {path : List TaskId} {v : TaskId}

theorem NonnegCosts.costOf_nonneg (hcosts : dag.NonnegCosts) (id : TaskId) : 0 ≤ dag.costOf id := by
  by_cases hid : id ∈ dag.tasks
  · exact hcosts id (AList.mem_keys.1 hid)
  · have hnone : dag.getTask id = none := by
      rw [← Option.not_isSome_iff_eq_none, getTask_isSome]
      exact hid
    rw [costOf, hnone]
    exact le_rfl

theorem pathWeight_costOf (dag : WorkloadDAG) (path : List TaskId) :
    LongestPath.pathWeight dag.costOf dag.costOf path = dag.pathCost path := by
  cases path with
  | nil => rfl
  | cons v rest => rw [LongestPath.pathWeight, pathCost, List.map_cons, List.sum_cons]

/-- With one unit per edge the weight of a path is its number of edges. -/
theorem pathWeight_one {path : List TaskId} (hne : path ≠ []) :
    LongestPath.pathWeight (fun _ => 0) (fun _ => 1) path + 1 = path.length := by
  cases path with
  | nil => exact absurd rfl hne
  | cons v rest => simp [LongestPath.pathWeight]

/-- Every vertex on a path that ends in a task is a task. -/
theorem EndpointsAreTasks.isPath (hends : dag.EndpointsAreTasks) (hv : v ∈ dag.tasks)
    (hpath : path ∈ LongestPath.PathsTo dag.Edge v) : dag.IsPath path := by
  refine ⟨LongestPath.ne_nil_of_mem_pathsTo hpath, ?_, hpath.1⟩
  induction path using List.reverseRecOn generalizing v with
  | nil =>
    intro w hw
    cases hw
  | append_singleton init last ih =>
    rcases LongestPath.pathsTo_cases hpath with hsingle | ⟨u, init', hinit, huv, heq⟩
    · intro w hw
      rw [hsingle, List.mem_singleton] at hw
      rw [hw]
      exact hv
    · rcases List.append_inj' heq rfl with ⟨rfl, hlast⟩
      obtain rfl : last = v := List.singleton_inj.1 hlast
      intro w hw
      rcases List.mem_append.1 hw with hw | hw
      · exact ih (hends u last huv).1 hinit w hw
      · rw [List.mem_singleton.1 hw]
        exact hv

/-- A path of the graph ends in one of its tasks. -/
theorem IsPath.exists_mem_pathsTo (hpath : dag.IsPath path) :
    ∃ v ∈ dag.tasks, path ∈ LongestPath.PathsTo dag.Edge v := by
  refine ⟨path.getLast hpath.nonempty, hpath.tasks _ (List.getLast_mem _), hpath.chain, ?_⟩
  exact List.getLast?_eq_some_getLast hpath.nonempty

end Paths

/-! ## The two tables -/

namespace Closed

variable {dag : WorkloadDAG} {h : HashOrders}

/-- The distance of a task is the largest cost of a path that ends in it. -/
theorem isGreatest_dist (hdag : dag.Closed) (hcosts : dag.NonnegCosts) {v : TaskId}
    (hv : v ∈ dag.tasks) :
    IsGreatest {x | ∃ path ∈ LongestPath.PathsTo dag.Edge v, x = dag.pathCost path}
      (UnorderedMap.subscript (criticalPathDist h dag) v) := by
  simp only [← pathWeight_costOf]
  refine (hdag.criticalPathDist_settling (h := h)).2.table.isGreatest_pathWeight
    (dag.topologicalOrder_predsEarlier h) (dag.topologicalOrder_nodup h)
    hcosts.costOf_nonneg (fun _ => le_rfl) ?_ ?_ v ((hdag.mem_topologicalOrder v).2 hv)
  · intro w _ hsource
    have hempty : dag.dependencies w = [] := by
      apply List.eq_nil_iff_forall_not_mem.2
      exact fun u hu => hsource u (hdag.mirrored.mem_dependencies.1 hu)
    rw [seedOf, hempty, List.isEmpty_nil, if_pos rfl]
    exact max_eq_right (hcosts.costOf_nonneg w)
  · intro u w _ huw m
    have hmem : u ∈ dag.dependencies w := hdag.mirrored.mem_dependencies.2 huw
    rw [seedOf, if_neg]
    rw [List.isEmpty_iff]
    exact List.ne_nil_of_mem hmem

/-- The level of a task is the largest number of edges on a path that ends in it. -/
theorem isGreatest_level (hdag : dag.Closed) {v : TaskId} (hv : v ∈ dag.tasks) :
    IsGreatest {n | ∃ path ∈ LongestPath.PathsTo dag.Edge v, path.length = n + 1}
      (UnorderedMap.subscript (levels h dag) v) := by
  have hgreatest : IsGreatest {x | ∃ path ∈ LongestPath.PathsTo dag.Edge v,
        x = LongestPath.pathWeight (fun _ => 0) (fun _ => 1) path}
      (UnorderedMap.subscript (levels h dag) v) :=
    (hdag.levels_table (h := h)).2.isGreatest_pathWeight
      (dag.topologicalOrder_predsEarlier h) (dag.topologicalOrder_nodup h)
      (fun _ => le_rfl) (fun _ => Nat.zero_le 1) (fun _ _ _ => rfl) (fun _ _ _ _ _ => rfl)
      v ((hdag.mem_topologicalOrder v).2 hv)
  have hset : {x | ∃ path ∈ LongestPath.PathsTo dag.Edge v,
        x = LongestPath.pathWeight (fun _ => 0) (fun _ => 1) path} =
      {n | ∃ path ∈ LongestPath.PathsTo dag.Edge v, path.length = n + 1} := by
    ext n
    apply exists_congr
    intro path
    apply and_congr_right
    intro hpath
    have hlength := pathWeight_one (LongestPath.ne_nil_of_mem_pathsTo hpath)
    omega
  rw [hset] at hgreatest
  exact hgreatest

/-- The level of a task is its depth in the graph. -/
theorem level_eq_depth (hdag : dag.Closed) {v : TaskId} (hv : v ∈ dag.tasks) :
    UnorderedMap.subscript (levels h dag) v = dag.depth v :=
  (hdag.isGreatest_level hv).csSup_eq.symm

/-- Some path attains the depth. -/
theorem isGreatest_depth (hdag : dag.Closed) {v : TaskId} (hv : v ∈ dag.tasks) :
    IsGreatest {n | ∃ path ∈ LongestPath.PathsTo dag.Edge v, path.length = n + 1}
      (dag.depth v) := by
  rw [← hdag.level_eq_depth (h := .insertion) hv]
  exact hdag.isGreatest_level hv

end Closed

/-! ## The critical path -/

theorem closed_build {ops : List BuildOp} (hends : (build ops).EndpointsAreTasks)
    (hacyclic : (build ops).Acyclic) : (build ops).Closed :=
  ⟨build_mirrored ops, hends, hacyclic⟩

/-- On an acyclic graph of tasks with costs that are not negative, however it was
built and traversed, the critical path cost is the largest cost of a directed path;
without tasks there is no path and the cost is zero. -/
theorem criticalPathCost_isGreatest (ops : List BuildOp)
    (hends : (build ops).EndpointsAreTasks) (hacyclic : (build ops).Acyclic)
    (hcosts : (build ops).NonnegCosts) (h : HashOrders) :
    ((build ops).taskCount ≠ 0 →
      IsGreatest {cost | ∃ path, (build ops).IsPath path ∧ cost = (build ops).pathCost path}
        (criticalPathCost h (build ops))) ∧
    ((build ops).taskCount = 0 → criticalPathCost h (build ops) = 0) := by
  have hdag := closed_build hends hacyclic
  have hdist : ∀ v ∈ (build ops).tasks, IsGreatest _ _ :=
    fun v hv => hdag.isGreatest_dist (h := h) hcosts hv
  rcases hdag.isGreatest_criticalPathCost (h := h) with ⟨hmem, hbound⟩
  have hupper : ∀ path, (build ops).IsPath path →
      (build ops).pathCost path ≤ criticalPathCost h (build ops) := by
    intro path hpath
    rcases hpath.exists_mem_pathsTo with ⟨v, hv, hto⟩
    exact ((hdist v hv).2 ⟨path, hto, rfl⟩).trans (hbound (Or.inr ⟨v, hv, rfl⟩))
  constructor
  · intro hcount
    refine ⟨?_, ?_⟩
    · rcases hmem with hzero | ⟨v, hv, hcost⟩
      · -- Some task is a path by itself, so the bound by zero is attained.
        obtain ⟨v, hv⟩ := List.exists_mem_of_length_pos (Nat.pos_of_ne_zero hcount)
        have hpath := hends.isPath (AList.mem_keys.2 hv)
          (LongestPath.singleton_mem_pathsTo (build ops).Edge v)
        refine ⟨[v], hpath, le_antisymm ?_ (hupper [v] hpath)⟩
        rw [hzero, pathCost, List.map_singleton, List.sum_singleton]
        exact hcosts.costOf_nonneg v
      · rcases (hdist v hv).1 with ⟨path, hpath, hvalue⟩
        exact ⟨path, hends.isPath hv hpath, hcost.trans hvalue⟩
    · rintro cost ⟨path, hpath, rfl⟩
      exact hupper path hpath
  · intro hcount
    rw [criticalPathCost, if_pos]
    exact List.isEmpty_iff.2 (List.length_eq_zero_iff.1 hcount)

/-- A diamond with a doubled edge. -/
def diamondExample : List BuildOp :=
  [.addTask { id := [97], profile := { computeCost := 2, memoryBytes := 4 } },
    .addTask { id := [98], profile := { computeCost := 3, memoryBytes := 1 } },
    .addTask { id := [99], profile := { computeCost := 5, memoryBytes := 2 } },
    .addTask { id := [100], profile := { computeCost := 1, memoryBytes := 1 } },
    .addDependency [97] [98], .addDependency [97] [98], .addDependency [97] [99],
    .addDependency [98] [100], .addDependency [99] [100]]

theorem diamondExample_acyclic : (build diamondExample).Acyclic :=
  (EndpointsAreTasks.hasCycle_eq_false_iff (by decide) .insertion).1 (by decide)

theorem criticalPathCost_diamondExample :
    criticalPathCost .insertion (build diamondExample) = 8 ∧
      IsGreatest {cost | ∃ path, (build diamondExample).IsPath path ∧
          cost = (build diamondExample).pathCost path}
        (criticalPathCost .insertion (build diamondExample)) :=
  ⟨by decide,
    (criticalPathCost_isGreatest diamondExample (by decide) diamondExample_acyclic (by decide)
      .insertion).1 (by decide)⟩

end WorkloadDAG

end EdgeOrchestrator
