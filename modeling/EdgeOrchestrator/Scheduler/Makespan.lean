import EdgeOrchestrator.Library.ListScheduling
import EdgeOrchestrator.Scheduler.Optimizer
import EdgeOrchestrator.Workload.CriticalPath
import Mathlib.Algebra.Order.BigOperators.Group.List

/-!
# Bounds on the estimated makespan

`estimate_makespan` is a list schedule with one execution slot per node, in the
topological order of the graph.  Its times are those of the abstract list schedule
whose jobs are the tasks, whose durations are the compute costs and whose transfer
delays are paid on edges between different nodes.  The delay may be any function of
the number of bytes that is never negative.

Main results:

- `listSchedule_valid`: the bounds of the abstract schedule hold of the whole loop.
- `makespan_bounds`: the makespan against the critical path, the load of each node and the
  serial time.
-/

namespace EdgeOrchestrator

open UnorderedMap (mem_iff_lookup subscript subscript_insert)
open WorkloadDAG

namespace WorkloadDAG

/-- The output of a task in bytes; zero for an id that is no task. -/
def outputBytesOf (dag : WorkloadDAG) (id : TaskId) : U64 :=
  ((dag.getTask id).map fun task => task.profile.outputBytes).getD 0

end WorkloadDAG

/-- Every task is on one of the nodes. -/
def TotalAssignment (dag : WorkloadDAG) (nodeCount : Nat) (assignment : UnorderedMap TaskId Nat) :
    Prop :=
  ∀ v ∈ dag.tasks.keys, ∃ j < nodeCount, assignment.lookup v = some j

instance (dag : WorkloadDAG) (nodeCount : Nat) (assignment : UnorderedMap TaskId Nat) :
    Decidable (TotalAssignment dag nodeCount assignment) :=
  inferInstanceAs (Decidable (∀ v ∈ dag.tasks.keys, ∃ j < nodeCount, assignment.lookup v = some j))

/-- The compute cost of the tasks on one node. -/
def nodeLoad (dag : WorkloadDAG) (assignment : UnorderedMap TaskId Nat) (j : Nat) : Duration :=
  ((dag.tasks.keys.filter fun v => assignment.lookup v = some j).map dag.costOf).sum

variable (delay : U64 → Int) (dag : WorkloadDAG) (assignment : UnorderedMap TaskId Nat)

/-- The transfer delays of the edges into a task that come from another node; a
repeated edge counts once. -/
def inboundDelay (v : TaskId) : Int :=
  (((dag.dependencies v).dedup.filter fun u => assignment.lookup u ≠ assignment.lookup v).map
    fun u => delay (dag.outputBytesOf u)).sum

/-- The transfer delays of all edges between different nodes. -/
def crossNodeDelay : Int :=
  (dag.tasks.keys.map (inboundDelay delay dag assignment)).sum

/-- The transfer delays of all edges. -/
def transferTotal : Int :=
  (dag.tasks.keys.map fun v =>
    ((dag.dependencies v).dedup.map fun u => delay (dag.outputBytesOf u)).sum).sum

/-! ## The abstract schedule -/

/-- The tasks as jobs. -/
def scheduleJobs :
    ListScheduling.Jobs TaskId Nat where
  edge := dag.Edge
  cost := dag.costOf
  node v := subscript assignment v
  delay u v :=
    if assignment.lookup u ≠ assignment.lookup v then delay (dag.outputBytesOf u) else 0

/-- The loop variables as times. -/
def ListSchedule.timeline (s : ListSchedule) : ListScheduling.Timeline TaskId Nat where
  finish v := subscript s.endTime v
  free j := s.nodeFree.getD j 0
  makespan := s.makespan

section Makespan

variable {delay : U64 → Int} {dag : WorkloadDAG} {assignment : UnorderedMap TaskId Nat}
  {nodeCount : Nat} {h : HashOrders}

theorem outputBytesOf_of_getTask {v : TaskId} {task : Task} (htask : dag.getTask v = some task) :
    dag.outputBytesOf v = task.profile.outputBytes := by
  rw [outputBytesOf, htask]
  rfl

theorem subscript_of_lookup {v : TaskId} {j : Nat} (hlookup : assignment.lookup v = some j) :
    subscript assignment v = j := by
  rw [subscript, hlookup]
  rfl

/-- The output of a dependency that has run arrives after its transfer. -/
theorem arrival_eq {endTime : UnorderedMap TaskId Int} {u v : TaskId} {i j : Nat}
    (hend : u ∈ endTime) (htask : u ∈ dag.tasks) (hu : assignment.lookup u = some i)
    (hv : assignment.lookup v = some j) :
    arrival delay dag assignment endTime j u =
      some (subscript endTime u + (scheduleJobs delay dag assignment).delay u v) := by
  rcases mem_iff_lookup.1 hend with ⟨time, htime⟩
  rcases exists_getTask htask with ⟨task, hget⟩
  have hsubscript : subscript endTime u = time := by
    rw [subscript, htime]
    rfl
  simp only [arrival, htime, hu, hget, scheduleJobs, hv, hsubscript, outputBytesOf_of_getTask hget]
  by_cases hsame : i = j
  · simp [hsame]
  · simp [hsame]

/-- A loop that keeps the larger of the times that exist. -/
theorem foldl_arrival {deps : List TaskId} {time : TaskId → Option Int} {f : TaskId → Int}
    (hall : ∀ dep ∈ deps, time dep = some (f dep)) (acc : Int) :
    deps.foldl (fun ready dep =>
        match time dep with
        | none => ready
        | some t => max ready t) acc =
      deps.foldl (fun ready dep => max ready (f dep)) acc := by
  induction deps generalizing acc with
  | nil => rfl
  | cons dep deps ih =>
    rw [List.foldl_cons, List.foldl_cons, hall dep List.mem_cons_self]
    exact ih (fun d hd => hall d (List.mem_cons_of_mem _ hd)) _

/-- One iteration places one job. -/
theorem placeTask_places (hdag : dag.Closed)
    (htotal : TotalAssignment dag nodeCount assignment) {s : ListSchedule} {v : TaskId}
    (hv : v ∈ dag.tasks) (hpreds : ∀ u, dag.Edge u v → u ∈ s.endTime)
    (hlength : s.nodeFree.length = nodeCount) :
    ListScheduling.Places (scheduleJobs delay dag assignment) s.timeline v
      (placeTask delay dag assignment s v).timeline := by
  rcases exists_getTask hv with ⟨task, htask⟩
  rcases htotal v (AList.mem_keys.1 hv) with ⟨node, hnode, hlookup⟩
  have hsubscript := subscript_of_lookup hlookup
  have harrivals : ∀ dep ∈ dag.dependencies v,
      arrival delay dag assignment s.endTime node dep =
        some (subscript s.endTime dep +
          (scheduleJobs delay dag assignment).delay dep v) := by
    intro dep hdep
    have hedge := hdag.mirrored.mem_dependencies.1 hdep
    have hdepTask := (hdag.endpoints dep v hedge).1
    rcases htotal dep (AList.mem_keys.1 hdepTask) with ⟨i, -, hdepNode⟩
    exact arrival_eq (hpreds dep hedge) hdepTask hdepNode hlookup
  have hready := LongestPath.isGreatest_foldl_max
    (fun dep => subscript s.endTime dep +
      (scheduleJobs delay dag assignment).delay dep v) (dag.dependencies v) 0
  rw [← foldl_arrival harrivals] at hready
  have hset : ListScheduling.Arrivals (scheduleJobs delay dag assignment) s.timeline v =
      {x | x = 0 ∨ ∃ dep ∈ dag.dependencies v, x = subscript s.endTime dep +
        (scheduleJobs delay dag assignment).delay dep v} := by
    ext x
    simp only [ListScheduling.Arrivals, Set.mem_ofPred_eq, hdag.mirrored.mem_dependencies]
    rfl
  have hlt : node < s.nodeFree.length := by
    rw [hlength]
    exact hnode
  simp only [placeTask, htask, hlookup]
  constructor
  · refine ⟨_, hset ▸ hready, ?_⟩
    simp only [ListSchedule.timeline, subscript_insert, if_pos]
    rw [← costOf_of_getTask htask, ← hsubscript]
    rfl
  · intro u huv
    simp only [ListSchedule.timeline, subscript_insert, if_neg huv]
  · simp only [ListSchedule.timeline, subscript_insert, if_pos]
    change (s.nodeFree.set node _).getD (subscript assignment v) 0 = _
    rw [hsubscript, List.getD_eq_getElem?_getD, List.getElem?_set_self hlt]
    rfl
  · intro j hj
    have hne : node ≠ j := fun heq => hj (heq.symm.trans hsubscript.symm)
    simp only [ListSchedule.timeline, List.getD_eq_getElem?_getD, List.getElem?_set_ne hne]
  · simp only [ListSchedule.timeline, subscript_insert, if_pos]

theorem mem_placeTask {s : ListSchedule} {v : TaskId} {node : Nat} (hv : v ∈ dag.tasks)
    (hlookup : assignment.lookup v = some node) (w : TaskId) :
    (w ∈ (placeTask delay dag assignment s v).endTime ↔ w = v ∨ w ∈ s.endTime) ∧
      (placeTask delay dag assignment s v).nodeFree.length = s.nodeFree.length := by
  rcases exists_getTask hv with ⟨task, htask⟩
  simp only [placeTask, htask, hlookup]
  exact ⟨AList.mem_insert _, List.length_set⟩

/-- Each transfer to a task is among the delays that are counted for it. -/
theorem delay_le_inboundDelay (hdag : dag.Closed) (hdelay : ∀ bytes, 0 ≤ delay bytes)
    {u v : TaskId} (huv : dag.Edge u v) :
    0 ≤ (scheduleJobs delay dag assignment).delay u v ∧
      (scheduleJobs delay dag assignment).delay u v ≤ inboundDelay delay dag assignment v := by
  have hnonneg : ∀ x ∈ ((dag.dependencies v).dedup.filter fun u =>
      assignment.lookup u ≠ assignment.lookup v).map fun u => delay (dag.outputBytesOf u),
      0 ≤ x := by
    intro x hx
    rcases List.mem_map.1 hx with ⟨w, -, rfl⟩
    exact hdelay _
  simp only [scheduleJobs]
  split
  · rename_i hcross
    refine ⟨hdelay _, List.single_le_sum hnonneg _ (List.mem_map.2 ⟨u, ?_, rfl⟩)⟩
    rw [List.mem_filter, List.mem_dedup]
    exact ⟨hdag.mirrored.mem_dependencies.2 huv, by simpa using hcross⟩
  · exact ⟨le_rfl, List.sum_nonneg hnonneg⟩

theorem inboundDelay_nonneg (hdelay : ∀ bytes, 0 ≤ delay bytes) (v : TaskId) :
    0 ≤ inboundDelay delay dag assignment v := by
  apply List.sum_nonneg
  intro x hx
  rcases List.mem_map.1 hx with ⟨w, -, rfl⟩
  exact hdelay _

/-- The bounds of the abstract schedule hold at the end of the loop. -/
theorem listSchedule_valid (hdag : dag.Closed) (hcosts : dag.NonnegCosts)
    (htotal : TotalAssignment dag nodeCount assignment) (hdelay : ∀ bytes, 0 ≤ delay bytes) :
    ListScheduling.Valid (scheduleJobs delay dag assignment) (inboundDelay delay dag assignment)
      (dag.topologicalOrder h) (listSchedule delay h dag nodeCount assignment).timeline := by
  refine ((dag.topologicalOrder_predsEarlier h).foldl_induction (dag.topologicalOrder_nodup h)
    (placeTask delay dag assignment) _
    (I := fun before s => (∀ v, v ∈ s.endTime ↔ v ∈ before) ∧ s.nodeFree.length = nodeCount ∧
      ListScheduling.Valid (scheduleJobs delay dag assignment)
        (inboundDelay delay dag assignment) before s.timeline) ?_ ?_).2.2
  · refine ⟨fun v => by simp, List.length_replicate, ListScheduling.Valid.nil ?_ rfl⟩
    intro j
    simp only [ListSchedule.timeline, List.getD_eq_getElem?_getD, List.getElem?_replicate]
    split
    · rfl
    · rfl
  · rintro before v s ⟨hkeys, hlength, hs⟩ hv hnew hpreds hclosed
    have htask := (hdag.mem_topologicalOrder v).1 hv
    rcases htotal v (AList.mem_keys.1 htask) with ⟨node, -, hlookup⟩
    have hplace : ListScheduling.Places (scheduleJobs delay dag assignment) s.timeline v
        (placeTask delay dag assignment s v).timeline :=
      placeTask_places hdag htotal htask (fun u huv => (hkeys u).2 (hpreds u huv)) hlength
    refine ⟨?_, ?_, hs.place hplace hnew hpreds hclosed (hcosts.costOf_nonneg v)
      (fun u huv => delay_le_inboundDelay hdag hdelay huv) (inboundDelay_nonneg hdelay v)⟩
    · intro w
      rw [(mem_placeTask htask hlookup w).1, hkeys, List.mem_append, List.mem_singleton]
      exact or_comm
    · rw [(mem_placeTask htask hlookup v).2, hlength]

/-- No schedule ends before the critical path does. -/
theorem criticalPathCost_le_makespanWith (hdag : dag.Closed) (hcosts : dag.NonnegCosts)
    (htotal : TotalAssignment dag nodeCount assignment) (hdelay : ∀ bytes, 0 ≤ delay bytes)
    (h' : HashOrders) :
    criticalPathCost h' dag ≤ makespanWith delay h dag nodeCount assignment := by
  have hvalid := listSchedule_valid (h := h) hdag hcosts htotal hdelay
  rcases (hdag.isGreatest_criticalPathCost (h := h')).1 with hzero | ⟨v, hv, hcost⟩
  · rw [hzero]
    exact hvalid.makespan_nonneg
  · rcases (hdag.isGreatest_dist (h := h') hcosts hv).1 with ⟨path, hpath, hvalue⟩
    have hlisted := (hdag.mem_topologicalOrder (h := h) v).2 hv
    rw [hcost, hvalue]
    apply le_trans (hvalid.pathCost_le _ hpath hlisted) (hvalid.finish_le v hlisted)
    intro w _ u huw
    exact (hdag.mem_topologicalOrder u).2 (hdag.endpoints u w huw).1

/-- The loop visits the tasks. -/
theorem topologicalOrder_perm (hdag : dag.Closed) :
    (dag.topologicalOrder h).Perm dag.tasks.keys := by
  refine (List.perm_ext_iff_of_nodup (dag.topologicalOrder_nodup h) (AList.keys_nodup _)).2 ?_
  intro v
  rw [hdag.mem_topologicalOrder, AList.mem_keys]

theorem load_scheduleJobs (hdag : dag.Closed)
    (htotal : TotalAssignment dag nodeCount assignment) (j : Nat) :
    ListScheduling.load (scheduleJobs delay dag assignment) (dag.topologicalOrder h) j =
      nodeLoad dag assignment j := by
  have hfilter : (dag.tasks.keys.filter fun v => subscript assignment v = j) =
      dag.tasks.keys.filter fun v => assignment.lookup v = some j := by
    apply List.filter_congr
    intro v hv
    rcases htotal v hv with ⟨i, -, hlookup⟩
    rw [subscript_of_lookup hlookup, hlookup]
    simp
  have hperm := ((topologicalOrder_perm (h := h) hdag).filter fun v =>
    subscript assignment v = j).map dag.costOf
  rw [nodeLoad, ← hfilter, ← hperm.sum_eq]
  rfl

/-- With all tasks on one node nothing is transferred. -/
theorem crossNodeDelay_eq_zero (hdag : dag.Closed) {j : Nat}
    (hone : ∀ v ∈ dag.tasks, assignment.lookup v = some j) :
    crossNodeDelay delay dag assignment = 0 := by
  apply List.sum_eq_zero
  intro x hx
  rcases List.mem_map.1 hx with ⟨v, hv, rfl⟩
  have hnone : ((dag.dependencies v).dedup.filter fun u =>
      assignment.lookup u ≠ assignment.lookup v) = [] := by
    apply List.filter_eq_nil_iff.2
    intro u hu
    have hedge := hdag.mirrored.mem_dependencies.1 (List.mem_dedup.1 hu)
    have hends := hdag.endpoints u v hedge
    rw [hone u hends.1, hone v hends.2]
    simp
  rw [inboundDelay, hnone]
  rfl

theorem nodeLoad_eq_total {j : Nat} (hone : ∀ v ∈ dag.tasks, assignment.lookup v = some j) :
    nodeLoad dag assignment j = (dag.tasks.keys.map dag.costOf).sum := by
  rw [nodeLoad, List.filter_eq_self.2]
  intro v hv
  simpa using hone v (AList.mem_keys.2 hv)

/-- No schedule takes longer than all tasks and all transfers one after the other. -/
theorem makespanWith_le (hdag : dag.Closed) (hcosts : dag.NonnegCosts)
    (htotal : TotalAssignment dag nodeCount assignment) (hdelay : ∀ bytes, 0 ≤ delay bytes)
    (h' : HashOrders) :
    makespanWith delay h dag nodeCount assignment ≤
      totalComputeCost h' dag + crossNodeDelay delay dag assignment := by
  have hvalid := listSchedule_valid (h := h) hdag hcosts htotal hdelay
  have hperm := topologicalOrder_perm (h := h) hdag
  rw [totalComputeCost_eq_sum, crossNodeDelay, ← (hperm.map _).sum_eq,
    ← (hperm.map _).sum_eq]
  exact hvalid.makespan_le

theorem crossNodeDelay_le_transferTotal (hdelay : ∀ bytes, 0 ≤ delay bytes) :
    crossNodeDelay delay dag assignment ≤ transferTotal delay dag := by
  apply List.sum_le_sum
  intro v _
  apply (List.filter_sublist.map _).sum_le_sum
  intro x hx
  rcases List.mem_map.1 hx with ⟨u, -, rfl⟩
  exact hdelay _

end Makespan

/-! ## The bounds -/

/-- On an acyclic graph of tasks with costs and delays that are not negative, for
every assignment and every traversal of the hash maps, the estimated makespan is at
least the critical path cost and the load of each node, and at most the total cost
and all transfers between nodes together.  On one node it is the total cost. -/
theorem makespan_bounds (ops : List WorkloadDAG.BuildOp)
    (hends : (build ops).EndpointsAreTasks)
    (hacyclic : (build ops).Acyclic)
    (hcosts : (build ops).NonnegCosts) (nodeCount : Nat)
    (assignment : UnorderedMap TaskId Nat)
    (htotal : TotalAssignment (build ops) nodeCount assignment)
    (delay : U64 → Int) (hdelay : ∀ bytes, 0 ≤ delay bytes) (h h' : HashOrders) :
    criticalPathCost h' (build ops) ≤
        makespanWith delay h (build ops) nodeCount assignment ∧
      (∀ j, nodeLoad (build ops) assignment j ≤
        makespanWith delay h (build ops) nodeCount assignment) ∧
      makespanWith delay h (build ops) nodeCount assignment ≤
        totalComputeCost h' (build ops) +
          crossNodeDelay delay (build ops) assignment ∧
      ((∃ j, ∀ v ∈ (build ops).tasks, assignment.lookup v = some j) →
        makespanWith delay h (build ops) nodeCount assignment =
          totalComputeCost h' (build ops)) := by
  have hdag := closed_build hends hacyclic
  have hvalid := listSchedule_valid (h := h) hdag hcosts htotal hdelay
  have hload : ∀ j, nodeLoad (build ops) assignment j ≤
      makespanWith delay h (build ops) nodeCount assignment := by
    intro j
    have hsame : ListScheduling.load (scheduleJobs delay (build ops) assignment)
        ((build ops).topologicalOrder h) j =
          nodeLoad (build ops) assignment j :=
      load_scheduleJobs hdag htotal j
    rw [← hsame]
    exact hvalid.load_le_makespan j
  have hserial := makespanWith_le (h := h) hdag hcosts htotal hdelay h'
  refine ⟨?_, hload, hserial, ?_⟩
  · exact criticalPathCost_le_makespanWith hdag hcosts htotal hdelay h'
  · rintro ⟨j, hone⟩
    apply le_antisymm
    · rw [crossNodeDelay_eq_zero hdag hone, add_zero] at hserial
      exact hserial
    · rw [totalComputeCost_eq_sum, ← nodeLoad_eq_total hone]
      exact hload j

/-- The diamond on two nodes, with a delay of one unit per transfer. -/
theorem makespan_bounds_diamondExample :
    makespanWith (fun _ => 1) .insertion (build diamondExample) 2
        ((((∅ : UnorderedMap TaskId Nat).insert [97] 0).insert [98] 1).insert [99] 0 |>.insert
          [100] 0) = 8 ∧
      criticalPathCost .insertion (build diamondExample) ≤
        makespanWith (fun _ => 1) .insertion (build diamondExample) 2
          ((((∅ : UnorderedMap TaskId Nat).insert [97] 0).insert [98] 1).insert [99] 0 |>.insert
            [100] 0) :=
  ⟨by decide,
    (makespan_bounds diamondExample (by decide) diamondExample_acyclic
      (by decide) 2 _ (by decide) (fun _ => 1) (fun _ => by decide) .insertion .insertion).1⟩

end EdgeOrchestrator
