import EdgeOrchestrator.Library.LongestPath
import EdgeOrchestrator.Workload.HasCycle
import Mathlib.Algebra.BigOperators.Group.List.Basic

/-!
# Workload metrics

`critical_path_cost` relaxes the edges in topological order,
`peak_memory_estimate` assigns every task its longest distance from a source and
adds up the memory of each level, and `total_compute_cost` adds up the costs.
The first two return zero when the topological order does not list every task.
Sums of memory are the code's 64-bit ones.

Main results:

- `WorkloadDAG.Closed.criticalPathDist_settling`: the distance table of an acyclic graph is the
  one of longest paths.
- `WorkloadDAG.SameWorkload.criticalPathCost_eq`,
  `WorkloadDAG.SameWorkload.peakMemoryEstimate_eq` and
  `WorkloadDAG.SameWorkload.totalComputeCost_eq`: the metrics depend on the profiles and on
  which edges exist, not on the multiplicity of an edge, on the order of construction or on the
  traversal of the hash maps.
-/

namespace EdgeOrchestrator

open UnorderedMap (mem_foldl_insert mem_iff_lookup mem_touch subscript
  subscript_foldl_insert_default subscript_insert subscript_touch touch)

namespace WorkloadDAG

/-! ## Critical path -/

variable (dag : WorkloadDAG)

/-- The compute cost of a task; zero for an id that is no task. -/
def costOf (id : TaskId) : Duration :=
  ((dag.getTask id).map fun task => task.profile.computeCost).getD 0

/-- Relax the edge from `u` to `v`; `operator[]` creates missing entries. -/
def relaxEdge (u : TaskId) (dist : UnorderedMap TaskId Int) (v : TaskId) :
    UnorderedMap TaskId Int :=
  match dag.getTask v with
  | none => dist
  | some vTask =>
    let dist := touch (touch dist u) v
    let candidate := subscript dist u + vTask.profile.computeCost
    if candidate > subscript dist v then dist.insert v candidate else dist

/-- The loop body for one id of the topological order. -/
def settleTask (dist : UnorderedMap TaskId Int) (u : TaskId) : UnorderedMap TaskId Int :=
  match dag.getTask u with
  | none => dist
  | some task =>
    let dist :=
      if (dag.dependencies u).isEmpty then
        dist.insert u (max (subscript dist u) task.profile.computeCost)
      else dist
    (dag.dependents u).foldl (relaxEdge dag u) dist

/-- The distances after the relaxation. -/
def criticalPathDist (h : HashOrders) (dag : WorkloadDAG) : UnorderedMap TaskId Int :=
  (dag.topologicalOrder h).foldl (settleTask dag)
    ((h.tasks.order dag.tasks.keys).foldl (fun dist id => dist.insert id 0) ∅)

/-- `critical_path_cost`. -/
def criticalPathCost (h : HashOrders) (dag : WorkloadDAG) : Duration :=
  if dag.tasks.keys.isEmpty then 0
  else if (dag.topologicalOrder h).length ≠ dag.taskCount then 0
  else
    (h.dist.order (criticalPathDist h dag).keys).foldl
      (fun maxDist id => max maxDist (subscript (criticalPathDist h dag) id)) 0

/-! ## Peak memory -/

/-- `std::max` on `uint64_t`. -/
def maxU64 (a b : U64) : U64 :=
  if a < b then b else a

/-- The loop body that assigns a level: parents without a level do not count. -/
def assignLevel (level : UnorderedMap TaskId Nat) (id : TaskId) : UnorderedMap TaskId Nat :=
  level.insert id ((dag.dependencies id).foldl
    (fun maxParentLevel parent =>
      match level.lookup parent with
      | none => maxParentLevel
      | some parentLevel => max maxParentLevel (parentLevel + 1)) 0)

/-- The level of every task. -/
def levels (h : HashOrders) (dag : WorkloadDAG) : UnorderedMap TaskId Nat :=
  (dag.topologicalOrder h).foldl (assignLevel dag) ∅

/-- `level_memory[lvl] += memory_bytes` for one entry of the level map. -/
def addLevelMemory (level : UnorderedMap TaskId Nat) (levelMemory : UnorderedMap Nat U64)
    (id : TaskId) : UnorderedMap Nat U64 :=
  match dag.getTask id with
  | none => levelMemory
  | some task =>
    levelMemory.insert (subscript level id)
      (subscript levelMemory (subscript level id) +
        task.profile.memoryBytes)

/-- The memory of every level. -/
def levelMemory (h : HashOrders) (dag : WorkloadDAG) : UnorderedMap Nat U64 :=
  (h.level.order (levels h dag).keys).foldl (addLevelMemory dag (levels h dag)) ∅

/-- `peak_memory_estimate`. -/
def peakMemoryEstimate (h : HashOrders) (dag : WorkloadDAG) : U64 :=
  if dag.tasks.keys.isEmpty then 0
  else if (dag.topologicalOrder h).length ≠ dag.taskCount then 0
  else
    (h.levelMemory.order (levelMemory h dag).keys).foldl
      (fun peak level => maxU64 peak (subscript (levelMemory h dag) level)) 0

/-! ## Total cost -/

/-- `total_compute_cost`. -/
def totalComputeCost (h : HashOrders) (dag : WorkloadDAG) : Duration :=
  (h.tasks.order dag.tasks.keys).foldl (fun total id => total + dag.costOf id) 0

/-- The total does not depend on the order in which the tasks are visited. -/
theorem totalComputeCost_eq_sum (h : HashOrders) (dag : WorkloadDAG) :
    totalComputeCost h dag = (dag.tasks.keys.map dag.costOf).sum := by
  have hsum : ∀ (ids : List TaskId) (acc : Int),
      ids.foldl (fun total id => total + dag.costOf id) acc = acc + (ids.map dag.costOf).sum := by
    intro ids
    induction ids with
    | nil => simp
    | cons id ids ih =>
      intro acc
      rw [List.foldl_cons, ih, List.map_cons, List.sum_cons, add_assoc]
  rw [totalComputeCost, hsum, zero_add, ((h.tasks.perm _).map _).sum_eq]

/-! ## The distance table -/

/-- How a task's entry is fixed when its turn comes: a source starts at its cost. -/
def seedOf (id : TaskId) (offer : Int) : Int :=
  if (dag.dependencies id).isEmpty then max offer (dag.costOf id) else offer

section Distances

variable {dag : WorkloadDAG} {h : HashOrders} {u v w : TaskId}
  {dist : UnorderedMap TaskId Int}

theorem costOf_of_getTask {task : Task} (htask : dag.getTask v = some task) :
    dag.costOf v = task.profile.computeCost := by
  rw [costOf, htask]
  rfl

theorem exists_getTask (hv : v ∈ dag.tasks) : ∃ task, dag.getTask v = some task :=
  Option.isSome_iff_exists.1 (getTask_isSome.2 hv)

/-- Relaxing an edge raises the entry of its target. -/
theorem subscript_relaxEdge (dist : UnorderedMap TaskId Int) (u : TaskId) (hv : v ∈ dag.tasks)
    (w : TaskId) :
    subscript (relaxEdge dag u dist v) w =
      if w = v then max (subscript dist v)
        (subscript dist u + dag.costOf v)
      else subscript dist w := by
  rcases exists_getTask hv with ⟨task, htask⟩
  rw [relaxEdge, htask, costOf_of_getTask htask]
  simp only [subscript_touch]
  split
  · rename_i hgreater
    rw [subscript_insert]
    split
    · rw [max_eq_right hgreater.le]
    · simp only [subscript_touch]
  · rename_i hnot
    simp only [subscript_touch]
    split
    · rename_i hwv
      rw [hwv, max_eq_left (not_lt.1 hnot)]
    · rfl

theorem mem_relaxEdge (hu : u ∈ dist) (hv : v ∈ dist) : w ∈ relaxEdge dag u dist v ↔ w ∈ dist := by
  have htouch : w ∈ touch (touch dist u) v ↔ w ∈ dist := by
    simp only [mem_touch]
    constructor
    · rintro (rfl | rfl | hw)
      · exact hv
      · exact hu
      · exact hw
    · exact fun hw => Or.inr (Or.inr hw)
  unfold relaxEdge
  split
  · exact Iff.rfl
  · simp only
    split
    · rw [AList.mem_insert, htouch]
      constructor
      · rintro (rfl | hw)
        · exact hv
        · exact hw
      · exact Or.inr
    · exact htouch

/-- Relaxing all edges out of `u`; a repeated edge changes nothing. -/
theorem subscript_foldl_relaxEdge {targets : List TaskId} (htasks : ∀ v ∈ targets, v ∈ dag.tasks)
    (hu : u ∉ targets) (dist : UnorderedMap TaskId Int) (w : TaskId) :
    subscript (targets.foldl (relaxEdge dag u) dist) w =
      if w ∈ targets then max (subscript dist w)
        (subscript dist u + dag.costOf w)
      else subscript dist w := by
  induction targets generalizing dist with
  | nil => simp
  | cons v targets ih =>
    have hvu : u ≠ v := fun heq => hu (heq ▸ List.mem_cons_self)
    rw [List.foldl_cons, ih (fun x hx => htasks x (List.mem_cons_of_mem _ hx))
      (fun hmem => hu (List.mem_cons_of_mem _ hmem))]
    have hrelax := fun x => subscript_relaxEdge dist u (htasks v List.mem_cons_self) x
    rw [hrelax, hrelax, if_neg hvu]
    by_cases hwv : w = v
    · subst hwv
      simp
    · simp [hwv]

theorem mem_foldl_relaxEdge {targets : List TaskId} (htargets : ∀ v ∈ targets, v ∈ dist)
    (hu : u ∈ dist) : w ∈ targets.foldl (relaxEdge dag u) dist ↔ w ∈ dist := by
  induction targets generalizing dist with
  | nil => exact Iff.rfl
  | cons v targets ih =>
    have hv := htargets v List.mem_cons_self
    have hkeep : ∀ x, x ∈ relaxEdge dag u dist v ↔ x ∈ dist := fun x => mem_relaxEdge hu hv
    rw [List.foldl_cons, ih, hkeep]
    · intro x hx
      exact (hkeep x).2 (htargets x (List.mem_cons_of_mem _ hx))
    · exact (hkeep u).2 hu

end Distances

/-- A graph on tasks without a cycle, whose two adjacency maps mirror each other. -/
structure Closed (dag : WorkloadDAG) : Prop where
  mirrored : dag.Mirrored
  endpoints : dag.EndpointsAreTasks
  acyclic : dag.Acyclic

namespace Closed

variable {dag : WorkloadDAG} {h : HashOrders}

/-- The order lists the tasks. -/
theorem mem_topologicalOrder (hdag : dag.Closed) (v : TaskId) :
    v ∈ dag.topologicalOrder h ↔ v ∈ dag.tasks :=
  hdag.endpoints.mem_topologicalOrder_of_acyclic hdag.acyclic h v

theorem length_topologicalOrder (hdag : dag.Closed) :
    (dag.topologicalOrder h).length = dag.taskCount :=
  (hdag.endpoints.length_topologicalOrder_iff h).2 hdag.acyclic

/-- Settling one task, read as a step on the table of distances. -/
theorem settleTask_step (hdag : dag.Closed) {before : List TaskId} {u : TaskId}
    {dist : UnorderedMap TaskId Int} (hu : u ∈ dag.tasks) (hnew : u ∉ before)
    (hclosed : ∀ v ∈ before, ¬ dag.Edge u v)
    (hdist : LongestPath.Settling dag.Edge dag.costOf dag.seedOf before
      (subscript dist)) :
    LongestPath.Settling dag.Edge dag.costOf dag.seedOf (before ++ [u])
      (subscript (settleTask dag dist u)) := by
  rcases exists_getTask hu with ⟨task, htask⟩
  have hloop : u ∉ dag.dependents u := fun hmem => hdag.acyclic u (Relation.TransGen.single hmem)
  have htargets : ∀ v ∈ dag.dependents u, v ∈ dag.tasks := fun v hv => (hdag.endpoints u v hv).2
  have hfixed : ∀ w, subscript
      (if (dag.dependencies u).isEmpty then
        dist.insert u (max (subscript dist u) task.profile.computeCost)
      else dist) w =
      if w = u then dag.seedOf u (subscript dist u)
      else subscript dist w := by
    intro w
    unfold seedOf
    rw [costOf_of_getTask htask]
    split
    · rw [subscript_insert]
    · split
      · rename_i hwu
        rw [hwu]
      · rfl
  have hread : ∀ w, subscript (settleTask dag dist u) w =
      if w ∈ dag.dependents u then max (subscript dist w)
        (dag.seedOf u (subscript dist u) + dag.costOf w)
      else if w = u then dag.seedOf u (subscript dist u)
      else subscript dist w := by
    intro w
    simp only [settleTask, htask]
    rw [subscript_foldl_relaxEdge htargets hloop, hfixed, hfixed, if_pos rfl]
    split
    · rename_i hw
      have hwu : w ≠ u := fun heq => hloop (heq ▸ hw)
      rw [if_neg hwu]
    · rfl
  have hself : subscript (settleTask dag dist u) u =
      dag.seedOf u (subscript dist u) := by
    rw [hread, if_neg hloop, if_pos rfl]
  refine hdist.step hnew hloop hclosed hself ?_ ?_
  · intro v huv
    rw [hself, hread, if_pos (show v ∈ dag.dependents u from huv)]
  · intro v hvu huv
    rw [hread, if_neg (show v ∉ dag.dependents u from huv), if_neg hvu]

/-- Settling a task keeps the entries those of the tasks. -/
theorem mem_settleTask (hdag : dag.Closed) {u w : TaskId} {dist : UnorderedMap TaskId Int}
    (hu : u ∈ dag.tasks) (hkeys : ∀ v, v ∈ dist ↔ v ∈ dag.tasks) :
    w ∈ settleTask dag dist u ↔ w ∈ dag.tasks := by
  rcases exists_getTask hu with ⟨task, htask⟩
  simp only [settleTask, htask]
  have hfixed : ∀ v, v ∈ (if (dag.dependencies u).isEmpty then
        dist.insert u (max (subscript dist u) task.profile.computeCost)
      else dist) ↔ v ∈ dag.tasks := by
    intro v
    split
    · rw [AList.mem_insert, hkeys]
      constructor
      · rintro (rfl | hv)
        · exact hu
        · exact hv
      · exact Or.inr
    · exact hkeys v
  rw [mem_foldl_relaxEdge]
  · exact hfixed w
  · intro v hv
    exact (hfixed v).2 (hdag.endpoints u v hv).2
  · exact (hfixed u).2 hu

/-- The table that `critical_path_cost` fills holds the longest distances. -/
theorem criticalPathDist_settling (hdag : dag.Closed) :
    (∀ v, v ∈ criticalPathDist h dag ↔ v ∈ dag.tasks) ∧
      LongestPath.Settling dag.Edge dag.costOf dag.seedOf (dag.topologicalOrder h)
        (subscript (criticalPathDist h dag)) := by
  refine (dag.topologicalOrder_predsEarlier h).foldl_induction (dag.topologicalOrder_nodup h) _ _
    (I := fun before dist => (∀ v, v ∈ dist ↔ v ∈ dag.tasks) ∧
      LongestPath.Settling dag.Edge dag.costOf dag.seedOf before
        (subscript dist)) ?_ ?_
  · constructor
    · intro v
      rw [mem_foldl_insert, IterationOrder.mem_order, ← AList.mem_keys]
      exact or_iff_right (AList.notMem_empty v)
    · apply LongestPath.Settling.nil
      intro v
      exact subscript_foldl_insert_default ∅ (fun _ => rfl) _ v
  · intro before u dist hdist hu hnew _ hclosed
    have htask := (hdag.mem_topologicalOrder u).1 hu
    exact ⟨fun v => hdag.mem_settleTask htask hdist.1,
      hdag.settleTask_step htask hnew hclosed hdist.2⟩

/-- Without tasks zero is all there is. -/
theorem isGreatest_of_isEmpty {β : Type*} [Preorder β] [Zero β]
    (hempty : dag.tasks.keys.isEmpty = true) (f : TaskId → β) :
    IsGreatest {x | x = 0 ∨ ∃ v ∈ dag.tasks, x = f v} 0 := by
  rw [List.isEmpty_iff] at hempty
  constructor
  · exact Or.inl rfl
  · rintro x (rfl | ⟨v, hv, -⟩)
    · exact le_rfl
    · rw [AList.mem_keys, hempty] at hv
      cases hv

/-- The critical path cost is the largest distance. -/
theorem isGreatest_criticalPathCost (hdag : dag.Closed) :
    IsGreatest {x | x = 0 ∨ ∃ v ∈ dag.tasks, x = subscript (criticalPathDist h dag) v}
      (criticalPathCost h dag) := by
  have hkeys := hdag.criticalPathDist_settling (h := h).1
  unfold criticalPathCost
  split
  · rename_i hempty
    exact isGreatest_of_isEmpty hempty _
  · rw [if_neg (not_not.2 hdag.length_topologicalOrder)]
    have hmax := LongestPath.isGreatest_foldl_max
      (fun id => subscript (criticalPathDist h dag) id)
      (h.dist.order (criticalPathDist h dag).keys) 0
    simpa only [IterationOrder.mem_order, ← AList.mem_keys, hkeys] using hmax

/-! ## The level table -/

/-- Parents that all have a level contribute their level plus one. -/
theorem foldl_parentLevel {level : UnorderedMap TaskId Nat} {parents : List TaskId}
    (hparents : ∀ p ∈ parents, p ∈ level) (acc : Nat) :
    parents.foldl (fun maxParentLevel parent =>
        match level.lookup parent with
        | none => maxParentLevel
        | some parentLevel => max maxParentLevel (parentLevel + 1)) acc =
      parents.foldl (fun m p => max m (subscript level p + 1)) acc := by
  induction parents generalizing acc with
  | nil => rfl
  | cons p parents ih =>
    rcases mem_iff_lookup.1 (hparents p List.mem_cons_self) with ⟨l, hl⟩
    rw [List.foldl_cons, List.foldl_cons, subscript, hl]
    exact ih (fun q hq => hparents q (List.mem_cons_of_mem _ hq)) _

/-- The table that `peak_memory_estimate` fills: the level of a task is zero, or
one more than the highest level of its predecessors. -/
theorem levels_table (hdag : dag.Closed) :
    (∀ v, v ∈ levels h dag ↔ v ∈ dag.topologicalOrder h) ∧
      LongestPath.Table dag.Edge (fun _ => 1) (fun _ level => level) (dag.topologicalOrder h)
        (subscript (levels h dag)) := by
  refine (dag.topologicalOrder_predsEarlier h).foldl_induction (dag.topologicalOrder_nodup h) _ _
    (I := fun before level => (∀ v, v ∈ level ↔ v ∈ before) ∧
      LongestPath.Table dag.Edge (fun _ => 1) (fun _ level => level) before
        (subscript level)) ?_ ?_
  · exact ⟨fun v => by simp, LongestPath.Table.nil⟩
  · intro before u level hlevel _ hnew hpreds hclosed
    have hparents : ∀ p ∈ dag.dependencies u, p ∈ before :=
      fun p hp => hpreds p (hdag.mirrored.mem_dependencies.1 hp)
    constructor
    · intro v
      rw [assignLevel, AList.mem_insert, hlevel.1, List.mem_append, List.mem_singleton]
      exact or_comm
    · refine hlevel.2.concat (fun hloop => hdag.acyclic u (Relation.TransGen.single hloop))
        hclosed ?_ ⟨_, ?_, rfl⟩
      · intro v hv
        have hvu : v ≠ u := fun heq => hnew (heq ▸ hv)
        rw [assignLevel, subscript_insert, if_neg hvu]
      · rw [assignLevel, subscript_insert, if_pos rfl,
          foldl_parentLevel fun p hp => (hlevel.1 p).2 (hparents p hp)]
        have hmax := LongestPath.isGreatest_foldl_max
          (fun p => subscript level p + 1) (dag.dependencies u) 0
        have hoffers : LongestPath.Offers dag.Edge (fun _ => 1) before
            (subscript level) u =
            {x | x = 0 ∨ ∃ p ∈ dag.dependencies u, x = subscript level p + 1} := by
          ext x
          apply or_congr_right
          constructor
          · rintro ⟨p, -, hpu, hx⟩
            exact ⟨p, hdag.mirrored.mem_dependencies.2 hpu, hx⟩
          · rintro ⟨p, hp, hx⟩
            exact ⟨p, hparents p hp, hdag.mirrored.mem_dependencies.1 hp, hx⟩
        rw [hoffers]
        exact hmax

end Closed

/-! ## Memory per level -/

/-- The memory of a task; zero for an id that is no task. -/
def memoryOf (dag : WorkloadDAG) (id : TaskId) : U64 :=
  ((dag.getTask id).map fun task => task.profile.memoryBytes).getD 0

/-- The memory of the listed tasks that `level` puts on one level, as the code
adds it up. -/
def memoryAtLevel (dag : WorkloadDAG) (level : TaskId → Nat) (ids : List TaskId) (k : Nat) : U64 :=
  ((ids.filter fun id => level id = k).map dag.memoryOf).sum

section LevelMemory

variable {dag : WorkloadDAG} {h : HashOrders}

theorem subscript_foldl_addLevelMemory (level : UnorderedMap TaskId Nat) (ids : List TaskId)
    (acc : UnorderedMap Nat U64) (k : Nat) :
    subscript (ids.foldl (addLevelMemory dag level) acc) k =
      subscript acc k +
        dag.memoryAtLevel (subscript level) ids k := by
  induction ids generalizing acc with
  | nil => simp [memoryAtLevel]
  | cons id ids ih =>
    have hadd : subscript (addLevelMemory dag level acc id) k =
        subscript acc k +
          if subscript level id = k then dag.memoryOf id else 0 := by
      unfold addLevelMemory memoryOf
      cases dag.getTask id with
      | none => simp
      | some task =>
        simp only [Option.map_some, Option.getD_some]
        rw [subscript_insert]
        by_cases hk : subscript level id = k
        · rw [hk, if_pos rfl, if_pos rfl]
        · rw [if_neg (Ne.symm hk), if_neg hk, add_zero]
    rw [List.foldl_cons, ih, hadd, memoryAtLevel, memoryAtLevel, List.filter_cons]
    by_cases hk : subscript level id = k
    · simp [hk, add_assoc]
    · simp [hk]

theorem mem_foldl_addLevelMemory {level : UnorderedMap TaskId Nat} {ids : List TaskId}
    (hids : ∀ id ∈ ids, id ∈ dag.tasks) (acc : UnorderedMap Nat U64) (k : Nat) :
    k ∈ ids.foldl (addLevelMemory dag level) acc ↔
      k ∈ acc ∨ ∃ id ∈ ids, subscript level id = k := by
  induction ids generalizing acc with
  | nil => simp
  | cons id ids ih =>
    rcases exists_getTask (hids id List.mem_cons_self) with ⟨task, htask⟩
    rw [List.foldl_cons, ih fun x hx => hids x (List.mem_cons_of_mem _ hx)]
    simp only [addLevelMemory, htask, AList.mem_insert, List.exists_mem_cons_iff]
    constructor
    · rintro ((rfl | hk) | hk)
      · exact Or.inr (Or.inl rfl)
      · exact Or.inl hk
      · exact Or.inr (Or.inr hk)
    · rintro (hk | rfl | hk)
      · exact Or.inl (Or.inr hk)
      · exact Or.inl (Or.inl rfl)
      · exact Or.inr hk

theorem memoryAtLevel_perm {level : TaskId → Nat} {ids ids' : List TaskId} (hperm : ids.Perm ids')
    (k : Nat) : dag.memoryAtLevel level ids k = dag.memoryAtLevel level ids' k :=
  ((hperm.filter _).map _).sum_eq

/-- The 64-bit sum of a list is its exact sum modulo the word size. -/
theorem toNat_sum_map (f : TaskId → U64) (l : List TaskId) :
    ((l.map f).sum).toNat = (l.map fun id => (f id).toNat).sum % 2 ^ 64 := by
  induction l with
  | nil => rfl
  | cons id l ih =>
    rw [List.map_cons, List.sum_cons, List.map_cons, List.sum_cons, BitVec.toNat_add, ih]
    omega

theorem toNat_maxU64 (a b : U64) : (maxU64 a b).toNat = max a.toNat b.toNat := by
  unfold maxU64
  split
  · rename_i hlt
    exact (max_eq_right (BitVec.lt_def.1 hlt).le).symm
  · rename_i hnot
    exact (max_eq_left (not_lt.1 fun hlt => hnot (BitVec.lt_def.2 hlt))).symm

theorem toNat_foldl_maxU64 {ι : Type*} (f : ι → U64) (l : List ι) (a : U64) :
    (l.foldl (fun peak i => maxU64 peak (f i)) a).toNat =
      l.foldl (fun m i => max m (f i).toNat) a.toNat := by
  induction l generalizing a with
  | nil => rfl
  | cons i l ih => rw [List.foldl_cons, ih, toNat_maxU64, List.foldl_cons]

/-- The ids that own a level are the tasks, in some order. -/
theorem Closed.perm_levels (hdag : dag.Closed) :
    (h.level.order (levels h dag).keys).Perm dag.tasks.keys := by
  refine (h.level.perm _).trans ?_
  refine (List.perm_ext_iff_of_nodup (AList.keys_nodup _) (AList.keys_nodup _)).2 ?_
  intro v
  rw [← AList.mem_keys, ← AList.mem_keys, hdag.levels_table.1, hdag.mem_topologicalOrder]

/-- The estimate is the largest memory of a level. -/
theorem Closed.isGreatest_peakMemoryEstimate (hdag : dag.Closed) :
    IsGreatest {x | x = 0 ∨ ∃ v ∈ dag.tasks, x = (dag.memoryAtLevel
        (subscript (levels h dag)) dag.tasks.keys
        (subscript (levels h dag) v)).toNat}
      (peakMemoryEstimate h dag).toNat := by
  have hmemory : ∀ k, subscript (levelMemory h dag) k =
      dag.memoryAtLevel (subscript (levels h dag)) dag.tasks.keys k := by
    intro k
    rw [levelMemory, subscript_foldl_addLevelMemory, memoryAtLevel_perm hdag.perm_levels]
    exact zero_add _
  have hkeys : ∀ k, k ∈ levelMemory h dag ↔
      ∃ v ∈ dag.tasks, subscript (levels h dag) v = k := by
    intro k
    have htasks : ∀ id ∈ h.level.order (levels h dag).keys, id ∈ dag.tasks := by
      intro id hid
      exact AList.mem_keys.2 (hdag.perm_levels.mem_iff.1 hid)
    rw [levelMemory, mem_foldl_addLevelMemory htasks]
    simp only [hdag.perm_levels.mem_iff, ← AList.mem_keys]
    exact or_iff_right (AList.notMem_empty k)
  unfold peakMemoryEstimate
  split
  · rename_i hempty
    exact isGreatest_of_isEmpty hempty _
  · rw [if_neg (not_not.2 hdag.length_topologicalOrder), toNat_foldl_maxU64]
    have hmax := LongestPath.isGreatest_foldl_max
      (fun k => (subscript (levelMemory h dag) k).toNat)
      (h.levelMemory.order (levelMemory h dag).keys) 0
    simp only [IterationOrder.mem_order, ← AList.mem_keys, hkeys, hmemory,
      exists_exists_and_eq_and] at hmax ⊢
    exact hmax

end LevelMemory

/-! ## What the metrics depend on -/

/-- Two graphs with the same edges between tasks of the same profiles. -/
structure SameWorkload (dag dag' : WorkloadDAG) : Prop where
  edge : ∀ u v, dag.Edge u v ↔ dag'.Edge u v
  profile : ∀ id, (dag.getTask id).map Task.profile = (dag'.getTask id).map Task.profile

namespace SameWorkload

variable {dag dag' : WorkloadDAG} {h h' : HashOrders}

theorem mem_tasks (hsame : SameWorkload dag dag') (id : TaskId) :
    id ∈ dag.tasks ↔ id ∈ dag'.tasks := by
  have hprofile := congrArg Option.isSome (hsame.profile id)
  rw [Option.isSome_map, Option.isSome_map] at hprofile
  rw [← getTask_isSome, ← getTask_isSome, hprofile]

theorem perm_keys (hsame : SameWorkload dag dag') : dag.tasks.keys.Perm dag'.tasks.keys := by
  refine (List.perm_ext_iff_of_nodup (AList.keys_nodup _) (AList.keys_nodup _)).2 ?_
  intro v
  rw [← AList.mem_keys, ← AList.mem_keys, hsame.mem_tasks]

theorem costOf_eq (hsame : SameWorkload dag dag') : dag.costOf = dag'.costOf := by
  ext id
  have hprofile := congrArg (Option.map TaskProfile.computeCost) (hsame.profile id)
  simp only [Option.map_map] at hprofile
  exact congrArg (fun cost : Option Int => cost.getD 0) hprofile

theorem memoryOf_eq (hsame : SameWorkload dag dag') : dag.memoryOf = dag'.memoryOf := by
  funext id
  have hprofile := congrArg (Option.map TaskProfile.memoryBytes) (hsame.profile id)
  simp only [Option.map_map] at hprofile
  exact congrArg (fun memory : Option U64 => memory.getD 0) hprofile

theorem edge_eq (hsame : SameWorkload dag dag') : dag.Edge = dag'.Edge := by
  funext u v
  exact propext (hsame.edge u v)

theorem closed (hsame : SameWorkload dag dag') (hdag : dag.Closed) (hmirrored : dag'.Mirrored) :
    dag'.Closed := by
  refine ⟨hmirrored, ?_, ?_⟩
  · intro u v huv
    have hends := hdag.endpoints u v ((hsame.edge u v).2 huv)
    exact ⟨(hsame.mem_tasks u).1 hends.1, (hsame.mem_tasks v).1 hends.2⟩
  · have hacyclic := hdag.acyclic
    rw [Acyclic, hsame.edge_eq] at hacyclic
    exact hacyclic

/-- Sources are the same, because both adjacency maps hold the same edges. -/
theorem seedOf_eq (hsame : SameWorkload dag dag') (hdag : dag.Closed) (hdag' : dag'.Closed) :
    dag.seedOf = dag'.seedOf := by
  funext id offer
  have hsource : (dag.dependencies id).isEmpty = (dag'.dependencies id).isEmpty := by
    rw [Bool.eq_iff_iff, List.isEmpty_iff, List.isEmpty_iff, List.eq_nil_iff_forall_not_mem,
      List.eq_nil_iff_forall_not_mem]
    apply forall_congr'
    intro p
    rw [hdag.mirrored.mem_dependencies, hdag'.mirrored.mem_dependencies, hsame.edge]
  rw [seedOf, seedOf, hsource, hsame.costOf_eq]

theorem mem_topologicalOrder_iff (hsame : SameWorkload dag dag') (hdag : dag.Closed)
    (hdag' : dag'.Closed) (v : TaskId) :
    v ∈ dag.topologicalOrder h ↔ v ∈ dag'.topologicalOrder h' := by
  rw [hdag.mem_topologicalOrder, hdag'.mem_topologicalOrder, hsame.mem_tasks]

theorem dist_eq (hsame : SameWorkload dag dag') (h h' : HashOrders) (hdag : dag.Closed)
    (hdag' : dag'.Closed) {v : TaskId} (hv : v ∈ dag.tasks) :
    subscript (criticalPathDist h dag) v =
      subscript (criticalPathDist h' dag') v := by
  have htable := (hdag.criticalPathDist_settling (h := h)).2.table
  have htable' := (hdag'.criticalPathDist_settling (h := h')).2.table
  rw [← hsame.edge_eq, ← hsame.costOf_eq, ← hsame.seedOf_eq hdag hdag'] at htable'
  exact htable.unique (dag.topologicalOrder_predsEarlier h) (dag.topologicalOrder_nodup h)
    (hsame.mem_topologicalOrder_iff hdag hdag') htable' v ((hdag.mem_topologicalOrder v).2 hv)

theorem level_eq (hsame : SameWorkload dag dag') (h h' : HashOrders) (hdag : dag.Closed)
    (hdag' : dag'.Closed) {v : TaskId} (hv : v ∈ dag.tasks) :
    subscript (levels h dag) v = subscript (levels h' dag') v := by
  have htable' := (hdag'.levels_table (h := h')).2
  rw [← hsame.edge_eq] at htable'
  exact (hdag.levels_table (h := h)).2.unique (dag.topologicalOrder_predsEarlier h)
    (dag.topologicalOrder_nodup h) (hsame.mem_topologicalOrder_iff hdag hdag') htable' v
    ((hdag.mem_topologicalOrder v).2 hv)

theorem criticalPathCost_eq (hsame : SameWorkload dag dag') (hdag : dag.Closed)
    (hdag' : dag'.Closed) : criticalPathCost h dag = criticalPathCost h' dag' := by
  have hgreatest' := hdag'.isGreatest_criticalPathCost (h := h')
  have hset : {x | x = 0 ∨ ∃ v ∈ dag'.tasks,
        x = subscript (criticalPathDist h' dag') v} =
      {x | x = 0 ∨ ∃ v ∈ dag.tasks, x = subscript (criticalPathDist h dag) v} := by
    ext x
    apply or_congr_right
    apply exists_congr
    intro v
    rw [← hsame.mem_tasks]
    apply and_congr_right
    intro hv
    rw [hsame.dist_eq h h' hdag hdag' hv]
  rw [hset] at hgreatest'
  exact (hdag.isGreatest_criticalPathCost (h := h)).unique hgreatest'

theorem memoryAtLevel_eq (hsame : SameWorkload dag dag') (h h' : HashOrders) (hdag : dag.Closed)
    (hdag' : dag'.Closed) (k : Nat) :
    dag.memoryAtLevel (subscript (levels h dag)) dag.tasks.keys k =
      dag'.memoryAtLevel (subscript (levels h' dag')) dag'.tasks.keys k := by
  rw [← memoryAtLevel_perm hsame.perm_keys, memoryAtLevel, memoryAtLevel, hsame.memoryOf_eq]
  congr 2
  apply List.filter_congr
  intro id hid
  rw [hsame.level_eq h h' hdag hdag' (AList.mem_keys.2 hid)]

theorem peakMemoryEstimate_eq (hsame : SameWorkload dag dag') (hdag : dag.Closed)
    (hdag' : dag'.Closed) : peakMemoryEstimate h dag = peakMemoryEstimate h' dag' := by
  have hgreatest' := hdag'.isGreatest_peakMemoryEstimate (h := h')
  have hset : {x | x = 0 ∨ ∃ v ∈ dag'.tasks, x = (dag'.memoryAtLevel
        (subscript (levels h' dag')) dag'.tasks.keys
        (subscript (levels h' dag') v)).toNat} =
      {x | x = 0 ∨ ∃ v ∈ dag.tasks, x = (dag.memoryAtLevel
        (subscript (levels h dag)) dag.tasks.keys
        (subscript (levels h dag) v)).toNat} := by
    ext x
    apply or_congr_right
    apply exists_congr
    intro v
    rw [← hsame.mem_tasks]
    apply and_congr_right
    intro hv
    rw [hsame.level_eq h h' hdag hdag' hv,
      hsame.memoryAtLevel_eq h h' hdag hdag']
  rw [hset] at hgreatest'
  exact BitVec.eq_of_toNat_eq ((hdag.isGreatest_peakMemoryEstimate (h := h)).unique hgreatest')

theorem totalComputeCost_eq (hsame : SameWorkload dag dag') :
    totalComputeCost h dag = totalComputeCost h' dag' := by
  rw [totalComputeCost_eq_sum, totalComputeCost_eq_sum, hsame.costOf_eq,
    (hsame.perm_keys.map _).sum_eq]

end SameWorkload

end WorkloadDAG

end EdgeOrchestrator
