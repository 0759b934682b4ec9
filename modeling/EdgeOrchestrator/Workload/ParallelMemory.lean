import EdgeOrchestrator.Library.ChainCover
import EdgeOrchestrator.Workload.CriticalPath
import Mathlib.Order.RelClasses

/-!
# Memory of tasks that run in parallel

`peak_memory_estimate` is meant to bound the memory of everything that could run
in parallel, and returns the memory of the largest level.  Tasks on different
levels can run in parallel too, so a set of tasks without a dependency path between
them can need more.

How much memory such sets can need is the size of the smallest layout: every task
gets as many byte addresses as it needs, and tasks that may run at the same time
share none.  The estimate bounds every such set exactly when some level has enough
memory for a layout of the whole workload.

Main results:

- `WorkloadDAG.Acyclic.nonempty_memoryLayout_iff`: the size of the smallest layout.
- `WorkloadDAG.peakMemoryEstimate_levels`: the estimate in terms of the graph.
- `WorkloadDAG.peakMemoryEstimate_bounds_iff`: when the estimate is an upper bound.
- `WorkloadDAG.peakMemoryEstimate_exceeded`: a workload for which it is not.
-/

namespace EdgeOrchestrator

namespace WorkloadDAG

open Relation

/-- Tasks that may all run at the same time: no dependency path connects two of
them. -/
structure Concurrent (dag : WorkloadDAG) (running : Finset TaskId) : Prop where
  tasks : ∀ v ∈ running, v ∈ dag.tasks
  unconnected : ∀ u ∈ running, ∀ v ∈ running, u ≠ v → ¬ TransGen dag.Edge u v

variable (dag : WorkloadDAG)

/-- The memory of a task in bytes. -/
def bytesOf (id : TaskId) : Nat :=
  (dag.memoryOf id).toNat

/-- The memory of all tasks. -/
def totalBytes : Nat :=
  (dag.tasks.keys.map dag.bytesOf).sum

/-- The memory of the tasks of one depth. -/
noncomputable def depthBytes (k : Nat) : Nat :=
  ((dag.tasks.keys.filter fun v => dag.depth v = k).map dag.bytesOf).sum

/-- Addresses for every task, such that tasks that may run at the same time share
none. -/
structure MemoryLayout (dag : WorkloadDAG) (size : Nat) where
  block : TaskId → Finset Nat
  card_block : ∀ v ∈ dag.tasks, (block v).card = dag.bytesOf v
  lt_size : ∀ v ∈ dag.tasks, ∀ a ∈ block v, a < size
  disjoint : ∀ u ∈ dag.tasks, ∀ v ∈ dag.tasks, u ≠ v → ¬ TransGen dag.Edge u v →
    ¬ TransGen dag.Edge v u → Disjoint (block u) (block v)

/-! ## Layouts and antichains -/

/-- Dependency paths of an acyclic graph are a strict order. -/
theorem Acyclic.isStrictOrder {dag : WorkloadDAG} (hacyclic : dag.Acyclic) :
    IsStrictOrder TaskId (TransGen dag.Edge) where
  irrefl := hacyclic
  trans _ _ _ := TransGen.trans

/-- A layout of a given size exists exactly when no tasks that may run at the same
time need more. -/
theorem Acyclic.nonempty_memoryLayout_iff {dag : WorkloadDAG} (hacyclic : dag.Acyclic)
    {size : Nat} :
    Nonempty (dag.MemoryLayout size) ↔
      ∀ running, dag.Concurrent running → ∑ v ∈ running, dag.bytesOf v ≤ size := by
  have := hacyclic.isStrictOrder
  let _ := partialOrderOfSO (TransGen dag.Edge)
  have hmem : ∀ v, v ∈ dag.tasks.keys.toFinset ↔ v ∈ dag.tasks := by
    intro v
    rw [List.mem_toFinset, AList.mem_keys]
  have hlayout : Nonempty (ChainCover.Layout dag.tasks.keys.toFinset dag.bytesOf size) ↔
      Nonempty (dag.MemoryLayout size) := by
    constructor
    · rintro ⟨layout⟩
      refine ⟨layout.block, ?_, ?_, ?_⟩
      · exact fun v hv => layout.card_block v ((hmem v).2 hv)
      · exact fun v hv => layout.lt_size v ((hmem v).2 hv)
      · intro u hu v hv hne huv hvu
        apply layout.disjoint u ((hmem u).2 hu) v ((hmem v).2 hv)
        · rintro (heq | hpath)
          · exact hne heq
          · exact huv hpath
        · rintro (heq | hpath)
          · exact hne heq.symm
          · exact hvu hpath
    · rintro ⟨layout⟩
      refine ⟨layout.block, ?_, ?_, ?_⟩
      · exact fun v hv => layout.card_block v ((hmem v).1 hv)
      · exact fun v hv => layout.lt_size v ((hmem v).1 hv)
      · intro u hu v hv huv hvu
        apply layout.disjoint u ((hmem u).1 hu) v ((hmem v).1 hv)
        · exact fun heq => huv (Or.inl heq)
        · exact fun hpath => huv (Or.inr hpath)
        · exact fun hpath => hvu (Or.inr hpath)
  rw [← hlayout, ChainCover.nonempty_layout_iff]
  constructor
  · intro hbound running hrunning
    refine hbound running (fun v hv => (hmem v).2 (hrunning.tasks v hv)) ?_
    intro u hu v hv hne hle
    rcases hle with heq | hpath
    · exact hne heq
    · exact hrunning.unconnected u hu v hv hne hpath
  · intro hbound running hsub hanti
    refine hbound running ⟨fun v hv => (hmem v).1 (hsub hv), ?_⟩
    intro u hu v hv hne hpath
    exact hanti hu hv hne (Or.inr hpath)

/-! ## The estimate -/

theorem depthBytes_le_totalBytes (k : Nat) : dag.depthBytes k ≤ dag.totalBytes :=
  (List.filter_sublist.map dag.bytesOf).sum_le_sum fun _ _ => Nat.zero_le _

theorem bytesOf_le_depthBytes {dag : WorkloadDAG} {v : TaskId} (hv : v ∈ dag.tasks) :
    dag.bytesOf v ≤ dag.depthBytes (dag.depth v) := by
  apply List.single_le_sum (fun _ _ => Nat.zero_le _)
  apply List.mem_map_of_mem
  rw [List.mem_filter]
  exact ⟨AList.mem_keys.1 hv, by simp⟩

namespace Closed

variable {dag : WorkloadDAG} {h : HashOrders}

/-- The memory per depth, read off the table of levels. -/
theorem depthBytes_eq (hdag : dag.Closed) (h : HashOrders) (k : Nat) :
    dag.depthBytes k = ((dag.tasks.keys.filter fun v =>
      UnorderedMap.subscript (levels h dag) v = k).map dag.bytesOf).sum := by
  unfold depthBytes
  congr 2
  apply List.filter_congr
  intro v hv
  rw [hdag.level_eq_depth (AList.mem_keys.2 hv)]

/-- As long as the memory of all tasks fits a word, the code's sum for a level is
exact. -/
theorem toNat_memoryAtLevel (hdag : dag.Closed) (hmemory : dag.totalBytes < 2 ^ 64) (k : Nat) :
    (dag.memoryAtLevel (UnorderedMap.subscript (levels h dag)) dag.tasks.keys k).toNat =
      dag.depthBytes k := by
  have hle := depthBytes_le_totalBytes dag k
  rw [memoryAtLevel, toNat_sum_map, hdag.depthBytes_eq h k]
  apply Nat.mod_eq_of_lt
  rw [hdag.depthBytes_eq h k] at hle
  exact hle.trans_lt hmemory

/-- The estimate is the largest memory of a level. -/
theorem isGreatest_depthBytes (hdag : dag.Closed) (hmemory : dag.totalBytes < 2 ^ 64) :
    IsGreatest (Set.range dag.depthBytes) (peakMemoryEstimate h dag).toNat := by
  rcases hdag.isGreatest_peakMemoryEstimate (h := h) with ⟨hmem, hbound⟩
  simp only [hdag.toNat_memoryAtLevel hmemory] at hmem hbound
  have hlevel : ∀ v ∈ dag.tasks, dag.depthBytes (UnorderedMap.subscript (levels h dag) v) ≤
      (peakMemoryEstimate h dag).toNat :=
    fun v hv => hbound (Or.inr ⟨v, hv, rfl⟩)
  have hupper : ∀ k, dag.depthBytes k ≤ (peakMemoryEstimate h dag).toNat := by
    intro k
    by_cases hsome : ∃ v ∈ dag.tasks, UnorderedMap.subscript (levels h dag) v = k
    · rcases hsome with ⟨v, hv, rfl⟩
      exact hlevel v hv
    · have hnone : (dag.tasks.keys.filter fun v =>
          UnorderedMap.subscript (levels h dag) v = k) = [] := by
        apply List.filter_eq_nil_iff.2
        intro v hv hk
        exact hsome ⟨v, AList.mem_keys.2 hv, of_decide_eq_true hk⟩
      rw [hdag.depthBytes_eq h, hnone]
      exact Nat.zero_le _
  refine ⟨?_, ?_⟩
  · rcases hmem with hzero | ⟨v, -, hpeak⟩
    · exact ⟨0, by have := hupper 0; omega⟩
    · exact ⟨_, hpeak.symm⟩
  · rintro x ⟨k, rfl⟩
    exact hupper k

end Closed

/-- On an acyclic graph of tasks the estimate is the largest memory of the tasks of one
depth, the depth of a task being the length of the longest chain of dependencies that
ends in it.  It is the same for every other way of building and traversing the workload,
at least the memory of each task and at most the memory of all of them. -/
theorem peakMemoryEstimate_levels (ops : List BuildOp)
    (hends : (build ops).EndpointsAreTasks) (hacyclic : (build ops).Acyclic)
    (hmemory : (build ops).totalBytes < 2 ^ 64) (h : HashOrders) :
    (∀ v ∈ (build ops).tasks,
      IsGreatest {n | ∃ path ∈ LongestPath.PathsTo (build ops).Edge v, path.length = n + 1}
        ((build ops).depth v)) ∧
    IsGreatest (Set.range (build ops).depthBytes) (peakMemoryEstimate h (build ops)).toNat ∧
    (∀ ops' h', SameWorkload (build ops) (build ops') →
      peakMemoryEstimate h' (build ops') = peakMemoryEstimate h (build ops)) ∧
    (∀ v ∈ (build ops).tasks,
      (build ops).bytesOf v ≤ (peakMemoryEstimate h (build ops)).toNat) ∧
    (peakMemoryEstimate h (build ops)).toNat ≤ (build ops).totalBytes := by
  have hdag := closed_build hends hacyclic
  have hpeak := hdag.isGreatest_depthBytes (h := h) hmemory
  refine ⟨fun v hv => hdag.isGreatest_depth hv, hpeak, ?_, ?_, ?_⟩
  · intro ops' h' hsame
    exact (hsame.peakMemoryEstimate_eq hdag (hsame.closed hdag (build_mirrored ops'))).symm
  · intro v hv
    exact (bytesOf_le_depthBytes hv).trans (hpeak.2 ⟨_, rfl⟩)
  · rcases hpeak.1 with ⟨k, hk⟩
    rw [← hk]
    exact depthBytes_le_totalBytes (build ops) k

/-- The diamond: the two tasks in the middle need less than the first. -/
theorem peakMemoryEstimate_diamondExample :
    (peakMemoryEstimate .insertion (build diamondExample)).toNat = 4 ∧
      IsGreatest (Set.range (build diamondExample).depthBytes)
        (peakMemoryEstimate .insertion (build diamondExample)).toNat :=
  ⟨by decide, (peakMemoryEstimate_levels diamondExample (by decide) diamondExample_acyclic
    (by decide) .insertion).2.1⟩

/-- The estimate bounds the memory of all tasks that may run at the same time
exactly when the whole workload has a layout in as much memory as the tasks of some
one depth need. -/
theorem peakMemoryEstimate_bounds_iff (ops : List BuildOp)
    (hends : (build ops).EndpointsAreTasks) (hacyclic : (build ops).Acyclic)
    (hmemory : (build ops).totalBytes < 2 ^ 64) (h : HashOrders) :
    (∀ running, (build ops).Concurrent running →
        ∑ v ∈ running, (build ops).bytesOf v ≤ (peakMemoryEstimate h (build ops)).toNat) ↔
      ∃ k, Nonempty ((build ops).MemoryLayout ((build ops).depthBytes k)) := by
  rcases (closed_build hends hacyclic).isGreatest_depthBytes (h := h) hmemory with ⟨hmem, hbound⟩
  constructor
  · intro hrunning
    rcases hmem with ⟨k, hk⟩
    refine ⟨k, hacyclic.nonempty_memoryLayout_iff.2 ?_⟩
    rw [hk]
    exact hrunning
  · rintro ⟨k, hlayout⟩ running hrunning
    exact (hacyclic.nonempty_memoryLayout_iff.1 hlayout running hrunning).trans
      (hbound ⟨k, rfl⟩)

/-- One task and two that depend on it. -/
def forkExample : List BuildOp :=
  [.addTask { id := [97], profile := { memoryBytes := 4 } },
    .addTask { id := [98], profile := { memoryBytes := 1 } },
    .addTask { id := [99], profile := { memoryBytes := 2 } },
    .addDependency [97] [98], .addDependency [97] [99]]

theorem forkExample_acyclic : (build forkExample).Acyclic :=
  (EndpointsAreTasks.hasCycle_eq_false_iff (by decide) .insertion).1 (by decide)

/-- The first task has the memory to itself, the other two share it. -/
def forkLayout : (build forkExample).MemoryLayout 4 where
  block v := if v = [97] then {0, 1, 2, 3} else if v = [98] then {0} else {1, 2}
  card_block := by decide
  lt_size := by decide
  disjoint := by
    have hpairs : ∀ u ∈ (build forkExample).tasks.keys, ∀ v ∈ (build forkExample).tasks.keys,
        u = v ∨ v ∈ (build forkExample).dependents u ∨ u ∈ (build forkExample).dependents v ∨
        Disjoint
          (if u = [97] then ({0, 1, 2, 3} : Finset Nat) else if u = [98] then {0} else {1, 2})
          (if v = [97] then {0, 1, 2, 3} else if v = [98] then {0} else {1, 2}) := by decide
    intro u hu v hv hne huv hvu
    rcases hpairs u (AList.mem_keys.1 hu) v (AList.mem_keys.1 hv) with heq | hedge | hedge | hblocks
    · exact absurd heq hne
    · exact absurd (TransGen.single hedge) huv
    · exact absurd (TransGen.single hedge) hvu
    · exact hblocks

theorem peakMemoryEstimate_forkExample :
    (peakMemoryEstimate .insertion (build forkExample)).toNat = 4 ∧
      ∀ running, (build forkExample).Concurrent running →
        ∑ v ∈ running, (build forkExample).bytesOf v ≤
          (peakMemoryEstimate .insertion (build forkExample)).toNat := by
  refine ⟨by decide, (peakMemoryEstimate_bounds_iff forkExample (by decide) forkExample_acyclic
    (by decide) .insertion).2 ⟨0, ?_⟩⟩
  have hzero : (build forkExample).depthBytes 0 = 4 := by
    rw [(closed_build (by decide) forkExample_acyclic).depthBytes_eq .insertion]
    decide
  rw [hzero]
  exact ⟨forkLayout⟩

/-- A task by itself, and a small task before a large one. -/
def crossLevelExample : List BuildOp :=
  [.addTask { id := [97], profile := { memoryBytes := 10 } },
    .addTask { id := [98], profile := { memoryBytes := 1 } },
    .addTask { id := [99], profile := { memoryBytes := 100 } },
    .addDependency [98] [99]]

/-- The first and the last task can run at the same time and need 110 bytes, the
estimate is 100. -/
theorem peakMemoryEstimate_exceeded :
    (build crossLevelExample).EndpointsAreTasks ∧ (build crossLevelExample).Acyclic ∧
      (build crossLevelExample).totalBytes < 2 ^ 64 ∧
      (build crossLevelExample).Concurrent {[97], [99]} ∧
      ∑ v ∈ {[97], [99]}, (build crossLevelExample).bytesOf v = 110 ∧
      (peakMemoryEstimate .insertion (build crossLevelExample)).toNat = 100 := by
  have hsink : ∀ u ∈ ({[97], [99]} : Finset TaskId),
      (build crossLevelExample).dependents u = [] := by decide
  refine ⟨by decide, ?_, by decide, ⟨by decide, ?_⟩, by decide, by decide⟩
  · exact (EndpointsAreTasks.hasCycle_eq_false_iff (by decide) .insertion).1 (by decide)
  · intro u hu v _ _ hpath
    rcases TransGen.head'_iff.1 hpath with ⟨w, hedge, -⟩
    rw [Edge, hsink u hu] at hedge
    cases hedge

end WorkloadDAG

end EdgeOrchestrator
