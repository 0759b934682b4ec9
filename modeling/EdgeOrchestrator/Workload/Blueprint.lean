import EdgeOrchestrator.Workload.CriticalPath

/-!
# Graphs from a drawing

The graph that a sequence of calls builds, read off the calls: its edges are the
dependencies added, its tasks are those of distinct ids.  A `Blueprint` is a graph on
nodes of any type, drawn so that edges lead upwards, with a name for each node; a DAG
that realizes it is valid, and its critical path is found by local checks.

Main results:

- `Blueprint.realizes_build`: when calls realize a blueprint.
- `Blueprint.Realizes.isValid` and `Blueprint.Realizes.length_topologicalOrder`: what every
  realization satisfies.
- `Blueprint.Realizes.criticalPathCost_eq`: heights that satisfy the recurrence of longest
  paths give the critical path cost.
-/

namespace EdgeOrchestrator

namespace WorkloadDAG

/-! ## What calls build -/

/-- The task that a call adds. -/
def BuildOp.task? : BuildOp → Option Task
  | .addTask task => some task
  | .addDependency _ _ => none

/-- The tasks that a sequence of calls adds. -/
def addedTasks (ops : List BuildOp) : List Task :=
  ops.filterMap BuildOp.task?

@[simp]
theorem addedTasks_nil : addedTasks [] = [] :=
  rfl

@[simp]
theorem addedTasks_addTask (task : Task) (ops : List BuildOp) :
    addedTasks (.addTask task :: ops) = task :: addedTasks ops :=
  rfl

@[simp]
theorem addedTasks_addDependency (source target : TaskId) (ops : List BuildOp) :
    addedTasks (.addDependency source target :: ops) = addedTasks ops :=
  rfl

@[simp]
theorem addedTasks_append (ops more : List BuildOp) :
    addedTasks (ops ++ more) = addedTasks ops ++ addedTasks more :=
  List.filterMap_append

theorem addedTasks_flatMap {ι : Type*} (items : List ι) (calls : ι → List BuildOp) :
    addedTasks (items.flatMap calls) = items.flatMap fun i => addedTasks (calls i) := by
  induction items with
  | nil => rfl
  | cons item items ih => rw [List.flatMap_cons, addedTasks_append, ih, List.flatMap_cons]

/-- The edges are the dependencies added. -/
theorem edge_build (ops : List BuildOp) (u v : TaskId) :
    (build ops).Edge u v ↔ .addDependency u v ∈ ops := by
  induction ops using List.reverseRecOn with
  | nil => simp [build, Edge, dependents, empty]
  | append_singleton ops op ih =>
    rw [build_append, List.mem_append, List.mem_singleton]
    cases op with
    | addTask task => simp [apply, ih]
    | addDependency source target => simp [apply, edge_addDependency, ih]

/-- The tasks are those added. -/
theorem mem_tasks_build (ops : List BuildOp) (id : TaskId) :
    id ∈ (build ops).tasks ↔ id ∈ (addedTasks ops).map Task.id := by
  induction ops using List.reverseRecOn with
  | nil => simp [build, empty]
  | append_singleton ops op ih =>
    rw [build_append, addedTasks_append, List.map_append, List.mem_append, ← ih]
    cases op with
    | addTask task => simp [apply, or_comm]
    | addDependency source target => simp [apply]

/-- Tasks with distinct ids are all stored. -/
theorem keys_build {ops : List BuildOp} (hnodup : ((addedTasks ops).map Task.id).Nodup) :
    (build ops).tasks.keys.Perm ((addedTasks ops).map Task.id) := by
  apply (List.perm_ext_iff_of_nodup (AList.keys_nodup _) hnodup).2
  intro id
  rw [← AList.mem_keys, mem_tasks_build]

theorem profile_recordDependency (source : TaskId) (task : Task) :
    (recordDependency source task).profile = task.profile := by
  unfold recordDependency
  split <;> rfl

/-- Later calls do not touch the profile of a stored task. -/
theorem getTask_build {ops : List BuildOp} (hnodup : ((addedTasks ops).map Task.id).Nodup)
    {task : Task} (htask : task ∈ addedTasks ops) :
    ∃ stored, (build ops).getTask task.id = some stored ∧ stored.profile = task.profile := by
  induction ops using List.reverseRecOn with
  | nil => cases htask
  | append_singleton ops op ih =>
    rw [build_append]
    rw [addedTasks_append] at hnodup htask
    cases op with
    | addTask added =>
      rw [addedTasks_addTask, addedTasks_nil] at hnodup htask
      rw [List.map_append, List.nodup_append] at hnodup
      rcases hnodup with ⟨hbefore, -, hnew⟩
      simp only [List.foldl_cons, List.foldl_nil, apply, getTask, addTask,
        UnorderedMap.lookup_emplace]
      rcases List.mem_append.1 htask with hold | hlast
      · have hne : task.id ≠ added.id :=
          hnew _ (List.mem_map_of_mem hold) _ (List.mem_singleton_self _)
        rw [if_neg fun hsame => hne hsame.1]
        exact ih hbefore hold
      · rw [List.mem_singleton.1 hlast]
        have hfresh : added.id ∉ (build ops).tasks := by
          rw [mem_tasks_build]
          intro hmem
          exact hnew _ hmem _ (List.mem_singleton_self _) rfl
        rw [if_pos ⟨rfl, hfresh⟩]
        exact ⟨added, rfl, rfl⟩
    | addDependency source target =>
      rw [addedTasks_addDependency, addedTasks_nil, List.append_nil] at hnodup htask
      rcases ih hnodup htask with ⟨stored, hstored, hprofile⟩
      rw [getTask] at hstored
      simp only [List.foldl_cons, List.foldl_nil, apply, getTask, addDependency,
        UnorderedMap.lookup_modify]
      split
      · refine ⟨recordDependency source stored, by rw [hstored, Option.map_some], ?_⟩
        rw [profile_recordDependency, hprofile]
      · exact ⟨stored, hstored, hprofile⟩

/-- Each task keeps the cost it was added with. -/
theorem costOf_build {ops : List BuildOp} (hnodup : ((addedTasks ops).map Task.id).Nodup)
    {task : Task} (htask : task ∈ addedTasks ops) :
    (build ops).costOf task.id = task.profile.computeCost := by
  rcases getTask_build hnodup htask with ⟨stored, hstored, hprofile⟩
  rw [costOf_of_getTask hstored, hprofile]

end WorkloadDAG

/-! ## Blueprints -/

/-- A graph whose nodes have distinct names and whose edges raise a rank. -/
structure Blueprint (ν : Type*) where
  name : ν → TaskId
  nodes : List ν
  nodup : (nodes.map name).Nodup
  edge : ν → ν → Prop
  endpoints : ∀ a b, edge a b → a ∈ nodes ∧ b ∈ nodes
  rank : ν → Nat
  rank_lt : ∀ a b, edge a b → rank a < rank b
  cost : ν → Duration

namespace Blueprint

variable {ν β : Type*} {g : Blueprint ν} {dag : WorkloadDAG} {h : HashOrders}

/-- A function of the nodes, as a function of their names. -/
def ofName (g : Blueprint ν) (f : ν → β) (default : β) (id : TaskId) : β :=
  ((g.nodes.find? fun a => g.name a = id).map f).getD default

theorem name_inj {a b : ν} (ha : a ∈ g.nodes) (hb : b ∈ g.nodes) (hname : g.name a = g.name b) :
    a = b :=
  List.inj_on_of_nodup_map g.nodup ha hb hname

theorem ofName_name (f : ν → β) (default : β) {a : ν} (ha : a ∈ g.nodes) :
    g.ofName f default (g.name a) = f a := by
  unfold ofName
  cases hfind : g.nodes.find? fun b => g.name b = g.name a with
  | none =>
    rw [List.find?_eq_none] at hfind
    exact absurd (by simp) (hfind a ha)
  | some b =>
    have hname : g.name b = g.name a := by simpa using List.find?_some hfind
    rw [name_inj (List.mem_of_find?_eq_some hfind) ha hname]
    rfl

/-- The DAG has the tasks, the edges and the costs of the drawing. -/
structure Realizes (g : Blueprint ν) (dag : WorkloadDAG) : Prop where
  mirrored : dag.Mirrored
  keys : dag.tasks.keys.Perm (g.nodes.map g.name)
  edge_iff : ∀ u v, dag.Edge u v ↔ ∃ a b, g.edge a b ∧ u = g.name a ∧ v = g.name b
  costOf_name : ∀ a ∈ g.nodes, dag.costOf (g.name a) = g.cost a

open WorkloadDAG in
/-- Calls that add the nodes and the edges, and nothing else, realize a drawing. -/
theorem realizes_build (g : Blueprint ν) {ops : List BuildOp}
    (hids : (addedTasks ops).map Task.id = g.nodes.map g.name)
    (hcosts : ∀ task ∈ addedTasks ops, ∀ a ∈ g.nodes, task.id = g.name a →
      task.profile.computeCost = g.cost a)
    (hedges : ∀ u v, .addDependency u v ∈ ops ↔
      ∃ a b, g.edge a b ∧ u = g.name a ∧ v = g.name b) : g.Realizes (build ops) := by
  have hnodup : ((addedTasks ops).map Task.id).Nodup := by
    rw [hids]
    exact g.nodup
  refine ⟨build_mirrored ops, ?_, ?_, ?_⟩
  · rw [← hids]
    exact keys_build hnodup
  · intro u v
    rw [edge_build, hedges]
  · intro a ha
    have hmem : g.name a ∈ (addedTasks ops).map Task.id := by
      rw [hids]
      exact List.mem_map_of_mem ha
    rcases List.mem_map.1 hmem with ⟨task, htask, hid⟩
    rw [← hid, costOf_build hnodup htask]
    exact hcosts task htask a ha hid

namespace Realizes

theorem mem_tasks (hdag : g.Realizes dag) {id : TaskId} :
    id ∈ dag.tasks ↔ ∃ a ∈ g.nodes, g.name a = id := by
  rw [AList.mem_keys, hdag.keys.mem_iff, List.mem_map]

theorem rank_ofName_lt (hdag : g.Realizes dag) (u v : TaskId) (huv : dag.Edge u v) :
    g.ofName g.rank 0 u < g.ofName g.rank 0 v := by
  rcases (hdag.edge_iff u v).1 huv with ⟨a, b, hab, rfl, rfl⟩
  rcases g.endpoints a b hab with ⟨ha, hb⟩
  rw [ofName_name _ _ ha, ofName_name _ _ hb]
  exact g.rank_lt a b hab

/-- A realised blueprint is closed. -/
theorem closed (hdag : g.Realizes dag) : dag.Closed := by
  refine ⟨hdag.mirrored, ?_, Digraph.acyclic_of_rank _ hdag.rank_ofName_lt⟩
  intro u v huv
  rcases (hdag.edge_iff u v).1 huv with ⟨a, b, hab, rfl, rfl⟩
  rcases g.endpoints a b hab with ⟨ha, hb⟩
  exact ⟨hdag.mem_tasks.2 ⟨a, ha, rfl⟩, hdag.mem_tasks.2 ⟨b, hb, rfl⟩⟩

/-- Every node becomes one task. -/
theorem taskCount_eq (hdag : g.Realizes dag) : dag.taskCount = g.nodes.length := by
  rw [WorkloadDAG.taskCount, hdag.keys.length_eq, List.length_map]

/-- A realised blueprint with a node is valid. -/
theorem isValid (hdag : g.Realizes dag) (hne : g.nodes ≠ []) : dag.isValid h = true := by
  have hcycle : dag.hasCycle h = false :=
    (hdag.closed.endpoints.hasCycle_eq_false_iff h).2 hdag.closed.acyclic
  have hkeys : dag.tasks.keys.isEmpty = false := by
    rw [List.isEmpty_eq_false_iff, ← List.length_pos_iff]
    have hcount := hdag.taskCount_eq
    rw [WorkloadDAG.taskCount] at hcount
    rw [hcount]
    exact List.length_pos_iff.2 hne
  rw [WorkloadDAG.isValid, hcycle, hkeys]
  rfl

theorem length_topologicalOrder (hdag : g.Realizes dag) :
    (dag.topologicalOrder h).length = g.nodes.length := by
  rw [hdag.closed.length_topologicalOrder, hdag.taskCount_eq]

end Realizes

/-! ## Critical paths -/

/-- Heights of the nodes that satisfy the recurrence of longest paths. -/
structure Heights (g : Blueprint ν) (height : ν → Duration) : Prop where
  cost_le : ∀ a ∈ g.nodes, g.cost a ≤ height a
  add_cost_le : ∀ a b, g.edge a b → height a + g.cost b ≤ height b
  attained : ∀ a ∈ g.nodes, height a = g.cost a ∨ ∃ b, g.edge b a ∧ height a = height b + g.cost a

variable {height : ν → Duration}

theorem Realizes.heights (hdag : g.Realizes dag) (hheights : g.Heights height) :
    LongestPath.Heights dag.Edge dag.costOf (· ∈ dag.tasks) (g.ofName height 0) where
  pred u v huv := (hdag.closed.endpoints u v huv).1
  weight_le v hv := by
    rcases hdag.mem_tasks.1 hv with ⟨a, ha, rfl⟩
    rw [ofName_name _ _ ha, hdag.costOf_name a ha]
    exact hheights.cost_le a ha
  add_weight_le u v huv := by
    rcases (hdag.edge_iff u v).1 huv with ⟨a, b, hab, rfl, rfl⟩
    rcases g.endpoints a b hab with ⟨ha, hb⟩
    rw [ofName_name _ _ ha, ofName_name _ _ hb, hdag.costOf_name b hb]
    exact hheights.add_cost_le a b hab
  attained v hv := by
    rcases hdag.mem_tasks.1 hv with ⟨a, ha, rfl⟩
    rw [ofName_name _ _ ha, hdag.costOf_name a ha]
    rcases hheights.attained a ha with hsource | ⟨b, hba, hsum⟩
    · exact Or.inl hsource
    · right
      refine ⟨g.name b, (hdag.edge_iff _ _).2 ⟨b, a, hba, rfl, rfl⟩, ?_⟩
      rw [ofName_name _ _ (g.endpoints b a hba).1]
      exact hsum

/-- The critical path costs as much as the highest node is high. -/
theorem Realizes.criticalPathCost_eq (hdag : g.Realizes dag) (hheights : g.Heights height)
    (hcosts : ∀ a ∈ g.nodes, 0 ≤ g.cost a) {top : ν} (htop : top ∈ g.nodes)
    (hmax : ∀ a ∈ g.nodes, height a ≤ height top) :
    dag.criticalPathCost h = height top := by
  have hnonneg : dag.NonnegCosts := by
    intro id hid
    rcases hdag.mem_tasks.1 (AList.mem_keys.2 hid) with ⟨a, ha, rfl⟩
    rw [hdag.costOf_name a ha]
    exact hcosts a ha
  have hdist : ∀ a ∈ g.nodes,
      UnorderedMap.subscript (dag.criticalPathDist h) (g.name a) = height a := by
    intro a ha
    have htask : g.name a ∈ dag.tasks := hdag.mem_tasks.2 ⟨a, ha, rfl⟩
    have hpaths := (hdag.heights hheights).isGreatest_pathWeight _ hdag.rank_ofName_lt htask
    simp only [WorkloadDAG.pathWeight_costOf] at hpaths
    rw [ofName_name _ _ ha] at hpaths
    exact (hdag.closed.isGreatest_dist hnonneg htask).unique hpaths
  rcases hdag.closed.isGreatest_criticalPathCost (h := h) with ⟨hmem, hbound⟩
  apply le_antisymm
  · rcases hmem with hzero | ⟨v, hv, hvalue⟩
    · rw [hzero]
      exact (hcosts top htop).trans (hheights.cost_le top htop)
    · rcases hdag.mem_tasks.1 hv with ⟨a, ha, rfl⟩
      rw [hvalue, hdist a ha]
      exact hmax a ha
  · apply hbound
    exact Or.inr ⟨g.name top, hdag.mem_tasks.2 ⟨top, htop, rfl⟩, (hdist top htop).symm⟩

end Blueprint

end EdgeOrchestrator
