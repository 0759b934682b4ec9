import EdgeOrchestrator.Core.Types
import EdgeOrchestrator.Library.Digraph
import EdgeOrchestrator.Library.UnorderedMap

/-!
# The workload DAG

`WorkloadDAG` keeps its tasks, its forward adjacency and its backward adjacency
in three hash maps that are filled independently.  Nothing stops an edge from
mentioning an id that is no task; the two adjacency maps nevertheless mirror
each other edge by edge.

Main results:

- `WorkloadDAG.build_mirrored`: in every DAG built by `addTask` and `addDependency`, an edge
  has the same multiplicity in both adjacency maps.
- `WorkloadDAG.build_wellKeyed`: every task is stored under its own id and has an entry in both
  adjacency maps.
-/

namespace EdgeOrchestrator

open UnorderedMap (emplace lookup_emplace lookup_modify mem_emplace mem_modify mem_touch modify
  subscript subscript_insert touch)

/-- The traversal orders of the hash maps that the graph algorithms iterate. -/
structure HashOrders where
  tasks : IterationOrder TaskId
  adjList : IterationOrder TaskId
  inDegree : IterationOrder TaskId
  dist : IterationOrder TaskId
  level : IterationOrder TaskId
  levelMemory : IterationOrder Nat

/-- Every map is traversed in insertion order. -/
def HashOrders.insertion : HashOrders where
  tasks := .insertion _
  adjList := .insertion _
  inDegree := .insertion _
  dist := .insertion _
  level := .insertion _
  levelMemory := .insertion _

/-- Directed graph of computational tasks. -/
structure WorkloadDAG where
  tasks : UnorderedMap TaskId Task
  adjList : UnorderedMap TaskId (List TaskId)
  reverseAdj : UnorderedMap TaskId (List TaskId)

namespace WorkloadDAG

/-! ## Construction -/

/-- A new graph. -/
def empty : WorkloadDAG :=
  ⟨∅, ∅, ∅⟩

variable (dag : WorkloadDAG)

/-- A second task with the same id is dropped: `emplace` keeps the first. -/
def addTask (task : Task) : WorkloadDAG where
  tasks := emplace dag.tasks task.id task
  adjList := touch dag.adjList task.id
  reverseAdj := touch dag.reverseAdj task.id

/-- Record a dependency on the target task, once. -/
def recordDependency (source : TaskId) (task : Task) : Task :=
  if source ∈ task.dependencies then task
  else { task with dependencies := task.dependencies ++ [source] }

/-- Neither endpoint has to be a task. -/
def addDependency (source target : TaskId) : WorkloadDAG where
  tasks := modify dag.tasks target (recordDependency source)
  adjList :=
    dag.adjList.insert source (subscript dag.adjList source ++ [target])
  reverseAdj :=
    dag.reverseAdj.insert target (subscript dag.reverseAdj target ++ [source])

/-! ## Queries -/

variable (id : TaskId)

/-- `get_task`. -/
def getTask : Option Task :=
  dag.tasks.lookup id

/-- `task_count`. -/
def taskCount : Nat :=
  dag.tasks.keys.length

/-- Forward neighbours, with multiplicity. -/
def dependents : List TaskId :=
  (dag.adjList.lookup id).getD []

/-- Backward neighbours, with multiplicity. -/
def dependencies : List TaskId :=
  (dag.reverseAdj.lookup id).getD []

/-- The edge relation of the forward adjacency. -/
def Edge (source target : TaskId) : Prop :=
  target ∈ dag.dependents source

instance (dag : WorkloadDAG) (source target : TaskId) :
    Decidable (dag.Edge source target) :=
  inferInstanceAs (Decidable (target ∈ dag.dependents source))

/-- Every edge runs between two tasks. -/
def EndpointsAreTasks : Prop :=
  ∀ source target, dag.Edge source target → source ∈ dag.tasks ∧ target ∈ dag.tasks

/-- No directed cycle. -/
def Acyclic (dag : WorkloadDAG) : Prop :=
  Digraph.Acyclic dag.Edge

/-! ## Reading the construction back -/

theorem dependents_eq_subscript : dag.dependents id = subscript dag.adjList id :=
  rfl

theorem dependencies_eq_subscript :
    dag.dependencies id = subscript dag.reverseAdj id :=
  rfl

@[simp]
theorem dependents_addTask (task : Task) (id : TaskId) :
    (dag.addTask task).dependents id = dag.dependents id := by
  simp [dependents_eq_subscript, addTask]

@[simp]
theorem dependencies_addTask (task : Task) (id : TaskId) :
    (dag.addTask task).dependencies id = dag.dependencies id := by
  simp [dependencies_eq_subscript, addTask]

theorem dependents_addDependency (source target id : TaskId) :
    (dag.addDependency source target).dependents id =
      if id = source then dag.dependents id ++ [target] else dag.dependents id := by
  rw [dependents_eq_subscript, dependents_eq_subscript, addDependency,
    subscript_insert]
  split
  · rename_i h
    rw [h]
  · rfl

theorem dependencies_addDependency (source target id : TaskId) :
    (dag.addDependency source target).dependencies id =
      if id = target then dag.dependencies id ++ [source] else dag.dependencies id := by
  rw [dependencies_eq_subscript, dependencies_eq_subscript, addDependency,
    subscript_insert]
  split
  · rename_i h
    rw [h]
  · rfl

@[simp]
theorem edge_addTask {dag : WorkloadDAG} {task : Task} {u v : TaskId} :
    (dag.addTask task).Edge u v ↔ dag.Edge u v := by
  rw [Edge, dependents_addTask, Edge]

/-- One added edge, read back. -/
theorem edge_addDependency {dag : WorkloadDAG} {source target u v : TaskId} :
    (dag.addDependency source target).Edge u v ↔
      dag.Edge u v ∨ (u = source ∧ v = target) := by
  rw [Edge, dependents_addDependency]
  by_cases hu : u = source
  · simp [hu, Edge]
  · simp [hu, Edge]

@[simp]
theorem mem_tasks_addTask {dag : WorkloadDAG} {task : Task} {id : TaskId} :
    id ∈ (dag.addTask task).tasks ↔ id = task.id ∨ id ∈ dag.tasks :=
  mem_emplace

@[simp]
theorem mem_tasks_addDependency {dag : WorkloadDAG} {source target id : TaskId} :
    id ∈ (dag.addDependency source target).tasks ↔ id ∈ dag.tasks :=
  mem_modify

/-- An edge source always has an entry in the forward adjacency. -/
theorem mem_adjList_of_edge {dag : WorkloadDAG} {source target : TaskId}
    (h : dag.Edge source target) : source ∈ dag.adjList := by
  by_contra hnot
  rw [Edge, dependents, AList.lookup_eq_none.2 hnot] at h
  simp at h

/-- It suffices to look at the entries of the forward adjacency. -/
theorem endpointsAreTasks_iff :
    dag.EndpointsAreTasks ↔ ∀ source ∈ dag.adjList.keys, ∀ target ∈ dag.dependents source,
      source ∈ dag.tasks ∧ target ∈ dag.tasks := by
  constructor
  · intro h source _ target htarget
    exact h source target htarget
  · intro h source target hedge
    exact h source (AList.mem_keys.1 (mem_adjList_of_edge hedge)) target hedge

instance (dag : WorkloadDAG) : Decidable dag.EndpointsAreTasks :=
  decidable_of_iff _ dag.endpointsAreTasks_iff.symm

theorem getTask_isSome {dag : WorkloadDAG} {id : TaskId} :
    (dag.getTask id).isSome ↔ id ∈ dag.tasks :=
  AList.lookup_isSome

/-! ## Build sequences -/

/-- One call of the construction interface. -/
inductive BuildOp where
  | addTask (task : Task)
  | addDependency (source target : TaskId)

/-- The effect of a call. -/
def apply : BuildOp → WorkloadDAG
  | .addTask task => dag.addTask task
  | .addDependency source target => dag.addDependency source target

/-- The DAG produced by a sequence of calls on an empty one. -/
def build (ops : List BuildOp) : WorkloadDAG :=
  ops.foldl apply empty

theorem build_append (ops more : List BuildOp) :
    build (ops ++ more) = more.foldl apply (build ops) :=
  List.foldl_append

/-- A property of the empty DAG kept by both constructors holds of every
built one. -/
theorem build_induction {P : WorkloadDAG → Prop} (hempty : P empty)
    (htask : ∀ dag task, P dag → P (dag.addTask task))
    (hdep : ∀ dag source target, P dag → P (dag.addDependency source target))
    (ops : List BuildOp) : P (build ops) := by
  unfold build
  suffices h : ∀ dag, P dag → P (ops.foldl apply dag) from h empty hempty
  induction ops with
  | nil => exact fun dag hdag => hdag
  | cons op ops ih =>
    intro dag hdag
    rw [List.foldl_cons]
    apply ih
    cases op with
    | addTask task => exact htask dag task hdag
    | addDependency source target => exact hdep dag source target hdag

/-- The two adjacency maps hold every edge equally often. -/
def Mirrored : Prop :=
  ∀ source target,
    (dag.dependents source).count target = (dag.dependencies target).count source

/-- Tasks are stored under their own ids and have both adjacency entries. -/
structure WellKeyed (dag : WorkloadDAG) : Prop where
  id_eq : ∀ id task, dag.tasks.lookup id = some task → task.id = id
  mem_adjList : ∀ id, id ∈ dag.tasks → id ∈ dag.adjList
  mem_reverseAdj : ∀ id, id ∈ dag.tasks → id ∈ dag.reverseAdj

theorem addDependency_mirrored {dag : WorkloadDAG} (h : dag.Mirrored)
    (source target : TaskId) : (dag.addDependency source target).Mirrored := by
  intro u v
  have huv := h u v
  rw [dependents_addDependency, dependencies_addDependency]
  by_cases hu : u = source <;> by_cases hv : v = target <;>
    simp [hu, hv, List.count_append, List.count_singleton, beq_iff_eq] at huv ⊢
  · exact huv
  · simpa [Ne.symm hv] using huv
  · simpa [Ne.symm hu] using huv
  · exact huv

/-- Every edge of a built DAG has the same multiplicity in both maps. -/
theorem build_mirrored (ops : List BuildOp) : (build ops).Mirrored := by
  refine build_induction (P := Mirrored) ?_ ?_ ?_ ops
  · intro u v
    rfl
  · intro dag task h u v
    simpa using h u v
  · intro dag source target h
    exact addDependency_mirrored h source target

theorem recordDependency_id (source : TaskId) (task : Task) :
    (recordDependency source task).id = task.id := by
  unfold recordDependency
  split <;> rfl

theorem addTask_wellKeyed {dag : WorkloadDAG} (h : dag.WellKeyed) (task : Task) :
    (dag.addTask task).WellKeyed := by
  refine ⟨?_, ?_, ?_⟩
  · intro id stored hstored
    rw [addTask, lookup_emplace] at hstored
    split at hstored
    · rename_i hnew
      cases hstored
      exact hnew.1.symm
    · exact h.id_eq id stored hstored
  · intro id hid
    rw [mem_tasks_addTask] at hid
    exact mem_touch.2 (hid.imp_right (h.mem_adjList id))
  · intro id hid
    rw [mem_tasks_addTask] at hid
    exact mem_touch.2 (hid.imp_right (h.mem_reverseAdj id))

theorem addDependency_wellKeyed {dag : WorkloadDAG} (h : dag.WellKeyed)
    (source target : TaskId) : (dag.addDependency source target).WellKeyed := by
  refine ⟨?_, ?_, ?_⟩
  · intro id stored hstored
    rw [addDependency, lookup_modify] at hstored
    split at hstored
    · rcases Option.map_eq_some_iff.1 hstored with ⟨task, htask, rfl⟩
      rw [recordDependency_id]
      exact h.id_eq id task htask
    · exact h.id_eq id stored hstored
  · intro id hid
    rw [mem_tasks_addDependency] at hid
    exact (AList.mem_insert _).2 (Or.inr (h.mem_adjList id hid))
  · intro id hid
    rw [mem_tasks_addDependency] at hid
    exact (AList.mem_insert _).2 (Or.inr (h.mem_reverseAdj id hid))

/-- Every built DAG stores its tasks under their own ids, with both entries. -/
theorem build_wellKeyed (ops : List BuildOp) : (build ops).WellKeyed := by
  refine build_induction (P := WellKeyed) ?_ ?_ ?_ ops
  · exact ⟨fun id task h => by simp [empty] at h, fun id h => absurd h (AList.notMem_empty id),
      fun id h => absurd h (AList.notMem_empty id)⟩
  · exact fun dag task h => addTask_wellKeyed h task
  · exact fun dag source target h => addDependency_wellKeyed h source target

/-- In a mirrored DAG the backward adjacency lists exactly the predecessors. -/
theorem Mirrored.mem_dependencies {dag : WorkloadDAG} (h : dag.Mirrored)
    {source target : TaskId} :
    source ∈ dag.dependencies target ↔ dag.Edge source target := by
  rw [Edge, ← List.count_pos_iff, ← List.count_pos_iff, h source target]

end WorkloadDAG

end EdgeOrchestrator
