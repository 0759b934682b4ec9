import EdgeOrchestrator.Orchestrator.OffloadCodec
import EdgeOrchestrator.Workload.Metrics

/-!
# Encoding a workload and decoding it again

`OffloadCodec::encode_submission` walks Kahn's order and writes, for each listed
task, the dependency list recorded in the task.  The decoder rebuilds both
adjacency maps from these lists.  A graph keeps its edges three times: forwards,
backwards, and without repetition in its tasks; the round trip goes through the
third.

The encoder does not look at the length of the order.  Tasks on or behind a cycle
are not listed, so the message of a cyclic graph describes another, valid graph.

Main results:

- `decode_encode_submission`: an acyclic graph comes back with the same tasks, edges and
  metrics.
- `accepted_means_valid_iff`: exactly for which graphs an accepted message means that the
  encoded graph was valid and complete.
-/

namespace EdgeOrchestrator

open WorkloadDAG

/-- `SerializeToArray` of an envelope. -/
abbrev SerializeToArray := Envelope → List UInt8

namespace OffloadCodec

/-! ## Encoding -/

/-- The specification written for a task; the signed cost is reinterpreted as an
unsigned one. -/
def specOfTask (task : Task) : TaskSpec where
  taskId := task.id
  name := task.name
  profile :=
    { computeCostUs := BitVec.ofInt 64 task.profile.computeCost
      memoryBytes := task.profile.memoryBytes
      inputBytes := task.profile.inputBytes
      outputBytes := task.profile.outputBytes }
  dependencies := task.dependencies

/-- The message: one specification per id of Kahn's order that is a task. -/
def submissionOf (h : HashOrders) (workloadId : ByteString) (dag : WorkloadDAG) :
    WorkloadSubmission where
  workloadId := workloadId
  tasks := ((dag.topologicalOrder h).filterMap dag.getTask).map specOfTask

/-- `encode_submission`. -/
def encodeSubmission (serialize : SerializeToArray) (h : HashOrders) (workloadId : ByteString)
    (dag : WorkloadDAG) : List UInt8 :=
  serialize (.workloadSubmission (submissionOf h workloadId dag))

/-! ## The calls the decoder makes -/

/-- The construction calls of the two passes. -/
def submissionOps (submission : WorkloadSubmission) : List WorkloadDAG.BuildOp :=
  submission.tasks.map (fun spec => .addTask (taskOfSpec spec)) ++
    submission.tasks.flatMap fun spec =>
      spec.dependencies.map fun dep => .addDependency dep spec.taskId

theorem foldl_apply_addDependency (deps : List TaskId) (target : TaskId) (dag : WorkloadDAG) :
    (deps.map fun dep => WorkloadDAG.BuildOp.addDependency dep target).foldl apply dag =
      deps.foldl (fun dag dep => dag.addDependency dep target) dag := by
  rw [List.foldl_map]
  rfl

/-- Decoding replays the submission's build calls. -/
theorem buildSubmission_eq_build (submission : WorkloadSubmission) :
    buildSubmission .empty submission = build (submissionOps submission) := by
  rw [buildSubmission, build, submissionOps, List.foldl_append, List.foldl_map]
  have hedges : ∀ (specs : List TaskSpec) (dag : WorkloadDAG),
      specs.foldl addSpecDependencies dag =
        (specs.flatMap fun spec => spec.dependencies.map fun dep =>
          WorkloadDAG.BuildOp.addDependency dep spec.taskId).foldl apply dag := by
    intro specs
    induction specs with
    | nil =>
      intro dag
      rfl
    | cons spec specs ih =>
      intro dag
      rw [List.foldl_cons, List.flatMap_cons, List.foldl_append, foldl_apply_addDependency, ih]
      rfl
  exact hedges submission.tasks _

/-- An accepted message is a non-empty one whose dependencies form no cycle. -/
theorem decodeSubmission_accepts_iff {parse : ParseFromArray} {h : HashOrders} {data : List UInt8}
    {submission : WorkloadSubmission} (hparse : parse data = some (.workloadSubmission submission))
    (workloadId : ByteString) :
    (decodeSubmission parse h data workloadId .empty).1 = true ↔
      submission.tasks ≠ [] ∧ (buildSubmission .empty submission).Acyclic := by
  have hempty : (buildSubmission .empty submission).tasks.keys.isEmpty = false ↔
      submission.tasks ≠ [] := by
    rw [← Bool.not_eq_true, List.isEmpty_iff, not_iff_not, List.eq_nil_iff_forall_not_mem]
    simp only [← AList.mem_keys, mem_tasks_buildSubmission]
    rw [← List.eq_nil_iff_forall_not_mem, List.map_eq_nil_iff]
  have hcycle : (buildSubmission .empty submission).hasCycle h = false ↔
      (buildSubmission .empty submission).Acyclic := by
    constructor
    · exact acyclic_buildSubmission
    · intro hacyclic
      rw [← Bool.not_eq_true, hasCycle_iff]
      rintro ⟨v, -, c, -, hc⟩
      exact hacyclic c hc
  rw [decodeSubmission_of_parse hparse]
  simp only [isValid, Bool.and_eq_true, Bool.not_eq_true', hempty, hcycle]
  tauto

/-! ## The message of a built graph -/

section Message

variable {dag : WorkloadDAG} {h : HashOrders} {workloadId : ByteString}

/-- The submission lists the ordered tasks. -/
theorem mem_submissionOf {spec : TaskSpec} :
    spec ∈ (submissionOf h workloadId dag).tasks ↔
      ∃ id ∈ dag.topologicalOrder h, ∃ task, dag.getTask id = some task ∧
        spec = specOfTask task := by
  simp only [submissionOf, List.mem_map, List.mem_filterMap]
  constructor
  · rintro ⟨task, ⟨id, hid, htask⟩, rfl⟩
    exact ⟨id, hid, task, htask, rfl⟩
  · rintro ⟨id, hid, task, htask, rfl⟩
    exact ⟨task, ⟨id, hid, htask⟩, rfl⟩

/-- Tasks are stored under their own ids, so the message lists the tasks of the
order, in that order. -/
theorem map_taskId_submissionOf (hkeyed : dag.WellKeyed) :
    (submissionOf h workloadId dag).tasks.map TaskSpec.taskId =
      (dag.topologicalOrder h).filter fun id => (dag.getTask id).isSome := by
  rw [submissionOf, List.map_map]
  induction dag.topologicalOrder h with
  | nil => rfl
  | cons id order ih =>
    cases htask : dag.getTask id with
    | none => simpa [List.filterMap_cons, htask] using ih
    | some task =>
      have hid : task.id = id := hkeyed.id_eq id task htask
      simpa [List.filterMap_cons, htask, specOfTask, hid] using ih

theorem nodup_submissionOf (hkeyed : dag.WellKeyed) :
    ((submissionOf h workloadId dag).tasks.map TaskSpec.taskId).Nodup := by
  rw [map_taskId_submissionOf hkeyed]
  exact (dag.topologicalOrder_nodup h).filter _

/-- The dependencies recorded in the tasks. -/
def Recorded (dag : WorkloadDAG) (source target : TaskId) : Prop :=
  ∃ task, dag.getTask target = some task ∧ source ∈ task.dependencies

/-- The rebuilt edges are the recorded dependencies. -/
theorem edge_submissionOf (hkeyed : dag.WellKeyed) {u v : TaskId} :
    (buildSubmission .empty (submissionOf h workloadId dag)).Edge u v ↔
      v ∈ dag.topologicalOrder h ∧ Recorded dag u v := by
  rw [edge_buildSubmission]
  constructor
  · rintro ⟨spec, hspec, hu, rfl⟩
    rcases mem_submissionOf.1 hspec with ⟨id, hid, task, htask, rfl⟩
    have hidEq : task.id = id := hkeyed.id_eq id task htask
    simp only [specOfTask, hidEq] at hu ⊢
    exact ⟨hid, task, htask, hu⟩
  · rintro ⟨hv, task, htask, hu⟩
    refine ⟨specOfTask task, mem_submissionOf.2 ⟨v, hv, task, htask, rfl⟩, hu, ?_⟩
    exact (hkeyed.id_eq v task htask).symm

end Message

/-! ## Cyclic graphs -/

/-- If the decoder accepts what the encoder wrote, then the graph was valid and
the decoded graph has all its tasks. -/
def AcceptedMeansValid (serialize : SerializeToArray) (parse : ParseFromArray)
    (h h' : HashOrders) (workloadId : ByteString) (dag : WorkloadDAG) : Prop :=
  (decodeSubmission parse h' (encodeSubmission serialize h workloadId dag) [] .empty).1 = true →
    dag.isValid h = true ∧ ∀ id,
      id ∈ (decodeSubmission parse h' (encodeSubmission serialize h workloadId dag) []
        .empty).2.2.tasks ↔ id ∈ dag.tasks

/-- Protobuf reads back the message that the encoder writes for a graph. -/
def RoundTrips (serialize : SerializeToArray) (parse : ParseFromArray) (h : HashOrders)
    (workloadId : ByteString) (dag : WorkloadDAG) : Prop :=
  parse (serialize (.workloadSubmission (submissionOf h workloadId dag))) =
    some (.workloadSubmission (submissionOf h workloadId dag))

instance (serialize : SerializeToArray) (parse : ParseFromArray) (h : HashOrders)
    (workloadId : ByteString) (dag : WorkloadDAG) :
    Decidable (RoundTrips serialize parse h workloadId dag) :=
  inferInstanceAs (Decidable (_ = _))

theorem RoundTrips.decode_eq {serialize : SerializeToArray} {parse : ParseFromArray}
    {h h' : HashOrders} {workloadId before : ByteString} {dag : WorkloadDAG}
    (hround : RoundTrips serialize parse h workloadId dag) :
    (decodeSubmission parse h' (encodeSubmission serialize h workloadId dag) before .empty).2 =
      (workloadId, buildSubmission .empty (submissionOf h workloadId dag)) := by
  rw [encodeSubmission, decodeSubmission_of_parse hround]
  rfl

/-- The recorded dependencies of the tasks that are behind no cycle. -/
def RecordedUpstream (dag : WorkloadDAG) (source target : TaskId) : Prop :=
  target ∈ dag.tasks ∧ ¬ Digraph.DownstreamOfCycle dag.Edge target ∧ Recorded dag source target

section Cyclic

variable {dag : WorkloadDAG} {h : HashOrders} {workloadId : ByteString}

theorem edge_submissionOf_of_endpoints (hkeyed : dag.WellKeyed) (hends : dag.EndpointsAreTasks) :
    (buildSubmission .empty (submissionOf h workloadId dag)).Edge = RecordedUpstream dag := by
  funext u v
  apply propext
  rw [edge_submissionOf hkeyed, hends.mem_topologicalOrder_iff, RecordedUpstream, and_assoc]

theorem mem_tasks_submissionOf (hkeyed : dag.WellKeyed) (hends : dag.EndpointsAreTasks)
    (id : TaskId) :
    id ∈ (buildSubmission .empty (submissionOf h workloadId dag)).tasks ↔
      id ∈ dag.tasks ∧ ¬ Digraph.DownstreamOfCycle dag.Edge id := by
  rw [mem_tasks_buildSubmission, map_taskId_submissionOf hkeyed, List.mem_filter,
    getTask_isSome, hends.mem_topologicalOrder_iff]
  tauto

/-- The message is empty when every task is behind a cycle. -/
theorem tasks_submissionOf_eq_nil_iff (hkeyed : dag.WellKeyed) (hends : dag.EndpointsAreTasks) :
    (submissionOf h workloadId dag).tasks = [] ↔
      ∀ id ∈ dag.tasks, Digraph.DownstreamOfCycle dag.Edge id := by
  rw [← List.map_eq_nil_iff (f := TaskSpec.taskId), List.eq_nil_iff_forall_not_mem]
  simp only [← mem_tasks_buildSubmission, mem_tasks_submissionOf hkeyed hends]
  apply forall_congr'
  intro id
  tauto

end Cyclic

/-- For graphs on tasks: acceptance means validity exactly when the graph is
acyclic, or nothing is sent because every task is behind a cycle, or dependency
lists that were filled in by hand make what is sent cyclic. -/
theorem accepted_means_valid_iff (serialize : SerializeToArray) (parse : ParseFromArray)
    (h h' : HashOrders) (workloadId : ByteString) (ops : List WorkloadDAG.BuildOp)
    (hends : (build ops).EndpointsAreTasks)
    (hround : RoundTrips serialize parse h workloadId (build ops)) :
    AcceptedMeansValid serialize parse h h' workloadId (build ops) ↔
      (build ops).Acyclic ∨
      (∀ id ∈ (build ops).tasks,
        Digraph.DownstreamOfCycle (build ops).Edge id) ∨
      ¬ Digraph.Acyclic (RecordedUpstream (build ops)) := by
  have hkeyed := build_wellKeyed ops
  have haccepts := decodeSubmission_accepts_iff (h := h') hround []
  rw [WorkloadDAG.Acyclic, edge_submissionOf_of_endpoints hkeyed hends] at haccepts
  unfold AcceptedMeansValid
  rw [hround.decode_eq, encodeSubmission, haccepts, ne_eq,
    tasks_submissionOf_eq_nil_iff hkeyed hends]
  simp only [mem_tasks_submissionOf hkeyed hends]
  constructor
  · intro hmeans
    by_contra hnone
    push Not at hnone
    rcases hnone with ⟨hcyclic, ⟨id, hid, hfree⟩, hrecorded⟩
    have hvalid := (hmeans ⟨fun hall => hfree (hall id hid), hrecorded⟩).1
    apply hcyclic
    apply (hends.hasCycle_eq_false_iff h).1
    simpa using (Bool.and_eq_true_iff.1 hvalid).2
  · rintro (hacyclic | hall | hrecorded) ⟨hsent, hclean⟩
    · constructor
      · apply Bool.and_eq_true_iff.2
        constructor
        · push Not at hsent
          rcases hsent with ⟨id, hid, -⟩
          rw [Bool.not_eq_true', ← Bool.not_eq_true, List.isEmpty_iff]
          exact List.ne_nil_of_mem (AList.mem_keys.1 hid)
        · rw [(hends.hasCycle_eq_false_iff h).2 hacyclic]
          rfl
      · intro id
        apply and_iff_left
        rintro ⟨c, hcycle, -⟩
        exact hacyclic c hcycle
    · exact absurd hall hsent
    · exact absurd hclean hrecorded

/-- A task and, apart from it, two tasks that wait for each other. -/
def cyclicOps : List WorkloadDAG.BuildOp :=
  [.addTask { id := [97] }, .addTask { id := [98] }, .addTask { id := [99] },
    .addDependency [98] [99], .addDependency [99] [98]]

/-- The message that is written for it names the first task only. -/
def truncatedSubmission : WorkloadSubmission :=
  { workloadId := [119], tasks := [{ taskId := [97] }] }

def truncatedBytes : List UInt8 :=
  [0x22, 0x0A, 0x0A, 0x01, 0x77, 0x12, 0x05, 0x0A, 0x01, 0x61, 0x1A, 0x00]

/-- A chain of two tasks with costs 5 and 7. -/
def costedChainOps : List WorkloadDAG.BuildOp :=
  [.addTask { id := [97], profile := { computeCost := 5 } },
    .addTask { id := [98], profile := { computeCost := 7 } },
    .addDependency [97] [98], .addDependency [97] [98]]

/-- A chain with costs. -/
def costedChainSubmission : WorkloadSubmission :=
  { workloadId := [119]
    tasks := [{ taskId := [97], profile := { computeCostUs := 5 } },
      { taskId := [98], profile := { computeCostUs := 7 }, dependencies := [[97]] }] }

def costedChainBytes : List UInt8 :=
  [0x22, 0x18, 0x0A, 0x01, 0x77, 0x12, 0x07, 0x0A, 0x01, 0x61, 0x1A, 0x02, 0x08, 0x05,
    0x12, 0x0A, 0x0A, 0x01, 0x62, 0x1A, 0x02, 0x08, 0x07, 0x22, 0x01, 0x61]

/-- Protobuf on the two messages above. -/
def wireSerialize : SerializeToArray := fun envelope =>
  if envelope = .workloadSubmission truncatedSubmission then truncatedBytes
  else if envelope = .workloadSubmission costedChainSubmission then costedChainBytes
  else []

/-- A parser that knows these messages. -/
def wireParse : ParseFromArray := fun data =>
  if data = truncatedBytes then some (.workloadSubmission truncatedSubmission)
  else if data = costedChainBytes then some (.workloadSubmission costedChainSubmission)
  else none

/-- The cyclic graph is accepted as its one task outside the cycle. -/
theorem cyclic_workload_accepted :
    RoundTrips wireSerialize wireParse .insertion [119] (build cyclicOps) ∧
      (build cyclicOps).EndpointsAreTasks ∧
      (build cyclicOps).isValid .insertion = false ∧
      (decodeSubmission wireParse .insertion
        (encodeSubmission wireSerialize .insertion [119] (build cyclicOps)) []
        .empty).1 = true ∧
      (decodeSubmission wireParse .insertion
        (encodeSubmission wireSerialize .insertion [119] (build cyclicOps)) []
        .empty).2.2.tasks.keys = [[97]] := by
  refine ⟨by decide, by decide, by decide, by decide, by decide⟩

theorem accepted_means_valid_costedChain :
    AcceptedMeansValid wireSerialize wireParse .insertion .insertion [119]
      (build costedChainOps) := by
  have hends : (build costedChainOps).EndpointsAreTasks := by decide
  refine (accepted_means_valid_iff wireSerialize wireParse .insertion .insertion [119]
    costedChainOps hends (by decide)).2 (Or.inl ?_)
  exact (hends.hasCycle_eq_false_iff .insertion).1 (by decide)

/-! ## Graphs whose tasks record their edges -/

/-- Tasks are added with empty dependency lists, and edges between tasks that are
already there. -/
inductive ClosedBuild : List WorkloadDAG.BuildOp → Prop
  | nil : ClosedBuild []
  | addTask {ops : List WorkloadDAG.BuildOp} {task : Task} (hops : ClosedBuild ops)
      (hdeps : task.dependencies = []) : ClosedBuild (ops ++ [.addTask task])
  | addDependency {ops : List WorkloadDAG.BuildOp} {source target : TaskId}
      (hops : ClosedBuild ops) (hsource : source ∈ (build ops).tasks)
      (htarget : target ∈ (build ops).tasks) :
      ClosedBuild (ops ++ [.addDependency source target])

/-- The third copy of the edges: each task lists its predecessors once. -/
structure RecordsEdges (dag : WorkloadDAG) : Prop where
  endpoints : dag.EndpointsAreTasks
  nodup : ∀ id task, dag.getTask id = some task → task.dependencies.Nodup
  mem_iff : ∀ id task, dag.getTask id = some task →
    ∀ dep, dep ∈ task.dependencies ↔ dag.Edge dep id

section Records

variable {dag : WorkloadDAG}

theorem mem_recordDependency {source dep : TaskId} {task : Task} :
    dep ∈ (recordDependency source task).dependencies ↔
      dep ∈ task.dependencies ∨ dep = source := by
  unfold recordDependency
  split
  · rename_i hold
    constructor
    · exact Or.inl
    · rintro (hdep | rfl)
      · exact hdep
      · exact hold
  · simp

theorem nodup_recordDependency {source : TaskId} {task : Task}
    (hnodup : task.dependencies.Nodup) :
    (recordDependency source task).dependencies.Nodup := by
  unfold recordDependency
  split
  · exact hnodup
  · rename_i hnew
    exact (List.perm_append_singleton source task.dependencies).nodup_iff.2
      (List.nodup_cons.2 ⟨hnew, hnodup⟩)

theorem getTask_addDependency (source target id : TaskId) :
    (dag.addDependency source target).getTask id =
      if id = target then (dag.getTask id).map (recordDependency source)
      else dag.getTask id :=
  UnorderedMap.lookup_modify _ _ _ _

theorem RecordsEdges.addTask (hdag : RecordsEdges dag) {task : Task}
    (hdeps : task.dependencies = []) : RecordsEdges (dag.addTask task) := by
  have hedge : ∀ u v, (dag.addTask task).Edge u v ↔ dag.Edge u v := by
    intro u v
    simp [WorkloadDAG.Edge]
  have hread : ∀ id stored, (dag.addTask task).getTask id = some stored →
      dag.getTask id = some stored ∨ (id ∉ dag.tasks ∧ stored = task) := by
    intro id stored hstored
    rw [getTask, WorkloadDAG.addTask, UnorderedMap.lookup_emplace] at hstored
    split at hstored
    · rename_i hnew
      cases hstored
      exact Or.inr ⟨hnew.1 ▸ hnew.2, rfl⟩
    · exact Or.inl hstored
  refine ⟨?_, ?_, ?_⟩
  · intro u v huv
    rcases hdag.endpoints u v ((hedge u v).1 huv) with ⟨hu, hv⟩
    exact ⟨mem_tasks_addTask.2 (Or.inr hu),
      mem_tasks_addTask.2 (Or.inr hv)⟩
  · intro id stored hstored
    rcases hread id stored hstored with hold | ⟨-, rfl⟩
    · exact hdag.nodup id stored hold
    · rw [hdeps]
      exact List.nodup_nil
  · intro id stored hstored dep
    rw [hedge]
    rcases hread id stored hstored with hold | ⟨hnew, rfl⟩
    · exact hdag.mem_iff id stored hold dep
    · -- No edge could point to the id before it became a task.
      rw [hdeps]
      constructor
      · intro hdep
        cases hdep
      · intro hdep
        exact absurd (hdag.endpoints dep id hdep).2 hnew

/-- An edge between tasks is recorded. -/
theorem RecordsEdges.addDependency (hdag : RecordsEdges dag) {source target : TaskId}
    (hsource : source ∈ dag.tasks) (htarget : target ∈ dag.tasks) :
    RecordsEdges (dag.addDependency source target) := by
  refine ⟨?_, ?_, ?_⟩
  · intro u v huv
    rw [mem_tasks_addDependency, mem_tasks_addDependency]
    rcases edge_addDependency.1 huv with huv | ⟨rfl, rfl⟩
    · exact hdag.endpoints u v huv
    · exact ⟨hsource, htarget⟩
  · intro id stored hstored
    rw [getTask_addDependency] at hstored
    split at hstored
    · rcases Option.map_eq_some_iff.1 hstored with ⟨task, htask, rfl⟩
      exact nodup_recordDependency (hdag.nodup id task htask)
    · exact hdag.nodup id stored hstored
  · intro id stored hstored dep
    rw [getTask_addDependency] at hstored
    rw [edge_addDependency]
    split at hstored
    · rename_i hid
      rcases Option.map_eq_some_iff.1 hstored with ⟨task, htask, rfl⟩
      rw [mem_recordDependency, hdag.mem_iff id task htask]
      simp [hid]
    · rename_i hid
      rw [hdag.mem_iff id stored hstored]
      simp [hid]

/-- Every graph built in this way records its edges. -/
theorem ClosedBuild.recordsEdges {ops : List WorkloadDAG.BuildOp} (hops : ClosedBuild ops) :
    RecordsEdges (build ops) := by
  induction hops with
  | nil =>
    refine ⟨?_, ?_, ?_⟩
    · intro u v huv
      cases huv
    · intro id task htask
      cases htask
    · intro id task htask
      cases htask
  | addTask _ hdeps ih =>
    rw [build, List.foldl_append]
    exact ih.addTask hdeps
  | addDependency _ hsource htarget ih =>
    rw [build, List.foldl_append]
    exact ih.addDependency hsource htarget

/-- Recorded dependencies are the edges. -/
theorem RecordsEdges.recorded_iff (hdag : RecordsEdges dag) {u v : TaskId} :
    Recorded dag u v ↔ dag.Edge u v := by
  constructor
  · rintro ⟨task, htask, hu⟩
    exact (hdag.mem_iff v task htask u).1 hu
  · intro huv
    rcases exists_getTask (hdag.endpoints u v huv).2 with ⟨task, htask⟩
    exact ⟨task, htask, (hdag.mem_iff v task htask u).2 huv⟩

end Records

/-! ## The decoded tasks -/

section Tasks

theorem getTask_addSpecTask (dag : WorkloadDAG) (spec : TaskSpec) (id : TaskId) :
    (addSpecTask dag spec).getTask id =
      if id = spec.taskId ∧ spec.taskId ∉ dag.tasks then some (taskOfSpec spec)
      else dag.getTask id :=
  UnorderedMap.lookup_emplace _ _ _ _

/-- The first pass stores one task per specification. -/
theorem getTask_foldl_addSpecTask {specs : List TaskSpec} (dag : WorkloadDAG)
    (hnodup : (specs.map TaskSpec.taskId).Nodup)
    (hnew : ∀ spec ∈ specs, spec.taskId ∉ dag.tasks) :
    ∀ spec ∈ specs, (specs.foldl addSpecTask dag).getTask spec.taskId =
      some (taskOfSpec spec) := by
  induction specs generalizing dag with
  | nil =>
    intro spec hspec
    cases hspec
  | cons first specs ih =>
    rw [List.map_cons, List.nodup_cons] at hnodup
    have hfirst := hnew first List.mem_cons_self
    have hother : ∀ spec ∈ specs, spec.taskId ≠ first.taskId := by
      intro spec hspec heq
      exact hnodup.1 (heq ▸ List.mem_map_of_mem hspec)
    intro spec hspec
    rw [List.foldl_cons]
    rcases List.mem_cons.1 hspec with rfl | hspec
    · have hkeep : ∀ (specs : List TaskSpec) (dag : WorkloadDAG) (task : Task),
          dag.getTask spec.taskId = some task →
            (specs.foldl addSpecTask dag).getTask spec.taskId = some task := by
        intro specs
        induction specs with
        | nil =>
          intro dag task htask
          exact htask
        | cons next specs ih =>
          intro dag task htask
          apply ih
          rw [getTask_addSpecTask, if_neg, htask]
          rintro ⟨heq, hnot⟩
          apply hnot
          rw [← heq, ← getTask_isSome, htask]
          rfl
      apply hkeep
      rw [getTask_addSpecTask, if_pos ⟨rfl, hfirst⟩]
    · apply ih _ hnodup.2 _ spec hspec
      intro later hlater
      rw [addSpecTask, mem_tasks_addTask]
      rintro (heq | hmem)
      · exact hother later hlater heq
      · exact hnew later (List.mem_cons_of_mem _ hlater) hmem

/-- Recording a list of new dependencies appends it. -/
theorem foldl_recordDependency {deps : List TaskId} {task : Task} (hnodup : deps.Nodup)
    (hnew : ∀ dep ∈ deps, dep ∉ task.dependencies) :
    deps.foldl (fun task dep => recordDependency dep task) task =
      { task with dependencies := task.dependencies ++ deps } := by
  induction deps generalizing task with
  | nil => simp
  | cons dep deps ih =>
    rw [List.nodup_cons] at hnodup
    have hrecord : recordDependency dep task =
        { task with dependencies := task.dependencies ++ [dep] } :=
      if_neg (hnew dep List.mem_cons_self)
    rw [List.foldl_cons, hrecord, ih hnodup.2]
    · simp
    · intro other hother hmem
      rcases List.mem_append.1 hmem with hmem | hmem
      · exact hnew other (List.mem_cons_of_mem _ hother) hmem
      · rw [List.mem_singleton] at hmem
        exact hnodup.1 (hmem ▸ hother)

theorem getTask_foldl_addDependency (deps : List TaskId) (target : TaskId) (dag : WorkloadDAG)
    (id : TaskId) :
    (deps.foldl (fun dag dep => dag.addDependency dep target) dag).getTask id =
      if id = target then
        (dag.getTask id).map fun task =>
          deps.foldl (fun task dep => recordDependency dep task) task
      else dag.getTask id := by
  induction deps generalizing dag with
  | nil => simp
  | cons dep deps ih =>
    rw [List.foldl_cons, ih, getTask_addDependency]
    split
    · rw [Option.map_map]
      rfl
    · rfl

/-- The second pass records the dependencies of one specification per task. -/
theorem getTask_foldl_addSpecDependencies {specs : List TaskSpec} (dag : WorkloadDAG)
    (hnodup : (specs.map TaskSpec.taskId).Nodup) :
    (∀ spec ∈ specs, (specs.foldl addSpecDependencies dag).getTask spec.taskId =
      (dag.getTask spec.taskId).map fun task =>
        spec.dependencies.foldl (fun task dep => recordDependency dep task) task) ∧
    ∀ id, id ∉ specs.map TaskSpec.taskId →
      (specs.foldl addSpecDependencies dag).getTask id = dag.getTask id := by
  induction specs generalizing dag with
  | nil => exact ⟨fun spec hspec => absurd hspec List.not_mem_nil, fun id _ => rfl⟩
  | cons first specs ih =>
    rw [List.map_cons, List.nodup_cons] at hnodup
    rcases ih (addSpecDependencies dag first) hnodup.2 with ⟨hlisted, hother⟩
    constructor
    · intro spec hspec
      rw [List.foldl_cons]
      rcases List.mem_cons.1 hspec with rfl | hspec
      · rw [hother _ hnodup.1, addSpecDependencies, getTask_foldl_addDependency, if_pos rfl]
      · have hne : spec.taskId ≠ first.taskId := by
          intro heq
          exact hnodup.1 (heq ▸ List.mem_map_of_mem hspec)
        rw [hlisted spec hspec, addSpecDependencies, getTask_foldl_addDependency, if_neg hne]
    · intro id hid
      rw [List.map_cons, List.mem_cons, not_or] at hid
      rw [List.foldl_cons, hother id hid.2, addSpecDependencies, getTask_foldl_addDependency,
        if_neg hid.1]

/-- A specification with distinct dependencies in a message with distinct ids
comes back as the task it describes. -/
theorem getTask_buildSubmission {submission : WorkloadSubmission}
    (hnodup : (submission.tasks.map TaskSpec.taskId).Nodup) {spec : TaskSpec}
    (hspec : spec ∈ submission.tasks) (hdeps : spec.dependencies.Nodup) :
    (buildSubmission .empty submission).getTask spec.taskId =
      some { taskOfSpec spec with dependencies := spec.dependencies } := by
  have htasks := getTask_foldl_addSpecTask .empty hnodup
    (fun spec _ => AList.notMem_empty spec.taskId) spec hspec
  rw [buildSubmission, (getTask_foldl_addSpecDependencies _ hnodup).1 spec hspec, htasks,
    Option.map_some, foldl_recordDependency hdeps]
  · rfl
  · intro dep _ hmem
    cases hmem

/-- Every cost is an `int64_t`. -/
def CostsAreInt64 (dag : WorkloadDAG) : Prop :=
  ∀ id ∈ dag.tasks.keys, IsInt64 (dag.costOf id)

instance (dag : WorkloadDAG) : Decidable (CostsAreInt64 dag) :=
  inferInstanceAs (Decidable (∀ id ∈ dag.tasks.keys, IsInt64 (dag.costOf id)))

/-- The casts from `int64_t` to the unsigned field and back cancel out. -/
theorem toInt_ofInt_of_int64 {count : Int} (h : IsInt64 count) :
    (BitVec.ofInt 64 count).toInt = count := by
  rcases h with ⟨hlow, hhigh⟩
  rw [BitVec.toInt_ofInt]
  apply Int.bmod_eq_of_le <;> omega

/-- A task survives its wire form. -/
theorem taskOfSpec_specOfTask {task : Task} (hcost : IsInt64 task.profile.computeCost) :
    { taskOfSpec (specOfTask task) with dependencies := (specOfTask task).dependencies } =
      { task with state := .pending } := by
  simp only [taskOfSpec, specOfTask, toInt_ofInt_of_int64 hcost]

end Tasks

/-! ## The round trip -/

/-- Everything a task holds except its execution state. -/
def description (task : Task) : TaskId × ByteString × TaskProfile × List TaskId :=
  (task.id, task.name, task.profile, task.dependencies)

section RoundTrip

variable {dag : WorkloadDAG} {h : HashOrders} {workloadId : ByteString}

/-- Each task comes back, as pending. -/
theorem getTask_decoded (h : HashOrders) (workloadId : ByteString) (hkeyed : dag.WellKeyed)
    (hrecords : RecordsEdges dag) (hacyclic : dag.Acyclic) (hcosts : CostsAreInt64 dag)
    (id : TaskId) :
    (buildSubmission .empty (submissionOf h workloadId dag)).getTask id =
      (dag.getTask id).map fun task => { task with state := .pending } := by
  have hlisted := hrecords.endpoints.mem_topologicalOrder_of_acyclic hacyclic h
  cases htask : dag.getTask id with
  | none =>
    rw [Option.map_none, ← Option.not_isSome_iff_eq_none, getTask_isSome,
      mem_tasks_submissionOf hkeyed hrecords.endpoints]
    rintro ⟨hmem, -⟩
    rw [← getTask_isSome, htask] at hmem
    cases hmem
  | some task =>
    have hmem : id ∈ dag.tasks := by
      rw [← getTask_isSome, htask]
      rfl
    have hspec : specOfTask task ∈ (submissionOf h workloadId dag).tasks :=
      mem_submissionOf.2 ⟨id, (hlisted id).2 hmem, task, htask, rfl⟩
    have hdecoded := getTask_buildSubmission (nodup_submissionOf hkeyed) hspec
      (hrecords.nodup id task htask)
    have hrange := hcosts id (AList.mem_keys.1 hmem)
    rw [costOf_of_getTask htask] at hrange
    rw [taskOfSpec_specOfTask hrange] at hdecoded
    have hid : (specOfTask task).taskId = id := hkeyed.id_eq id task htask
    rw [hid] at hdecoded
    exact hdecoded

/-- Each edge comes back. -/
theorem edge_decoded (h : HashOrders) (workloadId : ByteString) (hkeyed : dag.WellKeyed)
    (hrecords : RecordsEdges dag) (hacyclic : dag.Acyclic) (u v : TaskId) :
    (buildSubmission .empty (submissionOf h workloadId dag)).Edge u v ↔ dag.Edge u v := by
  rw [edge_submissionOf hkeyed, hrecords.recorded_iff,
    hrecords.endpoints.mem_topologicalOrder_of_acyclic hacyclic]
  constructor
  · exact And.right
  · intro huv
    exact ⟨(hrecords.endpoints u v huv).2, huv⟩

end RoundTrip

/-- A non-empty acyclic graph comes back with the same tasks, the same edges in
both directions and the same metrics. -/
theorem decode_encode_submission (serialize : SerializeToArray) (parse : ParseFromArray)
    (h h' : HashOrders) (workloadId before : ByteString) (ops : List WorkloadDAG.BuildOp)
    (hops : ClosedBuild ops) (hne : (build ops).taskCount ≠ 0)
    (hacyclic : (build ops).Acyclic)
    (hcosts : CostsAreInt64 (build ops))
    (hround : RoundTrips serialize parse h workloadId (build ops)) :
    ∃ decoded, decodeSubmission parse h'
        (encodeSubmission serialize h workloadId (build ops)) before .empty =
          (true, workloadId, decoded) ∧
      (∀ id, id ∈ decoded.tasks ↔ id ∈ (build ops).tasks) ∧
      (∀ id, (decoded.getTask id).map description =
        ((build ops).getTask id).map description) ∧
      (∀ u v, decoded.Edge u v ↔ (build ops).Edge u v) ∧
      (∀ u v, u ∈ decoded.dependencies v ↔ u ∈ (build ops).dependencies v) ∧
      ∀ h₁ h₂ : HashOrders,
        decoded.criticalPathCost h₁ = (build ops).criticalPathCost h₂ ∧
        decoded.peakMemoryEstimate h₁ = (build ops).peakMemoryEstimate h₂ ∧
        decoded.totalComputeCost h₁ = (build ops).totalComputeCost h₂ := by
  have hkeyed := build_wellKeyed ops
  have hrecords := hops.recordsEdges
  have htask := getTask_decoded h workloadId hkeyed hrecords hacyclic hcosts
  have hedge := edge_decoded h workloadId hkeyed hrecords hacyclic
  have hmem : ∀ id, id ∈ (buildSubmission .empty (submissionOf h workloadId
      (build ops))).tasks ↔ id ∈ (build ops).tasks := by
    intro id
    rw [← getTask_isSome, htask, Option.isSome_map, getTask_isSome]
  have hmirrored : (buildSubmission .empty (submissionOf h workloadId
      (build ops))).Mirrored := by
    rw [buildSubmission_eq_build]
    exact build_mirrored _
  have hclosed : (build ops).Closed :=
    ⟨build_mirrored ops, hrecords.endpoints, hacyclic⟩
  have hsame : WorkloadDAG.SameWorkload (buildSubmission .empty (submissionOf h workloadId
      (build ops))) (build ops) := by
    refine ⟨hedge, ?_⟩
    intro id
    rw [htask, Option.map_map]
    rfl
  have hdecodedAcyclic : (buildSubmission .empty (submissionOf h workloadId
      (build ops))).Acyclic := by
    rw [WorkloadDAG.Acyclic, hsame.edge_eq]
    exact hacyclic
  have hdecodedClosed : (buildSubmission .empty (submissionOf h workloadId
      (build ops))).Closed := by
    refine ⟨hmirrored, ?_, hdecodedAcyclic⟩
    intro u v huv
    rw [hmem, hmem]
    exact hrecords.endpoints u v ((hedge u v).1 huv)
  have haccepted : (decodeSubmission parse h'
      (encodeSubmission serialize h workloadId (build ops)) before .empty).1 = true := by
    refine (decodeSubmission_accepts_iff hround before).2 ⟨?_, hdecodedAcyclic⟩
    rcases List.exists_mem_of_length_pos (Nat.pos_of_ne_zero hne) with ⟨id, hid⟩
    have hlisted := (hmem id).2 (AList.mem_keys.2 hid)
    rw [mem_tasks_buildSubmission] at hlisted
    intro hnil
    rw [hnil] at hlisted
    cases hlisted
  refine ⟨buildSubmission .empty (submissionOf h workloadId (build ops)),
    Prod.ext haccepted hround.decode_eq, hmem, ?_, hedge, ?_, ?_⟩
  · intro id
    rw [htask, Option.map_map]
    rfl
  · intro u v
    rw [hmirrored.mem_dependencies, (build_mirrored ops).mem_dependencies, hedge]
  · intro h₁ h₂
    exact ⟨hsame.criticalPathCost_eq hdecodedClosed hclosed,
      hsame.peakMemoryEstimate_eq hdecodedClosed hclosed, hsame.totalComputeCost_eq⟩

theorem closedBuild_costedChain : ClosedBuild costedChainOps := by
  have htasks : ClosedBuild (costedChainOps.take 2) :=
    .addTask (.addTask .nil rfl) rfl
  exact .addDependency (.addDependency htasks (by decide) (by decide)) (by decide) (by decide)

theorem decode_encode_costedChain :
    ∃ decoded, decodeSubmission wireParse .insertion
        (encodeSubmission wireSerialize .insertion [119] (build costedChainOps)) []
          .empty = (true, [119], decoded) ∧
      decoded.criticalPathCost .insertion =
        (build costedChainOps).criticalPathCost .insertion := by
  have hends := closedBuild_costedChain.recordsEdges.endpoints
  rcases decode_encode_submission wireSerialize wireParse .insertion .insertion [119] []
    costedChainOps closedBuild_costedChain (by decide)
    ((hends.hasCycle_eq_false_iff .insertion).1 (by decide)) (by decide) (by decide)
    with ⟨decoded, hdecoded, -, -, -, -, hmetrics⟩
  exact ⟨decoded, hdecoded, (hmetrics .insertion .insertion).1⟩

end OffloadCodec

end EdgeOrchestrator
