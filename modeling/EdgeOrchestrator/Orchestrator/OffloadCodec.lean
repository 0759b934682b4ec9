import EdgeOrchestrator.Scheduler.Policy

/-!
# Workload submissions on the wire

`OffloadCodec::decode_submission` turns a protobuf envelope into a
`WorkloadDAG` in two passes, tasks first and edges second, and accepts it when
the graph is non-empty and the depth-first search finds no cycle.  Protobuf is
a parameter: the parser is any partial function from bytes to envelopes.

Neither pass checks that a dependency names a task of the message or that task
ids are distinct, and the schedulers walk Kahn's order, which never lists a
task downstream of an unknown id.

Main results:

- `edge_buildSubmission`: the edges of the decoded graph are exactly the dependencies the
  message lists.
- `schedule_decides_specs_iff`: the plan of an accepted submission has one decision per task
  specification exactly when ids are distinct and every dependency names a task of the message.
-/

namespace EdgeOrchestrator

/-! ## Messages -/

/-- `message TaskProfileMsg`. -/
structure TaskProfileMsg where
  computeCostUs : U64 := 0
  memoryBytes : U64 := 0
  inputBytes : U64 := 0
  outputBytes : U64 := 0
deriving DecidableEq, Repr

/-- `message TaskSpec`. -/
structure TaskSpec where
  taskId : ByteString := []
  name : ByteString := []
  profile : TaskProfileMsg := {}
  dependencies : List ByteString := []
deriving DecidableEq, Repr

/-- `message WorkloadSubmission`. -/
structure WorkloadSubmission where
  workloadId : ByteString := []
  tasks : List TaskSpec := []
deriving DecidableEq, Repr

/-- `message OffloadRequest`. -/
structure OffloadRequest where
  taskId : ByteString := []
  profile : TaskProfileMsg := {}
  inputData : ByteString := []
deriving DecidableEq, Repr

/-- `message OffloadResponse`. -/
structure OffloadResponse where
  success : Bool := false
  outputData : ByteString := []
  actualDurationUs : U64 := 0
  peakMemoryBytes : U64 := 0
  errorMessage : ByteString := []
deriving DecidableEq, Repr

/-- `message WorkloadResult`. -/
structure WorkloadResult where
  workloadId : ByteString := []
  accepted : Bool := false
  errorMessage : ByteString := []
  localTasks : U64 := 0
  offloadedTasks : U64 := 0
  completedTasks : U64 := 0
  failedTasks : U64 := 0
  offloadFallbacks : U64 := 0
  makespanEstimateUs : U64 := 0
  totalDurationUs : U64 := 0
deriving DecidableEq, Repr

/-- The payload of an envelope; an advertisement and no payload at all are treated
alike. -/
inductive Envelope where
  | offloadRequest (request : OffloadRequest)
  | offloadResponse (response : OffloadResponse)
  | workloadSubmission (submission : WorkloadSubmission)
  | workloadResult (result : WorkloadResult)
  | otherPayload
deriving DecidableEq, Repr

/-- `Envelope::ParseFromArray`: the message the bytes encode, if they encode one. -/
abbrev ParseFromArray := List UInt8 → Option Envelope

namespace OffloadCodec

/-! ## Decoding -/

/-- The task a specification describes; the unsigned cost is reinterpreted as a
signed one, and the dependency list starts out empty. -/
def taskOfSpec (spec : TaskSpec) : Task where
  id := spec.taskId
  name := spec.name
  profile :=
    { computeCost := spec.profile.computeCostUs.toInt
      memoryBytes := spec.profile.memoryBytes
      inputBytes := spec.profile.inputBytes
      outputBytes := spec.profile.outputBytes }

/-- The first loop adds the tasks. -/
def addSpecTask (dag : WorkloadDAG) (spec : TaskSpec) : WorkloadDAG :=
  dag.addTask (taskOfSpec spec)

/-- The second loop adds the edges. -/
def addSpecDependencies (dag : WorkloadDAG) (spec : TaskSpec) : WorkloadDAG :=
  spec.dependencies.foldl (fun dag dep => dag.addDependency dep spec.taskId) dag

/-- Every task exists before the first edge is added. -/
def buildSubmission (dag : WorkloadDAG) (submission : WorkloadSubmission) : WorkloadDAG :=
  submission.tasks.foldl addSpecDependencies (submission.tasks.foldl addSpecTask dag)

variable (parse : ParseFromArray)

/-- The parse stage of `decode_submission`, before it builds a graph. -/
def parsedSubmission (data : List UInt8) : Option WorkloadSubmission :=
  match parse data with
  | some (.workloadSubmission submission) => some submission
  | _ => none

/-- The returned flag and the two output parameters. -/
def decodeSubmission (h : HashOrders) (data : List UInt8) (workloadId : ByteString)
    (dag : WorkloadDAG) : Bool × ByteString × WorkloadDAG :=
  match parsedSubmission parse data with
  | some submission =>
    let decoded := buildSubmission dag submission
    (decoded.isValid h && !decoded.hasCycle h, submission.workloadId, decoded)
  | none => (false, workloadId, dag)

theorem parsedSubmission_eq_some {parse : ParseFromArray} {data : List UInt8}
    {submission : WorkloadSubmission} :
    parsedSubmission parse data = some submission ↔
      parse data = some (.workloadSubmission submission) := by
  unfold parsedSubmission
  split
  · simp_all
  · rename_i hother
    simp only [reduceCtorEq, false_iff]
    exact hother submission

theorem decodeSubmission_of_parse {parse : ParseFromArray} {h : HashOrders} {data : List UInt8}
    {submission : WorkloadSubmission} (hparse : parse data = some (.workloadSubmission submission))
    {workloadId : ByteString} {dag : WorkloadDAG} :
    decodeSubmission parse h data workloadId dag =
      ((buildSubmission dag submission).isValid h && !(buildSubmission dag submission).hasCycle h,
        submission.workloadId, buildSubmission dag submission) := by
  rw [decodeSubmission, parsedSubmission_eq_some.2 hparse]

/-- `data` encodes `submission`, and it is accepted into a fresh graph. -/
def Accepts (h : HashOrders) (data : List UInt8) (submission : WorkloadSubmission) : Prop :=
  parse data = some (.workloadSubmission submission) ∧
    (decodeSubmission parse h data [] .empty).1 = true

/-! ## The decoded graph -/

section Decoded

variable {dag : WorkloadDAG} {specs : List TaskSpec} {submission : WorkloadSubmission}

theorem mem_tasks_foldl_addSpecTask (specs : List TaskSpec) (dag : WorkloadDAG)
    (id : TaskId) :
    id ∈ (specs.foldl addSpecTask dag).tasks ↔
      id ∈ dag.tasks ∨ id ∈ specs.map TaskSpec.taskId := by
  induction specs generalizing dag with
  | nil => simp
  | cons spec specs ih =>
    rw [List.foldl_cons, ih, addSpecTask, WorkloadDAG.mem_tasks_addTask, List.map_cons,
      List.mem_cons]
    simp only [taskOfSpec]
    tauto

theorem edge_foldl_addSpecTask (specs : List TaskSpec) (dag : WorkloadDAG)
    (source target : TaskId) :
    (specs.foldl addSpecTask dag).Edge source target ↔ dag.Edge source target := by
  induction specs generalizing dag with
  | nil => exact Iff.rfl
  | cons spec specs ih =>
    rw [List.foldl_cons, ih]
    simp [WorkloadDAG.Edge, addSpecTask]

private theorem mem_tasks_foldl_addDependency (deps : List TaskId) (target : TaskId)
    (dag : WorkloadDAG) (id : TaskId) :
    id ∈ (deps.foldl (fun dag dep => dag.addDependency dep target) dag).tasks ↔
      id ∈ dag.tasks := by
  induction deps generalizing dag with
  | nil => exact Iff.rfl
  | cons dep deps ih => rw [List.foldl_cons, ih, WorkloadDAG.mem_tasks_addDependency]

private theorem edge_foldl_addDependency (deps : List TaskId) (target : TaskId)
    (dag : WorkloadDAG) (u v : TaskId) :
    (deps.foldl (fun dag dep => dag.addDependency dep target) dag).Edge u v ↔
      dag.Edge u v ∨ (u ∈ deps ∧ v = target) := by
  induction deps generalizing dag with
  | nil => simp
  | cons dep deps ih =>
    rw [List.foldl_cons, ih, WorkloadDAG.edge_addDependency, List.mem_cons]
    tauto

theorem mem_tasks_foldl_addSpecDependencies (specs : List TaskSpec) (dag : WorkloadDAG)
    (id : TaskId) :
    id ∈ (specs.foldl addSpecDependencies dag).tasks ↔ id ∈ dag.tasks := by
  induction specs generalizing dag with
  | nil => exact Iff.rfl
  | cons spec specs ih =>
    rw [List.foldl_cons, ih, addSpecDependencies, mem_tasks_foldl_addDependency]

theorem edge_foldl_addSpecDependencies (specs : List TaskSpec) (dag : WorkloadDAG)
    (u v : TaskId) :
    (specs.foldl addSpecDependencies dag).Edge u v ↔
      dag.Edge u v ∨ ∃ spec ∈ specs, u ∈ spec.dependencies ∧ v = spec.taskId := by
  induction specs generalizing dag with
  | nil => simp
  | cons spec specs ih =>
    rw [List.foldl_cons, ih, addSpecDependencies, edge_foldl_addDependency]
    simp only [List.exists_mem_cons_iff]
    tauto

/-- The tasks of the decoded graph carry the ids of the message. -/
theorem mem_tasks_buildSubmission (submission : WorkloadSubmission) (id : TaskId) :
    id ∈ (buildSubmission .empty submission).tasks ↔
      id ∈ submission.tasks.map TaskSpec.taskId := by
  rw [buildSubmission, mem_tasks_foldl_addSpecDependencies, mem_tasks_foldl_addSpecTask]
  simp [WorkloadDAG.empty]

/-- The edges of the decoded graph are the dependencies of the message. -/
theorem edge_buildSubmission (submission : WorkloadSubmission) (u v : TaskId) :
    (buildSubmission .empty submission).Edge u v ↔
      ∃ spec ∈ submission.tasks, u ∈ spec.dependencies ∧ v = spec.taskId := by
  rw [buildSubmission, edge_foldl_addSpecDependencies, edge_foldl_addSpecTask]
  simp [WorkloadDAG.Edge, WorkloadDAG.dependents, WorkloadDAG.empty]

/-- Edges of the decoded graph always end in a task. -/
theorem target_mem_tasks {u v : TaskId}
    (huv : (buildSubmission .empty submission).Edge u v) :
    v ∈ (buildSubmission .empty submission).tasks := by
  rcases (edge_buildSubmission submission u v).1 huv with ⟨spec, hspec, -, rfl⟩
  exact (mem_tasks_buildSubmission submission _).2 (List.mem_map.2 ⟨spec, hspec, rfl⟩)

theorem counted_buildSubmission_iff {v : TaskId} :
    (buildSubmission .empty submission).Counted v ↔
      v ∈ (buildSubmission .empty submission).tasks := by
  constructor
  · intro hv
    rcases hv with hv | ⟨u, huv⟩
    · exact hv
    · exact target_mem_tasks huv
  · exact Or.inl

/-- Edge targets are tasks, so a search that finds no cycle proves there is none. -/
theorem acyclic_buildSubmission {h : HashOrders}
    (hvalid : (buildSubmission .empty submission).hasCycle h = false) :
    (buildSubmission .empty submission).Acyclic := by
  intro v hcycle
  rcases Relation.TransGen.tail'_iff.1 hcycle with ⟨w, -, hwv⟩
  have hfound : (buildSubmission .empty submission).hasCycle h = true :=
    (WorkloadDAG.hasCycle_iff h _).2
      ⟨v, target_mem_tasks hwv, v, Relation.ReflTransGen.refl, hcycle⟩
  rw [hvalid] at hfound
  cases hfound

theorem Accepts.hasCycle_eq_false {parse : ParseFromArray} {h : HashOrders}
    {data : List UInt8} (haccepts : Accepts parse h data submission) :
    (buildSubmission .empty submission).hasCycle h = false := by
  rcases haccepts with ⟨hparse, haccepted⟩
  rw [decodeSubmission_of_parse hparse] at haccepted
  simpa using (Bool.and_eq_true_iff.1 haccepted).2

/-- In an acyclic decoded graph, Kahn's order lists the tasks all of whose
ancestors are tasks. -/
theorem mem_topologicalOrder_buildSubmission
    (hacyclic : (buildSubmission .empty submission).Acyclic) (h : HashOrders) (v : TaskId) :
    v ∈ (buildSubmission .empty submission).topologicalOrder h ↔
      ∀ u, Relation.ReflTransGen (buildSubmission .empty submission).Edge u v →
        u ∈ (buildSubmission .empty submission).tasks := by
  rw [WorkloadDAG.mem_topologicalOrder_iff]
  constructor
  · intro hall u hpath
    exact counted_buildSubmission_iff.1 (hall u hpath).1
  · intro hall u hpath
    exact ⟨Or.inl (hall u hpath), hacyclic u⟩

end Decoded

/-! ## Plans for accepted submissions -/

/-- Task ids are pairwise distinct and every dependency names one of them. -/
def WellFormed (submission : WorkloadSubmission) : Prop :=
  (submission.tasks.map TaskSpec.taskId).Nodup ∧
    ∀ spec ∈ submission.tasks, ∀ dep ∈ spec.dependencies,
      dep ∈ submission.tasks.map TaskSpec.taskId

/-- One decision for every task specification: the decided ids are, up to their
order, the ids of the message. -/
def DecidesSpecs (submission : WorkloadSubmission) (plan : SchedulingPlan) : Prop :=
  plan.taskIds.Perm (submission.tasks.map TaskSpec.taskId)

theorem perm_topologicalOrder_iff {submission : WorkloadSubmission}
    (hacyclic : (buildSubmission .empty submission).Acyclic) (h : HashOrders) :
    ((buildSubmission .empty submission).topologicalOrder h).Perm
        (submission.tasks.map TaskSpec.taskId) ↔ WellFormed submission := by
  have hnodup := (buildSubmission .empty submission).topologicalOrder_nodup h
  have hlisted := mem_topologicalOrder_buildSubmission hacyclic h
  constructor
  · intro hperm
    refine ⟨hperm.nodup_iff.1 hnodup, ?_⟩
    intro spec hspec dep hdep
    have hid : spec.taskId ∈ (buildSubmission .empty submission).topologicalOrder h :=
      hperm.mem_iff.2 (List.mem_map.2 ⟨spec, hspec, rfl⟩)
    have hedge : (buildSubmission .empty submission).Edge dep spec.taskId :=
      (edge_buildSubmission submission _ _).2 ⟨spec, hspec, hdep, rfl⟩
    exact (mem_tasks_buildSubmission submission dep).1
      ((hlisted _).1 hid dep (Relation.ReflTransGen.single hedge))
  · intro hwell
    refine (List.perm_ext_iff_of_nodup hnodup hwell.1).2 ?_
    intro v
    have hends : (buildSubmission .empty submission).EndpointsAreTasks := by
      intro u w huw
      refine ⟨?_, target_mem_tasks huw⟩
      rcases (edge_buildSubmission submission u w).1 huw with ⟨spec, hspec, hdep, -⟩
      exact (mem_tasks_buildSubmission submission u).2 (hwell.2 spec hspec u hdep)
    rw [hends.mem_topologicalOrder_of_acyclic hacyclic h, mem_tasks_buildSubmission]

/-- For an accepted submission and every policy: one decision per task
specification exactly when the message is well formed. -/
theorem schedule_decides_specs_iff (parse : ParseFromArray) (env : SchedulerEnv)
    (data : List UInt8) (submission : WorkloadSubmission)
    (haccepts : Accepts parse env.hash data submission) (policy : Policy)
    (localNode : ResourceSnapshot) (cluster : ClusterView) :
    DecidesSpecs submission (policy.schedule env
        (decodeSubmission parse env.hash data [] .empty).2.2 localNode cluster) ↔
      WellFormed submission := by
  have hacyclic := acyclic_buildSubmission haccepts.hasCycle_eq_false
  have hdecoded : (decodeSubmission parse env.hash data [] .empty).2.2 =
      buildSubmission .empty submission := by
    rw [decodeSubmission_of_parse haccepts.1]
  have htasks : ∀ id ∈ (buildSubmission .empty submission).topologicalOrder env.hash,
      id ∈ (buildSubmission .empty submission).tasks := by
    intro id hid
    exact (mem_topologicalOrder_buildSubmission hacyclic env.hash id).1 hid id
      Relation.ReflTransGen.refl
  have hperm := (policy.schedule_shape env localNode cluster htasks).taskIds_perm
  rw [hdecoded, DecidesSpecs, ← perm_topologicalOrder_iff hacyclic env.hash]
  constructor
  · exact hperm.symm.trans
  · exact hperm.trans

/-- One task that depends on an id the message does not define, as bytes. -/
def danglingBytes : List UInt8 :=
  [0x22, 0x0C, 0x12, 0x0A, 0x0A, 0x01, 0x61, 0x22, 0x05, 0x67, 0x68, 0x6F, 0x73, 0x74]

/-- A dependency that is no task. -/
def danglingSubmission : WorkloadSubmission :=
  { tasks := [{ taskId := [0x61], dependencies := [[0x67, 0x68, 0x6F, 0x73, 0x74]] }] }

/-- Two specifications with the same id, as bytes. -/
def repeatedBytes : List UInt8 :=
  [0x22, 0x0A, 0x12, 0x03, 0x0A, 0x01, 0x61, 0x12, 0x03, 0x0A, 0x01, 0x61]

/-- One id twice. -/
def repeatedSubmission : WorkloadSubmission :=
  { tasks := [{ taskId := [0x61] }, { taskId := [0x61] }] }

/-- A task and a successor, as bytes. -/
def chainBytes : List UInt8 :=
  [0x22, 0x0D, 0x12, 0x03, 0x0A, 0x01, 0x61, 0x12, 0x06, 0x0A, 0x01, 0x62, 0x22, 0x01, 0x61]

/-- Two tasks, one after the other. -/
def chainSubmission : WorkloadSubmission :=
  { tasks := [{ taskId := [0x61] }, { taskId := [0x62], dependencies := [[0x61]] }] }

/-- The protobuf parser on the three messages above. -/
def sampleParse : ParseFromArray := fun data =>
  if data = danglingBytes then some (.workloadSubmission danglingSubmission)
  else if data = repeatedBytes then some (.workloadSubmission repeatedSubmission)
  else if data = chainBytes then some (.workloadSubmission chainSubmission)
  else none

/-- One policy of each kind. -/
def samplePolicies : List Policy :=
  [.greedy, .threshold ⟨oneHundred, oneHundred⟩, .optimizer ⟨100, oneHundred⟩]

/-- The dangling submission is accepted and no policy schedules its task; of
the two tasks with one id every policy schedules only one. -/
theorem accepted_submission_dropped :
    Accepts sampleParse .insertion danglingBytes danglingSubmission ∧
      (∀ policy ∈ samplePolicies,
        (policy.schedule Policy.hostEnv
          (decodeSubmission sampleParse .insertion danglingBytes [] .empty).2.2
          { nodeId := [115] } ⟨[]⟩).taskIds = []) ∧
      Accepts sampleParse .insertion repeatedBytes repeatedSubmission ∧
      ∀ policy ∈ samplePolicies,
        (policy.schedule Policy.hostEnv
          (decodeSubmission sampleParse .insertion repeatedBytes [] .empty).2.2
          { nodeId := [115] } ⟨[]⟩).taskIds = [[0x61]] := by
  refine ⟨⟨rfl, by decide⟩, ?_, ⟨rfl, by decide⟩, ?_⟩
  · decide
  · decide

theorem schedule_decides_chainSubmission :
    DecidesSpecs chainSubmission (Policy.schedule Policy.hostEnv .greedy
      (decodeSubmission sampleParse .insertion chainBytes [] .empty).2.2
      { nodeId := [115] } ⟨[]⟩) :=
  (schedule_decides_specs_iff sampleParse Policy.hostEnv chainBytes chainSubmission
    ⟨rfl, by decide⟩ .greedy _ _).2 ⟨by decide, by decide⟩

end OffloadCodec

end EdgeOrchestrator
