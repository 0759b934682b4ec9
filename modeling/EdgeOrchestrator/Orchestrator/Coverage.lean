import EdgeOrchestrator.Orchestrator.Outliving

/-!
# What a submitted workload covers

`submit_workload` counts the decisions of its plan, not the tasks of the workload,
and the plan lists what Kahn's loop lists.  Nothing checks the graph on the way: a
task on a cycle, or downstream of one, gets no decision, no closure and no error.

Main results:

- `tallied_of_reachable`: the result counts the closures of the fan-out.
- `submitWorkload_covers_iff`: the counts of every result add up to the number of tasks exactly
  when the workload has no cycle.
-/

namespace EdgeOrchestrator

open scoped StateMachine

namespace SubmitWorkload

/-! ## The whole call -/

/-- The error without a snapshot. -/
def monitorNotReady : ByteString :=
  "Resource monitor not ready".toUTF8.toList

/-- The plan of the call; `reading` is what the resource monitor returns. -/
def planFor (env : SchedulerEnv) (policy : Policy) (dag : WorkloadDAG)
    (reading : Option ResourceSnapshot) (cluster : ClusterView) :
    Except ByteString SchedulingPlan :=
  match reading with
  | none => .error monitorNotReady
  | some snapshot => .ok (policy.schedule env dag snapshot cluster)

/-- What `submit_workload` can return to its caller: the error of the monitor, or the
result at the end of any interleaving of the caller with the workers `ω`. -/
inductive Returns (nodeId : NodeId) (dag : WorkloadDAG)
    (planned : Except ByteString SchedulingPlan) (ω : Type*) [DecidableEq ω] :
    Except ByteString OrchestrationResult → Prop
  | notReady (message : ByteString) (hplan : planned = .error message) :
      Returns nodeId dag planned ω (.error message)
  | finished (plan : SchedulingPlan) (s : Submission ω) (result : OrchestrationResult)
      (hplan : planned = .ok plan) (hreach : (machine nodeId dag plan ω).Reachable s)
      (hreturned : s.caller = .returned result) : Returns nodeId dag planned ω (.ok result)

/-- The call fails, or every task of the workload is counted. -/
def AllTasksCounted (dag : WorkloadDAG) : Except ByteString OrchestrationResult → Prop
  | .error _ => True
  | .ok result => result.localTasks + result.offloadedTasks = dag.taskCount

instance (dag : WorkloadDAG) : DecidablePred (AllTasksCounted dag)
  | .error _ => inferInstanceAs (Decidable True)
  | .ok result =>
    inferInstanceAs (Decidable (result.localTasks + result.offloadedTasks = dag.taskCount))

/-! ## What the result counts -/

section Tally

variable {ω : Type*} {planSize capacity : Nat} {cs : List Closure} {s t : Submission ω}

/-- A result that the caller holds counts the closures. -/
def Tallied (cs : List Closure) : CallerPhase → Prop
  | .returning result => result.localTasks + result.offloadedTasks = cs.length
  | .returned result => result.localTasks + result.offloadedTasks = cs.length
  | _ => True

theorem tallied_move {phase : CallerPhase} (h : Tallied cs s.caller)
    (hmove : CallerMove planSize cs s phase) : Tallied cs phase := by
  cases hmove with
  | collectFallbacks completed failed hcaller => exact countP_isLocal cs
  | returnResult result hcaller =>
    rw [hcaller] at h
    exact h
  | _ => trivial

variable [DecidableEq ω]

theorem tallied_step {label : Label ω} (h : Tallied cs s.caller)
    (hstep : step planSize capacity cs s label = some t) : Tallied cs t.caller := by
  cases step_cases hstep with
  | submit next pool hcaller hnext hpool => trivial
  | move phase hmove => exact tallied_move h hmove
  | tick elapsed | take w pool hpool => exact h
  | closure w i closure event progress hworker hclosure hprogress =>
    rw [advance_caller]
    exact h

variable {nodeId : NodeId} {dag : WorkloadDAG} {plan : SchedulingPlan}

theorem tallied_of_reachable (hreach : (machine nodeId dag plan ω).Reachable s) :
    Tallied (closures nodeId dag plan) s.caller := by
  have hinit : Tallied (closures nodeId dag plan) (planned ω).caller := trivial
  refine hreach.invariant (I := fun s => Tallied (closures nodeId dag plan) s.caller) hinit ?_
  intro s label t h hstep
  exact tallied_step h hstep

end Tally

/-! ## Coverage -/

/-- The plan for a graph on tasks has one closure for each id that Kahn's loop lists. -/
theorem length_closures_schedule (env : SchedulerEnv) (policy : Policy) {dag : WorkloadDAG}
    (hends : dag.EndpointsAreTasks) (nodeId : NodeId) (localNode : ResourceSnapshot)
    (cluster : ClusterView) :
    (closures nodeId dag (policy.schedule env dag localNode cluster)).length =
      (dag.topologicalOrder env.hash).length := by
  have htasks : ∀ id ∈ dag.topologicalOrder env.hash, id ∈ dag.tasks :=
    fun id hid => ((hends.mem_topologicalOrder_iff env.hash id).1 hid).1
  have hperm := (policy.schedule_shape env localNode cluster htasks).taskIds_perm
  have hids : (closures nodeId dag (policy.schedule env dag localNode cluster)).map
      Closure.taskId = (policy.schedule env dag localNode cluster).taskIds :=
    map_taskId_closures fun id hid => htasks id (hperm.mem_iff.1 hid)
  calc
    (closures nodeId dag (policy.schedule env dag localNode cluster)).length =
        ((closures nodeId dag (policy.schedule env dag localNode cluster)).map
          Closure.taskId).length := by rw [List.length_map]
    _ = (dag.topologicalOrder env.hash).length := by rw [hids, hperm.length_eq]

/-- For every graph on tasks, policy, cluster and number of worker threads: whatever
`submit_workload` returns is an error or accounts for every task, exactly when the
monitor is not ready or the graph has no cycle. -/
theorem submitWorkload_covers_iff (env : SchedulerEnv) (policy : Policy) (dag : WorkloadDAG)
    (hends : dag.EndpointsAreTasks) (nodeId : NodeId) (reading : Option ResourceSnapshot)
    (cluster : ClusterView) (numThreads hardwareConcurrency : Nat) :
    (∀ returned, Returns nodeId dag (planFor env policy dag reading cluster)
        (Fin (ThreadPool.workerCount numThreads hardwareConcurrency)) returned →
      AllTasksCounted dag returned) ↔
      reading = none ∨ dag.Acyclic := by
  have hpos := ThreadPool.workerCount_pos numThreads hardwareConcurrency
  generalize ThreadPool.workerCount numThreads hardwareConcurrency = workers at hpos ⊢
  rw [← hends.length_topologicalOrder_iff env.hash]
  constructor
  · intro hall
    cases reading with
    | none => exact Or.inl rfl
    | some snapshot =>
      right
      rcases exists_returned nodeId dag (policy.schedule env dag snapshot cluster)
        (⟨0, hpos⟩ : Fin workers) with ⟨t, result, ht, hreturned⟩
      have htally := tallied_of_reachable ht
      rw [hreturned] at htally
      rw [← length_closures_schedule env policy hends nodeId snapshot cluster, ← htally]
      exact hall (.ok result) (.finished _ t result rfl ht hreturned)
  · rintro hgood returned (⟨message, -⟩ | ⟨plan, s, result, hplan, hreach, hreturned⟩)
    · trivial
    · cases reading with
      | none => cases hplan
      | some snapshot =>
        cases hplan
        have htally := tallied_of_reachable hreach
        rw [hreturned] at htally
        rcases hgood with hnone | hlength
        · cases hnone
        · rw [← length_closures_schedule env policy hends nodeId snapshot cluster] at hlength
          exact Eq.trans htally hlength

/-- Two tasks that depend on each other. -/
def deadlockedDag : WorkloadDAG :=
  WorkloadDAG.build
    [.addTask { id := [97] }, .addTask { id := [98] }, .addDependency [97] [98],
      .addDependency [98] [97]]

/-- Both tasks are skipped and the call reports success. -/
theorem deadlockedDag_skipped :
    deadlockedDag.EndpointsAreTasks ∧
      Returns [115] deadlockedDag
        (planFor Policy.hostEnv .greedy deadlockedDag (some { nodeId := [115] }) ⟨[]⟩) (Fin 1)
        (.ok ⟨0, 0, 0, 0, 0⟩) ∧
      ¬ AllTasksCounted deadlockedDag (.ok ⟨0, 0, 0, 0, 0⟩) := by
  have hrun : ((machine [115] deadlockedDag {} (Fin 1)).run
      (machine [115] deadlockedDag {} (Fin 1)).initial
      [.caller, .caller, .caller, .caller, .caller, .caller, .caller]) =
      some { planned (Fin 1) with caller := .returned ⟨0, 0, 0, 0, 0⟩ } := by
    rfl
  refine ⟨by decide, ?_, by decide⟩
  refine .finished {} _ _ (by decide) (StateMachine.reachable_iff_run.2 ⟨_, hrun⟩) rfl

theorem submitWorkload_covers_chainDag :
    Policy.chainDag.EndpointsAreTasks ∧
      ∀ returned, Returns [115] Policy.chainDag
          (planFor Policy.hostEnv .greedy Policy.chainDag (some { nodeId := [115] }) ⟨[]⟩)
          (Fin (ThreadPool.workerCount 2 0)) returned →
        AllTasksCounted Policy.chainDag returned := by
  have hends : Policy.chainDag.EndpointsAreTasks := by decide
  have hacyclic : Policy.chainDag.Acyclic :=
    (hends.hasCycle_eq_false_iff HashOrders.insertion).1 (by decide)
  refine ⟨hends, ?_⟩
  exact (submitWorkload_covers_iff Policy.hostEnv .greedy Policy.chainDag hends [115] _ _ 2 0).2
    (Or.inr hacyclic)

end SubmitWorkload

end EdgeOrchestrator
