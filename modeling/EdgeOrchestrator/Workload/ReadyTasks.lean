import EdgeOrchestrator.Library.StateMachine
import EdgeOrchestrator.Workload.HasCycle

/-!
# Executing a workload by its ready tasks

`WorkloadDAG::ready_tasks` offers the pending tasks whose dependencies are all
completed; a dependency on an id that is no task does not count.  A driver takes
offered tasks, any number at a time, marks them as it goes along and finally
marks each one completed.

Validity is decided on the forward adjacency and readiness on the backward one.
The two mirror each other, so an unfinished task all of whose predecessors are
finished exists as long as no cycle does.

Main results:

- `WorkloadDAG.DriverInv.exists_ready`: in a valid graph a task is offered whenever nothing is
  in flight and not every task is completed.
- `WorkloadDAG.ready_driven_execution`: in every run of the driver tasks are offered after
  their dependencies and never again once marked, the run cannot get stuck before the end, and
  when it ends every task has been completed exactly once.
-/

namespace EdgeOrchestrator

open Function (update update_apply update_of_ne update_self)

namespace WorkloadDAG

open Relation

/-! ## Task states -/

/-- The state of a task; `none` for an id that is no task. -/
def stateOf (dag : WorkloadDAG) (id : TaskId) : Option TaskState :=
  (dag.getTask id).map Task.state

/-- The common body of the four `mark_*` functions. -/
def setState (dag : WorkloadDAG) (id : TaskId) (state : TaskState) : WorkloadDAG :=
  { dag with tasks := UnorderedMap.modify dag.tasks id fun task => { task with state := state } }

/-- `mark_completed`. -/
def markCompleted (dag : WorkloadDAG) (id : TaskId) : WorkloadDAG :=
  dag.setState id .completed

/-- `mark_running`. -/
def markRunning (dag : WorkloadDAG) (id : TaskId) : WorkloadDAG :=
  dag.setState id .running

/-- `mark_scheduled`. -/
def markScheduled (dag : WorkloadDAG) (id : TaskId) : WorkloadDAG :=
  dag.setState id .scheduled

/-- The inner loop of `ready_tasks`: a dependency that is a task holds its
dependent back until it is completed. -/
def allDepsMet (dag : WorkloadDAG) (id : TaskId) : Bool :=
  (dag.dependencies id).all fun dep =>
    match dag.getTask dep with
    | none => true
    | some task => task.state = .completed

/-- `ready_tasks`. -/
def readyTasks (h : HashOrders) (dag : WorkloadDAG) : List TaskId :=
  (h.tasks.order dag.tasks.keys).filter fun id =>
    decide (dag.stateOf id = some .pending) && dag.allDepsMet id

theorem stateOf_setState (dag : WorkloadDAG) (id other : TaskId) (state : TaskState) :
    (dag.setState id state).stateOf other =
      if other = id then (dag.stateOf other).map fun _ => state else dag.stateOf other := by
  unfold stateOf getTask setState
  rw [UnorderedMap.lookup_modify]
  split
  · simp [Option.map_map, Function.comp_def]
  · rfl

variable {dag : WorkloadDAG}

theorem stateOf_isSome {id : TaskId} :
    (dag.stateOf id).isSome ↔ id ∈ dag.tasks := by
  rw [stateOf, Option.isSome_map]
  exact getTask_isSome

theorem mem_tasks_of_stateOf {id : TaskId} {state : TaskState} (h : dag.stateOf id = some state)
    : id ∈ dag.tasks := by
  rw [← stateOf_isSome, h]
  rfl

theorem allDepsMet_iff {id : TaskId} :
    dag.allDepsMet id = true ↔
      ∀ dep ∈ dag.dependencies id, dep ∈ dag.tasks → dag.stateOf dep = some .completed := by
  rw [allDepsMet, List.all_eq_true]
  apply forall₂_congr
  intro dep _
  rw [← getTask_isSome, stateOf]
  cases dag.getTask dep with
  | none | some task => simp

/-- A task is offered when it is pending and its dependencies that are tasks are
completed; the traversal order does not matter. -/
theorem mem_readyTasks {h : HashOrders} {id : TaskId} :
    id ∈ dag.readyTasks h ↔ dag.stateOf id = some .pending ∧
      ∀ dep ∈ dag.dependencies id, dep ∈ dag.tasks → dag.stateOf dep = some .completed := by
  rw [readyTasks, List.mem_filter, IterationOrder.mem_order, Bool.and_eq_true, decide_eq_true_iff,
    allDepsMet_iff]
  constructor
  · exact And.right
  · intro hready
    exact ⟨AList.mem_keys.1 (mem_tasks_of_stateOf hready.1), hready⟩

/-! ## Some task is always ready -/

/-- In a finite set of tasks none of which reaches a cycle, some task has no
predecessor in the set. -/
theorem exists_minimal_task {h : HashOrders} (hvalid : dag.hasCycle h = false) {S : Set TaskId}
    (hS : ∀ id ∈ S, id ∈ dag.tasks) (hne : S.Nonempty)
    : ∃ id ∈ S, ∀ dep ∈ S, ¬ dag.Edge dep id := by
  by_contra hnone
  push Not at hnone
  rcases hne with ⟨v, hv⟩
  have hfin : S.Finite := by
    apply dag.tasks.keys.toFinset.finite_toSet.subset
    intro id hid
    simpa [← AList.mem_keys] using hS id hid
  -- Restricting the edges to the set makes every vertex of the cycle a task.
  rcases Digraph.downstreamOfCycle_of_preds (r := fun u w => u ∈ S ∧ dag.Edge u w) hfin
      (fun w hw => by
        rcases hnone w hw with ⟨u, hu, huw⟩
        exact ⟨u, hu, hu, huw⟩) hv with ⟨u, hcycle, -⟩
  have hu : u ∈ S := by
    rcases TransGen.head'_iff.1 hcycle with ⟨w, huw, -⟩
    exact huw.1
  have hfound : dag.hasCycle h = true :=
    (hasCycle_iff h dag).2 ⟨u, hS u hu, u, ReflTransGen.refl, 
      TransGen.mono (fun _ _ => And.right) _ _ hcycle⟩
  rw [hvalid] at hfound
  cases hfound

/-! ## The driver -/

/-- A graph under execution: the tasks taken and not yet completed. -/
structure Driver where
  dag : WorkloadDAG
  inFlight : List TaskId

/-- The calls of the driver. -/
inductive DriverLabel where
  | take (id : TaskId)
  | scheduled (id : TaskId)
  | running (id : TaskId)
  | completed (id : TaskId)
deriving DecidableEq, Repr

/-- The task a label is about. -/
def DriverLabel.id : DriverLabel → TaskId
  | .take id => id
  | .scheduled id => id
  | .running id => id
  | .completed id => id

/-- The label calls one of the `mark_*` functions. -/
def DriverLabel.marks : DriverLabel → Bool
  | .take _ => false
  | .scheduled _ => true
  | .running _ => true
  | .completed _ => true

/-- Take an offered task that is not already taken; mark a taken one scheduled,
running or both, in this order; mark a taken one completed. -/
def driverStep (h : HashOrders) (s : Driver) : DriverLabel → Option Driver
  | .take id =>
    if id ∈ s.dag.readyTasks h ∧ id ∉ s.inFlight then
      some { s with inFlight := id :: s.inFlight }
    else none
  | .scheduled id =>
    if id ∈ s.inFlight ∧ s.dag.stateOf id = some .pending then
      some { s with dag := s.dag.markScheduled id }
    else none
  | .running id =>
    if id ∈ s.inFlight ∧
        (s.dag.stateOf id = some .pending ∨ s.dag.stateOf id = some .scheduled) then
      some { s with dag := s.dag.markRunning id }
    else none
  | .completed id =>
    if id ∈ s.inFlight then
      some { dag := s.dag.markCompleted id, inFlight := s.inFlight.erase id }
    else none

/-- All runs of the driver. -/
def driver (h : HashOrders) (dag : WorkloadDAG) : StateMachine Driver DriverLabel where
  initial := { dag := dag, inFlight := [] }
  step := driverStep h

/-- What one step can do. -/
inductive DriverTransition (h : HashOrders) (s : Driver) : DriverLabel → Driver → Prop
  | take {id} (hready : id ∈ s.dag.readyTasks h) (hnew : id ∉ s.inFlight) :
      DriverTransition h s (.take id) { s with inFlight := id :: s.inFlight }
  | scheduled {id} (htaken : id ∈ s.inFlight) (hstate : s.dag.stateOf id = some .pending) :
      DriverTransition h s (.scheduled id) { s with dag := s.dag.setState id .scheduled }
  | running {id} (htaken : id ∈ s.inFlight)
      (hstate : s.dag.stateOf id = some .pending ∨ s.dag.stateOf id = some .scheduled) :
      DriverTransition h s (.running id) { s with dag := s.dag.setState id .running }
  | completed {id} (htaken : id ∈ s.inFlight) :
      DriverTransition h s (.completed id)
        { dag := s.dag.setState id .completed, inFlight := s.inFlight.erase id }

theorem driverStep_cases {h : HashOrders} {s t : Driver} {label : DriverLabel}
    (hstep : driverStep h s label = some t) : DriverTransition h s label t := by
  cases label with
  | take id =>
    simp only [driverStep, Option.ite_none_right_eq_some, Option.some.injEq] at hstep
    rcases hstep with ⟨⟨hready, hnew⟩, rfl⟩
    exact .take hready hnew
  | scheduled id =>
    simp only [driverStep, Option.ite_none_right_eq_some, Option.some.injEq] at hstep
    rcases hstep with ⟨⟨htaken, hstate⟩, rfl⟩
    exact .scheduled htaken hstate
  | running id =>
    simp only [driverStep, Option.ite_none_right_eq_some, Option.some.injEq] at hstep
    rcases hstep with ⟨⟨htaken, hstate⟩, rfl⟩
    exact .running htaken hstate
  | completed id =>
    simp only [driverStep, Option.ite_none_right_eq_some, Option.some.injEq] at hstep
    rcases hstep with ⟨htaken, rfl⟩
    exact .completed htaken

/-! ## What every run keeps -/

/-- A task that has been taken and not yet completed. -/
def Unfinished (state : TaskState) : Prop :=
  state = .pending ∨ state = .scheduled ∨ state = .running

/-- Only the states change: a task in flight is unfinished, one at rest has not
been started or is completed. -/
structure DriverInv (dag : WorkloadDAG) (s : Driver) : Prop where
  mem_tasks : ∀ id, id ∈ s.dag.tasks ↔ id ∈ dag.tasks
  dependencies : ∀ id, s.dag.dependencies id = dag.dependencies id
  nodup : s.inFlight.Nodup
  inFlight : ∀ id ∈ s.inFlight, ∃ state, s.dag.stateOf id = some state ∧ Unfinished state
  atRest : ∀ id state, s.dag.stateOf id = some state → id ∉ s.inFlight →
    state = .pending ∨ state = .completed

section Runs

variable {dag : WorkloadDAG} {h : HashOrders} {s t : Driver} {label : DriverLabel}

theorem mem_tasks_setState {dag : WorkloadDAG} {id other : TaskId} {state : TaskState} :
    other ∈ (dag.setState id state).tasks ↔ other ∈ dag.tasks :=
  UnorderedMap.mem_modify

/-- Marking a taken task with an unfinished state keeps it in flight. -/
theorem DriverInv.mark (hinv : DriverInv dag s) {id : TaskId} (htaken : id ∈ s.inFlight)
    {state : TaskState} (hunfinished : Unfinished state) :
    DriverInv dag { s with dag := s.dag.setState id state } where
  mem_tasks other := mem_tasks_setState.trans (hinv.mem_tasks other)
  dependencies := hinv.dependencies
  nodup := hinv.nodup
  inFlight := by
    intro other hother
    rcases hinv.inFlight other hother with ⟨old, hold, holdUnfinished⟩
    simp only [stateOf_setState, hold]
    split
    · exact ⟨state, rfl, hunfinished⟩
    · exact ⟨old, rfl, holdUnfinished⟩
  atRest := by
    intro other old hold hrest
    have hne : other ≠ id := fun heq => hrest (heq ▸ htaken)
    rw [stateOf_setState, if_neg hne] at hold
    exact hinv.atRest other old hold hrest

theorem DriverInv.complete (hinv : DriverInv dag s) (id : TaskId) :
    DriverInv dag { dag := s.dag.setState id .completed, inFlight := s.inFlight.erase id } where
  mem_tasks other := mem_tasks_setState.trans (hinv.mem_tasks other)
  dependencies := hinv.dependencies
  nodup := hinv.nodup.erase id
  inFlight := by
    intro other hother
    rcases hinv.nodup.mem_erase_iff.1 hother with ⟨hne, hflying⟩
    rcases hinv.inFlight other hflying with ⟨old, hold, holdUnfinished⟩
    refine ⟨old, ?_, holdUnfinished⟩
    rw [stateOf_setState, if_neg hne, hold]
  atRest := by
    intro other old hold hrest
    rw [stateOf_setState] at hold
    split at hold
    · rcases Option.map_eq_some_iff.1 hold with ⟨_, -, rfl⟩
      exact Or.inr rfl
    · rename_i hne
      apply hinv.atRest other old hold
      intro hflying
      exact hrest (hinv.nodup.mem_erase_iff.2 ⟨hne, hflying⟩)

theorem DriverInv.step (hinv : DriverInv dag s) (hstep : driverStep h s label = some t) :
    DriverInv dag t := by
  cases driverStep_cases hstep with
  | @take id hready hnew =>
    refine ⟨hinv.mem_tasks, hinv.dependencies, List.nodup_cons.2 ⟨hnew, hinv.nodup⟩, ?_, ?_⟩
    · intro other hother
      rcases List.mem_cons.1 hother with rfl | hother
      · exact ⟨.pending, (mem_readyTasks.1 hready).1, Or.inl rfl⟩
      · exact hinv.inFlight other hother
    · intro other state hstate hrest
      exact hinv.atRest other state hstate fun hmem => hrest (List.mem_cons_of_mem _ hmem)
  | scheduled htaken => exact hinv.mark htaken (Or.inr (Or.inl rfl))
  | running htaken => exact hinv.mark htaken (Or.inr (Or.inr rfl))
  | completed => exact hinv.complete _

/-- How far a task has come: not taken, taken, scheduled, running, completed. -/
def progress (s : Driver) (id : TaskId) : Nat :=
  match s.dag.stateOf id with
  | some .completed => 4
  | some .running => 3
  | some .scheduled => 2
  | _ => if id ∈ s.inFlight then 1 else 0

/-- How far a label brings its task. -/
def DriverLabel.level : DriverLabel → Nat
  | .take _ => 1
  | .scheduled _ => 2
  | .running _ => 3
  | .completed _ => 4

theorem DriverLabel.two_le_level_of_marks (label : DriverLabel) (h : label.marks = true) :
    2 ≤ label.level := by
  cases label with
  | take => cases h
  | scheduled => exact Nat.le_refl 2
  | running => exact Nat.le_succ 2
  | completed => exact Nat.le_add_right 2 2

theorem progress_completed {id : TaskId} :
    progress s id = 4 ↔ s.dag.stateOf id = some .completed := by
  unfold progress
  split
  · simp_all
  · simp_all
  · simp_all
  · split <;> simp_all

theorem progress_of_pending {id : TaskId} (hstate : s.dag.stateOf id = some .pending) :
    progress s id = if id ∈ s.inFlight then 1 else 0 := by
  rw [progress, hstate]

/-- What is known of the other tasks' states and of who is in flight determines
their progress. -/
theorem progress_congr {id : TaskId} (hstate : t.dag.stateOf id = s.dag.stateOf id)
    (hflying : id ∈ t.inFlight ↔ id ∈ s.inFlight) : progress t id = progress s id := by
  unfold progress
  rw [hstate]
  simp only [hflying]

/-- A task in flight has been taken and is not completed. -/
theorem DriverInv.progress_lt (hinv : DriverInv dag s) {id : TaskId}
    (htaken : id ∈ s.inFlight) : progress s id < 4 := by
  rcases hinv.inFlight id htaken with ⟨state, hstate, rfl | rfl | rfl⟩
  · rw [progress_of_pending hstate]
    split <;> omega
  · simp [progress, hstate]
  · simp [progress, hstate]

/-- Marking a task brings it to the mark and leaves the others where they are. -/
theorem progress_setState (hinv : DriverInv dag s) {id : TaskId} (htaken : id ∈ s.inFlight)
    {state : TaskState} {flying : List TaskId}
    (hflying : ∀ other ≠ id, other ∈ flying ↔ other ∈ s.inFlight) (other : TaskId) :
    progress ⟨s.dag.setState id state, flying⟩ other =
      if other = id then
        match state with
        | .completed => 4
        | .running => 3
        | .scheduled => 2
        | _ => if id ∈ flying then 1 else 0
      else progress s other := by
  by_cases hother : other = id
  · rcases hinv.inFlight id htaken with ⟨old, hold, -⟩
    rw [if_pos hother, hother, progress, stateOf_setState, if_pos rfl, hold, Option.map_some]
    cases state <;> rfl
  · rw [if_neg hother]
    apply progress_congr
    · simp only [stateOf_setState, if_neg hother]
    · exact hflying other hother

/-- A step brings the task of its label to the label's level, where it was not
before, and leaves the other tasks where they are. -/
theorem progress_step (hinv : DriverInv dag s) (hstep : driverStep h s label = some t) :
    label.id ∈ dag.tasks ∧ progress s label.id < label.level ∧
      progress t = update (progress s) label.id label.level := by
  cases driverStep_cases hstep with
  | @take id hready hnew =>
    have hstate := (mem_readyTasks.1 hready).1
    refine ⟨(hinv.mem_tasks id).1 (mem_tasks_of_stateOf hstate), ?_, ?_⟩
    · rw [DriverLabel.id, progress_of_pending hstate, if_neg hnew]
      exact Nat.one_pos
    · ext other
      by_cases hother : other = id
      · rw [DriverLabel.id, hother, update_self,
          progress_of_pending (s := { s with inFlight := id :: s.inFlight }) hstate,
          if_pos List.mem_cons_self]
        rfl
      · rw [DriverLabel.id, update_of_ne hother]
        apply progress_congr
        · rfl
        · simp [hother]
  | @scheduled id htaken hstate =>
    refine ⟨(hinv.mem_tasks id).1 (mem_tasks_of_stateOf hstate), ?_, ?_⟩
    · rw [DriverLabel.id, progress_of_pending hstate, if_pos htaken]
      exact Nat.lt_succ_self 1
    · ext other
      rw [progress_setState hinv htaken fun _ _ => Iff.rfl, update_apply]
      rfl
  | @running id htaken hstate =>
    refine ⟨?_, ?_, ?_⟩
    · rcases hstate with hstate | hstate
      · exact (hinv.mem_tasks id).1 (mem_tasks_of_stateOf hstate)
      · exact (hinv.mem_tasks id).1 (mem_tasks_of_stateOf hstate)
    · rcases hstate with hstate | hstate
      · rw [DriverLabel.id, progress_of_pending hstate, if_pos htaken]
        exact Nat.lt_of_sub_eq_succ rfl
      · simp [DriverLabel.id, DriverLabel.level, progress, hstate]
    · ext other
      rw [progress_setState hinv htaken fun _ _ => Iff.rfl, update_apply]
      rfl
  | @completed id htaken =>
    rcases hinv.inFlight id htaken with ⟨state, hstate, -⟩
    refine ⟨(hinv.mem_tasks id).1 (mem_tasks_of_stateOf hstate), hinv.progress_lt htaken, ?_⟩
    ext other
    rw [progress_setState hinv htaken, update_apply]
    · rfl
    · intro other hother
      rw [hinv.nodup.mem_erase_iff]
      exact and_iff_right hother

/-- What the labels executed so far say about the state they led to. -/
structure DriverHistory (dag : WorkloadDAG) (labels : List DriverLabel) (s : Driver) : Prop where
  inv : DriverInv dag s
  nodup : labels.Nodup
  executed : ∀ label ∈ labels, label.id ∈ dag.tasks ∧ label.level ≤ progress s label.id
  completed : ∀ id, progress s id = 4 → .completed id ∈ labels

theorem DriverHistory.step {labels : List DriverLabel} (hhist : DriverHistory dag labels s)
    (hstep : driverStep h s label = some t) : DriverHistory dag (labels ++ [label]) t := by
  rcases progress_step hhist.inv hstep with ⟨htask, hbelow, hprogress⟩
  have hnew : label ∉ labels := by
    intro hmem
    have hreached := (hhist.executed label hmem).2
    omega
  have hmono : ∀ id, progress s id ≤ progress t id := by
    intro id
    rw [hprogress, update_apply]
    split
    · rename_i hid
      rw [hid]
      exact hbelow.le
    · exact Nat.le_refl _
  refine ⟨hhist.inv.step hstep, ?_, ?_, ?_⟩
  · apply List.nodup_append.2
    refine ⟨hhist.nodup, List.nodup_singleton label, ?_⟩
    intro old hold last hlast heq
    rw [List.mem_singleton] at hlast
    exact hnew (hlast ▸ heq ▸ hold)
  · intro old hold
    rcases List.mem_append.1 hold with hold | hold
    · exact ⟨(hhist.executed old hold).1, (hhist.executed old hold).2.trans (hmono _)⟩
    · rw [List.mem_singleton] at hold
      rw [hold, hprogress, update_self]
      exact ⟨htask, Nat.le_refl _⟩
  · intro id hfour
    rw [hprogress, update_apply] at hfour
    split at hfour
    · rename_i hid
      rw [hid]
      cases label with
      | completed => exact List.mem_append_right _ (List.mem_singleton.2 rfl)
      | take | scheduled | running => cases hfour
    · exact List.mem_append_left _ (hhist.completed id hfour)

/-- The history invariant of every run from pending tasks. -/
theorem driver_history (hpending : ∀ id ∈ dag.tasks, dag.stateOf id = some .pending)
    {labels : List DriverLabel} (hrun : (driver h dag).run (driver h dag).initial labels = some s) :
    DriverHistory dag labels s := by
  refine StateMachine.run_induction (P := DriverHistory dag) ?_ ?_ hrun
  · have hzero : ∀ id, progress ⟨dag, []⟩ id = 0 := by
      intro id
      by_cases hid : id ∈ dag.tasks
      · rw [progress_of_pending (hpending id hid)]
        rfl
      · have hnone : dag.stateOf id = none := by
          rw [← Option.not_isSome_iff_eq_none, stateOf_isSome]
          exact hid
        simp [progress, hnone]
    refine ⟨⟨fun _ => Iff.rfl, fun _ => rfl, List.nodup_nil,
      fun id hid => absurd hid List.not_mem_nil, ?_⟩, List.nodup_nil,
      fun label hlabel => absurd hlabel List.not_mem_nil, ?_⟩
    · intro id state hstate _
      have := hpending id (mem_tasks_of_stateOf hstate)
      exact Or.inl (Option.some.inj (hstate.symm.trans this))
    · intro id hfour
      exact absurd ((hzero id).symm.trans hfour) (by decide)
  · intro labels s label t _ hhist hstep
    exact hhist.step hstep

/-- The labels a run can execute: four per task. -/
def possibleLabels (dag : WorkloadDAG) : List DriverLabel :=
  dag.tasks.keys.flatMap fun id => [.take id, .scheduled id, .running id, .completed id]

theorem length_possibleLabels (dag : WorkloadDAG) :
    (possibleLabels dag).length = 4 * dag.taskCount := by
  rw [possibleLabels, taskCount, List.length_flatMap]
  simp [Nat.mul_comm]

/-- Every run is finite: no label is executed twice. -/
theorem DriverHistory.length_le {labels : List DriverLabel} (hhist : DriverHistory dag labels s) :
    labels.length ≤ 4 * dag.taskCount := by
  rw [← length_possibleLabels]
  apply (List.subperm_of_subset hhist.nodup ?_).length_le
  intro label hlabel
  have hkey := AList.mem_keys.1 (hhist.executed label hlabel).1
  refine List.mem_flatMap.2 ⟨label.id, hkey, ?_⟩
  cases label <;> simp [DriverLabel.id]

/-- While nothing is in flight and some task is not completed, a task is offered. -/
theorem DriverInv.exists_ready (hinv : DriverInv dag s) {h₀ : HashOrders}
    (hmirror : dag.Mirrored) (hvalid : dag.hasCycle h₀ = false) (hidle : s.inFlight = [])
    (hopen : ∃ id ∈ dag.tasks, s.dag.stateOf id ≠ some .completed) :
    ∃ id, id ∈ s.dag.readyTasks h := by
  rcases exists_minimal_task hvalid
      (S := {id | id ∈ dag.tasks ∧ s.dag.stateOf id ≠ some .completed}) (fun id hid => hid.1) hopen
    with ⟨id, ⟨htask, hnot⟩, hfirst⟩
  rcases Option.isSome_iff_exists.1 (stateOf_isSome.2 ((hinv.mem_tasks id).2 htask))
    with ⟨state, hstate⟩
  refine ⟨id, mem_readyTasks.2 ⟨?_, ?_⟩⟩
  · rcases hinv.atRest id state hstate (by simp [hidle]) with rfl | rfl
    · exact hstate
    · exact absurd hstate hnot
  · intro dep hdep hdepTask
    by_contra hdepNot
    rw [hinv.dependencies] at hdep
    exact hfirst dep ⟨(hinv.mem_tasks dep).1 hdepTask, hdepNot⟩ (hmirror.mem_dependencies.1 hdep)

/-- A run that cannot be continued has completed every task. -/
theorem DriverInv.completed_of_stuck (hinv : DriverInv dag s) {h₀ : HashOrders}
    (hmirror : dag.Mirrored) (hvalid : dag.hasCycle h₀ = false)
    (hstuck : ∀ label, driverStep h s label = none) {id : TaskId} (htask : id ∈ dag.tasks) :
    s.dag.stateOf id = some .completed := by
  have hidle : s.inFlight = [] := by
    apply List.eq_nil_iff_forall_not_mem.2
    intro flying hflying
    have hnone := hstuck (.completed flying)
    rw [driverStep, if_pos hflying] at hnone
    cases hnone
  by_contra hnot
  rcases hinv.exists_ready (h := h) hmirror hvalid hidle ⟨id, htask, hnot⟩ with ⟨next, hnext⟩
  have hnone := hstuck (.take next)
  rw [driverStep, if_pos ⟨hnext, by simp [hidle]⟩] at hnone
  cases hnone

end Runs

/-- Every run of the driver on a valid graph whose tasks are pending. -/
theorem ready_driven_execution (ops : List BuildOp) (h h' : HashOrders)
    (hvalid : (build ops).isValid h = true)
    (hpending : ∀ id ∈ (build ops).tasks, (build ops).stateOf id = some .pending)
    (labels : List DriverLabel) (s : Driver)
    (hrun : (driver h' (build ops)).run (driver h' (build ops)).initial labels = some s) :
    (∀ id ∈ s.dag.readyTasks h',
      (∀ dep ∈ (build ops).dependencies id, dep ∈ (build ops).tasks →
        s.dag.stateOf dep = some .completed ∧ .completed dep ∈ labels) ∧
      ∀ label ∈ labels, label.marks = true → label.id ≠ id) ∧
    (s.inFlight = [] → (∃ id ∈ (build ops).tasks, s.dag.stateOf id ≠ some .completed) →
      s.dag.readyTasks h' ≠ []) ∧
    labels.length ≤ 4 * (build ops).taskCount ∧
    ((∀ label, (driver h' (build ops)).step s label = none) →
      ∀ id, labels.count (.completed id) = (if id ∈ (build ops).tasks then 1 else 0) ∧
        (id ∈ (build ops).tasks → s.dag.stateOf id = some .completed)) := by
  have hmirror := build_mirrored ops
  have hcycle : (build ops).hasCycle h = false := by
    simpa using (Bool.and_eq_true_iff.1 hvalid).2
  have hhist := driver_history hpending hrun
  refine ⟨?_, ?_, hhist.length_le, ?_⟩
  · intro id hready
    rcases mem_readyTasks.1 hready with ⟨hstate, hdeps⟩
    constructor
    · intro dep hdep htask
      rw [← hhist.inv.dependencies] at hdep
      have hdone := hdeps dep hdep ((hhist.inv.mem_tasks dep).2 htask)
      exact ⟨hdone, hhist.completed dep (progress_completed.2 hdone)⟩
    · intro label hlabel hmarks hid
      have hreached := (hhist.executed label hlabel).2
      have hmarked := label.two_le_level_of_marks hmarks
      rw [hid, progress_of_pending hstate] at hreached
      split at hreached <;> omega
  · intro hidle hopen hnil
    rcases hhist.inv.exists_ready (h := h') hmirror hcycle hidle hopen with ⟨id, hid⟩
    rw [hnil] at hid
    cases hid
  · intro hstuck id
    constructor
    · split
      · rename_i htask
        have hdone := hhist.inv.completed_of_stuck hmirror hcycle hstuck htask
        exact List.count_eq_one_of_mem hhist.nodup
          (hhist.completed id (progress_completed.2 hdone))
      · rename_i htask
        apply List.count_eq_zero.2
        intro hmem
        exact htask (hhist.executed _ hmem).1
    · intro htask
      exact hhist.inv.completed_of_stuck hmirror hcycle hstuck htask

/-- Two roots, one of which also waits for an id that is no task, and a task
that depends on both. -/
def readyExample : List BuildOp :=
  [.addTask { id := [97] }, .addTask { id := [98] }, .addTask { id := [99] },
    .addDependency [103] [97], .addDependency [97] [99], .addDependency [98] [99]]

/-- Both roots are in flight at the same time. -/
def readyExampleRun : List DriverLabel :=
  [.take [97], .take [98], .scheduled [98], .completed [97], .running [98], .completed [98]]

theorem ready_driven_execution_readyExample :
    ∃ s, (driver .insertion (build readyExample)).run
        (driver .insertion (build readyExample)).initial readyExampleRun = some s ∧
      s.dag.readyTasks .insertion = [[99]] ∧
      (∀ dep ∈ (build readyExample).dependencies [99], dep ∈ (build readyExample).tasks →
        s.dag.stateOf dep = some .completed ∧ .completed dep ∈ readyExampleRun) := by
  refine ⟨_, rfl, rfl, ?_⟩
  exact ((ready_driven_execution readyExample .insertion .insertion (by decide) (by decide)
    readyExampleRun _ rfl).1 [99] (by decide)).1

end WorkloadDAG

end EdgeOrchestrator
