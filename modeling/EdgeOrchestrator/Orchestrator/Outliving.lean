import EdgeOrchestrator.Orchestrator.Accounting
import EdgeOrchestrator.Orchestrator.DependencyOrder

/-!
# Closures that outlive the call

The closures of a call refer to its counters, and nothing but the wait keeps the call
from returning before they are done.  The wait ends when every closure has been counted,
and at its deadline; and a counted closure is still on its worker until it has fulfilled
its promise.

Main results:

- `exists_outlived`: every plan with a closure has an interleaving in which a closure outlives
  the call.
- `WaitInv.step`: a call that does not leave the wait at its deadline returns after the last
  increment.
- `returned_idle_iff`: no interleaving has a closure that outlives the call exactly when the
  plan has no closure.
-/

namespace EdgeOrchestrator

open scoped StateMachine

namespace SubmitWorkload

/-! ## Returns before the deadline -/

/-- The step leaves the wait at its deadline. -/
def leavesAtDeadline {ω : Type*} (s : Submission ω) : Label ω → Bool
  | .caller =>
    match s.caller with
    | .checkDeadline deadline => deadline ≤ s.clock
    | _ => false
  | _ => false

/-- What runs keep that do not leave the wait at its deadline: after the wait every closure
has been counted. -/
structure WaitInv {ω : Type*} (cs : List Closure) (s : Submission ω) : Prop where
  inv : SubmissionInv cs s
  allCounted : afterWait s.caller = true → ∀ i, i < cs.length →
    (s.progress i).isCounted = true

section Wait

variable {ω : Type*} {planSize capacity : Nat} {cs : List Closure} {s : Submission ω}

/-- A closure that is left once all have been counted is on its way out of a worker. -/
theorem WaitInv.counted_of_holds (hinv : WaitInv cs s) (hafter : afterWait s.caller = true)
    {i : Nat} (hi : s.pool.Holds i) : ∃ ok, s.progress i = .counted ok := by
  have hbound := hinv.inv.bound
  rcases hi with hqueued | ⟨w, hheld⟩
  · rcases hinv.inv.queued i hqueued with ⟨hlt, hwaiting⟩
    have hcounted := hinv.allCounted hafter i (by omega)
    rw [hwaiting] at hcounted
    cases hcounted
  · rcases hinv.inv.held w i hheld with ⟨hlt, hrunning⟩
    have hcounted := hinv.allCounted hafter i (by omega)
    cases hprogress : s.progress i with
    | counted ok => exact ⟨ok, rfl⟩
    | ended ok =>
      rw [hprogress] at hrunning
      cases hrunning
    | _ =>
      rw [hprogress] at hcounted
      cases hcounted

/-- A caller's move of such a run. -/
theorem WaitInv.move (hinv : WaitInv cs s) (hsize : cs.length ≤ planSize)
    (hguard : leavesAtDeadline s .caller = false) {phase : CallerPhase}
    (hmove : CallerMove planSize cs s phase) : WaitInv cs { s with caller := phase } := by
  refine ⟨hinv.inv.move hmove, ?_⟩
  intro hafter
  cases hmove with
  | allCounted deadline completed h hsum => exact hinv.inv.allCounted hsize h hsum
  | timeout deadline h hclock =>
    simp only [leavesAtDeadline, h, decide_eq_false_iff_not] at hguard
    exact absurd hclock hguard
  | collectCompleted h => exact hinv.allCounted (by rw [h]; rfl)
  | collectFailed completed h => exact hinv.allCounted (by rw [h]; rfl)
  | collectFallbacks completed failed h => exact hinv.allCounted (by rw [h]; rfl)
  | returnResult result h => exact hinv.allCounted (by rw [h]; rfl)
  | _ => cases hafter

variable [DecidableEq ω]

/-- One step of such a run. -/
theorem WaitInv.step {t : Submission ω} {label : Label ω} (hinv : WaitInv cs s)
    (hsize : cs.length ≤ planSize) (hguard : leavesAtDeadline s label = false)
    (hstep : step planSize capacity cs s label = some t) : WaitInv cs t := by
  have hnext := hinv.inv.step hstep
  cases step_cases hstep with
  | tick elapsed | take w pool hpool => exact ⟨hnext, hinv.allCounted⟩
  | submit next pool h hnext' hpool =>
    refine ⟨hnext, ?_⟩
    intro hafter
    cases hafter
  | move phase h => exact hinv.move hsize hguard h
  | closure w i closure event progress hworker hclosure hprogress =>
    refine ⟨hnext, ?_⟩
    intro hafter j hj
    rw [advance_caller] at hafter
    exact isCounted_advance hprogress (hinv.allCounted hafter j hj)

end Wait

/-! ## Some run returns, and some run returns early -/

section Return

variable {ω : Type*} [DecidableEq ω] {nodeId : NodeId} {dag : WorkloadDAG} {plan : SchedulingPlan}
  {s : Submission ω}

/-- The caller's steps after the wait. -/
theorem exists_returned_of_collect (hreach : (machine nodeId dag plan ω).Reachable s)
    (hcaller : s.caller = .collectCompleted) :
    ∃ (t : Submission ω) (result : OrchestrationResult),
      (machine nodeId dag plan ω).Reachable t ∧ t.caller = .returned result ∧
        t.pool = s.pool := by
  have hsteps : (machine nodeId dag plan ω).run s [.caller, .caller, .caller, .caller] =
      some { s with caller := .returned (outcome (closures nodeId dag plan) s) } := by
    simp only [StateMachine.run, machine, step, callerStep, Call.next, hcaller, Option.bind_some]
    rfl
  exact ⟨_, _, hreach.run hsteps, rfl, rfl⟩

/-- A caller that waits for `deadline` leaves the wait then at the latest, whatever the pool
still holds. -/
theorem exists_returned_of_loadCompleted (hreach : (machine nodeId dag plan ω).Reachable s)
    {deadline : Nat} (hcaller : s.caller = .loadCompleted deadline) :
    ∃ (t : Submission ω) (result : OrchestrationResult),
      (machine nodeId dag plan ω).Reachable t ∧ t.caller = .returned result ∧
        t.pool = s.pool := by
  have hload : (machine nodeId dag plan ω).step s .caller =
      some { s with caller := .loadFailed deadline s.completed } := by
    simp only [machine, step, callerStep, Call.next, hcaller]
  have hloaded := hreach.step hload
  by_cases hshort : s.completed + s.failed < plan.decisions.length
  · have hwait : (machine nodeId dag plan ω).run
        { s with caller := .loadFailed deadline s.completed }
        [.caller, .tick deadline, .caller] =
        some { s with clock := s.clock + deadline, caller := .collectCompleted } := by
      have hlate : ¬ s.clock + deadline < deadline := by omega
      simp only [StateMachine.run, machine, step, callerStep, Call.next, hshort, if_true, hlate,
        if_false, Option.bind_some]
    have hreturn := exists_returned_of_collect (hloaded.run hwait) rfl
    exact hreturn
  · have hdone : (machine nodeId dag plan ω).step
        { s with caller := .loadFailed deadline s.completed } .caller =
        some { s with caller := .collectCompleted } := by
      simp only [machine, step, callerStep, Call.next, hshort, if_false]
    have hreturn := exists_returned_of_collect (hloaded.step hdone) rfl
    exact hreturn

/-- After the last closure the wait begins. -/
theorem step_endFanOut (hcaller : s.caller = .fanOut (closures nodeId dag plan).length) :
    (machine nodeId dag plan ω).step s .caller =
      some { s with caller := .loadCompleted (s.clock + waitLimit) } := by
  simp only [machine, step, callerStep, Call.next, hcaller, lt_irrefl, if_false]

/-- One worker can carry out the whole fan-out, so some run of the call returns. -/
theorem exists_returned (nodeId : NodeId) (dag : WorkloadDAG) (plan : SchedulingPlan) (w : ω) :
    ∃ (t : Submission ω) (result : OrchestrationResult),
      (machine nodeId dag plan ω).Reachable t ∧ t.caller = .returned result := by
  have hinit : (machine nodeId dag plan ω).Reachable (planned ω) :=
    StateMachine.Reachable.initial
  rcases (planned_atClosure w).processUpTo (Nat.zero_le _) (le_refl _) hinit with
    ⟨s, hs, hat, -, -⟩
  rcases exists_returned_of_loadCompleted (hs.step (step_endFanOut hat.caller)) rfl with
    ⟨t, result, ht, hreturned, -⟩
  exact ⟨t, result, ht, hreturned⟩

/-- When the last closure has been submitted and no worker takes it, the call returns all the
same. -/
theorem exists_outlived [Nonempty ω] (hne : closures nodeId dag plan ≠ []) :
    ∃ (t : Submission ω) (result : OrchestrationResult) (i : Nat),
      (machine nodeId dag plan ω).Reachable t ∧ t.caller = .returned result ∧
        t.pool.Holds i := by
  obtain ⟨w⟩ := ‹Nonempty ω›
  have hpos := List.length_pos_of_ne_nil hne
  obtain ⟨k, hk⟩ : ∃ k, (closures nodeId dag plan).length = k + 1 :=
    ⟨_, (Nat.sub_add_cancel hpos).symm⟩
  have hinit : (machine nodeId dag plan ω).Reachable (planned ω) :=
    StateMachine.Reachable.initial
  rcases (planned_atClosure w).processUpTo (Nat.zero_le k) (by omega) hinit with
    ⟨s, hs, hat, -, -⟩
  have hlast := hs.step (hat.step_submit (by omega))
  rw [← hk] at hlast
  rcases exists_returned_of_loadCompleted (hlast.step (step_endFanOut rfl)) rfl with
    ⟨t, result, ht, hreturned, hpool⟩
  refine ⟨t, result, k, ht, hreturned, Or.inl ?_⟩
  rw [hpool]
  exact List.mem_singleton_self k

end Return

/-! ## When no closure outlives the call -/

/-- For every workload, plan and non-empty set of workers, no closure of the call is queued
or running in any state after its return, along every interleaving, exactly when the plan has
no closure.  Along the interleavings that do not leave the wait at its deadline, what is left
of a closure after the return is its end behind the increment. -/
theorem returned_idle_iff {ω : Type*} [DecidableEq ω] [Nonempty ω] (nodeId : NodeId)
    (dag : WorkloadDAG) (plan : SchedulingPlan) :
    ((∀ s : Submission ω, (machine nodeId dag plan ω).Reachable s →
        ∀ result, s.caller = .returned result → ∀ i, ¬ s.pool.Holds i) ↔
      closures nodeId dag plan = []) ∧
    ∀ s : Submission ω,
      (machine nodeId dag plan ω).ReachableUnder
        (fun s label => leavesAtDeadline s label = false) s →
      ∀ result, s.caller = .returned result →
        ∀ i, s.pool.Holds i → ∃ ok, s.progress i = .counted ok := by
  refine ⟨⟨?_, ?_⟩, ?_⟩
  · intro hidle
    by_contra hne
    rcases exists_outlived (ω := ω) hne with ⟨s, result, i, hs, hresult, hi⟩
    exact hidle s hs result hresult i hi
  · intro hnil s hs result hresult i hi
    have hinv := reachable_submissionInv hs
    have hbound := hinv.bound
    rw [hnil, List.length_nil] at hbound
    exact hinv.not_holds (by rw [hnil]; omega) hi
  · intro s hs result hresult i hi
    have hinv : WaitInv (closures nodeId dag plan) s := by
      apply hs.invariant
      · refine ⟨planned_submissionInv ω _, ?_⟩
        intro hafter
        cases hafter
      · intro s label t hinv hguard hstep
        exact hinv.step (length_closures_le nodeId dag plan) hguard hstep
    exact hinv.counted_of_holds (by rw [hresult]; rfl) hi

/-! ## A task that takes longer than the wait -/

/-- A task of 31 seconds and a short one. -/
def slowDag : WorkloadDAG :=
  WorkloadDAG.build
    [.addTask { id := [97], profile := { computeCost := 31000000 } },
      .addTask { id := [98], profile := { computeCost := 10 } }]

/-- The plan of the greedy policy on a node without peers. -/
def slowPlan : SchedulingPlan :=
  Policy.schedule Policy.hostEnv .greedy slowDag { nodeId := [115] } ⟨[]⟩

/-- All interleavings of that call with one worker. -/
def slowMachine : StateMachine (Submission (Fin 1)) (Label (Fin 1)) :=
  machine [115] slowDag slowPlan (Fin 1)

/-- Both closures are submitted and the only worker starts the first one. -/
def slowStart : List (Label (Fin 1)) :=
  [.caller, .caller, .caller, .take 0, .closure 0 .start]

/-- The wait ends at its deadline, and the call returns. -/
def slowTimeout : List (Label (Fin 1)) :=
  slowStart ++
    [.caller, .caller, .tick 30000000000, .caller, .caller, .caller, .caller, .caller]

/-- A second later the first closure makes its increment. -/
def slowLate : List (Label (Fin 1)) :=
  slowTimeout ++
    [.tick 1000000000, .closure 0 (.finish .completed), .closure 0 .count]

/-- Both closures have made their increments before the caller looks at the
counters, but the worker has not left the second one when the call returns. -/
def slowCounted : List (Label (Fin 1)) :=
  slowStart ++
    [.closure 0 (.finish .completed), .closure 0 .count, .closure 0 .leave, .take 0,
      .closure 0 .start, .closure 0 (.finish .completed), .closure 0 .count,
      .caller, .caller, .caller, .caller, .caller, .caller]

def slowEnd (labels : List (Label (Fin 1))) : Submission (Fin 1) :=
  (slowMachine.run slowMachine.initial labels).getD slowMachine.initial

theorem run_slowEnd (labels : List (Label (Fin 1)))
    (h : (slowMachine.run slowMachine.initial labels).isSome = true) :
    slowMachine.run slowMachine.initial labels = some (slowEnd labels) := by
  rcases Option.isSome_iff_exists.1 h with ⟨t, ht⟩
  rw [slowEnd, ht]
  rfl

/-- After the timeout one closure is running and one is queued, and the running
one later increments a counter of the call that has returned.  Without a timeout
the last closure can still be on its worker when the call returns. -/
theorem closure_outlives_call :
    slowMachine.Reachable (slowEnd slowTimeout) ∧
      (slowEnd slowTimeout).caller = .returned ⟨2, 0, 0, 0, 0⟩ ∧
      (slowEnd slowTimeout).pool.worker 0 = some 0 ∧
      (slowEnd slowTimeout).progress 0 = .running ∧
      (slowEnd slowTimeout).pool.queue = [1] ∧
      slowMachine.Reachable (slowEnd slowLate) ∧
      (slowEnd slowLate).caller = .returned ⟨2, 0, 0, 0, 0⟩ ∧
      (slowEnd slowLate).completed = 1 ∧
      slowMachine.Reachable (slowEnd slowCounted) ∧
      (slowEnd slowCounted).caller = .returned ⟨2, 0, 2, 0, 0⟩ ∧
      (slowEnd slowCounted).pool.worker 0 = some 1 := by
  have hreach : ∀ labels, (slowMachine.run slowMachine.initial labels).isSome →
      slowMachine.Reachable (slowEnd labels) := by
    intro labels h
    exact StateMachine.reachable_iff_run.2 ⟨labels, run_slowEnd labels h⟩
  refine ⟨hreach _ (by decide), by decide, by decide, by decide, by decide,
    hreach _ (by decide), by decide, by decide, hreach _ (by decide), by decide, by decide⟩

/-- The slow workload has closures that can outlive the call, and on a plan without decisions
nothing does.  The closure that is left after a return in time has been counted. -/
theorem returned_idle_slowDag :
    (closures [115] slowDag slowPlan ≠ [] ∧
      ¬ ∀ s : Submission (Fin 1), slowMachine.Reachable s →
        ∀ result, s.caller = .returned result → ∀ i, ¬ s.pool.Holds i) ∧
    (∀ s : Submission (Fin 1), (machine [115] slowDag {} (Fin 1)).Reachable s →
      ∀ result, s.caller = .returned result → ∀ i, ¬ s.pool.Holds i) ∧
    (slowEnd slowCounted).caller = .returned ⟨2, 0, 2, 0, 0⟩ ∧
    (slowEnd slowCounted).pool.Holds 1 ∧
    ∃ ok, (slowEnd slowCounted).progress 1 = .counted ok := by
  have hclosures : closures [115] slowDag slowPlan ≠ [] := by decide
  have hreturned : (slowEnd slowCounted).caller = .returned ⟨2, 0, 2, 0, 0⟩ := by
    decide +kernel
  have hholds : (slowEnd slowCounted).pool.Holds 1 := Or.inr ⟨0, by decide +kernel⟩
  have hrun := run_slowEnd slowCounted (by decide +kernel)
  have hguard : slowMachine.Along (fun s label _ => leavesAtDeadline s label = false)
      slowMachine.initial slowCounted := by
    decide +kernel
  exact ⟨⟨hclosures, fun hidle =>
      hclosures ((returned_idle_iff (ω := Fin 1) [115] slowDag slowPlan).1.1 hidle)⟩,
    (returned_idle_iff (ω := Fin 1) [115] slowDag {}).1.2 rfl, hreturned, hholds,
    (returned_idle_iff [115] slowDag slowPlan).2 _
      (StateMachine.ReachableUnder.initial.run hguard hrun) _ hreturned 1 hholds⟩

end SubmitWorkload

end EdgeOrchestrator
