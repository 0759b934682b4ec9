import EdgeOrchestrator.Orchestrator.SubmitWorkload

/-!
# Dependencies and the order of execution

The fan-out of `submit_workload` hands all closures to the pool at once: nothing
holds back the closure of a task whose dependencies have not finished.  Whether
a dependency finishes first is left to the order of the plan and to the number
of workers.

Main results:

- `SerialInv.step`: a single worker executes the closures one after another, in the order of
  the plan.
- `exists_started_unfinished`: for any two closures, if there is a second worker or the first
  comes later in the plan, some interleaving starts the second before the first has finished.
- `dependencies_first_iff`: every interleaving respects the dependencies exactly when there are
  none, or a single worker meets a plan that lists every dependency before its dependents.
-/

namespace EdgeOrchestrator

open scoped StateMachine
open Function (update update_eq_self update_idem update_of_ne update_self)

namespace SubmitWorkload

/-! ## The property -/

/-- When a closure has started, the closure of every dependency of its task has
incremented `completed` or `failed`. -/
def DependenciesFirst {ω : Type*} (dag : WorkloadDAG) (cs : List Closure)
    (s : Submission ω) : Prop :=
  ∀ i closure, cs[i]? = some closure → s.progress i ≠ .waiting →
    ∀ dependency, dag.Edge dependency closure.taskId →
      ∃ j other, cs[j]? = some other ∧ other.taskId = dependency ∧
        (s.progress j).isCounted = true

/-! ## One worker -/

/-- With one worker the closures below `taken` have ended, except for the one the
worker holds, and the others wait in order. -/
structure SerialInv {ω : Type*} (cs : List Closure) (taken : Nat) (s : Submission ω) :
    Prop where
  le : taken ≤ submitted cs s
  queue : s.pool.queue = List.range' taken (submitted cs s - taken)
  held : ∀ w i, s.pool.worker w = some i → i + 1 = taken
  before : ∀ i, i < taken → (s.progress i).isEnded = true ∨ ∃ w, s.pool.worker w = some i
  after : ∀ i, taken ≤ i → s.progress i = .waiting

theorem planned_serialInv (ω : Type*) (cs : List Closure) : SerialInv cs 0 (planned ω) where
  le := Nat.zero_le _
  queue := rfl
  held := by
    intro w i h
    cases h
  before := by
    intro i h
    omega
  after := fun _ _ => rfl

section Serial

variable {ω : Type*} {planSize capacity taken : Nat} {cs : List Closure} {s : Submission ω}

theorem SerialInv.submit (hserial : SerialInv cs taken s) {next : Nat}
    {pool : FifoPool ω Nat} (hcaller : s.caller = .fanOut next)
    (hpool : s.pool.submit capacity next = some pool) :
    SerialInv cs taken { s with pool := pool, caller := .fanOut (next + 1) } := by
  have hsubmitted : submitted cs s = next := by
    simp only [submitted, hcaller]
  have hle := hserial.le
  have hqueue := hserial.queue
  rw [hsubmitted] at hle hqueue
  rcases FifoPool.submit_eq_some hpool with ⟨-, rfl⟩
  constructor
  · exact Nat.le_succ_of_le hle
  · have hcount : next + 1 - taken = (next - taken) + 1 := by
      omega
    have hlast : taken + (next - taken) = next := by
      omega
    change s.pool.queue ++ [next] = List.range' taken (next + 1 - taken)
    rw [hqueue, hcount, List.range'_concat, Nat.one_mul, hlast]
  · exact hserial.held
  · exact hserial.before
  · exact hserial.after

variable [DecidableEq ω] [Subsingleton ω]

/-- The worker was idle, so everything before the closure it takes has ended. -/
theorem SerialInv.take (hserial : SerialInv cs taken s) {w : ω} {pool : FifoPool ω Nat}
    (hpool : s.pool.take w = some pool) :
    SerialInv cs (taken + 1) { s with pool := pool } := by
  rcases FifoPool.take_eq_some hpool with ⟨i, rest, hidle, hqueue, hrest, hworker⟩
  rw [hserial.queue] at hqueue
  have hpos : submitted cs s - taken ≠ 0 := by
    intro h
    rw [h] at hqueue
    cases hqueue
  obtain ⟨count, hcount⟩ := Nat.exists_eq_succ_of_ne_zero hpos
  rw [hcount, List.range'_succ] at hqueue
  injection hqueue with hi htail
  subst hi
  constructor
  · change taken + 1 ≤ submitted cs s
    omega
  · change pool.queue = List.range' (taken + 1) (submitted cs s - (taken + 1))
    rw [hrest, ← htail]
    congr 1
    omega
  · intro v j hj
    simp only [hworker] at hj
    rcases FifoPool.update_worker_cases hj with ⟨-, hsame⟩ | ⟨hne, -⟩
    · cases hsame
      rfl
    · exact absurd (Subsingleton.elim v w) hne
  · intro j hj
    by_cases heq : j = taken
    · right
      refine ⟨w, ?_⟩
      simp only [hworker, update_self, heq]
    · left
      rcases hserial.before j (by omega) with hended | ⟨v, hv⟩
      · exact hended
      · rw [Subsingleton.elim v w, hidle] at hv
        cases hv
  · intro j hj
    exact hserial.after j (by omega)

theorem SerialInv.closure (hserial : SerialInv cs taken s) {w : ω} {i : Nat}
    {closure : Closure} {event : ClosureEvent} {progress : Progress}
    (hworker : s.pool.worker w = some i)
    (hprogress : closureStep closure (s.progress i) event = some progress) :
    SerialInv cs taken (s.advance w i progress event) := by
  rcases closureStep_spec hprogress with ⟨-, -, hleave, -⟩
  have hi := hserial.held w i hworker
  constructor
  · rw [submitted_advance]
    exact hserial.le
  · rw [submitted_advance, advance_queue]
    exact hserial.queue
  · intro v j hj
    apply hserial.held v j
    rw [advance_pool] at hj
    split at hj
    · exact (FifoPool.release_worker hj).2
    · exact hj
  · intro j hj
    by_cases hji : j = i
    · rw [hji, advance_progress_self, hleave, advance_pool]
      cases hevent : event.isLeave with
      | true => exact Or.inl rfl
      | false => exact Or.inr ⟨w, hworker⟩
    · left
      rw [advance_progress_of_ne s w i progress event hji]
      rcases hserial.before j hj with hended | ⟨v, hv⟩
      · exact hended
      · rw [Subsingleton.elim v w, hworker] at hv
        exact absurd (Option.some.inj hv).symm hji
  · intro j hj
    rw [advance_progress_of_ne s w i progress event (by omega)]
    exact hserial.after j hj

/-- One step with a single worker. -/
theorem SerialInv.step {t : Submission ω} {label : Label ω} (hinv : SubmissionInv cs s)
    (hserial : SerialInv cs taken s)
    (hstep : step planSize capacity cs s label = some t) : ∃ taken', SerialInv cs taken' t := by
  cases step_cases hstep with
  | tick elapsed =>
    exact ⟨taken, hserial.le, hserial.queue, hserial.held, hserial.before, hserial.after⟩
  | submit next pool h hnext hpool => exact ⟨taken, hserial.submit h hpool⟩
  | move phase h =>
    have hsame := h.submitted_eq hinv
    refine ⟨taken, ?_, ?_, hserial.held, hserial.before, hserial.after⟩
    · rw [hsame]
      exact hserial.le
    · rw [hsame]
      exact hserial.queue
  | take w pool hpool => exact ⟨taken + 1, hserial.take hpool⟩
  | closure w i closure event progress hworker hclosure hprogress =>
    exact ⟨taken, hserial.closure hworker hprogress⟩

omit [DecidableEq ω] [Subsingleton ω] in
/-- What comes before a started closure has been counted. -/
theorem SerialInv.isCounted_of_lt (hserial : SerialInv cs taken s) {i j : Nat}
    (hstarted : s.progress i ≠ .waiting) (hlt : j < i) :
    (s.progress j).isCounted = true := by
  have hi : i < taken := by
    by_contra hge
    exact hstarted (hserial.after i (by omega))
  rcases hserial.before j (by omega) with hended | ⟨w, hw⟩
  · cases hphase : s.progress j <;> rw [hphase] at hended
    case ended ok => rfl
    all_goals cases hended
  · have := hserial.held w j hw
    omega

end Serial

/-- A single worker executes the closures in the order of the plan. -/
theorem reachable_serialInv {ω : Type*} [DecidableEq ω] [Subsingleton ω] {nodeId : NodeId}
    {dag : WorkloadDAG} {plan : SchedulingPlan} {s : Submission ω}
    (hreach : (machine nodeId dag plan ω).Reachable s) :
    ∃ taken, SerialInv (closures nodeId dag plan) taken s := by
  have hboth : SubmissionInv (closures nodeId dag plan) s ∧
      ∃ taken, SerialInv (closures nodeId dag plan) taken s := by
    apply hreach.invariant (I := fun s => SubmissionInv (closures nodeId dag plan) s ∧
      ∃ taken, SerialInv (closures nodeId dag plan) taken s)
    · exact ⟨planned_submissionInv ω _, 0, planned_serialInv ω _⟩
    · rintro s label t ⟨hinv, taken, hserial⟩ hstep
      exact ⟨hinv.step hstep, hserial.step hinv hstep⟩
  exact hboth.2

/-! ## Interleavings that start a closure early -/

/-- Several events of one closure. -/
def closureRun (closure : Closure) : Progress → List ClosureEvent → Option Progress
  | progress, [] => some progress
  | progress, event :: rest =>
    (closureStep closure progress event).bind fun next => closureRun closure next rest

/-- One way through the body of a closure: an offload falls back. -/
def bodyEvents : Closure → List ClosureEvent
  | .runLocal _ _ => [.start, .finish .completed, .count]
  | .offload _ _ _ => [.start, .reply lostPeer, .fallback, .start, .finish .completed, .count]

theorem closureRun_bodyEvents (closure : Closure) :
    closureRun closure .waiting (bodyEvents closure) = some (.counted true) := by
  cases closure with
  | runLocal taskId profile | offload taskId profile target => rfl

section Runs

variable {ω : Type*} [DecidableEq ω] {nodeId : NodeId} {dag : WorkloadDAG}
  {plan : SchedulingPlan} {s : Submission ω}

theorem step_closure {w : ω} {i : Nat} {closure : Closure} {event : ClosureEvent}
    {progress : Progress} (hworker : s.pool.worker w = some i)
    (hclosure : (closures nodeId dag plan)[i]? = some closure)
    (hprogress : closureStep closure (s.progress i) event = some progress) :
    (machine nodeId dag plan ω).step s (.closure w event) =
      some (s.advance w i progress event) := by
  simp only [machine, step, workerStep, hworker, hclosure, hprogress, Option.map_some]

/-- A worker runs through a part of its closure. -/
theorem reachable_closureRun {w : ω} {i : Nat} {closure : Closure}
    {events : List ClosureEvent} {progress : Progress}
    (hreach : (machine nodeId dag plan ω).Reachable s)
    (hworker : s.pool.worker w = some i)
    (hclosure : (closures nodeId dag plan)[i]? = some closure)
    (hstay : ∀ event ∈ events, event.isLeave = false)
    (hrun : closureRun closure (s.progress i) events = some progress) :
    ∃ t, (machine nodeId dag plan ω).Reachable t ∧ t.pool = s.pool ∧ t.caller = s.caller ∧
      t.progress = update s.progress i progress := by
  induction events generalizing s with
  | nil =>
    cases hrun
    exact ⟨s, hreach, rfl, rfl, (update_eq_self i s.progress).symm⟩
  | cons event rest ih =>
    rcases Option.bind_eq_some_iff.1 hrun with ⟨next, hnext, hrest⟩
    have hfirst := hreach.step (step_closure hworker hclosure hnext)
    have hpool : (s.advance w i next event).pool = s.pool := by
      rw [advance_pool, hstay event List.mem_cons_self]
      rfl
    have hself : (s.advance w i next event).progress i = next := by
      rw [advance_progress, update_self]
    rcases ih hfirst (by rw [hpool]; exact hworker)
      (fun e he => hstay e (List.mem_cons_of_mem _ he)) (by rw [hself]; exact hrest) with
      ⟨t, ht, htpool, htcaller, htprogress⟩
    refine ⟨t, ht, htpool.trans hpool, ?_, ?_⟩
    · rw [htcaller, advance_caller]
    · rw [htprogress, advance_progress, update_idem]

/-- The fan-out is at closure `k`, the queue is empty and worker `w` is idle. -/
structure AtClosure (k : Nat) (w : ω) (s : Submission ω) : Prop where
  caller : s.caller = .fanOut k
  queue : s.pool.queue = []
  idle : s.pool.worker w = none
  rest : ∀ j, k ≤ j → s.progress j = .waiting

/-- The next closure is submitted. -/
theorem AtClosure.step_submit {k : Nat} {w : ω} (hat : AtClosure k w s)
    (hk : k < (closures nodeId dag plan).length) :
    (machine nodeId dag plan ω).step s .caller =
      some { s with
        pool := { s.pool with queue := [k] }
        caller := .fanOut (k + 1) } := by
  have hroom : s.pool.submit ThreadPool.queueSize.capacity k =
      some { s.pool with queue := [k] } := by
    rw [FifoPool.submit, hat.queue]
    rfl
  simp only [machine, step, callerStep, Call.next, hat.caller, if_pos hk, hroom, Option.map_some]

/-- The next closure is submitted and taken by the idle worker. -/
theorem AtClosure.handOff {k : Nat} {w : ω} (hat : AtClosure k w s)
    (hk : k < (closures nodeId dag plan).length)
    (hreach : (machine nodeId dag plan ω).Reachable s) :
    ∃ t, (machine nodeId dag plan ω).Reachable t ∧ t.caller = .fanOut (k + 1) ∧
      t.pool.queue = [] ∧ t.pool.worker = update s.pool.worker w (some k) ∧
      t.progress = s.progress := by
  have htake : (machine nodeId dag plan ω).step
      { s with pool := { s.pool with queue := [k] }, caller := .fanOut (k + 1) } (.take w) =
      some { s with
        pool := { queue := [], worker := update s.pool.worker w (some k) }
        caller := .fanOut (k + 1) } := by
    simp only [machine, step, FifoPool.take, hat.idle, Option.map_some]
  exact ⟨_, (hreach.step (hat.step_submit hk)).step htake, rfl, rfl, rfl, rfl⟩

/-- An idle worker carries out the next closure from beginning to end. -/
theorem AtClosure.process {k : Nat} {w : ω} (hat : AtClosure k w s)
    (hk : k < (closures nodeId dag plan).length)
    (hreach : (machine nodeId dag plan ω).Reachable s) :
    ∃ t, (machine nodeId dag plan ω).Reachable t ∧ AtClosure (k + 1) w t ∧
      t.pool.worker = s.pool.worker ∧ ∀ j, j ≠ k → t.progress j = s.progress j := by
  rcases hat.handOff hk hreach with ⟨u, hu, hucaller, huqueue, huworker, huprogress⟩
  have hclosure : (closures nodeId dag plan)[k]? = some (closures nodeId dag plan)[k] :=
    List.getElem?_eq_getElem hk
  have hholds : u.pool.worker w = some k := by
    rw [huworker, update_self]
  have hwaiting : u.progress k = .waiting := by
    rw [huprogress]
    exact hat.rest k (le_refl k)
  have hbody := closureRun_bodyEvents (closures nodeId dag plan)[k]
  rw [← hwaiting] at hbody
  have hstay : ∀ event ∈ bodyEvents (closures nodeId dag plan)[k], event.isLeave = false := by
    cases (closures nodeId dag plan)[k] with
    | runLocal taskId profile | offload taskId profile target => simp [bodyEvents]
  rcases reachable_closureRun hu hholds hclosure hstay hbody with
    ⟨v, hv, hvpool, hvcaller, hvprogress⟩
  have hcounted : v.progress k = .counted true := by
    rw [hvprogress, update_self]
  have hleave : closureStep (closures nodeId dag plan)[k] (v.progress k) .leave =
      some (.ended true) := by
    rw [hcounted]
    rfl
  have hvholds : v.pool.worker w = some k := by
    rw [hvpool]
    exact hholds
  have hother : ∀ j, j ≠ k →
      (v.advance w k (.ended true) .leave).progress j = s.progress j := by
    intro j hj
    rw [advance_progress, update_of_ne hj, hvprogress, update_of_ne hj,
      huprogress]
  have hworker : (v.advance w k (.ended true) .leave).pool.worker = s.pool.worker := by
    change update v.pool.worker w none = s.pool.worker
    rw [hvpool, huworker, update_idem, ← hat.idle, update_eq_self]
  refine ⟨_, hv.step (step_closure hvholds hclosure hleave), ?_, hworker, hother⟩
  constructor
  · rw [advance_caller, hvcaller, hucaller]
  · change v.pool.queue = []
    rw [hvpool, huqueue]
  · rw [hworker]
    exact hat.idle
  · intro j hj
    rw [hother j (by omega)]
    exact hat.rest j (by omega)

/-- An idle worker carries out all closures up to `b`. -/
theorem AtClosure.processUpTo {a b : Nat} {w : ω} (hat : AtClosure a w s) (hab : a ≤ b)
    (hb : b ≤ (closures nodeId dag plan).length)
    (hreach : (machine nodeId dag plan ω).Reachable s) :
    ∃ t, (machine nodeId dag plan ω).Reachable t ∧ AtClosure b w t ∧
      t.pool.worker = s.pool.worker ∧ ∀ j, j < a → t.progress j = s.progress j := by
  induction b, hab using Nat.le_induction with
  | base => exact ⟨s, hreach, hat, rfl, fun _ _ => rfl⟩
  | succ b hab ih =>
    rcases ih (by omega) with ⟨u, hu, huat, huworker, huprogress⟩
    rcases huat.process (by omega) hu with ⟨t, ht, htat, htworker, htprogress⟩
    refine ⟨t, ht, htat, htworker.trans huworker, ?_⟩
    intro j hj
    rw [htprogress j (by omega), huprogress j hj]

/-- The idle worker starts the next closure. -/
theorem AtClosure.start {k : Nat} {w : ω} (hat : AtClosure k w s)
    (hk : k < (closures nodeId dag plan).length)
    (hreach : (machine nodeId dag plan ω).Reachable s) :
    ∃ t, (machine nodeId dag plan ω).Reachable t ∧ t.progress k ≠ .waiting ∧
      ∀ j, j ≠ k → t.progress j = s.progress j := by
  rcases hat.handOff hk hreach with ⟨u, hu, -, -, huworker, huprogress⟩
  have hclosure : (closures nodeId dag plan)[k]? = some (closures nodeId dag plan)[k] :=
    List.getElem?_eq_getElem hk
  have hholds : u.pool.worker w = some k := by
    rw [huworker, update_self]
  have hwaiting : u.progress k = .waiting := by
    rw [huprogress]
    exact hat.rest k (le_refl k)
  obtain ⟨started, hstarted⟩ : ∃ started,
      closureStep (closures nodeId dag plan)[k] (u.progress k) .start = some started := by
    rw [hwaiting]
    cases (closures nodeId dag plan)[k] with
    | runLocal taskId profile | offload taskId profile target => exact ⟨_, rfl⟩
  refine ⟨_, hu.step (step_closure hholds hclosure hstarted), ?_, ?_⟩
  · rw [advance_progress, update_self]
    exact (closureStep_spec hstarted).1
  · intro j hj
    rw [advance_progress, update_of_ne hj, huprogress]

omit [DecidableEq ω] in
theorem planned_atClosure (w : ω) : AtClosure 0 w (planned ω) where
  caller := rfl
  queue := rfl
  idle := rfl
  rest := fun _ _ => rfl

/-- If `j` comes after `i` in the plan, or a second worker can hold on to `j`,
then closure `i` can start before closure `j` has been counted. -/
theorem exists_started_unfinished (v w : ω) {i j : Nat}
    (hi : i < (closures nodeId dag plan).length)
    (hj : j < (closures nodeId dag plan).length) (hij : i < j ∨ (j < i ∧ v ≠ w)) :
    ∃ s : Submission ω, (machine nodeId dag plan ω).Reachable s ∧ s.progress i ≠ .waiting ∧
      (s.progress j).isCounted = false := by
  have hinit : (machine nodeId dag plan ω).Reachable (planned ω) :=
    StateMachine.Reachable.initial
  rcases hij with hlt | ⟨hlt, hne⟩
  · -- The dependency is not even submitted when `i` starts.
    rcases (planned_atClosure w).processUpTo (Nat.zero_le i) hi.le hinit with ⟨s, hs, hat, -⟩
    rcases hat.start hi hs with ⟨t, ht, hstarted, hother⟩
    refine ⟨t, ht, hstarted, ?_⟩
    rw [hother j (by omega), hat.rest j hlt.le]
    rfl
  · -- Worker `v` has taken `j` and stalls; worker `w` does the rest.
    rcases (planned_atClosure v).processUpTo (Nat.zero_le j) hj.le hinit with
      ⟨s, hs, hat, hworker, -⟩
    rcases hat.handOff hj hs with ⟨u, hu, hucaller, huqueue, huworker, huprogress⟩
    have huat : AtClosure (j + 1) w u := by
      constructor
      · exact hucaller
      · exact huqueue
      · rw [huworker, update_of_ne hne.symm, hworker]
        rfl
      · intro k hk
        rw [huprogress]
        exact hat.rest k (by omega)
    rcases huat.processUpTo hlt hi.le hu with ⟨x, hx, hxat, -, hxprogress⟩
    rcases hxat.start hi hx with ⟨t, ht, hstarted, hother⟩
    refine ⟨t, ht, hstarted, ?_⟩
    rw [hother j (by omega), hxprogress j (Nat.lt_succ_self j), huprogress,
      hat.rest j (le_refl j)]
    rfl

end Runs

/-! ## The order of the plan -/

/-- A plan about tasks of the workload gets one closure per decision, in order. -/
theorem map_taskId_closures {nodeId : NodeId} {dag : WorkloadDAG} {plan : SchedulingPlan}
    (htasks : ∀ id ∈ plan.taskIds, id ∈ dag.tasks) :
    (closures nodeId dag plan).map Closure.taskId = plan.taskIds := by
  rw [map_taskId_closures_eq_filter, List.filter_eq_self]
  intro id hid
  exact decide_eq_true (htasks id hid)

section Order

variable {cs : List Closure} {ids : List TaskId}

/-- The closure of a listed task. -/
theorem exists_closure (hids : cs.map Closure.taskId = ids) {id : TaskId} (hid : id ∈ ids) :
    ∃ closure, cs[ids.idxOf id]? = some closure ∧ closure.taskId = id := by
  have hget : (cs.map Closure.taskId)[ids.idxOf id]? = some id := by
    rw [hids]
    exact List.getElem?_idxOf hid
  rw [List.getElem?_map] at hget
  exact Option.map_eq_some_iff.1 hget

/-- A task has no second closure. -/
theorem idxOf_taskId (hids : cs.map Closure.taskId = ids) (hnodup : ids.Nodup) {i : Nat}
    {closure : Closure} (h : cs[i]? = some closure) : ids.idxOf closure.taskId = i := by
  have hget : ids[i]? = some closure.taskId := by
    rw [← hids, List.getElem?_map, h]
    rfl
  rcases List.getElem?_eq_some_iff.1 hget with ⟨hi, heq⟩
  rw [← heq]
  exact hnodup.idxOf_getElem i hi

end Order

/-- Every dependency comes before its dependents in the plan. -/
def ListsDependenciesFirst (dag : WorkloadDAG) (plan : SchedulingPlan) : Prop :=
  ∀ source target, dag.Edge source target →
    plan.taskIds.idxOf source < plan.taskIds.idxOf target

section Plan

variable {ω : Type*} [DecidableEq ω] {nodeId : NodeId} {dag : WorkloadDAG}
  {plan : SchedulingPlan}

/-- One worker and a plan in the right order. -/
theorem dependenciesFirst_of_subsingleton [Subsingleton ω]
    (hids : (closures nodeId dag plan).map Closure.taskId = plan.taskIds)
    (hnodup : plan.taskIds.Nodup)
    (hlisted : ∀ source target, dag.Edge source target → source ∈ plan.taskIds)
    (horder : ListsDependenciesFirst dag plan) {s : Submission ω}
    (hreach : (machine nodeId dag plan ω).Reachable s) :
    DependenciesFirst dag (closures nodeId dag plan) s := by
  rcases reachable_serialInv hreach with ⟨taken, hserial⟩
  intro i closure hclosure hstarted dependency hedge
  rcases exists_closure hids (hlisted _ _ hedge) with ⟨other, hother, hid⟩
  have hlt := horder _ _ hedge
  rw [idxOf_taskId hids hnodup hclosure] at hlt
  exact ⟨_, other, hother, hid, hserial.isCounted_of_lt hstarted hlt⟩

omit [DecidableEq ω] in
/-- A target that has started before its source has been counted. -/
theorem not_dependenciesFirst_of_progress {s : Submission ω}
    (hids : (closures nodeId dag plan).map Closure.taskId = plan.taskIds)
    (hnodup : plan.taskIds.Nodup) {source target : TaskId} (hedge : dag.Edge source target)
    (htarget : target ∈ plan.taskIds)
    (hstarted : s.progress (plan.taskIds.idxOf target) ≠ .waiting)
    (hunfinished : (s.progress (plan.taskIds.idxOf source)).isCounted = false) :
    ¬ DependenciesFirst dag (closures nodeId dag plan) s := by
  intro hfirst
  rcases exists_closure hids htarget with ⟨closure, hclosure, hid⟩
  rw [← hid] at hedge
  rcases hfirst _ closure hclosure hstarted source hedge with ⟨j, other, hother, hsame, hcounted⟩
  have hj := idxOf_taskId hids hnodup hother
  rw [hsame] at hj
  rw [← hj, hunfinished] at hcounted
  cases hcounted

/-- An edge whose target can start first. -/
theorem not_dependenciesFirst_of_edge
    (hids : (closures nodeId dag plan).map Closure.taskId = plan.taskIds)
    (hnodup : plan.taskIds.Nodup) {source target : TaskId} (hedge : dag.Edge source target)
    (hsource : source ∈ plan.taskIds) (htarget : target ∈ plan.taskIds) (v w : ω)
    (hearly : plan.taskIds.idxOf target < plan.taskIds.idxOf source ∨
      (plan.taskIds.idxOf source < plan.taskIds.idxOf target ∧ v ≠ w)) :
    ∃ s : Submission ω, (machine nodeId dag plan ω).Reachable s ∧
      ¬ DependenciesFirst dag (closures nodeId dag plan) s := by
  have hlength : (closures nodeId dag plan).length = plan.taskIds.length := by
    rw [← hids, List.length_map]
  have hi : plan.taskIds.idxOf target < (closures nodeId dag plan).length := by
    rw [hlength]
    exact List.idxOf_lt_length_of_mem htarget
  have hj : plan.taskIds.idxOf source < (closures nodeId dag plan).length := by
    rw [hlength]
    exact List.idxOf_lt_length_of_mem hsource
  rcases exists_started_unfinished v w hi hj hearly with ⟨s, hs, hstarted, hunfinished⟩
  exact ⟨s, hs, not_dependenciesFirst_of_progress hids hnodup hedge htarget hstarted
    hunfinished⟩

end Plan

/-- For every acyclic workload of tasks, every policy and every number of worker
threads: all interleavings of `submit_workload` start a task only after its
dependencies have finished, exactly when there is no dependency at all, or there
is a single worker and the plan lists every dependency before its dependents. -/
theorem dependencies_first_iff (env : SchedulerEnv) (policy : Policy) (dag : WorkloadDAG)
    (hends : dag.EndpointsAreTasks) (hacyclic : dag.Acyclic) (nodeId : NodeId)
    (localNode : ResourceSnapshot) (cluster : ClusterView)
    (numThreads hardwareConcurrency : Nat) :
    (∀ s, (machine nodeId dag (policy.schedule env dag localNode cluster)
        (Fin (ThreadPool.workerCount numThreads hardwareConcurrency))).Reachable s →
      DependenciesFirst dag
        (closures nodeId dag (policy.schedule env dag localNode cluster)) s) ↔
      (∀ source target, ¬ dag.Edge source target) ∨
        (ThreadPool.workerCount numThreads hardwareConcurrency = 1 ∧
          ListsDependenciesFirst dag (policy.schedule env dag localNode cluster)) := by
  have hlisted := hends.mem_topologicalOrder_of_acyclic hacyclic env.hash
  have hperm := (policy.schedule_shape env localNode cluster
    fun id hid => (hlisted id).1 hid).taskIds_perm
  have hmem : ∀ id, id ∈ (policy.schedule env dag localNode cluster).taskIds ↔
      id ∈ dag.tasks := fun id => hperm.mem_iff.trans (hlisted id)
  have hnodup := hperm.nodup_iff.2 (dag.topologicalOrder_nodup env.hash)
  generalize policy.schedule env dag localNode cluster = plan at hmem hnodup ⊢
  have hids : (closures nodeId dag plan).map Closure.taskId = plan.taskIds :=
    map_taskId_closures fun id hid => (hmem id).1 hid
  have hpos := ThreadPool.workerCount_pos numThreads hardwareConcurrency
  generalize ThreadPool.workerCount numThreads hardwareConcurrency = workers at hpos ⊢
  constructor
  · intro hall
    by_contra hnot
    simp only [not_or, not_forall, not_not] at hnot
    rcases hnot with ⟨⟨source, target, hedge⟩, hbad⟩
    have hviolated : ∃ s, (machine nodeId dag plan (Fin workers)).Reachable s ∧
        ¬ DependenciesFirst dag (closures nodeId dag plan) s := by
      by_cases horder : ListsDependenciesFirst dag plan
      · -- The order is right, so there must be a second worker.
        have hmany : 1 < workers := by
          rcases Nat.lt_or_ge 1 workers with h | h
          · exact h
          · exact absurd ⟨by omega, horder⟩ hbad
        have hne : (⟨0, hpos⟩ : Fin workers) ≠ ⟨1, hmany⟩ := by
          intro h
          cases h
        exact not_dependenciesFirst_of_edge hids hnodup hedge
          ((hmem _).2 (hends _ _ hedge).1) ((hmem _).2 (hends _ _ hedge).2) _ _
          (Or.inr ⟨horder _ _ hedge, hne⟩)
      · simp only [ListsDependenciesFirst, not_forall] at horder
        rcases horder with ⟨source', target', hedge', hlate⟩
        have hsource := (hmem _).2 (hends _ _ hedge').1
        have hdiff : plan.taskIds.idxOf source' ≠ plan.taskIds.idxOf target' := by
          intro h
          have hsame := (List.idxOf_inj hsource).1 h
          rw [hsame] at hedge'
          exact hacyclic _ (Relation.TransGen.single hedge')
        exact not_dependenciesFirst_of_edge hids hnodup hedge' hsource
          ((hmem _).2 (hends _ _ hedge').2) ⟨0, hpos⟩ ⟨0, hpos⟩ (Or.inl (by omega))
    rcases hviolated with ⟨s, hs, hfirst⟩
    exact hfirst (hall s hs)
  · rintro (hnone | ⟨hone, horder⟩) s hs
    · intro i closure _ _ dependency hedge
      exact absurd hedge (hnone _ _)
    · subst hone
      exact dependenciesFirst_of_subsingleton hids hnodup
        (fun source target hedge => (hmem _).2 (hends _ _ hedge).1) horder hs

/-- The greedy plan of a chain, on a node without peers. -/
def chainPlan : SchedulingPlan :=
  Policy.schedule Policy.hostEnv .greedy Policy.chainDag { nodeId := [115] } ⟨[]⟩

/-- A single worker executes the chain in order. -/
theorem dependencies_first_chainDag :
    chainPlan.taskIds = [[97], [98]] ∧
      ∀ s, (machine [115] Policy.chainDag chainPlan
          (Fin (ThreadPool.workerCount 1 4))).Reachable s →
        DependenciesFirst Policy.chainDag (closures [115] Policy.chainDag chainPlan) s := by
  have hends : Policy.chainDag.EndpointsAreTasks := by
    decide
  have hacyclic : Policy.chainDag.Acyclic :=
    (hends.hasCycle_eq_false_iff HashOrders.insertion).1 (by decide)
  have hplan : chainPlan.taskIds = [[97], [98]] := by
    decide +kernel
  have horder : ListsDependenciesFirst Policy.chainDag chainPlan := by
    have hlisted : ∀ source ∈ Policy.chainDag.tasks.keys,
        ∀ target ∈ Policy.chainDag.tasks.keys, Policy.chainDag.Edge source target →
          List.idxOf source [[97], [98]] < List.idxOf target [[97], [98]] := by
      decide
    intro source target hedge
    rw [hplan]
    rcases hends source target hedge with ⟨hsource, htarget⟩
    exact hlisted source (AList.mem_keys.1 hsource) target (AList.mem_keys.1 htarget) hedge
  exact ⟨hplan, (dependencies_first_iff Policy.hostEnv .greedy Policy.chainDag hends hacyclic
    [115] { nodeId := [115] } ⟨[]⟩ 1 4).2 (Or.inr ⟨rfl, horder⟩)⟩

/-! ## Dependencies that are overtaken -/

/-- Two workers take both closures of the chain, and the second one starts. -/
def overtakingRun : List (Label (Fin 2)) :=
  [.caller, .caller, .take 0, .take 1, .closure 1 .start]

/-- A long task and a short one, and a task that depends on both. -/
def joinDag : WorkloadDAG :=
  WorkloadDAG.build
    [.addTask { id := [97], profile := { computeCost := 10 } },
      .addTask { id := [98], profile := { computeCost := 1 } },
      .addTask { id := [99], profile := { computeCost := 10 } },
      .addDependency [97] [99], .addDependency [98] [99]]

/-- The optimizer lists the critical path `97, 99` before the short task. -/
def joinPlan : SchedulingPlan :=
  Policy.schedule Policy.hostEnv (.optimizer ⟨100, oneHundred⟩) joinDag { nodeId := [115] } ⟨[]⟩

/-- The only worker carries out the first closure and starts the second. -/
def serialRun : List (Label (Fin 1)) :=
  [.caller, .caller, .caller, .take 0, .closure 0 .start, .closure 0 (.finish .completed),
    .closure 0 .count, .closure 0 .leave, .take 0, .closure 0 .start]

def overtakenChain : Submission (Fin 2) :=
  ((machine [115] Policy.chainDag chainPlan (Fin 2)).run (planned (Fin 2))
    overtakingRun).getD (planned (Fin 2))

def overtakenJoin : Submission (Fin 1) :=
  ((machine [115] joinDag joinPlan (Fin 1)).run (planned (Fin 1)) serialRun).getD
    (planned (Fin 1))

/-- With two workers the second task of a chain starts while the first has not
been executed; with one worker and the optimizer's plan a task starts while one
of its dependencies is still waiting in the queue. -/
theorem dependency_overtaken :
    ((machine [115] Policy.chainDag chainPlan (Fin 2)).Reachable overtakenChain ∧
      overtakenChain.progress 1 = .running ∧ overtakenChain.progress 0 = .waiting ∧
      ¬ DependenciesFirst Policy.chainDag (closures [115] Policy.chainDag chainPlan)
        overtakenChain) ∧
    ((machine [115] joinDag joinPlan (Fin 1)).Reachable overtakenJoin ∧
      overtakenJoin.progress 1 = .running ∧ overtakenJoin.progress 2 = .waiting ∧
      ¬ DependenciesFirst joinDag (closures [115] joinDag joinPlan) overtakenJoin) := by
  have hchain : (machine [115] Policy.chainDag chainPlan (Fin 2)).run
      (machine [115] Policy.chainDag chainPlan (Fin 2)).initial overtakingRun =
        some overtakenChain := by
    rfl
  have hchainIds : chainPlan.taskIds = [[97], [98]] := by
    decide +kernel
  have hjoin : (machine [115] joinDag joinPlan (Fin 1)).run
      (machine [115] joinDag joinPlan (Fin 1)).initial serialRun = some overtakenJoin := by
    rfl
  have hjoinIds : joinPlan.taskIds = [[97], [99], [98]] := by
    decide +kernel
  refine ⟨⟨StateMachine.reachable_iff_run.2 ⟨_, hchain⟩, by decide, by decide, ?_⟩,
    ⟨StateMachine.reachable_iff_run.2 ⟨_, hjoin⟩, by decide +kernel, by decide +kernel, ?_⟩⟩
  · have hedge : Policy.chainDag.Edge [97] [98] := by
      decide
    refine not_dependenciesFirst_of_progress ?_ ?_ hedge ?_ ?_ ?_
    · decide +kernel
    · rw [hchainIds]
      decide
    · rw [hchainIds]
      decide
    · rw [hchainIds]
      decide
    · rw [hchainIds]
      decide
  · have hedge : joinDag.Edge [98] [99] := by
      decide
    refine not_dependenciesFirst_of_progress ?_ ?_ hedge ?_ ?_ ?_
    · decide +kernel
    · rw [hjoinIds]
      decide
    · rw [hjoinIds]
      decide
    · rw [hjoinIds]
      decide +kernel
    · rw [hjoinIds]
      decide +kernel

end SubmitWorkload

end EdgeOrchestrator
