import EdgeOrchestrator.Executor.ThreadPool
import EdgeOrchestrator.Library.FifoPool
import EdgeOrchestrator.Scheduler.Policy

/-!
# Submitting a workload

`submit_workload` turns the decisions of a plan into closures, hands them to the
thread pool in plan order, and polls two counters until all of them have been
counted or 30 seconds have passed.  A closure runs its task locally, or sends it
to a peer and falls back to a local run when the round trip breaks; its last
action on the counters is one increment.  After the increment the worker is
still inside the closure until the promise behind it has been fulfilled.

Closures refer to the counters of the call that made them, by reference.

Main result:

- `reachable_submissionInv`: the counters sum up to the number of closures that have made their
  increment.
-/

namespace EdgeOrchestrator

open Function (update update_of_ne update_self)

namespace SubmitWorkload

/-! ## Closures -/

/-- The two closures of `submit_workload`, with what they capture by value. -/
inductive Closure where
  | runLocal (taskId : TaskId) (profile : TaskProfile)
  | offload (taskId : TaskId) (profile : TaskProfile) (target : NodeId)
deriving DecidableEq, Repr

/-- The task of a closure. -/
def Closure.taskId : Closure → TaskId
  | .runLocal taskId _ => taskId
  | .offload taskId _ _ => taskId

def Closure.profile : Closure → TaskProfile
  | .runLocal _ profile => profile
  | .offload _ profile _ => profile

variable (nodeId : NodeId) (dag : WorkloadDAG)

/-- The closure for a decision; a decision about an unknown task is skipped. -/
def closureOf (decision : SchedulingDecision) : Option Closure :=
  (dag.getTask decision.taskId).map fun task =>
    if decision.assignedNode = nodeId then .runLocal decision.taskId task.profile
    else .offload decision.taskId task.profile decision.assignedNode

/-- The closures in the order in which they are handed to the pool. -/
def closures (plan : SchedulingPlan) : List Closure :=
  plan.decisions.filterMap (closureOf nodeId dag)

theorem length_closures_le (plan : SchedulingPlan) :
    (closures nodeId dag plan).length ≤ plan.decisions.length :=
  List.length_filterMap_le _ _

/-- A closure is about the task of its decision. -/
theorem closureOf_taskId {nodeId : NodeId} {dag : WorkloadDAG} {decision : SchedulingDecision}
    {closure : Closure} (h : closureOf nodeId dag decision = some closure) :
    closure.taskId = decision.taskId ∧ decision.taskId ∈ dag.tasks := by
  rcases Option.map_eq_some_iff.1 h with ⟨task, htask, rfl⟩
  refine ⟨?_, WorkloadDAG.getTask_isSome.1 (by rw [htask]; rfl)⟩
  split <;> rfl

/-- The closures are about the tasks among the plan's ids, in the order of the plan. -/
theorem map_taskId_closures_eq_filter (plan : SchedulingPlan) :
    (closures nodeId dag plan).map Closure.taskId = plan.taskIds.filter (· ∈ dag.tasks) := by
  unfold closures SchedulingPlan.taskIds
  induction plan.decisions with
  | nil => rfl
  | cons decision rest ih =>
    cases hclosure : closureOf nodeId dag decision with
    | none =>
      have htask : decision.taskId ∉ dag.tasks := by
        rw [← WorkloadDAG.getTask_isSome, Option.map_eq_none_iff.1 hclosure]
        exact Bool.false_ne_true
      rw [List.filterMap_cons_none hclosure, ih, List.map_cons,
        List.filter_cons_of_neg (by simpa using htask)]
    | some closure =>
      have htask := closureOf_taskId hclosure
      rw [List.filterMap_cons_some hclosure, List.map_cons, ih, List.map_cons, htask.1,
        List.filter_cons_of_pos (by simpa using htask.2)]

/-! ## The round trip to a peer -/

/-- What `offload_to_peer` returns. -/
structure RemoteOutcome where
  transportOk : Bool := false
  taskOk : Bool := false
  duration : Duration := 0
  error : ByteString := []
deriving DecidableEq, Repr

/-- A decoded response, as far as the client looks at it. -/
structure DecodedReply where
  success : Bool
  duration : Duration
  errorMessage : ByteString
deriving DecidableEq, Repr

/-- What the calls of one round trip return: the peer lookup, the connection, the
send, the receive, and the decoder on the received frame. -/
structure RoundTrip where
  peer : Option PeerInfo
  connect : Except ByteString Unit
  send : Except ByteString Unit
  receive : Except ByteString (Option DecodedReply)

/-- The round trip to a peer that is no longer known. -/
def lostPeer : RoundTrip where
  peer := none
  connect := .ok ()
  send := .ok ()
  receive := .ok none

/-- The outcome without an endpoint. -/
def noEndpoint (target : NodeId) : RemoteOutcome :=
  { error := "no known endpoint for ".toUTF8.toList ++ target }

/-- `offload_to_peer`: the first call that fails ends the round trip. -/
def offloadToPeer (target : NodeId) (trip : RoundTrip) : RemoteOutcome :=
  match trip.peer with
  | none => noEndpoint target
  | some peer =>
    if peer.address = [] ∨ peer.tcpPort = 0 then noEndpoint target
    else
      match trip.connect with
      | .error message => { error := "connect: ".toUTF8.toList ++ message }
      | .ok () =>
        match trip.send with
        | .error message => { error := "send: ".toUTF8.toList ++ message }
        | .ok () =>
          match trip.receive with
          | .error message => { error := "receive: ".toUTF8.toList ++ message }
          | .ok none => { error := "malformed response".toUTF8.toList }
          | .ok (some response) =>
            { transportOk := true
              taskOk := response.success
              duration := response.duration
              error := response.errorMessage }

/-- The answer of the peer, if there is one: the peer is known with an address and a port,
it could be connected to, the request was sent, a frame was received, and the frame was
decoded.  In every other case the round trip has failed. -/
def RoundTrip.answer (trip : RoundTrip) : Option DecodedReply := do
  let peer ← trip.peer
  if peer.address = [] ∨ peer.tcpPort = 0 then none
  else
    trip.connect.toOption
    trip.send.toOption
    let reply ← trip.receive.toOption
    reply

/-- `offload_to_peer` reports the answer, or that the round trip has failed. -/
theorem offloadToPeer_spec (target : NodeId) (trip : RoundTrip) :
    (∀ reply, trip.answer = some reply → offloadToPeer target trip =
        ⟨true, reply.success, reply.duration, reply.errorMessage⟩) ∧
      trip.answer.isSome = (offloadToPeer target trip).transportOk := by
  rcases trip with ⟨peer, connect, send, receive⟩
  unfold offloadToPeer RoundTrip.answer
  cases peer with
  | none => simp [noEndpoint]
  | some peer =>
    by_cases hendpoint : peer.address = [] ∨ peer.tcpPort = 0
    · simp only [Option.bind_eq_bind, Option.bind_some, if_pos hendpoint]
      refine ⟨?_, rfl⟩
      intro reply hanswer
      cases hanswer
    · simp only [Option.bind_eq_bind, Option.bind_some, if_neg hendpoint]
      cases connect with
      | error message => simp [Except.toOption]
      | ok =>
        cases send with
        | error message => simp [Except.toOption]
        | ok =>
          cases receive with
          | error message => simp [Except.toOption]
          | ok reply => cases reply <;> simp [Except.toOption]

/-! ## A closure on a worker -/

/-- How far a closure has come. -/
inductive Progress where
  /-- Nothing of its body has been executed. -/
  | waiting
  | offloading
  | offloaded (outcome : RemoteOutcome)
  /-- The fallback has been counted. -/
  | fellBack
  | running
  | ran (finalState : TaskState)
  /-- `completed` or `failed` has been incremented; the promise is next. -/
  | counted (ok : Bool)
  /-- The worker has left the closure. -/
  | ended (ok : Bool)
deriving DecidableEq, Repr

/-- The steps of a closure. -/
inductive ClosureEvent where
  /-- Enter `run_task` or `offload_to_peer`. -/
  | start
  /-- `offload_to_peer` returns. -/
  | reply (trip : RoundTrip)
  | fallback
  /-- `run_task` returns. -/
  | finish (finalState : TaskState)
  | count
  | leave

/-- The next step of a closure. -/
def closureStep (closure : Closure) : Progress → ClosureEvent → Option Progress
  | .waiting, .start =>
    match closure with
    | .runLocal _ _ => some .running
    | .offload _ _ _ => some .offloading
  | .offloading, .reply trip =>
    match closure with
    | .runLocal _ _ => none
    | .offload _ _ target => some (.offloaded (offloadToPeer target trip))
  | .offloaded outcome, .count =>
    if outcome.transportOk then some (.counted outcome.taskOk) else none
  | .offloaded outcome, .fallback => if outcome.transportOk then none else some .fellBack
  | .fellBack, .start => some .running
  | .running, .finish finalState => some (.ran finalState)
  | .ran finalState, .count => some (.counted (finalState = .completed))
  | .counted ok, .leave => some (.ended ok)
  | _, _ => none

/-- Whether the closure has made its increment. -/
@[simp]
def Progress.isCounted : Progress → Bool
  | .counted _ => true
  | .ended _ => true
  | _ => false

/-- The worker has left the closure. -/
@[simp]
def Progress.isEnded : Progress → Bool
  | .ended _ => true
  | _ => false

/-! ## The call -/

/-- The counters that the call returns. -/
structure OrchestrationResult where
  localTasks : Nat
  offloadedTasks : Nat
  completedTasks : Nat
  failedTasks : Nat
  offloadFallbacks : Nat
deriving DecidableEq, Repr

/-- Where the calling thread stands; the step named is the next one. -/
inductive CallerPhase where
  | fanOut (next : Nat)
  | loadCompleted (deadline : Nat)
  | loadFailed (deadline completed : Nat)
  | checkDeadline (deadline : Nat)
  | collectCompleted
  | collectFailed (completed : Nat)
  | collectFallbacks (completed failed : Nat)
  | returning (result : OrchestrationResult)
  | returned (result : OrchestrationResult)
deriving DecidableEq, Repr

/-- What a call has of its own: how far its closures have come, its counters, and where its
thread stands. -/
structure Call where
  progress : Nat → Progress
  completed : Nat
  failed : Nat
  fallbacks : Nat
  caller : CallerPhase

/-- The pool holds closures by their number in the fan-out. -/
structure Submission (ω : Type*) extends Call where
  pool : FifoPool ω Nat
  clock : Nat

/-- The steps of a call. -/
inductive Label (ω : Type*) where
  | tick (elapsed : Nat)
  | caller
  | take (w : ω)
  | closure (w : ω) (event : ClosureEvent)

/-- Thirty seconds, in nanoseconds. -/
def waitLimit : Nat := 30000000000

/-- The closure runs its task here. -/
def isLocal : Closure → Bool
  | .runLocal _ _ => true
  | .offload _ _ _ => false

/-- Whether the event is the increment of `completed` or `failed`. -/
@[simp]
def ClosureEvent.isCount : ClosureEvent → Bool
  | .count => true
  | _ => false

/-- Whether the event ends the closure. -/
@[simp]
def ClosureEvent.isLeave : ClosureEvent → Bool
  | .leave => true
  | _ => false

/-- The result for the counters that have been read. -/
def collect (cs : List Closure) (completed failed fallbacks : Nat) : OrchestrationResult where
  localTasks := cs.countP isLocal
  offloadedTasks := cs.countP (fun c => !isLocal c)
  completedTasks := completed
  failedTasks := failed
  offloadFallbacks := fallbacks

/-- The calling thread, apart from its submissions. -/
def Call.next (planSize clock : Nat) (cs : List Closure) (c : Call) : Option CallerPhase :=
  match c.caller with
  | .fanOut next =>
    if next < cs.length then none else some (.loadCompleted (clock + waitLimit))
  | .loadCompleted deadline => some (.loadFailed deadline c.completed)
  | .loadFailed deadline completed =>
    if completed + c.failed < planSize then some (.checkDeadline deadline)
    else some .collectCompleted
  | .checkDeadline deadline =>
    if clock < deadline then some (.loadCompleted deadline) else some .collectCompleted
  | .collectCompleted => some (.collectFailed c.completed)
  | .collectFailed completed => some (.collectFallbacks completed c.failed)
  | .collectFallbacks completed failed =>
    some (.returning (collect cs completed failed c.fallbacks))
  | .returning result => some (.returned result)
  | .returned _ => none

/-- The effect of a closure event on the counters. -/
def Call.advance (c : Call) (i : Nat) (progress : Progress) : ClosureEvent → Call
  | .count =>
    match progress with
    | .counted true =>
      { c with
        progress := update c.progress i progress
        completed := c.completed + 1 }
    | _ =>
      { c with
        progress := update c.progress i progress
        failed := c.failed + 1 }
  | .fallback =>
    { c with
      progress := update c.progress i progress
      fallbacks := c.fallbacks + 1 }
  | _ => { c with progress := update c.progress i progress }

/-- A step of a closure neither reads nor changes what the caller does. -/
theorem Call.advance_setCaller (c : Call) (i : Nat) (progress : Progress) (event : ClosureEvent)
    (phase : CallerPhase) :
    { c with caller := phase }.advance i progress event =
      { c.advance i progress event with caller := phase } := by
  cases event with
  | count =>
    simp only [Call.advance]
    split <;> rfl
  | _ => rfl

theorem Call.advance_caller (c : Call) (i : Nat) (progress : Progress) (event : ClosureEvent) :
    (c.advance i progress event).caller = c.caller := by
  have h := congrArg Call.caller (c.advance_setCaller i progress event c.caller)
  exact h

section Machine

variable {ω : Type*} (planSize capacity : Nat) (cs : List Closure)

/-- The next step of the calling thread. -/
def callerStep (s : Submission ω) : Option (Submission ω) :=
  match s.toCall.next planSize s.clock cs with
  | some phase => some { s with caller := phase }
  | none =>
    match s.caller with
    | .fanOut next =>
      (s.pool.submit capacity next).map fun pool =>
        { s with pool := pool, caller := .fanOut (next + 1) }
    | _ => none

variable [DecidableEq ω]

/-- The effect of a closure event on the shared state. -/
def Submission.advance (s : Submission ω) (w : ω) (i : Nat) (progress : Progress)
    (event : ClosureEvent) : Submission ω :=
  { s with
    toCall := s.toCall.advance i progress event
    pool := if event.isLeave then s.pool.release w else s.pool }

/-- The worker runs the next part of the closure it holds. -/
def workerStep (s : Submission ω) (w : ω) (event : ClosureEvent) : Option (Submission ω) :=
  match s.pool.worker w with
  | none => none
  | some i =>
    match cs[i]? with
    | none => none
    | some closure =>
      (closureStep closure (s.progress i) event).map fun progress =>
        s.advance w i progress event

/-- The next step of the caller, a worker or the clock. -/
def step (s : Submission ω) : Label ω → Option (Submission ω)
  | .tick elapsed => some { s with clock := s.clock + elapsed }
  | .caller => callerStep planSize capacity cs s
  | .take w => (s.pool.take w).map fun pool => { s with pool := pool }
  | .closure w event => workerStep cs s w event

end Machine

/-- The call has its plan and has created its counters; the pool is idle. -/
def planned (ω : Type*) : Submission ω where
  pool := .idle ω Nat
  progress := fun _ => .waiting
  completed := 0
  failed := 0
  fallbacks := 0
  clock := 0
  caller := .fanOut 0

/-- `submit_workload` on an idle pool with workers `ω`, from the plan on. -/
def machine (nodeId : NodeId) (dag : WorkloadDAG) (plan : SchedulingPlan) (ω : Type*)
    [DecidableEq ω] : StateMachine (Submission ω) (Label ω) where
  initial := planned ω
  step := step plan.decisions.length ThreadPool.queueSize.capacity (closures nodeId dag plan)

/-! ## What one step can do -/

section Steps

variable {ω : Type*} {planSize capacity : Nat} {cs : List Closure}

/-- The caller's moves after the fan-out, which only look at the counters and the
clock. -/
inductive CallerMove (planSize : Nat) (cs : List Closure) (s : Submission ω) :
    CallerPhase → Prop
  | endFanOut (next : Nat) (h : s.caller = .fanOut next) (hlast : cs.length ≤ next) :
      CallerMove planSize cs s (.loadCompleted (s.clock + waitLimit))
  | loadCompleted (deadline : Nat) (h : s.caller = .loadCompleted deadline) :
      CallerMove planSize cs s (.loadFailed deadline s.completed)
  | short (deadline completed : Nat) (h : s.caller = .loadFailed deadline completed)
      (hsum : completed + s.failed < planSize) :
      CallerMove planSize cs s (.checkDeadline deadline)
  | allCounted (deadline completed : Nat) (h : s.caller = .loadFailed deadline completed)
      (hsum : planSize ≤ completed + s.failed) : CallerMove planSize cs s .collectCompleted
  | again (deadline : Nat) (h : s.caller = .checkDeadline deadline)
      (hclock : s.clock < deadline) : CallerMove planSize cs s (.loadCompleted deadline)
  | timeout (deadline : Nat) (h : s.caller = .checkDeadline deadline)
      (hclock : deadline ≤ s.clock) : CallerMove planSize cs s .collectCompleted
  | collectCompleted (h : s.caller = .collectCompleted) :
      CallerMove planSize cs s (.collectFailed s.completed)
  | collectFailed (completed : Nat) (h : s.caller = .collectFailed completed) :
      CallerMove planSize cs s (.collectFallbacks completed s.failed)
  | collectFallbacks (completed failed : Nat)
      (h : s.caller = .collectFallbacks completed failed) :
      CallerMove planSize cs s (.returning (collect cs completed failed s.fallbacks))
  | returnResult (result : OrchestrationResult) (h : s.caller = .returning result) :
      CallerMove planSize cs s (.returned result)

variable [DecidableEq ω]

/-- One constructor for each kind of step. -/
inductive Transition (planSize capacity : Nat) (cs : List Closure) (s : Submission ω) :
    Label ω → Submission ω → Prop
  | tick (elapsed : Nat) :
      Transition planSize capacity cs s (.tick elapsed)
        { s with clock := s.clock + elapsed }
  | submit (next : Nat) (pool : FifoPool ω Nat) (h : s.caller = .fanOut next)
      (hnext : next < cs.length) (hpool : s.pool.submit capacity next = some pool) :
      Transition planSize capacity cs s .caller
        { s with pool := pool, caller := .fanOut (next + 1) }
  | move (phase : CallerPhase) (h : CallerMove planSize cs s phase) :
      Transition planSize capacity cs s .caller { s with caller := phase }
  | take (w : ω) (pool : FifoPool ω Nat) (hpool : s.pool.take w = some pool) :
      Transition planSize capacity cs s (.take w) { s with pool := pool }
  | closure (w : ω) (i : Nat) (closure : Closure) (event : ClosureEvent)
      (progress : Progress) (hworker : s.pool.worker w = some i)
      (hclosure : cs[i]? = some closure)
      (hprogress : closureStep closure (s.progress i) event = some progress) :
      Transition planSize capacity cs s (.closure w event) (s.advance w i progress event)

omit [DecidableEq ω] in
theorem next_cases {s : Submission ω} {phase : CallerPhase}
    (h : s.toCall.next planSize s.clock cs = some phase) : CallerMove planSize cs s phase := by
  unfold Call.next at h
  split at h
  · rename_i next hcaller
    rcases Option.ite_none_left_eq_some.1 h with ⟨hlast, hphase⟩
    cases hphase
    exact .endFanOut next hcaller (by omega)
  · rename_i deadline hcaller
    cases h
    exact .loadCompleted deadline hcaller
  · rename_i deadline completed hcaller
    split at h
    · rename_i hsum
      cases h
      exact .short deadline completed hcaller hsum
    · rename_i hsum
      cases h
      exact .allCounted deadline completed hcaller (by omega)
  · rename_i deadline hcaller
    split at h
    · rename_i hclock
      cases h
      exact .again deadline hcaller hclock
    · rename_i hclock
      cases h
      exact .timeout deadline hcaller (by omega)
  · rename_i hcaller
    cases h
    exact .collectCompleted hcaller
  · rename_i completed hcaller
    cases h
    exact .collectFailed completed hcaller
  · rename_i completed failed hcaller
    cases h
    exact .collectFallbacks completed failed hcaller
  · rename_i result hcaller
    cases h
    exact .returnResult result hcaller
  · cases h

omit [DecidableEq ω] in
theorem callerStep_cases {s t : Submission ω} (h : callerStep planSize capacity cs s = some t) :
    (∃ next pool, s.caller = .fanOut next ∧ next < cs.length ∧
      s.pool.submit capacity next = some pool ∧
      t = { s with pool := pool, caller := .fanOut (next + 1) }) ∨
    ∃ phase, CallerMove planSize cs s phase ∧ t = { s with caller := phase } := by
  unfold callerStep at h
  split at h
  · rename_i phase hphase
    cases h
    exact Or.inr ⟨phase, next_cases hphase, rfl⟩
  · rename_i hnone
    split at h
    · rename_i next hcaller
      rcases Option.map_eq_some_iff.1 h with ⟨pool, hpool, ht⟩
      have hnext : next < cs.length := by
        by_contra hlast
        simp only [Call.next, hcaller, if_neg hlast] at hnone
        cases hnone
      exact Or.inl ⟨next, pool, hcaller, hnext, hpool, ht.symm⟩
    · cases h

/-- Every step of the machine is one of the transitions. -/
theorem step_cases {s t : Submission ω} {label : Label ω}
    (h : step planSize capacity cs s label = some t) :
    Transition planSize capacity cs s label t := by
  cases label with
  | tick elapsed =>
    cases h
    exact .tick elapsed
  | caller =>
    rcases callerStep_cases h with ⟨next, pool, hcaller, hnext, hpool, rfl⟩ |
      ⟨phase, hmove, rfl⟩
    · exact .submit next pool hcaller hnext hpool
    · exact .move phase hmove
  | take w =>
    rcases Option.map_eq_some_iff.1 h with ⟨pool, hpool, rfl⟩
    exact .take w pool hpool
  | closure w event =>
    simp only [step, workerStep] at h
    split at h
    · cases h
    · rename_i i hworker
      split at h
      · cases h
      · rename_i closure hclosure
        rcases Option.map_eq_some_iff.1 h with ⟨progress, hprogress, rfl⟩
        exact .closure w i closure event progress hworker hclosure hprogress

end Steps

/-! ## What a closure event changes -/

/-- A closure moves on to a phase of its body: it has started, it has been
counted exactly once when the event is the increment, and it ends with the event
that leaves it. -/
theorem closureStep_spec {closure : Closure} {before after : Progress} {event : ClosureEvent}
    (h : closureStep closure before event = some after) :
    after ≠ .waiting ∧ before.isEnded = false ∧ after.isEnded = event.isLeave ∧
      after.isCounted.toNat = before.isCounted.toNat + event.isCount.toNat := by
  unfold closureStep at h
  split at h
  · cases closure with
    | runLocal | offload =>
      cases h
      simp
  · cases closure with
    | runLocal => cases h
    | offload =>
      cases h
      simp
  · split at h
    · cases h
      simp
    · cases h
  · split at h
    · cases h
    · cases h
      simp
  · cases h
    simp
  · cases h
    simp
  · cases h
    simp
  · cases h
    simp
  · cases h

section Advance

variable {ω : Type*} [DecidableEq ω] (s : Submission ω) (w : ω) (i : Nat) (progress : Progress)
  (event : ClosureEvent)

@[simp]
theorem advance_progress :
    (s.advance w i progress event).progress = update s.progress i progress := by
  cases event with
  | count =>
    simp only [Submission.advance, Call.advance]
    split <;> rfl
  | _ => rfl

theorem advance_progress_self : (s.advance w i progress event).progress i = progress := by
  rw [advance_progress, update_self]

theorem advance_progress_of_ne {j : Nat} (hj : j ≠ i) :
    (s.advance w i progress event).progress j = s.progress j := by
  rw [advance_progress, update_of_ne hj]

@[simp]
theorem advance_caller : (s.advance w i progress event).caller = s.caller :=
  Call.advance_caller s.toCall i progress event

theorem advance_pool :
    (s.advance w i progress event).pool =
      if event.isLeave then s.pool.release w else s.pool :=
  rfl

theorem advance_queue : (s.advance w i progress event).pool.queue = s.pool.queue := by
  rw [advance_pool]
  split <;> rfl

theorem advance_counters :
    s.completed ≤ (s.advance w i progress event).completed ∧
      s.failed ≤ (s.advance w i progress event).failed ∧
      (s.advance w i progress event).completed + (s.advance w i progress event).failed =
        s.completed + s.failed + event.isCount.toNat := by
  cases event with
  | count =>
    simp only [Submission.advance, Call.advance]
    split
    · exact ⟨Nat.le_succ _, le_refl _, by simp [ClosureEvent.isCount]; omega⟩
    · exact ⟨le_refl _, Nat.le_succ _, by simp [ClosureEvent.isCount]; omega⟩
  | _ => exact ⟨le_refl _, le_refl _, rfl⟩

end Advance

/-! ## Where the closures are, and what the counters say -/

/-- How many closures have been handed to the pool. -/
def submitted {ω : Type*} (cs : List Closure) (s : Submission ω) : Nat :=
  match s.caller with
  | .fanOut next => next
  | _ => cs.length

theorem submitted_advance {ω : Type*} [DecidableEq ω] (cs : List Closure) (s : Submission ω)
    (w : ω) (i : Nat) (progress : Progress) (event : ClosureEvent) :
    submitted cs (s.advance w i progress event) = submitted cs s := by
  simp only [submitted, advance_caller]

/-- The invariant of the call. -/
structure SubmissionInv {ω : Type*} (cs : List Closure) (s : Submission ω) : Prop where
  bound : submitted cs s ≤ cs.length
  distinct : s.pool.Distinct
  queued : ∀ i ∈ s.pool.queue, i < submitted cs s ∧ s.progress i = .waiting
  held : ∀ w i, s.pool.worker w = some i →
    i < submitted cs s ∧ (s.progress i).isEnded = false
  unsubmitted : ∀ i, submitted cs s ≤ i → s.progress i = .waiting
  counters : s.completed + s.failed = ∑ i : Fin cs.length, (s.progress i).isCounted.toNat
  loaded : ∀ deadline completed, s.caller = .loadFailed deadline completed →
    completed ≤ s.completed

theorem planned_submissionInv (ω : Type*) (cs : List Closure) :
    SubmissionInv cs (planned ω) where
  bound := Nat.zero_le _
  distinct := FifoPool.idle_distinct
  queued := by
    intro i hi
    cases hi
  held := by
    intro w i hi
    cases hi
  unsubmitted := fun _ _ => rfl
  counters := by simp [planned]
  loaded := by
    intro deadline completed h
    cases h

section Invariant

variable {ω : Type*} {planSize capacity : Nat} {cs : List Closure} {s : Submission ω}

/-- A closure that has not been submitted is nowhere in the pool. -/
theorem SubmissionInv.not_holds (hinv : SubmissionInv cs s) {i : Nat}
    (hi : submitted cs s ≤ i) : ¬ s.pool.Holds i := by
  rintro (hqueued | ⟨w, hheld⟩)
  · have := (hinv.queued i hqueued).1
    omega
  · have := (hinv.held w i hheld).1
    omega

/-- A caller's move keeps the number of submitted closures. -/
theorem CallerMove.submitted_eq (hinv : SubmissionInv cs s) {phase : CallerPhase}
    (hmove : CallerMove planSize cs s phase) :
    submitted cs { s with caller := phase } = submitted cs s := by
  have hbound := hinv.bound
  cases hmove with
  | endFanOut next h hlast =>
    simp only [submitted, h] at hbound ⊢
    omega
  | loadCompleted deadline h | short deadline completed h hsum
  | allCounted deadline completed h hsum | again deadline h hclock | timeout deadline h hclock
  | collectCompleted h | collectFailed completed h | collectFallbacks completed failed h
  | returnResult result h => simp only [submitted, h]

theorem SubmissionInv.move (hinv : SubmissionInv cs s) {phase : CallerPhase}
    (hmove : CallerMove planSize cs s phase) :
    SubmissionInv cs { s with caller := phase } := by
  have hsame := hmove.submitted_eq hinv
  constructor
  · rw [hsame]
    exact hinv.bound
  · exact hinv.distinct
  · rw [hsame]
    exact hinv.queued
  · rw [hsame]
    exact hinv.held
  · rw [hsame]
    exact hinv.unsubmitted
  · exact hinv.counters
  · intro deadline completed hphase
    cases hmove with
    | loadCompleted deadline' h =>
      cases hphase
      exact le_refl _
    | _ => cases hphase

/-- The next closure enters the queue. -/
theorem SubmissionInv.submit (hinv : SubmissionInv cs s) {next : Nat} {pool : FifoPool ω Nat}
    (hcaller : s.caller = .fanOut next) (hnext : next < cs.length)
    (hpool : s.pool.submit capacity next = some pool) :
    SubmissionInv cs { s with pool := pool, caller := .fanOut (next + 1) } := by
  have hsubmitted : submitted cs s = next := by
    simp only [submitted, hcaller]
  have hdistinct := hinv.distinct.submit (hinv.not_holds (le_of_eq hsubmitted)) hpool
  rcases FifoPool.submit_eq_some hpool with ⟨-, rfl⟩
  constructor
  · exact hnext
  · exact hdistinct
  · intro i hi
    rcases List.mem_append.1 hi with hi | hi
    · have hold := hinv.queued i hi
      rw [hsubmitted] at hold
      exact ⟨Nat.lt_succ_of_lt hold.1, hold.2⟩
    · rw [List.mem_singleton] at hi
      rw [hi]
      exact ⟨Nat.lt_succ_self next, hinv.unsubmitted next (le_of_eq hsubmitted)⟩
  · intro w i hi
    have hold := hinv.held w i hi
    rw [hsubmitted] at hold
    exact ⟨Nat.lt_succ_of_lt hold.1, hold.2⟩
  · intro i hi
    apply hinv.unsubmitted i
    rw [hsubmitted]
    exact Nat.le_of_succ_le hi
  · exact hinv.counters
  · intro deadline completed h
    cases h

variable [DecidableEq ω]

/-- A worker takes the closure at the head. -/
theorem SubmissionInv.take (hinv : SubmissionInv cs s) {w : ω} {pool : FifoPool ω Nat}
    (hpool : s.pool.take w = some pool) : SubmissionInv cs { s with pool := pool } := by
  have hdistinct := hinv.distinct.take hpool
  rcases FifoPool.take_eq_some hpool with ⟨i, rest, -, hqueue, hrest, hworker⟩
  have hhead : i ∈ s.pool.queue := by
    rw [hqueue]
    exact List.mem_cons_self
  constructor
  · exact hinv.bound
  · exact hdistinct
  · intro j hj
    apply hinv.queued j
    rw [hqueue]
    simp only [hrest] at hj
    exact List.mem_cons_of_mem _ hj
  · intro v j hj
    simp only [hworker] at hj
    rcases FifoPool.update_worker_cases hj with ⟨-, hsame⟩ | ⟨-, hold⟩
    · cases hsame
      rcases hinv.queued i hhead with ⟨hlt, hwaiting⟩
      exact ⟨hlt, by simp [hwaiting]⟩
    · exact hinv.held v j hold
  · exact hinv.unsubmitted
  · exact hinv.counters
  · exact hinv.loaded

/-- A worker runs the next part of its closure. -/
theorem SubmissionInv.closure (hinv : SubmissionInv cs s) {w : ω} {i : Nat}
    {closure : Closure} {event : ClosureEvent} {progress : Progress}
    (hworker : s.pool.worker w = some i)
    (hprogress : closureStep closure (s.progress i) event = some progress) :
    SubmissionInv cs (s.advance w i progress event) := by
  rcases closureStep_spec hprogress with ⟨-, -, hleave, hcount⟩
  have hi : i < submitted cs s := (hinv.held w i hworker).1
  constructor
  · rw [submitted_advance]
    exact hinv.bound
  · rw [advance_pool]
    split
    · exact hinv.distinct.release w
    · exact hinv.distinct
  · intro j hj
    rw [advance_queue] at hj
    have hne : j ≠ i := by
      intro h
      rw [h] at hj
      exact hinv.distinct.apart w i hworker hj
    rw [submitted_advance, advance_progress_of_ne s w i progress event hne]
    exact hinv.queued j hj
  · intro v j hj
    rw [submitted_advance]
    rw [advance_pool] at hj
    cases hevent : event.isLeave with
    | true =>
      rw [hevent, if_pos rfl] at hj
      rcases FifoPool.release_worker hj with ⟨hv, hold⟩
      have hne : j ≠ i := by
        intro h
        rw [h] at hold
        exact hv (hinv.distinct.owner v w i hold hworker)
      rw [advance_progress_of_ne s w i progress event hne]
      exact hinv.held v j hold
    | false =>
      rw [hevent, if_neg Bool.false_ne_true] at hj
      refine ⟨(hinv.held v j hj).1, ?_⟩
      by_cases hj' : j = i
      · rw [hj', advance_progress_self, hleave]
        exact hevent
      · rw [advance_progress_of_ne s w i progress event hj']
        exact (hinv.held v j hj).2
  · intro j hj
    rw [submitted_advance] at hj
    rw [advance_progress_of_ne s w i progress event (by omega)]
    exact hinv.unsubmitted j hj
  · have hlt : i < cs.length := lt_of_lt_of_le hi hinv.bound
    have hsum := Counting.sum_change
      (f := fun j : Fin cs.length => (s.progress j).isCounted.toNat)
      (g := fun j : Fin cs.length =>
        ((s.advance w i progress event).progress j).isCounted.toNat) ⟨i, hlt⟩ (by
        intro j hj
        rw [advance_progress_of_ne s w i progress event (fun h => hj (Fin.ext h))])
    simp only [advance_progress_self] at hsum
    rw [(advance_counters s w i progress event).2.2, hinv.counters]
    omega
  · intro deadline completed h
    rw [advance_caller] at h
    exact (hinv.loaded deadline completed h).trans (advance_counters s w i progress event).1

/-- One step keeps the invariant. -/
theorem SubmissionInv.step {t : Submission ω} {label : Label ω} (hinv : SubmissionInv cs s)
    (hstep : step planSize capacity cs s label = some t) : SubmissionInv cs t := by
  cases step_cases hstep with
  | tick elapsed =>
    exact ⟨hinv.bound, hinv.distinct, hinv.queued, hinv.held, hinv.unsubmitted,
      hinv.counters, hinv.loaded⟩
  | submit next pool h hnext hpool => exact hinv.submit h hnext hpool
  | move phase h => exact hinv.move h
  | take w pool hpool => exact hinv.take hpool
  | closure w i closure event progress hworker hclosure hprogress =>
    exact hinv.closure hworker hprogress

end Invariant

theorem reachable_submissionInv {ω : Type*} [DecidableEq ω] {nodeId : NodeId}
    {dag : WorkloadDAG} {plan : SchedulingPlan} {s : Submission ω}
    (hreach : (machine nodeId dag plan ω).Reachable s) :
    SubmissionInv (closures nodeId dag plan) s := by
  apply hreach.invariant (planned_submissionInv ω _)
  intro s label t hinv hstep
  exact hinv.step hstep

/-! ## The end of the wait -/

/-- The caller has left the wait loop. -/
def afterWait : CallerPhase → Bool
  | .fanOut _ => false
  | .loadCompleted _ => false
  | .loadFailed _ _ => false
  | .checkDeadline _ => false
  | _ => true

section Wait

variable {ω : Type*} {planSize capacity : Nat} {cs : List Closure} {s : Submission ω}

/-- Two loads whose sum reaches the size of the plan have seen every increment. -/
theorem SubmissionInv.allCounted (hinv : SubmissionInv cs s) (hsize : cs.length ≤ planSize)
    {deadline completed : Nat} (hcaller : s.caller = .loadFailed deadline completed)
    (hsum : planSize ≤ completed + s.failed) :
    ∀ i, i < cs.length → (s.progress i).isCounted = true := by
  intro i hi
  have hloaded := hinv.loaded deadline completed hcaller
  have hcounters := hinv.counters
  have hcard : Fintype.card (Fin cs.length) ≤
      ∑ j : Fin cs.length, (s.progress j).isCounted.toNat := by
    rw [Fintype.card_fin]
    omega
  exact Counting.all_of_card_le (f := fun j : Fin cs.length => (s.progress j).isCounted) hcard
    ⟨i, hi⟩

variable [DecidableEq ω]

/-- An increment is never taken back. -/
theorem isCounted_advance {w : ω} {i : Nat} {closure : Closure} {event : ClosureEvent}
    {progress : Progress}
    (hprogress : closureStep closure (s.progress i) event = some progress) {j : Nat}
    (hj : (s.progress j).isCounted = true) :
    ((s.advance w i progress event).progress j).isCounted = true := by
  rw [advance_progress]
  by_cases hji : j = i
  · rw [hji] at hj ⊢
    rw [update_self]
    have hcount := (closureStep_spec hprogress).2.2.2
    cases hafter : progress.isCounted with
    | true => rfl
    | false =>
      rw [hj, hafter] at hcount
      simp only [Bool.toNat_false, Bool.toNat_true] at hcount
      omega
  · rw [update_of_ne hji]
    exact hj

end Wait

end SubmitWorkload

end EdgeOrchestrator
