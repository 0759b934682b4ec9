import EdgeOrchestrator.Orchestrator.SubmitWorkload

/-!
# Task accounting of a submitted workload

The run of a call, seen from one of its closures, is a run of that closure alone.
A closure that has made its increment has one of three histories: it ran its task,
it got an answer from the peer, or the round trip failed and it ran its task after
counting the fallback.  A call that returns before its deadline has left the wait
because the counters sum up to the size of the plan, so that every decision has such
a history and no counter changes any more while the result is collected.

Main results:

- `story_of_run`: what a closure has done when it has made its increment.
- `Collected.step`: what the caller has read stays what the counters say.
- `submit_accounting`: the counters of a call that returns before its deadline, decision by
  decision.
-/

namespace EdgeOrchestrator

open scoped StateMachine

namespace SubmitWorkload

/-! ## The histories of a closure -/

/-- One closure on its own. -/
def closureMachine (closure : Closure) : StateMachine Progress ClosureEvent where
  initial := .waiting
  step := closureStep closure

/-- What a closure has done when it has made its increment, and whether it was the
increment of `completed`: its task ran here, the peer answered, or the round trip
failed, was counted as a fallback, and the task ran here. -/
inductive Story : Closure → List ClosureEvent → Bool → Prop
  | ranLocally (taskId : TaskId) (profile : TaskProfile) (finalState : TaskState) :
      Story (.runLocal taskId profile) [.start, .finish finalState, .count]
        (finalState = .completed)
  | answered (taskId : TaskId) (profile : TaskProfile) (target : NodeId) (trip : RoundTrip)
      (reply : DecodedReply) (hanswer : trip.answer = some reply) :
      Story (.offload taskId profile target) [.start, .reply trip, .count] reply.success
  | fellBack (taskId : TaskId) (profile : TaskProfile) (target : NodeId) (trip : RoundTrip)
      (finalState : TaskState) (hfailed : trip.answer = none) :
      Story (.offload taskId profile target)
        [.start, .reply trip, .fallback, .start, .finish finalState, .count]
        (finalState = .completed)

/-- What a closure does before it runs its task: nothing, or a round trip that fails. -/
inductive Lead : Closure → List ClosureEvent → Prop
  | runLocal (taskId : TaskId) (profile : TaskProfile) : Lead (.runLocal taskId profile) []
  | fallback (taskId : TaskId) (profile : TaskProfile) (target : NodeId) (trip : RoundTrip)
      (hfailed : trip.answer = none) :
      Lead (.offload taskId profile target) [.start, .reply trip, .fallback]

theorem Lead.story {closure : Closure} {lead : List ClosureEvent} (hlead : Lead closure lead)
    (finalState : TaskState) :
    Story closure (lead ++ [.start, .finish finalState, .count]) (finalState = .completed) := by
  cases hlead with
  | runLocal taskId profile => exact .ranLocally taskId profile finalState
  | fallback taskId profile target trip hfailed =>
    exact .fellBack taskId profile target trip finalState hfailed

/-- The history that leads to each phase of a closure. -/
def Told (closure : Closure) (events : List ClosureEvent) : Progress → Prop
  | .waiting => events = []
  | .offloading => isLocal closure = false ∧ events = [.start]
  | .offloaded outcome =>
    ∃ taskId profile target trip, closure = .offload taskId profile target ∧
      outcome = offloadToPeer target trip ∧ events = [.start, .reply trip]
  | .fellBack => isLocal closure = false ∧ Lead closure events
  | .running => ∃ lead, Lead closure lead ∧ events = lead ++ [.start]
  | .ran finalState =>
    ∃ lead, Lead closure lead ∧ events = lead ++ [.start, .finish finalState]
  | .counted ok => Story closure events ok
  | .ended ok => ∃ story, Story closure story ok ∧ events = story ++ [.leave]

variable {events : List ClosureEvent}

theorem told_step {closure : Closure} {before after : Progress} {event : ClosureEvent}
    (htold : Told closure events before) (hstep : closureStep closure before event = some after) :
    Told closure (events ++ [event]) after := by
  unfold closureStep at hstep
  split at hstep
  · obtain rfl : events = [] := htold
    cases closure with
    | runLocal taskId profile =>
      cases hstep
      exact ⟨[], .runLocal taskId profile, rfl⟩
    | offload taskId profile target =>
      cases hstep
      exact ⟨rfl, rfl⟩
  · rcases htold with ⟨-, rfl⟩
    cases closure with
    | runLocal taskId profile => cases hstep
    | offload taskId profile target =>
      cases hstep
      exact ⟨taskId, profile, target, _, rfl, rfl, rfl⟩
  · rcases htold with ⟨taskId, profile, target, trip, rfl, rfl, rfl⟩
    split at hstep
    · rename_i hok
      rw [← (offloadToPeer_spec target trip).2, Option.isSome_iff_exists] at hok
      rcases hok with ⟨reply, hanswer⟩
      cases hstep
      rw [(offloadToPeer_spec target trip).1 reply hanswer]
      exact .answered taskId profile target trip reply hanswer
    · cases hstep
  · rcases htold with ⟨taskId, profile, target, trip, rfl, rfl, rfl⟩
    split at hstep
    · cases hstep
    · rename_i hfailed
      rw [← (offloadToPeer_spec target trip).2, Option.not_isSome_iff_eq_none] at hfailed
      cases hstep
      exact ⟨rfl, .fallback taskId profile target trip hfailed⟩
  · cases hstep
    exact ⟨events, htold.2, rfl⟩
  · rcases htold with ⟨lead, hlead, rfl⟩
    cases hstep
    exact ⟨lead, hlead, by rw [List.append_assoc]; rfl⟩
  · rcases htold with ⟨lead, hlead, rfl⟩
    cases hstep
    rw [List.append_assoc]
    exact hlead.story _
  · cases hstep
    exact ⟨events, htold, rfl⟩
  · cases hstep

theorem told_of_run {closure : Closure} {progress : Progress}
    (hrun : (closureMachine closure).run (closureMachine closure).initial events = some progress)
    : Told closure events progress := by
  refine StateMachine.run_induction (m := closureMachine closure) (P := Told closure) rfl ?_ hrun
  intro events before event after _ htold hstep
  exact told_step htold hstep

/-- Whether the closure has incremented `completed`. -/
@[simp]
def Progress.succeeded : Progress → Bool
  | .counted ok => ok
  | .ended ok => ok
  | _ => false

theorem story_of_run {closure : Closure} {progress : Progress}
    (hrun : (closureMachine closure).run (closureMachine closure).initial events = some progress)
    (hcounted : progress.isCounted = true) :
    ∃ story, Story closure story progress.succeeded ∧
      (events = story ∨ events = story ++ [.leave]) := by
  have htold := told_of_run hrun
  cases progress with
  | counted ok => exact ⟨events, htold, Or.inl rfl⟩
  | ended ok =>
    rcases htold with ⟨story, hstory, hevents⟩
    exact ⟨story, hstory, Or.inr hevents⟩
  | _ => cases hcounted

/-- The event is the end of a round trip that failed. -/
def ClosureEvent.isFailedTrip : ClosureEvent → Bool
  | .reply trip => trip.answer.isNone
  | _ => false

/-- Whether the event counts a fallback. -/
@[simp]
def ClosureEvent.isFallback : ClosureEvent → Bool
  | .fallback => true
  | _ => false

/-- The task was offloaded and the round trip failed. -/
def tripFailed (events : List ClosureEvent) : Bool :=
  events.any ClosureEvent.isFailedTrip

/-- Fallbacks are counted for the round trips that failed. -/
theorem Story.countP_isFallback {closure : Closure} {story : List ClosureEvent} {ok : Bool}
    (hstory : Story closure story ok) :
    story.countP ClosureEvent.isFallback = (tripFailed story).toNat := by
  cases hstory with
  | ranLocally taskId profile finalState => rfl
  | answered taskId profile target trip reply hanswer =>
    simp [tripFailed, ClosureEvent.isFailedTrip, hanswer]
  | fellBack taskId profile target trip finalState hfailed =>
    simp only [tripFailed, ClosureEvent.isFailedTrip, hfailed, List.any_cons]
    rfl

/-! ## A run seen from one closure -/

section History

variable {ω : Type*}

/-- The step is an event of closure `i`. -/
def closureEvent (i : Nat) (s : Submission ω) : Label ω → Option ClosureEvent
  | .closure w event => if s.pool.worker w = some i then some event else none
  | _ => none

theorem closureEvent_of_worker {s : Submission ω} {w : ω} {j : Nat}
    (hworker : s.pool.worker w = some j) (event : ClosureEvent) (i : Nat) :
    closureEvent i s (.closure w event) = if j = i then some event else none := by
  rw [closureEvent, hworker]
  simp only [Option.some.injEq]

/-- The step at which the caller sets its deadline. -/
def setsDeadline (cs : List Closure) (s : Submission ω) : Label ω → Option Nat
  | .caller =>
    match s.caller with
    | .fanOut next => if next < cs.length then none else some (s.clock + waitLimit)
    | _ => none
  | _ => none

variable [DecidableEq ω] (nodeId : NodeId) (dag : WorkloadDAG) (plan : SchedulingPlan)

/-- The events of closure `i` in a run of the call. -/
def history (labels : List (Label ω)) (i : Nat) : List ClosureEvent :=
  (machine nodeId dag plan ω).collect (closureEvent i) (machine nodeId dag plan ω).initial labels

/-- The deadline of the wait, in a run that has come that far. -/
def deadlines (labels : List (Label ω)) : List Nat :=
  (machine nodeId dag plan ω).collect (setsDeadline (closures nodeId dag plan))
    (machine nodeId dag plan ω).initial labels

variable {nodeId dag plan} {labels : List (Label ω)}

/-- Seen from closure `i`, a run of the call is a run of the closure. -/
theorem run_history {s : Submission ω} {i : Nat} {closure : Closure}
    (hclosure : (closures nodeId dag plan)[i]? = some closure)
    (hrun : (machine nodeId dag plan ω).run (machine nodeId dag plan ω).initial labels = some s) :
    (closureMachine closure).run (closureMachine closure).initial
      (history nodeId dag plan labels i) = some (s.progress i) := by
  refine StateMachine.run_project (c := closureMachine closure) (fun s => s.progress i)
    (closureEvent i) rfl ?_ hrun
  intro s label t hstep
  cases step_cases hstep with
  | tick elapsed | submit next pool h hnext hpool | move phase h | take w pool hpool => rfl
  | closure w j closure' event progress hworker hclosure' hprogress =>
    by_cases hj : j = i
    · subst hj
      rw [hclosure] at hclosure'
      cases hclosure'
      rw [advance_progress_self, closureEvent_of_worker hworker, if_pos rfl]
      exact (closureMachine closure).run_single hprogress
    · rw [advance_progress_of_ne s w j progress event (fun h => hj h.symm),
        closureEvent_of_worker hworker, if_neg hj]
      rfl

theorem history_concat {s t : Submission ω} {label : Label ω} (i : Nat)
    (hrun : (machine nodeId dag plan ω).run (machine nodeId dag plan ω).initial labels = some s)
    (hstep : (machine nodeId dag plan ω).step s label = some t) :
    history nodeId dag plan (labels ++ [label]) i =
      history nodeId dag plan labels i ++ (closureEvent i s label).toList :=
  StateMachine.collect_concat (closureEvent i) hrun hstep

theorem advance_fallbacks (s : Submission ω) (w : ω) (i : Nat) (progress : Progress)
    (event : ClosureEvent) :
    (s.advance w i progress event).fallbacks = s.fallbacks + event.isFallback.toNat := by
  cases event with
  | count =>
    simp only [Submission.advance, Call.advance]
    split <;> rfl
  | _ => rfl

/-- `fallbacks` counts the fallback events of all closures. -/
theorem fallbacks_eq {s : Submission ω}
    (hrun : (machine nodeId dag plan ω).run (machine nodeId dag plan ω).initial labels = some s) :
    s.fallbacks = ∑ i : Fin (closures nodeId dag plan).length,
      (history nodeId dag plan labels i).countP ClosureEvent.isFallback := by
  refine StateMachine.run_induction (m := machine nodeId dag plan ω) (P := fun labels s =>
    s.fallbacks = ∑ i : Fin (closures nodeId dag plan).length,
      (history nodeId dag plan labels i).countP ClosureEvent.isFallback) ?_ ?_ hrun
  · simp [history, StateMachine.collect, machine, planned]
  · intro labels s label t hrun ih hstep
    have hquiet : (∀ i, closureEvent i s label = none) → t.fallbacks = s.fallbacks →
        t.fallbacks = ∑ i : Fin (closures nodeId dag plan).length,
          (history nodeId dag plan (labels ++ [label]) i).countP ClosureEvent.isFallback := by
      intro hnone hsame
      simp only [history_concat _ hrun hstep, hnone, Option.toList_none, List.append_nil]
      rw [hsame, ih]
    cases step_cases hstep with
    | tick elapsed | submit next pool h hnext hpool | move phase h | take w pool hpool =>
      exact hquiet (fun _ => rfl) rfl
    | closure w j closure event progress hworker hclosure hprogress =>
      have hj : j < (closures nodeId dag plan).length :=
        (List.getElem?_eq_some_iff.1 hclosure).1
      have hchange := Counting.sum_change
        (f := fun i : Fin (closures nodeId dag plan).length =>
          (history nodeId dag plan labels i).countP ClosureEvent.isFallback)
        (g := fun i : Fin (closures nodeId dag plan).length =>
          (history nodeId dag plan (labels ++ [.closure w event]) i).countP
            ClosureEvent.isFallback) ⟨j, hj⟩ (by
          intro i hi
          rw [history_concat _ hrun hstep, closureEvent_of_worker hworker,
            if_neg (fun h => hi (Fin.ext h.symm)), Option.toList_none, List.append_nil])
      simp only [history_concat j hrun hstep, closureEvent_of_worker hworker, if_true,
        Option.toList_some, List.countP_append, List.countP_singleton] at hchange
      rw [advance_fallbacks, ih]
      cases hfallback : event.isFallback with
      | true =>
        rw [hfallback] at hchange
        simp only [if_true, Bool.toNat_true] at hchange ⊢
        omega
      | false =>
        rw [hfallback] at hchange
        simp only [Bool.false_eq_true, if_false, Bool.toNat_false] at hchange ⊢
        omega

end History

/-! ## What the caller reads -/

section Caller

variable {ω : Type*} {planSize capacity : Nat} {cs : List Closure} {s t : Submission ω}

/-- The result that the counters stand for. -/
def outcome (cs : List Closure) (s : Submission ω) : OrchestrationResult where
  localTasks := cs.countP isLocal
  offloadedTasks := cs.countP (fun c => !isLocal c)
  completedTasks := s.completed
  failedTasks := s.failed
  offloadFallbacks := s.fallbacks

/-- What the caller has read is what the counters say. -/
def Read (cs : List Closure) (s : Submission ω) : CallerPhase → Prop
  | .collectFailed completed => completed = s.completed
  | .collectFallbacks completed failed => completed = s.completed ∧ failed = s.failed
  | .returning result => result = outcome cs s
  | .returned result => result = outcome cs s
  | _ => True

theorem Read.congr {phase : CallerPhase} (hcompleted : t.completed = s.completed)
    (hfailed : t.failed = s.failed) (hfallbacks : t.fallbacks = s.fallbacks)
    (h : Read cs s phase) : Read cs t phase := by
  cases phase <;> simp_all [Read, outcome]

/-- The deadline of a caller that waits. -/
def waitsUntil : CallerPhase → Option Nat
  | .loadCompleted deadline => some deadline
  | .loadFailed deadline _ => some deadline
  | .checkDeadline deadline => some deadline
  | _ => none

/-- The wait has ended because everything was counted. -/
structure Settled (planSize : Nat) (cs : List Closure) (s : Submission ω) : Prop where
  size : planSize = cs.length
  counted : ∀ i, i < cs.length → (s.progress i).isCounted = true
  read : Read cs s s.caller

/-- The wait ends at its deadline or with everything counted. -/
structure Collected (planSize : Nat) (cs : List Closure) (deadlines : List Nat)
    (s : Submission ω) : Prop where
  inv : SubmissionInv cs s
  completed : s.completed = ∑ i : Fin cs.length, (s.progress i).succeeded.toNat
  deadline : ∀ d, waitsUntil s.caller = some d → d ∈ deadlines
  settled : afterWait s.caller = true →
    (∃ d ∈ deadlines, d ≤ s.clock) ∨ Settled planSize cs s

theorem planned_collected (ω : Type*) (planSize : Nat) (cs : List Closure) :
    Collected planSize cs [] (planned ω) where
  inv := planned_submissionInv ω cs
  completed := by simp [planned]
  deadline := by
    intro d h
    cases h
  settled := by
    intro h
    cases h

/-- Two loads whose sum reaches the size of the plan: every decision has a closure,
and all of them have been counted. -/
theorem SubmissionInv.settled (hinv : SubmissionInv cs s) (hsize : cs.length ≤ planSize)
    {deadline completed : Nat} (hcaller : s.caller = .loadFailed deadline completed)
    (hsum : planSize ≤ completed + s.failed) :
    Settled planSize cs { s with caller := .collectCompleted } := by
  have hcounted := hinv.allCounted hsize hcaller hsum
  have hall : ∑ i : Fin cs.length, (s.progress i).isCounted.toNat = cs.length := by
    rw [Finset.sum_congr rfl (fun i _ => by rw [hcounted i i.2]), Finset.sum_const,
      Finset.card_univ, Fintype.card_fin]
    simp
  have hloaded := hinv.loaded deadline completed hcaller
  have hcounters := hinv.counters
  exact ⟨by omega, hcounted, trivial⟩

theorem Collected.move {deadlines : List Nat} {phase : CallerPhase}
    (hs : Collected planSize cs deadlines s) (hsize : cs.length ≤ planSize)
    (hmove : CallerMove planSize cs s phase) :
    Collected planSize cs (deadlines ++ (setsDeadline cs s .caller).toList)
      { s with caller := phase } := by
  have hlater : ∀ d, d ∈ deadlines → d ∈ deadlines ++ (setsDeadline cs s .caller).toList :=
    fun d hd => List.mem_append_left _ hd
  have hafter : afterWait s.caller = true → (Read cs s s.caller → Read cs s phase) →
      (∃ d ∈ deadlines ++ (setsDeadline cs s .caller).toList, d ≤ s.clock) ∨
        Settled planSize cs { s with caller := phase } := by
    intro hafter hread
    rcases hs.settled hafter with ⟨d, hd, hle⟩ | hsettled
    · exact Or.inl ⟨d, hlater d hd, hle⟩
    · exact Or.inr ⟨hsettled.size, hsettled.counted,
        (hread hsettled.read).congr rfl rfl rfl⟩
  refine ⟨hs.inv.move hmove, hs.completed, ?_, ?_⟩
  · intro d hd
    cases hmove with
    | endFanOut next h hlast =>
      have hset : setsDeadline cs s .caller = some (s.clock + waitLimit) := by
        simp only [setsDeadline, h]
        rw [if_neg (by omega)]
      cases hd
      rw [hset]
      exact List.mem_append_right _ (List.mem_singleton_self _)
    | loadCompleted deadline h =>
      cases hd
      exact hlater _ (hs.deadline _ (by rw [h]; rfl))
    | short deadline completed h hsum =>
      cases hd
      exact hlater _ (hs.deadline _ (by rw [h]; rfl))
    | again deadline h hclock =>
      cases hd
      exact hlater _ (hs.deadline _ (by rw [h]; rfl))
    | _ => cases hd
  · intro hwait
    cases hmove with
    | allCounted deadline completed h hsum => exact Or.inr (hs.inv.settled hsize h hsum)
    | timeout deadline h hclock =>
      exact Or.inl ⟨deadline, hlater _ (hs.deadline deadline (by rw [h]; rfl)), hclock⟩
    | collectCompleted h => exact hafter (by rw [h]; rfl) (fun _ => rfl)
    | collectFailed completed h =>
      refine hafter (by rw [h]; rfl) ?_
      intro hread
      rw [h] at hread
      exact ⟨hread, rfl⟩
    | collectFallbacks completed failed h =>
      refine hafter (by rw [h]; rfl) ?_
      intro hread
      rw [h] at hread
      rw [hread.1, hread.2]
      rfl
    | returnResult result h =>
      refine hafter (by rw [h]; rfl) ?_
      intro hread
      rw [h] at hread
      exact hread
    | _ => cases hwait

variable [DecidableEq ω]

theorem advance_clock (s : Submission ω) (w : ω) (i : Nat) (progress : Progress)
    (event : ClosureEvent) : (s.advance w i progress event).clock = s.clock :=
  rfl

/-- `completed` grows with the closures that have succeeded. -/
theorem advance_completed {closure : Closure} {w : ω} {i : Nat} {progress : Progress}
    {event : ClosureEvent} (hprogress : closureStep closure (s.progress i) event = some progress) :
    (s.advance w i progress event).completed + (s.progress i).succeeded.toNat =
      s.completed + progress.succeeded.toNat := by
  have hcount : ∀ ok, (s.advance w i (.counted ok) .count).completed = s.completed + ok.toNat := by
    intro ok
    cases ok <;> rfl
  generalize s.progress i = before at hprogress ⊢
  unfold closureStep at hprogress
  split at hprogress
  · cases closure with
    | runLocal | offload =>
      cases hprogress
      rfl
  · cases closure with
    | runLocal => cases hprogress
    | offload =>
      cases hprogress
      rfl
  · split at hprogress
    · cases hprogress
      exact hcount _
    · cases hprogress
  · split at hprogress
    · cases hprogress
    · cases hprogress
      rfl
  · cases hprogress
    rfl
  · cases hprogress
    rfl
  · cases hprogress
    exact hcount _
  · cases hprogress
    rfl
  · cases hprogress

/-- A closure that has made its increment only leaves. -/
theorem event_of_isCounted {closure : Closure} {before after : Progress} {event : ClosureEvent}
    (hprogress : closureStep closure before event = some after)
    (hcounted : before.isCounted = true) : event = .leave := by
  cases before with
  | counted ok =>
    cases event with
    | leave => rfl
    | _ => cases hprogress
  | ended ok =>
    cases event with
    | _ => cases hprogress
  | _ => cases hcounted

theorem Collected.closure {deadlines : List Nat} {w : ω} {i : Nat} {closure : Closure}
    {event : ClosureEvent} {progress : Progress} (hs : Collected planSize cs deadlines s)
    (hworker : s.pool.worker w = some i) (hclosure : cs[i]? = some closure)
    (hprogress : closureStep closure (s.progress i) event = some progress) :
    Collected planSize cs deadlines (s.advance w i progress event) := by
  have hi : i < cs.length := (List.getElem?_eq_some_iff.1 hclosure).1
  refine ⟨hs.inv.closure hworker hprogress, ?_, ?_, ?_⟩
  · have hsum := Counting.sum_change
      (f := fun j : Fin cs.length => (s.progress j).succeeded.toNat)
      (g := fun j : Fin cs.length =>
        ((s.advance w i progress event).progress j).succeeded.toNat) ⟨i, hi⟩ (by
        intro j hj
        rw [advance_progress_of_ne s w i progress event (fun h => hj (Fin.ext h))])
    simp only [advance_progress_self] at hsum
    have hcompleted := hs.completed
    have hadvance := advance_completed (w := w) hprogress
    omega
  · rw [advance_caller]
    exact hs.deadline
  · intro hafter
    rw [advance_caller] at hafter
    rw [advance_clock]
    refine (hs.settled hafter).imp_right ?_
    intro hsettled
    obtain rfl := event_of_isCounted hprogress (hsettled.counted i hi)
    refine ⟨hsettled.size, ?_, ?_⟩
    · intro j hj
      exact isCounted_advance hprogress (hsettled.counted j hj)
    · rw [advance_caller]
      exact hsettled.read.congr rfl rfl rfl

theorem Collected.step {deadlines : List Nat} {label : Label ω}
    (hs : Collected planSize cs deadlines s) (hsize : cs.length ≤ planSize)
    (hstep : step planSize capacity cs s label = some t) :
    Collected planSize cs (deadlines ++ (setsDeadline cs s label).toList) t := by
  have hnext := hs.inv.step hstep
  cases step_cases hstep with
  | tick elapsed =>
    simp only [setsDeadline, Option.toList_none, List.append_nil]
    refine ⟨hnext, hs.completed, hs.deadline, ?_⟩
    intro hafter
    rcases hs.settled hafter with ⟨d, hd, hle⟩ | hsettled
    · exact Or.inl ⟨d, hd, Nat.le_add_right_of_le hle⟩
    · exact Or.inr ⟨hsettled.size, hsettled.counted, hsettled.read.congr rfl rfl rfl⟩
  | submit next pool h hnext' hpool =>
    refine ⟨hnext, hs.completed, ?_, ?_⟩
    · intro d hd
      cases hd
    · intro hafter
      cases hafter
  | move phase h => exact hs.move hsize h
  | take w pool hpool =>
    simp only [setsDeadline, Option.toList_none, List.append_nil]
    refine ⟨hnext, hs.completed, hs.deadline, ?_⟩
    intro hafter
    refine (hs.settled hafter).imp_right ?_
    intro hsettled
    exact ⟨hsettled.size, hsettled.counted, hsettled.read.congr rfl rfl rfl⟩
  | closure w i closure event progress hworker hclosure hprogress =>
    simp only [setsDeadline, Option.toList_none, List.append_nil]
    exact hs.closure hworker hclosure hprogress

/-- What never goes back: the clock, the increments, and the end of the wait. -/
theorem step_forward {label : Label ω} (hstep : step planSize capacity cs s label = some t) :
    s.clock ≤ t.clock ∧
      (∀ i, (s.progress i).isCounted = true → (t.progress i).isCounted = true) ∧
      (afterWait s.caller = true → afterWait t.caller = true) := by
  cases step_cases hstep with
  | tick elapsed => exact ⟨Nat.le_add_right _ _, fun _ h => h, fun h => h⟩
  | submit next pool h hnext hpool =>
    refine ⟨le_refl _, fun _ h => h, ?_⟩
    intro hafter
    rw [h] at hafter
    cases hafter
  | move phase h =>
    refine ⟨le_refl _, fun _ h => h, ?_⟩
    intro hafter
    cases h with
    | endFanOut next h hlast =>
      rw [h] at hafter
      cases hafter
    | loadCompleted deadline h =>
      rw [h] at hafter
      cases hafter
    | short deadline completed h hsum =>
      rw [h] at hafter
      cases hafter
    | again deadline h hclock =>
      rw [h] at hafter
      cases hafter
    | _ => rfl
  | take w pool hpool => exact ⟨le_refl _, fun _ h => h, fun h => h⟩
  | closure w i closure event progress hworker hclosure hprogress =>
    refine ⟨le_of_eq (advance_clock s w i progress event).symm, ?_, ?_⟩
    · intro j hj
      exact isCounted_advance hprogress hj
    · rw [advance_caller]
      exact fun h => h

end Caller

/-! ## The counters of the call -/

/-- When no decision was skipped, closure `i` is that of decision `i`. -/
theorem getElem?_closures {nodeId : NodeId} {dag : WorkloadDAG}
    {decisions : List SchedulingDecision}
    (h : (decisions.filterMap (closureOf nodeId dag)).length = decisions.length) (i : Nat) :
    (decisions.filterMap (closureOf nodeId dag))[i]? =
      (decisions[i]?).bind (closureOf nodeId dag) := by
  induction decisions generalizing i with
  | nil => rfl
  | cons decision rest ih =>
    have hle := List.length_filterMap_le (closureOf nodeId dag) rest
    cases hclosure : closureOf nodeId dag decision with
    | none =>
      rw [List.filterMap_cons_none hclosure, List.length_cons] at h
      omega
    | some closure =>
      rw [List.filterMap_cons_some hclosure, List.length_cons, List.length_cons,
        Nat.add_right_cancel_iff] at h
      rw [List.filterMap_cons_some hclosure]
      cases i with
      | zero => exact hclosure.symm
      | succ i => exact ih h i

/-- The call and its closures along a run. -/
theorem run_collected {ω : Type*} [DecidableEq ω] {nodeId : NodeId} {dag : WorkloadDAG}
    {plan : SchedulingPlan} {labels : List (Label ω)} {s : Submission ω}
    (hrun : (machine nodeId dag plan ω).run (machine nodeId dag plan ω).initial labels = some s) :
    Collected plan.decisions.length (closures nodeId dag plan) (deadlines nodeId dag plan labels)
      s := by
  refine StateMachine.run_induction (m := machine nodeId dag plan ω)
    (P := fun labels s => Collected plan.decisions.length (closures nodeId dag plan)
      (deadlines nodeId dag plan labels) s) (planned_collected ω _ _) ?_ hrun
  intro labels s label t hrun hs hstep
  rw [deadlines, StateMachine.collect_concat _ hrun hstep]
  exact hs.step (length_closures_le nodeId dag plan) hstep

/-- What a closure has done for its decision: one of the histories, with the closure
perhaps already left. -/
def Served (nodeId : NodeId) (dag : WorkloadDAG) (decision : SchedulingDecision)
    (events : List ClosureEvent) (ok : Bool) : Prop :=
  ∃ closure story, closureOf nodeId dag decision = some closure ∧ Story closure story ok ∧
    (events = story ∨ events = story ++ [.leave])

theorem Served.counts {nodeId : NodeId} {dag : WorkloadDAG} {decision : SchedulingDecision}
    {events : List ClosureEvent} {ok : Bool} (h : Served nodeId dag decision events ok) :
    events.countP ClosureEvent.isCount = 1 ∧
      events.countP ClosureEvent.isFallback = (tripFailed events).toNat := by
  rcases h with ⟨closure, story, -, hstory, hevents⟩
  have hcount : story.countP ClosureEvent.isCount = 1 := by
    cases hstory <;> rfl
  have hfallback := hstory.countP_isFallback
  rcases hevents with rfl | rfl
  · exact ⟨hcount, hfallback⟩
  · refine ⟨?_, ?_⟩
    · rw [List.countP_append, hcount]
      rfl
    · rw [List.countP_append, hfallback, tripFailed, tripFailed, List.any_append]
      simp [ClosureEvent.isFailedTrip, List.countP_nil]

theorem countP_isLocal (cs : List Closure) :
    cs.countP isLocal + cs.countP (fun c => !isLocal c) = cs.length := by
  induction cs with
  | nil => rfl
  | cons c rest ih =>
    rw [List.countP_cons, List.countP_cons, List.length_cons]
    cases isLocal c with
    | true =>
      simp only [if_true, Bool.not_true, Bool.false_eq_true, if_false]
      omega
    | false =>
      simp only [if_true, Bool.not_false, Bool.false_eq_true, if_false]
      omega

theorem toNat_add_toNat_not (b : Bool) : b.toNat + (!b).toNat = 1 := by
  cases b <;> rfl

/-- For every plan, every interleaving of the caller with the workers and every
outcome of the round trips and local runs: when the call returns before its
deadline, its counters add up to the number of decisions.  Every decision was served
by one closure with one increment; `completed` counts those whose task ended
completed here or was reported successful by the peer; and `fallbacks` counts the
decisions whose round trip failed, each of which then ran once here. -/
theorem submit_accounting {ω : Type*} [DecidableEq ω] (nodeId : NodeId) (dag : WorkloadDAG)
    (plan : SchedulingPlan) (labels : List (Label ω)) (s : Submission ω)
    (hrun : (machine nodeId dag plan ω).run (machine nodeId dag plan ω).initial labels = some s)
    (result : OrchestrationResult) (hreturned : s.caller = .returned result)
    (hdeadline : ∀ deadline ∈ deadlines nodeId dag plan labels, s.clock < deadline) :
    result.completedTasks + result.failedTasks = plan.decisions.length ∧
      result.localTasks + result.offloadedTasks = plan.decisions.length ∧
      ∃ ok : Fin plan.decisions.length → Bool,
        (∀ i : Fin plan.decisions.length,
          Served nodeId dag plan.decisions[i] (history nodeId dag plan labels i) (ok i) ∧
          (history nodeId dag plan labels i).countP ClosureEvent.isCount = 1) ∧
        result.completedTasks = ∑ i, (ok i).toNat ∧
        result.failedTasks = ∑ i, (!ok i).toNat ∧
        result.offloadFallbacks = ∑ i : Fin plan.decisions.length,
          (tripFailed (history nodeId dag plan labels i)).toNat := by
  have hs := run_collected hrun
  have hsettled : Settled plan.decisions.length (closures nodeId dag plan) s := by
    rcases hs.settled (by rw [hreturned]; rfl) with ⟨d, hd, hle⟩ | hsettled
    · have := hdeadline d hd
      omega
    · exact hsettled
  have hresult : result = outcome (closures nodeId dag plan) s := by
    have hread := hsettled.read
    rw [hreturned] at hread
    exact hread
  have hsize := hsettled.size
  have hserved : ∀ i : Fin plan.decisions.length,
      Served nodeId dag plan.decisions[i] (history nodeId dag plan labels i)
        (s.progress i).succeeded := by
    intro i
    have hi : (i : Nat) < (closures nodeId dag plan).length := by omega
    have hclosure : (closures nodeId dag plan)[(i : Nat)]? =
        closureOf nodeId dag plan.decisions[i] := by
      rw [closures, getElem?_closures hsize.symm, List.getElem?_eq_getElem i.2]
      rfl
    rw [List.getElem?_eq_getElem hi] at hclosure
    rcases story_of_run (run_history (List.getElem?_eq_getElem hi) hrun)
      (hsettled.counted i hi) with ⟨story, hstory, hevents⟩
    exact ⟨_, story, hclosure.symm, hstory, hevents⟩
  have hsum : ∀ f : Nat → Nat, ∑ i : Fin (closures nodeId dag plan).length, f i =
      ∑ i : Fin plan.decisions.length, f i := by
    intro f
    rw [hsize]
  have hcompleted : s.completed =
      ∑ i : Fin plan.decisions.length, (s.progress i).succeeded.toNat := by
    rw [hs.completed]
    exact hsum fun i => (s.progress i).succeeded.toNat
  have htotal : s.completed + s.failed = plan.decisions.length := by
    rw [hs.inv.counters, Finset.sum_congr rfl (fun i _ => by rw [hsettled.counted i i.2]),
      Finset.sum_const, Finset.card_univ, Fintype.card_fin, hsize]
    simp
  have hsplit : ∑ i : Fin plan.decisions.length, (s.progress i).succeeded.toNat +
      ∑ i : Fin plan.decisions.length, (!(s.progress i).succeeded).toNat =
        plan.decisions.length := by
    rw [← Finset.sum_add_distrib, Finset.sum_congr rfl (fun i _ => toNat_add_toNat_not _),
      Finset.sum_const, Finset.card_univ, Fintype.card_fin]
    simp
  have hfallbacks : s.fallbacks = ∑ i : Fin plan.decisions.length,
      (history nodeId dag plan labels i).countP ClosureEvent.isFallback := by
    rw [fallbacks_eq hrun]
    exact hsum fun i => (history nodeId dag plan labels i).countP ClosureEvent.isFallback
  rw [hresult]
  refine ⟨htotal, ?_, fun i => (s.progress i).succeeded,
    fun i => ⟨hserved i, (hserved i).counts.1⟩, hcompleted, ?_, ?_⟩
  · exact (countP_isLocal _).trans hsize.symm
  · show s.failed = ∑ i : Fin plan.decisions.length, (!(s.progress i).succeeded).toNat
    omega
  · show s.fallbacks = _
    rw [hfallbacks]
    exact Finset.sum_congr rfl fun i _ => (hserved i).counts.2

/-- Two tasks, the second planned on a peer. -/
def mixedDag : WorkloadDAG :=
  WorkloadDAG.build [.addTask { id := [97] }, .addTask { id := [98] }]

/-- One task is kept, the other one offloaded. -/
def mixedPlan : SchedulingPlan where
  decisions :=
    [{ taskId := [97], assignedNode := [115], reason := .localCapacity },
      { taskId := [98], assignedNode := [112], reason := .leastLoaded }]

/-- The first task fails here; the second falls back and completes here. -/
def mixedRun : List (Label (Fin 1)) :=
  [.caller, .caller, .caller, .take 0, .closure 0 .start, .closure 0 (.finish .failed),
    .closure 0 .count, .closure 0 .leave, .take 0, .closure 0 .start, .closure 0 (.reply lostPeer),
    .closure 0 .fallback, .closure 0 .start, .closure 0 (.finish .completed), .closure 0 .count,
    .caller, .caller, .caller, .caller, .caller, .caller]

def mixedEnd : Submission (Fin 1) :=
  ((machine [115] mixedDag mixedPlan (Fin 1)).run (planned (Fin 1)) mixedRun).getD
    (planned (Fin 1))

theorem submit_accounting_mixedRun :
    mixedEnd.caller = .returned ⟨1, 1, 1, 1, 1⟩ ∧
      ∃ ok : Fin 2 → Bool,
        (∀ i : Fin 2, Served [115] mixedDag mixedPlan.decisions[i]
          (history [115] mixedDag mixedPlan mixedRun i) (ok i)) ∧
        1 = ∑ i, (ok i).toNat := by
  have hreturned : mixedEnd.caller = .returned ⟨1, 1, 1, 1, 1⟩ := by
    decide +kernel
  have hrun : (machine [115] mixedDag mixedPlan (Fin 1)).run
      (machine [115] mixedDag mixedPlan (Fin 1)).initial mixedRun = some mixedEnd := rfl
  rcases submit_accounting [115] mixedDag mixedPlan mixedRun mixedEnd hrun _ hreturned
    (by decide +kernel) with ⟨-, -, ok, hserved, hcompleted, -, -⟩
  exact ⟨hreturned, ok, fun i => (hserved i).1, hcompleted⟩

end SubmitWorkload

end EdgeOrchestrator
