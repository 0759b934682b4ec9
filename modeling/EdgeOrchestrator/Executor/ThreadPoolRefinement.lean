import EdgeOrchestrator.Executor.MpmcQueueSafety
import EdgeOrchestrator.Executor.ThreadPool
import EdgeOrchestrator.Library.FifoPool

/-!
# The thread pool is a pool of workers behind a bounded queue

The lock-free pool and the abstract `FifoPool` are one thing seen at two levels.
A push takes effect when its compare-exchange claims a position, and so does a
pop; every other atomic step leaves the abstract pool alone.

Main results:

- `toFifo_step`: a step of the thread pool is a step of the abstract pool or changes nothing
  there.
- `reachable_toFifo`: every state of the thread pool is a state of the abstract pool.
- `exists_reachable_toFifo`: every run of the abstract pool is carried out by the thread pool.
-/

namespace EdgeOrchestrator

open Function (update update_eq_self update_idem update_of_ne update_self)

/-! ## The ring as a queue -/

namespace MpmcQueue

section Ring

variable {ι α : Type*}

/-- The values that no pop has claimed, oldest first. -/
def Queue.waiting (q : Queue ι α) : List α :=
  (q.pushLog.drop q.dequeuePos).map Prod.snd

/-- The value that a pop in the given phase has claimed. -/
def claimedValue (log : List (Nat × α)) : Phase α → Option α
  | .popRead pos => (log[pos]?).map Prod.snd
  | .popStore _ out => some out
  | .popDone out => out
  | _ => none

/-- The value that a thread has claimed and not yet returned. -/
def Queue.held (q : Queue ι α) (t : ι) : Option α :=
  claimedValue q.pushLog (q.phase t)

variable {size : RingSize} {q q' : Queue ι α}

/-- The log is indexed by position. -/
theorem RingInv.getElem?_pushLog (hinv : RingInv size q) {pos : Nat} {value : α}
    (h : (pos, value) ∈ q.pushLog) : q.pushLog[pos]? = some (pos, value) := by
  rcases List.mem_iff_getElem?.1 h with ⟨k, hk⟩
  have hpos : (q.pushLog.map Prod.fst)[k]? = some pos := by
    rw [List.getElem?_map, hk]
    rfl
  rw [hinv.positions] at hpos
  rcases List.getElem?_eq_some_iff.1 hpos with ⟨hlt, heq⟩
  rw [List.getElem_range] at heq
  rw [← heq]
  rw [← heq] at hk
  exact hk

/-- The distance of the counters counts the waiting tasks. -/
theorem RingInv.length_waiting (hinv : RingInv size q) :
    q.waiting.length = q.enqueuePos - q.dequeuePos := by
  rw [Queue.waiting, List.length_map, List.length_drop, hinv.enqueuePos_eq]

/-- The comparison in a push claims nothing. -/
theorem claimedValue_pushBranch (log : List (Nat × α)) (value : α) (pos sequence : Nat) :
    claimedValue log (Queue.pushBranch value pos sequence) = none := by
  unfold Queue.pushBranch
  simp only
  split
  · rfl
  · split
    · rfl
    · rfl

/-- The comparison in a pop claims nothing. -/
theorem claimedValue_popBranch (log : List (Nat × α)) (pos sequence : Nat) :
    claimedValue log (Queue.popBranch pos sequence) = none := by
  unfold Queue.popBranch
  simp only
  split
  · rfl
  · split
    · rfl
    · rfl

/-- A longer log gives a claimed position the same value. -/
theorem RingInv.claimedValue_append (hinv : RingInv size q) (t : ι) (e : Nat × α) :
    claimedValue (q.pushLog ++ [e]) (q.phase t) = q.held t := by
  rw [Queue.held]
  cases hphase : q.phase t with
  | popRead pos =>
    have hread := hinv.reading (t := t) (p := pos) (by rw [hphase]; rfl)
    have hupper := hread.upper
    have horder := hinv.order
    have hlength := hinv.enqueuePos_eq
    simp only [claimedValue]
    rw [List.getElem?_append_left (by omega)]
  | _ => rfl

/-- What one atomic step of thread `t` does to the queue. -/
inductive Effect (size : RingSize) (q : Queue ι α) (t : ι) (q' : Queue ι α) : Prop
  | quiet (hlog : q'.pushLog = q.pushLog) (hwaiting : q'.waiting = q.waiting)
      (hheld : ∀ u, q'.held u = q.held u)
  | push (value : α) (hphase : q.phase t = .pushCas value q.enqueuePos)
      (hlog : q'.pushLog.length = q.pushLog.length + 1) (hroom : q.waiting.length < size.capacity)
      (hwaiting : q'.waiting = q.waiting ++ [value]) (hheld : ∀ u, q'.held u = q.held u)
  | pop (value : α) (hphase : ThreadPool.inPop (q.phase t) = true) (hnone : q.held t = none)
      (hwaiting : q.waiting = value :: q'.waiting) (hself : q'.held t = some value)
      (hheld : ∀ u, u ≠ t → q'.held u = q.held u)

variable [DecidableEq ι] {t : ι}

/-- A step that moves the thread between two phases that stand for the same
value. -/
theorem Effect.of_phase {before after : Phase α} (hbefore : q.phase t = before)
    (hpos : q'.dequeuePos = q.dequeuePos) (hlog : q'.pushLog = q.pushLog)
    (hphase : q'.phase = update q.phase t after)
    (hvalue : claimedValue q.pushLog after = claimedValue q.pushLog before) :
    Effect size q t q' := by
  apply Effect.quiet hlog
  · rw [Queue.waiting, Queue.waiting, hpos, hlog]
  · intro u
    rw [Queue.held, Queue.held, hlog, hphase]
    by_cases hu : u = t
    · rw [hu, update_self, hbefore, hvalue]
    · rw [update_of_ne hu]

/-- A push takes effect when it claims its position. -/
theorem RingInv.claimPush_effect (hinv : RingInv size q) {value : α}
    (h : q.phase t = .pushCas value q.enqueuePos) :
    Effect size q t (q.claimPush t value q.enqueuePos) := by
  have hthread := hinv.threads t
  rw [h] at hthread
  have hroom := (hthread.2 rfl).1
  have horder := hinv.order
  have hlength := hinv.enqueuePos_eq
  apply Effect.push value h
  · exact List.length_append
  · rw [hinv.length_waiting]
    omega
  · simp only [Queue.waiting, Queue.claimPush]
    rw [List.drop_append_of_le_length (by omega), List.map_append]
    rfl
  · intro u
    by_cases hu : u = t
    · simp only [Queue.held, Queue.claimPush, hu, update_self, h, claimedValue]
    · simp only [Queue.held, Queue.claimPush, update_of_ne hu]
      exact hinv.claimedValue_append u _

/-- A pop takes effect when it claims its position. -/
theorem RingInv.claimPop_effect (hinv : RingInv size q)
    (h : q.phase t = .popCas q.dequeuePos) :
    Effect size q t (q.claimPop t q.dequeuePos) := by
  have hthread := hinv.threads t
  rw [h] at hthread
  have hlt := (hthread.2 rfl).1
  have hsmall := hinv.small
  have hget : q.dequeuePos < q.pushLog.length := by
    rw [← hinv.enqueuePos_eq]
    exact hlt
  have hnext : (q.dequeuePos + 1) % 2 ^ 64 = q.dequeuePos + 1 := Nat.mod_eq_of_lt (by omega)
  apply Effect.pop q.pushLog[q.dequeuePos].2
  · rw [h]
    rfl
  · rw [Queue.held, h]
    rfl
  · simp only [Queue.waiting, Queue.claimPop, hnext]
    rw [List.drop_eq_getElem_cons hget, List.map_cons]
  · simp only [Queue.held, Queue.claimPop, update_self, claimedValue]
    rw [List.getElem?_eq_getElem hget]
    rfl
  · intro u hu
    simp only [Queue.held, Queue.claimPop, update_of_ne hu]

/-- The effect of every step of a call except the return. -/
theorem RingInv.step_effect {act : Act α} (hinv : RingInv size q) (hact : act ≠ .leave)
    (hstep : q.step size t act = some q') : Effect size q t q' := by
  cases Queue.step_cases hstep with
  | callPush value h | callPop h | pushLoad value h | pushReload value pos h hpos
  | pushSpurious value pos h | writeCell value pos h | publish pos h | popLoad h
  | popReload pos h hpos | popSpurious pos h | recycle pos out h =>
    exact .of_phase h rfl rfl rfl rfl
  | pushSeq value pos h =>
    exact .of_phase h rfl rfl rfl (claimedValue_pushBranch q.pushLog value pos _)
  | claimPush value pos h hpos =>
    subst hpos
    exact hinv.claimPush_effect h
  | leavePush ok left h | leavePop out h => exact absurd rfl hact
  | popSeq pos h =>
    exact .of_phase h rfl rfl rfl (claimedValue_popBranch q.pushLog pos _)
  | claimPop pos h hpos =>
    subst hpos
    exact hinv.claimPop_effect h
  | takeValue pos residue h =>
    have hthread := hinv.threads t
    rw [h] at hthread
    refine .of_phase h rfl rfl rfl ?_
    simp only [claimedValue, hinv.getElem?_pushLog hthread.2.1, Option.map_some]

/-- The value that a push has brought and not yet claimed a position for. -/
def Phase.offers : Phase α → Option α
  | .pushLoad value => some value
  | .pushSeq value _ => some value
  | .pushCas value _ => some value
  | _ => none

omit [DecidableEq ι] in
/-- A push goes on offering its own value. -/
theorem pushBranch_offers {value v : α} {pos sequence : Nat}
    (h : (Queue.pushBranch value pos sequence).offers = some v) : v = value := by
  unfold Queue.pushBranch at h
  simp only at h
  split at h
  · cases h
    rfl
  · split at h
    · cases h
    · cases h
      rfl

omit [DecidableEq ι] in
/-- A pop offers nothing. -/
theorem popBranch_offers (pos sequence : Nat) :
    (Queue.popBranch pos sequence : Phase α).offers = none := by
  unfold Queue.popBranch
  simp only
  split
  · rfl
  · split
    · rfl
    · rfl

/-- A step inside a call does not change the value that is offered. -/
theorem offers_of_step {act : Act α} (hact : isInner act = true)
    (hstep : q.step size t act = some q') {value : α}
    (hoffers : (q'.phase t).offers = some value) : (q.phase t).offers = some value := by
  have hself : ∀ ph : Phase α, q'.phase = update q.phase t ph →
      ph.offers = some value := by
    intro ph hph
    rw [hph, update_self] at hoffers
    exact hoffers
  cases Queue.step_cases hstep with
  | callPush v h | callPop h | leavePush ok left h | leavePop out h => cases hact
  | pushLoad v h | pushReload v pos h hpos | pushSpurious v pos h =>
    rw [h]
    exact hself (.pushSeq v q.enqueuePos) rfl
  | pushSeq v pos h =>
    rw [h, pushBranch_offers (hself _ rfl)]
    rfl
  | popSeq pos h =>
    have hnone := hself _ rfl
    rw [popBranch_offers] at hnone
    cases hnone
  | claimPush v pos h hpos | writeCell v pos h | publish pos h | popLoad h | claimPop pos h hpos
  | popReload pos h hpos | popSpurious pos h | takeValue pos residue h | recycle pos out h =>
    cases hself _ rfl

end Ring

/-! ## Complete calls on a ring at rest -/

section Calls

variable {ι α : Type*} {size : RingSize} {q : Queue ι α} {t : ι}

/-- With every thread idle, the cell at the enqueue position is free. -/
theorem RingInv.sequence_enqueuePos (hinv : RingInv size q) (hidle : ∀ u, q.phase u = .idle)
    (hroom : q.enqueuePos < q.dequeuePos + size.capacity) :
    q.sequence (size.index q.enqueuePos) = q.enqueuePos := by
  rcases hinv.vacant q.enqueuePos (le_refl _) hroom with hfree | ⟨-, -, u, hu⟩
  · rw [hfree, Nat.mod_eq_of_lt hinv.small]
  · rw [hidle u] at hu
    cases hu

/-- With every thread idle, the cell at the dequeue position is published. -/
theorem RingInv.sequence_dequeuePos (hinv : RingInv size q) (hidle : ∀ u, q.phase u = .idle)
    (hlt : q.dequeuePos < q.enqueuePos) :
    q.sequence (size.index q.dequeuePos) = q.dequeuePos + 1 ∧
      (q.dequeuePos, q.value (size.index q.dequeuePos)) ∈ q.pushLog := by
  rcases hinv.occupied q.dequeuePos (le_refl _) hlt with ⟨-, u, hu⟩ | ⟨hseq, hlogged, -⟩
  · rw [hidle u] at hu
    cases hu
  · exact ⟨hseq, hlogged⟩

theorem signedDiff_self (n : Nat) : signedDiff n n = 0 := by
  simp [signedDiff]

variable [DecidableEq ι]

/-- A call that has been left leaves the phases as they were. -/
theorem phase_leave {q' : Queue ι α} {phase : Phase α}
    (hphase : q'.phase = update q.phase t phase) (hidle : q.phase t = .idle) :
    (q'.setPhase t .idle).phase = q.phase := by
  funext u
  simp only [Queue.setPhase, hphase, update_idem]
  by_cases hu : u = t
  · rw [hu, update_self, hidle]
  · rw [update_of_ne hu]

variable [Inhabited α]

/-- The steps of one thread. -/
def steps (t : ι) (acts : List (Act α)) : List (ι × Act α) :=
  acts.map fun act => (t, act)

theorem run_steps_cons {q' : Queue ι α} {act : Act α} (h : q.step size t act = some q')
    (acts : List (Act α)) :
    (machine size ι α).run q (steps t (act :: acts)) =
      (machine size ι α).run q' (steps t acts) := by
  rw [steps, List.map_cons, StateMachine.run_cons]
  exact congrArg (·.bind fun q' => (machine size ι α).run q' (steps t acts)) h

/-- A push on a ring with room: load, compare, claim, write, publish. -/
def pushActs : List (Act α) :=
  [.next, .next, .next, .next, .next]

/-- A pop on a ring that is not empty: load, compare, claim, move out, recycle. -/
def popActs : List (Act α) :=
  [.next, .next, .next, .take default, .next]

/-- What a whole `try_push` has done. -/
structure Queue.Pushed (size : RingSize) (q : Queue ι α) (value : α) (q' : Queue ι α) : Prop where
  enqueuePos : q'.enqueuePos = (q.enqueuePos + 1) % 2 ^ 64
  dequeuePos : q'.dequeuePos = q.dequeuePos
  sequence : q'.sequence =
    update q.sequence (size.index q.enqueuePos) ((q.enqueuePos + 1) % 2 ^ 64)
  pushLog : q'.pushLog = q.pushLog ++ [(q.enqueuePos, value)]

/-- What a whole `try_pop` has done. -/
structure Queue.Popped (size : RingSize) (q : Queue ι α) (q' : Queue ι α) : Prop where
  enqueuePos : q'.enqueuePos = q.enqueuePos
  dequeuePos : q'.dequeuePos = (q.dequeuePos + 1) % 2 ^ 64
  sequence : q'.sequence =
    update q.sequence (size.index q.dequeuePos) ((q.dequeuePos + size.capacity) % 2 ^ 64)
  pushLog : q'.pushLog = q.pushLog

/-- A push that nobody disturbs, on a free cell. -/
theorem run_push (hfree : q.sequence (size.index q.enqueuePos) = q.enqueuePos) (value : α) :
    ∃ q', (machine size ι α).run (q.setPhase t (.pushLoad value)) (steps t pushActs) = some q' ∧
      q'.phase = update q.phase t (.pushDone true none) ∧ q.Pushed size value q' := by
  have hbranch : Queue.pushBranch value q.enqueuePos (q.sequence (size.index q.enqueuePos)) =
      .pushCas value q.enqueuePos := by
    rw [hfree, Queue.pushBranch, signedDiff_self]
    rfl
  have hseq : (q.setPhase t (.pushSeq value q.enqueuePos)).step size t .next =
      some (q.setPhase t (.pushCas value q.enqueuePos)) := by
    rw [Queue.step_pushSeq, hbranch]
  refine ⟨((q.claimPush t value q.enqueuePos).writeCell size t value q.enqueuePos).publish
    size t q.enqueuePos, ?_, ?_, ⟨rfl, rfl, rfl, rfl⟩⟩
  · rw [pushActs, run_steps_cons (Queue.step_pushLoad size q t value), run_steps_cons hseq,
      run_steps_cons (Queue.step_pushCas size q t value),
      run_steps_cons (Queue.step_pushWrite size q t value _),
      run_steps_cons (Queue.step_pushStore size _ t value _)]
    rfl
  · simp [Queue.publish, Queue.writeCell, Queue.claimPush]

/-- A pop that nobody disturbs, of a published cell. -/
theorem run_pop
    (hpublished : q.sequence (size.index q.dequeuePos) = (q.dequeuePos + 1) % 2 ^ 64) :
    ∃ q', (machine size ι α).run (q.setPhase t .popLoad) (steps t popActs) = some q' ∧
      q'.phase = update q.phase t
        (.popDone (some (q.value (size.index q.dequeuePos)))) ∧ q.Popped size q' := by
  have hbranch : (Queue.popBranch q.dequeuePos (q.sequence (size.index q.dequeuePos)) : Phase α) =
      .popCas q.dequeuePos := by
    rw [hpublished, Queue.popBranch, signedDiff_self]
    rfl
  have hseq : (q.setPhase t (.popSeq q.dequeuePos)).step size t .next =
      some (q.setPhase t (.popCas q.dequeuePos)) := by
    rw [Queue.step_popSeq, hbranch]
  refine ⟨((q.claimPop t q.dequeuePos).takeValue size t q.dequeuePos default).recycle size t
    q.dequeuePos (q.value (size.index q.dequeuePos)), ?_, ?_, ⟨rfl, rfl, rfl, rfl⟩⟩
  · rw [popActs, run_steps_cons (Queue.step_popLoad size q t), run_steps_cons hseq,
      run_steps_cons (Queue.step_popCas size q t),
      run_steps_cons (Queue.step_popRead size q t _ default),
      run_steps_cons (Queue.step_popStore size _ t _ default)]
    rfl
  · simp [Queue.recycle, Queue.takeValue, Queue.claimPop]

end Calls

end MpmcQueue

/-! ## The pool as a pool -/

namespace ThreadPool

open MpmcQueue

section Refinement

variable {π ω τ : Type*}

/-- The task a worker runs, or has claimed in order to run it. -/
def holding (s : Pool π ω τ) (w : ω) : Option τ :=
  match s.worker w with
  | .running task => some task
  | _ => s.queue.held (.inr w)

/-- The abstract pool: what is waiting, and what each worker holds. -/
def toFifo (s : Pool π ω τ) : FifoPool ω τ where
  queue := s.queue.waiting
  worker := holding s

variable {size : RingSize} {s t : Pool π ω τ}

theorem inPop_of_inPush {phase : Phase τ} (h : inPush phase = true) : inPop phase = false := by
  cases phase <;> first | rfl | cases h

theorem inPush_of_inPop {phase : Phase τ} (h : inPop phase = true) : inPush phase = false := by
  cases phase <;> first | rfl | cases h

theorem holding_congr {w : ω} (hcontrol : t.worker w = s.worker w)
    (hheld : t.queue.held (.inr w) = s.queue.held (.inr w)) : holding t w = holding s w := by
  rw [holding, holding, hcontrol, hheld]

theorem holding_of_running {w : ω} (task : τ) (h : s.worker w = .running task) :
    holding s w = some task := by
  rw [holding, h]

theorem holding_eq_held {w : ω} (h : ∀ task, s.worker w ≠ .running task) :
    holding s w = s.queue.held (.inr w) := by
  unfold holding
  split
  · rename_i task hcontrol
    exact absurd hcontrol (h task)
  · rfl

theorem toFifo_congr (hwaiting : t.queue.waiting = s.queue.waiting)
    (hholding : ∀ w, holding t w = holding s w) : toFifo t = toFifo s := by
  have hworker : holding t = holding s := funext hholding
  rw [toFifo, toFifo, hwaiting, hworker]

/-- A task more in the ring is a task more in the abstract pool. -/
theorem toFifo_submit {task : τ} (hroom : s.queue.waiting.length < size.capacity)
    (hwaiting : t.queue.waiting = s.queue.waiting ++ [task])
    (hholding : ∀ w, holding t w = holding s w) :
    (toFifo s).submit size.capacity task = some (toFifo t) := by
  have hworker : holding t = holding s := funext hholding
  rw [FifoPool.submit, if_pos (show (toFifo s).queue.length < _ from hroom)]
  simp only [toFifo, hwaiting, hworker]

/-- What a producer's step does to the abstract pool. -/
theorem toFifo_producer {p : π} (heffect : Effect size s.queue (.inl p) t.queue)
    (hphase : inPop (s.queue.phase (.inl p)) = false) (hworker : t.worker = s.worker) :
    toFifo t = toFifo s ∨ ∃ task, (toFifo s).submit size.capacity task = some (toFifo t) := by
  have hholding : (∀ u, t.queue.held u = s.queue.held u) → ∀ w, holding t w = holding s w := by
    intro hheld w
    exact holding_congr (congrFun hworker w) (hheld _)
  cases heffect with
  | quiet _ hwaiting hheld => exact Or.inl (toFifo_congr hwaiting (hholding hheld))
  | push value _ _ hroom hwaiting hheld =>
    exact Or.inr ⟨value, toFifo_submit hroom hwaiting (hholding hheld)⟩
  | pop value hpop _ _ _ _ =>
    rw [hphase] at hpop
    cases hpop

variable [DecidableEq ω]

/-- What a worker's step inside the queue does to the abstract pool. -/
theorem toFifo_worker {w : ω} (heffect : Effect size s.queue (.inr w) t.queue)
    (hphase : inPush (s.queue.phase (.inr w)) = false)
    (hothers : ∀ v, v ≠ w → t.worker v = s.worker v)
    (hs : ∀ task, s.worker w ≠ .running task) (ht : ∀ task, t.worker w ≠ .running task) :
    toFifo t = toFifo s ∨ (toFifo s).take w = some (toFifo t) := by
  cases heffect with
  | quiet _ hwaiting hheld =>
    refine Or.inl (toFifo_congr hwaiting ?_)
    intro v
    by_cases hv : v = w
    · rw [hv, holding_eq_held hs, holding_eq_held ht, hheld]
    · exact holding_congr (hothers v hv) (hheld _)
  | push value hpush _ _ _ _ =>
    rw [hpush] at hphase
    cases hphase
  | pop value _ hnone hwaiting hself hheld =>
    right
    have hidle : (toFifo s).worker w = none := (holding_eq_held hs).trans hnone
    have hhead : (toFifo s).queue = value :: t.queue.waiting := hwaiting
    have hworker : holding t = update (holding s) w (some value) := by
      funext v
      by_cases hv : v = w
      · rw [hv, update_self, holding_eq_held ht, hself]
      · rw [update_of_ne hv]
        exact holding_congr (hothers v hv) (hheld _ (by simpa using hv))
    simp only [FifoPool.take, hidle, hhead]
    simp only [toFifo, hworker]

/-- A worker that is done with its task gives it up. -/
theorem toFifo_finish {w : ω} (hphase : s.queue.phase (.inr w) = .idle) :
    toFifo (setWorker w .acquiring s) = (toFifo s).release w := by
  have hworker : holding (setWorker w .acquiring s) = update (holding s) w none := by
    funext v
    by_cases hv : v = w
    · rw [hv, update_self, holding_eq_held (by simp [setWorker])]
      simp only [setWorker, Queue.held, hphase]
      rfl
    · rw [update_of_ne hv]
      refine holding_congr ?_ ?_
      · exact update_of_ne hv _ _
      · rfl
  simp only [toFifo, FifoPool.release, hworker]
  rfl

variable [DecidableEq π]

/-- Calling or leaving the queue is not seen in the abstract pool. -/
theorem toFifo_setProducer (p : π) (control : ProducerPhase τ) (phase : Phase τ) :
    toFifo (setProducer p control { s with queue := s.queue.setPhase (.inl p) phase }) =
      toFifo s := by
  refine toFifo_congr (by rfl) ?_
  intro w
  refine holding_congr (by rfl) ?_
  simp [Queue.held, Queue.setPhase, setProducer]

/-- A producer's step is silent or submits one task. -/
theorem producerStep_toFifo {p : π} {event : ProducerEvent τ} (hring : RingInv size s.queue)
    (hs : Consistent s) (hstep : producerStep size s p event = some t) :
    toFifo t = toFifo s ∨ ∃ task, (toFifo s).submit size.capacity task = some (toFifo t) := by
  have hok := hs.producers p
  cases producerStep_cases hstep with
  | enqueue task queue hcontrol hqueue | retry task queue hcontrol hqueue =>
    rw [hcontrol] at hok
    exact toFifo_producer (hring.step_effect (by simp) hqueue) (by rw [hok]; rfl) rfl
  | push act task queue hcontrol hact hqueue =>
    rw [hcontrol] at hok
    refine toFifo_producer (hring.step_effect ?_ hqueue) (inPop_of_inPush hok) rfl
    rintro rfl
    cases hact
  | pushed task ok left hcontrol hphase =>
    exact toFifo_producer (.of_phase hphase rfl rfl rfl rfl) (by rw [hphase]; rfl) rfl
  | release hcontrol => exact Or.inl rfl

/-- Finishing gives the task up; every other step of a worker takes the head or
changes nothing. -/
theorem workerStep_toFifo_event {w : ω} {event : WorkerEvent τ} (hring : RingInv size s.queue)
    (hs : Consistent s) (hstep : workerStep size s w event = some t) :
    (event = .finish ∧ (∃ task, s.worker w = .running task) ∧
        toFifo t = (toFifo s).release w) ∨
      (event ≠ .finish ∧ (toFifo t = toFifo s ∨ (toFifo s).take w = some (toFifo t))) := by
  have hok := hs.workers w
  have honly := workerStep_only hs hstep
  cases workerStep_cases hstep with
  | acquire queue hcontrol hpermits hqueue =>
    rw [hcontrol] at hok
    have heffect := hring.step_effect (by simp) hqueue
    exact Or.inr ⟨by simp, toFifo_worker heffect (by rw [hok]; rfl) honly.control
      (by simp [hcontrol]) (by simp [setWorker])⟩
  | pop act queue hcontrol hact hqueue =>
    rw [hcontrol] at hok
    have hleave : act ≠ .leave := by
      rintro rfl
      cases hact
    have heffect := hring.step_effect hleave hqueue
    exact Or.inr ⟨by simp, toFifo_worker heffect (inPush_of_inPop hok) honly.control
      (by simp [hcontrol]) (by simp [hcontrol])⟩
  | popped task hcontrol hphase =>
    refine Or.inr ⟨by simp, Or.inl (toFifo_congr (by rfl) ?_)⟩
    intro v
    by_cases hv : v = w
    · rw [hv, holding_of_running task (by simp [setWorker]),
        holding_eq_held (by simp [hcontrol]), Queue.held, hphase]
      rfl
    · apply holding_congr (honly.control v hv)
      rw [Queue.held, Queue.held, honly.phases _ (by simpa using hv)]
      rfl
  | failed hcontrol hphase =>
    have heffect : Effect size s.queue (.inr w) (s.queue.setPhase (.inr w) .idle) :=
      .of_phase hphase rfl rfl rfl rfl
    exact Or.inr ⟨by simp, toFifo_worker heffect (by rw [hphase]; rfl) honly.control
      (by simp [hcontrol]) (by simp [setWorker])⟩
  | finish task hcontrol =>
    rw [hcontrol] at hok
    exact Or.inl ⟨rfl, ⟨task, hcontrol⟩, toFifo_finish hok⟩
  | checkStop hcontrol =>
    refine Or.inr ⟨by simp, Or.inl (toFifo_congr (by rfl) ?_)⟩
    intro v
    by_cases hv : v = w
    · rw [hv, holding_eq_held (s := s) (by simp [hcontrol]), holding_eq_held]
      · rfl
      · simp only [setWorker, update_self]
        split <;> simp
    · exact holding_congr (honly.control v hv) rfl

/-- A worker's step is silent, takes a task or ends one. -/
theorem workerStep_toFifo {w : ω} {event : WorkerEvent τ} (hring : RingInv size s.queue)
    (hs : Consistent s) (hstep : workerStep size s w event = some t) :
    toFifo t = toFifo s ∨ (toFifo s).take w = some (toFifo t) ∨
      ((toFifo s).worker w).isSome = true ∧ toFifo t = (toFifo s).release w := by
  rcases workerStep_toFifo_event hring hs hstep with
    ⟨-, ⟨task, hcontrol⟩, hrelease⟩ | ⟨-, hsame | htake⟩
  · refine Or.inr (Or.inr ⟨?_, hrelease⟩)
    show (holding s w).isSome = true
    rw [holding_of_running task hcontrol]
    rfl
  · exact Or.inl hsame
  · exact Or.inr (Or.inl htake)

variable [Fintype ω] {label : Label π ω τ}

/-- A step of the thread pool is a step of the abstract pool or changes nothing
there. -/
theorem toFifo_step (hring : RingInv size s.queue) (hs : Consistent s)
    (hstep : step size s label = some t) :
    toFifo t = toFifo s ∨
      ∃ action, FifoPool.step size.capacity (toFifo s) action = some (toFifo t) := by
  cases label with
  | producer p event =>
    rcases producerStep_toFifo hring hs hstep with hsame | ⟨task, hsubmit⟩
    · exact Or.inl hsame
    · exact Or.inr ⟨.submit task, hsubmit⟩
  | worker w event =>
    rcases workerStep_toFifo hring hs hstep with hsame | htake | ⟨hsome, hrelease⟩
    · exact Or.inl hsame
    · exact Or.inr ⟨.take w, htake⟩
    · refine Or.inr ⟨.finish w, ?_⟩
      rw [FifoPool.step, if_pos hsome, hrelease]
  | destructor event =>
    rcases destructorStep_frame hstep with ⟨hqueue, -, hworker⟩
    left
    apply toFifo_congr (by rw [hqueue])
    intro w
    exact holding_congr (congrFun hworker w) (by rw [hqueue])

/-- A step of the thread pool is at most one step of its queue. -/
theorem step_queue (hstep : step size s label = some t) :
    t.queue = s.queue ∨ ∃ u act, s.queue.step size u act = some t.queue := by
  cases label with
  | producer p event =>
    cases producerStep_cases hstep with
    | enqueue task queue hcontrol hqueue | push act task queue hcontrol hact hqueue
    | retry task queue hcontrol hqueue => exact Or.inr ⟨_, _, hqueue⟩
    | pushed task ok left hcontrol hphase => exact Or.inr ⟨_, _, Queue.step_leave_push hphase⟩
    | release hcontrol => exact Or.inl rfl
  | worker w event =>
    cases workerStep_cases hstep with
    | acquire queue hcontrol hpermits hqueue | pop act queue hcontrol hact hqueue =>
      exact Or.inr ⟨_, _, hqueue⟩
    | popped task hcontrol hphase | failed hcontrol hphase =>
      exact Or.inr ⟨_, _, Queue.step_leave_pop hphase⟩
    | finish task hcontrol | checkStop hcontrol => exact Or.inl rfl
  | destructor event => exact Or.inl (destructorStep_frame hstep).1

theorem pushLog_length_le_of_step (hstep : step size s label = some t) :
    s.queue.pushLog.length ≤ t.queue.pushLog.length := by
  rcases step_queue hstep with hsame | ⟨u, act, hqueue⟩
  · rw [hsame]
  · exact pushLog_length_le hqueue

/-- Every step keeps the ring's invariant. -/
theorem ringInv_step (hring : RingInv size s.queue) (hsmall : t.queue.pushLog.length < 2 ^ 64)
    (hstep : step size s label = some t) :
    RingInv size t.queue := by
  rcases step_queue hstep with hsame | ⟨u, act, hqueue⟩
  · rw [hsame]
    exact hring
  · exact hring.step hsmall hqueue

/-- Every step leaves each thread where its call is. -/
theorem Consistent.step (hs : Consistent s) (hstep : step size s label = some t)
    : Consistent t := by
  cases label with
  | producer p event => exact (producerStep_only hs hstep).consistent hs
  | worker w event => exact (workerStep_only hs hstep).consistent hs
  | destructor event =>
    rcases destructorStep_frame hstep with ⟨hqueue, hproducer, hworker⟩
    constructor
    · intro p
      rw [hqueue, hproducer]
      exact hs.producers p
    · intro w
      rw [hqueue, hworker]
      exact hs.workers w

/-- The ring is in order, and a producer offers the task it was called with. -/
structure Carried (size : RingSize) (s : Pool π ω τ) : Prop where
  ring : RingInv size s.queue
  consistent : Consistent s
  carries : ∀ p task, (s.queue.phase (.inl p)).offers = some task → s.producer p = .pushing task

omit [Fintype ω] in
/-- A producer offers only the task it was given. -/
theorem producerStep_carries {p : π} {event : ProducerEvent τ} (hs : Carried size s)
    (hstep : producerStep size s p event = some t) {task : τ}
    (hoffers : (t.queue.phase (.inl p)).offers = some task) :
    t.producer p = .pushing task := by
  have hok := hs.consistent.producers p
  cases producerStep_cases hstep with
  | enqueue value queue hcontrol hqueue | retry value queue hcontrol hqueue =>
    rw [hcontrol] at hok
    rw [step_callPush hok] at hqueue
    cases hqueue
    simp only [setProducer, Queue.setPhase, update_self, Phase.offers,
      Option.some.injEq] at hoffers ⊢
    rw [hoffers]
  | push act value queue hcontrol hact hqueue =>
    exact hs.carries p task (offers_of_step hact hqueue hoffers)
  | pushed value ok hcontrol hphase =>
    simp only [setProducer, Queue.setPhase, update_self] at hoffers
    cases hoffers
  | release hcontrol =>
    have hbefore := hs.carries p task hoffers
    rw [hcontrol] at hbefore
    cases hbefore

/-- Every step keeps the invariant. -/
theorem Carried.step (hs : Carried size s)
    (hsmall : t.queue.pushLog.length < 2 ^ 64) (hstep : step size s label = some t) :
    Carried size t where
  ring := ringInv_step hs.ring hsmall hstep
  consistent := hs.consistent.step hstep
  carries := by
    intro q task hoffers
    cases label with
    | producer p event =>
      by_cases hq : q = p
      · subst hq
        exact producerStep_carries hs hstep hoffers
      · have honly := producerStep_only hs.consistent hstep
        rw [honly.phases _ (by simpa using hq)] at hoffers
        rw [honly.control q hq]
        exact hs.carries q task hoffers
    | worker w event =>
      have honly := workerStep_only hs.consistent hstep
      rw [honly.phases _ (by simp)] at hoffers
      rw [honly.producers]
      exact hs.carries q task hoffers
    | destructor event =>
      rcases destructorStep_frame hstep with ⟨hqueue, hproducer, -⟩
      rw [hqueue] at hoffers
      rw [hproducer]
      exact hs.carries q task hoffers

omit [Fintype ω] in
/-- A step inside a push claims the position for the task, or changes nothing that others
see. -/
theorem Carried.push {p : π} {act : Act τ} {task : τ} {queue : Queue (π ⊕ ω) τ}
    (hs : Carried size s) (hcontrol : s.producer p = .pushing task) (hact : isInner act = true)
    (hqueue : s.queue.step size (.inl p) act = some queue) :
    (toFifo { s with queue := queue } = toFifo s ∧
        pushClaimed (queue.phase (.inl p)) = pushClaimed (s.queue.phase (.inl p))) ∨
      ((toFifo s).submit size.capacity task = some (toFifo { s with queue := queue }) ∧
        pushClaimed (s.queue.phase (.inl p)) = 0 ∧ pushClaimed (queue.phase (.inl p)) = 1) := by
  have hok := hs.consistent.producers p
  rw [hcontrol] at hok
  rcases step_inPush hok hact hqueue with ⟨phase, -, hphase, -, hclaimed⟩
  rw [hphase, update_self]
  have hleave : act ≠ .leave := by
    rintro rfl
    cases hact
  cases hs.ring.step_effect hleave hqueue with
  | quiet hlog hwaiting hheld =>
    rw [hlog] at hclaimed
    exact Or.inl ⟨toFifo_congr hwaiting fun w => holding_congr rfl (hheld _), by omega⟩
  | push value hbefore hlog hroom hwaiting hheld =>
    have hvalue := hs.carries p value (by rw [hbefore]; rfl)
    rw [hcontrol] at hvalue
    cases hvalue
    have hzero : pushClaimed (s.queue.phase (.inl p)) = 0 := by
      rw [hbefore]
      rfl
    refine Or.inr ⟨toFifo_submit hroom hwaiting fun w => holding_congr rfl (hheld _), hzero, ?_⟩
    omega
  | pop _ hpop _ _ _ _ =>
    rw [inPop_of_inPush hok] at hpop
    cases hpop

variable [Inhabited τ]

/-- Every state of the thread pool, with fewer than `2 ^ 64` pushes, keeps the
ring invariant and is a state of the abstract pool. -/
theorem reachable_toFifo (hreach : (machine size π ω τ).Reachable s)
    (hsmall : s.queue.pushLog.length < 2 ^ 64) :
    RingInv size s.queue ∧ Consistent s ∧
      (FifoPool.machine size.capacity ω τ).Reachable (toFifo s) := by
  have hall : s.queue.pushLog.length < 2 ^ 64 → RingInv size s.queue ∧ Consistent s ∧
      (FifoPool.machine size.capacity ω τ).Reachable (toFifo s) := by
    refine hreach.invariant (I := fun s => s.queue.pushLog.length < 2 ^ 64 →
      RingInv size s.queue ∧ Consistent s ∧
        (FifoPool.machine size.capacity ω τ).Reachable (toFifo s)) ?_ ?_
    · intro _
      exact ⟨fresh_ringInv size, ⟨fun _ => rfl, fun _ => rfl⟩, .initial⟩
    · intro s label t ih hstep hsmall'
      have hle := pushLog_length_le_of_step hstep
      rcases ih (by omega) with ⟨hring, hs, hfifo⟩
      refine ⟨ringInv_step hring hsmall' hstep, hs.step hstep, ?_⟩
      rcases toFifo_step hring hs hstep with hsame | ⟨action, haction⟩
      · rw [hsame]
        exact hfifo
      · exact hfifo.step haction
  exact hall hsmall

end Refinement

/-! ## Every run of the abstract pool is carried out -/

section Realization

variable {π ω τ : Type*} {size : RingSize} {s : Pool π ω τ}

/-- No call is in progress and there is one permit for each waiting task. -/
structure Settled (s : Pool π ω τ) : Prop where
  phases : ∀ u, s.queue.phase u = .idle
  producers : ∀ p, s.producer p = .idle
  workers : ∀ w, s.worker w = .acquiring ∨ ∃ task, s.worker w = .running task
  permits : s.permits = s.queue.waiting.length

theorem started_settled [Inhabited τ] : Settled (started π ω τ) where
  phases := fun _ => rfl
  producers := fun _ => rfl
  workers := fun _ => Or.inl rfl
  permits := rfl

/-- In a settled pool a worker that holds nothing waits for a permit. -/
theorem Settled.acquiring_of_holding (hs : Settled s) {w : ω} (h : holding s w = none) :
    s.worker w = .acquiring := by
  rcases hs.workers w with hacquiring | ⟨task, hrunning⟩
  · exact hacquiring
  · rw [holding_of_running task hrunning] at h
    cases h

variable [DecidableEq π] [DecidableEq ω] [Fintype ω] [Inhabited τ]
  {guard : Pool π ω τ → Label π ω τ → Prop}

/-- The steps of one thread inside a queue call, when they are steps of the pool that
change the queue only. -/
theorem reachable_inner {u : π ⊕ ω} (label : Act τ → Label π ω τ)
    (hguard : ∀ s act, guard s (label act))
    (hmove : ∀ (q next : Queue (π ⊕ ω) τ) (act : Act τ), isInner act = true →
      q.step size u act = some next →
        step size { s with queue := q } (label act) = some { s with queue := next })
    {acts : List (Act τ)} (hinner : ∀ act ∈ acts, isInner act = true)
    {q queue : Queue (π ⊕ ω) τ}
    (hreach : (machine size π ω τ).ReachableUnder guard { s with queue := q })
    (hrun : (MpmcQueue.machine size (π ⊕ ω) τ).run q (steps u acts) = some queue) :
    (machine size π ω τ).ReachableUnder guard { s with queue := queue } := by
  induction acts generalizing q with
  | nil =>
    cases hrun
    exact hreach
  | cons act rest ih =>
    rw [steps, List.map_cons, StateMachine.run_cons, Option.bind_eq_some_iff] at hrun
    rcases hrun with ⟨next, hnext, hrest⟩
    have hstep := hmove q next act (hinner act List.mem_cons_self) hnext
    have hinner' : ∀ act ∈ rest, isInner act = true := fun act hact =>
      hinner act (List.mem_cons_of_mem _ hact)
    exact ih hinner' (hreach.step (hguard _ act) hstep) hrest

omit [Inhabited τ] in
/-- Inside `try_push` a producer changes the queue only. -/
theorem step_push {p : π} {task : τ} (hcontrol : s.producer p = .pushing task)
    (q next : Queue (π ⊕ ω) τ) (act : Act τ) (hact : isInner act = true)
    (hnext : q.step size (.inl p) act = some next) :
    step size { s with queue := q } (.producer p (.push act)) = some { s with queue := next } := by
  simp only [step, producerStep, hcontrol]
  rw [if_pos hact, queueStep, hnext]
  rfl

omit [Inhabited τ] in
/-- Inside `try_pop` a worker changes the queue only. -/
theorem step_pop {w : ω} (hcontrol : s.worker w = .popping)
    (q next : Queue (π ⊕ ω) τ) (act : Act τ) (hact : isInner act = true)
    (hnext : q.step size (.inr w) act = some next) :
    step size { s with queue := q } (.worker w (.pop act)) = some { s with queue := next } := by
  simp only [step, workerStep, hcontrol]
  rw [if_pos hact, queueStep, hnext]
  rfl

/-- A whole `enqueue` that nobody disturbs, on a free cell. -/
theorem reachable_enqueue (p : π) (task : τ)
    (hguard : ∀ s event, (∀ task, event ≠ .enqueue task) → guard s (.producer p event))
    (hreach : (machine size π ω τ).ReachableUnder guard s)
    (hstart : guard s (.producer p (.enqueue task))) (hcontrol : s.producer p = .idle)
    (hphase : s.queue.phase (.inl p) = .idle)
    (hfree : s.queue.sequence (size.index s.queue.enqueuePos) = s.queue.enqueuePos) :
    ∃ queue, (machine size π ω τ).ReachableUnder guard
        { s with queue := queue, permits := s.permits + 1 } ∧
      queue.phase = s.queue.phase ∧ s.queue.Pushed size task queue := by
  rcases run_push (t := .inl p) hfree task with ⟨queue, hrun, hupdate, hpushed⟩
  have hcall : (machine size π ω τ).ReachableUnder guard (setProducer p (.pushing task)
      { s with queue := s.queue.setPhase (.inl p) (.pushLoad task) }) := by
    apply hreach.step hstart
    simp only [machine, step, producerStep, hcontrol]
    rw [queueStep, step_callPush hphase]
    rfl
  have hinner : ∀ act ∈ (pushActs : List (Act τ)), isInner act = true := by
    simp [pushActs, isInner]
  have hdone : (machine size π ω τ).ReachableUnder guard
      (setProducer p (.pushing task) { s with queue := queue }) :=
    reachable_inner (fun act => .producer p (.push act))
      (fun s act => hguard s (.push act) (by simp))
      (step_push (s := setProducer p (.pushing task) s) (update_self ..)) hinner hcall
      hrun
  have hleft : (machine size π ω τ).ReachableUnder guard
      (setProducer p .releasing { s with queue := queue.setPhase (.inl p) .idle }) := by
    apply hdone.step (hguard _ .pushed (by simp))
    have hphase' : queue.phase (.inl p) = .pushDone true none := by
      rw [hupdate, update_self]
    simp only [machine, step, producerStep, setProducer, update_self, hphase']
    rw [queueStep, Queue.step_leave_push hphase']
    simp [setProducer]
  refine ⟨queue.setPhase (.inl p) .idle, ?_, phase_leave hupdate hphase,
    ⟨hpushed.enqueuePos, hpushed.dequeuePos, hpushed.sequence, hpushed.pushLog⟩⟩
  apply hleft.step (hguard _ .release (by simp))
  have hback : update s.producer p .idle = s.producer := by
    rw [← hcontrol]
    exact update_eq_self p s.producer
  simp [machine, step, producerStep, setProducer, hback]

/-- A worker acquires a permit and calls `try_pop`. -/
theorem reachable_acquire {w : ω} (hguard : guard s (.worker w .acquire))
    (hreach : (machine size π ω τ).ReachableUnder guard s) (hcontrol : s.worker w = .acquiring)
    (hpermits : 0 < s.permits) (hphase : s.queue.phase (.inr w) = .idle) :
    (machine size π ω τ).ReachableUnder guard (setWorker w .popping
      { s with queue := s.queue.setPhase (.inr w) .popLoad, permits := s.permits - 1 }) := by
  apply hreach.step hguard
  simp only [machine, step, workerStep, hcontrol]
  rw [if_pos hpermits, queueStep, step_callPop hphase]
  rfl

/-- A whole `acquire` and `try_pop` that nobody disturbs, of a published cell. -/
theorem reachable_take {w : ω} (hguard : ∀ s event, guard s (.worker w event))
    (hreach : (machine size π ω τ).ReachableUnder guard s) (hcontrol : s.worker w = .acquiring)
    (hpermits : 0 < s.permits) (hphase : s.queue.phase (.inr w) = .idle)
    (hpublished : s.queue.sequence (size.index s.queue.dequeuePos) =
      (s.queue.dequeuePos + 1) % 2 ^ 64) :
    ∃ queue, (machine size π ω τ).ReachableUnder guard
        (setWorker w (.running (s.queue.value (size.index s.queue.dequeuePos)))
          { s with queue := queue, permits := s.permits - 1 }) ∧
      queue.phase = s.queue.phase ∧ s.queue.Popped size queue := by
  rcases run_pop (t := .inr w) hpublished with ⟨queue, hrun, hupdate, hpopped⟩
  have hcall := reachable_acquire (hguard s .acquire) hreach hcontrol hpermits hphase
  have hinner : ∀ act ∈ (popActs : List (Act τ)), isInner act = true := by
    simp [popActs, isInner]
  have hdone : (machine size π ω τ).ReachableUnder guard
      (setWorker w .popping { s with queue := queue, permits := s.permits - 1 }) :=
    reachable_inner (fun act => .worker w (.pop act)) (fun s act => hguard s (.pop act))
      (step_pop (s := setWorker w .popping { s with permits := s.permits - 1 })
        (update_self ..)) hinner hcall hrun
  refine ⟨queue.setPhase (.inr w) .idle, ?_, phase_leave hupdate hphase,
    ⟨hpopped.enqueuePos, hpopped.dequeuePos, hpopped.sequence, hpopped.pushLog⟩⟩
  apply hdone.step (hguard _ .popped)
  have hphase' : queue.phase (.inr w) =
      .popDone (some (s.queue.value (size.index s.queue.dequeuePos))) := by
    rw [hupdate, update_self]
  simp only [machine, step, workerStep, setWorker, update_self, hphase']
  rw [queueStep, Queue.step_leave_pop hphase']
  simp [setWorker]

/-- A settled pool with room carries out a whole `enqueue`. -/
theorem Settled.submit (hs : Settled s) (hreach : (machine size π ω τ).Reachable s)
    (hsmall : s.queue.pushLog.length < 2 ^ 64) (p : π) {task : τ} {f : FifoPool ω τ}
    (hsubmit : (toFifo s).submit size.capacity task = some f) :
    ∃ t, (machine size π ω τ).Reachable t ∧ Settled t ∧ toFifo t = f ∧
      t.queue.pushLog.length = s.queue.pushLog.length + 1 := by
  have hring := (reachable_toFifo hreach hsmall).1
  rcases FifoPool.submit_eq_some hsubmit with ⟨hroom, rfl⟩
  have hlength := hring.length_waiting
  have horder := hring.order
  have hroom' : s.queue.waiting.length < size.capacity := hroom
  rcases reachable_enqueue p task (fun _ _ _ => trivial) hreach trivial
    (hs.producers p) (hs.phases _) (hring.sequence_enqueuePos hs.phases (by omega)) with
    ⟨queue, hreleased, hphase, hpushed⟩
  have hwaiting : queue.waiting = s.queue.waiting ++ [task] := by
    rw [Queue.waiting, hpushed.pushLog, hpushed.dequeuePos,
      List.drop_append_of_le_length (by rw [← hring.enqueuePos_eq]; exact horder),
      List.map_append]
    rfl
  refine ⟨_, hreleased, ⟨?_, hs.producers, hs.workers, ?_⟩, ?_, ?_⟩
  · intro u
    exact (congrFun hphase u).trans (hs.phases u)
  · show s.permits + 1 = queue.waiting.length
    rw [hwaiting, List.length_append, hs.permits]
    rfl
  · have hholding : holding { s with queue := queue, permits := s.permits + 1 } =
        holding s := by
      funext w
      refine holding_congr ?_ ?_
      · rfl
      · simp only [Queue.held, hphase, hs.phases]
        rfl
    rw [toFifo, hholding]
    simp only [hwaiting]
    rfl
  · simp only [hpushed.pushLog, List.length_append, List.length_singleton]

/-- A settled pool with an idle worker and a waiting task carries out a whole
`acquire` and `try_pop`. -/
theorem Settled.take (hs : Settled s) (hreach : (machine size π ω τ).Reachable s)
    (hsmall : s.queue.pushLog.length < 2 ^ 64) {w : ω} {f : FifoPool ω τ}
    (htake : (toFifo s).take w = some f) :
    ∃ t, (machine size π ω τ).Reachable t ∧ Settled t ∧ toFifo t = f ∧
      t.queue.pushLog = s.queue.pushLog := by
  have hring := (reachable_toFifo hreach hsmall).1
  rcases FifoPool.take_eq_some htake with ⟨task, rest, hnone, hqueue, hrest, hworker⟩
  have hacquiring := hs.acquiring_of_holding hnone
  have hwaiting : s.queue.waiting = task :: rest := hqueue
  have hlength := hring.length_waiting
  have horder := hring.order
  have hpermits := hs.permits
  rw [hwaiting, List.length_cons] at hlength hpermits
  have hlt : s.queue.dequeuePos < s.queue.enqueuePos := by
    omega
  have hhead : s.queue.value (size.index s.queue.dequeuePos) = task ∧
      (s.queue.pushLog.drop (s.queue.dequeuePos + 1)).map Prod.snd = rest := by
    have hget := hring.getElem?_pushLog (hring.sequence_dequeuePos hs.phases hlt).2
    rcases List.getElem?_eq_some_iff.1 hget with ⟨hbound, hvalue⟩
    rw [Queue.waiting, List.drop_eq_getElem_cons hbound, List.map_cons, hvalue] at hwaiting
    cases hwaiting
    exact ⟨rfl, rfl⟩
  have hnext : (s.queue.dequeuePos + 1) % 2 ^ 64 = s.queue.dequeuePos + 1 :=
    Nat.mod_eq_of_lt (by have := hring.small; omega)
  rcases reachable_take (fun _ _ => trivial) hreach hacquiring (by omega) (hs.phases _)
    (by rw [hnext]; exact (hring.sequence_dequeuePos hs.phases hlt).1) with
    ⟨queue, hrunning, hphase, hpopped⟩
  rw [hhead.1] at hrunning
  have hwaiting' : queue.waiting = rest := by
    rw [Queue.waiting, hpopped.pushLog, hpopped.dequeuePos, hnext]
    exact hhead.2
  refine ⟨_, hrunning, ⟨?_, hs.producers, ?_, ?_⟩, ?_, hpopped.pushLog⟩
  · intro u
    exact (congrFun hphase u).trans (hs.phases u)
  · intro v
    by_cases hv : v = w
    · exact Or.inr ⟨task, by simp [setWorker, hv]⟩
    · simpa [setWorker, hv] using hs.workers v
  · simp only [setWorker]
    rw [hwaiting', hpermits]
    rfl
  · have hholding : holding (setWorker w (.running task)
        { s with queue := queue, permits := s.permits - 1 }) = f.worker := by
      rw [hworker]
      funext v
      by_cases hv : v = w
      · rw [hv, update_self]
        exact holding_of_running task (by simp [setWorker])
      · rw [update_of_ne hv]
        refine holding_congr ?_ ?_
        · simp [setWorker, hv]
        · simp only [setWorker, Queue.held, hphase, hs.phases]
          rfl
    rw [toFifo, hholding]
    simp only [setWorker, hwaiting', ← hrest]

/-- A running worker of a settled pool finishes. -/
theorem Settled.finish (hs : Settled s) (hreach : (machine size π ω τ).Reachable s) {w : ω}
    (hsome : ((toFifo s).worker w).isSome = true) :
    ∃ t, (machine size π ω τ).Reachable t ∧ Settled t ∧ toFifo t = (toFifo s).release w ∧
      t.queue.pushLog = s.queue.pushLog := by
  rcases hs.workers w with hacquiring | ⟨task, hrunning⟩
  · have hnone : (toFifo s).worker w = none := by
      show holding s w = none
      rw [holding_eq_held (by simp [hacquiring]), Queue.held, hs.phases]
      rfl
    rw [hnone] at hsome
    cases hsome
  · refine ⟨setWorker w .acquiring s, ?_, ⟨hs.phases, hs.producers, ?_, hs.permits⟩,
      toFifo_finish (hs.phases _), rfl⟩
    · apply hreach.step (a := .worker w .finish)
      simp [machine, step, workerStep, hrunning]
    · intro v
      by_cases hv : v = w
      · exact Or.inl (by simp [setWorker, hv])
      · simpa [setWorker, hv] using hs.workers v

/-- Every step of the abstract pool is carried out from a settled state. -/
theorem Settled.step (hs : Settled s) (hreach : (machine size π ω τ).Reachable s)
    (hsmall : s.queue.pushLog.length < 2 ^ 64) (p : π) {action : FifoPool.Label ω τ}
    {f : FifoPool ω τ} (haction : FifoPool.step size.capacity (toFifo s) action = some f) :
    ∃ t, (machine size π ω τ).Reachable t ∧ Settled t ∧ toFifo t = f ∧
      t.queue.pushLog.length ≤ s.queue.pushLog.length + 1 := by
  cases action with
  | submit task =>
    rcases hs.submit hreach hsmall p haction with ⟨t, hreach', hs', hfifo, hlog⟩
    exact ⟨t, hreach', hs', hfifo, hlog.le⟩
  | take w =>
    rcases hs.take hreach hsmall haction with ⟨t, hreach', hs', hfifo, hlog⟩
    exact ⟨t, hreach', hs', hfifo, by rw [hlog]; omega⟩
  | finish w =>
    rw [FifoPool.step] at haction
    split at haction
    · rename_i hsome
      cases haction
      rcases hs.finish hreach hsome with ⟨t, hreach', hs', hfifo, hlog⟩
      exact ⟨t, hreach', hs', hfifo, by rw [hlog]; omega⟩
    · cases haction

/-- Every run of the abstract pool of fewer than `2 ^ 64` steps is carried out by
the thread pool: it reaches a state that stands for the end of the run. -/
theorem exists_reachable_toFifo (size : RingSize) (p : π)
    (actions : List (FifoPool.Label ω τ)) (f : FifoPool ω τ)
    (hlength : actions.length < 2 ^ 64)
    (hrun : (FifoPool.machine size.capacity ω τ).run
      (FifoPool.machine size.capacity ω τ).initial actions = some f) :
    ∃ s : Pool π ω τ, (machine size π ω τ).Reachable s ∧ toFifo s = f := by
  have hall : ∀ (actions : List (FifoPool.Label ω τ)) (s : Pool π ω τ),
      (machine size π ω τ).Reachable s → Settled s →
      s.queue.pushLog.length + actions.length < 2 ^ 64 →
      (FifoPool.machine size.capacity ω τ).run (toFifo s) actions = some f →
      ∃ t : Pool π ω τ, (machine size π ω τ).Reachable t ∧ toFifo t = f := by
    intro actions
    induction actions with
    | nil =>
      intro s hreach _ _ hrun
      cases hrun
      exact ⟨s, hreach, rfl⟩
    | cons action rest ih =>
      intro s hreach hs hsmall hrun
      rw [StateMachine.run_cons, Option.bind_eq_some_iff] at hrun
      rcases hrun with ⟨g, haction, hrest⟩
      rw [List.length_cons] at hsmall
      rcases hs.step hreach (by omega) p haction with ⟨t, hreach', hs', hfifo, hlog⟩
      apply ih t hreach' hs' (by omega)
      rw [hfifo]
      exact hrest
  exact hall actions (started π ω τ) .initial started_settled
    (by simpa [started, fresh] using hlength) hrun

end Realization

end ThreadPool

end EdgeOrchestrator
