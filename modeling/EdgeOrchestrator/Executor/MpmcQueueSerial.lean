import EdgeOrchestrator.Executor.MpmcQueue

/-!
# The bounded queue, one call at a time

Calls that do not overlap see a FIFO list: a push fails when the list is as long as the
ring, a pop fails when it is empty.  Neither call looks at a length.  Both compare the
sequence number of one cell with a position, as a signed difference of 64-bit words, so
that the list has to be decoded from the cells between two counters that wrap.

The ring size divides `2 ^ 64`, so the results stay right when the counters wrap.
`size_approx` compares the counters as unsigned numbers and is zero while only the
enqueue counter has wrapped.

Main results:

- `Represents.call`: what a call returns and does to the list.
- `SerialRun.represents`: every sequence of calls, from a fresh queue.
- `serialQueue_refines_fifo`: the results of the calls, the effect of a failed push, and the
  approximate size.
-/

namespace EdgeOrchestrator

open Function (update update_eq_self update_idem update_of_ne update_self)

namespace MpmcQueue

/-! ## The abstract queue -/

/-- A call of the queue. -/
inductive Call (α : Type*) where
  | push (value : α)
  | pop
deriving DecidableEq, Repr

/-- What a call returns.  A push also tells what the caller's object holds afterwards, nothing
if its value has been moved from. -/
inductive Result (α : Type*) where
  | pushed (ok : Bool) (left : Option α)
  | popped (out : Option α)
deriving DecidableEq, Repr

namespace Fifo

variable {α : Type*} (capacity : Nat)

/-- One call on a list of bounded length; a push that fails leaves its value with the caller. -/
def call (items : List α) : Call α → List α × Result α
  | .push value =>
    if items.length < capacity then (items ++ [value], .pushed true none)
    else (items, .pushed false (some value))
  | .pop =>
    match items with
    | [] => ([], .popped none)
    | oldest :: rest => (rest, .popped (some oldest))

/-- The list and the results after a sequence of calls. -/
def run (calls : List (Call α)) : List α × List (Result α) :=
  calls.foldl
    (fun s c => ((call capacity s.1 c).1, s.2 ++ [(call capacity s.1 c).2])) ([], [])

theorem run_concat (calls : List (Call α)) (c : Call α) :
    run capacity (calls ++ [c]) =
      ((call capacity (run capacity calls).1 c).1,
        (run capacity calls).2 ++ [(call capacity (run capacity calls).1 c).2]) := by
  rw [run, List.foldl_append]
  rfl

/-- The list of the abstract queue after one more call of a history. -/
theorem items_concat (history : List (Call α × Result α)) (c : Call α) (r : Result α) :
    (run capacity ((history ++ [(c, r)]).map Prod.fst)).1 =
      (call capacity (run capacity (history.map Prod.fst)).1 c).1 := by
  rw [List.map_append, List.map_singleton, run_concat]

/-- The pushes among the results that succeeded. -/
def pushes (results : List (Result α)) : Nat :=
  results.countP fun
    | .pushed ok _ => ok
    | .popped _ => false

/-- The pops among the results that succeeded. -/
def pops (results : List (Result α)) : Nat :=
  results.countP fun
    | .pushed _ _ => false
    | .popped out => out.isSome

end Fifo

/-! ## Calls that do not overlap -/

section Calls

variable {ι α : Type*}

/-- The step that starts the call. -/
def Call.act : Call α → Act α
  | .push value => .callPush value
  | .pop => .callPop

/-- Where a thread stands when it has started the call. -/
def Call.phase : Call α → Phase α
  | .push value => .pushLoad value
  | .pop => .popLoad

/-- Where a thread stands when its call has this result. -/
def Result.phase : Result α → Phase α
  | .pushed ok left => .pushDone ok left
  | .popped out => .popDone out

variable [DecidableEq ι] [Inhabited α]

/-- Thread `t` runs one call from its start to its end while no other thread moves. -/
def CallRuns (size : RingSize) (s : Queue ι α) (t : ι) (c : Call α) (r : Result α)
    (s' : Queue ι α) : Prop :=
  ∃ (acts : List (Act α)) (last : Queue ι α), (∀ act ∈ acts, isInner act = true) ∧
    (machine size ι α).run s ((t, c.act) :: acts.map (Prod.mk t)) = some last ∧
    last.phase t = r.phase ∧ last.step size t .leave = some s'

/-- Calls by any threads, each one started after the last one has returned. -/
inductive SerialRun (size : RingSize) (s : Queue ι α) :
    List (Call α × Result α) → Queue ι α → Prop
  | start : SerialRun size s [] s
  | call {history : List (Call α × Result α)} {s' s'' : Queue ι α} {t : ι} {c : Call α}
      {r : Result α} (hrun : SerialRun size s history s') (hcall : CallRuns size s' t c r s'') :
      SerialRun size s (history ++ [(c, r)]) s''

end Calls

/-! ## The states of a call -/

section States

variable {ι α : Type*} [DecidableEq ι] {size : RingSize} {s x y : Queue ι α} {t : ι} {value : α}
  {act : Act α}

/-- The states of a push that starts in `s`; `room` says how the cell compares. -/
inductive PushState (size : RingSize) (s : Queue ι α) (t : ι) (value : α) (room : Bool) :
    Queue ι α → Prop
  | load : PushState size s t value room (s.setPhase t (.pushLoad value))
  | read : PushState size s t value room (s.setPhase t (.pushSeq value s.enqueuePos))
  | claim (hroom : room = true) :
      PushState size s t value room (s.setPhase t (.pushCas value s.enqueuePos))
  | write (hroom : room = true) :
      PushState size s t value room (s.claimPush t value s.enqueuePos)
  | store (hroom : room = true) :
      PushState size s t value room
        ((s.claimPush t value s.enqueuePos).writeCell size t value s.enqueuePos)
  | done (hroom : room = true) :
      PushState size s t value room
        (((s.claimPush t value s.enqueuePos).writeCell size t value s.enqueuePos).publish size t
          s.enqueuePos)
  | refused (hroom : room = false) :
      PushState size s t value room (s.setPhase t (.pushDone false (some value)))

/-- How the sequence number of the next cell compares in a push. -/
def PushCompares (size : RingSize) (s : Queue ι α) (room : Bool) : Prop :=
  ∀ value : α, Queue.pushBranch value s.enqueuePos (s.sequence (size.index s.enqueuePos)) =
    if room then .pushCas value s.enqueuePos else .pushDone false (some value)

/-- A step inside the push leads to a further state of the push. -/
theorem PushState.step {room : Bool} (hcompares : PushCompares size s room)
    (hx : PushState size s t value room x) (hinner : isInner act = true)
    (hstep : x.step size t act = some y) : PushState size s t value room y := by
  cases hx with
  | load =>
    unfold Queue.step at hstep
    rw [Queue.phase_setPhase] at hstep
    cases act <;> cases hstep
    rw [Queue.setPhase_setPhase]
    exact .read
  | read =>
    unfold Queue.step at hstep
    rw [Queue.phase_setPhase] at hstep
    cases act <;> cases hstep
    rw [Queue.setPhase_setPhase]
    change PushState size s t value room (s.setPhase t (Queue.pushBranch value s.enqueuePos
      (s.sequence (size.index s.enqueuePos))))
    rw [hcompares value]
    cases room with
    | true => exact .claim rfl
    | false => exact .refused rfl
  | claim hroom =>
    unfold Queue.step at hstep
    rw [Queue.phase_setPhase] at hstep
    cases act with
    | next =>
      change (if s.enqueuePos = s.enqueuePos then _ else _) = some y at hstep
      rw [if_pos rfl] at hstep
      cases hstep
      rw [Queue.claimPush_setPhase]
      exact .write hroom
    | spurious =>
      cases hstep
      rw [Queue.setPhase_setPhase]
      exact .read
    | _ => cases hstep
  | write hroom =>
    unfold Queue.step at hstep
    rw [Queue.phase_claimPush] at hstep
    cases act <;> cases hstep
    exact .store hroom
  | store hroom =>
    unfold Queue.step at hstep
    rw [Queue.phase_writeCell] at hstep
    cases act <;> cases hstep
    exact .done hroom
  | done hroom =>
    unfold Queue.step at hstep
    rw [Queue.phase_publish] at hstep
    cases act <;> cases hstep
    cases hinner
  | refused hroom =>
    unfold Queue.step at hstep
    rw [Queue.phase_setPhase] at hstep
    cases act <;> cases hstep
    cases hinner

/-- How many steps a call has before it at most. -/
def Phase.rank : Phase α → Nat
  | .pushLoad _ => 5
  | .pushSeq _ _ => 4
  | .pushCas _ _ => 3
  | .pushWrite _ _ => 2
  | .pushStore _ => 1
  | .popLoad => 5
  | .popSeq _ => 4
  | .popCas _ => 3
  | .popRead _ => 2
  | .popStore _ _ => 1
  | _ => 0

/-- A thread is at the end of its call, or can come closer to it by a step of its own. -/
def Progresses (size : RingSize) (t : ι) (x : Queue ι α) : Prop :=
  (∃ r : Result α, x.phase t = r.phase) ∨
    ∃ act y, isInner act = true ∧ x.step size t act = some y ∧ (y.phase t).rank < (x.phase t).rank

theorem PushState.progresses {room : Bool} (hcompares : PushCompares size s room)
    (hx : PushState size s t value room x) : Progresses size t x := by
  cases hx with
  | load =>
    refine Or.inr ⟨.next, _, rfl, Queue.step_pushLoad size s t value, ?_⟩
    rw [Queue.phase_setPhase, Queue.phase_setPhase]
    exact Nat.lt_succ_self 4
  | read =>
    refine Or.inr ⟨.next, _, rfl, Queue.step_pushSeq size s t value _, ?_⟩
    rw [Queue.phase_setPhase, Queue.phase_setPhase, hcompares value]
    cases room with
    | true => exact Nat.lt_succ_self 3
    | false => exact Nat.succ_pos 3
  | claim hroom =>
    refine Or.inr ⟨.next, _, rfl, Queue.step_pushCas size s t value, ?_⟩
    rw [Queue.phase_setPhase, Queue.phase_claimPush]
    exact Nat.lt_succ_self 2
  | write hroom =>
    refine Or.inr ⟨.next, _, rfl, Queue.step_pushWrite size s t value _, ?_⟩
    rw [Queue.phase_claimPush, Queue.phase_writeCell]
    exact Nat.lt_succ_self 1
  | store hroom =>
    refine Or.inr ⟨.next, _, rfl, Queue.step_pushStore size _ t value _, ?_⟩
    rw [Queue.phase_writeCell, Queue.phase_publish]
    exact Nat.lt_succ_self 0
  | done hroom => exact Or.inl ⟨.pushed true none, Queue.phase_publish _ _ _ _⟩
  | refused hroom => exact Or.inl ⟨.pushed false (some value), Queue.phase_setPhase _ _ _⟩

/-- The states of a pop that starts in `s`; `filled` says how the cell compares. -/
inductive PopState (size : RingSize) (s : Queue ι α) (t : ι) (filled : Bool) : Queue ι α → Prop
  | load : PopState size s t filled (s.setPhase t .popLoad)
  | read : PopState size s t filled (s.setPhase t (.popSeq s.dequeuePos))
  | claim (hfilled : filled = true) :
      PopState size s t filled (s.setPhase t (.popCas s.dequeuePos))
  | take (hfilled : filled = true) : PopState size s t filled (s.claimPop t s.dequeuePos)
  | store (hfilled : filled = true) (residue : α) :
      PopState size s t filled
        ((s.claimPop t s.dequeuePos).takeValue size t s.dequeuePos residue)
  | done (hfilled : filled = true) (residue : α) :
      PopState size s t filled
        (((s.claimPop t s.dequeuePos).takeValue size t s.dequeuePos residue).recycle size t
          s.dequeuePos (s.value (size.index s.dequeuePos)))
  | refused (hfilled : filled = false) :
      PopState size s t filled (s.setPhase t (.popDone none))

/-- How the sequence number of the next cell compares in a pop. -/
def PopCompares (size : RingSize) (s : Queue ι α) (filled : Bool) : Prop :=
  Queue.popBranch s.dequeuePos (s.sequence (size.index s.dequeuePos)) =
    if filled then (.popCas s.dequeuePos : Phase α) else .popDone none

/-- A step inside the pop leads to a further state of the pop. -/
theorem PopState.step {filled : Bool} (hcompares : PopCompares size s filled)
    (hx : PopState size s t filled x) (hinner : isInner act = true)
    (hstep : x.step size t act = some y) : PopState size s t filled y := by
  cases hx with
  | load =>
    unfold Queue.step at hstep
    rw [Queue.phase_setPhase] at hstep
    cases act <;> cases hstep
    rw [Queue.setPhase_setPhase]
    exact .read
  | read =>
    unfold Queue.step at hstep
    rw [Queue.phase_setPhase] at hstep
    cases act <;> cases hstep
    rw [Queue.setPhase_setPhase]
    change PopState size s t filled (s.setPhase t (Queue.popBranch s.dequeuePos
      (s.sequence (size.index s.dequeuePos))))
    rw [hcompares]
    cases filled with
    | true => exact .claim rfl
    | false => exact .refused rfl
  | claim hfilled =>
    unfold Queue.step at hstep
    rw [Queue.phase_setPhase] at hstep
    cases act with
    | next =>
      change (if s.dequeuePos = s.dequeuePos then _ else _) = some y at hstep
      rw [if_pos rfl] at hstep
      cases hstep
      rw [Queue.claimPop_setPhase]
      exact .take hfilled
    | spurious =>
      cases hstep
      rw [Queue.setPhase_setPhase]
      exact .read
    | _ => cases hstep
  | take hfilled =>
    unfold Queue.step at hstep
    rw [Queue.phase_claimPop] at hstep
    cases act <;> cases hstep
    exact .store hfilled _
  | store hfilled residue =>
    unfold Queue.step at hstep
    rw [Queue.phase_takeValue] at hstep
    cases act <;> cases hstep
    exact .done hfilled residue
  | done hfilled residue =>
    unfold Queue.step at hstep
    rw [Queue.phase_recycle] at hstep
    cases act <;> cases hstep
    cases hinner
  | refused hfilled =>
    unfold Queue.step at hstep
    rw [Queue.phase_setPhase] at hstep
    cases act <;> cases hstep
    cases hinner

theorem PopState.progresses [Inhabited α] {filled : Bool} (hcompares : PopCompares size s filled)
    (hx : PopState size s t filled x) : Progresses size t x := by
  cases hx with
  | load =>
    refine Or.inr ⟨.next, _, rfl, Queue.step_popLoad size s t, ?_⟩
    rw [Queue.phase_setPhase, Queue.phase_setPhase]
    exact Nat.lt_succ_self 4
  | read =>
    refine Or.inr ⟨.next, _, rfl, Queue.step_popSeq size s t _, ?_⟩
    rw [Queue.phase_setPhase, Queue.phase_setPhase, hcompares]
    cases filled with
    | true => exact Nat.lt_succ_self 3
    | false => exact Nat.succ_pos 3
  | claim hfilled =>
    refine Or.inr ⟨.next, _, rfl, Queue.step_popCas size s t, ?_⟩
    rw [Queue.phase_setPhase, Queue.phase_claimPop]
    exact Nat.lt_succ_self 2
  | take hfilled =>
    refine Or.inr ⟨.take default, _, rfl, Queue.step_popRead size s t _ default, ?_⟩
    rw [Queue.phase_claimPop, Queue.phase_takeValue]
    exact Nat.lt_succ_self 1
  | store hfilled residue =>
    refine Or.inr ⟨.next, _, rfl, Queue.step_popStore size _ t _ residue, ?_⟩
    rw [Queue.phase_takeValue, Queue.phase_recycle]
    exact Nat.lt_succ_self 0
  | done hfilled residue => exact Or.inl ⟨.popped (some _), Queue.phase_recycle _ _ _ _ _⟩
  | refused hfilled => exact Or.inl ⟨.popped none, Queue.phase_setPhase _ _ _⟩

end States

/-! ## Whole calls -/

section WholeCalls

variable {ι α : Type*} [DecidableEq ι] {size : RingSize} {s s' x : Queue ι α} {t : ι} {value : α}
  {r : Result α}

/-- What a push that succeeds leaves behind. -/
def Queue.afterPush (size : RingSize) (s : Queue ι α) (value : α) : Queue ι α :=
  { s with
    enqueuePos := (s.enqueuePos + 1) % 2 ^ 64
    sequence := update s.sequence (size.index s.enqueuePos)
      ((s.enqueuePos + 1) % 2 ^ 64)
    value := update s.value (size.index s.enqueuePos) value
    pushLog := s.pushLog ++ [(s.enqueuePos, value)]
    written := s.written ++ [s.enqueuePos] }

/-- What a pop that succeeds leaves behind; the cell keeps a moved-from value. -/
def Queue.afterPop (size : RingSize) (s : Queue ι α) (residue : α) : Queue ι α :=
  { s with
    dequeuePos := (s.dequeuePos + 1) % 2 ^ 64
    sequence := update s.sequence (size.index s.dequeuePos)
      ((s.dequeuePos + size.capacity) % 2 ^ 64)
    value := update s.value (size.index s.dequeuePos) residue
    popLog := s.popLog ++ [(s.dequeuePos, s.value (size.index s.dequeuePos))] }

/-- A thread at the end of a call leaves it. -/
theorem step_leave (hphase : x.phase t = r.phase) :
    x.step size t .leave = some (x.setPhase t .idle) := by
  cases r with
  | pushed ok left => exact Queue.step_leave_push hphase
  | popped out => exact Queue.step_leave_pop hphase

theorem PushState.leave {room : Bool} (hidle : s.phase t = .idle)
    (hx : PushState size s t value room x) (hphase : x.phase t = r.phase) :
    r = .pushed room (if room then none else some value) ∧
      x.setPhase t .idle = if room then s.afterPush size value else s := by
  cases hx with
  | done hroom =>
    rw [Queue.phase_publish] at hphase
    cases r <;> cases hphase
    subst hroom
    refine ⟨rfl, ?_⟩
    simp only [Queue.setPhase, Queue.publish, Queue.writeCell, Queue.claimPush,
      Queue.afterPush, update_idem, ← hidle, update_eq_self, if_true]
  | refused hroom =>
    rw [Queue.phase_setPhase] at hphase
    cases r <;> cases hphase
    subst hroom
    rw [Queue.setPhase_setPhase, Queue.setPhase_eq_self hidle]
    exact ⟨rfl, rfl⟩
  | write hroom =>
    rw [Queue.phase_claimPush] at hphase
    cases r <;> cases hphase
  | store hroom =>
    rw [Queue.phase_writeCell] at hphase
    cases r <;> cases hphase
  | _ =>
    rw [Queue.phase_setPhase] at hphase
    cases r <;> cases hphase

theorem PopState.leave {filled : Bool} (hidle : s.phase t = .idle)
    (hx : PopState size s t filled x) (hphase : x.phase t = r.phase) :
    (filled = false ∧ r = .popped none ∧ x.setPhase t .idle = s) ∨
      (filled = true ∧ r = .popped (some (s.value (size.index s.dequeuePos))) ∧
        ∃ residue, x.setPhase t .idle = s.afterPop size residue) := by
  cases hx with
  | done hfilled residue =>
    rw [Queue.phase_recycle] at hphase
    cases r <;> cases hphase
    refine Or.inr ⟨hfilled, rfl, residue, ?_⟩
    simp only [Queue.setPhase, Queue.recycle, Queue.takeValue, Queue.claimPop,
      Queue.afterPop, update_idem, ← hidle, update_eq_self]
  | refused hfilled =>
    rw [Queue.phase_setPhase] at hphase
    cases r <;> cases hphase
    rw [Queue.setPhase_setPhase, Queue.setPhase_eq_self hidle]
    exact Or.inl ⟨hfilled, rfl, rfl⟩
  | take hfilled =>
    rw [Queue.phase_claimPop] at hphase
    cases r <;> cases hphase
  | store hfilled residue =>
    rw [Queue.phase_takeValue] at hphase
    cases r <;> cases hphase
  | _ =>
    rw [Queue.phase_setPhase] at hphase
    cases r <;> cases hphase

variable [Inhabited α]

theorem step_call (hidle : s.phase t = .idle) (c : Call α) :
    (machine size ι α).step s (t, c.act) = some (s.setPhase t c.phase) := by
  cases c with
  | push value => exact (Queue.Transition.callPush value hidle).step_eq
  | pop => exact (Queue.Transition.callPop hidle).step_eq

/-- A property that the steps inside a call keep holds where the call ends. -/
theorem CallRuns.last_state {I : Queue ι α → Prop} {c : Call α}
    (hcall : CallRuns size s t c r s') (hidle : s.phase t = .idle)
    (hstart : I (s.setPhase t c.phase))
    (hstep : ∀ x y act, isInner act = true → I x → x.step size t act = some y → I y) :
    ∃ last, I last ∧ last.phase t = r.phase ∧ s' = last.setPhase t .idle := by
  rcases hcall with ⟨acts, last, hinner, hrun, hphase, hleave⟩
  rw [StateMachine.run_cons, step_call hidle c, Option.bind_some] at hrun
  rw [step_leave hphase, Option.some.injEq] at hleave
  refine ⟨last, StateMachine.run_keeps _ ?_ hstart hrun, hphase, hleave.symm⟩
  intro label hlabel x y hx
  rcases List.mem_map.1 hlabel with ⟨act, hact, rfl⟩
  exact hstep x y act (hinner act hact) hx

/-- A call whose states all progress returns. -/
theorem exists_callRuns {I : Queue ι α → Prop} {c : Call α} (hidle : s.phase t = .idle)
    (hstart : I (s.setPhase t c.phase))
    (hstep : ∀ x y act, isInner act = true → I x → x.step size t act = some y → I y)
    (hprogresses : ∀ x, I x → Progresses size t x) : ∃ r s', CallRuns size s t c r s' := by
  have hfinish : ∀ n x, (x.phase t).rank ≤ n → I x → ∃ (acts : List (Act α)) (last : Queue ι α),
      (∀ act ∈ acts, isInner act = true) ∧
      (machine size ι α).run x (acts.map (Prod.mk t)) = some last ∧
      ∃ r : Result α, last.phase t = r.phase := by
    intro n
    induction n with
    | zero =>
      intro x hrank hx
      rcases hprogresses x hx with hend | ⟨act, y, -, -, hlt⟩
      · exact ⟨[], x, by simp, rfl, hend⟩
      · omega
    | succ n ih =>
      intro x hrank hx
      rcases hprogresses x hx with hend | ⟨act, y, hinner, hy, hlt⟩
      · exact ⟨[], x, by simp, rfl, hend⟩
      · rcases ih y (by omega) (hstep x y act hinner hx hy) with ⟨acts, last, hacts, hrun, hend⟩
        refine ⟨act :: acts, last, ?_, ?_, hend⟩
        · intro a ha
          rcases List.mem_cons.1 ha with rfl | ha
          · exact hinner
          · exact hacts a ha
        · rw [List.map_cons, StateMachine.run_cons]
          change (x.step size t act).bind _ = _
          rw [hy]
          exact hrun
  rcases hfinish _ _ le_rfl hstart with ⟨acts, last, hacts, hrun, r, hend⟩
  refine ⟨r, last.setPhase t .idle, acts, last, hacts, ?_, hend, step_leave hend⟩
  rw [StateMachine.run_cons, step_call hidle c]
  exact hrun

/-- A push that runs alone. -/
theorem CallRuns.push {room : Bool} (hcall : CallRuns size s t (.push value) r s')
    (hidle : s.phase t = .idle) (hcompares : PushCompares size s room) :
    r = .pushed room (if room then none else some value) ∧
      s' = if room then s.afterPush size value else s := by
  obtain ⟨last, hlast, hphase, rfl⟩ := hcall.last_state hidle
    (I := PushState size s t value room) .load
    fun x y act hinner hx hstep => hx.step hcompares hinner hstep
  exact hlast.leave hidle hphase

/-- A pop that runs alone. -/
theorem CallRuns.pop {filled : Bool} (hcall : CallRuns size s t .pop r s')
    (hidle : s.phase t = .idle) (hcompares : PopCompares size s filled) :
    (filled = false ∧ r = .popped none ∧ s' = s) ∨
      (filled = true ∧ r = .popped (some (s.value (size.index s.dequeuePos))) ∧
        ∃ residue, s' = s.afterPop size residue) := by
  obtain ⟨last, hlast, hphase, rfl⟩ := hcall.last_state hidle
    (I := PopState size s t filled) .load
    fun x y act hinner hx hstep => hx.step hcompares hinner hstep
  exact hlast.leave hidle hphase

end WholeCalls

/-! ## The list in the ring -/

/-- Between calls, the ring holds the list: `base` elements have been taken out. -/
structure Represents {ι α : Type*} (size : RingSize) (s : Queue ι α) (base : Nat)
    (items : List α) : Prop where
  idle : ∀ t, s.phase t = .idle
  length_le : items.length ≤ size.capacity
  enqueue : s.enqueuePos = (base + items.length) % 2 ^ 64
  dequeue : s.dequeuePos = base % 2 ^ 64
  filled : ∀ i x, items[i]? = some x →
    s.sequence (size.index (base + i)) = (base + i + 1) % 2 ^ 64 ∧
    s.value (size.index (base + i)) = x
  free : ∀ i, items.length ≤ i → i < size.capacity →
    s.sequence (size.index (base + i)) = (base + i) % 2 ^ 64

section Ring

variable {ι α : Type*} {size : RingSize} {s : Queue ι α} {base : Nat} {items : List α}

/-- The constructor rounds up to a power of two. -/
theorem RingSize.isLeast_capacity (requested : Nat) (hrequested : requested ≤ 2 ^ 63) :
    IsLeast {n | (∃ k, n = 2 ^ k) ∧ 2 ≤ n ∧ requested ≤ n}
      (RingSize.ofRequested requested hrequested).capacity := by
  have hle : max 2 requested ≤ (RingSize.ofRequested requested hrequested).capacity :=
    Nat.le_pow_clog (by decide) _
  constructor
  · exact ⟨⟨_, rfl⟩, (le_max_left _ _).trans hle, (le_max_right _ _).trans hle⟩
  · rintro n ⟨⟨k, rfl⟩, htwo, hn⟩
    exact Nat.pow_le_pow_right (by decide)
      ((Nat.clog_le_iff_le_pow (by decide)).2 (max_le htwo hn))

/-- The ring size divides `2 ^ 64`: a wrapped position uses the same cell. -/
theorem RingSize.index_mod (size : RingSize) (p : Nat) :
    size.index (p % 2 ^ 64) = size.index p := by
  have hdvd : size.capacity ∣ 2 ^ 64 := Nat.pow_dvd_pow 2 (Nat.le_succ_of_le size.le)
  rw [size.index_eq_mod, size.index_eq_mod, Nat.mod_mod_of_dvd _ hdvd]

theorem Represents.pushCompares (hs : Represents size s base items) :
    PushCompares size s (decide (items.length < size.capacity)) := by
  intro value
  have htwo := size.two_le_capacity
  have hcap := size.capacity_le
  rw [hs.enqueue, size.index_mod]
  by_cases hroom : items.length < size.capacity
  · have hsequence := hs.free items.length le_rfl hroom
    have hdiff : signedDiff ((base + items.length) % 2 ^ 64) ((base + items.length) % 2 ^ 64) =
        0 := by
      rw [signedDiff_mod, signedDiff_eq (by omega) (by omega), sub_self]
    simp only [Queue.pushBranch, hsequence, hdiff, if_true, hroom, decide_true]
  · -- the cell still holds the oldest element of the last lap
    have hfull : items.length = size.capacity := by
      have := hs.length_le
      omega
    have hlt : 0 < items.length := by omega
    have hsequence := (hs.filled 0 _ (List.getElem?_eq_getElem hlt)).1
    rw [Nat.add_zero] at hsequence
    have hdiff : signedDiff ((base + 1) % 2 ^ 64) ((base + size.capacity) % 2 ^ 64) =
        1 - (size.capacity : Int) := by
      rw [signedDiff_mod, signedDiff_eq (by omega) (by omega)]
      omega
    rw [hfull, size.index_add_capacity]
    simp only [Queue.pushBranch, hsequence, hdiff]
    rw [if_neg (by omega), if_pos (by omega)]
    simp

theorem Represents.popCompares (hs : Represents size s base items) :
    PopCompares size s (decide (items ≠ [])) := by
  have htwo := size.two_le_capacity
  have hnext : (base % 2 ^ 64 + 1) % 2 ^ 64 = (base + 1) % 2 ^ 64 := Nat.mod_add_mod _ _ _
  rw [PopCompares, hs.dequeue, size.index_mod]
  cases items with
  | nil =>
    have hsequence := hs.free 0 le_rfl (by omega)
    have hdiff : signedDiff (base % 2 ^ 64) ((base + 1) % 2 ^ 64) = -1 := by
      rw [signedDiff_mod, signedDiff_eq (by omega) (by omega)]
      omega
    rw [Nat.add_zero] at hsequence
    simp only [Queue.popBranch, hsequence, hnext, hdiff]
    rfl
  | cons oldest rest =>
    have hsequence := (hs.filled 0 oldest rfl).1
    have hdiff : signedDiff ((base + 1) % 2 ^ 64) ((base + 1) % 2 ^ 64) = 0 := by
      rw [signedDiff_mod, signedDiff_eq (by omega) (by omega), sub_self]
    rw [Nat.add_zero] at hsequence
    simp only [Queue.popBranch, hsequence, hnext, hdiff, if_true, ne_eq, reduceCtorEq,
      not_false_eq_true, decide_true]

/-- A successful push appends its value. -/
theorem Represents.afterPush (hs : Represents size s base items)
    (hroom : items.length < size.capacity) (value : α) :
    Represents size (s.afterPush size value) base (items ++ [value]) := by
  have hpos : (s.enqueuePos + 1) % 2 ^ 64 = (base + items.length + 1) % 2 ^ 64 := by
    rw [hs.enqueue, Nat.mod_add_mod]
  have hindex : size.index s.enqueuePos = size.index (base + items.length) := by
    rw [hs.enqueue, size.index_mod]
  have hother : ∀ i, i ≠ items.length → i < size.capacity →
      size.index (base + i) ≠ size.index s.enqueuePos := by
    intro i hne hlt
    rw [hindex]
    exact size.index_ne_of_near (by omega) (by omega) (by omega)
  constructor
  · exact hs.idle
  · rw [List.length_append, List.length_singleton]
    omega
  · rw [List.length_append, List.length_singleton]
    exact hpos
  · exact hs.dequeue
  · intro i x hi
    rcases Nat.lt_trichotomy i items.length with hlt | heq | hgt
    · rw [List.getElem?_append_left hlt] at hi
      have hold := hs.filled i x hi
      simp only [Queue.afterPush]
      have hne := hother i (by omega) (by omega)
      rw [update_of_ne hne, update_of_ne hne]
      exact hold
    · subst heq
      rw [List.getElem?_concat_length] at hi
      cases hi
      simp only [Queue.afterPush]
      rw [← hindex, update_self, update_self]
      exact ⟨hpos, rfl⟩
    · rw [List.getElem?_eq_none (by rw [List.length_append, List.length_singleton]; omega)] at hi
      cases hi
  · intro i hlow hhigh
    rw [List.length_append, List.length_singleton] at hlow
    simp only [Queue.afterPush]
    rw [update_of_ne (hother i (by omega) hhigh)]
    exact hs.free i (by omega) hhigh

/-- A successful pop takes the oldest value. -/
theorem Represents.afterPop {oldest : α} (hs : Represents size s base (oldest :: items))
    (residue : α) : Represents size (s.afterPop size residue) (base + 1) items := by
  have hlength := hs.length_le
  rw [List.length_cons] at hlength
  have hindex : size.index s.dequeuePos = size.index base := by
    rw [hs.dequeue, size.index_mod]
  have hother : ∀ i, i + 1 < size.capacity →
      size.index (base + (i + 1)) ≠ size.index s.dequeuePos := by
    intro i hlt
    rw [hindex]
    exact size.index_ne_of_near (by omega) (by omega) (by omega)
  have hshift : ∀ i, base + 1 + i = base + (i + 1) := by
    intro i
    omega
  constructor
  · exact hs.idle
  · omega
  · have henqueue := hs.enqueue
    rw [List.length_cons] at henqueue
    simp only [Queue.afterPop]
    rw [henqueue]
    congr 1
    omega
  · simp only [Queue.afterPop]
    rw [hs.dequeue, Nat.mod_add_mod]
  · intro i x hi
    have hlt := (List.getElem?_eq_some_iff.1 hi).1
    have hold := hs.filled (i + 1) x hi
    simp only [Queue.afterPop]
    have hne := hother i (by omega)
    rw [hshift, update_of_ne hne, update_of_ne hne]
    exact hold
  · intro i hlow hhigh
    simp only [Queue.afterPop]
    by_cases hlast : i + 1 < size.capacity
    · rw [hshift, update_of_ne (hother i hlast)]
      exact hs.free (i + 1) (by rw [List.length_cons]; omega) hlast
    · -- the cell that has just been emptied is the last free one of the next lap
      have hlap : base + 1 + i = base + size.capacity := by omega
      rw [hlap, size.index_add_capacity, ← hindex, update_self, hs.dequeue,
        Nat.mod_add_mod]

/-- The approximate size is exact unless only the enqueue counter has wrapped. -/
theorem Represents.sizeApprox_eq (hs : Represents size s base items) :
    s.sizeApprox =
      if (base + items.length) / 2 ^ 64 = base / 2 ^ 64 then items.length else 0 := by
  have hlength := hs.length_le
  have hcap := size.capacity_le
  rw [Queue.sizeApprox, hs.enqueue, hs.dequeue]
  split
  · split
    · omega
    · omega
  · split
    · omega
    · rfl

end Ring

/-! ## Sequences of calls -/

section Serial

variable {ι α : Type*} [DecidableEq ι] [Inhabited α] {size : RingSize} {s s' : Queue ι α} {t : ι}
  {base : Nat} {items : List α} {value : α} {c : Call α} {r : Result α}
  {history : List (Call α × Result α)}

omit [DecidableEq ι] in
theorem fresh_represents (size : RingSize) : Represents size (fresh ι α) 0 [] where
  idle := fun _ => rfl
  length_le := Nat.zero_le _
  enqueue := rfl
  dequeue := rfl
  filled := by
    intro i x hi
    cases hi
  free := by
    intro i _ hi
    have hlt : i < 2 ^ 64 := lt_of_lt_of_le hi (size.capacity_le.trans (by decide))
    rw [Nat.zero_add, size.index_eq_mod, Nat.mod_eq_of_lt hi, Nat.mod_eq_of_lt hlt]
    rfl

/-- One call has the result of the list. -/
theorem Represents.call (hs : Represents size s base items) (hcall : CallRuns size s t c r s') :
    r = (Fifo.call size.capacity items c).2 ∧
      Represents size s' (base + Fifo.pops [r]) (Fifo.call size.capacity items c).1 ∧
      Fifo.pushes [r] + items.length =
        Fifo.pops [r] + (Fifo.call size.capacity items c).1.length := by
  cases c with
  | push value =>
    rcases hcall.push (hs.idle t) hs.pushCompares with ⟨rfl, rfl⟩
    by_cases hroom : items.length < size.capacity
    · simp only [Fifo.call, hroom, if_true, decide_true]
      refine ⟨trivial, hs.afterPush hroom value, ?_⟩
      rw [List.length_append, Nat.add_comm, List.length_singleton]
      exact (Nat.zero_add _).symm
    · simp only [Fifo.call, hroom, if_false, decide_false, Bool.false_eq_true]
      exact ⟨trivial, hs, rfl⟩
  | pop =>
    cases items with
    | nil =>
      rcases hcall.pop (hs.idle t) hs.popCompares with ⟨-, rfl, rfl⟩ | ⟨hfilled, -⟩
      · exact ⟨rfl, hs, rfl⟩
      · cases hfilled
    | cons oldest rest =>
      rcases hcall.pop (hs.idle t) hs.popCompares with ⟨hempty, -⟩ | ⟨-, rfl, residue, rfl⟩
      · simp at hempty
      · refine ⟨?_, hs.afterPop residue, ?_⟩
        · have hvalue := (hs.filled 0 oldest rfl).2
          rw [Nat.add_zero] at hvalue
          rw [hs.dequeue, size.index_mod, hvalue]
          rfl
        · rw [List.length_cons, Nat.add_comm rest.length 1, ← Nat.add_assoc]
          rfl

/-- A failed push changes neither the queue nor the caller's value. -/
theorem Represents.push_failed (hs : Represents size s base items) {left : Option α}
    (hcall : CallRuns size s t (.push value) (.pushed false left) s') :
    s' = s ∧ left = some value := by
  rcases hcall.push (hs.idle t) hs.pushCompares with ⟨hresult, rfl⟩
  cases hroom : decide (items.length < size.capacity) with
  | true =>
    rw [hroom] at hresult
    cases hresult
  | false =>
    rw [hroom] at hresult
    cases hresult
    exact ⟨rfl, rfl⟩

/-- After every sequence of calls the ring holds the list of the abstract queue, and the
counters count the calls that succeeded. -/
theorem SerialRun.represents (hrun : SerialRun size (fresh ι α) history s) :
    history.map Prod.snd = (Fifo.run size.capacity (history.map Prod.fst)).2 ∧
      Represents size s (Fifo.pops (history.map Prod.snd))
        (Fifo.run size.capacity (history.map Prod.fst)).1 ∧
      Fifo.pushes (history.map Prod.snd) = Fifo.pops (history.map Prod.snd) +
        (Fifo.run size.capacity (history.map Prod.fst)).1.length := by
  induction hrun with
  | start => exact ⟨rfl, fresh_represents size, rfl⟩
  | @call history s' s'' t c r hrun hcall ih =>
    rcases ih with ⟨hresults, hs, hcount⟩
    rcases hs.call hcall with ⟨hresult, hnext, hlength⟩
    rw [List.map_append, List.map_append, List.map_singleton, List.map_singleton,
      Fifo.run_concat, Fifo.pushes, Fifo.pops, List.countP_append, List.countP_append]
    rw [Fifo.pushes, Fifo.pops] at hcount hlength
    refine ⟨?_, hnext, ?_⟩
    · rw [← hresults, ← hresult]
    · dsimp only
      omega

/-- Every thread can call and gets a result. -/
theorem Represents.exists_callRuns (hs : Represents size s base items) (t : ι) (c : Call α) :
    ∃ r s', CallRuns size s t c r s' := by
  cases c with
  | push value =>
    exact MpmcQueue.exists_callRuns (hs.idle t)
      (I := PushState size s t value (decide (items.length < size.capacity))) .load
      (fun x y act hinner hx hstep => hx.step hs.pushCompares hinner hstep)
      (fun x hx => hx.progresses hs.pushCompares)
  | pop =>
    exact MpmcQueue.exists_callRuns (hs.idle t)
      (I := PopState size s t (decide (items ≠ []))) .load
      (fun x y act hinner hx hstep => hx.step hs.popCompares hinner hstep)
      (fun x hx => hx.progresses hs.popCompares)

/-- On an empty list, a push and a pop return the pushed value. -/
theorem SerialRun.pushPop (hrun : SerialRun size (fresh ι α) history s)
    (hs : Represents size s base []) (t : ι) (value : α) :
    ∃ s', SerialRun size (fresh ι α)
        (history ++ [(Call.push value, Result.pushed true none)] ++
          [(Call.pop, Result.popped (some value))]) s' ∧
      Represents size s' (base + 1) [] := by
  have hroom : ([] : List α).length < size.capacity :=
    Nat.lt_of_lt_of_le Nat.two_pos size.two_le_capacity
  rcases hs.exists_callRuns t (.push value) with ⟨r, s', hpush⟩
  rcases hs.call hpush with ⟨hr, hs', -⟩
  simp only [Fifo.call, hroom, if_true, List.nil_append] at hr hs'
  subst hr
  rcases hs'.exists_callRuns t .pop with ⟨r, s'', hpop⟩
  rcases hs'.call hpop with ⟨hr, hs'', -⟩
  simp only [Fifo.call] at hr hs''
  subst hr
  exact ⟨s'', (hrun.call hpush).call hpop, hs''⟩

/-- The counters can be moved as far as one likes. -/
theorem exists_emptied (size : RingSize) (t : ι) (value : α) (n : Nat) :
    ∃ history s, SerialRun size (fresh ι α) history s ∧ Represents size s n [] ∧
      (Fifo.run size.capacity (history.map Prod.fst)).1 = [] := by
  induction n with
  | zero => exact ⟨[], fresh ι α, .start, fresh_represents size, rfl⟩
  | succ n ih =>
    rcases ih with ⟨history, s, hrun, hs, hitems⟩
    rcases hrun.pushPop hs t value with ⟨s', hrun', hs'⟩
    refine ⟨_, s', hrun', hs', ?_⟩
    rw [Fifo.items_concat, Fifo.items_concat, hitems, Fifo.call]
    split
    · rfl
    · rfl

end Serial

end MpmcQueue

end EdgeOrchestrator
