import EdgeOrchestrator.Network.ReactorWakeup

/-!
# Coroutines on the reactor

The coroutines of `core/async.hpp` as the threads of a process run them: a coroutine
starts on the thread that calls it, above what that thread is doing; at a `co_await` of
the reactor its thread calls `register_waiter`, and either goes on with the coroutine or
leaves it suspended; the reactor thread resumes it later, possibly before the other
thread has returned from `register_waiter`; and it can hop to a thread of a pool.

Every thread has a stack of what it is executing.  A coroutine is named by an arbitrary
index, a `co_await` by its coroutine and its number.  What the coroutines compute is left
to whoever uses the runtime; the operations below say how the stacks, the statuses and
the reactor move.

Main results:

- `Inv.enter`, `Inv.leave`, `Inv.park`, `Inv.call`, `Inv.loop`, `Inv.owner` and `Inv.tick`:
  every operation keeps the invariant.
- `Inv.status_of_parked` and `Inv.status_of_pending`: what the reactor holds is suspended in
  exactly that await, so that it never resumes a coroutine that is running, queued or
  destroyed.
- `Inv.onePerFd`: coroutines that await different descriptors keep the reactor's rule.
-/

namespace EdgeOrchestrator

open Function (update update_of_ne update_self)

namespace Coroutines

open EpollReactor

/-! ## Threads and frames -/

/-- One `co_await` of the reactor, and so one call of `register_waiter`. -/
structure Wait (κ : Type*) where
  coroutine : κ
  /-- How many awaits of the coroutine came before. -/
  number : Nat
  fd : Int
  timeoutMs : BitVec 32
deriving DecidableEq

/-- What the await passes to the reactor. -/
def Wait.awaiter {κ : Type*} (w : Wait κ) : FdAwaiter :=
  ⟨w.fd, w.timeoutMs⟩

/-- What a thread executes: a coroutine, or `register_waiter` on its behalf. -/
inductive Frame (κ : Type*) where
  | coroutine (k : κ)
  | call (w : Wait κ)
deriving DecidableEq

/-- The coroutine on whose behalf a frame executes. -/
def Frame.owner {κ : Type*} : Frame κ → κ
  | .coroutine k => k
  | .call w => w.coroutine

/-- The reactor thread, the thread that starts and stops the reactor, and the thread of
the pool that a coroutine hops to. -/
inductive Thread (κ : Type*) where
  | reactor
  | caller
  | pool (k : κ)
deriving DecidableEq

/-- What a coroutine is doing. -/
inductive Status (κ : Type*) where
  /-- Not started, or its frame is destroyed. -/
  | inactive
  | executing
  | awaiting (w : Wait κ)
  /-- Submitted to the pool. -/
  | queued
deriving DecidableEq

/-- The reactor, the threads and the coroutines. -/
structure Runtime (κ : Type*) where
  reactor : Reactor (Wait κ)
  /-- What each thread executes, the innermost frame first. -/
  stack : Thread κ → List (Frame κ)
  status : κ → Status κ
  /-- How many awaits each coroutine has made. -/
  waits : κ → Nat

section Operations

variable {κ : Type*} [DecidableEq κ] (d : Descriptors) (order : IterationOrder Int)

/-- Nothing has been started. -/
def initial (κ : Type*) : Runtime κ where
  reactor := EpollReactor.initial d (Wait κ)
  stack := fun _ => []
  status := fun _ => .inactive
  waits := fun _ => 0

variable (s : Runtime κ) (t : Thread κ) (k : κ)

/-- The thread begins to execute the coroutine, above what it is doing: a new coroutine
that is called, or one that the pool resumes. -/
def Runtime.enter : Runtime κ :=
  { s with
    stack := update s.stack t (.coroutine k :: s.stack t)
    status := update s.status k .executing }

/-- The thread leaves the coroutine, which ends or is submitted to the pool. -/
def Runtime.leave (status : Status κ) : Runtime κ :=
  { s with
    stack := update s.stack t (s.stack t).tail
    status := update s.status k status }

@[simp]
theorem Runtime.enter_reactor : (s.enter t k).reactor = s.reactor :=
  rfl

@[simp]
theorem Runtime.enter_status : (s.enter t k).status = update s.status k .executing :=
  rfl

@[simp]
theorem Runtime.leave_reactor (status : Status κ) : (s.leave t k status).reactor = s.reactor :=
  rfl

@[simp]
theorem Runtime.leave_status (status : Status κ) :
    (s.leave t k status).status = update s.status k status :=
  rfl

/-- The next await of a coroutine. -/
def Runtime.nextWait (fd : Int) (timeoutMs : BitVec 32) : Wait κ :=
  ⟨k, s.waits k, fd, timeoutMs⟩

/-- The coroutine awaits a descriptor: its thread enters `register_waiter`. -/
def Runtime.park (fd : Int) (timeoutMs : BitVec 32) : Option (Runtime κ) :=
  (callStep d Wait.awaiter s.reactor (s.nextWait k fd timeoutMs) false).map fun reactor =>
    { reactor
      stack := update s.stack t
        (.call (s.nextWait k fd timeoutMs) :: (s.stack t).tail)
      status := update s.status k (.awaiting (s.nextWait k fd timeoutMs))
      waits := update s.waits k (s.waits k + 1) }

/-- The thread executes one step of the `register_waiter` it is in.  When that returns
`true` the coroutine is left suspended, or has been resumed elsewhere; when it returns
`false` the thread goes on with the coroutine, which reads `ready_`. -/
def Runtime.call (s : Runtime κ) (t : Thread κ) (w : Wait κ) (added : Bool) :
    Option (Runtime κ × Option (κ × Bool)) :=
  (callStep d Wait.awaiter s.reactor w added).map fun reactor =>
    match reactor.call w with
    | .returned true =>
      ({ s with reactor, stack := update s.stack t (s.stack t).tail }, none)
    | .returned false =>
      ({ s with
          reactor
          stack := update s.stack t (.coroutine w.coroutine :: (s.stack t).tail)
          status := update s.status w.coroutine .executing },
        some (w.coroutine, reactor.parking.ready w))
    | _ => ({ s with reactor }, none)

/-- The reactor thread executes one step of `run`, if no resumed coroutine keeps it; a
coroutine that it resumes reads `ready_` and runs on this thread. -/
def Runtime.loop (s : Runtime κ) (events : List Int) : Option (Runtime κ × Option (κ × Bool)) :=
  if (s.stack .reactor).isEmpty then
    (loopStep d order s.reactor events).map fun reactor =>
      match s.reactor.loop.pending.head? with
      | some w =>
        ({ s with
            reactor
            stack := update s.stack .reactor [.coroutine w.coroutine]
            status := update s.status w.coroutine .executing },
          some (w.coroutine, reactor.parking.ready w))
      | none => ({ s with reactor }, none)
  else none

/-- The caller's thread executes one step of `start` or `stop` of the reactor. -/
def Runtime.owner : Option (Runtime κ) :=
  (ownerStep d s.reactor).map fun reactor => { s with reactor }

/-- Time passes. -/
def Runtime.tick (nanoseconds : Nat) : Runtime κ :=
  { s with reactor := { s.reactor with clock := s.reactor.clock + nanoseconds } }

end Operations

/-! ## The frames of a coroutine -/

section Frames

variable {κ : Type*} [DecidableEq κ]

/-- How often a frame occurs on the threads that can execute it. -/
def framesOf (stack : Thread κ → List (Frame κ)) (f : Frame κ) : Nat :=
  (stack .reactor).count f + (stack .caller).count f + (stack (.pool f.owner)).count f

/-- A thread of the pool executes frames of its own coroutine only. -/
def OwnFrames (t : Thread κ) (frames : List (Frame κ)) : Prop :=
  ∀ k, t = .pool k → ∀ f ∈ frames, f.owner = k

omit [DecidableEq κ] in
theorem OwnFrames.cons {t : Thread κ} {frames : List (Frame κ)} {f : Frame κ}
    (hf : ∀ k, t = .pool k → f.owner = k) (h : OwnFrames t frames) :
    OwnFrames t (f :: frames) := by
  intro k hk g hg
  rcases List.mem_cons.1 hg with rfl | hg
  · exact hf k hk
  · exact h k hk g hg

omit [DecidableEq κ] in
theorem OwnFrames.tail {t : Thread κ} {frames : List (Frame κ)} (h : OwnFrames t frames) :
    OwnFrames t frames.tail :=
  fun k hk g hg => h k hk g (List.mem_of_mem_tail hg)

/-- Changing what one thread executes. -/
theorem framesOf_update {stack : Thread κ → List (Frame κ)} {t : Thread κ}
    {frames : List (Frame κ)} (hold : OwnFrames t (stack t)) (hnew : OwnFrames t frames)
    (f : Frame κ) :
    framesOf (update stack t frames) f + (stack t).count f =
      framesOf stack f + frames.count f := by
  unfold framesOf
  cases t with
  | reactor | caller =>
    simp only [update_self, update_of_ne, ne_eq, reduceCtorEq,
      not_false_eq_true]
    omega
  | pool k =>
    by_cases hk : f.owner = k
    · subst hk
      simp only [update_self, update_of_ne, ne_eq, reduceCtorEq,
        not_false_eq_true]
      omega
    · have hother : Thread.pool f.owner ≠ Thread.pool k := fun h => hk (Thread.pool.inj h)
      have hzero : (stack (.pool k)).count f = 0 :=
        List.count_eq_zero.2 fun hf => hk (hold k rfl f hf)
      have hzero' : frames.count f = 0 := List.count_eq_zero.2 fun hf => hk (hnew k rfl f hf)
      simp only [update_of_ne, ne_eq, reduceCtorEq, not_false_eq_true, hother]
      omega

end Frames

/-! ## The invariant -/

/-- `register_waiter` has been entered and has not returned. -/
def inProgress : CallPhase → Bool
  | .idle | .returned _ => false
  | _ => true

/-- `register_waiter` has been entered and has not refused. -/
def awaited : CallPhase → Bool
  | .idle | .returned false => false
  | _ => true

/-- `run` is resuming coroutines. -/
def resuming {ρ : Type*} : LoopPhase ρ → Bool
  | .resume _ | .drainResume _ => true
  | _ => false

/-- How many frames a status accounts for. -/
def Status.frames {κ : Type*} : Status κ → Nat
  | .executing => 1
  | _ => 0

section Invariant

variable {κ : Type*} [DecidableEq κ] (d : Descriptors)

/-- Where every coroutine is: executed by one thread, or awaiting with the reactor still
to resume it, or queued, or inactive. -/
structure Inv (resumed reported : Wait κ → Nat) (s : Runtime κ) : Prop where
  reactor : EpollReactor.Inv d Wait.awaiter resumed reported s.reactor
  fresh : ∀ w, s.reactor.call w ≠ .idle → w.number < s.waits w.coroutine
  awaiting : ∀ k w, s.status k = .awaiting w →
    w.coroutine = k ∧ awaited (s.reactor.call w) = true ∧ resumed w = 0
  owed : ∀ w, awaited (s.reactor.call w) = true → resumed w = 0 →
    s.status w.coroutine = .awaiting w
  coroutines : ∀ k, framesOf s.stack (.coroutine k) = (s.status k).frames
  calls : ∀ w, framesOf s.stack (.call w) = (inProgress (s.reactor.call w)).toNat
  own : ∀ t, OwnFrames t (s.stack t)
  resuming : s.stack .reactor ≠ [] → resuming s.reactor.loop = true

variable {d} {resumed reported : Wait κ → Nat} {s : Runtime κ}

theorem initial_inv : Inv d (fun _ => 0) (fun _ => 0) (initial d κ) where
  reactor := EpollReactor.initial_inv
  fresh w hw := absurd rfl hw
  awaiting k w hw := by cases hw
  owed w hw := by cases hw
  coroutines k := rfl
  calls w := rfl
  own t k hk f hf := by cases hf
  resuming h := absurd rfl h

/-! ### What the invariant says -/

/-- A frame on some thread is counted. -/
theorem Inv.framesOf_pos (hs : Inv d resumed reported s) {t : Thread κ} {f : Frame κ}
    (hf : f ∈ s.stack t) : 0 < framesOf s.stack f := by
  unfold framesOf
  have hpos : 0 < (s.stack t).count f := List.count_pos_iff.2 hf
  cases t with
  | reactor | caller => omega
  | pool k =>
    rw [hs.own (.pool k) k rfl f hf]
    omega

theorem Inv.executing_of_mem (hs : Inv d resumed reported s) {t : Thread κ} {k : κ}
    (hk : .coroutine k ∈ s.stack t) : s.status k = .executing := by
  have hpos := hs.framesOf_pos hk
  rw [hs.coroutines] at hpos
  cases hstatus : s.status k with
  | executing => rfl
  | inactive | awaiting w | queued =>
    rw [hstatus] at hpos
    cases hpos

variable {w : Wait κ}

theorem Inv.inProgress_of_mem (hs : Inv d resumed reported s) {t : Thread κ}
    (hw : .call w ∈ s.stack t) : inProgress (s.reactor.call w) = true := by
  have hpos := hs.framesOf_pos hw
  rw [hs.calls] at hpos
  cases hphase : inProgress (s.reactor.call w) with
  | true => rfl
  | false =>
    rw [hphase] at hpos
    cases hpos

/-- A call that has parked its coroutine has not refused. -/
theorem awaited_of_parks {phase : CallPhase} (h : phase.parks = true) : awaited phase = true := by
  cases phase with
  | leaving result | inserted | unlocked => rfl
  | returned result =>
    cases result with
    | true => rfl
    | false => cases h
  | idle | entered | locked | runningSeen | stopUnseen => cases h

/-- The reactor holds a coroutine, in `waiters_` or on its list, only while the
coroutine is suspended in that await. -/
theorem Inv.status_of_held (hs : Inv d resumed reported s)
    (hheld : 0 < (s.reactor.parking.holds Wait.awaiter w).toNat + s.reactor.loop.pending.count w) :
    s.status w.coroutine = .awaiting w := by
  have hbalance := hs.reactor.balance w
  have hle : (s.reactor.call w).parks.toNat ≤ 1 := Bool.toNat_le _
  have hparks : (s.reactor.call w).parks = true := by
    cases hphase : (s.reactor.call w).parks with
    | true => rfl
    | false =>
      rw [hphase] at hbalance
      simp only [Bool.toNat_false] at hbalance
      omega
  exact hs.owed w (awaited_of_parks hparks) (by omega)

/-- A parked waiter belongs to a waiting coroutine. -/
theorem Inv.status_of_parked (hs : Inv d resumed reported s) {fd : Int}
    {waiter : Waiter (Wait κ)} (hw : s.reactor.parking.waiters.lookup fd = some waiter) :
    s.status waiter.call.coroutine = .awaiting waiter.call ∧ waiter.call.fd = fd := by
  have hfd : (Wait.awaiter waiter.call).fd = fd := hs.reactor.parked.key fd waiter hw
  refine ⟨hs.status_of_held ?_, hfd⟩
  have hholds : s.reactor.parking.holds Wait.awaiter waiter.call = true :=
    Parking.holds_iff.2 ⟨waiter, by rw [hfd]; exact hw, rfl⟩
  rw [hholds]
  exact Nat.lt_of_lt_of_le Nat.zero_lt_one (Nat.le_add_right _ _)

theorem Inv.status_of_pending (hs : Inv d resumed reported s) (hw : w ∈ s.reactor.loop.pending)
    : s.status w.coroutine = .awaiting w := by
  apply hs.status_of_held
  have hpos : 0 < s.reactor.loop.pending.count w := List.count_pos_iff.2 hw
  omega

/-- Coroutines that await different descriptors keep the reactor's rule. -/
theorem Inv.onePerFd (hs : Inv d resumed reported s)
    (hdisjoint : ∀ k k' w w', s.status k = .awaiting w → s.status k' = .awaiting w' →
      w.fd = w'.fd → k = k')
    {t : Thread κ} (hw : .call w ∈ s.stack t) (added : Bool)
    : OnePerFd Wait.awaiter s.reactor (.call w added) := by
  intro hphase
  rw [Option.eq_none_iff_forall_ne_some]
  intro waiter hwaiter
  have hbalance := hs.reactor.balance w
  rw [hphase] at hbalance
  simp only [CallPhase.parks, Bool.toNat_false] at hbalance
  rcases hs.status_of_parked hwaiter with ⟨hother, hfd⟩
  have hmine : s.status w.coroutine = .awaiting w := by
    apply hs.owed w
    · rw [hphase]
      rfl
    · omega
  have hsame := hdisjoint _ _ _ _ hmine hother hfd.symm
  rw [hsame, hother] at hmine
  cases hmine
  have hholds : s.reactor.parking.holds Wait.awaiter waiter.call = true :=
    Parking.holds_iff.2 ⟨waiter, hwaiter, rfl⟩
  rw [hholds] at hbalance
  simp at hbalance

/-- After the reactor thread has returned, a coroutine still awaits only while its call
of `register_waiter` is in progress. -/
theorem Inv.inProgress_of_returned (hs : Inv d resumed reported s)
    (hreturned : s.reactor.loop = .returned) {k : κ} (hw : s.status k = .awaiting w)
    : inProgress (s.reactor.call w) = true := by
  rcases hs.awaiting k w hw with ⟨-, hawaited, hresumed⟩
  cases hphase : s.reactor.call w with
  | returned result =>
    cases result with
    | true =>
      have hbalance := hs.reactor.balance w
      have hempty : s.reactor.parking.holds Wait.awaiter w = false := by
        apply Parking.holds_of_none
        rw [(hs.reactor.shutdown.finished hreturned).1]
        exact AList.lookup_empty _
      rw [hphase, hempty, hreturned, hresumed] at hbalance
      simp [CallPhase.parks, LoopPhase.pending] at hbalance
    | false =>
      rw [hphase] at hawaited
      cases hawaited
  | idle =>
    rw [hphase] at hawaited
    cases hawaited
  | _ => rfl

/-! ### Changing the stack of one thread -/

section Stacks

variable {t : Thread κ} {frames : List (Frame κ)}

theorem Inv.coroutines_update (hs : Inv d resumed reported s) (hown : OwnFrames t frames)
    {status : κ → Status κ}
    (hcount : ∀ k, frames.count (.coroutine k) + (s.status k).frames =
      (s.stack t).count (.coroutine k) + (status k).frames) (k : κ) :
    framesOf (update s.stack t frames) (.coroutine k) = (status k).frames := by
  have hupdate := framesOf_update (hs.own t) hown (.coroutine k)
  rw [hs.coroutines k] at hupdate
  have := hcount k
  omega

theorem Inv.calls_update (hs : Inv d resumed reported s) (hown : OwnFrames t frames)
    {call : Wait κ → CallPhase}
    (hcount : ∀ w, frames.count (.call w) + (inProgress (s.reactor.call w)).toNat =
      (s.stack t).count (.call w) + (inProgress (call w)).toNat) (w : Wait κ) :
    framesOf (update s.stack t frames) (.call w) = (inProgress (call w)).toNat := by
  have hupdate := framesOf_update (hs.own t) hown (.call w)
  rw [hs.calls w] at hupdate
  have := hcount w
  omega

theorem Inv.own_update (hs : Inv d resumed reported s) (hown : OwnFrames t frames)
    (t' : Thread κ) : OwnFrames t' (update s.stack t frames t') := by
  by_cases ht : t' = t
  · subst ht
    rw [update_self]
    exact hown
  · rw [update_of_ne ht]
    exact hs.own t'

/-- The reactor thread begins a coroutine only above another one. -/
theorem Inv.resuming_update (hs : Inv d resumed reported s)
    (hreactor : t = .reactor → s.stack .reactor = [] → frames = [])
    (hne : update s.stack t frames .reactor ≠ []) :
    Coroutines.resuming s.reactor.loop = true := by
  by_cases ht : t = .reactor
  · subst ht
    rw [update_self] at hne
    exact hs.resuming fun hempty => hne (hreactor rfl hempty)
  · rw [update_of_ne (Ne.symm ht)] at hne
    exact hs.resuming hne

end Stacks

/-! ### The operations keep it -/

/-- The status of a coroutine that does not await changes to one in which it does not. -/
theorem Inv.awaiting_update (hs : Inv d resumed reported s) {k : κ} {status : Status κ}
    (hstatus : ∀ w, status ≠ .awaiting w) (j : κ) (w : Wait κ)
    (hw : update s.status k status j = .awaiting w) :
    w.coroutine = j ∧ awaited (s.reactor.call w) = true ∧ resumed w = 0 := by
  by_cases hj : j = k
  · rw [hj, update_self] at hw
    exact absurd hw (hstatus w)
  · rw [update_of_ne hj] at hw
    exact hs.awaiting j w hw

theorem Inv.owed_update (hs : Inv d resumed reported s) {k : κ} {status : Status κ}
    (hk : ∀ w, s.status k ≠ .awaiting w) (w : Wait κ)
    (hawaited : awaited (s.reactor.call w) = true) (hresumed : resumed w = 0) :
    update s.status k status w.coroutine = .awaiting w := by
  have howed := hs.owed w hawaited hresumed
  have hne : w.coroutine ≠ k := by
    rintro rfl
    exact hk w howed
  rw [update_of_ne hne]
  exact howed

/-- Resuming a coroutine keeps the invariant. -/
theorem Inv.enter (hs : Inv d resumed reported s) {t : Thread κ} {k : κ}
    (hidle : s.status k = .inactive ∨ s.status k = .queued)
    (hreactor : t = .reactor → s.stack .reactor ≠ []) (hpool : ∀ j, t = .pool j → k = j) :
    Inv d resumed reported (s.enter t k) := by
  have hown : OwnFrames t (.coroutine k :: s.stack t) := (hs.own t).cons hpool
  have hk : ∀ w, s.status k ≠ .awaiting w := by
    intro w hw
    rcases hidle with h | h <;> rw [h] at hw <;> cases hw
  have hframes : (s.status k).frames = 0 := by
    rcases hidle with h | h <;> rw [h] <;> rfl
  refine ⟨hs.reactor, hs.fresh, hs.awaiting_update (fun w hw => by cases hw), hs.owed_update hk,
    hs.coroutines_update hown ?_, hs.calls_update hown ?_, hs.own_update hown,
    hs.resuming_update fun ht hempty => absurd hempty (hreactor ht)⟩
  · intro j
    rw [Runtime.enter_status]
    by_cases hj : j = k
    · subst hj
      rw [update_self, List.count_cons_self, hframes]
      rfl
    · rw [update_of_ne hj, List.count_cons_of_ne (by simpa using Ne.symm hj)]
  · intro w
    rw [Runtime.enter_reactor, List.count_cons_of_ne (by simp)]

/-- Leaving a coroutine keeps the invariant. -/
theorem Inv.leave (hs : Inv d resumed reported s) {t : Thread κ} {k : κ} {rest : List (Frame κ)}
    (hstack : s.stack t = .coroutine k :: rest) {status : Status κ}
    (hstatus : status = .inactive ∨ status = .queued) :
    Inv d resumed reported (s.leave t k status) := by
  have hexecuting : s.status k = .executing := by
    apply hs.executing_of_mem (t := t)
    rw [hstack]
    exact List.mem_cons_self
  have hframes : status.frames = 0 := by
    rcases hstatus with h | h <;> rw [h] <;> rfl
  have hown : OwnFrames t (s.stack t).tail := (hs.own t).tail
  refine ⟨hs.reactor, hs.fresh, hs.awaiting_update ?_, hs.owed_update ?_,
    hs.coroutines_update hown ?_, hs.calls_update hown ?_, hs.own_update hown,
    hs.resuming_update ?_⟩
  · intro w hw
    rcases hstatus with h | h <;> rw [h] at hw <;> cases hw
  · intro w hw
    rw [hexecuting] at hw
    cases hw
  · intro j
    rw [Runtime.leave_status, hstack, List.tail_cons]
    by_cases hj : j = k
    · subst hj
      rw [update_self, List.count_cons_self, hframes, hexecuting]
      rfl
    · rw [update_of_ne hj, List.count_cons_of_ne (by simpa using Ne.symm hj)]
  · intro w
    rw [Runtime.leave_reactor, hstack, List.tail_cons, List.count_cons_of_ne (by simp)]
  · intro ht hempty
    rw [ht, hempty]
    rfl

theorem inProgress_awaited {phase : CallPhase} (h : inProgress phase = true) :
    awaited phase = true := by
  cases phase with
  | idle | returned result => cases h
  | _ => rfl

/-- The number of the next await has not been used. -/
theorem Inv.call_nextWait (hs : Inv d resumed reported s) (k : κ) (fd : Int)
    (timeoutMs : BitVec 32) : s.reactor.call (s.nextWait k fd timeoutMs) = .idle := by
  by_contra hused
  exact Nat.lt_irrefl _ (hs.fresh _ hused)

/-- A call that has not parked its coroutine has not been resumed. -/
theorem Inv.resumed_eq_zero (hs : Inv d resumed reported s) {w : Wait κ}
    (hw : (s.reactor.call w).parks = false) : resumed w = 0 := by
  have hbalance := hs.reactor.balance w
  rw [hw] at hbalance
  simp only [Bool.toNat_false] at hbalance
  omega

/-- Parking on a descriptor keeps the invariant. -/
theorem Inv.park (hs : Inv d resumed reported s) {t : Thread κ} {k : κ}
    {rest : List (Frame κ)} (hstack : s.stack t = .coroutine k :: rest) {fd : Int}
    {timeoutMs : BitVec 32} {s' : Runtime κ} (hpark : s.park d t k fd timeoutMs = some s') :
    Inv d resumed reported s' := by
  have hidle := hs.call_nextWait k fd timeoutMs
  have hexecuting : s.status k = .executing := by
    apply hs.executing_of_mem (t := t)
    rw [hstack]
    exact List.mem_cons_self
  unfold Runtime.park at hpark
  rcases Option.map_eq_some_iff.1 hpark with ⟨reactor, hstep, rfl⟩
  have hreactor := hs.reactor.callStep (by intro hphase; rw [hidle] at hphase; cases hphase) hstep
  have hentered : reactor = { s.reactor with
      call := update s.reactor.call (s.nextWait k fd timeoutMs) .entered } := by
    unfold callStep at hstep
    rw [hidle] at hstep
    exact (Option.some.inj hstep).symm
  have hzero : resumed (s.nextWait k fd timeoutMs) = 0 := hs.resumed_eq_zero (by rw [hidle]; rfl)
  have hown : OwnFrames t (.call (s.nextWait k fd timeoutMs) :: (s.stack t).tail) := by
    refine (hs.own t).tail.cons fun j hj => ?_
    have hmine := hs.own t j hj (.coroutine k) (by rw [hstack]; exact List.mem_cons_self)
    exact hmine
  refine ⟨hreactor, ?_, ?_, ?_, hs.coroutines_update hown ?_, hs.calls_update hown ?_,
    hs.own_update hown, ?_⟩
  · intro w hw
    rw [hentered] at hw
    by_cases hnew : w = s.nextWait k fd timeoutMs
    · subst hnew
      simp [Runtime.nextWait]
    · simp only [update_of_ne hnew] at hw
      have hlt := hs.fresh w hw
      by_cases hk : w.coroutine = k
      · rw [hk] at hlt ⊢
        simp only [update_self]
        omega
      · simp only [update_of_ne hk]
        exact hlt
  · intro j w hw
    by_cases hj : j = k
    · subst hj
      simp only [update_self] at hw
      cases hw
      refine ⟨rfl, ?_, hzero⟩
      rw [hentered]
      simp only [update_self]
      rfl
    · simp only [update_of_ne hj] at hw
      rcases hs.awaiting j w hw with ⟨hown, hawaited, hresumed⟩
      have hnew : w ≠ s.nextWait k fd timeoutMs := by
        rintro rfl
        exact hj hown.symm
      refine ⟨hown, ?_, hresumed⟩
      rw [hentered]
      simp only [update_of_ne hnew]
      exact hawaited
  · intro w hawaited hresumed
    rw [hentered] at hawaited
    by_cases hnew : w = s.nextWait k fd timeoutMs
    · rw [hnew]
      exact update_self ..
    · simp only [update_of_ne hnew] at hawaited
      have howed := hs.owed w hawaited hresumed
      have hk : w.coroutine ≠ k := by
        rintro rfl
        rw [hexecuting] at howed
        cases howed
      simp only [update_of_ne hk]
      exact howed
  · intro j
    simp only
    rw [hstack, List.tail_cons, List.count_cons_of_ne (by simp)]
    by_cases hj : j = k
    · subst hj
      rw [update_self, List.count_cons_self, hexecuting]
      rfl
    · rw [update_of_ne hj, List.count_cons_of_ne (by simpa using Ne.symm hj)]
  · intro w
    rw [hentered]
    simp only
    rw [hstack, List.tail_cons, List.count_cons_of_ne (by simp : Frame.coroutine k ≠ Frame.call w)]
    by_cases hnew : w = s.nextWait k fd timeoutMs
    · rw [hnew, update_self, List.count_cons_self, hidle]
      rfl
    · rw [update_of_ne hnew, List.count_cons_of_ne (by simpa using Ne.symm hnew)]
  · have hloop : reactor.loop = s.reactor.loop := by rw [hentered]
    simp only
    rw [hloop]
    refine hs.resuming_update fun ht hempty => ?_
    rw [ht, hempty] at hstack
    cases hstack

end Invariant

/-! ### The steps of the reactor -/

section ReactorSteps

variable {ρ : Type*} [DecidableEq ρ] {d : Descriptors} {awaiter : ρ → FdAwaiter}
  {s t : Reactor ρ}

/-- A step of `register_waiter` is a step of one call. -/
theorem CallTransition.call_other {r q : ρ} (h : CallTransition d awaiter s r t) (hq : q ≠ r) :
    t.call q = s.call q := by
  cases h <;> exact update_of_ne hq _ _

theorem CallTransition.call_ne_idle {r : ρ} (h : CallTransition d awaiter s r t) :
    t.call r ≠ .idle := by
  cases h with
  | leave result hphase =>
    simp only [update_self]
    cases result <;> simp
  | _ => simp [EpollReactor.refuse]

theorem LoopTransition.call_eq {order : IterationOrder Int} (h : LoopTransition d order s t) :
    t.call = s.call := by
  cases h <;> rfl

omit [DecidableEq ρ] in
theorem OwnerTransition.call_eq (h : OwnerTransition d s t) : t.call = s.call := by
  cases h <;> rfl

end ReactorSteps

section Invariant

variable {κ : Type*} [DecidableEq κ] {d : Descriptors} {resumed reported : Wait κ → Nat}
  {s : Runtime κ}

variable {w : Wait κ}

/-- The calls of the other awaits, and the reactor thread, are where they were. -/
theorem Inv.fresh_call (hs : Inv d resumed reported s) {reactor : Reactor (Wait κ)}
    (hother : ∀ q, q ≠ w → reactor.call q = s.reactor.call q)
    (hw : inProgress (s.reactor.call w) = true) (q : Wait κ) (hq : reactor.call q ≠ .idle) :
    q.number < s.waits q.coroutine := by
  apply hs.fresh q
  by_cases hqw : q = w
  · intro hidle
    rw [hqw] at hidle
    rw [hidle] at hw
    cases hw
  · rw [← hother q hqw]
    exact hq

/-- A step inside `register_waiter`, or the return of `true`. -/
theorem Inv.keepsAwaiting (hs : Inv d resumed reported s) {reactor : Reactor (Wait κ)}
    (hother : ∀ q, q ≠ w → reactor.call q = s.reactor.call q)
    (hw : inProgress (s.reactor.call w) = true) (hawaited : awaited (reactor.call w) = true) :
    (∀ k q, s.status k = .awaiting q →
      q.coroutine = k ∧ awaited (reactor.call q) = true ∧ resumed q = 0) ∧
    (∀ q, awaited (reactor.call q) = true → resumed q = 0 →
      s.status q.coroutine = .awaiting q) := by
  refine ⟨?_, ?_⟩
  · intro k q hq
    rcases hs.awaiting k q hq with ⟨hown, hbefore, hresumed⟩
    refine ⟨hown, ?_, hresumed⟩
    by_cases hqw : q = w
    · rw [hqw]
      exact hawaited
    · rw [hother q hqw]
      exact hbefore
  · intro q hq hresumed
    apply hs.owed q ?_ hresumed
    by_cases hqw : q = w
    · rw [hqw]
      exact inProgress_awaited hw
    · rw [← hother q hqw]
      exact hq

/-- An await returns: its coroutine is executed, and the others are where they were. -/
theorem Inv.awaitReturns (hs : Inv d resumed reported s) (resumed' : Wait κ → Nat)
    (hw : s.status w.coroutine = .awaiting w) {call : Wait κ → CallPhase}
    (hcall : ∀ q, q ≠ w → call q = s.reactor.call q)
    (hresumed : ∀ q, q ≠ w → resumed' q = resumed q)
    (hreturned : awaited (call w) = true → resumed' w ≠ 0) :
    (∀ k q, update s.status w.coroutine .executing k = .awaiting q →
      q.coroutine = k ∧ awaited (call q) = true ∧ resumed' q = 0) ∧
    (∀ q, awaited (call q) = true → resumed' q = 0 →
      update s.status w.coroutine .executing q.coroutine = .awaiting q) := by
  refine ⟨?_, ?_⟩
  · intro k q hq
    by_cases hk : k = w.coroutine
    · rw [hk, update_self] at hq
      cases hq
    · rw [update_of_ne hk] at hq
      rcases hs.awaiting k q hq with ⟨hmine, hbefore, hzero⟩
      have hqw : q ≠ w := by
        rintro rfl
        exact hk hmine.symm
      rw [hcall q hqw, hresumed q hqw]
      exact ⟨hmine, hbefore, hzero⟩
  · intro q hq hzero
    have hqw : q ≠ w := by
      rintro rfl
      exact hreturned hq hzero
    rw [hcall q hqw] at hq
    rw [hresumed q hqw] at hzero
    have howed := hs.owed q hq hzero
    have hk : q.coroutine ≠ w.coroutine := by
      intro hk
      rw [hk, hw] at howed
      cases howed
      exact hqw rfl
    rw [update_of_ne hk]
    exact howed

/-- A step inside an await keeps the invariant. -/
theorem Inv.call (hs : Inv d resumed reported s) {t : Thread κ} {w : Wait κ}
    {rest : List (Frame κ)} (hstack : s.stack t = .call w :: rest) {added : Bool}
    (hone : OnePerFd Wait.awaiter s.reactor (.call w added)) {s' : Runtime κ}
    {resumption : Option (κ × Bool)} (hcall : s.call d t w added = some (s', resumption)) :
    Inv d resumed reported s' := by
  have hw : inProgress (s.reactor.call w) = true := by
    apply hs.inProgress_of_mem (t := t)
    rw [hstack]
    exact List.mem_cons_self
  unfold Runtime.call at hcall
  rcases Option.map_eq_some_iff.1 hcall with ⟨reactor, hstep, hresult⟩
  have hreactor := hs.reactor.callStep hone hstep
  have htransition := callStep_transition hstep
  have hother : ∀ q, q ≠ w → reactor.call q = s.reactor.call q :=
    fun q hq => CallTransition.call_other htransition hq
  have hloop : reactor.loop = s.reactor.loop := htransition.frame.1
  have hfresh := hs.fresh_call hother hw
  have hnotReactor : t = .reactor → s.stack .reactor = [] → False := by
    intro ht hempty
    rw [ht, hempty] at hstack
    cases hstack
  cases hphase : reactor.call w with
  | returned result =>
    rw [hphase] at hresult
    cases result with
    | true =>
      cases hresult
      rcases hs.keepsAwaiting hother hw (by rw [hphase]; rfl) with ⟨hawaiting, howed⟩
      have hown : OwnFrames t (s.stack t).tail := (hs.own t).tail
      refine ⟨hreactor, hfresh, hawaiting, howed, hs.coroutines_update hown ?_,
        hs.calls_update hown ?_, hs.own_update hown, ?_⟩
      · intro k
        rw [hstack, List.tail_cons, List.count_cons_of_ne (by simp)]
      · intro q
        rw [hstack, List.tail_cons]
        by_cases hqw : q = w
        · rw [hqw, List.count_cons_self, hphase, hw]
          rfl
        · rw [hother q hqw, List.count_cons_of_ne (by simpa using Ne.symm hqw)]
      · simp only
        rw [hloop]
        exact hs.resuming_update fun ht hempty => absurd hempty fun h => hnotReactor ht h
    | false =>
      cases hresult
      have hzero : resumed w = 0 := by
        have hbalance := hreactor.balance w
        rw [hphase] at hbalance
        simp only [CallPhase.parks, Bool.toNat_false] at hbalance
        omega
      have hawaiting : s.status w.coroutine = .awaiting w :=
        hs.owed w (inProgress_awaited hw) hzero
      rcases hs.awaitReturns resumed hawaiting hother (fun _ _ => rfl)
        (fun h => by rw [hphase] at h; cases h) with ⟨hothers, howed⟩
      have hown : OwnFrames t (.coroutine w.coroutine :: (s.stack t).tail) := by
        refine (hs.own t).tail.cons fun j hj => ?_
        exact hs.own t j hj (.call w) (by rw [hstack]; exact List.mem_cons_self)
      refine ⟨hreactor, hfresh, hothers, howed, hs.coroutines_update hown ?_,
        hs.calls_update hown ?_, hs.own_update hown, ?_⟩
      · intro k
        simp only
        rw [hstack, List.tail_cons,
          List.count_cons_of_ne (by simp : Frame.call w ≠ .coroutine k)]
        by_cases hk : k = w.coroutine
        · rw [hk, update_self, List.count_cons_self, hawaiting]
          rfl
        · rw [update_of_ne hk, List.count_cons_of_ne (by simpa using Ne.symm hk)]
      · intro q
        rw [hstack, List.tail_cons, List.count_cons_of_ne (by simp)]
        by_cases hqw : q = w
        · rw [hqw, List.count_cons_self, hphase, hw]
          rfl
        · rw [hother q hqw, List.count_cons_of_ne (by simpa using Ne.symm hqw)]
      · simp only
        rw [hloop]
        exact hs.resuming_update fun ht hempty => absurd hempty fun h => hnotReactor ht h
  | idle => exact absurd hphase (CallTransition.call_ne_idle htransition)
  | entered | locked | runningSeen | stopUnseen | inserted | leaving result | unlocked =>
    rw [hphase] at hresult
    cases hresult
    rcases hs.keepsAwaiting hother hw (by rw [hphase]; rfl) with ⟨hawaiting, howed⟩
    refine ⟨hreactor, hfresh, hawaiting, howed, hs.coroutines, ?_, hs.own, ?_⟩
    · intro q
      by_cases hqw : q = w
      · rw [hqw, hs.calls, hw, hphase]
        rfl
      · rw [hother q hqw, hs.calls]
    · rw [hloop]
      exact hs.resuming

/-- The reactor thread resumes at most the first coroutine of its list. -/
theorem Inv.loop (hs : Inv d resumed reported s) {order : IterationOrder Int}
    {events : List Int} {s' : Runtime κ} {resumption : Option (κ × Bool)}
    (hloop : s.loop d order events = some (s', resumption)) :
    ∃ resumed' reported', Inv d resumed' reported' s' := by
  unfold Runtime.loop at hloop
  rcases Option.ite_none_right_eq_some.1 hloop with ⟨hempty, hmap⟩
  rcases Option.map_eq_some_iff.1 hmap with ⟨reactor, hstep, hresult⟩
  have hempty : s.stack .reactor = [] := List.isEmpty_iff.1 hempty
  have hreactor := hs.reactor.loopStep hstep
  have hcall : reactor.call = s.reactor.call := LoopTransition.call_eq (loopStep_transition hstep)
  cases hhead : s.reactor.loop.pending.head? with
  | none =>
    rw [hhead] at hresult
    cases hresult
    refine ⟨_, _, hreactor, ?_, ?_, ?_, hs.coroutines, ?_, hs.own, ?_⟩
    · rw [hcall]
      exact hs.fresh
    · intro k w hw
      rw [hcall]
      simpa [resumes, hhead] using hs.awaiting k w hw
    · intro w hw hresumed
      rw [hcall] at hw
      exact hs.owed w hw (by simpa [resumes, hhead] using hresumed)
    · rw [hcall]
      exact hs.calls
    · exact fun hne => absurd hempty hne
  | some w =>
    rw [hhead] at hresult
    cases hresult
    have hpending : w ∈ s.reactor.loop.pending := List.mem_of_mem_head? hhead
    have hawaiting := hs.status_of_pending hpending
    have hown : OwnFrames Thread.reactor [Frame.coroutine w.coroutine] :=
      fun k hk => by cases hk
    rcases hs.awaitReturns (fun q => resumed q + (resumes q s.reactor (.loop events)).toNat)
      hawaiting (fun q _ => congrFun hcall q)
      (fun q hq => by simp [resumes, hhead, Ne.symm hq])
      (fun _ => by simp [resumes, hhead]) with ⟨hothers, howed⟩
    refine ⟨_, _, hreactor, ?_, hothers, howed, hs.coroutines_update hown ?_,
      hs.calls_update hown ?_, hs.own_update hown, ?_⟩
    · rw [hcall]
      exact hs.fresh
    · intro k
      simp only
      rw [hempty]
      by_cases hk : k = w.coroutine
      · rw [hk, update_self, hawaiting]
        simp [Status.frames]
      · rw [update_of_ne hk, List.count_cons_of_ne (by simpa using Ne.symm hk)]
    · intro q
      rw [hempty, hcall, List.count_cons_of_ne (by simp)]
    · intro _
      cases loopStep_transition hstep with
      | resume r rest hphase | drainResume r rest hphase => rfl
      | checkStop hphase | computeTimeout hphase _ | poll _ _ hphase _
      | harvest _ hphase _ _ _ | resumed hphase | drain hphase _ _ _ | drained hphase =>
        rw [hphase] at hhead
        cases hhead

theorem Inv.owner (hs : Inv d resumed reported s) {s' : Runtime κ}
    (howner : s.owner d = some s') : Inv d resumed reported s' := by
  unfold Runtime.owner at howner
  rcases Option.map_eq_some_iff.1 howner with ⟨reactor, hstep, rfl⟩
  have hcall : reactor.call = s.reactor.call := OwnerTransition.call_eq (ownerStep_transition hstep)
  refine ⟨hs.reactor.ownerStep hstep, ?_, ?_, ?_, hs.coroutines, ?_, hs.own, ?_⟩
  · rw [hcall]
    exact hs.fresh
  · rw [hcall]
    exact hs.awaiting
  · rw [hcall]
    exact hs.owed
  · rw [hcall]
    exact hs.calls
  · intro hne
    have hbusy := hs.resuming hne
    cases ownerStep_transition hstep with
    | spawn hphase =>
      have hoff := hs.reactor.shutdown.owner
      rw [hphase] at hoff
      have hoff := hoff.2
      cases hloop : s.reactor.loop with
      | resume toResume | drainResume toResume =>
        rw [hloop] at hoff
        cases hoff
      | _ =>
        rw [hloop] at hbusy
        cases hbusy
    | _ => exact hbusy

theorem Inv.tick (hs : Inv d resumed reported s) (nanoseconds : Nat) :
    Inv d resumed reported (s.tick nanoseconds) where
  reactor := { hs.reactor with shutdown := { hs.reactor.shutdown with } }
  fresh := hs.fresh
  awaiting := hs.awaiting
  owed := hs.owed
  coroutines := hs.coroutines
  calls := hs.calls
  own := hs.own
  resuming := hs.resuming

/-! ### What the operations do -/

variable {s' : Runtime κ}

/-- `register_waiter` goes on or suspends the coroutine, or it refuses and the thread goes
on with the coroutine. -/
theorem Runtime.call_cases {t : Thread κ} {added : Bool} {resumption : Option (κ × Bool)}
    (hcall : s.call d t w added = some (s', resumption)) :
    callStep d Wait.awaiter s.reactor w added = some s'.reactor ∧
      ((resumption = none ∧ s'.status = s.status ∧
        (s'.stack = s.stack ∨ s'.stack = update s.stack t (s.stack t).tail)) ∨
      (∃ ready, resumption = some (w.coroutine, ready) ∧
        s'.reactor.call w = .returned false ∧
        s'.status = update s.status w.coroutine .executing ∧
        s'.stack = update s.stack t (.coroutine w.coroutine :: (s.stack t).tail))) := by
  unfold Runtime.call at hcall
  rcases Option.map_eq_some_iff.1 hcall with ⟨reactor, hstep, hresult⟩
  cases hphase : reactor.call w with
  | returned result =>
    rw [hphase] at hresult
    cases result with
    | true =>
      cases hresult
      exact ⟨hstep, Or.inl ⟨rfl, rfl, Or.inr rfl⟩⟩
    | false =>
      cases hresult
      exact ⟨hstep, Or.inr ⟨_, rfl, hphase, rfl, rfl⟩⟩
  | _ =>
    rw [hphase] at hresult
    cases hresult
    exact ⟨hstep, Or.inl ⟨rfl, rfl, Or.inl rfl⟩⟩

/-- A coroutine that is refused was awaiting. -/
theorem Inv.awaiting_of_refused (hs : Inv d resumed reported s) {added : Bool}
    {reactor : Reactor (Wait κ)} (hw : inProgress (s.reactor.call w) = true)
    (hone : OnePerFd Wait.awaiter s.reactor (.call w added))
    (hstep : callStep d Wait.awaiter s.reactor w added = some reactor)
    (hrefused : reactor.call w = .returned false) : s.status w.coroutine = .awaiting w := by
  apply hs.owed w (inProgress_awaited hw)
  have hbalance := (hs.reactor.callStep hone hstep).balance w
  rw [hrefused] at hbalance
  simp only [CallPhase.parks, Bool.toNat_false] at hbalance
  omega

/-- `run` goes on, or it resumes the first coroutine of its list. -/
theorem Runtime.loop_cases {order : IterationOrder Int} {events : List Int}
    {resumption : Option (κ × Bool)} (hloop : s.loop d order events = some (s', resumption)) :
    loopStep d order s.reactor events = some s'.reactor ∧
      ((resumption = none ∧ s'.status = s.status ∧ s'.stack = s.stack) ∨
      (∃ w ready, w ∈ s.reactor.loop.pending ∧ resumption = some (w.coroutine, ready) ∧
        s'.status = update s.status w.coroutine .executing ∧
        s'.stack = update s.stack .reactor [.coroutine w.coroutine])) := by
  unfold Runtime.loop at hloop
  rcases Option.ite_none_right_eq_some.1 hloop with ⟨-, hmap⟩
  rcases Option.map_eq_some_iff.1 hmap with ⟨reactor, hstep, hresult⟩
  cases hhead : s.reactor.loop.pending.head? with
  | none =>
    rw [hhead] at hresult
    cases hresult
    exact ⟨hstep, Or.inl ⟨rfl, rfl, rfl⟩⟩
  | some w =>
    rw [hhead] at hresult
    cases hresult
    exact ⟨hstep, Or.inr ⟨w, _, List.mem_of_mem_head? hhead, rfl, rfl, rfl⟩⟩

theorem Runtime.park_cases {t : Thread κ} {k : κ} {fd : Int} {timeoutMs : BitVec 32}
    (hpark : s.park d t k fd timeoutMs = some s') :
    callStep d Wait.awaiter s.reactor (s.nextWait k fd timeoutMs) false = some s'.reactor ∧
      s'.status = update s.status k (.awaiting (s.nextWait k fd timeoutMs)) ∧
      s'.stack = update s.stack t
        (.call (s.nextWait k fd timeoutMs) :: (s.stack t).tail) := by
  unfold Runtime.park at hpark
  rcases Option.map_eq_some_iff.1 hpark with ⟨reactor, hstep, rfl⟩
  exact ⟨hstep, rfl, rfl⟩

omit [DecidableEq κ] in
theorem Runtime.owner_cases (howner : s.owner d = some s') :
    ownerStep d s.reactor = some s'.reactor ∧ s'.status = s.status ∧ s'.stack = s.stack := by
  unfold Runtime.owner at howner
  rcases Option.map_eq_some_iff.1 howner with ⟨reactor, hstep, rfl⟩
  exact ⟨hstep, rfl, rfl⟩

end Invariant

end Coroutines

end EdgeOrchestrator
