import EdgeOrchestrator.Library.StateMachine
import EdgeOrchestrator.Library.UnorderedMap
import EdgeOrchestrator.Core.Types
import Mathlib.Logic.Function.Basic

/-!
# The epoll reactor

The reactor of `network/reactor.cpp`: coroutines that wait for a descriptor are
parked by `register_waiter`, on any thread, and resumed by the one reactor thread
when epoll reports the descriptor, when the deadline has passed, or when the
reactor shuts down.

`mutex_` protects `waiters_`, but neither `running_` nor the stop flag of the
thread.  The steps of `register_waiter` are therefore separate, so that `stop` can
come between any two of them.  What `run` does under the lock reads nothing that
another thread writes without it, and is one step that needs the lock to be free.
A resumed coroutine that waits again calls `register_waiter` like any other thread.
`start` and `stop` are called by one owner, and what they write to `running_` and
`thread_` is seen by the other threads at once.

Of epoll it is assumed that only armed descriptors are reported, that a one-shot
registration is disarmed by its report, and that removal disarms it.  Which armed
descriptors `epoll_wait` reports, and whether `EPOLL_CTL_ADD` succeeds, is up to the
label.

The runs that the results are about are those of `onePerFd`; `resumes` and `reports`
say which of their steps resume a coroutine and report its descriptor.
-/

namespace EdgeOrchestrator

open Function (update)

namespace EpollReactor

/-! ## State -/

/-- The fields of an `FdAwaiter` that are fixed by its constructor. -/
structure FdAwaiter where
  fd : Int
  timeoutMs : BitVec 32

/-- An entry of `waiters_`.  The awaiter and the handle are those of the call of
`register_waiter` that has parked it. -/
structure Waiter (ρ : Type*) where
  call : ρ
  /-- A point of the steady clock, in nanoseconds. -/
  deadline : Int

/-- What the interest list of the epoll instance says about a descriptor. -/
inductive Interest where
  | absent
  /-- Registered for good, as the wake descriptor is. -/
  | level
  | armed
  /-- A one-shot registration that has been reported. -/
  | fired
deriving DecidableEq

/-- The parked waiters, the interest list and the `ready_` flags of the awaiters. -/
structure Parking (ρ : Type*) where
  waiters : UnorderedMap Int (Waiter ρ)
  interest : Int → Interest
  ready : ρ → Bool

/-- Progress of one call of `register_waiter`, named by what it has done. -/
inductive CallPhase where
  | idle
  | entered
  | locked
  | runningSeen
  | stopUnseen
  | inserted
  /-- The result is known, the lock is still held. -/
  | leaving (result : Bool)
  | unlocked
  | returned (result : Bool)
deriving DecidableEq

/-- Progress of `run`, named by what it does next. -/
inductive LoopPhase (ρ : Type*) where
  | notStarted
  | checkStop
  | computeTimeout
  | epollWait (timeoutMs : Int)
  | harvest (events : List Int)
  | resume (toResume : List ρ)
  | drain
  | drainResume (toResume : List ρ)
  | returned

/-- Progress of the owner inside `start` or `stop`. -/
inductive OwnerPhase where
  | outside
  /-- `running_` is set, the thread does not exist yet. -/
  | starting
  /-- The thread runs, but is not in `thread_` yet. -/
  | spawned
  | stopRequested
  | joining
  | joined
deriving DecidableEq

/-- What the constructor has got from the kernel; negative if the call failed. -/
structure Descriptors where
  epollFd : Int
  wakeFd : Int

/-- The members of the reactor and its threads. -/
structure Reactor (ρ : Type*) where
  running : Bool
  /-- What the stop token of `thread_` answers. -/
  memberStop : Bool
  /-- What the stop token given to the last `run` answers. -/
  tokenStop : Bool
  /-- The call of `register_waiter` that holds `mutex_`. -/
  mutex : Option ρ
  parking : Parking ρ
  /-- The counter of the wake descriptor is not zero. -/
  wakePending : Bool
  clock : Int
  call : ρ → CallPhase
  loop : LoopPhase ρ
  owner : OwnerPhase

/-- The steps of the threads and of the clock. -/
inductive Label (ρ : Type*) where
  /-- The next step of `start` or `stop`. -/
  | owner
  /-- The next step of a call of `register_waiter`; `added` is the answer of `epoll_ctl`. -/
  | call (r : ρ) (added : Bool)
  /-- The next step of `run`; `events` is the answer of `epoll_wait`. -/
  | loop (events : List Int)
  | tick (nanoseconds : Nat)

/-- The constructor registers the wake descriptor, if both exist. -/
def initial (d : Descriptors) (ρ : Type*) : Reactor ρ where
  running := false
  memberStop := false
  tokenStop := false
  mutex := none
  parking :=
    { waiters := ∅
      interest := fun fd =>
        if 0 ≤ d.epollFd ∧ 0 ≤ d.wakeFd ∧ fd = d.wakeFd then .level else .absent
      ready := fun _ => false }
  wakePending := false
  clock := 0
  call := fun _ => .idle
  loop := .notStarted
  owner := .outside

section Steps

variable {ρ : Type*} [DecidableEq ρ] (d : Descriptors) (awaiter : ρ → FdAwaiter)
  (order : IterationOrder Int)

/-! ## `start`, `stop` and `wake` -/

variable (s : Reactor ρ)

/-- `wake`: add to the counter of the wake descriptor. -/
def wake : Reactor ρ :=
  { s with wakePending := s.wakePending || decide (0 ≤ d.wakeFd) }

/-- `start` while the reactor is not running, `stop` while it is; the other two calls
return at once.  Requesting the stop reaches the running thread through `thread_`. -/
def ownerStep : Option (Reactor ρ) :=
  match s.owner with
  | .outside =>
    if s.running then
      some { s with memberStop := true, tokenStop := true, owner := .stopRequested }
    else if d.epollFd < 0 then none
    else some { s with running := true, owner := .starting }
  | .starting => some { s with tokenStop := false, loop := .checkStop, owner := .spawned }
  | .spawned => some { s with memberStop := s.tokenStop, owner := .outside }
  | .stopRequested => some { wake d s with owner := .joining }
  | .joining =>
    match s.loop with
    | .returned => some { s with owner := .joined }
    | _ => none
  | .joined => some { s with running := false, owner := .outside }

/-! ## `register_waiter` -/

/-- `awaiter->ready_ = false; return false;` -/
def refuse (r : ρ) : Reactor ρ :=
  { s with
    parking := { s.parking with ready := update s.parking.ready r false }
    call := update s.call r (.leaving false) }

/-- `waiters_[awaiter->fd_] = Waiter{…}`. -/
def Parking.insert (p : Parking ρ) (r : ρ) (now : Int) : Parking ρ :=
  { p with
    waiters := p.waiters.insert (awaiter r).fd
      ⟨r, now + (awaiter r).timeoutMs.toNat * 1000000⟩ }

/-- One step of `register_waiter`.  `EPOLL_CTL_ADD` does not succeed for a descriptor
that is in the interest list. -/
def callStep (r : ρ) (added : Bool) : Option (Reactor ρ) :=
  match s.call r with
  | .idle => some { s with call := update s.call r .entered }
  | .entered =>
    if s.mutex.isNone then
      some { s with mutex := some r, call := update s.call r .locked }
    else none
  | .locked =>
    if s.running then some { s with call := update s.call r .runningSeen }
    else some (refuse s r)
  | .runningSeen =>
    if s.memberStop then some (refuse s r)
    else some { s with call := update s.call r .stopUnseen }
  | .stopUnseen =>
    some { s with
      parking := s.parking.insert awaiter r s.clock
      call := update s.call r .inserted }
  | .inserted =>
    if added then
      if s.parking.interest (awaiter r).fd = .absent then
        some { s with
          parking := { s.parking with
            interest := update s.parking.interest (awaiter r).fd .armed }
          call := update s.call r (.leaving true) }
      else none
    else
      some (refuse { s with
        parking := { s.parking with
          waiters := s.parking.waiters.erase (awaiter r).fd } } r)
  | .leaving result =>
    some { s with
      mutex := none
      call := update s.call r (if result then .unlocked else .returned false) }
  | .unlocked => some { wake d s with call := update s.call r (.returned true) }
  | .returned _ => none

/-! ## `run` -/

/-- The timeout for `epoll_wait`: the nearest deadline, in milliseconds and at most 500,
through `static_cast<int>`. -/
def Parking.timeoutMs (p : Parking ρ) (now : Int) : Int :=
  (order.order p.waiters.keys).foldl
    (fun timeout fd =>
      match p.waiters.lookup fd with
      | none => timeout
      | some w => min timeout ((max 0 ((w.deadline - now).tdiv 1000000)).bmod (2 ^ 32))) 500

/-- Epoll may report an armed descriptor, or the wake descriptor while its counter is
not zero. -/
def reportable (fd : Int) : Prop :=
  s.parking.interest fd = .armed ∨ s.parking.interest fd = .level ∧ s.wakePending = true

instance (s : Reactor ρ) (fd : Int) : Decidable (reportable s fd) :=
  inferInstanceAs (Decidable (_ ∨ _))

/-- A report disarms a one-shot registration. -/
def Parking.report (p : Parking ρ) (events : List Int) : Parking ρ :=
  { p with
    interest := fun fd =>
      if fd ∈ events ∧ p.interest fd = .armed then .fired else p.interest fd }

/-- The parking together with the local vector `to_resume`. -/
structure Harvest (ρ : Type*) extends Parking ρ where
  toResume : List ρ

/-- Unpark the waiter of a descriptor, if there is one: set its `ready_`, remember it,
`EPOLL_CTL_DEL`, erase. -/
def Harvest.take (ready : Bool) (h : Harvest ρ) (fd : Int) : Harvest ρ :=
  match h.waiters.lookup fd with
  | none => h
  | some w =>
    { waiters := h.waiters.erase fd
      interest := update h.interest fd .absent
      ready := update h.ready w.call ready
      toResume := h.toResume ++ [w.call] }

/-- The loop over the reported descriptors. -/
def Harvest.takeReady (h : Harvest ρ) (events : List Int) : Harvest ρ :=
  events.foldl (fun h fd => if fd = d.wakeFd then h else h.take true fd) h

/-- Unpark the waiter of a descriptor if it has expired. -/
def Harvest.expire (now : Int) (h : Harvest ρ) (fd : Int) : Harvest ρ :=
  match h.waiters.lookup fd with
  | none => h
  | some w => if w.deadline ≤ now then h.take false fd else h

/-- The loop over the waiters that unparks the expired ones. -/
def Harvest.takeExpired (h : Harvest ρ) (now : Int) : Harvest ρ :=
  (order.order h.waiters.keys).foldl (Harvest.expire now) h

/-- One round of the drain loop under the lock. -/
def Harvest.takeAll (h : Harvest ρ) : Harvest ρ :=
  { (order.order h.waiters.keys).foldl (Harvest.take false) h with waiters := ∅ }

/-- One step of `run`. -/
def loopStep (s : Reactor ρ) (events : List Int) : Option (Reactor ρ) :=
  match s.loop with
  | .notStarted => none
  | .checkStop => some { s with loop := if s.tokenStop then .drain else .computeTimeout }
  | .computeTimeout =>
    if s.mutex.isNone then
      some { s with loop := .epollWait (s.parking.timeoutMs order s.clock) }
    else none
  | .epollWait _ =>
    if events.length ≤ 32 ∧ events.Nodup ∧ ∀ fd ∈ events, reportable s fd then
      some { s with parking := s.parking.report events, loop := .harvest events }
    else none
  | .harvest events =>
    if s.mutex.isNone then
      let h := (Harvest.mk s.parking []).takeReady d events |>.takeExpired order s.clock
      some { s with
        parking := h.toParking
        wakePending := s.wakePending && !decide (d.wakeFd ∈ events)
        loop := .resume h.toResume }
    else none
  | .resume [] => some { s with loop := .checkStop }
  | .resume (_ :: rest) => some { s with loop := .resume rest }
  | .drain =>
    if s.mutex.isNone then
      let h := (Harvest.mk s.parking []).takeAll order
      some { s with
        parking := h.toParking
        loop := if h.toResume.isEmpty then .returned else .drainResume h.toResume }
    else none
  | .drainResume [] => some { s with loop := .drain }
  | .drainResume (_ :: rest) => some { s with loop := .drainResume rest }
  | .returned => none

/-- The next step of one thread. -/
def step (s : Reactor ρ) : Label ρ → Option (Reactor ρ)
  | .owner => ownerStep d s
  | .call r added => callStep d awaiter s r added
  | .loop events => loopStep d order s events
  | .tick nanoseconds => some { s with clock := s.clock + nanoseconds }

/-- All interleavings of a new reactor. -/
def machine : StateMachine (Reactor ρ) (Label ρ) where
  initial := initial d ρ
  step := step d awaiter order

/-- No waiter is parked on the descriptor when a call parks its own. -/
def OnePerFd (s : Reactor ρ) : Label ρ → Prop
  | .call r _ => s.call r = .stopUnseen → s.parking.waiters.lookup (awaiter r).fd = none
  | _ => True

instance (s : Reactor ρ) (label : Label ρ) : Decidable (OnePerFd awaiter s label) :=
  match label with
  | .call r _ =>
    decidable_of_iff
      (s.call r = .stopUnseen → (s.parking.waiters.lookup (awaiter r).fd).isNone = true)
      (by simp [OnePerFd])
  | .owner => isTrue trivial
  | .loop _ => isTrue trivial
  | .tick _ => isTrue trivial

/-- The runs with at most one outstanding waiter for each descriptor. -/
def onePerFd : StateMachine (Reactor ρ) (Label ρ) :=
  (machine d awaiter order).restrict (OnePerFd awaiter)

end Steps

/-! ## What is counted -/

/-- The coroutines taken out of `waiters_` and not resumed yet. -/
def LoopPhase.pending {ρ : Type*} : LoopPhase ρ → List ρ
  | .resume toResume => toResume
  | .drainResume toResume => toResume
  | _ => []

/-- The descriptors that epoll has reported and `run` has not looked at yet. -/
def LoopPhase.events {ρ : Type*} : LoopPhase ρ → List Int
  | .harvest events => events
  | _ => []

/-- `run` has left its main loop. -/
def LoopPhase.ending {ρ : Type*} : LoopPhase ρ → Bool
  | .drain | .drainResume _ | .returned => true
  | _ => false

/-- No thread is inside `run`. -/
def LoopPhase.off {ρ : Type*} : LoopPhase ρ → Bool
  | .notStarted | .returned => true
  | _ => false

/-- The call is inside its critical section. -/
def CallPhase.critical : CallPhase → Bool
  | .locked | .runningSeen | .stopUnseen | .inserted | .leaving _ => true
  | _ => false

/-- The call has parked its coroutine and has not taken that back. -/
def CallPhase.parks : CallPhase → Bool
  | .inserted | .leaving true | .unlocked | .returned true => true
  | _ => false

section Counts

variable {ρ : Type*} [DecidableEq ρ] (awaiter : ρ → FdAwaiter)

/-- The waiter that the call has parked is in `waiters_`. -/
def Parking.holds (p : Parking ρ) (r : ρ) : Bool :=
  decide ((p.waiters.lookup (awaiter r).fd).map Waiter.call = some r)

/-- Steps of `run` that resume the coroutine of the call. -/
def resumes (r : ρ) (s : Reactor ρ) : Label ρ → Bool
  | .loop _ => decide (s.loop.pending.head? = some r)
  | _ => false

/-- Returns of `epoll_wait` that report the descriptor of the call while its waiter is
parked. -/
def reports (r : ρ) (s : Reactor ρ) : Label ρ → Bool
  | .loop events =>
    match s.loop with
    | .epollWait _ => decide ((awaiter r).fd ∈ events) && s.parking.holds awaiter r
    | _ => false
  | _ => false

end Counts

end EpollReactor

end EdgeOrchestrator
