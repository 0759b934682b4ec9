import EdgeOrchestrator.Network.ReactorParking

/-!
# Every waiter of the reactor is resumed once

The invariant of the epoll reactor, for interleavings that park no waiter on the
descriptor of another one.  It says of every call of `register_waiter` where its
coroutine is (in `waiters_`, on the list of the reactor thread, or resumed), ties the
interest list of epoll to the parked waiters, and follows the shutdown protocol: the
drain loop starts after the stop, and every call that takes the lock afterwards sees it.

Main results:

- `Inv.step`: every step keeps the invariant.
- `resumed_once`: every waiter is resumed at most once, and with `ready_` only after a report;
  a refused one is never resumed; none is left or parked once `run` has returned.
-/

namespace EdgeOrchestrator

open scoped StateMachine
open Function (update update_of_ne update_self)

namespace EpollReactor

/-! ## The invariant -/

/-- The call has passed both checks, so that it is going to park its coroutine or to
take it back. -/
def CallPhase.committed : CallPhase → Bool
  | .stopUnseen | .inserted => true
  | _ => false

/-- `start` creates a thread, and `stop` returns, only when no thread is inside `run`. -/
def OwnerPhase.Ok {ρ : Type*} (running : Bool) (loop : LoopPhase ρ) : OwnerPhase → Prop
  | .outside => running = false → loop.off = true
  | .starting => running = true ∧ loop.off = true
  | .spawned => running = true
  | .joined => loop.off = true
  | .stopRequested | .joining => True

section Invariant

variable {ρ : Type*} [DecidableEq ρ] (d : Descriptors) (awaiter : ρ → FdAwaiter)
  (order : IterationOrder Int)

/-- The shutdown protocol: the drain loop runs only after the stop, which every call
sees that takes the lock afterwards. -/
structure Shutdown (s : Reactor ρ) : Prop where
  ending : s.loop.ending = true → s.tokenStop = true
  token : s.tokenStop = true → s.memberStop = true
  finished : s.loop = .returned →
    s.parking.waiters = ∅ ∧ ∀ r, (s.call r).committed = false
  owner : s.owner.Ok s.running s.loop

/-- The invariant of a run in which each coroutine was resumed and reported as often
as given. -/
structure Inv (resumed reported : ρ → Nat) (s : Reactor ρ) : Prop where
  parked : Parked d awaiter reported s.call s.parking
  shutdown : Shutdown s
  /-- A coroutine that is parked for good is in `waiters_`, or waits to be resumed, or
  has been resumed. -/
  balance : ∀ r, resumed r + (s.parking.holds awaiter r).toNat + s.loop.pending.count r =
    (s.call r).parks.toNat
  mutex : ∀ r, (s.call r).critical = true ↔ s.mutex = some r
  events : ∀ fd ∈ s.loop.events,
    s.parking.interest fd = .level ∨ s.parking.interest fd = .fired

variable {d awaiter order}

/-! ### The steps of the three parties -/

section Party

variable {resumed reported : ρ → Nat} {s t : Reactor ρ}

/-- What the phase of a call says is unchanged when a call moves between two phases
that say the same. -/
theorem update_phase {β : Type*} (f : CallPhase → β) {call : ρ → CallPhase} {r : ρ}
    {phase : CallPhase} (h : f phase = f (call r)) (q : ρ) :
    f (update call r phase q) = f (call q) := by
  by_cases hq : q = r
  · rw [hq, update_self, h]
  · rw [update_of_ne hq]

theorem Inv.memberStop (hs : Inv d awaiter resumed reported s) (h : s.loop.ending = true) :
    s.memberStop = true :=
  hs.shutdown.token (hs.shutdown.ending h)

/-- While the lock is free no call is in its critical section. -/
theorem Inv.critical_eq_false (hs : Inv d awaiter resumed reported s) (hfree : s.mutex = none)
    (r : ρ) : (s.call r).critical = false := by
  by_contra hcritical
  rw [Bool.not_eq_false, hs.mutex r, hfree] at hcritical
  cases hcritical

theorem Inv.notInserted (hs : Inv d awaiter resumed reported s) (hfree : s.mutex = none)
    (r : ρ) : s.call r ≠ .inserted := by
  intro hr
  have hcritical := hs.critical_eq_false hfree r
  rw [hr] at hcritical
  cases hcritical

omit [DecidableEq ρ] in
theorem OwnerPhase.Ok.of_on {o : OwnerPhase} {running : Bool} {loop loop' : LoopPhase ρ}
    (h : o.Ok running loop) (hon : loop.off = false) : o.Ok running loop' := by
  cases o with
  | outside =>
    intro hrunning
    rw [h hrunning] at hon
    cases hon
  | starting =>
    rw [h.2] at hon
    cases hon
  | spawned => exact h
  | joined =>
    have hoff : loop.off = true := h
    rw [hoff] at hon
    cases hon
  | stopRequested | joining => trivial

/-- Between `start` and `stop`, and inside them, nothing happens to the waiters. -/
theorem Inv.ownerStep (hs : Inv d awaiter resumed reported s)
    (hstep : ownerStep d s = some t) : Inv d awaiter resumed reported t := by
  have howner := hs.shutdown.owner
  unfold EpollReactor.ownerStep at hstep
  cases hphase : s.owner with
  | outside =>
    rw [hphase] at hstep howner
    simp only at hstep
    split at hstep
    · cases hstep
      exact { hs with
        shutdown := { hs.shutdown with
          ending := fun _ => rfl
          token := fun _ => rfl
          owner := trivial } }
    · rename_i hrunning
      split at hstep
      · cases hstep
      · cases hstep
        exact { hs with
          shutdown := { hs.shutdown with
            owner := ⟨rfl, howner (Bool.not_eq_true _ ▸ hrunning)⟩ } }
  | starting =>
    rw [hphase] at hstep howner
    cases hstep
    have hpending : s.loop.pending = [] := by
      cases hloop : s.loop with
      | notStarted => rfl
      | returned => rfl
      | _ =>
        have hoff := howner.2
        rw [hloop] at hoff
        cases hoff
    refine ⟨hs.parked, ⟨?_, ?_, ?_, ?_⟩, ?_, hs.mutex, ?_⟩
    · intro hending
      cases hending
    · intro htoken
      cases htoken
    · intro hreturned
      cases hreturned
    · exact howner.1
    · intro r
      have hbalance := hs.balance r
      rw [hpending] at hbalance
      exact hbalance
    · intro fd hfd
      cases hfd
  | spawned =>
    rw [hphase] at hstep howner
    cases hstep
    exact { hs with
      shutdown := { hs.shutdown with
        token := fun h => h
        owner := fun hrunning => by
          have hset : s.running = true := howner
          rw [hset] at hrunning
          cases hrunning } }
  | stopRequested =>
    rw [hphase] at hstep
    cases hstep
    exact { hs with shutdown := { hs.shutdown with owner := trivial } }
  | joining =>
    rw [hphase] at hstep
    simp only at hstep
    split at hstep
    · rename_i hreturned
      cases hstep
      refine { hs with shutdown := { hs.shutdown with owner := ?_ } }
      show s.loop.off = true
      rw [hreturned]
      rfl
    · cases hstep
  | joined =>
    rw [hphase] at hstep howner
    cases hstep
    exact { hs with shutdown := { hs.shutdown with owner := fun _ => howner } }

/-- A call that has passed both checks keeps the drain loop from its last round. -/
theorem Inv.not_returned (hs : Inv d awaiter resumed reported s) {r : ρ}
    (hr : (s.call r).committed = true) : s.loop ≠ .returned := by
  intro hreturned
  rw [(hs.shutdown.finished hreturned).2 r] at hr
  cases hr

/-- The lock stays with its owner when a call moves on inside or outside of its
critical section. -/
theorem Inv.mutex_update (hs : Inv d awaiter resumed reported s) {r : ρ} {phase : CallPhase}
    (hcritical : phase.critical = (s.call r).critical) (q : ρ) :
    (update s.call r phase q).critical = true ↔ s.mutex = some q := by
  rw [update_phase CallPhase.critical hcritical]
  exact hs.mutex q

/-- A step of a call that leaves the parking alone. -/
theorem Inv.movePhase (hs : Inv d awaiter resumed reported s) {r : ρ} {phase : CallPhase}
    {mutex : Option ρ} (hparks : phase.parks = (s.call r).parks)
    (hinserted : phase = .inserted ↔ s.call r = .inserted)
    (hcommitted : s.loop = .returned → phase.committed = false)
    (hmutex : ∀ q, (update s.call r phase q).critical = true ↔ mutex = some q) :
    Inv d awaiter resumed reported
      { s with mutex := mutex, call := update s.call r phase } := by
  refine ⟨?_, ?_, ?_, hmutex, hs.events⟩
  · apply hs.parked.congr_call
    intro q
    show update s.call r phase q = .inserted ↔ s.call q = .inserted
    by_cases hq : q = r
    · rw [hq, update_self]
      exact hinserted
    · rw [update_of_ne hq]
  · refine { hs.shutdown with finished := ?_ }
    intro hreturned
    refine ⟨(hs.shutdown.finished hreturned).1, ?_⟩
    intro q
    show (update s.call r phase q).committed = false
    by_cases hq : q = r
    · rw [hq, update_self]
      exact hcommitted hreturned
    · rw [update_of_ne hq]
      exact (hs.shutdown.finished hreturned).2 q
  · intro q
    show _ = (update s.call r phase q).parks.toNat
    rw [update_phase CallPhase.parks hparks]
    exact hs.balance q

/-- Taking the lock. -/
theorem Inv.lock (hs : Inv d awaiter resumed reported s) {r : ρ} (hr : s.call r = .entered)
    (hfree : s.mutex = none) :
    Inv d awaiter resumed reported
      { s with mutex := some r, call := update s.call r .locked } := by
  refine hs.movePhase (by rw [hr]; rfl) (by simp [hr]) (fun _ => rfl) ?_
  intro q
  by_cases hq : q = r
  · rw [hq, update_self]
    simp [CallPhase.critical]
  · rw [update_of_ne hq, hs.critical_eq_false hfree q]
    simp [Ne.symm hq]

/-- Releasing the lock, on the way to a phase outside of the critical section. -/
theorem Inv.unlock (hs : Inv d awaiter resumed reported s) {r : ρ} {phase : CallPhase}
    (hparks : phase.parks = (s.call r).parks) (hcritical : phase.critical = false)
    (hinserted : s.call r ≠ .inserted) (hr : (s.call r).critical = true) :
    Inv d awaiter resumed reported
      { s with mutex := none, call := update s.call r phase } := by
  have howner : s.mutex = some r := (hs.mutex r).1 hr
  refine hs.movePhase hparks ?_ ?_ ?_
  · cases phase with
    | inserted => cases hcritical
    | _ => simp [hinserted]
  · intro _
    cases phase with
    | stopUnseen => cases hcritical
    | inserted => cases hcritical
    | _ => rfl
  · intro q
    by_cases hq : q = r
    · rw [hq, update_self, hcritical]
      simp
    · rw [update_of_ne hq, hs.mutex q, howner]
      simp [Ne.symm hq]

/-- Clearing a `ready_` flag. -/
theorem Inv.clearReady (hs : Inv d awaiter resumed reported s) (r : ρ) :
    Inv d awaiter resumed reported
      { s with parking := { s.parking with
          ready := update s.parking.ready r false } } :=
  ⟨hs.parked.clearReady r, { hs.shutdown with }, hs.balance, hs.mutex, hs.events⟩

theorem Inv.refuse (hs : Inv d awaiter resumed reported s) {r : ρ}
    (hparks : (s.call r).parks = false) (hcritical : (s.call r).critical = true)
    (hinserted : s.call r ≠ .inserted) : Inv d awaiter resumed reported (refuse s r) := by
  have hcleared := hs.clearReady r
  refine hcleared.movePhase hparks.symm ?_ (fun _ => rfl) (hcleared.mutex_update hcritical.symm)
  constructor
  · intro h
    cases h
  · intro h
    exact absurd h hinserted

/-- `waiters_[fd] = …`, on a descriptor without a waiter. -/
theorem Inv.insert (hs : Inv d awaiter resumed reported s) {r : ρ}
    (hr : s.call r = .stopUnseen) (hnone : s.parking.waiters.lookup (awaiter r).fd = none) :
    Inv d awaiter resumed reported
      { s with
        parking := s.parking.insert awaiter r s.clock
        call := update s.call r .inserted } := by
  have hparked := hs.parked.insert s.clock hnone
  refine ⟨hparked, ?_, ?_, ?_, hs.events⟩
  · exact { hs.shutdown with
      finished := fun hreturned => absurd hreturned (hs.not_returned (by rw [hr]; rfl)) }
  · intro q
    show _ + ((s.parking.insert awaiter r s.clock).holds awaiter q).toNat + _ =
      (update s.call r .inserted q).parks.toNat
    have hbalance := hs.balance q
    by_cases hq : q = r
    · -- the call was nowhere, and is in `waiters_` now
      rw [hq] at hbalance ⊢
      rw [hparked.inserted r (update_self ..), update_self]
      rw [hr, Parking.holds_of_none hnone] at hbalance
      simp only [CallPhase.parks, Bool.toNat_false, Bool.toNat_true] at hbalance ⊢
      omega
    · rw [update_of_ne hq, ← hbalance]
      have hsame : (s.parking.insert awaiter r s.clock).holds awaiter q =
          s.parking.holds awaiter q := by
        unfold Parking.holds Parking.insert
        rw [UnorderedMap.lookup_insert_eq]
        split
        · rename_i hfd
          rw [hfd, hnone]
          simp [Ne.symm hq]
        · rfl
      rw [hsame]
  · exact hs.mutex_update (by rw [hr]; rfl)

/-- `EPOLL_CTL_ADD` succeeds. -/
theorem Inv.arm (hs : Inv d awaiter resumed reported s) {r : ρ} (hr : s.call r = .inserted)
    (habsent : s.parking.interest (awaiter r).fd = .absent) :
    Inv d awaiter resumed reported
      { s with
        parking := { s.parking with
          interest := update s.parking.interest (awaiter r).fd .armed }
        call := update s.call r (.leaving true) } := by
  refine ⟨hs.parked.arm hr, ?_, ?_, ?_, ?_⟩
  · exact { hs.shutdown with
      finished := fun hreturned => absurd hreturned (hs.not_returned (by rw [hr]; rfl)) }
  · intro q
    show _ = (update s.call r (.leaving true) q).parks.toNat
    rw [update_phase CallPhase.parks (by rw [hr]; rfl)]
    exact hs.balance q
  · exact hs.mutex_update (by rw [hr]; rfl)
  · intro fd hfd
    have hevents := hs.events fd hfd
    have hne : fd ≠ (awaiter r).fd := by
      intro heq
      rw [heq, habsent] at hevents
      rcases hevents with h | h <;> cases h
    show update s.parking.interest (awaiter r).fd .armed fd = _ ∨
      update s.parking.interest (awaiter r).fd .armed fd = _
    rw [update_of_ne hne]
    exact hevents

/-- `EPOLL_CTL_ADD` fails. -/
theorem Inv.withdraw (hs : Inv d awaiter resumed reported s) {r : ρ}
    (hr : s.call r = .inserted) :
    Inv d awaiter resumed reported
      (EpollReactor.refuse { s with
        parking := { s.parking with waiters := s.parking.waiters.erase (awaiter r).fd } } r) := by
  have hmutex : s.mutex = some r := (hs.mutex r).1 (by rw [hr]; rfl)
  have honly : ∀ q, s.call q = .inserted → q = r := by
    intro q hq
    have hown := (hs.mutex q).1 (by rw [hq]; rfl)
    rw [hmutex] at hown
    cases hown
    rfl
  have hheld := hs.parked.inserted r hr
  refine ⟨(hs.parked.withdraw hr honly).clearReady r, ?_, ?_, ?_, hs.events⟩
  · exact { hs.shutdown with
      finished := fun hreturned => absurd hreturned (hs.not_returned (by rw [hr]; rfl)) }
  · intro q
    have hbalance := hs.balance q
    have hlookup := UnorderedMap.lookup_erase_eq s.parking.waiters (awaiter r).fd (awaiter q).fd
    show _ + (Parking.holds awaiter ⟨s.parking.waiters.erase (awaiter r).fd, _, _⟩ q).toNat +
      s.loop.pending.count q = (update s.call r (.leaving false) q).parks.toNat
    by_cases hq : q = r
    · rw [hq] at hbalance hlookup ⊢
      rw [if_pos rfl] at hlookup
      rw [update_self, Parking.holds_of_none hlookup]
      rw [hr, hheld] at hbalance
      simp only [CallPhase.parks, Bool.toNat_false, Bool.toNat_true] at hbalance ⊢
      omega
    · rw [update_of_ne hq, ← hbalance]
      by_cases hfd : (awaiter q).fd = (awaiter r).fd
      · -- the entry of the descriptor is that of `r`
        rw [if_pos hfd] at hlookup
        rcases Parking.holds_iff.1 hheld with ⟨w, hw, hwr⟩
        have hother : s.parking.holds awaiter q = false := by
          unfold Parking.holds
          rw [hfd, hw]
          simp [hwr, Ne.symm hq]
        rw [Parking.holds_of_none hlookup, hother]
      · rw [if_neg hfd] at hlookup
        rw [Parking.holds_congr hlookup]
  · exact hs.mutex_update (by rw [hr]; rfl)

/-- Every step of `register_waiter`. -/
theorem Inv.callStep (hs : Inv d awaiter resumed reported s) {r : ρ} {added : Bool}
    (hone : OnePerFd awaiter s (.call r added))
    (hstep : callStep d awaiter s r added = some t) : Inv d awaiter resumed reported t := by
  unfold EpollReactor.callStep at hstep
  cases hr : s.call r with
  | idle =>
    rw [hr] at hstep
    cases hstep
    exact hs.movePhase (by rw [hr]; rfl) (by simp [hr]) (fun _ => rfl)
      (hs.mutex_update (by rw [hr]; rfl))
  | entered =>
    rw [hr] at hstep
    simp only at hstep
    split at hstep
    · rename_i hfree
      cases hstep
      exact hs.lock hr (Option.isNone_iff_eq_none.1 hfree)
    · cases hstep
  | locked =>
    rw [hr] at hstep
    simp only at hstep
    split at hstep
    · cases hstep
      exact hs.movePhase (by rw [hr]; rfl) (by simp [hr]) (fun _ => rfl)
        (hs.mutex_update (by rw [hr]; rfl))
    · cases hstep
      exact hs.refuse (by rw [hr]; rfl) (by rw [hr]; rfl) (by simp [hr])
  | runningSeen =>
    rw [hr] at hstep
    simp only at hstep
    split at hstep
    · cases hstep
      exact hs.refuse (by rw [hr]; rfl) (by rw [hr]; rfl) (by simp [hr])
    · rename_i hstop
      cases hstep
      refine hs.movePhase (by rw [hr]; rfl) (by simp [hr]) ?_
        (hs.mutex_update (by rw [hr]; rfl))
      intro hreturned
      exact absurd (hs.memberStop (by rw [hreturned]; rfl)) hstop
  | stopUnseen =>
    rw [hr] at hstep
    cases hstep
    exact hs.insert hr (hone hr)
  | inserted =>
    rw [hr] at hstep
    simp only at hstep
    split at hstep
    · split at hstep
      · rename_i habsent
        cases hstep
        exact hs.arm hr habsent
      · cases hstep
    · cases hstep
      exact hs.withdraw hr
  | leaving result =>
    rw [hr] at hstep
    cases hstep
    refine hs.unlock ?_ ?_ (by simp [hr]) (by rw [hr]; rfl)
    · rw [hr]
      cases result <;> rfl
    · cases result <;> rfl
  | unlocked =>
    rw [hr] at hstep
    cases hstep
    have hwake : Inv d awaiter resumed reported (wake d s) := { hs with
      shutdown := { hs.shutdown with } }
    have hr' : (wake d s).call r = .unlocked := hr
    exact hwake.movePhase (by rw [hr']; rfl) (by simp [hr']) (fun _ => rfl)
      (hwake.mutex_update (by rw [hr']; rfl))
  | returned result =>
    rw [hr] at hstep
    cases hstep

/-! ### The steps of `run` -/

/-- A step of `run` outside of the lock; what it resumes leaves its list. -/
theorem Inv.moveLoop (hs : Inv d awaiter resumed reported s) {resumed' : ρ → Nat}
    {loop : LoopPhase ρ} (hon : s.loop.off = false)
    (hcount : ∀ r, resumed' r + loop.pending.count r = resumed r + s.loop.pending.count r)
    (hevents : loop.events = []) (hreturned : loop ≠ .returned)
    (hending : loop.ending = true → s.tokenStop = true) :
    Inv d awaiter resumed' reported { s with loop := loop } := by
  refine ⟨hs.parked, ⟨hending, hs.shutdown.token, ?_, hs.shutdown.owner.of_on hon⟩, ?_, hs.mutex,
    ?_⟩
  · intro h
    exact absurd h hreturned
  · intro r
    show resumed' r + (s.parking.holds awaiter r).toNat + loop.pending.count r =
      (s.call r).parks.toNat
    have hbalance := hs.balance r
    have hmoved := hcount r
    omega
  · intro fd hfd
    have hfd' : fd ∈ loop.events := hfd
    rw [hevents] at hfd'
    cases hfd'

/-- Resuming the first coroutine of the list. -/
theorem count_resumed (r : ρ) (rest : List ρ) (q : ρ) :
    resumed q + (decide (some r = some q)).toNat + rest.count q =
      resumed q + (r :: rest).count q := by
  by_cases hq : r = q
  · simp [hq]
    omega
  · simp [hq]

/-- Unparking waiters under the lock. -/
theorem Inv.unpark (hs : Inv d awaiter resumed reported s) {h : Harvest ρ} {loop : LoopPhase ρ}
    {wakePending : Bool} (hfree : s.mutex = none)
    (hh : h.Removes awaiter (fun r => 0 < reported r) s.parking) (hon : s.loop.off = false)
    (hbefore : s.loop.pending = []) (hpending : loop.pending = h.toResume)
    (hevents : loop.events = []) (hreturned : loop = .returned → h.waiters = ∅)
    (hending : loop.ending = true → s.tokenStop = true) :
    Inv d awaiter resumed reported
      { s with parking := h.toParking, wakePending := wakePending, loop := loop } := by
  refine ⟨hs.parked.removes hh (hs.notInserted hfree),
    ⟨hending, hs.shutdown.token, ?_, hs.shutdown.owner.of_on hon⟩, ?_, hs.mutex, ?_⟩
  · intro hr
    refine ⟨hreturned hr, ?_⟩
    intro r
    show (s.call r).committed = false
    have hcritical := hs.critical_eq_false hfree r
    cases hphase : s.call r with
    | stopUnseen =>
      rw [hphase] at hcritical
      cases hcritical
    | inserted =>
      rw [hphase] at hcritical
      cases hcritical
    | _ => rfl
  · intro r
    show resumed r + (h.holds awaiter r).toNat + loop.pending.count r = (s.call r).parks.toNat
    have hbalance := hs.balance r
    rw [hbefore, ← hh.balance r, List.count_nil] at hbalance
    rw [hpending]
    omega
  · intro fd hfd
    have hfd' : fd ∈ loop.events := hfd
    rw [hevents] at hfd'
    cases hfd'

/-- `epoll_wait` returns. -/
theorem Inv.poll (hs : Inv d awaiter resumed reported s) {events : List Int} {timeout : Int}
    (hloop : s.loop = .epollWait timeout) (hreport : ∀ fd ∈ events, reportable s fd) :
    Inv d awaiter resumed
      (fun r => reported r +
        (decide ((awaiter r).fd ∈ events) && s.parking.holds awaiter r).toNat)
      { s with parking := s.parking.report events, loop := .harvest events } := by
  have hon : s.loop.off = false := by
    rw [hloop]
    rfl
  refine ⟨hs.parked.report events, ⟨?_, hs.shutdown.token, ?_, hs.shutdown.owner.of_on hon⟩, ?_,
    hs.mutex, ?_⟩
  · intro h
    cases h
  · intro h
    cases h
  · intro r
    have hbalance := hs.balance r
    rw [hloop] at hbalance
    exact hbalance
  · intro fd hfd
    show (if fd ∈ events ∧ s.parking.interest fd = .armed then Interest.fired
      else s.parking.interest fd) = _ ∨ (if fd ∈ events ∧ s.parking.interest fd = .armed
      then Interest.fired else s.parking.interest fd) = _
    have hfd' : fd ∈ events := hfd
    rcases hreport fd hfd' with harmed | ⟨hlevel, -⟩
    · right
      rw [if_pos ⟨hfd', harmed⟩]
    · left
      rw [if_neg (by simp [hlevel]), hlevel]

/-- Every step of `run`. -/
theorem Inv.loopStep (hs : Inv d awaiter resumed reported s) {events : List Int}
    (hstep : loopStep d order s events = some t) :
    Inv d awaiter (fun r => resumed r + (resumes r s (.loop events)).toNat)
      (fun r => reported r + (reports awaiter r s (.loop events)).toNat) t := by
  unfold EpollReactor.loopStep at hstep
  unfold resumes reports
  simp only
  cases hloop : s.loop with
  | notStarted | returned =>
    rw [hloop] at hstep
    cases hstep
  | checkStop =>
    rw [hloop] at hstep
    cases hstep
    refine hs.moveLoop (by rw [hloop]; rfl) ?_ ?_ ?_ ?_
    · intro r
      rw [hloop]
      split <;> rfl
    · split <;> rfl
    · split <;> simp
    · split
      · rename_i hstop
        exact fun _ => hstop
      · intro h
        cases h
  | computeTimeout =>
    rw [hloop] at hstep
    simp only at hstep
    split at hstep
    · cases hstep
      refine hs.moveLoop (by rw [hloop]; rfl) (fun r => by rw [hloop]; rfl) rfl (by simp) ?_
      intro h
      cases h
    · cases hstep
  | epollWait timeout =>
    rw [hloop] at hstep
    simp only at hstep
    split at hstep
    · rename_i henabled
      cases hstep
      exact hs.poll hloop henabled.2.2
    · cases hstep
  | harvest reportedFds =>
    rw [hloop] at hstep
    simp only at hstep
    split at hstep
    · rename_i hfree
      cases hstep
      have hready : ∀ fd ∈ reportedFds, fd ≠ d.wakeFd →
          ∀ w, s.parking.waiters.lookup fd = some w → 0 < reported w.call := by
        intro fd hfd hwake w hw
        rcases hs.events fd (by rw [hloop]; exact hfd) with hlevel | hfired
        · exact absurd (hs.parked.level fd hlevel) hwake
        · exact hs.parked.fired fd w hfired hw
      have hharvest := ((Harvest.Removes.start (fun r => 0 < reported r) s.parking).takeReady d
        hs.parked.key hready).takeExpired order hs.parked.key s.clock
      refine hs.unpark (Option.isNone_iff_eq_none.1 hfree) hharvest (by rw [hloop]; rfl)
        (by rw [hloop]; rfl) rfl rfl ?_ ?_
      · intro h
        cases h
      · intro h
        cases h
    · cases hstep
  | resume toResume =>
    cases toResume with
    | nil =>
      rw [hloop] at hstep
      cases hstep
      refine hs.moveLoop (by rw [hloop]; rfl) (fun r => by rw [hloop]; rfl) rfl (by simp) ?_
      intro h
      cases h
    | cons r rest =>
      rw [hloop] at hstep
      cases hstep
      refine hs.moveLoop (by rw [hloop]; rfl) ?_ rfl (by simp) ?_
      · rw [hloop]
        exact count_resumed r rest
      · intro h
        cases h
  | drain =>
    rw [hloop] at hstep
    simp only at hstep
    split at hstep
    · rename_i hfree
      cases hstep
      have hdrained := Harvest.Removes.takeAll (R := fun r => 0 < reported r) order
        hs.parked.key
      refine hs.unpark (Option.isNone_iff_eq_none.1 hfree) hdrained (by rw [hloop]; rfl)
        (by rw [hloop]; rfl) ?_ ?_ (fun _ => rfl) fun _ => hs.shutdown.ending (by rw [hloop]; rfl)
      · split
        · rename_i hempty
          exact (List.isEmpty_iff.1 hempty).symm
        · rfl
      · split <;> rfl
    · cases hstep
  | drainResume toResume =>
    have hstop : s.tokenStop = true := hs.shutdown.ending (by rw [hloop]; rfl)
    cases toResume with
    | nil =>
      rw [hloop] at hstep
      cases hstep
      exact hs.moveLoop (by rw [hloop]; rfl) (fun r => by rw [hloop]; rfl) rfl (by simp)
        fun _ => hstop
    | cons r rest =>
      rw [hloop] at hstep
      cases hstep
      refine hs.moveLoop (by rw [hloop]; rfl) ?_ rfl (by simp) fun _ => hstop
      rw [hloop]
      exact count_resumed r rest

end Party

/-! ## Runs -/

theorem initial_inv : Inv d awaiter (fun _ => 0) (fun _ => 0) (initial d ρ) where
  parked :=
    { key := fun fd w hw => by
        have hnone : (∅ : UnorderedMap Int (Waiter ρ)).lookup fd = some w := hw
        simp at hnone
      inserted := fun r hr => by cases hr
      level := fun fd hfd => by
        simp only [initial] at hfd
        split at hfd
        · rename_i h
          exact h.2.2
        · cases hfd
      oneShot := fun fd hfd => by
        simp only [initial] at hfd
        split at hfd <;> rcases hfd with hfd | hfd <;> cases hfd
      fired := fun fd w hfd hw => by
        have hnone : (∅ : UnorderedMap Int (Waiter ρ)).lookup fd = some w := hw
        simp at hnone
      ready := fun r hr => by cases hr }
  shutdown :=
    { ending := fun h => by cases h
      token := fun h => by cases h
      finished := fun h => by cases h
      owner := fun _ => rfl }
  balance r := rfl
  mutex r := by simp [initial, CallPhase.critical]
  events fd hfd := by cases hfd

/-- Every step that parks no waiter on the descriptor of another one. -/
theorem Inv.step {resumed reported : ρ → Nat} {s t : Reactor ρ} {label : Label ρ}
    (hs : Inv d awaiter resumed reported s) (hone : OnePerFd awaiter s label)
    (hstep : step d awaiter order s label = some t) :
    Inv d awaiter (fun r => resumed r + (resumes r s label).toNat)
      (fun r => reported r + (reports awaiter r s label).toNat) t := by
  cases label with
  | owner => exact hs.ownerStep hstep
  | call r added => exact hs.callStep hone hstep
  | loop events => exact hs.loopStep hstep
  | tick nanoseconds =>
    cases hstep
    exact { hs with shutdown := { hs.shutdown with } }

end Invariant

section Results

variable {ρ : Type*} [DecidableEq ρ] (d : Descriptors) (awaiter : ρ → FdAwaiter)
  (order : IterationOrder Int)

/-- How often `run` has resumed the coroutine of the call. -/
def resumptions (labels : List (Label ρ)) (r : ρ) : Nat :=
  (onePerFd d awaiter order).tally (resumes r) (initial d ρ) labels

/-- How often epoll has reported the descriptor of the call while its waiter was parked. -/
def readinessReports (labels : List (Label ρ)) (r : ρ) : Nat :=
  (onePerFd d awaiter order).tally (reports awaiter r) (initial d ρ) labels

/-- The invariant holds after every run. -/
theorem inv_of_run {labels : List (Label ρ)} {s : Reactor ρ}
    (hrun : (onePerFd d awaiter order).run (initial d ρ) labels = some s) :
    Inv d awaiter (resumptions d awaiter order labels)
      (readinessReports d awaiter order labels) s := by
  refine StateMachine.run_induction (m := onePerFd d awaiter order)
    (P := fun labels s => Inv d awaiter (resumptions d awaiter order labels)
      (readinessReports d awaiter order labels) s) initial_inv ?_ hrun
  intro labels s label t hrun hs hstep
  have hresumed : resumptions d awaiter order (labels ++ [label]) =
      fun r => resumptions d awaiter order labels r + (resumes r s label).toNat :=
    funext fun r => StateMachine.tally_concat (resumes r) hrun hstep
  have hreported : readinessReports d awaiter order (labels ++ [label]) =
      fun r => readinessReports d awaiter order labels r + (reports awaiter r s label).toNat :=
    funext fun r => StateMachine.tally_concat (reports awaiter r) hrun hstep
  rw [hresumed, hreported]
  rcases StateMachine.restrict_step_eq_some.1 hstep with ⟨hone, hmachine⟩
  exact hs.step hone hmachine

/-- `register_waiter` does not move the reactor thread. -/
theorem callStep_loop {s t : Reactor ρ} {r : ρ} {added : Bool}
    (hstep : callStep d awaiter s r added = some t) : t.loop = s.loop := by
  unfold callStep at hstep
  cases hr : s.call r with
  | entered =>
    rw [hr] at hstep
    rcases Option.ite_none_right_eq_some.1 hstep with ⟨-, hlocked⟩
    cases hlocked
    rfl
  | locked =>
    rw [hr] at hstep
    simp only at hstep
    split at hstep
    · cases hstep
      rfl
    · cases hstep
      rfl
  | runningSeen =>
    rw [hr] at hstep
    simp only at hstep
    split at hstep
    · cases hstep
      rfl
    · cases hstep
      rfl
  | inserted =>
    rw [hr] at hstep
    simp only at hstep
    split at hstep
    · rcases Option.ite_none_right_eq_some.1 hstep with ⟨-, hadded⟩
      cases hadded
      rfl
    · cases hstep
      rfl
  | returned result =>
    rw [hr] at hstep
    cases hstep
  | _ =>
    rw [hr] at hstep
    cases hstep
    rfl

omit [DecidableEq ρ] in
/-- A step of `start` or `stop` leaves the waiters alone, and only the step of `start`
that creates the thread enters `run`. -/
theorem ownerStep_frame {s t : Reactor ρ} (hstep : ownerStep d s = some t) :
    t.parking = s.parking ∧ (t.loop = s.loop ∨ s.owner = .starting) := by
  unfold ownerStep at hstep
  cases hphase : s.owner <;> simp only [hphase] at hstep <;> (repeat' split at hstep) <;>
    first
    | cases hstep; exact ⟨rfl, Or.inl rfl⟩
    | cases hstep; exact ⟨rfl, Or.inr rfl⟩
    | cases hstep

/-- `run` is entered again only by `start`. -/
theorem loop_returned_of_step {s t : Reactor ρ} {label : Label ρ} (hs : s.loop = .returned)
    (hstep : step d awaiter order s label = some t) :
    t.loop = .returned ∨ (label = .owner ∧ s.owner = .starting) := by
  cases label with
  | owner =>
    rcases (ownerStep_frame d hstep).2 with hloop | hstarting
    · rw [hloop]
      exact Or.inl hs
    · exact Or.inr ⟨rfl, hstarting⟩
  | call r added =>
    left
    rw [callStep_loop d awaiter hstep]
    exact hs
  | loop events =>
    simp only [step, loopStep, hs] at hstep
    cases hstep
  | tick nanoseconds =>
    cases hstep
    exact Or.inl hs

/-- For every interleaving of `register_waiter`, `start`, `stop` and `run`, with at most
one parked waiter for each descriptor: every coroutine is resumed at most once, and one
that `register_waiter` has refused never; `ready_` is set only after its descriptor was
reported; once `run` has returned every coroutine that was told to suspend has been
resumed, none is parked, and no step parks one until `start` creates a new thread. -/
theorem resumed_once {labels : List (Label ρ)} {s : Reactor ρ}
    (hrun : (onePerFd d awaiter order).run (initial d ρ) labels = some s) :
    (∀ r, resumptions d awaiter order labels r ≤ 1 ∧
      (s.call r = .returned false → resumptions d awaiter order labels r = 0) ∧
      (s.parking.ready r = true → 0 < readinessReports d awaiter order labels r)) ∧
    (s.loop = .returned →
      s.parking.waiters = ∅ ∧
      (∀ r, s.call r = .returned true → resumptions d awaiter order labels r = 1) ∧
      ∀ label t, (onePerFd d awaiter order).step s label = some t →
        t.parking.waiters = ∅ ∧
          (t.loop = .returned ∨ (label = .owner ∧ s.owner = .starting))) := by
  have hs := inv_of_run d awaiter order hrun
  refine ⟨?_, ?_⟩
  · intro r
    have hbalance := hs.balance r
    refine ⟨?_, ?_, hs.parked.ready r⟩
    · have hle : (s.call r).parks.toNat ≤ 1 := Bool.toNat_le _
      omega
    · intro hrefused
      rw [hrefused] at hbalance
      simp only [CallPhase.parks, Bool.toNat_false] at hbalance
      omega
  · intro hreturned
    rcases hs.shutdown.finished hreturned with ⟨hempty, hcommitted⟩
    refine ⟨hempty, ?_, ?_⟩
    · intro r hr
      have hbalance := hs.balance r
      have hgone : s.parking.holds awaiter r = false := by
        apply Parking.holds_of_none
        rw [hempty]
        exact AList.lookup_empty _
      rw [hr, hgone, hreturned] at hbalance
      simpa [CallPhase.parks, LoopPhase.pending] using hbalance
    · intro label t hstep
      rcases StateMachine.restrict_step_eq_some.1 hstep with ⟨hone, hmachine⟩
      have hlater := loop_returned_of_step d awaiter order hreturned hmachine
      refine ⟨?_, hlater⟩
      rcases hlater with hstill | ⟨rfl, -⟩
      · exact ((hs.step hone hmachine).shutdown.finished hstill).1
      · rw [(ownerStep_frame d hmachine).1]
        exact hempty

end Results

/-- Three waiters, on the descriptors 5, 6 and 7, for at most 100 milliseconds each. -/
def threeAwaiters (r : Fin 3) : FdAwaiter :=
  ⟨5 + r, 100⟩

/-- The first waiter is reported, the second one is parked between the report and the
harvest and is drained, and the third one comes after `run` has returned. -/
def readyThenDrained : List (Label (Fin 3)) :=
  List.flatten
    [[.owner, .owner, .owner], List.replicate 8 (.call 0 true),
      [.loop [], .loop [], .loop [5]], List.replicate 8 (.call 1 true),
      [.loop [], .loop [], .loop [], .owner], List.replicate 5 (.loop []),
      List.replicate 5 (.call 2 true)]

def drained : Reactor (Fin 3) :=
  ((onePerFd ⟨3, 4⟩ threeAwaiters (.insertion Int)).run (initial ⟨3, 4⟩ (Fin 3))
    readyThenDrained).getD (initial ⟨3, 4⟩ (Fin 3))

/-- The first two coroutines are resumed once each, and the third one is refused. -/
theorem resumed_once_readyThenDrained :
    drained.loop = .returned ∧ drained.parking.waiters = ∅ ∧ drained.call 2 = .returned false ∧
      resumptions ⟨3, 4⟩ threeAwaiters (.insertion Int) readyThenDrained 0 = 1 ∧
      resumptions ⟨3, 4⟩ threeAwaiters (.insertion Int) readyThenDrained 1 = 1 ∧
      resumptions ⟨3, 4⟩ threeAwaiters (.insertion Int) readyThenDrained 2 = 0 ∧
      drained.parking.ready 0 = true ∧
      0 < readinessReports ⟨3, 4⟩ threeAwaiters (.insertion Int) readyThenDrained 0 := by
  have hrun : (onePerFd ⟨3, 4⟩ threeAwaiters (.insertion Int)).run (initial ⟨3, 4⟩ (Fin 3))
      readyThenDrained = some drained := rfl
  have hreturned : drained.loop = .returned := rfl
  have hrefused : drained.call 2 = .returned false := by decide +kernel
  have hready : drained.parking.ready 0 = true := by decide +kernel
  rcases resumed_once ⟨3, 4⟩ threeAwaiters (.insertion Int) hrun with ⟨hcalls, hend⟩
  rcases hend hreturned with ⟨hempty, honce, -⟩
  exact ⟨hreturned, hempty, hrefused, honce 0 (by decide +kernel), honce 1 (by decide +kernel),
    (hcalls 2).2.1 hrefused, hready, (hcalls 0).2.2 hready⟩

end EpollReactor

end EdgeOrchestrator
