import EdgeOrchestrator.Network.ReactorSafety

/-!
# The reactor oversleeps no deadline

While `run` is inside `epoll_wait`, other threads park coroutines with nearer deadlines
and the owner requests the stop.  The timeout was computed before, so that what came
later has to be announced through the wake descriptor: `register_waiter` calls `wake`
after it has left the lock, and `stop` after it has requested the stop.  Between the two
steps of such a call the announcement is still to come.

Main results:

- `Parking.timeoutMs_spec`: the timeout ends at the nearest deadline, for timeouts that
  `static_cast<int>` does not make negative.
- `Watched.step`: what holds while `run` is inside `epoll_wait`.
- `no_deadline_overslept`: every parked waiter, and the stop, ends the wait in time, is
  announced already or is about to be announced; and a waiter that is left parked after a round
  has its deadline ahead.
-/

namespace EdgeOrchestrator

open scoped StateMachine
open Function (update update_of_ne update_self)

namespace EpollReactor

section Transitions

variable {ρ : Type*} [DecidableEq ρ] (d : Descriptors) (awaiter : ρ → FdAwaiter)

/-! ## The steps of `register_waiter` -/

/-- What one step of the call `r` of `register_waiter` does to the reactor. -/
inductive CallTransition (s : Reactor ρ) (r : ρ) : Reactor ρ → Prop where
  | enter (hphase : s.call r = .idle) :
      CallTransition s r { s with call := update s.call r .entered }
  | lock (hphase : s.call r = .entered) (hfree : s.mutex = none) :
      CallTransition s r
        { s with mutex := some r, call := update s.call r .locked }
  | seeRunning (hphase : s.call r = .locked) (hrunning : s.running = true) :
      CallTransition s r { s with call := update s.call r .runningSeen }
  | seeUnstopped (hphase : s.call r = .runningSeen) (hstop : s.memberStop = false) :
      CallTransition s r { s with call := update s.call r .stopUnseen }
  | refuse (hphase : s.call r = .locked ∧ s.running = false ∨
        s.call r = .runningSeen ∧ s.memberStop = true) :
      CallTransition s r (refuse s r)
  | insert (hphase : s.call r = .stopUnseen) :
      CallTransition s r
        { s with
          parking := s.parking.insert awaiter r s.clock
          call := update s.call r .inserted }
  | add (hphase : s.call r = .inserted)
      (habsent : s.parking.interest (awaiter r).fd = .absent) :
      CallTransition s r
        { s with
          parking := { s.parking with
            interest := update s.parking.interest (awaiter r).fd .armed }
          call := update s.call r (.leaving true) }
  | withdraw (hphase : s.call r = .inserted) :
      CallTransition s r
        (EpollReactor.refuse { s with
          parking := { s.parking with
            waiters := s.parking.waiters.erase (awaiter r).fd } } r)
  | leave (result : Bool) (hphase : s.call r = .leaving result) :
      CallTransition s r
        { s with
          mutex := none
          call := update s.call r (if result then .unlocked else .returned false) }
  | announce (hphase : s.call r = .unlocked) :
      CallTransition s r { wake d s with call := update s.call r (.returned true) }

variable {d awaiter}

theorem callStep_transition {s t : Reactor ρ} {r : ρ} {added : Bool}
    (hstep : callStep d awaiter s r added = some t) : CallTransition d awaiter s r t := by
  unfold callStep at hstep
  cases hphase : s.call r with
  | idle =>
    rw [hphase] at hstep
    cases hstep
    exact .enter hphase
  | entered =>
    rw [hphase] at hstep
    rcases Option.ite_none_right_eq_some.1 hstep with ⟨hfree, hlocked⟩
    cases hlocked
    exact .lock hphase (Option.isNone_iff_eq_none.1 hfree)
  | locked =>
    rw [hphase] at hstep
    simp only at hstep
    split at hstep
    · rename_i hrunning
      cases hstep
      exact .seeRunning hphase hrunning
    · rename_i hrunning
      cases hstep
      exact .refuse (Or.inl ⟨hphase, Bool.eq_false_iff.2 hrunning⟩)
  | runningSeen =>
    rw [hphase] at hstep
    simp only at hstep
    split at hstep
    · rename_i hstop
      cases hstep
      exact .refuse (Or.inr ⟨hphase, hstop⟩)
    · rename_i hstop
      cases hstep
      exact .seeUnstopped hphase (Bool.eq_false_iff.2 hstop)
  | stopUnseen =>
    rw [hphase] at hstep
    cases hstep
    exact .insert hphase
  | inserted =>
    rw [hphase] at hstep
    simp only at hstep
    split at hstep
    · rcases Option.ite_none_right_eq_some.1 hstep with ⟨habsent, hadded⟩
      cases hadded
      exact .add hphase habsent
    · cases hstep
      exact .withdraw hphase
  | leaving result =>
    rw [hphase] at hstep
    cases hstep
    exact .leave result hphase
  | unlocked =>
    rw [hphase] at hstep
    cases hstep
    exact .announce hphase
  | returned result =>
    rw [hphase] at hstep
    cases hstep

/-! ## The steps of `run` -/

/-- What one step of `run` does to the reactor. -/
inductive LoopTransition (d : Descriptors) (order : IterationOrder Int) (s : Reactor ρ) :
    Reactor ρ → Prop where
  | checkStop (hphase : s.loop = .checkStop) :
      LoopTransition d order s
        { s with loop := if s.tokenStop then .drain else .computeTimeout }
  | computeTimeout (hphase : s.loop = .computeTimeout) (hfree : s.mutex = none) :
      LoopTransition d order s
        { s with loop := .epollWait (s.parking.timeoutMs order s.clock) }
  | poll (timeoutMs : Int) (events : List Int) (hphase : s.loop = .epollWait timeoutMs)
      (hevents : ∀ fd ∈ events, reportable s fd) :
      LoopTransition d order s
        { s with parking := s.parking.report events, loop := .harvest events }
  | harvest (events : List Int) (hphase : s.loop = .harvest events) (hfree : s.mutex = none)
      (h : Harvest ρ)
      (hh : h = ((Harvest.mk s.parking []).takeReady d events).takeExpired order s.clock) :
      LoopTransition d order s
        { s with
          parking := h.toParking
          wakePending := s.wakePending && !decide (d.wakeFd ∈ events)
          loop := .resume h.toResume }
  | resumed (hphase : s.loop = .resume []) :
      LoopTransition d order s { s with loop := .checkStop }
  | resume (r : ρ) (rest : List ρ) (hphase : s.loop = .resume (r :: rest)) :
      LoopTransition d order s { s with loop := .resume rest }
  | drain (hphase : s.loop = .drain) (hfree : s.mutex = none) (h : Harvest ρ)
      (hh : h = (Harvest.mk s.parking []).takeAll order) :
      LoopTransition d order s
        { s with
          parking := h.toParking
          loop := if h.toResume.isEmpty then .returned else .drainResume h.toResume }
  | drained (hphase : s.loop = .drainResume []) :
      LoopTransition d order s { s with loop := .drain }
  | drainResume (r : ρ) (rest : List ρ) (hphase : s.loop = .drainResume (r :: rest)) :
      LoopTransition d order s { s with loop := .drainResume rest }

theorem loopStep_transition {order : IterationOrder Int} {s t : Reactor ρ} {events : List Int}
    (hstep : loopStep d order s events = some t) : LoopTransition d order s t := by
  unfold loopStep at hstep
  cases hphase : s.loop with
  | notStarted | returned =>
    rw [hphase] at hstep
    cases hstep
  | checkStop =>
    rw [hphase] at hstep
    cases hstep
    exact .checkStop hphase
  | computeTimeout =>
    rw [hphase] at hstep
    rcases Option.ite_none_right_eq_some.1 hstep with ⟨hfree, hcomputed⟩
    cases hcomputed
    exact .computeTimeout hphase (Option.isNone_iff_eq_none.1 hfree)
  | epollWait timeoutMs =>
    rw [hphase] at hstep
    rcases Option.ite_none_right_eq_some.1 hstep with ⟨⟨-, -, hevents⟩, hpolled⟩
    cases hpolled
    exact .poll timeoutMs events hphase hevents
  | harvest reported =>
    rw [hphase] at hstep
    rcases Option.ite_none_right_eq_some.1 hstep with ⟨hfree, hharvested⟩
    cases hharvested
    exact .harvest reported hphase (Option.isNone_iff_eq_none.1 hfree) _ rfl
  | resume toResume =>
    cases toResume with
    | nil =>
      rw [hphase] at hstep
      cases hstep
      exact .resumed hphase
    | cons r rest =>
      rw [hphase] at hstep
      cases hstep
      exact .resume r rest hphase
  | drain =>
    rw [hphase] at hstep
    rcases Option.ite_none_right_eq_some.1 hstep with ⟨hfree, hdrained⟩
    cases hdrained
    exact .drain hphase (Option.isNone_iff_eq_none.1 hfree) _ rfl
  | drainResume toResume =>
    cases toResume with
    | nil =>
      rw [hphase] at hstep
      cases hstep
      exact .drained hphase
    | cons r rest =>
      rw [hphase] at hstep
      cases hstep
      exact .drainResume r rest hphase

/-! ## The steps of `start` and `stop` -/

/-- What one step of the owner does to the reactor. -/
inductive OwnerTransition (d : Descriptors) (s : Reactor ρ) : Reactor ρ → Prop where
  | requestStop (hphase : s.owner = .outside) (hrunning : s.running = true) :
      OwnerTransition d s
        { s with memberStop := true, tokenStop := true, owner := .stopRequested }
  | start (hphase : s.owner = .outside) (hrunning : s.running = false) :
      OwnerTransition d s { s with running := true, owner := .starting }
  | spawn (hphase : s.owner = .starting) :
      OwnerTransition d s { s with tokenStop := false, loop := .checkStop, owner := .spawned }
  | assign (hphase : s.owner = .spawned) :
      OwnerTransition d s { s with memberStop := s.tokenStop, owner := .outside }
  | announce (hphase : s.owner = .stopRequested) :
      OwnerTransition d s { wake d s with owner := .joining }
  | join (hphase : s.owner = .joining) (hreturned : s.loop = .returned) :
      OwnerTransition d s { s with owner := .joined }
  | finish (hphase : s.owner = .joined) :
      OwnerTransition d s { s with running := false, owner := .outside }

omit [DecidableEq ρ] in
theorem ownerStep_transition {s t : Reactor ρ} (hstep : ownerStep d s = some t) :
    OwnerTransition d s t := by
  unfold ownerStep at hstep
  cases hphase : s.owner with
  | outside =>
    rw [hphase] at hstep
    simp only at hstep
    split at hstep
    · rename_i hrunning
      cases hstep
      exact .requestStop hphase hrunning
    · rename_i hrunning
      rcases Option.ite_none_left_eq_some.1 hstep with ⟨-, hstarted⟩
      cases hstarted
      exact .start hphase (Bool.eq_false_iff.2 hrunning)
  | starting =>
    rw [hphase] at hstep
    cases hstep
    exact .spawn hphase
  | spawned =>
    rw [hphase] at hstep
    cases hstep
    exact .assign hphase
  | stopRequested =>
    rw [hphase] at hstep
    cases hstep
    exact .announce hphase
  | joining =>
    rw [hphase] at hstep
    simp only at hstep
    split at hstep
    · rename_i hreturned
      cases hstep
      exact .join hphase hreturned
    · cases hstep
  | joined =>
    rw [hphase] at hstep
    cases hstep
    exact .finish hphase

end Transitions

/-! ## The timeout of `epoll_wait` -/

/-- A wait for `timeoutMs` from `start` on is over when the deadline comes, or does not
wait at all if it has come. -/
def Covers (start timeoutMs deadline : Int) : Prop :=
  start + timeoutMs * 1000000 ≤ max start deadline

section Timeout

/-- The milliseconds to a deadline that `static_cast<int>` does not make negative. -/
theorem bmod_remaining {start deadline : Int} (hnear : deadline < start + 2 ^ 31 * 1000000) :
    (max 0 ((deadline - start).tdiv 1000000)).bmod (2 ^ 32) =
      max 0 ((deadline - start) / 1000000) := by
  have hquotient : max 0 ((deadline - start).tdiv 1000000) =
      max 0 ((deadline - start) / 1000000) := by
    by_cases hahead : 0 ≤ deadline - start
    · rw [Int.tdiv_eq_ediv_of_nonneg hahead]
    · have hneg : (deadline - start).tdiv 1000000 ≤ 0 := by
        rw [← Int.neg_neg (deadline - start), Int.neg_tdiv]
        have := Int.tdiv_nonneg (a := -(deadline - start)) (b := 1000000) (by omega) (by omega)
        omega
      omega
  rw [hquotient]
  apply Int.bmod_eq_of_le_mul_two
  · omega
  · omega

variable {ρ : Type*} {p : Parking ρ} {now : Int}

/-- The loop over the waiters: each one can only lower the timeout, down to its own
remaining time. -/
theorem foldl_remaining_spec
    (hnear : ∀ fd w, p.waiters.lookup fd = some w → w.deadline < now + 2 ^ 31 * 1000000)
    (fds : List Int) {timeout result : Int} (htimeout : 0 ≤ timeout)
    (hresult : result = fds.foldl
      (fun timeout fd =>
        match p.waiters.lookup fd with
        | none => timeout
        | some w => min timeout ((max 0 ((w.deadline - now).tdiv 1000000)).bmod (2 ^ 32)))
      timeout) :
    0 ≤ result ∧ result ≤ timeout ∧
      ∀ fd ∈ fds, ∀ w, p.waiters.lookup fd = some w → Covers now result w.deadline := by
  induction fds generalizing timeout with
  | nil =>
    cases hresult
    exact ⟨htimeout, le_rfl, fun fd hfd => by cases hfd⟩
  | cons fd fds ih =>
    rw [List.foldl_cons] at hresult
    cases hw : p.waiters.lookup fd with
    | none =>
      rw [hw] at hresult
      rcases ih htimeout hresult with ⟨hnonneg, hle, hcovers⟩
      refine ⟨hnonneg, hle, ?_⟩
      intro j hj w hwj
      rcases List.mem_cons.1 hj with rfl | hj
      · rw [hw] at hwj
        cases hwj
      · exact hcovers j hj w hwj
    | some w =>
      rw [hw] at hresult
      simp only [bmod_remaining (hnear fd w hw)] at hresult
      rcases ih (by omega) hresult with ⟨hnonneg, hle, hcovers⟩
      refine ⟨hnonneg, by omega, ?_⟩
      intro j hj v hvj
      rcases List.mem_cons.1 hj with rfl | hj
      · rw [hw] at hvj
        cases hvj
        unfold Covers
        omega
      · exact hcovers j hj v hvj

/-- With every deadline less than `2 ^ 31` milliseconds ahead, the timeout is neither
negative, which would wait without end, nor above 500, and it ends at the nearest
deadline. -/
theorem Parking.timeoutMs_spec (order : IterationOrder Int)
    (hnear : ∀ fd w, p.waiters.lookup fd = some w → w.deadline < now + 2 ^ 31 * 1000000) :
    0 ≤ p.timeoutMs order now ∧ p.timeoutMs order now ≤ 500 ∧
      ∀ fd w, p.waiters.lookup fd = some w → Covers now (p.timeoutMs order now) w.deadline := by
  have hresult : p.timeoutMs order now = (order.order p.waiters.keys).foldl _ 500 := rfl
  have hspec := foldl_remaining_spec hnear (order.order p.waiters.keys) (by decide) hresult
  refine ⟨hspec.1, hspec.2.1, ?_⟩
  intro fd w hw
  refine hspec.2.2 fd ?_ w hw
  exact order.mem_order.2 (AList.mem_keys.1 (UnorderedMap.mem_iff_lookup.2 ⟨w, hw⟩))

/-- A deadline of more than 24 days overflows `int` and makes the timeout negative. -/
example : Parking.timeoutMs (.insertion Int)
    { waiters := (∅ : UnorderedMap Int (Waiter Unit)).insert 5 ⟨(), 2 ^ 31 * 1000000⟩
      interest := fun _ => .armed
      ready := fun _ => false } 0 = -2 ^ 31 := by
  decide

end Timeout

/-! ## What a round leaves parked -/

section Rounds

variable {ρ : Type*} [DecidableEq ρ]

theorem Harvest.lookup_expire (now : Int) (h : Harvest ρ) (fd j : Int) :
    (h.expire now fd).waiters.lookup j =
      if j = fd then (h.waiters.lookup j).filter (fun w => now < w.deadline)
      else h.waiters.lookup j := by
  unfold Harvest.expire
  by_cases hj : j = fd
  · subst hj
    rw [if_pos rfl]
    cases hw : h.waiters.lookup j with
    | none => exact hw
    | some w =>
      simp only
      split
      · rename_i hexpired
        rw [Harvest.lookup_take, if_pos rfl, Option.filter_some, if_neg (by simpa using hexpired)]
      · rename_i hahead
        rw [hw, Option.filter_some, if_pos (by simpa using hahead)]
  · rw [if_neg hj]
    split
    · rfl
    · split
      · rw [Harvest.lookup_take, if_neg hj]
      · rfl

/-- A waiter is left parked by a round exactly if its deadline is ahead. -/
theorem Harvest.lookup_takeExpired (order : IterationOrder Int) (now : Int) (h : Harvest ρ)
    (fd : Int) :
    (h.takeExpired order now).waiters.lookup fd =
      (h.waiters.lookup fd).filter (fun w => now < w.deadline) := by
  have hloop : ∀ (fds : List Int) (h : Harvest ρ),
      (fds.foldl (Harvest.expire now) h).waiters.lookup fd =
        if fd ∈ fds then (h.waiters.lookup fd).filter (fun w => now < w.deadline)
        else h.waiters.lookup fd := by
    intro fds
    induction fds with
    | nil => intro h; simp
    | cons j fds ih =>
      intro h
      rw [List.foldl_cons, ih, Harvest.lookup_expire]
      by_cases hj : fd = j
      · simp [hj, Option.filter_filter]
      · simp [hj]
  have hall := hloop (order.order h.waiters.keys) h
  by_cases hfd : fd ∈ h.waiters
  · rw [if_pos (order.mem_order.2 (AList.mem_keys.1 hfd))] at hall
    exact hall
  · rw [AList.lookup_eq_none.2 hfd] at hall ⊢
    rw [Option.filter_none, ite_self] at hall
    exact hall

/-- A descriptor without waiter is not touched by the loops. -/
def Harvest.Idle (fd : Int) (x : Interest) (h : Harvest ρ) : Prop :=
  h.waiters.lookup fd = none ∧ h.interest fd = x

theorem Harvest.Idle.take {fd : Int} {x : Interest} {h : Harvest ρ} (hidle : h.Idle fd x)
    (ready : Bool) (j : Int) : (h.take ready j).Idle fd x := by
  refine ⟨?_, ?_⟩
  · rw [Harvest.lookup_take, hidle.1, ite_self]
  · unfold Harvest.take
    split
    · exact hidle.2
    · rename_i w hw
      have hne : fd ≠ j := by
        rintro rfl
        rw [hidle.1] at hw
        cases hw
      exact (update_of_ne hne _ _).trans hidle.2

theorem Harvest.Idle.takeReady {fd : Int} {x : Interest} {h : Harvest ρ} (hidle : h.Idle fd x)
    (d : Descriptors) (events : List Int) : (h.takeReady d events).Idle fd x := by
  refine List.foldlRecOn _ _ hidle ?_
  intro h hidle j _
  split
  · exact hidle
  · exact hidle.take true j

theorem Harvest.Idle.takeExpired {fd : Int} {x : Interest} {h : Harvest ρ}
    (hidle : h.Idle fd x) (order : IterationOrder Int) (now : Int) :
    (h.takeExpired order now).Idle fd x := by
  refine List.foldlRecOn _ _ hidle ?_
  intro h hidle j _
  unfold Harvest.expire
  split
  · exact hidle
  · split
    · exact hidle.take false j
    · exact hidle

theorem Harvest.Idle.takeAll {fd : Int} {x : Interest} {h : Harvest ρ} (hidle : h.Idle fd x)
    (order : IterationOrder Int) : (h.takeAll order).Idle fd x := by
  have hloop : ((order.order h.waiters.keys).foldl (Harvest.take false) h).Idle fd x := by
    refine List.foldlRecOn _ _ hidle ?_
    intro h hidle j _
    exact hidle.take false j
  exact ⟨AList.lookup_empty fd, hloop.2⟩

end Rounds

/-! ## Deadlines and the wake descriptor -/

section Timed

variable {ρ : Type*} [DecidableEq ρ] {d : Descriptors} {awaiter : ρ → FdAwaiter}

variable (d) in
/-- Every deadline is near, and the wake descriptor, on which nobody waits, is still in
the interest list. -/
structure Parking.Timed (now : Int) (p : Parking ρ) : Prop where
  near : ∀ fd w, p.waiters.lookup fd = some w → w.deadline < now + 2 ^ 31 * 1000000
  unparked : p.waiters.lookup d.wakeFd = none
  level : p.interest d.wakeFd = .level

variable {p q : Parking ρ} {now : Int}

omit [DecidableEq ρ] in
theorem Parking.Timed.later (hp : p.Timed d now) {later : Int} (hlater : now ≤ later) :
    p.Timed d later where
  near fd w hw := by
    have := hp.near fd w hw
    omega
  unparked := hp.unparked
  level := hp.level

omit [DecidableEq ρ] in
/-- Fewer waiters, and the wake descriptor as it was. -/
theorem Parking.Timed.of_fewer (hp : p.Timed d now)
    (hfewer : ∀ fd w, q.waiters.lookup fd = some w → p.waiters.lookup fd = some w)
    (hlevel : q.interest d.wakeFd = p.interest d.wakeFd) : q.Timed d now where
  near fd w hw := hp.near fd w (hfewer fd w hw)
  unparked := by
    rw [Option.eq_none_iff_forall_ne_some]
    intro w hw
    have hparked := hfewer _ w hw
    rw [hp.unparked] at hparked
    cases hparked
  level := hlevel.trans hp.level

omit [DecidableEq ρ] in
theorem Parking.Timed.insert (hp : p.Timed d now) {r : ρ} (hfd : (awaiter r).fd ≠ d.wakeFd)
    (htimeout : (awaiter r).timeoutMs.toNat < 2 ^ 31) :
    (p.insert awaiter r now).Timed d now where
  near fd w hw := by
    simp only [Parking.insert] at hw
    rw [UnorderedMap.lookup_insert_eq] at hw
    split at hw
    · cases hw
      simp only
      omega
    · exact hp.near fd w hw
  unparked := by
    simp only [Parking.insert]
    rw [UnorderedMap.lookup_insert_eq, if_neg hfd.symm]
    exact hp.unparked
  level := hp.level

variable (d) in
/-- What holds of the deadlines, of the wake descriptor and of the stop in every state. -/
structure Timed (s : Reactor ρ) : Prop where
  parking : s.parking.Timed d s.clock
  /-- A stop that `run` did not see before it went to wait is announced. -/
  stop : s.loop = .computeTimeout ∨ (∃ timeoutMs, s.loop = .epollWait timeoutMs) →
    s.tokenStop = true → s.wakePending = true ∨ s.owner = .stopRequested

omit [DecidableEq ρ] in
theorem initial_timed (hepoll : 0 ≤ d.epollFd) (hwake : 0 ≤ d.wakeFd) :
    Timed d (initial d ρ) where
  parking :=
    { near := fun fd w hw => by
        rw [initial, AList.lookup_empty] at hw
        cases hw
      unparked := AList.lookup_empty _
      level := if_pos ⟨hepoll, hwake, rfl⟩ }
  stop hphase := by
    rcases hphase with hphase | ⟨timeoutMs, hphase⟩ <;> cases hphase

variable {s t : Reactor ρ}

omit [DecidableEq ρ] in
theorem Timed.announced (hs : Timed d s) (howner : s.owner ≠ .stopRequested)
    (hloop : s.loop = .computeTimeout ∨ ∃ timeoutMs, s.loop = .epollWait timeoutMs)
    (hstop : s.tokenStop = true) : s.wakePending = true :=
  (hs.stop hloop hstop).resolve_right howner

omit [DecidableEq ρ] in
theorem Timed.ownerStep (hs : Timed d s) (hwake : 0 ≤ d.wakeFd)
    (hstep : ownerStep d s = some t) : Timed d t := by
  cases ownerStep_transition hstep with
  | requestStop hphase hrunning => exact ⟨hs.parking, fun _ _ => Or.inr rfl⟩
  | start hphase hrunning | assign hphase | join hphase hreturned | finish hphase =>
    exact ⟨hs.parking, fun hloop hstop => Or.inl (hs.announced (by simp [hphase]) hloop hstop)⟩
  | spawn hphase =>
    refine ⟨hs.parking, fun hloop => ?_⟩
    rcases hloop with hloop | ⟨timeoutMs, hloop⟩ <;> cases hloop
  | announce hphase => exact ⟨hs.parking, fun _ _ => Or.inl (by simp [wake, hwake])⟩

/-- What a step of `register_waiter` leaves alone; it never takes an announcement back. -/
theorem CallTransition.frame {r : ρ} (h : CallTransition d awaiter s r t) :
    t.loop = s.loop ∧ t.owner = s.owner ∧ t.tokenStop = s.tokenStop ∧ t.clock = s.clock ∧
      (s.wakePending = true → t.wakePending = true) := by
  cases h with
  | announce hphase => exact ⟨rfl, rfl, rfl, rfl, fun hpending => by simp [wake, hpending]⟩
  | _ => exact ⟨rfl, rfl, rfl, rfl, id⟩

theorem Timed.callStep (hs : Timed d s) {r : ρ} {added : Bool}
    (hfd : (awaiter r).fd ≠ d.wakeFd) (htimeout : (awaiter r).timeoutMs.toNat < 2 ^ 31)
    (hstep : callStep d awaiter s r added = some t) : Timed d t := by
  have htransition := callStep_transition hstep
  rcases htransition.frame with ⟨hloop, howner, htoken, hclock, hpending⟩
  refine ⟨?_, ?_⟩
  · rw [hclock]
    cases htransition with
    | insert hphase => exact hs.parking.insert hfd htimeout
    | add hphase habsent =>
      exact hs.parking.of_fewer (fun _ _ => id) (update_of_ne hfd.symm _ _)
    | withdraw hphase =>
      refine hs.parking.of_fewer ?_ rfl
      intro fd w hw
      simp only [EpollReactor.refuse] at hw
      rw [UnorderedMap.lookup_erase_eq] at hw
      split at hw
      · cases hw
      · exact hw
    | refuse hphase => exact hs.parking.of_fewer (fun _ _ => id) rfl
    | _ => exact hs.parking
  · rw [hloop, htoken, howner]
    intro hwaiting hstop
    exact (hs.stop hwaiting hstop).imp_left hpending

theorem Timed.loopStep (hs : Timed d s) {order : IterationOrder Int} {events : List Int}
    (hkey : ∀ fd w, s.parking.waiters.lookup fd = some w → (awaiter w.call).fd = fd)
    (hstep : loopStep d order s events = some t) : Timed d t := by
  have hidle : (Harvest.mk s.parking []).Idle d.wakeFd .level :=
    ⟨hs.parking.unparked, hs.parking.level⟩
  cases loopStep_transition hstep with
  | checkStop hphase =>
    refine ⟨hs.parking, ?_⟩
    intro hwaiting hstop
    simp only at hwaiting hstop
    rw [hstop, if_pos rfl] at hwaiting
    rcases hwaiting with hloop | ⟨timeoutMs, hloop⟩ <;> cases hloop
  | computeTimeout hphase hfree => exact ⟨hs.parking, fun _ => hs.stop (Or.inl hphase)⟩
  | poll timeoutMs events hphase hevents =>
    refine ⟨hs.parking.of_fewer (fun _ _ => id) ?_, ?_⟩
    · simp [Parking.report, hs.parking.level]
    · intro hwaiting
      rcases hwaiting with hloop | ⟨timeoutMs, hloop⟩ <;> cases hloop
  | harvest events hphase hfree h hh =>
    have hleft := (hidle.takeReady d events).takeExpired order s.clock
    have hremoves : h.Removes awaiter (fun _ => True) s.parking := by
      rw [hh]
      exact ((Harvest.Removes.start _ s.parking).takeReady d hkey
        fun _ _ _ _ _ => trivial).takeExpired order hkey s.clock
    rw [← hh] at hleft
    refine ⟨hs.parking.of_fewer (fun fd w => hremoves.lookup)
      (hleft.2.trans hs.parking.level.symm), ?_⟩
    intro hwaiting
    rcases hwaiting with hloop | ⟨timeoutMs, hloop⟩ <;> cases hloop
  | drain hphase hfree h hh =>
    have hleft := hidle.takeAll order
    rw [← hh] at hleft
    refine ⟨hs.parking.of_fewer ?_ (hleft.2.trans hs.parking.level.symm), ?_⟩
    · intro fd w hw
      rw [hh] at hw
      exact absurd hw (by simp [Harvest.takeAll])
    · intro hwaiting
      simp only at hwaiting
      split at hwaiting <;>
        rcases hwaiting with hloop | ⟨timeoutMs, hloop⟩ <;> cases hloop
  | resumed hphase | resume r rest hphase | drained hphase | drainResume r rest hphase =>
    refine ⟨hs.parking, ?_⟩
    intro hwaiting
    rcases hwaiting with hloop | ⟨timeoutMs, hloop⟩ <;> cases hloop

theorem Timed.step {order : IterationOrder Int} {label : Label ρ} (hs : Timed d s)
    (hwake : 0 ≤ d.wakeFd) (hfds : ∀ r, (awaiter r).fd ≠ d.wakeFd)
    (htimeouts : ∀ r, (awaiter r).timeoutMs.toNat < 2 ^ 31)
    (hkey : ∀ fd w, s.parking.waiters.lookup fd = some w → (awaiter w.call).fd = fd)
    (hstep : step d awaiter order s label = some t) : Timed d t := by
  cases label with
  | owner => exact hs.ownerStep hwake hstep
  | call r added => exact hs.callStep (hfds r) (htimeouts r) hstep
  | loop events => exact hs.loopStep hkey hstep
  | tick nanoseconds =>
    cases hstep
    exact ⟨hs.parking.later (by simp), hs.stop⟩

end Timed

/-! ## While `run` waits -/

/-- The call has parked its coroutine and has still to call `wake`, unless it takes the
coroutine back. -/
def CallPhase.announces : CallPhase → Bool
  | .inserted | .leaving true | .unlocked => true
  | _ => false

section Waiting

variable {ρ : Type*} [DecidableEq ρ] {d : Descriptors} {awaiter : ρ → FdAwaiter}
  {s t : Reactor ρ}

theorem announces_update {call : ρ → CallPhase} {r : ρ} {phase : CallPhase}
    (hphase : (call r).announces = true → phase.announces = true) (q : ρ)
    (hq : (call q).announces = true) : (update call r phase q).announces = true := by
  by_cases hr : q = r
  · rw [hr] at hq ⊢
    rw [update_self]
    exact hphase hq
  · rw [update_of_ne hr]
    exact hq

/-- A waiter that is parked after a step of `register_waiter` was parked before, and is
announced if it was going to be; or the step has parked it. -/
theorem CallTransition.waiter {r : ρ} (hwake : 0 ≤ d.wakeFd) (h : CallTransition d awaiter s r t)
    {fd : Int} {w : Waiter ρ} (hw : t.parking.waiters.lookup fd = some w) :
    (s.parking.waiters.lookup fd = some w ∧
      ((s.call w.call).announces = true → (awaiter w.call).fd = fd →
        t.wakePending = true ∨ (t.call w.call).announces = true)) ∨
      (w.call = r ∧ (t.call r).announces = true ∧ (awaiter r).fd = fd) := by
  cases h with
  | enter hphase | lock hphase _ | seeRunning hphase _ | seeUnstopped hphase _ =>
    refine Or.inl ⟨hw, fun hannounces _ => Or.inr (announces_update ?_ w.call hannounces)⟩
    intro hr
    rw [hphase] at hr
    cases hr
  | refuse hphase =>
    refine Or.inl ⟨hw, fun hannounces _ => Or.inr (announces_update ?_ w.call hannounces)⟩
    intro hr
    rcases hphase with ⟨hphase, -⟩ | ⟨hphase, -⟩ <;>
      · rw [hphase] at hr
        cases hr
  | insert hphase =>
    simp only [Parking.insert] at hw
    rw [UnorderedMap.lookup_insert_eq] at hw
    split at hw
    · rename_i hfd
      cases hw
      exact Or.inr ⟨rfl, by simp [CallPhase.announces], hfd.symm⟩
    · refine Or.inl ⟨hw, fun hannounces _ => Or.inr (announces_update ?_ w.call hannounces)⟩
      exact fun _ => rfl
  | add hphase habsent =>
    exact Or.inl ⟨hw, fun hannounces _ => Or.inr (announces_update (fun _ => rfl) w.call
      hannounces)⟩
  | withdraw hphase =>
    simp only [EpollReactor.refuse] at hw
    rw [UnorderedMap.lookup_erase_eq] at hw
    split at hw
    · cases hw
    · rename_i hfd
      refine Or.inl ⟨hw, fun hannounces hown => Or.inr ?_⟩
      have hother : w.call ≠ r := by
        rintro rfl
        exact hfd hown.symm
      simp only [EpollReactor.refuse]
      rw [update_of_ne hother]
      exact hannounces
  | leave result hphase =>
    refine Or.inl ⟨hw, fun hannounces _ => Or.inr (announces_update ?_ w.call hannounces)⟩
    intro hr
    rw [hphase] at hr
    cases result with
    | true => rfl
    | false => cases hr
  | announce hphase => exact Or.inl ⟨hw, fun _ _ => Or.inl (by simp [wake, hwake])⟩

variable (awaiter) in
/-- What holds while `run` waits for at most `timeoutMs` milliseconds from `start` on. -/
structure Watched (start timeoutMs : Int) (s : Reactor ρ) : Prop where
  loop : s.loop = .epollWait timeoutMs
  waiters : ∀ fd w, s.parking.waiters.lookup fd = some w →
    Covers start timeoutMs w.deadline ∨ s.wakePending = true ∨
      ((s.call w.call).announces = true ∧ (awaiter w.call).fd = fd)

/-- The steps of the other threads. -/
theorem Watched.step {order : IterationOrder Int} {start timeoutMs : Int} {label : Label ρ}
    {resumed reported : ρ → Nat} (hwatched : Watched awaiter start timeoutMs s)
    (hs : Inv d awaiter resumed reported s) (hwake : 0 ≤ d.wakeFd)
    (hother : ∀ events, label ≠ .loop events)
    (hstep : step d awaiter order s label = some t) : Watched awaiter start timeoutMs t := by
  cases label with
  | owner =>
    have hwaiting := hwatched.loop
    cases ownerStep_transition hstep with
    | spawn hphase =>
      have hoff := hs.shutdown.owner
      rw [hphase] at hoff
      have hoff := hoff.2
      rw [hwaiting] at hoff
      cases hoff
    | announce hphase =>
      exact ⟨hwaiting, fun fd w hw => Or.inr (Or.inl (by simp [wake, hwake]))⟩
    | _ => exact ⟨hwaiting, hwatched.waiters⟩
  | call r added =>
    have htransition := callStep_transition hstep
    rcases htransition.frame with ⟨hloop, -, -, -, hpending⟩
    refine ⟨hloop.trans hwatched.loop, ?_⟩
    intro fd w hw
    rcases htransition.waiter hwake hw with ⟨hparked, hkept⟩ | ⟨rfl, hannounces, hfd⟩
    · rcases hwatched.waiters fd w hparked with hcovers | hpends | ⟨hannounces, hfd⟩
      · exact Or.inl hcovers
      · exact Or.inr (Or.inl (hpending hpends))
      · exact Or.inr ((hkept hannounces hfd).imp_right fun hlater => ⟨hlater, hfd⟩)
    · exact Or.inr (Or.inr ⟨hannounces, hfd⟩)
  | loop events => exact absurd rfl (hother events)
  | tick nanoseconds =>
    cases hstep
    exact ⟨hwatched.loop, hwatched.waiters⟩

end Waiting

section Results

variable {ρ : Type*} [DecidableEq ρ] (d : Descriptors) (awaiter : ρ → FdAwaiter)
  (order : IterationOrder Int)

theorem timed_of_run (hepoll : 0 ≤ d.epollFd) (hwake : 0 ≤ d.wakeFd)
    (hfds : ∀ r, (awaiter r).fd ≠ d.wakeFd)
    (htimeouts : ∀ r, (awaiter r).timeoutMs.toNat < 2 ^ 31) {labels : List (Label ρ)}
    {s : Reactor ρ} (hrun : (onePerFd d awaiter order).run (initial d ρ) labels = some s) :
    Timed d s := by
  refine StateMachine.run_induction (m := onePerFd d awaiter order)
    (P := fun _ s => Timed d s) (initial_timed hepoll hwake) ?_ hrun
  intro labels s label t hrun hs hstep
  have hinv := inv_of_run d awaiter order hrun
  exact hs.step hwake hfds htimeouts hinv.parked.key
    (StateMachine.restrict_step_eq_some.1 hstep).2

/-- No deadline and no stop is overslept.  Whatever the other threads do after `run` has
computed its timeout: the timeout lies between 0 and 500 milliseconds, and at every
moment of the wait each parked waiter has a deadline at which the wait is over anyway, or
the wake descriptor is readable, or the call that has parked it is still to write to it;
likewise for the stop.  And a waiter that a round leaves parked has its deadline ahead. -/
theorem no_deadline_overslept (hepoll : 0 ≤ d.epollFd) (hwake : 0 ≤ d.wakeFd)
    (hfds : ∀ r, (awaiter r).fd ≠ d.wakeFd)
    (htimeouts : ∀ r, (awaiter r).timeoutMs.toNat < 2 ^ 31) {labels : List (Label ρ)}
    {s : Reactor ρ} (hrun : (onePerFd d awaiter order).run (initial d ρ) labels = some s) :
    (s.loop = .computeTimeout → ∀ events u rest t,
      (onePerFd d awaiter order).step s (.loop events) = some u →
      (onePerFd d awaiter order).run u rest = some t →
      (∀ label ∈ rest, ∀ events, label ≠ .loop events) →
        ∃ timeoutMs, t.loop = .epollWait timeoutMs ∧ 0 ≤ timeoutMs ∧ timeoutMs ≤ 500 ∧
          (∀ fd w, t.parking.waiters.lookup fd = some w →
            Covers s.clock timeoutMs w.deadline ∨ reportable t d.wakeFd ∨
              (t.call w.call).announces = true) ∧
          (t.tokenStop = true → reportable t d.wakeFd ∨ t.owner = .stopRequested)) ∧
    (∀ reported, s.loop = .harvest reported → ∀ events t,
      (onePerFd d awaiter order).step s (.loop events) = some t →
        ∀ fd w, t.parking.waiters.lookup fd = some w → s.clock < w.deadline) := by
  have htimed := timed_of_run d awaiter order hepoll hwake hfds htimeouts hrun
  refine ⟨?_, ?_⟩
  · intro hphase events u rest t hstep hrest hothers
    rcases s.parking.timeoutMs_spec order htimed.parking.near with ⟨hnonneg, hle, hcovers⟩
    have hloop : loopStep d order s events = some u :=
      (StateMachine.restrict_step_eq_some.1 hstep).2
    simp only [loopStep, hphase] at hloop
    rcases Option.ite_none_right_eq_some.1 hloop with ⟨-, hcomputed⟩
    have hwatched : Watched awaiter s.clock (s.parking.timeoutMs order s.clock) u := by
      cases hcomputed
      exact ⟨rfl, fun fd w hw => Or.inl (hcovers fd w hw)⟩
    -- The steps of the other threads, one at a time, with the whole run behind them.
    have hlast : Watched awaiter s.clock (s.parking.timeoutMs order s.clock) t ∧
        ∃ past, (onePerFd d awaiter order).run (initial d ρ) past = some t := by
      refine (onePerFd d awaiter order).run_keeps
        (I := fun t => Watched awaiter s.clock (s.parking.timeoutMs order s.clock) t ∧
          ∃ past, (onePerFd d awaiter order).run (initial d ρ) past = some t) ?_
        ⟨hwatched, _, StateMachine.run_trans _ hrun (StateMachine.run_single _ hstep)⟩ hrest
      rintro label hlabel v v' ⟨hv, past, hpast⟩ hmove
      refine ⟨?_, _, StateMachine.run_trans _ hpast (StateMachine.run_single _ hmove)⟩
      exact hv.step (inv_of_run d awaiter order hpast) hwake (hothers label hlabel)
        (StateMachine.restrict_step_eq_some.1 hmove).2
    rcases hlast with ⟨hwaits, past, hpast⟩
    have htimed' := timed_of_run d awaiter order hepoll hwake hfds htimeouts hpast
    have hreadable : t.wakePending = true → reportable t d.wakeFd :=
      fun hpending => Or.inr ⟨htimed'.parking.level, hpending⟩
    refine ⟨_, hwaits.loop, hnonneg, hle, ?_, ?_⟩
    · intro fd w hw
      rcases hwaits.waiters fd w hw with hcovered | hpending | ⟨hannounces, -⟩
      · exact Or.inl hcovered
      · exact Or.inr (Or.inl (hreadable hpending))
      · exact Or.inr (Or.inr hannounces)
    · intro hstop
      exact (htimed'.stop (Or.inr ⟨_, hwaits.loop⟩) hstop).imp_left hreadable
  · intro reported hphase events t hstep fd w hw
    have hloop : loopStep d order s events = some t :=
      (StateMachine.restrict_step_eq_some.1 hstep).2
    simp only [loopStep, hphase] at hloop
    rcases Option.ite_none_right_eq_some.1 hloop with ⟨-, hharvested⟩
    cases hharvested
    simp only at hw
    rw [Harvest.lookup_takeExpired, Option.filter_eq_some_iff] at hw
    exact of_decide_eq_true hw.2

end Results

/-- The state after some steps of three possible waiters and the reactor thread. -/
def reached (labels : List (Label (Fin 3))) : Reactor (Fin 3) :=
  ((onePerFd ⟨3, 4⟩ threeAwaiters (.insertion Int)).run (initial ⟨3, 4⟩ (Fin 3)) labels).getD
    (initial ⟨3, 4⟩ (Fin 3))

/-- `run` is about to compute its timeout, with nobody parked. -/
def beforeTimeout : List (Label (Fin 3)) :=
  [.owner, .owner, .owner, .loop []]

/-- The first waiter is parked while `run` waits, for 100 of its 500 milliseconds. -/
def parkedLater : List (Label (Fin 3)) :=
  List.replicate 6 (.call 0 true)

/-- The waiter that came later is still to be announced. -/
theorem no_deadline_overslept_parkedLater :
    (reached beforeTimeout).loop = .computeTimeout ∧
      (reached (beforeTimeout ++ .loop [] :: parkedLater)).parking.waiters.lookup 5 =
        some ⟨0, 100000000⟩ ∧
      ∃ timeoutMs, (reached (beforeTimeout ++ .loop [] :: parkedLater)).loop =
          .epollWait timeoutMs ∧
        (Covers 0 timeoutMs 100000000 ∨
          reportable (reached (beforeTimeout ++ .loop [] :: parkedLater)) 4 ∨
          ((reached (beforeTimeout ++ .loop [] :: parkedLater)).call 0).announces = true) := by
  have hrun : (onePerFd ⟨3, 4⟩ threeAwaiters (.insertion Int)).run (initial ⟨3, 4⟩ (Fin 3))
      beforeTimeout = some (reached beforeTimeout) := rfl
  have hphase : (reached beforeTimeout).loop = .computeTimeout := rfl
  have hstep : (onePerFd ⟨3, 4⟩ threeAwaiters (.insertion Int)).step (reached beforeTimeout)
      (.loop []) = some (reached (beforeTimeout ++ [.loop []])) := rfl
  have hrest : (onePerFd ⟨3, 4⟩ threeAwaiters (.insertion Int)).run
      (reached (beforeTimeout ++ [.loop []])) parkedLater =
        some (reached (beforeTimeout ++ .loop [] :: parkedLater)) := rfl
  have hwaiter : (reached (beforeTimeout ++ .loop [] :: parkedLater)).parking.waiters.lookup 5 =
      some ⟨0, 100000000⟩ := rfl
  rcases (no_deadline_overslept ⟨3, 4⟩ threeAwaiters (.insertion Int) (by decide) (by decide)
    (by decide) (by decide) hrun).1 hphase [] _ parkedLater _ hstep hrest
    (by intro label hlabel events heq; rw [heq] at hlabel; simp [parkedLater] at hlabel) with
    ⟨timeoutMs, hwaits, -, -, hwaiters, -⟩
  exact ⟨hphase, hwaiter, timeoutMs, hwaits, hwaiters 5 _ hwaiter⟩

end EpollReactor

end EdgeOrchestrator
