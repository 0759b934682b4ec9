import EdgeOrchestrator.Network.Reactor

/-!
# Parked waiters and the interest list

What parking and unparking does to the table of waiters and to the interest list of
the epoll instance.  A one-shot registration belongs to a parked waiter, and to one
whose descriptor has been reported if it has fired; `ready_` is set only for such a
waiter.

Main results:

- `Harvest.Removes.takeAll`: after a round of the drain loop every waiter that was parked is on
  that list.
- `Parked.insert`, `Parked.arm`, `Parked.withdraw`, `Parked.report` and `Parked.removes`: the
  table and the interest list keep fitting together.
-/

namespace EdgeOrchestrator

open Function (update update_of_ne update_self)

namespace EpollReactor

/-! ## Unparking waiters -/

section Harvesting

variable {ρ : Type*} [DecidableEq ρ] {awaiter : ρ → FdAwaiter}

theorem Parking.holds_iff {p : Parking ρ} {r : ρ} :
    p.holds awaiter r = true ↔ ∃ w, p.waiters.lookup (awaiter r).fd = some w ∧ w.call = r := by
  unfold Parking.holds
  rw [decide_eq_true_iff, Option.map_eq_some_iff]

/-- Two parkings with the same entry for its descriptor agree on a call. -/
theorem Parking.holds_congr {p q : Parking ρ} {r : ρ}
    (h : q.waiters.lookup (awaiter r).fd = p.waiters.lookup (awaiter r).fd) :
    q.holds awaiter r = p.holds awaiter r := by
  unfold Parking.holds
  rw [h]

theorem Parking.holds_of_none {p : Parking ρ} {r : ρ}
    (h : p.waiters.lookup (awaiter r).fd = none) : p.holds awaiter r = false := by
  unfold Parking.holds
  rw [h]
  rfl

variable (awaiter) in
/-- What has become of the parking `p` after some waiters were taken out of it: every
descriptor is as before or without waiter and registration, every waiter is still
parked or on the list, and `ready_` was set only for waiters that satisfy `R`. -/
structure Harvest.Removes (R : ρ → Prop) (p : Parking ρ) (h : Harvest ρ) : Prop where
  entries : ∀ fd,
    (h.interest fd = p.interest fd ∧ h.waiters.lookup fd = p.waiters.lookup fd) ∨
      (h.interest fd = .absent ∧ h.waiters.lookup fd = none)
  balance : ∀ r,
    (h.holds awaiter r).toNat + h.toResume.count r = (p.holds awaiter r).toNat
  ready : ∀ r, h.ready r = true → p.ready r = true ∨ R r

theorem Harvest.Removes.start (R : ρ → Prop) (p : Parking ρ) :
    (Harvest.mk p []).Removes awaiter R p where
  entries _ := Or.inl ⟨rfl, rfl⟩
  balance r := by simp
  ready _ h := Or.inl h

theorem Harvest.Removes.lookup {R : ρ → Prop} {p : Parking ρ} {h : Harvest ρ}
    (hh : h.Removes awaiter R p) {fd : Int} {w : Waiter ρ}
    (hw : h.waiters.lookup fd = some w) : p.waiters.lookup fd = some w := by
  rcases hh.entries fd with ⟨-, heq⟩ | ⟨-, hnone⟩
  · rw [← heq]
    exact hw
  · rw [hnone] at hw
    cases hw

theorem Harvest.lookup_take (ready : Bool) (h : Harvest ρ) (fd j : Int) :
    (h.take ready fd).waiters.lookup j = if j = fd then none else h.waiters.lookup j := by
  unfold Harvest.take
  split
  · rename_i hnone
    split
    · rename_i hj
      rw [hj, hnone]
    · rfl
  · exact UnorderedMap.lookup_erase_eq _ _ _

/-- Unparking one more waiter; with `ready_` only one that satisfies `R`. -/
theorem Harvest.Removes.take {R : ρ → Prop} {p : Parking ρ} {h : Harvest ρ}
    (hkey : ∀ fd w, p.waiters.lookup fd = some w → (awaiter w.call).fd = fd)
    (hh : h.Removes awaiter R p) {ready : Bool} {fd : Int}
    (hready : ready = true → ∀ w, p.waiters.lookup fd = some w → R w.call) :
    (h.take ready fd).Removes awaiter R p := by
  have hlookup := Harvest.lookup_take ready h fd
  cases hw : h.waiters.lookup fd with
  | none =>
    unfold Harvest.take
    rw [hw]
    exact hh
  | some w =>
    have hfd : (awaiter w.call).fd = fd := hkey fd w (hh.lookup hw)
    have hheld : h.holds awaiter w.call = true :=
      Parking.holds_iff.2 ⟨w, by rw [hfd]; exact hw, rfl⟩
    have htake : h.take ready fd =
        { waiters := h.waiters.erase fd
          interest := update h.interest fd .absent
          ready := update h.ready w.call ready
          toResume := h.toResume ++ [w.call] } := by
      unfold Harvest.take
      rw [hw]
    refine ⟨?_, ?_, ?_⟩
    · intro j
      by_cases hj : j = fd
      · right
        rw [hlookup, if_pos hj, htake, hj]
        exact ⟨update_self .., rfl⟩
      · rw [hlookup, if_neg hj, htake]
        show (update h.interest fd .absent j = _ ∧ _) ∨
          (update h.interest fd .absent j = _ ∧ _)
        rw [update_of_ne hj]
        exact hh.entries j
    · intro r
      have hbalance := hh.balance r
      have hcount : (h.take ready fd).toResume.count r =
          h.toResume.count r + if w.call = r then 1 else 0 := by
        rw [htake]
        simp [List.count_append, List.count_singleton]
      by_cases hr : w.call = r
      · subst hr
        have hgone : (h.take ready fd).holds awaiter w.call = false := by
          apply Parking.holds_of_none
          rw [hlookup, if_pos hfd]
        rw [hheld] at hbalance
        rw [hgone, hcount, if_pos rfl]
        simp only [Bool.toNat_true, Bool.toNat_false] at *
        omega
      · -- another call: its own entry is elsewhere, and here it was not held
        have hsame : (h.take ready fd).holds awaiter r = h.holds awaiter r := by
          by_cases hj : (awaiter r).fd = fd
          · have hother : h.holds awaiter r = false := by
              unfold Parking.holds
              rw [hj, hw]
              simpa using hr
            rw [hother]
            apply Parking.holds_of_none
            rw [hlookup, if_pos hj]
          · apply Parking.holds_congr
            rw [hlookup, if_neg hj]
        rw [hsame, hcount, if_neg hr]
        exact hbalance
    · intro r hr
      rw [htake] at hr
      by_cases hcall : r = w.call
      · rw [hcall] at hr ⊢
        have hset : ready = true := by simpa using hr
        exact Or.inr (hready hset w (hh.lookup hw))
      · apply hh.ready r
        simpa [update_of_ne hcall] using hr

theorem Harvest.Removes.takeReady {R : ρ → Prop} {p : Parking ρ} {h : Harvest ρ}
    (d : Descriptors)
    (hkey : ∀ fd w, p.waiters.lookup fd = some w → (awaiter w.call).fd = fd)
    (hh : h.Removes awaiter R p) {events : List Int}
    (hevents : ∀ fd ∈ events, fd ≠ d.wakeFd → ∀ w, p.waiters.lookup fd = some w → R w.call) :
    (h.takeReady d events).Removes awaiter R p := by
  unfold Harvest.takeReady
  refine List.foldlRecOn _ _ hh ?_
  intro h hh fd hfd
  split
  · exact hh
  · rename_i hwake
    exact hh.take hkey fun _ => hevents fd hfd hwake

theorem Harvest.Removes.takeExpired {R : ρ → Prop} {p : Parking ρ} {h : Harvest ρ}
    (order : IterationOrder Int)
    (hkey : ∀ fd w, p.waiters.lookup fd = some w → (awaiter w.call).fd = fd)
    (hh : h.Removes awaiter R p) (now : Int) :
    (h.takeExpired order now).Removes awaiter R p := by
  unfold Harvest.takeExpired
  refine List.foldlRecOn _ _ hh ?_
  intro h hh fd _
  unfold Harvest.expire
  split
  · exact hh
  · split
    · exact hh.take hkey fun hfalse => by cases hfalse
    · exact hh

/-- A descriptor that the loop has visited has no waiter. -/
theorem Harvest.lookup_foldl_take (ready : Bool) (fds : List Int) (h : Harvest ρ) (fd : Int) :
    (fds.foldl (Harvest.take ready) h).waiters.lookup fd =
      if fd ∈ fds then none else h.waiters.lookup fd := by
  induction fds generalizing h with
  | nil => simp
  | cons j fds ih =>
    rw [List.foldl_cons, ih, Harvest.lookup_take]
    by_cases hj : fd = j
    · simp [hj]
    · simp [hj]

/-- After a round of the drain loop every waiter that was parked is on the list. -/
theorem Harvest.Removes.takeAll {R : ρ → Prop} {p : Parking ρ} (order : IterationOrder Int)
    (hkey : ∀ fd w, p.waiters.lookup fd = some w → (awaiter w.call).fd = fd) :
    ((Harvest.mk p []).takeAll order).Removes awaiter R p := by
  have hloop : ((order.order p.waiters.keys).foldl (Harvest.take false)
      (Harvest.mk p [])).Removes awaiter R p := by
    refine List.foldlRecOn _ _ (Harvest.Removes.start R p) ?_
    intro h hh fd _
    exact hh.take hkey fun hfalse => by cases hfalse
  have hempty : ∀ fd, ((order.order p.waiters.keys).foldl (Harvest.take false)
      (Harvest.mk p [])).waiters.lookup fd = none := by
    intro fd
    rw [Harvest.lookup_foldl_take]
    by_cases hfd : fd ∈ p.waiters
    · rw [if_pos (order.mem_order.2 (AList.mem_keys.1 hfd))]
    · split
      · rfl
      · exact AList.lookup_eq_none.2 hfd
  have hcleared : ∀ fd, ((Harvest.mk p []).takeAll order).waiters.lookup fd =
      ((order.order p.waiters.keys).foldl (Harvest.take false)
        (Harvest.mk p [])).waiters.lookup fd := by
    intro fd
    rw [hempty fd]
    exact AList.lookup_empty fd
  refine ⟨?_, ?_, hloop.ready⟩
  · intro fd
    rw [hcleared fd]
    exact hloop.entries fd
  · intro r
    rw [Parking.holds_congr (hcleared (awaiter r).fd)]
    exact hloop.balance r

end Harvesting

/-! ## Waiters and registrations -/

section Parking

variable {ρ : Type*} [DecidableEq ρ] (d : Descriptors) (awaiter : ρ → FdAwaiter)

/-- The parked waiters and the interest list fit together: a one-shot registration
belongs to a parked waiter, and to one that has been reported if it has fired. -/
structure Parked (reported : ρ → Nat) (call : ρ → CallPhase) (p : Parking ρ) : Prop where
  key : ∀ fd w, p.waiters.lookup fd = some w → (awaiter w.call).fd = fd
  inserted : ∀ r, call r = .inserted → p.holds awaiter r = true
  level : ∀ fd, p.interest fd = .level → fd = d.wakeFd
  oneShot : ∀ fd, p.interest fd = .armed ∨ p.interest fd = .fired →
    ∃ w, p.waiters.lookup fd = some w ∧ call w.call ≠ .inserted
  fired : ∀ fd w, p.interest fd = .fired → p.waiters.lookup fd = some w → 0 < reported w.call
  ready : ∀ r, p.ready r = true → 0 < reported r

variable {d awaiter} {reported : ρ → Nat} {call : ρ → CallPhase} {p : Parking ρ}

/-- Only whether a call is between `waiters_[fd] = …` and `epoll_ctl` matters. -/
theorem Parked.congr_call {call' : ρ → CallPhase} (hp : Parked d awaiter reported call p)
    (hcall : ∀ r, call' r = .inserted ↔ call r = .inserted) :
    Parked d awaiter reported call' p where
  key := hp.key
  inserted r hr := hp.inserted r ((hcall r).1 hr)
  level := hp.level
  oneShot fd hfd := by
    rcases hp.oneShot fd hfd with ⟨w, hw, hphase⟩
    exact ⟨w, hw, fun h => hphase ((hcall w.call).1 h)⟩
  fired := hp.fired
  ready := hp.ready

/-- `awaiter->ready_ = false`. -/
theorem Parked.clearReady (hp : Parked d awaiter reported call p) (r : ρ) :
    Parked d awaiter reported call { p with ready := update p.ready r false } where
  key := hp.key
  inserted := hp.inserted
  level := hp.level
  oneShot := hp.oneShot
  fired := hp.fired
  ready q hq := by
    by_cases hqr : q = r
    · rw [hqr] at hq
      simp at hq
    · apply hp.ready q
      simpa [update_of_ne hqr] using hq

/-- Parking a waiter on a descriptor that has none. -/
theorem Parked.insert (hp : Parked d awaiter reported call p) {r : ρ} (now : Int)
    (hnone : p.waiters.lookup (awaiter r).fd = none) :
    Parked d awaiter reported (update call r .inserted) (p.insert awaiter r now) := by
  have hfree : ∀ fd, p.interest fd = .armed ∨ p.interest fd = .fired → fd ≠ (awaiter r).fd := by
    intro fd hfd heq
    rcases hp.oneShot fd hfd with ⟨w, hw, -⟩
    rw [heq, hnone] at hw
    cases hw
  have hlookup : ∀ fd, (p.insert awaiter r now).waiters.lookup fd =
      if fd = (awaiter r).fd then some ⟨r, now + (awaiter r).timeoutMs.toNat * 1000000⟩
      else p.waiters.lookup fd := fun fd => UnorderedMap.lookup_insert_eq _ _ _ _
  refine ⟨?_, ?_, hp.level, ?_, ?_, hp.ready⟩
  · intro fd w hw
    rw [hlookup] at hw
    split at hw
    · rename_i hfd
      cases hw
      exact hfd.symm
    · exact hp.key fd w hw
  · intro q hq
    by_cases hqr : q = r
    · rw [hqr]
      exact Parking.holds_iff.2 ⟨_, by rw [hlookup, if_pos rfl], rfl⟩
    · rw [update_of_ne hqr] at hq
      rcases Parking.holds_iff.1 (hp.inserted q hq) with ⟨w, hw, hwq⟩
      refine Parking.holds_iff.2 ⟨w, ?_, hwq⟩
      rw [hlookup, if_neg, hw]
      intro heq
      rw [heq, hnone] at hw
      cases hw
  · intro fd hfd
    rcases hp.oneShot fd hfd with ⟨w, hw, hphase⟩
    refine ⟨w, ?_, ?_⟩
    · rw [hlookup, if_neg (hfree fd hfd), hw]
    · have hwr : w.call ≠ r := by
        intro heq
        apply hfree fd hfd
        rw [← hp.key fd w hw, heq]
      rw [update_of_ne hwr]
      exact hphase
  · intro fd w hfd hw
    rw [hlookup, if_neg (hfree fd (Or.inr hfd))] at hw
    exact hp.fired fd w hfd hw

/-- `EPOLL_CTL_ADD` succeeds for the waiter just parked. -/
theorem Parked.arm (hp : Parked d awaiter reported call p) {r : ρ} (hr : call r = .inserted) :
    Parked d awaiter reported (update call r (.leaving true))
      { p with interest := update p.interest (awaiter r).fd .armed } := by
  have hphase : ∀ q, update call r (.leaving true) q = .inserted →
      call q = .inserted := by
    intro q hq
    by_cases hqr : q = r
    · rw [hqr]
      exact hr
    · rwa [update_of_ne hqr] at hq
  refine ⟨hp.key, fun q hq => hp.inserted q (hphase q hq), ?_, ?_, ?_, hp.ready⟩
  · intro fd hfd
    by_cases heq : fd = (awaiter r).fd
    · simp [heq] at hfd
    · apply hp.level fd
      simpa [update_of_ne heq] using hfd
  · intro fd hfd
    by_cases heq : fd = (awaiter r).fd
    · rcases Parking.holds_iff.1 (hp.inserted r hr) with ⟨w, hw, hwr⟩
      refine ⟨w, by rw [heq]; exact hw, ?_⟩
      rw [hwr, update_self]
      simp
    · have hold : p.interest fd = .armed ∨ p.interest fd = .fired := by
        simpa [update_of_ne heq] using hfd
      rcases hp.oneShot fd hold with ⟨w, hw, hne⟩
      exact ⟨w, hw, fun h => hne (hphase w.call h)⟩
  · intro fd w hfd hw
    by_cases heq : fd = (awaiter r).fd
    · simp [heq] at hfd
    · apply hp.fired fd w _ hw
      simpa [update_of_ne heq] using hfd

/-- `EPOLL_CTL_ADD` fails, and the waiter just parked is erased. -/
theorem Parked.withdraw (hp : Parked d awaiter reported call p) {r : ρ}
    (hr : call r = .inserted) (honly : ∀ q, call q = .inserted → q = r) :
    Parked d awaiter reported (update call r (.leaving false))
      { p with waiters := p.waiters.erase (awaiter r).fd } := by
  have hnone : ∀ q, update call r (.leaving false) q ≠ .inserted := by
    intro q hq
    by_cases hqr : q = r
    · rw [hqr, update_self] at hq
      cases hq
    · rw [update_of_ne hqr] at hq
      exact hqr (honly q hq)
  rcases Parking.holds_iff.1 (hp.inserted r hr) with ⟨own, hown, hcall⟩
  have hfree : ∀ fd, p.interest fd = .armed ∨ p.interest fd = .fired → fd ≠ (awaiter r).fd := by
    intro fd hfd heq
    rcases hp.oneShot fd hfd with ⟨w, hw, hne⟩
    rw [heq, hown] at hw
    cases hw
    rw [hcall] at hne
    exact hne hr
  have hlookup : ∀ fd, (p.waiters.erase (awaiter r).fd).lookup fd =
      if fd = (awaiter r).fd then none else p.waiters.lookup fd :=
    fun fd => UnorderedMap.lookup_erase_eq _ _ _
  refine ⟨?_, fun q hq => absurd hq (hnone q), hp.level, ?_, ?_, hp.ready⟩
  · intro fd w hw
    rw [hlookup] at hw
    split at hw
    · cases hw
    · exact hp.key fd w hw
  · intro fd hfd
    rcases hp.oneShot fd hfd with ⟨w, hw, -⟩
    exact ⟨w, by rw [hlookup, if_neg (hfree fd hfd), hw], hnone w.call⟩
  · intro fd w hfd hw
    rw [hlookup, if_neg (hfree fd (Or.inr hfd))] at hw
    exact hp.fired fd w hfd hw

/-- A report counts for the waiter that is parked on the descriptor. -/
theorem Parked.report (hp : Parked d awaiter reported call p) (events : List Int) :
    Parked d awaiter
      (fun r => reported r +
        (decide ((awaiter r).fd ∈ events) && p.holds awaiter r).toNat)
      call (p.report events) := by
  have hshot : ∀ fd, (p.report events).interest fd = .armed ∨
      (p.report events).interest fd = .fired → p.interest fd = .armed ∨ p.interest fd = .fired := by
    intro fd hfd
    simp only [Parking.report] at hfd
    split at hfd
    · rename_i harmed
      exact Or.inl harmed.2
    · exact hfd
  refine ⟨hp.key, hp.inserted, ?_, fun fd hfd => hp.oneShot fd (hshot fd hfd), ?_, ?_⟩
  · intro fd hfd
    simp only [Parking.report] at hfd
    split at hfd
    · cases hfd
    · exact hp.level fd hfd
  · intro fd w hfd hw
    simp only [Parking.report] at hfd
    split at hfd
    · rename_i hreported
      have hkey := hp.key fd w hw
      have hheld : p.holds awaiter w.call = true :=
        Parking.holds_iff.2 ⟨w, by rw [hkey]; exact hw, rfl⟩
      rw [hkey, hheld]
      simp [hreported.1]
    · exact Nat.lt_of_lt_of_le (hp.fired fd w hfd hw) (Nat.le_add_right _ _)
  · intro r hr
    exact Nat.lt_of_lt_of_le (hp.ready r hr) (Nat.le_add_right _ _)

/-- Unparking waiters while no call is in its critical section. -/
theorem Parked.removes (hp : Parked d awaiter reported call p) {h : Harvest ρ}
    (hh : h.Removes awaiter (fun r => 0 < reported r) p)
    (hnone : ∀ r, call r ≠ .inserted) : Parked d awaiter reported call h.toParking := by
  have hkept : ∀ fd, h.interest fd ≠ .absent →
      h.interest fd = p.interest fd ∧ h.waiters.lookup fd = p.waiters.lookup fd := by
    intro fd hfd
    rcases hh.entries fd with hsame | ⟨habsent, -⟩
    · exact hsame
    · exact absurd habsent hfd
  refine ⟨fun fd w hw => hp.key fd w (hh.lookup hw), fun r hr => absurd hr (hnone r), ?_, ?_, ?_,
    ?_⟩
  · intro fd hfd
    have hsame := hkept fd (by rw [hfd]; simp)
    apply hp.level fd
    rw [← hsame.1]
    exact hfd
  · intro fd hfd
    have hsame := hkept fd (by rcases hfd with hfd | hfd <;> rw [hfd] <;> simp)
    rw [hsame.1] at hfd
    rcases hp.oneShot fd hfd with ⟨w, hw, hne⟩
    exact ⟨w, by rw [hsame.2, hw], hne⟩
  · intro fd w hfd hw
    have hsame := hkept fd (by rw [hfd]; simp)
    rw [hsame.1] at hfd
    exact hp.fired fd w hfd (hh.lookup hw)
  · intro r hr
    rcases hh.ready r hr with hold | hreported
    · exact hp.ready r hold
    · exact hreported

end Parking

end EpollReactor

end EdgeOrchestrator
