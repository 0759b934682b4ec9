import EdgeOrchestrator.Orchestrator.Session

/-!
# Reuse of the arena across workloads

A call that has counted all its tasks finds the mutex of the arena free, because
`run_task` gives back the shared side before the increment.  Its reset succeeds, and
the next call starts on an empty arena.

Main results:

- `SessionInv.step`: padding included, the arena's offset is covered by the tasks of the
  present workload that have got their memory.
- `arena_reused`: every call starts on an empty arena and no task runs out of memory.
-/

namespace EdgeOrchestrator

open scoped StateMachine
open Function (update update_eq_self update_of_ne update_self)

open Alignment

namespace SubmitWorkload

open TaskRunner
open SharedArena (Role LockInv)

/-! ## The invariant -/

/-- A closure is inside `run_task` only while it is running its task, and has run it only
when `run_task` has returned. -/
def RunOk (progress : Progress) (role : Role) : Option ExecutionResult → Prop
  | none => (role.shares = true → progress = .running) ∧ ∀ finalState, progress ≠ .ran finalState
  | some _ =>
    role.shares = false ∧
      (progress = .running ∨ (∃ finalState, progress = .ran finalState) ∨
        progress.isCounted = true)

/-- A closure inside `allocate` asks for its memory, and the offset it has read is
not ahead of the arena. -/
def AllocOk (cs : List Closure) (arena : MemoryPool.Arena (Option Nat)) (i : Nat) : Role → Prop
  | .entered _ profile =>
    (∃ closure, cs[i]? = some closure ∧ closure.profile = profile) ∧
      arena.phase (some i) = .idle
  | .allocating _ profile =>
    (∃ closure, cs[i]? = some closure ∧ closure.profile = profile) ∧
      ∃ current, arena.phase (some i) = .attempting current profile.memoryBytes defaultLog ∧
        current.toNat ≤ arena.offset.toNat
  | .resetting | .cleared => False
  | _ => arena.phase (some i) = .idle

/-- Whether `allocate` has served the closure. -/
def served (role : Role) (returned : Option ExecutionResult) : Bool :=
  match role with
  | .computing _ _ _ | .executed _ => true
  | _ => returned.isSome

/-- The memory of the closures that `allocate` has served. -/
def servedMemory (cs : List Closure) (role : Option Nat → Role)
    (returned : Nat → Option ExecutionResult) : Nat :=
  ∑ i : Fin cs.length, if served (role (some i)) (returned i) then cost cs i else 0

/-- What the steps of a session keep. -/
structure SessionInv {ω : Type*} (nodeId : NodeId) (capacity : U64) (s : Session ω) : Prop where
  collected : Collected s.plan.decisions.length (s.closures nodeId) s.deadline.toList s.call
  unset : ∀ next, s.call.caller = .fanOut next → s.deadline = none
  fits : ∑ i : Fin (s.closures nodeId).length, cost (s.closures nodeId) i ≤ capacity.toNat
  lock : LockInv s.node
  caller : (s.node.role none).shares = false
  runs : ∀ i, RunOk (s.call.progress i) (s.node.role (some i)) (s.returned i)
  allocs : ∀ i, AllocOk (s.closures nodeId) s.node.arena i (s.node.role (some i))
  covered : alignUp (2 ^ defaultLog.val) s.node.arena.offset.toNat ≤
    servedMemory (s.closures nodeId) s.node.role s.returned
  results : ∀ i result, resultOf (s.node.role (some i)) (s.returned i) = some result →
    result.finalState = .completed ∧ result.errorMessage = none
  ends : s.resetTried = true → afterWait s.call.caller = true
  resets : (s.node.role none).excludes = true → s.resetTried = true
  cleared : s.resetTried = true → s.node.role none ≠ .resetting →
    (∃ d ∈ s.deadline, d ≤ s.call.clock) ∨
      ((∀ i, i < (s.closures nodeId).length → (s.call.progress i).isCounted = true) ∧
        s.node.arena.offset = 0)
  timely : s.onTime = true → (∃ result, s.call.caller = .returned result) ∧
    (∀ i, i < (s.closures nodeId).length → (s.call.progress i).isCounted = true) ∧
    s.node.arena.offset = 0 ∧ s.node.role none = .idle

section Invariant

variable {ω : Type*} {nodeId : NodeId} {capacity : U64} {s t : Session ω}

/-- Closures that have not been submitted have not entered `run_task`. -/
theorem SessionInv.outside_of_le (hs : SessionInv nodeId capacity s) {i : Nat}
    (hi : submitted (s.closures nodeId) s.call ≤ i) :
    (s.node.role (some i)).shares = false ∧ s.returned i = none := by
  have hwaiting := hs.collected.inv.unsubmitted i hi
  have hrun := hs.runs i
  rw [hwaiting] at hrun
  cases hreturned : s.returned i with
  | none =>
    rw [hreturned] at hrun
    refine ⟨?_, rfl⟩
    rw [Bool.eq_false_iff]
    intro hshares
    cases hrun.1 hshares
  | some result =>
    rw [hreturned] at hrun
    simp [RunOk] at hrun

/-- When everything has been counted, nobody is inside `run_task`. -/
theorem SessionInv.quiet (hs : SessionInv nodeId capacity s)
    (hcounted : ∀ i, i < (s.closures nodeId).length → (s.call.progress i).isCounted = true)
    (u : Option Nat) : (s.node.role u).shares = false := by
  cases u with
  | none => exact hs.caller
  | some i =>
    by_cases hi : i < (s.closures nodeId).length
    · have hrun := hs.runs i
      have hself := hcounted i hi
      cases hreturned : s.returned i with
      | none =>
        rw [hreturned] at hrun
        rw [Bool.eq_false_iff]
        intro hshares
        rw [hrun.1 hshares] at hself
        cases hself
      | some result =>
        rw [hreturned] at hrun
        exact hrun.1
    · have hbound := hs.collected.inv.bound
      exact (hs.outside_of_le (by omega)).1

/-- A closure outside `run_task` is not inside `allocate`, and holds no lock. -/
theorem SessionInv.idle_of_shares (hs : SessionInv nodeId capacity s) {i : Nat}
    (hshares : (s.node.role (some i)).shares = false) :
    s.node.role (some i) = .idle ∧ s.node.arena.phase (some i) = .idle := by
  have halloc := hs.allocs i
  cases hrole : s.node.role (some i) with
  | idle =>
    rw [hrole] at halloc
    exact ⟨rfl, halloc⟩
  | resetting | cleared =>
    rw [hrole] at halloc
    cases halloc
  | _ =>
    rw [hrole] at hshares
    cases hshares

/-- Then the mutex can be had. -/
theorem SessionInv.tryLock_of_quiet (hs : SessionInv nodeId capacity s)
    (hquiet : ∀ u, (s.node.role u).shares = false) (hidle : s.node.role none = .idle) :
    s.node.mutex.tryLock none ≠ none := by
  have hreaders : s.node.mutex.readers = ∅ := by
    rw [Finset.eq_empty_iff_forall_notMem]
    intro u hu
    rw [hs.lock.shared, hquiet u] at hu
    cases hu
  have hwriter : s.node.mutex.writer = none := by
    rw [Option.eq_none_iff_forall_ne_some]
    intro u hu
    rw [hs.lock.exclusive] at hu
    cases u with
    | none =>
      rw [hidle] at hu
      cases hu
    | some i =>
      rw [(hs.idle_of_shares (hquiet (some i))).1] at hu
      cases hu
  simp [SharedMutex.tryLock, hwriter, hreaders]

/-! ### Steps inside `run_task` -/

theorem servedMemory_update {cs : List Closure} (role : Option Nat → Role)
    (returned : Nat → Option ExecutionResult) {i : Nat} (hi : i < cs.length) (role' : Role)
    {returned' : Nat → Option ExecutionResult} (hothers : ∀ j, j ≠ i → returned' j = returned j) :
    servedMemory cs (update role (some i) role') returned' +
        (if served (role (some i)) (returned i) then cost cs i else 0) =
      servedMemory cs role returned + (if served role' (returned' i) then cost cs i else 0) := by
  have hsum := Counting.sum_change
    (f := fun j : Fin cs.length => if served (role (some j)) (returned j) then cost cs j else 0)
    (g := fun j : Fin cs.length =>
      if served (update role (some i) role' (some j)) (returned' j) then cost cs j
      else 0) ⟨i, hi⟩ (by
      intro j hj
      have hji : j.val ≠ i := fun h => hj (Fin.ext h)
      rw [update_of_ne (by simpa using hji), hothers j hji])
  simpa only [servedMemory, update_self] using hsum

variable {arena : MemoryPool.Arena (Option Nat)} {mutex : SharedMutex (Option Nat)}

/-- A step of `run_task` for closure `i`: what has to be checked about the new role, the
arena and what has been returned. -/
theorem SessionInv.of_run (hs : SessionInv nodeId capacity s) {i : Nat} {role : Role}
    {returned : Nat → Option ExecutionResult} (hi : i < (s.closures nodeId).length)
    (hrunning : s.call.progress i = .running)
    (hlock : LockInv ⟨arena, mutex, update s.node.role (some i) role⟩)
    (hok : RunOk .running role (returned i)) (halloc : AllocOk (s.closures nodeId) arena i role)
    (hothers : ∀ j, j ≠ i → returned j = s.returned j)
    (hphases : ∀ j, j ≠ i → arena.phase (some j) = s.node.arena.phase (some j))
    (hoffset : s.node.arena.offset.toNat ≤ arena.offset.toNat)
    (hcovered : alignUp (2 ^ defaultLog.val) arena.offset.toNat +
        (if served (s.node.role (some i)) (s.returned i) then cost (s.closures nodeId) i else 0) ≤
      alignUp (2 ^ defaultLog.val) s.node.arena.offset.toNat +
        (if served role (returned i) then cost (s.closures nodeId) i else 0))
    (hresult : ∀ result, resultOf role (returned i) = some result →
      result.finalState = .completed ∧ result.errorMessage = none) :
    SessionInv nodeId capacity
      { s with
        node := ⟨arena, mutex, update s.node.role (some i) role⟩
        returned := returned } := by
  have hopen : ¬ ∀ j, j < (s.closures nodeId).length →
      (s.call.progress j).isCounted = true := by
    intro hcounted
    have hself := hcounted i hi
    rw [hrunning] at hself
    cases hself
  have hcaller : update s.node.role (some i) role none = s.node.role none :=
    update_of_ne (by simp) _ _
  have hrole : ∀ j, j ≠ i →
      update s.node.role (some i) role (some j) = s.node.role (some j) :=
    fun j hj => update_of_ne (by simpa using hj) _ _
  constructor
  · exact hs.collected
  · exact hs.unset
  · exact hs.fits
  · exact hlock
  · simp only [hcaller]
    exact hs.caller
  · intro j
    by_cases hj : j = i
    · simp only [hj, update_self, hrunning]
      exact hok
    · simp only [hrole j hj, hothers j hj]
      exact hs.runs j
  · intro j
    by_cases hj : j = i
    · simp only [hj, update_self]
      exact halloc
    · have hold := hs.allocs j
      simp only [hrole j hj]
      cases hphase : s.node.role (some j) with
      | allocating taskId profile =>
        rw [hphase] at hold
        rcases hold with ⟨hclosure, current, hcurrent, hle⟩
        exact ⟨hclosure, current, (hphases j hj).trans hcurrent, hle.trans hoffset⟩
      | entered taskId profile =>
        rw [hphase] at hold
        exact ⟨hold.1, (hphases j hj).trans hold.2⟩
      | resetting | cleared =>
        rw [hphase] at hold
        exact hold
      | _ =>
        rw [hphase] at hold
        exact (hphases j hj).trans hold
  · have hsum := servedMemory_update s.node.role s.returned hi role hothers
    have hbefore := hs.covered
    show alignUp (2 ^ defaultLog.val) arena.offset.toNat ≤
      servedMemory (s.closures nodeId) (update s.node.role (some i) role) returned
    omega
  · intro j result hj
    by_cases hji : j = i
    · simp only [hji, update_self] at hj
      exact hresult result hj
    · simp only [hrole j hji, hothers j hji] at hj
      exact hs.results j result hj
  · exact hs.ends
  · simp only [hcaller]
    exact hs.resets
  · simp only [hcaller]
    intro htried hdone
    rcases hs.cleared htried hdone with hlate | ⟨hcounted, -⟩
    · exact Or.inl hlate
    · exact absurd hcounted hopen
  · intro honTime
    exact absurd (hs.timely honTime).2.1 hopen

/-- The same for a step after which `run_task` has not returned. -/
theorem SessionInv.of_inside (hs : SessionInv nodeId capacity s) {i : Nat} {role : Role}
    (hi : i < (s.closures nodeId).length) (hrunning : s.call.progress i = .running)
    (hreturned : s.returned i = none)
    (hlock : LockInv ⟨arena, mutex, update s.node.role (some i) role⟩)
    (halloc : AllocOk (s.closures nodeId) arena i role)
    (hphases : ∀ j, j ≠ i → arena.phase (some j) = s.node.arena.phase (some j))
    (hoffset : s.node.arena.offset.toNat ≤ arena.offset.toNat)
    (hcovered : alignUp (2 ^ defaultLog.val) arena.offset.toNat +
        (if served (s.node.role (some i)) none then cost (s.closures nodeId) i else 0) ≤
      alignUp (2 ^ defaultLog.val) s.node.arena.offset.toNat +
        (if served role none then cost (s.closures nodeId) i else 0))
    (hresult : ∀ result, role = .executed result →
      result.finalState = .completed ∧ result.errorMessage = none) :
    SessionInv nodeId capacity
      { s with node := ⟨arena, mutex, update s.node.role (some i) role⟩ } := by
  refine hs.of_run hi hrunning hlock ?_ halloc (fun _ _ => rfl) hphases hoffset ?_ ?_
  · rw [hreturned]
    exact ⟨fun _ => rfl, by simp⟩
  · rw [hreturned]
    exact hcovered
  · intro result hj
    rw [hreturned] at hj
    cases role with
    | executed result' =>
      cases hj
      exact hresult result rfl
    | _ => cases hj

/-- The memory of a closure that has not been served fits behind what has been. -/
theorem SessionInv.room (hs : SessionInv nodeId capacity s) {i : Nat}
    (hi : i < (s.closures nodeId).length)
    (hserved : served (s.node.role (some i)) (s.returned i) = false) :
    alignUp (2 ^ defaultLog.val) s.node.arena.offset.toNat + cost (s.closures nodeId) i ≤
      capacity.toNat := by
  have hcovered := hs.covered
  have hfits := hs.fits
  -- If this closure were served as well, it would still be at most everything.
  have hsum := servedMemory_update s.node.role s.returned hi
    (.executed (execute [] {} true 0 false)) (fun _ _ => rfl)
  have hle : servedMemory (s.closures nodeId) (update s.node.role (some i)
      (.executed (execute [] {} true 0 false))) s.returned ≤
      ∑ j : Fin (s.closures nodeId).length, cost (s.closures nodeId) j := by
    apply Finset.sum_le_sum
    intro j _
    split
    · exact le_refl _
    · exact Nat.zero_le _
  rw [hserved] at hsum
  simp only [served, if_true, Bool.false_eq_true, if_false, Nat.add_zero] at hsum
  omega

/-- A thread inside `run_task` runs the task of a closure, which has not been given a
result. -/
theorem SessionInv.running_of_shares (hs : SessionInv nodeId capacity s) {u : Option Nat}
    (hshares : (s.node.role u).shares = true) :
    ∃ i, u = some i ∧ i < (s.closures nodeId).length ∧ s.call.progress i = .running ∧
      s.returned i = none := by
  cases u with
  | none =>
    rw [hs.caller] at hshares
    cases hshares
  | some i =>
    have hlt : i < (s.closures nodeId).length := by
      by_contra hle
      have hbound := hs.collected.inv.bound
      rw [(hs.outside_of_le (i := i) (by omega)).1] at hshares
      cases hshares
    have hrun := hs.runs i
    cases hreturned : s.returned i with
    | none =>
      rw [hreturned] at hrun
      exact ⟨i, rfl, hlt, hrun.1 hshares, hreturned⟩
    | some result =>
      rw [hreturned] at hrun
      rw [hrun.1] at hshares
      cases hshares

/-- A round of `allocate` gets its memory or tries again. -/
theorem SessionInv.attempt (hs : SessionInv nodeId capacity s) {u : Option Nat} {taskId : TaskId}
    {profile : TaskProfile} {spurious : Bool} (hrole : s.node.role u = .allocating taskId profile)
    (hstep : MemoryPool.step capacity s.node.arena (.attempt u spurious) = some arena) {role : Role}
    (hafter : role = SharedArena.afterAttempt s.node.arena arena u taskId profile
      (MemoryPool.commits capacity s.node.arena (.attempt u spurious)).isSome)
    (hlock : LockInv ⟨arena, s.node.mutex, update s.node.role u role⟩) :
    SessionInv nodeId capacity
      { s with node := ⟨arena, s.node.mutex, update s.node.role u role⟩ } := by
  rcases hs.running_of_shares (by rw [hrole]; rfl) with ⟨i, rfl, hi, hrunning, hreturned⟩
  have hroom := hs.room hi (by rw [hrole, hreturned]; rfl)
  have halloc := hs.allocs i
  rw [hrole] at halloc
  rcases halloc with ⟨⟨closure, hclosure, hprofile⟩, current, hphase, hcurrent⟩
  have hcost : cost (s.closures nodeId) i =
      alignUp (2 ^ defaultLog.val) profile.memoryBytes.toNat := by
    rw [cost, hclosure, ← hprofile]
    rfl
  have hpadded := le_alignUp (Nat.two_pow_pos defaultLog.val) profile.memoryBytes.toNat
  have hmono := alignUp_mono (2 ^ defaultLog.val) hcurrent
  rcases MemoryPool.attempt_of_fits hphase (by omega) hstep with
    ⟨hcommits, rfl, hused⟩ | ⟨hcommits, rfl⟩
  · rw [SharedArena.afterAttempt, hcommits, Option.isSome_some, if_pos rfl] at hafter
    subst hafter
    have hnew : (MemoryPool.commit s.node.arena (some i) profile.memoryBytes
        defaultLog).offset.toNat = alignUp (2 ^ defaultLog.val) s.node.arena.offset.toNat +
          profile.memoryBytes.toNat := hused
    have hge := le_alignUp (Nat.two_pow_pos defaultLog.val) s.node.arena.offset.toNat
    refine hs.of_inside hi hrunning hreturned hlock (update_self _ _ _) ?_ (by omega) ?_ ?_
    · intro j hj
      exact update_of_ne (by simpa using hj) _ _
    · rw [hnew, alignUp_add_of_dvd (Nat.two_pow_pos _) (dvd_alignUp _ _), hrole]
      simp only [served, Option.isSome_none, if_true, Bool.false_eq_true, if_false, hcost]
      exact le_refl _
    · intro result hresult
      cases hresult
  · simp only [SharedArena.afterAttempt, hcommits, MemoryPool.setPhase, update_self,
      Option.isSome_none, Bool.false_eq_true, if_false] at hafter
    subst hafter
    refine hs.of_inside hi hrunning hreturned hlock
      ⟨⟨closure, hclosure, hprofile⟩, s.node.arena.offset, update_self _ _ _, le_refl _⟩
      ?_ (le_refl _) ?_ ?_
    · intro j hj
      exact update_of_ne (by simpa using hj) _ _
    · rw [hrole]
      exact le_refl _
    · intro result hresult
      cases hresult

/-! ### Steps of `try_reset_arena` -/

/-- Only the caller takes the exclusive lock. -/
theorem SessionInv.caller_of_excludes (hs : SessionInv nodeId capacity s) {u : Option Nat}
    (hexcludes : (s.node.role u).excludes = true) : u = none := by
  cases u with
  | none => rfl
  | some i =>
    rw [(hs.idle_of_shares (hs.lock.quiescent hexcludes (some i))).1] at hexcludes
    cases hexcludes

/-- A call that has tried to reset the arena is late, or has counted everything. -/
theorem SessionInv.late_or_counted (hs : SessionInv nodeId capacity s)
    (hafter : afterWait s.call.caller = true) :
    (∃ d ∈ s.deadline, d ≤ s.call.clock) ∨
      ∀ i, i < (s.closures nodeId).length → (s.call.progress i).isCounted = true := by
  rcases hs.collected.settled hafter with ⟨d, hd, hle⟩ | hsettled
  · exact Or.inl ⟨d, Option.mem_toList.1 hd, hle⟩
  · exact Or.inr hsettled.counted

/-- The caller takes, uses or gives back the exclusive lock, or does not get it. -/
theorem SessionInv.of_reset (hs : SessionInv nodeId capacity s) {role : Role}
    (hafter : afterWait s.call.caller = true) (hpending : s.onTime = false)
    (hlock : LockInv ⟨arena, mutex, update s.node.role none role⟩)
    (hcaller : role.shares = false)
    (harena : arena = s.node.arena ∨ arena.offset = 0 ∧ arena.phase = s.node.arena.phase ∧
      (s.node.role none).excludes = true)
    (hcleared : role ≠ .resetting → (∃ d ∈ s.deadline, d ≤ s.call.clock) ∨
      ((∀ i, i < (s.closures nodeId).length → (s.call.progress i).isCounted = true) ∧
        arena.offset = 0)) :
    SessionInv nodeId capacity
      { s with
        node := ⟨arena, mutex, update s.node.role none role⟩
        resetTried := true } := by
  have hrole : ∀ i, update s.node.role none role (some i) = s.node.role (some i) :=
    fun i => update_of_ne (by simp) _ _
  constructor
  · exact hs.collected
  · exact hs.unset
  · exact hs.fits
  · exact hlock
  · simp only [update_self]
    exact hcaller
  · intro i
    simp only [hrole]
    exact hs.runs i
  · intro i
    simp only [hrole]
    rcases harena with rfl | ⟨-, hphase, hexcludes⟩
    · exact hs.allocs i
    · rcases hs.idle_of_shares (hs.lock.quiescent hexcludes (some i)) with ⟨hidle, hfree⟩
      rw [hidle]
      exact (congrFun hphase _).trans hfree
  · simp only [servedMemory, hrole]
    rcases harena with rfl | ⟨hempty, -⟩
    · exact hs.covered
    · rw [hempty]
      exact le_of_eq_of_le (alignUp_zero (Nat.two_pow_pos _)) (Nat.zero_le _)
  · intro i result
    simp only [hrole]
    exact hs.results i result
  · exact fun _ => hafter
  · exact fun _ => rfl
  · intro _ hdone
    simp only [update_self] at hdone
    exact hcleared hdone
  · intro honTime
    rw [hpending] at honTime
    cases honTime

/-- The owner of the exclusive lock uses it or gives it back. -/
theorem SessionInv.of_exclusive (hs : SessionInv nodeId capacity s) {role : Role}
    (hexcludes : (s.node.role none).excludes = true)
    (hlock : LockInv ⟨arena, mutex, update s.node.role none role⟩)
    (hcaller : role.shares = false)
    (harena : arena = s.node.arena ∨ arena.offset = 0 ∧ arena.phase = s.node.arena.phase)
    (hcleared : (∃ d ∈ s.deadline, d ≤ s.call.clock) ∨
      ((∀ i, i < (s.closures nodeId).length → (s.call.progress i).isCounted = true) ∧
        arena.offset = 0)) :
    SessionInv nodeId capacity
      { s with node := ⟨arena, mutex, update s.node.role none role⟩ } := by
  have htried := hs.resets hexcludes
  -- A call that still has to give back the lock has not returned.
  have hpending : s.onTime = false := by
    rw [Bool.eq_false_iff]
    intro honTime
    rw [(hs.timely honTime).2.2.2] at hexcludes
    cases hexcludes
  have hnext := hs.of_reset (hs.ends htried) hpending hlock hcaller
    (harena.imp_right fun h => ⟨h.1, h.2, hexcludes⟩) fun _ => hcleared
  rw [← htried] at hnext
  exact hnext

/-- Only a call that has its result tries to get the exclusive lock. -/
theorem SessionInv.of_tryLock (hs : SessionInv nodeId capacity s) {u : Option Nat}
    {spurious : Bool} (henabled : arenaEnabled nodeId s (.tryLock u spurious) = true) :
    u = none ∧ spurious = false ∧ afterWait s.call.caller = true ∧ s.onTime = false := by
  cases u with
  | some i => cases henabled
  | none =>
    simp only [arenaEnabled] at henabled
    split at henabled
    · rename_i result hcaller
      simp only [Bool.and_eq_true, Bool.not_eq_true'] at henabled
      refine ⟨rfl, henabled.2, by rw [hcaller]; rfl, ?_⟩
      rw [Bool.eq_false_iff]
      intro honTime
      rcases (hs.timely honTime).1 with ⟨returned, hreturned⟩
      rw [hcaller] at hreturned
      cases hreturned
    · cases henabled

/-- One step of `run_task` or of `try_reset_arena`. -/
theorem SessionInv.arenaStep (hs : SessionInv nodeId capacity s)
    {label : SharedArena.Label (Option Nat)}
    (hstep : arenaStep nodeId capacity s label = some t) : SessionInv nodeId capacity t := by
  rcases Option.ite_none_right_eq_some.1 hstep with ⟨henabled, hmap⟩
  rcases Option.map_eq_some_iff.1 hmap with ⟨node, hmove, rfl⟩
  have hlock := hs.lock.step hmove
  cases SharedArena.step_cases hmove with
  | @lockShared u taskId profile mutex hrole hmutex =>
    cases u with
    | none => cases henabled
    | some i =>
      simp only [arenaEnabled, decide_eq_true_eq, Option.any_eq_true] at henabled
      rcases henabled with ⟨hrunning, hreturned, closure, hclosure, -, hprofile⟩
      have halloc := hs.allocs i
      rw [hrole] at halloc
      refine hs.of_inside (List.getElem?_eq_some_iff.1 hclosure).1 hrunning hreturned hlock
        ⟨⟨closure, hclosure, hprofile⟩, halloc⟩ (fun _ _ => rfl) (le_refl _) ?_ ?_
      · rw [hrole]
        exact le_refl _
      · intro result hresult
        cases hresult
  | @load u taskId profile arena hrole harena =>
    rcases hs.running_of_shares (by rw [hrole]; rfl) with ⟨i, rfl, hi, hrunning, hreturned⟩
    have halloc := hs.allocs i
    rw [hrole] at halloc
    simp only [MemoryPool.step, halloc.2] at harena
    cases harena
    refine hs.of_inside hi hrunning hreturned hlock
      ⟨halloc.1, s.node.arena.offset, update_self _ _ _, le_refl _⟩ ?_ (le_refl _) ?_ ?_
    · intro j hj
      exact update_of_ne (by simpa using hj) _ _
    · rw [hrole]
      exact le_refl _
    · intro result hresult
      cases hresult
  | attempt hrole harena => exact hs.attempt hrole harena rfl hlock
  | @compute u elapsed stopRequested taskId profile memory hrole =>
    rcases hs.running_of_shares (by rw [hrole]; rfl) with ⟨i, rfl, hi, hrunning, hreturned⟩
    have halloc := hs.allocs i
    rw [hrole] at halloc
    simp only [arenaEnabled, Bool.not_eq_true'] at henabled
    subst henabled
    refine hs.of_inside hi hrunning hreturned hlock halloc (fun _ _ => rfl) (le_refl _) ?_ ?_
    · rw [hrole]
      exact le_refl _
    · intro result hresult
      cases hresult
      exact ⟨rfl, rfl⟩
  | @unlockShared u result hrole =>
    rcases hs.running_of_shares (by rw [hrole]; rfl) with ⟨i, rfl, hi, hrunning, hreturned⟩
    have halloc := hs.allocs i
    rw [hrole] at halloc
    have hresult : resultOf (s.node.role (some i)) (s.returned i) = some result := by
      rw [hrole]
      rfl
    have hupdate : afterArena s (.unlockShared (some i)) i = some result := by
      rw [afterArena, update_self, hresult]
    refine hs.of_run hi hrunning hlock (by rw [hupdate]; exact ⟨rfl, Or.inl rfl⟩) halloc
      (fun j hj => update_of_ne hj _ _) (fun _ _ => rfl) (le_refl _) ?_ ?_
    · rw [hupdate, hrole]
      exact le_refl _
    · rw [hupdate]
      rintro result' ⟨⟩
      exact hs.results i result hresult
  | @refused u spurious hrole hbusy =>
    obtain ⟨rfl, hfair, hafter, hpending⟩ := hs.of_tryLock henabled
    have hkept : LockInv ⟨s.node.arena, s.node.mutex,
        update s.node.role none (s.node.role none)⟩ := by
      rw [update_eq_self]
      exact hs.lock
    have hlate : ∃ d ∈ s.deadline, d ≤ s.call.clock :=
      (hs.late_or_counted hafter).resolve_right fun hcounted =>
        hs.tryLock_of_quiet (hs.quiet hcounted) hrole (hbusy hfair)
    have hnext := hs.of_reset hafter hpending hkept hs.caller (Or.inl rfl) fun _ => Or.inl hlate
    rw [update_eq_self] at hnext
    exact hnext
  | @tryLock u spurious mutex hrole hmutex =>
    obtain ⟨rfl, -, hafter, hpending⟩ := hs.of_tryLock henabled
    exact hs.of_reset hafter hpending hlock rfl (Or.inl rfl) fun h => absurd rfl h
  | @reset u hrole =>
    have hexcludes : (s.node.role u).excludes = true := by rw [hrole]; rfl
    obtain rfl := hs.caller_of_excludes hexcludes
    exact hs.of_exclusive hexcludes hlock rfl (Or.inr ⟨rfl, rfl⟩)
      ((hs.late_or_counted (hs.ends (hs.resets hexcludes))).imp_right
        fun hcounted => ⟨hcounted, rfl⟩)
  | @unlock u hrole =>
    have hexcludes : (s.node.role u).excludes = true := by rw [hrole]; rfl
    obtain rfl := hs.caller_of_excludes hexcludes
    exact hs.of_exclusive hexcludes hlock rfl (Or.inl rfl)
      (hs.cleared (hs.resets hexcludes) (by rw [hrole]; simp))

/-! ### Steps of the call -/

/-- A closure goes on from running its task only when `run_task` has returned. -/
theorem RunOk.closureStep {closure : Closure} {before after : Progress} {event : ClosureEvent}
    {role : Role} {returned : Option ExecutionResult} (hok : RunOk before role returned)
    (hstep : SubmitWorkload.closureStep closure before event = some after)
    (hfinish : ∀ finalState, event = .finish finalState → returned ≠ none) :
    RunOk after role returned := by
  cases returned with
  | none =>
    have hkeep : before ≠ .running → (∀ finalState, after ≠ .ran finalState) →
        RunOk after role none := fun hne hran => ⟨fun h => absurd (hok.1 h) hne, hran⟩
    unfold SubmitWorkload.closureStep at hstep
    split at hstep
    · cases closure <;> cases hstep <;> exact hkeep (by simp) (by simp)
    · cases closure <;> cases hstep
      exact hkeep (by simp) (by simp)
    · split at hstep <;> cases hstep
      exact hkeep (by simp) (by simp)
    · split at hstep <;> cases hstep
      exact hkeep (by simp) (by simp)
    · cases hstep
      exact hkeep (by simp) (by simp)
    · exact absurd rfl (hfinish _ rfl)
    · exact absurd rfl (hok.2 _)
    · cases hstep
      exact hkeep (by simp) (by simp)
    · cases hstep
  | some result =>
    refine ⟨hok.1, ?_⟩
    rcases hok.2 with rfl | ⟨finalState, rfl⟩ | hcounted
    · cases event <;> cases hstep
      exact Or.inr (Or.inl ⟨_, rfl⟩)
    · cases event <;> cases hstep
      exact Or.inr (Or.inr rfl)
    · cases before with
      | counted ok =>
        cases event <;> cases hstep
        exact Or.inr (Or.inr rfl)
      | ended ok => cases event <;> cases hstep
      | _ => cases hcounted

theorem setsDeadline_eq_some {cs : List Closure} {call : Submission ω} {label : Label ω} {d : Nat}
    (h : setsDeadline cs call label = some d) : ∃ next, call.caller = .fanOut next := by
  cases label with
  | caller =>
    simp only [setsDeadline] at h
    split at h
    · rename_i next hcaller
      exact ⟨next, hcaller⟩
    · cases h
  | _ => cases h

variable [DecidableEq ω] {label : Label ω}

/-- A step of the call keeps every closure in step with its `run_task`. -/
theorem SessionInv.runs_call (hs : SessionInv nodeId capacity s) {call : Submission ω}
    (henabled : callEnabled s label = true)
    (hstep : SubmitWorkload.step s.plan.decisions.length ThreadPool.queueSize.capacity
      (s.closures nodeId) s.call label = some call)
    (i : Nat) :
    RunOk (call.progress i) (s.node.role (some i)) (s.returned i) := by
  cases step_cases hstep with
  | closure w j closure event progress hworker hclosure hprogress =>
    by_cases hi : i = j
    · subst hi
      rw [advance_progress_self]
      refine (hs.runs i).closureStep hprogress ?_
      rintro finalState rfl hnone
      simp only [callEnabled, hworker, Option.bind_some, hnone] at henabled
      cases henabled
    · rw [advance_progress_of_ne _ _ _ _ _ hi]
      exact hs.runs i
  | _ => exact hs.runs i

/-- The deadline is set at the end of the fan-out. -/
theorem SessionInv.deadlines (hs : SessionInv nodeId capacity s) {call : Submission ω}
    (hstep : SubmitWorkload.step s.plan.decisions.length ThreadPool.queueSize.capacity
      (s.closures nodeId) s.call label = some call) :
    Collected s.plan.decisions.length (s.closures nodeId)
        ((setsDeadline (s.closures nodeId) s.call label).or s.deadline).toList call ∧
      ∀ next, call.caller = .fanOut next →
        (setsDeadline (s.closures nodeId) s.call label).or s.deadline = none := by
  have hcollected := hs.collected.step (length_closures_le nodeId s.dag s.plan) hstep
  cases hset : setsDeadline (s.closures nodeId) s.call label with
  | none =>
    rw [hset, Option.toList_none, List.append_nil] at hcollected
    refine ⟨hcollected, ?_⟩
    intro next hnext
    show s.deadline = none
    cases step_cases hstep with
    | tick elapsed | take w pool hpool => exact hs.unset next hnext
    | submit next' pool h hnext' hpool => exact hs.unset next' h
    | move phase h =>
      cases h <;> cases hnext
    | closure w i closure event progress hworker hclosure hprogress =>
      rw [advance_caller] at hnext
      exact hs.unset next hnext
  | some d =>
    rcases setsDeadline_eq_some hset with ⟨next, hcaller⟩
    rw [hset, hs.unset next hcaller] at hcollected
    refine ⟨hcollected, ?_⟩
    intro next' hnext'
    exfalso
    cases step_cases hstep with
    | submit next'' pool h hlt hpool =>
      simp only [setsDeadline, h, if_pos hlt] at hset
      cases hset
    | move phase h =>
      cases h <;> cases hnext'
    | _ => cases hset

/-- A call that returns before its deadline leaves an empty arena behind. -/
theorem SessionInv.timely_call (hs : SessionInv nodeId capacity s) {call : Submission ω}
    (henabled : callEnabled s label = true)
    (hstep : SubmitWorkload.step s.plan.decisions.length ThreadPool.queueSize.capacity
      (s.closures nodeId) s.call label = some call)
    (honTime : returnsOnTime s label = true) :
    (∃ result, call.caller = .returned result) ∧
      (∀ i, i < (s.closures nodeId).length → (s.call.progress i).isCounted = true) ∧
      s.node.arena.offset = 0 ∧ s.node.role none = .idle := by
  by_cases hreturns : label = .caller ∧ ∃ result, s.call.caller = .returning result
  · rcases hreturns with ⟨rfl, result, hcaller⟩
    simp only [callEnabled, hcaller, decide_eq_true_eq] at henabled
    simp only [returnsOnTime, hcaller, Option.all_eq_true, decide_eq_true_eq] at honTime
    simp only [SubmitWorkload.step, callerStep, Call.next, hcaller] at hstep
    cases hstep
    rcases hs.cleared henabled.1 (by rw [henabled.2]; simp) with ⟨d, hd, hle⟩ | ⟨hcounted, hempty⟩
    · have := honTime d hd
      omega
    · exact ⟨⟨result, rfl⟩, hcounted, hempty, henabled.2⟩
  · have hbefore : s.onTime = true := by
      cases label with
      | caller =>
        simp only [returnsOnTime] at honTime
        split at honTime
        · rename_i result hcaller
          exact absurd ⟨rfl, result, hcaller⟩ hreturns
        · exact honTime
      | _ => exact honTime
    rcases hs.timely hbefore with ⟨⟨result, hreturned⟩, hrest⟩
    refine ⟨⟨result, ?_⟩, hrest⟩
    cases step_cases hstep with
    | tick elapsed | take w pool hpool => exact hreturned
    | submit next pool h hnext hpool =>
      rw [hreturned] at h
      cases h
    | move phase h =>
      simp only [SubmitWorkload.step, callerStep, Call.next, hreturned] at hstep
      cases hstep
    | closure w i closure event progress hworker hclosure hprogress =>
      rw [advance_caller]
      exact hreturned

/-- One step of the call. -/
theorem SessionInv.callStep (hs : SessionInv nodeId capacity s)
    (hstep : callStep nodeId s label = some t) : SessionInv nodeId capacity t := by
  rcases Option.ite_none_right_eq_some.1 hstep with ⟨henabled, hmap⟩
  rcases Option.map_eq_some_iff.1 hmap with ⟨call, hcall, rfl⟩
  rcases hs.deadlines hcall with ⟨hcollected, hunset⟩
  rcases step_forward hcall with ⟨hclock, hcounted, hafter⟩
  refine ⟨hcollected, hunset, hs.fits, hs.lock, hs.caller, hs.runs_call henabled hcall, hs.allocs,
    hs.covered, hs.results, fun htried => hafter (hs.ends htried), hs.resets, ?_, ?_⟩
  · intro htried hdone
    rcases hs.cleared htried hdone with ⟨d, hd, hle⟩ | ⟨hall, hempty⟩
    · refine Or.inl ⟨d, ?_, hle.trans hclock⟩
      have hset : setsDeadline (s.closures nodeId) s.call label = none := by
        rw [Option.eq_none_iff_forall_ne_some]
        intro d hset
        rcases setsDeadline_eq_some hset with ⟨next, hcaller⟩
        have hends := hs.ends htried
        rw [hcaller] at hends
        cases hends
      show d ∈ (setsDeadline (s.closures nodeId) s.call label).or s.deadline
      rw [hset]
      exact hd
    · exact Or.inr ⟨fun i hi => hcounted i (hall i hi), hempty⟩
  · intro honTime
    rcases hs.timely_call henabled hcall honTime with ⟨hreturned, hall, hempty⟩
    exact ⟨hreturned, fun i hi => hcounted i (hall i hi), hempty⟩

/-! ### Whole runs -/

/-- A call starts on the empty arena that the last one has left. -/
theorem SessionInv.beginCall (hs : SessionInv nodeId capacity s) {request : Request}
    (hmemory : workloadMemory request.dag ≤ capacity.toNat)
    (hstep : beginCall s request = some t) : SessionInv nodeId capacity t := by
  rcases Option.ite_none_right_eq_some.1 hstep with ⟨honTime, hbegin⟩
  cases hbegin
  rcases hs.timely honTime with ⟨-, hcounted, hempty, hcaller⟩
  have hidle : ∀ i, s.node.role (some i) = .idle ∧ s.node.arena.phase (some i) = .idle :=
    fun i => hs.idle_of_shares (hs.quiet hcounted (some i))
  have hcollected : Collected request.plan.decisions.length
      (closures nodeId request.dag request.plan) []
      { planned ω with clock := s.call.clock } := by
    have htick : SubmitWorkload.step request.plan.decisions.length
        ThreadPool.queueSize.capacity (closures nodeId request.dag request.plan) (planned ω)
        (.tick s.call.clock) = some { planned ω with clock := 0 + s.call.clock } := rfl
    have hnext := (planned_collected ω _ _).step
      (length_closures_le nodeId request.dag request.plan) htick
    rw [Nat.zero_add] at hnext
    exact hnext
  constructor
  · exact hcollected
  · intro next _
    rfl
  · exact (sum_cost_le (schedule_taskIds_nodup _ _ _ _ _)).trans hmemory
  · exact hs.lock
  · exact hs.caller
  · intro i
    rw [(hidle i).1]
    exact ⟨by simp, by simp [planned]⟩
  · intro i
    rw [(hidle i).1]
    exact (hidle i).2
  · show alignUp (2 ^ defaultLog.val) s.node.arena.offset.toNat ≤ _
    rw [hempty]
    exact le_of_eq_of_le (alignUp_zero (Nat.two_pow_pos _)) (Nat.zero_le _)
  · intro i result hresult
    simp only [(hidle i).1] at hresult
    cases hresult
  · intro h
    cases h
  · intro hexcludes
    rw [hcaller] at hexcludes
    cases hexcludes
  · intro h
    cases h
  · intro h
    cases h

theorem SessionInv.step (hs : SessionInv nodeId capacity s) {label : SessionLabel ω}
    (hfits : Fits capacity label) (hstep : sessionStep nodeId capacity s label = some t) :
    SessionInv nodeId capacity t := by
  cases label with
  | begin request => exact hs.beginCall hfits hstep
  | call label => exact hs.callStep hstep
  | arena label => exact hs.arenaStep hstep
  | leave w =>
    rcases Option.ite_none_right_eq_some.1 hstep with ⟨-, hleave⟩
    cases hleave
    exact ⟨hs.collected, hs.unset, hs.fits, hs.lock, hs.caller, hs.runs, hs.allocs, hs.covered,
      hs.results, hs.ends, hs.resets, hs.cleared, hs.timely⟩

omit [DecidableEq ω] in
theorem startedSession_inv (nodeId : NodeId) (capacity : U64) :
    SessionInv nodeId capacity (startedSession ω) := by
  have hnone : (startedSession ω).closures nodeId = [] := rfl
  have hcounted : ∀ i, i < ((startedSession ω).closures nodeId).length →
      ((startedSession ω).call.progress i).isCounted = true := by
    intro i hi
    rw [hnone] at hi
    cases hi
  have hinv : SubmissionInv [] (startedSession ω).call := by
    refine ⟨le_refl _, FifoPool.idle_distinct, ?_, ?_, fun _ _ => rfl, rfl, ?_⟩
    · intro i hi
      cases hi
    · intro w i hi
      cases hi
    · intro deadline completed h
      cases h
  constructor
  · refine ⟨hinv, rfl, ?_, ?_⟩
    · intro d h
      cases h
    · intro _
      refine Or.inr ⟨rfl, ?_, rfl⟩
      intro i hi
      cases hi
  · intro next h
    cases h
  · rw [hnone]
    exact Nat.zero_le _
  · exact SharedArena.started_lockInv
  · rfl
  · intro i
    exact ⟨by simp [startedSession, SharedArena.started], by simp [startedSession, planned]⟩
  · intro i
    rfl
  · exact le_of_eq_of_le (alignUp_zero (Nat.two_pow_pos _)) (Nat.zero_le _)
  · intro i result h
    cases h
  · intro _
    rfl
  · intro h
    cases h
  · intro _ _
    exact Or.inr ⟨hcounted, rfl⟩
  · intro _
    exact ⟨⟨_, rfl⟩, hcounted, rfl, rfl⟩

end Invariant

/-- For every sequence of calls of `submit_workload` that do not overlap and of which
each starts after the last one has returned before its deadline, every number of
workers and every interleaving inside each call: if every workload fits into the
arena, each call starts its fan-out on an empty arena, and no task, planned here or
fallen back from a peer, runs out of memory. -/
theorem arena_reused {ω : Type*} [DecidableEq ω] (nodeId : NodeId) (capacity : U64)
    (s : Session ω)
    (hreach : (sessionMachine nodeId capacity ω).ReachableUnder
      (fun _ label => Fits capacity label) s) :
    (s.call.caller = .fanOut 0 → s.node.arena.offset = 0) ∧
      ∀ i result, resultOf (s.node.role (some i)) (s.returned i) = some result →
        result.finalState = .completed ∧ result.errorMessage ≠ some TaskRunner.outOfMemory := by
  have hs : SessionInv nodeId capacity s := by
    refine hreach.invariant (startedSession_inv nodeId capacity) ?_
    intro s label t hs hfits hstep
    exact hs.step hfits hstep
  constructor
  · intro hstart
    have hserved : servedMemory (s.closures nodeId) s.node.role s.returned = 0 := by
      apply Finset.sum_eq_zero
      intro i _
      have hnone : submitted (s.closures nodeId) s.call ≤ i := by
        rw [submitted, hstart]
        exact Nat.zero_le _
      rcases hs.outside_of_le hnone with ⟨hshares, hreturned⟩
      rw [(hs.idle_of_shares hshares).1, hreturned]
      rfl
    have hcovered := hs.covered
    have hle := le_alignUp (Nat.two_pow_pos defaultLog.val) s.node.arena.offset.toNat
    apply BitVec.eq_of_toNat_eq
    show s.node.arena.offset.toNat = 0
    omega
  · intro i result hresult
    rcases hs.results i result hresult with ⟨hstate, herror⟩
    refine ⟨hstate, ?_⟩
    rw [herror]
    simp

/-- Two tasks of 64 and 128 bytes, on a node without peers. -/
def chainRequest : Request where
  dag := Policy.chainDag
  policy := .greedy
  env := Policy.hostEnv
  localNode := { nodeId := [115] }
  cluster := ⟨[]⟩

/-- The only worker takes closure `i`, runs its task and leaves it. -/
def serveOne (i : Nat) (taskId : TaskId) (profile : TaskProfile) : List (SessionLabel (Fin 1)) :=
  [.call (.take 0), .call (.closure 0 .start), .arena (.lockShared (some i) taskId profile),
    .arena (.load (some i)), .arena (.attempt (some i) false),
    .arena (.compute (some i) 10 false), .arena (.unlockShared (some i)),
    .call (.closure 0 (.finish .completed)), .call (.closure 0 .count), .call (.closure 0 .leave)]

/-- One call from its start to its return, and the start of the next one. -/
def twoCalls : List (SessionLabel (Fin 1)) :=
  [.begin chainRequest, .call .caller, .call .caller, .call .caller] ++
    serveOne 0 [97] { computeCost := 10, memoryBytes := 64 } ++
    serveOne 1 [98] { computeCost := 20, memoryBytes := 128 } ++
    [.call .caller, .call .caller, .call .caller, .call .caller, .call .caller,
      .arena (.tryLock none false), .arena (.reset none), .arena (.unlock none), .call .caller,
      .begin chainRequest]

def secondStart : Session (Fin 1) :=
  ((sessionMachine [115] 256 (Fin 1)).run (startedSession (Fin 1)) twoCalls).getD
    (startedSession (Fin 1))

/-- The second call starts on the empty arena that the first one has left. -/
theorem arena_reused_twoCalls :
    secondStart.call.caller = .fanOut 0 ∧ secondStart.node.arena.offset = 0 := by
  have hrun : (sessionMachine [115] 256 (Fin 1)).run (sessionMachine [115] 256 (Fin 1)).initial
      twoCalls = some secondStart := rfl
  have hfits : (sessionMachine [115] 256 (Fin 1)).Along (fun _ label _ => Fits 256 label)
      (sessionMachine [115] 256 (Fin 1)).initial twoCalls := by
    decide +kernel
  have hstart : secondStart.call.caller = .fanOut 0 := by
    decide +kernel
  exact ⟨hstart, (arena_reused [115] 256 secondStart
    (StateMachine.ReachableUnder.initial.run hfits hrun)).1 hstart⟩

end SubmitWorkload

end EdgeOrchestrator
