import EdgeOrchestrator.Executor.MemoryPool
import EdgeOrchestrator.Library.SharedMutex

/-!
# Running tasks and resetting the arena

A node runs tasks on many threads at once: executor workers run the closures of its
own submissions, and the threads of the offload server run the tasks of its peers.
Each of them enters `run_task`, which holds the shared side of `arena_mutex_` while
the task allocates and computes.  Every caller that has finished a workload or an
offloaded task then calls `try_reset_arena`, which empties the arena if it gets the
exclusive side at once.

The threads interleave at the level of the lock operations and of the atomic steps of
`allocate`.

Main results:

- `running_tasks_isolated`: in every reachable state the running tasks have disjoint blocks of
  their own size inside the arena.
-/

namespace EdgeOrchestrator

open scoped StateMachine

/-! ## Running a task -/

namespace TaskRunner

/-- `TaskRunner::ExecutionResult`. -/
structure ExecutionResult where
  taskId : TaskId
  finalState : TaskState
  actualDuration : Duration
  peakMemoryBytes : U64
  errorMessage : Option ByteString
deriving DecidableEq, Repr

/-- The error without memory. -/
def outOfMemory : ByteString :=
  "Out of memory in pool".toUTF8.toList

/-- The error after a stop request. -/
def cancelled : ByteString :=
  "Cancelled via stop token".toUTF8.toList

/-- What `execute` returns: `granted` says whether `allocate` gave memory, `elapsed`
how long the computation took, `stopRequested` what the token says at its end. -/
def execute (taskId : TaskId) (profile : TaskProfile) (granted : Bool) (elapsed : Duration)
    (stopRequested : Bool) : ExecutionResult :=
  if granted then
    { taskId := taskId
      finalState := if stopRequested then .failed else .completed
      actualDuration := elapsed
      peakMemoryBytes := profile.memoryBytes
      errorMessage := if stopRequested then some cancelled else none }
  else
    { taskId := taskId
      finalState := .failed
      actualDuration := 0
      peakMemoryBytes := 0
      errorMessage := some outOfMemory }

end TaskRunner

namespace SharedArena

open TaskRunner

/-! ## The machine -/

/-- How far a thread has come in `run_task` or in `try_reset_arena`. -/
inductive Role where
  | idle
  /-- The shared lock is held, the first load of `allocate` is next. -/
  | entered (taskId : TaskId) (profile : TaskProfile)
  | allocating (taskId : TaskId) (profile : TaskProfile)
  | computing (taskId : TaskId) (profile : TaskProfile) (memory : MemoryPool.Block)
  /-- `execute` has returned, the shared lock is still held. -/
  | executed (result : ExecutionResult)
  /-- The exclusive lock is held, `reset` is next. -/
  | resetting
  /-- The arena is empty, the exclusive lock is still held. -/
  | cleared
deriving DecidableEq, Repr

/-- Whether the thread holds the shared lock. -/
@[simp]
def Role.shares : Role → Bool
  | .entered _ _ => true
  | .allocating _ _ => true
  | .computing _ _ _ => true
  | .executed _ => true
  | _ => false

/-- Whether the thread holds the exclusive lock. -/
@[simp]
def Role.excludes : Role → Bool
  | .resetting => true
  | .cleared => true
  | _ => false

/-- The arena, its mutex and the threads. -/
structure Node (ι : Type) where
  arena : MemoryPool.Arena ι
  mutex : SharedMutex ι
  role : ι → Role

/-- The steps of the threads. -/
inductive Label (ι : Type) where
  /-- `run_task` is called and gets the shared lock. -/
  | lockShared (t : ι) (taskId : TaskId) (profile : TaskProfile)
  | load (t : ι)
  | attempt (t : ι) (spurious : Bool)
  /-- The computation ends; the token may have been asked to stop. -/
  | compute (t : ι) (elapsed : Duration) (stopRequested : Bool)
  | unlockShared (t : ι)
  /-- `try_reset_arena` is called; a `try_lock` may fail spuriously. -/
  | tryLock (t : ι) (spurious : Bool)
  | reset (t : ι)
  | unlock (t : ι)

variable {ι : Type} [DecidableEq ι]

def Node.setRole (s : Node ι) (t : ι) (role : Role) : Node ι :=
  { s with role := Function.update s.role t role }

/-- The role after a round of the loop in `allocate`: the block that was claimed,
`nullptr`, or another round. -/
def afterAttempt (before after : MemoryPool.Arena ι) (t : ι) (taskId : TaskId)
    (profile : TaskProfile) (granted : Bool) : Role :=
  if granted then
    .computing taskId profile
      ⟨(MemoryPool.alignedOffset before.offset MemoryPool.defaultAlignment).toNat,
        profile.memoryBytes.toNat, 2 ^ MemoryPool.defaultAlignment.val⟩
  else
    match after.phase t with
    | .idle => .executed (execute taskId profile false 0 false)
    | .attempting _ _ _ => .allocating taskId profile

/-- The next step of one thread. -/
def step (capacity : U64) (s : Node ι) : Label ι → Option (Node ι)
  | .lockShared t taskId profile =>
    match s.role t with
    | .idle =>
      (s.mutex.lockShared t).map fun mutex =>
        { s.setRole t (.entered taskId profile) with mutex := mutex }
    | _ => none
  | .load t =>
    match s.role t with
    | .entered taskId profile =>
      (MemoryPool.step capacity s.arena
        (.load t profile.memoryBytes MemoryPool.defaultAlignment)).map fun arena =>
          { s.setRole t (.allocating taskId profile) with arena := arena }
    | _ => none
  | .attempt t spurious =>
    match s.role t with
    | .allocating taskId profile =>
      (MemoryPool.step capacity s.arena (.attempt t spurious)).map fun arena =>
        let granted := (MemoryPool.commits capacity s.arena (.attempt t spurious)).isSome
        { s.setRole t (afterAttempt s.arena arena t taskId profile granted) with
          arena := arena }
    | _ => none
  | .compute t elapsed stopRequested =>
    match s.role t with
    | .computing taskId profile _ =>
      some (s.setRole t (.executed (execute taskId profile true elapsed stopRequested)))
    | _ => none
  | .unlockShared t =>
    match s.role t with
    | .executed _ => some { s.setRole t .idle with mutex := s.mutex.unlockShared t }
    | _ => none
  | .tryLock t spurious =>
    match s.role t with
    | .idle =>
      match s.mutex.tryLock t with
      | some mutex =>
        if spurious then some s else some { s.setRole t .resetting with mutex := mutex }
      | none => some s
    | _ => none
  | .reset t =>
    match s.role t with
    | .resetting =>
      (MemoryPool.step capacity s.arena .reset).map fun arena =>
        { s.setRole t .cleared with arena := arena }
    | _ => none
  | .unlock t =>
    match s.role t with
    | .cleared => some { s.setRole t .idle with mutex := s.mutex.unlock }
    | _ => none

/-- Nothing runs. -/
def started (ι : Type) : Node ι where
  arena := MemoryPool.fresh ι
  mutex := .free
  role := fun _ => .idle

/-- All interleavings of tasks and resets. -/
def machine (capacity : U64) (ι : Type) [DecidableEq ι] : StateMachine (Node ι) (Label ι) where
  initial := started ι
  step := step capacity

/-! ## What one step can do -/

section Transitions

variable {capacity : U64} {s t : Node ι}

/-- One constructor for each kind of step. -/
inductive Transition (capacity : U64) (s : Node ι) : Label ι → Node ι → Prop
  | lockShared {u : ι} {taskId : TaskId} {profile : TaskProfile} {mutex : SharedMutex ι}
      (hrole : s.role u = .idle) (hmutex : s.mutex.lockShared u = some mutex) :
      Transition capacity s (.lockShared u taskId profile)
        { s.setRole u (.entered taskId profile) with mutex }
  | load {u : ι} {taskId : TaskId} {profile : TaskProfile} {arena : MemoryPool.Arena ι}
      (hrole : s.role u = .entered taskId profile)
      (harena : MemoryPool.step capacity s.arena
        (.load u profile.memoryBytes MemoryPool.defaultAlignment) = some arena) :
      Transition capacity s (.load u) { s.setRole u (.allocating taskId profile) with arena }
  | attempt {u : ι} {spurious : Bool} {taskId : TaskId} {profile : TaskProfile}
      {arena : MemoryPool.Arena ι} (hrole : s.role u = .allocating taskId profile)
      (harena : MemoryPool.step capacity s.arena (.attempt u spurious) = some arena) :
      Transition capacity s (.attempt u spurious)
        { s.setRole u (afterAttempt s.arena arena u taskId profile
            (MemoryPool.commits capacity s.arena (.attempt u spurious)).isSome) with arena }
  | compute {u : ι} {elapsed : Duration} {stopRequested : Bool} {taskId : TaskId}
      {profile : TaskProfile} {memory : MemoryPool.Block}
      (hrole : s.role u = .computing taskId profile memory) :
      Transition capacity s (.compute u elapsed stopRequested)
        (s.setRole u (.executed (execute taskId profile true elapsed stopRequested)))
  | unlockShared {u : ι} {result : ExecutionResult} (hrole : s.role u = .executed result) :
      Transition capacity s (.unlockShared u)
        { s.setRole u .idle with mutex := s.mutex.unlockShared u }
  | refused {u : ι} {spurious : Bool} (hrole : s.role u = .idle)
      (hbusy : spurious = false → s.mutex.tryLock u = none) :
      Transition capacity s (.tryLock u spurious) s
  | tryLock {u : ι} {spurious : Bool} {mutex : SharedMutex ι} (hrole : s.role u = .idle)
      (hmutex : s.mutex.tryLock u = some mutex) :
      Transition capacity s (.tryLock u spurious) { s.setRole u .resetting with mutex }
  | reset {u : ι} (hrole : s.role u = .resetting) :
      Transition capacity s (.reset u)
        { s.setRole u .cleared with arena := { s.arena with offset := 0, blocks := [] } }
  | unlock {u : ι} (hrole : s.role u = .cleared) :
      Transition capacity s (.unlock u) { s.setRole u .idle with mutex := s.mutex.unlock }

/-- Each step is one of the node's transitions. -/
theorem step_cases {label : Label ι} (hstep : step capacity s label = some t) :
    Transition capacity s label t := by
  cases label with
  | lockShared u taskId profile =>
    simp only [step] at hstep
    split at hstep
    · rcases Option.map_eq_some_iff.1 hstep with ⟨mutex, hmutex, rfl⟩
      exact .lockShared ‹_› hmutex
    · cases hstep
  | load u =>
    simp only [step] at hstep
    split at hstep
    · rcases Option.map_eq_some_iff.1 hstep with ⟨arena, harena, rfl⟩
      exact .load ‹_› harena
    · cases hstep
  | attempt u spurious =>
    simp only [step] at hstep
    split at hstep
    · rcases Option.map_eq_some_iff.1 hstep with ⟨arena, harena, rfl⟩
      exact .attempt ‹_› harena
    · cases hstep
  | compute u elapsed stopRequested =>
    simp only [step] at hstep
    split at hstep
    · cases hstep
      exact .compute ‹_›
    · cases hstep
  | unlockShared u =>
    simp only [step] at hstep
    split at hstep
    · cases hstep
      exact .unlockShared ‹_›
    · cases hstep
  | tryLock u spurious =>
    simp only [step] at hstep
    split at hstep
    · split at hstep
      · rename_i mutex hmutex
        cases spurious with
        | true =>
          cases hstep
          exact .refused ‹_› (by simp)
        | false =>
          cases hstep
          exact .tryLock ‹_› hmutex
      · cases hstep
        exact .refused ‹_› fun _ => ‹_›
    · cases hstep
  | reset u =>
    simp only [step] at hstep
    split at hstep
    · cases hstep
      exact .reset ‹_›
    · cases hstep
  | unlock u =>
    simp only [step] at hstep
    split at hstep
    · cases hstep
      exact .unlock ‹_›
    · cases hstep

end Transitions

/-! ## What every step keeps -/

/-- Behind the last byte of the arena there is room for the block in 64 bits. -/
def Roomy (capacity : U64) (profile : TaskProfile) : Prop :=
  capacity.toNat + 15 + profile.memoryBytes.toNat < 2 ^ 64

instance (capacity : U64) (profile : TaskProfile) : Decidable (Roomy capacity profile) :=
  inferInstanceAs (Decidable (_ < _))

/-- The tasks that are run are small enough. -/
def RunsRoomy (capacity : U64) : Label ι → Prop
  | .lockShared _ _ profile => Roomy capacity profile
  | _ => True

instance (capacity : U64) : DecidablePred (RunsRoomy (ι := ι) capacity)
  | .lockShared _ _ profile => inferInstanceAs (Decidable (Roomy capacity profile))
  | .load _ => isTrue trivial
  | .attempt _ _ => isTrue trivial
  | .compute _ _ _ => isTrue trivial
  | .unlockShared _ => isTrue trivial
  | .tryLock _ _ => isTrue trivial
  | .reset _ => isTrue trivial
  | .unlock _ => isTrue trivial

/-- The owners of the mutex are the threads whose role says so. -/
structure LockInv (s : Node ι) : Prop where
  shared : ∀ t, t ∈ s.mutex.readers ↔ (s.role t).shares = true
  exclusive : ∀ t, s.mutex.writer = some t ↔ (s.role t).excludes = true

/-- What a thread inside `run_task` can rely on. -/
def Sound (capacity : U64) (arena : MemoryPool.Arena ι) (t : ι) : Role → Prop
  | .entered _ profile => Roomy capacity profile ∧ arena.phase t = .idle
  | .allocating _ profile =>
    Roomy capacity profile ∧
      ∃ current, arena.phase t =
        .attempting current profile.memoryBytes MemoryPool.defaultAlignment
  | .computing _ profile memory =>
    (memory ∈ arena.blocks ∧ memory.size = profile.memoryBytes.toNat ∧
      memory.alignment = 2 ^ MemoryPool.defaultAlignment.val) ∧ arena.phase t = .idle
  | _ => arena.phase t = .idle

/-- The memory that a running task uses. -/
def Role.memory : Role → Option MemoryPool.Block
  | .computing _ _ memory => some memory
  | _ => none

/-- What every step keeps. -/
structure NodeInv (capacity : U64) (s : Node ι) : Prop where
  arena : MemoryPool.ArenaInv capacity s.arena
  lock : LockInv s
  sound : ∀ t, Sound capacity s.arena t (s.role t)
  disjoint : ∀ t u b c, t ≠ u → (s.role t).memory = some b → (s.role u).memory = some c →
    b.Disjoint c

section Steps

variable {capacity : U64} {s t : Node ι} {u : ι}

theorem blockDisjoint_symm {b c : MemoryPool.Block} (h : b.Disjoint c) : c.Disjoint b :=
  fun x hc hc' hb hb' => h x hb hb' hc hc'

omit [DecidableEq ι] in
/-- A step of another thread that keeps the blocks keeps what a thread relies on. -/
theorem Sound.mono {arena arena' : MemoryPool.Arena ι} {role : Role}
    (h : Sound capacity arena u role) (hphase : arena'.phase u = arena.phase u)
    (hblocks : arena.blocks ⊆ arena'.blocks) : Sound capacity arena' u role := by
  cases role with
  | computing taskId profile memory =>
    exact ⟨⟨hblocks h.1.1, h.1.2⟩, hphase.trans h.2⟩
  | entered taskId profile => exact ⟨h.1, hphase.trans h.2⟩
  | allocating taskId profile =>
    rcases h with ⟨hroomy, current, hcurrent⟩
    exact ⟨hroomy, current, hphase.trans hcurrent⟩
  | idle | executed result | resetting | cleared => exact hphase.trans h

/-- The lock invariant when one thread changes its role. -/
theorem LockInv.update (h : LockInv s) {role : Role} {arena : MemoryPool.Arena ι}
    {mutex : SharedMutex ι}
    (hreaders : ∀ v, v ≠ u → (v ∈ mutex.readers ↔ v ∈ s.mutex.readers))
    (hwriter : ∀ v, v ≠ u → (mutex.writer = some v ↔ s.mutex.writer = some v))
    (hshares : u ∈ mutex.readers ↔ role.shares = true)
    (hexcludes : mutex.writer = some u ↔ role.excludes = true) :
    LockInv ⟨arena, mutex, Function.update s.role u role⟩ := by
  constructor
  · intro v
    by_cases hv : v = u
    · subst hv
      simpa using hshares
    · simpa [hv] using (hreaders v hv).trans (h.shared v)
  · intro v
    by_cases hv : v = u
    · subst hv
      simpa using hexcludes
    · simpa [hv] using (hwriter v hv).trans (h.exclusive v)

/-- A change of role that moves no lock. -/
theorem LockInv.keep (h : LockInv s) {role : Role} {arena : MemoryPool.Arena ι}
    (hshares : role.shares = (s.role u).shares) (hexcludes : role.excludes = (s.role u).excludes) :
    LockInv ⟨arena, s.mutex, Function.update s.role u role⟩ := by
  apply h.update (fun _ _ => Iff.rfl) (fun _ _ => Iff.rfl)
  · rw [hshares]
    exact h.shared u
  · rw [hexcludes]
    exact h.exclusive u

/-- The node invariant when one thread changes its role. -/
theorem NodeInv.update (h : NodeInv capacity s) {role : Role} {arena : MemoryPool.Arena ι}
    {mutex : SharedMutex ι} (harena : MemoryPool.ArenaInv capacity arena)
    (hlock : LockInv ⟨arena, mutex, Function.update s.role u role⟩)
    (hothers : ∀ v, v ≠ u → Sound capacity arena v (s.role v))
    (hsound : Sound capacity arena u role)
    (hdisjoint : ∀ v b c, v ≠ u → role.memory = some b → (s.role v).memory = some c →
      b.Disjoint c) :
    NodeInv capacity ⟨arena, mutex, Function.update s.role u role⟩ := by
  refine ⟨harena, hlock, ?_, ?_⟩
  · intro v
    by_cases hv : v = u
    · subst hv
      simpa using hsound
    · simpa [hv] using hothers v hv
  · intro v w b c hne hb hc
    simp only at hb hc
    by_cases hv : v = u
    · subst hv
      rw [Function.update_self] at hb
      rw [Function.update_of_ne (Ne.symm hne)] at hc
      exact hdisjoint w b c (Ne.symm hne) hb hc
    · rw [Function.update_of_ne hv] at hb
      by_cases hw : w = u
      · subst hw
        rw [Function.update_self] at hc
        exact blockDisjoint_symm (hdisjoint v c b hv hc hb)
      · rw [Function.update_of_ne hw] at hc
        exact h.disjoint v w b c hne hb hc

/-- A change of role that touches neither the arena nor another block. -/
theorem NodeInv.setRole (h : NodeInv capacity s) {role : Role} {mutex : SharedMutex ι}
    (hlock : LockInv ⟨s.arena, mutex, Function.update s.role u role⟩)
    (hsound : Sound capacity s.arena u role) (hmemory : role.memory = none) :
    NodeInv capacity ⟨s.arena, mutex, Function.update s.role u role⟩ := by
  apply h.update h.arena hlock (fun v _ => h.sound v) hsound
  intro v b c _ hb
  rw [hmemory] at hb
  cases hb

/-- Every step keeps the owners of the mutex and the roles together. -/
theorem LockInv.step {label : Label ι} (h : LockInv s)
    (hstep : SharedArena.step capacity s label = some t) : LockInv t := by
  cases step_cases hstep with
  | lockShared hrole hmutex =>
    rcases SharedMutex.lockShared_eq_some_iff.1 hmutex with ⟨hfree, hwriter, hreaders⟩
    apply h.update
    · intro v hv
      simp [hreaders, hv]
    · intro v _
      rw [hwriter, hfree]
    · simp [hreaders]
    · simp [hwriter]
  | load hrole harena | compute hrole | reset hrole =>
    exact h.keep (by rw [hrole]; rfl) (by rw [hrole]; rfl)
  | attempt hrole harena =>
    unfold afterAttempt
    split
    · exact h.keep (by rw [hrole]; rfl) (by rw [hrole]; rfl)
    · split
      · exact h.keep (by rw [hrole]; rfl) (by rw [hrole]; rfl)
      · exact h.keep (by rw [hrole]) (by rw [hrole])
  | @unlockShared u result hrole =>
    have hwriter := h.exclusive u
    rw [hrole] at hwriter
    refine h.update ?_ (fun _ _ => Iff.rfl) ?_ hwriter
    · intro v hv
      simp [hv]
    · simp
  | refused hrole hbusy => exact h
  | tryLock hrole hmutex =>
    rcases SharedMutex.tryLock_eq_some_iff.1 hmutex with ⟨hfree, hempty, hwriter, hreaders⟩
    apply h.update
    · intro v _
      rw [hreaders, hempty]
    · intro v hv
      rw [hwriter, hfree]
      simpa using Ne.symm hv
    · simp [hreaders]
    · simp [hwriter]
  | @unlock u hrole =>
    have howner : s.mutex.writer = some u := (h.exclusive u).2 (by rw [hrole]; rfl)
    have hshared := h.shared u
    rw [hrole] at hshared
    refine h.update (fun _ _ => Iff.rfl) ?_ hshared ?_
    · intro v hv
      rw [howner]
      simpa [SharedMutex.unlock] using Ne.symm hv
    · simp [SharedMutex.unlock]

omit [DecidableEq ι] in
/-- While one thread has the exclusive lock, no thread is inside `run_task`. -/
theorem LockInv.quiescent (h : LockInv s) (hexcludes : (s.role u).excludes = true) (v : ι) :
    (s.role v).shares = false := by
  have hempty := SharedMutex.readers_eq_empty ((h.exclusive u).2 hexcludes)
  rw [Bool.eq_false_iff]
  intro hshares
  have hmem := (h.shared v).2 hshares
  rw [hempty] at hmem
  exact absurd hmem (Finset.notMem_empty v)

omit [DecidableEq ι] in
/-- The block of a roomy task ends within 64 bits. -/
theorem NodeInv.block_fits (h : NodeInv capacity s) {profile : TaskProfile}
    (hroomy : Roomy capacity profile) :
    Alignment.alignUp (2 ^ MemoryPool.defaultAlignment.val) s.arena.offset.toNat +
      profile.memoryBytes.toNat < 2 ^ 64 := by
  have hused := h.arena.safe.used_le
  have hlt := Alignment.alignUp_lt (a := 2 ^ MemoryPool.defaultAlignment.val) (by decide)
    s.arena.offset.toNat
  have hval : 2 ^ MemoryPool.defaultAlignment.val = 16 := by decide
  rw [MemoryPool.used] at hused
  rw [Roomy] at hroomy
  omega

/-- A round of the loop in `allocate`: the task gets a block that no running task has,
or none, or tries again. -/
theorem NodeInv.attempt {spurious : Bool} {taskId : TaskId} {profile : TaskProfile}
    {arena : MemoryPool.Arena ι} {mutex : SharedMutex ι} (h : NodeInv capacity s)
    (hrole : s.role u = .allocating taskId profile)
    (harena : MemoryPool.step capacity s.arena (.attempt u spurious) = some arena)
    (hlock : LockInv ⟨arena, mutex, Function.update s.role u (afterAttempt s.arena arena u taskId
      profile (MemoryPool.commits capacity s.arena (.attempt u spurious)).isSome)⟩) :
    NodeInv capacity ⟨arena, mutex, Function.update s.role u (afterAttempt s.arena arena u taskId
      profile (MemoryPool.commits capacity s.arena (.attempt u spurious)).isSome)⟩ := by
  have hsound := h.sound u
  rw [hrole] at hsound
  rcases hsound with ⟨hroomy, current, hphase⟩
  simp only [MemoryPool.step, hphase] at harena
  simp only [MemoryPool.commits, hphase] at hlock ⊢
  by_cases hfull : MemoryPool.alignedOffset current MemoryPool.defaultAlignment +
      profile.memoryBytes > capacity
  · -- `nullptr`
    simp only [if_pos hfull, Option.some.injEq] at harena hlock ⊢
    subst harena
    simp only [afterAttempt, MemoryPool.setPhase, Function.update_self, Option.isSome_none,
      Bool.false_eq_true, if_false] at hlock ⊢
    refine h.update (h.arena.congr rfl rfl) hlock ?_ (by simp [Sound]) ?_
    · intro v hv
      exact (h.sound v).mono (by simp [hv]) (fun b hb => hb)
    · intro v b c _ hb
      cases hb
  · simp only [if_neg hfull] at harena hlock ⊢
    by_cases hwins : s.arena.offset = current ∧ spurious = false
    · -- The block is claimed.
      simp only [if_pos hwins, Option.some.injEq] at harena hlock ⊢
      subst harena
      rw [← hwins.1] at hfull
      have hcommit := (h.arena.commit_of_fits u hfull (h.block_fits hroomy)).1
      simp only [afterAttempt, Option.isSome_some, if_true] at hlock ⊢
      refine h.update hcommit hlock ?_
        ⟨⟨List.mem_cons_self, rfl, rfl⟩, by simp [MemoryPool.commit]⟩ ?_
      · intro v hv
        exact (h.sound v).mono (by simp [MemoryPool.commit, hv])
          (fun b hb => List.mem_cons_of_mem _ hb)
      · intro v b c _ hb hc
        cases hb
        have hold : c ∈ s.arena.blocks := by
          have hother := h.sound v
          cases hv : s.role v with
          | computing taskId profile memory =>
            rw [hv] at hother hc
            cases hc
            exact hother.1.1
          | _ =>
            rw [hv] at hc
            cases hc
        exact (List.pairwise_cons.1 hcommit.safe.disjoint).1 c hold
    · -- The offset is read again.
      simp only [if_neg hwins, Option.some.injEq] at harena hlock ⊢
      subst harena
      simp only [afterAttempt, MemoryPool.setPhase, Function.update_self, Option.isSome_none,
        Bool.false_eq_true, if_false] at hlock ⊢
      refine h.update (h.arena.congr rfl rfl) hlock ?_ ⟨hroomy, s.arena.offset, by simp⟩ ?_
      · intro v hv
        exact (h.sound v).mono (by simp [hv]) (fun b hb => hb)
      · intro v b c _ hb
        cases hb

/-- Every step keeps the running tasks apart. -/
theorem NodeInv.step {label : Label ι} (h : NodeInv capacity s) (hroomy : RunsRoomy capacity label)
    (hstep : SharedArena.step capacity s label = some t) : NodeInv capacity t := by
  have hlock := h.lock.step hstep
  cases step_cases hstep with
  | @lockShared u _ _ _ hrole hmutex =>
    have hidle := h.sound u
    rw [hrole] at hidle
    exact h.setRole hlock ⟨hroomy, hidle⟩ rfl
  | @load u taskId profile arena hrole harena =>
    have hsound := h.sound u
    rw [hrole] at hsound
    simp only [MemoryPool.step, hsound.2, Option.some.injEq] at harena
    subst harena
    refine h.update (h.arena.congr rfl rfl) hlock ?_
      ⟨hsound.1, s.arena.offset, by simp [MemoryPool.setPhase]⟩ ?_
    · intro v hv
      exact (h.sound v).mono (by simp [MemoryPool.setPhase, hv]) (fun b hb => hb)
    · intro v b c _ hb
      cases hb
  | attempt hrole harena => exact h.attempt hrole harena hlock
  | @compute u _ _ _ _ _ hrole =>
    have hsound := h.sound u
    rw [hrole] at hsound
    exact h.setRole hlock hsound.2 rfl
  | @unlockShared u _ hrole | @tryLock u _ _ hrole | @unlock u hrole =>
    have hsound := h.sound u
    rw [hrole] at hsound
    exact h.setRole hlock hsound rfl
  | refused => exact h
  | @reset u hrole =>
    have hsound := h.sound u
    rw [hrole] at hsound
    refine h.update (MemoryPool.arenaInv_of_reset rfl rfl) hlock ?_ hsound ?_
    · intro v _
      -- The others are outside `run_task`, so they rely on no block.
      have hquiet := h.lock.quiescent (u := u) (by rw [hrole]; rfl) v
      have hother := h.sound v
      cases hv : s.role v with
      | entered taskId profile | allocating taskId profile | computing taskId profile memory
      | executed result => simp [hv] at hquiet
      | idle | resetting | cleared => rwa [hv] at hother
    · intro v b c _ hb
      cases hb

omit [DecidableEq ι] in
theorem started_lockInv : LockInv (started ι) :=
  ⟨by simp [started, SharedMutex.free], by simp [started, SharedMutex.free]⟩

omit [DecidableEq ι] in
/-- The invariant holds at the start. -/
theorem started_nodeInv : NodeInv capacity (started ι) where
  arena := MemoryPool.fresh_arenaInv capacity
  lock := started_lockInv
  sound _ := rfl
  disjoint _ _ _ _ _ hb := by cases hb

/-- Every reachable node is sound. -/
theorem reachable_nodeInv
    (hreach : (machine capacity ι).ReachableUnder (fun _ label => RunsRoomy capacity label) s) :
    NodeInv capacity s := by
  apply hreach.invariant started_nodeInv
  intro s label t h hroomy hstep
  exact h.step hroomy hstep

end Steps

/-- Tasks that run at the same time never share memory, and a reset never takes the
memory of a running task.  However the executor's closures, the tasks of peers and the
attempts to reset interleave: a running task has a block of its own size, aligned,
inside the arena and handed out since the last reset; the blocks of two running tasks
are disjoint; nobody holds the exclusive lock while a task runs; and a thread that holds
it is alone. -/
theorem running_tasks_isolated {capacity : U64} {s : Node ι}
    (hreach : (machine capacity ι).ReachableUnder (fun _ label => RunsRoomy capacity label) s) :
    (∀ t taskId profile b, s.role t = .computing taskId profile b →
      b ∈ s.arena.blocks ∧ b.size = profile.memoryBytes.toNat ∧ 16 ∣ b.start ∧
        b.start + b.size ≤ capacity.toNat ∧ s.mutex.writer = none) ∧
      (∀ t u b c, t ≠ u → (s.role t).memory = some b → (s.role u).memory = some c →
        b.Disjoint c) ∧
      ∀ t, (s.role t).excludes = true →
        ∀ u, (s.role u).shares = false ∧ ((s.role u).excludes = true → u = t) := by
  have h := reachable_nodeInv hreach
  refine ⟨?_, h.disjoint, ?_⟩
  · intro t taskId profile b hrole
    have hsound := h.sound t
    rw [hrole] at hsound
    rcases hsound with ⟨⟨hmem, hsize, halignment⟩, -⟩
    have haligned := h.arena.safe.aligned b hmem
    rw [halignment] at haligned
    refine ⟨hmem, hsize, haligned, h.arena.safe.inside b hmem, ?_⟩
    cases hwriter : s.mutex.writer with
    | none => rfl
    | some owner =>
      have hquiet := h.lock.quiescent ((h.lock.exclusive owner).1 hwriter) t
      simp [hrole] at hquiet
  · intro t ht u
    refine ⟨h.lock.quiescent ht u, ?_⟩
    intro hu
    have howner := (h.lock.exclusive t).2 ht
    rw [(h.lock.exclusive u).2 hu] at howner
    exact Option.some.inj howner

/-- Two threads allocate at the same time, and the second one loses a round; a third
one tries to reset the arena. -/
def overlappingRun : List (Label (Fin 3)) :=
  [.lockShared 0 [97] { memoryBytes := 100 }, .lockShared 1 [98] { memoryBytes := 200 }, .load 0,
    .load 1, .attempt 0 false, .attempt 1 false, .attempt 1 false, .tryLock 2 false]

def overlappingEnd : Node (Fin 3) :=
  ((machine 1024 (Fin 3)).run (started (Fin 3)) overlappingRun).getD (started (Fin 3))

theorem running_tasks_isolated_overlappingRun :
    (overlappingEnd.role 0).memory = some ⟨0, 100, 16⟩ ∧
      (overlappingEnd.role 1).memory = some ⟨112, 200, 16⟩ ∧ overlappingEnd.role 2 = .idle ∧
      (⟨0, 100, 16⟩ : MemoryPool.Block).Disjoint ⟨112, 200, 16⟩ := by
  have hroomy : (machine 1024 (Fin 3)).Along (fun _ label _ => RunsRoomy 1024 label)
      (machine 1024 (Fin 3)).initial overlappingRun := by
    decide
  have hrun : (machine 1024 (Fin 3)).run (machine 1024 (Fin 3)).initial overlappingRun =
      some overlappingEnd := by
    rfl
  have hfirst : (overlappingEnd.role 0).memory = some ⟨0, 100, 16⟩ := by
    decide
  have hsecond : (overlappingEnd.role 1).memory = some ⟨112, 200, 16⟩ := by
    decide
  exact ⟨hfirst, hsecond, by decide,
    (running_tasks_isolated (StateMachine.ReachableUnder.initial.run hroomy hrun)).2.1 0 1 _ _
      (by decide) hfirst hsecond⟩

end SharedArena

end EdgeOrchestrator
