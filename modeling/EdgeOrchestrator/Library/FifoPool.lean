import EdgeOrchestrator.Library.Counting
import EdgeOrchestrator.Library.StateMachine

/-!
# A pool of workers behind a bounded queue

What the thread pool is for, without the ring and the semaphore: tasks wait in a
bounded queue, an idle worker takes the one at the head, and gives it up when it
is done.

Main results:

- `FifoPool.Distinct.submit`, `FifoPool.Distinct.take` and `FifoPool.Distinct.release`: as long
  as no task is submitted twice, every task is in the queue once or held by one worker.
- `FifoPool.project_submit` to `FifoPool.project_release`: seen by one of the clients that
  share it, the pool is a pool of its own.
-/

/-- The waiting tasks in order, and what each worker is running. -/
structure FifoPool (ω τ : Type*) where
  queue : List τ
  worker : ω → Option τ

namespace FifoPool

open Function (update update_eq_self update_of_ne update_self)

variable {ω τ : Type*}

/-- Every worker idle, nothing waiting. -/
def idle (ω τ : Type*) : FifoPool ω τ where
  queue := []
  worker := fun _ => none

/-- Append a task unless the queue is full. -/
def submit (capacity : Nat) (s : FifoPool ω τ) (task : τ) : Option (FifoPool ω τ) :=
  if s.queue.length < capacity then some { s with queue := s.queue ++ [task] } else none

section Workers

variable [DecidableEq ω]

/-- An idle worker takes the task at the head. -/
def take (s : FifoPool ω τ) (w : ω) : Option (FifoPool ω τ) :=
  match s.worker w, s.queue with
  | none, task :: rest => some { queue := rest, worker := update s.worker w (some task) }
  | _, _ => none

/-- The worker is done with its task. -/
def release (s : FifoPool ω τ) (w : ω) : FifoPool ω τ :=
  { s with worker := update s.worker w none }

/-- The steps of the pool. -/
inductive Label (ω τ : Type*) where
  | submit (task : τ)
  | take (w : ω)
  | finish (w : ω)
deriving DecidableEq, Repr

/-- What a step does, if it is possible. -/
def step (capacity : Nat) (s : FifoPool ω τ) : Label ω τ → Option (FifoPool ω τ)
  | .submit task => s.submit capacity task
  | .take w => s.take w
  | .finish w => if (s.worker w).isSome then some (s.release w) else none

/-- All runs of an idle pool. -/
def machine (capacity : Nat) (ω τ : Type*) [DecidableEq ω] :
    StateMachine (FifoPool ω τ) (Label ω τ) where
  initial := idle ω τ
  step := step capacity

end Workers

/-- The task is waiting or being run. -/
def Holds (s : FifoPool ω τ) (task : τ) : Prop :=
  task ∈ s.queue ∨ ∃ w, s.worker w = some task

/-- No task is in two places. -/
structure Distinct (s : FifoPool ω τ) : Prop where
  nodup : s.queue.Nodup
  apart : ∀ w task, s.worker w = some task → task ∉ s.queue
  owner : ∀ v w task, s.worker v = some task → s.worker w = some task → v = w

theorem idle_distinct : (idle ω τ).Distinct where
  nodup := List.nodup_nil
  apart := by
    intro w task h
    cases h
  owner := by
    intro v w task h
    cases h

theorem submit_eq_some {capacity : Nat} {s t : FifoPool ω τ} {task : τ}
    (h : s.submit capacity task = some t) :
    s.queue.length < capacity ∧ t = { s with queue := s.queue ++ [task] } := by
  unfold submit at h
  split at h
  · rename_i hroom
    cases h
    exact ⟨hroom, rfl⟩
  · cases h

/-- Submitting a task that the pool does not hold. -/
theorem Distinct.submit {capacity : Nat} {s t : FifoPool ω τ} {task : τ} (hs : s.Distinct)
    (hnew : ¬ s.Holds task) (hsubmit : s.submit capacity task = some t) : t.Distinct := by
  rcases submit_eq_some hsubmit with ⟨-, rfl⟩
  rw [Holds, not_or] at hnew
  constructor
  · apply (List.perm_append_singleton task s.queue).nodup_iff.2
    exact List.nodup_cons.2 ⟨hnew.1, hs.nodup⟩
  · intro w other hother hmem
    rcases List.mem_append.1 hmem with hmem | hmem
    · exact hs.apart w other hother hmem
    · rw [List.mem_singleton] at hmem
      rw [hmem] at hother
      exact hnew.2 ⟨w, hother⟩
  · exact hs.owner

section Workers

variable [DecidableEq ω] {s t : FifoPool ω τ} {w : ω}

/-- What a worker holds after one entry has changed. -/
theorem update_worker_cases {f : ω → Option τ} {x : Option τ} {v : ω} {task : τ}
    (h : update f w x v = some task) :
    (v = w ∧ x = some task) ∨ (v ≠ w ∧ f v = some task) := by
  by_cases hv : v = w
  · rw [hv, update_self] at h
    exact Or.inl ⟨hv, h⟩
  · rw [update_of_ne hv] at h
    exact Or.inr ⟨hv, h⟩

theorem take_eq_some (h : s.take w = some t) :
    ∃ task rest, s.worker w = none ∧ s.queue = task :: rest ∧ t.queue = rest ∧
      t.worker = update s.worker w (some task) := by
  unfold take at h
  split at h
  · rename_i task rest hworker hqueue
    cases h
    exact ⟨task, rest, hworker, hqueue, rfl, rfl⟩
  · cases h

theorem Distinct.take (hs : s.Distinct) (htake : s.take w = some t) : t.Distinct := by
  rcases take_eq_some htake with ⟨task, rest, -, hqueue, hrest, hworker⟩
  have hnodup := hs.nodup
  rw [hqueue, List.nodup_cons] at hnodup
  have hfree : ∀ v, s.worker v ≠ some task := by
    intro v hv
    apply hs.apart v task hv
    rw [hqueue]
    exact List.mem_cons_self
  constructor
  · rw [hrest]
    exact hnodup.2
  · intro v other hother hmem
    rw [hrest] at hmem
    rw [hworker] at hother
    rcases update_worker_cases hother with ⟨-, hsame⟩ | ⟨-, hold⟩
    · cases hsame
      exact hnodup.1 hmem
    · apply hs.apart v other hold
      rw [hqueue]
      exact List.mem_cons_of_mem _ hmem
  · intro u v other hu hv
    rw [hworker] at hu hv
    rcases update_worker_cases hu with ⟨huw, hu⟩ | ⟨-, hu⟩
    · cases hu
      rcases update_worker_cases hv with ⟨hvw, -⟩ | ⟨-, hv⟩
      · rw [huw, hvw]
      · exact absurd hv (hfree v)
    · rcases update_worker_cases hv with ⟨-, hv⟩ | ⟨-, hv⟩
      · cases hv
        exact absurd hu (hfree u)
      · exact hs.owner u v other hu hv

/-- What the other workers hold after one has released its task. -/
theorem release_worker {v : ω} {task : τ} (h : (s.release w).worker v = some task) :
    v ≠ w ∧ s.worker v = some task := by
  rcases update_worker_cases h with ⟨-, hnone⟩ | hold
  · cases hnone
  · exact hold

theorem Distinct.release (hs : s.Distinct) (w : ω) : (s.release w).Distinct where
  nodup := hs.nodup
  apart := by
    intro v task h
    exact hs.apart v task (release_worker h).2
  owner := by
    intro u v task hu hv
    exact hs.owner u v task (release_worker hu).2 (release_worker hv).2

end Workers

section Copies

variable [Fintype ω] [DecidableEq τ] {s t : FifoPool ω τ}

/-- How often a task is in the pool. -/
def copies (s : FifoPool ω τ) (task : τ) : Nat :=
  s.queue.count task + ∑ w, (s.worker w).toList.count task

theorem copies_submit {capacity : Nat} {task : τ} (hsubmit : s.submit capacity task = some t)
    (x : τ) : t.copies x = s.copies x + [task].count x := by
  rcases submit_eq_some hsubmit with ⟨-, rfl⟩
  simp only [copies, List.count_append]
  omega

variable [DecidableEq ω] {w : ω}

/-- The copies that the workers hold, when one of them changes what it holds. -/
theorem sum_update_count (f : ω → Option τ) (new : Option τ) (x : τ) :
    ∑ v, (update f w new v).toList.count x + (f w).toList.count x =
      ∑ v, (f v).toList.count x + new.toList.count x := by
  have hchange := Counting.sum_change (f := fun v => (f v).toList.count x)
    (g := fun v => (update f w new v).toList.count x) w (by
      intro v hv
      rw [update_of_ne hv])
  simpa only [update_self] using hchange

theorem copies_take (htake : s.take w = some t) (x : τ) : t.copies x = s.copies x := by
  rcases take_eq_some htake with ⟨task, rest, hidle, hqueue, hrest, hworker⟩
  have hheld := sum_update_count (w := w) s.worker (some task) x
  rw [hidle] at hheld
  rw [copies, copies, hqueue, hrest, hworker, List.count_cons]
  simp only [Option.toList_none, Option.toList_some, List.count_nil, List.count_cons] at hheld
  omega

theorem copies_release {task : τ} (hworker : s.worker w = some task) (x : τ) :
    (s.release w).copies x + [task].count x = s.copies x := by
  have hheld := sum_update_count (w := w) s.worker none x
  rw [hworker] at hheld
  simp only [Option.toList_none, Option.toList_some, List.count_nil] at hheld
  simp only [copies, release]
  omega

end Copies

/-! ## A share of the pool -/

section Project

variable {υ : Type*} (f : τ → Option υ)

/-- The pool as the owner of some of its tasks sees it. -/
def project (s : FifoPool ω τ) : FifoPool ω υ where
  queue := s.queue.filterMap f
  worker := fun w => (s.worker w).bind f

variable {f} {s t : FifoPool ω τ} {capacity : Nat} {task : τ}

theorem project_submit {x : υ} (hsubmit : s.submit capacity task = some t)
    (hx : f task = some x) : (s.project f).submit capacity x = some (t.project f) := by
  rcases submit_eq_some hsubmit with ⟨hroom, rfl⟩
  have hle : (s.project f).queue.length ≤ s.queue.length := List.length_filterMap_le f s.queue
  rw [submit, if_pos (by omega)]
  simp [project, hx]

theorem project_submit_of_none (hsubmit : s.submit capacity task = some t)
    (hnone : f task = none) : t.project f = s.project f := by
  rcases submit_eq_some hsubmit with ⟨-, rfl⟩
  simp [project, hnone]

variable [DecidableEq ω] {w : ω}

theorem bind_update (g : ω → Option τ) (new : Option τ) :
    (fun v => (update g w new v).bind f) =
      update (fun v => (g v).bind f) w (new.bind f) := by
  funext v
  by_cases hv : v = w
  · rw [hv, update_self, update_self]
  · rw [update_of_ne hv, update_of_ne hv]

/-- Who takes a task takes it in its owner's share, and in no other one. -/
theorem project_take (htake : s.take w = some t) :
    t.project f = s.project f ∨ (s.project f).take w = some (t.project f) := by
  rcases take_eq_some htake with ⟨task, rest, hidle, hqueue, hrest, hworker⟩
  have hshare : (s.project f).worker w = none := by
    simp [project, hidle]
  have hnew : (t.project f).worker = update (s.project f).worker w (f task) := by
    simp only [project, hworker]
    exact bind_update s.worker (some task)
  cases hx : f task with
  | none =>
    left
    rw [hx, ← hshare, update_eq_self] at hnew
    have hsame : (t.project f).queue = (s.project f).queue := by
      simp [project, hqueue, hrest, hx]
    exact congrArg₂ FifoPool.mk hsame hnew
  | some x =>
    right
    have hhead : (s.project f).queue = x :: (t.project f).queue := by
      simp [project, hqueue, hrest, hx]
    rw [hx] at hnew
    simp only [take, hshare, hhead]
    exact congrArg some (congrArg (FifoPool.mk _) hnew.symm)

theorem project_release (s : FifoPool ω τ) (w : ω) :
    (s.release w).project f = (s.project f).release w := by
  simp only [project, release]
  exact congrArg (FifoPool.mk _) (bind_update s.worker none)

end Project

end FifoPool
