import Mathlib.Data.Finset.Basic

/-!
# Shared mutexes

A mutex with a shared and an exclusive mode, by its owners.  That an exclusive owner
excludes all shared ones is part of the type.  An operation that would block returns
`none`.

Main results:

- `SharedMutex.lockShared_eq_some_iff` and `SharedMutex.tryLock_eq_some_iff`: when the lock is
  granted, and who owns it then.
- `SharedMutex.readers_eq_empty`: an exclusive owner is the only owner.
-/

/-- Who owns the mutex. -/
structure SharedMutex (ι : Type*) where
  readers : Finset ι
  writer : Option ι
  exclusion : writer.isSome = true → readers = ∅

namespace SharedMutex

variable {ι : Type*}

/-- Nobody owns the mutex. -/
def free : SharedMutex ι where
  readers := ∅
  writer := none
  exclusion _ := rfl

theorem readers_eq_empty {m : SharedMutex ι} {t : ι} (h : m.writer = some t) : m.readers = ∅ := by
  apply m.exclusion
  rw [h]
  rfl

/-- The exclusive owner leaves. -/
def unlock (m : SharedMutex ι) : SharedMutex ι where
  readers := m.readers
  writer := none
  exclusion h := by cases h

variable [DecidableEq ι]

/-- Blocks while there is an exclusive owner. -/
def lockShared (m : SharedMutex ι) (t : ι) : Option (SharedMutex ι) :=
  match m.writer with
  | none => some ⟨insert t m.readers, none, fun h => by cases h⟩
  | some _ => none

/-- One of the shared owners leaves. -/
def unlockShared (m : SharedMutex ι) (t : ι) : SharedMutex ι where
  readers := m.readers.erase t
  writer := m.writer
  exclusion h := by rw [m.exclusion h, Finset.erase_empty]

/-- Fails when there is any owner. -/
def tryLock (m : SharedMutex ι) (t : ι) : Option (SharedMutex ι) :=
  match m.writer with
  | none => if m.readers = ∅ then some ⟨∅, some t, fun _ => rfl⟩ else none
  | some _ => none

theorem lockShared_eq_some_iff {m n : SharedMutex ι} {t : ι} :
    m.lockShared t = some n ↔
      m.writer = none ∧ n.writer = none ∧ n.readers = insert t m.readers := by
  rcases m with ⟨readers, writer, hm⟩
  rcases n with ⟨readers', writer', hn⟩
  cases writer with
  | none =>
    simp only [lockShared, Option.some.injEq, mk.injEq, true_and]
    constructor
    · rintro ⟨h, h'⟩
      exact ⟨h'.symm, h.symm⟩
    · rintro ⟨h, h'⟩
      exact ⟨h'.symm, h.symm⟩
  | some owner => simp [lockShared]

theorem tryLock_eq_some_iff {m n : SharedMutex ι} {t : ι} :
    m.tryLock t = some n ↔
      m.writer = none ∧ m.readers = ∅ ∧ n.writer = some t ∧ n.readers = ∅ := by
  rcases m with ⟨readers, writer, hm⟩
  rcases n with ⟨readers', writer', hn⟩
  cases writer with
  | none =>
    by_cases hempty : readers = ∅
    · simp only [tryLock, hempty, if_true, Option.some.injEq, mk.injEq, true_and]
      constructor
      · rintro ⟨h, h'⟩
        exact ⟨h'.symm, h.symm⟩
      · rintro ⟨h, h'⟩
        exact ⟨h'.symm, h.symm⟩
    · simp [tryLock, hempty]
  | some owner => simp [tryLock]

@[simp]
theorem mem_readers_unlockShared {m : SharedMutex ι} {t u : ι} :
    u ∈ (m.unlockShared t).readers ↔ u ≠ t ∧ u ∈ m.readers :=
  Finset.mem_erase

end SharedMutex
