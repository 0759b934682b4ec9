import Mathlib.Algebra.BigOperators.Fin
import Mathlib.Algebra.Order.BigOperators.Group.List
import Mathlib.Algebra.BigOperators.Group.Finset.Basic
import Mathlib.Algebra.Order.BigOperators.Group.Finset
import Mathlib.Tactic.Common

/-!
# Counting over threads

A step of an interleaving changes the state of one thread.  Sums over all
threads then change by what that one thread contributes.

Main results:

- `Counting.sum_change`: the sum over a finite index type when the summand changes at one index
  only.
- `Counting.sum_map_le_of_subset`: distinct members of a list weigh at most as much as the
  whole list.
-/

namespace Counting

variable {ι : Type*} [Fintype ι]

/-- If two summands agree away from `i`, their sums differ by the terms at `i`. -/
theorem sum_change {f g : ι → Nat} (i : ι) (hagree : ∀ j, j ≠ i → g j = f j) :
    ∑ j, g j + f i = ∑ j, f j + g i := by
  classical
  rw [← Finset.add_sum_erase Finset.univ f (Finset.mem_univ i),
    ← Finset.add_sum_erase Finset.univ g (Finset.mem_univ i)]
  have hrest : ∑ j ∈ Finset.univ.erase i, g j = ∑ j ∈ Finset.univ.erase i, f j := by
    apply Finset.sum_congr rfl
    intro j hj
    exact hagree j (Finset.ne_of_mem_erase hj)
  omega

/-- Summands of at most one, one of which is zero, add up to less than their
number. -/
theorem sum_lt_card {f : ι → Nat} (hle : ∀ i, f i ≤ 1) {i : ι} (hzero : f i = 0) :
    ∑ j, f j < Fintype.card ι := by
  have hlt : ∑ j, f j < ∑ _j : ι, 1 := by
    apply Finset.sum_lt_sum
    · intro j _
      exact hle j
    · refine ⟨i, Finset.mem_univ i, ?_⟩
      rw [hzero]
      exact Nat.one_pos
  rw [Finset.sum_const, Finset.card_univ, smul_eq_mul, mul_one] at hlt
  exact hlt

/-- Flags that add up to the number of indices are all set. -/
theorem all_of_card_le {f : ι → Bool} (h : Fintype.card ι ≤ ∑ i, (f i).toNat) (i : ι) :
    f i = true := by
  by_contra hunset
  have hlt : ∑ j, (f j).toNat < Fintype.card ι := by
    apply sum_lt_card (fun j => Bool.toNat_le (f j)) (i := i)
    rw [Bool.eq_false_of_not_eq_true hunset]
    rfl
  omega

omit [Fintype ι] in
/-- Distinct members of a list weigh at most as much as the whole list. -/
theorem sum_map_le_of_subset {M : Type*} [AddCommMonoid M] [PartialOrder M]
    [IsOrderedAddMonoid M] {items all : List ι} (hnodup : items.Nodup) (hsub : items ⊆ all)
    {f : ι → M} (hpos : ∀ i ∈ all, 0 ≤ f i) : (items.map f).sum ≤ (all.map f).sum := by
  rcases hnodup.subperm hsub with ⟨l, hperm, hsublist⟩
  rw [← (hperm.map f).sum_eq]
  refine (hsublist.map f).sum_le_sum ?_
  intro x hx
  rcases List.mem_map.1 hx with ⟨i, hi, rfl⟩
  exact hpos i hi

end Counting
