import Mathlib.Data.BitVec
import Mathlib.Tactic.Common

/-!
# Rounding up to a power of two

The usual idiom `(x + a - 1) & ~(a - 1)` rounds `x` up to a multiple of a power
of two `a`.  In wrapping arithmetic it computes the exact result modulo the word
size, because the word size is itself a multiple of `a`.

Main results:

- `Alignment.toNat_alignMask`: the masked word is the exact round-up modulo `2 ^ w`.
- `Alignment.alignUp_lt_or_eq`: the round-up of a word is a word again or exactly `2 ^ w`.
-/

namespace Alignment

/-- The least multiple of `a` that is at least `x`. -/
def alignUp (a x : Nat) : Nat :=
  (x + a - 1) / a * a

theorem le_alignUp {a : Nat} (ha : 0 < a) (x : Nat) : x ≤ alignUp a x := by
  have hdiv := Nat.div_add_mod (x + a - 1) a
  have hmod := Nat.mod_lt (x + a - 1) ha
  rw [alignUp, Nat.mul_comm]
  omega

theorem dvd_alignUp (a x : Nat) : a ∣ alignUp a x :=
  Nat.dvd_mul_left a _

theorem alignUp_lt {a : Nat} (ha : 0 < a) (x : Nat) : alignUp a x < x + a := by
  have hle := Nat.div_mul_le_self (x + a - 1) a
  rw [alignUp]
  omega

theorem alignUp_zero {a : Nat} (ha : 0 < a) : alignUp a 0 = 0 := by
  rw [alignUp, Nat.zero_add, Nat.div_eq_of_lt (Nat.sub_lt ha Nat.one_pos), Nat.zero_mul]

theorem alignUp_mono (a : Nat) {x y : Nat} (h : x ≤ y) : alignUp a x ≤ alignUp a y :=
  Nat.mul_le_mul_right a (Nat.div_le_div_right (by omega))

/-- Rounding up past a multiple. -/
theorem alignUp_add_of_dvd {a x : Nat} (ha : 0 < a) (hdvd : a ∣ x) (y : Nat) :
    alignUp a (x + y) = x + alignUp a y := by
  rcases hdvd with ⟨k, rfl⟩
  have hsplit : a * k + y + a - 1 = y + a - 1 + k * a := by
    rw [Nat.mul_comm]
    omega
  rw [alignUp, alignUp, hsplit, Nat.add_mul_div_right _ _ ha, Nat.add_mul, Nat.mul_comm a k]
  omega

/-- Rounding up a word gives a word, or exactly the word size. -/
theorem alignUp_lt_or_eq {k w x : Nat} (hk : k ≤ w) (hx : x < 2 ^ w) :
    alignUp (2 ^ k) x < 2 ^ w ∨ alignUp (2 ^ k) x = 2 ^ w := by
  rcases Nat.lt_or_ge (alignUp (2 ^ k) x) (2 ^ w) with hlt | hge
  · exact Or.inl hlt
  · right
    have hsplit : 2 ^ w = 2 ^ (w - k) * 2 ^ k := by
      rw [← Nat.pow_add, Nat.sub_add_cancel hk]
    have hquot : (x + 2 ^ k - 1) / 2 ^ k ≤ 2 ^ (w - k) := by
      have hpos : 0 < 2 ^ k := Nat.two_pow_pos k
      apply Nat.lt_succ_iff.1
      rw [Nat.div_lt_iff_lt_mul hpos, Nat.succ_mul, ← hsplit]
      omega
    have hle : alignUp (2 ^ k) x ≤ 2 ^ w := by
      rw [hsplit]
      exact Nat.mul_le_mul_right _ hquot
    omega

/-- Clearing the low `k` bits. -/
theorem toNat_and_not_mask {w k : Nat} (x : BitVec w) :
    (x &&& ~~~(BitVec.ofNat w (2 ^ k - 1))).toNat = x.toNat / 2 ^ k * 2 ^ k := by
  have hshift : x &&& ~~~(BitVec.ofNat w (2 ^ k - 1)) = (x >>> k) <<< k := by
    apply BitVec.eq_of_getLsbD_eq
    intro i hi
    rw [BitVec.getLsbD_and, BitVec.getLsbD_not, BitVec.getLsbD_ofNat,
      Nat.testBit_two_pow_sub_one, BitVec.getLsbD_shiftLeft, BitVec.getLsbD_ushiftRight]
    by_cases h : i < k
    · simp [h, hi]
    · have hsum : k + (i - k) = i := by omega
      simp [h, hi, hsum]
  have hle := Nat.div_mul_le_self x.toNat (2 ^ k)
  rw [hshift, BitVec.toNat_shiftLeft, BitVec.toNat_ushiftRight, Nat.shiftLeft_eq,
    Nat.shiftRight_eq_div_pow]
  exact Nat.mod_eq_of_lt (lt_of_le_of_lt hle x.isLt)

/-- The masked word is the exact round-up modulo the word size. -/
theorem toNat_alignMask {w k : Nat} (hk : k < w) (x : BitVec w) :
    ((x + BitVec.ofNat w (2 ^ k) - 1) &&& ~~~(BitVec.ofNat w (2 ^ k) - 1)).toNat =
      alignUp (2 ^ k) x.toNat % 2 ^ w := by
  have hlt : 2 ^ k < 2 ^ w := Nat.pow_lt_pow_right (by decide) hk
  have hpos : 0 < 2 ^ k := Nat.two_pow_pos k
  have hx := x.isLt
  have hone : (1 : BitVec w).toNat = 1 := by
    change (BitVec.ofNat w 1).toNat = 1
    rw [BitVec.toNat_ofNat]
    exact Nat.mod_eq_of_lt (by omega)
  have hmask : BitVec.ofNat w (2 ^ k) - 1 = BitVec.ofNat w (2 ^ k - 1) := by
    apply BitVec.eq_of_toNat_eq
    rw [BitVec.toNat_sub, hone, BitVec.toNat_ofNat, BitVec.toNat_ofNat,
      Nat.mod_eq_of_lt hlt, Nat.mod_eq_of_lt (by omega : 2 ^ k - 1 < 2 ^ w)]
    have hsum : 2 ^ w - 1 + 2 ^ k = 2 ^ k - 1 + 2 ^ w := by omega
    rw [hsum, Nat.add_mod_right, Nat.mod_eq_of_lt (by omega)]
  have hsum : (x + BitVec.ofNat w (2 ^ k) - 1).toNat = (x.toNat + 2 ^ k - 1) % 2 ^ w := by
    rw [BitVec.toNat_sub, BitVec.toNat_add, hone, BitVec.toNat_ofNat, Nat.mod_eq_of_lt hlt]
    have hshift : x.toNat + 2 ^ k - 1 + 2 ^ w = 2 ^ w - 1 + (x.toNat + 2 ^ k) := by omega
    rw [Nat.add_mod, Nat.mod_mod, ← Nat.add_mod, ← hshift, Nat.add_mod_right]
  rw [hmask, toNat_and_not_mask, hsum]
  rcases Nat.lt_or_ge (x.toNat + 2 ^ k - 1) (2 ^ w) with hfit | hwrap
  · -- No carry out of the word: the quotient is exact.
    rw [Nat.mod_eq_of_lt hfit]
    have hle := Nat.div_mul_le_self (x.toNat + 2 ^ k - 1) (2 ^ k)
    rw [alignUp, Nat.mod_eq_of_lt (by omega)]
  · -- The carry leaves less than one alignment, and the exact result is the word size.
    have hsmall : (x.toNat + 2 ^ k - 1) % 2 ^ w < 2 ^ k := by
      rw [Nat.mod_eq_sub_mod hwrap, Nat.mod_eq_of_lt (by omega)]
      omega
    have hfull : alignUp (2 ^ k) x.toNat = 2 ^ w := by
      rcases alignUp_lt_or_eq hk.le hx with h | h
      · have hge := le_alignUp hpos x.toNat
        have hdvd : 2 ^ k ∣ 2 ^ w := Nat.pow_dvd_pow 2 hk.le
        have hdvd' := dvd_alignUp (2 ^ k) x.toNat
        have hgap : 2 ^ k ∣ 2 ^ w - alignUp (2 ^ k) x.toNat := Nat.dvd_sub hdvd hdvd'
        have := Nat.le_of_dvd (by omega) hgap
        omega
      · exact h
    rw [Nat.div_eq_of_lt hsmall, hfull]
    simp

end Alignment
