import Mathlib.Data.List.Basic

/-!
# Text as bytes

Sequences of bytes that encode a text in UTF-8.  In such a sequence a byte below 128
stands for itself, so that a text can be cut wherever one occurs.

Main results:

- `isUtf8_toUTF8`: the bytes of a string are valid.
- `isUtf8_append_ascii_iff`: a sequence with a byte below 128 in it is valid exactly when the
  parts before and after that byte are.
-/

namespace Utf8

/-- The bytes are the encoding of some characters. -/
def IsUtf8 (bytes : List UInt8) : Prop :=
  bytes.toByteArray.IsValidUTF8

instance : DecidablePred IsUtf8 := fun bytes =>
  inferInstanceAs (Decidable bytes.toByteArray.IsValidUTF8)

theorem isUtf8_iff {bytes : List UInt8} :
    IsUtf8 bytes ↔ ∃ chars : List Char, bytes = chars.flatMap String.utf8EncodeChar := by
  constructor
  · rintro ⟨chars, hchars⟩
    exact ⟨chars, List.toByteArray_inj.1 hchars⟩
  · rintro ⟨chars, rfl⟩
    exact ⟨chars, rfl⟩

theorem isUtf8_nil : IsUtf8 [] :=
  isUtf8_iff.2 ⟨[], rfl⟩

theorem IsUtf8.append {first second : List UInt8} (hfirst : IsUtf8 first)
    (hsecond : IsUtf8 second) : IsUtf8 (first ++ second) := by
  rw [isUtf8_iff] at hfirst hsecond ⊢
  rcases hfirst with ⟨chars, rfl⟩
  rcases hsecond with ⟨others, rfl⟩
  exact ⟨chars ++ others, List.flatMap_append.symm⟩

/-! ## Strings -/

private theorem toList_loop (bytes : ByteArray) (i : Nat) (read : List UInt8) :
    ByteArray.toList.loop bytes i read = read.reverse ++ bytes.data.toList.drop i := by
  induction hk : bytes.size - i generalizing i read with
  | zero =>
    have hend : bytes.data.toList.length ≤ i := by
      rw [Array.length_toList]
      exact Nat.le_of_sub_eq_zero hk
    rw [ByteArray.toList.loop, if_neg (by omega), List.drop_of_length_le hend, List.append_nil]
  | succ k ih =>
    have hi : i < bytes.size := by omega
    have hlength : i < bytes.data.toList.length := by
      rw [Array.length_toList]
      exact hi
    have hbyte : bytes.get! i = bytes.data.toList[i] := by
      rw [ByteArray.get!, getElem!_pos bytes.data i hi, Array.getElem_toList]
    rw [ByteArray.toList.loop, if_pos hi, ih (i + 1) _ (by omega), List.reverse_cons,
      List.drop_eq_getElem_cons hlength, List.append_assoc, List.singleton_append, hbyte]

theorem toList_eq_data (bytes : ByteArray) : bytes.toList = bytes.data.toList := by
  rw [ByteArray.toList, toList_loop]
  rfl

theorem isUtf8_data (text : String) : IsUtf8 text.toUTF8.data.toList := by
  have hsame : text.toUTF8.data.toList.toByteArray = text.toUTF8 := by
    apply ByteArray.ext
    rw [List.data_toByteArray, Array.toArray_toList]
  rw [IsUtf8, hsame]
  exact text.isValidUTF8

theorem isUtf8_toUTF8 (text : String) : IsUtf8 text.toUTF8.toList := by
  rw [toList_eq_data]
  exact isUtf8_data text

/-! ## Bytes below 128 -/

/-- A character is one byte below 128, or several bytes that are not. -/
theorem utf8EncodeChar_cases (c : Char) :
    (∃ byte : UInt8, byte.toNat < 128 ∧ String.utf8EncodeChar c = [byte]) ∨
      ∀ byte ∈ String.utf8EncodeChar c, 128 ≤ byte.toNat := by
  have hhigh : ∀ n, 128 ≤ n → n < 256 → 128 ≤ (UInt8.ofNat n).toNat := by
    intro n hlow hlt
    rw [UInt8.toNat_ofNat_of_lt' hlt]
    exact hlow
  unfold String.utf8EncodeChar
  simp only
  split
  · rename_i hsmall
    left
    refine ⟨UInt8.ofNat c.val.toNat, ?_, rfl⟩
    rw [UInt8.toNat_ofNat_of_lt' (Nat.lt_of_le_of_lt hsmall (by decide))]
    omega
  · right
    split
    · simp only [List.forall_mem_cons, List.not_mem_nil, false_implies, implies_true, and_true]
      exact ⟨hhigh _ (by omega) (by omega), hhigh _ (by omega) (by omega)⟩
    · split
      · simp only [List.forall_mem_cons, List.not_mem_nil, false_implies, implies_true, and_true]
        exact ⟨hhigh _ (by omega) (by omega), hhigh _ (by omega) (by omega),
          hhigh _ (by omega) (by omega)⟩
      · simp only [List.forall_mem_cons, List.not_mem_nil, false_implies, implies_true, and_true]
        exact ⟨hhigh _ (by omega) (by omega), hhigh _ (by omega) (by omega),
          hhigh _ (by omega) (by omega), hhigh _ (by omega) (by omega)⟩

theorem isUtf8_singleton {byte : UInt8} (h : byte.toNat < 128) : IsUtf8 [byte] := by
  have hvalid : byte.toUInt32.isValidChar := by
    left
    rw [UInt8.toNat_toUInt32]
    omega
  have hsmall : byte.toNat ≤ 127 := by omega
  refine isUtf8_iff.2 ⟨[⟨byte.toUInt32, hvalid⟩], ?_⟩
  simp only [List.flatMap_cons, List.flatMap_nil, List.append_nil, String.utf8EncodeChar,
    UInt8.toNat_toUInt32, hsmall, if_true, UInt8.ofNat_toNat]

theorem isUtf8_of_ascii {bytes : List UInt8} (h : ∀ byte ∈ bytes, byte.toNat < 128) :
    IsUtf8 bytes := by
  induction bytes with
  | nil => exact isUtf8_nil
  | cons byte bytes ih =>
    rw [List.forall_mem_cons] at h
    exact (isUtf8_singleton h.1).append (ih h.2)

/-- The characters before and after a byte below 128. -/
theorem exists_split {byte : UInt8} (hbyte : byte.toNat < 128) {chars : List Char}
    {first second : List UInt8}
    (h : chars.flatMap String.utf8EncodeChar = first ++ byte :: second) :
    IsUtf8 first ∧ IsUtf8 second := by
  induction chars generalizing first with
  | nil =>
    rw [List.flatMap_nil] at h
    exact absurd h.symm (List.append_ne_nil_of_right_ne_nil first (List.cons_ne_nil byte second))
  | cons c chars ih =>
    rw [List.flatMap_cons] at h
    rcases List.append_eq_append_iff.1 h with ⟨rest, hfirst, hrest⟩ | ⟨rest, hchar, hrest⟩
    · -- The character ends before the byte.
      have hsplit := ih hrest
      refine ⟨?_, hsplit.2⟩
      rw [hfirst]
      exact IsUtf8.append (isUtf8_iff.2 ⟨[c], by simp⟩) hsplit.1
    · cases rest with
      | nil =>
        rw [List.append_nil] at hchar
        rw [List.nil_append] at hrest
        have hsplit := @ih [] hrest.symm
        refine ⟨?_, hsplit.2⟩
        rw [← hchar]
        exact isUtf8_iff.2 ⟨[c], by simp⟩
      | cons head rest =>
        rw [List.cons_append, List.cons.injEq] at hrest
        rcases hrest with ⟨rfl, hrest⟩
        rcases utf8EncodeChar_cases c with ⟨single, -, hsingle⟩ | hmulti
        · rw [hsingle, List.singleton_eq_append_iff] at hchar
          rcases hchar with ⟨rfl, hsame⟩ | ⟨-, hnil⟩
          · rw [List.cons.injEq] at hsame
            rw [hsame.2, List.nil_append] at hrest
            exact ⟨isUtf8_nil, isUtf8_iff.2 ⟨chars, hrest⟩⟩
          · cases hnil
        · have hmem : byte ∈ String.utf8EncodeChar c := by
            rw [hchar]
            exact List.mem_append_right _ List.mem_cons_self
          have := hmulti byte hmem
          omega

theorem isUtf8_append_ascii_iff {byte : UInt8} (hbyte : byte.toNat < 128)
    {first second : List UInt8} :
    IsUtf8 (first ++ byte :: second) ↔ IsUtf8 first ∧ IsUtf8 second := by
  constructor
  · intro h
    rcases isUtf8_iff.1 h with ⟨chars, hchars⟩
    exact exists_split hbyte hchars.symm
  · rintro ⟨hfirst, hsecond⟩
    exact hfirst.append ((isUtf8_singleton hbyte).append hsecond)

theorem isUtf8_cons_ascii_iff {byte : UInt8} (hbyte : byte.toNat < 128) {bytes : List UInt8} :
    IsUtf8 (byte :: bytes) ↔ IsUtf8 bytes := by
  have hsplit : IsUtf8 ([] ++ byte :: bytes) ↔ IsUtf8 [] ∧ IsUtf8 bytes :=
    isUtf8_append_ascii_iff hbyte
  simpa [isUtf8_nil] using hsplit

end Utf8
