import Mathlib.Algebra.Group.Nat.Defs
import Mathlib.Data.Nat.Init
import Mathlib.Tactic.Common

/-!
# Byte orders

Numbers as they lie in the memory of a host of either byte order, and the
conversion between the host order and the big-endian one.

Main results:

- `ByteOrder.hostSwap_load`: converting what a host loads from big-endian memory gives the same
  number on every host.
- `ByteOrder.load_store` and `ByteOrder.hostSwap_hostSwap`: a host reads back what it has
  stored, and converting twice changes nothing.
- `ByteOrder.getU32_putU32` and `ByteOrder.putU32_getU32`: the four bytes that shifts and masks
  write are read back as the number they were written for, and any four bytes are written so
  for the number read from them.
-/

/-- The order in which a host stores the bytes of a word. -/
inductive ByteOrder where
  | little
  | big
deriving DecidableEq, Repr

namespace ByteOrder

/-- The `width` low bytes of a number, least significant first. -/
def encode : Nat → Nat → List UInt8
  | 0, _ => []
  | width + 1, n => UInt8.ofNat n :: encode width (n / 256)

/-- The number with the given bytes, least significant first. -/
def decode : List UInt8 → Nat
  | [] => 0
  | b :: bs => b.toNat + 256 * decode bs

variable (order : ByteOrder) (bytes : List UInt8)

/-- The word a host reads from memory. -/
def load : Nat :=
  match order with
  | .little => decode bytes
  | .big => decode bytes.reverse

variable (width n : Nat)

/-- The bytes a host writes for a word of `width` bytes. -/
def store : List UInt8 :=
  match order with
  | .little => encode width n
  | .big => (encode width n).reverse

/-- Reverse the bytes of a word of `width` bytes. -/
def byteSwap : Nat :=
  decode (encode width n).reverse

/-- `htobe` and `betoh`: a swap on little-endian hosts, nothing on others. -/
def hostSwap : Nat :=
  match order with
  | .little => byteSwap width n
  | .big => n

/-- The bytes of a decoded number are the bytes it was decoded from. -/
theorem encode_decode : encode bytes.length (decode bytes) = bytes := by
  induction bytes with
  | nil => rfl
  | cons b bs ih =>
    have hb : b.toNat < 256 := b.toNat_lt
    have hhead : UInt8.ofNat (b.toNat + 256 * decode bs) = b := by
      apply UInt8.toNat_inj.1
      rw [UInt8.toNat_ofNat']
      omega
    have htail : (b.toNat + 256 * decode bs) / 256 = decode bs := by
      omega
    rw [List.length_cons, decode, encode, hhead, htail, ih]

/-- What a host converts from big-endian memory does not depend on the host. -/
theorem hostSwap_load : hostSwap order bytes.length (load order bytes) = load .big bytes := by
  cases order with
  | little =>
    change decode (encode bytes.length (decode bytes)).reverse = decode bytes.reverse
    rw [encode_decode]
  | big => rfl

/-- A word of `width` bytes is below `256 ^ width`. -/
theorem decode_lt : decode bytes < 256 ^ bytes.length := by
  induction bytes with
  | nil => simp [decode]
  | cons b bs ih =>
    have hb : b.toNat < 256 := b.toNat_lt
    rw [decode, List.length_cons, Nat.pow_succ]
    omega

theorem load_lt : load order bytes < 256 ^ bytes.length := by
  cases order with
  | little => exact decode_lt bytes
  | big =>
    rw [← List.length_reverse]
    exact decode_lt bytes.reverse

@[simp]
theorem length_encode : (encode width n).length = width := by
  induction width generalizing n with
  | zero => rfl
  | succ width ih => rw [encode, List.length_cons, ih]

/-- A number that fits is decoded from its bytes. -/
theorem decode_encode {width n : Nat} (hn : n < 256 ^ width) : decode (encode width n) = n := by
  induction width generalizing n with
  | zero =>
    rw [Nat.pow_zero] at hn
    simp only [encode, decode]
    omega
  | succ width ih =>
    have htail : n / 256 < 256 ^ width := by
      rw [Nat.pow_succ] at hn
      omega
    rw [encode, decode, ih htail, UInt8.toNat_ofNat']
    omega

@[simp]
theorem length_store : (order.store width n).length = width := by
  cases order with
  | little => exact length_encode width n
  | big => exact List.length_reverse.trans (length_encode width n)

/-- A host reads back what it has stored. -/
theorem load_store {width n : Nat} (hn : n < 256 ^ width) :
    order.load (order.store width n) = n := by
  cases order with
  | little => exact decode_encode hn
  | big =>
    rw [store, load, List.reverse_reverse]
    exact decode_encode hn

theorem byteSwap_lt : byteSwap width n < 256 ^ width := by
  have hlt := decode_lt (encode width n).reverse
  rw [List.length_reverse, length_encode] at hlt
  exact hlt

/-- Swapping twice restores the word. -/
theorem byteSwap_byteSwap {width n : Nat} (hn : n < 256 ^ width) :
    byteSwap width (byteSwap width n) = n := by
  have hbytes := encode_decode (encode width n).reverse
  rw [List.length_reverse, length_encode] at hbytes
  rw [byteSwap, byteSwap, hbytes, List.reverse_reverse, decode_encode hn]

theorem hostSwap_lt {width n : Nat} (hn : n < 256 ^ width) :
    order.hostSwap width n < 256 ^ width := by
  cases order with
  | little => exact byteSwap_lt width n
  | big => exact hn

/-- Converting to big-endian order and back restores the word. -/
theorem hostSwap_hostSwap {width n : Nat} (hn : n < 256 ^ width) :
    order.hostSwap width (order.hostSwap width n) = n := by
  cases order with
  | little => exact byteSwap_byteSwap hn
  | big => rfl

/-! ## Four bytes, most significant first -/

/-- Write a word with shifts and masks. -/
def putU32 (v : UInt32) : List UInt8 :=
  [(v >>> 24).toUInt8, (v >>> 16).toUInt8, (v >>> 8).toUInt8, v.toUInt8]

/-- Read a word from the first four bytes. -/
def getU32 : List UInt8 → UInt32
  | b₀ :: b₁ :: b₂ :: b₃ :: _ =>
    (b₀.toUInt32 <<< 24) ||| (b₁.toUInt32 <<< 16) ||| (b₂.toUInt32 <<< 8) ||| b₃.toUInt32
  | _ => 0

@[simp]
theorem length_putU32 (v : UInt32) : (putU32 v).length = 4 :=
  rfl

/-- The shifted bytes do not overlap, so joining them adds them up. -/
theorem toNat_getU32 (b₀ b₁ b₂ b₃ : UInt8) (rest : List UInt8) :
    (getU32 (b₀ :: b₁ :: b₂ :: b₃ :: rest)).toNat =
      b₀.toNat * 2 ^ 24 + b₁.toNat * 2 ^ 16 + b₂.toNat * 2 ^ 8 + b₃.toNat := by
  have h₀ := b₀.toNat_lt
  have h₁ := b₁.toNat_lt
  have h₂ := b₂.toNat_lt
  have h₃ := b₃.toNat_lt
  have hword₀ : b₀.toNat <<< 24 % 2 ^ 32 = b₀.toNat <<< 24 := by
    rw [Nat.shiftLeft_eq]
    omega
  have hword₁ : b₁.toNat <<< 16 % 2 ^ 32 = b₁.toNat <<< 16 := by
    rw [Nat.shiftLeft_eq]
    omega
  have hword₂ : b₂.toNat <<< 8 % 2 ^ 32 = b₂.toNat <<< 8 := by
    rw [Nat.shiftLeft_eq]
    omega
  simp only [getU32, UInt32.toNat_or, UInt32.toNat_shiftLeft, UInt8.toNat_toUInt32,
    UInt32.reduceToNat, Nat.reduceMod]
  rw [hword₀, hword₁, hword₂, Nat.or_assoc, Nat.or_assoc, ← Nat.shiftLeft_add_eq_or_of_lt h₃,
    ← Nat.shiftLeft_add_eq_or_of_lt (i := 16), ← Nat.shiftLeft_add_eq_or_of_lt (i := 24)]
  all_goals
    simp only [Nat.shiftLeft_eq]
    omega

/-- Only the first four bytes are looked at. -/
theorem getU32_take (bytes : List UInt8) : getU32 (bytes.take 4) = getU32 bytes := by
  match bytes with
  | [] => rfl
  | [_] => rfl
  | [_, _] => rfl
  | [_, _, _] => rfl
  | _ :: _ :: _ :: _ :: _ => rfl

theorem getU32_putU32 (v : UInt32) (rest : List UInt8) : getU32 (putU32 v ++ rest) = v := by
  apply UInt32.toNat_inj.1
  have hv := v.toNat_lt
  simp only [putU32, List.cons_append, List.nil_append]
  rw [toNat_getU32]
  simp only [UInt32.toNat_toUInt8, UInt32.toNat_shiftRight, UInt32.reduceToNat, Nat.reduceMod,
    Nat.shiftRight_eq_div_pow]
  omega

/-- Four bytes are those of the word that is read from them. -/
theorem putU32_getU32 {bytes : List UInt8} (hlength : bytes.length = 4) :
    putU32 (getU32 bytes) = bytes := by
  match bytes, hlength with
  | [b₀, b₁, b₂, b₃], _ =>
    have hword := toNat_getU32 b₀ b₁ b₂ b₃ []
    have h₀ := b₀.toNat_lt
    have h₁ := b₁.toNat_lt
    have h₂ := b₂.toNat_lt
    have h₃ := b₃.toNat_lt
    simp only [putU32, List.cons.injEq, and_true, ← UInt8.toNat_inj, UInt32.toNat_toUInt8,
      UInt32.toNat_shiftRight, UInt32.reduceToNat, Nat.reduceMod, Nat.shiftRight_eq_div_pow]
    omega

end ByteOrder
