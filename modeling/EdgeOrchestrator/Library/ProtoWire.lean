import Mathlib.Algebra.Group.Nat.Defs
import Mathlib.Data.List.Basic

/-!
# The wire format of protocol buffers

A message is a sequence of fields.  A field is a tag, made of its number and its wire
type, and a value: an integer in base 128, or a length and that many bytes.  Fields
with their default value are left out, and of several fields with one number the last
one counts.  Only the two wire types above are read.

Main results:

- `readVarint_varint`: integers of 64 bits are read back.
- `readFields_encodeFields`: a sequence of fields is read back.
- `length_encodeFields_varintField` and `length_encodeFields_bytesField`: how many bytes a
  field takes.
-/

namespace ProtoWire

/-! ## Integers -/

/-- Groups of seven bits, the lowest first; all bytes but the last have the top bit
set. -/
def varintFuel : Nat → Nat → List UInt8
  | 0, n => [UInt8.ofNat n]
  | fuel + 1, n =>
    if n < 128 then [UInt8.ofNat n]
    else UInt8.ofNat (n % 128 + 128) :: varintFuel fuel (n / 128)

/-- Sixty-four bits take at most ten bytes. -/
def varint (n : Nat) : List UInt8 :=
  varintFuel 9 n

/-- A varint of at most `fuel + 1` bytes. -/
def readVarintFuel : Nat → List UInt8 → Option (Nat × List UInt8)
  | _, [] => none
  | 0, byte :: rest => if byte.toNat < 128 then some (byte.toNat, rest) else none
  | fuel + 1, byte :: rest =>
    if byte.toNat < 128 then some (byte.toNat, rest)
    else
      (readVarintFuel fuel rest).map fun (n, rest) => (byte.toNat - 128 + 128 * n, rest)

/-- A varint has at most ten bytes. -/
def readVarint (data : List UInt8) : Option (Nat × List UInt8) :=
  readVarintFuel 9 data

private theorem toNat_byte {n : Nat} (h : n < 256) : (UInt8.ofNat n).toNat = n :=
  UInt8.toNat_ofNat_of_lt' h

theorem readVarintFuel_varintFuel {fuel n : Nat} (h : n < 128 ^ (fuel + 1)) (rest : List UInt8) :
    readVarintFuel fuel (varintFuel fuel n ++ rest) = some (n, rest) := by
  induction fuel generalizing n with
  | zero =>
    rw [Nat.zero_add, Nat.pow_one] at h
    have hbyte : (UInt8.ofNat n).toNat = n := toNat_byte (by omega)
    simp only [varintFuel, List.singleton_append, readVarintFuel, hbyte, h, if_true]
  | succ fuel ih =>
    by_cases hlast : n < 128
    · have hbyte : (UInt8.ofNat n).toNat = n := toNat_byte (by omega)
      simp only [varintFuel, hlast, if_true, List.singleton_append, readVarintFuel, hbyte]
    · have hbyte : (UInt8.ofNat (n % 128 + 128)).toNat = n % 128 + 128 :=
        toNat_byte (by omega)
      have hmore : ¬ n % 128 + 128 < 128 := by omega
      have hrest : n / 128 < 128 ^ (fuel + 1) := by
        apply Nat.div_lt_of_lt_mul
        rw [← Nat.pow_succ']
        exact h
      simp only [varintFuel, hlast, if_false, List.cons_append, readVarintFuel, hbyte, hmore,
        ih hrest, Option.map_some, Option.some.injEq, Prod.mk.injEq, and_true]
      omega

/-- A 64-bit integer is read back. -/
theorem readVarint_varint {n : Nat} (h : n < 2 ^ 64) (rest : List UInt8) :
    readVarint (varint n ++ rest) = some (n, rest) :=
  readVarintFuel_varintFuel (Nat.lt_trans h (by decide)) rest

theorem length_varint_pos (n : Nat) : 0 < (varint n).length := by
  rw [varint, varintFuel]
  split
  · exact Nat.one_pos
  · exact Nat.succ_pos _

/-! ## Fields -/

/-- The two wire types in use. -/
inductive Value where
  | varint (n : Nat)
  | bytes (content : List UInt8)
deriving DecidableEq, Repr

/-- One field of a message. -/
structure Field where
  number : Nat
  value : Value
deriving DecidableEq, Repr

/-- Wire type 0 is an integer, wire type 2 is length-delimited. -/
def Field.encode (field : Field) : List UInt8 :=
  match field.value with
  | .varint n => varint (8 * field.number) ++ varint n
  | .bytes content => varint (8 * field.number + 2) ++ varint content.length ++ content

/-- The bytes of a message. -/
def encodeFields (fields : List Field) : List UInt8 :=
  fields.flatMap Field.encode

/-- The first field and what follows it. -/
def readField (data : List UInt8) : Option (Field × List UInt8) :=
  (readVarint data).bind fun (tag, rest) =>
    (readVarint rest).bind fun (n, rest) =>
      match tag % 8 with
      | 0 => some (⟨tag / 8, .varint n⟩, rest)
      | 2 =>
        if n ≤ rest.length then some (⟨tag / 8, .bytes (rest.take n)⟩, rest.drop n) else none
      | _ => none

/-- One field after the other; every field takes a byte at least. -/
def readFieldsFuel : Nat → List UInt8 → Option (List Field)
  | _, [] => some []
  | 0, _ :: _ => none
  | fuel + 1, byte :: data =>
    (readField (byte :: data)).bind fun (field, rest) =>
      (readFieldsFuel fuel rest).map fun fields => field :: fields

/-- All fields of a message. -/
def readFields (data : List UInt8) : Option (List Field) :=
  readFieldsFuel data.length data

/-- The tag and the value fit into 64 bits. -/
def Field.Fits (field : Field) : Prop :=
  8 * field.number + 2 < 2 ^ 64 ∧
    match field.value with
    | .varint n => n < 2 ^ 64
    | .bytes content => content.length < 2 ^ 64

/-- A field is read back, and the rest is left. -/
theorem readField_encode {field : Field} (h : field.Fits) (rest : List UInt8) :
    readField (field.encode ++ rest) = some (field, rest) := by
  obtain ⟨number, value⟩ := field
  obtain ⟨htag, hvalue⟩ := h
  simp only at htag hvalue
  cases value with
  | varint n =>
    have hfirst : 8 * number < 2 ^ 64 := by omega
    have hkind : 8 * number % 8 = 0 := Nat.mul_mod_right 8 number
    have hnumber : 8 * number / 8 = number := Nat.mul_div_cancel_left number (by decide)
    simp only [Field.encode, List.append_assoc, readField, readVarint_varint hfirst,
      readVarint_varint hvalue, Option.bind_some, hkind, hnumber]
  | bytes content =>
    have hkind : (8 * number + 2) % 8 = 2 := by omega
    have hnumber : (8 * number + 2) / 8 = number := by omega
    simp only [Field.encode, List.append_assoc, readField, readVarint_varint htag,
      readVarint_varint hvalue, Option.bind_some, hkind, hnumber, List.length_append,
      Nat.le_add_right, if_true, List.take_left, List.drop_left]

theorem length_encode_pos (field : Field) : 0 < field.encode.length := by
  unfold Field.encode
  split
  · rw [List.length_append]
    exact Nat.add_pos_left (length_varint_pos _) _
  · rw [List.length_append, List.length_append]
    exact Nat.add_pos_left (Nat.add_pos_left (length_varint_pos _) _) _

theorem readFieldsFuel_encodeFields {fuel : Nat} {fields : List Field}
    (hfits : ∀ field ∈ fields, field.Fits) (hfuel : fields.length ≤ fuel) :
    readFieldsFuel fuel (encodeFields fields) = some fields := by
  induction fields generalizing fuel with
  | nil => cases fuel <;> rfl
  | cons field fields ih =>
    cases fuel with
    | zero => cases hfuel
    | succ fuel =>
      have hread := readField_encode (hfits field List.mem_cons_self) (encodeFields fields)
      have hrest := ih (fun f hf => hfits f (List.mem_cons_of_mem _ hf))
        (Nat.le_of_succ_le_succ hfuel)
      rw [encodeFields, List.flatMap_cons, ← encodeFields]
      obtain ⟨byte, data, hbytes⟩ :
          ∃ byte data, field.encode ++ encodeFields fields = byte :: data := by
        apply List.exists_cons_of_length_pos
        rw [List.length_append]
        exact Nat.add_pos_left (length_encode_pos field) _
      rw [hbytes] at hread ⊢
      simp only [readFieldsFuel, hread, Option.bind_some, hrest, Option.map_some]

theorem length_le_encodeFields (fields : List Field) :
    fields.length ≤ (encodeFields fields).length := by
  induction fields with
  | nil => exact Nat.le_refl 0
  | cons field fields ih =>
    rw [encodeFields, List.flatMap_cons, ← encodeFields, List.length_append, List.length_cons]
    have := length_encode_pos field
    omega

/-- A sequence of fields is read back. -/
theorem readFields_encodeFields {fields : List Field} (hfits : ∀ field ∈ fields, field.Fits) :
    readFields (encodeFields fields) = some fields :=
  readFieldsFuel_encodeFields hfits (length_le_encodeFields fields)

/-- A field is no longer than its message. -/
theorem length_content_le {fields : List Field} {number : Nat} {content : List UInt8}
    (hmem : ⟨number, .bytes content⟩ ∈ fields) :
    content.length ≤ (encodeFields fields).length := by
  obtain ⟨before, after, rfl⟩ := List.append_of_mem hmem
  simp only [encodeFields, List.flatMap_append, List.flatMap_cons, Field.encode,
    List.length_append]
  omega

/-! ## The fields of a message -/

variable (number : Nat) (fields : List Field)

/-- The integers that fields with this number carry. -/
def varints : List Nat :=
  fields.filterMap fun field =>
    match field.value with
    | .varint n => if field.number = number then some n else none
    | .bytes _ => none

/-- The contents that fields with this number carry. -/
def contents : List (List UInt8) :=
  fields.filterMap fun field =>
    match field.value with
    | .varint _ => none
    | .bytes content => if field.number = number then some content else none

/-- The last one counts; zero if there is none. -/
def lastVarint : Nat :=
  (varints number fields).getLast?.getD 0

/-- The last content with this number, as protobuf merges. -/
def lastContent : List UInt8 :=
  (contents number fields).getLast?.getD []

/-- An integer field, left out when it is zero. -/
def varintField (number n : Nat) : List Field :=
  if n = 0 then [] else [⟨number, .varint n⟩]

/-- A string or bytes field, left out when it is empty. -/
def bytesField (content : List UInt8) : List Field :=
  if content = [] then [] else [⟨number, .bytes content⟩]

section Fields

variable (number other : Nat) (n : Nat) (content : List UInt8) (first second : List Field)

@[simp]
theorem varints_append :
    varints number (first ++ second) = varints number first ++ varints number second :=
  List.filterMap_append

@[simp]
theorem contents_append :
    contents number (first ++ second) = contents number first ++ contents number second :=
  List.filterMap_append

@[simp]
theorem varints_varintField :
    varints number (varintField other n) =
      if other = number then (if n = 0 then [] else [n]) else [] := by
  unfold varints varintField
  by_cases hn : n = 0
  · simp [hn]
  · by_cases hother : other = number
    · simp [hn, hother]
    · simp [hn, hother]

@[simp]
theorem contents_varintField : contents number (varintField other n) = [] := by
  unfold contents varintField
  split <;> rfl

@[simp]
theorem varints_bytesField : varints number (bytesField other content) = [] := by
  unfold varints bytesField
  split <;> rfl

@[simp]
theorem contents_bytesField :
    contents number (bytesField other content) =
      if other = number then (if content = [] then [] else [content]) else [] := by
  unfold contents bytesField
  by_cases hcontent : content = []
  · simp [hcontent]
  · by_cases hother : other = number
    · simp [hcontent, hother]
    · simp [hcontent, hother]

@[simp]
theorem contents_map_bytes (items : List (List UInt8)) :
    contents number (items.map fun item => ⟨other, .bytes item⟩) =
      if other = number then items else [] := by
  by_cases hother : other = number
  · simp [contents, hother, List.filterMap_map]
  · simp [contents, hother, List.filterMap_map]

@[simp]
theorem contents_cons_bytes :
    contents number (⟨other, .bytes content⟩ :: first) =
      (if other = number then [content] else []) ++ contents number first := by
  by_cases hother : other = number
  · simp [contents, hother]
  · simp [contents, hother]

/-- A field that was left out has its default. -/
@[simp]
theorem getD_varint : (if n = 0 then [] else [n]).getLast?.getD 0 = n := by
  by_cases hn : n = 0
  · simp [hn]
  · simp [hn]

@[simp]
theorem getD_content : (if content = [] then [] else [content]).getLast?.getD [] = content := by
  by_cases hcontent : content = []
  · simp [hcontent]
  · simp [hcontent]

end Fields

/-- Items that are read back one by one. -/
theorem mapM_map_of_read {α β : Type*} {write : α → β} {read : β → Option α} {items : List α}
    (h : ∀ item ∈ items, read (write item) = some item) :
    (items.map write).mapM read = some items := by
  induction items with
  | nil => rfl
  | cons item items ih =>
    rw [List.forall_mem_cons] at h
    rw [List.map_cons, List.mapM_cons, h.1, ih h.2]
    rfl

/-! ## Sizes -/

/-- The number fits into 32 bits, and an integer into 64. -/
def Field.Small (field : Field) : Prop :=
  field.number < 2 ^ 32 ∧ ∀ n, field.value = .varint n → n < 2 ^ 64

theorem small_bytes {number : Nat} (hnumber : number < 2 ^ 32) (content : List UInt8) :
    (⟨number, .bytes content⟩ : Field).Small := by
  refine ⟨hnumber, ?_⟩
  intro n hvalue
  cases hvalue

/-- An integer field is small. -/
theorem small_varintField {number n : Nat} (hnumber : number < 2 ^ 32) (hn : n < 2 ^ 64) :
    ∀ field ∈ varintField number n, field.Small := by
  intro field hfield
  unfold varintField at hfield
  split at hfield
  · cases hfield
  · rw [List.mem_singleton] at hfield
    subst hfield
    refine ⟨hnumber, ?_⟩
    intro m hvalue
    cases hvalue
    exact hn

/-- A text field is small. -/
theorem small_bytesField {number : Nat} (hnumber : number < 2 ^ 32) (content : List UInt8) :
    ∀ field ∈ bytesField number content, field.Small := by
  intro field hfield
  unfold bytesField at hfield
  split at hfield
  · cases hfield
  · rw [List.mem_singleton] at hfield
    subst hfield
    exact small_bytes hnumber content

theorem small_map_bytes {number : Nat} (hnumber : number < 2 ^ 32)
    (items : List (List UInt8)) :
    ∀ field ∈ items.map (fun item => (⟨number, .bytes item⟩ : Field)), field.Small := by
  intro field hfield
  rcases List.mem_map.1 hfield with ⟨item, -, rfl⟩
  exact small_bytes hnumber item

/-- Appending keeps the fields small. -/
theorem small_append {first second : List Field} (hfirst : ∀ field ∈ first, field.Small)
    (hsecond : ∀ field ∈ second, field.Small) : ∀ field ∈ first ++ second, field.Small :=
  List.forall_mem_append.2 ⟨hfirst, hsecond⟩

/-- The length of a field is bounded by that of its message, so only the numbers and
the integers matter. -/
theorem readFields_of_small {fields : List Field} (hsmall : ∀ field ∈ fields, field.Small)
    (hsize : (encodeFields fields).length < 2 ^ 64) :
    readFields (encodeFields fields) = some fields := by
  apply readFields_encodeFields
  intro field hfield
  have hfield' := hsmall field hfield
  obtain ⟨number, value⟩ := field
  obtain ⟨hnumber, hvalue⟩ := hfield'
  simp only at hnumber hvalue
  refine ⟨by simp only; omega, ?_⟩
  cases value with
  | varint n => exact hvalue n rfl
  | bytes content => exact Nat.lt_of_le_of_lt (length_content_le hfield) hsize

/-! ## Encoded sizes -/

theorem length_varintFuel_le_fuel (fuel n : Nat) : (varintFuel fuel n).length ≤ fuel + 1 := by
  induction fuel generalizing n with
  | zero => exact Nat.le_refl 1
  | succ fuel ih =>
    rw [varintFuel]
    split
    · exact Nat.le_add_left 1 _
    · exact Nat.succ_le_succ (ih _)

theorem length_varintFuel_le {k n : Nat} (fuel : Nat) (h : n < 128 ^ (k + 1)) :
    (varintFuel fuel n).length ≤ k + 1 := by
  induction fuel generalizing k n with
  | zero => exact Nat.le_add_left 1 k
  | succ fuel ih =>
    rw [varintFuel]
    split
    · exact Nat.le_add_left 1 k
    · rename_i hlarge
      cases k with
      | zero => exact absurd h hlarge
      | succ k =>
        have hrest : n / 128 < 128 ^ (k + 1) := by
          apply Nat.div_lt_of_lt_mul
          rw [← Nat.pow_succ']
          exact h
        exact Nat.succ_le_succ (ih hrest)

theorem lt_length_varintFuel {fuel k n : Nat} (hk : k ≤ fuel) (h : 128 ^ k ≤ n) :
    k < (varintFuel fuel n).length := by
  induction k generalizing fuel n with
  | zero =>
    cases fuel with
    | zero => exact Nat.one_pos
    | succ fuel =>
      rw [varintFuel]
      split
      · exact Nat.one_pos
      · exact Nat.succ_pos _
  | succ k ih =>
    cases fuel with
    | zero => cases hk
    | succ fuel =>
      have hlarge : ¬ n < 128 := by
        have : 128 ^ 1 ≤ 128 ^ (k + 1) := Nat.pow_le_pow_right (by decide) (by omega)
        omega
      have hrest : 128 ^ k ≤ n / 128 := by
        rw [Nat.le_div_iff_mul_le (by decide), ← Nat.pow_succ]
        exact h
      rw [varintFuel, if_neg hlarge]
      exact Nat.succ_lt_succ (ih (Nat.le_of_succ_le_succ hk) hrest)

/-- A varint has at most ten bytes. -/
theorem length_varint_le (n : Nat) : (varint n).length ≤ 10 :=
  length_varintFuel_le_fuel 9 n

/-- Numbers of more than 21 bits take more than three bytes. -/
theorem three_lt_length_varint {n : Nat} (hlow : 2 ^ 21 ≤ n) : 3 < (varint n).length :=
  lt_length_varintFuel (by decide) hlow

/-- Numbers of 22 to 28 bits take four bytes. -/
theorem length_varint_eq_four {n : Nat} (hlow : 2 ^ 21 ≤ n) (hhigh : n < 2 ^ 28) :
    (varint n).length = 4 :=
  Nat.le_antisymm (length_varintFuel_le 9 hhigh) (three_lt_length_varint hlow)

/-- The bytes of an integer field whose tag is one byte. -/
def integerSize (n : Nat) : Nat :=
  if n = 0 then 0 else 1 + (varint n).length

/-- The bytes of a string or bytes field whose tag is one byte. -/
def textSize (content : List UInt8) : Nat :=
  if content = [] then 0 else 1 + (varint content.length).length + content.length

theorem integerSize_le (n : Nat) : integerSize n ≤ 11 := by
  have := length_varint_le n
  unfold integerSize
  split <;> omega

theorem textSize_le (content : List UInt8) : textSize content ≤ 11 + content.length := by
  have := length_varint_le content.length
  unfold textSize
  split <;> omega

/-- `k` is the wire type. -/
theorem length_tag {number k : Nat} (hnumber : number < 16) (hk : k < 8) :
    (varint (8 * number + k)).length = 1 := by
  have hsmall : 8 * number + k < 128 := by omega
  rw [varint, varintFuel, if_pos hsmall]
  rfl

theorem length_encodeFields_append (first second : List Field) :
    (encodeFields (first ++ second)).length =
      (encodeFields first).length + (encodeFields second).length := by
  rw [encodeFields, List.flatMap_append, List.length_append]
  rfl

theorem length_encodeFields_varintField {number : Nat} (hnumber : number < 16) (n : Nat) :
    (encodeFields (varintField number n)).length = integerSize n := by
  have htag := length_tag hnumber (k := 0) (by decide)
  rw [Nat.add_zero] at htag
  unfold varintField integerSize
  split
  · rfl
  · simp [encodeFields, Field.encode, htag]

theorem length_encodeFields_bytes {number : Nat} (hnumber : number < 16) (content : List UInt8) :
    (encodeFields [⟨number, .bytes content⟩]).length =
      1 + (varint content.length).length + content.length := by
  have htag := length_tag hnumber (k := 2) (by decide)
  simp [encodeFields, Field.encode, htag, Nat.add_assoc]

theorem length_encodeFields_bytesField {number : Nat} (hnumber : number < 16)
    (content : List UInt8) :
    (encodeFields (bytesField number content)).length = textSize content := by
  unfold bytesField textSize
  split
  · rfl
  · exact length_encodeFields_bytes hnumber content

end ProtoWire
