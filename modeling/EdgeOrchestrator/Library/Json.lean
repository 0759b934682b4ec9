import Mathlib.Algebra.BigOperators.Group.List.Basic
import Mathlib.Algebra.GroupWithZero.Nat
import Mathlib.Data.List.Induction
import Mathlib.Data.List.TakeWhile

/-!
# JSON texts

A reader for JSON texts, and how much text a value takes.  Texts are bytes; an object is
what looking up a key in it gives, so that of several members with one key the last one
counts and the order of members does not matter.

A byte of a string that has to be escaped takes two bytes of the text at least, and every
member of an object has its own part of the text.

Main results:

- `readString_cost`: a string takes the bytes of its escapes.
- `takes_obj`: an object takes what its members take.
-/

namespace Json

/-! ## Values -/

/-- Values as a reader returns them. -/
inductive Value where
  | null
  | bool (b : Bool)
  | int (n : Int)
  /-- A number with a fraction or an exponent, kept as text. -/
  | float (literal : List UInt8)
  | str (text : List UInt8)
  | arr (items : List Value)
  | obj (field : List UInt8 → Option Value)

/-- Words and numbers. -/
def Value.isAtom : Value → Bool
  | .str _ | .arr _ | .obj _ => false
  | _ => true

/-- The last member with a key counts. -/
def lastOf : List (List UInt8 × Value) → List UInt8 → Option Value
  | [], _ => none
  | (key, value) :: members, wanted =>
    (lastOf members wanted).or (if key = wanted then some value else none)

/-- The value found is one of the members. -/
theorem mem_of_lastOf {members : List (List UInt8 × Value)} {key : List UInt8} {value : Value}
    (h : lastOf members key = some value) : (key, value) ∈ members := by
  induction members with
  | nil => cases h
  | cons member members ih =>
    obtain ⟨key', value'⟩ := member
    rw [lastOf, Option.or_eq_some_iff] at h
    rcases h with hlater | ⟨-, hhere⟩
    · exact List.mem_cons_of_mem _ (ih hlater)
    · split at hhere
      · rename_i hkey
        cases hhere
        rw [hkey]
        exact List.mem_cons_self
      · cases hhere

/-! ## Strings -/

/-- Quotes, backslashes and control characters. -/
def needsEscape (byte : UInt8) : Bool :=
  byte = 0x22 || byte = 0x5C || byte < 0x20

/-- The byte that a letter behind a backslash stands for. -/
def simpleEscape (byte : UInt8) : Option UInt8 :=
  if byte = 0x22 ∨ byte = 0x5C ∨ byte = 0x2F then some byte
  else if byte = 0x62 then some 0x08
  else if byte = 0x66 then some 0x0C
  else if byte = 0x6E then some 0x0A
  else if byte = 0x72 then some 0x0D
  else if byte = 0x74 then some 0x09
  else none

/-- The value of a hexadecimal digit. -/
def hexDigit (byte : UInt8) : Option Nat :=
  if 0x30 ≤ byte ∧ byte ≤ 0x39 then some (byte.toNat - 0x30)
  else if 0x41 ≤ byte ∧ byte ≤ 0x46 then some (byte.toNat - 0x37)
  else if 0x61 ≤ byte ∧ byte ≤ 0x66 then some (byte.toNat - 0x57)
  else none

/-- Four hexadecimal digits. -/
def readHex : List UInt8 → Option (Nat × List UInt8)
  | a :: b :: c :: d :: rest =>
    (hexDigit a).bind fun a => (hexDigit b).bind fun b => (hexDigit c).bind fun c =>
      (hexDigit d).map fun d => (((a * 16 + b) * 16 + c) * 16 + d, rest)
  | _ => none

/-- A code point in UTF-8; surrogates that stand alone are written like the others. -/
def encodePoint (n : Nat) : List UInt8 :=
  if n < 0x80 then [UInt8.ofNat n]
  else if n < 0x800 then [UInt8.ofNat (0xC0 + n / 64), UInt8.ofNat (0x80 + n % 64)]
  else if n < 0x10000 then
    [UInt8.ofNat (0xE0 + n / 4096), UInt8.ofNat (0x80 + n / 64 % 64), UInt8.ofNat (0x80 + n % 64)]
  else
    [UInt8.ofNat (0xF0 + n / 262144), UInt8.ofNat (0x80 + n / 4096 % 64),
      UInt8.ofNat (0x80 + n / 64 % 64), UInt8.ofNat (0x80 + n % 64)]

variable (text : List UInt8)

/-- What follows `\u`; two surrogates make up one code point. -/
def readUnicode : Option (List UInt8 × List UInt8) :=
  (readHex text).bind fun (high, rest) =>
    if 0xD800 ≤ high ∧ high < 0xDC00 then
      match rest with
      | 0x5C :: 0x75 :: more =>
        (readHex more).map fun (low, after) =>
          if 0xDC00 ≤ low ∧ low < 0xE000 then
            (encodePoint (0x10000 + (high - 0xD800) * 1024 + (low - 0xDC00)), after)
          else (encodePoint high, rest)
      | _ => some (encodePoint high, rest)
    else some (encodePoint high, rest)

/-- What follows a backslash. -/
def readEscape : List UInt8 → Option (List UInt8 × List UInt8)
  | [] => none
  | byte :: rest =>
    if byte = 0x75 then readUnicode rest
    else (simpleEscape byte).map fun unescaped => ([unescaped], rest)

/-- A string from behind its opening quote on. -/
def readString : Nat → List UInt8 → Option (List UInt8 × List UInt8)
  | 0, _ => none
  | _ + 1, [] => none
  | fuel + 1, byte :: rest =>
    if byte = 0x22 then some ([], rest)
    else if byte = 0x5C then
      (readEscape rest).bind fun (bytes, rest) =>
        (readString fuel rest).map fun (text, rest) => (bytes ++ text, rest)
    else if byte < 0x20 then none
    else (readString fuel rest).map fun (text, rest) => (byte :: text, rest)

/-! ## Numbers -/

/-- A decimal digit. -/
def isDigit (byte : UInt8) : Bool :=
  0x30 ≤ byte ∧ byte ≤ 0x39

/-- The number that decimal digits write. -/
def digitsValue (digits : List UInt8) : Nat :=
  digits.foldl (fun n digit => 10 * n + (digit.toNat - 0x30)) 0

/-- A zero, or digits that do not start with one. -/
def readInteger : List UInt8 → Option (List UInt8 × List UInt8)
  | [] => none
  | byte :: rest =>
    if byte = 0x30 then some ([byte], rest)
    else if isDigit byte then
      some ((byte :: rest).takeWhile isDigit, (byte :: rest).dropWhile isDigit)
    else none

/-- A point and digits, if they are there. -/
def readFraction : List UInt8 × List UInt8 :=
  match text with
  | 0x2E :: rest =>
    if rest.takeWhile isDigit = [] then ([], text)
    else (0x2E :: rest.takeWhile isDigit, rest.dropWhile isDigit)
  | _ => ([], text)

/-- An exponent, if it is there. -/
def readExponent : List UInt8 × List UInt8 :=
  match text with
  | [] => ([], text)
  | mark :: rest =>
    if mark = 0x65 ∨ mark = 0x45 then
      let sign := rest.take 1 |>.filter fun byte => byte = 0x2B || byte = 0x2D
      let digits := (rest.drop sign.length).takeWhile isDigit
      if digits = [] then ([], text)
      else (mark :: sign ++ digits, (rest.drop sign.length).dropWhile isDigit)
    else ([], text)

/-- A sign, if it is there. -/
def readSign : Bool × List UInt8 :=
  match text with
  | 0x2D :: rest => (true, rest)
  | _ => (false, text)

/-- A number, with its fraction and exponent. -/
def readNumber : Option (Value × List UInt8) :=
  let (negative, unsigned) := readSign text
  (readInteger unsigned).map fun (digits, rest) =>
    let (fraction, rest) := readFraction rest
    let (exponent, rest) := readExponent rest
    if fraction = [] ∧ exponent = [] then
      (.int (if negative then -digitsValue digits else digitsValue digits), rest)
    else (.float (digits ++ fraction ++ exponent), rest)

/-! ## Texts -/

/-- The four white space characters. -/
def isSpace (byte : UInt8) : Bool :=
  byte = 0x20 || byte = 0x09 || byte = 0x0A || byte = 0x0D

/-- The text behind leading white space. -/
def skipSpace : List UInt8 :=
  text.dropWhile isSpace

/-- The words that are values. -/
def words : List (List UInt8 × Value) :=
  [("null".toUTF8.data.toList, .null), ("true".toUTF8.data.toList, .bool true),
    ("false".toUTF8.data.toList, .bool false),
    ("NaN".toUTF8.data.toList, .float "NaN".toUTF8.data.toList),
    ("Infinity".toUTF8.data.toList, .float "Infinity".toUTF8.data.toList),
    ("-Infinity".toUTF8.data.toList, .float "-Infinity".toUTF8.data.toList)]

/-- A word or a number. -/
def readAtom : Option (Value × List UInt8) :=
  match words.find? fun word => word.1.isPrefixOf text with
  | some (word, value) => some (value, text.drop word.length)
  | none => readNumber text

/-- The key of a member, up to its value. -/
def readKey : List UInt8 → Option (List UInt8 × List UInt8)
  | 0x22 :: rest =>
    (readString rest.length rest).bind fun (key, rest) =>
      match skipSpace rest with
      | 0x3A :: rest => some (key, skipSpace rest)
      | _ => none
  | _ => none

mutual

/-- One value; every call takes a byte of the text, which bounds the fuel. -/
def readValue : Nat → List UInt8 → Option (Value × List UInt8)
  | 0, _ => none
  | _ + 1, [] => none
  | fuel + 1, byte :: rest =>
    if byte = 0x22 then
      (readString rest.length rest).map fun (text, rest) => (.str text, rest)
    else if byte = 0x7B then
      match skipSpace rest with
      | 0x7D :: rest => some (.obj (lastOf []), rest)
      | rest => (readMembers fuel rest).map fun (members, rest) => (.obj (lastOf members), rest)
    else if byte = 0x5B then
      match skipSpace rest with
      | 0x5D :: rest => some (.arr [], rest)
      | rest => (readItems fuel rest).map fun (items, rest) => (.arr items, rest)
    else readAtom (byte :: rest)

/-- Members up to the closing brace. -/
def readMembers : Nat → List UInt8 → Option (List (List UInt8 × Value) × List UInt8)
  | 0, _ => none
  | fuel + 1, text =>
    (readKey text).bind fun (key, rest) =>
      (readValue fuel rest).bind fun (value, rest) =>
        match skipSpace rest with
        | 0x2C :: rest =>
          (readMembers fuel (skipSpace rest)).map fun (members, rest) =>
            ((key, value) :: members, rest)
        | 0x7D :: rest => some ([(key, value)], rest)
        | _ => none

/-- Items up to the closing bracket. -/
def readItems : Nat → List UInt8 → Option (List Value × List UInt8)
  | 0, _ => none
  | fuel + 1, text =>
    (readValue fuel text).bind fun (item, rest) =>
      match skipSpace rest with
      | 0x2C :: rest =>
        (readItems fuel (skipSpace rest)).map fun (items, rest) => (item :: items, rest)
      | 0x5D :: rest => some ([item], rest)
      | _ => none

end

/-- One value with nothing but space around it. -/
def loads : Option Value :=
  (readValue text.length (skipSpace text)).bind fun (value, rest) =>
    if skipSpace rest = [] then some value else none

/-! ## Room for escapes -/

/-- How many bytes of a text a string takes at least, its quotes apart. -/
def cost : Nat :=
  text.length + text.countP needsEscape

@[simp] theorem cost_nil : cost [] = 0 := rfl

@[simp]
theorem cost_append (first second : List UInt8) :
    cost (first ++ second) = cost first + cost second := by
  simp only [cost, List.length_append, List.countP_append]
  omega

/-- Escapes at most double a string. -/
theorem cost_le : cost text ≤ 2 * text.length := by
  have hcount := List.countP_le_length (p := needsEscape) (l := text)
  simp only [cost]
  omega

theorem cost_cons_of_plain {byte : UInt8} (h : needsEscape byte = false) (text : List UInt8) :
    cost (byte :: text) = cost text + 1 := by
  simp only [cost, List.length_cons, List.countP_cons_of_neg (by simp [h] : ¬ needsEscape byte)]
  omega

theorem hexDigit_lt {byte : UInt8} {n : Nat} (h : hexDigit byte = some n) : n < 16 := by
  simp only [hexDigit, UInt8.le_iff_toNat_le] at h
  split at h
  · rename_i hrange
    cases h
    have hle : byte.toNat ≤ 0x39 := hrange.2
    omega
  · split at h
    · rename_i hrange
      cases h
      have hle : byte.toNat ≤ 0x46 := hrange.2
      omega
    · split at h
      · rename_i hrange
        cases h
        have hle : byte.toNat ≤ 0x66 := hrange.2
        omega
      · cases h

/-- Four hex digits are consumed. -/
theorem readHex_spec {text rest : List UInt8} {n : Nat} (h : readHex text = some (n, rest)) :
    n < 0x10000 ∧ text.length = rest.length + 4 := by
  unfold readHex at h
  split at h
  · rename_i a b c d tail
    simp only [Option.bind_eq_some_iff, Option.map_eq_some_iff, Prod.mk.injEq] at h
    obtain ⟨w, hw, x, hx, y, hy, z, hz, hn, rfl⟩ := h
    have hw := hexDigit_lt hw
    have hx := hexDigit_lt hx
    have hy := hexDigit_lt hy
    have hz := hexDigit_lt hz
    refine ⟨by omega, by simp⟩
  · cases h

theorem length_encodePoint_le (n : Nat) : (encodePoint n).length ≤ 4 := by
  unfold encodePoint
  split_ifs <;> simp

theorem length_encodePoint_of_lt {n : Nat} (h : n < 0x10000) : (encodePoint n).length ≤ 3 := by
  unfold encodePoint
  split_ifs <;> simp

theorem readUnicode_length {text bytes rest : List UInt8}
    (h : readUnicode text = some (bytes, rest)) :
    2 * bytes.length + rest.length ≤ text.length + 2 := by
  simp only [readUnicode, Option.bind_eq_some_iff, Prod.exists] at h
  obtain ⟨high, tail, hhex, h⟩ := h
  obtain ⟨hhigh, hlength⟩ := readHex_spec hhex
  have hthree := length_encodePoint_of_lt hhigh
  -- the one case that takes a second escape is the one that may give four bytes
  split at h
  · split at h
    · rename_i more
      simp only [Option.map_eq_some_iff, Prod.exists] at h
      obtain ⟨low, after, hlow, h⟩ := h
      obtain ⟨-, hmore⟩ := readHex_spec hlow
      simp only [List.length_cons] at hlength
      split at h
      · obtain ⟨rfl, rfl⟩ := Prod.mk.inj h
        have hfour := length_encodePoint_le (0x10000 + (high - 0xD800) * 1024 + (low - 0xDC00))
        omega
      · obtain ⟨rfl, rfl⟩ := Prod.mk.inj h
        simp only [List.length_cons]
        omega
    · obtain ⟨rfl, rfl⟩ := Prod.mk.inj (Option.some.inj h)
      omega
  · obtain ⟨rfl, rfl⟩ := Prod.mk.inj (Option.some.inj h)
    omega

theorem readEscape_length {text bytes rest : List UInt8}
    (h : readEscape text = some (bytes, rest)) :
    2 * bytes.length + rest.length ≤ text.length + 1 := by
  cases text with
  | nil => cases h
  | cons byte tail =>
    simp only [readEscape] at h
    split at h
    · have hunicode := readUnicode_length h
      simp only [List.length_cons]
      omega
    · simp only [Option.map_eq_some_iff, Prod.mk.injEq] at h
      obtain ⟨unescaped, -, rfl, rfl⟩ := h
      simp only [List.length_cons, List.length_nil]
      omega

/-- The string read is paid for by the text consumed. -/
theorem readString_cost {fuel : Nat} {text value rest : List UInt8}
    (h : readString fuel text = some (value, rest)) :
    cost value + 1 + rest.length ≤ text.length := by
  induction fuel generalizing text value with
  | zero => cases h
  | succ fuel ih =>
    cases text with
    | nil => cases h
    | cons byte tail =>
      simp only [readString] at h
      split at h
      · cases h
        simp only [cost_nil, List.length_cons]
        omega
      · rename_i hquote
        split at h
        · simp only [Option.bind_eq_some_iff, Option.map_eq_some_iff, Prod.exists,
            Prod.mk.injEq] at h
          obtain ⟨bytes, after, hescape, later, rest', hlater, rfl, rfl⟩ := h
          have hbytes := readEscape_length hescape
          have hcost := cost_le bytes
          have hrest := ih hlater
          simp only [cost_append, List.length_cons]
          omega
        · rename_i hbackslash
          split at h
          · cases h
          · rename_i hcontrol
            simp only [Option.map_eq_some_iff, Prod.exists, Prod.mk.injEq] at h
            obtain ⟨later, rest', hlater, rfl, rfl⟩ := h
            have hplain : needsEscape byte = false := by
              simp [needsEscape, hquote, hbackslash, hcontrol]
            have hrest := ih hlater
            rw [cost_cons_of_plain hplain, List.length_cons]
            omega

/-! ### Decimal numbers -/

/-- The decimal digits of a number below `fuel`. -/
def decimalDigits : Nat → Nat → List UInt8
  | 0, _ => []
  | fuel + 1, n =>
    if n < 10 then [UInt8.ofNat (0x30 + n)]
    else decimalDigits fuel (n / 10) ++ [UInt8.ofNat (0x30 + n % 10)]

/-- An integer as a stream prints it. -/
def intText (n : Int) : List UInt8 :=
  if n < 0 then 0x2D :: decimalDigits (n.natAbs + 1) n.natAbs
  else decimalDigits (n.natAbs + 1) n.natAbs

theorem toNat_digit {n : Nat} (h : n < 10) : (UInt8.ofNat (0x30 + n)).toNat = 0x30 + n := by
  rw [UInt8.toNat_ofNat']
  omega

theorem isDigit_iff {byte : UInt8} : isDigit byte ↔ 0x30 ≤ byte.toNat ∧ byte.toNat ≤ 0x39 := by
  simp only [isDigit, decide_eq_true_eq, UInt8.le_iff_toNat_le]
  rfl

theorem isDigit_digit {n : Nat} (h : n < 10) : isDigit (UInt8.ofNat (0x30 + n)) := by
  rw [isDigit_iff, toNat_digit h]
  omega

theorem digitsValue_append (digits : List UInt8) (digit : UInt8) :
    digitsValue (digits ++ [digit]) = 10 * digitsValue digits + (digit.toNat - 0x30) := by
  simp only [digitsValue, List.foldl_append, List.foldl_cons, List.foldl_nil]

theorem isDigit_of_mem_decimalDigits {fuel n : Nat} {byte : UInt8}
    (h : byte ∈ decimalDigits fuel n) : isDigit byte := by
  induction fuel generalizing n with
  | zero => cases h
  | succ fuel ih =>
    simp only [decimalDigits] at h
    split at h
    · rename_i hsmall
      rw [List.mem_singleton.1 h]
      exact isDigit_digit hsmall
    · rcases List.mem_append.1 h with hfirst | hlast
      · exact ih hfirst
      · rw [List.mem_singleton.1 hlast]
        exact isDigit_digit (Nat.mod_lt n (by decide))

/-- The digits of a number denote it. -/
theorem digitsValue_decimalDigits {fuel n : Nat} (h : n < fuel) :
    digitsValue (decimalDigits fuel n) = n := by
  induction fuel generalizing n with
  | zero => omega
  | succ fuel ih =>
    simp only [decimalDigits]
    split
    · rename_i hsmall
      have hdigit := toNat_digit hsmall
      simp only [digitsValue, List.foldl_cons, List.foldl_nil, hdigit]
      omega
    · rename_i hlarge
      rw [digitsValue_append, ih (by omega), toNat_digit (Nat.mod_lt n (by decide))]
      omega

theorem decimalDigits_ne_nil {fuel n : Nat} (h : n < fuel) : decimalDigits fuel n ≠ [] := by
  cases fuel with
  | zero => omega
  | succ fuel =>
    simp only [decimalDigits]
    split <;> simp

/-- No digits are wasted. -/
theorem length_decimalDigits_le {fuel n width : Nat} (h : n < 10 ^ (width + 1)) :
    (decimalDigits fuel n).length ≤ width + 1 := by
  induction fuel generalizing n width with
  | zero => simp [decimalDigits]
  | succ fuel ih =>
    simp only [decimalDigits]
    split
    · simp
    · rename_i hlarge
      cases width with
      | zero => omega
      | succ width =>
        have hless : n / 10 < 10 ^ (width + 1) := by
          rw [Nat.div_lt_iff_lt_mul (by decide)]
          calc n < 10 ^ (width + 1 + 1) := h
            _ = 10 ^ (width + 1) * 10 := Nat.pow_succ 10 (width + 1)
        have hfewer := ih hless
        simp only [List.length_append, List.length_cons, List.length_nil]
        omega

/-- As many digits bound the number. -/
theorem digitsValue_lt {digits : List UInt8} (h : ∀ byte ∈ digits, isDigit byte) :
    digitsValue digits < 10 ^ digits.length := by
  induction digits using List.reverseRecOn with
  | nil => decide
  | append_singleton digits digit ih =>
    have hfirst := ih fun byte hmem => h byte (List.mem_append_left _ hmem)
    have hdigit := isDigit_iff.1 (h digit (by simp))
    rw [digitsValue_append, List.length_append, List.length_singleton, Nat.pow_succ]
    omega

/-- The first digit is a zero for the number zero only. -/
theorem head_decimalDigits {fuel n : Nat} (h : n < fuel) {tail : List UInt8}
    (hzero : decimalDigits fuel n = 0x30 :: tail) : tail = [] := by
  induction fuel generalizing n tail with
  | zero => omega
  | succ fuel ih =>
    simp only [decimalDigits] at hzero
    split at hzero
    · exact (List.cons.inj hzero).2.symm
    · rename_i hlarge
      have hless : n / 10 < fuel := by omega
      obtain ⟨first, later, hsplit⟩ := List.exists_cons_of_ne_nil (decimalDigits_ne_nil hless)
      rw [hsplit, List.cons_append] at hzero
      obtain ⟨rfl, -⟩ := List.cons.inj hzero
      have hlater : later = [] := ih hless hsplit
      have hvalue := digitsValue_decimalDigits hless
      rw [hsplit, hlater] at hvalue
      simp [digitsValue] at hvalue
      omega

theorem length_intText_neg (n : Nat) :
    (intText (-n)).length ≤ (decimalDigits (n + 1) n).length + 1 := by
  simp only [intText, Int.natAbs_neg, Int.natAbs_natCast]
  split <;> simp

theorem intText_natCast (n : Nat) : intText n = decimalDigits (n + 1) n := by
  simp [intText]

theorem isDigit_of_mem_intText {n : Nat} {byte : UInt8} (h : byte ∈ intText n) : isDigit byte := by
  rw [intText_natCast] at h
  exact isDigit_of_mem_decimalDigits h

/-- Different numbers have different texts. -/
theorem intText_natCast_inj {m n : Nat} (h : intText m = intText n) : m = n := by
  have hvalue := congrArg digitsValue h
  rw [intText_natCast, intText_natCast, digitsValue_decimalDigits (Nat.lt_add_one m),
    digitsValue_decimalDigits (Nat.lt_add_one n)] at hvalue
  exact hvalue

/-- A number in front of a byte that is no digit can be read off. -/
theorem intText_append_inj {m n : Nat} {byte : UInt8} {s t : List UInt8}
    (hbyte : isDigit byte = false) (h : intText m ++ byte :: s = intText n ++ byte :: t) :
    m = n ∧ s = t := by
  have htake : ∀ (k : Nat) (rest : List UInt8),
      (intText k ++ byte :: rest).takeWhile isDigit = intText k := by
    intro k rest
    rw [List.takeWhile_append_of_pos fun _ => isDigit_of_mem_intText,
      List.takeWhile_cons_of_neg (by simp [hbyte]), List.append_nil]
  have hdigits := congrArg (List.takeWhile isDigit) h
  rw [htake, htake] at hdigits
  rw [hdigits] at h
  exact ⟨intText_natCast_inj hdigits, (List.cons.inj (List.append_cancel_left h)).2⟩

/-- The digits read are a nonempty front of the text. -/
theorem readInteger_spec {text digits rest : List UInt8}
    (h : readInteger text = some (digits, rest)) :
    digits ≠ [] ∧ (∀ byte ∈ digits, isDigit byte) ∧
      digits.length + rest.length = text.length := by
  cases text with
  | nil => cases h
  | cons byte tail =>
    simp only [readInteger] at h
    split at h
    · rename_i hzero
      obtain ⟨rfl, rfl⟩ := Prod.mk.inj (Option.some.inj h)
      subst hzero
      refine ⟨by simp, fun b hmem => ?_, ?_⟩
      · rw [List.mem_singleton.1 hmem]
        rfl
      · simp only [List.length_cons, List.length_nil]
        omega
    · split at h
      · rename_i hdigit
        obtain ⟨rfl, rfl⟩ := Prod.mk.inj (Option.some.inj h)
        refine ⟨by simp [hdigit], fun b hmem => List.mem_takeWhile_imp hmem, ?_⟩
        rw [← List.length_append, List.takeWhile_append_dropWhile]
      · cases h

theorem length_readFraction_le (text : List UInt8) :
    (readFraction text).2.length ≤ text.length := by
  unfold readFraction
  split
  · rename_i rest
    split
    · exact le_refl _
    · have hdrop := List.length_dropWhile_le isDigit rest
      simp only [List.length_cons]
      omega
  · exact le_refl _

theorem length_readExponent_le (text : List UInt8) :
    (readExponent text).2.length ≤ text.length := by
  cases text with
  | nil => exact le_refl _
  | cons mark rest =>
    simp only [readExponent]
    split
    · split
      · exact le_refl _
      · refine (List.length_dropWhile_le isDigit _).trans ?_
        simp only [List.length_drop, List.length_cons]
        omega
    · exact le_refl _

theorem length_readSign (text : List UInt8) :
    (readSign text).2.length + (readSign text).1.toNat = text.length := by
  unfold readSign
  split <;> simp

variable {value : Value}

/-- The parts of a number that was read. -/
theorem readNumber_cases {text rest : List UInt8} (h : readNumber text = some (value, rest)) :
    ∃ digits, digits ≠ [] ∧ (∀ byte ∈ digits, isDigit byte) ∧
      (readSign text).1.toNat + digits.length + rest.length ≤ text.length ∧
      ((∃ literal, value = .float literal) ∨
        value = .int (if (readSign text).1 then -digitsValue digits else digitsValue digits)) := by
  simp only [readNumber, Option.map_eq_some_iff, Prod.exists] at h
  obtain ⟨digits, tail, hinteger, h⟩ := h
  obtain ⟨hnonempty, hdigits, hlength⟩ := readInteger_spec hinteger
  have hsign := length_readSign text
  have hfraction := length_readFraction_le tail
  have hexponent := length_readExponent_le (readFraction tail).2
  refine ⟨digits, hnonempty, hdigits, ?_⟩
  split at h
  · obtain ⟨rfl, rfl⟩ := Prod.mk.inj h
    exact ⟨by omega, .inr rfl⟩
  · obtain ⟨rfl, rfl⟩ := Prod.mk.inj h
    exact ⟨by omega, .inl ⟨_, rfl⟩⟩

theorem length_decimalDigits_digitsValue {digits : List UInt8} (hnonempty : digits ≠ [])
    (h : ∀ byte ∈ digits, isDigit byte) (fuel : Nat) :
    (decimalDigits fuel (digitsValue digits)).length ≤ digits.length := by
  obtain ⟨width, hwidth⟩ := Nat.exists_eq_succ_of_ne_zero
    (fun hzero => hnonempty (List.length_eq_zero_iff.1 hzero))
  have hbound := digitsValue_lt h
  rw [hwidth] at hbound ⊢
  exact length_decimalDigits_le hbound

/-- What an atom that was read may be. -/
theorem readAtom_cases {text rest : List UInt8} (h : readAtom text = some (value, rest)) :
    (∃ word ∈ words, value = word.2 ∧ rest = text.drop word.1.length) ∨
      readNumber text = some (value, rest) := by
  unfold readAtom at h
  split at h
  · rename_i word value' hfind
    obtain ⟨rfl, rfl⟩ := Prod.mk.inj (Option.some.inj h)
    exact .inl ⟨(word, value'), List.mem_of_find?_eq_some hfind, rfl, rfl⟩
  · exact .inr h

theorem readAtom_length {text rest : List UInt8} (h : readAtom text = some (value, rest))
    : rest.length ≤ text.length := by
  rcases readAtom_cases h with ⟨word, -, -, rfl⟩ | hnumber
  · simp
  · obtain ⟨digits, -, -, hlength, -⟩ := readNumber_cases hnumber
    omega

/-- An integer is paid for by its own digits. -/
theorem readAtom_int_length {text rest : List UInt8} {n : Int}
    (h : readAtom text = some (.int n, rest)) :
    (intText n).length + rest.length ≤ text.length := by
  rcases readAtom_cases h with ⟨word, hword, hvalue, -⟩ | hnumber
  · simp only [words, List.mem_cons, List.not_mem_nil, or_false] at hword
    rcases hword with rfl | rfl | rfl | rfl | rfl | rfl <;> cases hvalue
  · obtain ⟨digits, hnonempty, hdigits, hlength, hfloat | hvalue⟩ := readNumber_cases hnumber
    · obtain ⟨literal, hliteral⟩ := hfloat
      cases hliteral
    · have hshort := length_decimalDigits_digitsValue hnonempty hdigits (digitsValue digits + 1)
      rw [Value.int.inj hvalue]
      cases hsign : (readSign text).1 with
      | true =>
        have hneg := length_intText_neg (digitsValue digits)
        rw [hsign, Bool.toNat_true] at hlength
        simp only [if_true]
        omega
      | false =>
        rw [hsign, Bool.toNat_false] at hlength
        simp only [Bool.false_eq_true, if_false, intText_natCast]
        omega

theorem isAtom_of_readAtom {text rest : List UInt8} (h : readAtom text = some (value, rest))
    : value.isAtom := by
  rcases readAtom_cases h with ⟨word, hword, rfl, -⟩ | hnumber
  · have hwords : ∀ word ∈ words, word.2.isAtom := by decide
    exact hwords word hword
  · obtain ⟨digits, -, -, -, ⟨literal, rfl⟩ | rfl⟩ := readNumber_cases hnumber <;> rfl

theorem length_skipSpace_le (text : List UInt8) : (skipSpace text).length ≤ text.length :=
  List.length_dropWhile_le isSpace text

theorem readKey_cost {text key rest : List UInt8} (h : readKey text = some (key, rest)) :
    cost key + 3 + rest.length ≤ text.length := by
  unfold readKey at h
  split at h
  · rename_i tail
    simp only [Option.bind_eq_some_iff, Prod.exists] at h
    obtain ⟨key', after, hstring, h⟩ := h
    have hcost := readString_cost hstring
    have hspace := length_skipSpace_le after
    split at h
    · rename_i later hcolon
      obtain ⟨rfl, rfl⟩ := Prod.mk.inj (Option.some.inj h)
      have hspace' := length_skipSpace_le later
      rw [hcolon] at hspace
      simp only [List.length_cons] at hspace ⊢
      omega
    · cases h
  · cases h

/-- What a value that was read may be. -/
theorem readValue_cases {fuel : Nat} {text rest : List UInt8}
    (h : readValue fuel text = some (value, rest)) :
    (∃ string tail, value = .str string ∧ text.length = tail.length + 1 ∧
      readString tail.length tail = some (string, rest)) ∨
    (value = .obj (lastOf []) ∧ rest.length + 2 ≤ text.length) ∨
    (∃ members tail, value = .obj (lastOf members) ∧ tail.length + 1 ≤ text.length ∧
      readMembers (fuel - 1) tail = some (members, rest)) ∨
    (value = .arr [] ∧ rest.length + 2 ≤ text.length) ∨
    (∃ items tail, value = .arr items ∧ tail.length + 1 ≤ text.length ∧
      readItems (fuel - 1) tail = some (items, rest)) ∨
    readAtom text = some (value, rest) := by
  cases fuel with
  | zero => simp [readValue] at h
  | succ fuel =>
    cases text with
    | nil => simp [readValue] at h
    | cons byte tail =>
      have hspace := length_skipSpace_le tail
      rw [readValue] at h
      split at h
      · simp only [Option.map_eq_some_iff, Prod.exists, Prod.mk.injEq] at h
        obtain ⟨string, rest', hstring, rfl, rfl⟩ := h
        exact .inl ⟨string, tail, rfl, rfl, hstring⟩
      · split at h
        · split at h
          · rename_i after hclose
            obtain ⟨rfl, rfl⟩ := Prod.mk.inj (Option.some.inj h)
            rw [hclose, List.length_cons] at hspace
            exact .inr (.inl ⟨rfl, by rw [List.length_cons]; omega⟩)
          · simp only [Option.map_eq_some_iff, Prod.exists, Prod.mk.injEq] at h
            obtain ⟨members, rest', hmembers, rfl, rfl⟩ := h
            refine .inr (.inr (.inl ⟨members, _, rfl, ?_, hmembers⟩))
            simp only [List.length_cons]
            omega
        · split at h
          · split at h
            · rename_i after hclose
              obtain ⟨rfl, rfl⟩ := Prod.mk.inj (Option.some.inj h)
              rw [hclose, List.length_cons] at hspace
              exact .inr (.inr (.inr (.inl ⟨rfl, by rw [List.length_cons]; omega⟩)))
            · simp only [Option.map_eq_some_iff, Prod.exists, Prod.mk.injEq] at h
              obtain ⟨items, rest', hitems, rfl, rfl⟩ := h
              refine .inr (.inr (.inr (.inr (.inl ⟨items, _, rfl, ?_, hitems⟩))))
              simp only [List.length_cons]
              omega
          · exact .inr (.inr (.inr (.inr (.inr h))))

/-- The steps in which members are read. -/
theorem readMembers_cases {fuel : Nat} {text rest : List UInt8}
    {members : List (List UInt8 × Value)} (h : readMembers fuel text = some (members, rest)) :
    ∃ key value start after, cost key + 3 + start.length ≤ text.length ∧
      readValue (fuel - 1) start = some (value, after) ∧
      ((members = [(key, value)] ∧ rest.length + 1 ≤ after.length) ∨
        ∃ later tail, members = (key, value) :: later ∧ tail.length + 1 ≤ after.length ∧
          readMembers (fuel - 1) tail = some (later, rest)) := by
  cases fuel with
  | zero => simp [readMembers] at h
  | succ fuel =>
    simp only [readMembers, Option.bind_eq_some_iff, Prod.exists] at h
    obtain ⟨key, start, hkey, value, after, hvalue, h⟩ := h
    have hspace := length_skipSpace_le after
    refine ⟨key, value, start, after, readKey_cost hkey, hvalue, ?_⟩
    split at h
    · rename_i tail hcomma
      simp only [Option.map_eq_some_iff, Prod.exists, Prod.mk.injEq] at h
      obtain ⟨later, rest', hlater, rfl, rfl⟩ := h
      have htail := length_skipSpace_le tail
      rw [hcomma, List.length_cons] at hspace
      exact .inr ⟨later, _, rfl, by omega, hlater⟩
    · rename_i tail hclose
      obtain ⟨rfl, rfl⟩ := Prod.mk.inj (Option.some.inj h)
      rw [hclose, List.length_cons] at hspace
      exact .inl ⟨rfl, hspace⟩
    · cases h

theorem readItems_cases {fuel : Nat} {text rest : List UInt8} {items : List Value}
    (h : readItems fuel text = some (items, rest)) :
    ∃ item after, readValue (fuel - 1) text = some (item, after) ∧
      (rest.length ≤ after.length ∨
        ∃ later tail, tail.length ≤ after.length ∧
          readItems (fuel - 1) tail = some (later, rest)) := by
  cases fuel with
  | zero => simp [readItems] at h
  | succ fuel =>
    simp only [readItems, Option.bind_eq_some_iff, Prod.exists] at h
    obtain ⟨item, after, hitem, h⟩ := h
    have hspace := length_skipSpace_le after
    refine ⟨item, after, hitem, ?_⟩
    split at h
    · rename_i tail hcomma
      simp only [Option.map_eq_some_iff, Prod.exists, Prod.mk.injEq] at h
      obtain ⟨later, rest', hlater, rfl, rfl⟩ := h
      have htail := length_skipSpace_le tail
      rw [hcomma, List.length_cons] at hspace
      exact .inr ⟨later, _, by omega, hlater⟩
    · rename_i tail hclose
      obtain ⟨rfl, rfl⟩ := Prod.mk.inj (Option.some.inj h)
      rw [hclose, List.length_cons] at hspace
      exact .inl (by omega)
    · cases h

/-- The reader never adds to the text. -/
theorem read_length (fuel : Nat) :
    (∀ text rest value, readValue fuel text = some (value, rest) → rest.length ≤ text.length) ∧
    (∀ text rest members, readMembers fuel text = some (members, rest) →
      rest.length ≤ text.length) ∧
    (∀ text rest items, readItems fuel text = some (items, rest) → rest.length ≤ text.length) := by
  induction fuel with
  | zero =>
    refine ⟨fun _ _ _ h => ?_, fun _ _ _ h => ?_, fun _ _ _ h => ?_⟩
    · simp [readValue] at h
    · simp [readMembers] at h
    · simp [readItems] at h
  | succ fuel ih =>
    obtain ⟨ihvalue, ihmembers, ihitems⟩ := ih
    refine ⟨fun text rest value h => ?_, fun text rest members h => ?_,
      fun text rest items h => ?_⟩
    · rcases readValue_cases h with ⟨string, tail, -, htext, hread⟩ | ⟨-, hle⟩ |
        ⟨members, tail, -, htext, hread⟩ | ⟨-, hle⟩ | ⟨items, tail, -, htext, hread⟩ | hread
      · have hcost := readString_cost hread
        omega
      · omega
      · have hle := ihmembers _ _ _ hread
        omega
      · omega
      · have hle := ihitems _ _ _ hread
        omega
      · exact readAtom_length hread
    · obtain ⟨key, value, start, after, hkey, hvalue, hrest⟩ := readMembers_cases h
      rcases hrest with ⟨-, hlast⟩ | ⟨later, tail, -, htail, hlater⟩
      · have hle := ihvalue _ _ _ hvalue
        omega
      · have hle := ihvalue _ _ _ hvalue
        have hrest := ihmembers _ _ _ hlater
        omega
    · obtain ⟨item, after, hitem, hlast | ⟨later, tail, htail, hlater⟩⟩ := readItems_cases h
      · have hle := ihvalue _ _ _ hitem
        omega
      · have hle := ihvalue _ _ _ hitem
        have hrest := ihitems _ _ _ hlater
        omega

/-- However the value is written, it takes `n` bytes at least. -/
def Takes (value : Value) (n : Nat) : Prop :=
  ∀ fuel text rest, readValue fuel text = some (value, rest) → n + rest.length ≤ text.length

/-- A string takes its bytes, its escapes and two quotes. -/
theorem takes_str (string : List UInt8) : Takes (.str string) (cost string + 2) := by
  intro fuel text rest h
  rcases readValue_cases h with ⟨string', tail, hvalue, htext, hread⟩ | ⟨hvalue, -⟩ |
    ⟨_, _, hvalue, -⟩ | ⟨hvalue, -⟩ | ⟨_, _, hvalue, -⟩ | hread
  · cases hvalue
    have hcost := readString_cost hread
    omega
  · cases hvalue
  · cases hvalue
  · cases hvalue
  · cases hvalue
  · cases isAtom_of_readAtom hread

/-- An integer takes its decimal text. -/
theorem takes_int (n : Int) : Takes (.int n) (intText n).length := by
  intro fuel text rest h
  rcases readValue_cases h with ⟨_, _, hvalue, -⟩ | ⟨hvalue, -⟩ | ⟨_, _, hvalue, -⟩ |
    ⟨hvalue, -⟩ | ⟨_, _, hvalue, -⟩ | hread
  · cases hvalue
  · cases hvalue
  · cases hvalue
  · cases hvalue
  · cases hvalue
  · exact readAtom_int_length hread

/-- A member with the bytes its value takes. -/
structure Sized where
  key : List UInt8
  value : Value
  size : Nat

/-- What a member takes with its key, colon and separator. -/
def Sized.total (member : Sized) : Nat :=
  cost member.key + member.size + 4

/-- Every member that was read has its own part of the text. -/
theorem readMembers_sizes {fuel : Nat} {text rest : List UInt8}
    {members : List (List UInt8 × Value)} (h : readMembers fuel text = some (members, rest)) :
    ∃ sizes : List Sized, sizes.map (fun member => (member.key, member.value)) = members ∧
      (∀ member ∈ sizes, ∀ n, Takes member.value n → n ≤ member.size) ∧
      (sizes.map Sized.total).sum + rest.length ≤ text.length := by
  induction fuel generalizing text members with
  | zero => simp [readMembers] at h
  | succ fuel ih =>
    obtain ⟨key, value, start, after, hkey, hvalue, hrest⟩ := readMembers_cases h
    have hle := (read_length _).1 _ _ _ hvalue
    have hsize : ∀ n, Takes value n → n ≤ start.length - after.length := by
      intro n htakes
      have := htakes _ _ _ hvalue
      omega
    rcases hrest with ⟨rfl, hlast⟩ | ⟨later, tail, rfl, htail, hlater⟩
    · refine ⟨[⟨key, value, start.length - after.length⟩], rfl, by simpa using hsize, ?_⟩
      simp only [List.map_cons, List.map_nil, List.sum_cons, List.sum_nil, Sized.total]
      omega
    · obtain ⟨sizes, rfl, hsizes, hsum⟩ := ih hlater
      refine ⟨⟨key, value, start.length - after.length⟩ :: sizes, rfl, ?_, ?_⟩
      · rintro member (_ | ⟨_, hmem⟩)
        · exact hsize
        · exact hsizes member hmem
      · simp only [List.map_cons, List.sum_cons, Sized.total]
        omega

/-- Members with different keys that all occur in a list fit into it together. -/
theorem sum_total_le {wanted sizes : List Sized} (hnodup : (wanted.map Sized.key).Nodup)
    (h : ∀ member ∈ wanted, ∃ found ∈ sizes, found.key = member.key ∧
      member.size ≤ found.size) :
    (wanted.map Sized.total).sum ≤ (sizes.map Sized.total).sum := by
  induction wanted generalizing sizes with
  | nil => simp
  | cons member wanted ih =>
    rw [List.map_cons, List.nodup_cons] at hnodup
    obtain ⟨found, hfound, hkey, hsize⟩ := h member List.mem_cons_self
    obtain ⟨before, after, rfl⟩ := List.append_of_mem hfound
    have hothers : (wanted.map Sized.total).sum ≤ ((before ++ after).map Sized.total).sum := by
      refine ih hnodup.2 fun other hother => ?_
      obtain ⟨found', hfound', hkey', hsize'⟩ := h other (List.mem_cons_of_mem _ hother)
      refine ⟨found', ?_, hkey', hsize'⟩
      rcases List.mem_append.1 hfound' with hbefore | hafter
      · exact List.mem_append_left _ hbefore
      · rcases List.mem_cons.1 hafter with rfl | hafter
        · have hsame : other.key = member.key := hkey'.symm.trans hkey
          exact absurd (hsame ▸ List.mem_map_of_mem hother) hnodup.1
        · exact List.mem_append_right _ hafter
    simp only [List.map_append, List.sum_append, List.map_cons, List.sum_cons,
      Sized.total] at hothers ⊢
    rw [hkey]
    omega

/-- An object takes a byte, and for each key it has the bytes of a member. -/
theorem takes_obj {field : List UInt8 → Option Value} {wanted : List Sized}
    (hnodup : (wanted.map Sized.key).Nodup)
    (hfield : ∀ member ∈ wanted, field member.key = some member.value)
    (htakes : ∀ member ∈ wanted, Takes member.value member.size) :
    Takes (.obj field) (1 + (wanted.map Sized.total).sum) := by
  intro fuel text rest h
  rcases readValue_cases h with ⟨_, _, hvalue, -⟩ | ⟨hvalue, hle⟩ |
    ⟨members, tail, hvalue, htext, hread⟩ | ⟨hvalue, -⟩ | ⟨_, _, hvalue, -⟩ | hread
  · cases hvalue
  · -- the empty object has no keys
    have hnone : wanted = [] := List.eq_nil_iff_forall_not_mem.2 fun member hmem => by
      have hsome := hfield member hmem
      rw [Value.obj.inj hvalue] at hsome
      cases hsome
    rw [hnone, List.map_nil, List.sum_nil]
    omega
  · obtain ⟨sizes, rfl, hsizes, hsum⟩ := readMembers_sizes hread
    have hfit : (wanted.map Sized.total).sum ≤ (sizes.map Sized.total).sum := by
      refine sum_total_le hnodup fun member hmem => ?_
      have hsome := hfield member hmem
      rw [Value.obj.inj hvalue] at hsome
      obtain ⟨found, hfound, hsame⟩ := List.mem_map.1 (mem_of_lastOf hsome)
      obtain ⟨hkey, hval⟩ := Prod.mk.inj hsame
      exact ⟨found, hfound, hkey, hsizes found hfound _ (hval ▸ htakes member hmem)⟩
    omega
  · cases hvalue
  · cases hvalue
  · cases isAtom_of_readAtom hread

/-- A loaded value is paid for by the text. -/
theorem length_of_loads {text : List UInt8} {value : Value} {n : Nat}
    (h : loads text = some value) (htakes : Takes value n) : n ≤ text.length := by
  simp only [loads, Option.bind_eq_some_iff, Prod.exists] at h
  obtain ⟨value', rest, hread, hend⟩ := h
  split at hend
  · cases hend
    have hroom := htakes _ _ _ hread
    have hspace := length_skipSpace_le text
    omega
  · cases hend

end Json
