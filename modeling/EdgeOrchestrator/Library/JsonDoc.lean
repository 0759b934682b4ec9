import EdgeOrchestrator.Library.Json
import EdgeOrchestrator.Library.Utf8

/-!
# Unescaped JSON documents

What becomes of documents that are written without escaping their strings.  If nothing
in a document needs to be escaped the text is read back; otherwise the text is too short
for any reader of JSON to find the document's value in it.

Main results:

- `Doc.reads_render`: documents without such bytes are read back.
- `Doc.loads_render_iff`: an unescaped text is read back exactly when nothing in it needs to be
  escaped.
- `Doc.isUtf8_render_iff`: the text is UTF-8 exactly when its strings are.
-/

namespace Json

/-! ## Reading plain texts -/

/-- Nothing in the string needs to be escaped. -/
def Plain (string : List UInt8) : Prop :=
  string.countP needsEscape = 0

instance : DecidablePred Plain := fun string =>
  inferInstanceAs (Decidable (string.countP needsEscape = 0))

theorem plain_iff {string : List UInt8} :
    Plain string ↔ ∀ byte ∈ string, byte ≠ 0x22 ∧ byte ≠ 0x5C ∧ 0x20 ≤ byte := by
  simp only [Plain, List.countP_eq_zero, needsEscape, Bool.or_eq_true, decide_eq_true_eq, not_or,
    UInt8.not_lt, and_assoc]

/-- A string between quotes, as it is. -/
def quoted (string : List UInt8) : List UInt8 :=
  0x22 :: (string ++ [0x22])

@[simp]
theorem length_quoted (string : List UInt8) : (quoted string).length = string.length + 2 := by
  simp [quoted]

/-- A string without escapes is read as it stands. -/
theorem readString_plain {string : List UInt8} (h : Plain string) {fuel : Nat}
    (hfuel : string.length < fuel) (rest : List UInt8) :
    readString fuel (string ++ 0x22 :: rest) = some (string, rest) := by
  rw [plain_iff] at h
  induction string generalizing fuel with
  | nil =>
    obtain ⟨fuel, rfl⟩ := Nat.exists_eq_succ_of_ne_zero (by omega : fuel ≠ 0)
    rfl
  | cons byte string ih =>
    obtain ⟨fuel, rfl⟩ := Nat.exists_eq_succ_of_ne_zero (by omega : fuel ≠ 0)
    obtain ⟨hquote, hbackslash, hprintable⟩ := h byte List.mem_cons_self
    have hlater : readString fuel (string ++ 0x22 :: rest) = some (string, rest) :=
      ih (fun byte hmem => h byte (List.mem_cons_of_mem _ hmem))
        (by rw [List.length_cons] at hfuel; omega)
    simp only [List.cons_append, readString, hquote, hbackslash, UInt8.not_lt.2 hprintable,
      if_false, hlater, Option.map_some]

/-- A separator, a closing brace or the end of the text. -/
def Ends (rest : List UInt8) : Prop :=
  ∀ byte ∈ rest.head?, byte = 0x2C ∨ byte = 0x7D

theorem ends_nil : Ends [] := by
  simp [Ends]

theorem ends_comma (rest : List UInt8) : Ends (0x2C :: rest) := by
  simp [Ends]

theorem ends_brace (rest : List UInt8) : Ends (0x7D :: rest) := by
  simp [Ends]

theorem Ends.cases {rest : List UInt8} (h : Ends rest) :
    rest = [] ∨ ∃ tail, rest = 0x2C :: tail ∨ rest = 0x7D :: tail := by
  cases rest with
  | nil => exact .inl rfl
  | cons byte tail =>
    rcases h byte (by simp) with rfl | rfl
    · exact .inr ⟨tail, .inl rfl⟩
    · exact .inr ⟨tail, .inr rfl⟩

theorem skipSpace_of_not_space {byte : UInt8} (h : isSpace byte = false) (rest : List UInt8) :
    skipSpace (byte :: rest) = byte :: rest := by
  simp [skipSpace, h]

/-! ### Numbers -/

variable {rest : List UInt8}

theorem readInteger_decimalDigits (n : Nat) (hrest : Ends rest) :
    readInteger (decimalDigits (n + 1) n ++ rest) = some (decimalDigits (n + 1) n, rest) := by
  have hdigits : ∀ byte ∈ decimalDigits (n + 1) n, isDigit byte :=
    fun byte => isDigit_of_mem_decimalDigits
  have hhead : ∀ tail, decimalDigits (n + 1) n = 0x30 :: tail → tail = [] :=
    fun tail => head_decimalDigits (Nat.lt_add_one n)
  have hstop : rest.takeWhile isDigit = [] ∧ rest.dropWhile isDigit = rest := by
    rcases hrest.cases with rfl | ⟨tail, rfl | rfl⟩ <;> exact ⟨rfl, rfl⟩
  obtain ⟨first, later, hsplit⟩ :=
    List.exists_cons_of_ne_nil (decimalDigits_ne_nil (Nat.lt_add_one n))
  rw [hsplit] at hdigits hhead ⊢
  rw [List.cons_append, readInteger]
  split
  · rename_i hzero
    subst hzero
    rw [hhead later rfl, List.nil_append]
  · rw [if_pos (hdigits first List.mem_cons_self), ← List.cons_append,
      List.takeWhile_append_of_pos hdigits, List.dropWhile_append_of_pos hdigits, hstop.1, hstop.2,
      List.append_nil]

theorem readFraction_of_ends (h : Ends rest) :
    readFraction rest = ([], rest) := by
  rcases h.cases with rfl | ⟨tail, rfl | rfl⟩ <;> rfl

theorem readExponent_of_ends (h : Ends rest) :
    readExponent rest = ([], rest) := by
  rcases h.cases with rfl | ⟨tail, rfl | rfl⟩ <;> rfl

/-- A digit, or a sign and a digit. -/
def startsNumber : List UInt8 → Bool
  | first :: second :: _ => isDigit first || (first = 0x2D && isDigit second)
  | [first] => isDigit first
  | [] => false

theorem readAtom_of_startsNumber {text : List UInt8} (h : startsNumber text) :
    readAtom text = readNumber text := by
  have hwords : ∀ word ∈ words, ∀ rest, ¬ startsNumber (word.1 ++ rest) := by
    intro word hword rest
    simp only [words, List.mem_cons, List.not_mem_nil, or_false] at hword
    rcases hword with rfl | rfl | rfl | rfl | rfl | rfl <;> exact Bool.false_ne_true
  have hnone : (words.find? fun word => word.1.isPrefixOf text) = none := by
    refine List.find?_eq_none.2 fun word hword hstart => ?_
    obtain ⟨rest, rfl⟩ := List.isPrefixOf_iff_prefix.1 hstart
    exact hwords word hword rest h
  rw [readAtom, hnone]

theorem startsNumber_of_isDigit {first : UInt8} (h : isDigit first) (rest : List UInt8) :
    startsNumber (first :: rest) := by
  cases rest <;> simp [startsNumber, h]

/-- How the text of an integer begins. -/
theorem intText_cases (n : Int) :
    (∃ first later, intText n = first :: later ∧ isDigit first ∧ 0 ≤ n ∧
      intText n = decimalDigits (n.natAbs + 1) n.natAbs) ∨
    (∃ first later, intText n = 0x2D :: first :: later ∧ isDigit first ∧ n < 0 ∧
      first :: later = decimalDigits (n.natAbs + 1) n.natAbs) := by
  obtain ⟨first, later, hsplit⟩ :=
    List.exists_cons_of_ne_nil (decimalDigits_ne_nil (Nat.lt_add_one n.natAbs))
  have hdigit : isDigit first :=
    isDigit_of_mem_decimalDigits (hsplit ▸ List.mem_cons_self)
  by_cases hneg : n < 0
  · exact .inr ⟨first, later, by rw [intText, if_pos hneg, hsplit], hdigit, hneg, hsplit.symm⟩
  · have htext : intText n = decimalDigits (n.natAbs + 1) n.natAbs := if_neg hneg
    exact .inl ⟨first, later, htext.trans hsplit, hdigit, by omega, htext⟩

/-- An integer is read back from its text. -/
theorem readNumber_intText (n : Int) (hrest : Ends rest) :
    readNumber (intText n ++ rest) = some (.int n, rest) := by
  have hinteger := readInteger_decimalDigits n.natAbs hrest
  have hvalue := digitsValue_decimalDigits (Nat.lt_add_one n.natAbs)
  rcases intText_cases n with ⟨first, later, htext, hdigit, hnonneg, hdigits⟩ |
    ⟨first, later, htext, -, hneg, hdigits⟩
  · have hsign : readSign (intText n ++ rest) = (false, intText n ++ rest) := by
      rw [htext, List.cons_append, readSign]
      intro tail hminus
      rw [(List.cons.inj hminus).1] at hdigit
      cases hdigit
    rw [hdigits] at hsign ⊢
    simp only [readNumber, hsign, hinteger, Option.map_some, readFraction_of_ends hrest,
      readExponent_of_ends hrest, and_self, if_true, hvalue, Bool.false_eq_true, if_false,
      Int.natAbs_of_nonneg hnonneg]
  · have hsign : readSign (intText n ++ rest) =
        (true, decimalDigits (n.natAbs + 1) n.natAbs ++ rest) := by
      rw [htext, ← hdigits]
      rfl
    have hnegated : -(n.natAbs : Int) = n := by omega
    simp only [readNumber, hsign, hinteger, Option.map_some, readFraction_of_ends hrest,
      readExponent_of_ends hrest, and_self, if_true, hvalue, hnegated]

theorem readValue_intText (n : Int) (hrest : Ends rest) (fuel : Nat) :
    readValue (fuel + 1) (intText n ++ rest) = some (.int n, rest) := by
  have hnumber := readNumber_intText n hrest
  have hne : ∀ byte : UInt8, isDigit byte → byte ≠ 0x22 ∧ byte ≠ 0x7B ∧ byte ≠ 0x5B := by
    intro byte hdigit
    refine ⟨?_, ?_, ?_⟩ <;> rintro rfl <;> cases hdigit
  rcases intText_cases n with ⟨first, later, htext, hdigit, -, -⟩ |
    ⟨first, later, htext, hdigit, -, -⟩
  · obtain ⟨hquote, hbrace, hbracket⟩ := hne first hdigit
    rw [htext, List.cons_append] at hnumber ⊢
    rw [readValue, if_neg hquote, if_neg hbrace, if_neg hbracket,
      readAtom_of_startsNumber (startsNumber_of_isDigit hdigit _), hnumber]
  · rw [htext, List.cons_append, List.cons_append] at hnumber ⊢
    have hstart : startsNumber (0x2D :: first :: (later ++ rest)) := by
      simp [startsNumber, hdigit]
    rw [readValue, if_neg (by decide), if_neg (by decide), if_neg (by decide),
      readAtom_of_startsNumber hstart, hnumber]

/-! ## Documents -/

mutual

/-- A document of strings, integers and objects with members. -/
inductive Doc where
  | str (string : List UInt8)
  | int (n : Int)
  | obj (members : Members)

/-- The members of an object, at least one. -/
inductive Members where
  | last (key : List UInt8) (doc : Doc)
  | more (key : List UInt8) (doc : Doc) (later : Members)

end

mutual

/-- The value a document stands for. -/
def Doc.value : Doc → Value
  | .str string => .str string
  | .int n => .int n
  | .obj members => .obj (lastOf members.values)

/-- The keys with their values, in order. -/
def Members.values : Members → List (List UInt8 × Value)
  | .last key doc => [(key, doc.value)]
  | .more key doc later => (key, doc.value) :: later.values

end

mutual

/-- The document as text, its strings between quotes as they are. -/
def Doc.render : Doc → List UInt8
  | .str string => quoted string
  | .int n => intText n
  | .obj members => 0x7B :: members.render

/-- The members and the closing brace. -/
def Members.render : Members → List UInt8
  | .last key doc => quoted key ++ 0x3A :: (doc.render ++ [0x7D])
  | .more key doc later => quoted key ++ 0x3A :: (doc.render ++ 0x2C :: later.render)

end

mutual

/-- The strings of a document, its keys among them. -/
def Doc.strings : Doc → List (List UInt8)
  | .str string => [string]
  | .int _ => []
  | .obj members => members.strings

/-- The keys and the strings below them. -/
def Members.strings : Members → List (List UInt8)
  | .last key doc => key :: doc.strings
  | .more key doc later => key :: (doc.strings ++ later.strings)

end

mutual

/-- No object has two members with one key. -/
def Doc.Distinct : Doc → Prop
  | .str _ => True
  | .int _ => True
  | .obj members => (members.values.map Prod.fst).Nodup ∧ members.Distinct

/-- No object below repeats a key. -/
def Members.Distinct : Members → Prop
  | .last _ doc => doc.Distinct
  | .more _ doc later => doc.Distinct ∧ later.Distinct

end

/-- The bytes of strings that should have been escaped. -/
def escapes (strings : List (List UInt8)) : Nat :=
  (strings.map (List.countP needsEscape)).sum

@[simp] theorem escapes_nil : escapes [] = 0 := rfl

@[simp]
theorem escapes_cons (string : List UInt8) (strings : List (List UInt8)) :
    escapes (string :: strings) = string.countP needsEscape + escapes strings := rfl

@[simp]
theorem escapes_append (first second : List (List UInt8)) :
    escapes (first ++ second) = escapes first + escapes second := by
  simp [escapes]

/-- No escape is needed exactly when all is plain. -/
theorem escapes_eq_zero_iff {strings : List (List UInt8)} :
    escapes strings = 0 ↔ ∀ string ∈ strings, Plain string := by
  induction strings with
  | nil => simp
  | cons string strings ih =>
    rw [escapes_cons, Nat.add_eq_zero_iff, ih, List.forall_mem_cons]
    rfl

/-- With distinct keys the lookup finds the member. -/
theorem lastOf_of_nodup {members : List (List UInt8 × Value)}
    (hnodup : (members.map Prod.fst).Nodup) {key : List UInt8} {value : Value}
    (h : (key, value) ∈ members) : lastOf members key = some value := by
  induction members with
  | nil => cases h
  | cons member members ih =>
    obtain ⟨key', value'⟩ := member
    rw [List.map_cons, List.nodup_cons] at hnodup
    rw [lastOf]
    rcases List.mem_cons.1 h with hsame | hlater
    · cases hsame
      have hnone : lastOf members key = none := by
        by_contra hsome
        obtain ⟨value', hvalue'⟩ := Option.ne_none_iff_exists'.1 hsome
        exact hnodup.1 (List.mem_map.2 ⟨(key, value'), mem_of_lastOf hvalue', rfl⟩)
      rw [hnone, if_pos rfl]
      rfl
    · rw [ih hnodup.2 hlater]
      rfl

mutual

/-- However a document's value is written, there is room for its escapes. -/
theorem Doc.takes_value (doc : Doc) (h : doc.Distinct) :
    Takes doc.value (doc.render.length + escapes doc.strings) := by
  cases doc with
  | str string =>
    have htakes := takes_str string
    have hsize : (Doc.str string).render.length + escapes (Doc.str string).strings =
        cost string + 2 := by
      simp only [Doc.render, Doc.strings, length_quoted, escapes_cons, escapes_nil, cost]
      omega
    rw [hsize]
    exact htakes
  | int n => exact takes_int n
  | obj members =>
    obtain ⟨hnodup, hmembers⟩ := h
    obtain ⟨wanted, hvalues, htakes, hsum⟩ := members.takes_values hmembers
    have hkeys : (wanted.map Sized.key).Nodup := by
      rw [← hvalues, List.map_map] at hnodup
      exact hnodup
    have hfield : ∀ member ∈ wanted, lastOf members.values member.key = some member.value := by
      intro member hmem
      refine lastOf_of_nodup hnodup ?_
      rw [← hvalues]
      exact List.mem_map_of_mem hmem
    have hobj := takes_obj hkeys hfield htakes
    have hsize : (Doc.obj members).render.length + escapes (Doc.obj members).strings =
        1 + (wanted.map Sized.total).sum := by
      simp only [Doc.render, Doc.strings, List.length_cons, hsum]
      omega
    rw [hsize]
    exact hobj

theorem Members.takes_values (members : Members) (h : members.Distinct) :
    ∃ wanted : List Sized,
      wanted.map (fun member => (member.key, member.value)) = members.values ∧
      (∀ member ∈ wanted, Takes member.value member.size) ∧
      (wanted.map Sized.total).sum = members.render.length + escapes members.strings := by
  cases members with
  | last key doc =>
    have hdoc := doc.takes_value h
    refine ⟨[⟨key, doc.value, doc.render.length + escapes doc.strings⟩], rfl, ?_, ?_⟩
    · simpa using hdoc
    · simp only [List.map_cons, List.map_nil, List.sum_cons, List.sum_nil, Sized.total, cost,
        Members.render, Members.strings, escapes_cons, List.length_append, List.length_cons,
        length_quoted, List.length_nil]
      omega
  | more key doc later =>
    obtain ⟨hfirst, hrest⟩ := h
    have hdoc := doc.takes_value hfirst
    obtain ⟨wanted, hvalues, htakes, hsum⟩ := later.takes_values hrest
    refine ⟨⟨key, doc.value, doc.render.length + escapes doc.strings⟩ :: wanted, ?_, ?_, ?_⟩
    · rw [List.map_cons, hvalues]
      rfl
    · rintro member (_ | ⟨_, hmem⟩)
      · exact hdoc
      · exact htakes member hmem
    · simp only [List.map_cons, List.sum_cons, hsum, Sized.total, cost, Members.render,
        Members.strings, escapes_cons, escapes_append, List.length_append, List.length_cons,
        length_quoted]
      omega

end

/-! ### Reading them back -/

theorem Members.render_cases (members : Members) : ∃ tail, members.render = 0x22 :: tail := by
  cases members <;> exact ⟨_, rfl⟩

theorem Members.exists_render (members : Members) :
    ∃ middle, members.render = middle ++ [0x7D] := by
  cases members with
  | last key doc => exact ⟨quoted key ++ 0x3A :: doc.render, by simp [Members.render]⟩
  | more key doc later =>
    obtain ⟨middle, hlater⟩ := later.exists_render
    exact ⟨quoted key ++ 0x3A :: (doc.render ++ 0x2C :: middle), by simp [Members.render, hlater]⟩

theorem Doc.skipSpace_render (doc : Doc) (rest : List UInt8) :
    skipSpace (doc.render ++ rest) = doc.render ++ rest := by
  cases doc with
  | str string | obj members => rfl
  | int n =>
    have hdigit : ∀ byte : UInt8, isDigit byte → isSpace byte = false := by
      intro byte hdigit
      simp only [isSpace, Bool.or_eq_false_iff, decide_eq_false_iff_not]
      refine ⟨⟨⟨?_, ?_⟩, ?_⟩, ?_⟩ <;> rintro rfl <;> cases hdigit
    rcases intText_cases n with ⟨first, later, htext, hfirst, -⟩ | ⟨first, later, htext, -⟩
    · simp only [Doc.render, htext, List.cons_append,
        skipSpace_of_not_space (hdigit first hfirst)]
    · simp only [Doc.render, htext]
      rfl

theorem readKey_quoted {key : List UInt8} (h : Plain key) (rest : List UInt8) :
    readKey (quoted key ++ 0x3A :: rest) = some (key, skipSpace rest) := by
  have hread : readString (key ++ [0x22] ++ 0x3A :: rest).length (key ++ [0x22] ++ 0x3A :: rest) =
      some (key, 0x3A :: rest) := by
    rw [List.append_assoc]
    exact readString_plain h (by simp) (0x3A :: rest)
  rw [quoted, List.cons_append, readKey, hread]
  rfl

theorem readValue_brace (fuel : Nat) (tail : List UInt8) :
    readValue (fuel + 1) (0x7B :: 0x22 :: tail) =
      (readMembers fuel (0x22 :: tail)).map fun read => (.obj (lastOf read.1), read.2) := by
  rw [readValue]
  rfl

theorem readMembers_brace {fuel : Nat} {text start rest key : List UInt8} {value : Value}
    (hkey : readKey text = some (key, start))
    (hvalue : readValue fuel start = some (value, 0x7D :: rest)) :
    readMembers (fuel + 1) text = some ([(key, value)], rest) := by
  simp only [readMembers, hkey, Option.bind_some, hvalue]
  rfl

theorem readMembers_comma {fuel : Nat} {text start rest key : List UInt8} {value : Value}
    (hkey : readKey text = some (key, start))
    (hvalue : readValue fuel start = some (value, 0x2C :: rest)) :
    readMembers (fuel + 1) text =
      (readMembers fuel (skipSpace rest)).map fun read => ((key, value) :: read.1, read.2) := by
  simp only [readMembers, hkey, Option.bind_some, hvalue]
  rfl

mutual

/-- Documents in which nothing needs to be escaped are read back. -/
theorem Doc.reads_render (doc : Doc) (h : ∀ string ∈ doc.strings, Plain string) {fuel : Nat}
    (hfuel : doc.render.length ≤ fuel) {rest : List UInt8} (hrest : Ends rest) :
    readValue fuel (doc.render ++ rest) = some (doc.value, rest) := by
  cases doc with
  | str string =>
    simp only [Doc.render, length_quoted] at hfuel
    obtain ⟨fuel, rfl⟩ := Nat.exists_eq_succ_of_ne_zero (by omega : fuel ≠ 0)
    have hplain : Plain string := h string (by simp [Doc.strings])
    have hread : ∀ fuel, string.length < fuel →
        readString fuel (string ++ [0x22] ++ rest) = some (string, rest) := by
      intro fuel hlt
      rw [List.append_assoc]
      exact readString_plain hplain hlt rest
    simp only [Doc.render, quoted, List.cons_append, readValue, if_true]
    rw [hread _ (by simp only [List.length_append, List.length_singleton]; omega)]
    rfl
  | int n =>
    have hnonempty : 0 < (intText n).length := by
      rcases intText_cases n with ⟨first, later, htext, -⟩ | ⟨first, later, htext, -⟩ <;>
        simp [htext]
    simp only [Doc.render] at hfuel
    obtain ⟨fuel, rfl⟩ := Nat.exists_eq_succ_of_ne_zero (by omega : fuel ≠ 0)
    exact readValue_intText n hrest fuel
  | obj members =>
    simp only [Doc.render, List.length_cons] at hfuel
    obtain ⟨fuel, rfl⟩ := Nat.exists_eq_succ_of_ne_zero (by omega : fuel ≠ 0)
    have hmembers : readMembers fuel (members.render ++ rest) = some (members.values, rest) :=
      members.reads_render h (by omega) rest
    obtain ⟨tail, hquote⟩ := members.render_cases
    rw [hquote, List.cons_append] at hmembers
    rw [Doc.render, hquote, List.cons_append, List.cons_append, readValue_brace, hmembers]
    rfl

theorem Members.reads_render (members : Members)
    (h : ∀ string ∈ members.strings, Plain string) {fuel : Nat}
    (hfuel : members.render.length ≤ fuel) (rest : List UInt8) :
    readMembers fuel (members.render ++ rest) = some (members.values, rest) := by
  cases members with
  | last key doc =>
    simp only [Members.strings, List.forall_mem_cons] at h
    simp only [Members.render, List.length_append, List.length_cons, length_quoted] at hfuel
    obtain ⟨fuel, rfl⟩ := Nat.exists_eq_succ_of_ne_zero (by omega : fuel ≠ 0)
    have hvalue : readValue fuel (doc.render ++ 0x7D :: rest) =
        some (doc.value, 0x7D :: rest) :=
      doc.reads_render h.2 (by omega) (ends_brace rest)
    have hkey := readKey_quoted h.1 (doc.render ++ 0x7D :: rest)
    rw [doc.skipSpace_render] at hkey
    simp only [Members.render, List.append_assoc, List.cons_append, List.nil_append]
    exact readMembers_brace hkey hvalue
  | more key doc later =>
    simp only [Members.strings, List.forall_mem_cons, List.forall_mem_append] at h
    simp only [Members.render, List.length_append, List.length_cons, length_quoted] at hfuel
    obtain ⟨fuel, rfl⟩ := Nat.exists_eq_succ_of_ne_zero (by omega : fuel ≠ 0)
    have hvalue : readValue fuel (doc.render ++ 0x2C :: (later.render ++ rest)) =
        some (doc.value, 0x2C :: (later.render ++ rest)) :=
      doc.reads_render h.2.1 (by omega) (ends_comma _)
    have hlater : readMembers fuel (later.render ++ rest) = some (later.values, rest) :=
      later.reads_render h.2.2 (by omega) rest
    have hspace : skipSpace (later.render ++ rest) = later.render ++ rest := by
      obtain ⟨tail, hquote⟩ := later.render_cases
      rw [hquote]
      rfl
    have hkey := readKey_quoted h.1 (doc.render ++ 0x2C :: (later.render ++ rest))
    rw [doc.skipSpace_render] at hkey
    simp only [Members.render, List.append_assoc, List.cons_append]
    rw [readMembers_comma hkey hvalue, hspace, hlater]
    rfl

end

/-- A plain document loads as its value. -/
theorem Doc.loads_render {doc : Doc} (h : ∀ string ∈ doc.strings, Plain string) :
    loads doc.render = some doc.value := by
  have hspace := doc.skipSpace_render []
  have hread := doc.reads_render h (le_refl _) ends_nil
  rw [List.append_nil] at hspace hread
  rw [loads, hspace, hread]
  rfl

/-- An unescaped text is read back exactly when nothing in it needs to be escaped. -/
theorem Doc.loads_render_iff {doc : Doc} (h : doc.Distinct) :
    loads doc.render = some doc.value ↔ ∀ string ∈ doc.strings, Plain string := by
  refine ⟨fun hloads => ?_, Doc.loads_render⟩
  have hlength := length_of_loads hloads (doc.takes_value h)
  exact escapes_eq_zero_iff.1 (by omega)

/-! ### Bytes of the text -/

theorem le_of_mem_quoted {string : List UInt8} (h : Plain string) {byte : UInt8}
    (hmem : byte ∈ quoted string) : 0x20 ≤ byte := by
  simp only [quoted, List.mem_cons, List.mem_append, List.not_mem_nil, or_false] at hmem
  rcases hmem with rfl | hstring | rfl
  · decide
  · exact (plain_iff.1 h byte hstring).2.2
  · decide

theorem le_of_mem_intText {n : Int} {byte : UInt8} (hmem : byte ∈ intText n) : 0x20 ≤ byte := by
  have hdigits : byte ∈ decimalDigits (n.natAbs + 1) n.natAbs → 0x20 ≤ byte := by
    intro hdigit
    have hrange := isDigit_iff.1 (isDigit_of_mem_decimalDigits hdigit)
    have hle : (0x20 : UInt8).toNat ≤ byte.toNat := le_trans (by decide) hrange.1
    exact hle
  rw [intText] at hmem
  split at hmem
  · rcases List.mem_cons.1 hmem with rfl | hdigit
    · decide
    · exact hdigits hdigit
  · exact hdigits hmem

mutual

/-- No control characters but those of the strings. -/
theorem Doc.le_of_mem_render (doc : Doc) (h : ∀ string ∈ doc.strings, Plain string)
    {byte : UInt8} (hmem : byte ∈ doc.render) : 0x20 ≤ byte := by
  cases doc with
  | str string => exact le_of_mem_quoted (h string (by simp [Doc.strings])) hmem
  | int n => exact le_of_mem_intText hmem
  | obj members =>
    rcases List.mem_cons.1 hmem with rfl | hmembers
    · decide
    · exact members.le_of_mem_render h hmembers

theorem Members.le_of_mem_render (members : Members)
    (h : ∀ string ∈ members.strings, Plain string) {byte : UInt8}
    (hmem : byte ∈ members.render) : 0x20 ≤ byte := by
  cases members with
  | last key doc =>
    simp only [Members.strings, List.forall_mem_cons] at h
    simp only [Members.render, List.mem_append, List.mem_cons, List.not_mem_nil,
      or_false] at hmem
    rcases hmem with hkey | rfl | hdoc | rfl
    · exact le_of_mem_quoted h.1 hkey
    · decide
    · exact doc.le_of_mem_render h.2 hdoc
    · decide
  | more key doc later =>
    simp only [Members.strings, List.forall_mem_cons, List.forall_mem_append] at h
    simp only [Members.render, List.mem_append, List.mem_cons] at hmem
    rcases hmem with hkey | rfl | hdoc | rfl | hlater
    · exact le_of_mem_quoted h.1 hkey
    · decide
    · exact doc.le_of_mem_render h.2.1 hdoc
    · decide
    · exact later.le_of_mem_render h.2.2 hlater

end

open Utf8

theorem isUtf8_quoted_iff {string : List UInt8} : IsUtf8 (quoted string) ↔ IsUtf8 string := by
  rw [quoted, isUtf8_cons_ascii_iff (by decide), isUtf8_append_ascii_iff (by decide)]
  exact and_iff_left isUtf8_nil

theorem isUtf8_intText (n : Int) : IsUtf8 (intText n) := by
  have hdigits : IsUtf8 (decimalDigits (n.natAbs + 1) n.natAbs) := by
    refine isUtf8_of_ascii fun byte hmem => ?_
    have hdigit := isDigit_iff.1 (isDigit_of_mem_decimalDigits hmem)
    omega
  rw [intText]
  split
  · exact (isUtf8_cons_ascii_iff (by decide)).2 hdigits
  · exact hdigits

mutual

/-- The text is UTF-8 exactly when the strings are. -/
theorem Doc.isUtf8_render_iff (doc : Doc) :
    IsUtf8 doc.render ↔ ∀ string ∈ doc.strings, IsUtf8 string := by
  cases doc with
  | str string => simp [Doc.render, Doc.strings, isUtf8_quoted_iff]
  | int n => simp [Doc.render, Doc.strings, isUtf8_intText]
  | obj members =>
    rw [Doc.render, isUtf8_cons_ascii_iff (by decide)]
    exact members.isUtf8_render_iff

theorem Members.isUtf8_render_iff (members : Members) :
    IsUtf8 members.render ↔ ∀ string ∈ members.strings, IsUtf8 string := by
  cases members with
  | last key doc =>
    rw [Members.render, Members.strings, isUtf8_append_ascii_iff (by decide),
      isUtf8_quoted_iff, isUtf8_append_ascii_iff (by decide), doc.isUtf8_render_iff,
      List.forall_mem_cons]
    simp only [isUtf8_nil, and_true]
  | more key doc later =>
    rw [Members.render, Members.strings, isUtf8_append_ascii_iff (by decide),
      isUtf8_quoted_iff, isUtf8_append_ascii_iff (by decide), doc.isUtf8_render_iff,
      later.isUtf8_render_iff, List.forall_mem_cons, List.forall_mem_append]

end

end Json
