import Mathlib.Data.List.AList
import Mathlib.Data.List.Count
import Mathlib.Data.List.Perm.Basic
import Mathlib.Tactic.Common

/-!
# Unordered maps

Hash maps are association lists with distinct keys.  The order in which a hash
map is traversed is left to the implementation, so every traversal takes an
`IterationOrder`: a rearrangement of the key list about which nothing is known
beyond its being a permutation.

Main results:

- `UnorderedMap.subscript_touch`, `UnorderedMap.lookup_emplace` and
  `UnorderedMap.lookup_modify`: the three conditional updates, read back.
- `UnorderedMap.count_foldl_bump` and `UnorderedMap.mem_foldl_bump`: counting a list of keys
  into a map of counters.
-/

/-- The unspecified traversal order of a hash container. -/
structure IterationOrder (κ : Type*) where
  order : List κ → List κ
  perm : ∀ keys, (order keys).Perm keys

namespace IterationOrder

variable {κ : Type*}

/-- Traversal in insertion order, one of the permitted ones. -/
def insertion (κ : Type*) : IterationOrder κ where
  order keys := keys
  perm keys := List.Perm.refl keys

@[simp]
theorem mem_order (o : IterationOrder κ) {keys : List κ} {k : κ} : k ∈ o.order keys ↔ k ∈ keys :=
  (o.perm keys).mem_iff

theorem nodup_order (o : IterationOrder κ) {keys : List κ} (h : keys.Nodup) :
    (o.order keys).Nodup :=
  (o.perm keys).nodup_iff.2 h

end IterationOrder

/-- A hash map from `κ` to `ν`. -/
abbrev UnorderedMap (κ ν : Type*) := AList fun _ : κ => ν

namespace UnorderedMap

variable {κ ν : Type*} [DecidableEq κ]

/-- The value `operator[]` reads: a missing key counts as value-initialized. -/
def subscript [Inhabited ν] (m : UnorderedMap κ ν) (k : κ) : ν :=
  (m.lookup k).getD default

/-- `m[k];` as a statement: insert a value-initialized entry if there is none. -/
def touch [Inhabited ν] (m : UnorderedMap κ ν) (k : κ) : UnorderedMap κ ν :=
  if k ∈ m then m else m.insert k default

variable (m : UnorderedMap κ ν)

/-- `m.emplace(k, v)`: an existing entry is kept. -/
def emplace (k : κ) (v : ν) : UnorderedMap κ ν :=
  if k ∈ m then m else m.insert k v

/-- Update an entry through `find`; a missing key is left alone. -/
def modify (k : κ) (f : ν → ν) : UnorderedMap κ ν :=
  match m.lookup k with
  | some v => m.insert k (f v)
  | none => m

/-- Insertion, read back at any key. -/
theorem lookup_insert_eq (k j : κ) (v : ν) :
    (m.insert k v).lookup j = if j = k then some v else m.lookup j := by
  by_cases h : j = k
  · subst h
    simp
  · simp [h]

/-- Erasure, read back at any key. -/
theorem lookup_erase_eq (k j : κ) : (m.erase k).lookup j = if j = k then none else m.lookup j := by
  by_cases h : j = k
  · subst h
    simp
  · simp [h]

theorem mem_iff_lookup {m : UnorderedMap κ ν} {k : κ} : k ∈ m ↔ ∃ v, m.lookup k = some v := by
  rw [← AList.lookup_isSome, Option.isSome_iff_exists]

theorem subscript_insert [Inhabited ν] (m : UnorderedMap κ ν) (k j : κ) (v : ν) :
    subscript (m.insert k v) j = if j = k then v else subscript m j := by
  unfold subscript
  rw [lookup_insert_eq]
  split <;> rfl

theorem subscript_of_notMem [Inhabited ν] {m : UnorderedMap κ ν} {k : κ} (h : k ∉ m) :
    subscript m k = default := by
  unfold subscript
  rw [AList.lookup_eq_none.2 h]
  rfl

@[simp]
theorem mem_touch [Inhabited ν] {m : UnorderedMap κ ν} {k j : κ} :
    j ∈ touch m k ↔ j = k ∨ j ∈ m := by
  unfold touch
  split
  · rename_i h
    constructor
    · exact Or.inr
    · rintro (rfl | hj)
      · exact h
      · exact hj
  · exact AList.mem_insert m

/-- Touching an entry changes no value that `operator[]` reads. -/
@[simp]
theorem subscript_touch [Inhabited ν] (m : UnorderedMap κ ν) (k j : κ) :
    subscript (touch m k) j = subscript m j := by
  unfold touch
  split
  · rfl
  · rename_i h
    rw [subscript_insert]
    split
    · rename_i hjk
      rw [hjk, subscript_of_notMem h]
    · rfl

theorem mem_emplace {m : UnorderedMap κ ν} {k j : κ} {v : ν} :
    j ∈ emplace m k v ↔ j = k ∨ j ∈ m := by
  unfold emplace
  split
  · rename_i h
    constructor
    · exact Or.inr
    · rintro (rfl | hj)
      · exact h
      · exact hj
  · exact AList.mem_insert m

theorem lookup_emplace (m : UnorderedMap κ ν) (k j : κ) (v : ν) :
    (emplace m k v).lookup j = if j = k ∧ k ∉ m then some v else m.lookup j := by
  unfold emplace
  split
  · rename_i h
    simp [h]
  · rename_i h
    rw [lookup_insert_eq]
    simp [h]

theorem lookup_modify (m : UnorderedMap κ ν) (k j : κ) (f : ν → ν) :
    (modify m k f).lookup j = if j = k then (m.lookup j).map f else m.lookup j := by
  unfold modify
  split
  · rename_i v hv
    rw [lookup_insert_eq]
    split
    · rename_i hjk
      rw [hjk, hv, Option.map_some]
    · rfl
  · rename_i hv
    split
    · rename_i hjk
      rw [hjk, hv, Option.map_none]
    · rfl

@[simp]
theorem mem_modify {m : UnorderedMap κ ν} {k j : κ} {f : ν → ν} : j ∈ modify m k f ↔ j ∈ m := by
  rw [mem_iff_lookup, mem_iff_lookup, lookup_modify]
  split
  · simp [Option.map_eq_some_iff]
  · exact Iff.rfl

omit [DecidableEq κ] in
/-- A loop whose every iteration adds the key it is at adds exactly the listed keys. -/
theorem mem_foldl {body : UnorderedMap κ ν → κ → UnorderedMap κ ν}
    (hbody : ∀ m j k, k ∈ body m j ↔ k = j ∨ k ∈ m) (m : UnorderedMap κ ν) (ks : List κ) (k : κ) :
    k ∈ ks.foldl body m ↔ k ∈ m ∨ k ∈ ks := by
  induction ks generalizing m with
  | nil => simp
  | cons j ks ih =>
    rw [List.foldl_cons, ih, hbody, List.mem_cons]
    constructor
    · rintro ((rfl | hm) | hks)
      · exact Or.inr (Or.inl rfl)
      · exact Or.inl hm
      · exact Or.inr (Or.inr hks)
    · rintro (hm | rfl | hks)
      · exact Or.inl (Or.inr hm)
      · exact Or.inl (Or.inl rfl)
      · exact Or.inr hks

/-! ## Counters -/

/-- `++m[k]` on a map of counters. -/
def bump (m : UnorderedMap κ Nat) (k : κ) : UnorderedMap κ Nat :=
  m.insert k (subscript m k + 1)

/-- Counting a list into a map adds the multiplicity of every key. -/
theorem count_foldl_bump [BEq κ] [LawfulBEq κ] (m : UnorderedMap κ Nat) (ks : List κ)
    (k : κ) : subscript (ks.foldl bump m) k = subscript m k + ks.count k := by
  induction ks generalizing m with
  | nil => simp
  | cons j ks ih =>
    rw [List.foldl_cons, ih, bump, subscript_insert, List.count_cons]
    by_cases h : k = j
    · subst h
      simp
      omega
    · simp [h, Ne.symm h]

/-- Counting a list into a map adds exactly the listed keys. -/
theorem mem_foldl_bump (m : UnorderedMap κ Nat) (ks : List κ) (k : κ) :
    k ∈ ks.foldl bump m ↔ k ∈ m ∨ k ∈ ks :=
  mem_foldl (fun m _ _ => AList.mem_insert m) m ks k

/-! ## Initialization loops -/

/-- Writing one value under every listed key adds exactly the listed keys. -/
theorem mem_foldl_insert (m : UnorderedMap κ ν) (ks : List κ) (v : ν) (k : κ) :
    k ∈ ks.foldl (fun acc j => acc.insert j v) m ↔ k ∈ m ∨ k ∈ ks :=
  mem_foldl (fun m _ _ => AList.mem_insert m) m ks k

/-- Writing the default value under every listed key changes no reading. -/
theorem subscript_foldl_insert_default [Inhabited ν] (m : UnorderedMap κ ν)
    (hm : ∀ k, subscript m k = default) (ks : List κ) (k : κ) :
    subscript (ks.foldl (fun acc j => acc.insert j default) m) k = default := by
  induction ks generalizing m with
  | nil => exact hm k
  | cons j ks ih =>
    rw [List.foldl_cons]
    refine ih _ fun i => ?_
    rw [subscript_insert]
    split
    · rfl
    · exact hm i

end UnorderedMap
