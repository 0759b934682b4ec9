import Mathlib.Algebra.BigOperators.Group.Finset.Sigma
import Mathlib.Algebra.Order.BigOperators.Group.Finset
import Mathlib.Data.Finset.Sort
import Mathlib.Order.Antichain
import Mathlib.Order.Preorder.Finite

/-!
# Chain covers

Dilworth's theorem for a finite part of a partial order: if no antichain has more
than `k` elements, the elements can be colored with `k` colors so that elements of
one color are comparable.  The proof removes one chain at a time, through a maximal
element.

In the weighted form every element asks for a number of addresses, and elements
that are not comparable may not share one.  The antichains bound the number of
addresses from below; a layout of that size always exists.

Main results:

- `ChainCover.exists_coloring`: Dilworth's theorem.
- `ChainCover.nonempty_layout_iff`: a layout with a given number of addresses exists exactly
  when no antichain asks for more.
-/

namespace ChainCover

open Finset

variable {α : Type*} [PartialOrder α] {S : Finset α} {k : ℕ}

/-- Elements of one color are comparable, and there are `k` colors. -/
structure Coloring (S : Finset α) (k : ℕ) (color : α → ℕ) : Prop where
  lt : ∀ v ∈ S, color v < k
  comparable : ∀ u ∈ S, ∀ v ∈ S, color u = color v → u ≤ v ∨ v ≤ u

/-- No antichain has more than `k` elements. -/
def WidthLe (S : Finset α) (k : ℕ) : Prop :=
  ∀ A ⊆ S, IsAntichain (· ≤ ·) (A : Set α) → A.card ≤ k

theorem WidthLe.mono {T : Finset α} (hwidth : WidthLe S k) (hsub : T ⊆ S) : WidthLe T k :=
  fun A hA hanti => hwidth A (hA.trans hsub) hanti

/-- A nonempty set has an antichain of one element. -/
theorem WidthLe.pos (hwidth : WidthLe S k) {a : α} (ha : a ∈ S) : 0 < k := by
  have hone := hwidth {a} (singleton_subset_iff.2 ha) (by simp)
  rw [card_singleton] at hone
  exact hone

/-- An antichain with as many elements as there are colors has one of each color. -/
theorem Coloring.exists_mem_of_card {color : α → ℕ} (hcolor : Coloring S k color)
    {A : Finset α} (hA : A ⊆ S) (hanti : IsAntichain (· ≤ ·) (A : Set α)) (hcard : A.card = k)
    {i : ℕ} (hi : i < k) : ∃ v ∈ A, color v = i := by
  have hinj : Set.InjOn color A := by
    intro u hu v hv huv
    rcases hcolor.comparable u (hA hu) v (hA hv) huv with hle | hle
    · exact hanti.eq hu hv hle
    · exact (hanti.eq hv hu hle).symm
  have himage : A.image color = range k := by
    apply eq_of_subset_of_card_le
    · intro c hc
      rcases mem_image.1 hc with ⟨v, hv, rfl⟩
      exact mem_range.2 (hcolor.lt v (hA hv))
    · rw [card_range, card_image_of_injOn hinj, hcard]
  have hmem : i ∈ A.image color := by
    rw [himage]
    exact mem_range.2 hi
  exact mem_image.1 hmem

/-- `v` lies in an antichain of `k` elements. -/
def OnWidest (S : Finset α) (k : ℕ) (v : α) : Prop :=
  ∃ A ⊆ S, IsAntichain (· ≤ ·) (A : Set α) ∧ A.card = k ∧ v ∈ A

/-- In every color there is a highest element that lies on a widest antichain. -/
theorem Coloring.exists_highest {color : α → ℕ} (hcolor : Coloring S k color)
    {A : Finset α} (hA : A ⊆ S) (hanti : IsAntichain (· ≤ ·) (A : Set α)) (hcard : A.card = k)
    {i : ℕ} (hi : i < k) :
    ∃ x ∈ S, color x = i ∧ OnWidest S k x ∧
      ∀ z ∈ S, color z = i → OnWidest S k z → z ≤ x := by
  classical
  rcases hcolor.exists_mem_of_card hA hanti hcard hi with ⟨v, hv, hvi⟩
  obtain ⟨x, hx⟩ := (S.filter fun z => color z = i ∧ OnWidest S k z).exists_maximal
    ⟨v, mem_filter.2 ⟨hA hv, hvi, A, hA, hanti, hcard, hv⟩⟩
  rcases mem_filter.1 hx.1 with ⟨hxS, hxi, hwidest⟩
  refine ⟨x, hxS, hxi, hwidest, ?_⟩
  intro z hz hzi hzwidest
  rcases hcolor.comparable z hz x hxS (hzi.trans hxi.symm) with hle | hle
  · exact hle
  · exact hx.2 (mem_filter.2 ⟨hz, hzi, hzwidest⟩) hle

/-- `x i` is the highest element of color `i` that lies on a widest antichain. -/
def Highest (S : Finset α) (k : ℕ) (color : α → ℕ) (x : ℕ → α) : Prop :=
  ∀ i < k, x i ∈ S ∧ color (x i) = i ∧ OnWidest S k (x i) ∧
    ∀ z ∈ S, color z = i → OnWidest S k z → z ≤ x i

/-- The highest elements form an antichain. -/
theorem Highest.not_le {color : α → ℕ} {x : ℕ → α} (hx : Highest S k color x)
    (hcolor : Coloring S k color) {i j : ℕ} (hi : i < k) (hj : j < k) (hne : i ≠ j) :
    ¬ x i ≤ x j := by
  intro hle
  rcases hx j hj with ⟨-, hxj, ⟨A, hA, hanti, hcard, hmem⟩, -⟩
  -- The antichain through `x j` meets the color of `x i` below `x i`.
  rcases hcolor.exists_mem_of_card hA hanti hcard hi with ⟨y, hy, hyi⟩
  have hyx : y ≤ x i := (hx i hi).2.2.2 y (hA hy) hyi ⟨A, hA, hanti, hcard, hy⟩
  have heq : y = x j := hanti.eq hy hmem (hyx.trans hle)
  rw [heq, hxj] at hyi
  exact hne hyi.symm

/-- The highest elements and a further maximal one are too many for an antichain. -/
theorem Highest.exists_le [DecidableEq α] {T : Finset α} {color : α → ℕ} {x : ℕ → α}
    (hx : Highest S k color x) (hcolor : Coloring S k color) (hsub : S ⊆ T)
    (hwidth : WidthLe T k) {a : α} (ha : a ∈ T) (hmax : ∀ v ∈ T, a ≤ v → v = a) :
    ∃ i < k, x i ≤ a := by
  by_contra hnone
  push Not at hnone
  have hinj : Set.InjOn x (range k : Set ℕ) := by
    intro i hi j hj hij
    rw [← (hx i (mem_range.1 hi)).2.1, hij, (hx j (mem_range.1 hj)).2.1]
  have hfresh : a ∉ (range k).image x := by
    intro hmem
    rcases mem_image.1 hmem with ⟨i, hi, hxi⟩
    exact hnone i (mem_range.1 hi) hxi.le
  have hwide := hwidth (insert a ((range k).image x)) ?_ ?_
  · rw [card_insert_of_notMem hfresh, card_image_of_injOn hinj,
      card_range] at hwide
    omega
  · intro v hv
    rcases mem_insert.1 hv with rfl | hv
    · exact ha
    · rcases mem_image.1 hv with ⟨i, hi, rfl⟩
      exact hsub (hx i (mem_range.1 hi)).1
  · intro u hu v hv huv hle
    rcases mem_insert.1 hu with rfl | hu
    · rcases mem_insert.1 hv with rfl | hv
      · exact huv rfl
      · rcases mem_image.1 hv with ⟨j, hj, rfl⟩
        exact huv (hmax _ (hsub (hx j (mem_range.1 hj)).1) hle).symm
    · rcases mem_image.1 hu with ⟨i, hi, rfl⟩
      rcases mem_insert.1 hv with rfl | hv
      · exact hnone i (mem_range.1 hi) hle
      · rcases mem_image.1 hv with ⟨j, hj, rfl⟩
        refine hx.not_le hcolor (mem_range.1 hi) (mem_range.1 hj) ?_ hle
        exact fun hij => huv (congrArg x hij)

/-- Below a maximal element there is a chain whose removal narrows the set. -/
theorem exists_chain [DecidableEq α] {a : α} (ha : a ∈ S) (hmax : ∀ v ∈ S, a ≤ v → v = a)
    (hwidth : WidthLe S (k + 1)) {color : α → ℕ} (hcolor : Coloring (S.erase a) (k + 1) color) :
    ∃ K ⊆ S, a ∈ K ∧ (∀ u ∈ K, ∀ v ∈ K, u ≤ v ∨ v ≤ u) ∧ WidthLe (S \ K) k := by
  by_cases hnarrow : WidthLe (S.erase a) k
  · refine ⟨{a}, singleton_subset_iff.2 ha, mem_singleton_self a, ?_, ?_⟩
    · intro u hu v hv
      rw [mem_singleton.1 hu, mem_singleton.1 hv]
      exact Or.inl le_rfl
    · rw [sdiff_singleton_eq_erase]
      exact hnarrow
  · -- Some antichain without `a` is as wide as the colors allow.
    obtain ⟨A, hA, hanti, hcard⟩ : ∃ A ⊆ S.erase a, IsAntichain (· ≤ ·) (A : Set α) ∧
        A.card = k + 1 := by
      unfold WidthLe at hnarrow
      push Not at hnarrow
      rcases hnarrow with ⟨A, hA, hanti, hlt⟩
      exact ⟨A, hA, hanti, le_antisymm (hwidth A (hA.trans (S.erase_subset a)) hanti) hlt⟩
    classical
    have : Nonempty α := ⟨a⟩
    choose! x hx using fun i (hi : i < k + 1) => hcolor.exists_highest hA hanti hcard hi
    have hhighest : Highest (S.erase a) (k + 1) color x := hx
    rcases hhighest.exists_le hcolor (S.erase_subset a) hwidth ha hmax with ⟨i, hi, hxa⟩
    refine ⟨insert a ((S.erase a).filter fun z => color z = i ∧ z ≤ x i), ?_,
      mem_insert_self _ _, ?_, ?_⟩
    · intro v hv
      rcases mem_insert.1 hv with rfl | hv
      · exact ha
      · exact mem_of_mem_erase (mem_filter.1 hv).1
    · intro u hu v hv
      rcases mem_insert.1 hu with rfl | hu
      · rcases mem_insert.1 hv with rfl | hv
        · exact Or.inl le_rfl
        · exact Or.inr ((mem_filter.1 hv).2.2.trans hxa)
      · rcases mem_filter.1 hu with ⟨huS, hui, hux⟩
        rcases mem_insert.1 hv with rfl | hv
        · exact Or.inl (hux.trans hxa)
        · rcases mem_filter.1 hv with ⟨hvS, hvi, -⟩
          exact hcolor.comparable u huS v hvS (hui.trans hvi.symm)
    · -- A widest antichain of the rest would have an element of color `i` below `x i`.
      intro B hB hBanti
      by_contra hlarge
      have hBS : B ⊆ S := fun v hv => (mem_sdiff.1 (hB hv)).1
      have hBerase : B ⊆ S.erase a := by
        intro v hv
        refine mem_erase.2 ⟨?_, hBS hv⟩
        rintro rfl
        exact (mem_sdiff.1 (hB hv)).2 (mem_insert_self _ _)
      have hBcard : B.card = k + 1 := by
        have := hwidth B hBS hBanti
        omega
      rcases hcolor.exists_mem_of_card hBerase hBanti hBcard hi with ⟨z, hz, hzi⟩
      have hzx := (hhighest i hi).2.2.2 z (hBerase hz) hzi ⟨B, hBerase, hBanti, hBcard, hz⟩
      apply (mem_sdiff.1 (hB hz)).2
      exact mem_insert_of_mem (mem_filter.2 ⟨hBerase hz, hzi, hzx⟩)

/-- Dilworth's theorem: a set without an antichain of more than `k` elements is
covered by `k` chains. -/
theorem exists_coloring (hwidth : WidthLe S k) : ∃ color, Coloring S k color := by
  classical
  induction S using strongInduction generalizing k with
  | H S ih =>
    rcases S.eq_empty_or_nonempty with rfl | hne
    · exact ⟨fun _ => 0, fun v hv => absurd hv (notMem_empty v),
        fun v hv => absurd hv (notMem_empty v)⟩
    · obtain ⟨a, ha⟩ := S.exists_maximal hne
      obtain ⟨k, rfl⟩ : ∃ j, k = j + 1 := Nat.exists_eq_succ_of_ne_zero (hwidth.pos ha.1).ne'
      have hmax : ∀ v ∈ S, a ≤ v → v = a := fun v hv hle => le_antisymm (ha.2 hv hle) hle
      obtain ⟨color, hcolor⟩ := ih (S.erase a) (erase_ssubset ha.1)
        (hwidth.mono (S.erase_subset a))
      obtain ⟨K, hK, haK, hchain, hrest⟩ := exists_chain ha.1 hmax hwidth hcolor
      have hsmaller : S \ K ⊂ S := by
        refine Finset.ssubset_iff_subset_ne.2 ⟨sdiff_subset, ?_⟩
        intro heq
        have := heq ▸ ha.1
        exact (mem_sdiff.1 this).2 haK
      obtain ⟨color', hcolor'⟩ := ih (S \ K) hsmaller hrest
      have hother : ∀ v ∈ S, v ∉ K → color' v < k :=
        fun v hv hvK => hcolor'.lt v (mem_sdiff.2 ⟨hv, hvK⟩)
      refine ⟨fun v => if v ∈ K then k else color' v, ?_, ?_⟩
      · intro v hv
        split
        · exact Nat.lt_succ_self k
        · rename_i hvK
          exact (hother v hv hvK).trans (Nat.lt_succ_self k)
      · intro u hu v hv huv
        by_cases huK : u ∈ K
        · by_cases hvK : v ∈ K
          · exact hchain u huK v hvK
          · simp only [if_pos huK, if_neg hvK] at huv
            exact absurd huv (hother v hv hvK).ne'
        · by_cases hvK : v ∈ K
          · simp only [if_neg huK, if_pos hvK] at huv
            exact absurd huv (hother u hu huK).ne
          · simp only [if_neg huK, if_neg hvK] at huv
            exact hcolor'.comparable u (mem_sdiff.2 ⟨hu, huK⟩) v
              (mem_sdiff.2 ⟨hv, hvK⟩) huv

/-! ## Layouts -/

/-- One address that an element asks for. -/
@[ext]
structure Copy (α : Type*) where
  elem : α
  index : ℕ

/-- Addresses are ordered as their elements; those of one element are not
comparable. -/
instance : PartialOrder (Copy α) where
  le p q := p = q ∨ p.elem < q.elem
  le_refl p := Or.inl rfl
  le_trans p q r := by
    rintro (rfl | hpq) (rfl | hqr)
    · exact Or.inl rfl
    · exact Or.inr hqr
    · exact Or.inr hpq
    · exact Or.inr (hpq.trans hqr)
  le_antisymm p q := by
    rintro (rfl | hpq) hqp
    · rfl
    · rcases hqp with rfl | hqp
      · rfl
      · exact absurd hqp hpq.asymm

/-- Everything that the elements of `S` ask for. -/
def copies (S : Finset α) (weight : α → ℕ) : Finset (Copy α) :=
  (S.sigma fun v => range (weight v)).map
    ⟨fun p => ⟨p.1, p.2⟩, fun p q hpq => by
      rcases p with ⟨u, i⟩
      rcases q with ⟨v, j⟩
      cases hpq
      rfl⟩

variable {weight : α → ℕ}

omit [PartialOrder α] in
theorem mem_copies {p : Copy α} : p ∈ copies S weight ↔ p.elem ∈ S ∧ p.index < weight p.elem := by
  rw [copies, mem_map]
  constructor
  · rintro ⟨q, hq, rfl⟩
    rcases mem_sigma.1 hq with ⟨helem, hindex⟩
    exact ⟨helem, mem_range.1 hindex⟩
  · rintro ⟨helem, hindex⟩
    exact ⟨⟨p.elem, p.index⟩, mem_sigma.2 ⟨helem, mem_range.2 hindex⟩, rfl⟩

/-- Antichains of copies are no larger than the weight of an antichain. -/
theorem widthLe_copies {size : ℕ}
    (hweight : ∀ A ⊆ S, IsAntichain (· ≤ ·) (A : Set α) → ∑ v ∈ A, weight v ≤ size) :
    WidthLe (copies S weight) size := by
  classical
  intro A hA hanti
  have hsub : A.image Copy.elem ⊆ S := by
    intro v hv
    rcases mem_image.1 hv with ⟨p, hp, rfl⟩
    exact (mem_copies.1 (hA hp)).1
  have himage : IsAntichain (· ≤ ·) (A.image Copy.elem : Set α) := by
    intro u hu v hv huv hle
    rcases mem_image.1 (mem_coe.1 hu) with ⟨p, hp, rfl⟩
    rcases mem_image.1 (mem_coe.1 hv) with ⟨q, hq, rfl⟩
    have hpq : p ≠ q := fun heq => huv (congrArg Copy.elem heq)
    exact hanti hp hq hpq (Or.inr (lt_of_le_of_ne hle huv))
  have hfiber : ∀ v ∈ A.image Copy.elem, (A.filter fun p => p.elem = v).card ≤ weight v := by
    intro v _
    rw [← card_range (weight v)]
    refine card_le_card_of_injOn Copy.index ?_ ?_
    · intro p hp
      rcases mem_filter.1 hp with ⟨hpA, rfl⟩
      exact mem_coe.2 (mem_range.2 (mem_copies.1 (hA hpA)).2)
    · intro p hp q hq hindex
      exact Copy.ext ((mem_filter.1 hp).2.trans (mem_filter.1 hq).2.symm) hindex
  calc A.card = ∑ v ∈ A.image Copy.elem, (A.filter fun p => p.elem = v).card :=
        card_eq_sum_card_image Copy.elem A
    _ ≤ ∑ v ∈ A.image Copy.elem, weight v := sum_le_sum hfiber
    _ ≤ size := hweight _ hsub himage

/-- Every element has as many addresses below `size` as it asks for, and elements
that are not comparable share none. -/
structure Layout (S : Finset α) (weight : α → ℕ) (size : ℕ) where
  block : α → Finset ℕ
  card_block : ∀ v ∈ S, (block v).card = weight v
  lt_size : ∀ v ∈ S, ∀ a ∈ block v, a < size
  disjoint : ∀ u ∈ S, ∀ v ∈ S, ¬ u ≤ v → ¬ v ≤ u → Disjoint (block u) (block v)

/-- The colors of its copies are the addresses of an element. -/
def Layout.ofColoring {size : ℕ} {color : Copy α → ℕ}
    (hcolor : Coloring (copies S weight) size color) : Layout S weight size where
  block v := (range (weight v)).image fun i => color ⟨v, i⟩
  card_block := by
    intro v hv
    rw [card_image_of_injOn, card_range]
    intro i hi j hj hij
    have hcopy : ∀ l ∈ range (weight v), (⟨v, l⟩ : Copy α) ∈ copies S weight :=
      fun l hl => mem_copies.2 ⟨hv, mem_range.1 hl⟩
    rcases hcolor.comparable _ (hcopy i hi) _ (hcopy j hj) hij with hle | hle
    · rcases hle with heq | hlt
      · exact congrArg Copy.index heq
      · exact absurd hlt (lt_irrefl v)
    · rcases hle with heq | hlt
      · exact (congrArg Copy.index heq).symm
      · exact absurd hlt (lt_irrefl v)
  lt_size := by
    intro v hv a ha
    rcases mem_image.1 ha with ⟨i, hi, rfl⟩
    exact hcolor.lt _ (mem_copies.2 ⟨hv, mem_range.1 hi⟩)
  disjoint := by
    intro u hu v hv huv hvu
    rw [disjoint_left]
    intro a hau hav
    rcases mem_image.1 hau with ⟨i, hi, rfl⟩
    rcases mem_image.1 hav with ⟨j, hj, hij⟩
    have hcopy : ∀ w ∈ S, ∀ l ∈ range (weight w), (⟨w, l⟩ : Copy α) ∈ copies S weight :=
      fun w hw l hl => mem_copies.2 ⟨hw, mem_range.1 hl⟩
    rcases hcolor.comparable _ (hcopy v hv j hj) _ (hcopy u hu i hi) hij with hle | hle
    · rcases hle with heq | hlt
      · exact hvu (congrArg Copy.elem heq).le
      · exact hvu hlt.le
    · rcases hle with heq | hlt
      · exact huv (congrArg Copy.elem heq).le
      · exact huv hlt.le

/-- The blocks of an antichain are disjoint, so they need their full weight. -/
theorem Layout.sum_le [DecidableEq α] {weight : α → ℕ} {size : ℕ} (layout : Layout S weight size)
    {A : Finset α} (hA : A ⊆ S) (hanti : IsAntichain (· ≤ ·) (A : Set α)) :
    ∑ v ∈ A, weight v ≤ size := by
  have hdisjoint : (A : Set α).PairwiseDisjoint layout.block := by
    intro u hu v hv huv
    exact layout.disjoint u (hA hu) v (hA hv) (hanti hu hv huv) (hanti hv hu huv.symm)
  calc ∑ v ∈ A, weight v = ∑ v ∈ A, (layout.block v).card :=
        sum_congr rfl fun v hv => (layout.card_block v (hA hv)).symm
    _ = (A.biUnion layout.block).card := (card_biUnion hdisjoint).symm
    _ ≤ (range size).card := by
        apply card_le_card
        intro a ha
        rcases mem_biUnion.1 ha with ⟨v, hv, hav⟩
        exact mem_range.2 (layout.lt_size v (hA hv) a hav)
    _ = size := card_range size

/-- A layout exists exactly when no antichain asks for more addresses. -/
theorem nonempty_layout_iff {size : ℕ} :
    Nonempty (Layout S weight size) ↔
      ∀ A ⊆ S, IsAntichain (· ≤ ·) (A : Set α) → ∑ v ∈ A, weight v ≤ size := by
  classical
  constructor
  · rintro ⟨layout⟩ A hA hanti
    exact layout.sum_le hA hanti
  · intro hweight
    rcases exists_coloring (widthLe_copies hweight) with ⟨color, hcolor⟩
    exact ⟨Layout.ofColoring hcolor⟩

end ChainCover
