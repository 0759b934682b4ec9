import EdgeOrchestrator.Library.Digraph
import Mathlib.Algebra.BigOperators.Group.List.Basic
import Mathlib.Algebra.Order.Monoid.Defs
import Mathlib.Data.List.Chain
import Mathlib.Order.Bounds.Basic
import Mathlib.Order.Lattice

/-!
# Longest distances by relaxation

A table of distances is filled in an order that lists predecessors first.  The
entry of a vertex is the largest offer made over an edge into it, passed through
a seed function.  The offers are read from the predecessors when the vertex has
its turn, or pushed to the successors when a vertex is settled.

Main results:

- `LongestPath.Table.concat` and `LongestPath.Settling.step`: one more vertex, by reading its
  predecessors or by raising its successors.
- `LongestPath.Table.unique`: the distances do not depend on the order in which the vertices
  were settled.
- `LongestPath.Table.isGreatest_pathWeight`: they are the largest weights of paths.
- `LongestPath.Heights.isGreatest_pathWeight`: so is every function that satisfies the
  recurrence.
-/

namespace LongestPath

variable {α β : Type*} [Zero β] [Add β] {r : α → α → Prop} {weight : α → β}
  {seed : α → β → β}

/-! ## Running maxima -/

/-- A loop that keeps the larger value returns the largest one. -/
theorem isGreatest_foldl_max {ι γ : Type*} [LinearOrder γ] (f : ι → γ) (l : List ι) (a : γ) :
    IsGreatest {x | x = a ∨ ∃ i ∈ l, x = f i} (l.foldl (fun m i => max m (f i)) a) := by
  induction l generalizing a with
  | nil =>
    constructor
    · exact Or.inl rfl
    · rintro x (rfl | ⟨i, hi, -⟩)
      · exact le_rfl
      · cases hi
  | cons i l ih =>
    rcases ih (max a (f i)) with ⟨hmem, hbound⟩
    rw [List.foldl_cons]
    constructor
    · rcases hmem with hmem | ⟨j, hj, hmem⟩
      · rcases max_choice a (f i) with hmax | hmax
        · exact Or.inl (hmem.trans hmax)
        · exact Or.inr ⟨i, List.mem_cons_self, hmem.trans hmax⟩
      · exact Or.inr ⟨j, List.mem_cons_of_mem _ hj, hmem⟩
    · rintro x (rfl | ⟨j, hj, rfl⟩)
      · exact (le_max_left _ _).trans (hbound (Or.inl rfl))
      · rcases List.mem_cons.1 hj with rfl | hj
        · exact (le_max_right _ _).trans (hbound (Or.inl rfl))
        · exact hbound (Or.inr ⟨j, hj, rfl⟩)

/-- A loop that remembers where it saw the largest value so far. -/
theorem foldl_argmax_spec {ι γ : Type*} [LinearOrder γ] (f : ι → γ) (l : List ι) (best : γ × ι) :
    let last := l.foldl (fun (best : γ × ι) i => if f i > best.1 then (f i, i) else best) best
    (last = best ∨ last.2 ∈ l ∧ last.1 = f last.2) ∧ best.1 ≤ last.1 ∧ ∀ i ∈ l, f i ≤ last.1 := by
  induction l generalizing best with
  | nil =>
    refine ⟨Or.inl rfl, le_rfl, ?_⟩
    intro i hi
    cases hi
  | cons i l ih =>
    by_cases hgreater : f i > best.1
    · rcases ih (f i, i) with ⟨hfrom, hle, hbound⟩
      simp only [List.foldl_cons, if_pos hgreater]
      refine ⟨Or.inr ?_, hgreater.le.trans hle, ?_⟩
      · rcases hfrom with heq | ⟨hmem, hvalue⟩
        · rw [heq]
          exact ⟨List.mem_cons_self, rfl⟩
        · exact ⟨List.mem_cons_of_mem _ hmem, hvalue⟩
      · intro j hj
        rcases List.mem_cons.1 hj with rfl | hj
        · exact hle
        · exact hbound j hj
    · rcases ih best with ⟨hfrom, hle, hbound⟩
      simp only [List.foldl_cons, if_neg hgreater]
      refine ⟨hfrom.imp_right fun hlast => ⟨List.mem_cons_of_mem _ hlast.1, hlast.2⟩, hle, ?_⟩
      intro j hj
      rcases List.mem_cons.1 hj with rfl | hj
      · exact (not_lt.1 hgreater).trans hle
      · exact hbound j hj

/-! ## Offers -/

/-- The distances offered to `v`: zero, and one over each edge from a vertex in
`settled`. -/
def Offers (r : α → α → Prop) (weight : α → β) (settled : List α) (d : α → β) (v : α) : Set β :=
  {x | x = 0 ∨ ∃ u ∈ settled, r u v ∧ x = d u + weight v}

theorem mem_offers {settled : List α} {d : α → β} {v : α} {x : β} :
    x ∈ Offers r weight settled d v ↔ x = 0 ∨ ∃ u ∈ settled, r u v ∧ x = d u + weight v :=
  Iff.rfl

/-- Offers only depend on the distances of settled predecessors. -/
theorem offers_congr {settled : List α} {d d' : α → β} {v : α}
    (hagree : ∀ u ∈ settled, r u v → d u = d' u) :
    Offers r weight settled d v = Offers r weight settled d' v := by
  ext x
  constructor
  · rintro (hx | ⟨u, hu, huv, hx⟩)
    · exact Or.inl hx
    · exact Or.inr ⟨u, hu, huv, by rw [hx, hagree u hu huv]⟩
  · rintro (hx | ⟨u, hu, huv, hx⟩)
    · exact Or.inl hx
    · exact Or.inr ⟨u, hu, huv, by rw [hx, hagree u hu huv]⟩

/-- A further settled vertex without an edge to `v` offers nothing. -/
theorem offers_concat_of_not {settled : List α} {d : α → β} {u v : α} (huv : ¬ r u v) :
    Offers r weight (settled ++ [u]) d v = Offers r weight settled d v := by
  ext x
  simp only [mem_offers, List.mem_append, List.mem_singleton]
  constructor
  · rintro (hx | ⟨w, hw | rfl, hwv, hx⟩)
    · exact Or.inl hx
    · exact Or.inr ⟨w, hw, hwv, hx⟩
    · exact absurd hwv huv
  · rintro (hx | ⟨w, hw, hwv, hx⟩)
    · exact Or.inl hx
    · exact Or.inr ⟨w, Or.inl hw, hwv, hx⟩

/-! ## Settling vertices -/

variable [LinearOrder β]

/-- The entry of every settled vertex is the largest offer made to it, passed
through the seed function. -/
def Table (r : α → α → Prop) (weight : α → β) (seed : α → β → β) (settled : List α)
    (d : α → β) : Prop :=
  ∀ v ∈ settled, ∃ m, IsGreatest (Offers r weight settled d v) m ∧ d v = seed v m

/-- A table in which the entry of every other vertex is the largest offer so far. -/
structure Settling (r : α → α → Prop) (weight : α → β) (seed : α → β → β) (settled : List α)
    (d : α → β) : Prop where
  table : Table r weight seed settled d
  open_eq : ∀ v, v ∉ settled → IsGreatest (Offers r weight settled d v) (d v)

/-- Zero is the only offer before the first vertex is settled. -/
theorem isGreatest_offers_nil {d : α → β} {v : α} : IsGreatest (Offers r weight [] d v) 0 := by
  constructor
  · exact Or.inl rfl
  · rintro x (rfl | ⟨u, hu, -⟩)
    · exact le_rfl
    · cases hu

theorem Table.nil {d : α → β} : Table r weight seed [] d := by
  intro v hv
  cases hv

/-- Before the first vertex is settled every distance is zero. -/
theorem Settling.nil {d : α → β} (hzero : ∀ v, d v = 0) : Settling r weight seed [] d where
  table := Table.nil
  open_eq := by
    intro v _
    rw [hzero v]
    exact isGreatest_offers_nil

/-- A further entry, computed from the offers of the vertices already settled. -/
theorem Table.concat {settled : List α} {d d' : α → β} {u : α}
    (htable : Table r weight seed settled d)
    (hloop : ¬ r u u) (hclosed : ∀ v ∈ settled, ¬ r u v)
    (hkeep : ∀ v ∈ settled, d v = d' v)
    (hself : ∃ m, IsGreatest (Offers r weight settled d u) m ∧ d' u = seed u m) :
    Table r weight seed (settled ++ [u]) d' := by
  have hold : ∀ v, Offers r weight settled d v = Offers r weight settled d' v :=
    fun v => offers_congr fun w hw _ => hkeep w hw
  intro v hv
  rcases List.mem_append.1 hv with hv | hv
  · rcases htable v hv with ⟨m, hm, hd⟩
    refine ⟨m, ?_, ?_⟩
    · rw [offers_concat_of_not (hclosed v hv), ← hold]
      exact hm
    · rw [← hkeep v hv, hd]
  · rw [List.mem_singleton] at hv
    subst hv
    rcases hself with ⟨m, hm, hd⟩
    refine ⟨m, ?_, hd⟩
    rw [offers_concat_of_not hloop, ← hold]
    exact hm

/-- An edge from the new vertex raises the largest offer. -/
theorem isGreatest_offers_concat {settled : List α} {d : α → β} {u v : α} {m : β} (huv : r u v)
    (hm : IsGreatest (Offers r weight settled d v) m) :
    IsGreatest (Offers r weight (settled ++ [u]) d v) (max m (d u + weight v)) := by
  constructor
  · rcases le_total m (d u + weight v) with hle | hle
    · rw [max_eq_right hle]
      exact Or.inr ⟨u, List.mem_append_right _ (List.mem_singleton.2 rfl), huv, rfl⟩
    · rw [max_eq_left hle]
      rcases hm.1 with hx | ⟨w, hw, hwv, hx⟩
      · exact Or.inl hx
      · exact Or.inr ⟨w, List.mem_append_left _ hw, hwv, hx⟩
  · rintro x (rfl | ⟨w, hw, hwv, rfl⟩)
    · exact (hm.2 (Or.inl rfl)).trans (le_max_left _ _)
    · rcases List.mem_append.1 hw with hw | hw
      · exact (hm.2 (Or.inr ⟨w, hw, hwv, rfl⟩)).trans (le_max_left _ _)
      · rw [List.mem_singleton.1 hw]
        exact le_max_right _ _

/-- Settle `u`: all its predecessors are settled, its entry goes through the seed
function, and each successor is raised to the distance over its edge. -/
theorem Settling.step {settled : List α} {d d' : α → β} {u : α}
    (hsettling : Settling r weight seed settled d)
    (hnew : u ∉ settled) (hloop : ¬ r u u)
    (hclosed : ∀ v ∈ settled, ¬ r u v)
    (hself : d' u = seed u (d u))
    (hsucc : ∀ v, r u v → d' v = max (d v) (d' u + weight v))
    (hother : ∀ v, v ≠ u → ¬ r u v → d' v = d v) :
    Settling r weight seed (settled ++ [u]) d' := by
  have hkeep : ∀ v ∈ settled, d v = d' v := by
    intro v hv
    have hvu : v ≠ u := fun heq => hnew (heq ▸ hv)
    exact (hother v hvu (hclosed v hv)).symm
  constructor
  · exact hsettling.table.concat hloop hclosed hkeep ⟨d u, hsettling.open_eq u hnew, hself⟩
  · intro v hv
    rw [List.mem_append, List.mem_singleton, not_or] at hv
    have hopen := hsettling.open_eq v hv.1
    rw [offers_congr fun w hw _ => hkeep w hw] at hopen
    by_cases huv : r u v
    · rw [hsucc v huv]
      exact isGreatest_offers_concat huv hopen
    · rw [offers_concat_of_not huv, hother v hv.2 huv]
      exact hopen

/-- Two complete tables of one graph agree, whatever the two orders were. -/
theorem Table.unique {order order' : List α} {d d' : α → β}
    (hpreds : Digraph.PredsEarlier r order) (hnodup : order.Nodup)
    (hmem : ∀ v, v ∈ order ↔ v ∈ order')
    (hd : Table r weight seed order d) (hd' : Table r weight seed order' d') :
    ∀ v ∈ order, d v = d' v := by
  refine hpreds.induction hnodup (P := fun v => d v = d' v) ?_
  intro v hv hagree
  rcases hd v hv with ⟨m, hm, heq⟩
  rcases hd' v ((hmem v).1 hv) with ⟨m', hm', heq'⟩
  have hsame : Offers r weight order d v = Offers r weight order' d' v := by
    rw [offers_congr fun u _ huv => hagree u huv]
    ext x
    simp only [mem_offers, hmem]
  rw [hsame] at hm
  rw [heq, heq', hm.unique hm']

/-! ## Paths -/

/-- The paths that end in a vertex, as lists of the vertices they visit. -/
def PathsTo (r : α → α → Prop) (v : α) : Set (List α) :=
  {path | path.IsChain r ∧ path.getLast? = some v}

theorem singleton_mem_pathsTo (r : α → α → Prop) (v : α) : [v] ∈ PathsTo r v :=
  ⟨List.isChain_singleton v, rfl⟩

theorem concat_mem_pathsTo {path : List α} {u v : α} (hpath : path ∈ PathsTo r u) (huv : r u v) :
    path ++ [v] ∈ PathsTo r v := by
  refine ⟨hpath.1.append (List.isChain_singleton v) ?_, List.getLast?_concat⟩
  intro x hx y hy
  rw [hpath.2, Option.mem_some_iff] at hx
  rw [List.head?_cons, Option.mem_some_iff] at hy
  rw [← hx, ← hy]
  exact huv

/-- A path to `v` is `v` alone, or a path to a predecessor continued to `v`. -/
theorem pathsTo_cases {path : List α} {v : α} (hpath : path ∈ PathsTo r v) :
    path = [v] ∨ ∃ u init, init ∈ PathsTo r u ∧ r u v ∧ path = init ++ [v] := by
  rcases List.getLast?_eq_some_iff.1 hpath.2 with ⟨init, rfl⟩
  rcases List.isChain_append.1 hpath.1 with ⟨hinit, -, hlast⟩
  cases hend : init.getLast? with
  | none =>
    rw [List.getLast?_eq_none_iff.1 hend]
    exact Or.inl rfl
  | some u => exact Or.inr ⟨u, init, ⟨hinit, hend⟩, hlast u hend v rfl, rfl⟩

section PathWeight

variable {γ : Type*} [AddCommMonoid γ]

/-- The weight of a path: its first vertex counts with `start`, the others with
`weight`. -/
def pathWeight (start weight : α → γ) : List α → γ
  | [] => 0
  | v :: rest => start v + (rest.map weight).sum

@[simp]
theorem pathWeight_singleton (start weight : α → γ) (v : α) :
    pathWeight start weight [v] = start v := by
  rw [pathWeight, List.map_nil, List.sum_nil, add_zero]

theorem pathWeight_concat (start weight : α → γ) {path : List α} (hne : path ≠ []) (v : α) :
    pathWeight start weight (path ++ [v]) = pathWeight start weight path + weight v := by
  cases path with
  | nil => exact absurd rfl hne
  | cons u rest =>
    rw [List.cons_append, pathWeight, pathWeight, List.map_append, List.sum_append,
      List.map_singleton, List.sum_singleton, add_assoc]

theorem ne_nil_of_mem_pathsTo {path : List α} {v : α} (hpath : path ∈ PathsTo r v) : path ≠ [] := by
  rintro rfl
  cases hpath.2

variable [LinearOrder γ] [IsOrderedAddMonoid γ]

/-- A complete table whose seed function starts each source at its own weight and
leaves the others alone holds the largest weights of paths. -/
theorem Table.isGreatest_pathWeight {start weight : α → γ} {seed : α → γ → γ} {order : List α}
    {d : α → γ} (hpreds : Digraph.PredsEarlier r order) (hnodup : order.Nodup)
    (htable : Table r weight seed order d)
    (hstart : ∀ v, 0 ≤ start v) (hle : ∀ v, start v ≤ weight v)
    (hsource : ∀ v ∈ order, (∀ u, ¬ r u v) → seed v 0 = start v)
    (hinner : ∀ u, ∀ v ∈ order, r u v → ∀ m, seed v m = m) :
    ∀ v ∈ order, IsGreatest {x | ∃ path ∈ PathsTo r v, x = pathWeight start weight path} (d v) := by
  refine hpreds.induction hnodup ?_
  intro v hv ih
  rcases htable v hv with ⟨m, hm, hd⟩
  by_cases hpred : ∃ p, r p v
  · rcases hpred with ⟨p, hp⟩
    rw [hinner p v hv hp] at hd
    have hoffer : ∀ u, r u v → d u + weight v ≤ m := by
      intro u huv
      have hu := (hpreds.mem_and_acyclic hv (Relation.ReflTransGen.single huv)).1
      exact hm.2 (Or.inr ⟨u, hu, huv, rfl⟩)
    have hnonneg : ∀ u, r u v → 0 ≤ d u := by
      intro u huv
      refine (hstart u).trans ((ih u huv).2 ⟨[u], singleton_mem_pathsTo r u, ?_⟩)
      rw [pathWeight_singleton]
    have hweight : 0 ≤ weight v := (hstart v).trans (hle v)
    -- The largest offer comes over an edge, even if it is zero.
    obtain ⟨u, huv, hmu⟩ : ∃ u, r u v ∧ m = d u + weight v := by
      rcases hm.1 with hzero | ⟨u, -, huv, hmu⟩
      · refine ⟨p, hp, le_antisymm ?_ (hoffer p hp)⟩
        rw [hzero]
        exact add_nonneg (hnonneg p hp) hweight
      · exact ⟨u, huv, hmu⟩
    rw [hd]
    constructor
    · rcases (ih u huv).1 with ⟨path, hpath, hvalue⟩
      refine ⟨path ++ [v], concat_mem_pathsTo hpath huv, ?_⟩
      rw [pathWeight_concat start weight (ne_nil_of_mem_pathsTo hpath), ← hvalue, hmu]
    · rintro x ⟨path, hpath, rfl⟩
      rcases pathsTo_cases hpath with rfl | ⟨w, init, hinit, hwv, rfl⟩
      · rw [pathWeight_singleton]
        exact (hle v).trans ((le_add_of_nonneg_left (hnonneg p hp)).trans (hoffer p hp))
      · rw [pathWeight_concat start weight (ne_nil_of_mem_pathsTo hinit)]
        exact (add_le_add_left ((ih w hwv).2 ⟨init, hinit, rfl⟩) _).trans (hoffer w hwv)
  · have hnone : ∀ u, ¬ r u v := fun u huv => hpred ⟨u, huv⟩
    have hzero : m = 0 := by
      rcases hm.1 with hzero | ⟨u, -, huv, -⟩
      · exact hzero
      · exact absurd huv (hnone u)
    rw [hd, hzero, hsource v hv hnone]
    constructor
    · exact ⟨[v], singleton_mem_pathsTo r v, (pathWeight_singleton ..).symm⟩
    · rintro x ⟨path, hpath, rfl⟩
      rcases pathsTo_cases hpath with rfl | ⟨u, -, -, huv, -⟩
      · rw [pathWeight_singleton]
      · exact absurd huv (hnone u)

/-- Heights that satisfy the recurrence of longest paths on a part of the graph that
contains the predecessors of its vertices. -/
structure Heights (r : α → α → Prop) (weight : α → γ) (part : α → Prop) (height : α → γ) :
    Prop where
  pred : ∀ u v, r u v → part u
  weight_le : ∀ v, part v → weight v ≤ height v
  add_weight_le : ∀ u v, r u v → height u + weight v ≤ height v
  attained : ∀ v, part v → height v = weight v ∨ ∃ u, r u v ∧ height v = height u + weight v

variable {weight height : α → γ} {part : α → Prop}

theorem Heights.pathWeight_le (hheights : Heights r weight part height) {path : List α} {v : α}
    (hv : part v) (hpath : path ∈ PathsTo r v) : pathWeight weight weight path ≤ height v := by
  induction path using List.reverseRecOn generalizing v with
  | nil => exact absurd rfl (ne_nil_of_mem_pathsTo hpath)
  | append_singleton init last ih =>
    rcases pathsTo_cases hpath with hsingle | ⟨u, init', hinit, huv, heq⟩
    · rw [hsingle, pathWeight_singleton]
      exact hheights.weight_le v hv
    · rcases List.append_inj' heq rfl with ⟨rfl, hlast⟩
      obtain rfl : last = v := List.singleton_inj.1 hlast
      rw [pathWeight_concat weight weight (ne_nil_of_mem_pathsTo hinit)]
      exact (add_le_add_left (ih (hheights.pred u last huv) hinit) _).trans
        (hheights.add_weight_le u last huv)

/-- In a graph with a rank, such heights are the largest weights of paths. -/
theorem Heights.isGreatest_pathWeight (hheights : Heights r weight part height)
    (rank : α → Nat) (hrank : ∀ u v, r u v → rank u < rank v) {v : α} (hv : part v) :
    IsGreatest {x | ∃ path ∈ PathsTo r v, x = pathWeight weight weight path} (height v) := by
  constructor
  · induction hn : rank v using Nat.strong_induction_on generalizing v with
    | _ n ih =>
      rcases hheights.attained v hv with hsource | ⟨u, huv, hsum⟩
      · exact ⟨[v], singleton_mem_pathsTo r v, by rw [pathWeight_singleton, hsource]⟩
      · have hless : rank u < n := hn ▸ hrank u v huv
        rcases ih (rank u) hless (hheights.pred u v huv) rfl with ⟨path, hpath, hvalue⟩
        refine ⟨path ++ [v], concat_mem_pathsTo hpath huv, ?_⟩
        rw [pathWeight_concat weight weight (ne_nil_of_mem_pathsTo hpath), ← hvalue, hsum]
  · rintro x ⟨path, hpath, rfl⟩
    exact hheights.pathWeight_le hv hpath

end PathWeight

end LongestPath
