import Mathlib.Data.List.Induction
import Mathlib.Data.Set.Finite.Basic
import Mathlib.Data.Fintype.Pigeonhole
import Mathlib.Logic.Relation
import Mathlib.Logic.Function.Iterate
import Mathlib.Tactic.Common

/-!
# Directed graphs as relations

The graph algorithms of this development are compared with three notions on an
arbitrary edge relation: a vertex on a directed cycle, a vertex downstream of
a cycle, and a list in which every predecessor of a listed vertex is listed
earlier.

Main results:

- `Digraph.PredsEarlier.mem_and_acyclic`: a list with earlier predecessors is closed under
  ancestors and contains no vertex of a cycle.
- `Digraph.PredsEarlier.foldl_induction` and `Digraph.PredsEarlier.induction`: loops over such
  a list, and induction from predecessors to successors.
- `Digraph.acyclic_insert_of_succs`: a closed acyclic set stays acyclic when a vertex enters
  after all its successors.
-/

namespace Digraph

open Relation

variable {α : Type*} {r : α → α → Prop}

/-- The vertex lies on a directed cycle. -/
def OnCycle (r : α → α → Prop) (v : α) : Prop :=
  TransGen r v v

/-- Some directed cycle reaches the vertex, possibly by the empty path. -/
def DownstreamOfCycle (r : α → α → Prop) (v : α) : Prop :=
  ∃ u, OnCycle r u ∧ ReflTransGen r u v

/-- No vertex lies on a directed cycle. -/
def Acyclic (r : α → α → Prop) : Prop :=
  ∀ v, ¬ OnCycle r v

/-- Edges that raise a rank close no cycle. -/
theorem acyclic_of_rank (rank : α → Nat) (hrank : ∀ u v, r u v → rank u < rank v) : Acyclic r := by
  intro v hcycle
  have hpath : ∀ u w, TransGen r u w → rank u < rank w := by
    intro u w huw
    induction huw with
    | single huw => exact hrank u _ huw
    | tail _ hstep ih => exact ih.trans (hrank _ _ hstep)
  exact Nat.lt_irrefl _ (hpath v v hcycle)

/-! ## Starvation in a finite set -/

/-- Following chosen predecessors backwards is a path. -/
theorem reflTransGen_iterate {f : α → α} (hf : ∀ v, r (f v) v) (n k : Nat) (v : α) :
    ReflTransGen r (f^[n + k] v) (f^[n] v) := by
  induction k with
  | zero => exact ReflTransGen.refl
  | succ k ih =>
    rw [← Nat.add_assoc, Function.iterate_succ_apply']
    exact ReflTransGen.head (hf _) ih

/-- In a finite set in which every vertex has a predecessor, every vertex is
downstream of a cycle. -/
theorem downstreamOfCycle_of_preds {S : Set α} (hfin : S.Finite)
    (hpred : ∀ v ∈ S, ∃ u ∈ S, r u v) {v : α} (hv : v ∈ S) :
    DownstreamOfCycle r v := by
  classical
  have hpred' : ∀ x : S, ∃ y : S, r y.1 x.1 := by
    intro x
    rcases hpred x.1 x.2 with ⟨u, hu, hr⟩
    exact ⟨⟨u, hu⟩, hr⟩
  choose f hf using hpred'
  let q : S → S → Prop := fun x y => r x.1 y.1
  have : Finite S := hfin
  -- Walking backwards for ever revisits a vertex of the finite set.
  obtain ⟨i, j, hne, heq⟩ :=
    Finite.exists_ne_map_eq_of_infinite fun n : Nat => f^[n] ⟨v, hv⟩
  have hlift : ∀ {x y : S}, ReflTransGen q x y → ReflTransGen r x.1 y.1 :=
    fun {x y} h => h.lift Subtype.val fun _ _ hab => hab
  have hcycle : ∀ {i j : Nat}, i < j → f^[i] ⟨v, hv⟩ = f^[j] ⟨v, hv⟩ →
      DownstreamOfCycle r v := by
    intro i j hij heq
    obtain ⟨k, rfl⟩ : ∃ k, j = i + 1 + k := ⟨j - (i + 1), by omega⟩
    have hback : ReflTransGen q (f^[i + 1 + k] ⟨v, hv⟩) (f^[i + 1] ⟨v, hv⟩) :=
      reflTransGen_iterate (r := q) hf (i + 1) k ⟨v, hv⟩
    have hedge : r (f^[i + 1] ⟨v, hv⟩).1 (f^[i] ⟨v, hv⟩).1 := by
      rw [Function.iterate_succ_apply']
      exact hf _
    have htail : ReflTransGen q (f^[0 + i] ⟨v, hv⟩) (f^[0] ⟨v, hv⟩) :=
      reflTransGen_iterate (r := q) hf 0 i ⟨v, hv⟩
    rw [Nat.zero_add] at htail
    refine ⟨(f^[i] ⟨v, hv⟩).1, ?_, hlift htail⟩
    have hloop := TransGen.tail' (hlift hback) hedge
    rw [← heq] at hloop
    exact hloop
  rcases Nat.lt_or_gt_of_ne hne with hlt | hgt
  · exact hcycle hlt heq
  · exact hcycle hgt heq.symm

/-! ## Lists that place predecessors first -/

/-- Every predecessor of a listed vertex occurs strictly earlier in the list. -/
def PredsEarlier (r : α → α → Prop) (order : List α) : Prop :=
  ∀ before v after, order = before ++ v :: after → ∀ u, r u v → u ∈ before

variable {order : List α}

/-- Appending a vertex all of whose predecessors are listed keeps the order. -/
theorem PredsEarlier.concat {v : α} (h : PredsEarlier r order) (hv : ∀ u, r u v → u ∈ order)
    : PredsEarlier r (order ++ [v]) := by
  intro before x after heq u hu
  rcases List.eq_nil_or_concat after with rfl | ⟨init, last, rfl⟩
  · have hsplit : order = before ∧ [v] = [x] := List.append_inj' heq rfl
    rcases hsplit with ⟨rfl, hvx⟩
    obtain rfl : v = x := by simpa using hvx
    exact hv u hu
  · have heq' : order ++ [v] = (before ++ x :: init) ++ [last] := by
      simpa using heq
    exact h before x init (List.append_inj' heq' rfl).1 u hu

/-- The rule for a loop over the list: when a vertex has its turn, its
predecessors have had theirs and it is no predecessor of an earlier one. -/
theorem PredsEarlier.foldl_induction {σ : Type*} (h : PredsEarlier r order) (hnodup : order.Nodup)
    (body : σ → α → σ) (init : σ) {I : List α → σ → Prop} (hinit : I [] init)
    (hstep : ∀ before x s, I before s → x ∈ order → x ∉ before → (∀ u, r u x → u ∈ before) →
      (∀ v ∈ before, ¬ r x v) → I (before ++ [x]) (body s x)) :
    I order (order.foldl body init) := by
  suffices hprefix : ∀ before after, order = before ++ after →
      I before (before.foldl body init) from
    hprefix order [] (List.append_nil order).symm
  intro before
  induction before using List.reverseRecOn with
  | nil =>
    intro after _
    exact hinit
  | append_singleton before x ih =>
    intro after heq
    have heq' : order = before ++ x :: after := by simpa using heq
    have hnew : x ∉ before := by
      rw [heq'] at hnodup
      exact fun hmem => (List.disjoint_of_nodup_append hnodup) hmem List.mem_cons_self
    rw [List.foldl_append, List.foldl_cons, List.foldl_nil]
    apply hstep before x _ (ih (x :: after) heq') _ hnew (h before x after heq')
    · intro v hv hxv
      -- Split at `v`: its predecessor `x` would have to come before it.
      obtain ⟨first, rest, hsplit⟩ := List.append_of_mem hv
      apply hnew
      rw [hsplit]
      apply List.mem_append_left
      apply h first v (rest ++ x :: after) _ x hxv
      rw [heq', hsplit]
      simp
    · rw [heq']
      exact List.mem_append_right _ List.mem_cons_self

/-- Induction along the list: a property that passes from all predecessors of a
listed vertex to the vertex holds of every listed vertex. -/
theorem PredsEarlier.induction (h : PredsEarlier r order) (hnodup : order.Nodup) {P : α → Prop}
    (hstep : ∀ v ∈ order, (∀ u, r u v → P u) → P v) : ∀ v ∈ order, P v := by
  have hall := h.foldl_induction hnodup (fun s : Unit => fun _ => s) ()
    (I := fun before _ => ∀ v ∈ before, P v) (fun v hv => absurd hv List.not_mem_nil) ?_
  · exact hall
  · intro before x _ hbefore hx _ hpreds _ v hv
    rcases List.mem_append.1 hv with hv | hv
    · exact hbefore v hv
    · rw [List.mem_singleton.1 hv]
      exact hstep x hx fun u hu => hbefore u (hpreds u hu)

/-- A listed vertex has each predecessor at a smaller index. -/
theorem PredsEarlier.idxOf_lt [BEq α] [LawfulBEq α] {order : List α}
    (h : PredsEarlier r order) {u v : α} (hv : v ∈ order) (hr : r u v) :
    u ∈ order ∧ order.idxOf u < order.idxOf v := by
  have hlt : order.idxOf v < order.length := List.idxOf_lt_length_of_mem hv
  have hsplit : order = order.take (order.idxOf v) ++ v :: order.drop (order.idxOf v + 1) := by
    conv_lhs => rw [← List.take_append_drop (order.idxOf v) order]
    rw [List.drop_eq_getElem_cons hlt, List.getElem_idxOf hlt]
  have hu := h _ _ _ hsplit u hr
  refine ⟨List.mem_of_mem_take hu, ?_⟩
  have hidx : (order.take (order.idxOf v)).idxOf u < (order.take (order.idxOf v)).length :=
    List.idxOf_lt_length_of_mem hu
  have hfirst : order.idxOf u = (order.take (order.idxOf v)).idxOf u := by
    conv_lhs => rw [← List.take_append_drop (order.idxOf v) order]
    exact List.idxOf_append_of_mem hu
  rw [List.length_take] at hidx
  omega

/-- A list with earlier predecessors is closed under ancestors, and the index
grows strictly along every nonempty path. -/
theorem PredsEarlier.idxOf_lt_of_transGen [BEq α] [LawfulBEq α] {order : List α}
    (h : PredsEarlier r order) {u v : α} (hv : v ∈ order) (hpath : TransGen r u v) :
    u ∈ order ∧ order.idxOf u < order.idxOf v := by
  induction hpath with
  | single hr => exact h.idxOf_lt hv hr
  | tail _ hr ih =>
    rcases h.idxOf_lt hv hr with ⟨hmid, hlt⟩
    rcases ih hmid with ⟨hu, hlt'⟩
    exact ⟨hu, hlt'.trans hlt⟩

/-- Every ancestor of a listed vertex is listed and lies on no cycle. -/
theorem PredsEarlier.mem_and_acyclic (h : PredsEarlier r order) {u v : α} (hv : v ∈ order)
    (hpath : ReflTransGen r u v) :
    u ∈ order ∧ ¬ OnCycle r u := by
  classical
  have hu : u ∈ order := by
    rcases reflTransGen_iff_eq_or_transGen.1 hpath with rfl | htrans
    · exact hv
    · exact (h.idxOf_lt_of_transGen hv htrans).1
  refine ⟨hu, fun hcycle => ?_⟩
  exact Nat.lt_irrefl _ (h.idxOf_lt_of_transGen hu hcycle).2

/-! ## Sets closed under successors -/

/-- Paths never leave a set that is closed under successors. -/
theorem mem_of_reflTransGen {B : Set α} (hclosed : ∀ u ∈ B, ∀ v, r u v → v ∈ B)
    {u v : α} (hu : u ∈ B) (hpath : ReflTransGen r u v) : v ∈ B := by
  induction hpath with
  | refl => exact hu
  | tail _ hr ih => exact hclosed _ ih _ hr

/-- A vertex outside a closed set all of whose successors are in that set lies
on no cycle. -/
theorem acyclic_insert_of_succs {B : Set α} (hclosed : ∀ u ∈ B, ∀ v, r u v → v ∈ B)
    {x : α} (hx : x ∉ B) (hsucc : ∀ v, r x v → v ∈ B) : ¬ OnCycle r x := by
  intro hcycle
  rcases TransGen.head'_iff.1 hcycle with ⟨v, hr, hpath⟩
  exact hx (mem_of_reflTransGen hclosed (hsucc v hr) hpath)

end Digraph
