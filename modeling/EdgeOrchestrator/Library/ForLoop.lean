import Mathlib.Tactic.Common

/-!
# For loops

A loop over a list is a left fold.  Statements about what happens inside its
iterations are made with `Along`, which looks at every iteration together with
the state it starts from.

Main results:

- `ForLoop.invariant`: an invariant of the state and of the items already visited, together
  with a property that it implies of every iteration.
- `ForLoop.Along.keeps`: an invariant of the iterations that satisfy a condition is one of a
  loop whose iterations all do.
- `ForLoop.scan_spec`: a scan that remembers the index of an entry returns its initial index or
  the index of an entry it has picked.
-/

namespace ForLoop

variable {σ α : Type*}

/-- Every iteration of the loop, started in the state before it, satisfies `P`. -/
def Along (P : σ → α → Prop) (body : σ → α → σ) : σ → List α → Prop
  | _, [] => True
  | s, a :: rest => P s a ∧ Along P body (body s a) rest

/-- The rule for a loop: the invariant may mention the items visited so far. -/
theorem invariant (items : List α) (body : σ → α → σ) (init : σ) {I : List α → σ → Prop}
    {P : σ → α → Prop} (hinit : I [] init)
    (hstep : ∀ before a after s, items = before ++ a :: after → I before s →
      P s a ∧ I (before ++ [a]) (body s a)) :
    Along P body init items ∧ I items (items.foldl body init) := by
  suffices hsuffix : ∀ rest before s, items = before ++ rest → I before s →
      Along P body s rest ∧ I items (rest.foldl body s) from
    hsuffix items [] init rfl hinit
  intro rest
  induction rest with
  | nil =>
    intro before s heq hs
    rw [List.append_nil] at heq
    rw [heq]
    exact ⟨trivial, hs⟩
  | cons a rest ih =>
    intro before s heq hs
    rcases hstep before a rest s heq hs with ⟨hP, hnext⟩
    rcases ih (before ++ [a]) (body s a) (by simpa using heq) hnext with ⟨halong, hlast⟩
    exact ⟨⟨hP, halong⟩, hlast⟩

/-- What every iteration that satisfies `P` keeps, the loop keeps. -/
theorem Along.keeps {items : List α} {body : σ → α → σ} {init : σ} {P : σ → α → Prop}
    {I : σ → Prop} (hstep : ∀ s a, P s a → I s → I (body s a))
    (halong : Along P body init items) (hinit : I init) : I (items.foldl body init) := by
  induction items generalizing init with
  | nil => exact hinit
  | cons a items ih => exact ih halong.2 (hstep init a halong.1 hinit)

/-- Every item satisfies `P` together with the items before it. -/
def WithHistory (P : List α → α → Prop) (items : List α) : Prop :=
  ∀ before a after, items = before ++ a :: after → P before a

theorem withHistory_nil (P : List α → α → Prop) : WithHistory P [] := by
  intro before a after heq
  simp at heq

theorem WithHistory.concat {P : List α → α → Prop} {items : List α} {a : α}
    (hitems : WithHistory P items) (ha : P items a) : WithHistory P (items ++ [a]) := by
  intro before b after heq
  rcases List.eq_nil_or_concat after with rfl | ⟨init, last, rfl⟩
  · rcases List.append_inj' heq rfl with ⟨rfl, hlast⟩
    rw [← List.singleton_inj.1 hlast]
    exact ha
  · have heq' : items ++ [a] = (before ++ b :: init) ++ [last] := by
      simpa using heq
    exact hitems before b init (List.append_inj' heq' rfl).1

/-- A scan over a list with indices that keeps its best entry or takes the current
one, if that satisfies `Q`. -/
theorem scan_spec {κ ν : Type*} {Q : ν → Prop} (consider : κ × Nat → ν × Nat → κ × Nat)
    (hconsider : ∀ best entry, consider best entry = best ∨
      ((consider best entry).2 = entry.2 ∧ Q entry.1))
    (entries : List ν) (init : κ × Nat) :
    (entries.zipIdx.foldl consider init).2 = init.2 ∨
      ∃ entry, entries[(entries.zipIdx.foldl consider init).2]? = some entry ∧ Q entry := by
  refine List.foldlRecOn (motive := fun best : κ × Nat => best.2 = init.2 ∨
    ∃ entry, entries[best.2]? = some entry ∧ Q entry) _ _ (Or.inl rfl) ?_
  intro best hbest entry hentry
  rcases hconsider best entry with hkeep | ⟨hindex, hQ⟩
  · rw [hkeep]
    exact hbest
  · right
    rw [hindex]
    exact ⟨entry.1, List.mk_mem_zipIdx_iff_getElem?.1 hentry, hQ⟩

/-- A search that starts from `init`, leaves it only for something found, and never
loses what it has found, finds something if one item alone would do. -/
theorem foldl_found (items : List α) (body : σ → α → σ) (init : σ) (found : σ → Prop)
    (hkeep : ∀ s, ∀ a ∈ items, found s → found (body s a))
    (hfirst : ∀ a ∈ items, body init a = init ∨ found (body init a))
    (hsome : ∃ a ∈ items, found (body init a)) : found (items.foldl body init) := by
  induction items with
  | nil =>
    rcases hsome with ⟨a, ha, -⟩
    cases ha
  | cons a items ih =>
    rw [List.foldl_cons]
    have hrest : ∀ s, found s → found (items.foldl body s) := by
      intro s hs
      refine List.foldlRecOn _ _ hs ?_
      intro s hs b hb
      exact hkeep s b (List.mem_cons_of_mem _ hb) hs
    rcases hfirst a List.mem_cons_self with hstay | hfound
    · rw [hstay]
      rcases hsome with ⟨b, hb, hb'⟩
      rcases List.mem_cons.1 hb with rfl | hb
      · exact hrest init (hstay ▸ hb')
      · exact ih (fun s c hc => hkeep s c (List.mem_cons_of_mem _ hc))
          (fun c hc => hfirst c (List.mem_cons_of_mem _ hc)) ⟨b, hb, hb'⟩
    · exact hrest _ hfound

end ForLoop
