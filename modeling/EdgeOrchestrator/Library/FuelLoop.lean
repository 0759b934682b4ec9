import Mathlib.Tactic.Common

/-!
# Fuelled while loops

A `while` loop is a body that either continues with a new state or leaves the
loop with a result.  Running it on fuel keeps the definition executable, and
the rule below turns an invariant with a decreasing measure into the statement
that enough fuel always produces a result.

Main results:

- `FuelLoop.run_mono`: extra fuel never changes a produced result.
- `FuelLoop.run_spec`: total correctness from an invariant and a measure.
- `FuelLoop.getD_run_eq`: a loop that returns is one iteration and the loop from there.
-/

namespace FuelLoop

variable {σ ρ : Type*}

/-- Run a loop body on fuel; `none` means that the fuel was not enough. -/
def run (body : σ → σ ⊕ ρ) : Nat → σ → Option ρ
  | 0, _ => none
  | fuel + 1, s =>
    match body s with
    | .inl t => run body fuel t
    | .inr r => some r

theorem run_succ (body : σ → σ ⊕ ρ) (fuel : Nat) (s : σ) :
    run body (fuel + 1) s =
      match body s with
      | .inl t => run body fuel t
      | .inr r => some r :=
  rfl

variable {body : σ → σ ⊕ ρ}

/-- Extra fuel never changes a produced result. -/
theorem run_mono {fuel fuel' : Nat} {s : σ} {r : ρ} (h : run body fuel s = some r)
    (hle : fuel ≤ fuel') :
    run body fuel' s = some r := by
  induction fuel generalizing s fuel' with
  | zero => simp [run] at h
  | succ fuel ih =>
    obtain ⟨k, rfl⟩ : ∃ k, fuel' = k + 1 := ⟨fuel' - 1, by omega⟩
    rw [run_succ] at h ⊢
    cases hbody : body s with
    | inl t =>
      rw [hbody] at h
      exact ih h (by omega)
    | inr r' =>
      rw [hbody] at h
      exact h

variable {Q : ρ → Prop}

/-- Total correctness: an invariant kept by every continuing iteration, a
measure that drops with it, and a postcondition at every exit. -/
theorem run_spec {I : σ → Prop} (μ : σ → Nat)
    (hcontinue : ∀ s t, I s → body s = .inl t → I t ∧ μ t < μ s)
    (hexit : ∀ s r, I s → body s = .inr r → Q r) {s : σ} (hs : I s) {fuel : Nat}
    (hfuel : μ s < fuel) :
    ∃ r, run body fuel s = some r ∧ Q r := by
  induction fuel generalizing s with
  | zero => omega
  | succ fuel ih =>
    rw [run_succ]
    cases hbody : body s with
    | inl t =>
      rcases hcontinue s t hs hbody with ⟨ht, hlt⟩
      exact ih ht (by omega)
    | inr r => exact ⟨r, rfl, hexit s r hs hbody⟩

/-- Partial correctness of a run that produced a result. -/
theorem run_invariant {I : σ → Prop} (hcontinue : ∀ s t, I s → body s = .inl t → I t)
    (hexit : ∀ s r, I s → body s = .inr r → Q r) {s : σ} (hs : I s) {fuel : Nat} {r : ρ}
    (hrun : run body fuel s = some r) : Q r := by
  induction fuel generalizing s with
  | zero => cases hrun
  | succ fuel ih =>
    rw [run_succ] at hrun
    cases hbody : body s with
    | inl t =>
      rw [hbody] at hrun
      exact ih (hcontinue s t hs hbody) hrun
    | inr r' =>
      rw [hbody] at hrun
      cases hrun
      exact hexit s r hs hbody

/-- Total correctness, with continuing and exit in one obligation. -/
theorem run_total {I : σ → Prop} (μ : σ → Nat)
    (hbody : ∀ s, I s → Sum.elim (fun t => I t ∧ μ t < μ s) Q (body s)) {s : σ} (hs : I s)
    {fuel : Nat} (hfuel : μ s < fuel) :
    ∃ r, run body fuel s = some r ∧ Q r := by
  refine run_spec μ ?_ ?_ hs hfuel
  · intro s t hs hstep
    have hnext := hbody s hs
    rw [hstep] at hnext
    exact hnext
  · intro s r hs hstep
    have hexit := hbody s hs
    rw [hstep] at hexit
    exact hexit

/-- With enough fuel the default of a loop that returns is not used. -/
theorem getD_of_total {x : Option ρ} (h : ∃ r, x = some r ∧ Q r) (d : ρ) :
    Q (x.getD d) := by
  rcases h with ⟨r, rfl, hr⟩
  exact hr

/-- Any larger amount of fuel gives the same result. -/
theorem run_eq_getD {fuel fuel' : Nat} {s : σ} (h : ∃ r, run body fuel s = some r ∧ Q r) (d : ρ)
    (hle : fuel ≤ fuel') :
    run body fuel' s = some ((run body fuel s).getD d) := by
  rcases h with ⟨r, hr, -⟩
  rw [run_mono hr hle, hr]
  rfl

/-- A loop with a measure that every continuing iteration lowers is one iteration, and
the same loop from there. -/
theorem getD_run_eq (μ : σ → Nat) (hlower : ∀ s t, body s = .inl t → μ t < μ s) (s : σ)
    (d : σ → ρ) :
    (run body (μ s + 1) s).getD (d s) =
      match body s with
      | .inl t => (run body (μ t + 1) t).getD (d t)
      | .inr r => r := by
  rw [run_succ]
  cases hbody : body s with
  | inl t =>
    have hlt := hlower s t hbody
    have htotal : ∃ r, run body (μ t + 1) t = some r ∧ True :=
      run_spec (I := fun _ => True) (Q := fun _ => True) μ
        (fun s t _ h => ⟨trivial, hlower s t h⟩) (fun _ _ _ _ => trivial) trivial
        (Nat.lt_succ_self _)
    rcases htotal with ⟨r, hr, -⟩
    simp only
    rw [hr, run_mono hr hlt]
    rfl
  | inr r => rfl

end FuelLoop
