import Mathlib.Algebra.Order.Ring.Int
import Mathlib.Data.List.Induction
import Mathlib.Logic.Function.Basic
import Mathlib.Tactic.Common

/-!
# Executable state machines

A machine is an initial state together with a partial step function.  Every
nondeterministic choice (which thread moves, whether a weak compare-exchange
fails spuriously, which value the environment supplies) is carried by the
label, so that one list of labels is one interleaving and can be evaluated.

Main results:

- `StateMachine.ReachableUnder.invariant`: a property of the initial state that every permitted
  step preserves holds in every state reached by permitted steps.
- `StateMachine.reachable_iff_run`: reachability is the existence of one interleaving.
- `StateMachine.run_induction`: the same rule for properties of the state and of the
  interleaving that led to it.
- `StateMachine.run_balance`: a quantity that each step changes by the weight of the step
  changes by the total weight of the run.
- `StateMachine.run_project`: the part of a run that concerns one component is a run of that
  component.
-/

/-! ## Machines -/

/-- An executable machine whose labels resolve every choice. -/
structure StateMachine (σ : Type*) (α : Type*) where
  initial : σ
  step : σ → α → Option σ

namespace StateMachine

/-- One constant for each size, so that the numbers of a run on a few threads carry no proof
of their own. -/
scoped instance neZeroOne : NeZero (1 : Nat) := ⟨Nat.one_ne_zero⟩

@[inherit_doc neZeroOne]
scoped instance neZeroTwo : NeZero (2 : Nat) := ⟨Nat.succ_ne_zero 1⟩

@[inherit_doc neZeroOne]
scoped instance neZeroThree : NeZero (3 : Nat) := ⟨Nat.succ_ne_zero 2⟩

variable {σ α : Type*} (m : StateMachine σ α)

/-! ## Interleavings -/

/-- Execute one interleaving; a disabled label makes the whole run undefined. -/
def run : σ → List α → Option σ
  | s, [] => some s
  | s, a :: rest => (m.step s a).bind fun t => run t rest

@[simp]
theorem run_nil (s : σ) : m.run s [] = some s :=
  rfl

theorem run_cons (s : σ) (a : α) (rest : List α) :
    m.run s (a :: rest) = (m.step s a).bind fun t => m.run t rest :=
  rfl

/-- A run over a concatenation is the composition of the two runs. -/
theorem run_append (s : σ) (first second : List α) :
    m.run s (first ++ second) = (m.run s first).bind fun t => m.run t second := by
  induction first generalizing s with
  | nil => simp
  | cons a rest ih =>
    simp only [List.cons_append, run_cons]
    cases m.step s a with
    | none => simp
    | some t => simpa using ih t

/-- Two runs that meet in the middle compose. -/
theorem run_trans {s t u : σ} {first second : List α}
    (hfirst : m.run s first = some t) (hsecond : m.run t second = some u) :
    m.run s (first ++ second) = some u := by
  rw [run_append, hfirst]
  exact hsecond

/-- A single enabled step is a run of length one. -/
theorem run_single {s t : σ} {a : α} (h : m.step s a = some t) : m.run s [a] = some t := by
  simp [run_cons, h]

/-- A property that the steps of a run keep holds at its end. -/
theorem run_keeps {I : σ → Prop} {labels : List α}
    (hstep : ∀ a ∈ labels, ∀ s t, I s → m.step s a = some t → I t) {s t : σ} (hs : I s)
    (hrun : m.run s labels = some t) : I t := by
  induction labels generalizing s with
  | nil =>
    cases hrun
    exact hs
  | cons a rest ih =>
    rw [run_cons, Option.bind_eq_some_iff] at hrun
    rcases hrun with ⟨u, hu, hrest⟩
    exact ih (fun b hb => hstep b (List.mem_cons_of_mem _ hb))
      (hstep a List.mem_cons_self s u hs hu) hrest

/-! ## Reachability under a guard -/

/-- States reached from the initial one by steps that all meet `guard`, a
condition on the state before the step and on its label. -/
inductive ReachableUnder (guard : σ → α → Prop) : σ → Prop
  | initial : ReachableUnder guard m.initial
  | step {s t : σ} {a : α} :
      ReachableUnder guard s → guard s a → m.step s a = some t →
        ReachableUnder guard t

/-- States reached by any interleaving at all. -/
def Reachable (s : σ) : Prop :=
  m.ReachableUnder (fun _ _ => True) s

variable {m}

/-- The invariant rule: initialization and one step lemma suffice. -/
theorem ReachableUnder.invariant {guard : σ → α → Prop} {I : σ → Prop} {s : σ}
    (hreach : m.ReachableUnder guard s) (hinit : I m.initial)
    (hstep : ∀ s a t, I s → guard s a → m.step s a = some t → I t) : I s := by
  induction hreach with
  | initial => exact hinit
  | step _ hguard hs ih => exact hstep _ _ _ ih hguard hs

theorem Reachable.initial : m.Reachable m.initial :=
  ReachableUnder.initial

theorem Reachable.step {s t : σ} {a : α} (hreach : m.Reachable s)
    (hs : m.step s a = some t) : m.Reachable t :=
  ReachableUnder.step hreach trivial hs

/-- The invariant rule for unrestricted interleavings. -/
theorem Reachable.invariant {I : σ → Prop} {s : σ} (hreach : m.Reachable s)
    (hinit : I m.initial)
    (hstep : ∀ s a t, I s → m.step s a = some t → I t) : I s :=
  ReachableUnder.invariant hreach hinit fun s a t hI _ => hstep s a t hI

/-- A run from a reachable state ends in a reachable state. -/
theorem Reachable.run {s t : σ} {labels : List α} (hreach : m.Reachable s)
    (hrun : m.run s labels = some t) : m.Reachable t := by
  induction labels generalizing s with
  | nil =>
    cases hrun
    exact hreach
  | cons a rest ih =>
    rw [run_cons, Option.bind_eq_some_iff] at hrun
    rcases hrun with ⟨u, hs, hrest⟩
    exact ih (hreach.step hs) hrest

/-- Reachability is the existence of one interleaving. -/
theorem reachable_iff_run {s : σ} : m.Reachable s ↔ ∃ labels, m.run m.initial labels = some s := by
  constructor
  · intro hreach
    induction hreach with
    | initial => exact ⟨[], rfl⟩
    | step _ _ hs ih =>
      rcases ih with ⟨labels, hrun⟩
      exact ⟨labels ++ [_], m.run_trans hrun (m.run_single hs)⟩
  · rintro ⟨labels, hrun⟩
    exact Reachable.initial.run hrun

/-- The invariant rule for a property of the state and of the interleaving that
led to it: it is enough to look at one further label. -/
theorem run_induction {P : List α → σ → Prop} (hinit : P [] m.initial)
    (hstep : ∀ labels s a t, m.run m.initial labels = some s → P labels s →
      m.step s a = some t → P (labels ++ [a]) t)
    {labels : List α} {s : σ} (hrun : m.run m.initial labels = some s) : P labels s := by
  induction labels using List.reverseRecOn generalizing s with
  | nil =>
    cases hrun
    exact hinit
  | append_singleton labels a ih =>
    rw [run_append, Option.bind_eq_some_iff] at hrun
    rcases hrun with ⟨u, hu, hlast⟩
    rw [run_cons, Option.bind_eq_some_iff] at hlast
    rcases hlast with ⟨t, ht, hs⟩
    cases hs
    exact hstep labels u a s hu (ih hu) ht

/-! ## Restricting the steps -/

/-- The machine that takes only the steps that meet the guard. -/
def restrict (m : StateMachine σ α) (guard : σ → α → Prop) [∀ s a, Decidable (guard s a)] :
    StateMachine σ α where
  initial := m.initial
  step s a := if guard s a then m.step s a else none

variable {guard : σ → α → Prop}

theorem restrict_step_eq_some [∀ s a, Decidable (guard s a)] {s t : σ} {a : α}
    : (m.restrict guard).step s a = some t ↔ guard s a ∧ m.step s a = some t := by
  change (if guard s a then m.step s a else none) = some t ↔ _
  by_cases hguard : guard s a
  · simp [hguard]
  · simp [hguard]

theorem restrict_step_of_guard [∀ s a, Decidable (guard s a)] {s : σ} {a : α} (h : guard s a)
    : (m.restrict guard).step s a = m.step s a :=
  if_pos h

/-- The restricted machine reaches what the machine reaches under the guard. -/
theorem reachable_restrict_iff [∀ s a, Decidable (guard s a)] {s : σ} :
    (m.restrict guard).Reachable s ↔ m.ReachableUnder guard s := by
  constructor
  · intro hreach
    induction hreach with
    | initial => exact .initial
    | step _ _ hs ih =>
      rcases restrict_step_eq_some.1 hs with ⟨hguard, hstep⟩
      exact ih.step hguard hstep
  · intro hreach
    induction hreach with
    | initial => exact .initial
    | step _ hguard hs ih => exact ih.step (restrict_step_eq_some.2 ⟨hguard, hs⟩)

/-! ## Properties of every step of one interleaving -/

variable (m)

/-- Every step of the interleaving, from `s` on, satisfies `P`. -/
def Along (P : σ → α → σ → Prop) : σ → List α → Prop
  | _, [] => True
  | s, a :: rest => ∀ t, m.step s a = some t → P s a t ∧ Along P t rest

variable {m}

/-- Two step properties that agree at every invariant state agree along every
interleaving; the invariant has to survive only the steps that satisfy them. -/
theorem along_iff_along {I : σ → Prop} {P Q : σ → α → σ → Prop}
    (hagree : ∀ s a t, I s → m.step s a = some t → (P s a t ↔ Q s a t))
    (hkeep : ∀ s a t, I s → m.step s a = some t → P s a t → I t)
    {s : σ} (hs : I s) (labels : List α) :
    m.Along P s labels ↔ m.Along Q s labels := by
  induction labels generalizing s with
  | nil => exact Iff.rfl
  | cons a rest ih =>
    constructor
    · intro h t ht
      rcases h t ht with ⟨hP, hrest⟩
      exact ⟨(hagree s a t hs ht).1 hP, (ih (hkeep s a t hs ht hP)).1 hrest⟩
    · intro h t ht
      rcases h t ht with ⟨hQ, hrest⟩
      have hP := (hagree s a t hs ht).2 hQ
      exact ⟨hP, (ih (hkeep s a t hs ht hP)).2 hrest⟩

/-- The steps of a concrete interleaving can be checked one by one. -/
instance decidableAlong {P : σ → α → σ → Prop} [∀ s a t, Decidable (P s a t)] :
    ∀ (s : σ) (labels : List α), Decidable (m.Along P s labels)
  | _, [] => isTrue trivial
  | s, a :: rest =>
    match h : m.step s a with
    | none => isTrue fun t ht => by simp [h] at ht
    | some u =>
      have : Decidable (m.Along P u rest) := decidableAlong u rest
      decidable_of_iff (P s a u ∧ m.Along P u rest) (by simp [Along, h])

/-- A run whose steps all meet the guard ends in a state reachable under it. -/
theorem ReachableUnder.run {guard : σ → α → Prop} {s t : σ} {labels : List α}
    (hreach : m.ReachableUnder guard s)
    (hguard : m.Along (fun s a _ => guard s a) s labels)
    (hrun : m.run s labels = some t) : m.ReachableUnder guard t := by
  induction labels generalizing s with
  | nil =>
    cases hrun
    exact hreach
  | cons a rest ih =>
    rw [run_cons, Option.bind_eq_some_iff] at hrun
    rcases hrun with ⟨u, hu, hrest⟩
    rcases hguard u hu with ⟨ha, htail⟩
    exact ih (hreach.step ha hu) htail hrest

/-! ## Counting steps -/

variable (m)

/-- Number of steps of the interleaving, from `s` on, that are `marked`. -/
def tally (marked : σ → α → Bool) : σ → List α → Nat
  | _, [] => 0
  | s, a :: rest =>
    match m.step s a with
    | none => 0
    | some t => (marked s a).toNat + tally marked t rest

variable {m}

/-- A quantity that every marked step raises by one, and no other step changes,
counts the marked steps of a run. -/
theorem run_balance {I : σ → Prop} (marked : σ → α → Bool) (f : σ → Int)
    (hstep : ∀ s a t, I s → m.step s a = some t → I t ∧ f t = f s + (marked s a).toNat)
    {s t : σ} (hs : I s) {labels : List α} (hrun : m.run s labels = some t) :
    I t ∧ f t = f s + m.tally marked s labels := by
  induction labels generalizing s with
  | nil =>
    cases hrun
    exact ⟨hs, by simp [tally]⟩
  | cons a rest ih =>
    rw [run_cons, Option.bind_eq_some_iff] at hrun
    rcases hrun with ⟨u, hu, hrest⟩
    rcases hstep s a u hs hu with ⟨hIu, hfu⟩
    rcases ih hIu hrest with ⟨hIt, hft⟩
    refine ⟨hIt, ?_⟩
    rw [hft, hfu, tally, hu]
    push_cast
    omega

/-- A run has no marked step exactly when every step along it is unmarked. -/
theorem tally_eq_zero_iff {marked : σ → α → Bool} {s t : σ} {labels : List α}
    (hrun : m.run s labels = some t) :
    m.tally marked s labels = 0 ↔ m.Along (fun s a _ => marked s a = false) s labels := by
  induction labels generalizing s with
  | nil => simp [tally, Along]
  | cons a rest ih =>
    rw [run_cons, Option.bind_eq_some_iff] at hrun
    rcases hrun with ⟨u, hu, hrest⟩
    simp only [tally, Along, hu, Option.some.injEq, forall_eq']
    rw [← ih hrest]
    cases marked s a with
    | false | true => simp

theorem tally_concat (marked : σ → α → Bool) {s t u : σ} {labels : List α} {a : α}
    (hrun : m.run s labels = some t) (hstep : m.step t a = some u) :
    m.tally marked s (labels ++ [a]) = m.tally marked s labels + (marked t a).toNat := by
  induction labels generalizing s with
  | nil =>
    cases hrun
    simp [tally, hstep]
  | cons b rest ih =>
    rw [run_cons, Option.bind_eq_some_iff] at hrun
    rcases hrun with ⟨v, hv, hrest⟩
    simp only [List.cons_append, tally, hv, ih hrest, Nat.add_assoc]

/-! ## What a run outputs -/

variable (m)

/-- What the steps of the interleaving, from `s` on, output. -/
def collect {β : Type*} (output : σ → α → Option β) : σ → List α → List β
  | _, [] => []
  | s, a :: rest =>
    match m.step s a with
    | none => []
    | some t => (output s a).toList ++ collect output t rest

variable {m}

theorem collect_concat {β : Type*} (output : σ → α → Option β) {s t u : σ} {labels : List α}
    {a : α} (hrun : m.run s labels = some t) (hstep : m.step t a = some u) :
    m.collect output s (labels ++ [a]) = m.collect output s labels ++ (output t a).toList := by
  induction labels generalizing s with
  | nil =>
    cases hrun
    simp [collect, hstep]
  | cons b rest ih =>
    rw [run_cons, Option.bind_eq_some_iff] at hrun
    rcases hrun with ⟨v, hv, hrest⟩
    simp only [List.cons_append, collect, hv, ih hrest, List.append_assoc]

/-- The part of a run that concerns a component is a run of the component, when
every step is a step of the component or leaves it alone. -/
theorem run_project {τ β : Type*} {c : StateMachine τ β} (view : σ → τ)
    (event : σ → α → Option β) (hinit : view m.initial = c.initial)
    (hstep : ∀ s a t, m.step s a = some t →
      c.run (view s) (event s a).toList = some (view t))
    {labels : List α} {s : σ} (hrun : m.run m.initial labels = some s) :
    c.run c.initial (m.collect event m.initial labels) = some (view s) := by
  refine run_induction (m := m)
    (P := fun labels s => c.run c.initial (m.collect event m.initial labels) = some (view s))
    ?_ ?_ hrun
  · rw [hinit]
    rfl
  · intro labels s a t hrun ih ht
    rw [collect_concat event hrun ht]
    exact c.run_trans ih (hstep s a t ht)

end StateMachine
