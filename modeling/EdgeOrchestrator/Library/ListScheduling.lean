import EdgeOrchestrator.Library.LongestPath
import Mathlib.Algebra.Order.Group.Int
import Mathlib.Algebra.Ring.Int.Defs

/-!
# List schedules

Jobs are placed one after the other, predecessors first, each on a node of its own
choice.  A job starts when its inputs have arrived and its node is free; an input
that comes from a predecessor is delayed by a transfer.  The makespan is the latest
finish time.

Main results:

- `ListScheduling.Valid.pathCost_le`: a job finishes no earlier than any path of jobs that ends
  in it takes.
- `ListScheduling.Valid.load_le_makespan`: no node is done before its load.
- `ListScheduling.Valid.makespan_le`: the makespan is at most the time of running all jobs and
  all transfers one after the other.
-/

namespace ListScheduling

variable {α ν : Type*}

/-- The jobs to place: their dependencies, durations, nodes and transfer delays. -/
structure Jobs (α ν : Type*) where
  edge : α → α → Prop
  cost : α → ℤ
  node : α → ν
  delay : α → α → ℤ

/-- What has been computed so far. -/
structure Timeline (α ν : Type*) where
  finish : α → ℤ
  free : ν → ℤ
  makespan : ℤ

/-- When the inputs of a job arrive: zero, and one time for each predecessor. -/
def Arrivals (jobs : Jobs α ν) (s : Timeline α ν) (v : α) : Set ℤ :=
  {x | x = 0 ∨ ∃ u, jobs.edge u v ∧ x = s.finish u + jobs.delay u v}

/-- `t` is `s` after the job `v` has been placed. -/
structure Places (jobs : Jobs α ν) (s : Timeline α ν) (v : α) (t : Timeline α ν) : Prop where
  finish_self : ∃ ready, IsGreatest (Arrivals jobs s v) ready ∧
    t.finish v = max ready (s.free (jobs.node v)) + jobs.cost v
  finish_other : ∀ u, u ≠ v → t.finish u = s.finish u
  free_self : t.free (jobs.node v) = t.finish v
  free_other : ∀ j, j ≠ jobs.node v → t.free j = s.free j
  makespan : t.makespan = max s.makespan (t.finish v)

/-- The duration of the listed jobs of one node. -/
def load [DecidableEq ν] (jobs : Jobs α ν) (placed : List α) (j : ν) : ℤ :=
  ((placed.filter fun v => jobs.node v = j).map jobs.cost).sum

/-- What is true of the times of the placed jobs; `inbound` is the time that all
transfers to a job take together. -/
structure Valid [DecidableEq ν] (jobs : Jobs α ν) (inbound : α → ℤ) (placed : List α)
    (s : Timeline α ν) : Prop where
  makespan_nonneg : 0 ≤ s.makespan
  finish_le : ∀ v ∈ placed, s.finish v ≤ s.makespan
  free_le : ∀ j, s.free j ≤ s.makespan
  cost_le : ∀ v ∈ placed, jobs.cost v ≤ s.finish v
  edge_le : ∀ v ∈ placed, ∀ u, jobs.edge u v → s.finish u + jobs.cost v ≤ s.finish v
  load_le : ∀ j, load jobs placed j ≤ s.free j
  makespan_le : s.makespan ≤ (placed.map jobs.cost).sum + (placed.map inbound).sum

variable [DecidableEq ν] {jobs : Jobs α ν} {inbound : α → ℤ} {placed : List α}
  {s t : Timeline α ν} {v : α}

theorem load_concat (jobs : Jobs α ν) (placed : List α) (v : α) (j : ν) :
    load jobs (placed ++ [v]) j =
      load jobs placed j + if jobs.node v = j then jobs.cost v else 0 := by
  unfold load
  rw [List.filter_append, List.map_append, List.sum_append]
  by_cases hj : jobs.node v = j
  · simp [hj]
  · simp [hj]

/-- Nothing has been placed. -/
theorem Valid.nil (hfree : ∀ j, s.free j = 0) (hmakespan : s.makespan = 0) :
    Valid jobs inbound [] s where
  makespan_nonneg := hmakespan.ge
  finish_le v hv := by cases hv
  free_le j := by rw [hfree, hmakespan]
  cost_le v hv := by cases hv
  edge_le v hv := by cases hv
  load_le j := (hfree j).ge
  makespan_le := by
    rw [hmakespan]
    exact le_rfl

/-- One more job, all predecessors of which have been placed. -/
theorem Valid.place (hs : Valid jobs inbound placed s) (hplace : Places jobs s v t)
    (hnew : v ∉ placed) (hpreds : ∀ u, jobs.edge u v → u ∈ placed)
    (hclosed : ∀ w ∈ placed, ¬ jobs.edge v w) (hcost : 0 ≤ jobs.cost v)
    (hdelay : ∀ u, jobs.edge u v → 0 ≤ jobs.delay u v ∧ jobs.delay u v ≤ inbound v)
    (hinbound : 0 ≤ inbound v) : Valid jobs inbound (placed ++ [v]) t := by
  rcases hplace.finish_self with ⟨ready, hready, hfinish⟩
  have hzero : 0 ≤ ready := hready.2 (Or.inl rfl)
  -- The inputs arrive at most all transfers after the makespan so far.
  have hlate : ready ≤ s.makespan + inbound v := by
    rcases hready.1 with heq | ⟨u, huv, heq⟩
    · rw [heq]
      exact add_nonneg hs.makespan_nonneg hinbound
    · rw [heq]
      exact add_le_add (hs.finish_le u (hpreds u huv)) (hdelay u huv).2
  have hfree := hs.free_le (jobs.node v)
  have hlatest : t.finish v ≤ s.makespan + inbound v + jobs.cost v := by
    rw [hfinish]
    omega
  have hkeep : ∀ w ∈ placed, t.finish w = s.finish w := by
    intro w hw
    exact hplace.finish_other w fun heq => hnew (heq ▸ hw)
  have hgrow : s.makespan ≤ t.makespan := by
    rw [hplace.makespan]
    exact le_max_left _ _
  have hself : t.finish v ≤ t.makespan := by
    rw [hplace.makespan]
    exact le_max_right _ _
  constructor
  · exact hs.makespan_nonneg.trans hgrow
  · intro w hw
    rcases List.mem_append.1 hw with hw | hw
    · rw [hkeep w hw]
      exact (hs.finish_le w hw).trans hgrow
    · rw [List.mem_singleton.1 hw]
      exact hself
  · intro j
    by_cases hj : j = jobs.node v
    · rw [hj, hplace.free_self]
      exact hself
    · rw [hplace.free_other j hj]
      exact (hs.free_le j).trans hgrow
  · intro w hw
    rcases List.mem_append.1 hw with hw | hw
    · rw [hkeep w hw]
      exact hs.cost_le w hw
    · rw [List.mem_singleton.1 hw, hfinish]
      omega
  · intro w hw u huw
    rcases List.mem_append.1 hw with hw | hw
    · have huv : u ≠ v := fun heq => hclosed w hw (heq ▸ huw)
      rw [hkeep w hw, hplace.finish_other u huv]
      exact hs.edge_le w hw u huw
    · rw [List.mem_singleton.1 hw] at huw ⊢
      have harrival : s.finish u + jobs.delay u v ≤ ready := hready.2 (Or.inr ⟨u, huw, rfl⟩)
      have hnonneg := (hdelay u huw).1
      rw [hkeep u (hpreds u huw), hfinish]
      omega
  · intro j
    have hload := hs.load_le j
    rw [load_concat]
    split
    · rename_i hj
      rw [← hj, hplace.free_self, hfinish]
      rw [← hj] at hload
      omega
    · rename_i hj
      rw [hplace.free_other j (Ne.symm hj), add_zero]
      exact hload
  · have hbefore := hs.makespan_le
    rw [hplace.makespan, List.map_append, List.map_append, List.sum_append, List.sum_append,
      List.map_singleton, List.map_singleton, List.sum_singleton, List.sum_singleton]
    omega

/-- A job finishes no earlier than a path of jobs that ends in it takes. -/
theorem Valid.pathCost_le (hs : Valid jobs inbound placed s)
    (hpreds : ∀ w ∈ placed, ∀ u, jobs.edge u w → u ∈ placed) {path : List α}
    (hpath : path ∈ LongestPath.PathsTo jobs.edge v) (hv : v ∈ placed) :
    (path.map jobs.cost).sum ≤ s.finish v := by
  induction path using List.reverseRecOn generalizing v with
  | nil => exact absurd rfl (LongestPath.ne_nil_of_mem_pathsTo hpath)
  | append_singleton init last ih =>
    rcases LongestPath.pathsTo_cases hpath with hsingle | ⟨u, init', hinit, huv, heq⟩
    · rw [hsingle, List.map_singleton, List.sum_singleton]
      exact hs.cost_le v hv
    · rcases List.append_inj' heq rfl with ⟨rfl, hlast⟩
      obtain rfl : last = v := List.singleton_inj.1 hlast
      rw [List.map_append, List.sum_append, List.map_singleton, List.sum_singleton]
      have hprefix := ih hinit (hpreds last hv u huv)
      have hedge := hs.edge_le last hv u huv
      omega

/-- No node is done before its load. -/
theorem Valid.load_le_makespan (hs : Valid jobs inbound placed s) (j : ν) :
    load jobs placed j ≤ s.makespan :=
  (hs.load_le j).trans (hs.free_le j)

end ListScheduling
