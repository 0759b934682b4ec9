import EdgeOrchestrator.Orchestrator.WireFormat
import EdgeOrchestrator.Workload.CriticalPath
import Mathlib.Algebra.BigOperators.Ring.Finset
import Mathlib.Algebra.Order.BigOperators.Group.List

/-!
# Costs from the wire

`decode_submission` casts the unsigned 64-bit cost of every task to a signed one and
checks the shape of the graph only.  `total_compute_cost` then adds up the costs of all
tasks and `critical_path_cost` those along paths, in signed 64-bit arithmetic.  The
metrics of this development are exact, so that a sum which leaves the signed range is
visible.

Main results:

- `WorkloadDAG.criticalPathDist_bounded`: every distance of the relaxation is the cost of a
  path at most, and every sum it forms is within the total.
- `submittedCosts_sound_iff`: the metrics of an accepted submission are sound exactly when its
  unsigned costs add up to less than `2 ^ 63`.
-/

namespace EdgeOrchestrator

/-- The range of `int64_t`. -/
def FitsInt64 (x : Int) : Prop :=
  -2 ^ 63 ≤ x ∧ x < 2 ^ 63

namespace WorkloadDAG

/-! ## The sums that are formed -/

/-- Every sum of `total_compute_cost` fits. -/
def TotalFits (h : HashOrders) (dag : WorkloadDAG) : Prop :=
  ForLoop.Along (fun total id => FitsInt64 (total + dag.costOf id))
    (fun total id => total + dag.costOf id) 0 (h.tasks.order dag.tasks.keys)

variable (dag : WorkloadDAG)

/-- The sum formed when the edge from `u` to `v` is relaxed fits. -/
def RelaxFits (u : TaskId) (dist : UnorderedMap TaskId Int) (v : TaskId) : Prop :=
  v ∈ dag.tasks → FitsInt64 (UnorderedMap.subscript dist u + dag.costOf v)

variable (dist : UnorderedMap TaskId Int)

/-- The table after the entry of a source has been set. -/
def seedSource (u : TaskId) : UnorderedMap TaskId Int :=
  if (dag.dependencies u).isEmpty then
    dist.insert u (max (UnorderedMap.subscript dist u) (dag.costOf u))
  else dist

/-- All sums formed when a task is settled fit. -/
def SettleFits (u : TaskId) : Prop :=
  u ∈ dag.tasks →
    ForLoop.Along (RelaxFits dag u) (relaxEdge dag u) (seedSource dag dist u) (dag.dependents u)

/-- Every sum of `critical_path_cost` fits; none is formed when it returns early. -/
def CriticalPathFits (h : HashOrders) (dag : WorkloadDAG) : Prop :=
  dag.tasks.keys ≠ [] → (dag.topologicalOrder h).length = dag.taskCount →
    ForLoop.Along (SettleFits dag) (settleTask dag)
      ((h.tasks.order dag.tasks.keys).foldl (fun dist id => dist.insert id 0) ∅)
      (dag.topologicalOrder h)

/-- The cost of all tasks together. -/
def allCosts : Int :=
  (dag.tasks.keys.map dag.costOf).sum

/-- Every entry is at most the cost of a path that ends in its task. -/
def PathBounded : Prop :=
  ∀ v, 0 ≤ UnorderedMap.subscript dist v ∧
    ∃ path ∈ LongestPath.PathsTo dag.Edge v, UnorderedMap.subscript dist v ≤ dag.pathCost path

section Bounds

variable {dag : WorkloadDAG} {h : HashOrders} {u v : TaskId} {dist : UnorderedMap TaskId Int}

theorem settleTask_eq (hu : u ∈ dag.tasks) :
    settleTask dag dist u = (dag.dependents u).foldl (relaxEdge dag u) (seedSource dag dist u) := by
  rcases exists_getTask hu with ⟨task, htask⟩
  rw [settleTask, htask, seedSource, costOf_of_getTask htask]

theorem settleTask_of_notMem (hu : u ∉ dag.tasks) : settleTask dag dist u = dist := by
  have hnone : dag.getTask u = none := AList.lookup_eq_none.2 hu
  rw [settleTask, hnone]

theorem relaxEdge_of_notMem (hv : v ∉ dag.tasks) : relaxEdge dag u dist v = dist := by
  have hnone : dag.getTask v = none := AList.lookup_eq_none.2 hv
  rw [relaxEdge, hnone]

theorem costOf_of_notMem (hv : v ∉ dag.tasks) : dag.costOf v = 0 := by
  have hnone : dag.getTask v = none := AList.lookup_eq_none.2 hv
  rw [costOf, hnone]
  rfl

/-- A path of an acyclic graph visits no vertex twice. -/
theorem Acyclic.nodup_of_isChain (hacyclic : dag.Acyclic) {path : List TaskId}
    (hchain : path.IsChain dag.Edge) : path.Nodup := by
  have hpairwise : path.Pairwise (Relation.TransGen dag.Edge) :=
    (hchain.imp fun _ _ hedge => Relation.TransGen.single hedge).pairwise
  refine hpairwise.imp ?_
  rintro a b hpath rfl
  exact hacyclic a hpath

/-- No path costs more than all tasks together. -/
theorem pathCost_le_total (hacyclic : dag.Acyclic) (hcosts : dag.NonnegCosts)
    {path : List TaskId} (hchain : path.IsChain dag.Edge) : dag.pathCost path ≤ dag.allCosts := by
  have hfilter : dag.pathCost path = ((path.filter fun v => v ∈ dag.tasks).map dag.costOf).sum := by
    clear hchain
    induction path with
    | nil => rfl
    | cons v path ih =>
      rw [pathCost, List.map_cons, List.sum_cons]
      change dag.costOf v + dag.pathCost path = _
      by_cases hv : v ∈ dag.tasks
      · rw [ih, List.filter_cons_of_pos (by simpa using hv), List.map_cons, List.sum_cons]
      · rw [ih, List.filter_cons_of_neg (by simpa using hv), costOf_of_notMem hv, zero_add]
  have hsub : (path.filter fun v => v ∈ dag.tasks).Subperm dag.tasks.keys := by
    apply List.subperm_of_subset ((hacyclic.nodup_of_isChain hchain).filter _)
    intro v hv
    rw [List.mem_filter, decide_eq_true_iff] at hv
    exact AList.mem_keys.1 hv.2
  rcases hsub with ⟨part, hperm, hpart⟩
  rw [hfilter, allCosts, ← (hperm.map dag.costOf).sum_eq]
  apply List.Sublist.sum_le_sum (hpart.map dag.costOf)
  intro x hx
  rcases List.mem_map.1 hx with ⟨v, -, rfl⟩
  exact hcosts.costOf_nonneg v

/-- A sum formed over an edge is the cost of a longer path at most. -/
theorem PathBounded.candidate (hdist : PathBounded dag dist) (huv : dag.Edge u v) :
    ∃ path ∈ LongestPath.PathsTo dag.Edge v,
      UnorderedMap.subscript dist u + dag.costOf v ≤ dag.pathCost path := by
  rcases hdist u with ⟨-, path, hpath, hle⟩
  refine ⟨path ++ [v], LongestPath.concat_mem_pathsTo hpath huv, ?_⟩
  rw [pathCost, List.map_append, List.sum_append, List.map_singleton, List.sum_singleton]
  exact add_le_add_left hle _

/-- Relaxing an edge does not overflow. -/
theorem PathBounded.relaxFits (hacyclic : dag.Acyclic) (hcosts : dag.NonnegCosts)
    (htotal : dag.allCosts < 2 ^ 63) (hdist : PathBounded dag dist) (huv : dag.Edge u v) :
    RelaxFits dag u dist v := by
  intro _
  rcases hdist.candidate huv with ⟨path, hpath, hle⟩
  have hbound := pathCost_le_total hacyclic hcosts hpath.1
  constructor
  · exact le_trans (by decide) (add_nonneg (hdist u).1 (hcosts.costOf_nonneg v))
  · exact lt_of_le_of_lt (hle.trans hbound) htotal

/-- Relaxing an edge keeps the bound. -/
theorem PathBounded.relaxEdge (hdist : PathBounded dag dist) (huv : dag.Edge u v) :
    PathBounded dag (relaxEdge dag u dist v) := by
  by_cases hv : v ∈ dag.tasks
  · intro w
    rw [subscript_relaxEdge dist u hv]
    split
    · rename_i hwv
      subst hwv
      refine ⟨le_max_of_le_left (hdist w).1, ?_⟩
      rcases max_choice (UnorderedMap.subscript dist w)
        (UnorderedMap.subscript dist u + dag.costOf w) with hmax | hmax
      · rw [hmax]
        exact (hdist w).2
      · rw [hmax]
        exact hdist.candidate huv
    · exact hdist w
  · rw [relaxEdge_of_notMem hv]
    exact hdist

theorem PathBounded.seedSource (hdist : PathBounded dag dist) (u : TaskId) :
    PathBounded dag (seedSource dag dist u) := by
  unfold WorkloadDAG.seedSource
  split
  · intro v
    rw [UnorderedMap.subscript_insert]
    split
    · rename_i hvu
      subst hvu
      refine ⟨le_max_of_le_left (hdist v).1, ?_⟩
      rcases max_choice (UnorderedMap.subscript dist v) (dag.costOf v) with hmax | hmax
      · rw [hmax]
        exact (hdist v).2
      · rw [hmax]
        refine ⟨[v], LongestPath.singleton_mem_pathsTo dag.Edge v, ?_⟩
        rw [pathCost, List.map_singleton, List.sum_singleton]
    · exact hdist v
  · exact hdist

/-- Settling one task: its sums fit, and the table stays bounded. -/
theorem PathBounded.settleTask (hacyclic : dag.Acyclic) (hcosts : dag.NonnegCosts)
    (htotal : dag.allCosts < 2 ^ 63) (hdist : PathBounded dag dist) (u : TaskId) :
    SettleFits dag dist u ∧ PathBounded dag (settleTask dag dist u) := by
  by_cases hu : u ∈ dag.tasks
  · have hloop := ForLoop.invariant (dag.dependents u) (WorkloadDAG.relaxEdge dag u)
      (WorkloadDAG.seedSource dag dist u) (P := RelaxFits dag u)
      (I := fun _ table => PathBounded dag table) (hdist.seedSource u) ?_
    · rw [settleTask_eq hu]
      exact ⟨fun _ => hloop.1, hloop.2⟩
    · intro before v after table heq htable
      have huv : dag.Edge u v := by
        rw [Edge, heq]
        exact List.mem_append_right _ List.mem_cons_self
      exact ⟨htable.relaxFits hacyclic hcosts htotal huv, htable.relaxEdge huv⟩
  · rw [settleTask_of_notMem hu]
    exact ⟨fun hmem => absurd hmem hu, hdist⟩

/-- The whole relaxation. -/
theorem criticalPathDist_bounded (hacyclic : dag.Acyclic) (hcosts : dag.NonnegCosts)
    (htotal : dag.allCosts < 2 ^ 63) :
    CriticalPathFits h dag ∧ PathBounded dag (criticalPathDist h dag) := by
  have hloop := ForLoop.invariant (dag.topologicalOrder h) (WorkloadDAG.settleTask dag)
    ((h.tasks.order dag.tasks.keys).foldl (fun dist id => dist.insert id 0) ∅)
    (P := SettleFits dag) (I := fun _ table => PathBounded dag table) ?_ ?_
  · exact ⟨fun _ _ => hloop.1, hloop.2⟩
  · intro v
    have hzero := UnorderedMap.subscript_foldl_insert_default (∅ : UnorderedMap TaskId Int)
      (fun _ => rfl) (h.tasks.order dag.tasks.keys) v
    refine ⟨hzero.ge, [v], LongestPath.singleton_mem_pathsTo dag.Edge v, ?_⟩
    rw [pathCost, List.map_singleton, List.sum_singleton]
    exact hzero.le.trans (hcosts.costOf_nonneg v)
  · intro _ u _ table _ htable
    exact htable.settleTask hacyclic hcosts htotal u

/-- The critical path lies between zero and the total. -/
theorem criticalPathCost_mem_Icc (hacyclic : dag.Acyclic) (hcosts : dag.NonnegCosts)
    (htotal : dag.allCosts < 2 ^ 63) :
    0 ≤ criticalPathCost h dag ∧ criticalPathCost h dag ≤ dag.allCosts := by
  have hbounded := (criticalPathDist_bounded (h := h) hacyclic hcosts htotal).2
  have hnonneg : 0 ≤ dag.allCosts := by
    apply List.sum_nonneg
    intro x hx
    rcases List.mem_map.1 hx with ⟨v, -, rfl⟩
    exact hcosts.costOf_nonneg v
  unfold criticalPathCost
  split
  · exact ⟨le_rfl, hnonneg⟩
  · split
    · exact ⟨le_rfl, hnonneg⟩
    · rcases LongestPath.isGreatest_foldl_max
        (fun id => UnorderedMap.subscript (criticalPathDist h dag) id)
        (h.dist.order (criticalPathDist h dag).keys) 0 with ⟨hmem, hupper⟩
      refine ⟨hupper (Or.inl rfl), ?_⟩
      rcases hmem with hzero | ⟨v, -, hvalue⟩
      · rw [hzero]
        exact hnonneg
      · rcases (hbounded v).2 with ⟨path, hpath, hle⟩
        rw [hvalue]
        exact hle.trans (pathCost_le_total hacyclic hcosts hpath.1)

/-- The partial sums of costs that are not negative grow to the total. -/
theorem along_sum_iff (hcosts : dag.NonnegCosts) (ids : List TaskId) {acc : Int}
    (hnonneg : 0 ≤ acc) (hlt : acc < 2 ^ 63) :
    ForLoop.Along (fun total id => FitsInt64 (total + dag.costOf id))
        (fun total id => total + dag.costOf id) acc ids ↔
      acc + (ids.map dag.costOf).sum < 2 ^ 63 := by
  induction ids generalizing acc with
  | nil => simpa [ForLoop.Along] using hlt
  | cons id ids ih =>
    have hcost : 0 ≤ dag.costOf id := hcosts.costOf_nonneg id
    have hrest : 0 ≤ (ids.map dag.costOf).sum := by
      apply List.sum_nonneg
      intro x hx
      rcases List.mem_map.1 hx with ⟨v, -, rfl⟩
      exact hcosts.costOf_nonneg v
    have hnext : 0 ≤ acc + dag.costOf id := add_nonneg hnonneg hcost
    rw [ForLoop.Along, List.map_cons, List.sum_cons, ← add_assoc]
    constructor
    · rintro ⟨hfits, halong⟩
      exact (ih hnext hfits.2).1 halong
    · intro hsum
      have hfits : acc + dag.costOf id < 2 ^ 63 :=
        lt_of_le_of_lt (le_add_of_nonneg_right hrest) hsum
      exact ⟨⟨le_trans (by decide) hnext, hfits⟩, (ih hnext hfits).2 hsum⟩

/-- No partial sum overflows exactly when the total fits. -/
theorem totalFits_iff (hcosts : dag.NonnegCosts) : TotalFits h dag ↔ dag.allCosts < 2 ^ 63 := by
  rw [TotalFits, along_sum_iff hcosts _ le_rfl (by decide), zero_add, allCosts,
    ((h.tasks.perm _).map _).sum_eq]

end Bounds

end WorkloadDAG

/-! ## Submitted costs -/

namespace OffloadCodec

/-- The unsigned cost of the specification that defines an id: the first one wins. -/
def wireCost (submission : WorkloadSubmission) (id : TaskId) : U64 :=
  ((submission.tasks.find? fun spec => spec.taskId = id).map fun spec =>
    spec.profile.computeCostUs).getD 0

/-- The unsigned costs of all ids that the message defines, added up exactly. -/
def wireTotal (submission : WorkloadSubmission) : Nat :=
  ((submission.tasks.map TaskSpec.taskId).dedup.map fun id => (wireCost submission id).toNat).sum

section Decoded

variable {submission : WorkloadSubmission}

theorem costOf_addDependency (dag : WorkloadDAG) (source target id : TaskId) :
    (dag.addDependency source target).costOf id = dag.costOf id := by
  rw [WorkloadDAG.costOf, WorkloadDAG.costOf, getTask_addDependency]
  split
  · cases dag.getTask id with
    | none => rfl
    | some task =>
      simp only [Option.map_some, Option.getD_some, WorkloadDAG.recordDependency]
      split
      · rfl
      · rfl
  · rfl

theorem costOf_addSpecDependencies (dag : WorkloadDAG) (spec : TaskSpec) (id : TaskId) :
    (addSpecDependencies dag spec).costOf id = dag.costOf id := by
  unfold addSpecDependencies
  apply List.foldlRecOn (motive := fun graph : WorkloadDAG => graph.costOf id = dag.costOf id)
  · rfl
  · intro graph hgraph dep _
    rw [costOf_addDependency, hgraph]

theorem costOf_foldl_addSpecDependencies (specs : List TaskSpec) (dag : WorkloadDAG)
    (id : TaskId) : (specs.foldl addSpecDependencies dag).costOf id = dag.costOf id := by
  apply List.foldlRecOn (motive := fun graph : WorkloadDAG => graph.costOf id = dag.costOf id)
  · rfl
  · intro graph hgraph spec _
    rw [costOf_addSpecDependencies, hgraph]

/-- `emplace` keeps the task that came first. -/
theorem getTask_addSpecTasks (specs : List TaskSpec) (dag : WorkloadDAG) (id : TaskId) :
    (specs.foldl addSpecTask dag).getTask id =
      (dag.getTask id).or ((specs.find? fun spec => spec.taskId = id).map taskOfSpec) := by
  induction specs generalizing dag with
  | nil => simp
  | cons spec specs ih =>
    have hone : (addSpecTask dag spec).getTask id =
        if id = spec.taskId ∧ spec.taskId ∉ dag.tasks then some (taskOfSpec spec)
        else dag.getTask id :=
      UnorderedMap.lookup_emplace _ _ _ _
    rw [List.foldl_cons, ih, hone]
    by_cases hid : spec.taskId = id
    · subst hid
      rw [List.find?_cons_of_pos (by simp)]
      by_cases hmem : spec.taskId ∈ dag.tasks
      · rcases WorkloadDAG.exists_getTask hmem with ⟨task, htask⟩
        rw [if_neg fun hnew => hnew.2 hmem, htask]
        rfl
      · have hnone : dag.getTask spec.taskId = none := AList.lookup_eq_none.2 hmem
        rw [if_pos ⟨rfl, hmem⟩, hnone]
        rfl
    · rw [if_neg fun hnew => hid hnew.1.symm, List.find?_cons_of_neg (by simpa using hid)]

/-- A task's cost is the first one sent under its id. -/
theorem costOf_buildSubmission (submission : WorkloadSubmission) (id : TaskId) :
    (buildSubmission .empty submission).costOf id = (wireCost submission id).toInt := by
  rw [buildSubmission, costOf_foldl_addSpecDependencies, WorkloadDAG.costOf,
    getTask_addSpecTasks, wireCost]
  have hempty : WorkloadDAG.empty.getTask id = none := rfl
  rw [hempty, Option.none_or]
  cases submission.tasks.find? fun spec => spec.taskId = id with
  | none | some spec => rfl

theorem perm_keys_buildSubmission (submission : WorkloadSubmission) :
    (buildSubmission .empty submission).tasks.keys.Perm
      (submission.tasks.map TaskSpec.taskId).dedup := by
  refine (List.perm_ext_iff_of_nodup (AList.keys_nodup _) (List.nodup_dedup _)).2 ?_
  intro id
  rw [← AList.mem_keys, mem_tasks_buildSubmission, List.mem_dedup]

/-- When no cost is negative, the total is that of the unsigned costs. -/
theorem allCosts_buildSubmission (hcosts : (buildSubmission .empty submission).NonnegCosts) :
    (buildSubmission .empty submission).allCosts = wireTotal submission := by
  have hcast : ∀ id ∈ (submission.tasks.map TaskSpec.taskId).dedup,
      (buildSubmission .empty submission).costOf id = ((wireCost submission id).toNat : Int) := by
    intro id _
    have hnonneg : (0 : Int) ≤ (wireCost submission id).toInt := by
      rw [← costOf_buildSubmission]
      exact hcosts.costOf_nonneg id
    have hlt := (wireCost submission id).isLt
    rw [costOf_buildSubmission]
    rw [BitVec.toInt_eq_toNat_cond] at hnonneg ⊢
    split at hnonneg
    · rename_i hsmall
      rw [if_pos hsmall]
    · omega
  rw [WorkloadDAG.allCosts, ((perm_keys_buildSubmission submission).map _).sum_eq,
    List.map_congr_left hcast, wireTotal, Nat.cast_list_sum, List.map_map]
  rfl

/-- Unsigned costs with a small total are not negative as signed ones. -/
theorem nonnegCosts_of_wireTotal (htotal : wireTotal submission < 2 ^ 63) :
    (buildSubmission .empty submission).NonnegCosts := by
  intro id hid
  have hlisted := (perm_keys_buildSubmission submission).mem_iff.1 hid
  have hle : (wireCost submission id).toNat ≤ wireTotal submission :=
    List.single_le_sum (fun _ _ => Nat.zero_le _) _ (List.mem_map_of_mem hlisted)
  rw [costOf_buildSubmission, BitVec.toInt_eq_toNat_of_lt (by omega)]
  exact Int.natCast_nonneg _

end Decoded

/-- What the metrics of a graph can be trusted with. -/
structure MetricsSound (h : HashOrders) (dag : WorkloadDAG) : Prop where
  costs : dag.NonnegCosts
  total : dag.TotalFits h
  criticalPath : dag.CriticalPathFits h
  nonneg : 0 ≤ dag.criticalPathCost h
  le_total : dag.criticalPathCost h ≤ dag.totalComputeCost h

/-- For every accepted submission and every traversal of the hash maps, the decoded costs
and the metrics are sound exactly when the unsigned costs add up to less than `2 ^ 63`. -/
theorem submittedCosts_sound_iff (parse : ParseFromArray) (h h' : HashOrders)
    (data : List UInt8) (submission : WorkloadSubmission)
    (haccepts : Accepts parse h data submission) :
    MetricsSound h' (decodeSubmission parse h data [] .empty).2.2 ↔
      wireTotal submission < 2 ^ 63 := by
  have hdecoded : (decodeSubmission parse h data [] .empty).2.2 =
      buildSubmission .empty submission := by
    rw [decodeSubmission_of_parse haccepts.1]
  have hacyclic := acyclic_buildSubmission haccepts.hasCycle_eq_false
  rw [hdecoded]
  constructor
  · intro hsound
    have htotal := (WorkloadDAG.totalFits_iff hsound.costs).1 hsound.total
    rw [allCosts_buildSubmission hsound.costs] at htotal
    exact_mod_cast htotal
  · intro hwire
    have hcosts := nonnegCosts_of_wireTotal hwire
    have htotal : (buildSubmission .empty submission).allCosts < 2 ^ 63 := by
      rw [allCosts_buildSubmission hcosts]
      exact_mod_cast hwire
    have hcritical := WorkloadDAG.criticalPathCost_mem_Icc (h := h') hacyclic hcosts htotal
    constructor
    · exact hcosts
    · exact (WorkloadDAG.totalFits_iff hcosts).2 htotal
    · exact (WorkloadDAG.criticalPathDist_bounded hacyclic hcosts htotal).1
    · exact hcritical.1
    · rw [WorkloadDAG.totalComputeCost_eq_sum]
      exact hcritical.2

/-- One task of the given cost. -/
def costedSubmission (cost : U64) : WorkloadSubmission :=
  { tasks := [{ taskId := [0x61], profile := { computeCostUs := cost } }] }

/-- Two tasks of cost 2 and 3, the second depending on the first. -/
def costedChain : WorkloadSubmission :=
  { tasks := [{ taskId := [0x61], profile := { computeCostUs := 2 } },
      { taskId := [0x62], profile := { computeCostUs := 3 }, dependencies := [[0x61]] }] }

theorem accepts_costedChain :
    Accepts parseWire .insertion (wireBytes (.workloadSubmission costedChain)) costedChain :=
  ⟨by decide, by decide⟩

theorem submittedCosts_sound_five :
    wireTotal costedChain = 5 ∧
      MetricsSound .insertion (decodeSubmission parseWire .insertion
        (wireBytes (.workloadSubmission costedChain)) [] .empty).2.2 :=
  ⟨by decide, (submittedCosts_sound_iff parseWire .insertion .insertion _ costedChain
    accepts_costedChain).2 (by decide)⟩

/-- A cost of `2 ^ 63` is accepted and decoded as the least negative number. -/
theorem submittedCost_negative :
    Accepts parseWire .insertion (wireBytes (.workloadSubmission (costedSubmission (2 ^ 63))))
        (costedSubmission (2 ^ 63)) ∧
      (decodeSubmission parseWire .insertion
        (wireBytes (.workloadSubmission (costedSubmission (2 ^ 63)))) [] .empty).2.2.costOf [0x61] =
          -2 ^ 63 :=
  ⟨⟨by decide +kernel, by decide +kernel⟩, by decide +kernel⟩

end OffloadCodec

end EdgeOrchestrator
