import EdgeOrchestrator.Library.FuelLoop
import EdgeOrchestrator.Workload.Dag
import Mathlib.Algebra.BigOperators.Group.Finset.Basic
import Mathlib.Algebra.Order.BigOperators.Group.Finset
import Mathlib.Data.Finset.Card

/-!
# Topological ordering

Kahn's algorithm as `WorkloadDAG::topological_order` runs it: in-degrees are
counted with edge multiplicity over the whole forward adjacency, the ids with
in-degree zero are queued in hash order, and a neighbour is queued when its
counter reaches zero.

Main results:

- `WorkloadDAG.topologicalOrder_terminates`: the loop ends on every DAG, and any larger amount
  of fuel produces the same order.
- `WorkloadDAG.topologicalOrder_predsEarlier`: every predecessor of a listed id is listed
  earlier.
- `WorkloadDAG.mem_topologicalOrder_iff`: an id is listed exactly when it is counted and all
  its ancestors are counted ids on no cycle.
-/

namespace EdgeOrchestrator

open UnorderedMap (bump count_foldl_bump mem_foldl_bump mem_foldl_insert subscript
  subscript_foldl_insert_default subscript_insert)

namespace WorkloadDAG

open Relation

/-! ## The algorithm -/

/-- `--d` on a `size_t`. -/
def pred64 (d : Nat) : Nat :=
  if d = 0 then 2 ^ 64 - 1 else d - 1

/-- The loop variables of Kahn's algorithm. -/
structure KahnState where
  inDegree : UnorderedMap TaskId Nat
  zeroIn : List TaskId
  order : List TaskId

/-- The two counting loops: a zero for every task, then one per edge. -/
def countInDegrees (h : HashOrders) (dag : WorkloadDAG) : UnorderedMap TaskId Nat :=
  (h.adjList.order dag.adjList.keys).foldl
    (fun degrees source => (dag.dependents source).foldl bump degrees)
    ((h.tasks.order dag.tasks.keys).foldl (fun degrees id => degrees.insert id 0) ∅)

/-- The state in which the main loop starts. -/
def kahnInit (h : HashOrders) (dag : WorkloadDAG) : KahnState where
  inDegree := countInDegrees h dag
  zeroIn :=
    (h.inDegree.order (countInDegrees h dag).keys).filter fun id =>
      subscript (countInDegrees h dag) id = 0
  order := []

/-- `if (--in_degree[neighbor] == 0) zero_in.push(neighbor)`. -/
def releaseNeighbor (s : KahnState) (neighbor : TaskId) : KahnState :=
  let degree := pred64 (subscript s.inDegree neighbor)
  { s with
    inDegree := s.inDegree.insert neighbor degree
    zeroIn := if degree = 0 then s.zeroIn ++ [neighbor] else s.zeroIn }

variable (dag : WorkloadDAG)

/-- One iteration of the main loop. -/
def kahnStep (s : KahnState) : KahnState ⊕ List TaskId :=
  match s.zeroIn with
  | [] => .inr s.order
  | current :: rest =>
    .inl ((dag.dependents current).foldl releaseNeighbor
      { s with zeroIn := rest, order := s.order ++ [current] })

/-- The main loop on a given amount of fuel. -/
def topologicalOrderFuel (h : HashOrders) (dag : WorkloadDAG) (fuel : Nat) : Option (List TaskId) :=
  FuelLoop.run (kahnStep dag) fuel (kahnInit h dag)

/-- `topological_order`, with enough fuel. -/
def topologicalOrder (h : HashOrders) (dag : WorkloadDAG) : List TaskId :=
  (topologicalOrderFuel h dag ((countInDegrees h dag).keys.length + 1)).getD []

/-! ## In-degrees -/

/-- The ids that own an in-degree counter: the tasks and the edge targets. -/
def Counted (id : TaskId) : Prop :=
  id ∈ dag.tasks ∨ ∃ source, dag.Edge source id

/-- Number of edges into `v` whose source is not in `order`. -/
def remaining (order : List TaskId) (v : TaskId) : Nat :=
  ∑ u ∈ dag.adjList.keys.toFinset \ order.toFinset, (dag.dependents u).count v

private theorem subscript_foldl_sources (sources : List TaskId) (degrees : UnorderedMap TaskId Nat)
    (v : TaskId) :
    subscript
        (sources.foldl
          (fun degrees source => (dag.dependents source).foldl bump degrees)
          degrees) v =
      subscript degrees v +
        (sources.map fun u => (dag.dependents u).count v).sum := by
  induction sources generalizing degrees with
  | nil => simp
  | cons source sources ih =>
    rw [List.foldl_cons, ih, count_foldl_bump, List.map_cons, List.sum_cons]
    omega

private theorem mem_foldl_sources (sources : List TaskId) (degrees : UnorderedMap TaskId Nat)
    (v : TaskId) :
    v ∈ sources.foldl
        (fun degrees source => (dag.dependents source).foldl bump degrees)
        degrees ↔
      v ∈ degrees ∨ ∃ u ∈ sources, v ∈ dag.dependents u := by
  induction sources generalizing degrees with
  | nil => simp
  | cons source sources ih =>
    rw [List.foldl_cons, ih, mem_foldl_bump]
    simp only [List.exists_mem_cons_iff]
    tauto

/-- The counters start at the in-degree with multiplicity. -/
theorem subscript_countInDegrees (h : HashOrders) (dag : WorkloadDAG) (v : TaskId) :
    subscript (countInDegrees h dag) v = dag.remaining [] v := by
  have hzero : subscript
      ((h.tasks.order dag.tasks.keys).foldl
        (fun degrees id => degrees.insert id 0) (∅ : UnorderedMap TaskId Nat)) v = 0 :=
    subscript_foldl_insert_default ∅ (fun _ => rfl) _ v
  have hsum : ((h.adjList.order dag.adjList.keys).map
        fun u => (dag.dependents u).count v).sum =
      (dag.adjList.keys.map fun u => (dag.dependents u).count v).sum :=
    ((h.adjList.perm dag.adjList.keys).map _).sum_eq
  rw [countInDegrees, subscript_foldl_sources, hzero, hsum, Nat.zero_add, remaining]
  rw [List.toFinset_nil, Finset.sdiff_empty,
    List.sum_toFinset _ (AList.keys_nodup dag.adjList)]

/-- The counters belong to the tasks and the edge targets. -/
theorem mem_countInDegrees (h : HashOrders) (dag : WorkloadDAG) (v : TaskId) :
    v ∈ countInDegrees h dag ↔ dag.Counted v := by
  rw [countInDegrees, mem_foldl_sources, mem_foldl_insert]
  constructor
  · rintro ((hempty | htask) | ⟨u, _, huv⟩)
    · exact absurd hempty (AList.notMem_empty v)
    · exact Or.inl (AList.mem_keys.2 ((h.tasks.mem_order).1 htask))
    · exact Or.inr ⟨u, huv⟩
  · rintro (htask | ⟨u, huv⟩)
    · exact Or.inl (Or.inr ((h.tasks.mem_order).2 (AList.mem_keys.1 htask)))
    · exact Or.inr ⟨u, (h.adjList.mem_order).2 (AList.mem_keys.1 (mem_adjList_of_edge huv)), huv⟩

/-- A vanishing remaining in-degree means that every predecessor is listed. -/
theorem remaining_eq_zero_iff (order : List TaskId) (v : TaskId) :
    dag.remaining order v = 0 ↔ ∀ u, dag.Edge u v → u ∈ order := by
  rw [remaining, Finset.sum_eq_zero_iff]
  constructor
  · intro hzero u huv
    by_contra hu
    have hmem : u ∈ dag.adjList.keys.toFinset \ order.toFinset := by
      simp [hu, AList.mem_keys.1 (mem_adjList_of_edge huv)]
    exact List.count_eq_zero.1 (hzero u hmem) huv
  · intro hall u hu
    rw [List.count_eq_zero]
    intro huv
    have hnot : u ∉ order := by
      simpa using (Finset.mem_sdiff.1 hu).2
    exact hnot (hall u huv)

/-- Listing one more id takes exactly its outgoing edges off the counters. -/
theorem remaining_concat {order : List TaskId} {current : TaskId} (hnew : current ∉ order)
    (v : TaskId) :
    dag.remaining order v =
      dag.remaining (order ++ [current]) v + (dag.dependents current).count v := by
  have hset : dag.adjList.keys.toFinset \ (order ++ [current]).toFinset =
      (dag.adjList.keys.toFinset \ order.toFinset).erase current := by
    ext u
    simp only [Finset.mem_sdiff, List.mem_toFinset, List.mem_append, List.mem_singleton,
      Finset.mem_erase]
    tauto
  rw [remaining, remaining, hset]
  by_cases hkey : current ∈ dag.adjList
  · have hmem : current ∈ dag.adjList.keys.toFinset \ order.toFinset := by
      simp [hnew, AList.mem_keys.1 hkey]
    rw [Finset.sum_erase_add _ _ hmem]
  · have hnone : dag.dependents current = [] := by
      rw [dependents, AList.lookup_eq_none.2 hkey]
      rfl
    have hnot : current ∉ dag.adjList.keys.toFinset \ order.toFinset := by
      simp [AList.mem_keys] at hkey ⊢
      exact fun hc => absurd hc hkey
    rw [Finset.erase_eq_of_notMem hnot, hnone]
    simp

/-! ## The loop invariant -/

/-- The invariant of the inner loop; `pending` are the neighbours of the last
listed id that have not been released yet.  The main loop is the case
`pending = []`. -/
structure KahnInv (dag : WorkloadDAG) (pending : List TaskId) (s : KahnState) : Prop where
  nodup : (s.order ++ s.zeroIn).Nodup
  counted : ∀ v, v ∈ s.inDegree ↔ dag.Counted v
  degree : ∀ v, subscript s.inDegree v =
    dag.remaining s.order v + pending.count v
  queued : ∀ v, v ∈ s.order ++ s.zeroIn ↔
    dag.Counted v ∧ subscript s.inDegree v = 0
  preds : Digraph.PredsEarlier dag.Edge s.order

theorem kahnInit_inv (h : HashOrders) (dag : WorkloadDAG) :
    KahnInv dag [] (kahnInit h dag) where
  nodup := by
    simpa [kahnInit] using
      (h.inDegree.nodup_order (AList.keys_nodup (countInDegrees h dag))).filter _
  counted v := mem_countInDegrees h dag v
  degree v := by
    simpa [kahnInit] using subscript_countInDegrees h dag v
  queued v := by
    simp [kahnInit, ← AList.mem_keys, mem_countInDegrees]
  preds := by
    intro before v after heq
    simp [kahnInit] at heq

variable {s : KahnState}

/-- Releasing one pending neighbour keeps the invariant. -/
theorem releaseNeighbor_inv {dag : WorkloadDAG} {neighbor : TaskId} {pending : List TaskId}
    (hedge : dag.Counted neighbor) (hinv : KahnInv dag (neighbor :: pending) s) :
    KahnInv dag pending (releaseNeighbor s neighbor) := by
  have hdeg := hinv.degree neighbor
  rw [List.count_cons_self] at hdeg
  -- The neighbour is pending, so its counter is positive and `--` cannot wrap.
  have hpred : pred64 (subscript s.inDegree neighbor) =
      dag.remaining s.order neighbor + pending.count neighbor := by
    rw [pred64, if_neg (by omega)]
    omega
  have hnotQueued : neighbor ∉ s.order ++ s.zeroIn := by
    intro hmem
    have hzero := ((hinv.queued neighbor).1 hmem).2
    omega
  refine ⟨?_, ?_, ?_, ?_, hinv.preds⟩
  · simp only [releaseNeighbor]
    split
    · rw [← List.append_assoc]
      exact List.nodup_append_comm.1 (List.nodup_cons.2 ⟨hnotQueued, hinv.nodup⟩)
    · exact hinv.nodup
  · intro v
    simp only [releaseNeighbor, AList.mem_insert, hinv.counted]
    constructor
    · rintro (rfl | hv)
      · exact hedge
      · exact hv
    · exact Or.inr
  · intro v
    simp only [releaseNeighbor, subscript_insert]
    split
    · rename_i hv
      rw [hv, hpred]
    · rename_i hv
      rw [hinv.degree v, List.count_cons_of_ne (Ne.symm hv)]
  · intro v
    simp only [releaseNeighbor, subscript_insert]
    by_cases hv : v = neighbor
    · subst hv
      simp only [if_true, hpred]
      split
      · rename_i hzero
        simp [hedge, hzero]
      · rename_i hzero
        exact iff_of_false hnotQueued fun hand => hzero hand.2
    · rw [if_neg hv]
      split
      · rw [← List.append_assoc, List.mem_append, List.mem_singleton, hinv.queued v]
        simp [hv]
      · exact hinv.queued v

/-- The inner loop releases every neighbour of the current id. -/
theorem releaseNeighbors_inv {dag : WorkloadDAG} {pending : List TaskId}
    (hedges : ∀ v ∈ pending, dag.Counted v) (hinv : KahnInv dag pending s) :
    KahnInv dag [] (pending.foldl releaseNeighbor s) := by
  induction pending generalizing s with
  | nil => exact hinv
  | cons neighbor pending ih =>
    rw [List.foldl_cons]
    exact ih (fun v hv => hedges v (List.mem_cons_of_mem _ hv))
      (releaseNeighbor_inv (hedges neighbor List.mem_cons_self) hinv)

/-- Taking the front id off the queue opens the inner loop. -/
theorem popFront_inv {dag : WorkloadDAG} {current : TaskId} {rest : List TaskId}
    (hqueue : s.zeroIn = current :: rest) (hinv : KahnInv dag [] s) :
    KahnInv dag (dag.dependents current)
      { s with zeroIn := rest, order := s.order ++ [current] } := by
  have hlist : s.order ++ [current] ++ rest = s.order ++ s.zeroIn := by
    rw [hqueue]
    simp
  have hnodup := hinv.nodup
  have hnew : current ∉ s.order := by
    rw [hqueue] at hnodup
    exact fun hmem => List.disjoint_of_nodup_append hnodup hmem List.mem_cons_self
  have hzero : subscript s.inDegree current = 0 :=
    ((hinv.queued current).1 (by rw [hqueue]; simp)).2
  refine ⟨?_, hinv.counted, ?_, ?_, ?_⟩
  · rw [hlist]
    exact hnodup
  · intro v
    rw [hinv.degree v, List.count_nil, Nat.add_zero]
    exact remaining_concat dag hnew v
  · intro v
    rw [hlist]
    exact hinv.queued v
  · refine hinv.preds.concat ?_
    have hdeg := hinv.degree current
    rw [hzero, List.count_nil, Nat.add_zero] at hdeg
    exact (remaining_eq_zero_iff dag s.order current).1 hdeg.symm

theorem foldl_releaseNeighbor_order (pending : List TaskId) (s : KahnState) :
    (pending.foldl releaseNeighbor s).order = s.order := by
  induction pending generalizing s with
  | nil => rfl
  | cons neighbor pending ih => exact ih (releaseNeighbor s neighbor)

/-- One iteration keeps the invariant and lists one more id. -/
theorem kahnStep_inv {dag : WorkloadDAG} {s t : KahnState} (hinv : KahnInv dag [] s)
    (hstep : kahnStep dag s = .inl t) :
    KahnInv dag [] t ∧ t.order.length = s.order.length + 1 := by
  unfold kahnStep at hstep
  split at hstep
  · cases hstep
  · rename_i current rest hqueue
    cases hstep
    constructor
    · refine releaseNeighbors_inv ?_ (popFront_inv hqueue hinv)
      exact fun v hv => Or.inr ⟨current, hv⟩
    · rw [foldl_releaseNeighbor_order]
      simp

/-- The listed ids are distinct counted ids, so there are never more of them
than counters. -/
theorem KahnInv.length_order_le {h : HashOrders} {dag : WorkloadDAG} (hinv : KahnInv dag [] s)
    : s.order.length ≤ (countInDegrees h dag).keys.length := by
  have hnodup : s.order.Nodup := hinv.nodup.of_append_left
  refine (List.subperm_of_subset hnodup ?_).length_le
  intro v hv
  have hcounted := ((hinv.queued v).1 (List.mem_append_left _ hv)).1
  exact AList.mem_keys.1 ((mem_countInDegrees h dag v).2 hcounted)

/-! ## What the loop returns -/

/-- What is known of the order when the queue runs empty. -/
structure KahnResult (dag : WorkloadDAG) (order : List TaskId) : Prop where
  nodup : order.Nodup
  mem_iff : ∀ v, v ∈ order ↔ dag.Counted v ∧ dag.remaining order v = 0
  preds : Digraph.PredsEarlier dag.Edge order

theorem kahnStep_exit {dag : WorkloadDAG} {order : List TaskId} (hinv : KahnInv dag [] s)
    (hstep : kahnStep dag s = .inr order) :
    KahnResult dag order := by
  unfold kahnStep at hstep
  split at hstep
  · rename_i hqueue
    cases hstep
    refine ⟨hinv.nodup.of_append_left, ?_, hinv.preds⟩
    intro v
    have hv := hinv.queued v
    rw [hqueue, List.append_nil, hinv.degree v, List.count_nil, Nat.add_zero] at hv
    exact hv
  · cases hstep

private theorem kahn_run (h : HashOrders) (dag : WorkloadDAG) :
    ∃ order, topologicalOrderFuel h dag ((countInDegrees h dag).keys.length + 1) = some order ∧
      KahnResult dag order := by
  refine FuelLoop.run_spec (I := KahnInv dag []) (Q := KahnResult dag)
    (fun s => (countInDegrees h dag).keys.length - s.order.length) ?_ ?_
    (kahnInit_inv h dag) (by omega)
  · intro s t hinv hstep
    rcases kahnStep_inv hinv hstep with ⟨ht, hlen⟩
    have hle := ht.length_order_le (h := h)
    exact ⟨ht, by omega⟩
  · intro s order hinv hstep
    exact kahnStep_exit hinv hstep

/-- The loop ends, and any larger amount of fuel produces the same order. -/
theorem topologicalOrder_terminates (h : HashOrders) (dag : WorkloadDAG) {fuel : Nat}
    (hfuel : (countInDegrees h dag).keys.length + 1 ≤ fuel) :
    topologicalOrderFuel h dag fuel = some (topologicalOrder h dag) := by
  rcases kahn_run h dag with ⟨order, hrun, -⟩
  rw [topologicalOrder, hrun, Option.getD_some]
  exact FuelLoop.run_mono hrun hfuel

theorem topologicalOrder_result (h : HashOrders) (dag : WorkloadDAG) :
    KahnResult dag (topologicalOrder h dag) := by
  rcases kahn_run h dag with ⟨order, hrun, hresult⟩
  rw [topologicalOrder, hrun, Option.getD_some]
  exact hresult

theorem topologicalOrder_nodup (h : HashOrders) (dag : WorkloadDAG) :
    (topologicalOrder h dag).Nodup :=
  (topologicalOrder_result h dag).nodup

/-- Every predecessor of a listed id is listed earlier. -/
theorem topologicalOrder_predsEarlier (h : HashOrders) (dag : WorkloadDAG) :
    Digraph.PredsEarlier dag.Edge (topologicalOrder h dag) :=
  (topologicalOrder_result h dag).preds

/-- The ids that can be counted are finitely many. -/
theorem finite_counted (dag : WorkloadDAG) : {v | dag.Counted v}.Finite := by
  have hsub : {v | dag.Counted v} ⊆
      ((countInDegrees HashOrders.insertion dag).keys.toFinset : Set TaskId) := by
    intro v hv
    simpa [← AList.mem_keys] using (mem_countInDegrees HashOrders.insertion dag v).2 hv
  exact (Finset.finite_toSet _).subset hsub

/-- An id is listed exactly when all its ancestors, itself included, are
counted ids on no cycle. -/
theorem mem_topologicalOrder_iff (h : HashOrders) (dag : WorkloadDAG) (v : TaskId) :
    v ∈ topologicalOrder h dag ↔
      ∀ u, ReflTransGen dag.Edge u v → dag.Counted u ∧ ¬ Digraph.OnCycle dag.Edge u := by
  have hresult := topologicalOrder_result h dag
  constructor
  · intro hv u hpath
    rcases hresult.preds.mem_and_acyclic hv hpath with ⟨hu, hacyclic⟩
    exact ⟨((hresult.mem_iff u).1 hu).1, hacyclic⟩
  · intro hall
    by_contra hv
    -- The unlisted ancestors of `v` form a finite set closed under predecessors.
    let S : Set TaskId :=
      {x | x ∉ topologicalOrder h dag ∧ ReflTransGen dag.Edge x v}
    have hfin : S.Finite :=
      (finite_counted dag).subset fun x hx => (hall x hx.2).1
    have hpred : ∀ x ∈ S, ∃ u ∈ S, dag.Edge u x := by
      intro x hx
      have hcounted := (hall x hx.2).1
      have hnot : ¬ ∀ u, dag.Edge u x → u ∈ topologicalOrder h dag := by
        rw [← remaining_eq_zero_iff]
        exact fun hzero => hx.1 ((hresult.mem_iff x).2 ⟨hcounted, hzero⟩)
      push Not at hnot
      rcases hnot with ⟨u, hux, hu⟩
      exact ⟨u, ⟨hu, ReflTransGen.head hux hx.2⟩, hux⟩
    rcases Digraph.downstreamOfCycle_of_preds hfin hpred (v := v) ⟨hv, ReflTransGen.refl⟩ with
      ⟨c, hcycle, hpath⟩
    exact (hall c hpath).2 hcycle

/-! ## Graphs whose edges run between tasks -/

variable {dag : WorkloadDAG}

theorem EndpointsAreTasks.counted_iff (hends : dag.EndpointsAreTasks) {v : TaskId} :
    dag.Counted v ↔ v ∈ dag.tasks := by
  constructor
  · rintro (hv | ⟨u, huv⟩)
    · exact hv
    · exact (hends u v huv).2
  · exact Or.inl

/-- Every ancestor of a task is a task. -/
theorem EndpointsAreTasks.mem_of_path (hends : dag.EndpointsAreTasks) {u v : TaskId}
    (hv : v ∈ dag.tasks) (hpath : ReflTransGen dag.Edge u v) : u ∈ dag.tasks := by
  rcases ReflTransGen.cases_head hpath with rfl | ⟨w, huw, -⟩
  · exact hv
  · exact (hends u w huw).1

/-- Among graphs on tasks, the listed ids are the tasks downstream of no cycle. -/
theorem EndpointsAreTasks.mem_topologicalOrder_iff (hends : dag.EndpointsAreTasks)
    (h : HashOrders) (v : TaskId) :
    v ∈ topologicalOrder h dag ↔
      v ∈ dag.tasks ∧ ¬ Digraph.DownstreamOfCycle dag.Edge v := by
  rw [WorkloadDAG.mem_topologicalOrder_iff]
  constructor
  · intro hall
    refine ⟨hends.counted_iff.1 (hall v ReflTransGen.refl).1, ?_⟩
    rintro ⟨u, hcycle, hpath⟩
    exact (hall u hpath).2 hcycle
  · rintro ⟨hv, hclean⟩ u hpath
    exact ⟨hends.counted_iff.2 (hends.mem_of_path hv hpath),
      fun hcycle => hclean ⟨u, hcycle, hpath⟩⟩

/-- On an acyclic graph on tasks, the order lists exactly the tasks. -/
theorem EndpointsAreTasks.mem_topologicalOrder_of_acyclic (hends : dag.EndpointsAreTasks)
    (hacyclic : dag.Acyclic) (h : HashOrders) (v : TaskId) :
    v ∈ topologicalOrder h dag ↔ v ∈ dag.tasks := by
  rw [hends.mem_topologicalOrder_iff]
  constructor
  · exact And.left
  · rintro hv
    refine ⟨hv, ?_⟩
    rintro ⟨u, hcycle, -⟩
    exact hacyclic u hcycle

end WorkloadDAG

end EdgeOrchestrator
