import EdgeOrchestrator.Workload.TopologicalOrder

/-!
# Cycle detection

The three-color depth-first search of `WorkloadDAG::has_cycle`, with its
explicit stack of (node, next neighbour) frames.  The gray nodes are exactly
the stack, which is a path of the graph; the black nodes are closed under
successors and lie on no cycle.

Main results:

- `WorkloadDAG.hasCycle_terminates`: the search ends on every graph, and any larger amount of
  fuel produces the same answer.
- `WorkloadDAG.hasCycle_iff`: the answer is true exactly when some directed cycle is reachable
  from a task.
- `WorkloadDAG.hasCycle_correct`: both, for every sequence of additions.
- `WorkloadDAG.topologicalOrder_correct`: what Kahn's loop lists, in which order, and how its
  length agrees with the search.
-/

namespace EdgeOrchestrator

open Function (update)

namespace WorkloadDAG

open Relation

/-! ## The algorithm -/

/-- The colors of the search. -/
inductive Color where
  | white
  | gray
  | black
deriving DecidableEq, Repr

/-- A stack entry: a node and the index of its next unexplored neighbour. -/
structure Frame where
  node : TaskId
  neighborIdx : Nat
deriving DecidableEq, Repr

/-- `color[id]` value-initializes to white, so the map is a total function. -/
structure DfsState where
  color : TaskId → Color
  stack : List Frame

/-- How the inner loop is left: a back edge was met, or the stack ran empty. -/
inductive DfsExit where
  | cycle
  | exhausted (color : TaskId → Color)

/-- One iteration of `while (!dfs_stack.empty())`. -/
def dfsStep (dag : WorkloadDAG) (s : DfsState) : DfsState ⊕ DfsExit :=
  match s.stack with
  | [] => .inr (.exhausted s.color)
  | frame :: rest =>
    match (dag.dependents frame.node)[frame.neighborIdx]? with
    | none =>
      .inl { color := update s.color frame.node .black, stack := rest }
    | some neighbor =>
      let advanced : Frame := { frame with neighborIdx := frame.neighborIdx + 1 }
      match s.color neighbor with
      | .gray => .inr .cycle
      | .white =>
        .inl
          { color := update s.color neighbor .gray
            stack := ⟨neighbor, 0⟩ :: advanced :: rest }
      | .black => .inl { s with stack := advanced :: rest }

/-- The loop over the start nodes; `none` means that the fuel ran out. -/
def dfsFrom (dag : WorkloadDAG) (fuel : Nat) :
    List TaskId → (TaskId → Color) → Option Bool
  | [], _ => some false
  | start :: starts, color =>
    if color start ≠ .white then dfsFrom dag fuel starts color
    else
      match FuelLoop.run (dfsStep dag) fuel
          { color := update color start .gray, stack := [⟨start, 0⟩] } with
      | none => none
      | some .cycle => some true
      | some (.exhausted color') => dfsFrom dag fuel starts color'

/-- The loop over the tasks. -/
def hasCycleFuel (h : HashOrders) (dag : WorkloadDAG) (fuel : Nat) : Option Bool :=
  dfsFrom dag fuel (h.tasks.order dag.tasks.keys) fun _ => .white

/-- The tasks and the edge targets, with repetitions. -/
def vertices (dag : WorkloadDAG) : List TaskId :=
  dag.tasks.keys ++ dag.adjList.keys.flatMap dag.dependents

/-- A bound on the iterations of one search: each vertex is pushed once and
each of its edges is looked at once. -/
def dfsFuel (dag : WorkloadDAG) : Nat :=
  (dag.vertices.map fun v => (dag.dependents v).length + 1).sum + 1

/-- `has_cycle`, with enough fuel. -/
def hasCycle (h : HashOrders) (dag : WorkloadDAG) : Bool :=
  (hasCycleFuel h dag dag.dfsFuel).getD false

/-- `is_valid`. -/
def isValid (h : HashOrders) (dag : WorkloadDAG) : Bool :=
  !dag.tasks.keys.isEmpty && !hasCycle h dag

/-! ## The search measure -/

variable {dag : WorkloadDAG}

theorem mem_vertices_of_task {v : TaskId} (hv : v ∈ dag.tasks) : v ∈ dag.vertices :=
  List.mem_append_left _ (AList.mem_keys.1 hv)

theorem mem_vertices_of_edge {u v : TaskId} (huv : dag.Edge u v) : v ∈ dag.vertices :=
  List.mem_append_right _
    (List.mem_flatMap.2 ⟨u, AList.mem_keys.1 (mem_adjList_of_edge huv), huv⟩)

/-- Work still owed to the vertices that have not been discovered. -/
def whiteCost (dag : WorkloadDAG) (color : TaskId → Color) : Nat :=
  ∑ v ∈ dag.vertices.toFinset.filter (fun v => color v = .white),
    ((dag.dependents v).length + 1)

/-- Work still owed to the frames on the stack. -/
def stackCost (dag : WorkloadDAG) (stack : List Frame) : Nat :=
  (stack.map fun f => (dag.dependents f.node).length - f.neighborIdx + 1).sum

variable {color : TaskId → Color}

/-- Discovering a vertex moves its cost off the white account. -/
theorem whiteCost_discover {v : TaskId} (hv : v ∈ dag.vertices) (hwhite : color v = .white) :
    dag.whiteCost (update color v .gray) + ((dag.dependents v).length + 1) =
      dag.whiteCost color := by
  have hset : dag.vertices.toFinset.filter
        (fun x => update color v .gray x = .white) =
      (dag.vertices.toFinset.filter fun x => color x = .white).erase v := by
    ext x
    by_cases hx : x = v <;> simp [hx]
  rw [whiteCost, whiteCost, hset]
  exact Finset.sum_erase_add _ _ (by simp [hv, hwhite])

/-- Finishing a vertex that is not white leaves the white account alone. -/
theorem whiteCost_finish {v : TaskId} (hgray : color v ≠ .white) :
    dag.whiteCost (update color v .black) = dag.whiteCost color := by
  have hset : dag.vertices.toFinset.filter
        (fun x => update color v .black x = .white) =
      dag.vertices.toFinset.filter fun x => color x = .white := by
    ext x
    by_cases hx : x = v <;> simp [hx, hgray]
  rw [whiteCost, whiteCost, hset]

private theorem sum_toFinset_le (f : TaskId → Nat) (vs : List TaskId) :
    ∑ v ∈ vs.toFinset, f v ≤ (vs.map f).sum := by
  induction vs with
  | nil => simp
  | cons v vs ih =>
    rw [List.toFinset_cons, List.map_cons, List.sum_cons]
    by_cases hv : v ∈ vs.toFinset
    · rw [Finset.insert_eq_of_mem hv]
      omega
    · rw [Finset.sum_insert hv]
      omega

theorem whiteCost_lt_dfsFuel (dag : WorkloadDAG) (color : TaskId → Color) :
    dag.whiteCost color < dag.dfsFuel := by
  have hsub : dag.whiteCost color ≤
      ∑ v ∈ dag.vertices.toFinset, ((dag.dependents v).length + 1) :=
    Finset.sum_le_sum_of_subset (Finset.filter_subset _ _)
  have hlist := sum_toFinset_le (fun v => (dag.dependents v).length + 1) dag.vertices
  rw [dfsFuel]
  omega

/-! ## The search invariant -/

/-- The black nodes: closed under successors, on no cycle. -/
structure BlackClosed (dag : WorkloadDAG) (color : TaskId → Color) : Prop where
  closed : ∀ u, color u = .black → ∀ v, dag.Edge u v → color v = .black
  clean : ∀ u, color u = .black → ¬ Digraph.OnCycle dag.Edge u

/-- Every neighbour a frame has passed is black, except the one whose own frame
lies directly above it. -/
def Scanned (dag : WorkloadDAG) (color : TaskId → Color) :
    Option TaskId → List Frame → Prop
  | _, [] => True
  | child, frame :: rest =>
    (∀ v ∈ (dag.dependents frame.node).take frame.neighborIdx,
      color v = .black ∨ child = some v) ∧
    Scanned dag color (some frame.node) rest

/-- The invariant of one search from `start`; `base` is the coloring in which
the search began. -/
structure DfsInv (dag : WorkloadDAG) (start : TaskId) (base : TaskId → Color)
    (s : DfsState) : Prop where
  gray_iff : ∀ v, s.color v = .gray ↔ v ∈ s.stack.map Frame.node
  nodup : (s.stack.map Frame.node).Nodup
  path : s.stack.IsChain fun above below => dag.Edge below.node above.node
  fromStart : ∀ f ∈ s.stack, ReflTransGen dag.Edge start f.node
  scanned : Scanned dag s.color none s.stack
  black : BlackClosed dag s.color
  kept : ∀ v, base v ≠ .white → s.color v ≠ .white

/-- Turning nodes black never invalidates a scan. -/
theorem Scanned.mono {color color' : TaskId → Color}
    (hblack : ∀ v, color v = .black → color' v = .black) {child : Option TaskId}
    {stack : List Frame} (h : Scanned dag color child stack) :
    Scanned dag color' child stack := by
  induction stack generalizing child with
  | nil => trivial
  | cons frame rest ih =>
    refine ⟨fun v hv => ?_, ih h.2⟩
    exact (h.1 v hv).imp_left (hblack v)

/-- Once the child of the top frame is black, the frame below is fully scanned. -/
theorem Scanned.finish_child {node : TaskId} {stack : List Frame}
    (h : Scanned dag color (some node) stack) (hnode : color node = .black)
    : Scanned dag color none stack := by
  cases stack with
  | nil => trivial
  | cons frame rest =>
    refine ⟨fun v hv => ?_, h.2⟩
    rcases h.1 v hv with hblack | hchild
    · exact Or.inl hblack
    · cases hchild
      exact Or.inl hnode

/-- Every stacked node reaches the top of the stack. -/
theorem reflTransGen_top {top : Frame} {rest : List Frame}
    (hpath : (top :: rest).IsChain fun above below => dag.Edge below.node above.node)
    {f : Frame} (hf : f ∈ top :: rest) : ReflTransGen dag.Edge f.node top.node := by
  induction rest generalizing top with
  | nil =>
    rw [List.mem_singleton] at hf
    rw [hf]
  | cons next rest ih =>
    rw [List.isChain_cons_cons] at hpath
    rcases List.mem_cons.1 hf with rfl | hf
    · exact ReflTransGen.refl
    · exact (ih hpath.2 hf).tail hpath.1

/-! ## The three continuing branches -/

variable {start : TaskId} {base : TaskId → Color} {s : DfsState} {frame : Frame}
  {rest : List Frame}

/-- A frame without further neighbours is popped and its node turns black. -/
theorem DfsInv.finish (hinv : DfsInv dag start base s) (hstack : s.stack = frame :: rest)
    (hdone : (dag.dependents frame.node)[frame.neighborIdx]? = none) :
    DfsInv dag start base
      { color := update s.color frame.node .black, stack := rest } := by
  rcases s with ⟨color, stack⟩
  subst hstack
  have hnodup := hinv.nodup
  simp only [List.map_cons, List.nodup_cons] at hnodup
  have hgray : color frame.node = .gray := (hinv.gray_iff _).2 (by simp)
  have hblack : ∀ v, color v = .black →
      update color frame.node .black v = .black := by
    intro v hv
    by_cases hvn : v = frame.node <;> simp [hvn, hv]
  have hsucc : ∀ v, dag.Edge frame.node v → color v = .black := by
    intro v hv
    have hall : v ∈ (dag.dependents frame.node).take frame.neighborIdx := by
      rw [List.take_of_length_le (List.getElem?_eq_none_iff.1 hdone)]
      exact hv
    rcases hinv.scanned.1 v hall with hb | hnone
    · exact hb
    · cases hnone
  refine ⟨?_, hnodup.2, hinv.path.tail, ?_, ?_, ⟨?_, ?_⟩, ?_⟩
  · intro v
    by_cases hv : v = frame.node
    · subst hv
      simpa using hnodup.1
    · have := hinv.gray_iff v
      simp only [List.map_cons, List.mem_cons, hv, false_or] at this
      simpa [hv] using this
  · exact fun f hf => hinv.fromStart f (List.mem_cons_of_mem _ hf)
  · have hnode : update color frame.node Color.black frame.node = .black := by
      simp
    exact (hinv.scanned.2.mono hblack).finish_child hnode
  · intro u hu v huv
    by_cases hun : u = frame.node
    · subst hun
      exact hblack v (hsucc v huv)
    · have hub : color u = .black := by
        simpa [hun] using hu
      exact hblack v (hinv.black.closed u hub v huv)
  · intro u hu
    by_cases hun : u = frame.node
    · subst hun
      refine Digraph.acyclic_insert_of_succs (B := {x | color x = .black})
        hinv.black.closed ?_ hsucc
      simp [hgray]
    · exact hinv.black.clean u (by simpa [hun] using hu)
  · intro v hv
    by_cases hvn : v = frame.node
    · simp [hvn]
    · simpa [hvn] using hinv.kept v hv

/-- A white neighbour turns gray and its frame is pushed. -/
theorem DfsInv.discover (hinv : DfsInv dag start base s) (hstack : s.stack = frame :: rest)
    {neighbor : TaskId}
    (hnext : (dag.dependents frame.node)[frame.neighborIdx]? = some neighbor)
    (hwhite : s.color neighbor = .white) :
    DfsInv dag start base
      { color := update s.color neighbor .gray
        stack := ⟨neighbor, 0⟩ :: ⟨frame.node, frame.neighborIdx + 1⟩ :: rest } := by
  rcases s with ⟨color, stack⟩
  subst hstack
  replace hwhite : color neighbor = .white := hwhite
  have hedge : dag.Edge frame.node neighbor := List.mem_of_getElem? hnext
  have hnew : neighbor ∉ (frame :: rest).map Frame.node := by
    rw [← hinv.gray_iff]
    simp [hwhite]
  have hblack : ∀ v, color v = .black →
      update color neighbor .gray v = .black := by
    intro v hv
    have hvn : v ≠ neighbor := by
      intro h
      rw [h, hwhite] at hv
      cases hv
    simp [hvn, hv]
  have hback : ∀ v, update color neighbor .gray v = .black → color v = .black := by
    intro v hv
    by_cases hvn : v = neighbor
    · simp [hvn] at hv
    · simpa [hvn] using hv
  refine ⟨?_, ?_, ?_, ?_, ⟨?_, ?_, ?_⟩, ⟨?_, ?_⟩, ?_⟩
  · intro v
    by_cases hv : v = neighbor
    · simp [hv]
    · have := hinv.gray_iff v
      simpa [hv] using this
  · exact List.nodup_cons.2 ⟨hnew, hinv.nodup⟩
  · refine List.isChain_cons_cons.2 ⟨hedge, ?_⟩
    cases rest with
    | nil => exact List.isChain_singleton _
    | cons below rest =>
      have hpath := List.isChain_cons_cons.1 hinv.path
      exact List.isChain_cons_cons.2 hpath
  · intro f hf
    have hframe := hinv.fromStart frame List.mem_cons_self
    rcases List.mem_cons.1 hf with rfl | hf
    · exact hframe.tail hedge
    · rcases List.mem_cons.1 hf with rfl | hf
      · exact hframe
      · exact hinv.fromStart f (List.mem_cons_of_mem _ hf)
  · intro v hv
    simp at hv
  · intro v hv
    rw [List.take_add_one, hnext] at hv
    rcases List.mem_append.1 hv with hold | hlast
    · rcases hinv.scanned.1 v hold with hb | hnone
      · exact Or.inl (hblack v hb)
      · cases hnone
    · right
      have hvn : v = neighbor := by simpa using hlast
      rw [hvn]
  · exact hinv.scanned.2.mono hblack
  · exact fun u hu v huv => hblack v (hinv.black.closed u (hback u hu) v huv)
  · exact fun u hu => hinv.black.clean u (hback u hu)
  · intro v hv
    by_cases hvn : v = neighbor
    · simp [hvn]
    · simpa [hvn] using hinv.kept v hv

/-- A black neighbour is skipped. -/
theorem DfsInv.skip (hinv : DfsInv dag start base s) (hstack : s.stack = frame :: rest)
    {neighbor : TaskId}
    (hnext : (dag.dependents frame.node)[frame.neighborIdx]? = some neighbor)
    (hblack : s.color neighbor = .black) :
    DfsInv dag start base
      { s with stack := ⟨frame.node, frame.neighborIdx + 1⟩ :: rest } := by
  rcases s with ⟨color, stack⟩
  subst hstack
  refine ⟨?_, ?_, ?_, ?_, ⟨?_, hinv.scanned.2⟩, hinv.black, hinv.kept⟩
  · simpa using hinv.gray_iff
  · simpa using hinv.nodup
  · cases rest with
    | nil => exact List.isChain_singleton _
    | cons below rest => exact List.isChain_cons_cons.2 (List.isChain_cons_cons.1 hinv.path)
  · intro f hf
    rcases List.mem_cons.1 hf with rfl | hf
    · exact hinv.fromStart frame List.mem_cons_self
    · exact hinv.fromStart f (List.mem_cons_of_mem _ hf)
  · intro v hv
    rw [List.take_add_one, hnext] at hv
    rcases List.mem_append.1 hv with hold | hlast
    · exact hinv.scanned.1 v hold
    · left
      have hvn : v = neighbor := by simpa using hlast
      rw [hvn]
      exact hblack

/-! ## One search -/

/-- Each iteration keeps the invariant and does one unit of the owed work. -/
theorem dfsStep_inv {t : DfsState} (hinv : DfsInv dag start base s)
    (hstep : dfsStep dag s = .inl t) :
    DfsInv dag start base t ∧
      dag.whiteCost t.color + dag.stackCost t.stack <
        dag.whiteCost s.color + dag.stackCost s.stack := by
  unfold dfsStep at hstep
  split at hstep
  · cases hstep
  · rename_i frame rest hstack
    have hgray : s.color frame.node = .gray := (hinv.gray_iff _).2 (by simp [hstack])
    split at hstep
    · rename_i hdone
      cases hstep
      refine ⟨hinv.finish hstack hdone, ?_⟩
      rw [whiteCost_finish (by simp [hgray]), hstack]
      simp [stackCost]
    · rename_i neighbor hnext
      have hlen : frame.neighborIdx < (dag.dependents frame.node).length :=
        (List.getElem?_eq_some_iff.1 hnext).1
      split at hstep
      · cases hstep
      · rename_i hwhite
        cases hstep
        refine ⟨hinv.discover hstack hnext hwhite, ?_⟩
        have hcost := whiteCost_discover
          (mem_vertices_of_edge (List.mem_of_getElem? hnext)) hwhite
        rw [hstack]
        simp only [stackCost, List.map_cons, List.sum_cons] at hcost ⊢
        omega
      · rename_i hblack
        cases hstep
        refine ⟨hinv.skip hstack hnext hblack, ?_⟩
        rw [hstack]
        simp only [stackCost, List.map_cons, List.sum_cons]
        omega

/-- What is known when one search from `start` is left. -/
def DfsPost (dag : WorkloadDAG) (start : TaskId) (base : TaskId → Color) : DfsExit → Prop
  | .cycle => ∃ c, ReflTransGen dag.Edge start c ∧ Digraph.OnCycle dag.Edge c
  | .exhausted color =>
    BlackClosed dag color ∧ ∀ v, color v ≠ .gray ∧ (base v ≠ .white → color v = .black)

theorem dfsStep_exit {exit : DfsExit} (hinv : DfsInv dag start base s)
    (hstep : dfsStep dag s = .inr exit) : DfsPost dag start base exit := by
  unfold dfsStep at hstep
  split at hstep
  · rename_i hstack
    cases hstep
    have hnotGray : ∀ v, s.color v ≠ .gray := by
      intro v hv
      have hmem := (hinv.gray_iff v).1 hv
      rw [hstack] at hmem
      simp at hmem
    refine ⟨hinv.black, fun v => ⟨hnotGray v, fun hv => ?_⟩⟩
    cases hcolor : s.color v with
    | white => exact absurd hcolor (hinv.kept v hv)
    | gray => exact absurd hcolor (hnotGray v)
    | black => rfl
  · rename_i frame rest hstack
    split at hstep
    · cases hstep
    · rename_i neighbor hnext
      split at hstep
      · rename_i hgray
        cases hstep
        -- The back edge closes the stack path from the gray neighbour.
        rcases List.mem_map.1 ((hinv.gray_iff neighbor).1 hgray) with ⟨f, hf, rfl⟩
        refine ⟨f.node, hinv.fromStart f hf, ?_⟩
        have hpath := hinv.path
        rw [hstack] at hpath hf
        exact TransGen.tail' (reflTransGen_top hpath hf) (List.mem_of_getElem? hnext)
      · cases hstep
      · cases hstep

/-- One search from a white task always ends with its postcondition. -/
theorem dfs_run {color : TaskId → Color} (hblack : BlackClosed dag color)
    (hnotGray : ∀ v, color v ≠ .gray) (hstart : start ∈ dag.vertices)
    (hwhite : color start = .white) {fuel : Nat} (hfuel : dag.dfsFuel ≤ fuel) :
    ∃ exit, FuelLoop.run (dfsStep dag) fuel
        { color := update color start .gray, stack := [⟨start, 0⟩] } = some exit ∧
      DfsPost dag start (update color start .gray) exit := by
  have hback : ∀ v, update color start .gray v = .black → color v = .black := by
    intro v hv
    by_cases hvs : v = start
    · simp [hvs] at hv
    · simpa [hvs] using hv
  have hinit : DfsInv dag start (update color start .gray)
      { color := update color start .gray, stack := [⟨start, 0⟩] } := by
    refine ⟨?_, by simp, List.isChain_singleton _, ?_, ?_, ⟨?_, ?_⟩, fun v hv => hv⟩
    · intro v
      by_cases hv : v = start <;> simp [hv, hnotGray v]
    · intro f hf
      rw [List.mem_singleton] at hf
      rw [hf]
    · exact ⟨fun v hv => by simp at hv, trivial⟩
    · intro u hu v huv
      have hv := hblack.closed u (hback u hu) v huv
      have hvs : v ≠ start := by
        intro h
        rw [h, hwhite] at hv
        cases hv
      simpa [hvs] using hv
    · exact fun u hu => hblack.clean u (hback u hu)
  have hmeasure : dag.whiteCost (update color start .gray) +
      dag.stackCost [⟨start, 0⟩] < fuel := by
    have hcost := whiteCost_discover hstart hwhite
    have hlt := dag.whiteCost_lt_dfsFuel color
    simp only [stackCost, List.map_cons, List.map_nil, List.sum_cons, List.sum_nil]
    omega
  exact FuelLoop.run_spec (I := DfsInv dag start (update color start .gray))
    (fun s => dag.whiteCost s.color + dag.stackCost s.stack)
    (fun s t hinv hstep => dfsStep_inv hinv hstep)
    (fun s exit hinv hstep => dfsStep_exit hinv hstep) hinit hmeasure

/-! ## The loop over the start nodes -/

/-- A cycle that `start` can reach. -/
def ReachesCycle (dag : WorkloadDAG) (start : TaskId) : Prop :=
  ∃ c, ReflTransGen dag.Edge start c ∧ Digraph.OnCycle dag.Edge c

theorem BlackClosed.not_reachesCycle {color : TaskId → Color} (hblack : BlackClosed dag color)
    {v : TaskId} (hv : color v = .black) : ¬ dag.ReachesCycle v := by
  intro hreach
  rcases hreach with ⟨c, hpath, hcycle⟩
  have hc : c ∈ {x | color x = .black} :=
    Digraph.mem_of_reflTransGen hblack.closed hv hpath
  exact hblack.clean c hc hcycle

theorem dfsFrom_spec {fuel : Nat} (hfuel : dag.dfsFuel ≤ fuel) (starts : List TaskId)
    (hstarts : ∀ v ∈ starts, v ∈ dag.vertices) {color : TaskId → Color}
    (hblack : BlackClosed dag color) (hnotGray : ∀ v, color v ≠ .gray) :
    ∃ answer, dfsFrom dag fuel starts color = some answer ∧
      (answer = true ↔ ∃ v ∈ starts, dag.ReachesCycle v) := by
  induction starts generalizing color with
  | nil => exact ⟨false, rfl, by simp⟩
  | cons start starts ih =>
    have hrest : ∀ v ∈ starts, v ∈ dag.vertices :=
      fun v hv => hstarts v (List.mem_cons_of_mem _ hv)
    by_cases hwhite : color start = .white
    · rcases dfs_run hblack hnotGray (hstarts start List.mem_cons_self) hwhite hfuel with
        ⟨exit, hrun, hpost⟩
      rw [dfsFrom, if_neg (by simp [hwhite]), hrun]
      cases exit with
      | cycle => exact ⟨true, rfl, iff_of_true rfl ⟨start, List.mem_cons_self, hpost⟩⟩
      | exhausted color' =>
        rcases hpost with ⟨hblack', hall⟩
        rcases ih hrest hblack' (fun v => (hall v).1) with ⟨answer, hanswer, hiff⟩
        refine ⟨answer, hanswer, ?_⟩
        have hstartBlack : color' start = .black := (hall start).2 (by simp)
        rw [hiff, List.exists_mem_cons_iff]
        simp [hblack'.not_reachesCycle hstartBlack]
    · rcases ih hrest hblack hnotGray with ⟨answer, hanswer, hiff⟩
      rw [dfsFrom, if_pos hwhite]
      refine ⟨answer, hanswer, ?_⟩
      have hstartBlack : color start = .black := by
        cases hcolor : color start with
        | white => exact absurd hcolor hwhite
        | gray => exact absurd hcolor (hnotGray start)
        | black => rfl
      rw [hiff, List.exists_mem_cons_iff]
      simp [hblack.not_reachesCycle hstartBlack]

private theorem hasCycleFuel_spec (h : HashOrders) (dag : WorkloadDAG) {fuel : Nat}
    (hfuel : dag.dfsFuel ≤ fuel) :
    ∃ answer, hasCycleFuel h dag fuel = some answer ∧
      (answer = true ↔ ∃ v ∈ dag.tasks, dag.ReachesCycle v) := by
  have hstarts : ∀ v ∈ h.tasks.order dag.tasks.keys, v ∈ dag.vertices := by
    intro v hv
    exact mem_vertices_of_task (AList.mem_keys.2 ((h.tasks.mem_order).1 hv))
  have hblack : BlackClosed dag fun _ => .white :=
    ⟨fun u hu => Color.noConfusion hu, fun u hu => Color.noConfusion hu⟩
  rcases dfsFrom_spec hfuel _ hstarts hblack (fun v hv => Color.noConfusion hv) with
    ⟨answer, hanswer, hiff⟩
  refine ⟨answer, hanswer, ?_⟩
  rw [hiff]
  simp only [IterationOrder.mem_order, ← AList.mem_keys]

/-- The search ends, and any larger amount of fuel produces the same answer. -/
theorem hasCycle_terminates (h : HashOrders) (dag : WorkloadDAG) {fuel : Nat}
    (hfuel : dag.dfsFuel ≤ fuel) : hasCycleFuel h dag fuel = some (hasCycle h dag) := by
  rcases hasCycleFuel_spec h dag hfuel with ⟨answer, hanswer, hiff⟩
  rcases hasCycleFuel_spec h dag (Nat.le_refl dag.dfsFuel) with ⟨answer', hanswer', hiff'⟩
  rw [hasCycle, hanswer', Option.getD_some, hanswer]
  have : answer = answer' := Bool.eq_iff_iff.2 (hiff.trans hiff'.symm)
  rw [this]

/-- The search answers true exactly when a task reaches a directed cycle. -/
theorem hasCycle_iff (h : HashOrders) (dag : WorkloadDAG) :
    hasCycle h dag = true ↔ ∃ v ∈ dag.tasks, dag.ReachesCycle v := by
  rcases hasCycleFuel_spec h dag (Nat.le_refl dag.dfsFuel) with ⟨answer, hanswer, hiff⟩
  rw [hasCycle, hanswer, Option.getD_some]
  exact hiff

/-- On every graph that can be built the search ends, and it answers true exactly
when a directed cycle of the forward adjacency is reachable from a task id. -/
theorem hasCycle_correct (ops : List BuildOp) (h : HashOrders) :
    (∃ bound, ∀ fuel ≥ bound,
      hasCycleFuel h (build ops) fuel = some (hasCycle h (build ops))) ∧
    (hasCycle h (build ops) = true ↔
      ∃ start ∈ (build ops).tasks, ∃ v, ReflTransGen (build ops).Edge start v ∧
        Digraph.OnCycle (build ops).Edge v) :=
  ⟨⟨(build ops).dfsFuel, fun _ hfuel => hasCycle_terminates h (build ops) hfuel⟩,
    hasCycle_iff h (build ops)⟩

/-! ## Agreement with the topological order -/

/-- On a graph on tasks, the search answers false exactly on acyclic graphs. -/
theorem EndpointsAreTasks.hasCycle_eq_false_iff (hends : dag.EndpointsAreTasks)
    (h : HashOrders) : hasCycle h dag = false ↔ dag.Acyclic := by
  rw [← Bool.not_eq_true, hasCycle_iff]
  constructor
  · intro hnone v hcycle
    rcases TransGen.head'_iff.1 hcycle with ⟨w, hvw, -⟩
    exact hnone ⟨v, (hends v w hvw).1, v, ReflTransGen.refl, hcycle⟩
  · intro hacyclic hsome
    rcases hsome with ⟨v, -, c, -, hcycle⟩
    exact hacyclic c hcycle

/-- The order has full length exactly on acyclic graphs. -/
theorem EndpointsAreTasks.length_topologicalOrder_iff (hends : dag.EndpointsAreTasks)
    (h : HashOrders) : (topologicalOrder h dag).length = dag.taskCount ↔ dag.Acyclic := by
  have hnodup := topologicalOrder_nodup h dag
  have hsub : topologicalOrder h dag ⊆ dag.tasks.keys := by
    intro v hv
    exact AList.mem_keys.1 ((hends.mem_topologicalOrder_iff h v).1 hv).1
  constructor
  · intro hlen v hcycle
    have hperm : (topologicalOrder h dag).Perm dag.tasks.keys :=
      (List.subperm_of_subset hnodup hsub).perm_of_length_le (le_of_eq hlen.symm)
    rcases TransGen.head'_iff.1 hcycle with ⟨w, hvw, -⟩
    have hv : v ∈ topologicalOrder h dag :=
      hperm.mem_iff.2 (AList.mem_keys.1 (hends v w hvw).1)
    exact ((hends.mem_topologicalOrder_iff h v).1 hv).2 ⟨v, hcycle, ReflTransGen.refl⟩
  · intro hacyclic
    refine List.Perm.length_eq ?_
    refine (List.perm_ext_iff_of_nodup hnodup (AList.keys_nodup dag.tasks)).2 fun v => ?_
    rw [hends.mem_topologicalOrder_of_acyclic hacyclic h v, AList.mem_keys]

/-- Kahn's loop ends and lists, without repetition, exactly the tasks that no
directed cycle reaches; edge sources come first; and the list is complete
exactly when the depth-first search finds no cycle. -/
theorem topologicalOrder_correct (ops : List BuildOp)
    (hends : (build ops).EndpointsAreTasks) (h h' : HashOrders) :
    (∃ bound, ∀ fuel ≥ bound, topologicalOrderFuel h (build ops) fuel =
      some (topologicalOrder h (build ops))) ∧
    (topologicalOrder h (build ops)).Nodup ∧
    (∀ v, v ∈ topologicalOrder h (build ops) ↔
      v ∈ (build ops).tasks ∧ ¬ Digraph.DownstreamOfCycle (build ops).Edge v) ∧
    (∀ u v, (build ops).Edge u v → v ∈ topologicalOrder h (build ops) →
      u ∈ topologicalOrder h (build ops) ∧
        (topologicalOrder h (build ops)).idxOf u < (topologicalOrder h (build ops)).idxOf v) ∧
    ((topologicalOrder h (build ops)).length = (build ops).taskCount ↔
      hasCycle h' (build ops) = false) := by
  refine ⟨⟨_, fun fuel hfuel => topologicalOrder_terminates h _ hfuel⟩,
    topologicalOrder_nodup h _, hends.mem_topologicalOrder_iff h, ?_, ?_⟩
  · intro u v huv hv
    exact (topologicalOrder_predsEarlier h (build ops)).idxOf_lt hv huv
  · rw [hends.length_topologicalOrder_iff h, hends.hasCycle_eq_false_iff h']

/-- A doubled edge, a self edge and a task downstream of it. -/
def starvedExample : List BuildOp :=
  [.addTask { id := [97] }, .addTask { id := [98] }, .addTask { id := [99] },
    .addDependency [97] [98], .addDependency [97] [98], .addDependency [99] [99],
    .addDependency [99] [98]]

theorem topologicalOrder_starvedExample :
    topologicalOrder .insertion (build starvedExample) = [[97]] ∧
      ((topologicalOrder .insertion (build starvedExample)).length =
          (build starvedExample).taskCount ↔
        hasCycle .insertion (build starvedExample) = false) :=
  ⟨by decide,
    (topologicalOrder_correct starvedExample (by decide) .insertion .insertion).2.2.2.2⟩

end WorkloadDAG

end EdgeOrchestrator
