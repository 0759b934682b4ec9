import EdgeOrchestrator.Workload.Generator
import Mathlib.Algebra.Order.Ring.Int
import Mathlib.Tactic.Ring

/-!
# What the generators build

Three drawings cover the generators: a line for chains and transformer layers, stages of
a hub, its branches and a merge for fans and diamonds, and an ordered graph for random
ones.  Each generator realizes its drawing because its ids are different for different
nodes.

Main results:

- `line_heights` and `stages_heights`: the longest paths of the drawings.
- `generators_build_topology`: validity, numbers of tasks, complete orders and critical path
  costs.
-/

namespace EdgeOrchestrator

namespace WorkloadGenerator

open WorkloadDAG

/-! ## Ids -/

/-- Different numbers have different texts. -/
theorem toDecimal_injective : Function.Injective toDecimal :=
  fun _ _ h => Json.intText_natCast_inj h

theorem chainId_injective : Function.Injective chainId :=
  fun _ _ h => toDecimal_injective (List.append_cancel_left h)

theorem randomId_injective : Function.Injective randomId :=
  fun _ _ h => toDecimal_injective (List.append_cancel_left h)

/-- The node at an even place of the line is an attention task. -/
def layerName (k : Nat) : TaskId :=
  if k % 2 = 0 then attnId (k / 2) else ffnId (k / 2)

/-- The index of a layer ends at the underscore behind it. -/
theorem layer_inj {i j : Nat} {s t : ByteString}
    (h : text "layer_" ++ toDecimal i ++ 0x5F :: s = text "layer_" ++ toDecimal j ++ 0x5F :: t) :
    i = j ∧ s = t := by
  rw [List.append_assoc, List.append_assoc] at h
  exact Json.intText_append_inj (by decide) (List.append_cancel_left h)

/-- Different layers have different names. -/
theorem layerName_injective : Function.Injective layerName := by
  intro a b h
  unfold layerName at h
  split at h
  · split at h
    · have := (layer_inj h).1
      omega
    · exact absurd (layer_inj h).2 (by decide)
  · split at h
    · exact absurd (layer_inj h).2 (by decide)
    · have := (layer_inj h).1
      omega

/-! ## Lines -/

/-- Nodes one after the other. -/
def line (count : Nat) (name : Nat → TaskId) (hname : Function.Injective name)
    (cost : Nat → Duration) : Blueprint Nat where
  name := name
  nodes := List.range count
  nodup := List.nodup_range.map hname
  edge a b := a + 1 = b ∧ b < count
  endpoints a b hab := by
    rw [List.mem_range, List.mem_range]
    omega
  rank := id
  rank_lt a b hab := Nat.lt_of_succ_le (Nat.le_of_eq hab.1)
  cost := cost

section Line

variable {count : Nat} {name : Nat → TaskId} {hname : Function.Injective name}
  {cost : Nat → Duration} {dag : WorkloadDAG}

/-- A node is as high as the nodes up to it are expensive. -/
def lineHeight (cost : Nat → Duration) (k : Nat) : Duration :=
  ((List.range (k + 1)).map cost).sum

theorem lineHeight_succ (cost : Nat → Duration) (k : Nat) :
    lineHeight cost (k + 1) = lineHeight cost k + cost (k + 1) := by
  rw [lineHeight, List.range_succ, List.map_append, List.sum_append, List.map_singleton,
    List.sum_singleton]
  rfl

theorem lineHeight_mono (hcost : ∀ i, 0 ≤ cost i) {k l : Nat} (hkl : k ≤ l) :
    lineHeight cost k ≤ lineHeight cost l := by
  induction l, hkl using Nat.le_induction with
  | base => exact le_refl _
  | succ l _ ih =>
    rw [lineHeight_succ]
    exact le_trans ih (le_add_of_nonneg_right (hcost _))

theorem cost_le_lineHeight (hcost : ∀ i, 0 ≤ cost i) (k : Nat) : cost k ≤ lineHeight cost k := by
  cases k with
  | zero => simp [lineHeight]
  | succ k =>
    have hzero : (0 : Int) ≤ lineHeight cost k := by
      apply List.sum_nonneg
      intro x hx
      rcases List.mem_map.1 hx with ⟨i, -, rfl⟩
      exact hcost i
    rw [lineHeight_succ]
    exact le_add_of_nonneg_left hzero

/-- Partial sums are the heights of a line. -/
theorem line_heights (hcost : ∀ i, 0 ≤ cost i) :
    (line count name hname cost).Heights (lineHeight cost) where
  cost_le k _ := cost_le_lineHeight hcost k
  add_cost_le a b hab := by
    obtain ⟨rfl, -⟩ := hab
    exact le_of_eq (lineHeight_succ cost a).symm
  attained k hk := by
    cases k with
    | zero =>
      left
      simp [lineHeight, line]
    | succ k => exact Or.inr ⟨k, ⟨rfl, List.mem_range.1 hk⟩, lineHeight_succ cost k⟩

/-- The critical path of a line is the sum of its costs. -/
theorem criticalPathCost_line (hdag : (line count name hname cost).Realizes dag)
    (hcost : ∀ i, 0 ≤ cost i) (hcount : 1 ≤ count) (h : HashOrders) :
    dag.criticalPathCost h = ((List.range count).map cost).sum := by
  obtain ⟨top, rfl⟩ : ∃ top, count = top + 1 := ⟨count - 1, by omega⟩
  apply hdag.criticalPathCost_eq (line_heights hcost) (fun i _ => hcost i)
    (List.mem_range.2 (Nat.lt_succ_self top))
  intro k hk
  exact lineHeight_mono hcost (Nat.le_of_lt_succ (List.mem_range.1 hk))

end Line

/-! ## Stages -/

/-- The vertices of a drawing in stages. -/
inductive StageNode where
  | hub (d : Nat)
  | branch (d w : Nat)
  | merge (d : Nat)
deriving DecidableEq

/-- The stage of a vertex. -/
def StageNode.level : StageNode → Nat
  | .hub d => d
  | .branch d _ => d
  | .merge d => d

/-- One stage, from hub to merge. -/
def stage (width d : Nat) : List StageNode :=
  .hub d :: ((List.range width).map (.branch d) ++ [.merge d])

/-- All stages, in order. -/
def stageNodes (depth width : Nat) : List StageNode :=
  (List.range depth).flatMap (stage width)

/-- From a hub to its branches, from them to the merge, from there to the next hub. -/
inductive StageEdge (depth width : Nat) : StageNode → StageNode → Prop
  | spread {d w : Nat} (hd : d < depth) (hw : w < width) :
      StageEdge depth width (.hub d) (.branch d w)
  | gather {d w : Nat} (hd : d < depth) (hw : w < width) :
      StageEdge depth width (.branch d w) (.merge d)
  | next {d : Nat} (hd : d + 1 < depth) : StageEdge depth width (.merge d) (.hub (d + 1))

section Stages

variable {depth width d w : Nat}

@[simp]
theorem hub_mem_stageNodes : .hub d ∈ stageNodes depth width ↔ d < depth := by
  simp [stageNodes, stage]

@[simp]
theorem branch_mem_stageNodes : .branch d w ∈ stageNodes depth width ↔ d < depth ∧ w < width := by
  simp [stageNodes, stage]

@[simp]
theorem merge_mem_stageNodes : .merge d ∈ stageNodes depth width ↔ d < depth := by
  simp [stageNodes, stage]

theorem length_stageNodes (depth width : Nat) :
    (stageNodes depth width).length = depth * (width + 2) := by
  simp [stageNodes, stage, List.length_flatMap]

theorem level_of_mem_stage {node : StageNode} (hnode : node ∈ stage width d) : node.level = d := by
  unfold stage at hnode
  simp only [List.mem_cons, List.mem_append, List.mem_map, List.not_mem_nil, or_false] at hnode
  rcases hnode with rfl | ⟨w, -, rfl⟩ | rfl <;> rfl

theorem nodup_stageNodes (depth width : Nat) : (stageNodes depth width).Nodup := by
  apply List.nodup_flatMap.2
  constructor
  · intro d _
    have hbranches : ((List.range width).map (StageNode.branch d)).Nodup :=
      List.nodup_range.map fun _ _ h => (StageNode.branch.inj h).2
    simp [stage, List.nodup_append, hbranches]
  · apply List.nodup_range.imp
    intro d d' hne node hnode hnode'
    exact hne ((level_of_mem_stage hnode).symm.trans (level_of_mem_stage hnode'))

/-- How many nodes a path from the first hub passes before it gets here. -/
def StageNode.before : StageNode → Nat
  | .hub d => 3 * d
  | .branch d _ => 3 * d + 1
  | .merge d => 3 * d + 2

/-- Stages one after the other. -/
def stages (depth width : Nat) (name : StageNode → TaskId)
    (hname : ((stageNodes depth width).map name).Nodup) (cost : Duration) :
    Blueprint StageNode where
  name := name
  nodes := stageNodes depth width
  nodup := hname
  edge := StageEdge depth width
  endpoints a b hab := by
    cases hab with
    | spread hd hw | gather hd hw => simp [hd, hw]
    | next hd => simp [hd, Nat.lt_of_succ_lt hd]
  rank := StageNode.before
  rank_lt a b hab := by
    cases hab with
    | spread hd hw | gather hd hw | next hd => exact Nat.lt_succ_self _
  cost _ := cost

variable {name : StageNode → TaskId} {hname : ((stageNodes depth width).map name).Nodup}
  {cost : Duration} {dag : WorkloadDAG}

/-- Every edge adds the cost of one task. -/
theorem before_of_edge {a b : StageNode} (hab : StageEdge depth width a b) :
    b.before = a.before + 1 := by
  cases hab <;> rfl

/-- Every node but the first hub has a predecessor. -/
theorem exists_edge_of_mem {a : StageNode} (ha : a ∈ stageNodes depth width)
    (hwidth : 1 ≤ width) : a = .hub 0 ∨ ∃ b, StageEdge depth width b a := by
  cases a with
  | hub d =>
    cases d with
    | zero => exact Or.inl rfl
    | succ d => exact Or.inr ⟨.merge d, .next (hub_mem_stageNodes.1 ha)⟩
  | branch d w =>
    rcases branch_mem_stageNodes.1 ha with ⟨hd, hw⟩
    exact Or.inr ⟨.hub d, .spread hd hw⟩
  | merge d => exact Or.inr ⟨.branch d 0, .gather (merge_mem_stageNodes.1 ha) hwidth⟩

/-- The cost of the longest path to a vertex. -/
def stageHeight (cost : Duration) (a : StageNode) : Duration :=
  (a.before + 1 : Nat) * cost

theorem stageHeight_of_edge (cost : Duration) {a b : StageNode}
    (hab : StageEdge depth width a b) : stageHeight cost b = stageHeight cost a + cost := by
  rw [stageHeight, stageHeight, before_of_edge hab]
  push_cast
  ring

theorem stages_heights (hwidth : 1 ≤ width) (hcost : 0 ≤ cost) :
    (stages depth width name hname cost).Heights (stageHeight cost) where
  cost_le a _ := by
    rw [stageHeight]
    exact le_mul_of_one_le_left hcost (by exact_mod_cast Nat.le_add_left 1 _)
  add_cost_le a b hab := le_of_eq (stageHeight_of_edge cost hab).symm
  attained a ha := by
    rcases exists_edge_of_mem ha hwidth with rfl | ⟨b, hba⟩
    · left
      simp [stageHeight, StageNode.before, stages]
    · exact Or.inr ⟨b, hba, stageHeight_of_edge cost hba⟩

theorem criticalPathCost_stages (hdag : (stages depth width name hname cost).Realizes dag)
    (hdepth : 1 ≤ depth) (hwidth : 1 ≤ width) (hcost : 0 ≤ cost) (h : HashOrders) :
    dag.criticalPathCost h = 3 * depth * cost := by
  obtain ⟨top, rfl⟩ : ∃ top, depth = top + 1 := ⟨depth - 1, by omega⟩
  have hvalue : stageHeight cost (.merge top) = 3 * (top + 1 : Nat) * cost := by
    rw [stageHeight, StageNode.before]
    push_cast
    ring
  rw [← hvalue]
  apply hdag.criticalPathCost_eq (stages_heights hwidth hcost) (fun _ _ => hcost)
    (merge_mem_stageNodes.2 (Nat.lt_succ_self top))
  intro a ha
  have hbefore : a.before ≤ (StageNode.merge top).before := by
    cases a with
    | hub d =>
      have := hub_mem_stageNodes.1 ha
      simp only [StageNode.before]
      omega
    | branch d w =>
      have := (branch_mem_stageNodes.1 ha).1
      simp only [StageNode.before]
      omega
    | merge d =>
      have := merge_mem_stageNodes.1 ha
      simp only [StageNode.before]
      omega
  rw [stageHeight, stageHeight]
  exact mul_le_mul_of_nonneg_right (by exact_mod_cast Nat.succ_le_succ hbefore) hcost

end Stages

/-! ## The generators realize their drawings -/

/-- The edge that links a round to the one before. -/
theorem mem_link {i : Nat} {source target u v : TaskId} :
    BuildOp.addDependency u v ∈ (if i > 0 then [.addDependency source target] else []) ↔
      0 < i ∧ u = source ∧ v = target := by
  by_cases hi : i > 0
  · simp [hi]
  · simp [hi]

theorem addedTasks_link (i : Nat) (source target : TaskId) :
    addedTasks (if i > 0 then [.addDependency source target] else []) = [] := by
  split <;> rfl

theorem realizes_linearChain (numTasks : Nat) (baseProfile : TaskProfile) :
    (line numTasks chainId chainId_injective fun _ => baseProfile.computeCost).Realizes
      (linearChain numTasks baseProfile) := by
  have hadded : addedTasks ((List.range numTasks).flatMap (chainCalls baseProfile)) =
      (List.range numTasks).map (chainTask baseProfile) := by
    rw [addedTasks_flatMap, List.map_eq_flatMap]
    apply List.flatMap_congr
    intro i _
    rw [chainCalls, addedTasks_addTask, addedTasks_link]
  rw [linearChain_eq_build]
  apply Blueprint.realizes_build
  · rw [hadded, List.map_map]
    rfl
  · intro task htask i _ _
    rw [hadded] at htask
    rcases List.mem_map.1 htask with ⟨j, -, rfl⟩
    rfl
  · intro u v
    simp only [List.mem_flatMap, List.mem_range, chainCalls, List.mem_cons, reduceCtorEq,
      false_or, mem_link]
    constructor
    · rintro ⟨i, hi, hpos, hu, hv⟩
      exact ⟨i - 1, i, ⟨Nat.sub_add_cancel hpos, hi⟩, hu, hv⟩
    · rintro ⟨a, b, ⟨rfl, hb⟩, hu, hv⟩
      exact ⟨a + 1, hb, Nat.succ_pos a, hu, hv⟩

theorem map_range_two_mul {β : Type*} (f : Nat → β) (n : Nat) :
    (List.range (2 * n)).map f =
      (List.range n).flatMap fun i => [f (2 * i), f (2 * i + 1)] := by
  induction n with
  | zero => rfl
  | succ n ih =>
    rw [Nat.mul_succ, List.range_succ, List.range_succ, List.range_succ, List.map_append,
      List.map_append, ih, List.flatMap_append, List.append_assoc]
    rfl

theorem layerName_even (i : Nat) : layerName (2 * i) = attnId i := by
  rw [layerName, if_pos (by omega), Nat.mul_div_cancel_left i (by decide)]

theorem layerName_odd (i : Nat) : layerName (2 * i + 1) = ffnId i := by
  have hhalf : (2 * i + 1) / 2 = i := by omega
  rw [layerName, if_neg (by omega), hhalf]

/-- Attention and feed-forward costs take turns. -/
def layerCost (hiddenDim : U64) (k : Nat) : Duration :=
  if k % 2 = 0 then (hiddenDim * 2).toInt else (hiddenDim * 4).toInt

theorem realizes_transformerLayers (numLayers : Nat) (hiddenDim kvCacheBytesPerLayer : U64) :
    (line (2 * numLayers) layerName layerName_injective (layerCost hiddenDim)).Realizes
      (transformerLayers numLayers hiddenDim kvCacheBytesPerLayer) := by
  have hadded : addedTasks
        ((List.range numLayers).flatMap (transformerCalls hiddenDim kvCacheBytesPerLayer)) =
      (List.range numLayers).flatMap fun i =>
        [attnTask hiddenDim kvCacheBytesPerLayer i, ffnTask hiddenDim i] := by
    rw [addedTasks_flatMap]
    apply List.flatMap_congr
    intro i _
    rw [transformerCalls, addedTasks_append, addedTasks_addTask, addedTasks_link]
    rfl
  rw [transformerLayers_eq_build]
  apply Blueprint.realizes_build
  · rw [hadded, List.map_flatMap]
    refine Eq.trans ?_ (map_range_two_mul layerName numLayers).symm
    apply List.flatMap_congr
    intro i _
    rw [layerName_even, layerName_odd]
    rfl
  · intro task htask k _ hid
    rw [hadded] at htask
    rcases List.mem_flatMap.1 htask with ⟨i, -, htask⟩
    rcases List.mem_pair.1 htask with rfl | rfl
    · have hk : layerName k = layerName (2 * i) := hid.symm.trans (layerName_even i).symm
      rw [layerName_injective hk]
      exact (if_pos (Nat.mul_mod_right 2 i)).symm
    · have hk : layerName k = layerName (2 * i + 1) := hid.symm.trans (layerName_odd i).symm
      rw [layerName_injective hk]
      exact (if_neg (by omega)).symm
  · intro u v
    simp only [List.mem_flatMap, List.mem_range, transformerCalls, List.cons_append,
      List.mem_cons, List.mem_append, reduceCtorEq, false_or, mem_link,
      BuildOp.addDependency.injEq, List.not_mem_nil, or_false]
    constructor
    · rintro ⟨i, hi, ⟨hpos, rfl, rfl⟩ | ⟨rfl, rfl⟩⟩
      · obtain ⟨j, rfl⟩ : ∃ j, i = j + 1 := ⟨i - 1, by omega⟩
        exact ⟨2 * j + 1, 2 * (j + 1), ⟨by omega, by omega⟩, (layerName_odd j).symm,
          (layerName_even (j + 1)).symm⟩
      · exact ⟨2 * i, 2 * i + 1, ⟨rfl, by omega⟩, (layerName_even i).symm,
          (layerName_odd i).symm⟩
    · rintro ⟨a, b, ⟨rfl, hb⟩, rfl, rfl⟩
      rcases Nat.even_or_odd' a with ⟨i, rfl | rfl⟩
      · exact ⟨i, by omega, Or.inr ⟨layerName_even i, layerName_odd i⟩⟩
      · exact ⟨i + 1, by omega, Or.inl ⟨Nat.succ_pos i, layerName_odd i, layerName_even (i + 1)⟩⟩

theorem addedTasks_spreadCalls (hubId : TaskId) (branches : List Task) (sink : Task) :
    addedTasks (spreadCalls hubId branches sink) = branches ++ [sink] := by
  have hedges : addedTasks (branches.map fun branch => .addDependency branch.id sink.id) = [] := by
    induction branches with
    | nil => rfl
    | cons branch branches ih => exact ih
  rw [spreadCalls, addedTasks_append, addedTasks_flatMap, addedTasks_addTask, hedges]
  simp

theorem mem_spreadCalls {hubId : TaskId} {branches : List Task} {sink : Task} {u v : TaskId} :
    .addDependency u v ∈ spreadCalls hubId branches sink ↔
      ∃ branch ∈ branches, (u = hubId ∧ v = branch.id) ∨ (u = branch.id ∧ v = sink.id) := by
  simp only [spreadCalls, List.mem_append, List.mem_flatMap, List.mem_cons, reduceCtorEq,
    false_or, BuildOp.addDependency.injEq, List.not_mem_nil, or_false, List.mem_map]
  constructor
  · rintro (⟨branch, hbranch, hu, hv⟩ | ⟨branch, hbranch, rfl, rfl⟩)
    · exact ⟨branch, hbranch, Or.inl ⟨hu, hv⟩⟩
    · exact ⟨branch, hbranch, Or.inr ⟨rfl, rfl⟩⟩
  · rintro ⟨branch, hbranch, ⟨hu, hv⟩ | ⟨hu, hv⟩⟩
    · exact Or.inl ⟨branch, hbranch, hu, hv⟩
    · exact Or.inr ⟨branch, hbranch, hu.symm, hv.symm⟩

/-- A byte that tells the three families of names apart. -/
def StageNode.pick (hub branch merge : UInt8) : StageNode → UInt8
  | .hub _ => hub
  | .branch _ _ => branch
  | .merge _ => merge

/-- Two hubs, two branches or two merges. -/
inductive StageNode.SameKind : StageNode → StageNode → Prop
  | hub (d d' : Nat) : SameKind (.hub d) (.hub d')
  | branch (d w d' w' : Nat) : SameKind (.branch d w) (.branch d' w')
  | merge (d d' : Nat) : SameKind (.merge d) (.merge d')

theorem StageNode.sameKind_of_pick {x y z : UInt8} (hxy : x ≠ y) (hyz : y ≠ z) (hxz : x ≠ z)
    {a b : StageNode} (hpick : a.pick x y z = b.pick x y z) : a.SameKind b := by
  cases a with
  | hub d =>
    cases b with
    | hub d' => exact .hub d d'
    | branch d' w' => exact absurd hpick hxy
    | merge d' => exact absurd hpick hxz
  | branch d w =>
    cases b with
    | hub d' => exact absurd hpick.symm hxy
    | branch d' w' => exact .branch d w d' w'
    | merge d' => exact absurd hpick hyz
  | merge d =>
    cases b with
    | hub d' => exact absurd hpick.symm hxz
    | branch d' w' => exact absurd hpick.symm hyz
    | merge d' => exact .merge d d'

/-- The ids of a fan. -/
def fanName : StageNode → TaskId
  | .hub _ => fanSrcId
  | .branch _ w => fanBranchId w
  | .merge _ => fanSinkId

/-- The names differ in their seventh byte. -/
theorem fanName_byte (a : StageNode) : (fanName a)[6]? = some (a.pick 0x63 0x61 0x6E) := by
  cases a <;> rfl

theorem nodup_fanName (width : Nat) : ((stageNodes 1 width).map fanName).Nodup := by
  apply List.Nodup.map_on _ (nodup_stageNodes 1 width)
  intro a ha b hb hname
  have hbyte := congrArg (fun id => id[6]?) hname
  simp only [fanName_byte, Option.some.injEq] at hbyte
  cases StageNode.sameKind_of_pick (by decide) (by decide) (by decide) hbyte with
  | hub d d' =>
    rw [hub_mem_stageNodes] at ha hb
    rw [Nat.lt_one_iff.1 ha, Nat.lt_one_iff.1 hb]
  | branch d w d' w' =>
    rw [branch_mem_stageNodes] at ha hb
    rw [Nat.lt_one_iff.1 ha.1, Nat.lt_one_iff.1 hb.1,
      toDecimal_injective (List.append_cancel_left hname)]
  | merge d d' =>
    rw [merge_mem_stageNodes] at ha hb
    rw [Nat.lt_one_iff.1 ha, Nat.lt_one_iff.1 hb]

/-- The ids of a diamond. -/
def diamondName : StageNode → TaskId
  | .hub d => hubId d
  | .branch d w => branchId d w
  | .merge d => mergeId d

theorem diamondName_byte (a : StageNode) : (diamondName a)[0]? = some (a.pick 0x68 0x64 0x6D) := by
  cases a <;> rfl

theorem diamondName_injective : Function.Injective diamondName := by
  intro a b hname
  have hbyte := congrArg (fun id => id[0]?) hname
  simp only [diamondName_byte, Option.some.injEq] at hbyte
  cases StageNode.sameKind_of_pick (by decide) (by decide) (by decide) hbyte with
  | hub d d' | merge d d' => rw [toDecimal_injective (List.append_cancel_left hname)]
  | branch d w d' w' =>
    simp only [diamondName, branchId, List.append_assoc] at hname
    rcases Json.intText_append_inj (by decide) (List.append_cancel_left hname) with ⟨hd, hw⟩
    rw [hd, toDecimal_injective hw]

/-- The edges of one stage, under any names. -/
theorem mem_spreadCalls_range {hubId : TaskId} {width : Nat} {branch : Nat → Task} {sink : Task}
    {u v : TaskId} :
    .addDependency u v ∈ spreadCalls hubId ((List.range width).map branch) sink ↔
      ∃ w < width, (u = hubId ∧ v = (branch w).id) ∨ (u = (branch w).id ∧ v = sink.id) := by
  rw [mem_spreadCalls]
  simp only [List.mem_map, List.mem_range, exists_exists_and_eq_and]

theorem realizes_fanOutFanIn (width : Nat) (baseProfile : TaskProfile) :
    (stages 1 width fanName (nodup_fanName width) baseProfile.computeCost).Realizes
      (fanOutFanIn width baseProfile) := by
  have hadded : addedTasks (.addTask (fanSrcTask width baseProfile) ::
        spreadCalls fanSrcId ((List.range width).map (fanBranchTask baseProfile))
          (fanSinkTask width baseProfile)) =
      fanSrcTask width baseProfile :: ((List.range width).map (fanBranchTask baseProfile) ++
        [fanSinkTask width baseProfile]) := by
    rw [addedTasks_addTask, addedTasks_spreadCalls]
  rw [fanOutFanIn_eq_build]
  apply Blueprint.realizes_build
  · rw [hadded]
    simp [stages, stageNodes, stage, fanName, fanSrcTask, fanBranchTask, fanSinkTask]
  · intro task htask a _ _
    rw [hadded] at htask
    simp only [List.mem_cons, List.mem_append, List.mem_map, List.not_mem_nil, or_false] at htask
    rcases htask with rfl | ⟨w, -, rfl⟩ | rfl <;> rfl
  · intro u v
    rw [List.mem_cons, mem_spreadCalls_range]
    simp only [reduceCtorEq, false_or]
    constructor
    · rintro ⟨w, hw, ⟨hu, hv⟩ | ⟨hu, hv⟩⟩
      · exact ⟨.hub 0, .branch 0 w, .spread Nat.one_pos hw, hu, hv⟩
      · exact ⟨.branch 0 w, .merge 0, .gather Nat.one_pos hw, hu, hv⟩
    · rintro ⟨a, b, hab, hu, hv⟩
      cases hab with
      | spread hd hw => exact ⟨_, hw, Or.inl ⟨hu, hv⟩⟩
      | gather hd hw => exact ⟨_, hw, Or.inr ⟨hu, hv⟩⟩
      | next hd => omega

theorem realizes_diamond (depth width : Nat) (baseProfile : TaskProfile) :
    (stages depth width diamondName
      ((nodup_stageNodes depth width).map diamondName_injective)
      baseProfile.computeCost).Realizes (diamond depth width baseProfile) := by
  have hadded : addedTasks ((List.range depth).flatMap (diamondCalls width baseProfile)) =
      (List.range depth).flatMap fun d => hubTask baseProfile d ::
        ((List.range width).map (branchTask baseProfile d) ++ [mergeTask baseProfile d]) := by
    rw [addedTasks_flatMap]
    apply List.flatMap_congr
    intro d _
    rw [diamondCalls, addedTasks_append, addedTasks_addTask, addedTasks_link,
      addedTasks_spreadCalls]
    rfl
  rw [diamond_eq_build]
  apply Blueprint.realizes_build
  · rw [hadded, List.map_flatMap]
    simp only [stages, stageNodes, List.map_flatMap]
    apply List.flatMap_congr
    intro d _
    simp [stage, diamondName, hubTask, branchTask, mergeTask]
  · intro task htask a _ _
    rw [hadded] at htask
    simp only [List.mem_flatMap, List.mem_cons, List.mem_append, List.mem_map, List.not_mem_nil,
      or_false] at htask
    rcases htask with ⟨d, -, rfl | ⟨w, -, rfl⟩ | rfl⟩ <;> rfl
  · intro u v
    simp only [List.mem_flatMap, List.mem_range, diamondCalls, List.cons_append, List.mem_cons,
      List.mem_append, reduceCtorEq, false_or, mem_link, mem_spreadCalls_range]
    constructor
    · rintro ⟨d, hd, ⟨hpos, hu, hv⟩ | ⟨w, hw, ⟨hu, hv⟩ | ⟨hu, hv⟩⟩⟩
      · obtain ⟨e, rfl⟩ : ∃ e, d = e + 1 := ⟨d - 1, by omega⟩
        exact ⟨.merge e, .hub (e + 1), .next hd, hu, hv⟩
      · exact ⟨.hub d, .branch d w, .spread hd hw, hu, hv⟩
      · exact ⟨.branch d w, .merge d, .gather hd hw, hu, hv⟩
    · rintro ⟨a, b, hab, hu, hv⟩
      cases hab with
      | spread hd hw => exact ⟨_, hd, Or.inr ⟨_, hw, Or.inl ⟨hu, hv⟩⟩⟩
      | gather hd hw => exact ⟨_, hd, Or.inr ⟨_, hw, Or.inr ⟨hu, hv⟩⟩⟩
      | next hd => exact ⟨_, hd, Or.inl ⟨Nat.succ_pos _, hu, hv⟩⟩

/-- The drawing of what has been drawn at random. -/
def drawn (numTasks : Nat) (ops : List BuildOp) : Blueprint Nat where
  name := randomId
  nodes := List.range numTasks
  nodup := List.nodup_range.map randomId_injective
  edge i j := i < j ∧ j < numTasks ∧ .addDependency (randomId i) (randomId j) ∈ ops
  endpoints i j hij := by
    rw [List.mem_range, List.mem_range]
    exact ⟨hij.1.trans hij.2.1, hij.2.1⟩
  rank := id
  rank_lt i j hij := hij.1
  cost i := (build ops).costOf (randomId i)

theorem exists_realizes_randomDag {σ : Type*} (source : RandomSource σ) (fl : FloatOps)
    (edgeProbability : F32) (minProfile maxProfile : TaskProfile) (numTasks : Nat) (rng : σ) :
    ∃ ops, (drawn numTasks ops).Realizes
      (randomDag source fl edgeProbability minProfile maxProfile numTasks rng) := by
  rcases exists_randomDag_eq_build source fl edgeProbability minProfile maxProfile numTasks rng with
    ⟨ops, hdag, hids, hedges⟩
  refine ⟨ops, ?_⟩
  rw [hdag]
  apply Blueprint.realizes_build
  · exact hids
  · intro task htask i _ hid
    have hnodup : ((addedTasks ops).map Task.id).Nodup := by
      rw [hids]
      exact (drawn numTasks ops).nodup
    rw [← costOf_build hnodup htask, hid]
    rfl
  · intro u v
    constructor
    · intro hmem
      rcases hedges u v hmem with ⟨i, j, hij, hj, rfl, rfl⟩
      exact ⟨i, j, ⟨hij, hj, hmem⟩, rfl, rfl⟩
    · rintro ⟨i, j, ⟨-, -, hmem⟩, rfl, rfl⟩
      exact hmem

/-! ## The topologies -/

/-- Without overflow the product of words is that of numbers. -/
theorem toInt_mul {x y : U64} (hrange : x.toNat * y.toNat < 2 ^ 63) :
    (x * y).toInt = (y.toNat * x.toNat : Nat) := by
  have hvalue : (x * y).toNat = x.toNat * y.toNat := by
    rw [BitVec.toNat_mul, Nat.mod_eq_of_lt (by omega)]
  rw [BitVec.toInt_eq_toNat_of_lt (by omega), hvalue, Nat.mul_comm]

theorem layerCost_eq {hiddenDim : U64} (hrange : 4 * hiddenDim.toNat < 2 ^ 63) (k : Nat) :
    layerCost hiddenDim k = ((if k % 2 = 0 then 2 else 4) * hiddenDim.toNat : Nat) := by
  unfold layerCost
  split
  · exact toInt_mul (by simp only [BitVec.reduceToNat]; omega)
  · exact toInt_mul (by simp only [BitVec.reduceToNat]; omega)

theorem layerCost_nonneg {hiddenDim : U64} (hrange : 4 * hiddenDim.toNat < 2 ^ 63) (k : Nat) :
    0 ≤ layerCost hiddenDim k := by
  rw [layerCost_eq hrange]
  exact Int.natCast_nonneg _

/-- The sum along the line of a transformer. -/
theorem sum_layerCost {hiddenDim : U64} (hrange : 4 * hiddenDim.toNat < 2 ^ 63)
    (numLayers : Nat) :
    ((List.range (2 * numLayers)).map (layerCost hiddenDim)).sum =
      6 * numLayers * hiddenDim.toNat := by
  induction numLayers with
  | zero => simp
  | succ n ih =>
    have heven : layerCost hiddenDim (2 * n) = 2 * (hiddenDim.toNat : Int) := by
      rw [layerCost_eq hrange, if_pos (Nat.mul_mod_right 2 n)]
      push_cast
      rfl
    have hodd : layerCost hiddenDim (2 * n + 1) = 4 * (hiddenDim.toNat : Int) := by
      rw [layerCost_eq hrange, if_neg (by omega)]
      push_cast
      rfl
    rw [Nat.mul_succ, List.range_succ, List.range_succ]
    simp only [List.map_append, List.map_singleton, List.sum_append, List.sum_singleton, ih,
      heven, hodd]
    push_cast
    ring

/-- A valid graph of `count` tasks, all of which Kahn's loop lists. -/
structure Generates (h : HashOrders) (dag : WorkloadDAG) (count : Nat) : Prop where
  isValid : dag.isValid h = true
  taskCount : dag.taskCount = count
  topologicalOrder : (dag.topologicalOrder h).length = count

theorem generates_of_realizes {ν : Type*} {g : Blueprint ν} {dag : WorkloadDAG} {count : Nat}
    (hdag : g.Realizes dag) (hcount : g.nodes.length = count) (hpos : 1 ≤ count)
    (h : HashOrders) : Generates h dag count where
  isValid := by
    apply hdag.isValid
    rw [← List.length_pos_iff, hcount]
    exact hpos
  taskCount := hdag.taskCount_eq.trans hcount
  topologicalOrder := hdag.length_topologicalOrder.trans hcount

/-- Every generator returns the topology it names, for all sizes and all draws: a valid
graph with the right number of tasks, all of them in the topological order, and, except
for random graphs, with the critical path of the drawing. -/
theorem generators_build_topology {σ : Type*} (source : RandomSource σ) (fl : FloatOps)
    (h : HashOrders) :
    (∀ (numTasks : Nat) (baseProfile : TaskProfile), 1 ≤ numTasks →
      0 ≤ baseProfile.computeCost →
      Generates h (linearChain numTasks baseProfile) numTasks ∧
        (linearChain numTasks baseProfile).criticalPathCost h =
          numTasks * baseProfile.computeCost) ∧
    (∀ (width : Nat) (baseProfile : TaskProfile), 1 ≤ width → 0 ≤ baseProfile.computeCost →
      Generates h (fanOutFanIn width baseProfile) (width + 2) ∧
        (fanOutFanIn width baseProfile).criticalPathCost h = 3 * baseProfile.computeCost) ∧
    (∀ (depth width : Nat) (baseProfile : TaskProfile), 1 ≤ depth → 1 ≤ width →
      0 ≤ baseProfile.computeCost →
      Generates h (diamond depth width baseProfile) (depth * (width + 2)) ∧
        (diamond depth width baseProfile).criticalPathCost h =
          3 * depth * baseProfile.computeCost) ∧
    (∀ (numLayers : Nat) (hiddenDim kvCacheBytesPerLayer : U64), 1 ≤ numLayers →
      4 * hiddenDim.toNat < 2 ^ 63 →
      Generates h (transformerLayers numLayers hiddenDim kvCacheBytesPerLayer)
          (2 * numLayers) ∧
        (transformerLayers numLayers hiddenDim kvCacheBytesPerLayer).criticalPathCost h =
          6 * numLayers * hiddenDim.toNat) ∧
    ∀ (numTasks : Nat) (edgeProbability : F32) (minProfile maxProfile : TaskProfile) (rng : σ),
      1 ≤ numTasks →
      Generates h (randomDag source fl edgeProbability minProfile maxProfile numTasks rng)
        numTasks := by
  refine ⟨?_, ?_, ?_, ?_, ?_⟩
  · intro numTasks baseProfile hpos hcost
    have hdag := realizes_linearChain numTasks baseProfile
    constructor
    · exact generates_of_realizes hdag List.length_range hpos h
    · rw [criticalPathCost_line hdag (fun _ => hcost) hpos]
      simp
  · intro width baseProfile hwidth hcost
    have hdag := realizes_fanOutFanIn width baseProfile
    constructor
    · apply generates_of_realizes hdag _ (by omega)
      exact (length_stageNodes 1 width).trans (Nat.one_mul _)
    · rw [criticalPathCost_stages hdag (Nat.le_refl 1) hwidth hcost]
      simp
  · intro depth width baseProfile hdepth hwidth hcost
    have hdag := realizes_diamond depth width baseProfile
    constructor
    · apply generates_of_realizes hdag (length_stageNodes depth width)
      exact Nat.mul_pos hdepth (Nat.succ_pos _)
    · exact criticalPathCost_stages hdag hdepth hwidth hcost h
  · intro numLayers hiddenDim kvCacheBytesPerLayer hlayers hrange
    have hdag := realizes_transformerLayers numLayers hiddenDim kvCacheBytesPerLayer
    constructor
    · exact generates_of_realizes hdag List.length_range (by omega) h
    · rw [criticalPathCost_line hdag (layerCost_nonneg hrange) (by omega), sum_layerCost hrange]
  · intro numTasks edgeProbability minProfile maxProfile rng hpos
    rcases exists_realizes_randomDag source fl edgeProbability minProfile maxProfile numTasks rng
      with ⟨ops, hdag⟩
    exact generates_of_realizes hdag List.length_range hpos h

/-- A source that counts and draws what it has counted. -/
def countingSource : RandomSource Nat where
  duration low _ rng := (low + rng, rng + 1)
  uint64 low _ rng := (low + BitVec.ofNat 64 rng, rng + 1)
  unitFloat rng := (BitVec.ofNat 32 rng, rng + 1)

theorem generators_build_small :
    (linearChain 3 { computeCost := 5 }).criticalPathCost .insertion = 15 ∧
      (fanOutFanIn 2 { computeCost := 5 }).criticalPathCost .insertion = 15 ∧
      (diamond 2 3 { computeCost := 5 }).taskCount = 10 ∧
      (transformerLayers 2 8 100).criticalPathCost .insertion = 96 ∧
      ((randomDag countingSource .wholeNumber 20 {} {} 4 0).topologicalOrder
        .insertion).length = 4 := by
  rcases generators_build_topology countingSource .wholeNumber .insertion with
    ⟨hchain, hfan, hdiamond, hlayers, hrandom⟩
  refine ⟨?_, ?_, ?_, ?_, ?_⟩
  · exact (hchain 3 { computeCost := 5 } (by decide) (by decide)).2
  · exact (hfan 2 { computeCost := 5 } (by decide) (by decide)).2
  · exact (hdiamond 2 3 { computeCost := 5 } (by decide) (by decide) (by decide)).1.taskCount
  · exact (hlayers 2 8 100 (by decide) (by decide)).2
  · exact (hrandom 4 20 {} {} 0 (by decide)).topologicalOrder

end WorkloadGenerator

end EdgeOrchestrator
