import EdgeOrchestrator.Library.Json
import EdgeOrchestrator.Workload.Blueprint

/-!
# The workload generators

`WorkloadGenerator` builds chains, fans, diamonds, transformer layers and random graphs
with loops of `add_task` and `add_dependency`.  Ids are made of a prefix and decimal
indices.  Random numbers come from a source that is a parameter: the distributions on
`std::mt19937` are three functions of its state.

Main result:

- `linearChain_eq_build`, `fanOutFanIn_eq_build`, `diamond_eq_build`,
  `transformerLayers_eq_build` and `exists_randomDag_eq_build`: the calls of each generator.
-/

namespace EdgeOrchestrator

namespace WorkloadGenerator

open WorkloadDAG

/-- `std::to_string` of a `size_t`. -/
def toDecimal (n : Nat) : ByteString :=
  Json.intText n

/-! ## Chains -/

/-- `chain_0`, `chain_1`, ... -/
def chainId (i : Nat) : TaskId :=
  text "chain_" ++ toDecimal i

/-- A task of a chain. -/
def chainTask (baseProfile : TaskProfile) (i : Nat) : Task where
  id := chainId i
  name := text "Chain Task " ++ toDecimal i
  profile := baseProfile

/-- One round of the loop; the state is the graph and `prev_id`. -/
def linearChainStep (baseProfile : TaskProfile) (s : WorkloadDAG × TaskId) (i : Nat) :
    WorkloadDAG × TaskId :=
  let dag := s.1.addTask (chainTask baseProfile i)
  (if i > 0 then dag.addDependency s.2 (chainId i) else dag, chainId i)

/-- `WorkloadGenerator::linear_chain`. -/
def linearChain (numTasks : Nat) (baseProfile : TaskProfile) : WorkloadDAG :=
  ((List.range numTasks).foldl (linearChainStep baseProfile) (.empty, [])).1

/-! ## Fans -/

/-- What `fan_out_fan_in` and a level of `diamond` have in common: the branches with their
edges from the hub, then the sink with its edges from the branches. -/
def spread (hubId : TaskId) (branches : List Task) (sink : Task) (dag : WorkloadDAG) :
    WorkloadDAG :=
  let s := branches.foldl
    (fun s branch => ((s.1.addTask branch).addDependency hubId branch.id, s.2 ++ [branch.id]))
    (dag, ([] : List TaskId))
  s.2.foldl (fun dag branchId => dag.addDependency branchId sink.id) (s.1.addTask sink)

def fanSrcId : TaskId :=
  text "fan_src"

def fanBranchId (i : Nat) : TaskId :=
  text "fan_branch_" ++ toDecimal i

def fanSinkId : TaskId :=
  text "fan_sink"

def fanSrcTask (width : Nat) (baseProfile : TaskProfile) : Task where
  id := fanSrcId
  name := text "Fan-Out Source"
  profile := { baseProfile with outputBytes := baseProfile.inputBytes * BitVec.ofNat 64 width }

variable (baseProfile : TaskProfile)

def fanBranchTask (i : Nat) : Task where
  id := fanBranchId i
  name := text "Branch " ++ toDecimal i
  profile := baseProfile

def fanSinkTask (width : Nat) (baseProfile : TaskProfile) : Task where
  id := fanSinkId
  name := text "Fan-In Sink"
  profile := { baseProfile with inputBytes := baseProfile.outputBytes * BitVec.ofNat 64 width }

/-- `fan_out_fan_in`. -/
def fanOutFanIn (width : Nat) (baseProfile : TaskProfile) : WorkloadDAG :=
  spread fanSrcId ((List.range width).map (fanBranchTask baseProfile))
    (fanSinkTask width baseProfile) (WorkloadDAG.empty.addTask (fanSrcTask width baseProfile))

/-! ## Diamonds -/

def hubId (d : Nat) : TaskId :=
  text "hub_" ++ toDecimal d

def branchId (d w : Nat) : TaskId :=
  text "diamond_" ++ toDecimal d ++ text "_" ++ toDecimal w

def mergeId (d : Nat) : TaskId :=
  text "merge_" ++ toDecimal d

def hubTask (d : Nat) : Task where
  id := hubId d
  name := text "Hub " ++ toDecimal d
  profile := baseProfile

def branchTask (d w : Nat) : Task where
  id := branchId d w
  name := text "Diamond D" ++ toDecimal d ++ text " B" ++ toDecimal w
  profile := baseProfile

def mergeTask (d : Nat) : Task where
  id := mergeId d
  name := text "Merge " ++ toDecimal d
  profile := baseProfile

/-- One level; the state is the graph and `prev_hub`. -/
def diamondStep (width : Nat) (baseProfile : TaskProfile) (s : WorkloadDAG × TaskId) (d : Nat) :
    WorkloadDAG × TaskId :=
  let dag := s.1.addTask (hubTask baseProfile d)
  let dag := if d > 0 then dag.addDependency s.2 (hubId d) else dag
  (spread (hubId d) ((List.range width).map (branchTask baseProfile d)) (mergeTask baseProfile d)
    dag, mergeId d)

/-- `diamond`. -/
def diamond (depth width : Nat) (baseProfile : TaskProfile) : WorkloadDAG :=
  ((List.range depth).foldl (diamondStep width baseProfile) (.empty, [])).1

/-! ## Transformer layers -/

def attnId (i : Nat) : TaskId :=
  text "layer_" ++ toDecimal i ++ text "_attn"

def ffnId (i : Nat) : TaskId :=
  text "layer_" ++ toDecimal i ++ text "_ffn"

/-- A `float` has four bytes; the key-value cache grows with the layer. -/
def attnTask (hiddenDim kvCacheBytesPerLayer : U64) (i : Nat) : Task where
  id := attnId i
  name := text "Layer " ++ toDecimal i ++ text " Attention"
  profile :=
    { computeCost := (hiddenDim * 2).toInt
      memoryBytes := hiddenDim * hiddenDim * 4 + kvCacheBytesPerLayer * (BitVec.ofNat 64 i + 1)
      inputBytes := hiddenDim * 4
      outputBytes := hiddenDim * 4 }

def ffnTask (hiddenDim : U64) (i : Nat) : Task where
  id := ffnId i
  name := text "Layer " ++ toDecimal i ++ text " FFN"
  profile :=
    { computeCost := (hiddenDim * 4).toInt
      memoryBytes := hiddenDim * hiddenDim * 4 * 4
      inputBytes := hiddenDim * 4
      outputBytes := hiddenDim * 4 }

/-- One layer; the state is the graph and `prev_id`. -/
def transformerStep (hiddenDim kvCacheBytesPerLayer : U64) (s : WorkloadDAG × TaskId) (i : Nat) :
    WorkloadDAG × TaskId :=
  let dag := s.1.addTask (attnTask hiddenDim kvCacheBytesPerLayer i)
  let dag := if i > 0 then dag.addDependency s.2 (attnId i) else dag
  ((dag.addTask (ffnTask hiddenDim i)).addDependency (attnId i) (ffnId i), ffnId i)

/-- `transformer_layers`. -/
def transformerLayers (numLayers : Nat) (hiddenDim kvCacheBytesPerLayer : U64) : WorkloadDAG :=
  ((List.range numLayers).foldl (transformerStep hiddenDim kvCacheBytesPerLayer) (.empty, [])).1

/-! ## Random graphs -/

/-- The three distributions, as functions of the state of the generator. -/
structure RandomSource (σ : Type*) where
  /-- `uniform_int_distribution<int64_t>` between two durations. -/
  duration : Duration → Duration → σ → Duration × σ
  /-- `uniform_int_distribution<uint64_t>`. -/
  uint64 : U64 → U64 → σ → U64 × σ
  /-- `uniform_real_distribution<float>` between zero and one. -/
  unitFloat : σ → F32 × σ

section Random

variable {σ : Type*} (source : RandomSource σ) (fl : FloatOps) (edgeProbability : F32)
  (minProfile maxProfile : TaskProfile)

/-- The four draws, in the order of the fields. -/
def randomProfile (rng : σ) : TaskProfile × σ :=
  let cost := source.duration minProfile.computeCost maxProfile.computeCost rng
  let memory := source.uint64 minProfile.memoryBytes maxProfile.memoryBytes cost.2
  let input := source.uint64 minProfile.inputBytes maxProfile.inputBytes memory.2
  let output := source.uint64 minProfile.outputBytes maxProfile.outputBytes input.2
  ({ computeCost := cost.1, memoryBytes := memory.1, inputBytes := input.1,
     outputBytes := output.1 }, output.2)

def randomId (i : Nat) : TaskId :=
  text "rand_" ++ toDecimal i

def randomTask (profile : TaskProfile) (i : Nat) : Task where
  id := randomId i
  name := text "Random Task " ++ toDecimal i
  profile := profile

/-- The variables of `random_dag`. -/
structure RandomState (σ : Type*) where
  dag : WorkloadDAG
  taskIds : List TaskId
  rng : σ

/-- One task, with the draws for its profile. -/
def randomTaskStep (s : RandomState σ) (i : Nat) : RandomState σ :=
  let profile := randomProfile source minProfile maxProfile s.rng
  { dag := s.dag.addTask (randomTask profile.1 i)
    taskIds := s.taskIds ++ [randomId i]
    rng := profile.2 }

/-- One draw for the pair `i`, `j`. -/
def randomEdgeStep (i : Nat) (s : RandomState σ) (j : Nat) : RandomState σ :=
  let draw := source.unitFloat s.rng
  let dag :=
    if fl.lt draw.1 edgeProbability then
      s.dag.addDependency (s.taskIds.getD i []) (s.taskIds.getD j [])
    else s.dag
  { s with dag := dag, rng := draw.2 }

/-- The inner loop runs over the indices above `i`. -/
def randomEdgesFrom (numTasks : Nat) (s : RandomState σ) (i : Nat) : RandomState σ :=
  (List.range' (i + 1) (numTasks - (i + 1))).foldl
    (randomEdgeStep source fl edgeProbability i) s

/-- `random_dag`. -/
def randomDag (numTasks : Nat) (rng : σ) : WorkloadDAG :=
  let tasks := (List.range numTasks).foldl (randomTaskStep source minProfile maxProfile)
    ⟨.empty, [], rng⟩
  ((List.range numTasks).foldl (randomEdgesFrom source fl edgeProbability numTasks) tasks).dag

end Random

/-! ## The generators as sequences of calls -/

/-- A loop that remembers the last id of each round and links the next round to it. -/
theorem foldl_linked {step : WorkloadDAG × TaskId → Nat → WorkloadDAG × TaskId}
    {calls : Nat → List BuildOp} (last : Nat → TaskId)
    (hfirst : ∀ dag prev, step (dag, prev) 0 = ((calls 0).foldl apply dag, last 0))
    (hnext : ∀ dag i, step (dag, last i) (i + 1) = ((calls (i + 1)).foldl apply dag, last (i + 1)))
    (count : Nat) :
    ((List.range count).foldl step (.empty, [])).1 = build ((List.range count).flatMap calls) := by
  suffices hstate : ∀ n, (List.range (n + 1)).foldl step (.empty, []) =
      (build ((List.range (n + 1)).flatMap calls), last n) by
    cases count with
    | zero => rfl
    | succ n => rw [hstate]
  intro n
  induction n with
  | zero =>
    rw [List.range_one, List.foldl_cons, List.foldl_nil, hfirst, List.flatMap_singleton]
    rfl
  | succ n ih =>
    rw [List.range_succ, List.foldl_append, ih, List.foldl_cons, List.foldl_nil, hnext,
      List.flatMap_append, build_append, List.flatMap_singleton]

/-- The calls of one iteration. -/
def chainCalls (baseProfile : TaskProfile) (i : Nat) : List BuildOp :=
  .addTask (chainTask baseProfile i) ::
    if i > 0 then [.addDependency (chainId (i - 1)) (chainId i)] else []

theorem linearChain_eq_build (numTasks : Nat) (baseProfile : TaskProfile) :
    linearChain numTasks baseProfile =
      build ((List.range numTasks).flatMap (chainCalls baseProfile)) := by
  apply foldl_linked chainId
  · intro dag prev
    rfl
  · intro dag i
    rfl

/-- The calls of `spread`. -/
def spreadCalls (hubId : TaskId) (branches : List Task) (sink : Task) : List BuildOp :=
  (branches.flatMap fun branch => [.addTask branch, .addDependency hubId branch.id]) ++
    .addTask sink :: branches.map fun branch => .addDependency branch.id sink.id

theorem spread_eq_foldl (hubId : TaskId) (branches : List Task) (sink : Task)
    (dag : WorkloadDAG) :
    spread hubId branches sink dag = (spreadCalls hubId branches sink).foldl apply dag := by
  have hbranches : ∀ (dag : WorkloadDAG) (ids : List TaskId),
      branches.foldl (fun s branch =>
          ((s.1.addTask branch).addDependency hubId branch.id, s.2 ++ [branch.id])) (dag, ids) =
        ((branches.flatMap fun branch =>
            [BuildOp.addTask branch, .addDependency hubId branch.id]).foldl apply dag,
          ids ++ branches.map Task.id) := by
    induction branches with
    | nil => simp
    | cons branch branches ih =>
      intro dag ids
      rw [List.foldl_cons, ih, List.flatMap_cons, List.foldl_append, List.map_cons,
        List.append_assoc]
      rfl
  rw [spread, hbranches]
  simp only [List.nil_append, List.foldl_map]
  rw [spreadCalls, List.foldl_append, List.foldl_cons, List.foldl_map]
  rfl

theorem fanOutFanIn_eq_build (width : Nat) (baseProfile : TaskProfile) :
    fanOutFanIn width baseProfile =
      build (.addTask (fanSrcTask width baseProfile) ::
        spreadCalls fanSrcId ((List.range width).map (fanBranchTask baseProfile))
          (fanSinkTask width baseProfile)) := by
  rw [fanOutFanIn, spread_eq_foldl]
  rfl

/-- The calls of one stage. -/
def diamondCalls (width : Nat) (baseProfile : TaskProfile) (d : Nat) : List BuildOp :=
  (.addTask (hubTask baseProfile d) ::
    if d > 0 then [.addDependency (mergeId (d - 1)) (hubId d)] else []) ++
    spreadCalls (hubId d) ((List.range width).map (branchTask baseProfile d))
      (mergeTask baseProfile d)

theorem diamond_eq_build (depth width : Nat) (baseProfile : TaskProfile) :
    diamond depth width baseProfile =
      build ((List.range depth).flatMap (diamondCalls width baseProfile)) := by
  apply foldl_linked mergeId
  · intro dag prev
    rw [diamondStep, spread_eq_foldl, diamondCalls, List.foldl_append]
    rfl
  · intro dag i
    rw [diamondStep, spread_eq_foldl, diamondCalls, List.foldl_append]
    rfl

/-- The calls of one layer. -/
def transformerCalls (hiddenDim kvCacheBytesPerLayer : U64) (i : Nat) : List BuildOp :=
  (.addTask (attnTask hiddenDim kvCacheBytesPerLayer i) ::
    if i > 0 then [.addDependency (ffnId (i - 1)) (attnId i)] else []) ++
    [.addTask (ffnTask hiddenDim i), .addDependency (attnId i) (ffnId i)]

theorem transformerLayers_eq_build (numLayers : Nat) (hiddenDim kvCacheBytesPerLayer : U64) :
    transformerLayers numLayers hiddenDim kvCacheBytesPerLayer =
      build ((List.range numLayers).flatMap
        (transformerCalls hiddenDim kvCacheBytesPerLayer)) := by
  apply foldl_linked ffnId
  · intro dag prev
    rfl
  · intro dag i
    rfl

section Random

variable {σ : Type*} {source : RandomSource σ} {fl : FloatOps} {edgeProbability : F32}
  {minProfile maxProfile : TaskProfile} {s : RandomState σ} {count : Nat}

/-- The first tasks have been added, and edges only from lower to higher indices. -/
structure RandomState.Drawn (count : Nat) (s : RandomState σ) : Prop where
  taskIds : s.taskIds = (List.range count).map randomId
  calls : ∃ ops, s.dag = build ops ∧ (addedTasks ops).map Task.id = s.taskIds ∧
    ∀ u v, .addDependency u v ∈ ops →
      ∃ i j, i < j ∧ j < count ∧ u = randomId i ∧ v = randomId j

theorem RandomState.Drawn.taskStep (hs : s.Drawn count) :
    (randomTaskStep source minProfile maxProfile s count).Drawn (count + 1) := by
  rcases hs.calls with ⟨ops, hdag, hids, hedges⟩
  constructor
  · rw [List.range_succ, List.map_append, ← hs.taskIds]
    rfl
  · refine ⟨ops ++ [.addTask (randomTask
      (randomProfile source minProfile maxProfile s.rng).1 count)], ?_, ?_, ?_⟩
    · rw [build_append, ← hdag]
      rfl
    · rw [addedTasks_append, List.map_append, hids]
      rfl
    · intro u v hmem
      have hold : .addDependency u v ∈ ops := by simpa using hmem
      rcases hedges u v hold with ⟨i, j, hij, hj, hu, hv⟩
      exact ⟨i, j, hij, Nat.lt_succ_of_lt hj, hu, hv⟩

theorem RandomState.Drawn.edgeStep (hs : s.Drawn count) {i j : Nat} (hij : i < j)
    (hj : j < count) : (randomEdgeStep source fl edgeProbability i s j).Drawn count := by
  rcases hs.calls with ⟨ops, hdag, hids, hedges⟩
  refine ⟨hs.taskIds, ?_⟩
  have hget : ∀ k < count, s.taskIds.getD k [] = randomId k := by
    intro k hk
    simp [hs.taskIds, hk]
  unfold randomEdgeStep
  simp only
  split
  · refine ⟨ops ++ [.addDependency (randomId i) (randomId j)], ?_, ?_, ?_⟩
    · rw [build_append, ← hdag, hget i (hij.trans hj), hget j hj]
      rfl
    · rw [addedTasks_append, addedTasks_addDependency, addedTasks_nil, List.append_nil, hids]
    · intro u v hmem
      rcases List.mem_append.1 hmem with hold | hnew
      · exact hedges u v hold
      · cases List.mem_singleton.1 hnew
        exact ⟨i, j, hij, hj, rfl, rfl⟩
  · exact ⟨ops, hdag, hids, hedges⟩

/-- Whatever is drawn, the calls add the tasks in order and edges between them that lead
to higher indices. -/
theorem exists_randomDag_eq_build (source : RandomSource σ) (fl : FloatOps)
    (edgeProbability : F32) (minProfile maxProfile : TaskProfile) (numTasks : Nat) (rng : σ) :
    ∃ ops, randomDag source fl edgeProbability minProfile maxProfile numTasks rng = build ops ∧
      (addedTasks ops).map Task.id = (List.range numTasks).map randomId ∧
      ∀ u v, .addDependency u v ∈ ops →
        ∃ i j, i < j ∧ j < numTasks ∧ u = randomId i ∧ v = randomId j := by
  have htasks : ∀ count, ((List.range count).foldl (randomTaskStep source minProfile maxProfile)
      ⟨.empty, [], rng⟩).Drawn count := by
    intro count
    induction count with
    | zero => exact ⟨rfl, [], rfl, rfl, fun u v hmem => by cases hmem⟩
    | succ count ih =>
      rw [List.range_succ, List.foldl_append]
      exact ih.taskStep
  suffices hdrawn : ((List.range numTasks).foldl
      (randomEdgesFrom source fl edgeProbability numTasks)
      ((List.range numTasks).foldl (randomTaskStep source minProfile maxProfile)
        ⟨.empty, [], rng⟩)).Drawn numTasks by
    rcases hdrawn.calls with ⟨ops, hdag, hids, hedges⟩
    exact ⟨ops, hdag, hids.trans hdrawn.taskIds, hedges⟩
  apply List.foldlRecOn _ _ (htasks numTasks)
  intro s hs i _
  apply List.foldlRecOn _ _ hs
  intro t ht j hj
  rw [List.mem_range'_1] at hj
  exact ht.edgeStep (by omega) (by omega)

end Random

end WorkloadGenerator

end EdgeOrchestrator
