import EdgeOrchestrator.Library.Counting
import EdgeOrchestrator.Scheduler.AssignedMemory
import EdgeOrchestrator.Workload.Blueprint

/-!
# Local admissions of the threshold policy

`ThresholdPolicy::schedule` admits a task to the local node under two percentage guards
and an unsigned difference.  A fallback is charged to the same counter without any of
them, so the counter may pass the total, where the difference wraps, and wrap itself.
Only the percentage guard then stands between an overdrawn node and the next
admission, and on a node without memory it says nothing.

Main results:

- `AdmissionSafe.sound_of_initial` and `AdmissionSafe.sound_of_total`: the condition is enough
  for every workload within the budget.
- `overdraws_by_fallback`, `overdraws_by_wrap` and `overdraws_by_namesake`: three workloads
  that are admitted to an overdrawn node.
- `thresholdSchedule_localCapacity_iff`: when all workloads up to a size are admitted within
  the local memory, in terms of the snapshot, the thresholds and that size.
-/

namespace EdgeOrchestrator

/-! ## The arithmetic of the guards -/

/-- Whatever bounds `b` bounds `a`. -/
def FloatOps.Le (fl : FloatOps) (a b : F32) : Prop :=
  ∀ c, fl.lt b c = true → fl.lt a c = true

/-- What the guards rest on: conversion, product and quotient round monotonically, a task
without compute cost does not raise the simulated load, and zero is below the largest
float. -/
structure FloatOps.Rounds (fl : FloatOps) : Prop where
  ofU64 : ∀ a b, a ≤ b → fl.Le (fl.ofU64 a) (fl.ofU64 b)
  mul : ∀ a b, fl.Le a b → fl.Le (fl.mul oneHundred a) (fl.mul oneHundred b)
  div : ∀ a b total, 0 < total → fl.Le a b →
    fl.Le (fl.div a (fl.ofU64 total)) (fl.div b (fl.ofU64 total))
  costless : ∀ load,
    fl.Le (fl.min (fl.add load (fl.mul (fl.ofI64 0) oneThousandth)) oneHundred) load
  zero_lt_max : fl.lt 0 maxFloat = true

/-- The memory guard is open below any usage at which it is open. -/
theorem withinMemThreshold_of_le {fl : FloatOps} (hfl : fl.Rounds)
    {config : ThresholdPolicyConfig} {total a b : U64} (hab : a ≤ b)
    (hb : withinMemThreshold fl config total b = true) :
    withinMemThreshold fl config total a = true := by
  unfold withinMemThreshold simMemPct at hb ⊢
  by_cases htotal : total > 0
  · rw [if_pos htotal] at hb ⊢
    exact hfl.div _ _ total htotal (hfl.mul _ _ (hfl.ofU64 a b hab)) _ hb
  · rw [if_neg htotal] at hb ⊢
    exact hb

/-! ## What the walk counts -/

variable (dag : WorkloadDAG)

/-- The memory of the decisions that satisfy a test, added up exactly. -/
def memoryWhere (p : SchedulingDecision → Prop) [DecidablePred p]
    (decisions : List SchedulingDecision) : Nat :=
  ((decisions.filter p).map fun d => (dag.memoryOf d.taskId).toNat).sum

/-- What the policy keeps local itself, and counts. -/
def keptMemory (decisions : List SchedulingDecision) : Nat :=
  memoryWhere dag (fun d => d.reason ≠ .thresholdOffload) decisions

/-- The counter after the listed decisions. -/
def usedAfter (localNode : ResourceSnapshot) (decisions : List SchedulingDecision) : U64 :=
  localNode.memoryTotalBytes - localNode.memoryAvailableBytes +
    BitVec.ofNat 64 (keptMemory dag decisions)

/-- A local admission is within the available memory, next to everything that was assigned to
the local node before it. -/
def LocallyAdmissible (localNode : ResourceSnapshot) (before : List SchedulingDecision)
    (d : SchedulingDecision) : Prop :=
  d.reason = .localCapacity →
    (dag.memoryOf d.taskId).toNat + memoryLoad dag before localNode.nodeId ≤
      localNode.memoryAvailableBytes.toNat

/-- All local admissions of the plan are within the available memory. -/
def AdmitsSoundly (fl : FloatOps) (config : ThresholdPolicyConfig) (h : HashOrders)
    (dag : WorkloadDAG) (localNode : ResourceSnapshot) (cluster : ClusterView) : Prop :=
  ForLoop.WithHistory (LocallyAdmissible dag localNode)
    (thresholdSchedule fl config h dag localNode cluster).decisions

/-- A local admission is made with both guards open, and within the unsigned difference. -/
def Guarded (fl : FloatOps) (config : ThresholdPolicyConfig) (dag : WorkloadDAG)
    (localNode : ResourceSnapshot) (before : List SchedulingDecision) (d : SchedulingDecision) :
    Prop :=
  d.reason = .localCapacity →
    withinCpuThreshold fl config localNode.cpuUsagePercent = true ∧
      withinMemThreshold fl config localNode.memoryTotalBytes (usedAfter dag localNode before) =
        true ∧
      dag.memoryOf d.taskId ≤ localNode.memoryTotalBytes - usedAfter dag localNode before

/-- What the walk keeps: the memory counter counts what is kept local, the simulated load is
the measured one unless the load guard was open for it, what is offloaded is on a peer, and
everything else on the local node. -/
structure AdmissionInv (fl : FloatOps) (config : ThresholdPolicyConfig) (dag : WorkloadDAG)
    (localNode : ResourceSnapshot) (cluster : ClusterView) (s : ThresholdState) : Prop where
  peers : localNode.nodeId :: s.peers.map PeerState.id = candidateIds localNode cluster
  used : s.simMemUsed = usedAfter dag localNode s.decisions
  cpu : withinCpuThreshold fl config localNode.cpuUsagePercent = false →
    s.simCpu = localNode.cpuUsagePercent
  kept : ∀ d ∈ s.decisions, d.reason ≠ .thresholdOffload → d.assignedNode = localNode.nodeId
  offloaded : ∀ d ∈ s.decisions, d.reason = .thresholdOffload →
    d.assignedNode ∈ (reachablePeers cluster).map PeerInfo.nodeId
  guarded : ForLoop.WithHistory (Guarded fl config dag localNode) s.decisions

section Admission

variable {fl : FloatOps} {config : ThresholdPolicyConfig} {dag : WorkloadDAG}
  {localNode : ResourceSnapshot} {cluster : ClusterView} {s : ThresholdState}

theorem memoryWhere_concat (dag : WorkloadDAG) (p : SchedulingDecision → Prop)
    [DecidablePred p] (decisions : List SchedulingDecision) (d : SchedulingDecision) :
    memoryWhere dag p (decisions ++ [d]) =
      memoryWhere dag p decisions + if p d then (dag.memoryOf d.taskId).toNat else 0 := by
  unfold memoryWhere
  rw [List.filter_append, List.map_append, List.sum_append]
  by_cases hd : p d
  · simp [hd]
  · simp [hd]

/-- A decision that is kept local is counted. -/
theorem usedAfter_concat (decisions : List SchedulingDecision) (d : SchedulingDecision) :
    usedAfter dag localNode (decisions ++ [d]) =
      usedAfter dag localNode decisions +
        if d.reason ≠ .thresholdOffload then dag.memoryOf d.taskId else 0 := by
  rw [usedAfter, keptMemory, memoryWhere_concat, usedAfter, keptMemory, BitVec.ofNat_add]
  split
  · rw [BitVec.ofNat_toNat, BitVec.setWidth_eq, BitVec.add_assoc]
  · simp

/-- The counter as a number, modulo `2 ^ 64`. -/
theorem toNat_usedAfter (hfits : localNode.memoryAvailableBytes ≤ localNode.memoryTotalBytes)
    (decisions : List SchedulingDecision) :
    (usedAfter dag localNode decisions).toNat =
      (localNode.memoryTotalBytes.toNat - localNode.memoryAvailableBytes.toNat +
        keptMemory dag decisions) % 2 ^ 64 := by
  rw [usedAfter, BitVec.toNat_add, BitVec.toNat_sub_of_le hfits, BitVec.toNat_ofNat,
    Nat.add_mod_mod]

/-- What one iteration decides. -/
theorem thresholdAssign_cases (fl : FloatOps) (config : ThresholdPolicyConfig)
    (dag : WorkloadDAG) (localNode : ResourceSnapshot) (s : ThresholdState) (taskId : TaskId) :
    thresholdAssign fl config dag localNode s taskId = s ∨
      ∃ d, (thresholdAssign fl config dag localNode s taskId).decisions = s.decisions ++ [d] ∧
        (thresholdAssign fl config dag localNode s taskId).simMemUsed =
          s.simMemUsed + (if d.reason ≠ .thresholdOffload then dag.memoryOf d.taskId else 0) ∧
        (d.reason ≠ .thresholdOffload → d.assignedNode = localNode.nodeId) ∧
        (d.reason = .thresholdOffload → d.assignedNode ∈ s.peers.map PeerState.id) ∧
        (d.reason ≠ .localCapacity ∧
            (thresholdAssign fl config dag localNode s taskId).simCpu = s.simCpu ∨
          withinCpuThreshold fl config s.simCpu = true ∧
            withinMemThreshold fl config localNode.memoryTotalBytes s.simMemUsed = true ∧
            dag.memoryOf d.taskId ≤ localNode.memoryTotalBytes - s.simMemUsed) := by
  unfold thresholdAssign
  cases htask : dag.getTask taskId with
  | none => exact Or.inl rfl
  | some task =>
    have hmemory := memoryOf_of_getTask htask
    right
    simp only
    by_cases hwithin : withinThresholds fl config localNode s task.profile = true
    · simp only [if_pos hwithin]
      simp only [withinThresholds, Bool.and_eq_true, decide_eq_true_eq] at hwithin
      refine ⟨_, rfl, ?_, fun _ => rfl, by simp, Or.inr ⟨hwithin.1.1, hwithin.1.2, ?_⟩⟩
      · simp [hmemory]
      · rw [hmemory]
        exact hwithin.2
    · simp only [if_neg hwithin]
      cases hpeer : s.peers[thresholdBest fl s.peers task.profile]? with
      | some peer =>
        refine ⟨_, rfl, by simp, by simp, fun _ => ?_, Or.inl ⟨by simp, rfl⟩⟩
        exact List.mem_map_of_mem (List.mem_of_getElem? hpeer)
      | none =>
        exact ⟨_, rfl, by simp [hmemory], fun _ => rfl, by simp, Or.inl ⟨by simp, rfl⟩⟩

/-- One iteration keeps the invariant. -/
theorem AdmissionInv.assign (hs : AdmissionInv fl config dag localNode cluster s)
    (taskId : TaskId) :
    AdmissionInv fl config dag localNode cluster
      (thresholdAssign fl config dag localNode s taskId) := by
  have hpeers := (thresholdAssign_extends fl config dag localNode cluster s taskId hs.peers).1
  rcases thresholdAssign_cases fl config dag localNode s taskId with
    hsame | ⟨d, hdecisions, hused, hnode, hpeer, hguards⟩
  · rw [hsame]
    exact hs
  · generalize thresholdAssign fl config dag localNode s taskId = t at *
    -- a closed load guard stays closed: nothing is admitted, and nothing else moves it
    have hopen : withinCpuThreshold fl config s.simCpu = true →
        withinCpuThreshold fl config localNode.cpuUsagePercent = true := by
      intro hcpu
      cases hclosed : withinCpuThreshold fl config localNode.cpuUsagePercent with
      | true => rfl
      | false =>
        rw [hs.cpu hclosed, hclosed] at hcpu
        cases hcpu
    constructor
    · exact hpeers
    · rw [hused, hs.used, hdecisions, usedAfter_concat]
    · intro hclosed
      rcases hguards with ⟨-, hcpu⟩ | ⟨hcpu, -⟩
      · rw [hcpu]
        exact hs.cpu hclosed
      · rw [hopen hcpu] at hclosed
        cases hclosed
    · intro d' hd'
      rw [hdecisions, List.mem_append, List.mem_singleton] at hd'
      rcases hd' with hold | rfl
      · exact hs.kept d' hold
      · exact hnode
    · intro d' hd' hreason
      rw [hdecisions, List.mem_append, List.mem_singleton] at hd'
      rcases hd' with hold | rfl
      · exact hs.offloaded d' hold hreason
      · have hids := hs.peers
        rw [candidateIds_eq, List.cons.injEq] at hids
        rw [← hids.2]
        exact hpeer hreason
    · rw [hdecisions]
      apply hs.guarded.concat
      intro hreason
      rcases hguards with ⟨hother, -⟩ | ⟨hcpu, hmem, hroom⟩
      · exact absurd hreason hother
      · rw [← hs.used]
        exact ⟨hopen hcpu, hmem, hroom⟩

theorem thresholdWalk_admissionInv (fl : FloatOps) (config : ThresholdPolicyConfig)
    (h : HashOrders) (dag : WorkloadDAG) (localNode : ResourceSnapshot) (cluster : ClusterView) :
    AdmissionInv fl config dag localNode cluster
      (thresholdWalk fl config h dag localNode cluster) := by
  apply List.foldlRecOn
  · constructor
    · exact map_id_thresholdPeers localNode cluster
    · exact (BitVec.add_zero _).symm
    · exact fun _ => rfl
    · intro d hd
      cases hd
    · intro d hd
      cases hd
    · exact ForLoop.withHistory_nil _
  · intro s hs taskId _
    exact hs.assign taskId

/-- Decisions about distinct tasks weigh at most as much as the workload. -/
theorem memoryWhere_add_le (fl : FloatOps) (config : ThresholdPolicyConfig) (h : HashOrders)
    (cluster : ClusterView) (p : SchedulingDecision → Prop) [DecidablePred p]
    {before after : List SchedulingDecision} {d : SchedulingDecision}
    (hplan : (thresholdSchedule fl config h dag localNode cluster).decisions =
      before ++ d :: after) :
    (dag.memoryOf d.taskId).toNat + memoryWhere dag p before ≤ memorySum dag dag.tasks.keys := by
  have hperm := (thresholdSchedule_shape fl config h dag localNode cluster).taskIds_perm
  have hids : (thresholdSchedule fl config h dag localNode cluster).taskIds =
      before.map SchedulingDecision.taskId ++
        d.taskId :: after.map SchedulingDecision.taskId := by
    rw [SchedulingPlan.taskIds, hplan, List.map_append, List.map_cons]
  have hnodup : (thresholdSchedule fl config h dag localNode cluster).taskIds.Nodup :=
    hperm.nodup_iff.2 ((dag.topologicalOrder_nodup h).filter _)
  have hkeys : (thresholdSchedule fl config h dag localNode cluster).taskIds ⊆
      dag.tasks.keys := by
    intro id hid
    have hsome := (List.mem_filter.1 (hperm.mem_iff.1 hid)).2
    exact AList.mem_keys.1 (WorkloadDAG.getTask_isSome.1 hsome)
  have hall := Counting.sum_map_le_of_subset hnodup hkeys
    (f := fun id => (dag.memoryOf id).toNat) fun _ _ => Nat.zero_le _
  have hbefore : memoryWhere dag p before ≤
      (before.map fun d => (dag.memoryOf d.taskId).toNat).sum :=
    (List.filter_sublist.map _).sum_le_sum fun _ _ => Nat.zero_le _
  rw [hids, List.map_append, List.sum_append, List.map_cons, List.sum_cons, List.map_map] at hall
  change (before.map fun d => (dag.memoryOf d.taskId).toNat).sum + _ ≤ _ at hall
  unfold memorySum
  omega

/-- Without a namesake among the peers, what is on the local node is what is counted. -/
theorem AdmissionInv.memoryLoad_eq (hs : AdmissionInv fl config dag localNode cluster s)
    (hname : localNode.nodeId ∉ (reachablePeers cluster).map PeerInfo.nodeId)
    {before after : List SchedulingDecision} (hdecisions : s.decisions = before ++ after) :
    memoryLoad dag before localNode.nodeId = keptMemory dag before := by
  unfold memoryLoad assignedSum keptMemory memoryWhere
  congr 2
  apply List.filter_congr
  intro d hd
  have hmem : d ∈ s.decisions := hdecisions ▸ List.mem_append_left _ hd
  rw [decide_eq_decide]
  constructor
  · intro hnode hreason
    exact hname (hnode ▸ hs.offloaded d hmem hreason)
  · exact hs.kept d hmem

end Admission

/-! ## A condition that is enough -/

/-- The load guard is closed at the start; or workloads of `budget` bytes fit; or the memory
guard is closed on an empty node; or the counter cannot wrap and the memory guard is closed
from the usage `least` on. -/
def AdmissionSafe (fl : FloatOps) (config : ThresholdPolicyConfig) (localNode : ResourceSnapshot)
    (budget : Nat) (least : U64) : Prop :=
  withinCpuThreshold fl config localNode.cpuUsagePercent = false ∨
    budget ≤ localNode.memoryAvailableBytes.toNat ∨
    withinMemThreshold fl config localNode.memoryTotalBytes 0 = false ∨
    localNode.memoryTotalBytes.toNat - localNode.memoryAvailableBytes.toNat + budget < 2 ^ 64 ∧
      withinMemThreshold fl config localNode.memoryTotalBytes least = false

instance (fl : FloatOps) (config : ThresholdPolicyConfig) (localNode : ResourceSnapshot)
    (budget : Nat) (least : U64) : Decidable (AdmissionSafe fl config localNode budget least) :=
  inferInstanceAs (Decidable (_ ∨ _ ∨ _ ∨ _ ∧ _))

section Enough

variable {fl : FloatOps} {config : ThresholdPolicyConfig} {dag : WorkloadDAG}
  {localNode : ResourceSnapshot} {cluster : ClusterView} {h : HashOrders} {budget : Nat}
  {least : U64} {before after : List SchedulingDecision} {d : SchedulingDecision}

/-- An admission is sound, or it is made with an exact counter below `least`. -/
theorem AdmissionSafe.sound_or (hfl : fl.Rounds)
    (hfits : localNode.memoryAvailableBytes ≤ localNode.memoryTotalBytes)
    (hsafe : AdmissionSafe fl config localNode budget least)
    (hbudget : memorySum dag dag.tasks.keys ≤ budget)
    (hplan : (thresholdSchedule fl config h dag localNode cluster).decisions =
      before ++ d :: after) (hreason : d.reason = .localCapacity) :
    (dag.memoryOf d.taskId).toNat + memoryLoad dag before localNode.nodeId ≤
        localNode.memoryAvailableBytes.toNat ∨
      (usedAfter dag localNode before).toNat =
          localNode.memoryTotalBytes.toNat - localNode.memoryAvailableBytes.toNat +
            keptMemory dag before ∧
        usedAfter dag localNode before < least := by
  obtain ⟨hcpu, hmem, -⟩ :=
    (thresholdWalk_admissionInv fl config h dag localNode cluster).guarded before d after hplan
      hreason
  have hload : (dag.memoryOf d.taskId).toNat + memoryLoad dag before localNode.nodeId ≤ _ :=
    memoryWhere_add_le fl config h cluster (fun d => d.assignedNode = localNode.nodeId) hplan
  have hkept : (dag.memoryOf d.taskId).toNat + keptMemory dag before ≤ _ :=
    memoryWhere_add_le fl config h cluster (fun d => d.reason ≠ .thresholdOffload) hplan
  rcases hsafe with hclosed | hsmall | hclosed | ⟨hwrap, hclosed⟩
  · rw [hcpu] at hclosed
    cases hclosed
  · exact Or.inl (by omega)
  · rw [withinMemThreshold_of_le hfl (BitVec.le_def.2 (Nat.zero_le _)) hmem] at hclosed
    cases hclosed
  · right
    refine ⟨?_, ?_⟩
    · rw [toNat_usedAfter hfits, Nat.mod_eq_of_lt (by omega)]
    · by_contra hle
      rw [withinMemThreshold_of_le hfl (BitVec.not_lt.1 hle) hmem] at hclosed
      cases hclosed

/-- On any cluster: the memory guard is closed from the measured usage on. -/
theorem AdmissionSafe.sound_of_initial (hfl : fl.Rounds)
    (hfits : localNode.memoryAvailableBytes ≤ localNode.memoryTotalBytes)
    (hsafe : AdmissionSafe fl config localNode budget
      (localNode.memoryTotalBytes - localNode.memoryAvailableBytes))
    (hbudget : memorySum dag dag.tasks.keys ≤ budget) :
    AdmitsSoundly fl config h dag localNode cluster := by
  intro before d after hplan hreason
  rcases hsafe.sound_or hfl hfits hbudget hplan hreason with hsound | ⟨hused, hlt⟩
  · exact hsound
  · rw [BitVec.lt_def, hused, BitVec.toNat_sub_of_le hfits] at hlt
    omega

/-- On a cluster without a namesake: it is closed once the total is exceeded. -/
theorem AdmissionSafe.sound_of_total (hfl : fl.Rounds)
    (hfits : localNode.memoryAvailableBytes ≤ localNode.memoryTotalBytes)
    (hsafe : AdmissionSafe fl config localNode budget (localNode.memoryTotalBytes + 1))
    (hbudget : memorySum dag dag.tasks.keys ≤ budget)
    (hname : localNode.nodeId ∉ (reachablePeers cluster).map PeerInfo.nodeId) :
    AdmitsSoundly fl config h dag localNode cluster := by
  intro before d after hplan hreason
  have hinv := thresholdWalk_admissionInv fl config h dag localNode cluster
  rcases hsafe.sound_or hfl hfits hbudget hplan hreason with hsound | ⟨hused, hlt⟩
  · exact hsound
  · -- the counter is at most the total, so the difference does not wrap
    have hle : usedAfter dag localNode before ≤ localNode.memoryTotalBytes := by
      bv_omega
    have hroom := (hinv.guarded before d after hplan hreason).2.2
    rw [BitVec.le_def, BitVec.toNat_sub_of_le hle, hused] at hroom
    rw [BitVec.le_def, hused] at hle
    rw [hinv.memoryLoad_eq hname hplan]
    have hfits' := BitVec.le_def.1 hfits
    omega

end Enough

/-! ## Workloads that are admitted to an overdrawn node -/

variable (x y z : U64)

/-- The calls that build three tasks in a row. -/
def relayCalls : List WorkloadDAG.BuildOp :=
  [.addTask { id := [97], profile := { memoryBytes := x } },
    .addTask { id := [98], profile := { memoryBytes := y } },
    .addTask { id := [99], profile := { memoryBytes := z } },
    .addDependency [97] [98], .addDependency [98] [99]]

/-- The graph of these calls. -/
def relay : WorkloadDAG :=
  WorkloadDAG.build (relayCalls x y z)

/-- The tasks in the order in which they are decided. -/
def relayOrder : List TaskId :=
  [[97], [98], [99]]

theorem nodup_relayOrder : relayOrder.Nodup := by
  decide

theorem map_id_relayCalls :
    (WorkloadDAG.addedTasks (relayCalls x y z)).map Task.id = relayOrder := by
  simp [relayCalls, relayOrder]

theorem getTask_relay :
    (∃ task, (relay x y z).getTask [97] = some task ∧ task.profile = { memoryBytes := x }) ∧
      (∃ task, (relay x y z).getTask [98] = some task ∧ task.profile = { memoryBytes := y }) ∧
      ∃ task, (relay x y z).getTask [99] = some task ∧ task.profile = { memoryBytes := z } := by
  have hget : ∀ task ∈ WorkloadDAG.addedTasks (relayCalls x y z),
      ∃ stored, (relay x y z).getTask task.id = some stored ∧ stored.profile = task.profile := by
    intro task htask
    exact WorkloadDAG.getTask_build (by rw [map_id_relayCalls]; exact nodup_relayOrder) htask
  simpa [relayCalls] using hget

theorem memoryOf_relay :
    (relay x y z).memoryOf [97] = x ∧ (relay x y z).memoryOf [98] = y ∧
      (relay x y z).memoryOf [99] = z := by
  rcases getTask_relay x y z with ⟨⟨a, ha, hx⟩, ⟨b, hb, hy⟩, ⟨c, hc, hz⟩⟩
  rw [memoryOf_of_getTask ha, memoryOf_of_getTask hb, memoryOf_of_getTask hc, hx, hy, hz]
  exact ⟨rfl, rfl, rfl⟩

theorem memorySum_relay :
    memorySum (relay x y z) (relay x y z).tasks.keys = x.toNat + y.toNat + z.toNat := by
  have hperm : (WorkloadDAG.build (relayCalls x y z)).tasks.keys.Perm _ :=
    WorkloadDAG.keys_build (by rw [map_id_relayCalls]; exact nodup_relayOrder)
  rw [map_id_relayCalls] at hperm
  rcases memoryOf_relay x y z with ⟨hx, hy, hz⟩
  rw [memorySum, relay, (hperm.map _).sum_eq, ← relay]
  simp only [relayOrder, List.map_cons, List.map_nil, List.sum_cons, List.sum_nil, hx, hy, hz]
  omega

/-- Whatever the iteration orders, the tasks are decided one after the other. -/
theorem topologicalOrder_relay (h : HashOrders) (x y z : U64) :
    (relay x y z).topologicalOrder h = relayOrder := by
  have hedge : ∀ u v, (relay x y z).Edge u v ↔
      u = [97] ∧ v = [98] ∨ u = [98] ∧ v = [99] := by
    intro u v
    rw [relay, WorkloadDAG.edge_build]
    simp [relayCalls]
  have htask : ∀ id, id ∈ (relay x y z).tasks ↔ id ∈ relayOrder := by
    intro id
    rw [relay, WorkloadDAG.mem_tasks_build, map_id_relayCalls]
  have hends : (relay x y z).EndpointsAreTasks := by
    intro u v huv
    rw [htask, htask]
    rcases (hedge u v).1 huv with ⟨rfl, rfl⟩ | ⟨rfl, rfl⟩
    · decide
    · decide
  have hacyclic : (relay x y z).Acyclic := by
    apply Digraph.acyclic_of_rank fun id => (id.headD 0).toNat
    intro u v huv
    rcases (hedge u v).1 huv with ⟨rfl, rfl⟩ | ⟨rfl, rfl⟩
    · decide
    · decide
  have hperm : ((relay x y z).topologicalOrder h).Perm relayOrder := by
    apply (List.perm_ext_iff_of_nodup ((relay x y z).topologicalOrder_nodup h)
      nodup_relayOrder).2
    exact fun id => (hends.mem_topologicalOrder_of_acyclic hacyclic h id).trans (htask id)
  have hpreds := (relay x y z).topologicalOrder_predsEarlier h
  generalize (relay x y z).topologicalOrder h = order at hperm hpreds
  rcases List.length_eq_three.1 hperm.length_eq with ⟨a, b, c, rfl⟩
  have hnodup := hperm.nodup_iff.2 nodup_relayOrder
  have hmem : ∀ id ∈ [a, b, c], id = [97] ∨ id = [98] ∨ id = [99] := by
    intro id hid
    simpa [relayOrder] using hperm.mem_iff.1 hid
  obtain rfl : a = [97] := by
    have ha := hpreds [] a [b, c] rfl
    rcases hmem a (by simp) with hfirst | rfl | rfl
    · exact hfirst
    · exact absurd (ha [97] ((hedge _ _).2 (by simp))) List.not_mem_nil
    · exact absurd (ha [98] ((hedge _ _).2 (by simp))) List.not_mem_nil
  obtain rfl : b = [98] := by
    have hb := hpreds [[97]] b [c] rfl
    rcases hmem b (by simp) with rfl | hsecond | rfl
    · simp at hnodup
    · exact hsecond
    · have hmissing := hb [98] ((hedge _ _).2 (by simp))
      simp at hmissing
  obtain rfl : c = [99] := by
    rcases hmem c (by simp) with rfl | rfl | hthird
    · simp at hnodup
    · simp at hnodup
    · exact hthird
  rfl

theorem memoryLoad_one (dag : WorkloadDAG) (id : TaskId) (node : NodeId) (reason : Reason) :
    memoryLoad dag [⟨id, node, reason⟩] node = (dag.memoryOf id).toNat := by
  simp [memoryLoad, assignedSum]

theorem memoryLoad_two (dag : WorkloadDAG) (id id' : TaskId) (node : NodeId)
    (reason reason' : Reason) :
    memoryLoad dag [⟨id, node, reason⟩, ⟨id', node, reason'⟩] node =
      (dag.memoryOf id).toNat + (dag.memoryOf id').toNat := by
  simp [memoryLoad, assignedSum]

section Overdraws

variable {fl : FloatOps} {config : ThresholdPolicyConfig} {dag : WorkloadDAG}
  {localNode : ResourceSnapshot} {s : ThresholdState} {id : TaskId}

/-- The walk only appends decisions. -/
theorem foldl_thresholdAssign_decisions (fl : FloatOps) (config : ThresholdPolicyConfig)
    (dag : WorkloadDAG) (localNode : ResourceSnapshot) (ids : List TaskId) (s : ThresholdState) :
    ∃ more, (ids.foldl (thresholdAssign fl config dag localNode) s).decisions =
      s.decisions ++ more := by
  induction ids generalizing s with
  | nil => exact ⟨[], (List.append_nil _).symm⟩
  | cons id ids ih =>
    rcases ih (thresholdAssign fl config dag localNode s id) with ⟨more, hmore⟩
    rw [List.foldl_cons, hmore]
    rcases thresholdAssign_cases fl config dag localNode s id with hsame | ⟨d, hd, -⟩
    · exact ⟨more, by rw [hsame]⟩
    · exact ⟨d :: more, by rw [hd, List.append_assoc]; rfl⟩

/-- What an admission leaves. -/
theorem thresholdAssign_keeps {task : Task} (htask : dag.getTask id = some task)
    (hopen : withinThresholds fl config localNode s task.profile = true) :
    thresholdAssign fl config dag localNode s id =
      { s with
        decisions := s.decisions ++ [⟨id, localNode.nodeId, .localCapacity⟩]
        localCompute := s.localCompute + task.profile.computeCost
        simMemUsed := s.simMemUsed + task.profile.memoryBytes
        simCpu :=
          fl.min (fl.add s.simCpu (fl.mul (fl.ofI64 task.profile.computeCost) oneThousandth))
            oneHundred } := by
  simp only [thresholdAssign, htask, if_pos hopen]

/-- Admitting a task to an overdrawn node. -/
theorem not_sound_of_admits {task : Task} (htask : dag.getTask id = some task)
    (hload : localNode.memoryAvailableBytes.toNat < memoryLoad dag s.decisions localNode.nodeId)
    (hopen : withinThresholds fl config localNode s task.profile = true) (rest : List TaskId) :
    ¬ ForLoop.WithHistory (LocallyAdmissible dag localNode)
      ((id :: rest).foldl (thresholdAssign fl config dag localNode) s).decisions := by
  rw [List.foldl_cons, thresholdAssign_keeps htask hopen]
  intro hsound
  rcases foldl_thresholdAssign_decisions fl config dag localNode rest _ with ⟨more, hmore⟩
  rw [hmore, List.append_assoc] at hsound
  have hfit := hsound s.decisions _ more rfl rfl
  omega

/-- What a fallback leaves, on a cluster without peers. -/
theorem thresholdAssign_fallback {task : Task} (htask : dag.getTask id = some task)
    (hbusy : withinThresholds fl config localNode s task.profile = false) (hpeers : s.peers = []) :
    thresholdAssign fl config dag localNode s id =
      { s with
        decisions := s.decisions ++ [⟨id, localNode.nodeId, .fallback⟩]
        localCompute := s.localCompute + task.profile.computeCost
        simMemUsed := s.simMemUsed + task.profile.memoryBytes } := by
  simp only [thresholdAssign, htask, hbusy, hpeers, List.getElem?_nil, Bool.false_eq_true, if_false]

/-- A task that exceeds the available memory is not admitted at the start. -/
theorem not_withinThresholds_init {cluster : ClusterView} {profile : TaskProfile}
    (hlarge : localNode.memoryAvailableBytes < profile.memoryBytes) :
    withinThresholds fl config localNode (thresholdInit localNode cluster) profile = false := by
  have hroom : ¬ localNode.memoryTotalBytes -
      (localNode.memoryTotalBytes - localNode.memoryAvailableBytes) ≥ profile.memoryBytes := by
    bv_omega
  simp only [withinThresholds, thresholdInit, hroom, decide_false, Bool.and_false]

theorem withinThresholds_of_guards {profile : TaskProfile}
    (hcpu : withinCpuThreshold fl config s.simCpu = true)
    (hmem : withinMemThreshold fl config localNode.memoryTotalBytes s.simMemUsed = true)
    (hroom : profile.memoryBytes ≤ localNode.memoryTotalBytes - s.simMemUsed) :
    withinThresholds fl config localNode s profile = true := by
  simp only [withinThresholds, hcpu, hmem, Bool.true_and, decide_eq_true_eq]
  exact hroom

/-- A task falls back to the local node, and the memory guard is open at the usage that the
counter then shows. -/
theorem overdraws_by_fallback (h : HashOrders) {k : U64}
    (hlarge : localNode.memoryAvailableBytes < k)
    (hcpu : withinCpuThreshold fl config localNode.cpuUsagePercent = true)
    (hmem : withinMemThreshold fl config localNode.memoryTotalBytes
      (localNode.memoryTotalBytes - localNode.memoryAvailableBytes + k) = true) :
    ¬ AdmitsSoundly fl config h (relay k 0 0) localNode ⟨[]⟩ := by
  rcases getTask_relay k 0 0 with ⟨⟨a, ha, hka⟩, ⟨b, hb, hkb⟩, -⟩
  have hbusy : withinThresholds fl config localNode (thresholdInit localNode ⟨[]⟩) a.profile =
      false := not_withinThresholds_init (by rw [hka]; exact hlarge)
  change ¬ ForLoop.WithHistory _ (thresholdWalk fl config h _ localNode ⟨[]⟩).decisions
  rw [thresholdWalk, topologicalOrder_relay, relayOrder, List.foldl_cons,
    thresholdAssign_fallback ha hbusy rfl]
  apply not_sound_of_admits hb
  · change _ < memoryLoad _ [⟨[97], localNode.nodeId, .fallback⟩] _
    rw [memoryLoad_one, (memoryOf_relay k 0 0).1]
    exact hlarge
  · apply withinThresholds_of_guards hcpu
    · rw [hka]
      exact hmem
    · rw [hkb]
      exact BitVec.le_def.2 (Nat.zero_le _)

/-- On a node of which nothing is in use, two tasks of `2 ^ 64` bytes together bring the
counter back to zero. -/
theorem overdraws_by_wrap (hfl : fl.Rounds) (h : HashOrders)
    (hunused : localNode.memoryTotalBytes = localNode.memoryAvailableBytes)
    (hcpu : withinCpuThreshold fl config localNode.cpuUsagePercent = true)
    (hmem : withinMemThreshold fl config localNode.memoryTotalBytes 0 = true) :
    ¬ AdmitsSoundly fl config h (relay (-1) 1 0) localNode ⟨[]⟩ := by
  rcases getTask_relay (-1) 1 0 with ⟨⟨a, ha, hka⟩, ⟨b, hb, hkb⟩, ⟨c, hc, hkc⟩⟩
  have hstart : localNode.memoryTotalBytes - localNode.memoryAvailableBytes = 0 := by
    rw [hunused]
    exact BitVec.sub_self _
  change ¬ ForLoop.WithHistory _ (thresholdWalk fl config h _ localNode ⟨[]⟩).decisions
  rw [thresholdWalk, topologicalOrder_relay, relayOrder, List.foldl_cons]
  have hload : ∀ reason, localNode.memoryAvailableBytes.toNat < memoryLoad (relay (-1) 1 0)
      [⟨[97], localNode.nodeId, reason⟩, ⟨[98], localNode.nodeId, .fallback⟩]
      localNode.nodeId := by
    intro reason
    rw [memoryLoad_two, (memoryOf_relay (-1) 1 0).1, (memoryOf_relay (-1) 1 0).2.1]
    exact localNode.memoryAvailableBytes.isLt
  by_cases hfull : localNode.memoryAvailableBytes = -1
  · have hfirst : withinThresholds fl config localNode (thresholdInit localNode ⟨[]⟩) a.profile =
        true := by
      apply withinThresholds_of_guards hcpu
      · rw [thresholdInit, hstart]
        exact hmem
      · rw [thresholdInit, hstart, hka, hunused, hfull]
        exact (by decide : (-1 : U64) ≤ -1 - 0)
    rw [thresholdAssign_keeps ha hfirst, List.foldl_cons, thresholdAssign_fallback hb _ rfl]
    · apply not_sound_of_admits hc
      · exact hload .localCapacity
      · apply withinThresholds_of_guards
        · rw [hka]
          exact hfl.costless _ _ hcpu
        · simp only [thresholdInit, hstart, hka, hkb]
          exact hmem
        · rw [hkc]
          exact BitVec.le_def.2 (Nat.zero_le _)
    · simp [withinThresholds, thresholdInit, hka, hkb, hunused, hfull]
  · have hfirst : withinThresholds fl config localNode (thresholdInit localNode ⟨[]⟩) a.profile =
        false := by
      apply not_withinThresholds_init
      rw [hka]
      bv_omega
    have hlarge : localNode.memoryAvailableBytes.toNat < 2 ^ 64 - 1 := by
      bv_omega
    rw [thresholdAssign_fallback ha hfirst rfl]
    cases hsecond : withinThresholds fl config localNode _ b.profile with
    | true =>
      apply not_sound_of_admits hb _ hsecond
      change _ < memoryLoad _ [⟨[97], localNode.nodeId, .fallback⟩] _
      rw [memoryLoad_one, (memoryOf_relay (-1) 1 0).1]
      exact hlarge
    | false =>
      rw [List.foldl_cons, thresholdAssign_fallback hb hsecond rfl]
      apply not_sound_of_admits hc
      · exact hload .fallback
      · apply withinThresholds_of_guards hcpu
        · simp only [thresholdInit, hstart, hka, hkb]
          exact hmem
        · rw [hkc]
          exact BitVec.le_def.2 (Nat.zero_le _)

/-- A peer that carries the id of the local node, with all the memory there can be. -/
def namesake (localNode : ResourceSnapshot) : PeerInfo :=
  { nodeId := localNode.nodeId
    resources := { nodeId := localNode.nodeId, memoryAvailableBytes := -1 } }

/-- What the namesake is given is not counted. -/
theorem overdraws_by_namesake (hfl : fl.Rounds) (h : HashOrders) {k : U64}
    (hlarge : localNode.memoryAvailableBytes < k)
    (hcpu : withinCpuThreshold fl config localNode.cpuUsagePercent = true)
    (hmem : withinMemThreshold fl config localNode.memoryTotalBytes
      (localNode.memoryTotalBytes - localNode.memoryAvailableBytes) = true) :
    ¬ AdmitsSoundly fl config h (relay k 0 0) localNode ⟨[namesake localNode]⟩ := by
  rcases getTask_relay k 0 0 with ⟨⟨a, ha, hka⟩, ⟨b, hb, hkb⟩, -⟩
  have hbusy : withinThresholds fl config localNode
      (thresholdInit localNode ⟨[namesake localNode]⟩) a.profile = false :=
    not_withinThresholds_init (by rw [hka]; exact hlarge)
  have hbest : thresholdBest fl (thresholdInit localNode ⟨[namesake localNode]⟩).peers
      a.profile = 0 := by
    change (considerPeer fl a.profile (maxFloat, 1) _).2 = 0
    rw [considerPeer, if_pos]
    refine ⟨?_, hfl.zero_lt_max⟩
    rw [hka]
    exact BitVec.le_def.2 (Nat.le_pred_of_lt k.isLt)
  have hoffload : thresholdAssign fl config (relay k 0 0) localNode
      (thresholdInit localNode ⟨[namesake localNode]⟩) [97] =
      { thresholdInit localNode ⟨[namesake localNode]⟩ with
        decisions := [⟨[97], localNode.nodeId, .thresholdOffload⟩]
        peers := (thresholdPeers ⟨[namesake localNode]⟩).modify 0
          (PeerState.charge fl a.profile) } := by
    simp only [thresholdAssign, ha, hbusy, Bool.false_eq_true, if_false, hbest]
    rfl
  change ¬ ForLoop.WithHistory _
    (thresholdWalk fl config h _ localNode ⟨[namesake localNode]⟩).decisions
  rw [thresholdWalk, topologicalOrder_relay, relayOrder, List.foldl_cons, hoffload]
  apply not_sound_of_admits hb
  · rw [memoryLoad_one, (memoryOf_relay k 0 0).1]
    exact hlarge
  · apply withinThresholds_of_guards hcpu hmem
    rw [hkb]
    exact BitVec.le_def.2 (Nat.zero_le _)

end Overdraws

/-! ## When the admissions are sound -/

section Sound

variable {fl : FloatOps} {config : ThresholdPolicyConfig} {localNode : ResourceSnapshot}
  {budget : Nat} {least : U64}

/-- If all workloads are sound on a cluster without peers, the counter cannot wrap; what else
is needed is that the memory guard is closed at `least`. -/
theorem admissionSafe_of_sound (hfl : fl.Rounds) (h : HashOrders)
    (hfits : localNode.memoryAvailableBytes ≤ localNode.memoryTotalBytes)
    (hsound : ∀ dag, memorySum dag dag.tasks.keys ≤ budget →
      AdmitsSoundly fl config h dag localNode ⟨[]⟩)
    (hleast : localNode.memoryAvailableBytes.toNat < budget →
      withinCpuThreshold fl config localNode.cpuUsagePercent = true →
      localNode.memoryTotalBytes.toNat - localNode.memoryAvailableBytes.toNat + budget < 2 ^ 64 →
      withinMemThreshold fl config localNode.memoryTotalBytes least = false) :
    AdmissionSafe fl config localNode budget least := by
  by_contra hunsafe
  simp only [AdmissionSafe, not_or, not_and, Bool.not_eq_false, not_le] at hunsafe
  obtain ⟨hcpu, hlarge, hzero, hopen⟩ := hunsafe
  have htotal := localNode.memoryTotalBytes.isLt
  have hle := BitVec.le_def.1 hfits
  by_cases hwrap : localNode.memoryTotalBytes.toNat - localNode.memoryAvailableBytes.toNat +
      budget < 2 ^ 64
  · have hclosed := hleast hlarge hcpu hwrap
    rw [hopen hwrap] at hclosed
    cases hclosed
  · by_cases hunused : localNode.memoryTotalBytes = localNode.memoryAvailableBytes
    · refine overdraws_by_wrap hfl h hunused hcpu hzero (hsound _ ?_)
      rw [memorySum_relay]
      rw [hunused] at hwrap
      change 2 ^ 64 - 1 + 1 + 0 ≤ budget
      omega
    · -- one task brings the counter back to zero
      have hback : localNode.memoryTotalBytes - localNode.memoryAvailableBytes +
          (localNode.memoryAvailableBytes - localNode.memoryTotalBytes) = 0 := by
        bv_omega
      have hsize : (localNode.memoryAvailableBytes - localNode.memoryTotalBytes).toNat =
          2 ^ 64 - (localNode.memoryTotalBytes.toNat - localNode.memoryAvailableBytes.toNat) := by
        bv_omega
      refine overdraws_by_fallback h
        (k := localNode.memoryAvailableBytes - localNode.memoryTotalBytes) ?_ hcpu ?_
        (hsound _ ?_)
      · rw [BitVec.lt_def, hsize]
        omega
      · rw [hback]
        exact hzero
      · rw [memorySum_relay, hsize]
        change _ + 0 + 0 ≤ budget
        omega

/-- The least workload that does not fit. -/
theorem memorySum_relay_succ (hlarge : localNode.memoryAvailableBytes.toNat < budget)
    (hwrap : localNode.memoryTotalBytes.toNat - localNode.memoryAvailableBytes.toNat + budget <
      2 ^ 64) :
    localNode.memoryAvailableBytes < localNode.memoryAvailableBytes + 1 ∧
      memorySum (relay (localNode.memoryAvailableBytes + 1) 0 0)
        (relay (localNode.memoryAvailableBytes + 1) 0 0).tasks.keys ≤ budget := by
  have hsucc : (localNode.memoryAvailableBytes + 1).toNat =
      localNode.memoryAvailableBytes.toNat + 1 := by
    bv_omega
  constructor
  · rw [BitVec.lt_def, hsucc]
    omega
  · rw [memorySum_relay, hsucc]
    change _ + 0 + 0 ≤ budget
    omega

end Sound

/-- For every snapshot whose available memory is at most its total, all thresholds, iteration
orders and sizes: the local admissions are within the available memory for all workloads of
at most `budget` bytes, on all clusters, exactly when `AdmissionSafe` holds for the measured
usage; and on all clusters in which no reachable peer carries the id of the local node,
exactly when it holds for one byte more than the total. -/
theorem thresholdSchedule_localCapacity_iff (fl : FloatOps) (hfl : fl.Rounds)
    (config : ThresholdPolicyConfig) (h : HashOrders) (localNode : ResourceSnapshot)
    (hfits : localNode.memoryAvailableBytes ≤ localNode.memoryTotalBytes) (budget : Nat) :
    ((∀ dag cluster, memorySum dag dag.tasks.keys ≤ budget →
        AdmitsSoundly fl config h dag localNode cluster) ↔
      AdmissionSafe fl config localNode budget
        (localNode.memoryTotalBytes - localNode.memoryAvailableBytes)) ∧
    ((∀ dag cluster, memorySum dag dag.tasks.keys ≤ budget →
        localNode.nodeId ∉ (reachablePeers cluster).map PeerInfo.nodeId →
        AdmitsSoundly fl config h dag localNode cluster) ↔
      AdmissionSafe fl config localNode budget (localNode.memoryTotalBytes + 1)) := by
  refine ⟨⟨fun hsound => ?_, fun hsafe dag cluster hbudget => ?_⟩,
    ⟨fun hsound => ?_, fun hsafe dag cluster hbudget hname => ?_⟩⟩
  · apply admissionSafe_of_sound hfl h hfits fun dag hbudget => hsound dag _ hbudget
    intro hlarge hcpu hwrap
    rcases memorySum_relay_succ hlarge hwrap with ⟨hlt, hbudget⟩
    by_contra hopen
    exact overdraws_by_namesake hfl h hlt hcpu (Bool.not_eq_false _ ▸ hopen)
      (hsound _ _ hbudget)
  · exact hsafe.sound_of_initial hfl hfits hbudget
  · have hempty : localNode.nodeId ∉ (reachablePeers ⟨[]⟩).map PeerInfo.nodeId :=
      List.not_mem_nil
    apply admissionSafe_of_sound hfl h hfits fun dag hbudget => hsound dag _ hbudget hempty
    intro hlarge hcpu hwrap
    rcases memorySum_relay_succ hlarge hwrap with ⟨hlt, hbudget⟩
    have hused : localNode.memoryTotalBytes - localNode.memoryAvailableBytes +
        (localNode.memoryAvailableBytes + 1) = localNode.memoryTotalBytes + 1 := by
      bv_omega
    by_contra hopen
    refine overdraws_by_fallback h hlt hcpu ?_ (hsound _ _ hbudget hempty)
    rw [hused]
    exact Bool.not_eq_false _ ▸ hopen
  · exact hsafe.sound_of_total hfl hfits hbudget hname

/-- Single precision on the numbers that occur on a node of four bytes, rounded down to these
in between: `0`, `4` and `5` bytes are `0`, `100` and `125` percent. -/
def FloatOps.fourBytes : FloatOps where
  add a _ := a
  sub a _ := a
  mul _ b := if b < 0x40800000 then 0 else if b < 0x40A00000 then 0x43C80000 else 0x43FA0000
  div a _ := if a < 0x43C80000 then 0 else if a < 0x43FA0000 then 0x42C80000 else 0x42FA0000
  lt a b := a < b
  ofU64 n := if n < 4 then 0 else if n < 5 then 0x40800000 else 0x40A00000
  ofI64 _ := 0
  toI64 a := a.toNat

/-- A step function with rising values is monotone. -/
theorem steps_le {w : Nat} {x y p q : BitVec w} {low mid high : F32} (hlow : low ≤ mid)
    (hhigh : mid ≤ high) (hxy : x ≤ y) :
    (if x < p then low else if x < q then mid else high) ≤
      if y < p then low else if y < q then mid else high := by
  split_ifs <;> bv_omega

theorem fourBytes_le_iff {a b : F32} : FloatOps.fourBytes.Le a b ↔ a ≤ b := by
  constructor
  · intro hle
    by_contra hlt
    have hself := of_decide_eq_true (hle a (decide_eq_true (BitVec.not_le.1 hlt)))
    exact BitVec.lt_irrefl a hself
  · intro hle c hc
    have hlt : b < c := of_decide_eq_true hc
    exact decide_eq_true (by bv_omega)

theorem fourBytes_rounds : FloatOps.fourBytes.Rounds where
  ofU64 a b hab := fourBytes_le_iff.2 (steps_le (by decide) (by decide) hab)
  mul a b hab :=
    fourBytes_le_iff.2 (steps_le (by decide) (by decide) (fourBytes_le_iff.1 hab))
  div a b _ _ hab :=
    fourBytes_le_iff.2 (steps_le (by decide) (by decide) (fourBytes_le_iff.1 hab))
  costless load := by
    rw [fourBytes_le_iff]
    change (if FloatOps.fourBytes.lt oneHundred load = true then oneHundred else load) ≤ load
    split
    · rename_i hload
      exact BitVec.le_of_lt (of_decide_eq_true hload)
    · exact BitVec.le_refl load
  zero_lt_max := by decide

/-- An unused node of four bytes. -/
def fourByteNode : ResourceSnapshot :=
  { nodeId := [115], memoryTotalBytes := 4, memoryAvailableBytes := 4 }

/-- Both thresholds at 80 percent. -/
def eightyPercent : ThresholdPolicyConfig :=
  ⟨0x42A00000, 0x42A00000⟩

/-- On the node of four bytes, where one byte too many is 125 percent, the admissions are
sound for all workloads below `2 ^ 64` bytes, but not next to a namesake; on a node without
memory they are not, from one byte on. -/
theorem thresholdSchedule_localCapacity_fourBytes :
    (∀ dag cluster, memorySum dag dag.tasks.keys ≤ 2 ^ 64 - 1 →
        fourByteNode.nodeId ∉ (reachablePeers cluster).map PeerInfo.nodeId →
        AdmitsSoundly .fourBytes eightyPercent .insertion dag fourByteNode cluster) ∧
      (¬ ∀ dag cluster, memorySum dag dag.tasks.keys ≤ 5 →
        AdmitsSoundly .fourBytes eightyPercent .insertion dag fourByteNode cluster) ∧
      ¬ ∀ dag cluster, memorySum dag dag.tasks.keys ≤ 1 →
        [115] ∉ (reachablePeers cluster).map PeerInfo.nodeId →
        AdmitsSoundly .fourBytes eightyPercent .insertion dag { nodeId := [115] } cluster := by
  have hfour := thresholdSchedule_localCapacity_iff .fourBytes fourBytes_rounds eightyPercent
    .insertion fourByteNode (by decide)
  have hnone := thresholdSchedule_localCapacity_iff .fourBytes fourBytes_rounds eightyPercent
    .insertion { nodeId := [115] } (by decide) 1
  refine ⟨(hfour (2 ^ 64 - 1)).2.2 (by decide), ?_, ?_⟩
  · rw [(hfour 5).1]
    decide
  · rw [hnone.2]
    decide

/-- Two tasks of one and of ten bytes. -/
def twoTasks : WorkloadDAG :=
  WorkloadDAG.build
    [.addTask { id := [97], profile := { memoryBytes := 1 } },
      .addTask { id := [98], profile := { memoryBytes := 10 } }]

/-- On a node without memory and without peers the first task falls back to the node; the
difference then wraps and the node has capacity for the second one. -/
theorem thresholdSchedule_admits_overdrawn :
    (thresholdSchedule .wholeNumber ⟨80, 80⟩ .insertion twoTasks { nodeId := [115] }
        ⟨[]⟩).decisions =
        [⟨[97], [115], .fallback⟩, ⟨[98], [115], .localCapacity⟩] ∧
      ¬ AdmitsSoundly .wholeNumber ⟨80, 80⟩ .insertion twoTasks { nodeId := [115] } ⟨[]⟩ := by
  have hdecisions : (thresholdSchedule .wholeNumber ⟨80, 80⟩ .insertion twoTasks
      { nodeId := [115] } ⟨[]⟩).decisions =
        [⟨[97], [115], .fallback⟩, ⟨[98], [115], .localCapacity⟩] := by
    decide
  refine ⟨hdecisions, fun hall => ?_⟩
  have hlast := hall [⟨[97], [115], .fallback⟩] ⟨[98], [115], .localCapacity⟩ [] hdecisions rfl
  revert hlast
  decide

end EdgeOrchestrator
