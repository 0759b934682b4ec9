import EdgeOrchestrator.Core.Types
import EdgeOrchestrator.Library.UnorderedMap

/-!
# The cluster view manager

`ClusterViewManager` is the map of peer states that discovery writes and the
schedulers read.  Its key invariant, that a peer is stored under its own id, is
part of the type: no sequence of calls can break it.

Main result:

- `ClusterViewManager.filter_snapshot`: the snapshot holds exactly one entry for each reachable
  peer, and it is the one `peerInfo` returns.
-/

namespace EdgeOrchestrator

instance : Inhabited ResourceSnapshot :=
  ⟨{ nodeId := [] }⟩

/-- The value-initialized entry that `peers_[id]` creates. -/
instance : Inhabited PeerInfo :=
  ⟨{ nodeId := [], resources := default }⟩

/-- The aggregated view of all cluster peers. -/
structure ClusterViewManager where
  peers : UnorderedMap NodeId PeerInfo
  keyed : ∀ id info, peers.lookup id = some info → info.nodeId = id

namespace ClusterViewManager

/-! ## Operations -/

/-- A new manager. -/
def empty : ClusterViewManager where
  peers := ∅
  keyed := by simp

variable (m : ClusterViewManager)

/-- Storing a peer under its own id keeps the invariant. -/
def store (info : PeerInfo) : ClusterViewManager where
  peers := m.peers.insert info.nodeId info
  keyed := by
    intro id stored hstored
    rw [UnorderedMap.lookup_insert_eq] at hstored
    split at hstored
    · rename_i hid
      cases hstored
      exact hid.symm
    · exact m.keyed id stored hstored

/-- `update_peer(id, snapshot)`: a previously learned endpoint is preserved. -/
def updateResources (id : NodeId) (snapshot : ResourceSnapshot) : ClusterViewManager :=
  m.store
    { UnorderedMap.subscript m.peers id with
      nodeId := id
      resources := snapshot
      reachable := true }

/-- `update_peer(info)`: the whole record is replaced. -/
def updatePeer (info : PeerInfo) : ClusterViewManager :=
  m.store info

/-- `mark_unreachable`. -/
def markUnreachable (id : NodeId) : ClusterViewManager where
  peers := UnorderedMap.modify m.peers id fun info => { info with reachable := false }
  keyed := by
    intro j stored hstored
    rw [UnorderedMap.lookup_modify] at hstored
    split at hstored
    · rcases Option.map_eq_some_iff.1 hstored with ⟨info, hinfo, rfl⟩
      exact m.keyed j info hinfo
    · exact m.keyed j stored hstored

/-- `remove_peer`. -/
def removePeer (id : NodeId) : ClusterViewManager where
  peers := m.peers.erase id
  keyed := by
    intro j stored hstored
    rw [UnorderedMap.lookup_erase_eq] at hstored
    split at hstored
    · cases hstored
    · exact m.keyed j stored hstored

def clear (_ : ClusterViewManager) : ClusterViewManager :=
  empty

/-! ## Queries -/

/-- The stored record of a reachable peer. -/
def peerInfo (id : NodeId) : Option PeerInfo :=
  match m.peers.lookup id with
  | none => none
  | some info => if info.reachable then some info else none

/-- Copy out the reachable peers, in hash order. -/
def snapshot (o : IterationOrder NodeId) (m : ClusterViewManager) : ClusterView where
  peers := (o.order m.peers.keys).filterMap m.peerInfo

/-! ## Call sequences -/

/-- One mutating call. -/
inductive Op where
  | updateResources (id : NodeId) (snapshot : ResourceSnapshot)
  | updatePeer (info : PeerInfo)
  | markUnreachable (id : NodeId)
  | removePeer (id : NodeId)
  | clear

/-- The effect of a call. -/
def apply : Op → ClusterViewManager
  | .updateResources id snapshot => m.updateResources id snapshot
  | .updatePeer info => m.updatePeer info
  | .markUnreachable id => m.markUnreachable id
  | .removePeer id => m.removePeer id
  | .clear => m.clear

/-- The manager after a sequence of calls on a fresh one. -/
def after (ops : List Op) : ClusterViewManager :=
  ops.foldl apply empty

/-! ## What a snapshot holds -/

variable {info : PeerInfo}

theorem peerInfo_eq_some_iff {m : ClusterViewManager} {id : NodeId} :
    m.peerInfo id = some info ↔ m.peers.lookup id = some info ∧ info.reachable = true := by
  unfold peerInfo
  cases hlookup : m.peers.lookup id with
  | none => simp
  | some stored =>
    by_cases hreach : stored.reachable = true
    · simp only [hreach, if_true, Option.some.injEq]
      constructor
      · intro h
        rw [← h]
        exact ⟨rfl, hreach⟩
      · exact And.left
    · simp only [hreach, Bool.false_eq_true, if_false, Option.some.injEq]
      constructor
      · intro h
        cases h
      · intro h
        rw [h.1] at hreach
        exact absurd h.2 hreach

theorem peerInfo_congr {m n : ClusterViewManager} {id : NodeId}
    (h : m.peers.lookup id = n.peers.lookup id) : m.peerInfo id = n.peerInfo id := by
  rw [peerInfo, peerInfo, h]

/-- `update_peer(info)`, read back at any id. -/
theorem peerInfo_updatePeer (hreach : info.reachable = true) (id : NodeId) :
    (m.updatePeer info).peerInfo id = if id = info.nodeId then some info else m.peerInfo id := by
  have hlookup : (m.updatePeer info).peers.lookup id =
      if id = info.nodeId then some info else m.peers.lookup id :=
    UnorderedMap.lookup_insert_eq _ _ _ _
  by_cases hid : id = info.nodeId
  · rw [if_pos hid] at hlookup ⊢
    exact peerInfo_eq_some_iff.2 ⟨hlookup, hreach⟩
  · rw [if_neg hid] at hlookup ⊢
    exact peerInfo_congr hlookup

/-- `remove_peer` leaves every other peer alone. -/
theorem peerInfo_removePeer_of_ne {id j : NodeId} (h : j ≠ id) :
    (m.removePeer id).peerInfo j = m.peerInfo j := by
  apply peerInfo_congr
  rw [removePeer, UnorderedMap.lookup_erase_eq, if_neg h]

theorem nodeId_of_peerInfo {m : ClusterViewManager} {id : NodeId} (h : m.peerInfo id = some info)
    : info.nodeId = id :=
  m.keyed id info (peerInfo_eq_some_iff.1 h).1

/-- A peer in the snapshot is reachable and is the one `peerInfo` returns. -/
theorem mem_snapshot_iff {o : IterationOrder NodeId} {m : ClusterViewManager} :
    info ∈ (m.snapshot o).peers ↔ m.peerInfo info.nodeId = some info := by
  rw [snapshot, List.mem_filterMap]
  constructor
  · intro h
    rcases h with ⟨id, -, hid⟩
    rw [nodeId_of_peerInfo hid]
    exact hid
  · intro h
    refine ⟨info.nodeId, ?_, h⟩
    rw [IterationOrder.mem_order, ← AList.mem_keys, UnorderedMap.mem_iff_lookup]
    exact ⟨info, (peerInfo_eq_some_iff.1 h).1⟩

theorem filterMap_peerInfo_nodup {ids : List NodeId} (hnodup : ids.Nodup)
    : ((ids.filterMap m.peerInfo).map PeerInfo.nodeId).Nodup := by
  induction ids with
  | nil => simp
  | cons id ids ih =>
    rw [List.nodup_cons] at hnodup
    cases hinfo : m.peerInfo id with
    | none => simpa [hinfo] using ih hnodup.2
    | some info =>
      rw [List.filterMap_cons_some hinfo, List.map_cons, List.nodup_cons]
      refine ⟨?_, ih hnodup.2⟩
      intro hmem
      rcases List.mem_map.1 hmem with ⟨other, hother, heq⟩
      rcases List.mem_filterMap.1 hother with ⟨j, hj, hjinfo⟩
      rw [nodeId_of_peerInfo hjinfo, nodeId_of_peerInfo hinfo] at heq
      rw [heq] at hj
      exact hnodup.1 hj

/-- Peer ids in a snapshot are pairwise distinct. -/
theorem snapshot_nodup (o : IterationOrder NodeId) (m : ClusterViewManager) :
    ((m.snapshot o).peers.map PeerInfo.nodeId).Nodup :=
  m.filterMap_peerInfo_nodup (o.nodup_order (AList.keys_nodup m.peers))

/-- Exactly one entry of a snapshot carries the id of a listed peer, and it is
the record that `peerInfo` returns for that id. -/
theorem filter_snapshot {o : IterationOrder NodeId} {m : ClusterViewManager}
    (h : info ∈ (m.snapshot o).peers) :
    (m.snapshot o).peers.filter (fun p => p.reachable && p.nodeId = info.nodeId) = [info] ∧
      m.peerInfo info.nodeId = some info := by
  have hinfo := mem_snapshot_iff.1 h
  refine ⟨?_, hinfo⟩
  have hnodup : (m.snapshot o).peers.Nodup := (m.snapshot_nodup o).of_map
  refine List.perm_singleton.1 ?_
  refine (List.perm_ext_iff_of_nodup (hnodup.filter _) (List.nodup_singleton info)).2 ?_
  intro p
  rw [List.mem_filter, List.mem_singleton]
  constructor
  · intro hp
    have hid : p.nodeId = info.nodeId := by simpa using (Bool.and_eq_true_iff.1 hp.2).2
    have hpinfo := mem_snapshot_iff.1 hp.1
    rw [hid, hinfo] at hpinfo
    exact (Option.some.inj hpinfo).symm
  · intro hp
    subst hp
    exact ⟨h, by simp [(peerInfo_eq_some_iff.1 hinfo).2]⟩

end ClusterViewManager

end EdgeOrchestrator
