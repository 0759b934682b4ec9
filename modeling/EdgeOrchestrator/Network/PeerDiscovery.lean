import EdgeOrchestrator.Library.StateMachine
import EdgeOrchestrator.Network.Advert
import EdgeOrchestrator.Network.ClusterView

/-!
# Peer discovery

`PeerDiscovery` keeps the peers it has heard from in `known_peers_`.  The listen
thread inserts and refreshes entries under a lock and announces a new peer after
releasing it; the eviction thread erases silent peers under the same lock and
announces their loss after releasing it.  The orchestrator's callbacks copy the
announcements into the `ClusterViewManager`.

The two stores agree once every announcement has been delivered, provided that
the announcements about one peer are delivered in the order of the lock sections
they come from.  Nothing in the code makes them so.

Main results:

- `view_agrees_of_inOrder`: along in-order runs the stores agree in every state without
  undelivered announcements.
- `disagrees_of_outOfOrder`: an out-of-order delivery leads to a state without undelivered
  announcements in which they do not.
- `ignoresOwnAdverts_iff`: a node recognises its own broadcasts exactly when its id fits into
  the packet unchanged.
-/

namespace EdgeOrchestrator

namespace PeerDiscovery

/-! ## Known peers -/

/-- Constructor arguments, and the byte order of the host. -/
structure Config where
  nodeId : NodeId
  peerTimeoutMs : BitVec 32
  byteOrder : ByteOrder
deriving DecidableEq, Repr

/-- An entry of `known_peers_`; times are nanoseconds of the steady clock. -/
structure PeerRecord where
  info : PeerInfo
  lastSeen : Nat
deriving DecidableEq, Repr

/-- The map `known_peers_`: a record is stored under the id of its peer. -/
structure KnownPeers where
  records : UnorderedMap NodeId PeerRecord
  keyed : ∀ id record, records.lookup id = some record → record.info.nodeId = id

namespace KnownPeers

/-- Nobody is known. -/
def empty : KnownPeers where
  records := ∅
  keyed := by simp

/-- A record under the id of its peer. -/
def store (known : KnownPeers) (peer : PeerInfo) (now : Nat) : KnownPeers where
  records := known.records.insert peer.nodeId ⟨peer, now⟩
  keyed := by
    intro id record hrecord
    rw [UnorderedMap.lookup_insert_eq] at hrecord
    split at hrecord
    · rename_i hid
      cases hrecord
      exact hid.symm
    · exact known.keyed id record hrecord

/-- The record of a known peer is replaced. -/
def refresh (known : KnownPeers) (peer : PeerInfo) (now : Nat) : KnownPeers where
  records := UnorderedMap.modify known.records peer.nodeId fun _ => ⟨peer, now⟩
  keyed := by
    intro id record hrecord
    rw [UnorderedMap.lookup_modify] at hrecord
    split at hrecord
    · rename_i hid
      rcases Option.map_eq_some_iff.1 hrecord with ⟨_, -, rfl⟩
      exact hid.symm
    · exact known.keyed id record hrecord

/-- A peer is forgotten. -/
def erase (known : KnownPeers) (id : NodeId) : KnownPeers where
  records := known.records.erase id
  keyed := by
    intro j record hrecord
    rw [UnorderedMap.lookup_erase_eq] at hrecord
    split at hrecord
    · cases hrecord
    · exact known.keyed j record hrecord

end KnownPeers

/-! ## The listen loop -/

/-- The checks of `listen_loop` up to its lock section: the packet must be valid
and not our own. -/
def accept (cfg : Config) (datagram : List UInt8) (senderIp : ByteString) (now : Timestamp) :
    Option PeerInfo :=
  match Advert.receive cfg.byteOrder datagram with
  | none => none
  | some pkt =>
    let peer := Advert.parseAdvert cfg.byteOrder pkt senderIp now
    if peer.nodeId = cfg.nodeId then none else some peer

/-- The lock section of `listen_loop`; the flag is `is_new`. -/
def recordAdvert (known : KnownPeers) (peer : PeerInfo) (now : Nat) : KnownPeers × Bool :=
  match known.records.lookup peer.nodeId with
  | none => (known.store peer now, true)
  | some _ => (known.refresh peer now, false)

theorem accept_reachable {cfg : Config} {datagram : List UInt8} {senderIp : ByteString}
    {now : Timestamp} {peer : PeerInfo} (h : accept cfg datagram senderIp now = some peer) :
    peer.reachable = true := by
  unfold accept at h
  split at h
  · cases h
  · simp only at h
    split at h
    · cases h
    · cases h
      rfl

/-- Either branch leaves the advert on record. -/
theorem lookup_recordAdvert (known : KnownPeers) (peer : PeerInfo) (now : Nat) (id : NodeId) :
    (recordAdvert known peer now).1.records.lookup id =
      if id = peer.nodeId then some ⟨peer, now⟩ else known.records.lookup id := by
  unfold recordAdvert
  cases hlookup : known.records.lookup peer.nodeId with
  | none => exact UnorderedMap.lookup_insert_eq _ _ _ _
  | some record =>
    simp only [KnownPeers.refresh, UnorderedMap.lookup_modify]
    split
    · rename_i hid
      rw [hid, hlookup]
      rfl
    · rfl

theorem mem_recordAdvert {known : KnownPeers} {peer : PeerInfo} {now : Nat} {id : NodeId} :
    id ∈ (recordAdvert known peer now).1.records ↔ id = peer.nodeId ∨ id ∈ known.records := by
  rw [UnorderedMap.mem_iff_lookup, UnorderedMap.mem_iff_lookup, lookup_recordAdvert]
  by_cases h : id = peer.nodeId
  · simp [h]
  · simp [h]

/-- The flag says that the peer was not known. -/
theorem recordAdvert_isNew {known : KnownPeers} {peer : PeerInfo} {now : Nat} :
    (recordAdvert known peer now).2 = true ↔ peer.nodeId ∉ known.records := by
  unfold recordAdvert
  cases hlookup : known.records.lookup peer.nodeId with
  | none => simpa using AList.lookup_eq_none.1 hlookup
  | some record =>
    have hmem : peer.nodeId ∈ known.records := UnorderedMap.mem_iff_lookup.2 ⟨record, hlookup⟩
    simp [hmem]

/-! ## The eviction pass -/

/-- `(now - last_seen) > timeout`, with the timeout in milliseconds. -/
def expired (cfg : Config) (now : Nat) (record : PeerRecord) : Bool :=
  ((cfg.peerTimeoutMs.toNat * 1000000 : Nat) : Int) < (now : Int) - (record.lastSeen : Int)

/-- One iteration of the scan. -/
def evictStep (cfg : Config) (now : Nat) (acc : KnownPeers × List PeerInfo) (id : NodeId) :
    KnownPeers × List PeerInfo :=
  match acc.1.records.lookup id with
  | none => acc
  | some record =>
    if expired cfg now record then (acc.1.erase id, acc.2 ++ [record.info]) else acc

/-- The lock section of `eviction_loop`: what is left, and what was evicted. -/
def evictExpired (cfg : Config) (now : Nat) (order : IterationOrder NodeId)
    (known : KnownPeers) : KnownPeers × List PeerInfo :=
  (order.order known.records.keys).foldl (evictStep cfg now) (known, [])

section Eviction

variable {cfg : Config} {now : Nat}

/-- The announcement the scan makes for an id, if any. -/
def evictedInfo (cfg : Config) (now : Nat) (known : KnownPeers) (id : NodeId) : Option PeerInfo :=
  ((known.records.lookup id).filter (expired cfg now)).map PeerRecord.info

theorem evictStep_lookup (acc : KnownPeers × List PeerInfo) (id j : NodeId) :
    (evictStep cfg now acc id).1.records.lookup j =
      if j = id then (acc.1.records.lookup j).filter (fun record => !expired cfg now record)
      else acc.1.records.lookup j := by
  unfold evictStep
  cases hlookup : acc.1.records.lookup id with
  | none =>
    by_cases hj : j = id
    · subst hj
      simp [hlookup]
    · simp [hj]
  | some record =>
    by_cases hexpired : expired cfg now record = true
    · simp only [hexpired, if_true, KnownPeers.erase, UnorderedMap.lookup_erase_eq]
      by_cases hj : j = id
      · subst hj
        simp [hlookup, Option.filter, hexpired]
      · simp [hj]
    · simp only [hexpired, Bool.false_eq_true, if_false]
      by_cases hj : j = id
      · subst hj
        simp [hlookup, Option.filter, hexpired]
      · simp [hj]

theorem evictStep_evicted (acc : KnownPeers × List PeerInfo) (id : NodeId) :
    (evictStep cfg now acc id).2 = acc.2 ++ (evictedInfo cfg now acc.1 id).toList := by
  unfold evictStep evictedInfo
  cases acc.1.records.lookup id with
  | none => simp
  | some record =>
    by_cases hexpired : expired cfg now record = true
    · simp [Option.filter, hexpired]
    · simp [Option.filter, hexpired]

/-- The whole scan, over any list of distinct ids. -/
theorem foldl_evictStep {ids : List NodeId} (hnodup : ids.Nodup)
    (acc : KnownPeers × List PeerInfo) :
    (∀ j, (ids.foldl (evictStep cfg now) acc).1.records.lookup j =
      if j ∈ ids then (acc.1.records.lookup j).filter (fun record => !expired cfg now record)
      else acc.1.records.lookup j) ∧
    (ids.foldl (evictStep cfg now) acc).2 =
      acc.2 ++ ids.filterMap (evictedInfo cfg now acc.1) := by
  induction ids generalizing acc with
  | nil => simp
  | cons id ids ih =>
    rw [List.nodup_cons] at hnodup
    rcases ih hnodup.2 (evictStep cfg now acc id) with ⟨hleft, hout⟩
    have hlater : ∀ j ∈ ids, (evictStep cfg now acc id).1.records.lookup j =
        acc.1.records.lookup j := by
      intro j hj
      have hne : j ≠ id := by
        intro h
        rw [h] at hj
        exact hnodup.1 hj
      rw [evictStep_lookup, if_neg hne]
    constructor
    · intro j
      rw [List.foldl_cons, hleft]
      by_cases hj : j ∈ ids
      · rw [if_pos hj, if_pos (List.mem_cons_of_mem _ hj), hlater j hj]
      · rw [if_neg hj, evictStep_lookup]
        by_cases hid : j = id
        · simp [hid]
        · simp [hid, hj]
    · have hsame : ids.filterMap (evictedInfo cfg now (evictStep cfg now acc id).1) =
          ids.filterMap (evictedInfo cfg now acc.1) := by
        apply List.filterMap_congr
        intro j hj
        rw [evictedInfo, evictedInfo, hlater j hj]
      rw [List.foldl_cons, hout, evictStep_evicted, hsame, List.append_assoc]
      congr 1
      cases hinfo : evictedInfo cfg now acc.1 id with
      | none | some info => simp [hinfo]

variable (order : IterationOrder NodeId)

/-- An eviction pass keeps exactly the records that have not expired. -/
theorem lookup_evictExpired (known : KnownPeers) (id : NodeId) :
    (evictExpired cfg now order known).1.records.lookup id =
      (known.records.lookup id).filter fun record => !expired cfg now record := by
  have hscan := (@foldl_evictStep cfg now _
    (order.nodup_order (AList.keys_nodup known.records)) (known, [])).1 id
  rw [evictExpired, hscan]
  split
  · rfl
  · rename_i hmem
    rw [IterationOrder.mem_order, ← AList.mem_keys, ← AList.lookup_eq_none] at hmem
    simp [hmem]

theorem evicted_eq (known : KnownPeers) :
    (evictExpired cfg now order known).2 =
      (order.order known.records.keys).filterMap (evictedInfo cfg now known) := by
  have hscan := (@foldl_evictStep cfg now _
    (order.nodup_order (AList.keys_nodup known.records)) (known, [])).2
  simpa [evictExpired] using hscan

theorem nodeId_of_evictedInfo {known : KnownPeers} {id : NodeId} {info : PeerInfo}
    (h : evictedInfo cfg now known id = some info) : info.nodeId = id := by
  rcases Option.map_eq_some_iff.1 h with ⟨record, hrecord, rfl⟩
  exact known.keyed id record (Option.filter_eq_some_iff.1 hrecord).1

/-- An id is announced as lost exactly when its record had expired. -/
theorem mem_evicted_iff {order : IterationOrder NodeId} {known : KnownPeers} {id : NodeId} :
    id ∈ (evictExpired cfg now order known).2.map PeerInfo.nodeId ↔
      ∃ record, known.records.lookup id = some record ∧ expired cfg now record = true := by
  rw [evicted_eq, List.mem_map]
  constructor
  · rintro ⟨info, hinfo, rfl⟩
    rcases List.mem_filterMap.1 hinfo with ⟨j, -, hj⟩
    have hid := nodeId_of_evictedInfo hj
    rcases Option.map_eq_some_iff.1 hj with ⟨record, hrecord, -⟩
    rw [hid]
    exact ⟨record, Option.filter_eq_some_iff.1 hrecord⟩
  · rintro ⟨record, hlookup, hexpired⟩
    have hinfo : evictedInfo cfg now known id = some record.info := by
      rw [evictedInfo, hlookup]
      simp [Option.filter, hexpired]
    refine ⟨record.info, List.mem_filterMap.2 ⟨id, ?_, hinfo⟩, known.keyed id record hlookup⟩
    rw [IterationOrder.mem_order, ← AList.mem_keys]
    exact UnorderedMap.mem_iff_lookup.2 ⟨record, hlookup⟩

/-- No id is announced twice by one pass. -/
theorem evicted_nodup (known : KnownPeers) :
    ((evictExpired cfg now order known).2.map PeerInfo.nodeId).Nodup := by
  rw [evicted_eq, List.map_filterMap]
  have hnodup := order.nodup_order (AList.keys_nodup known.records)
  apply hnodup.filterMap
  intro i j id hi hj
  rcases Option.map_eq_some_iff.1 hi with ⟨a, ha, rfl⟩
  rcases Option.map_eq_some_iff.1 hj with ⟨b, hb, hab⟩
  rw [← nodeId_of_evictedInfo ha, ← nodeId_of_evictedInfo hb]
  exact hab.symm

theorem mem_evictExpired_iff {order : IterationOrder NodeId} {known : KnownPeers}
    {id : NodeId} :
    id ∈ (evictExpired cfg now order known).1.records ↔
      id ∈ known.records ∧ id ∉ (evictExpired cfg now order known).2.map PeerInfo.nodeId := by
  rw [mem_evicted_iff, UnorderedMap.mem_iff_lookup, UnorderedMap.mem_iff_lookup,
    lookup_evictExpired]
  cases known.records.lookup id with
  | none | some record => simp

end Eviction

/-! ## The two threads -/

/-- The orchestrator's callbacks. -/
def onDiscovered (view : ClusterViewManager) (peer : PeerInfo) : ClusterViewManager :=
  view.updatePeer peer

/-- The orchestrator's callback for a lost peer. -/
def onLost (view : ClusterViewManager) (peer : PeerInfo) : ClusterViewManager :=
  view.removePeer peer.nodeId

/-- The listen thread polls its socket or has a new peer to announce. -/
inductive ListenPhase where
  | receiving
  | notifying (peer : PeerInfo)
deriving DecidableEq, Repr

/-- The eviction thread sleeps, has read the clock, or has losses to announce. -/
inductive EvictPhase where
  | sleeping
  | scanning (now : Nat)
  | notifying (evicted : List PeerInfo)
deriving DecidableEq, Repr

/-- The two stores and the threads between them. -/
structure Node where
  clock : Nat
  known : KnownPeers
  view : ClusterViewManager
  listener : ListenPhase
  evictor : EvictPhase

/-- Steps of the threads; the environment chooses datagrams, the traversal order
of the map and how time passes. -/
inductive Label where
  | tick (elapsed : Nat)
  | receive (datagram : List UInt8) (senderIp : ByteString) (now : Timestamp)
  | deliverDiscovered
  | wake
  | scan (order : IterationOrder NodeId)
  | deliverLost
  | sleep

variable (s : Node)

/-- The lock section of the listen thread. -/
def Node.hear (peer : PeerInfo) : Node :=
  let recorded := recordAdvert s.known peer s.clock
  { s with
    known := recorded.1
    listener := if recorded.2 then .notifying peer else .receiving }

/-- The lock section of the eviction thread. -/
def Node.evict (cfg : Config) (s : Node) (now : Nat) (order : IterationOrder NodeId) : Node :=
  let scanned := evictExpired cfg now order s.known
  { s with known := scanned.1, evictor := .notifying scanned.2 }

/-- The next step of one of the threads. -/
def step (cfg : Config) (s : Node) : Label → Option Node
  | .tick elapsed => some { s with clock := s.clock + elapsed }
  | .receive datagram senderIp now =>
    match s.listener with
    | .notifying _ => none
    | .receiving =>
      match accept cfg datagram senderIp now with
      | none => some s
      | some peer => some (s.hear peer)
  | .deliverDiscovered =>
    match s.listener with
    | .receiving => none
    | .notifying peer =>
      some { s with view := onDiscovered s.view peer, listener := .receiving }
  | .wake =>
    match s.evictor with
    | .sleeping => some { s with evictor := .scanning s.clock }
    | _ => none
  | .scan order =>
    match s.evictor with
    | .scanning now => some (s.evict cfg now order)
    | _ => none
  | .deliverLost =>
    match s.evictor with
    | .notifying (peer :: rest) =>
      some { s with view := onLost s.view peer, evictor := .notifying rest }
    | _ => none
  | .sleep =>
    match s.evictor with
    | .notifying [] => some { s with evictor := .sleeping }
    | _ => none

/-- Both stores start empty. -/
def started : Node where
  clock := 0
  known := .empty
  view := .empty
  listener := .receiving
  evictor := .sleeping

/-- All interleavings of one node. -/
def machine (cfg : Config) : StateMachine Node Label where
  initial := started
  step := step cfg

/-! ## Undelivered announcements -/

/-- The id whose discovery is still to be announced. -/
def Node.pendingDiscovered : Option NodeId :=
  match s.listener with
  | .receiving => none
  | .notifying peer => some peer.nodeId

/-- The ids whose loss is still to be announced. -/
def Node.pendingLost : List NodeId :=
  match s.evictor with
  | .notifying evicted => evicted.map PeerInfo.nodeId
  | _ => []

/-- No announcement is undelivered. -/
def Quiescent : Prop :=
  s.pendingDiscovered = none ∧ s.pendingLost = []

instance (s : Node) : Decidable (Quiescent s) :=
  inferInstanceAs (Decidable (_ ∧ _))

/-- The two stores hold the same ids. -/
def Agrees : Prop :=
  ∀ id, id ∈ s.view.peers ↔ id ∈ s.known.records

/-- The step delivers no announcement ahead of an earlier one about the same
peer.  When both announcements about a peer are undelivered, the peer is known
if its discovery came last and unknown if its loss did. -/
def InOrder : Label → Prop
  | .deliverDiscovered =>
    ∀ id ∈ s.pendingDiscovered, id ∈ s.pendingLost → id ∉ s.known.records
  | .deliverLost =>
    ∀ id ∈ s.pendingLost.head?, s.pendingDiscovered = some id → id ∈ s.known.records
  | _ => True

instance (s : Node) : DecidablePred (InOrder s)
  | .deliverDiscovered =>
    inferInstanceAs
      (Decidable (∀ id ∈ s.pendingDiscovered, id ∈ s.pendingLost → id ∉ s.known.records))
  | .deliverLost =>
    inferInstanceAs
      (Decidable (∀ id ∈ s.pendingLost.head?,
        s.pendingDiscovered = some id → id ∈ s.known.records))
  | .tick _ => isTrue trivial
  | .receive _ _ _ => isTrue trivial
  | .wake => isTrue trivial
  | .scan _ => isTrue trivial
  | .sleep => isTrue trivial

/-- How the stores and the undelivered announcements about a peer are related. -/
structure MembershipInv (s : Node) : Prop where
  settled : ∀ id, s.pendingDiscovered ≠ some id → id ∉ s.pendingLost →
    (id ∈ s.view.peers ↔ id ∈ s.known.records)
  discovered : ∀ id, s.pendingDiscovered = some id → id ∉ s.pendingLost →
    id ∈ s.known.records
  lost : ∀ id, s.pendingDiscovered ≠ some id → id ∈ s.pendingLost →
    id ∉ s.known.records
  lost_nodup : s.pendingLost.Nodup

theorem started_membershipInv : MembershipInv started where
  settled := by simp [started, ClusterViewManager.empty, KnownPeers.empty]
  discovered := by simp [started, Node.pendingDiscovered]
  lost := by simp [started, Node.pendingLost]
  lost_nodup := by simp [started, Node.pendingLost]

/-- What the invariant looks at. -/
theorem MembershipInv.congr {s t : Node} (hinv : MembershipInv s)
    (hdiscovered : t.pendingDiscovered = s.pendingDiscovered)
    (hlost : t.pendingLost = s.pendingLost) (hview : t.view = s.view)
    (hknown : t.known = s.known) : MembershipInv t where
  settled := by
    rw [hdiscovered, hlost, hview, hknown]
    exact hinv.settled
  discovered := by
    rw [hdiscovered, hlost, hknown]
    exact hinv.discovered
  lost := by
    rw [hdiscovered, hlost, hknown]
    exact hinv.lost
  lost_nodup := by
    rw [hlost]
    exact hinv.lost_nodup

theorem mem_onDiscovered {view : ClusterViewManager} {peer : PeerInfo} {id : NodeId} :
    id ∈ (onDiscovered view peer).peers ↔ id = peer.nodeId ∨ id ∈ view.peers :=
  AList.mem_insert _

theorem mem_onLost {view : ClusterViewManager} {peer : PeerInfo} {id : NodeId} :
    id ∈ (onLost view peer).peers ↔ id ≠ peer.nodeId ∧ id ∈ view.peers :=
  AList.mem_erase

section Steps

variable {s : Node}

theorem pendingDiscovered_hear (peer : PeerInfo) :
    (s.hear peer).pendingDiscovered =
      if peer.nodeId ∈ s.known.records then none else some peer.nodeId := by
  have hnew := @recordAdvert_isNew s.known peer s.clock
  simp only [Node.hear, Node.pendingDiscovered]
  by_cases hmem : peer.nodeId ∈ s.known.records
  · have hflag : (recordAdvert s.known peer s.clock).2 = false := by
      rw [Bool.eq_false_iff]
      intro h
      exact hnew.1 h hmem
    simp [hmem, hflag]
  · simp [hmem, hnew.2 hmem]

/-- Hearing an advert keeps the invariant. -/
theorem MembershipInv.hear (hinv : MembershipInv s) (hlistener : s.listener = .receiving)
    (peer : PeerInfo) : MembershipInv (s.hear peer) := by
  have hnone : s.pendingDiscovered = none := by
    rw [Node.pendingDiscovered, hlistener]
  have hpending := pendingDiscovered_hear (s := s) peer
  have hmem : ∀ id, id ∈ (s.hear peer).known.records ↔
      id = peer.nodeId ∨ id ∈ s.known.records := fun id => mem_recordAdvert
  constructor
  · intro id hdiscovered hlost
    rw [hmem]
    have hold := hinv.settled id (by simp [hnone]) hlost
    by_cases hid : id = peer.nodeId
    · by_cases hknown : peer.nodeId ∈ s.known.records
      · subst hid
        simp only [true_or, iff_true]
        exact hold.2 hknown
      · rw [hpending, if_neg hknown, hid] at hdiscovered
        exact absurd rfl hdiscovered
    · simp only [hid, false_or]
      exact hold
  · intro id hdiscovered _
    rw [hpending] at hdiscovered
    split at hdiscovered
    · cases hdiscovered
    · cases hdiscovered
      exact (hmem _).2 (Or.inl rfl)
  · intro id hdiscovered hlost
    rw [hmem]
    have hunknown : id ∉ s.known.records := hinv.lost id (by simp [hnone]) hlost
    rintro (hid | hknown)
    · rw [hpending, if_neg (by rw [← hid]; exact hunknown), hid] at hdiscovered
      exact hdiscovered rfl
    · exact hunknown hknown
  · exact hinv.lost_nodup

/-- An eviction pass keeps the invariant. -/
theorem MembershipInv.evict {cfg : Config} {now : Nat} {order : IterationOrder NodeId}
    (hinv : MembershipInv s) (hevictor : s.evictor = .scanning now) :
    MembershipInv (s.evict cfg now order) := by
  have hnone : s.pendingLost = [] := by
    rw [Node.pendingLost, hevictor]
  have hmem : ∀ id, id ∈ (s.evict cfg now order).known.records ↔
      id ∈ s.known.records ∧ id ∉ (s.evict cfg now order).pendingLost :=
    fun id => mem_evictExpired_iff
  constructor
  · intro id hdiscovered hlost
    rw [hmem, and_iff_left hlost]
    exact hinv.settled id hdiscovered (by simp [hnone])
  · intro id hdiscovered hlost
    rw [hmem]
    exact ⟨hinv.discovered id hdiscovered (by simp [hnone]), hlost⟩
  · intro id _ hlost hknown
    exact ((hmem id).1 hknown).2 hlost
  · exact evicted_nodup order s.known

/-- Announcing a discovery in order keeps the invariant. -/
theorem MembershipInv.deliverDiscovered {peer : PeerInfo} (hinv : MembershipInv s)
    (hlistener : s.listener = .notifying peer) (hordered : InOrder s .deliverDiscovered) :
    MembershipInv { s with view := onDiscovered s.view peer, listener := .receiving } := by
  have hsome : s.pendingDiscovered = some peer.nodeId := by
    rw [Node.pendingDiscovered, hlistener]
  constructor
  · intro id _ hlost
    rw [mem_onDiscovered]
    by_cases hid : id = peer.nodeId
    · subst hid
      simp only [true_or, true_iff]
      exact hinv.discovered _ hsome hlost
    · have hne : s.pendingDiscovered ≠ some id := by
        rw [hsome]
        intro h
        exact hid (Option.some.inj h).symm
      simp only [hid, false_or]
      exact hinv.settled id hne hlost
  · intro id hdiscovered
    cases hdiscovered
  · intro id _ hlost
    by_cases hid : id = peer.nodeId
    · rw [hid] at hlost ⊢
      exact hordered _ hsome hlost
    · have hne : s.pendingDiscovered ≠ some id := by
        rw [hsome]
        intro h
        exact hid (Option.some.inj h).symm
      exact hinv.lost id hne hlost
  · exact hinv.lost_nodup

/-- Announcing a loss in order keeps the invariant. -/
theorem MembershipInv.deliverLost {peer : PeerInfo} {rest : List PeerInfo}
    (hinv : MembershipInv s) (hevictor : s.evictor = .notifying (peer :: rest))
    (hordered : InOrder s .deliverLost) :
    MembershipInv { s with view := onLost s.view peer, evictor := .notifying rest } := by
  have hpending : s.pendingLost = peer.nodeId :: rest.map PeerInfo.nodeId := by
    rw [Node.pendingLost, hevictor]
    rfl
  have hnodup := hinv.lost_nodup
  rw [hpending, List.nodup_cons] at hnodup
  have hmem : peer.nodeId ∈ s.pendingLost := by
    rw [hpending]
    exact List.mem_cons_self
  constructor
  · intro id hdiscovered hlost
    rw [mem_onLost]
    by_cases hid : id = peer.nodeId
    · subst hid
      simp only [ne_eq, not_true, false_and, false_iff]
      exact hinv.lost _ hdiscovered hmem
    · rw [ne_eq, and_iff_right hid]
      refine hinv.settled id hdiscovered ?_
      rw [hpending, List.mem_cons, not_or]
      exact ⟨hid, hlost⟩
  · intro id hdiscovered hlost
    by_cases hid : id = peer.nodeId
    · rw [hid] at hdiscovered ⊢
      exact hordered _ (by rw [hpending]; rfl) hdiscovered
    · refine hinv.discovered id hdiscovered ?_
      rw [hpending, List.mem_cons, not_or]
      exact ⟨hid, hlost⟩
  · intro id hdiscovered hlost
    refine hinv.lost id hdiscovered ?_
    rw [hpending]
    exact List.mem_cons_of_mem _ hlost
  · exact hnodup.2

end Steps

/-- A step that delivers nothing out of order keeps the invariant. -/
theorem MembershipInv.step {cfg : Config} {s t : Node} {label : Label}
    (hinv : MembershipInv s) (hordered : InOrder s label)
    (hstep : step cfg s label = some t) : MembershipInv t := by
  cases label with
  | tick elapsed =>
    cases hstep
    exact hinv.congr rfl rfl rfl rfl
  | receive datagram senderIp now =>
    simp only [PeerDiscovery.step] at hstep
    split at hstep
    · cases hstep
    · rename_i hlistener
      split at hstep
      · cases hstep
        exact hinv
      · cases hstep
        exact hinv.hear hlistener _
  | deliverDiscovered =>
    simp only [PeerDiscovery.step] at hstep
    split at hstep
    · cases hstep
    · rename_i peer hlistener
      cases hstep
      exact hinv.deliverDiscovered hlistener hordered
  | wake | sleep =>
    simp only [PeerDiscovery.step] at hstep
    split at hstep
    · rename_i hevictor
      cases hstep
      refine hinv.congr rfl ?_ rfl rfl
      simp [Node.pendingLost, hevictor]
    · cases hstep
  | scan order =>
    simp only [PeerDiscovery.step] at hstep
    split at hstep
    · rename_i now hevictor
      cases hstep
      exact hinv.evict hevictor
    · cases hstep
  | deliverLost =>
    simp only [PeerDiscovery.step] at hstep
    split at hstep
    · rename_i peer rest hevictor
      cases hstep
      exact hinv.deliverLost hevictor hordered
    · cases hstep

theorem reachableUnder_membershipInv {cfg : Config} {s : Node}
    (hreach : (machine cfg).ReachableUnder InOrder s) : MembershipInv s := by
  apply hreach.invariant started_membershipInv
  intro s label t hinv hordered hstep
  exact hinv.step hordered hstep

/-- Membership agreement along in-order runs: in every state without undelivered
announcements the cluster view holds exactly the known peers. -/
theorem view_agrees_of_inOrder {cfg : Config} {s : Node}
    (hreach : (machine cfg).ReachableUnder InOrder s) (hquiet : Quiescent s) : Agrees s := by
  have hinv := reachableUnder_membershipInv hreach
  intro id
  apply hinv.settled id
  · rw [hquiet.1]
    simp
  · rw [hquiet.2]
    simp

/-! ## A race between the threads -/

/-- A node with the documented timeout of six seconds. -/
def raceConfig : Config where
  nodeId := [0x61]
  peerTimeoutMs := 6000
  byteOrder := .little

/-- The packet of a node with id `p` on TCP port 5201 that reports 1 GiB free of
2 GiB. -/
def racePacket : List UInt8 :=
  [0x45, 0x4F, 0x52, 0x43, 2, 0, 0, 0] ++ (0x70 :: List.replicate 31 0) ++
    [0x14, 0x51, 0, 0] ++ [0, 0, 0, 0] ++ [0, 0, 0, 0, 0x40, 0, 0, 0] ++
    [0, 0, 0, 0, 0x80, 0, 0, 0] ++ [0, 0, 0, 0] ++ [0, 0, 0, 0]

/-- The packet is heard and announced; seven seconds of silence later the
eviction thread erases the peer. -/
def evictionPrefix : List Label :=
  [.receive racePacket [] 0, .deliverDiscovered, .tick 7000000000, .wake,
    .scan (IterationOrder.insertion NodeId)]

/-- The next packet is heard and announced before the loss is. -/
def raceRun : List Label :=
  evictionPrefix ++ [.receive racePacket [] 0, .deliverDiscovered, .deliverLost]

/-- The loss is announced before the next packet is heard. -/
def orderedRun : List Label :=
  evictionPrefix ++ [.deliverLost, .receive racePacket [] 0, .deliverDiscovered]

/-- The node after a run. -/
def endOf (labels : List Label) : Node :=
  ((machine raceConfig).run started labels).getD started

/-- The peer is known and alive, but missing from the cluster view. -/
theorem peer_missing_from_view :
    (machine raceConfig).Reachable (endOf raceRun) ∧ Quiescent (endOf raceRun) ∧
      (endOf raceRun).view.peers.keys = [] ∧
      (endOf raceRun).known.records.keys = [[0x70]] ∧ ¬ Agrees (endOf raceRun) := by
  have hrun : (machine raceConfig).run (machine raceConfig).initial raceRun =
      some (endOf raceRun) := by
    rfl
  have hview : (endOf raceRun).view.peers.keys = [] := by
    decide
  have hknown : (endOf raceRun).known.records.keys = [[0x70]] := by
    decide
  refine ⟨StateMachine.reachable_iff_run.2 ⟨_, hrun⟩, by decide, hview, hknown, ?_⟩
  intro hagrees
  have hmem : ([0x70] : NodeId) ∈ (endOf raceRun).known.records := by
    rw [AList.mem_keys, hknown]
    simp
  have hmissing := (hagrees [0x70]).2 hmem
  rw [AList.mem_keys, hview] at hmissing
  cases hmissing

/-- Announced in order, the same packets leave the peer in both stores. -/
theorem view_agrees_orderedRun :
    Quiescent (endOf orderedRun) ∧ (endOf orderedRun).known.records.keys = [[0x70]] ∧
      Agrees (endOf orderedRun) := by
  have hrun : (machine raceConfig).run (machine raceConfig).initial orderedRun =
      some (endOf orderedRun) := by
    rfl
  have hordered : (machine raceConfig).Along (fun s label _ => InOrder s label)
      (machine raceConfig).initial orderedRun := by
    decide
  have hquiet : Quiescent (endOf orderedRun) := by
    decide
  refine ⟨hquiet, by decide, ?_⟩
  exact view_agrees_of_inOrder (StateMachine.ReachableUnder.initial.run hordered hrun) hquiet

/-! ## Out-of-order delivery -/

theorem mem_foldl_onLost {view : ClusterViewManager} {evicted : List PeerInfo} {id : NodeId} :
    id ∈ (evicted.foldl onLost view).peers ↔
      id ∉ evicted.map PeerInfo.nodeId ∧ id ∈ view.peers := by
  induction evicted generalizing view with
  | nil => simp
  | cons peer rest ih =>
    rw [List.foldl_cons, ih, mem_onLost, List.map_cons, List.mem_cons, not_or]
    tauto

variable (cfg : Config)

theorem step_deliverLost {s : Node} {peer : PeerInfo} {rest : List PeerInfo}
    (hevictor : s.evictor = .notifying (peer :: rest)) :
    step cfg s .deliverLost =
      some { s with view := onLost s.view peer, evictor := .notifying rest } := by
  simp only [step, hevictor]

/-- Delivering every announced loss in turn. -/
theorem run_deliverLost {s : Node} {evicted : List PeerInfo}
    (hevictor : s.evictor = .notifying evicted) :
    (machine cfg).run s (List.replicate evicted.length .deliverLost) =
      some { s with view := evicted.foldl onLost s.view, evictor := .notifying [] } := by
  induction evicted generalizing s with
  | nil =>
    rw [← hevictor]
    rfl
  | cons peer rest ih =>
    have hstep : (machine cfg).step s .deliverLost =
        some { s with view := onLost s.view peer, evictor := .notifying rest } :=
      step_deliverLost cfg hevictor
    rw [List.length_cons, List.replicate_succ, StateMachine.run_cons, hstep]
    exact ih rfl

/-- Whenever a step delivers an announcement ahead of an earlier one about the
same peer, delivering the remaining announcements ends in a state without
undelivered announcements in which the two stores disagree. -/
theorem disagrees_of_outOfOrder {cfg : Config} {s t : Node} {label : Label}
    (hstep : step cfg s label = some t) (hordered : ¬ InOrder s label) :
    ∃ labels u, (machine cfg).run t labels = some u ∧ Quiescent u ∧ ¬ Agrees u := by
  cases label with
  | deliverDiscovered =>
    simp only [InOrder, not_forall, not_not] at hordered
    rcases hordered with ⟨id, hdiscovered, hlost, hknown⟩
    simp only [step] at hstep
    split at hstep
    · cases hstep
    · rename_i peer hlistener
      cases hstep
      cases hevictor : s.evictor with
      | sleeping | scanning now => simp [Node.pendingLost, hevictor] at hlost
      | notifying evicted =>
        -- The late loss removes the peer that has been heard again.
        refine ⟨_, _, run_deliverLost cfg rfl, ⟨rfl, rfl⟩, ?_⟩
        intro hagrees
        have hview := (hagrees id).2 hknown
        rw [mem_foldl_onLost] at hview
        rw [Node.pendingLost, hevictor] at hlost
        exact hview.1 hlost
  | deliverLost =>
    simp only [InOrder, not_forall] at hordered
    rcases hordered with ⟨id, hlost, hdiscovered, hknown⟩
    simp only [step] at hstep
    split at hstep
    · rename_i peer rest hevictor
      cases hstep
      cases hlistener : s.listener with
      | receiving => simp [Node.pendingDiscovered, hlistener] at hdiscovered
      | notifying found =>
        have hid : found.nodeId = id := by
          simpa [Node.pendingDiscovered, hlistener] using hdiscovered
        -- The late discovery adds the peer that has been evicted.
        refine ⟨List.replicate rest.length .deliverLost ++ [.deliverDiscovered],
          { s with
            view := onDiscovered (rest.foldl onLost (onLost s.view peer)) found
            evictor := .notifying []
            listener := .receiving }, ?_, ⟨rfl, rfl⟩, ?_⟩
        · apply StateMachine.run_trans _ (run_deliverLost cfg rfl)
          apply StateMachine.run_single
          simp only [machine, step]
        · intro hagrees
          exact hknown ((hagrees id).1 (mem_onDiscovered.2 (Or.inl hid.symm)))
    · cases hstep
  | _ => exact absurd trivial hordered

/-! ## Our own broadcasts -/

/-- What `broadcast_loop` sends. -/
def ownAdvert (tcpPort : BitVec 16) (localResources : ResourceSnapshot) : List UInt8 :=
  (Advert.buildAdvert cfg.byteOrder cfg.nodeId tcpPort localResources).toBytes cfg.byteOrder

/-- Whenever the listen thread receives a broadcast of its own node, no entry is
added and no discovery is announced. -/
def IgnoresOwnAdverts : Prop :=
  ∀ tcpPort localResources senderIp now s t, (machine cfg).Reachable s →
    step cfg s (.receive (ownAdvert cfg tcpPort localResources) senderIp now) = some t →
    (∀ id ∈ t.known.records, id ∈ s.known.records) ∧ t.listener = .receiving

theorem accept_ownAdvert (tcpPort : BitVec 16) (localResources : ResourceSnapshot)
    (senderIp : ByteString) (now : Timestamp) :
    accept cfg (ownAdvert cfg tcpPort localResources) senderIp now =
      if Advert.receivedNodeId cfg.nodeId = cfg.nodeId then none
      else some (Advert.receivedPeer cfg.nodeId tcpPort localResources senderIp now) := by
  have hreceive := Advert.receive_advertBytes cfg.byteOrder cfg.byteOrder cfg.nodeId tcpPort
    localResources
  have hparse := Advert.parseAdvert_advertBytes cfg.byteOrder cfg.byteOrder cfg.nodeId tcpPort
    localResources senderIp now
  rw [Advert.advertBytes] at hreceive hparse
  simp only [accept, ownAdvert, hreceive, hparse]
  rfl

/-- The filter compares the configured id with the id that went through the packet,
so it recognises exactly the ids that the packet carries unchanged. -/
theorem ignoresOwnAdverts_iff :
    IgnoresOwnAdverts cfg ↔ cfg.nodeId.length ≤ 31 ∧ 0 ∉ cfg.nodeId := by
  rw [← Advert.receivedNodeId_eq_iff]
  constructor
  · intro hignores
    by_contra hchanged
    -- A node that has just started takes its first broadcast for a new peer.
    let snapshot : ResourceSnapshot := { nodeId := cfg.nodeId }
    let peer := Advert.receivedPeer cfg.nodeId 0 snapshot [] 0
    have haccept := accept_ownAdvert cfg 0 snapshot [] 0
    rw [if_neg hchanged] at haccept
    have hstep : step cfg started (.receive (ownAdvert cfg 0 snapshot) [] 0) =
        some (started.hear peer) := by
      simp only [step, started, haccept]
      rfl
    have hnew := (hignores 0 snapshot [] 0 started _ StateMachine.Reachable.initial hstep).1
    have hmem : peer.nodeId ∈ (started.hear peer).known.records :=
      mem_recordAdvert.2 (Or.inl rfl)
    exact AList.notMem_empty peer.nodeId (hnew peer.nodeId hmem)
  · intro hsame tcpPort localResources senderIp now s t _ hstep
    have haccept := accept_ownAdvert cfg tcpPort localResources senderIp now
    rw [if_pos hsame] at haccept
    simp only [step, haccept] at hstep
    split at hstep
    · cases hstep
    · rename_i hlistener
      cases hstep
      exact ⟨fun id hid => hid, hlistener⟩

/-- An id of 32 bytes. -/
def longIdConfig : Config where
  nodeId := List.replicate 32 0x61
  peerTimeoutMs := 15000
  byteOrder := .little

def longIdSnapshot : ResourceSnapshot where
  nodeId := longIdConfig.nodeId

/-- A node with a longer id hears its own broadcast, stores itself as a peer and is
about to announce the discovery. -/
theorem ownAdvert_discovered :
    ∃ t, step longIdConfig started
        (.receive (ownAdvert longIdConfig 5201 longIdSnapshot) [] 0) = some t ∧
      started.known.records.keys = [] ∧
      t.known.records.keys = [List.replicate 31 0x61] ∧
      t.listener = .notifying
        (Advert.receivedPeer longIdConfig.nodeId 5201 longIdSnapshot [] 0) := by
  refine ⟨_, rfl, ?_, ?_, ?_⟩
  · rfl
  · decide
  · decide

end PeerDiscovery

end EdgeOrchestrator
