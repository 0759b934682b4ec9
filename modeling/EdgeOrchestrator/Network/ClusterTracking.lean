import EdgeOrchestrator.Network.PeerDiscovery

/-!
# What the cluster view remembers of the adverts

Adverts and eviction passes one after another, every announcement delivered
before the next step.  The listen loop announces a peer only when it is new, so
that the cluster view keeps the first advert of a peer and the later ones reach
`known_peers_` alone.

Main results:

- `reachable_toNode`: these histories are in-order runs of the two discovery threads.
- `tracks_iff_repeats`: an advert leaves the view up to date exactly when it repeats what is on
  record for its peer.
- `view_tracks_iff`: a history keeps the view up to date exactly when every advert of a known
  peer repeats what is on record.
-/

namespace EdgeOrchestrator

namespace ClusterTracking

open PeerDiscovery

/-! ## Histories with immediate delivery -/

/-- The two stores, and for each id the last advert that was accepted. -/
structure Tracked where
  clock : Nat
  known : KnownPeers
  view : ClusterViewManager
  latest : NodeId → Option PeerInfo

/-- What can happen to the two stores. -/
inductive Label where
  | tick (elapsed : Nat)
  | advert (datagram : List UInt8) (senderIp : ByteString) (now : Timestamp)
  | evict (order : IterationOrder NodeId)

/-- An accepted advert, announced at once if the peer is new. -/
def Tracked.heard (s : Tracked) (peer : PeerInfo) : Tracked :=
  let recorded := recordAdvert s.known peer s.clock
  { s with
    known := recorded.1
    view := if recorded.2 then onDiscovered s.view peer else s.view
    latest := Function.update s.latest peer.nodeId (some peer) }

/-- An eviction pass, every loss announced at once. -/
def Tracked.evicted (cfg : Config) (s : Tracked) (order : IterationOrder NodeId) : Tracked :=
  let scanned := evictExpired cfg s.clock order s.known
  { s with known := scanned.1, view := scanned.2.foldl onLost s.view }

/-- One advert or pass, with its announcements. -/
def step (cfg : Config) (s : Tracked) : Label → Option Tracked
  | .tick elapsed => some { s with clock := s.clock + elapsed }
  | .advert datagram senderIp now =>
    match accept cfg datagram senderIp now with
    | none => some s
    | some peer => some (s.heard peer)
  | .evict order => some (s.evicted cfg order)

/-- Nothing is known. -/
def started : Tracked where
  clock := 0
  known := .empty
  view := .empty
  latest := fun _ => none

/-- All histories of one node. -/
def machine (cfg : Config) : StateMachine Tracked Label where
  initial := started
  step := step cfg

/-! ## The discovery threads follow these histories -/

/-- Both threads at rest. -/
def Tracked.toNode (s : Tracked) : Node where
  clock := s.clock
  known := s.known
  view := s.view
  listener := .receiving
  evictor := .sleeping

section Threads

variable {cfg : Config} {s : Tracked}

/-- An accepted advert: the lock section, then the announcement if there is one. -/
theorem reachable_heard {datagram : List UInt8} {senderIp : ByteString} {now : Timestamp}
    {peer : PeerInfo} (haccept : accept cfg datagram senderIp now = some peer)
    (hreach : (PeerDiscovery.machine cfg).ReachableUnder InOrder s.toNode) :
    (PeerDiscovery.machine cfg).ReachableUnder InOrder (s.heard peer).toNode := by
  have hreceive : PeerDiscovery.step cfg s.toNode (.receive datagram senderIp now) =
      some (s.toNode.hear peer) := by
    simp only [PeerDiscovery.step, Tracked.toNode, haccept]
  have hheard := hreach.step
    (show InOrder s.toNode (.receive datagram senderIp now) from trivial) hreceive
  by_cases hnew : (recordAdvert s.known peer s.clock).2 = true
  · have hlistener : (s.toNode.hear peer).listener = .notifying peer := by
      simp only [Node.hear, Tracked.toNode, hnew, if_true]
    have hdeliver : PeerDiscovery.step cfg (s.toNode.hear peer) .deliverDiscovered =
        some (s.heard peer).toNode := by
      simp only [PeerDiscovery.step, hlistener]
      simp only [Node.hear, Tracked.toNode, Tracked.heard, hnew, if_true]
    have hordered : InOrder (s.toNode.hear peer) .deliverDiscovered := by
      intro id _ hlost
      cases hlost
    exact hheard.step hordered hdeliver
  · have hsame : s.toNode.hear peer = (s.heard peer).toNode := by
      simp only [Node.hear, Tracked.toNode, Tracked.heard, hnew, Bool.false_eq_true, if_false]
    rw [← hsame]
    exact hheard

/-- The losses of one pass, announced while the listen thread is at rest. -/
theorem reachable_deliverLost {node : Node} {evicted : List PeerInfo}
    (hlistener : node.listener = .receiving) (hevictor : node.evictor = .notifying evicted)
    (hreach : (PeerDiscovery.machine cfg).ReachableUnder InOrder node) :
    (PeerDiscovery.machine cfg).ReachableUnder InOrder
      { node with view := evicted.foldl onLost node.view, evictor := .notifying [] } := by
  induction evicted generalizing node with
  | nil =>
    rw [← hevictor]
    exact hreach
  | cons peer rest ih =>
    have hordered : InOrder node .deliverLost := by
      intro id _ hdiscovered
      rw [Node.pendingDiscovered, hlistener] at hdiscovered
      cases hdiscovered
    have hnext := hreach.step hordered (step_deliverLost cfg hevictor)
    apply ih _ _ hnext
    · exact hlistener
    · rfl

/-- An eviction pass: read the clock, scan, announce, sleep. -/
theorem reachable_evicted (order : IterationOrder NodeId)
    (hreach : (PeerDiscovery.machine cfg).ReachableUnder InOrder s.toNode) :
    (PeerDiscovery.machine cfg).ReachableUnder InOrder (s.evicted cfg order).toNode := by
  have hwake := hreach.step (show InOrder s.toNode .wake from trivial) rfl
  have hscan := hwake.step (show InOrder _ (.scan order) from trivial) rfl
  have hlost := reachable_deliverLost rfl rfl hscan
  exact hlost.step (show InOrder _ .sleep from trivial) rfl

end Threads

/-- A history with immediate delivery is an in-order run of the two threads. -/
theorem reachable_toNode {cfg : Config} {s : Tracked} (hreach : (machine cfg).Reachable s) :
    (PeerDiscovery.machine cfg).ReachableUnder InOrder s.toNode := by
  apply hreach.invariant (I := fun s =>
    (PeerDiscovery.machine cfg).ReachableUnder InOrder s.toNode)
  · exact StateMachine.ReachableUnder.initial
  · intro s label t hnode hstep
    cases label with
    | tick elapsed =>
      cases hstep
      exact hnode.step (show InOrder s.toNode (.tick elapsed) from trivial) rfl
    | advert datagram senderIp now =>
      simp only [machine, step] at hstep
      split at hstep
      · cases hstep
        exact hnode
      · rename_i peer haccept
        cases hstep
        exact reachable_heard haccept hnode
    | evict order =>
      cases hstep
      exact reachable_evicted order hnode

/-! ## Being up to date -/

/-- What an advert tells about its peer; the time stamp is that of the receipt. -/
def advertised (info : PeerInfo) : ResourceSnapshot × ByteString × BitVec 16 :=
  ({ info.resources with timestamp := 0 }, info.address, info.tcpPort)

/-- For every known peer the view returns what its last advert said. -/
def Tracks (s : Tracked) : Prop :=
  ∀ id ∈ s.known.records, ∃ stored recent, s.view.peerInfo id = some stored ∧
    s.latest id = some recent ∧ advertised stored = advertised recent

/-- An advert of a known peer says what is on record for the peer. -/
def RepeatsRecord (cfg : Config) (s : Tracked) : Label → Prop
  | .advert datagram senderIp now =>
    ∀ peer, accept cfg datagram senderIp now = some peer →
      ∀ record, s.known.records.lookup peer.nodeId = some record →
        advertised peer = advertised record.info
  | _ => True

/-- The view is up to date, and the last advert of a known peer is on record. -/
structure TrackInv (s : Tracked) : Prop where
  tracks : Tracks s
  recorded : ∀ id record, s.known.records.lookup id = some record →
    s.latest id = some record.info

theorem started_trackInv : TrackInv started where
  tracks := by
    intro id hid
    cases hid
  recorded := by
    intro id record hrecord
    cases hrecord

section Step

variable {cfg : Config} {s : Tracked}

/-- Hearing an advert keeps the last one on record, whether or not the view
learns of it. -/
theorem TrackInv.recorded_heard (hinv : TrackInv s) (peer : PeerInfo) :
    ∀ id record, (s.heard peer).known.records.lookup id = some record →
      (s.heard peer).latest id = some record.info := by
  intro id record hrecord
  simp only [Tracked.heard, lookup_recordAdvert] at hrecord
  by_cases hid : id = peer.nodeId
  · rw [if_pos hid] at hrecord
    cases hrecord
    simp [Tracked.heard, hid]
  · rw [if_neg hid] at hrecord
    simp only [Tracked.heard, Function.update_of_ne hid]
    exact hinv.recorded id record hrecord

/-- The first advert of a peer reaches the view. -/
theorem TrackInv.tracks_heard_new (hinv : TrackInv s) {peer : PeerInfo}
    (hreach : peer.reachable = true) (hnew : peer.nodeId ∉ s.known.records) :
    Tracks (s.heard peer) := by
  have hflag := (@recordAdvert_isNew s.known peer s.clock).2 hnew
  intro id hid
  simp only [Tracked.heard] at hid
  rw [mem_recordAdvert] at hid
  simp only [Tracked.heard, hflag, if_true, onDiscovered,
    ClusterViewManager.peerInfo_updatePeer _ hreach]
  by_cases heq : id = peer.nodeId
  · refine ⟨peer, peer, if_pos heq, ?_, rfl⟩
    rw [heq, Function.update_self]
  · rw [if_neg heq, Function.update_of_ne heq]
    exact hinv.tracks id (hid.resolve_left heq)

/-- A later advert of a known peer does not reach the view. -/
theorem TrackInv.tracks_heard_known (hinv : TrackInv s) {peer : PeerInfo} {record : PeerRecord}
    (hrecord : s.known.records.lookup peer.nodeId = some record) :
    Tracks (s.heard peer) ↔ advertised peer = advertised record.info := by
  have hmem : peer.nodeId ∈ s.known.records := UnorderedMap.mem_iff_lookup.2 ⟨record, hrecord⟩
  have hview : (s.heard peer).view = s.view := by
    have hflag : ¬ (recordAdvert s.known peer s.clock).2 = true := fun h =>
      recordAdvert_isNew.1 h hmem
    simp only [Tracked.heard, hflag, Bool.false_eq_true, if_false]
  rcases hinv.tracks _ hmem with ⟨stored, recent, hstored, hrecent, hsame⟩
  rw [hinv.recorded _ record hrecord] at hrecent
  cases hrecent
  constructor
  · intro htracks
    rcases htracks peer.nodeId (mem_recordAdvert.2 (Or.inl rfl)) with
      ⟨stored', recent', hstored', hrecent', hsame'⟩
    rw [hview, hstored] at hstored'
    cases hstored'
    simp only [Tracked.heard, Function.update_self] at hrecent'
    cases hrecent'
    rw [← hsame', hsame]
  · intro hrepeat id hid
    rw [hview]
    by_cases heq : id = peer.nodeId
    · refine ⟨stored, peer, by rw [heq]; exact hstored, ?_, by rw [hsame, hrepeat]⟩
      simp [Tracked.heard, heq]
    · simp only [Tracked.heard, Function.update_of_ne heq]
      exact hinv.tracks id ((mem_recordAdvert.1 hid).resolve_left heq)

theorem peerInfo_foldl_onLost {view : ClusterViewManager} {evicted : List PeerInfo}
    {id : NodeId} (h : id ∉ evicted.map PeerInfo.nodeId) :
    (evicted.foldl onLost view).peerInfo id = view.peerInfo id := by
  induction evicted generalizing view with
  | nil => rfl
  | cons peer rest ih =>
    rw [List.map_cons, List.mem_cons, not_or] at h
    rw [List.foldl_cons, ih h.2]
    exact ClusterViewManager.peerInfo_removePeer_of_ne _ h.1

/-- An eviction pass touches only the peers it removes from both stores. -/
theorem TrackInv.evicted (hinv : TrackInv s) (order : IterationOrder NodeId) :
    TrackInv (s.evicted cfg order) where
  tracks := by
    intro id hid
    rcases mem_evictExpired_iff.1 hid with ⟨hknown, hkept⟩
    simp only [Tracked.evicted, peerInfo_foldl_onLost hkept]
    exact hinv.tracks id hknown
  recorded := by
    intro id record hrecord
    simp only [Tracked.evicted, lookup_evictExpired] at hrecord
    exact hinv.recorded id record (Option.filter_eq_some_iff.1 hrecord).1

/-- Whether a step leaves the view up to date. -/
theorem tracks_iff_repeats {t : Tracked} {label : Label} (hinv : TrackInv s)
    (hstep : step cfg s label = some t) : Tracks t ↔ RepeatsRecord cfg s label := by
  cases label with
  | tick elapsed =>
    cases hstep
    exact iff_of_true hinv.tracks trivial
  | advert datagram senderIp now =>
    simp only [step] at hstep
    simp only [RepeatsRecord]
    split at hstep
    · rename_i haccept
      cases hstep
      simpa [haccept] using hinv.tracks
    · rename_i peer haccept
      cases hstep
      simp only [haccept, Option.some.injEq, forall_eq']
      cases hrecord : s.known.records.lookup peer.nodeId with
      | none =>
        have hnew := AList.lookup_eq_none.1 hrecord
        simpa using hinv.tracks_heard_new (accept_reachable haccept) hnew
      | some record =>
        simp only [Option.some.injEq, forall_eq']
        exact hinv.tracks_heard_known hrecord
  | evict order =>
    cases hstep
    exact iff_of_true (hinv.evicted order).tracks trivial

/-- A step that leaves the view up to date keeps the invariant. -/
theorem TrackInv.step {t : Tracked} {label : Label} (hinv : TrackInv s)
    (hstep : step cfg s label = some t) (htracks : Tracks t) : TrackInv t := by
  cases label with
  | tick elapsed =>
    cases hstep
    exact ⟨htracks, hinv.recorded⟩
  | advert datagram senderIp now =>
    simp only [ClusterTracking.step] at hstep
    split at hstep
    · cases hstep
      exact hinv
    · rename_i peer haccept
      cases hstep
      exact ⟨htracks, hinv.recorded_heard peer⟩
  | evict order =>
    cases hstep
    exact hinv.evicted order

end Step

/-- For every history of adverts and eviction passes: after every step the view
returns, for every known peer, what its last advert said, exactly when every
advert of a known peer repeats what is on record for it. -/
theorem view_tracks_iff (cfg : Config) (labels : List Label) :
    (machine cfg).Along (fun _ _ t => Tracks t) (machine cfg).initial labels ↔
      (machine cfg).Along (fun s label _ => RepeatsRecord cfg s label)
        (machine cfg).initial labels := by
  apply StateMachine.along_iff_along (I := TrackInv)
  · intro s label t hinv hstep
    exact tracks_iff_repeats hinv hstep
  · intro s label t hinv hstep htracks
    exact hinv.step hstep htracks
  · exact started_trackInv

/-! ## A second heartbeat -/

/-- The next packet of the same node: a quarter of the memory is left and the
TCP port has changed to 5202. -/
def secondPacket : List UInt8 :=
  racePacket.take 40 ++ [0x14, 0x52] ++ (racePacket.take 48).drop 42 ++
    [0, 0, 0, 0, 0x10, 0, 0, 0] ++ racePacket.drop 56

/-- The peer is heard twice. -/
def heartbeats : List Label :=
  [.advert racePacket [] 0, .tick 2000000000, .advert secondPacket [] 0]

def afterHeartbeats : Tracked :=
  ((machine raceConfig).run started heartbeats).getD started

/-- After two heartbeats two seconds apart, the view still returns the memory and
the port of the first one. -/
theorem second_heartbeat_ignored :
    (machine raceConfig).Reachable afterHeartbeats ∧
      afterHeartbeats.known.records.keys = [[0x70]] ∧
      (afterHeartbeats.view.peerInfo [0x70]).map
          (fun info => (info.resources.memoryAvailableBytes.toNat, info.tcpPort)) =
        some (2 ^ 30, 5201) ∧
      (afterHeartbeats.latest [0x70]).map
          (fun info => (info.resources.memoryAvailableBytes.toNat, info.tcpPort)) =
        some (2 ^ 28, 5202) ∧
      ¬ Tracks afterHeartbeats := by
  have hrun : (machine raceConfig).run (machine raceConfig).initial heartbeats =
      some afterHeartbeats := by
    rfl
  have hknown : afterHeartbeats.known.records.keys = [[0x70]] := by
    decide
  have hview : (afterHeartbeats.view.peerInfo [0x70]).map PeerInfo.tcpPort = some 5201 := by
    decide
  have hlatest : (afterHeartbeats.latest [0x70]).map PeerInfo.tcpPort = some 5202 := by
    decide
  refine ⟨StateMachine.reachable_iff_run.2 ⟨_, hrun⟩, hknown, by decide, by decide, ?_⟩
  intro htracks
  have hmem : ([0x70] : NodeId) ∈ afterHeartbeats.known.records := by
    rw [AList.mem_keys, hknown]
    simp
  rcases htracks _ hmem with ⟨stored, recent, hstored, hrecent, hsame⟩
  rw [hstored] at hview
  rw [hrecent] at hlatest
  have hports : stored.tcpPort = recent.tcpPort := congrArg (fun a => a.2.2) hsame
  simp only [Option.map_some, Option.some.injEq] at hview hlatest
  rw [hview, hlatest] at hports
  cases hports

end ClusterTracking

end EdgeOrchestrator
