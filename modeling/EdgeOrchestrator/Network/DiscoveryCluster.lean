import EdgeOrchestrator.Network.PeerDiscovery
import EdgeOrchestrator.Scheduler.Policy

/-!
# Discovery among several hosts

Any number of hosts run `PeerDiscovery` at the same time.  The broadcast thread of
each host builds a packet from its local resources and sends it.  The network may
lose a broadcast, delay it, duplicate it and deliver it out of order: a delivery
picks any broadcast that has ever been sent.  Every host has its own steady clock.
A stopped host is one that takes no further step.

Nothing authenticates an advert, so the results about what the hosts know assume
that no program outside the cluster sends packets that pass the checks of the
listen loop.

Main results:

- `plan_targets_hosts`: every remote decision of every policy names another host of the
  cluster, and the view has the endpoint of that host.
- `silent_peer_evicted`: an eviction pass that starts more than the timeout after the last
  advert of a peer forgets it.
- `heard_peer_kept`: a peer that was heard within the timeout before every pass stays known.
-/

namespace EdgeOrchestrator

namespace PeerDiscovery

/-! ## What one step of a node can do -/

/-- The steps of the two threads, with everything that a step changes. -/
inductive Transition (cfg : Config) (s : Node) : Label → Node → Prop
  | tick (elapsed : Nat) : Transition cfg s (.tick elapsed) { s with clock := s.clock + elapsed }
  | ignored {datagram : List UInt8} {senderIp : ByteString} {now : Timestamp}
      (haccept : accept cfg datagram senderIp now = none) :
      Transition cfg s (.receive datagram senderIp now) s
  | heard {datagram : List UInt8} {senderIp : ByteString} {now : Timestamp} {peer : PeerInfo}
      (haccept : accept cfg datagram senderIp now = some peer) :
      Transition cfg s (.receive datagram senderIp now) (s.hear peer)
  | deliverDiscovered {peer : PeerInfo} (hlistener : s.listener = .notifying peer) :
      Transition cfg s .deliverDiscovered
        { s with view := onDiscovered s.view peer, listener := .receiving }
  | wake (hevictor : s.evictor = .sleeping) :
      Transition cfg s .wake { s with evictor := .scanning s.clock }
  | scan {now : Nat} {order : IterationOrder NodeId} (hevictor : s.evictor = .scanning now) :
      Transition cfg s (.scan order) (s.evict cfg now order)
  | deliverLost {peer : PeerInfo} {rest : List PeerInfo}
      (hevictor : s.evictor = .notifying (peer :: rest)) :
      Transition cfg s .deliverLost
        { s with view := onLost s.view peer, evictor := .notifying rest }
  | sleep (hevictor : s.evictor = .notifying []) :
      Transition cfg s .sleep { s with evictor := .sleeping }

/-- Each step is one of the node's transitions. -/
theorem step_transition {cfg : Config} {s t : Node} {label : Label}
    (hstep : step cfg s label = some t) : Transition cfg s label t := by
  cases label with
  | tick elapsed =>
    cases hstep
    exact .tick elapsed
  | receive datagram senderIp now =>
    simp only [step] at hstep
    split at hstep
    · cases hstep
    · split at hstep
      · rename_i haccept
        cases hstep
        exact .ignored haccept
      · rename_i haccept
        cases hstep
        exact .heard haccept
  | deliverDiscovered =>
    simp only [step] at hstep
    split at hstep
    · cases hstep
    · rename_i hlistener
      cases hstep
      exact .deliverDiscovered hlistener
  | wake =>
    simp only [step] at hstep
    split at hstep
    · rename_i hevictor
      cases hstep
      exact .wake hevictor
    · cases hstep
  | scan order =>
    simp only [step] at hstep
    split at hstep
    · rename_i hevictor
      cases hstep
      exact .scan hevictor
    · cases hstep
  | deliverLost =>
    simp only [step] at hstep
    split at hstep
    · rename_i hevictor
      cases hstep
      exact .deliverLost hevictor
    · cases hstep
  | sleep =>
    simp only [step] at hstep
    split at hstep
    · rename_i hevictor
      cases hstep
      exact .sleep hevictor
    · cases hstep

/-- `P` holds of every peer that the node has on record, is about to announce or
shows to the scheduler. -/
structure Holds (P : PeerInfo → Prop) (s : Node) : Prop where
  known : ∀ id record, s.known.records.lookup id = some record → P record.info
  announced : ∀ peer, s.listener = .notifying peer → P peer
  view : ∀ id info, s.view.peers.lookup id = some info → P info

section Contents

variable {P : PeerInfo → Prop} {s : Node}

theorem Holds.started : Holds P started where
  known := by simp [PeerDiscovery.started, KnownPeers.empty]
  announced := by simp [PeerDiscovery.started]
  view := by simp [PeerDiscovery.started, ClusterViewManager.empty]

theorem Holds.mono {Q : PeerInfo → Prop} (h : Holds P s) (hPQ : ∀ peer, P peer → Q peer) :
    Holds Q s where
  known id record hrecord := hPQ _ (h.known id record hrecord)
  announced peer hpeer := hPQ _ (h.announced peer hpeer)
  view id info hinfo := hPQ _ (h.view id info hinfo)

theorem Holds.hear (h : Holds P s) {peer : PeerInfo} (hpeer : P peer) : Holds P (s.hear peer) where
  known := by
    intro id record hrecord
    simp only [Node.hear, lookup_recordAdvert] at hrecord
    split at hrecord
    · cases hrecord
      exact hpeer
    · exact h.known id record hrecord
  announced := by
    intro found hfound
    simp only [Node.hear] at hfound
    split at hfound
    · cases hfound
      exact hpeer
    · cases hfound
  view := h.view

/-- A node holds only what it held before and what it has just accepted. -/
theorem Holds.step {cfg : Config} {t : Node} {label : Label} (h : Holds P s)
    (hstep : PeerDiscovery.step cfg s label = some t)
    (haccepted : ∀ datagram senderIp now peer, label = .receive datagram senderIp now →
      accept cfg datagram senderIp now = some peer → P peer) : Holds P t := by
  cases step_transition hstep with
  | tick elapsed | wake | sleep => exact ⟨h.known, h.announced, h.view⟩
  | ignored => exact h
  | heard haccept => exact h.hear (haccepted _ _ _ _ rfl haccept)
  | deliverDiscovered hlistener =>
    refine ⟨h.known, (fun peer hpeer => by cases hpeer), ?_⟩
    intro id info hinfo
    rw [onDiscovered, ClusterViewManager.updatePeer, ClusterViewManager.store,
      UnorderedMap.lookup_insert_eq] at hinfo
    split at hinfo
    · cases hinfo
      exact h.announced _ hlistener
    · exact h.view id info hinfo
  | scan =>
    refine ⟨?_, h.announced, h.view⟩
    intro id record hrecord
    rw [Node.evict, lookup_evictExpired] at hrecord
    exact h.known id record (Option.filter_eq_some_iff.1 hrecord).1
  | deliverLost =>
    refine ⟨h.known, h.announced, ?_⟩
    intro id info hinfo
    rw [onLost, ClusterViewManager.removePeer, UnorderedMap.lookup_erase_eq] at hinfo
    split at hinfo
    · cases hinfo
    · exact h.view id info hinfo

end Contents

/-! ## When a peer is forgotten -/

/-- `peer_timeout_ms` in nanoseconds. -/
def Config.timeout (cfg : Config) : Nat :=
  cfg.peerTimeoutMs.toNat * 1000000

/-- The step accepts no advert that carries the id. -/
def Silent (cfg : Config) (id : NodeId) (label : Label) : Prop :=
  ∀ datagram senderIp now peer, label = .receive datagram senderIp now →
    accept cfg datagram senderIp now = some peer → peer.nodeId ≠ id

/-- The id has not been heard since a point in time. -/
def UnheardSince (id : NodeId) (since : Nat) (s : Node) : Prop :=
  ∀ record, s.known.records.lookup id = some record → record.lastSeen ≤ since

theorem expired_iff {cfg : Config} {now : Nat} {record : PeerRecord} :
    expired cfg now record = true ↔ record.lastSeen + cfg.timeout < now := by
  rw [expired, decide_eq_true_eq, Config.timeout]
  omega

section Timeouts

variable {cfg : Config} {id : NodeId} {s t : Node} {label : Label}

/-- No record is younger than the clock, and a pass has read a time that has come. -/
structure ClockInv (s : Node) : Prop where
  seen : ∀ id, UnheardSince id s.clock s
  scanning : ∀ now, s.evictor = .scanning now → now ≤ s.clock

/-- Every step keeps the clock invariant. -/
theorem ClockInv.step (hinv : ClockInv s) (hstep : PeerDiscovery.step cfg s label = some t) :
    ClockInv t := by
  cases step_transition hstep with
  | tick elapsed =>
    constructor
    · intro id record hrecord
      exact (hinv.seen id record hrecord).trans (Nat.le_add_right _ _)
    · intro now hnow
      exact (hinv.scanning now hnow).trans (Nat.le_add_right _ _)
  | ignored => exact hinv
  | heard =>
    refine ⟨?_, hinv.scanning⟩
    intro id record hrecord
    simp only [Node.hear, lookup_recordAdvert] at hrecord
    split at hrecord
    · cases hrecord
      exact Nat.le_refl _
    · exact hinv.seen id record hrecord
  | deliverDiscovered => exact ⟨hinv.seen, hinv.scanning⟩
  | wake =>
    refine ⟨hinv.seen, ?_⟩
    intro now hnow
    cases hnow
    exact Nat.le_refl _
  | scan =>
    refine ⟨?_, fun now hnow => by cases hnow⟩
    intro id record hrecord
    rw [Node.evict, lookup_evictExpired] at hrecord
    exact hinv.seen id record (Option.filter_eq_some_iff.1 hrecord).1
  | deliverLost | sleep => exact ⟨hinv.seen, fun now hnow => by cases hnow⟩

theorem reachable_clockInv (hreach : (machine cfg).Reachable s) : ClockInv s := by
  apply hreach.invariant
  · constructor
    · intro id record hrecord
      simp [machine, started, KnownPeers.empty] at hrecord
    · intro now hnow
      cases hnow
  · intro s label t hinv hstep
    exact hinv.step hstep

/-- A silent step leaves the record of the id as it is or drops it. -/
theorem lookup_step_of_silent (hstep : step cfg s label = some t) (hsilent : Silent cfg id label)
    {record : PeerRecord} (hrecord : t.known.records.lookup id = some record) :
    s.known.records.lookup id = some record := by
  cases step_transition hstep with
  | tick elapsed | ignored | deliverDiscovered | wake | deliverLost | sleep => exact hrecord
  | heard haccept =>
    have hne := hsilent _ _ _ _ rfl haccept
    rwa [Node.hear, lookup_recordAdvert, if_neg (Ne.symm hne)] at hrecord
  | scan =>
    rw [Node.evict, lookup_evictExpired] at hrecord
    exact (Option.filter_eq_some_iff.1 hrecord).1

/-- A silent step leaves the peer unheard. -/
theorem UnheardSince.step {since : Nat} (h : UnheardSince id since s)
    (hstep : PeerDiscovery.step cfg s label = some t) (hsilent : Silent cfg id label) :
    UnheardSince id since t :=
  fun record hrecord => h record (lookup_step_of_silent hstep hsilent hrecord)

/-- A silent peer stays unknown. -/
theorem unknown_step (hstep : step cfg s label = some t) (hsilent : Silent cfg id label)
    (hunknown : id ∉ s.known.records) : id ∉ t.known.records := by
  intro hknown
  rcases UnorderedMap.mem_iff_lookup.1 hknown with ⟨record, hrecord⟩
  exact hunknown (UnorderedMap.mem_iff_lookup.2
    ⟨record, lookup_step_of_silent hstep hsilent hrecord⟩)

/-- A pass that was started late enough is under way, or the id is already gone. -/
def Expiring (cfg : Config) (id : NodeId) (since : Nat) (s : Node) : Prop :=
  UnheardSince id since s ∧
    ((∃ now, s.evictor = .scanning now ∧ since + cfg.timeout < now) ∨ id ∉ s.known.records)

/-- The pass itself drops the id. -/
theorem Expiring.scan {since : Nat} {order : IterationOrder NodeId}
    (h : Expiring cfg id since s) (hstep : step cfg s (.scan order) = some t) :
    id ∉ t.known.records := by
  cases step_transition hstep with
  | @scan now _ hevictor =>
    intro hknown
    rcases UnorderedMap.mem_iff_lookup.1 hknown with ⟨record, hrecord⟩
    rw [Node.evict, lookup_evictExpired] at hrecord
    rcases Option.filter_eq_some_iff.1 hrecord with ⟨hlookup, hfresh⟩
    rcases h.2 with ⟨now', hnow, hlate⟩ | hunknown
    · rw [hevictor] at hnow
      cases hnow
      have hseen := h.1 record hlookup
      have hexpired : expired cfg now record = true := expired_iff.2 (by omega)
      simp [hexpired] at hfresh
    · exact hunknown (UnorderedMap.mem_iff_lookup.2 ⟨record, hlookup⟩)

/-- The eviction thread leaves a pass only by its scan. -/
theorem scanning_step {now : Nat} (hevictor : s.evictor = .scanning now)
    (hstep : step cfg s label = some t) :
    t.evictor = .scanning now ∨ ∃ order, label = .scan order := by
  cases step_transition hstep with
  | tick elapsed | ignored | heard | deliverDiscovered => exact Or.inl hevictor
  | wake hsleeping => simp [hevictor] at hsleeping
  | scan => exact Or.inr ⟨_, rfl⟩
  | deliverLost hnotifying | sleep hnotifying => simp [hevictor] at hnotifying

/-- A silent step leaves the peer expiring. -/
theorem Expiring.step {since : Nat} (h : Expiring cfg id since s)
    (hstep : PeerDiscovery.step cfg s label = some t) (hsilent : Silent cfg id label) :
    Expiring cfg id since t := by
  refine ⟨h.1.step hstep hsilent, ?_⟩
  rcases h.2 with ⟨now, hevictor, hlate⟩ | hunknown
  · rcases scanning_step hevictor hstep with hpass | ⟨order, rfl⟩
    · exact Or.inl ⟨now, hpass, hlate⟩
    · exact Or.inr (h.scan hstep)
  · exact Or.inr (unknown_step hstep hsilent hunknown)

end Timeouts

/-- Failure detection is complete: an eviction pass that starts more than the
timeout after the node last heard a peer forgets the peer, whatever else the node
hears meanwhile, and it stays forgotten for as long as the peer is silent. -/
theorem silent_peer_evicted {cfg : Config} {id : NodeId} {s u t : Node}
    {first second : List Label} {now : Nat} {order : IterationOrder NodeId}
    (hreach : (machine cfg).Reachable s) (hfirst : (machine cfg).run s first = some u)
    (hsecond : (machine cfg).run u second = some t)
    (hsilent : ∀ label ∈ first ++ second, Silent cfg id label)
    (hpass : u.evictor = .scanning now) (hlate : s.clock + cfg.timeout < now)
    (hscan : Label.scan order ∈ second) : id ∉ t.known.records := by
  have hunheard : UnheardSince id s.clock u :=
    (machine cfg).run_keeps
      (fun label hlabel _ _ h hstep => h.step hstep (hsilent label (List.mem_append_left _ hlabel)))
      ((reachable_clockInv hreach).seen id) hfirst
  have hsilent' : ∀ label ∈ second, Silent cfg id label :=
    fun label hlabel => hsilent label (List.mem_append_right _ hlabel)
  rcases List.append_of_mem hscan with ⟨before, after, rfl⟩
  rw [StateMachine.run_append, Option.bind_eq_some_iff] at hsecond
  rcases hsecond with ⟨v, hbefore, hrest⟩
  rw [StateMachine.run_cons, Option.bind_eq_some_iff] at hrest
  rcases hrest with ⟨w, hscanned, hafter⟩
  have hexpiring : Expiring cfg id s.clock v :=
    (machine cfg).run_keeps
      (fun label hlabel _ _ h hstep => h.step hstep
        (hsilent' label (List.mem_append_left _ hlabel)))
      ⟨hunheard, Or.inl ⟨now, hpass, hlate⟩⟩ hbefore
  exact (machine cfg).run_keeps (I := fun s => id ∉ s.known.records)
    (fun label hlabel _ _ h hstep => unknown_step hstep
      (hsilent' label (List.mem_append_right _ (List.mem_cons_of_mem _ hlabel))) h)
    (hexpiring.scan hscanned) hafter

/-- The node of the eviction race after it has heard its peer once. -/
def heardOnce : Node :=
  endOf (evictionPrefix.take 2)

theorem reachable_heardOnce : (machine raceConfig).Reachable heardOnce :=
  StateMachine.reachable_iff_run.2 ⟨evictionPrefix.take 2, rfl⟩

/-- The peer is silent for seven seconds, more than the timeout of six. -/
theorem silent_peer_evicted_heardOnce :
    heardOnce.known.records.keys = [[0x70]] ∧
      [0x70] ∉ (endOf evictionPrefix).known.records := by
  have hfirst : (machine raceConfig).run heardOnce [.tick 7000000000, .wake] =
      some (endOf (evictionPrefix.take 4)) := by
    rfl
  have hsecond : (machine raceConfig).run (endOf (evictionPrefix.take 4))
      [.scan (IterationOrder.insertion NodeId)] = some (endOf evictionPrefix) := by
    rfl
  have hpass : (endOf (evictionPrefix.take 4)).evictor = .scanning 7000000000 := by
    rfl
  refine ⟨by decide, ?_⟩
  refine silent_peer_evicted reachable_heardOnce hfirst hsecond ?_ hpass (by decide)
    List.mem_cons_self
  intro label hlabel datagram senderIp now peer hreceive
  subst hreceive
  simp at hlabel

/-- Before an eviction pass starts, the peer has been heard within the timeout. -/
def HeardBeforePass (cfg : Config) (id : NodeId) (s : Node) : Label → Prop
  | .wake => ∃ record ∈ s.known.records.lookup id, s.clock ≤ record.lastSeen + cfg.timeout
  | _ => True

instance (cfg : Config) (id : NodeId) (s : Node) : DecidablePred (HeardBeforePass cfg id s)
  | .wake =>
    inferInstanceAs (Decidable
      (∃ record ∈ s.known.records.lookup id, s.clock ≤ record.lastSeen + cfg.timeout))
  | .tick _ => isTrue trivial
  | .receive _ _ _ => isTrue trivial
  | .deliverDiscovered => isTrue trivial
  | .scan _ => isTrue trivial
  | .deliverLost => isTrue trivial
  | .sleep => isTrue trivial

/-- The id is on record, and a pass that is under way will find it fresh. -/
def Fresh (cfg : Config) (id : NodeId) (s : Node) : Prop :=
  ∃ record, s.known.records.lookup id = some record ∧
    ∀ now, s.evictor = .scanning now → now ≤ record.lastSeen + cfg.timeout

/-- A peer heard in time stays fresh. -/
theorem Fresh.step {cfg : Config} {id : NodeId} {s t : Node} {label : Label}
    (h : Fresh cfg id s) (hclock : ClockInv s) (hheard : HeardBeforePass cfg id s label)
    (hstep : PeerDiscovery.step cfg s label = some t) : Fresh cfg id t := by
  rcases h with ⟨record, hrecord, hfresh⟩
  cases step_transition hstep with
  | tick elapsed | ignored | deliverDiscovered => exact ⟨record, hrecord, hfresh⟩
  | @heard _ _ _ peer _ =>
    by_cases hid : id = peer.nodeId
    · refine ⟨⟨peer, s.clock⟩, ?_, ?_⟩
      · rw [Node.hear, lookup_recordAdvert, if_pos hid]
      · intro now hnow
        exact (hclock.scanning now hnow).trans (Nat.le_add_right _ _)
    · refine ⟨record, ?_, hfresh⟩
      rw [Node.hear, lookup_recordAdvert, if_neg hid]
      exact hrecord
  | wake =>
    rcases hheard with ⟨found, hfound, hrecent⟩
    refine ⟨found, hfound, ?_⟩
    intro now hnow
    cases hnow
    exact hrecent
  | scan hevictor =>
    refine ⟨record, ?_, fun now hnow => by cases hnow⟩
    have hrecent := hfresh _ hevictor
    rw [Node.evict, lookup_evictExpired, Option.filter_eq_some_iff]
    refine ⟨hrecord, ?_⟩
    rw [Bool.not_eq_true', Bool.eq_false_iff, ne_eq, expired_iff]
    omega
  | deliverLost | sleep => exact ⟨record, hrecord, fun now hnow => by cases hnow⟩

/-- Failure detection is accurate: a known peer that has been heard within the
timeout before every eviction pass starts is never evicted, in whatever way the
adverts and the pass interleave. -/
theorem heard_peer_kept {cfg : Config} {id : NodeId} {s t : Node} {labels : List Label}
    (hreach : (machine cfg).Reachable s) (hknown : id ∈ s.known.records)
    (hidle : ∀ now, s.evictor ≠ .scanning now)
    (hheard : (machine cfg).Along (fun s label _ => HeardBeforePass cfg id s label) s labels)
    (hrun : (machine cfg).run s labels = some t) : id ∈ t.known.records := by
  have hfresh : Fresh cfg id s := by
    rcases UnorderedMap.mem_iff_lookup.1 hknown with ⟨record, hrecord⟩
    exact ⟨record, hrecord, fun now hnow => absurd hnow (hidle now)⟩
  clear hknown hidle
  induction labels generalizing s with
  | nil =>
    cases hrun
    rcases hfresh with ⟨record, hrecord, -⟩
    exact UnorderedMap.mem_iff_lookup.2 ⟨record, hrecord⟩
  | cons label rest ih =>
    rw [StateMachine.run_cons, Option.bind_eq_some_iff] at hrun
    rcases hrun with ⟨u, hstep, hrest⟩
    rcases hheard u hstep with ⟨hlabel, htail⟩
    exact ih (hreach.step hstep) htail hrest
      (hfresh.step (reachable_clockInv hreach) hlabel hstep)

/-- A peer that is heard again after five seconds survives the pass after seven. -/
def heartbeatRun : List Label :=
  [.tick 5000000000, .receive racePacket [] 0, .tick 2000000000, .wake,
    .scan (IterationOrder.insertion NodeId), .sleep]

theorem heard_peer_kept_heartbeatRun :
    [0x70] ∈ (((machine raceConfig).run heardOnce heartbeatRun).getD started).known.records := by
  have hheard : (machine raceConfig).Along
      (fun s label _ => HeardBeforePass raceConfig [0x70] s label) heardOnce heartbeatRun := by
    decide
  exact heard_peer_kept reachable_heardOnce (by decide) (fun now hnow => by cases hnow) hheard rfl

end PeerDiscovery

/-! ## Hosts and their network -/

/-- What is fixed about a host: the constructor arguments of its `PeerDiscovery`,
and the address that `recvfrom` reports for its packets. -/
structure Host where
  config : PeerDiscovery.Config
  tcpPort : BitVec 16
  address : ByteString
deriving DecidableEq, Repr

namespace DiscoveryCluster

open PeerDiscovery

/-- The broadcast thread sleeps until the next heartbeat or has built a packet. -/
inductive BroadcastPhase where
  | sleeping
  | built (datagram : List UInt8)
deriving DecidableEq, Repr

/-- One host: `local_resources_`, and its threads. -/
structure Agent where
  node : Node
  localResources : ResourceSnapshot
  broadcaster : BroadcastPhase

/-- A packet on the network. -/
structure Broadcast (ι : Type) where
  sender : ι
  datagram : List UInt8

/-- All hosts and the network. -/
structure Cluster (ι : Type) where
  agents : ι → Agent
  /-- Every broadcast so far, the first one first. -/
  sent : List (Broadcast ι)

/-- The steps of the hosts and of the network. -/
inductive Label (ι : Type) where
  | updateLocalResources (i : ι) (snapshot : ResourceSnapshot)
  | buildAdvert (i : ι)
  | sendto (i : ι)
  /-- Host `i` receives the broadcast with this number. -/
  | deliver (i : ι) (number : Nat) (now : Timestamp)
  /-- A step of the listen or eviction thread of host `i`; a `receive` here is a
  packet of a program that is no host of the cluster. -/
  | thread (i : ι) (label : PeerDiscovery.Label)

variable {ι : Type} [DecidableEq ι]

def Cluster.setAgent (s : Cluster ι) (i : ι) (agent : Agent) : Cluster ι :=
  { s with agents := Function.update s.agents i agent }

/-- A step of one host's threads. -/
def threadStep (hosts : ι → Host) (s : Cluster ι) (i : ι) (label : PeerDiscovery.Label) :
    Option (Cluster ι) :=
  (PeerDiscovery.step (hosts i).config (s.agents i).node label).map fun node =>
    s.setAgent i { s.agents i with node := node }

/-- The next step of one host. -/
def step (hosts : ι → Host) (s : Cluster ι) : Label ι → Option (Cluster ι)
  | .updateLocalResources i snapshot =>
    some (s.setAgent i { s.agents i with localResources := snapshot })
  | .buildAdvert i =>
    match (s.agents i).broadcaster with
    | .built _ => none
    | .sleeping =>
      let pkt := ownAdvert (hosts i).config (hosts i).tcpPort (s.agents i).localResources
      some (s.setAgent i { s.agents i with broadcaster := .built pkt })
  | .sendto i =>
    match (s.agents i).broadcaster with
    | .sleeping => none
    | .built pkt =>
      some
        { s.setAgent i { s.agents i with broadcaster := .sleeping } with
          sent := s.sent ++ [⟨i, pkt⟩] }
  | .deliver i number now =>
    match s.sent[number]? with
    | none => none
    | some b => threadStep hosts s i (.receive b.datagram (hosts b.sender).address now)
  | .thread i label => threadStep hosts s i label

/-- A host before its first heartbeat. -/
def initialAgent (host : Host) : Agent where
  node := started
  localResources := { nodeId := host.config.nodeId }
  broadcaster := .sleeping

/-- All runs of a cluster. -/
def machine (hosts : ι → Host) : StateMachine (Cluster ι) (Label ι) where
  initial := ⟨fun i => initialAgent (hosts i), []⟩
  step := step hosts

/-! ## Where the contents of the stores come from -/

/-- Host `j` has had this snapshot as its local resources. -/
def Published (hosts : ι → Host) (labels : List (Label ι)) (j : ι)
    (snapshot : ResourceSnapshot) : Prop :=
  snapshot = (initialAgent (hosts j)).localResources ∨
    Label.updateLocalResources j snapshot ∈ labels

/-- The packet is an advert of host `j`. -/
def AdvertOf (hosts : ι → Host) (labels : List (Label ι)) (j : ι) (pkt : List UInt8) : Prop :=
  ∃ snapshot, Published hosts labels j snapshot ∧
    pkt = ownAdvert (hosts j).config (hosts j).tcpPort snapshot

/-- The record is what any receiver makes of an advert of host `j`. -/
def RecordOf (hosts : ι → Host) (labels : List (Label ι)) (j : ι) (peer : PeerInfo) : Prop :=
  ∃ snapshot now, Published hosts labels j snapshot ∧
    peer = Advert.receivedPeer (hosts j).config.nodeId (hosts j).tcpPort snapshot
      (hosts j).address now

/-- What host `i` may hold: the record of some host, under another id than its own. -/
def Attributed (hosts : ι → Host) (labels : List (Label ι)) (i : ι) (peer : PeerInfo) : Prop :=
  peer.nodeId ≠ (hosts i).config.nodeId ∧ ∃ j, RecordOf hosts labels j peer

/-- No packet from outside the cluster passes the checks of the listen loop. -/
def Honest (hosts : ι → Host) : Label ι → Prop
  | .thread i (.receive datagram _ _) =>
    Advert.receive (hosts i).config.byteOrder datagram = none
  | _ => True

/-- Whatever is stored anywhere comes from a host. -/
structure ClusterInv (hosts : ι → Host) (labels : List (Label ι)) (s : Cluster ι) : Prop where
  resources : ∀ j, Published hosts labels j (s.agents j).localResources
  built : ∀ j pkt, (s.agents j).broadcaster = .built pkt → AdvertOf hosts labels j pkt
  sent : ∀ b ∈ s.sent, AdvertOf hosts labels b.sender b.datagram
  holds : ∀ i, Holds (Attributed hosts labels i) (s.agents i).node

theorem accept_eq_some {cfg : Config} {datagram : List UInt8} {senderIp : ByteString}
    {now : Timestamp} {peer : PeerInfo} (h : accept cfg datagram senderIp now = some peer) :
    peer.nodeId ≠ cfg.nodeId ∧ ∃ pkt, Advert.receive cfg.byteOrder datagram = some pkt ∧
      peer = Advert.parseAdvert cfg.byteOrder pkt senderIp now := by
  unfold accept at h
  split at h
  · cases h
  · rename_i pkt hpkt
    simp only at h
    split at h
    · cases h
    · rename_i hne
      cases h
      exact ⟨hne, pkt, hpkt, rfl⟩

section Attribution

omit [DecidableEq ι]

variable {hosts : ι → Host} {labels : List (Label ι)} {i : ι}

theorem Published.concat {snapshot : ResourceSnapshot} (label : Label ι)
    (h : Published hosts labels i snapshot) : Published hosts (labels ++ [label]) i snapshot :=
  h.imp_right (List.mem_append_left _)

theorem AdvertOf.concat {pkt : List UInt8} (label : Label ι) (h : AdvertOf hosts labels i pkt) :
    AdvertOf hosts (labels ++ [label]) i pkt := by
  rcases h with ⟨snapshot, hpublished, hpkt⟩
  exact ⟨snapshot, hpublished.concat label, hpkt⟩

theorem Attributed.concat {peer : PeerInfo} (label : Label ι)
    (h : Attributed hosts labels i peer) : Attributed hosts (labels ++ [label]) i peer := by
  rcases h with ⟨hne, j, snapshot, now, hpublished, hpeer⟩
  exact ⟨hne, j, snapshot, now, hpublished.concat label, hpeer⟩

/-- An accepted advert of a host is attributed to it. -/
theorem AdvertOf.attributed {j : ι} {pkt : List UInt8} {now : Timestamp} {peer : PeerInfo}
    (h : AdvertOf hosts labels j pkt)
    (haccept : accept (hosts i).config pkt (hosts j).address now = some peer) :
    Attributed hosts labels i peer := by
  rcases h with ⟨snapshot, hpublished, rfl⟩
  rcases accept_eq_some haccept with ⟨hne, pkt, hreceive, rfl⟩
  refine ⟨hne, j, snapshot, now, hpublished, ?_⟩
  rw [ownAdvert, ← Advert.advertBytes, Advert.receive_advertBytes, Option.some.injEq] at hreceive
  rw [← hreceive, Advert.parseAdvert_advertBytes]

/-- The history may be extended. -/
theorem ClusterInv.concat {s : Cluster ι} (h : ClusterInv hosts labels s) (label : Label ι) :
    ClusterInv hosts (labels ++ [label]) s where
  resources j := (h.resources j).concat label
  built j pkt hpkt := (h.built j pkt hpkt).concat label
  sent b hb := (h.sent b hb).concat label
  holds i := (h.holds i).mono fun _ hpeer => hpeer.concat label

end Attribution

section Steps

variable {hosts : ι → Host} {labels : List (Label ι)} {s t : Cluster ι} {i : ι}

/-- It is enough to look at the host that has changed. -/
theorem ClusterInv.setAgent (h : ClusterInv hosts labels s) {agent : Agent}
    (hresources : Published hosts labels i agent.localResources)
    (hbuilt : ∀ pkt, agent.broadcaster = .built pkt → AdvertOf hosts labels i pkt)
    (hholds : Holds (Attributed hosts labels i) agent.node) :
    ClusterInv hosts labels (s.setAgent i agent) := by
  have hcases : ∀ j, (s.setAgent i agent).agents j = agent ∧ j = i ∨
      (s.setAgent i agent).agents j = s.agents j := by
    intro j
    by_cases hj : j = i
    · subst hj
      exact Or.inl ⟨Function.update_self .., rfl⟩
    · exact Or.inr (Function.update_of_ne hj ..)
  refine ⟨?_, ?_, h.sent, ?_⟩
  · intro j
    rcases hcases j with ⟨hagent, rfl⟩ | hagent
    · rw [hagent]
      exact hresources
    · rw [hagent]
      exact h.resources j
  · intro j pkt hpkt
    rcases hcases j with ⟨hagent, rfl⟩ | hagent
    · rw [hagent] at hpkt
      exact hbuilt pkt hpkt
    · rw [hagent] at hpkt
      exact h.built j pkt hpkt
  · intro j
    rcases hcases j with ⟨hagent, rfl⟩ | hagent
    · rw [hagent]
      exact hholds
    · rw [hagent]
      exact h.holds j

theorem ClusterInv.threadStep {label : PeerDiscovery.Label} (h : ClusterInv hosts labels s)
    (hstep : DiscoveryCluster.threadStep hosts s i label = some t)
    (haccepted : ∀ datagram senderIp now peer, label = .receive datagram senderIp now →
      accept (hosts i).config datagram senderIp now = some peer →
        Attributed hosts labels i peer) : ClusterInv hosts labels t := by
  rcases Option.map_eq_some_iff.1 hstep with ⟨node, hnode, rfl⟩
  exact h.setAgent (h.resources i) (h.built i) ((h.holds i).step hnode haccepted)

/-- Every step keeps everything attributed. -/
theorem ClusterInv.step {label : Label ι} (h : ClusterInv hosts labels s)
    (hhonest : Honest hosts label) (hstep : DiscoveryCluster.step hosts s label = some t) :
    ClusterInv hosts (labels ++ [label]) t := by
  have hnext := h.concat label
  cases label with
  | updateLocalResources i snapshot =>
    cases hstep
    exact hnext.setAgent (Or.inr (List.mem_append_right _ List.mem_cons_self))
      (hnext.built i) (hnext.holds i)
  | buildAdvert i =>
    simp only [DiscoveryCluster.step] at hstep
    split at hstep
    · cases hstep
    · cases hstep
      refine hnext.setAgent (hnext.resources i) ?_ (hnext.holds i)
      intro pkt hpkt
      cases hpkt
      exact ⟨_, hnext.resources i, rfl⟩
  | sendto i =>
    simp only [DiscoveryCluster.step] at hstep
    split at hstep
    · cases hstep
    · rename_i pkt hpkt
      cases hstep
      have hidle : ClusterInv hosts (labels ++ [.sendto i])
          (s.setAgent i { s.agents i with broadcaster := .sleeping }) :=
        hnext.setAgent (hnext.resources i) (fun pkt hpkt => by cases hpkt) (hnext.holds i)
      refine ⟨hidle.resources, hidle.built, ?_, hidle.holds⟩
      intro b hb
      rcases List.mem_append.1 hb with hb | hb
      · exact hnext.sent b hb
      · rw [List.mem_singleton.1 hb]
        exact hnext.built i pkt hpkt
  | deliver i number now =>
    simp only [DiscoveryCluster.step] at hstep
    split at hstep
    · cases hstep
    · rename_i b hb
      apply hnext.threadStep hstep
      intro datagram senderIp now peer hlabel haccept
      cases hlabel
      exact (hnext.sent b (List.mem_of_getElem? hb)).attributed haccept
  | thread i label =>
    apply hnext.threadStep hstep
    intro datagram senderIp now peer hlabel haccept
    subst hlabel
    rcases accept_eq_some haccept with ⟨-, pkt, hpkt, -⟩
    rw [show Advert.receive (hosts i).config.byteOrder datagram = none from hhonest] at hpkt
    cases hpkt

theorem clusterInv_initial : ClusterInv hosts [] (machine hosts).initial where
  resources _ := Or.inl rfl
  built _ _ hpkt := by cases hpkt
  sent _ hb := by cases hb
  holds _ := Holds.started

/-- Everything that a host holds is attributed, after every run of the cluster. -/
theorem run_clusterInv (hhonest : ∀ label ∈ labels, Honest hosts label)
    (hrun : (machine hosts).run (machine hosts).initial labels = some s) :
    ClusterInv hosts labels s := by
  refine StateMachine.run_induction (m := machine hosts)
    (P := fun labels s => (∀ label ∈ labels, Honest hosts label) → ClusterInv hosts labels s)
    (fun _ => clusterInv_initial) ?_ hrun hhonest
  intro labels s label t _ ih hstep hhonest
  exact (ih fun label hlabel => hhonest label (List.mem_append_left _ hlabel)).step
    (hhonest label (List.mem_append_right _ List.mem_cons_self)) hstep

end Steps

/-! ## Plans made from the view -/

/-- The ids of the hosts survive the trip in a packet, and no two hosts share one. -/
structure ProperIds (hosts : ι → Host) : Prop where
  fits : ∀ i, Advert.receivedNodeId (hosts i).config.nodeId = (hosts i).config.nodeId
  distinct : ∀ i j, (hosts i).config.nodeId = (hosts j).config.nodeId → i = j

section Plans

omit [DecidableEq ι]

variable {hosts : ι → Host} {labels : List (Label ι)} {i : ι} {peer : PeerInfo}

/-- A record carries the id of the host it comes from. -/
theorem ProperIds.nodeId_eq (hids : ProperIds hosts) (h : RecordOf hosts labels i peer) :
    peer.nodeId = (hosts i).config.nodeId := by
  rcases h with ⟨snapshot, now, -, rfl⟩
  exact hids.fits i

/-- The host behind a record is determined by the id. -/
theorem ProperIds.recordOf (hids : ProperIds hosts) {j : ι}
    (h : Attributed hosts labels i peer) (hid : peer.nodeId = (hosts j).config.nodeId) :
    RecordOf hosts labels j peer := by
  rcases h with ⟨-, k, hk⟩
  have hkj : k = j := by
    apply hids.distinct
    rw [← hids.nodeId_eq hk, hid]
  rw [← hkj]
  exact hk

theorem ClusterInv.attributed_of_peerInfo {s : Cluster ι} {id : NodeId}
    (h : ClusterInv hosts labels s) (hinfo : (s.agents i).node.view.peerInfo id = some peer) :
    Attributed hosts labels i peer ∧ peer.nodeId = id :=
  ⟨(h.holds i).view id peer (ClusterViewManager.peerInfo_eq_some_iff.1 hinfo).1,
    ClusterViewManager.nodeId_of_peerInfo hinfo⟩

end Plans

/-- Offloads reach the node that the plan names.  Whatever the network does to the
adverts, a decision of any policy on a snapshot of a host's view keeps the task local
or names another host, of which the view has a record; and whenever the view answers
`peer_info` for that decision later on, the answer has the address, the port and a
published snapshot of exactly that host. -/
theorem plan_targets_hosts {hosts : ι → Host} (hids : ProperIds hosts)
    {labels more : List (Label ι)} (hhonest : ∀ label ∈ labels ++ more, Honest hosts label)
    {s t : Cluster ι} (hrun : (machine hosts).run (machine hosts).initial labels = some s)
    (hmore : (machine hosts).run s more = some t) (i : ι) (env : SchedulerEnv) (policy : Policy)
    {dag : WorkloadDAG} (hends : dag.EndpointsAreTasks) {localNode : ResourceSnapshot}
    (hlocal : localNode.nodeId = (hosts i).config.nodeId) (o : IterationOrder NodeId) :
    ∀ d ∈ (policy.schedule env dag localNode ((s.agents i).node.view.snapshot o)).decisions,
      d.assignedNode = (hosts i).config.nodeId ∨
        ∃ j, j ≠ i ∧ d.assignedNode = (hosts j).config.nodeId ∧
          ((s.agents i).node.view.peerInfo d.assignedNode).isSome ∧
          ∀ info, (t.agents i).node.view.peerInfo d.assignedNode = some info →
            RecordOf hosts (labels ++ more) j info := by
  intro d hd
  have hinv := run_clusterInv (fun label hlabel => hhonest label (List.mem_append_left _ hlabel))
    hrun
  have hinv' := run_clusterInv hhonest ((machine hosts).run_trans hrun hmore)
  have hshape := Policy.schedule_shape env policy localNode ((s.agents i).node.view.snapshot o)
    fun id hid => ((hends.mem_topologicalOrder_iff env.hash id).1 hid).1
  rcases Policy.assignedTo_of_mem_candidateIds (hshape.assigned d hd) with hhere | ⟨peer, -, hpeer⟩
  · exact Or.inl (hhere.trans hlocal)
  · right
    rcases hinv.attributed_of_peerInfo hpeer with ⟨⟨hne, j, hrecord⟩, hid⟩
    have hj := hids.nodeId_eq hrecord
    refine ⟨j, ?_, hid.symm.trans hj, by rw [hpeer]; rfl, ?_⟩
    · intro hji
      rw [hji] at hj
      exact hne hj
    · intro info hinfo
      rcases hinv'.attributed_of_peerInfo hinfo with ⟨hattributed, hid'⟩
      exact hids.recordOf hattributed (hid'.trans (hid.symm.trans hj))

/-- Two hosts, `a` of little-endian and `b` of big-endian byte order. -/
def twoHosts : Bool → Host
  | false => ⟨⟨[0x61], 6000, .little⟩, 5201, text "10.0.0.1"⟩
  | true => ⟨⟨[0x62], 6000, .big⟩, 5202, text "10.0.0.2"⟩

/-- `b` broadcasts that it has 1 GiB free, and `a` hears it twice. -/
def advertRun : List (Label Bool) :=
  [.updateLocalResources true { nodeId := [0x62], memoryAvailableBytes := 0x40000000 },
    .buildAdvert true, .sendto true, .deliver false 0 7, .thread false .deliverDiscovered,
    .deliver false 0 9]

def advertEnd : Cluster Bool :=
  ((machine twoHosts).run (machine twoHosts).initial advertRun).getD (machine twoHosts).initial

theorem plan_targets_hosts_advertRun :
    (advertEnd.agents false).node.view.peers.keys = [[0x62]] ∧
      ∀ d ∈ (Policy.schedule Policy.hostEnv .greedy Policy.chainDag { nodeId := [0x61] }
          ((advertEnd.agents false).node.view.snapshot (.insertion NodeId))).decisions,
        d.assignedNode = [0x61] ∨ ∃ j, j ≠ false ∧
          d.assignedNode = (twoHosts j).config.nodeId ∧
          ((advertEnd.agents false).node.view.peerInfo d.assignedNode).isSome ∧
          ∀ info, (advertEnd.agents false).node.view.peerInfo d.assignedNode = some info →
            RecordOf twoHosts (advertRun ++ []) j info := by
  have hids : ProperIds twoHosts := ⟨by decide, by decide⟩
  have hhonest : ∀ label ∈ advertRun ++ [], Honest twoHosts label := by
    intro label hlabel
    simp only [advertRun, List.append_nil, List.mem_cons, List.not_mem_nil, or_false] at hlabel
    rcases hlabel with rfl | rfl | rfl | rfl | rfl | rfl
    all_goals trivial
  have hrun : (machine twoHosts).run (machine twoHosts).initial advertRun = some advertEnd := by
    rfl
  exact ⟨by decide, plan_targets_hosts hids hhonest hrun rfl false Policy.hostEnv .greedy
    (by decide) rfl (.insertion NodeId)⟩

end DiscoveryCluster

end EdgeOrchestrator
