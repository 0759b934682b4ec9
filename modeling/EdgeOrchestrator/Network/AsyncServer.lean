import EdgeOrchestrator.Library.Counting
import EdgeOrchestrator.Network.ConnectionCoroutine
import EdgeOrchestrator.Network.CoroutineRuntime

/-!
# The daemon's server

`AsyncTransport` of `network/async_transport.cpp` as a whole: one reactor thread on which
an accept loop and any number of connections are coroutines, a pool on which the handler
runs, and an owner that calls `listen`, `serve` and `stop_serving`.  The steps of all
threads interleave; the reactor is the one of `Network.Reactor`, step by step.

The kernel answers through the labels: which connection `accept4` returns, under a
descriptor that is not open, and how the transfers of each connection end.  Connections
are named by an arbitrary index and each name is accepted at most once.  The deadline of
two seconds in `stop_serving` may pass at any moment.  `serve` is modelled for a reactor
that has its epoll instance; without one its accept loop would never return.

Main results:

- `connections_isolated`: a connection that has ended was served exactly as `handleConnection`
  serves it alone, whatever the other ones did meanwhile.
- `server_keeps_reactor_rules`: the server waits for one thing at a time on every open
  descriptor, for nothing on a closed one, and the reactor resumes only what is suspended.
- `stop_serving_drains`: when `stop_serving` has stopped the reactor, the accept loop is over
  and every unfinished connection is on the handler pool.
-/

namespace EdgeOrchestrator

open scoped StateMachine
open Function (update update_of_ne update_self)

namespace AsyncServer

open Coroutines (Wait Thread Frame Status Runtime)
open EpollReactor (Descriptors)

/-! ## State -/

/-- The coroutines: the accept loop of each call of `serve`, and the connections. -/
inductive Coroutine (ι : Type*) where
  | acceptLoop (n : Nat)
  | connection (i : ι)
deriving DecidableEq

/-- Where an accept loop is. -/
inductive AcceptPhase where
  | notCalled
  /-- Before `while (!stopping_)`. -/
  | checkStopping
  | awaiting
  /-- After `co_await`, before `stopping_` is read again. -/
  | resumed (ready : Bool)
  | accepting
  | ended
deriving DecidableEq

/-- An accepted connection and what its coroutine has been told. -/
structure Connection where
  fd : Int
  coroutine : AsyncTransport.Coroutine
  /-- What its awaits have returned so far. -/
  answers : List Bool
deriving DecidableEq

/-- Where the owner is inside `serve` or `stop_serving`. -/
inductive OwnerPhase where
  | outside
  | serveStarting
  | serveAccepting
  | stopReactor
  | stopWaiting
deriving DecidableEq

/-- What the machine is given from outside. -/
structure Config (ι : Type*) where
  descriptors : Descriptors
  order : IterationOrder Int
  handler : ByteString → ByteString
  ioTimeoutMs : BitVec 32
  /-- The sockets of the connections, as the kernel and the peers will have them behave. -/
  peers : ι → Socket

/-- `AsyncTransport`, its reactor and its coroutines. -/
structure Server (ι : Type*) where
  runtime : Runtime (Coroutine ι)
  stopping : Bool
  /-- How often `stop_serving` has set `stopping_`. -/
  stops : Nat
  serverFd : Int
  acceptLoop : Nat → AcceptPhase
  /-- How often `serve` has called the accept loop. -/
  serves : Nat
  connection : ι → Option Connection
  activeConnections : Nat
  owner : OwnerPhase

/-- The steps of all threads. -/
inductive Label (ι : Type*) where
  /-- `listen` succeeds with this descriptor. -/
  | listen (fd : Int)
  | serve
  | stopServing
  /-- The next step inside `serve` or `stop_serving`; `expired` if the deadline of the
  latter has passed. -/
  | owner (expired : Bool)
  /-- The next step of what a thread executes; `added` is the answer of `epoll_ctl`, and
  `accepted` the one of `accept4`. -/
  | thread (t : Thread (Coroutine ι)) (added : Bool) (accepted : Option (ι × Int))
  /-- A thread of the handler pool takes up a connection. -/
  | pickUp (i : ι)
  /-- The next step of `run`; `events` is the answer of `epoll_wait`. -/
  | loop (events : List Int)
  | tick (nanoseconds : Nat)

/-! ## Steps -/

section Steps

variable {ι : Type*} [DecidableEq ι] (cfg : Config ι)

/-- A new transport. -/
def initial : Server ι where
  runtime := Coroutines.initial cfg.descriptors (Coroutine ι)
  stopping := false
  stops := 0
  serverFd := -1
  acceptLoop := fun _ => .notCalled
  serves := 0
  connection := fun _ => none
  activeConnections := 0
  owner := .outside

/-- A coroutine goes on after its await, with what the await has returned. -/
def Server.resume (s : Server ι) : Option (Coroutine ι × Bool) → Server ι
  | none => s
  | some (.acceptLoop n, ready) =>
    { s with acceptLoop := update s.acceptLoop n (.resumed ready) }
  | some (.connection i, ready) =>
    { s with
      connection := update s.connection i ((s.connection i).map fun c =>
        { c with coroutine := c.coroutine.resume ready, answers := c.answers ++ [ready] }) }

variable (s : Server ι) (t : Thread (Coroutine ι))

/-- The accept loop `n` ends. -/
def Server.endLoop (n : Nat) : Server ι :=
  { s with
    runtime := s.runtime.leave t (.acceptLoop n) .inactive
    acceptLoop := update s.acceptLoop n .ended }

/-- One step of `accept_loop`. -/
def acceptStep (n : Nat) (accepted : Option (ι × Int)) : Option (Server ι) :=
  match s.acceptLoop n with
  | .checkStopping =>
    if s.stopping then some (s.endLoop t n)
    else
      (s.runtime.park cfg.descriptors t (.acceptLoop n) s.serverFd 500).map fun runtime =>
        { s with runtime, acceptLoop := update s.acceptLoop n .awaiting }
  | .resumed ready =>
    if s.stopping then some (s.endLoop t n)
    else
      some { s with
        acceptLoop := update s.acceptLoop n
          (if ready then .accepting else .checkStopping) }
  | .accepting =>
    match accepted with
    | none => some { s with acceptLoop := update s.acceptLoop n .checkStopping }
    | some (i, fd) =>
      if (s.connection i).isNone then
        some { s with
          runtime := s.runtime.enter t (.connection i)
          connection := update s.connection i
            (some ⟨fd, ⟨.entered, cfg.peers i, []⟩, []⟩) }
      else none
  | .notCalled | .awaiting | .ended => none

/-- One piece of `handle_connection`. -/
def connectionStep (i : ι) : Option (Server ι) :=
  match s.connection i with
  | none => none
  | some c =>
    let piece := c.coroutine.advance cfg.handler s.stopping
    let moved :=
      { s with
        connection := update s.connection i
          (some { c with coroutine := piece.2 }) }
    match piece.1 with
    | .nothing => some moved
    | .count => some { moved with activeConnections := s.activeConnections + 1 }
    | .await =>
      (s.runtime.park cfg.descriptors t (.connection i) c.fd cfg.ioTimeoutMs).map
        fun runtime => { moved with runtime }
    | .hop => some { moved with runtime := s.runtime.leave t (.connection i) .queued }
    | .leave =>
      some { moved with
        runtime := s.runtime.leave t (.connection i) .inactive
        activeConnections := s.activeConnections - 1 }

/-- A thread executes its innermost frame. -/
def threadStep (added : Bool) (accepted : Option (ι × Int)) : Option (Server ι) :=
  match s.runtime.stack t with
  | [] => none
  | .call w :: _ =>
    (s.runtime.call cfg.descriptors t w added).map fun r =>
      Server.resume { s with runtime := r.1 } r.2
  | .coroutine (.acceptLoop n) :: _ => acceptStep cfg s t n accepted
  | .coroutine (.connection i) :: _ => connectionStep cfg s t i

/-- A thread of the handler pool resumes a connection that was submitted to it. -/
def pickUp (i : ι) : Option (Server ι) :=
  match s.connection i with
  | none => none
  | some c =>
    if s.runtime.status (.connection i) = .queued ∧
        s.runtime.stack (.pool (.connection i)) = [] then
      some { s with
        runtime := s.runtime.enter (.pool (.connection i)) (.connection i)
        connection := update s.connection i
          (some { c with coroutine := (c.coroutine.advance cfg.handler s.stopping).2 }) }
    else none

/-- A step of `reactor_.start()` or `reactor_.stop()`. -/
def reactorOwnerStep : Option (Server ι) :=
  (s.runtime.owner cfg.descriptors).map fun runtime => { s with runtime }

/-- The next step inside `serve` or `stop_serving`. -/
def ownerStep (expired : Bool) : Option (Server ι) :=
  match s.owner with
  | .outside => none
  | .serveStarting =>
    if s.runtime.reactor.owner = .outside ∧ s.runtime.reactor.running = true then
      some { s with
        runtime := s.runtime.enter .caller (.acceptLoop s.serves)
        acceptLoop := update s.acceptLoop s.serves .checkStopping
        serves := s.serves + 1
        owner := .serveAccepting }
    else reactorOwnerStep cfg s
  | .serveAccepting => some { s with owner := .outside }
  | .stopReactor =>
    if s.runtime.reactor.owner = .outside ∧ s.runtime.reactor.running = false then
      some { s with owner := .stopWaiting }
    else reactorOwnerStep cfg s
  | .stopWaiting =>
    if s.activeConnections = 0 ∨ expired = true then
      some { s with
        serverFd := if 0 ≤ s.serverFd then -1 else s.serverFd
        owner := .outside }
    else none

/-- The next step of one thread. -/
def step : Label ι → Option (Server ι)
  | .listen fd =>
    if s.owner = .outside ∧ s.serverFd < 0 then some { s with serverFd := fd } else none
  | .serve =>
    if s.owner = .outside ∧ 0 ≤ s.serverFd ∧ s.runtime.reactor.running = false then
      some { s with stopping := false, owner := .serveStarting }
    else none
  | .stopServing =>
    if s.owner = .outside ∧ s.stopping = false then
      some { s with stopping := true, stops := s.stops + 1, owner := .stopReactor }
    else none
  | .owner expired =>
    if s.runtime.stack .caller = [] then ownerStep cfg s expired else none
  | .thread t added accepted => threadStep cfg s t added accepted
  | .pickUp i => pickUp cfg s i
  | .loop events =>
    (s.runtime.loop cfg.descriptors cfg.order events).map fun r =>
      Server.resume { s with runtime := r.1 } r.2
  | .tick nanoseconds => some { s with runtime := s.runtime.tick nanoseconds }

/-- All interleavings of a new transport. -/
def machine : StateMachine (Server ι) (Label ι) where
  initial := initial cfg
  step := step cfg

end Steps

/-! ## Descriptors -/

/-- The descriptor has not been closed in this phase. -/
def opens : AsyncTransport.Phase → Bool
  | .leave | .ended => false
  | _ => true

/-- The descriptor has not been closed. -/
def Connection.isOpen (c : Connection) : Bool :=
  opens c.coroutine.phase

section Descriptors

variable {ι : Type*}

/-- The descriptor of the listening socket or of a connection. -/
def Server.IsOpen (s : Server ι) (fd : Int) : Prop :=
  (fd = s.serverFd ∧ 0 ≤ fd) ∨ ∃ i c, s.connection i = some c ∧ c.isOpen = true ∧ c.fd = fd

/-- The kernel hands out descriptors that are not open. -/
def KernelDescriptors (s : Server ι) : Label ι → Prop
  | .listen fd => 0 ≤ fd ∧ ¬ s.IsOpen fd
  | .thread _ _ (some (_, fd)) => 0 ≤ fd ∧ ¬ s.IsOpen fd
  | _ => True

/-- On a concrete state the rule can be evaluated. -/
instance [Fintype ι] (s : Server ι) (fd : Int) : Decidable (s.IsOpen fd) :=
  decidable_of_iff ((fd = s.serverFd ∧ 0 ≤ fd) ∨
      ∃ i, (s.connection i).any (fun c => c.isOpen && decide (c.fd = fd)) = true) (by
    simp only [Server.IsOpen, Option.any_eq_true, Bool.and_eq_true, decide_eq_true_eq])

instance [Fintype ι] (s : Server ι) : (label : Label ι) → Decidable (KernelDescriptors s label)
  | .listen _ | .thread _ _ (some (_, _)) => inferInstanceAs (Decidable (_ ∧ _))
  | .thread _ _ none | .serve | .stopServing | .owner _ | .pickUp _ | .loop _ | .tick _ =>
    isTrue trivial

end Descriptors

/-! ## The invariant -/

/-- The coroutine has been called and has not ended. -/
def AcceptPhase.isActive : AcceptPhase → Bool
  | .notCalled | .ended => false
  | _ => true

/-- A thread can execute a connection in this phase. -/
def executes : AsyncTransport.Phase → Bool
  | .hopped _ | .ended => false
  | _ => true

/-- Between `fetch_add` and `fetch_sub`. -/
def counts : AsyncTransport.Phase → Bool
  | .entered | .ended => false
  | _ => true

/-- The connection is in `active_connections_`. -/
def counted : Option Connection → Bool
  | none => false
  | some c => counts c.coroutine.phase

theorem of_transfers {p : AsyncTransport.Phase} (hp : p.transfers = true) :
    executes p = true ∧ counts p = true ∧ opens p = true := by
  cases p with
  | readHeader header | readPayload length payload | writeHeader response done
  | writeBody response done => exact ⟨rfl, rfl, rfl⟩
  | entered | received payload | hopped payload | handle payload | close | leave | ended =>
    cases hp

section Phases

variable {p q : AsyncTransport.Phase} {effect : AsyncTransport.Effect}

/-- A closed descriptor stays closed. -/
theorem opens_of_next (h : p.Next effect q) (hq : opens q = true) : opens p = true := by
  cases h with
  | transfer hp _ | giveUp hp | await hp | receive _ hp => exact (of_transfers hp).2.2
  | leave | ended => cases hq
  | _ => rfl

/-- How the pieces of a connection are counted. -/
theorem counts_of_next (h : p.Next effect q) :
    (effect = .count → counts p = false ∧ counts q = true) ∧
      (effect = .leave → counts p = true ∧ counts q = false) ∧
      (effect ≠ .count → effect ≠ .leave → counts q = counts p) := by
  cases h with
  | transfer hp hq =>
    simp [(of_transfers hp).2.1, (of_transfers hq).2.1]
  | giveUp hp | receive _ hp =>
    exact ⟨fun h => (by cases h), fun h => (by cases h), fun _ _ => (of_transfers hp).2.1.symm⟩
  | _ => simp [counts]

/-- A piece that asks for nothing is followed by another one. -/
theorem executes_of_next (h : p.Next effect q) (hp : p ≠ .ended)
    (heffect : effect = .nothing ∨ effect = .count) : executes q = true := by
  cases h with
  | transfer _ hq => exact (of_transfers hq).1
  | await hq => rcases heffect with h | h <;> cases h
  | hop payload | leave => rcases heffect with h | h <;> cases h
  | ended => exact absurd rfl hp
  | _ => rfl

/-- The first phase is never entered again. -/
theorem entered_of_next (h : p.Next effect q) : q ≠ .entered := by
  rintro rfl
  cases h with
  | transfer _ hq => cases hq
  | await hp => cases hp

theorem transfers_of_await (h : p.Next .await q) : q.transfers = true := by
  cases h with
  | await hp => exact hp

theorem hopped_of_hop (h : p.Next .hop q) : ∃ payload, q = .hopped payload := by
  cases h with
  | hop payload => exact ⟨payload, rfl⟩

theorem ended_of_leave (h : p.Next .leave q) : q = .ended := by
  cases h
  rfl

end Phases

section Invariant

variable {ι : Type*} [DecidableEq ι] (cfg : Config ι)

/-- The phase of an accept loop fits its status. -/
def LoopOk {κ : Type*} (serverFd : Int) (status : Status κ) : AcceptPhase → Prop
  | .notCalled | .ended => status = .inactive
  | .awaiting => ∃ w, status = .awaiting w ∧ w.fd = serverFd
  | .checkStopping | .resumed _ | .accepting => status = .executing

/-- The phase of a connection fits its status, and the connection is on the way to what
`handleConnection` does; while it awaits, whatever the await returns. -/
inductive ConnectionOk {κ : Type*} (stopped : Prop) (i : ι) :
    Status κ → Option Connection → Prop where
  | absent : ConnectionOk stopped i .inactive none
  | executing {c : Connection} (hphase : executes c.coroutine.phase = true)
      (hfaithful : c.coroutine.Faithful cfg.handler (cfg.peers i) stopped c.answers) :
      ConnectionOk stopped i .executing (some c)
  | awaiting {c : Connection} {w : Wait κ} (hfd : w.fd = c.fd)
      (hphase : c.coroutine.phase.transfers = true)
      (hfaithful : ∀ ready, (c.coroutine.resume ready).Faithful cfg.handler (cfg.peers i)
        stopped (c.answers ++ [ready])) :
      ConnectionOk stopped i (.awaiting w) (some c)
  | queued {c : Connection} {payload : ByteString}
      (hphase : c.coroutine.phase = .hopped payload)
      (hfaithful : c.coroutine.Faithful cfg.handler (cfg.peers i) stopped c.answers) :
      ConnectionOk stopped i .queued (some c)
  | ended {c : Connection} (hphase : c.coroutine.phase = .ended)
      (hfaithful : c.coroutine.Faithful cfg.handler (cfg.peers i) stopped c.answers) :
      ConnectionOk stopped i .inactive (some c)

/-- The open descriptor of a connection is its own. -/
def OwnFd (s : Server ι) (i : ι) (fd : Int) : Prop :=
  0 ≤ fd ∧ fd ≠ s.serverFd ∧
    ∀ j c, j ≠ i → s.connection j = some c → c.isOpen = true → c.fd ≠ fd

/-- What holds of the coroutines one by one, and of their descriptors. -/
structure Local [Fintype ι] (s : Server ι) : Prop where
  loops : ∀ n, LoopOk s.serverFd (s.runtime.status (.acceptLoop n)) (s.acceptLoop n)
  connections : ∀ i, ConnectionOk cfg (0 < s.stops) i (s.runtime.status (.connection i))
    (s.connection i)
  called : ∀ n, s.acceptLoop n ≠ .notCalled → n < s.serves
  /-- Only the last accept loop is left, and only while the server listens. -/
  single : ∀ n, (s.acceptLoop n).isActive = true → n + 1 = s.serves ∧ 0 ≤ s.serverFd
  accepted : ∀ i c, s.connection i = some c → 0 < s.serves
  ownFd : ∀ i c, s.connection i = some c → c.isOpen = true → OwnFd s i c.fd
  count : s.activeConnections = ∑ i, (counted (s.connection i)).toNat

/-- Where the owner is, and what that says about the reactor. -/
def OwnerOk (s : Server ι) : Prop :=
  match s.owner with
  | .outside | .serveAccepting => s.runtime.reactor.owner = .outside
  | .serveStarting => 0 ≤ s.serverFd ∧ ∀ n, (s.acceptLoop n).isActive = false
  | .stopReactor => True
  | .stopWaiting => s.runtime.reactor.owner = .outside ∧ s.runtime.reactor.running = false

/-- A coroutine that has not hopped: accept loops never do. -/
def OffPool (connection : ι → Option Connection) : Coroutine ι → Prop
  | .acceptLoop _ => True
  | .connection i => ∀ c, connection i = some c → c.coroutine.phase = .entered

/-- Which thread can do what while the owner is where it is. -/
structure Control (s : Server ι) : Prop where
  owner : OwnerOk s
  callers : s.runtime.stack .caller ≠ [] → s.owner = .serveAccepting
  pools : ∀ k, OffPool s.connection k → s.runtime.stack (.pool k) = []
  started : s.runtime.reactor.loop = .notStarted →
    s.serves = 0 ∧ (s.runtime.reactor.running = true → s.runtime.reactor.owner = .starting)

/-- What every step keeps. -/
structure Inv [Fintype ι] (s : Server ι) : Prop where
  runtime : ∃ resumed reported, Coroutines.Inv cfg.descriptors resumed reported s.runtime
  reachable : (EpollReactor.onePerFd cfg.descriptors Wait.awaiter cfg.order).Reachable
    s.runtime.reactor
  coroutines : Local cfg s
  control : Control s
  stopped : s.stopping = true → 0 < s.stops

theorem initial_inv [Fintype ι] : Inv cfg (initial cfg) where
  runtime := ⟨_, _, Coroutines.initial_inv⟩
  reachable := .initial
  coroutines :=
    { loops := fun _ => rfl
      connections := fun _ => .absent
      called := fun _ h => absurd rfl h
      single := fun _ h => by cases h
      accepted := fun _ _ h => by cases h
      ownFd := fun _ _ h => by cases h
      count := by simp [initial, counted] }
  control :=
    { owner := rfl
      callers := fun h => absurd rfl h
      pools := fun _ _ => rfl
      started := fun _ => ⟨rfl, fun h => by cases h⟩ }
  stopped h := by cases h

/-! ### Steps of one coroutine -/

section Local

variable [Fintype ι] {cfg} {s s' : Server ι}

/-- A connection changes, and nothing else but the counter. -/
theorem Local.setConnection (h : Local cfg s) {i : ι} {c : Connection}
    (hstatus : ∀ k, k ≠ .connection i → s'.runtime.status k = s.runtime.status k)
    (hconnection : s'.connection = update s.connection i (some c))
    (hrest : s'.stops = s.stops ∧ s'.serverFd = s.serverFd ∧ s'.acceptLoop = s.acceptLoop ∧
      s'.serves = s.serves)
    (hok : ConnectionOk cfg (0 < s.stops) i (s'.runtime.status (.connection i)) (some c))
    (haccepted : 0 < s.serves) (hfd : c.isOpen = true → OwnFd s i c.fd)
    (hcount : s'.activeConnections + (counted (s.connection i)).toNat =
      s.activeConnections + (counted (some c)).toNat) : Local cfg s' := by
  rcases hrest with ⟨hstops, hserver, hloops, hserves⟩
  refine ⟨?_, ?_, ?_, ?_, fun _ _ _ => by rw [hserves]; exact haccepted, ?_, ?_⟩
  · intro n
    rw [hserver, hloops, hstatus _ (by simp)]
    exact h.loops n
  · intro j
    rw [hstops, hconnection]
    by_cases hj : j = i
    · subst hj
      rw [update_self]
      exact hok
    · rw [update_of_ne hj, hstatus _ (by simpa using hj)]
      exact h.connections j
  · rw [hloops, hserves]
    exact h.called
  · rw [hloops, hserves, hserver]
    exact h.single
  · intro j c' hc' hopen
    rw [hconnection] at hc'
    by_cases hj : j = i
    · subst hj
      rw [update_self] at hc'
      cases hc'
      rcases hfd hopen with ⟨hnonneg, hne, hothers⟩
      refine ⟨hnonneg, by rw [hserver]; exact hne, ?_⟩
      intro l c' hl hc' hopen'
      rw [hconnection, update_of_ne hl] at hc'
      exact hothers l c' hl hc' hopen'
    · rw [update_of_ne hj] at hc'
      rcases h.ownFd j c' hc' hopen with ⟨hnonneg, hne, hothers⟩
      refine ⟨hnonneg, by rw [hserver]; exact hne, ?_⟩
      intro l c'' hl hc'' hopen''
      rw [hconnection] at hc''
      by_cases hli : l = i
      · subst hli
        rw [update_self] at hc''
        cases hc''
        exact fun heq => (hfd hopen'').2.2 j c' hj hc' hopen heq.symm
      · rw [update_of_ne hli] at hc''
        exact hothers l c'' hl hc'' hopen''
  · have hsum := Counting.sum_change (f := fun j => (counted (s.connection j)).toNat)
      (g := fun j => (counted (s'.connection j)).toNat) i (fun j hj => by
        rw [hconnection, update_of_ne hj])
    rw [hconnection] at hsum ⊢
    simp only [update_self] at hsum
    have hbefore := h.count
    omega

omit [DecidableEq ι] in
/-- An active accept loop moves, and nothing else. -/
theorem Local.setLoop (h : Local cfg s) {n : Nat} {phase : AcceptPhase}
    (hstatus : ∀ k, k ≠ .acceptLoop n → s'.runtime.status k = s.runtime.status k)
    (hloop : s'.acceptLoop = update s.acceptLoop n phase)
    (hrest : s'.stops = s.stops ∧ s'.serverFd = s.serverFd ∧ s'.connection = s.connection ∧
      s'.serves = s.serves ∧ s'.activeConnections = s.activeConnections)
    (hok : LoopOk s.serverFd (s'.runtime.status (.acceptLoop n)) phase)
    (hactive : (s.acceptLoop n).isActive = true) : Local cfg s' := by
  rcases hrest with ⟨hstops, hserver, hconnections, hserves, hcount⟩
  rcases h.single n hactive with ⟨hlast, hlistening⟩
  refine ⟨?_, ?_, ?_, ?_, fun _ _ _ => by rw [hserves]; omega, ?_, ?_⟩
  · intro m
    rw [hserver, hloop]
    by_cases hm : m = n
    · subst hm
      rw [update_self]
      exact hok
    · rw [update_of_ne hm, hstatus _ (by simpa using hm)]
      exact h.loops m
  · intro j
    rw [hstops, hconnections, hstatus _ (by simp)]
    exact h.connections j
  · intro m hm
    rw [hserves]
    by_cases hmn : m = n
    · omega
    · rw [hloop, update_of_ne hmn] at hm
      exact h.called m hm
  · intro m hm
    rw [hserves, hserver]
    by_cases hmn : m = n
    · subst hmn
      exact ⟨hlast, hlistening⟩
    · rw [hloop, update_of_ne hmn] at hm
      exact h.single m hm
  · intro j c hc hopen
    rw [hconnections] at hc
    rcases h.ownFd j c hc hopen with ⟨hnonneg, hne, hothers⟩
    exact ⟨hnonneg, by rw [hserver]; exact hne, by rw [hconnections]; exact hothers⟩
  · rw [hcount, hconnections]
    exact h.count

variable {w : Wait (Coroutine ι)}

omit [DecidableEq ι] in
/-- What a coroutine awaits is its own open descriptor. -/
theorem Local.awaits (h : Local cfg s) {k : Coroutine ι} (hw : s.runtime.status k = .awaiting w) :
    (∃ n, k = .acceptLoop n ∧ s.acceptLoop n = .awaiting ∧ w.fd = s.serverFd) ∨
      ∃ i c, k = .connection i ∧ s.connection i = some c ∧
        c.coroutine.phase.transfers = true ∧ c.isOpen = true ∧ w.fd = c.fd := by
  cases k with
  | acceptLoop n =>
    left
    have hok := h.loops n
    rw [hw] at hok
    cases hphase : s.acceptLoop n with
    | awaiting =>
      rw [hphase] at hok
      rcases hok with ⟨w', hw', hfd⟩
      cases hw'
      exact ⟨n, rfl, hphase, hfd⟩
    | _ =>
      rw [hphase] at hok
      cases hok
  | connection i =>
    right
    have hok := h.connections i
    rw [hw] at hok
    generalize hc : s.connection i = found at hok
    cases hok with
    | awaiting hfd hphase hfaithful =>
      rename_i c
      exact ⟨i, c, rfl, hc, hphase, (of_transfers hphase).2.2, hfd⟩

omit [DecidableEq ι] in
/-- No two coroutines await the same descriptor. -/
theorem Local.awaits_apart (h : Local cfg s) (k k' : Coroutine ι) (w w' : Wait (Coroutine ι))
    (hw : s.runtime.status k = .awaiting w) (hw' : s.runtime.status k' = .awaiting w')
    (hfd : w.fd = w'.fd) : k = k' := by
  rcases h.awaits hw with ⟨n, rfl, hn, hserver⟩ | ⟨i, c, rfl, hc, -, hopen, hown⟩
  · rcases h.awaits hw' with ⟨m, rfl, hm, hserver'⟩ | ⟨j, c', rfl, hc', -, hopen', hown'⟩
    · have hlast := (h.single n (by rw [hn]; rfl)).1
      have hlast' := (h.single m (by rw [hm]; rfl)).1
      rw [show n = m by omega]
    · exact absurd (hown'.symm.trans (hfd.symm.trans hserver)) (h.ownFd j c' hc' hopen').2.1
  · rcases h.awaits hw' with ⟨m, rfl, hm, hserver'⟩ | ⟨j, c', rfl, hc', -, hopen', hown'⟩
    · exact absurd (hown.symm.trans (hfd.trans hserver')) (h.ownFd i c hc hopen).2.1
    · by_contra hne
      have hij : i ≠ j := fun heq => hne (by rw [heq])
      exact (h.ownFd j c' hc' hopen').2.2 i c hij hc hopen
        (hown.symm.trans (hfd.trans hown'))

omit [DecidableEq ι] in
theorem Local.isOpen_of_awaiting (h : Local cfg s) {k : Coroutine ι}
    (hw : s.runtime.status k = .awaiting w) : s.IsOpen w.fd := by
  rcases h.awaits hw with ⟨n, rfl, hn, hserver⟩ | ⟨i, c, rfl, hc, -, hopen, hown⟩
  · have hlistening := (h.single n (by rw [hn]; rfl)).2
    exact Or.inl ⟨hserver, by rw [hserver]; exact hlistening⟩
  · exact Or.inr ⟨i, c, hc, hopen, hown.symm⟩

omit [DecidableEq ι] in
/-- An accept loop that awaits is an active one. -/
theorem Local.active_of_awaiting (h : Local cfg s) {n : Nat}
    (hw : s.runtime.status (.acceptLoop n) = .awaiting w) : (s.acceptLoop n).isActive = true := by
  rcases h.awaits hw with ⟨m, hm, hphase, -⟩ | ⟨i, c, hi, -⟩
  · cases hm
    rw [hphase]
    rfl
  · cases hi

/-- An await returns to a coroutine that was awaiting. -/
theorem Local.resume (h : Local cfg s) {runtime : Runtime (Coroutine ι)} {k : Coroutine ι}
    {w : Wait (Coroutine ι)} (hw : s.runtime.status k = .awaiting w) (ready : Bool)
    (hstatus : runtime.status = update s.runtime.status k .executing) :
    Local cfg (Server.resume { s with runtime } (some (k, ready))) := by
  cases k with
  | acceptLoop n =>
    refine h.setLoop (n := n) ?_ rfl ⟨rfl, rfl, rfl, rfl, rfl⟩ ?_ (h.active_of_awaiting hw)
    · intro k hk
      simp only [Server.resume]
      rw [hstatus, update_of_ne hk]
    · simp only [Server.resume]
      rw [hstatus, update_self]
      rfl
  | connection i =>
    have hok := h.connections i
    rw [hw] at hok
    generalize hc : s.connection i = found at hok
    cases hok with
    | awaiting hfd hphase hfaithful =>
      rename_i c
      rcases of_transfers hphase with ⟨hexecutes, hcounts, hopens⟩
      have hresumed : executes (c.coroutine.resume ready).phase = true ∧
          counts (c.coroutine.resume ready).phase = true := by
        cases ready with
        | true => exact ⟨hexecutes, hcounts⟩
        | false => exact ⟨rfl, rfl⟩
      refine h.setConnection (i := i) (c := { c with
          coroutine := c.coroutine.resume ready
          answers := c.answers ++ [ready] }) ?_ ?_ ⟨rfl, rfl, rfl, rfl⟩ ?_ ?_ ?_ ?_
      · intro k hk
        simp only [Server.resume]
        rw [hstatus, update_of_ne hk]
      · simp only [Server.resume]
        rw [hc]
        rfl
      · simp only [Server.resume]
        rw [hstatus, update_self]
        exact .executing hresumed.1 (hfaithful ready)
      · exact h.accepted i c hc
      · intro _
        exact h.ownFd i c hc hopens
      · simp only [Server.resume, counted, hc, hcounts, hresumed.2]

end Local

/-! ### Steps that leave the owner alone -/

section Control

/-- The reactor thread or a call of `register_waiter` has moved, not the owner. -/
structure SameOwner {ρ : Type*} (r r' : EpollReactor.Reactor ρ) : Prop where
  owner : r'.owner = r.owner
  running : r'.running = r.running
  started : r'.loop = .notStarted → r.loop = .notStarted

theorem SameOwner.refl {ρ : Type*} (r : EpollReactor.Reactor ρ) : SameOwner r r :=
  ⟨rfl, rfl, id⟩

theorem sameOwner_of_call {ρ : Type*} [DecidableEq ρ] {d : Descriptors}
    {awaiter : ρ → EpollReactor.FdAwaiter} {r r' : EpollReactor.Reactor ρ} {w : ρ} {added : Bool}
    (hstep : EpollReactor.callStep d awaiter r w added = some r') : SameOwner r r' := by
  cases EpollReactor.callStep_transition hstep <;> exact ⟨rfl, rfl, id⟩

theorem sameOwner_of_loop {ρ : Type*} [DecidableEq ρ] {d : Descriptors}
    {order : IterationOrder Int} {r r' : EpollReactor.Reactor ρ} {events : List Int}
    (hstep : EpollReactor.loopStep d order r events = some r') : SameOwner r r' := by
  cases EpollReactor.loopStep_transition hstep with
  | checkStop hphase =>
    refine ⟨rfl, rfl, fun h => ?_⟩
    simp only at h
    split at h <;> cases h
  | drain hphase hfree h hh =>
    refine ⟨rfl, rfl, fun h => ?_⟩
    simp only at h
    split at h <;> cases h
  | _ => exact ⟨rfl, rfl, fun h => by cases h⟩

variable {s s' : Server ι}

omit [DecidableEq ι] in
theorem Control.frame (h : Control s)
    (hrest : s'.owner = s.owner ∧ s'.serves = s.serves ∧ s'.serverFd = s.serverFd)
    (hactive : ∀ n, (s'.acceptLoop n).isActive = true → (s.acceptLoop n).isActive = true)
    (hreactor : SameOwner s.runtime.reactor s'.runtime.reactor)
    (hcaller : s'.runtime.stack .caller ≠ [] → s.runtime.stack .caller ≠ [])
    (hpools : ∀ k, OffPool s'.connection k → s'.runtime.stack (.pool k) = []) : Control s' := by
  rcases hrest with ⟨howner, hserves, hserver⟩
  refine ⟨?_, ?_, hpools, ?_⟩
  · have hok := h.owner
    unfold OwnerOk at hok ⊢
    rw [howner]
    cases hphase : s.owner with
    | serveStarting =>
      rw [hphase] at hok
      refine ⟨by rw [hserver]; exact hok.1, fun n => ?_⟩
      rw [Bool.eq_false_iff]
      intro hn
      have hbefore := hactive n hn
      rw [hok.2 n] at hbefore
      cases hbefore
    | outside | serveAccepting =>
      rw [hphase] at hok
      exact hreactor.owner.trans hok
    | stopReactor => trivial
    | stopWaiting =>
      rw [hphase] at hok
      exact ⟨hreactor.owner.trans hok.1, hreactor.running.trans hok.2⟩
  · intro hne
    rw [howner]
    exact h.callers (hcaller hne)
  · intro hloop
    rw [hserves, hreactor.running, hreactor.owner]
    exact h.started (hreactor.started hloop)

omit [DecidableEq ι] in
theorem Control.pool_ne (h : Control s) {t : Thread (Coroutine ι)}
    (ht : s.runtime.stack t ≠ []) {k : Coroutine ι} (hk : OffPool s.connection k) :
    .pool k ≠ t := by
  rintro rfl
  exact ht (h.pools k hk)

/-- A thread that is executing something changes its stack. -/
theorem Control.threadFrame (h : Control s) {t : Thread (Coroutine ι)}
    (ht : s.runtime.stack t ≠ []) {frames : List (Frame (Coroutine ι))}
    (hstack : s'.runtime.stack = update s.runtime.stack t frames)
    (hrest : s'.owner = s.owner ∧ s'.serves = s.serves ∧ s'.serverFd = s.serverFd)
    (hactive : ∀ n, (s'.acceptLoop n).isActive = true → (s.acceptLoop n).isActive = true)
    (hoff : ∀ k, OffPool s'.connection k → OffPool s.connection k)
    (hreactor : SameOwner s.runtime.reactor s'.runtime.reactor) : Control s' := by
  refine h.frame hrest hactive hreactor ?_ ?_
  · intro hne
    rw [hstack] at hne
    by_cases hcaller : Thread.caller = t
    · rw [hcaller]
      exact ht
    · rw [update_of_ne hcaller] at hne
      exact hne
  · intro k hk
    rw [hstack, update_of_ne (h.pool_ne ht (hoff k hk))]
    exact h.pools k (hoff k hk)

omit [DecidableEq ι] in
theorem Control.sameStack (h : Control s) (hstack : s'.runtime.stack = s.runtime.stack)
    (hrest : s'.owner = s.owner ∧ s'.serves = s.serves ∧ s'.serverFd = s.serverFd)
    (hactive : ∀ n, (s'.acceptLoop n).isActive = true → (s.acceptLoop n).isActive = true)
    (hoff : ∀ k, OffPool s'.connection k → OffPool s.connection k)
    (hreactor : SameOwner s.runtime.reactor s'.runtime.reactor) : Control s' := by
  refine h.frame hrest hactive hreactor ?_ ?_
  · rw [hstack]
    exact id
  · intro k hk
    rw [hstack]
    exact h.pools k (hoff k hk)

/-- A connection that has moved on from its first phase. -/
theorem offPool_of_update {connection : ι → Option Connection} {i : ι} {c : Connection}
    (hc : c.coroutine.phase ≠ .entered) (k : Coroutine ι)
    (hk : OffPool (update connection i (some c)) k) : OffPool connection k := by
  cases k with
  | acceptLoop n => trivial
  | connection j =>
    by_cases hji : j = i
    · subst hji
      exact absurd (hk c (update_self ..)) hc
    · intro c' hc'
      exact hk c' (by rw [update_of_ne hji]; exact hc')

end Control

/-! ### The steps of the threads -/

section Threads

variable [Fintype ι] {cfg} {s : Server ι}

omit [Fintype ι] in
/-- What the return of an await leaves alone. -/
theorem resume_frame (s : Server ι) (resumption : Option (Coroutine ι × Bool)) :
    (s.resume resumption).runtime = s.runtime ∧ (s.resume resumption).owner = s.owner ∧
      (s.resume resumption).serves = s.serves ∧ (s.resume resumption).serverFd = s.serverFd ∧
      (s.resume resumption).stopping = s.stopping ∧ (s.resume resumption).stops = s.stops := by
  rcases resumption with - | ⟨k, ready⟩
  · exact ⟨rfl, rfl, rfl, rfl, rfl, rfl⟩
  · cases k <;> exact ⟨rfl, rfl, rfl, rfl, rfl, rfl⟩

variable {runtime : Runtime (Coroutine ι)}

omit [DecidableEq ι] in
/-- Only the status of the coroutines matters. -/
theorem Local.withRuntime (h : Local cfg s) {stopping : Bool} {owner : OwnerPhase}
    (hstatus : runtime.status = s.runtime.status) :
    Local cfg { s with runtime, stopping, owner } where
  loops n := by
    simp only
    rw [hstatus]
    exact h.loops n
  connections i := by
    simp only
    rw [hstatus]
    exact h.connections i
  called := h.called
  single := h.single
  accepted := h.accepted
  ownFd := h.ownFd
  count := h.count

theorem Local.active_of_resume (h : Local cfg s) {k : Coroutine ι} {w : Wait (Coroutine ι)}
    (hw : s.runtime.status k = .awaiting w) (ready : Bool) (n : Nat)
    (hn : ((Server.resume { s with runtime } (some (k, ready))).acceptLoop n).isActive = true) :
    (s.acceptLoop n).isActive = true := by
  cases k with
  | acceptLoop m =>
    by_cases hnm : n = m
    · subst hnm
      exact h.active_of_awaiting hw
    · simpa only [Server.resume, update_of_ne hnm] using hn
  | connection i => exact hn

theorem Local.offPool_of_resume (h : Local cfg s) {k : Coroutine ι} {w : Wait (Coroutine ι)}
    (hw : s.runtime.status k = .awaiting w) (ready : Bool) (j : Coroutine ι)
    (hj : OffPool (Server.resume { s with runtime } (some (k, ready))).connection j) :
    OffPool s.connection j := by
  rcases h.awaits hw with ⟨n, rfl, -⟩ | ⟨i, c, rfl, hc, htransfers, -⟩
  · exact hj
  · refine offPool_of_update (i := i) (c := { c with
      coroutine := c.coroutine.resume ready, answers := c.answers ++ [ready] }) ?_ j ?_
    · cases ready with
      | true =>
        intro hentered
        rw [show c.coroutine.phase = .entered from hentered] at htransfers
        cases htransfers
      | false => simp [AsyncTransport.Coroutine.resume]
    · simpa only [Server.resume, hc, Option.map_some] using hj

variable {resumption : Option (Coroutine ι × Bool)}

/-- The reactor moves, and an await may return to its coroutine; no idle thread but the
reactor's begins to execute something. -/
theorem Inv.withResumption (h : Inv cfg s)
    (hruntime : ∃ resumed reported, Coroutines.Inv cfg.descriptors resumed reported runtime)
    (hreachable : (EpollReactor.onePerFd cfg.descriptors Wait.awaiter cfg.order).Reachable
      runtime.reactor)
    (hreactor : SameOwner s.runtime.reactor runtime.reactor)
    (hcases : (resumption = none ∧ runtime.status = s.runtime.status) ∨
      ∃ k w ready, resumption = some (k, ready) ∧ s.runtime.status k = .awaiting w ∧
        runtime.status = update s.runtime.status k .executing)
    (hidle : ∀ t, t ≠ .reactor → s.runtime.stack t = [] → runtime.stack t = []) :
    Inv cfg (Server.resume { s with runtime } resumption) := by
  rcases resume_frame { s with runtime } resumption with
    ⟨hsame, howner, hserves, hserver, hstopping, hstops⟩
  have hcaller : runtime.stack .caller ≠ [] → s.runtime.stack .caller ≠ [] :=
    fun hne hempty => hne (hidle .caller (by simp) hempty)
  have hpools : ∀ k, OffPool s.connection k → runtime.stack (.pool k) = [] :=
    fun k hk => hidle (.pool k) (by simp) (h.control.pools k hk)
  refine ⟨by rw [hsame]; exact hruntime, by rw [hsame]; exact hreachable, ?_, ?_,
    by rw [hstopping, hstops]; exact h.stopped⟩
  · rcases hcases with ⟨rfl, hstatus⟩ | ⟨k, w, ready, rfl, hw, hstatus⟩
    · exact h.coroutines.withRuntime hstatus
    · exact h.coroutines.resume hw ready hstatus
  · rcases hcases with ⟨rfl, -⟩ | ⟨k, w, ready, rfl, hw, -⟩
    · exact h.control.frame ⟨rfl, rfl, rfl⟩ (fun _ => id) hreactor hcaller hpools
    · refine h.control.frame ⟨howner, hserves, hserver⟩ (h.coroutines.active_of_resume hw ready)
        ?_ ?_ ?_
      · rw [hsame]
        exact hreactor
      · rw [hsame]
        exact hcaller
      · rw [hsame]
        exact fun k hk => hpools k (h.coroutines.offPool_of_resume hw ready k hk)

/-- A thread inside `register_waiter`. -/
theorem Inv.callStep (h : Inv cfg s) {t : Thread (Coroutine ι)} {w : Wait (Coroutine ι)}
    {rest : List (Frame (Coroutine ι))} (hstack : s.runtime.stack t = .call w :: rest)
    {added : Bool} (hcall : s.runtime.call cfg.descriptors t w added = some (runtime, resumption)) :
    Inv cfg (Server.resume { s with runtime } resumption) := by
  rcases h.runtime with ⟨resumed, reported, hruntime⟩
  have hmem : Frame.call w ∈ s.runtime.stack t := by
    rw [hstack]
    exact List.mem_cons_self
  have hone := hruntime.onePerFd h.coroutines.awaits_apart hmem added
  rcases Runtime.call_cases hcall with ⟨hstep, hcases⟩
  refine h.withResumption ⟨resumed, reported, hruntime.call hstack hone hcall⟩
    (h.reachable.step (a := .call w added)
      (StateMachine.restrict_step_eq_some.2 ⟨hone, hstep⟩))
    (sameOwner_of_call hstep) ?_ ?_
  · rcases hcases with ⟨hnone, hstatus, -⟩ | ⟨ready, hsome, hrefused, hstatus, -⟩
    · exact Or.inl ⟨hnone, hstatus⟩
    · exact Or.inr ⟨_, w, ready, hsome, hruntime.awaiting_of_refused
        (hruntime.inProgress_of_mem hmem) hone hstep hrefused, hstatus⟩
  · intro u _ hempty
    have hne : u ≠ t := by
      rintro rfl
      exact List.ne_nil_of_mem hmem hempty
    rcases hcases with ⟨-, -, hframes | hframes⟩ | ⟨-, -, -, -, hframes⟩
    · rw [hframes]
      exact hempty
    · rw [hframes, update_of_ne hne]
      exact hempty
    · rw [hframes, update_of_ne hne]
      exact hempty

/-- The reactor thread inside `run`. -/
theorem Inv.loopStep (h : Inv cfg s) {events : List Int}
    (hloop : s.runtime.loop cfg.descriptors cfg.order events = some (runtime, resumption)) :
    Inv cfg (Server.resume { s with runtime } resumption) := by
  rcases h.runtime with ⟨resumed, reported, hruntime⟩
  rcases Runtime.loop_cases hloop with ⟨hstep, hcases⟩
  refine h.withResumption (hruntime.loop hloop)
    (h.reachable.step (a := .loop events)
      (StateMachine.restrict_step_eq_some.2 ⟨trivial, hstep⟩))
    (sameOwner_of_loop hstep) ?_ ?_
  · rcases hcases with ⟨hnone, hstatus, -⟩ | ⟨w, ready, hpending, hsome, hstatus, -⟩
    · exact Or.inl ⟨hnone, hstatus⟩
    · exact Or.inr ⟨_, w, ready, hsome, hruntime.status_of_pending hpending, hstatus⟩
  · intro u hu hempty
    rcases hcases with ⟨-, -, hframes⟩ | ⟨w, -, -, -, -, hframes⟩
    · rw [hframes]
      exact hempty
    · rw [hframes, update_of_ne hu]
      exact hempty

omit [DecidableEq ι] in
/-- An accept loop that a thread executes. -/
theorem Local.active_of_executing (h : Local cfg s) {n : Nat}
    (hn : s.runtime.status (.acceptLoop n) = .executing) : (s.acceptLoop n).isActive = true := by
  have hok := h.loops n
  rw [hn] at hok
  cases hphase : s.acceptLoop n with
  | notCalled | ended =>
    rw [hphase] at hok
    cases hok
  | _ => rfl

omit [DecidableEq ι] in
/-- An active accept loop is executed or awaits. -/
theorem Local.status_of_active (h : Local cfg s) {n : Nat}
    (hn : (s.acceptLoop n).isActive = true) :
    s.runtime.status (.acceptLoop n) ≠ .inactive ∧
      s.runtime.status (.acceptLoop n) ≠ .queued := by
  have hok := h.loops n
  cases hphase : s.acceptLoop n with
  | notCalled | ended =>
    rw [hphase] at hn
    cases hn
  | awaiting =>
    rw [hphase] at hok
    rcases hok with ⟨w, hw, -⟩
    simp [hw]
  | checkStopping | resumed ready | accepting =>
    rw [hphase] at hok
    simp [show s.runtime.status (.acceptLoop n) = .executing from hok]

theorem active_of_update {acceptLoop : Nat → AcceptPhase} {n : Nat} {phase : AcceptPhase}
    (hn : (acceptLoop n).isActive = true) (m : Nat)
    (hm : (update acceptLoop n phase m).isActive = true) :
    (acceptLoop m).isActive = true := by
  by_cases hmn : m = n
  · rw [hmn]
    exact hn
  · rw [update_of_ne hmn] at hm
    exact hm

/-- An accept loop ends. -/
theorem Inv.endLoop (h : Inv cfg s) {t : Thread (Coroutine ι)} {n : Nat}
    {rest : List (Frame (Coroutine ι))}
    (hstack : s.runtime.stack t = .coroutine (.acceptLoop n) :: rest)
    (hactive : (s.acceptLoop n).isActive = true) : Inv cfg (s.endLoop t n) := by
  rcases h.runtime with ⟨resumed, reported, hruntime⟩
  have hbusy : s.runtime.stack t ≠ [] := by
    rw [hstack]
    exact List.cons_ne_nil _ _
  refine ⟨⟨resumed, reported, hruntime.leave hstack (Or.inl rfl)⟩, h.reachable, ?_, ?_, h.stopped⟩
  · refine h.coroutines.setLoop (n := n) ?_ rfl ⟨rfl, rfl, rfl, rfl, rfl⟩ ?_ hactive
    · intro k hk
      exact update_of_ne hk _ _
    · exact update_self ..
  · exact h.control.threadFrame hbusy rfl ⟨rfl, rfl, rfl⟩ (active_of_update hactive)
      (fun _ => id) (SameOwner.refl _)

/-- An accept loop moves on, on its thread. -/
theorem Inv.moveLoop (h : Inv cfg s) {n : Nat} {phase : AcceptPhase}
    (hactive : (s.acceptLoop n).isActive = true)
    (hok : LoopOk s.serverFd (s.runtime.status (.acceptLoop n)) phase) :
    Inv cfg { s with acceptLoop := update s.acceptLoop n phase } :=
  ⟨h.runtime, h.reachable,
    h.coroutines.setLoop (n := n) (fun _ _ => rfl) rfl ⟨rfl, rfl, rfl, rfl, rfl⟩ hok hactive,
    h.control.sameStack rfl ⟨rfl, rfl, rfl⟩ (active_of_update hactive) (fun _ => id)
      (SameOwner.refl _),
    h.stopped⟩

/-- What entering `register_waiter` does to the reactor. -/
theorem Inv.reachable_park (h : Inv cfg s) {resumed reported : Wait (Coroutine ι) → Nat}
    (hruntime : Coroutines.Inv cfg.descriptors resumed reported s.runtime)
    {t : Thread (Coroutine ι)} {k : Coroutine ι} {fd : Int} {timeoutMs : BitVec 32}
    (hpark : s.runtime.park cfg.descriptors t k fd timeoutMs = some runtime) :
    (EpollReactor.onePerFd cfg.descriptors Wait.awaiter cfg.order).Reachable runtime.reactor := by
  refine h.reachable.step (a := .call (s.runtime.nextWait k fd timeoutMs) false)
    (StateMachine.restrict_step_eq_some.2 ⟨?_, (Runtime.park_cases hpark).1⟩)
  intro hphase
  rw [hruntime.call_nextWait] at hphase
  cases hphase

/-- The accept loop calls `handle_connection` for a new connection. -/
theorem Inv.accept (h : Inv cfg s) {t : Thread (Coroutine ι)} {n : Nat}
    {rest : List (Frame (Coroutine ι))}
    (hstack : s.runtime.stack t = .coroutine (.acceptLoop n) :: rest)
    (hactive : (s.acceptLoop n).isActive = true) {i : ι} {fd : Int}
    (habsent : s.connection i = none) (hnonneg : 0 ≤ fd) (hclosed : ¬ s.IsOpen fd) :
    Inv cfg
      { s with
        runtime := s.runtime.enter t (.connection i)
        connection := update s.connection i
          (some ⟨fd, ⟨.entered, cfg.peers i, []⟩, []⟩) } := by
  rcases h.runtime with ⟨resumed, reported, hruntime⟩
  have hmem : Frame.coroutine (.acceptLoop n) ∈ s.runtime.stack t := by
    rw [hstack]
    exact List.mem_cons_self
  have hbusy : s.runtime.stack t ≠ [] := List.ne_nil_of_mem hmem
  have hinactive : s.runtime.status (.connection i) = .inactive := by
    have hok := h.coroutines.connections i
    rw [habsent] at hok
    generalize s.runtime.status (.connection i) = status at hok
    cases hok
    rfl
  refine ⟨⟨resumed, reported, hruntime.enter (Or.inl hinactive) ?_ ?_⟩, h.reachable, ?_, ?_,
    h.stopped⟩
  · rintro rfl
    exact hbusy
  · -- Accept loops are never on the pool.
    rintro j rfl
    have hj : Coroutine.acceptLoop n = j := hruntime.own _ j rfl _ hmem
    exact absurd (h.control.pools (.acceptLoop n) trivial) (by rw [hj]; exact hbusy)
  · refine h.coroutines.setConnection (i := i) ?_ rfl ⟨rfl, rfl, rfl, rfl⟩ ?_ ?_ ?_ ?_
    · intro k hk
      exact update_of_ne hk _ _
    · rw [Runtime.enter_status, update_self]
      exact .executing rfl (AsyncTransport.faithful_entered _ _ _)
    · have hlast := (h.coroutines.single n hactive).1
      omega
    · intro _
      refine ⟨hnonneg, fun heq => hclosed (Or.inl ⟨heq, hnonneg⟩), ?_⟩
      intro j c _ hc hopen heq
      exact hclosed (Or.inr ⟨j, c, hc, hopen, heq⟩)
    · rw [habsent]
      rfl
  · refine h.control.threadFrame hbusy rfl ⟨rfl, rfl, rfl⟩ (fun _ => id) ?_ (SameOwner.refl _)
    rintro (m | j) hk
    · trivial
    · intro c hc
      have hji : j ≠ i := by
        rintro rfl
        rw [habsent] at hc
        cases hc
      exact hk c (by simp only; rw [update_of_ne hji]; exact hc)

/-- A step of the accept loop keeps the invariant. -/
theorem Inv.acceptStep (h : Inv cfg s) {t : Thread (Coroutine ι)} {n : Nat}
    {rest : List (Frame (Coroutine ι))}
    (hstack : s.runtime.stack t = .coroutine (.acceptLoop n) :: rest)
    {accepted : Option (ι × Int)}
    (hkernel : ∀ i fd, accepted = some (i, fd) → 0 ≤ fd ∧ ¬ s.IsOpen fd) {s' : Server ι}
    (hstep : acceptStep cfg s t n accepted = some s') : Inv cfg s' := by
  rcases h.runtime with ⟨resumed, reported, hruntime⟩
  have hmem : Frame.coroutine (.acceptLoop n) ∈ s.runtime.stack t := by
    rw [hstack]
    exact List.mem_cons_self
  have hbusy : s.runtime.stack t ≠ [] := List.ne_nil_of_mem hmem
  have hexecuting := hruntime.executing_of_mem hmem
  have hactive := h.coroutines.active_of_executing hexecuting
  unfold AsyncServer.acceptStep at hstep
  cases hphase : s.acceptLoop n with
  | checkStopping =>
    rw [hphase] at hstep
    simp only at hstep
    split at hstep
    · cases hstep
      exact h.endLoop hstack hactive
    · rcases Option.map_eq_some_iff.1 hstep with ⟨runtime, hpark, rfl⟩
      rcases Runtime.park_cases hpark with ⟨hcall, hstatus, hframes⟩
      refine ⟨⟨resumed, reported, hruntime.park hstack hpark⟩, h.reachable_park hruntime hpark,
        ?_, ?_, h.stopped⟩
      · refine h.coroutines.setLoop (n := n) ?_ rfl ⟨rfl, rfl, rfl, rfl, rfl⟩ ?_ hactive
        · intro k hk
          simp only
          rw [hstatus, update_of_ne hk]
        · simp only
          rw [hstatus, update_self]
          exact ⟨_, rfl, rfl⟩
      · exact h.control.threadFrame hbusy hframes ⟨rfl, rfl, rfl⟩ (active_of_update hactive)
          (fun _ => id) (sameOwner_of_call hcall)
  | resumed ready =>
    rw [hphase] at hstep
    simp only at hstep
    split at hstep
    · cases hstep
      exact h.endLoop hstack hactive
    · cases hstep
      apply h.moveLoop hactive
      rw [hexecuting]
      cases ready <;> rfl
  | accepting =>
    rw [hphase] at hstep
    rcases accepted with - | ⟨i, fd⟩
    · cases hstep
      apply h.moveLoop hactive
      rw [hexecuting]
      rfl
    · rcases Option.ite_none_right_eq_some.1 hstep with ⟨habsent, hentered⟩
      cases hentered
      rcases hkernel i fd rfl with ⟨hnonneg, hclosed⟩
      exact h.accept hstack hactive (Option.isNone_iff_eq_none.1 habsent) hnonneg hclosed
  | notCalled | awaiting | ended =>
    rw [hphase] at hstep
    cases hstep

/-- A connection whose coroutine has moved by one piece. -/
theorem Local.advance (h : Local cfg s) {s' : Server ι} {i : ι} {c : Connection}
    (hc : s.connection i = some c)
    (hstatus : ∀ k, k ≠ .connection i → s'.runtime.status k = s.runtime.status k)
    (hconnection : s'.connection = update s.connection i
      (some { c with coroutine := (c.coroutine.advance cfg.handler s.stopping).2 }))
    (hrest : s'.stops = s.stops ∧ s'.serverFd = s.serverFd ∧ s'.acceptLoop = s.acceptLoop ∧
      s'.serves = s.serves)
    (hok : ConnectionOk cfg (0 < s.stops) i (s'.runtime.status (.connection i))
      (some { c with coroutine := (c.coroutine.advance cfg.handler s.stopping).2 }))
    (hcount : s'.activeConnections + (counts c.coroutine.phase).toNat =
      s.activeConnections +
        (counts (c.coroutine.advance cfg.handler s.stopping).2.phase).toNat) : Local cfg s' := by
  refine h.setConnection hstatus hconnection hrest hok (h.accepted i c hc) ?_
    (by rw [hc]; exact hcount)
  intro hopen
  exact h.ownFd i c hc (opens_of_next (c.coroutine.next_advance cfg.handler s.stopping) hopen)

section Pieces

variable {t : Thread (Coroutine ι)} {i : ι} {c : Connection}

/-- A connection moves by one piece, and its thread goes on with it. -/
theorem Inv.moveOn (h : Inv cfg s) (hc : s.connection i = some c)
    (hexecuting : s.runtime.status (.connection i) = .executing)
    (hphase : executes (c.coroutine.advance cfg.handler s.stopping).2.phase = true)
    (hfaithful : (c.coroutine.advance cfg.handler s.stopping).2.Faithful cfg.handler
      (cfg.peers i) (0 < s.stops) c.answers) {active : Nat}
    (hcount : active + (counts c.coroutine.phase).toNat = s.activeConnections +
      (counts (c.coroutine.advance cfg.handler s.stopping).2.phase).toNat) :
    Inv cfg
      { s with
        connection := update s.connection i
          (some { c with coroutine := (c.coroutine.advance cfg.handler s.stopping).2 })
        activeConnections := active } := by
  refine ⟨h.runtime, h.reachable, ?_, ?_, h.stopped⟩
  · refine h.coroutines.advance hc (fun _ _ => rfl) rfl ⟨rfl, rfl, rfl, rfl⟩ ?_ hcount
    simp only
    rw [hexecuting]
    exact .executing hphase hfaithful
  · exact h.control.sameStack rfl ⟨rfl, rfl, rfl⟩ (fun _ => id)
      (offPool_of_update (entered_of_next (c.coroutine.next_advance cfg.handler s.stopping)))
      (SameOwner.refl _)

/-- A connection moves by one piece, and its thread leaves it. -/
theorem Inv.moveAway (h : Inv cfg s) (hc : s.connection i = some c)
    {rest : List (Frame (Coroutine ι))}
    (hstack : s.runtime.stack t = .coroutine (.connection i) :: rest)
    {status : Status (Coroutine ι)} (hstatus : status = .inactive ∨ status = .queued)
    (hok : ConnectionOk cfg (0 < s.stops) i status
      (some { c with coroutine := (c.coroutine.advance cfg.handler s.stopping).2 }))
    {active : Nat}
    (hcount : active + (counts c.coroutine.phase).toNat = s.activeConnections +
      (counts (c.coroutine.advance cfg.handler s.stopping).2.phase).toNat) :
    Inv cfg
      { s with
        runtime := s.runtime.leave t (.connection i) status
        connection := update s.connection i
          (some { c with coroutine := (c.coroutine.advance cfg.handler s.stopping).2 })
        activeConnections := active } := by
  rcases h.runtime with ⟨resumed, reported, hruntime⟩
  have hbusy : s.runtime.stack t ≠ [] := by
    rw [hstack]
    exact List.cons_ne_nil _ _
  refine ⟨⟨resumed, reported, hruntime.leave hstack hstatus⟩, h.reachable, ?_, ?_, h.stopped⟩
  · refine h.coroutines.advance hc ?_ rfl ⟨rfl, rfl, rfl, rfl⟩ ?_ hcount
    · intro k hk
      exact update_of_ne hk _ _
    · rw [Runtime.leave_status, update_self]
      exact hok
  · exact h.control.threadFrame hbusy rfl ⟨rfl, rfl, rfl⟩ (fun _ => id)
      (offPool_of_update (entered_of_next (c.coroutine.next_advance cfg.handler s.stopping)))
      (SameOwner.refl _)

/-- A step of a handler keeps the invariant. -/
theorem Inv.connectionStep (h : Inv cfg s) {rest : List (Frame (Coroutine ι))}
    (hstack : s.runtime.stack t = .coroutine (.connection i) :: rest) {s' : Server ι}
    (hstep : connectionStep cfg s t i = some s') : Inv cfg s' := by
  rcases h.runtime with ⟨resumed, reported, hruntime⟩
  have hmem : Frame.coroutine (.connection i) ∈ s.runtime.stack t := by
    rw [hstack]
    exact List.mem_cons_self
  have hexecuting := hruntime.executing_of_mem hmem
  have hok := h.coroutines.connections i
  rw [hexecuting] at hok
  unfold AsyncServer.connectionStep at hstep
  cases hc : s.connection i with
  | none =>
    rw [hc] at hstep
    cases hstep
  | some c =>
    rw [hc] at hstep hok
    cases hok with
    | executing hphase hfaithful =>
      have hnext := c.coroutine.next_advance cfg.handler s.stopping
      rcases counts_of_next hnext with ⟨hcount, hleave, hkeep⟩
      have hmoved := hfaithful.advance h.stopped
      have hexecutes := executes_of_next hnext fun hended => by
        rw [hended] at hphase
        cases hphase
      simp only at hstep
      cases heffect : (c.coroutine.advance cfg.handler s.stopping).1 with
      | nothing =>
        rw [heffect] at hstep
        cases hstep
        refine h.moveOn hc hexecuting (hexecutes (Or.inl heffect))
          (hmoved (by simp [heffect])) ?_
        rw [hkeep (by simp [heffect]) (by simp [heffect])]
      | count =>
        rw [heffect] at hstep
        cases hstep
        refine h.moveOn hc hexecuting (hexecutes (Or.inr heffect))
          (hmoved (by simp [heffect])) ?_
        rw [(hcount heffect).1, (hcount heffect).2]
        rfl
      | await =>
        rw [heffect] at hstep
        rcases Option.map_eq_some_iff.1 hstep with ⟨runtime, hpark, rfl⟩
        rcases Runtime.park_cases hpark with ⟨hcall, hstatus, hframes⟩
        refine ⟨⟨resumed, reported, hruntime.park hstack hpark⟩,
          h.reachable_park hruntime hpark, ?_,
          h.control.threadFrame (List.ne_nil_of_mem hmem) hframes ⟨rfl, rfl, rfl⟩ (fun _ => id)
            (offPool_of_update (entered_of_next hnext)) (sameOwner_of_call hcall), h.stopped⟩
        refine h.coroutines.advance hc ?_ rfl ⟨rfl, rfl, rfl, rfl⟩ ?_ ?_
        · intro k hk
          simp only
          rw [hstatus, update_of_ne hk]
        · simp only
          rw [hstatus, update_self]
          rw [heffect] at hnext
          exact .awaiting rfl (transfers_of_await hnext) (hfaithful.await heffect)
        · rw [hkeep (by simp [heffect]) (by simp [heffect])]
      | hop =>
        rw [heffect] at hstep hnext
        cases hstep
        rcases hopped_of_hop hnext with ⟨payload, hpayload⟩
        refine h.moveAway hc hstack (Or.inr rfl)
          (.queued hpayload (hmoved (by simp [heffect]))) ?_
        rw [hkeep (by simp [heffect]) (by simp [heffect])]
      | leave =>
        rw [heffect] at hstep hnext
        cases hstep
        refine h.moveAway hc hstack (Or.inl rfl)
          (.ended (ended_of_leave hnext) (hmoved (by simp [heffect]))) ?_
        have hpos : 0 < s.activeConnections := by
          rw [h.coroutines.count]
          apply Finset.sum_pos' (fun _ _ => Nat.zero_le _) ⟨i, Finset.mem_univ i, ?_⟩
          simp only [hc, counted, (hleave heffect).1, Bool.toNat_true, Nat.zero_lt_one]
        rw [(hleave heffect).1, (hleave heffect).2]
        simp only [Bool.toNat_true, Bool.toNat_false]
        omega

end Pieces

/-- The handler pool takes up a connection. -/
theorem Inv.pickUp (h : Inv cfg s) {i : ι} {s' : Server ι}
    (hstep : pickUp cfg s i = some s') : Inv cfg s' := by
  rcases h.runtime with ⟨resumed, reported, hruntime⟩
  have hok := h.coroutines.connections i
  unfold AsyncServer.pickUp at hstep
  cases hc : s.connection i with
  | none =>
    rw [hc] at hstep
    cases hstep
  | some c =>
    rw [hc] at hstep hok
    rcases Option.ite_none_right_eq_some.1 hstep with ⟨⟨hqueued, hfree⟩, hentered⟩
    cases hentered
    rw [hqueued] at hok
    cases hok with
    | queued hphase hfaithful =>
      rename_i payload
      have hpiece : c.coroutine.advance cfg.handler s.stopping =
          (.nothing, { c.coroutine with phase := .handle payload }) := by
        unfold AsyncTransport.Coroutine.advance
        rw [hphase]
      have hmoved := hfaithful.advance h.stopped (by rw [hpiece]; simp)
      refine ⟨⟨resumed, reported, hruntime.enter (Or.inr hqueued) ?_ ?_⟩, h.reachable, ?_, ?_,
        h.stopped⟩
      · intro ht
        cases ht
      · intro j hj
        cases hj
        rfl
      · refine h.coroutines.advance hc ?_ rfl ⟨rfl, rfl, rfl, rfl⟩ ?_ ?_
        · intro k hk
          exact update_of_ne hk _ _
        · rw [Runtime.enter_status, update_self]
          exact .executing (by rw [hpiece]; rfl) hmoved
        · rw [hpiece, hphase]
          rfl
      · refine h.control.frame ⟨rfl, rfl, rfl⟩ (fun _ => id) (SameOwner.refl _) ?_ ?_
        · intro hne
          simpa [Runtime.enter] using hne
        · intro k hk
          have hki : k ≠ .connection i := by
            rintro rfl
            have hentered := hk _ (update_self ..)
            rw [hpiece] at hentered
            cases hentered
          have hbefore : OffPool s.connection k :=
            offPool_of_update (by rw [hpiece]; simp) k hk
          simpa [Runtime.enter, hki] using h.control.pools k hbefore

/-- A step of any thread keeps the invariant. -/
theorem Inv.threadStep (h : Inv cfg s) {t : Thread (Coroutine ι)} {added : Bool}
    {accepted : Option (ι × Int)} (hkernel : KernelDescriptors s (.thread t added accepted))
    {s' : Server ι} (hstep : threadStep cfg s t added accepted = some s') : Inv cfg s' := by
  unfold AsyncServer.threadStep at hstep
  rcases hstack : s.runtime.stack t with - | ⟨(n | i) | w, rest⟩
  · rw [hstack] at hstep
    cases hstep
  · rw [hstack] at hstep
    refine h.acceptStep hstack ?_ hstep
    rintro i fd rfl
    exact hkernel
  · rw [hstack] at hstep
    exact h.connectionStep hstack hstep
  · rw [hstack] at hstep
    rcases Option.map_eq_some_iff.1 hstep with ⟨⟨runtime, resumption⟩, hcall, rfl⟩
    exact h.callStep hstack hcall

/-! ### The steps of the owner -/

/-- When the reactor does not run and the owner's thread executes nothing, every coroutine
has ended or is on the pool. -/
theorem Inv.quiet (h : Inv cfg s) (howner : s.runtime.reactor.owner = .outside)
    (hstopped : s.runtime.reactor.running = false) (hcaller : s.runtime.stack .caller = [])
    (k : Coroutine ι) :
    s.runtime.status k = .inactive ∨ s.runtime.status k = .queued ∨
      s.runtime.stack (.pool k) ≠ [] := by
  rcases h.runtime with ⟨resumed, reported, hruntime⟩
  have hoff := hruntime.reactor.shutdown.owner
  rw [howner] at hoff
  have hoff : s.runtime.reactor.loop.off = true := hoff hstopped
  have hreactor : s.runtime.stack .reactor = [] := by
    by_contra hne
    have hresuming := hruntime.resuming hne
    cases hloop : s.runtime.reactor.loop with
    | resume toResume | drainResume toResume =>
      rw [hloop] at hoff
      cases hoff
    | _ =>
      rw [hloop] at hresuming
      cases hresuming
  -- A frame of the coroutine can only be on its thread of the pool.
  have hpool : ∀ f : Frame (Coroutine ι), f.owner = k → Coroutines.framesOf s.runtime.stack f = 1 →
      s.runtime.stack (.pool k) ≠ [] := by
    rintro f rfl hone hempty
    unfold Coroutines.framesOf at hone
    rw [hreactor, hcaller, hempty] at hone
    simp at hone
  cases hstatus : s.runtime.status k with
  | inactive => exact Or.inl rfl
  | queued => exact Or.inr (Or.inl rfl)
  | executing =>
    refine Or.inr (Or.inr (hpool (.coroutine k) rfl ?_))
    rw [hruntime.coroutines, hstatus]
    rfl
  | awaiting w =>
    refine Or.inr (Or.inr (hpool (.call w) (hruntime.awaiting k w hstatus).1 ?_))
    cases hloop : s.runtime.reactor.loop with
    | returned =>
      rw [hruntime.calls, hruntime.inProgress_of_returned hloop hstatus]
      rfl
    | notStarted =>
      have hzero := (h.control.started hloop).1
      rcases h.coroutines.awaits hstatus with ⟨n, rfl, hn, -⟩ | ⟨i, c, rfl, hc, -⟩
      · have hlast := (h.coroutines.single n (by rw [hn]; rfl)).1
        omega
      · have hserved := h.coroutines.accepted i c hc
        omega
    | _ =>
      rw [hloop] at hoff
      cases hoff

/-- After the reactor stopped, no loop is left. -/
theorem Inv.loops_ended (h : Inv cfg s) (howner : s.runtime.reactor.owner = .outside)
    (hstopped : s.runtime.reactor.running = false) (hcaller : s.runtime.stack .caller = [])
    (n : Nat) : (s.acceptLoop n).isActive = false := by
  rw [Bool.eq_false_iff]
  intro hactive
  rcases h.coroutines.status_of_active hactive with ⟨hactive, hunqueued⟩
  rcases h.quiet howner hstopped hcaller (.acceptLoop n) with hinactive | hqueued | hpool
  · exact hactive hinactive
  · exact hunqueued hqueued
  · exact hpool (h.control.pools (.acceptLoop n) trivial)

omit [DecidableEq ι] in
/-- The listening descriptor changes while no accept loop is active. -/
theorem Local.setServerFd (h : Local cfg s) {s' : Server ι}
    (hquiet : ∀ n, (s.acceptLoop n).isActive = false)
    (hfd : ∀ i c, s.connection i = some c → c.isOpen = true → c.fd ≠ s'.serverFd)
    (hrest : s'.runtime = s.runtime ∧ s'.stops = s.stops ∧ s'.acceptLoop = s.acceptLoop ∧
      s'.serves = s.serves ∧ s'.connection = s.connection ∧
      s'.activeConnections = s.activeConnections) : Local cfg s' := by
  rcases hrest with ⟨hruntime, hstops, hloops, hserves, hconnections, hcount⟩
  refine ⟨?_, ?_, ?_, ?_, ?_, ?_, ?_⟩
  · intro n
    rw [hruntime, hloops]
    have hok := h.loops n
    have hinactive := hquiet n
    cases hphase : s.acceptLoop n with
    | notCalled | ended =>
      rw [hphase] at hok
      exact hok
    | _ =>
      rw [hphase] at hinactive
      cases hinactive
  · rw [hruntime, hstops, hconnections]
    exact h.connections
  · rw [hloops, hserves]
    exact h.called
  · intro n hn
    rw [hloops, hquiet n] at hn
    cases hn
  · rw [hconnections, hserves]
    exact h.accepted
  · intro i c hc hopen
    rw [hconnections] at hc
    rcases h.ownFd i c hc hopen with ⟨hnonneg, -, hothers⟩
    exact ⟨hnonneg, hfd i c hc hopen, by rw [hconnections]; exact hothers⟩
  · rw [hcount, hconnections]
    exact h.count

/-- A step of `reactor_.start()` or `reactor_.stop()`. -/
theorem Inv.reactorOwnerStep (h : Inv cfg s)
    (hphase : s.owner = .serveStarting ∨ s.owner = .stopReactor) {s' : Server ι}
    (hstep : reactorOwnerStep cfg s = some s') : Inv cfg s' := by
  rcases h.runtime with ⟨resumed, reported, hruntime⟩
  unfold AsyncServer.reactorOwnerStep at hstep
  rcases Option.map_eq_some_iff.1 hstep with ⟨runtime, howner, rfl⟩
  rcases Runtime.owner_cases howner with ⟨hreactor, hstatus, hframes⟩
  refine ⟨⟨resumed, reported, hruntime.owner howner⟩, ?_, h.coroutines.withRuntime hstatus, ?_,
    h.stopped⟩
  · exact h.reachable.step (a := .owner) (StateMachine.restrict_step_eq_some.2 ⟨trivial, hreactor⟩)
  · refine ⟨?_, ?_, ?_, ?_⟩
    · have hok := h.control.owner
      unfold OwnerOk at hok ⊢
      rcases hphase with hphase | hphase
      · rw [hphase] at hok
        simp only [hphase]
        exact hok
      · simp only [hphase]
    · simp only
      rw [hframes]
      exact h.control.callers
    · simp only
      rw [hframes]
      exact h.control.pools
    · -- Only `start` leaves the state in which no thread has been created.
      have hstarted := h.control.started
      generalize runtime.reactor = reactor at hreactor
      simp only
      cases EpollReactor.ownerStep_transition hreactor with
      | requestStop howner hrunning =>
        intro hloop
        have hstarting := (hstarted hloop).2 hrunning
        rw [howner] at hstarting
        cases hstarting
      | start howner hrunning => exact fun hloop => ⟨(hstarted hloop).1, fun _ => rfl⟩
      | spawn howner => exact fun hloop => by cases hloop
      | assign howner | announce howner =>
        intro hloop
        refine ⟨(hstarted hloop).1, fun hrunning => ?_⟩
        have hstarting := (hstarted hloop).2 hrunning
        rw [howner] at hstarting
        cases hstarting
      | join howner hreturned =>
        intro hloop
        simp only at hloop
        rw [hreturned] at hloop
        cases hloop
      | finish howner => exact fun hloop => ⟨(hstarted hloop).1, fun hrunning => by cases hrunning⟩

/-- `serve` calls the accept loop. -/
theorem Inv.callLoop (h : Inv cfg s) (hphase : s.owner = .serveStarting)
    (howner : s.runtime.reactor.owner = .outside) (hrunning : s.runtime.reactor.running = true) :
    Inv cfg
      { s with
        runtime := s.runtime.enter .caller (.acceptLoop s.serves)
        acceptLoop := update s.acceptLoop s.serves .checkStopping
        serves := s.serves + 1
        owner := .serveAccepting } := by
  rcases h.runtime with ⟨resumed, reported, hruntime⟩
  have hok := h.control.owner
  unfold OwnerOk at hok
  rw [hphase] at hok
  rcases hok with ⟨hlistening, hquiet⟩
  have hnotCalled : s.acceptLoop s.serves = .notCalled := by
    by_contra hne
    exact absurd (h.coroutines.called _ hne) (Nat.lt_irrefl _)
  have hinactive : s.runtime.status (.acceptLoop s.serves) = .inactive := by
    have hloop := h.coroutines.loops s.serves
    rw [hnotCalled] at hloop
    exact hloop
  refine ⟨⟨resumed, reported, hruntime.enter (Or.inl hinactive) (fun ht => by cases ht)
    (fun _ ht => by cases ht)⟩, h.reachable, ?_, ?_, h.stopped⟩
  · refine ⟨?_, ?_, ?_, ?_, fun i c hc => Nat.succ_pos _, h.coroutines.ownFd,
      h.coroutines.count⟩
    · intro n
      simp only [Runtime.enter_status]
      by_cases hn : n = s.serves
      · subst hn
        rw [update_self, update_self]
        rfl
      · rw [update_of_ne hn, update_of_ne (by simpa using hn)]
        exact h.coroutines.loops n
    · intro i
      simp only [Runtime.enter_status]
      rw [update_of_ne (by simp)]
      exact h.coroutines.connections i
    · intro n hn
      simp only at hn ⊢
      by_cases hlast : n = s.serves
      · omega
      · rw [update_of_ne hlast] at hn
        have hbefore := h.coroutines.called n hn
        omega
    · intro n hn
      simp only at hn ⊢
      by_cases hlast : n = s.serves
      · exact ⟨by omega, hlistening⟩
      · rw [update_of_ne hlast, hquiet n] at hn
        cases hn
  · refine ⟨howner, fun _ => rfl, h.control.pools, ?_⟩
    intro hloop
    have hstarting := (h.control.started hloop).2 hrunning
    rw [howner] at hstarting
    cases hstarting

theorem Inv.stopWaiting (h : Inv cfg s) (hphase : s.owner = .stopWaiting) :
    s.runtime.reactor.owner = .outside ∧ s.runtime.reactor.running = false ∧
      s.runtime.stack .caller = [] := by
  have hok := h.control.owner
  unfold OwnerOk at hok
  rw [hphase] at hok
  refine ⟨hok.1, hok.2, ?_⟩
  by_contra hne
  have hserving := h.control.callers hne
  rw [hphase] at hserving
  cases hserving

/-- The last step of `stop_serving`. -/
theorem Inv.closeServer (h : Inv cfg s) (hphase : s.owner = .stopWaiting) :
    Inv cfg
      { s with serverFd := if 0 ≤ s.serverFd then -1 else s.serverFd, owner := .outside } := by
  rcases h.stopWaiting hphase with ⟨howner, hstopped, hcaller⟩
  refine ⟨h.runtime, h.reachable, ?_, ?_, h.stopped⟩
  · refine h.coroutines.setServerFd (h.loops_ended howner hstopped hcaller) ?_
      ⟨rfl, rfl, rfl, rfl, rfl, rfl⟩
    intro i c hc hopen
    have hnonneg := (h.coroutines.ownFd i c hc hopen).1
    simp only
    split <;> omega
  · exact ⟨howner, fun hne => absurd hcaller hne, h.control.pools, h.control.started⟩

/-- A step of the owner keeps the invariant. -/
theorem Inv.ownerStep (h : Inv cfg s) (hcaller : s.runtime.stack .caller = []) {expired : Bool}
    {s' : Server ι} (hstep : ownerStep cfg s expired = some s') : Inv cfg s' := by
  unfold AsyncServer.ownerStep at hstep
  have hok := h.control.owner
  unfold OwnerOk at hok
  cases hphase : s.owner with
  | outside =>
    rw [hphase] at hstep
    cases hstep
  | serveStarting =>
    rw [hphase] at hstep
    simp only at hstep
    split at hstep
    · rename_i hstarted
      cases hstep
      exact h.callLoop hphase hstarted.1 hstarted.2
    · exact h.reactorOwnerStep (Or.inl hphase) hstep
  | serveAccepting =>
    rw [hphase] at hstep hok
    cases hstep
    exact ⟨h.runtime, h.reachable, h.coroutines.withRuntime rfl,
      ⟨hok, fun hne => absurd hcaller hne, h.control.pools, h.control.started⟩, h.stopped⟩
  | stopReactor =>
    rw [hphase] at hstep
    simp only at hstep
    split at hstep
    · rename_i hstopped
      cases hstep
      exact ⟨h.runtime, h.reachable, h.coroutines.withRuntime rfl,
        ⟨hstopped, fun hne => absurd hcaller hne, h.control.pools, h.control.started⟩, h.stopped⟩
    · exact h.reactorOwnerStep (Or.inr hphase) hstep
  | stopWaiting =>
    rw [hphase] at hstep
    rcases Option.ite_none_right_eq_some.1 hstep with ⟨-, hclosed⟩
    cases hclosed
    exact h.closeServer hphase

/-- Outside its calls the owner executes nothing, and neither starts nor stops the reactor. -/
theorem Inv.outside (h : Inv cfg s) (hphase : s.owner = .outside) :
    s.runtime.reactor.owner = .outside ∧ s.runtime.stack .caller = [] := by
  have hok := h.control.owner
  unfold OwnerOk at hok
  rw [hphase] at hok
  refine ⟨hok, ?_⟩
  by_contra hne
  have hserving := h.control.callers hne
  rw [hphase] at hserving
  cases hserving

/-- Opening the listener keeps the invariant. -/
theorem Inv.listen (h : Inv cfg s) (hphase : s.owner = .outside) (hclosed : s.serverFd < 0)
    {fd : Int} (hfd : ¬ s.IsOpen fd) : Inv cfg { s with serverFd := fd } := by
  have hquiet : ∀ n, (s.acceptLoop n).isActive = false := by
    intro n
    rw [Bool.eq_false_iff]
    intro hn
    have hlistening := (h.coroutines.single n hn).2
    omega
  refine ⟨h.runtime, h.reachable, ?_, ?_, h.stopped⟩
  · refine h.coroutines.setServerFd hquiet ?_ ⟨rfl, rfl, rfl, rfl, rfl, rfl⟩
    exact fun i c hc hopen heq => hfd (Or.inr ⟨i, c, hc, hopen, heq⟩)
  · refine ⟨?_, h.control.callers, h.control.pools, h.control.started⟩
    unfold OwnerOk
    rw [hphase]
    exact (h.outside hphase).1

theorem Inv.serve (h : Inv cfg s) (hphase : s.owner = .outside) (hlistening : 0 ≤ s.serverFd)
    (hidle : s.runtime.reactor.running = false) :
    Inv cfg { s with stopping := false, owner := .serveStarting } := by
  rcases h.outside hphase with ⟨howner, hcaller⟩
  refine ⟨h.runtime, h.reachable, h.coroutines.withRuntime rfl, ?_,
    fun hstopping => by cases hstopping⟩
  exact ⟨⟨hlistening, h.loops_ended howner hidle hcaller⟩, fun hne => absurd hcaller hne,
    h.control.pools, h.control.started⟩

omit [DecidableEq ι] [Fintype ι] in
theorem ConnectionOk.mono {κ : Type*} {stopped stopped' : Prop} {i : ι} {status : Status κ}
    {c : Option Connection} (h : ConnectionOk cfg stopped i status c)
    (hstopped : stopped → stopped') : ConnectionOk cfg stopped' i status c := by
  cases h with
  | absent => exact .absent
  | executing hphase hfaithful => exact .executing hphase (hfaithful.mono hstopped)
  | awaiting hfd hphase hfaithful =>
    exact .awaiting hfd hphase fun ready => (hfaithful ready).mono hstopped
  | queued hphase hfaithful => exact .queued hphase (hfaithful.mono hstopped)
  | ended hphase hfaithful => exact .ended hphase (hfaithful.mono hstopped)

theorem Inv.stopServing (h : Inv cfg s) (hphase : s.owner = .outside) :
    Inv cfg { s with stopping := true, stops := s.stops + 1, owner := .stopReactor } := by
  rcases h.outside hphase with ⟨-, hcaller⟩
  refine ⟨h.runtime, h.reachable, ?_, ?_, fun _ => Nat.succ_pos _⟩
  · exact ⟨h.coroutines.loops, fun i => (h.coroutines.connections i).mono fun _ => Nat.succ_pos _,
      h.coroutines.called, h.coroutines.single, h.coroutines.accepted, h.coroutines.ownFd,
      h.coroutines.count⟩
  · exact ⟨trivial, fun hne => absurd hcaller hne, h.control.pools, h.control.started⟩

/-! ### Whole runs -/

theorem Inv.tick (h : Inv cfg s) (nanoseconds : Nat) :
    Inv cfg { s with runtime := s.runtime.tick nanoseconds } := by
  rcases h.runtime with ⟨resumed, reported, hruntime⟩
  refine ⟨⟨resumed, reported, hruntime.tick nanoseconds⟩, ?_, h.coroutines.withRuntime rfl, ?_,
    h.stopped⟩
  · exact h.reachable.step (a := .tick nanoseconds)
      (StateMachine.restrict_step_eq_some.2 ⟨trivial, rfl⟩)
  · exact h.control.sameStack rfl ⟨rfl, rfl, rfl⟩ (fun _ => id) (fun _ => id) ⟨rfl, rfl, id⟩

/-- Every step keeps the invariant. -/
theorem Inv.step (h : Inv cfg s) {label : Label ι} (hkernel : KernelDescriptors s label)
    {s' : Server ι} (hstep : step cfg s label = some s') : Inv cfg s' := by
  cases label with
  | listen fd =>
    rcases Option.ite_none_right_eq_some.1 hstep with ⟨⟨hphase, hclosed⟩, hlistening⟩
    cases hlistening
    exact h.listen hphase hclosed hkernel.2
  | serve =>
    rcases Option.ite_none_right_eq_some.1 hstep with ⟨⟨hphase, hlistening, hidle⟩, hserving⟩
    cases hserving
    exact h.serve hphase hlistening hidle
  | stopServing =>
    rcases Option.ite_none_right_eq_some.1 hstep with ⟨⟨hphase, -⟩, hstopping⟩
    cases hstopping
    exact h.stopServing hphase
  | owner expired =>
    rcases Option.ite_none_right_eq_some.1 hstep with ⟨hcaller, howner⟩
    exact h.ownerStep hcaller howner
  | thread t added accepted => exact h.threadStep hkernel hstep
  | pickUp i => exact h.pickUp hstep
  | loop events =>
    rcases Option.map_eq_some_iff.1 hstep with ⟨⟨runtime, resumption⟩, hloop, rfl⟩
    exact h.loopStep hloop
  | tick nanoseconds =>
    cases hstep
    exact h.tick nanoseconds

/-- Every reachable server is sound. -/
theorem reachable_inv (hs : (machine cfg).ReachableUnder KernelDescriptors s) : Inv cfg s :=
  hs.invariant (initial_inv cfg) fun _ _ _ h hkernel hstep => h.step hkernel hstep

end Threads

end Invariant

/-! ## Results -/

section Results

variable {ι : Type*} [DecidableEq ι] [Fintype ι] {cfg : Config ι} {s : Server ι}

/-- Connections do not disturb each other: one that has ended called the handler with the
same payloads, and left its socket in the same state, as `handleConnection` does alone on
a socket whose awaits return what they returned here.  The payload can only have been
dropped if `stop_serving` had been called. -/
theorem connections_isolated (hs : (machine cfg).ReachableUnder KernelDescriptors s) {i : ι}
    {c : Connection} (hc : s.connection i = some c) (hended : c.coroutine.phase = .ended) :
    ∃ stopping, (stopping = true → 0 < s.stops) ∧
      AsyncTransport.handleConnection cfg.handler stopping ((cfg.peers i).withWaits c.answers) =
        (c.coroutine.calls, c.coroutine.socket.withWaits []) := by
  have hok := (reachable_inv hs).coroutines.connections i
  rw [hc] at hok
  generalize s.runtime.status (.connection i) = status at hok
  cases hok with
  | executing hphase | awaiting _ hphase | queued hphase =>
    rw [hended] at hphase
    cases hphase
  | ended hphase hfaithful => exact hfaithful.ended hphase

/-- The server keeps the reactor's rules: it never parks two coroutines on one
descriptor, it is suspended in exactly the waits that the reactor holds or is about to
resume, and all of them are on descriptors that are still open. -/
theorem server_keeps_reactor_rules (hs : (machine cfg).ReachableUnder KernelDescriptors s) :
    (EpollReactor.onePerFd cfg.descriptors Wait.awaiter cfg.order).Reachable s.runtime.reactor ∧
      (∀ fd waiter, s.runtime.reactor.parking.waiters.lookup fd = some waiter →
        s.runtime.status waiter.call.coroutine = .awaiting waiter.call ∧ waiter.call.fd = fd ∧
          s.IsOpen fd) ∧
      ∀ w ∈ s.runtime.reactor.loop.pending,
        s.runtime.status w.coroutine = .awaiting w ∧ s.IsOpen w.fd := by
  have hinv := reachable_inv hs
  rcases hinv.runtime with ⟨resumed, reported, hruntime⟩
  refine ⟨hinv.reachable, ?_, ?_⟩
  · intro fd waiter hwaiter
    rcases hruntime.status_of_parked hwaiter with ⟨hstatus, rfl⟩
    exact ⟨hstatus, rfl, hinv.coroutines.isOpen_of_awaiting hstatus⟩
  · intro w hw
    have hstatus := hruntime.status_of_pending hw
    exact ⟨hstatus, hinv.coroutines.isOpen_of_awaiting hstatus⟩

/-- An unfinished connection that is not on the pool's threads, when nothing else can
execute it. -/
theorem Inv.queued_or_pooled (h : Inv cfg s) (hphase : s.owner = .stopWaiting) {i : ι}
    {c : Connection} (hc : s.connection i = some c) (hunfinished : c.coroutine.phase ≠ .ended) :
    (s.runtime.status (.connection i) = .queued ∧ ∃ payload, c.coroutine.phase = .hopped payload) ∨
      s.runtime.stack (.pool (.connection i)) ≠ [] := by
  rcases h.stopWaiting hphase with ⟨howner, hstopped, hcaller⟩
  have hok := h.coroutines.connections i
  rw [hc] at hok
  rcases h.quiet howner hstopped hcaller (.connection i) with hinactive | hqueued | hpool
  · rw [hinactive] at hok
    cases hok with
    | ended hended => exact absurd hended hunfinished
  · rw [hqueued] at hok
    cases hok with
    | queued hhopped => exact Or.inl ⟨hqueued, _, hhopped⟩
  · exact Or.inr hpool

/-- Every unfinished connection is counted by then. -/
theorem Inv.counts_of_unfinished (h : Inv cfg s) (hphase : s.owner = .stopWaiting) {i : ι}
    {c : Connection} (hc : s.connection i = some c) (hunfinished : c.coroutine.phase ≠ .ended) :
    counts c.coroutine.phase = true := by
  cases hconnection : c.coroutine.phase with
  | entered =>
    exfalso
    rcases h.queued_or_pooled hphase hc hunfinished with ⟨-, payload, hhopped⟩ | hpool
    · rw [hconnection] at hhopped
      cases hhopped
    · apply hpool
      apply h.control.pools
      intro c' hc'
      rw [hc] at hc'
      cases hc'
      exact hconnection
  | ended => exact absurd hconnection hunfinished
  | _ => rfl

/-- When `stop_serving` has stopped the reactor, the accept loop is over, the unfinished
connections are the ones on the handler pool, and the counter that `stop_serving` polls
is zero just when there are none. -/
theorem stop_serving_drains (hs : (machine cfg).ReachableUnder KernelDescriptors s)
    (hphase : s.owner = .stopWaiting) :
    (∀ n, (s.acceptLoop n).isActive = false) ∧
      (∀ i c, s.connection i = some c → c.coroutine.phase ≠ .ended →
        s.runtime.status (.connection i) = .queued ∨
          s.runtime.stack (.pool (.connection i)) ≠ []) ∧
      (s.activeConnections = 0 ↔
        ∀ i c, s.connection i = some c → c.coroutine.phase = .ended) := by
  have hinv := reachable_inv hs
  rcases hinv.stopWaiting hphase with ⟨howner, hstopped, hcaller⟩
  refine ⟨hinv.loops_ended howner hstopped hcaller, ?_, ?_⟩
  · intro i c hc hunfinished
    exact (hinv.queued_or_pooled hphase hc hunfinished).imp_left And.left
  · rw [hinv.coroutines.count, Finset.sum_eq_zero_iff]
    constructor
    · intro hzero i c hc
      by_contra hunfinished
      have hnotCounted := hzero i (Finset.mem_univ i)
      rw [hc, counted, hinv.counts_of_unfinished hphase hc hunfinished] at hnotCounted
      cases hnotCounted
    · intro hall i _
      cases hc : s.connection i with
      | none => rfl
      | some c =>
        rw [counted, hall i c hc]
        rfl

end Results

/-! ## A run with two connections -/

/-- The first peer sends its request at once; the other one's is late. -/
def twoPeers : Fin 2 → Socket
  | 0 => ⟨[0, 0, 0, 1, 7], [], [], []⟩
  | 1 => ⟨[0, 0, 0, 1, 9], [], [.wouldBlock], []⟩

/-- A server that sends every request back. -/
def echoServer : Config (Fin 2) where
  descriptors := ⟨3, 4⟩
  order := .insertion Int
  handler := id
  ioTimeoutMs := 5000
  peers := twoPeers

/-- The state after some steps of all threads. -/
def reached (labels : List (Label (Fin 2))) : Server (Fin 2) :=
  ((machine echoServer).run (initial echoServer) labels).getD (initial echoServer)

/-- `listen` and `serve`, until the accept loop is resumed by the first connection. -/
def serving : List (Label (Fin 2)) :=
  List.flatten [[.listen 5, .serve], List.replicate 4 (.owner false),
    List.replicate 8 (.thread .caller true none),
    [.owner false, .loop [], .loop [], .loop [5], .loop [], .loop []]]

/-- Both connections are accepted; the first one hops to the pool, the other one parks. -/
def accepting : List (Label (Fin 2)) :=
  List.flatten [[.thread .reactor true none, .thread .reactor true (some (0, 6))],
    List.replicate 6 (.thread .reactor true none), [.thread .reactor true (some (1, 7))],
    List.replicate 9 (.thread .reactor true none)]

/-- The pool answers the first connection, and the other one after the reactor has
resumed it. -/
def answering : List (Label (Fin 2)) :=
  List.flatten [[.pickUp 0], List.replicate 7 (.thread (.pool (.connection 0)) true none),
    List.replicate 9 (.thread .reactor true none),
    [.loop [], .loop [], .loop [], .loop [7], .loop [], .loop []],
    List.replicate 5 (.thread .reactor true none), [.pickUp 1],
    List.replicate 7 (.thread (.pool (.connection 1)) true none)]

/-- `stop_serving` while the first connection is on the pool and the other one parked. -/
def stopping : List (Label (Fin 2)) :=
  List.flatten [[.stopServing, .owner false, .owner false],
    List.replicate 2 (.thread .reactor true none), List.replicate 4 (.loop []),
    List.replicate 2 (.thread .reactor true none),
    [.loop [], .loop [], .owner false, .owner false, .owner false]]

theorem reachable_reached (labels : List (Label (Fin 2)))
    (hguard : (machine echoServer).Along (fun s label _ => KernelDescriptors s label)
      (initial echoServer) labels)
    (hrun : ((machine echoServer).run (initial echoServer) labels).isSome = true) :
    (machine echoServer).ReachableUnder KernelDescriptors (reached labels) := by
  refine .run .initial hguard ?_
  unfold reached
  rcases Option.isSome_iff_exists.1 hrun with ⟨s, hs⟩
  rw [hs]
  exact hs

/-- The late connection is answered as if it had been the only one. -/
theorem connections_isolated_late :
    (reached (serving ++ accepting ++ answering)).connection 1 =
        some ⟨7, ⟨.ended, ⟨[], [0, 0, 0, 1, 9], [], []⟩, [[9]]⟩, [true]⟩ ∧
      ∃ stopping, (stopping = true → 0 < (reached (serving ++ accepting ++ answering)).stops) ∧
        AsyncTransport.handleConnection id stopping ((twoPeers 1).withWaits [true]) =
          ([[9]], ⟨[], [0, 0, 0, 1, 9], [], []⟩) := by
  have hc : (reached (serving ++ accepting ++ answering)).connection 1 =
      some ⟨7, ⟨.ended, ⟨[], [0, 0, 0, 1, 9], [], []⟩, [[9]]⟩, [true]⟩ := by decide +kernel
  exact ⟨hc, connections_isolated
    (reachable_reached _ (by decide +kernel) (by decide +kernel)) hc rfl⟩

/-- The late connection is parked on its descriptor. -/
theorem server_keeps_reactor_rules_parked :
    (((reached (serving ++ accepting)).runtime.reactor.parking.waiters.lookup 7).map
        (·.call.coroutine)) = some (.connection 1) ∧
      ∀ waiter, (reached (serving ++ accepting)).runtime.reactor.parking.waiters.lookup 7 =
          some waiter → (reached (serving ++ accepting)).IsOpen 7 :=
  ⟨by decide +kernel, fun waiter hwaiter => ((server_keeps_reactor_rules
    (reachable_reached _ (by decide +kernel) (by decide +kernel))).2.1 7 waiter hwaiter).2.2⟩

/-- Of the two connections the one on the pool is left. -/
theorem stop_serving_drains_pooled :
    (reached (serving ++ accepting ++ stopping)).owner = .stopWaiting ∧
      (reached (serving ++ accepting ++ stopping)).activeConnections = 1 ∧
      ¬ ∀ i c, (reached (serving ++ accepting ++ stopping)).connection i = some c →
        c.coroutine.phase = .ended := by
  have hphase : (reached (serving ++ accepting ++ stopping)).owner = .stopWaiting := by
    decide +kernel
  have hcount : (reached (serving ++ accepting ++ stopping)).activeConnections = 1 := by
    decide +kernel
  have hdrains := stop_serving_drains
    (reachable_reached (serving ++ accepting ++ stopping) (by decide +kernel) (by decide +kernel))
    hphase
  refine ⟨hphase, hcount, fun hended => ?_⟩
  rw [hdrains.2.2.2 hended] at hcount
  cases hcount

end AsyncServer

end EdgeOrchestrator
