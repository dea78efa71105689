import MorphlingC.Model.Cluster

/-!
# One server

The `Server` of `app/server.cpp` around its replica, as far as its connections go: the
clients' connections, which come and go, and `m_peer_trans`, which is filled as connections
to peers are established.

A `SocketTransport` is a bufferevent; that of a client is the number of its connection,
counted in the order in which connections are accepted, and those of peers have any type
`ρ`.  `event_cb` frees the bufferevent of a client's connection and nothing else: the
transports that refer to it stay where they are.  A freed bufferevent has no more events.
-/

set_option autoImplicit false

namespace MorphlingC.Model

open MorphlingC.Library

/-- SOURCE: app/server.cpp:124-150 -/
structure Server (n : ℕ) (ρ : Type) where
  peerTrans : ℕ → Option ρ
  replica : Morphling n ℕ
  /-- How many client connections have been accepted. -/
  accepted : ℕ
  /-- The client connections whose bufferevents have been freed. -/
  freed : List ℕ

/-- A callback that calls the replica and then sends what the replica has queued. -/
inductive ServerCall (n : ℕ) where
  /-- `client_msg_cb` with a client's message. SOURCE: app/server.cpp:158-171 -/
  | client (conn : ℕ) (msg : ClientMessage)
  /-- `peer_general_msg_cb` with a peer's message. SOURCE: app/server.cpp:185-229 -/
  | peer (msg : GenericMessage n)

/-- What can happen at a server. -/
inductive ServerEvent (n : ℕ) (ρ : Type) where
  /-- `accept_client`. SOURCE: app/server.cpp:265-279 -/
  | accept
  /-- `event_cb` on a client's connection: EOF, timeout or error.
  SOURCE: app/server.cpp:231-246 -/
  | close (conn : ℕ)
  /-- A connection to a peer is established, by either side.
  SOURCE: app/server.cpp:259-260, 361 -/
  | connected (id : ℕ) (tr : ρ)
  /-- `client_msg_cb` with a request for the guidance. SOURCE: app/server.cpp:172-173 -/
  | getGuidance (conn : ℕ)
  | call (c : ServerCall n)

/-- What a server does: an effect of its replica, or a message to a peer. -/
inductive ServerOutput (n : ℕ) (ρ : Type) where
  | effect (e : Effect n ℕ)
  | sent (tr : ρ) (msg : GenericMessage n)

namespace Server

variable {n : ℕ} {ρ : Type}

/-- A server with a fresh replica and no connections. SOURCE: app/server.cpp:138-147 -/
def new (ρ : Type) (id : ℕ) (peers : List ℕ) (h : peers.length = n) : Server n ρ where
  peerTrans := fun _ => none
  replica := Morphling.new id peers h
  accepted := 0
  freed := []

/-- The connection has been accepted, and its bufferevent has not been freed. -/
def IsOpen (s : Server n ρ) (conn : ℕ) : Prop := conn < s.accepted ∧ conn ∉ s.freed

instance (s : Server n ρ) (conn : ℕ) : Decidable (s.IsOpen conn) :=
  inferInstanceAs (Decidable (_ ∧ _))

/-- SOURCE: app/server.cpp:265-279 -/
def acceptClient (s : Server n ρ) : Server n ρ := { s with accepted := s.accepted + 1 }

/-- SOURCE: app/server.cpp:231-246 -/
def eventCb (s : Server n ρ) (conn : ℕ) : Server n ρ := { s with freed := conn :: s.freed }

/-- `m_peer_trans[id] = ...`. -/
def setPeerTrans (s : Server n ρ) (id : ℕ) (tr : ρ) : Server n ρ :=
  { s with peerTrans := Function.update s.peerTrans id (some tr) }

/-- The callback can happen: a client's message comes on an open connection. -/
def Arrives (s : Server n ρ) : ServerCall n → Prop
  | .client conn _ => s.IsOpen conn
  | .peer _ => True

instance (s : Server n ρ) : DecidablePred s.Arrives
  | .client conn _ => inferInstanceAs (Decidable (s.IsOpen conn))
  | .peer _ => isTrue trivial

/-- The end of a callback: the replica sends what it has queued.
SOURCE: app/server.cpp:171, 228 -/
def finish (s : Server n ρ) (m : Morphling n ℕ) :
    Except Fault (Server n ρ × List (ρ × GenericMessage n)) := do
  let (m, sent) ← m.bcastMsgs s.peerTrans
  .ok ({ s with replica := m }, sent)

variable (unpack : Bytes → Option Operation)

/-- What a callback does before it sends. SOURCE: app/server.cpp:158-171, 185-227 -/
def handle (m : Morphling n ℕ) :
    ServerCall n → Except Fault (Morphling n ℕ × List (Effect n ℕ))
  | .client conn msg => m.handleOperation unpack msg conn
  | .peer msg => Cluster.peerMsg unpack m msg

/-- One event, as a machine that emits what is done.  Nothing happens on a connection that
is not open. -/
def step : Machine (Server n ρ) (ServerEvent n ρ) (ServerOutput n ρ) Fault
  | s, .accept => .ok (s.acceptClient, [])
  | s, .close conn => .ok (if s.IsOpen conn then s.eventCb conn else s, [])
  | s, .connected id tr => .ok (s.setPeerTrans id tr, [])
  | s, .getGuidance conn =>
    .ok (s, if s.IsOpen conn then (s.replica.replyGuidanceTo conn).map .effect else [])
  | s, .call c =>
    if s.Arrives c then do
      let (m, effects) ← handle unpack s.replica c
      let (s, sent) ← s.finish m
      .ok (s, effects.map .effect ++ sent.map fun p => .sent p.1 p.2)
    else .ok (s, [])

end Server

end MorphlingC.Model
