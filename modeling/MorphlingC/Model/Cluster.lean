import MorphlingC.Model.Replica

/-!
# The cluster

`n` replicas, numbered `0..n-1`, under the server of `app/server.cpp`, whose callbacks are
the steps: each calls the replica and then sends what the replica has queued.  All peer
transports are connected.

The messages in flight may be lost, delivered in any order and any number of times:
delivering a message leaves it in flight, and losing it is a step of its own.
-/

set_option autoImplicit false

namespace MorphlingC.Model

open MorphlingC.Library

/-- The replicas and the messages between them. -/
structure Cluster (n : ℕ) (τ : Type) where
  replicas : Fin n → Morphling n τ
  network : List (GenericMessage n)

/-- A client's message or a request for the guidance reaches a replica, a message in flight
reaches its addressee, or it is lost. -/
inductive ClusterEvent (n : ℕ) (τ : Type) where
  | client (r : Fin n) (msg : ClientMessage) (trans : τ)
  | getGuidance (r : Fin n) (trans : τ)
  | peer (k : ℕ)
  | lose (k : ℕ)

namespace Cluster

variable {n : ℕ} {τ : Type}

/-- Fresh replicas and no messages. -/
def init (n : ℕ) (τ : Type) : Cluster n τ where
  replicas := fun i => Morphling.new i (List.range n) List.length_range
  network := []

/-- `m_peer_trans` when all peers are connected; the transport of a peer is its number.
SOURCE: app/server.cpp:123, 259-260, 361 -/
def peerTrans (m : Morphling n τ) (id : ℕ) : Option ℕ :=
  if id ∈ m.peers ∧ id ≠ m.me then some id else none

/-- The end of a callback: the replica sends what it has queued.
SOURCE: app/server.cpp:171, 228 -/
def finish (c : Cluster n τ) (r : Fin n) (m : Morphling n τ) :
    Except Fault (Cluster n τ) := do
  let (m, sent) ← m.bcastMsgs (peerTrans m)
  .ok { replicas := Function.update c.replicas r m, network := c.network ++ sent.map Prod.snd }

variable (unpack : Bytes → Option Operation)

/-- A peer's message at a replica; the guidance of a peer is not looked at.
SOURCE: app/server.cpp:185-229 -/
def peerMsg (m : Morphling n τ) :
    GenericMessage n → Except Fault (Morphling n τ × List (Effect n τ))
  | .append msg _ => m.handleAppendEntries msg msg.fromId
  | .appendReply msg _ => do
    let (m, queued) ← m.handleAppendEntriesReply msg msg.fromId
    let (m, answers) ← m.maybeApply unpack
    .ok (m, queued ++ answers)
  | .guidance _ _ => .ok (m, [])

/-- One callback of one server, as a machine that emits the effects and where they are.
SOURCE: app/server.cpp:158-178, 185-229 -/
def step : Machine (Cluster n τ) (ClusterEvent n τ) (Fin n × Effect n τ) Fault
  | c, .client r msg tr => do
    let (m, effects) ← (c.replicas r).handleOperation unpack msg tr
    let c ← c.finish r m
    .ok (c, effects.map (r, ·))
  | c, .getGuidance r tr => .ok (c, ((c.replicas r).replyGuidanceTo tr).map (r, ·))
  | c, .peer k =>
    match c.network[k]? with
    | none => .ok (c, [])
    | some p =>
      if h : p.dst < n then do
        let (m, effects) ← peerMsg unpack (c.replicas ⟨p.dst, h⟩) p
        let c ← c.finish ⟨p.dst, h⟩ m
        .ok (c, effects.map (⟨p.dst, h⟩, ·))
      else .ok (c, [])
  | c, .lose k => .ok ({ c with network := c.network.eraseIdx k }, [])

end Cluster

end MorphlingC.Model
