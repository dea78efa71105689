import MorphlingC.Model.Cluster

/-!
# The cluster over streams

The servers of `app/server.cpp` again, with the connections that they have: a replica
writes what it sends to a peer into one stream, and the peer reads the stream in order.
Nothing on it is lost, repeated or overtaken.

Between two events any stream may stand still for as long as it likes.  That a frame may
be left in the receiving buffer until the next one arrives is one way in which it does, and
what a connection that fails does is left out: each replica keeps the streams it has.
-/

set_option autoImplicit false

namespace MorphlingC.Model

open MorphlingC.Library

/-- The replicas, and what each has sent to each other one that is not read yet, oldest
first. -/
structure Linked (n : ℕ) (τ : Type) where
  replicas : Fin n → Morphling n τ
  wire : Fin n → Fin n → List (GenericMessage n)

/-- A client's message or a request for the guidance reaches a replica, or the next message
of a stream is read. -/
inductive LinkedEvent (n : ℕ) (τ : Type) where
  | client (r : Fin n) (msg : ClientMessage) (trans : τ)
  | getGuidance (r : Fin n) (trans : τ)
  | arrive (src dst : Fin n)

namespace Linked

variable {n : ℕ} {τ : Type}

/-- Fresh replicas and empty streams. -/
def init (n : ℕ) (τ : Type) : Linked n τ where
  replicas := fun i => Morphling.new i (List.range n) List.length_range
  wire := fun _ _ => []

/-- Messages on the transport of a peer go to the end of the stream to it.
SOURCE: app/server.cpp:49-98 -/
def put (wire : Fin n → Fin n → List (GenericMessage n)) (r : Fin n)
    (sent : List (ℕ × GenericMessage n)) : Fin n → Fin n → List (GenericMessage n) :=
  fun i j =>
    if i = r then wire i j ++ sent.filterMap fun p => if p.1 = j.val then some p.2 else none
    else wire i j

/-- The end of a callback: the replica sends what it has queued.
SOURCE: app/server.cpp:171, 228 -/
def finish (c : Linked n τ) (r : Fin n) (m : Morphling n τ) : Except Fault (Linked n τ) := do
  let (m, sent) ← m.bcastMsgs (Cluster.peerTrans m)
  .ok { replicas := Function.update c.replicas r m, wire := put c.wire r sent }

/-- The first message of a stream has been read. -/
def pop (wire : Fin n → Fin n → List (GenericMessage n)) (src dst : Fin n) :
    Fin n → Fin n → List (GenericMessage n) :=
  fun i j => if i = src ∧ j = dst then (wire i j).tail else wire i j

variable (unpack : Bytes → Option Operation)

/-- One callback of one server, as a machine that emits the effects and where they are.
SOURCE: app/server.cpp:158-178, 185-229 -/
def step : Machine (Linked n τ) (LinkedEvent n τ) (Fin n × Effect n τ) Fault
  | c, .client r msg tr => do
    let (m, effects) ← (c.replicas r).handleOperation unpack msg tr
    let c ← c.finish r m
    .ok (c, effects.map (r, ·))
  | c, .getGuidance r tr => .ok (c, ((c.replicas r).replyGuidanceTo tr).map (r, ·))
  | c, .arrive src dst =>
    match c.wire src dst with
    | [] => .ok (c, [])
    | p :: _ => do
      let (m, effects) ← Cluster.peerMsg unpack (c.replicas dst) p
      let c ← { c with wire := pop c.wire src dst }.finish dst m
      .ok (c, effects.map (dst, ·))

end Linked

end MorphlingC.Model
