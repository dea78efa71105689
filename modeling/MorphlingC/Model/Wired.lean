import MorphlingC.Model.Encoders
import MorphlingC.Model.Linked
import MorphlingC.Model.Unpacking

/-!
# The cluster over bytes

The servers of `app/server.cpp` once more, with the bytes on their connections: what a replica
sends to a peer is packed and written as a frame behind what it has sent before; some of these
bytes arrive at a time, at the end of the input buffer, and then the read callback takes one
frame off the buffer, as far as there is one.

The readers of payloads are parameters.  The clients' messages are unpacked already, and an
answer to a client is an effect, as in `MorphlingC.Model.Linked`.  The structure of a guidance is
sent as it is in memory, and no replica looks at the one of a peer; `image` stands for these
bytes.
-/

set_option autoImplicit false

namespace MorphlingC.Model

open MorphlingC.Library

/-! ## Messages for peers -/

namespace GenericMessage

variable {n : ℕ}

/-- The type in the header. SOURCE: app/server.cpp:63-80, 98-105 -/
def msgType : GenericMessage n → MessageType
  | append _ _ => .append
  | appendReply _ _ => .appendReply
  | guidance _ _ => .guidance

/-- It is a type that a receiver knows. -/
theorem msgType_known (p : GenericMessage n) : p.msgType ≠ .unknown := by
  cases p <;> exact fun h => by cases h

/-- The bytes behind the header. SOURCE: app/server.cpp:63-80, 98-105 -/
def payload (image : GuidanceMessage n → Bytes) : GenericMessage n → Bytes
  | append msg _ => msg.pack
  | appendReply msg _ => msg.pack
  | guidance msg _ => image msg

end GenericMessage

/-- The ways in which a callback of a peer's connection can fail to return. -/
inductive WireFault where
  /-- The frame cannot be read. -/
  | read (f : ReadFault)
  /-- The payload is no packed message of the type in the header, and the conversion throws.
  SOURCE: app/server.cpp:206-207, 215-216 -/
  | notConvertible
  /-- A call of the replica fails. -/
  | replica (f : Fault)
deriving DecidableEq, Repr

/-- A payload at a replica, by the type in its header; a guidance is not looked at.
SOURCE: app/server.cpp:202-223; app/server2.cpp:296-310 -/
def Morphling.handlePayload {n : ℕ} {τ : Type} (readers : Readers)
    (unpack : Bytes → Option Operation) (m : Morphling n τ) :
    MessageType → Bytes → Except WireFault (Morphling n τ × List (Effect n τ))
  | .append, payload =>
    match readers.append payload with
    | none => .error .notConvertible
    | some msg => (Cluster.peerMsg unpack m (.append msg m.me)).mapError .replica
  | .appendReply, payload =>
    match readers.appendReply payload with
    | none => .error .notConvertible
    | some msg => (Cluster.peerMsg unpack m (.appendReply msg m.me)).mapError .replica
  | _, _ => .ok (m, [])

/-! ## The cluster -/

/-- The replicas, what each has written to each other one that has not arrived, and what has
arrived and is not read. -/
structure Wired (n : ℕ) (τ : Type) where
  replicas : Fin n → Morphling n τ
  sent : Fin n → Fin n → Bytes
  input : Fin n → Fin n → Bytes

/-- A client's message or a request for the guidance reaches a replica, or at most `count` of
the bytes that a replica has written arrive at another one. -/
inductive WiredEvent (n : ℕ) (τ : Type) where
  | client (r : Fin n) (msg : ClientMessage) (trans : τ)
  | getGuidance (r : Fin n) (trans : τ)
  | arrive (src dst : Fin n) (count : ℕ)

namespace Wired

variable {n : ℕ} {τ : Type}

/-- Fresh replicas and nothing on the connections. -/
def init (n : ℕ) (τ : Type) : Wired n τ where
  replicas := fun i => Morphling.new i (List.range n) List.length_range
  sent := fun _ _ => []
  input := fun _ _ => []

/-- The bytes of one connection in one direction are others now. -/
def setStream (streams : Fin n → Fin n → Bytes) (src dst : Fin n) (bytes : Bytes) :
    Fin n → Fin n → Bytes :=
  fun i j => if i = src ∧ j = dst then bytes else streams i j

/-- "error: don't have handler for -1". SOURCE: app/server.cpp:194-198 -/
def noHandlerText : Bytes :=
  [101, 114, 114, 111, 114, 58, 32, 100, 111, 110, 39, 116, 32, 104, 97, 118, 101, 32, 104, 97,
    110, 100, 108, 101, 114, 32, 102, 111, 114, 32, 45, 49, 10]

section Step

variable (image : GuidanceMessage n → Bytes) (readers : Readers)
  (unpack : Bytes → Option Operation) (rounds : ℕ)

/-- What is sent on the transport of a peer is written to its connection, frame by frame.
SOURCE: app/server.cpp:48-105 -/
def put (streams : Fin n → Fin n → Bytes) (r : Fin n) (sent : List (ℕ × GenericMessage n)) :
    Fin n → Fin n → Bytes :=
  fun i j =>
    if i = r then
      streams i j ++ (sent.filterMap fun p => if p.1 = j.val then some p.2 else none).flatMap
        fun p => socketSend p.msgType (p.payload image)
    else streams i j

/-- The end of a callback: the replica sends what it has queued.
SOURCE: app/server.cpp:171, 228 -/
def finish (c : Wired n τ) (r : Fin n) (m : Morphling n τ) : Except WireFault (Wired n τ) := do
  let (m, sent) ← (m.bcastMsgs (Cluster.peerTrans m)).mapError .replica
  .ok { c with replicas := Function.update c.replicas r m, sent := put image c.sent r sent }

/-- `peer_general_msg_cb` after the read: what is left of the buffer is in place.
SOURCE: app/server.cpp:192-228 -/
def dispatch (c : Wired n τ) (src dst : Fin n) (msgType : MessageType) (payload : Bytes) :
    Except WireFault (Wired n τ × List (Fin n × Effect n τ)) :=
  if msgType = .unknown then do
    let drained ← (drainRead recvCapacity ((c.input src dst).length + 1)
      (c.input src dst)).mapError .read
    .ok ({ c with
      input := setStream c.input src dst drained
      sent := setStream c.sent dst src (c.sent dst src ++ noHandlerText) }, [])
  else if msgType = .append ∨ msgType = .appendReply ∨ msgType = .guidance then do
    let (m, effects) ← (c.replicas dst).handlePayload readers unpack msgType payload
    let c ← c.finish image dst m
    .ok (c, effects.map (dst, ·))
  else .ok (c, [])

/-- One callback of one server, as a machine that emits the effects and where they are.
SOURCE: app/server.cpp:158-178, 185-229 -/
def step : Machine (Wired n τ) (WiredEvent n τ) (Fin n × Effect n τ) WireFault
  | c, .client r msg tr => do
    let (m, effects) ← ((c.replicas r).handleOperation unpack msg tr).mapError .replica
    let c ← c.finish image r m
    .ok (c, effects.map (r, ·))
  | c, .getGuidance r tr => .ok (c, ((c.replicas r).replyGuidanceTo tr).map (r, ·))
  | c, .arrive src dst count =>
    if (c.sent src dst).take count = [] then .ok (c, [])
    else do
      let (msgType, payload, left) ← (recvMsg recvCapacity rounds
        (c.input src dst ++ (c.sent src dst).take count)).mapError .read
      dispatch image readers unpack { c with
        sent := setStream c.sent src dst ((c.sent src dst).drop count)
        input := setStream c.input src dst left } src dst msgType payload

end Step

end Wired

end MorphlingC.Model
