import MorphlingC.Model.Wired

/-!
# The servers over datagrams

The servers of `app/server2.cpp`: each has a socket for clients and one for the other servers,
and every datagram that reaches a socket waits there until a callback takes it off.  A callback
looks at the first four bytes of the first datagram and then asks for as many bytes as the header
says.  On the socket for clients it does so only for two types of messages; a datagram of any
other type stays where it is.

What the servers send to each other may be lost, overtaken and repeated on the way: a datagram
that has been sent may reach the socket of its addressee at any time and any number of times.
Only servers send to the sockets for servers.  The readers of payloads are parameters.
-/

set_option autoImplicit false

namespace MorphlingC.Model

open MorphlingC.Library

/-- The ways in which a callback of a socket can fail to return. -/
inductive DatagramFault where
  /-- "assert(read_n == (int)sizeof(header))". SOURCE: app/server2.cpp:246, 288 -/
  | noHeader
  /-- More bytes are read than the array holds. SOURCE: app/server2.cpp:251-252 -/
  | overrun
  /-- "assert(read_n == (int)msg_size)". SOURCE: app/server2.cpp:253, 293 -/
  | cut
  /-- "udp send error": a datagram is longer than any can be. SOURCE: app/server2.cpp:105-109 -/
  | tooLong
  /-- What is done with the payload fails. -/
  | handler (f : WireFault)
deriving DecidableEq, Repr

/-- The longest datagram that `sendto` accepts over IPv4. -/
def maxDatagram : ℕ := 65507

/-- SOURCE: app/server2.cpp:105-110 -/
def sendTo (datagram : Bytes) : Except DatagramFault Bytes :=
  if maxDatagram < datagram.length then .error .tooLong else .ok datagram

/-- What is sent to a client by an effect. SOURCE: core/morphling.cpp:110-121, 157-163, 187-202 -/
def Effect.datagram {n : ℕ} {τ : Type} (image : GuidanceMessage n → Bytes) :
    Effect n τ → Option Bytes
  | .created _ _ _ => none
  | .queued _ _ => none
  | .answered _ _ reply => some (udpSend .clientReply reply.pack)
  | .read _ reply => some (udpSend .clientReply reply.pack)
  | .guidance _ msg => some (udpSend .guidance (image msg))

/-- The whole datagram: `recvfrom` with `MSG_PEEK` for the header, and then for the size in it.
What is behind that is thrown away. SOURCE: app/server2.cpp:242-254, 284-294 -/
def recvFrom (capacity : Option ℕ) (datagram : Bytes) : Except DatagramFault Bytes :=
  let msgSize := 4 + (MessageHeader.ofBytes datagram).size.toNat
  let msgBuf := datagram.take msgSize
  if capacity.any (· < msgBuf.length) then .error .overrun
  else if msgBuf.length ≠ msgSize then .error .cut
  else .ok (msgBuf.drop 4)

/-- The replicas, every datagram that has been sent to each server, and what waits at the
sockets: for clients, with the senders' addresses, and for servers. -/
structure Datagrams (n : ℕ) (τ : Type) where
  replicas : Fin n → Morphling n τ
  sent : Fin n → List Bytes
  service : Fin n → List (Bytes × τ)
  peer : Fin n → List Bytes

/-- A datagram reaches the socket for clients of a server, or one that has been sent to a server
its other socket; or one of the three callbacks of a server runs. -/
inductive DatagramEvent (n : ℕ) (τ : Type) where
  | request (r : Fin n) (datagram : Bytes) (trans : τ)
  | arrive (r : Fin n) (k : ℕ)
  | service (r : Fin n)
  | peer (r : Fin n)
  | period (r : Fin n)

namespace Datagrams

variable {n : ℕ} {τ : Type}

/-- Fresh replicas and empty sockets. -/
def init (n : ℕ) (τ : Type) : Datagrams n τ where
  replicas := fun i => Morphling.new i (List.range n) List.length_range
  sent := fun _ => []
  service := fun _ => []
  peer := fun _ => []

/-- Datagrams are on their way to the servers with these numbers. -/
def put (sent : Fin n → List Bytes) (datagrams : List (ℕ × Bytes)) : Fin n → List Bytes :=
  fun j => sent j ++ datagrams.filterMap fun d => if d.1 = j.val then some d.2 else none

section Step

variable (image : GuidanceMessage n → Bytes) (readers : Readers)
  (unpack : Bytes → Option Operation)

/-- The end of a callback: what the effects send to clients is sent, and then what the replica
has queued for other servers. SOURCE: app/server2.cpp:91-103, 263, 311 -/
def finish (c : Datagrams n τ) (r : Fin n) (m : Morphling n τ) (effects : List (Effect n τ)) :
    Except DatagramFault (Datagrams n τ) := do
  let _ ← (effects.filterMap (Effect.datagram image)).mapM sendTo
  let (m, msgs) ← (m.bcastMsgs (Cluster.peerTrans m)).mapError (.handler ∘ .replica)
  let datagrams ← msgs.mapM fun p => do
    let datagram ← sendTo (udpSend p.2.msgType (p.2.payload image))
    .ok (p.1, datagram)
  .ok { c with replicas := Function.update c.replicas r m, sent := put c.sent datagrams }

/-- `ev_service`. SOURCE: app/server2.cpp:234-277 -/
def serviceEvent (c : Datagrams n τ) (r : Fin n) :
    Except DatagramFault (Datagrams n τ × List (Effect n τ)) :=
  match c.service r with
  | [] => .ok (c, [])
  | (datagram, tr) :: rest =>
    let taken := { c with service := Function.update c.service r rest }
    if (datagram.take 4).length ≠ 4 then .error .noHeader
    else if (MessageHeader.ofBytes datagram).msgType = .client then do
      let payload ← recvFrom (some recvCapacity) datagram
      match readers.client payload with
      | none => .error (.handler .notConvertible)
      | some msg => do
        let (m, effects) ← ((c.replicas r).handleOperation unpack msg tr).mapError
          (.handler ∘ .replica)
        let c ← taken.finish image r m effects
        .ok (c, effects)
    else if (MessageHeader.ofBytes datagram).msgType = .getGuidance then do
      let effects := (c.replicas r).replyGuidanceTo tr
      let _ ← (effects.filterMap (Effect.datagram image)).mapM sendTo
      .ok (taken, effects)
    else .ok (c, [])

/-- `ev_peer`. SOURCE: app/server2.cpp:279-316 -/
def peerEvent (c : Datagrams n τ) (r : Fin n) :
    Except DatagramFault (Datagrams n τ × List (Effect n τ)) :=
  match c.peer r with
  | [] => .ok (c, [])
  | datagram :: rest =>
    if (datagram.take 4).length ≠ 4 then .error .noHeader
    else do
      let payload ← recvFrom none datagram
      let (m, effects) ← ((c.replicas r).handlePayload readers unpack
        (MessageHeader.ofBytes datagram).msgType payload).mapError .handler
      let c ← { c with peer := Function.update c.peer r rest }.finish image r m effects
      .ok (c, effects)

/-- `ev_period`: the guidance is sent to every other server. SOURCE: app/server2.cpp:319-333 -/
def periodEvent (c : Datagrams n τ) (r : Fin n) : Except DatagramFault (Datagrams n τ) := do
  let datagrams ← ((List.finRange n).filter (· ≠ r)).mapM fun id => do
    let datagram ← sendTo (udpSend .guidance (image (c.replicas r).guidanceMsg))
    .ok (id.val, datagram)
  .ok { c with sent := put c.sent datagrams }

/-- What the network does, or a callback of one server, as a machine that emits the effects and
where they are. -/
def step : Machine (Datagrams n τ) (DatagramEvent n τ) (Fin n × Effect n τ) DatagramFault
  | c, .request r datagram tr =>
    .ok ({ c with
      service := Function.update c.service r (c.service r ++ [(datagram, tr)]) }, [])
  | c, .arrive r k =>
    match (c.sent r)[k]? with
    | none => .ok (c, [])
    | some datagram =>
      .ok ({ c with peer := Function.update c.peer r (c.peer r ++ [datagram]) }, [])
  | c, .service r => do
    let (c, effects) ← c.serviceEvent image readers unpack r
    .ok (c, effects.map (r, ·))
  | c, .peer r => do
    let (c, effects) ← c.peerEvent image readers unpack r
    .ok (c, effects.map (r, ·))
  | c, .period r => do
    let c ← c.periodEvent image r
    .ok (c, [])

end Step

end Datagrams

end MorphlingC.Model
