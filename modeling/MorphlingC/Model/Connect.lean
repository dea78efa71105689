import MorphlingC.Library.Machine
import Mathlib.Logic.Function.Basic

/-!
# Setting up the connection between two replicas

Two servers of `app/server.cpp`, each of which has called `connect_peer` for the other, up
to the point where each has an entry for the other in `m_peer_trans`.  There are at most two
connections, one opened by each side, and so at most four bufferevents.

The callbacks are those of the source.  Around them is what the source asks of libevent and
TCP: a connection is established, then its initiator is told and its acceptor's listener
fires, in either order; the initial message arrives on an accepted connection; when one end
is freed, the other end gets an EOF event, after the data sent before it; and a freed
bufferevent gets no events.  An event that is not pending cannot happen.
-/

set_option autoImplicit false

namespace MorphlingC.Model

open MorphlingC.Library

/-- The two replicas. -/
inductive Side where
  | x
  | y
deriving DecidableEq, Repr

/-- The replica at the other side. -/
def Side.other : Side → Side
  | .x => .y
  | .y => .x

@[simp] theorem Side.other_ne (s : Side) : s.other ≠ s := by cases s <;> decide

@[simp] theorem Side.ne_other (s : Side) : s ≠ s.other := by cases s <;> decide

@[simp] theorem Side.other_other (s : Side) : s.other.other = s := by cases s <;> rfl

/-- There are two sides. -/
theorem Side.eq_or_other (s t : Side) : t = s ∨ t = s.other := by
  cases s <;> cases t <;> decide

/-- The two ends of a connection. -/
inductive Role where
  /-- The bufferevent that `connect_peer` has connected. -/
  | outgoing
  /-- The bufferevent that `accept_peer` has made. -/
  | incoming
deriving DecidableEq, Repr

/-- A bufferevent: an end of the connection that one side has opened. -/
structure Bev where
  initiator : Side
  role : Role
deriving DecidableEq, Repr

/-- What has become of a bufferevent. -/
inductive EndState where
  | absent
  | opened
  | freed
deriving DecidableEq, Repr

/-- What has become of the initial message on a connection. -/
inductive InitMsg where
  | unsent
  | inFlight
  | received
deriving DecidableEq, Repr

/-- A connection: whether TCP has established it, whether its initiator has been told, the
two ends, the initial message, and whether the outgoing end has had its EOF event. -/
structure Conn where
  established : Bool := false
  reported : Bool := false
  outgoing : EndState := .opened
  incoming : EndState := .absent
  init : InitMsg := .unsent
  eofReported : Bool := false
deriving DecidableEq, Repr

/-- SOURCE: app/server.cpp:114-122 -/
structure PeerContext where
  socketBev : Option Bev
  proactiveConnected : Bool := false
  passiveConnected : Bool := false
deriving DecidableEq, Repr

/-- The two servers, as far as each is about the other, and their connections: `conn s` is
the one that `s` has opened. -/
structure Pair where
  peerCtx : Side → PeerContext
  peerTrans : Side → Option Bev
  conn : Side → Conn

/-- What can happen: to the connection that side `s` has opened. -/
inductive ConnectEvent where
  /-- TCP has established the connection. -/
  | established (s : Side)
  /-- `connect_peer_event_cb` with `BEV_EVENT_CONNECTED`, at the initiator. -/
  | connected (s : Side)
  /-- `accept_peer`, at the acceptor. -/
  | accepted (s : Side)
  /-- `peer_init_msg_cb`, at the acceptor. -/
  | initMsg (s : Side)
  /-- `event_cb` with `BEV_EVENT_EOF`, at the acceptor. -/
  | incomingEof (s : Side)
  /-- `connect_peer_event_cb` with `BEV_EVENT_EOF`, at the initiator. -/
  | outgoingEof (s : Side)
deriving DecidableEq, Repr

/-- An event that is not pending. -/
inductive NotPending where
  | notPending
deriving DecidableEq, Repr

namespace Pair

/-- Both sides have called `init_peer_ctx` and `connect_peer`.
SOURCE: app/server.cpp:370-409 -/
def start : Pair where
  peerCtx := fun s => { socketBev := some ⟨s, .outgoing⟩ }
  peerTrans := fun _ => none
  conn := fun _ => {}

/-- A change of one connection. -/
def setConn (p : Pair) (s : Side) (c : Conn) : Pair :=
  { p with conn := Function.update p.conn s c }

/-- A change of one context. -/
def setCtx (p : Pair) (s : Side) (ctx : PeerContext) : Pair :=
  { p with peerCtx := Function.update p.peerCtx s ctx }

/-- A change of one transport. -/
def setTrans (p : Pair) (s : Side) (bev : Bev) : Pair :=
  { p with peerTrans := Function.update p.peerTrans s (some bev) }

/-- `bufferevent_free`. -/
def free (p : Pair) (bev : Bev) : Pair :=
  match bev.role with
  | .outgoing => p.setConn bev.initiator { p.conn bev.initiator with outgoing := .freed }
  | .incoming => p.setConn bev.initiator { p.conn bev.initiator with incoming := .freed }

/-- `reply_guidance` on the connection that `s` has opened. -/
def sendInit (p : Pair) (s : Side) : Pair :=
  p.setConn s { p.conn s with init := .inFlight }

/-- At `s`, on the bufferevent of its own connection; anything but `BEV_EVENT_CONNECTED` is
ignored. SOURCE: app/server.cpp:248-263 -/
def connectPeerEventCb (p : Pair) (s : Side) (connected : Bool) : Pair :=
  if connected then
    if (p.peerCtx s).passiveConnected then p
    else
      let p := p.setCtx s { p.peerCtx s with proactiveConnected := true }
      let p := p.sendInit s
      p.setTrans s ⟨s, .outgoing⟩
  else p

/-- At the acceptor of the connection that `s` has opened. SOURCE: app/server.cpp:281-295 -/
def acceptPeer (p : Pair) (s : Side) : Pair :=
  p.setConn s { p.conn s with incoming := .opened }

/-- The old bufferevent of a context, if there is one, is freed.
SOURCE: app/server.cpp:356-358 -/
def freeOld (p : Pair) (me : Side) : Pair :=
  match (p.peerCtx me).socketBev with
  | none => p
  | some old => p.free old

/-- At `me`, when the initial message has come on the connection that the other side has
opened. SOURCE: app/server.cpp:336-368 -/
def recvInitMsg (p : Pair) (me : Side) : Pair :=
  let bev : Bev := ⟨me.other, .incoming⟩
  if (p.peerCtx me).proactiveConnected then p.free bev
  else
    let p := p.setCtx me { p.peerCtx me with passiveConnected := true }
    let p := p.freeOld me
    let p := p.setCtx me { p.peerCtx me with socketBev := some bev }
    p.setTrans me bev

/-- The end has gone. SOURCE: app/server.cpp:231-246 -/
def eventCb (p : Pair) (bev : Bev) : Pair := p.free bev

/-- The event can happen. -/
def Pending (p : Pair) : ConnectEvent → Prop
  | .established s => (p.conn s).established = false ∧ (p.conn s).outgoing = .opened
  | .connected s =>
    (p.conn s).established = true ∧ (p.conn s).outgoing = .opened ∧
      (p.conn s).reported = false
  | .accepted s => (p.conn s).established = true ∧ (p.conn s).incoming = .absent
  | .initMsg s => (p.conn s).incoming = .opened ∧ (p.conn s).init = .inFlight
  | .incomingEof s =>
    (p.conn s).incoming = .opened ∧ (p.conn s).outgoing = .freed ∧
      (p.conn s).init ≠ .inFlight
  | .outgoingEof s =>
    (p.conn s).outgoing = .opened ∧ (p.conn s).incoming = .freed ∧
      (p.conn s).eofReported = false

instance (p : Pair) : DecidablePred p.Pending
  | .established _ => inferInstanceAs (Decidable (_ ∧ _))
  | .connected _ => inferInstanceAs (Decidable (_ ∧ _ ∧ _))
  | .accepted _ => inferInstanceAs (Decidable (_ ∧ _))
  | .initMsg _ => inferInstanceAs (Decidable (_ ∧ _))
  | .incomingEof _ => inferInstanceAs (Decidable (_ ∧ _ ∧ _))
  | .outgoingEof _ => inferInstanceAs (Decidable (_ ∧ _ ∧ _))

/-- What an event does: it is taken note of, and its callback runs. -/
def handle (p : Pair) : ConnectEvent → Pair
  | .established s => p.setConn s { p.conn s with established := true }
  | .connected s =>
    (p.setConn s { p.conn s with reported := true }).connectPeerEventCb s true
  | .accepted s => p.acceptPeer s
  | .initMsg s => (p.setConn s { p.conn s with init := .received }).recvInitMsg s.other
  | .incomingEof s => p.eventCb ⟨s, .incoming⟩
  | .outgoingEof s =>
    (p.setConn s { p.conn s with eofReported := true }).connectPeerEventCb s false

/-- One event, as a machine without outputs. -/
def step : Machine Pair ConnectEvent Unit NotPending := fun p e =>
  if p.Pending e then .ok (p.handle e, []) else .error .notPending

/-! ## What a change leaves as it was -/

@[simp] theorem setConn_conn (p : Pair) (s t : Side) (c : Conn) :
    (p.setConn s c).conn t = if t = s then c else p.conn t :=
  Function.update_apply _ _ _ _

@[simp] theorem setConn_peerCtx (p : Pair) (s t : Side) (c : Conn) :
    (p.setConn s c).peerCtx t = p.peerCtx t := rfl

@[simp] theorem setConn_peerTrans (p : Pair) (s t : Side) (c : Conn) :
    (p.setConn s c).peerTrans t = p.peerTrans t := rfl

@[simp] theorem setCtx_conn (p : Pair) (s t : Side) (ctx : PeerContext) :
    (p.setCtx s ctx).conn t = p.conn t := rfl

@[simp] theorem setCtx_peerCtx (p : Pair) (s t : Side) (ctx : PeerContext) :
    (p.setCtx s ctx).peerCtx t = if t = s then ctx else p.peerCtx t :=
  Function.update_apply _ _ _ _

@[simp] theorem setCtx_peerTrans (p : Pair) (s t : Side) (ctx : PeerContext) :
    (p.setCtx s ctx).peerTrans t = p.peerTrans t := rfl

@[simp] theorem free_peerCtx (p : Pair) (bev : Bev) (t : Side) :
    (p.free bev).peerCtx t = p.peerCtx t := by
  unfold free
  cases bev.role <;> rfl

@[simp] theorem freeOld_peerCtx (p : Pair) (me t : Side) :
    (p.freeOld me).peerCtx t = p.peerCtx t := by
  unfold freeOld
  split
  · rfl
  · rw [free_peerCtx]

@[simp] theorem setTrans_conn (p : Pair) (s t : Side) (bev : Bev) :
    (p.setTrans s bev).conn t = p.conn t := rfl

@[simp] theorem setTrans_peerCtx (p : Pair) (s t : Side) (bev : Bev) :
    (p.setTrans s bev).peerCtx t = p.peerCtx t := rfl

@[simp] theorem setTrans_peerTrans (p : Pair) (s t : Side) (bev : Bev) :
    (p.setTrans s bev).peerTrans t = if t = s then some bev else p.peerTrans t :=
  Function.update_apply _ _ _ _

end Pair

end MorphlingC.Model
