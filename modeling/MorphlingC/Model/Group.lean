import MorphlingC.Model.Smr

/-!
# One group over a network

The `n` replicas of one group, numbered `0..n-1`, and the messages between them.  One of
them, the owner, handles the clients' operations.  A message in flight may be delivered
any number of times and in any order, and may be lost: delivering a message leaves it in
flight, and losing it is a step of its own.

A message carries its sender, which `Morphling::prepare_msgs` puts into it.
-/

set_option autoImplicit false

namespace MorphlingC.Model

open MorphlingC.Library

/-- The message on the wire for a callback of the replica `me`.
SOURCE: core/morphling.cpp:13-20, 165-184 -/
def Callback.packet {n : ℕ} (me : ℕ) : Callback → Option (GenericMessage n)
  | .notifySendAppendEntry msg dst => some (.append { msg with fromId := me } dst)
  | .notifySendAppendEntryReply msg dst => some (.appendReply { msg with fromId := me } dst)
  | .notifyApply _ => none

/-- The replicas of one group and the messages in flight. -/
structure Group (n : ℕ) where
  smr : Fin n → SMR
  network : List (GenericMessage n)

/-- What can happen to a group: the owner gets an operation, a message in flight reaches
its addressee, or it is lost. -/
inductive GroupEvent where
  | operation (msg : ClientMessage)
  | deliver (k : ℕ)
  | lose (k : ℕ)
deriving DecidableEq, Repr

/-- The event appends an entry at the owner. -/
def GroupEvent.appends : GroupEvent → Bool
  | .operation _ => true
  | .deliver _ => false
  | .lose _ => false

namespace Group

variable {n : ℕ}

/-- Fresh replicas and no messages. -/
def init (n gid : ℕ) : Group n where
  smr := fun i => SMR.new i (List.range n) gid
  network := []

/-- The replica `i` has made a call: its new state is put in place and its messages are
sent. -/
def put (g : Group n) (i : Fin n) (s : SMR) (cbs : List Callback) : Group n where
  smr := Function.update g.smr i s
  network := g.network ++ cbs.filterMap (Callback.packet i)

/-- One event, as a machine that emits the callbacks made and who made them. -/
def step (owner : Fin n) : Machine (Group n) GroupEvent (Fin n × Callback) Fault
  | g, .operation msg => do
    let (s, cbs, _) ← (g.smr owner).handleOperation msg
    .ok (g.put owner s cbs, cbs.map (owner, ·))
  | g, .deliver k =>
    match g.network[k]? with
    | some (.append msg dst) =>
      if h : dst < n then do
        let (s, cbs) ← (g.smr ⟨dst, h⟩).handleAppendEntries msg msg.fromId
        .ok (g.put ⟨dst, h⟩ s cbs, cbs.map (⟨dst, h⟩, ·))
      else .ok (g, [])
    | some (.appendReply msg dst) =>
      if h : dst < n then do
        let (s, cbs) ← (g.smr ⟨dst, h⟩).handleAppendEntriesReply msg msg.fromId
        .ok (g.put ⟨dst, h⟩ s cbs, cbs.map (⟨dst, h⟩, ·))
      else .ok (g, [])
    | some (.guidance _ _) => .ok (g, [])
    | none => .ok (g, [])
  | g, .lose k => .ok ({ g with network := g.network.eraseIdx k }, [])

end Group

end MorphlingC.Model
