import MorphlingC.Model.Smr

/-!
# One replica of all groups

`Morphling` of `core/morphling.h`: 256 groups, one map of clients that wait for a reply,
one queue of entries to apply, one queue of messages to send, and the storage.

Three things are parameters: the number `n` of replicas (`HARD_CODE_REPLICAS`), the type
`τ` of the transports, of which the replica only ever asks to send something, and the
decoder `unpack` of packed operations, which is the msgpack library's.  A hash map is a
function, and reading a key that it does not have gives what `operator[]` puts there: no
transport, or empty data.

A handler returns the new state together with its effects in order.  Effects are what an
observer sees: what is sent to clients, and, so that runs can be spoken about, which entry
a client's operation became and which entries were queued to be applied.
-/

set_option autoImplicit false

namespace MorphlingC.Model

open MorphlingC.Library

/-- What a call at a replica does that can be seen. -/
inductive Effect (n : ℕ) (τ : Type) where
  /-- The operation of the client at `trans` became the entry `index` of `group`.
  SOURCE: core/morphling.cpp:123-124 -/
  | created (group index : ℕ) (trans : τ)
  /-- The entries of `group` were queued to be applied. SOURCE: core/morphling.cpp:21-26 -/
  | queued (group : ℕ) (entries : List Entry)
  /-- The entry was applied, and the reply was sent. SOURCE: core/morphling.cpp:187-202 -/
  | answered (entry : Entry) (trans : τ) (reply : ClientReplyMessage n)
  /-- A read was replied to at once. SOURCE: core/morphling.cpp:110-121 -/
  | read (trans : τ) (reply : ClientReplyMessage n)
  /-- The guidance was sent to a client. SOURCE: core/morphling.cpp:157-163 -/
  | guidance (trans : τ) (msg : GuidanceMessage n)
deriving DecidableEq

/-- SOURCE: core/morphling.h:16-31 -/
structure Morphling (n : ℕ) (τ : Type) where
  guide : Guidance n
  me : ℕ
  peers : List ℕ
  smrs : Fin defaultKeySpace → SMR
  nextMsgs : List (GenericMessage n)
  applyEntries : List Entry
  clientPendings : ℕ → Option τ
  storage : ℕ → Bytes

/-- The effect of one callback of a group. -/
def Callback.effect (n : ℕ) (τ : Type) (group : ℕ) : Callback → Option (Effect n τ)
  | .notifySendAppendEntry _ _ => none
  | .notifySendAppendEntryReply _ _ => none
  | .notifyApply entries => some (.queued group entries)

namespace Morphling

variable {n : ℕ} {τ : Type}

/-- The constructor; it exits unless there are `n` peers.
SOURCE: core/morphling.cpp:9-36 -/
def new (id : ℕ) (peers : List ℕ) (_h : peers.length = n) : Morphling n τ where
  guide := Guidance.initLocalGuidance {}
  me := id
  peers := peers
  smrs := fun gid => SMR.new id peers gid
  nextMsgs := []
  applyEntries := []
  clientPendings := fun _ => none
  storage := fun _ => []

/-- SOURCE: core/morphling.cpp:79-84 -/
def isValidGuidance (m : Morphling n τ) (epoch : ℕ) : Bool := m.guide.epoch = epoch

/-- The number of the group that serves a key hash. SOURCE: core/morphling.cpp:86-90 -/
def findTargetSmr (keyHash : ℕ) : Fin defaultKeySpace := ⟨calcKeyPos keyHash, calcKeyPos_lt keyHash⟩

/-- One callback of a group: messages are queued to be sent, entries to be applied.
SOURCE: core/morphling.cpp:12-26 -/
def takeCallback (m : Morphling n τ) : Callback → Morphling n τ
  | .notifySendAppendEntry msg dst => { m with nextMsgs := m.nextMsgs ++ [.append msg dst] }
  | .notifySendAppendEntryReply msg dst =>
    { m with nextMsgs := m.nextMsgs ++ [.appendReply msg dst] }
  | .notifyApply entries => { m with applyEntries := m.applyEntries ++ entries }

/-- A group has handled a call: its state is put in place and its callbacks are taken. -/
def putSmr (m : Morphling n τ) (gid : Fin defaultKeySpace) (smr : SMR) (cbs : List Callback) :
    Morphling n τ :=
  cbs.foldl takeCallback { m with smrs := Function.update m.smrs gid smr }

/-- The sender and the epoch are put on a queued message. SOURCE: core/morphling.cpp:169-182 -/
def stamp (m : Morphling n τ) : GenericMessage n → GenericMessage n
  | .append msg dst => .append { msg with fromId := m.me, epoch := m.guide.epoch } dst
  | .appendReply msg dst => .appendReply { msg with fromId := m.me, epoch := m.guide.epoch } dst
  | .guidance msg dst => .guidance msg dst

/-- The answer is whether there is any message; no caller looks at it.
SOURCE: core/morphling.cpp:165-184 -/
def prepareMsgs (m : Morphling n τ) : Morphling n τ × Bool :=
  ({ m with nextMsgs := m.nextMsgs.map m.stamp }, !m.nextMsgs.isEmpty)

/-- The message of both forms of `reply_guidance`. -/
def guidanceMsg (m : Morphling n τ) : GuidanceMessage n :=
  { fromId := m.me, votes := 3, guide := m.guide }

/-- To a peer. SOURCE: core/morphling.cpp:149-155 -/
def replyGuidance (m : Morphling n τ) (id : ℕ) : Morphling n τ :=
  { m with nextMsgs := m.nextMsgs ++ [.guidance m.guidanceMsg id] }

/-- To a client. SOURCE: core/morphling.cpp:157-163 -/
def replyGuidanceTo (m : Morphling n τ) (trans : τ) : List (Effect n τ) :=
  [.guidance trans m.guidanceMsg]

section Handlers

variable (unpack : Bytes → Option Operation)

/-- The unpacking of an operation throws when the bytes are not a packed one.
SOURCE: core/morphling.cpp:92-101 -/
def parseOperation (data : Bytes) : Except Fault Operation :=
  match unpack data with
  | none => .error .notDecodable
  | some op => .ok op

/-- A client's operation: another epoch is answered with the guidance, a read from the
storage, under the key of the message; anything else is appended to the group of that key,
and the client waits under the number of the entry. SOURCE: core/morphling.cpp:103-126 -/
def handleOperation (m : Morphling n τ) (msg : ClientMessage) (trans : τ) :
    Except Fault (Morphling n τ × List (Effect n τ)) :=
  if !m.isValidGuidance msg.epoch then .ok (m, m.replyGuidanceTo trans)
  else do
    let op ← parseOperation unpack msg.op
    if op.opType = 0 then
      .ok (m, [.read trans
        { fromId := m.me
          success := true
          guidance := m.guide
          keyHash := msg.keyHash
          replyData := m.storage msg.keyHash }])
    else
      let gid := findTargetSmr msg.keyHash
      let (smr, cbs, newIdx) ← (m.smrs gid).handleOperation msg
      let m := m.putSmr gid smr cbs
      let m := { m with clientPendings := Function.update m.clientPendings newIdx (some trans) }
      .ok (m.prepareMsgs.1, [.created gid newIdx trans])

/-- The index of the first entry is logged, so there has to be one.
SOURCE: core/morphling.cpp:128-136 -/
def handleAppendEntries (m : Morphling n τ) (msg : AppendEntriesMessage) (sender : ℕ) :
    Except Fault (Morphling n τ × List (Effect n τ)) :=
  if !m.isValidGuidance msg.epoch then .ok (m.replyGuidance sender, [])
  else if msg.entries = [] then .error .noEntries
  else if h : msg.groupId < defaultKeySpace then do
    let (smr, cbs) ← (m.smrs ⟨msg.groupId, h⟩).handleAppendEntries msg sender
    .ok ((m.putSmr ⟨msg.groupId, h⟩ smr cbs).prepareMsgs.1,
      cbs.filterMap (Callback.effect n τ msg.groupId))
  else .error .groupOutOfRange

/-- SOURCE: core/morphling.cpp:139-147 -/
def handleAppendEntriesReply (m : Morphling n τ) (msg : AppenEntriesReplyMessage)
    (sender : ℕ) : Except Fault (Morphling n τ × List (Effect n τ)) :=
  if !m.isValidGuidance msg.epoch then .ok (m.replyGuidance sender, [])
  else if h : msg.groupId < defaultKeySpace then do
    let (smr, cbs) ← (m.smrs ⟨msg.groupId, h⟩).handleAppendEntriesReply msg sender
    .ok ((m.putSmr ⟨msg.groupId, h⟩ smr cbs).prepareMsgs.1,
      cbs.filterMap (Callback.effect n τ msg.groupId))
  else .error .groupOutOfRange

/-- One turn of the loop of `maybe_apply`: a write changes the storage, anything else reads
it, and the client that waits under the number of the entry gets the reply.
SOURCE: core/morphling.cpp:187-202 -/
def applyEntry (m : Morphling n τ) (e : Entry) : Except Fault (Morphling n τ × Effect n τ) := do
  let op ← parseOperation unpack e.data
  let reply : ClientReplyMessage n :=
    { fromId := m.me
      success := true
      guidance := m.guide
      keyHash := op.keyHash
      replyData := if op.opType = 1 then [] else m.storage op.keyHash }
  let m := if op.opType = 1 then
      { m with storage := Function.update m.storage op.keyHash op.data }
    else m
  match m.clientPendings e.index with
  | none => .error .nullPending
  | some tr => .ok (m, .answered e tr reply)

/-- The loop of `maybe_apply`. SOURCE: core/morphling.cpp:187-202 -/
def applyAll : List Entry → Morphling n τ → Except Fault (Morphling n τ × List (Effect n τ))
  | [], m => .ok (m, [])
  | e :: rest, m => do
    let (m, answer) ← applyEntry unpack m e
    let (m, answers) ← applyAll rest m
    .ok (m, answer :: answers)

/-- The source declares an answer and gives none; no caller looks at it.
SOURCE: core/morphling.cpp:186-204 -/
def maybeApply (m : Morphling n τ) : Except Fault (Morphling n τ × List (Effect n τ)) := do
  let (m, answers) ← applyAll unpack m.applyEntries m
  .ok ({ m with applyEntries := [] }, answers)

end Handlers

/-- One turn of the loop of `bcast_msgs`: the first entry of an append is logged, and the
message is sent through the transport of its addressee. SOURCE: core/morphling.cpp:210-228 -/
def sendMsg {ρ : Type} (peersTrans : ℕ → Option ρ) (msg : GenericMessage n) :
    Except Fault (ρ × GenericMessage n) :=
  if msg.noEntries then .error .noEntries
  else
    match peersTrans msg.dst with
    | none => .error .nullTransport
    | some tr => .ok (tr, msg)

/-- The loop of `bcast_msgs`. SOURCE: core/morphling.cpp:210-229 -/
def sendAll {ρ : Type} (peersTrans : ℕ → Option ρ) :
    List (GenericMessage n) → Except Fault (List (ρ × GenericMessage n))
  | [] => .ok []
  | msg :: rest => do
    let sent ← sendMsg peersTrans msg
    let others ← sendAll peersTrans rest
    .ok (sent :: others)

/-- Send what is queued. SOURCE: core/morphling.cpp:206-231 -/
def bcastMsgs {ρ : Type} (m : Morphling n τ) (peersTrans : ℕ → Option ρ) :
    Except Fault (Morphling n τ × List (ρ × GenericMessage n)) := do
  let sent ← sendAll peersTrans m.nextMsgs
  .ok ({ m with nextMsgs := [] }, sent)

end Morphling

/-! ## Runs of one replica -/

/-- What can reach a replica, and the application of the queue. -/
inductive ReplicaEvent (τ : Type) where
  | operation (msg : ClientMessage) (trans : τ)
  | ack (msg : AppenEntriesReplyMessage) (sender : ℕ)
  | maybeApply

/-- One event at a replica, as a machine that emits the effects. -/
def Morphling.step {n : ℕ} {τ : Type} (unpack : Bytes → Option Operation) :
    Machine (Morphling n τ) (ReplicaEvent τ) (Effect n τ) Fault
  | m, .operation msg tr => m.handleOperation unpack msg tr
  | m, .ack msg sender => m.handleAppendEntriesReply msg sender
  | m, .maybeApply => m.maybeApply unpack

end MorphlingC.Model
