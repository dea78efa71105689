import MorphlingC.Library.MsgPack
import MorphlingC.Model.Message

/-!
# The packed messages

What `msgpack::pack` writes for the messages of `core/message.h`, the entry of `core/smr.h`
and the guidance of `core/guidance.h`.  `MSGPACK_DEFINE` packs a structure as the array of
the fields it lists, in their order; a `std::vector<uint8_t>` is a byte string and any other
vector, or an array of the language, is an array.
-/

set_option autoImplicit false

namespace MorphlingC.Model

open MorphlingC.Library.MsgPack

/-- SOURCE: core/message.h:58 -/
def Operation.pack (op : Operation) : Bytes :=
  packArray [packInt op.opType, packUInt op.keyHash, packBin op.data]

/-- SOURCE: core/message.h:69 -/
def ClientMessage.pack (msg : ClientMessage) : Bytes :=
  packArray [packUInt msg.epoch, packUInt msg.keyHash, packBin msg.op]

/-- SOURCE: core/smr.h:33 -/
def Entry.pack (e : Entry) : Bytes :=
  packArray [packUInt e.epoch, packUInt e.index, packBin e.data]

/-- SOURCE: core/message.h:39 -/
def AppendEntriesMessage.pack (msg : AppendEntriesMessage) : Bytes :=
  packArray [packUInt msg.fromId, packUInt msg.epoch, packUInt msg.prevTerm,
    packUInt msg.prevIndex, packUInt msg.commit, packUInt msg.groupId,
    packArray (msg.entries.map Entry.pack)]

/-- SOURCE: core/message.h:50 -/
def AppenEntriesReplyMessage.pack (msg : AppenEntriesReplyMessage) : Bytes :=
  packArray [packUInt msg.fromId, packUInt msg.epoch, packBool msg.success,
    packUInt msg.groupId, packUInt msg.index]

/-- SOURCE: core/guidance.h:32 -/
def NodeStatus.pack (s : NodeStatus) : Bytes := packArray [packUInt s.status.toNat]

/-- SOURCE: core/guidance.h:83 -/
def Guidance.pack {n : ℕ} (g : Guidance n) : Bytes :=
  packArray [packUInt g.epoch, packUInt g.status.toNat,
    packArray (List.ofFn fun i => (g.cluster i).pack)]

/-- SOURCE: core/message.h:79 -/
def ClientReplyMessage.pack {n : ℕ} (msg : ClientReplyMessage n) : Bytes :=
  packArray [packUInt msg.fromId, packBool msg.success, msg.guidance.pack,
    packUInt msg.keyHash, packBin msg.replyData]

end MorphlingC.Model
