import MorphlingC.Model.Packing

/-!
# Unpacking messages

The payload of a packet is unpacked by `msgpack::unpack` and converted to the message that the
header announces; the conversion throws when the payload is none.  Both are the msgpack
library's, so that the readers are parameters here.  What is relied on, where anything is, is
what the library promises: a message whose fields are in the ranges of their types is read back
from what `msgpack::pack` has written of it (`Readers.ReadPacked`).
-/

set_option autoImplicit false

namespace MorphlingC.Model

/-! ## The ranges of the fields -/

/-- The fields are in the ranges of their types, and the data can be packed. -/
structure Operation.Fits (op : Operation) : Prop where
  opType : -2 ^ 31 ≤ op.opType ∧ op.opType < 2 ^ 31
  keyHash : op.keyHash < 2 ^ 64
  data : op.data.length < 2 ^ 32

/-- The fields are in the ranges of their types, and the operation can be packed. -/
structure ClientMessage.Fits (msg : ClientMessage) : Prop where
  epoch : msg.epoch < 2 ^ 64
  keyHash : msg.keyHash < 2 ^ 64
  op : msg.op.length < 2 ^ 32

/-- The fields are in the ranges of their types, and the data can be packed. -/
structure Entry.Fits (e : Entry) : Prop where
  epoch : e.epoch < 2 ^ 64
  index : e.index < 2 ^ 64
  data : e.data.length < 2 ^ 32

/-- The fields are in the ranges of their types, and the entries can be packed. -/
structure AppendEntriesMessage.Fits (msg : AppendEntriesMessage) : Prop where
  fromId : msg.fromId < 2 ^ 31
  epoch : msg.epoch < 2 ^ 64
  prevTerm : msg.prevTerm < 2 ^ 64
  prevIndex : msg.prevIndex < 2 ^ 64
  commit : msg.commit < 2 ^ 64
  groupId : msg.groupId < 2 ^ 64
  count : msg.entries.length < 2 ^ 32
  entries : ∀ e ∈ msg.entries, e.Fits

/-- The fields are in the ranges of their types. -/
structure AppenEntriesReplyMessage.Fits (msg : AppenEntriesReplyMessage) : Prop where
  fromId : msg.fromId < 2 ^ 31
  epoch : msg.epoch < 2 ^ 64
  groupId : msg.groupId < 2 ^ 64
  index : msg.index < 2 ^ 64

/-! ## Readers -/

/-- What a server makes of the payloads of its packets: a message, or the conversion throws.
SOURCE: app/server.cpp:164-169, 202-216; app/server2.cpp:256-259, 296-306 -/
structure Readers where
  client : Bytes → Option ClientMessage
  append : Bytes → Option AppendEntriesMessage
  appendReply : Bytes → Option AppenEntriesReplyMessage

/-- What has been packed is read back. -/
structure Readers.ReadPacked (readers : Readers) : Prop where
  client : ∀ msg : ClientMessage, msg.Fits → readers.client msg.pack = some msg
  append : ∀ msg : AppendEntriesMessage, msg.Fits → readers.append msg.pack = some msg
  appendReply : ∀ msg : AppenEntriesReplyMessage, msg.Fits →
    readers.appendReply msg.pack = some msg

end MorphlingC.Model
