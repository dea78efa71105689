import MorphlingC.Library.MsgPackRead
import MorphlingC.Model.Unpacking

/-!
# Readers of what has been packed

The readers of packets are parameters of the servers.  Here is one choice of them, for the
msgpack format as it is documented: each takes the fields of a structure off an array, in the
order in which `MSGPACK_DEFINE` lists them, and what has been packed is read back
(`packedReaders_readPacked`).  The library accepts more than these readers do; they are for
messages that it has packed itself.
-/

set_option autoImplicit false

namespace MorphlingC.Analysis

open MorphlingC.Library MorphlingC.Library.MsgPack MorphlingC.Model

/-! ## Fields -/

/-- A field of type `int`: what does not fit is refused. -/
def readInt32 : Reader ℤ := do
  let value ← readInt
  if -2 ^ 31 ≤ value ∧ value < 2 ^ 31 then return value else failure

/-- A field of type `int` that holds the number of a replica. -/
def readReplica : Reader ℕ := do
  let value ← readUInt
  if value < 2 ^ 31 then return value else failure

/-- INTERNAL: a field of type `int` is read back. SOURCE: core/message.h:53-59 -/
theorem reads_int32 {value : ℤ} (h : -2 ^ 31 ≤ value ∧ value < 2 ^ 31) :
    Reads readInt32 (packInt value) value :=
  (reads_int (by omega) (by omega)).bind_test (f := id) h

/-- INTERNAL: the number of a replica is read back. SOURCE: core/message.h:29-51 -/
theorem reads_replica {value : ℕ} (h : value < 2 ^ 31) :
    Reads readReplica (packUInt value) value :=
  (reads_uint (by omega)).bind_test (f := id) h

/-! ## Structures -/

/-- SOURCE: core/message.h:53-59 -/
def readOperation : Reader Operation := tuple 3 do
  let opType ← readInt32
  let keyHash ← readUInt
  let data ← readBin
  return { opType, keyHash, data }

/-- SOURCE: core/message.h:61-70 -/
def readClientMessage : Reader ClientMessage := tuple 3 do
  let epoch ← readUInt
  let keyHash ← readUInt
  let op ← readBin
  return { epoch, keyHash, op }

/-- SOURCE: core/smr.h:18-33 -/
def readEntry : Reader Entry := tuple 3 do
  let epoch ← readUInt
  let index ← readUInt
  let data ← readBin
  return { epoch, index, data }

/-- SOURCE: core/message.h:29-40 -/
def readAppendEntries : Reader AppendEntriesMessage := tuple 7 do
  let fromId ← readReplica
  let epoch ← readUInt
  let prevTerm ← readUInt
  let prevIndex ← readUInt
  let commit ← readUInt
  let groupId ← readUInt
  let entries ← readArray readEntry
  return { fromId, epoch, prevTerm, prevIndex, commit, groupId, entries }

/-- SOURCE: core/message.h:42-51 -/
def readAppendReply : Reader AppenEntriesReplyMessage := tuple 5 do
  let fromId ← readReplica
  let epoch ← readUInt
  let success ← readBool
  let groupId ← readUInt
  let index ← readUInt
  return { fromId, epoch, success, groupId, index }

/-- INTERNAL: an operation is read back. SOURCE: core/message.h:58 -/
theorem reads_operation {op : Operation} (h : op.Fits) : Reads readOperation op.pack op := by
  refine reads_tuple [_, _, _] (by simp) ?_
  exact (reads_int32 h.opType).bind ((reads_uint h.keyHash).bind ((reads_bin h.data).bind
    (.pure _)))

/-- INTERNAL: a client's message is read back. SOURCE: core/message.h:69 -/
theorem reads_clientMessage {msg : ClientMessage} (h : msg.Fits) :
    Reads readClientMessage msg.pack msg := by
  refine reads_tuple [_, _, _] (by simp) ?_
  exact (reads_uint h.epoch).bind ((reads_uint h.keyHash).bind ((reads_bin h.op).bind
    (.pure _)))

/-- INTERNAL: an entry is read back. SOURCE: core/smr.h:33 -/
theorem reads_entry {e : Entry} (h : e.Fits) : Reads readEntry e.pack e := by
  refine reads_tuple [_, _, _] (by simp) ?_
  exact (reads_uint h.epoch).bind ((reads_uint h.index).bind ((reads_bin h.data).bind
    (.pure _)))

/-- INTERNAL: an append is read back, with its entries. SOURCE: core/message.h:39 -/
theorem reads_appendEntries {msg : AppendEntriesMessage} (h : msg.Fits) :
    Reads readAppendEntries msg.pack msg := by
  refine reads_tuple [_, _, _, _, _, _, _] (by simp) ?_
  have hentries := reads_array h.count fun e he => reads_entry (h.entries e he)
  exact (reads_replica h.fromId).bind ((reads_uint h.epoch).bind ((reads_uint h.prevTerm).bind
    ((reads_uint h.prevIndex).bind ((reads_uint h.commit).bind ((reads_uint h.groupId).bind
      (hentries.bind (.pure _)))))))

/-- INTERNAL: an acknowledgement is read back. SOURCE: core/message.h:50 -/
theorem reads_appendReply {msg : AppenEntriesReplyMessage} (h : msg.Fits) :
    Reads readAppendReply msg.pack msg := by
  refine reads_tuple [_, _, _, _, _] (by simp) ?_
  exact (reads_replica h.fromId).bind ((reads_uint h.epoch).bind ((reads_bool msg.success).bind
    ((reads_uint h.groupId).bind ((reads_uint h.index).bind (.pure _)))))

/-! ## The readers -/

/-- What a reader takes off the front of some bytes; what is behind it is not looked at. -/
def front {α : Type} (r : Reader α) (bytes : Bytes) : Option α := (r bytes).map Prod.fst

/-- INTERNAL: what a reader takes off some bytes that are exactly its own. -/
theorem front_of_reads {α : Type} {r : Reader α} {bytes : Bytes} {a : α} (h : Reads r bytes a) :
    front r bytes = some a := by
  have hread := h []
  rw [List.append_nil] at hread
  rw [front, hread]
  rfl

/-- A reader of operations. -/
def unpackOperation : Bytes → Option Operation := front readOperation

/-- An operation that has been packed is read back. SOURCE: core/message.h:53-59 -/
theorem unpackOperation_pack {op : Operation} (h : op.Fits) : unpackOperation op.pack = some op :=
  front_of_reads (reads_operation h)

/-- Readers of the packets of a server. -/
def packedReaders : Readers where
  client := front readClientMessage
  append := front readAppendEntries
  appendReply := front readAppendReply

/-- **What has been packed is read back.** SOURCE: core/message.h:29-70; core/smr.h:18-33 -/
theorem packedReaders_readPacked : packedReaders.ReadPacked where
  client := fun msg h => by
    simp only [packedReaders]
    exact front_of_reads (reads_clientMessage h)
  append := fun msg h => by
    simp only [packedReaders]
    exact front_of_reads (reads_appendEntries h)
  appendReply := fun msg h => by
    simp only [packedReaders]
    exact front_of_reads (reads_appendReply h)

end MorphlingC.Analysis
