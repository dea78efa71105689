import MorphlingC.Model.Guidance

/-!
# Messages and log entries

The messages of `core/message.h` and the log entry of `core/smr.h`.  Bytes are natural
numbers below 256 in the source (`std::vector<uint8_t>`); they are carried around and
never computed with, except by the decoder of operations, which is a parameter of the
model (see `MorphlingC.Model.Replica`).  `from` is `fromId` here.
-/

set_option autoImplicit false

namespace MorphlingC.Model

/-- A byte string, `std::vector<uint8_t>`. -/
abbrev Bytes := List UInt8

/-- One log entry. SOURCE: core/smr.h:18-28 -/
structure Entry where
  epoch : ℕ := 0
  index : ℕ := 0
  data : Bytes := []
deriving DecidableEq, Repr

/-- SOURCE: core/message.h:29-40 -/
structure AppendEntriesMessage where
  fromId : ℕ := 0
  epoch : ℕ := 0
  prevTerm : ℕ
  prevIndex : ℕ
  commit : ℕ
  groupId : ℕ := 0
  entries : List Entry
deriving DecidableEq, Repr

/-- SOURCE: core/message.h:42-51 -/
structure AppenEntriesReplyMessage where
  fromId : ℕ := 0
  epoch : ℕ := 0
  success : Bool
  groupId : ℕ := 0
  index : ℕ
deriving DecidableEq, Repr

/-- `opType` is 0 for a read and 1 for a write. SOURCE: core/message.h:53-59 -/
structure Operation where
  opType : ℤ
  keyHash : ℕ
  data : Bytes := []
deriving DecidableEq, Repr

/-- `op` is the packed operation. SOURCE: core/message.h:61-70 -/
structure ClientMessage where
  epoch : ℕ
  keyHash : ℕ
  op : Bytes
deriving DecidableEq, Repr

/-- SOURCE: core/message.h:72-80 -/
structure ClientReplyMessage (n : ℕ) where
  fromId : ℕ
  success : Bool
  guidance : Guidance n
  keyHash : ℕ
  replyData : Bytes := []
deriving DecidableEq

/-- SOURCE: core/message.h:82-88 -/
structure GuidanceMessage (n : ℕ) where
  fromId : ℕ
  votes : ℕ
  guide : Guidance n
deriving DecidableEq

/-- A message queued for a peer: the tag of the source's union is the constructor, `dst`
is its field `to`.  The source's fourth kind, a client message for a peer, is never built.
SOURCE: core/message.h:90-106 -/
inductive GenericMessage (n : ℕ) where
  | append (msg : AppendEntriesMessage) (dst : ℕ)
  | appendReply (msg : AppenEntriesReplyMessage) (dst : ℕ)
  | guidance (msg : GuidanceMessage n) (dst : ℕ)
deriving DecidableEq

/-- The addressee of a queued message. -/
def GenericMessage.dst {n : ℕ} : GenericMessage n → ℕ
  | .append _ dst => dst
  | .appendReply _ dst => dst
  | .guidance _ dst => dst

/-- The message is an append without entries. -/
def GenericMessage.noEntries {n : ℕ} : GenericMessage n → Bool
  | .append msg _ => msg.entries.isEmpty
  | .appendReply _ _ => false
  | .guidance _ _ => false

/-- The ways a call can fail to return: the `ABORT_F` sites of the log, the undefined
behaviours of the standard containers that the code could run into, and the exception of
the decoder. -/
inductive Fault where
  /-- "can not find entry index 0 in log". SOURCE: core/smr.cpp:13-15 -/
  | entryIndexZero
  /-- "visit entry index … excced log length". SOURCE: core/smr.cpp:64-67 -/
  | entryBeyondLog
  /-- "retrieve entries … out of order". SOURCE: core/smr.cpp:77-79 -/
  | startAfterEnd
  /-- The copied iterator range ends past the log. SOURCE: core/smr.cpp:82 -/
  | rangeOutOfLog
  /-- `last_e` is read after `emplace_back` has moved the entries. SOURCE: core/smr.cpp:37-42 -/
  | lastEntryMoved
  /-- `begin() + entry_pos` is past the end of the vector. SOURCE: core/smr.cpp:53 -/
  | iteratorPastEnd
  /-- "want to commit entry … excced last log". SOURCE: core/smr.cpp:87-89 -/
  | commitBeyondLast
  /-- `entry_record[id]` with an id that is no peer number. SOURCE: core/smr.cpp:127 -/
  | voterOutOfRange
  /-- `next - 1` below zero. SOURCE: core/smr.cpp:271 -/
  | nextWraps
  /-- `m_smrs[group_id]` with no such group. SOURCE: core/morphling.cpp:88,134,145 -/
  | groupOutOfRange
  /-- `entries[0]` of a message without entries. SOURCE: core/morphling.cpp:133,217 -/
  | noEntries
  /-- The decoder of operations throws. SOURCE: core/morphling.cpp:91-100 -/
  | notDecodable
  /-- A send through an absent pending transport. SOURCE: core/morphling.cpp:201 -/
  | nullPending
  /-- A send through an absent peer transport. SOURCE: core/morphling.cpp:218-225 -/
  | nullTransport
deriving DecidableEq, Repr

end MorphlingC.Model
