import MorphlingC.Analysis.FrameCodec
import MorphlingC.Model.Packing

/-!
# Accepted messages fit the receive buffers

`pack_operation` refuses a client message of 2000 bytes or more, and what a replica sends
because of one carries the same bytes: the packed operation in an entry of an append, or the
operation's data in a reply.  The sizes of both are bounded by what the assertion leaves for
these bytes, with some bytes to spare below the 2048 of the arrays that they are read into.
-/

set_option autoImplicit false

namespace MorphlingC.Analysis

open MorphlingC.Library.MsgPack MorphlingC.Model

/-- INTERNAL: the packed size of a structure with three fields. SOURCE: core/message.h:58, 69 -/
theorem packArray_three (a b c : Bytes) :
    (packArray [a, b, c]).length = 1 + a.length + b.length + c.length := by
  rw [packArray_length (by simp)]
  simp only [List.map_cons, List.map_nil, List.sum_cons, List.sum_nil]
  omega

/-- INTERNAL: the packed size of an array with one element. SOURCE: core/guidance.h:32 -/
theorem packArray_one (a : Bytes) : (packArray [a]).length = 1 + a.length := by
  rw [packArray_length (by simp), List.map_singleton, List.sum_singleton]

/-- INTERNAL: what the assertion leaves for the operation: the smallest fields and headers
around it take seven bytes. SOURCE: app/utils.cpp:21-42 -/
theorem op_length_le {msg : ClientMessage} (h : msg.pack.length < 2000) :
    msg.op.length ≤ 1993 := by
  unfold ClientMessage.pack at h
  rw [packArray_three, packBin_length] at h
  have hepoch := packUInt_length_pos msg.epoch
  have hkey := packUInt_length_pos msg.keyHash
  split_ifs at h <;> omega

/-- INTERNAL: what a packed operation of this size leaves for its data.
SOURCE: core/message.h:53-59 -/
theorem data_length_le {op : Operation} (h : op.pack.length ≤ 1993) :
    op.data.length ≤ 1987 := by
  unfold Operation.pack at h
  rw [packArray_three, packBin_length] at h
  have htype := packInt_length_pos op.opType
  have hkey := packUInt_length_pos op.keyHash
  split_ifs at h <;> omega

/-- INTERNAL: a byte string of less than 2^16 bytes has a header of at most three.
SOURCE: core/message.h:58, 79 -/
theorem packBin_length_le {data : Bytes} (h : data.length < 2 ^ 16) :
    (packBin data).length ≤ data.length + 3 := by
  rw [packBin_length]
  split_ifs <;> omega

/-- INTERNAL: the packed size of an entry of a small epoch. SOURCE: core/smr.h:18-33 -/
theorem entry_pack_length_le {e : Entry} (hepoch : e.epoch < 2 ^ 7)
    (hdata : e.data.length < 2 ^ 16) : e.pack.length ≤ 14 + e.data.length := by
  unfold Entry.pack
  rw [packArray_three, packUInt_of_lt_7 hepoch]
  have hindex := packUInt_length_le e.index
  have hbin := packBin_length_le hdata
  rw [List.length_singleton]
  omega

/-- INTERNAL: the packed size of an append with one entry, from a replica and in an epoch of
one byte each. SOURCE: core/message.h:29-40 -/
theorem append_pack_length_le {msg : AppendEntriesMessage} {e : Entry}
    (hfrom : msg.fromId < 2 ^ 7) (hepoch : msg.epoch < 2 ^ 7) (hgroup : msg.groupId < 2 ^ 8)
    (hentries : msg.entries = [e]) : msg.pack.length ≤ 33 + e.pack.length := by
  unfold AppendEntriesMessage.pack
  rw [hentries, List.map_singleton, packArray_length (by simp), packUInt_of_lt_7 hfrom,
    packUInt_of_lt_7 hepoch]
  have hterm := packUInt_length_le msg.prevTerm
  have hindex := packUInt_length_le msg.prevIndex
  have hcommit := packUInt_length_le msg.commit
  have hgid := packUInt_length_le_of_lt_8 hgroup
  simp only [List.map_cons, List.map_nil, List.sum_cons, List.sum_nil, List.length_singleton,
    packArray_one]
  omega

/-- INTERNAL: the packed size of a node's word. SOURCE: core/guidance.h:22-32 -/
theorem nodeStatus_pack_length_le (s : NodeStatus) : s.pack.length ≤ 6 := by
  unfold NodeStatus.pack
  rw [packArray_one]
  have hword := packUInt_length_le_of_lt_32 s.status.isLt
  omega

/-- INTERNAL: the packed size of the guidance of three replicas.
SOURCE: core/guidance.h:77-84 -/
theorem guidance_pack_length_le (g : Guidance 3) : g.pack.length ≤ 34 := by
  unfold Guidance.pack
  rw [packArray_three, packArray_length (by simp)]
  have hepoch := packUInt_length_le g.epoch
  have hstatus := packUInt_length_le_of_lt_32 g.status.isLt
  have h0 := nodeStatus_pack_length_le (g.cluster 0)
  have h1 := nodeStatus_pack_length_le (g.cluster 1)
  have h2 := nodeStatus_pack_length_le (g.cluster 2)
  simp only [List.ofFn_succ, List.ofFn_zero, List.map_cons, List.map_nil, List.sum_cons,
    List.sum_nil]
  show 1 + _ + _ + (1 + ((g.cluster 0).pack.length + ((g.cluster 1).pack.length +
    ((g.cluster 2).pack.length + 0)))) ≤ 34
  omega

/-- INTERNAL: the packed size of a reply to a client. SOURCE: core/message.h:72-80 -/
theorem reply_pack_length_le {reply : ClientReplyMessage 3} (hfrom : reply.fromId < 2 ^ 7)
    (hdata : reply.replyData.length < 2 ^ 16) :
    reply.pack.length ≤ 49 + reply.replyData.length := by
  unfold ClientReplyMessage.pack
  rw [packArray_length (by simp), packUInt_of_lt_7 hfrom]
  have hguidance := guidance_pack_length_le reply.guidance
  have hkey := packUInt_length_le reply.keyHash
  have hbin := packBin_length_le hdata
  simp only [List.map_cons, List.map_nil, List.sum_cons, List.sum_nil, List.length_singleton,
    packBool_length]
  omega

/-- **What an accepted operation is sent in fits the receive buffers.**  For every operation
and client message of the servers' epoch 1 that `pack_operation` does not refuse: every
append with the one entry that holds the packed operation, from one of the three replicas and
for one of the groups, and every reply of a replica with the operation's data, whatever its
other fields, are packed in no more bytes than the arrays that they are read into. -/
theorem accepted_messages_fit (op : Operation) (msg accepted : ClientMessage) (frame : Bytes)
    (hepoch : msg.epoch = 1)
    (hpack : packOperation Operation.pack ClientMessage.pack op msg = .ok (accepted, frame)) :
    (∀ append : AppendEntriesMessage, ∀ index : ℕ,
      append.fromId < 3 → append.epoch = 1 → append.groupId < defaultKeySpace →
      append.entries = [⟨accepted.epoch, index, accepted.op⟩] →
      append.pack.length ≤ recvCapacity) ∧
    (∀ reply : ClientReplyMessage 3,
      reply.fromId < 3 → reply.replyData = op.data → reply.pack.length ≤ recvCapacity) := by
  obtain ⟨rfl, hsize, -⟩ := packOperation_ok hpack
  have hop : op.pack.length ≤ 1993 := op_length_le hsize
  have hdata := data_length_le hop
  unfold recvCapacity
  constructor
  · intro append index hfrom happend hgroup hentries
    have hentry := entry_pack_length_le (e := ⟨msg.epoch, index, op.pack⟩)
      (show msg.epoch < 2 ^ 7 by omega) (show op.pack.length < 2 ^ 16 by omega)
    have hlength := append_pack_length_le (by omega) (by rw [happend]; decide) hgroup hentries
    dsimp only at hentry hlength
    omega
  · intro reply hfrom hreply
    have hlength : reply.pack.length ≤ 49 + reply.replyData.length :=
      reply_pack_length_le (by omega) (by rw [hreply]; omega)
    rw [hreply] at hlength
    omega

/-- A write of three bytes, appended with the largest indices, and a reply with the three
bytes. -/
theorem accepted_messages_fit_small :
    (AppendEntriesMessage.pack ⟨2, 1, 1, 2 ^ 64 - 2, 2 ^ 64 - 2, 0x54,
        [⟨1, 2 ^ 64 - 1, Operation.pack ⟨1, 0x5499, [1, 2, 3]⟩⟩]⟩).length ≤ recvCapacity ∧
      (ClientReplyMessage.pack ⟨1, true, ({} : Guidance 3).initLocalGuidance, 0x5499,
        [1, 2, 3]⟩).length ≤ recvCapacity :=
  have hfit := accepted_messages_fit ⟨1, 0x5499, [1, 2, 3]⟩ ⟨1, 0x5499, []⟩ _ _ rfl rfl
  ⟨hfit.1 _ (2 ^ 64 - 1) (by decide) rfl (by decide) rfl, hfit.2 _ (by decide) rfl⟩

end MorphlingC.Analysis
