import MorphlingC.Analysis.FrameReads
import MorphlingC.Model.Encoders
import MorphlingC.Model.Packing

/-!
# What the encoders write, the decoders read

The four encoders write the same header for the same type and size, that of a `Frame`
(`write_eq_encode`).  So a stream of what they write is a stream of frames, from which
`recv_msg` takes one after the other, and a `MessageHeader` read from the front of each has
its type and size.
-/

set_option autoImplicit false

namespace MorphlingC.Analysis

open MorphlingC.Library MorphlingC.Model

/-! ## One header -/

/-- INTERNAL: the byte of the size that is overwritten does not matter.
SOURCE: app/server.cpp:52-56 -/
theorem socketHeader_eq (msgType : MessageType) (size : ℕ) :
    socketHeader msgType size = frameHeader msgType size := by
  simp [socketHeader, frameHeader, List.range_succ]

/-- INTERNAL: the bit-fields of a header are the bytes of a header.
SOURCE: core/message.h:109-112, app/server2.cpp:92-98 -/
theorem messageHeader_toBytes (msgType : MessageType) (size : ℕ) :
    MessageHeader.toBytes ⟨BitVec.ofNat 24 size, msgType.toByte.toBitVec⟩ =
      frameHeader msgType size := by
  have hword : (MessageHeader.word ⟨BitVec.ofNat 24 size, msgType.toByte.toBitVec⟩).toNat =
      msgType.toByte.toNat * 2 ^ 24 + size % 2 ^ 24 := by
    show (msgType.toByte.toBitVec ++ BitVec.ofNat 24 size).toNat = _
    rw [BitVec.toNat_append, ← Nat.shiftLeft_add_eq_or_of_lt (BitVec.isLt _),
      Nat.shiftLeft_eq, BitVec.toNat_ofNat]
    rfl
  have htype : msgType.toByte.toNat < 256 := msgType.toByte.toNat_lt
  unfold MessageHeader.toBytes
  rw [hword]
  simp only [leBytes, frameHeader, List.range_succ, List.range_zero, List.nil_append,
    List.map_cons, List.map_nil, List.cons_append, List.cons.injEq, and_true,
    Nat.shiftRight_eq_div_pow, ← UInt8.toNat_inj, UInt8.toNat_ofNat']
  omega

/-- INTERNAL: a header that is written by any encoder reads as its type and size.
SOURCE: core/message.h:109-112 -/
theorem ofBytes_frameHeader (msgType : MessageType) {size : ℕ} (hsize : size < 2 ^ 24)
    (rest : Bytes) :
    (MessageHeader.ofBytes (frameHeader msgType size ++ rest)).msgType = msgType ∧
      (MessageHeader.ofBytes (frameHeader msgType size ++ rest)).size.toNat = size := by
  rw [← messageHeader_toBytes, MessageHeader.ofBytes_toBytes]
  constructor
  · exact MessageType.ofByte_toByte msgType
  · rw [BitVec.toNat_ofNat, Nat.mod_eq_of_lt hsize]

/-! ## One frame -/

/-- INTERNAL: what `pack_operation` returns. SOURCE: app/utils.cpp:21-42 -/
theorem packOperation_ok {packOp : Operation → Bytes} {packMsg : ClientMessage → Bytes}
    {op : Operation} {msg msg' : ClientMessage} {bytes : Bytes}
    (h : packOperation packOp packMsg op msg = .ok (msg', bytes)) :
    msg' = { msg with op := packOp op } ∧ (packMsg msg').length < 2000 ∧
      bytes = frameHeader .client (packMsg msg').length ++ packMsg msg' := by
  unfold packOperation at h
  dsimp only at h
  split at h
  · rename_i hsize
    simp only [Except.ok.injEq, Prod.mk.injEq] at h
    obtain ⟨rfl, rfl⟩ := h
    refine ⟨rfl, hsize, ?_⟩
    rw [Nat.mod_eq_of_lt (by omega)]
    rfl
  · cases h

/-- INTERNAL: **what an encoder writes is the frame of its message.**
SOURCE: app/server.cpp:48-61, app/server2.cpp:91-103, app/utils.cpp:21-48 -/
theorem write_eq_encode {packOp : Operation → Bytes} {packMsg : ClientMessage → Bytes}
    {w : Outgoing} {bytes : Bytes} (h : w.write packOp packMsg = .ok bytes) :
    ∃ f : Frame, bytes = f.encode ∧ w.content packOp packMsg = (f.msgType, f.payload) := by
  cases w with
  | socket f =>
    cases h
    refine ⟨f, ?_, rfl⟩
    rw [socketSend, socketHeader_eq, Frame.encode]
  | udp f =>
    cases h
    refine ⟨f, ?_, rfl⟩
    rw [udpSend, messageHeader_toBytes, Frame.encode]
  | operation op msg =>
    obtain ⟨⟨msg', frame⟩, hpack, h⟩ := bind_eq_ok.mp h
    cases h
    obtain ⟨rfl, hsize, rfl⟩ := packOperation_ok hpack
    exact ⟨⟨.client, packMsg { msg with op := packOp op }, by decide, by omega⟩, rfl, rfl⟩
  | getGuidance =>
    cases h
    exact ⟨getGuidanceFrame, by decide, rfl⟩

/-! ## Streams -/

/-- `recv_msg` called several times: the messages, and what is left in the buffer.
SOURCE: app/utils.cpp:68-91 -/
def recvMsgs (capacity rounds : ℕ) :
    ℕ → Bytes → Except ReadFault (List (MessageType × Bytes) × Bytes)
  | 0, buffer => .ok ([], buffer)
  | times + 1, buffer => do
    let (msgType, payload, buffer) ← recvMsg capacity rounds buffer
    let (others, buffer) ← recvMsgs capacity rounds times buffer
    .ok ((msgType, payload) :: others, buffer)

/-- **What any encoders write is read back by both decoders.**  For every list of messages,
each written by one of the four encoders, `recv_msg` called once for each of them on what
they have written, whatever follows it, returns their types and payloads, in order, and
leaves what follows.  The first four bytes of each, read as a `MessageHeader`, give its type
and the size of its payload.  The array that is read into has to hold each payload, and a
header. -/
theorem written_read_back (packOp : Operation → Bytes) (packMsg : ClientMessage → Bytes)
    (sent : List Outgoing) (written : List Bytes) (rest : Bytes) (capacity rounds : ℕ)
    (hsent : sent.mapM (Outgoing.write packOp packMsg) = .ok written)
    (hheader : 4 ≤ capacity)
    (hroom : ∀ w ∈ sent, (w.content packOp packMsg).2.length ≤ capacity) :
    recvMsgs capacity (rounds + 1) sent.length (written.flatten ++ rest) =
        .ok (sent.map (Outgoing.content packOp packMsg), rest) ∧
      written.map (fun bytes => ((MessageHeader.ofBytes bytes).msgType,
          (MessageHeader.ofBytes bytes).size.toNat)) =
        sent.map fun w => ((w.content packOp packMsg).1, (w.content packOp packMsg).2.length) := by
  induction sent generalizing written with
  | nil =>
    cases hsent
    exact ⟨rfl, rfl⟩
  | cons w sent ih =>
    rw [List.mapM_cons] at hsent
    obtain ⟨bytes, hbytes, hsent⟩ := bind_eq_ok.mp hsent
    obtain ⟨others, hothers, hsent⟩ := bind_eq_ok.mp hsent
    cases hsent
    obtain ⟨f, rfl, hcontent⟩ := write_eq_encode hbytes
    obtain ⟨hread, hheaders⟩ :=
      ih others hothers fun w' hw' => hroom w' (List.mem_cons_of_mem _ hw')
    have hfits : f.payload.length ≤ capacity := by
      have h := hroom w List.mem_cons_self
      rwa [hcontent] at h
    constructor
    · rw [List.length_cons, List.flatten_cons, List.append_assoc, recvMsgs,
        recvMsg_whole rounds hheader hfits, ok_bind]
      dsimp only
      rw [hread, ok_bind, List.map_cons, hcontent]
    · obtain ⟨htype, hsize⟩ := ofBytes_frameHeader f.msgType f.sized f.payload
      rw [List.map_cons, List.map_cons, hheaders, hcontent]
      show ((MessageHeader.ofBytes (frameHeader f.msgType f.payload.length ++ f.payload)).msgType,
        _) :: _ = _
      rw [htype, Frame.encode, hsize]

/-- A message by each of the encoders, and a byte behind them. -/
theorem written_read_back_four :
    recvMsgs recvCapacity 1 4
        ([[1, 0, 0, 0, 7], [2, 0, 0, 3, 1, 2],
          [10, 0, 0, 2, 0x93, 1, 0x54, 0xc4, 5, 0x93, 0, 0x54, 0xc4, 0],
          [0, 0, 0, 5]].flatten ++ [9]) =
      .ok ([(.append, [7]), (.clientReply, [1, 2]),
        (.client, [0x93, 1, 0x54, 0xc4, 5, 0x93, 0, 0x54, 0xc4, 0]), (.getGuidance, [])], [9]) :=
  have hsent : [Outgoing.socket ⟨.append, [7], by decide, by decide⟩,
      .udp ⟨.clientReply, [1, 2], by decide, by decide⟩,
      .operation ⟨0, 0x54, []⟩ ⟨1, 0x54, []⟩, .getGuidance].mapM
        (Outgoing.write Operation.pack ClientMessage.pack) =
      .ok [[1, 0, 0, 0, 7], [2, 0, 0, 3, 1, 2],
        [10, 0, 0, 2, 0x93, 1, 0x54, 0xc4, 5, 0x93, 0, 0x54, 0xc4, 0], [0, 0, 0, 5]] := by
    decide
  (written_read_back _ _ _ _ [9] recvCapacity 0 hsent (by decide) (by decide)).1

end MorphlingC.Analysis
