import MorphlingC.Library.ByteOrder
import MorphlingC.Model.Framing

/-!
# The encoders of a frame

Four functions write frames: `SocketTransport::__send` of `app/server.cpp`,
`UDPTransport::__send` of `app/server2.cpp`, and `pack_operation` and `pack_get_guiddance` of
`app/utils.cpp`.  Each puts the header together in its own way.  The UDP transport copies a
`MessageHeader`, two bit-fields of one word: the size is in its low 24 bits and the type in
its high 8, and the word is stored least significant byte first.

What packs an operation and a client message is a parameter here; `MorphlingC.Model.Packing`
has the two packers of the source.
-/

set_option autoImplicit false

namespace MorphlingC.Model

open MorphlingC.Library

/-! ## The transports -/

/-- All four bytes are taken from the size, and then the last one is overwritten.
SOURCE: app/server.cpp:52-56 -/
def socketHeader (msgType : MessageType) (payloadSize : ℕ) : Bytes :=
  ((List.range 4).map fun i => UInt8.ofNat (payloadSize >>> (i * 8))).set 3 msgType.toByte

/-- SOURCE: app/server.cpp:48-61 -/
def socketSend (msgType : MessageType) (payload : Bytes) : Bytes :=
  socketHeader msgType payload.length ++ payload

/-- SOURCE: core/message.h:109-112 -/
structure MessageHeader where
  size : BitVec 24
  type : BitVec 8
deriving DecidableEq, Repr

namespace MessageHeader

/-- The word that the two bit-fields share. -/
def word (header : MessageHeader) : BitVec 32 := header.type ++ header.size

/-- The bytes of a header in memory. SOURCE: app/server2.cpp:98 -/
def toBytes (header : MessageHeader) : Bytes := leBytes 4 header.word.toNat

/-- The header that the first four bytes are read into.
SOURCE: app/server2.cpp:243-245, 285-287, app/client3.cpp:325-328 -/
def ofBytes (bytes : Bytes) : MessageHeader :=
  let word := BitVec.ofNat 32 (ofLeBytes (bytes.take 4))
  { size := word.extractLsb' 0 24, type := word.extractLsb' 24 8 }

/-- What the type of a header is compared with. SOURCE: app/server2.cpp:248, 266, 296-309 -/
def msgType (header : MessageHeader) : MessageType := .ofByte (.ofBitVec header.type)

/-- A header that has been stored is read back. -/
theorem ofBytes_toBytes (header : MessageHeader) (rest : Bytes) :
    ofBytes (header.toBytes ++ rest) = header := by
  have hword : BitVec.ofNat 32 (ofLeBytes ((header.toBytes ++ rest).take 4)) = header.word := by
    rw [toBytes, List.take_left' (leBytes_length _ _), ofLeBytes_leBytes,
      Nat.mod_eq_of_lt (show header.word.toNat < 256 ^ 4 from header.word.isLt),
      BitVec.ofNat_toNat, BitVec.setWidth_eq]
  unfold ofBytes
  rw [hword]
  show MessageHeader.mk ((header.type ++ header.size).extractLsb' 0 24)
    ((header.type ++ header.size).extractLsb' 24 8) = header
  rw [BitVec.extractLsb'_append_eq_right, BitVec.extractLsb'_append_eq_left]

end MessageHeader

/-- SOURCE: app/server2.cpp:91-103 -/
def udpSend (msgType : MessageType) (payload : Bytes) : Bytes :=
  let header : MessageHeader :=
    { type := msgType.toByte.toBitVec, size := BitVec.ofNat 24 payload.length }
  header.toBytes ++ payload

/-! ## The clients -/

/-- The one way in which an encoder does not return. -/
inductive PackFault where
  /-- "assert(msg_buf.size() < 2000)". SOURCE: app/utils.cpp:39 -/
  | tooLong
deriving DecidableEq, Repr

/-- Pack the operation, put it into the message, and pack this into a frame.  The message as
it then is and the frame are returned. SOURCE: app/utils.cpp:21-42 -/
def packOperation (packOp : Operation → Bytes) (packMsg : ClientMessage → Bytes)
    (op : Operation) (msg : ClientMessage) : Except PackFault (ClientMessage × Bytes) :=
  let msg := { msg with op := packOp op }
  let msgBuf := packMsg msg
  let msgSize := msgBuf.length % 2 ^ 32
  let header := (List.range 3).map (fun i => UInt8.ofNat (msgSize >>> (i * 8))) ++
    [MessageType.client.toByte]
  if msgBuf.length < 2000 then .ok (msg, header ++ msgBuf)
  else .error .tooLong

/-- SOURCE: app/utils.cpp:44-48 -/
def packGetGuiddance : Bytes := (List.replicate 4 0).set 3 MessageType.getGuidance.toByte

/-! ## Any of the four -/

/-- A message as an encoder is given it. -/
inductive Outgoing where
  /-- A message of a known type, on the TCP transport. -/
  | socket (f : Frame)
  /-- A message of a known type, on the UDP transport. -/
  | udp (f : Frame)
  /-- A client's operation. -/
  | operation (op : Operation) (msg : ClientMessage)
  /-- The request for a guidance. -/
  | getGuidance

namespace Outgoing

variable (packOp : Operation → Bytes) (packMsg : ClientMessage → Bytes)

/-- What the encoder writes. -/
def write : Outgoing → Except PackFault Bytes
  | socket f => .ok (socketSend f.msgType f.payload)
  | udp f => .ok (udpSend f.msgType f.payload)
  | operation op msg => do
    let (_, frame) ← packOperation packOp packMsg op msg
    .ok frame
  | getGuidance => .ok packGetGuiddance

/-- The type of the message and its payload. -/
def content : Outgoing → MessageType × Bytes
  | socket f => (f.msgType, f.payload)
  | udp f => (f.msgType, f.payload)
  | operation op msg => (.client, packMsg { msg with op := packOp op })
  | getGuidance => (.getGuidance, [])

end Outgoing

end MorphlingC.Model
