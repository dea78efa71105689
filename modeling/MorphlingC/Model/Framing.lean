import MorphlingC.Library.Machine
import MorphlingC.Model.Message

/-!
# Frames on a TCP connection

`recv_msg` of `app/utils.cpp`, the frames of `SocketTransport::__send`, and the three read
callbacks that take one frame each.  A frame is a header of four bytes, the size in the
first three, least significant first, and the type in the fourth, and then the payload.

`bufferevent_read` removes as many bytes as are asked for, as far as there are any.
`full_read` asks until it has all; nothing refills the buffer while a callback runs, so the
loop has a bound on its rounds here, and a loop that would go on is `stillReading` for every
bound.  What a callback does with a message is `Dispatch`; the messages themselves are
unpacked by the msgpack library and are bytes here.
-/

set_option autoImplicit false

namespace MorphlingC.Model

open MorphlingC.Library

/-- SOURCE: core/message.h:14-22 -/
inductive MessageType where
  | unknown
  | append
  | appendReply
  | client
  | clientReply
  | guidance
  | getGuidance
deriving DecidableEq, Repr

namespace MessageType

/-- The type byte of a header; a type of the enumeration is known. -/
def ofByte (b : UInt8) : MessageType :=
  if b = 0 then append
  else if b = 1 then appendReply
  else if b = 2 then client
  else if b = 3 then clientReply
  else if b = 4 then guidance
  else if b = 5 then getGuidance
  else unknown

/-- `type & 0xFF`. -/
def toByte : MessageType → UInt8
  | unknown => 255
  | append => 0
  | appendReply => 1
  | client => 2
  | clientReply => 3
  | guidance => 4
  | getGuidance => 5

@[simp] theorem ofByte_toByte (t : MessageType) : ofByte t.toByte = t := by
  cases t <;> decide

end MessageType

/-- A message on the wire: a known type, and a payload whose size the header can hold. -/
structure Frame where
  msgType : MessageType
  payload : Bytes
  known : msgType ≠ .unknown
  sized : payload.length < 2 ^ 24

/-- The four bytes in front of a payload. SOURCE: app/server.cpp:52-56 -/
def frameHeader (msgType : MessageType) (payloadSize : ℕ) : Bytes :=
  (List.range 3).map (fun i => UInt8.ofNat (payloadSize >>> (i * 8))) ++ [msgType.toByte]

/-- What is written for a message. SOURCE: app/server.cpp:48-61 -/
def Frame.encode (f : Frame) : Bytes := frameHeader f.msgType f.payload.length ++ f.payload

/-- The ways a read can fail to return. -/
inductive ReadFault where
  /-- The loop of `full_read` has not ended within the given number of rounds. -/
  | stillReading
  /-- The bytes read do not fit into the array that they are read into.
  SOURCE: app/server.cpp:160, 189, app/client2.cpp:477 -/
  | overrun
deriving DecidableEq, Repr

/-- The bytes that are there, as far as asked for, and what is left. -/
def buffereventRead (buffer : Bytes) (size : ℕ) : Bytes × Bytes :=
  (buffer.take size, buffer.drop size)

/-- `capacity` is what is left of the array that is read into.
SOURCE: app/utils.cpp:50-59 -/
def fullRead (capacity : ℕ) : ℕ → Bytes → ℕ → Except ReadFault (Bytes × Bytes)
  | _, buffer, 0 => .ok ([], buffer)
  | 0, _, _ + 1 => .error .stillReading
  | rounds + 1, buffer, remainSize + 1 =>
    let (turn, buffer) := buffereventRead buffer (remainSize + 1)
    if capacity < turn.length then .error .overrun
    else do
      let (others, buffer) ←
        fullRead (capacity - turn.length) rounds buffer (remainSize + 1 - turn.length)
      .ok (turn ++ others, buffer)

/-- Read and throw away until a read finds nothing. SOURCE: app/utils.cpp:61-66 -/
def drainRead (size : ℕ) : ℕ → Bytes → Except ReadFault Bytes
  | 0, _ => .error .stillReading
  | rounds + 1, buffer =>
    let (turn, buffer) := buffereventRead buffer size
    if turn.length = 0 then .ok buffer else drainRead size rounds buffer

/-- The size in a header. SOURCE: app/utils.cpp:71-75 -/
def payloadSize (header : Bytes) : ℕ :=
  (List.range 3).foldl (fun size i => size ||| ((header.getD i 0).toNat <<< (i * 8))) 0

/-- Read a header, and unless its type is unknown, the payload: the type, the payload, and
what is left in the buffer. SOURCE: app/utils.cpp:68-91 -/
def recvMsg (capacity rounds : ℕ) (buffer : Bytes) :
    Except ReadFault (MessageType × Bytes × Bytes) := do
  let (header, buffer) ← fullRead capacity rounds buffer 4
  let msgType := MessageType.ofByte (header.getD 3 0)
  if msgType = .unknown then .ok (.unknown, [], buffer)
  else do
    let (payload, buffer) ← fullRead capacity rounds buffer (payloadSize header)
    .ok (msgType, payload, buffer)

/-- What a read callback does with what `recv_msg` gives it. -/
inductive Dispatch where
  /-- `handle_operation` and `bcast_msgs`. SOURCE: app/server.cpp:164-171 -/
  | operation (payload : Bytes)
  /-- `reply_guidance`. SOURCE: app/server.cpp:172-173 -/
  | getGuidance
  /-- `handle_append_entries` and `bcast_msgs`. SOURCE: app/server.cpp:202-208 -/
  | append (payload : Bytes)
  /-- `handle_append_entries_reply`, `maybe_apply` and `bcast_msgs`.
  SOURCE: app/server.cpp:210-218 -/
  | appendReply (payload : Bytes)
  /-- The guidance of a replica. SOURCE: app/server.cpp:220-223, app/client2.cpp:482-490 -/
  | guidance (payload : Bytes)
  /-- The reply to a client. SOURCE: app/client2.cpp:491-512 -/
  | clientReply (payload : Bytes)
  /-- "type … is not … message". SOURCE: app/server.cpp:174-177, 224-227 -/
  | notExpected (msgType : MessageType)
  /-- The buffer is drained and a text is sent back. SOURCE: app/server.cpp:192-200 -/
  | unknownType
deriving DecidableEq, Repr

/-- A read callback: what it does with a message, and whether it drains the buffer after a
message of unknown type. -/
structure ReadCallback where
  dispatch : MessageType → Bytes → Dispatch
  drains : Bool

/-- SOURCE: app/server.cpp:158-178 -/
def clientMsgCb : ReadCallback where
  dispatch
    | .client, payload => .operation payload
    | .getGuidance, _ => .getGuidance
    | msgType, _ => .notExpected msgType
  drains := false

/-- SOURCE: app/server.cpp:185-229 -/
def peerGeneralMsgCb : ReadCallback where
  dispatch
    | .unknown, _ => .unknownType
    | .append, payload => .append payload
    | .appendReply, payload => .appendReply payload
    | .guidance, payload => .guidance payload
    | msgType, _ => .notExpected msgType
  drains := true

/-- SOURCE: app/client2.cpp:475-516 -/
def handleReply : ReadCallback where
  dispatch
    | .guidance, payload => .guidance payload
    | .clientReply, payload => .clientReply payload
    | msgType, _ => .notExpected msgType
  drains := false

/-- The array that every callback reads into. SOURCE: app/server.cpp:160, 189 -/
def recvCapacity : ℕ := 2048

/-- One read event: a piece of the stream arrives and the callback runs, as a machine whose
state is the input buffer and which emits what is done. -/
def ReadCallback.run (cb : ReadCallback) (rounds : ℕ) :
    Machine Bytes Bytes Dispatch ReadFault := fun buffer piece => do
  let (msgType, payload, buffer) ← recvMsg recvCapacity rounds (buffer ++ piece)
  -- as many rounds as `drain_read` can take
  let buffer ← if cb.drains ∧ msgType = .unknown then
      drainRead recvCapacity (buffer.length + 1) buffer
    else .ok buffer
  .ok (buffer, [cb.dispatch msgType payload])

end MorphlingC.Model
