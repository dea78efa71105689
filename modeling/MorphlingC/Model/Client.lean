import MorphlingC.Model.Encoders
import Mathlib.Logic.Function.Basic

/-!
# The client

`Client` of `app/client2.cpp` in its guidance-read mode: a read goes to the replica that
serves the key, the others are asked for their guidance, and the read is over when a quorum
of the answers collected agree with the guidance that the client follows.  The client is
given the addresses of the `n` replicas.

A `Session` is a client with the requests that are not yet answered.  The requests of one
`one_send` carry its number, set-up has number 0; neither the messages nor the client know
of these numbers, nor of `filledBy`, which notes whose answer is in each place of the
client's collection.  They are there to speak about runs.
-/

set_option autoImplicit false

namespace MorphlingC.Model

open MorphlingC.Library

/-- SOURCE: app/client2.cpp:171-177 -/
inductive Status where
  | init
  | reading
  | waitingGuidance
  | writing
  | idle
deriving DecidableEq, Repr

/-- The part of the configuration that a client uses.  `pack` and `packMessage` are msgpack's.
SOURCE: app/client2.cpp:26-33 -/
structure ClientConfig where
  isRead : Bool
  msgNums : ℕ
  pack : Operation → Bytes
  packMessage : ClientMessage → Bytes

/-- A message from the client to a replica. -/
inductive Request where
  | operation (msg : ClientMessage)
  | getGuidance
deriving DecidableEq, Repr

/-- The fatal errors of a client. -/
inductive ClientFault where
  /-- "assert(msg_buf.size() < 2000)". SOURCE: app/utils.cpp:39 -/
  | messageTooLong
  /-- "don't have replicable node for key …". SOURCE: app/client2.cpp:382-385 -/
  | noReplicableNode
  /-- "client … update leading guidance fail". SOURCE: app/client2.cpp:558-560 -/
  | noLeadingGuidance
deriving DecidableEq, Repr

/-- SOURCE: app/client2.cpp:148-178 -/
structure Client (n : ℕ) where
  leadingGuidance : Guidance n := {}
  oneTurnCollection : Fin n → Guidance n := fun _ => {}
  data : Bytes := []
  sendMsgNums : ℕ := 0
  finishAllMsg : Bool := false
  status : Status := .init

namespace Client

variable {n : ℕ}

/-- SOURCE: app/client2.cpp:184 -/
def quorum (n : ℕ) : ℕ := n / 2 + 1

/-- SOURCE: app/client2.cpp:219-224 -/
def setGuidance (c : Client n) (id : Fin n) (guide : Guidance n) : Client n :=
  { c with oneTurnCollection := Function.update c.oneTurnCollection id guide }

@[simp] theorem setGuidance_self (c : Client n) (id : Fin n) (guide : Guidance n) :
    (c.setGuidance id guide).oneTurnCollection id = guide := Function.update_self ..

theorem setGuidance_of_ne (c : Client n) {id i : Fin n} (hi : i ≠ id) (guide : Guidance n) :
    (c.setGuidance id guide).oneTurnCollection i = c.oneTurnCollection i :=
  Function.update_of_ne hi ..

/-- The epochs collected, in the order of the replicas. -/
def epochs (c : Client n) : List ℕ := (List.finRange n).map fun id => (c.oneTurnCollection id).epoch

/-- The value of `epoch_votes` at an epoch. SOURCE: app/client2.cpp:230-235 -/
def epochVotes (c : Client n) (epoch : ℕ) : ℕ := c.epochs.count epoch

/-- The last key of `epoch_votes`. SOURCE: app/client2.cpp:236 -/
def lastEpoch (c : Client n) : ℕ := c.epochs.foldr max 0

/-- SOURCE: app/client2.cpp:225-254 -/
def checkGuidanceQuorum (c : Client n) : Bool :=
  if c.leadingGuidance.epoch = 0 then false
  else if c.lastEpoch = 0 then false
  else if c.leadingGuidance.epoch < c.lastEpoch then false
  else if c.leadingGuidance.epoch > c.lastEpoch then false
  else if c.epochVotes c.lastEpoch ≥ quorum n then true
  else false

/-- SOURCE: app/client2.cpp:255-266 -/
def hasUniformGuidance (c : Client n) : Bool :=
  match c.epochs with
  | [] => false
  | fe :: rest => if fe = 0 then false else rest.all (· = fe)

/-- The guidance of the first replica with the greatest epoch, if a quorum has that epoch;
the answer tells whether it does. SOURCE: app/client2.cpp:267-289 -/
def updateLeadingGuidance (c : Client n) : Client n × Bool :=
  let max := c.lastEpoch
  let maxIdx := (List.finRange n).find? fun id => (c.oneTurnCollection id).epoch = max
  if c.epochVotes max ≥ quorum n then
    match maxIdx with
    | some id => ({ c with leadingGuidance := c.oneTurnCollection id }, true)
    | none => (c, true)
  else (c, false)

/-- SOURCE: app/client2.cpp:290-294 -/
def resetTurnCollection (c : Client n) : Client n := { c with oneTurnCollection := fun _ => {} }

/-- The value of an `atomic_int` that has been increased `k` times from 0: its 32 bits wrap around.
SOURCE: app/client2.cpp:39 -/
def atomicInt (k : ℕ) : ℤ := (BitVec.ofNat 32 k).toInt

/-- It is the number of times as long as that is an `int`. -/
theorem atomicInt_of_lt {k : ℕ} (hk : k < 2 ^ 31) : atomicInt k = k := by
  rw [atomicInt, BitVec.toInt_eq_toNat_cond, BitVec.toNat_ofNat]
  omega

/-- The counter of all clients has been increased `gSentNums` times so far.
SOURCE: app/client2.cpp:204-212 -/
def canSend (cfg : ClientConfig) (c : Client n) (gSentNums : ℕ) : Client n × Bool :=
  if atomicInt (gSentNums + 1) ≤ cfg.msgNums then
    ({ c with sendMsgNums := c.sendMsgNums + 1 }, true)
  else ({ c with finishAllMsg := true }, false)

/-- The one key that clients read and write. SOURCE: app/client2.cpp:366, 375 -/
def theKey : ℕ := 0x5499

/-- The operation that a client sends next. SOURCE: app/client2.cpp:364-372 -/
def nextOperation (cfg : ClientConfig) (c : Client n) : Operation :=
  let opType : ℤ := if cfg.isRead then 0 else 1
  { opType := opType
    keyHash := theKey
    data := if opType = 1 then c.data else [] }

/-- The message that carries an operation of a client, which `pack_operation` puts into it, unless
the message is too long. SOURCE: app/client2.cpp:373-378; app/utils.cpp:21-42 -/
def packedMessage (cfg : ClientConfig) (op : Operation) : Except ClientFault ClientMessage :=
  match packOperation cfg.pack cfg.packMessage op { epoch := 1, keyHash := theKey, op := [] } with
  | .ok (msg, _) => .ok msg
  | .error .tooLong => .error .messageTooLong

/-- The message is the packed operation, if it is short enough. -/
theorem packedMessage_eq (cfg : ClientConfig) (op : Operation) :
    packedMessage cfg op =
      if (cfg.packMessage { epoch := 1, keyHash := theKey, op := cfg.pack op }).length < 2000 then
        .ok { epoch := 1, keyHash := theKey, op := cfg.pack op }
      else .error .messageTooLong := by
  unfold packedMessage packOperation
  dsimp only
  split_ifs with hshort
  · rfl
  · rfl

/-- Send the next operation to the replica that serves the key and, for a read, ask the
other ones for their guidance. SOURCE: app/client2.cpp:350-418 -/
def oneSend (cfg : ClientConfig) (c : Client n) (gSentNums : ℕ) :
    Except ClientFault (Client n × List (Fin n × Request)) :=
  if c.status ≠ .idle then .ok (c, [])
  else
    let (c, can) := c.canSend cfg gSentNums
    if !can then .ok (c, [])
    else do
      let op := c.nextOperation cfg
      let msg ← packedMessage cfg op
      match c.leadingGuidance.nodeOfKey msg.keyHash with
      | none => .error .noReplicableNode
      | some rid =>
        if op.opType = 0 then
          .ok ({ c with status := .reading },
            (rid, .operation msg) ::
              ((List.finRange n).filter (· ≠ rid)).map fun id => (id, .getGuidance))
        else .ok ({ c with status := .writing }, [(rid, .operation msg)])

/-- The first branch of `handle_reply`. SOURCE: app/client2.cpp:482-491 -/
def handleGuidance (c : Client n) (id : Fin n) (guide : Guidance n) : Client n :=
  let c := c.setGuidance id guide
  if c.status = .waitingGuidance then
    if c.checkGuidanceQuorum then { c.resetTurnCollection with status := .idle }
    else c
  else c

/-- The second branch of `handle_reply`. SOURCE: app/client2.cpp:492-512 -/
def handleClientReply (c : Client n) (id : Fin n) (msg : ClientReplyMessage n) : Client n :=
  if c.status = .reading then
    let c := c.setGuidance id msg.guidance
    if c.checkGuidanceQuorum then { c.resetTurnCollection with status := .idle }
    else { c with status := .waitingGuidance }
  else if c.status = .writing then { c.resetTurnCollection with status := .idle }
  else c

/-- `check_setup` for one client; the answer tells whether it is set up.
SOURCE: app/client2.cpp:553-568 -/
def checkSetup (c : Client n) : Except ClientFault (Client n × Bool) :=
  if !c.hasUniformGuidance then .ok (c, false)
  else
    let (c, updated) := c.updateLeadingGuidance
    if !updated then .error .noLeadingGuidance
    else .ok ({ c with status := .idle }, true)

end Client

/-! ## Sessions -/

/-- A client and its requests not yet answered, each with the replica it went to and the
number of its round. -/
structure Session (n : ℕ) where
  client : Client n
  started : Bool := false
  round : ℕ := 0
  asked : List (Fin n × ℕ) := []
  submitted : List (Fin n × ℕ) := []
  filledBy : Fin n → Option ℕ := fun _ => none

/-- What can happen to a client: a connection is made, the thread checks whether set-up is
over, or lets the client send; the `k`-th request for the guidance not yet answered is
answered; or the `k`-th operation not yet answered is, with a reply, or with the guidance
when the replica is in another epoch. -/
inductive ClientEvent (n : ℕ) where
  | connected (id : Fin n)
  | checkSetup
  | oneSend (gSentNums : ℕ)
  | guidance (k : ℕ) (guide : Guidance n)
  | clientReply (k : ℕ) (msg : ClientReplyMessage n)
  | otherEpoch (k : ℕ) (guide : Guidance n)

/-- What is observed: a replica has answered a request of a round, with a guidance of an
epoch; and the read of a round is over, for a client that follows a guidance of an epoch. -/
inductive Observation (n : ℕ) where
  | answered (id : Fin n) (round epoch : ℕ)
  | readDone (round epoch : ℕ)
deriving DecidableEq, Repr

namespace Session

variable {n : ℕ}

/-- A read is open. -/
def reading (c : Client n) : Bool := c.status = .reading || c.status = .waitingGuidance

/-- An answer to a request of the round `r` has brought the client to `c`. -/
def answer (s : Session n) (id : Fin n) (r epoch : ℕ) (stored : Bool) (c : Client n) :
    Session n × List (Observation n) :=
  let cleared : Bool := s.client.status ≠ .idle && c.status = .idle
  ({ s with
      client := c
      filledBy := if cleared then fun _ => none
        else if stored then Function.update s.filledBy id (some r)
        else s.filledBy },
    .answered id r epoch ::
      if reading s.client && c.status = .idle then [.readDone s.round c.leadingGuidance.epoch]
      else [])

/-- One event, as a machine that emits what is observed.
SOURCE: app/client2.cpp:350-418, 460-516, 553-568, 605-631 -/
def step (cfg : ClientConfig) : Machine (Session n) (ClientEvent n) (Observation n) ClientFault
  | s, .connected id => .ok ({ s with asked := s.asked ++ [(id, 0)] }, [])
  | s, .checkSetup =>
    if s.started then .ok (s, [])
    else do
      let (c, _) ← s.client.checkSetup
      .ok ({ s with client := c }, [])
  | s, .oneSend gSentNums => do
    let (c, sends) ← s.client.oneSend cfg gSentNums
    let round := if sends = [] then s.round else s.round + 1
    .ok ({ s with
        client := c
        started := true
        round := round
        asked := s.asked ++ (sends.filter (·.2 = .getGuidance)).map fun send => (send.1, round)
        submitted :=
          s.submitted ++ (sends.filter (·.2 ≠ .getGuidance)).map fun send => (send.1, round) },
      [])
  | s, .guidance k guide =>
    match s.asked[k]? with
    | none => .ok (s, [])
    | some (id, r) =>
      .ok (({ s with asked := s.asked.eraseIdx k } : Session n).answer id r guide.epoch true
        (s.client.handleGuidance id guide))
  | s, .clientReply k msg =>
    match s.submitted[k]? with
    | none => .ok (s, [])
    | some (id, r) =>
      .ok (({ s with submitted := s.submitted.eraseIdx k } : Session n).answer id r
        msg.guidance.epoch (s.client.status = .reading) (s.client.handleClientReply id msg))
  | s, .otherEpoch k guide =>
    match s.submitted[k]? with
    | none => .ok (s, [])
    | some (id, r) =>
      .ok (({ s with submitted := s.submitted.eraseIdx k } : Session n).answer id r guide.epoch
        true (s.client.handleGuidance id guide))

end Session

end MorphlingC.Model
