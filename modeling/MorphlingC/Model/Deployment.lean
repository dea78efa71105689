import MorphlingC.Library.Linearizable
import MorphlingC.Model.Client
import MorphlingC.Model.Linked

/-!
# Clients and servers

The whole system: the servers of `app/server.cpp` over their streams, and the processes of
`app/client2.cpp`, with a stream each way between every client and every server.  A process
runs threads, a thread runs the event loop of its clients and lets them send, and all clients
of a process count their messages together.

A server knows a client by the transport of its connection, which here is the client.  The
servers are connected to each other from the start.  Requests, answers and what servers send
each other are messages here, not bytes: `pack_operation` refuses a message of 2000 bytes or
more, and what follows from one that it accepts fits every buffer.

The processes, threads and clients are any types; a `Layout` says who belongs to whom.  As a
machine, a deployment emits what is seen at the clients: an operation is sent, and its answer
has come.
-/

set_option autoImplicit false

namespace MorphlingC.Model

open MorphlingC.Library

/-- The part of the configuration of a process that its clients use; `value` is `g_value`.
SOURCE: app/client2.cpp:26-37, 112-113 -/
structure ProcessConfig extends ClientConfig where
  unreplicatedRead : Bool
  value : Bytes

/-- The clients of each thread, in the order of its vector, and the process of each thread.
SOURCE: app/client2.cpp:592-603, 705-716 -/
structure Layout (κ θ π : Type) where
  members : θ → List κ
  threadOf : κ → θ
  processOf : θ → π
  mem_members : ∀ t k, k ∈ members t ↔ threadOf k = t

/-- A message from a replica to a client. -/
inductive Answer (n : ℕ) where
  | reply (msg : ClientReplyMessage n)
  | guidance (msg : GuidanceMessage n)
deriving DecidableEq

/-- Where a thread is: before its first loop has ended, in the second one, or after it.
SOURCE: app/client2.cpp:605-656 -/
inductive Phase where
  | setup
  | sending
  | finished
deriving DecidableEq, Repr

/-- A call of a server or of a client has failed. -/
inductive DeploymentFault where
  | server (f : Fault)
  | client (f : ClientFault)
deriving DecidableEq, Repr

namespace Client

variable {n : ℕ}

/-- `one_send` in the unreplicated mode: no guidance is asked for, and the client counts as
reading, whatever it has sent. SOURCE: app/client2.cpp:350-394 -/
def oneSendUnreplicated (cfg : ClientConfig) (c : Client n) (gSentNums : ℕ) :
    Except ClientFault (Client n × List (Fin n × Request)) :=
  if c.status ≠ .idle then .ok (c, [])
  else
    let (c, can) := c.canSend cfg gSentNums
    if !can then .ok (c, [])
    else do
      let msg ← packedMessage cfg (c.nextOperation cfg)
      match c.leadingGuidance.nodeOfKey msg.keyHash with
      | none => .error .noReplicableNode
      | some rid => .ok ({ c with status := .reading }, [(rid, .operation msg)])

/-- `one_send` in either mode. SOURCE: app/client2.cpp:350-409 -/
def oneSendIn (cfg : ProcessConfig) (c : Client n) (gSentNums : ℕ) :
    Except ClientFault (Client n × List (Fin n × Request)) :=
  if cfg.unreplicatedRead then c.oneSendUnreplicated cfg.toClientConfig gSentNums
  else c.oneSend cfg.toClientConfig gSentNums

/-- `handle_ur_reply`: the reply ends whatever the client has sent.
SOURCE: app/client2.cpp:433-456 -/
def handleUrReply (c : Client n) (id : Fin n) : Answer n → Client n
  | .guidance msg => c.setGuidance id msg.guide
  | .reply _ => if c.status = .reading then { c with status := .idle } else c

/-- The callback for what a server sends, in either mode.
SOURCE: app/client2.cpp:328-332, 433-456, 475-524 -/
def handleAnswer (cfg : ProcessConfig) (c : Client n) (id : Fin n) (answer : Answer n) : Client n :=
  if cfg.unreplicatedRead then c.handleUrReply id answer
  else
    match answer with
    | .guidance msg => c.handleGuidance id msg.guide
    | .reply msg => c.handleClientReply id msg

/-- `check_setup`: the clients of a thread are set up one after another, up to the first that
is not ready. SOURCE: app/client2.cpp:553-568 -/
def checkSetups {κ : Type} [DecidableEq κ] (clients : κ → Client n) :
    List κ → Except ClientFault ((κ → Client n) × Bool)
  | [] => .ok (clients, true)
  | k :: rest => do
    let (c, ready) ← (clients k).checkSetup
    let clients := Function.update clients k c
    if ready then checkSetups clients rest else .ok (clients, false)

end Client

/-- What an effect at a server sends to the client. -/
def Effect.answerTo {n : ℕ} {κ : Type} [DecidableEq κ] (k : κ) : Effect n κ → Option (Answer n)
  | .created _ _ _ => none
  | .queued _ _ => none
  | .answered _ tr reply => if tr = k then some (.reply reply) else none
  | .read tr reply => if tr = k then some (.reply reply) else none
  | .guidance tr msg => if tr = k then some (.guidance msg) else none

/-- The servers, the clients, what is on its way between them, how often the clients of each
process have increased its counter, and where each thread is. -/
structure Deployment (n : ℕ) (κ θ π : Type) where
  servers : Linked n κ
  clients : κ → Client n
  connected : κ → Fin n → Bool
  toServer : κ → Fin n → List Request
  toClient : Fin n → κ → List (Answer n)
  sentNums : π → ℕ
  phase : θ → Phase

/-- A connection is made, a client reads the next message from a server, a thread checks
whether set-up is over or takes a turn of its second loop; a server reads the next message
from a client, or from another server. -/
inductive DeploymentEvent (n : ℕ) (κ θ : Type) where
  | connected (k : κ) (id : Fin n)
  | receive (k : κ) (id : Fin n)
  | checkSetup (t : θ)
  | turn (t : θ)
  | serve (k : κ) (id : Fin n)
  | exchange (src dst : Fin n)

namespace Deployment

variable {n : ℕ} {κ θ π : Type} [DecidableEq κ] [DecidableEq θ] [DecidableEq π]

/-- Fresh servers and fresh clients. SOURCE: app/client2.cpp:592-603 -/
def init (n : ℕ) (layout : Layout κ θ π) (cfg : π → ProcessConfig) : Deployment n κ θ π where
  servers := Linked.init n κ
  clients := fun k => { data := (cfg (layout.processOf (layout.threadOf k))).value }
  connected := fun _ _ => false
  toServer := fun _ _ => []
  toClient := fun _ _ => []
  sentNums := fun _ => 0
  phase := fun _ => .setup

/-- What a client sends goes to the ends of its streams. SOURCE: app/client2.cpp:338-344 -/
def post (toServer : κ → Fin n → List Request) (k : κ) (sends : List (Fin n × Request)) :
    κ → Fin n → List Request :=
  fun k' j =>
    if k' = k then toServer k' j ++ (sends.filter (·.1 = j)).map Prod.snd else toServer k' j

/-- What the servers send goes to the ends of the streams to the clients.
SOURCE: app/server.cpp:49-98 -/
def deliver (toClient : Fin n → κ → List (Answer n)) (effects : List (Fin n × Effect n κ)) :
    Fin n → κ → List (Answer n) :=
  fun i k => toClient i k ++ effects.filterMap fun e => if e.1 = i then e.2.answerTo k else none

/-- The servers take a step, and what they send to clients is on its way. -/
def serverStep (unpack : Bytes → Option Operation) (d : Deployment n κ θ π)
    (event : LinkedEvent n κ) : Except DeploymentFault (Deployment n κ θ π) := do
  let (servers, effects) ← (Linked.step unpack d.servers event).mapError .server
  .ok { d with servers := servers, toClient := deliver d.toClient effects }

/-- The event of the servers that a request is. SOURCE: app/server.cpp:158-178 -/
def Request.event (k : κ) (id : Fin n) : Request → LinkedEvent n κ
  | .operation msg => .client id msg k
  | .getGuidance => .getGuidance id k

section Step

variable (unpack : Bytes → Option Operation) (layout : Layout κ θ π) (cfg : π → ProcessConfig)

/-- The configuration of a client. -/
def cfgOf (k : κ) : ProcessConfig := cfg (layout.processOf (layout.threadOf k))

/-- The client reads a message.  The reply to what it has sent is the one that changes its
status. SOURCE: app/client2.cpp:433-456, 475-524 -/
def receive (d : Deployment n κ θ π) (k : κ) (id : Fin n) (answer : Answer n) :
    Deployment n κ θ π × List (Action κ Operation Bytes) :=
  let c := (d.clients k).handleAnswer (cfgOf layout cfg k) id answer
  let seen : List (Action κ Operation Bytes) :=
    match answer with
    | .reply msg => if c.status ≠ (d.clients k).status then [.respond k msg.replyData] else []
    | .guidance _ => []
  ({ d with
      clients := Function.update d.clients k c
      toClient := fun i k' => if i = id ∧ k' = k then (d.toClient i k').tail else d.toClient i k' },
    seen)

/-- One turn of the second loop of a thread: its first client that is idle sends; the loop
ends when that client has been refused and all are idle.
SOURCE: app/client2.cpp:544-551, 623-647 -/
def turn (d : Deployment n κ θ π) (t : θ) :
    Except DeploymentFault (Deployment n κ θ π × List (Action κ Operation Bytes)) :=
  match (layout.members t).find? fun k => (d.clients k).status = .idle with
  | none => .ok (d, [])
  | some k => do
    let p := layout.processOf t
    let (c, sends) ← ((d.clients k).oneSendIn (cfg p) (d.sentNums p)).mapError .client
    let d' : Deployment n κ θ π := { d with
      clients := Function.update d.clients k c
      toServer := post d.toServer k sends
      sentNums := Function.update d.sentNums p (d.sentNums p + 1) }
    let allIdle := (layout.members t).all fun j => (d'.clients j).status = .idle
    .ok ({ d' with
        phase := if c.finishAllMsg ∧ allIdle then Function.update d.phase t .finished
          else d.phase },
      if c.status = .idle then []
      else [.invoke k ((d.clients k).nextOperation (cfg p).toClientConfig)])

/-- One callback of a client, one turn of a thread, or one callback of a server, as a machine
that emits what is seen at the clients.
SOURCE: app/client2.cpp:460-524, 544-660; app/server.cpp:158-178, 185-229 -/
def step :
    Machine (Deployment n κ θ π) (DeploymentEvent n κ θ) (Action κ Operation Bytes) DeploymentFault
  | d, .connected k id =>
    if d.connected k id then .ok (d, [])
    else .ok ({ d with
      connected := Function.update d.connected k (Function.update (d.connected k) id true)
      toServer := post d.toServer k [(id, .getGuidance)] }, [])
  | d, .receive k id =>
    if d.phase (layout.threadOf k) = .finished then .ok (d, [])
    else
      match d.toClient id k with
      | [] => .ok (d, [])
      | answer :: _ => .ok (d.receive layout cfg k id answer)
  | d, .checkSetup t =>
    if d.phase t ≠ .setup then .ok (d, [])
    else do
      let (clients, ready) ← (Client.checkSetups d.clients (layout.members t)).mapError .client
      .ok ({ d with
        clients := clients
        phase := if ready then Function.update d.phase t .sending else d.phase }, [])
  | d, .turn t => if d.phase t ≠ .sending then .ok (d, []) else d.turn layout cfg t
  | d, .serve k id =>
    match d.toServer k id with
    | [] => .ok (d, [])
    | request :: rest => do
      let toServer := Function.update d.toServer k (Function.update (d.toServer k) id rest)
      let d ← serverStep unpack { d with toServer := toServer } (Request.event k id request)
      .ok (d, [])
  | d, .exchange src dst => do
    let d ← serverStep unpack d (.arrive src dst)
    .ok (d, [])

end Step

end Deployment

end MorphlingC.Model
