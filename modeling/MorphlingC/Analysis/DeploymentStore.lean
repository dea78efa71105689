import MorphlingC.Analysis.ClientTurns
import MorphlingC.Analysis.DeploymentSteps
import MorphlingC.Analysis.ServiceRefinement

/-!
# Clients and servers are an atomic store

The servers and the clients together, one step at a time: each operation takes effect at one
point between its sending and its answer, in the order in which the owner of the key applies it.
`DeployOk` relates a deployment to an atomic store, and each step that returns keeps it and is a
run of the store in which the same is seen (`DeployOk.step`).

The clients may read, write, or read in the unreplicated mode, and each process may write a value
of its own.  The step lemmas follow one operation: it is on its way to the owner, or waits there
to be committed, or its reply is on the way back (`Stage`).
-/

set_option autoImplicit false

namespace MorphlingC.Analysis

open MorphlingC.Library MorphlingC.Model MorphlingC.Interface MorphlingC.Model.Morphling
  MorphlingC.Model.Deployment

variable {n : ℕ} {κ θ π : Type} {unpack : Bytes → Option Operation}

/-! ## Where the operation of a client is -/

/-- **Where the operation of a client is**: the client has none; or it is on its way to the
owner, in the queue there, or answered.  The arguments are whether the client awaits a reply,
its operations on their way, its operations in the queue, the data of the replies on their way,
and the call of the atomic store. -/
inductive Stage : Bool → List Operation → List Operation → List Bytes → Call Operation Bytes → Prop
  | idle : Stage false [] [] [] .idle
  | sent (op : Operation) : Stage true [op] [] [] (.invoked op)
  | waits (op : Operation) : Stage true [] [op] [] (.invoked op)
  | replied (ret : Bytes) : Stage true [] [] [ret] (.taken ret)

namespace Stage

variable {awaits : Bool} {ops queued : List Operation} {replies : List Bytes}
  {call : Call Operation Bytes}

/-- INTERNAL: a client that awaits nothing has nothing on its way. -/
theorem of_not_awaiting (h : Stage awaits ops queued replies call) (hawaits : awaits = false) :
    ops = [] ∧ queued = [] ∧ replies = [] ∧ call = .idle := by
  cases h with
  | idle => exact ⟨rfl, rfl, rfl, rfl⟩
  | sent op => cases hawaits
  | waits op => cases hawaits
  | replied ret => cases hawaits

/-- INTERNAL: an operation on its way is all there is of its client. -/
theorem of_operation (h : Stage awaits ops queued replies call) {op : Operation}
    {rest : List Operation} (hops : ops = op :: rest) :
    awaits = true ∧ rest = [] ∧ queued = [] ∧ replies = [] ∧ call = .invoked op := by
  cases h with
  | idle => cases hops
  | sent op =>
    cases hops
    exact ⟨rfl, rfl, rfl, rfl, rfl⟩
  | waits op => cases hops
  | replied ret => cases hops

/-- INTERNAL: an operation in the queue is all there is of its client. -/
theorem of_queued (h : Stage awaits ops queued replies call) {op : Operation}
    (hop : op ∈ queued) :
    awaits = true ∧ ops = [] ∧ queued = [op] ∧ replies = [] ∧ call = .invoked op := by
  cases h with
  | idle => cases hop
  | sent op => cases hop
  | waits op =>
    obtain rfl := List.mem_singleton.mp hop
    exact ⟨rfl, rfl, rfl, rfl, rfl⟩
  | replied ret => cases hop

/-- INTERNAL: a reply on its way is all there is of its client. -/
theorem of_reply (h : Stage awaits ops queued replies call) {ret : Bytes} {rest : List Bytes}
    (hreplies : replies = ret :: rest) :
    awaits = true ∧ ops = [] ∧ queued = [] ∧ rest = [] ∧ call = .taken ret := by
  cases h with
  | idle => cases hreplies
  | sent op => cases hreplies
  | waits op => cases hreplies
  | replied ret =>
    cases hreplies
    exact ⟨rfl, rfl, rfl, rfl, rfl⟩

/-- INTERNAL: a client has at most one operation in the queue. -/
theorem queued_length (h : Stage awaits ops queued replies call) : queued.length ≤ 1 := by
  cases h with
  | idle => exact Nat.zero_le _
  | sent op => exact Nat.zero_le _
  | waits op => exact le_rfl
  | replied ret => exact Nat.zero_le _

end Stage

/-- The operations among the requests. -/
def operationsIn (unpack : Bytes → Option Operation) (requests : List Request) : List Operation :=
  requests.filterMap fun
    | .operation msg => unpack msg.op
    | .getGuidance => none

/-- The data of the replies among the answers. -/
def repliesIn (answers : List (Answer n)) : List Bytes :=
  answers.filterMap fun
    | .reply msg => some msg.replyData
    | .guidance _ => none

/-- What a list holds for the client. -/
def ofClient {β : Type} [DecidableEq κ] (k : κ) (l : List (κ × β)) : List β :=
  (l.filter fun q => q.1 = k).map Prod.snd

/-- A request that clients send: an operation goes to the owner of the key, decodes, and is on
that key. -/
def RequestOk (unpack : Bytes → Option Operation) (o j : Fin n) : Request → Prop
  | .operation msg => j = o ∧ msg.epoch = 1 ∧ msg.keyHash = Client.theKey ∧
      ∃ op, unpack msg.op = some op ∧ op.keyHash = Client.theKey
  | .getGuidance => True

/-- An answer that servers send: it comes with the guidance of all replicas, and a reply from
the owner of the key. -/
def AnswerOk (o i : Fin n) : Answer n → Prop
  | .reply msg => i = o ∧ msg.guidance = Guidance.initLocalGuidance {}
  | .guidance msg => msg.guide = Guidance.initLocalGuidance {}

/-- The status of a client fits the phase of its thread. -/
def PhaseOk : Phase → Status → Prop
  | .setup, s => s = .init ∨ s = .idle
  | .sending, s => s ≠ .init
  | .finished, s => s = .idle

section Lists

variable [DecidableEq κ] {β : Type}

@[simp] theorem operationsIn_append (requests requests' : List Request) :
    operationsIn unpack (requests ++ requests') =
      operationsIn unpack requests ++ operationsIn unpack requests' := List.filterMap_append

@[simp] theorem repliesIn_append (answers answers' : List (Answer n)) :
    repliesIn (answers ++ answers') = repliesIn answers ++ repliesIn answers' :=
  List.filterMap_append

@[simp] theorem ofClient_append (k : κ) (l l' : List (κ × β)) :
    ofClient k (l ++ l') = ofClient k l ++ ofClient k l' := by
  simp [ofClient]

/-- INTERNAL: what a list holds for a client is in the list. -/
theorem mem_ofClient {k : κ} {x : β} {l : List (κ × β)} : x ∈ ofClient k l ↔ (k, x) ∈ l := by
  simp only [ofClient, List.mem_map, List.mem_filter]
  constructor
  · rintro ⟨⟨k', x'⟩, ⟨hmem, hk⟩, rfl⟩
    obtain rfl : k' = k := of_decide_eq_true hk
    exact hmem
  · exact fun hmem => ⟨(k, x), ⟨hmem, by simp⟩, rfl⟩

/-- INTERNAL: a list that holds at most one thing for each client has each client once. -/
theorem nodup_of_ofClient {l : List (κ × β)} (h : ∀ k, (ofClient k l).length ≤ 1) :
    (l.map Prod.fst).Nodup := by
  rw [List.nodup_iff_count_le_one]
  intro k
  have hlen := h k
  rw [ofClient, List.length_map, ← List.countP_eq_length_filter] at hlen
  rw [List.count, List.countP_map]
  refine le_trans (le_of_eq (List.countP_congr fun q _ => ?_)) hlen
  simp

/-- INTERNAL: what a list holds for a client that is in it once. -/
theorem ofClient_eq_singleton {l : List (κ × β)} (hnodup : (l.map Prod.fst).Nodup) {k : κ} {x : β}
    (hmem : (k, x) ∈ l) : ofClient k l = [x] := by
  induction l with
  | nil => cases hmem
  | cons q rest ih =>
    rw [List.map_cons, List.nodup_cons] at hnodup
    rcases List.mem_cons.mp hmem with rfl | hrest
    · have hnone : ofClient k rest = [] := by
        rw [List.eq_nil_iff_forall_not_mem]
        exact fun y hy => hnodup.1 (List.mem_map.mpr ⟨_, mem_ofClient.mp hy, rfl⟩)
      rw [← List.singleton_append, ofClient_append, hnone]
      simp [ofClient]
    · have hne : q.1 ≠ k := by
        rintro rfl
        exact hnodup.1 (List.mem_map.mpr ⟨_, hrest, rfl⟩)
      rw [← List.singleton_append, ofClient_append, ih hnodup.2 hrest]
      simp [ofClient, hne]

end Lists

/-! ## The relation -/

section Relation

variable [DecidableEq κ]

/-- The number of the group of the key that clients use. -/
def keyGroup : Fin defaultKeySpace := findTargetSmr Client.theKey

/-- **The deployment is the atomic store**, when `v` is what the servers are to the clients:
every client is in its invariant, all that is on its way is what clients and servers send, and
the operation of each client is where its call of the atomic store says. -/
structure DeployOk (unpack : Bytes → Option Operation) (layout : Layout κ θ π)
    (cfg : π → ProcessConfig) (o : Fin n) (d : Deployment n κ θ π) (v : StoreService κ)
    (a : Atomic (ℕ → Bytes) κ Operation Bytes) : Prop where
  serves : Serves unpack (fun _ => o) keyGroup d.servers v
  object : a.object = v.store
  clients : ∀ k, ClientOk (cfgOf layout cfg k) (d.clients k)
  phases : ∀ k, PhaseOk (d.phase (layout.threadOf k)) (d.clients k).status
  requests : ∀ k j, ∀ request ∈ d.toServer k j, RequestOk unpack o j request
  answers : ∀ i k, ∀ answer ∈ d.toClient i k, AnswerOk o i answer
  stages : ∀ k, Stage (awaiting (d.clients k).status) (operationsIn unpack (d.toServer k o))
    (ofClient k v.queue) (repliesIn (d.toClient o k)) (a.call k)

variable {layout : Layout κ θ π} {cfg : π → ProcessConfig} {o : Fin n}
  {d : Deployment n κ θ π} {v : StoreService κ} {a : Atomic (ℕ → Bytes) κ Operation Bytes}

/-- INTERNAL: a fresh deployment is an empty store that nobody has called. -/
theorem DeployOk.init (unpack : Bytes → Option Operation) (layout : Layout κ θ π)
    (cfg : π → ProcessConfig) (o : Fin n) :
    DeployOk unpack layout cfg o (Deployment.init n layout cfg) {} (Atomic.init fun _ => []) where
  serves := Serves.init unpack (fun _ => o) keyGroup
  object := rfl
  clients := fun _ => ⟨rfl, fun _ => .inl rfl, fun h => absurd rfl h, fun _ h => by cases h⟩
  phases := fun _ => .inl rfl
  requests := fun _ _ _ h => absurd h List.not_mem_nil
  answers := fun _ _ _ h => absurd h List.not_mem_nil
  stages := fun _ => .idle

/-! ## What is put on the streams -/

/-- INTERNAL: what is on its way to a server after a client has sent. -/
theorem mem_post {toServer : κ → Fin n → List Request} {k k' : κ} {j : Fin n}
    {sends : List (Fin n × Request)} {request : Request}
    (h : request ∈ post toServer k sends k' j) :
    request ∈ toServer k' j ∨ k' = k ∧ (j, request) ∈ sends := by
  unfold post at h
  split_ifs at h with hk
  · rcases List.mem_append.mp h with hold | hnew
    · exact .inl hold
    · obtain ⟨⟨i, q⟩, hmem, rfl⟩ := List.mem_map.mp hnew
      obtain ⟨hsent, hi⟩ := List.mem_filter.mp hmem
      obtain rfl : i = j := of_decide_eq_true hi
      exact .inr ⟨hk, hsent⟩
  · exact .inl h

/-- INTERNAL: requests for the guidance are no operations. -/
theorem operationsIn_guidance (j : Fin n) (ids : List (Fin n)) :
    operationsIn unpack (((ids.map fun id => (id, Request.getGuidance)).filter (·.1 = j)).map
      Prod.snd) = [] := by
  rw [operationsIn, List.filterMap_eq_nil_iff]
  intro q hq
  obtain ⟨p, hp, rfl⟩ := List.mem_map.mp hq
  obtain ⟨id, -, rfl⟩ := List.mem_map.mp (List.mem_filter.mp hp).1
  rfl

/-- INTERNAL: an answer of a server is one that servers send. -/
theorem GuidedAt.answerOk {e : Fin n × Effect n κ} {k : κ} {answer : Answer n}
    (h : GuidedAt o e) (ha : e.2.answerTo k = some answer) : AnswerOk o e.1 answer := by
  obtain ⟨i, e⟩ := e
  cases e with
  | created group index tr => cases ha
  | queued group entries => cases ha
  | answered entry tr reply =>
    simp only [Effect.answerTo, Option.ite_none_right_eq_some, Option.some.injEq] at ha
    rw [← ha.2]
    exact h
  | read tr reply =>
    simp only [Effect.answerTo, Option.ite_none_right_eq_some, Option.some.injEq] at ha
    rw [← ha.2]
    exact h
  | guidance tr msg =>
    simp only [Effect.answerTo, Option.ite_none_right_eq_some, Option.some.injEq] at ha
    rw [← ha.2]
    exact h

/-- INTERNAL: what is on its way to a client after a step of the servers. -/
theorem answers_deliver {toClient : Fin n → κ → List (Answer n)}
    {effects : List (Fin n × Effect n κ)}
    (h : ∀ i k, ∀ answer ∈ toClient i k, AnswerOk o i answer)
    (heffects : ∀ e ∈ effects, GuidedAt o e) (i : Fin n) (k : κ) :
    ∀ answer ∈ deliver toClient effects i k, AnswerOk o i answer := by
  intro answer hmem
  rcases List.mem_append.mp hmem with hold | hnew
  · exact h i k answer hold
  · obtain ⟨e, he, ha⟩ := List.mem_filterMap.mp hnew
    split_ifs at ha with hi
    rw [← hi]
    exact (heffects e he).answerOk ha

/-- INTERNAL: **the replies on their way to a client after a step of the servers**: those
before, and what the effects tell the client. SOURCE: app/server.cpp:49-98 -/
theorem repliesIn_deliver {toClient : Fin n → κ → List (Answer n)}
    {effects : List (Fin n × Effect n κ)} (heffects : ∀ e ∈ effects, GuidedAt o e) (k : κ) :
    repliesIn (deliver toClient effects o k) =
      repliesIn (toClient o k) ++ ofClient k (repliesOf effects) := by
  rw [deliver, repliesIn_append]
  congr 1
  induction effects with
  | nil => rfl
  | cons e rest ih =>
    have hrest := ih fun e' he' => heffects e' (List.mem_cons_of_mem _ he')
    have hone := heffects e List.mem_cons_self
    obtain ⟨i, e⟩ := e
    rw [← List.singleton_append, List.filterMap_append, repliesIn_append, repliesOf_append,
      ofClient_append, hrest]
    congr 1
    cases e with
    | created group index tr => simp [repliesIn, repliesOf, ofClient, Effect.answerTo, replyOf]
    | queued group entries => simp [repliesIn, repliesOf, ofClient, Effect.answerTo, replyOf]
    | answered entry tr reply =>
      obtain ⟨rfl, -⟩ := hone
      by_cases hk : tr = k
      · simp [repliesIn, repliesOf, ofClient, Effect.answerTo, replyOf, hk]
      · simp [repliesIn, repliesOf, ofClient, Effect.answerTo, replyOf, hk]
    | read tr reply =>
      obtain ⟨rfl, -⟩ := hone
      by_cases hk : tr = k
      · simp [repliesIn, repliesOf, ofClient, Effect.answerTo, replyOf, hk]
      · simp [repliesIn, repliesOf, ofClient, Effect.answerTo, replyOf, hk]
    | guidance tr msg =>
      by_cases hi : i = o ∧ tr = k
      · simp [repliesIn, repliesOf, ofClient, Effect.answerTo, replyOf, hi.1, hi.2]
      · by_cases ho : i = o
        · have hk : tr ≠ k := fun heq => hi ⟨ho, heq⟩
          simp [repliesIn, repliesOf, ofClient, Effect.answerTo, replyOf, ho, hk]
        · simp [repliesIn, repliesOf, ofClient, replyOf, ho]

/-- INTERNAL: a step of the servers that returns. -/
theorem serverStep_ok {servers : Linked n κ} {event : LinkedEvent n κ}
    {out : List (Fin n × Effect n κ)}
    (h : Linked.step unpack d.servers event = .ok (servers, out))
    (toServer : κ → Fin n → List Request) :
    serverStep unpack { d with toServer := toServer } event = .ok { d with
      servers := servers
      toServer := toServer
      toClient := deliver d.toClient out } := by
  rw [serverStep, h]
  rfl

/-- INTERNAL: a client that awaits a reply is one of a thread that sends. -/
theorem PhaseOk.of_awaiting {phase : Phase} {status : Status} (h : PhaseOk phase status)
    (hawaits : awaiting status = true) : phase = .sending := by
  cases phase with
  | setup => rcases h with rfl | rfl <;> cases hawaits
  | sending => rfl
  | finished =>
    obtain rfl : status = .idle := h
    cases hawaits

/-- INTERNAL: the streams to the clients when a message of one is read. -/
theorem repliesIn_pop {id : Fin n} {k : κ} {answer : Answer n} {rest : List (Answer n)}
    (hnext : d.toClient id k = answer :: rest) (k' : κ) :
    repliesIn (d.toClient o k') = (if o = id ∧ k' = k then repliesIn [answer] else []) ++
      repliesIn (if o = id ∧ k' = k then (d.toClient o k').tail else d.toClient o k') := by
  by_cases hat : o = id ∧ k' = k
  · obtain ⟨rfl, rfl⟩ := hat
    rw [if_pos ⟨rfl, rfl⟩, if_pos ⟨rfl, rfl⟩, hnext, ← repliesIn_append]
    rfl
  · rw [if_neg hat, if_neg hat, List.nil_append]

/-- INTERNAL: what one message to a server, and the rest of its stream, hold of operations. -/
theorem operationsIn_pop {id : Fin n} {k : κ} {request : Request} {rest : List Request}
    (hnext : d.toServer k id = request :: rest) (k' : κ) :
    operationsIn unpack (d.toServer k' o) =
      (if k' = k ∧ o = id then operationsIn unpack [request] else []) ++
        operationsIn unpack (Function.update d.toServer k
          (Function.update (d.toServer k) id rest) k' o) := by
  by_cases hk : k' = k
  · subst hk
    rw [Function.update_self]
    by_cases ho : o = id
    · subst ho
      rw [Function.update_self, if_pos ⟨rfl, rfl⟩, hnext, ← operationsIn_append]
      rfl
    · rw [Function.update_of_ne ho, if_neg fun heq => ho heq.2, List.nil_append]
  · rw [Function.update_of_ne hk, if_neg fun heq => hk heq.1, List.nil_append]

/-! ## What reaches the log of the owner -/

/-- INTERNAL: the log of the owner after a step of the servers. SOURCE: core/smr.cpp:211-224 -/
theorem DeployOk.log_length (hok : DeployOk unpack layout cfg o d v a) {event : LinkedEvent n κ}
    (hat : AtStore unpack (fun _ => o) keyGroup event) {servers : Linked n κ}
    {effects : List (Fin n × Effect n κ)}
    (hservers : Linked.step unpack d.servers event = .ok (servers, effects)) :
    ((servers.replicas o).smrs keyGroup).log.log.length =
      ((d.servers.replicas o).smrs keyGroup).log.log.length +
        if Brings unpack keyGroup event then 1 else 0 := by
  obtain ⟨linked, hlinked⟩ := hok.serves.linked
  have hlog := congrArg List.length (hlinked.ownerLog_step hat.accepted hservers keyGroup)
  rw [List.length_append, broughtTo_length] at hlog
  simpa only [ownerLog, List.length_map] using hlog

/-- INTERNAL: an operation of a client is at the store. -/
theorem DeployOk.atStore (hok : DeployOk unpack layout cfg o d v a) {k : κ} {id : Fin n}
    {request : Request} (hmem : request ∈ d.toServer k id) :
    AtStore unpack (fun _ => o) keyGroup (Request.event k id request) := by
  cases request with
  | getGuidance => trivial
  | operation msg =>
    obtain ⟨rfl, -, hkey, op, hop, hopkey⟩ := hok.requests k id _ hmem
    exact ⟨rfl, by rw [hkey]; rfl, op, hop, hopkey.trans hkey.symm⟩

/-- INTERNAL: a request that brings an operation to be replicated is a write on its way to the
owner. -/
theorem DeployOk.of_brings (hok : DeployOk unpack layout cfg o d v a) {k : κ} {id : Fin n}
    {request : Request} {rest : List Request} (hnext : d.toServer k id = request :: rest)
    {gid : Fin defaultKeySpace} (hbrings : Brings unpack gid (Request.event k id request) = true) :
    gid = keyGroup ∧ id = o ∧
      ∃ op ∈ operationsIn unpack (d.toServer k o), op.opType ≠ 0 := by
  cases request with
  | getGuidance => cases hbrings
  | operation msg =>
    obtain ⟨rfl, -, hkey, op, hop, -⟩ :=
      hok.requests k id _ (by rw [hnext]; exact List.mem_cons_self)
    obtain ⟨-, ⟨op', hop', hwrite⟩, hgid⟩ := replicatedFor_iff.mp
      (show ReplicatedFor unpack gid msg = true from hbrings)
    rw [hop] at hop'
    cases hop'
    refine ⟨?_, rfl, op, ?_, hwrite⟩
    · rw [← hgid, hkey]
      rfl
    · rw [hnext]
      simp [operationsIn, hop]

/-! ## One step -/

variable [DecidableEq θ] [DecidableEq π]

/-- What a step of the deployment is to be: a run of the atomic store that puts out the same. -/
def Matched (unpack : Bytes → Option Operation) (layout : Layout κ θ π)
    (cfg : π → ProcessConfig) (o : Fin n) (a : Atomic (ℕ → Bytes) κ Operation Bytes)
    (d' : Deployment n κ θ π) (out : List (Action κ Operation Bytes)) : Prop :=
  ∃ v' js a', Machine.run (Atomic.step execute) a js = .ok (a', out) ∧
    DeployOk unpack layout cfg o d' v' a'

variable {d' : Deployment n κ θ π} {out : List (Action κ Operation Bytes)}

omit [DecidableEq θ] [DecidableEq π] in
/-- INTERNAL: asking for the guidance puts no operation on the streams. -/
theorem operationsIn_post_guidance (toServer : κ → Fin n → List Request) (k k' : κ) (id j : Fin n) :
    operationsIn unpack (post toServer k [(id, .getGuidance)] k' j) =
      operationsIn unpack (toServer k' j) := by
  unfold post
  split_ifs
  · rw [operationsIn_append]
    have hnone : operationsIn unpack _ = [] := operationsIn_guidance j [id]
    rw [List.map_singleton] at hnone
    rw [hnone, List.append_nil]
  · rfl

/-- INTERNAL: a connection is made. SOURCE: app/client2.cpp:460-464 -/
theorem DeployOk.connected (h : DeployOk unpack layout cfg o d v a) {k : κ} {id : Fin n}
    (hstep : Deployment.step unpack layout cfg d (.connected k id) = .ok (d', out)) :
    Matched unpack layout cfg o a d' out := by
  obtain ⟨rfl, ⟨-, rfl⟩ | ⟨-, rfl⟩⟩ := step_connected hstep
  · exact ⟨v, [], a, rfl, h⟩
  · refine ⟨v, [], a, rfl, { h with requests := ?_, stages := ?_ }⟩
    · intro k' j request hmem
      rcases mem_post hmem with hold | ⟨-, hnew⟩
      · exact h.requests k' j request hold
      · obtain ⟨rfl, rfl⟩ := Prod.mk.inj (List.mem_singleton.mp hnew)
        trivial
    · intro k'
      dsimp only
      rw [operationsIn_post_guidance]
      exact h.stages k'

/-- INTERNAL: a client reads what a server has sent. SOURCE: app/client2.cpp:433-456, 475-524 -/
theorem DeployOk.receive (h : DeployOk unpack layout cfg o d v a) {k : κ} {id : Fin n}
    (hstep : Deployment.step unpack layout cfg d (.receive k id) = .ok (d', out)) :
    Matched unpack layout cfg o a d' out := by
  rcases step_receive hstep with ⟨rfl, rfl, -⟩ | ⟨answer, rest, -, hnext, heq⟩
  · exact ⟨v, [], a, rfl, h⟩
  · obtain ⟨rfl, rfl⟩ := Prod.mk.inj heq
    have hanswer : AnswerOk o id answer :=
      h.answers id k answer (by rw [hnext]; exact List.mem_cons_self)
    have hpop := repliesIn_pop (o := o) hnext
    have hanswers : ∀ i k', ∀ ans ∈ (if i = id ∧ k' = k then (d.toClient i k').tail
        else d.toClient i k'), AnswerOk o i ans := by
      intro i k' ans hmem
      split_ifs at hmem
      · exact h.answers i k' ans (List.mem_of_mem_tail hmem)
      · exact h.answers i k' ans hmem
    cases answer with
    | guidance msg =>
      obtain ⟨hclient, hstatus⟩ := (h.clients k).guidance id hanswer
      have hawaits : awaiting ((d.clients k).handleAnswer (cfgOf layout cfg k) id
          (.guidance msg)).status = awaiting (d.clients k).status := by
        rcases hstatus with hsame | ⟨hwaiting, hidle⟩
        · rw [hsame]
        · rw [hwaiting, hidle]
          rfl
      refine ⟨v, [], a, rfl, h.serves, h.object, ?_, ?_, h.requests, hanswers, ?_⟩
      · exact (Function.forall_update_iff d.clients
          (p := fun j c => ClientOk (cfgOf layout cfg j) c)).mpr ⟨hclient, fun j _ => h.clients j⟩
      · refine (Function.forall_update_iff d.clients
          (p := fun j c => PhaseOk (d.phase (layout.threadOf j)) c.status)).mpr
          ⟨?_, fun j _ => h.phases j⟩
        rcases hstatus with hsame | ⟨hwaiting, hidle⟩
        · rw [hsame]
          exact h.phases k
        · have hphase := h.phases k
          rw [hwaiting] at hphase
          rw [hidle]
          cases hp : d.phase (layout.threadOf k) with
          | setup => exact .inr rfl
          | sending => exact fun hinit => by cases hinit
          | finished => rfl
      · intro k'
        have hreplies := hpop k'
        rw [show repliesIn [Answer.guidance msg] = [] from rfl, ite_self, List.nil_append]
          at hreplies
        have hstage := h.stages k'
        rw [hreplies] at hstage
        refine (congrArg (Stage · _ _ _ _) ?_).mpr hstage
        by_cases hk : k' = k
        · subst hk
          dsimp only [Deployment.receive]
          rw [Function.update_self, hawaits]
        · dsimp only [Deployment.receive]
          rw [Function.update_of_ne hk]
    | reply msg =>
      obtain ⟨rfl, hguide⟩ := hanswer
      have hdata : repliesIn (d.toClient id k) =
          msg.replyData :: repliesIn (d.toClient id k).tail := by
        have hat := hpop k
        rwa [if_pos ⟨rfl, rfl⟩, if_pos ⟨rfl, rfl⟩] at hat
      obtain ⟨hawaits, hops, hqueued, hrest, hcall⟩ := (h.stages k).of_reply hdata
      obtain ⟨hclient, hstatus⟩ := (h.clients k).reply id hguide hawaits
      have hsending := (h.phases k).of_awaiting hawaits
      have hchanged : ((d.clients k).handleAnswer (cfgOf layout cfg k) id (.reply msg)).status ≠
          (d.clients k).status := by
        intro heq
        rw [← heq] at hawaits
        rcases hstatus with hs | hs <;> rw [hs] at hawaits <;> cases hawaits
      refine ⟨v, [.respond k], { a with call := Function.update a.call k .idle }, ?_,
        h.serves, h.object, ?_, ?_, h.requests, hanswers, ?_⟩
      · simp only [if_pos hchanged]
        exact Machine.run_singleton _ (Atomic.step_respond execute hcall)
      · exact (Function.forall_update_iff d.clients
          (p := fun j c => ClientOk (cfgOf layout cfg j) c)).mpr ⟨hclient, fun j _ => h.clients j⟩
      · refine (Function.forall_update_iff d.clients
          (p := fun j c => PhaseOk (d.phase (layout.threadOf j)) c.status)).mpr
          ⟨?_, fun j _ => h.phases j⟩
        rw [hsending]
        intro hinit
        rcases hstatus with hs | hs <;> rw [hs] at hinit <;> cases hinit
      · intro k'
        dsimp only [Deployment.receive]
        by_cases hk : k' = k
        · subst hk
          rw [Function.update_self, Function.update_self, if_pos ⟨rfl, rfl⟩, hops, hqueued, hrest]
          have hnot : awaiting ((d.clients k').handleAnswer (cfgOf layout cfg k') id
              (.reply msg)).status = false := by
            rcases hstatus with hs | hs <;> rw [hs] <;> rfl
          rw [hnot]
          exact .idle
        · rw [Function.update_of_ne hk, Function.update_of_ne hk, if_neg fun heq => hk heq.2]
          exact h.stages k'

/-- INTERNAL: a thread checks whether its clients are set up. SOURCE: app/client2.cpp:553-568 -/
theorem DeployOk.checkSetup (h : DeployOk unpack layout cfg o d v a) (hn : 0 < n) {t : θ}
    (hstep : Deployment.step unpack layout cfg d (.checkSetup t) = .ok (d', out)) :
    Matched unpack layout cfg o a d' out := by
  obtain ⟨rfl, ⟨-, rfl⟩ | ⟨hphase, clients, ready, hsetups, rfl⟩⟩ := step_checkSetup hstep
  · exact ⟨v, [], a, rfl, h⟩
  · obtain ⟨clients', ready', hsetups', hset, -, hready⟩ :=
      checkSetups_ok hn (layout.members t) h.clients
    rw [hsetups] at hsetups'
    cases hsetups'
    -- a client that is set up was not sending yet
    have hstatus : ∀ k, clients k = d.clients k ∨ layout.threadOf k = t ∧
        clients k = { d.clients k with
          leadingGuidance := Guidance.initLocalGuidance {}, status := .idle } := by
      intro k
      rcases hset k with heq | ⟨hmem, -, heq⟩
      · exact .inl heq
      · exact .inr ⟨(layout.mem_members t k).mp hmem, heq⟩
    refine ⟨v, [], a, rfl, h.serves, h.object, fun k => ?_, fun k => ?_, h.requests, h.answers,
      fun k => ?_⟩
    · rcases hstatus k with heq | ⟨-, heq⟩
      · dsimp only
        rw [heq]
        exact h.clients k
      · dsimp only
        rw [heq]
        exact (h.clients k).setUp
    · have hold := h.phases k
      dsimp only
      by_cases hk : layout.threadOf k = t
      · rw [hk, hphase] at hold
        have hmem := (layout.mem_members t k).mpr hk
        cases ready with
        | false =>
          rw [if_neg (by decide), hk, hphase]
          rcases hstatus k with heq | ⟨-, heq⟩
          · rw [heq]
            exact hold
          · rw [heq]
            exact .inr rfl
        | true =>
          rw [if_pos rfl, hk, Function.update_self, hready rfl k hmem]
          exact fun hinit => by cases hinit
      · have hsame : clients k = d.clients k := (hstatus k).resolve_right fun heq => hk heq.1
        rw [hsame]
        split_ifs
        · rw [Function.update_of_ne hk]
          exact hold
        · exact hold
    · have hawaits : awaiting (clients k).status = awaiting (d.clients k).status := by
        rcases hstatus k with heq | ⟨hk, heq⟩
        · rw [heq]
        · have hold := h.phases k
          rw [hk, hphase] at hold
          rw [heq]
          rcases hold with hs | hs
          · rw [hs]
            rfl
          · rw [hs]
      dsimp only
      rw [hawaits]
      exact h.stages k

/-- The deployment after the client `k` of the thread `t` has sent its operation to `o`. -/
def afterSend (layout : Layout κ θ π) (cfg : π → ProcessConfig) (o : Fin n)
    (d : Deployment n κ θ π) (t : θ) (k : κ) : Deployment n κ θ π :=
  { d with
    clients := Function.update d.clients k { d.clients k with
      sendMsgNums := (d.clients k).sendMsgNums + 1
      status := sentStatus (cfg (layout.processOf t)) }
    toServer := post d.toServer k ((o, .operation (messageOf (cfg (layout.processOf t)))) ::
      (asked (cfg (layout.processOf t)) o).map fun id => (id, .getGuidance))
    sentNums := Function.update d.sentNums (layout.processOf t)
      (d.sentNums (layout.processOf t) + 1) }

/-- The deployment after the client `k` of the thread `t` has been refused: the thread is
finished when all its clients are idle. -/
def afterRefusal (layout : Layout κ θ π) (d : Deployment n κ θ π) (t : θ) (k : κ) :
    Deployment n κ θ π :=
  { d with
    clients := Function.update d.clients k { d.clients k with finishAllMsg := true }
    sentNums := Function.update d.sentNums (layout.processOf t)
      (d.sentNums (layout.processOf t) + 1)
    phase := if ∀ j ∈ layout.members t, (d.clients j).status = .idle then
      Function.update d.phase t .finished else d.phase }

/-- INTERNAL: **a turn of a thread with an idle client**: the first such client sends its
operation, if that is short enough, unless the counter is past the number of messages of the
process. SOURCE: app/client2.cpp:204-212, 350-409, 544-551, 623-647; app/utils.cpp:39 -/
theorem turn_eq {t : θ} {k : κ} (hclient : ClientOk (cfg (layout.processOf t)) (d.clients k))
    (ho : routedTo n Client.theKey = some o)
    (hfind : ((layout.members t).find? fun k => (d.clients k).status = .idle) = some k) :
    d.turn layout cfg t =
      if Client.atomicInt (d.sentNums (layout.processOf t) + 1) ≤
          (cfg (layout.processOf t)).msgNums then
        if ((cfg (layout.processOf t)).packMessage
            (messageOf (cfg (layout.processOf t)))).length < 2000 then
          .ok (afterSend layout cfg o d t k, [.invoke k (operationOf (cfg (layout.processOf t)))])
        else .error (.client .messageTooLong)
      else .ok (afterRefusal layout d t k, []) := by
  have hidle : (d.clients k).status = .idle := by simpa using List.find?_some hfind
  have hmem : k ∈ layout.members t := List.mem_of_find?_eq_some hfind
  have hsend := oneSendIn_eq hclient hidle ho (d.sentNums (layout.processOf t))
  unfold Deployment.turn
  rw [hfind]
  dsimp only
  rw [hsend]
  by_cases hcan : Client.atomicInt (d.sentNums (layout.processOf t) + 1) ≤
      (cfg (layout.processOf t)).msgNums
  · rw [if_pos hcan, if_pos hcan]
    by_cases hshort : ((cfg (layout.processOf t)).packMessage
        (messageOf (cfg (layout.processOf t)))).length < 2000
    · -- the client is not idle any more, so the thread goes on
      have hnot : sentStatus (cfg (layout.processOf t)) ≠ .idle := by
        intro heq
        have hawaits := awaiting_sentStatus (cfg (layout.processOf t))
        rw [heq] at hawaits
        cases hawaits
      have hbusy : ¬ ∀ j ∈ layout.members t, (Function.update d.clients k { d.clients k with
          sendMsgNums := (d.clients k).sendMsgNums + 1
          status := sentStatus (cfg (layout.processOf t)) } j).status = .idle := by
        intro hall
        have hk := hall k hmem
        rw [Function.update_self] at hk
        exact hnot hk
      simp only [if_pos hshort, Except.mapError, ok_bind, List.all_eq_true, decide_eq_true_iff,
        hbusy, and_false, if_false, hnot, nextOperation_eq hclient.value]
      rfl
    · simp only [if_neg hshort, Except.mapError, error_bind]
  · have hpost : post d.toServer k [] = d.toServer := by
      funext k' j
      simp [post]
    obtain ⟨c, hc⟩ : ∃ c : Client n, c = { d.clients k with finishAllMsg := true } := ⟨_, rfl⟩
    have hstatus : c.status = .idle := by
      rw [hc]
      exact hidle
    have hfinish : c.finishAllMsg = true := by rw [hc]
    have hsame : (∀ j ∈ layout.members t, (Function.update d.clients k c j).status = .idle) ↔
        ∀ j ∈ layout.members t, (d.clients j).status = .idle := by
      refine forall₂_congr fun j _ => ?_
      by_cases hj : j = k
      · subst hj
        rw [Function.update_self, hstatus, hidle]
      · rw [Function.update_of_ne hj]
    simp only [if_neg hcan, ← hc, Except.mapError, ok_bind, List.all_eq_true, decide_eq_true_iff,
      hsame, hstatus, hfinish, true_and, if_true, hpost]
    rw [afterRefusal, hc]

/-- INTERNAL: **what a turn of a thread has done**, when it returns: nothing, when no client is
idle; or the first idle client has sent, or was refused.
SOURCE: app/client2.cpp:204-212, 350-409, 544-551, 623-647 -/
theorem DeployOk.turn_cases (h : DeployOk unpack layout cfg o d v a)
    (ho : routedTo n Client.theKey = some o) {t : θ}
    (hturn : d.turn layout cfg t = .ok (d', out)) :
    (d' = d ∧ out = [] ∧ ∀ k ∈ layout.members t, (d.clients k).status ≠ .idle) ∨
    ∃ k, layout.threadOf k = t ∧ (d.clients k).status = .idle ∧
      ((Client.atomicInt (d.sentNums (layout.processOf t) + 1) ≤
            (cfg (layout.processOf t)).msgNums ∧
          d' = afterSend layout cfg o d t k ∧
          out = [.invoke k (operationOf (cfg (layout.processOf t)))]) ∨
        (¬ Client.atomicInt (d.sentNums (layout.processOf t) + 1) ≤
            (cfg (layout.processOf t)).msgNums ∧
          d' = afterRefusal layout d t k ∧ out = [])) := by
  cases hfind : (layout.members t).find? fun k => (d.clients k).status = .idle with
  | none =>
    rw [Deployment.turn, hfind] at hturn
    cases hturn
    exact .inl ⟨rfl, rfl, fun k hk => by simpa using List.find?_eq_none.mp hfind k hk⟩
  | some k =>
    have hidle : (d.clients k).status = .idle := by simpa using List.find?_some hfind
    have hmem : k ∈ layout.members t := List.mem_of_find?_eq_some hfind
    obtain rfl : layout.threadOf k = t := (layout.mem_members t k).mp hmem
    rw [turn_eq (h.clients k) ho hfind] at hturn
    split_ifs at hturn with hcan hshort
    · cases hturn
      exact .inr ⟨k, rfl, hidle, .inl ⟨hcan, rfl, rfl⟩⟩
    · cases hturn
      exact .inr ⟨k, rfl, hidle, .inr ⟨hcan, rfl, rfl⟩⟩

omit [DecidableEq θ] in
/-- INTERNAL: the operations on their way to the owner after a client without one has sent.
SOURCE: app/client2.cpp:350-409 -/
theorem operationsIn_afterSend
    (hpack : ∀ p, unpack (messageOf (cfg p)).op = some (operationOf (cfg p))) {k : κ}
    (hops : operationsIn unpack (d.toServer k o) = []) (k' : κ) :
    operationsIn unpack ((afterSend layout cfg o d (layout.threadOf k) k).toServer k' o) =
      if k' = k then [operationOf (cfgOf layout cfg k)]
      else operationsIn unpack (d.toServer k' o) := by
  dsimp only [afterSend]
  by_cases hk : k' = k
  · subst hk
    rw [post, if_pos rfl, if_pos rfl, operationsIn_append, hops, List.nil_append,
      List.filter_cons_of_pos (by simp), List.map_cons, ← List.singleton_append,
      operationsIn_append, operationsIn_guidance, List.append_nil]
    simp [operationsIn, hpack, cfgOf]
  · rw [post, if_neg hk, if_neg hk]

/-- INTERNAL: a thread takes a turn. SOURCE: app/client2.cpp:544-551, 623-647 -/
theorem DeployOk.turn (h : DeployOk unpack layout cfg o d v a)
    (ho : routedTo n Client.theKey = some o)
    (hpack : ∀ p, unpack (messageOf (cfg p)).op = some (operationOf (cfg p))) {t : θ}
    (hstep : Deployment.step unpack layout cfg d (.turn t) = .ok (d', out)) :
    Matched unpack layout cfg o a d' out := by
  rcases step_turn hstep with ⟨-, rfl, rfl⟩ | ⟨hphase, hturn⟩
  · exact ⟨v, [], a, rfl, h⟩
  rcases h.turn_cases ho hturn with
    ⟨rfl, rfl, -⟩ | ⟨k, rfl, hidle, ⟨-, rfl, rfl⟩ | ⟨-, rfl, rfl⟩⟩
  · exact ⟨v, [], a, rfl, h⟩
  · obtain ⟨hops, hqueued, hreplies, hcall⟩ :=
      (h.stages k).of_not_awaiting (by rw [hidle]; rfl)
    refine ⟨v, [.invoke k (operationOf (cfgOf layout cfg k))], { a with
      call := Function.update a.call k (.invoked (operationOf (cfgOf layout cfg k))) },
      Machine.run_singleton _ (Atomic.step_invoke execute hcall _), h.serves, h.object, ?_, ?_,
      ?_, h.answers, ?_⟩
    · exact (Function.forall_update_iff d.clients
        (p := fun j c => ClientOk (cfgOf layout cfg j) c)).mpr
        ⟨(h.clients k).sent hidle _, fun j _ => h.clients j⟩
    · refine (Function.forall_update_iff d.clients
        (p := fun j c => PhaseOk (d.phase (layout.threadOf j)) c.status)).mpr
        ⟨?_, fun j _ => h.phases j⟩
      rw [hphase]
      intro hinit
      have hawaits := awaiting_sentStatus (cfgOf layout cfg k)
      rw [cfgOf, show sentStatus _ = Status.init from hinit] at hawaits
      cases hawaits
    · intro k' j request hreq
      rcases mem_post hreq with hold | ⟨rfl, hnew⟩
      · exact h.requests k' j request hold
      · rcases List.mem_cons.mp hnew with heq | hask
        · obtain ⟨rfl, rfl⟩ := Prod.mk.inj heq
          exact ⟨rfl, rfl, rfl, _, hpack _, rfl⟩
        · obtain ⟨id, -, heq⟩ := List.mem_map.mp hask
          obtain ⟨rfl, rfl⟩ := Prod.mk.inj heq
          trivial
    · intro k'
      rw [operationsIn_afterSend hpack hops]
      dsimp only [afterSend]
      by_cases hk : k' = k
      · subst hk
        rw [if_pos rfl, hqueued, hreplies, Function.update_self, Function.update_self,
          awaiting_sentStatus]
        exact .sent _
      · rw [if_neg hk, Function.update_of_ne hk, Function.update_of_ne hk]
        exact h.stages k'
  · refine ⟨v, [], a, rfl, h.serves, h.object, ?_, ?_, h.requests, h.answers, ?_⟩
    · refine (Function.forall_update_iff d.clients
        (p := fun j c => ClientOk (cfgOf layout cfg j) c)).mpr ⟨?_, fun j _ => h.clients j⟩
      have hclient := h.clients k
      exact ⟨hclient.value, hclient.collected, hclient.leading, hclient.unreplicated⟩
    · intro j
      have hstatus : ((afterRefusal layout d (layout.threadOf k) k).clients j).status =
          (d.clients j).status := by
        dsimp only [afterRefusal]
        by_cases hj : j = k
        · subst hj
          rw [Function.update_self]
        · rw [Function.update_of_ne hj]
      rw [hstatus]
      dsimp only [afterRefusal]
      split_ifs with hall
      · by_cases hj : layout.threadOf j = layout.threadOf k
        · rw [hj, Function.update_self]
          exact hall j ((layout.mem_members _ j).mpr hj)
        · rw [Function.update_of_ne hj]
          exact h.phases j
      · exact h.phases j
    · intro j
      dsimp only [afterRefusal]
      by_cases hj : j = k
      · subst hj
        rw [Function.update_self]
        exact h.stages j
      · rw [Function.update_of_ne hj]
        exact h.stages j

/-- INTERNAL: a server reads what a client has sent. SOURCE: app/server.cpp:158-178 -/
theorem DeployOk.serve (h : DeployOk unpack layout cfg o d v a) (hn : 2 ≤ n) {k : κ}
    {id : Fin n} (hstep : Deployment.step unpack layout cfg d (.serve k id) = .ok (d', out)) :
    Matched unpack layout cfg o a d' out := by
  obtain ⟨rfl, ⟨-, rfl⟩ | ⟨request, rest, servers, effects, hnext, hservers, rfl⟩⟩ :=
    step_serve hstep
  · exact ⟨v, [], a, rfl, h⟩
  · have hreq : RequestOk unpack o id request :=
      h.requests k id request (by rw [hnext]; exact List.mem_cons_self)
    have hpop : ∀ k', operationsIn unpack (d.toServer k' o) = _ := operationsIn_pop hnext
    have hrequests : ∀ k' j, ∀ q ∈ Function.update d.toServer k
        (Function.update (d.toServer k) id rest) k' j, RequestOk unpack o j q := by
      intro k' j q hq
      by_cases hk : k' = k
      · subst hk
        rw [Function.update_self] at hq
        by_cases hj : j = id
        · subst hj
          rw [Function.update_self] at hq
          exact h.requests k' j q (by rw [hnext]; exact List.mem_cons_of_mem _ hq)
        · rw [Function.update_of_ne hj] at hq
          exact h.requests k' j q hq
      · rw [Function.update_of_ne hk] at hq
        exact h.requests k' j q hq
    cases request with
    | getGuidance =>
      obtain ⟨rfl, rfl, hguided⟩ := h.serves.getGuidance hservers
      have hnone : operationsIn unpack [Request.getGuidance] = [] := rfl
      refine ⟨v, [], a, rfl, h.serves, h.object, h.clients, h.phases, hrequests,
        answers_deliver h.answers hguided, fun k' => ?_⟩
      have hops := hpop k'
      rw [hnone, ite_self, List.nil_append] at hops
      have hstage := h.stages k'
      rw [hops] at hstage
      dsimp only
      rw [repliesIn_deliver hguided]
      rw [show repliesOf _ = ([] : List (κ × Bytes)) from rfl]
      rw [show ofClient k' ([] : List (κ × Bytes)) = [] from rfl, List.append_nil]
      exact hstage
    | operation msg =>
      obtain ⟨rfl, hepoch, hkey, op, hop, hopkey⟩ := hreq
      have hat : AtStore unpack (fun _ => id) keyGroup (.client id msg k : LinkedEvent n κ) :=
        ⟨rfl, by rw [hkey]; rfl, op, hop, hopkey.trans hkey.symm⟩
      obtain ⟨v', hsubmit, hserves, hguided⟩ := h.serves.submit hn hat hepoch hop hservers
      have hone : operationsIn unpack [Request.operation msg] = [op] := by
        simp [operationsIn, hop]
      have hfirst : operationsIn unpack (d.toServer k id) = op :: operationsIn unpack
          (Function.update d.toServer k (Function.update (d.toServer k) id rest) k id) := by
        rw [hpop k, if_pos ⟨rfl, rfl⟩, hone]
        rfl
      obtain ⟨hawaits, hops, hqueued, hreplies, hcall⟩ := (h.stages k).of_operation hfirst
      have hother : ∀ k' ≠ k, operationsIn unpack (Function.update d.toServer k
          (Function.update (d.toServer k) id rest) k' id) =
            operationsIn unpack (d.toServer k' id) := by
        intro k' hk
        rw [hpop k', if_neg fun heq => hk heq.1, List.nil_append]
      by_cases hread : op.opType = 0
      · -- a read takes effect when it is served
        simp only [StoreService.step, if_pos hread, Except.ok.injEq, Prod.mk.injEq] at hsubmit
        obtain ⟨rfl, hout⟩ := hsubmit
        have hexecute : execute a.object op = (v.store, v.store op.keyHash) := by
          rw [execute, if_neg (by rw [hread]; decide), h.object]
        have htake := Atomic.step_take execute hcall
        rw [hexecute] at htake
        refine ⟨v, [.take k], _, Machine.run_singleton _ htake, hserves, rfl, h.clients, h.phases,
          hrequests, answers_deliver h.answers hguided, fun k' => ?_⟩
        dsimp only
        rw [repliesIn_deliver hguided, ← hout]
        by_cases hk : k' = k
        · subst hk
          rw [hops, hqueued, hreplies, hawaits, Function.update_self,
            show ofClient k' [(k', v.store op.keyHash)] = [v.store op.keyHash] by simp [ofClient]]
          exact .replied _
        · rw [hother k' hk, Function.update_of_ne hk,
            show ofClient k' [(k, v.store op.keyHash)] = [] by simp [ofClient, Ne.symm hk],
            List.append_nil]
          exact h.stages k'
      · simp only [StoreService.step, if_neg hread, Except.ok.injEq, Prod.mk.injEq] at hsubmit
        obtain ⟨rfl, hout⟩ := hsubmit
        refine ⟨_, [], a, rfl, hserves, h.object, h.clients, h.phases, hrequests,
          answers_deliver h.answers hguided, fun k' => ?_⟩
        dsimp only
        rw [repliesIn_deliver hguided, ← hout,
          show ofClient k' ([] : List (κ × Bytes)) = [] from rfl, List.append_nil, ofClient_append]
        by_cases hk : k' = k
        · subst hk
          rw [hops, hqueued, hreplies, hawaits, hcall,
            show ofClient k' [(k', op)] = [op] by simp [ofClient]]
          exact .waits op
        · rw [hother k' hk, show ofClient k' [(k, op)] = [] by simp [ofClient, Ne.symm hk],
            List.append_nil]
          exact h.stages k'

/-- INTERNAL: a server reads what another one has sent; the operations that are committed take
effect, in the order of the queue. SOURCE: app/server.cpp:185-229 -/
theorem DeployOk.exchange (h : DeployOk unpack layout cfg o d v a) (hn : 2 ≤ n)
    {src dst : Fin n}
    (hstep : Deployment.step unpack layout cfg d (.exchange src dst) = .ok (d', out)) :
    Matched unpack layout cfg o a d' out := by
  obtain ⟨rfl, servers, effects, hservers, rfl⟩ := step_exchange hstep
  obtain ⟨count, v', hadvance, hserves, hguided⟩ := h.serves.advance hn hservers
  simp only [StoreService.step, Except.ok.injEq, Prod.mk.injEq] at hadvance
  obtain ⟨rfl, hout⟩ := hadvance
  have hnodup : ((v.queue.take count).map Prod.fst).Nodup :=
    (nodup_of_ofClient fun k => (h.stages k).queued_length).sublist
      ((List.take_sublist count v.queue).map Prod.fst)
  obtain ⟨t, hrun, hobject, htaken, hsame⟩ := Atomic.run_takes execute hnodup
    (s := a) fun q hq =>
      ((h.stages q.1).of_queued (mem_ofClient.mpr (List.mem_of_mem_take hq))).2.2.2.2
  rw [h.object] at hobject htaken
  refine ⟨_, _, t, hrun, hserves, hobject, h.clients, h.phases, h.requests,
    answers_deliver h.answers hguided, fun k => ?_⟩
  dsimp only
  rw [repliesIn_deliver hguided, ← hout]
  have hsplit : ofClient k v.queue =
      ofClient k (v.queue.take count) ++ ofClient k (v.queue.drop count) := by
    rw [← ofClient_append, List.take_append_drop]
  have hclients := Atomic.executeAll_map_fst execute v.store (v.queue.take count)
  by_cases hk : k ∈ (v.queue.take count).map Prod.fst
  · obtain ⟨⟨k', op⟩, hmem, rfl⟩ := List.mem_map.mp hk
    obtain ⟨hawaits, hops, hqueued, hreplies, -⟩ :=
      (h.stages k').of_queued (mem_ofClient.mpr (List.mem_of_mem_take hmem))
    have hleft : ofClient k' (v.queue.drop count) = [] := by
      rw [hqueued, ofClient_eq_singleton hnodup hmem] at hsplit
      exact (List.append_right_eq_self.mp hsplit.symm)
    rw [← hclients] at hk hnodup
    obtain ⟨⟨k'', ret⟩, hans, heq⟩ := List.mem_map.mp hk
    obtain rfl : k'' = k' := heq
    rw [hops, hreplies, hawaits, hleft, htaken _ hans, ofClient_eq_singleton hnodup hans]
    exact .replied ret
  · have hnone : ofClient k (v.queue.take count) = [] := by
      rw [List.eq_nil_iff_forall_not_mem]
      exact fun op hop => hk (List.mem_map.mpr ⟨_, mem_ofClient.mp hop, rfl⟩)
    have hquiet : ofClient k (Atomic.executeAll execute v.store (v.queue.take count)).2 = [] := by
      rw [List.eq_nil_iff_forall_not_mem]
      intro ret hret
      rw [← hclients] at hk
      exact hk (List.mem_map.mpr ⟨_, mem_ofClient.mp hret, rfl⟩)
    have hstage := h.stages k
    rw [hsplit, hnone, List.nil_append] at hstage
    rw [hquiet, List.append_nil, hsame k hk]
    exact hstage

/-- INTERNAL: **each step that returns is a run of the atomic store.** -/
theorem DeployOk.step (h : DeployOk unpack layout cfg o d v a) (hn : 2 ≤ n)
    (ho : routedTo n Client.theKey = some o)
    (hpack : ∀ p, unpack (messageOf (cfg p)).op = some (operationOf (cfg p)))
    {event : DeploymentEvent n κ θ}
    (hstep : Deployment.step unpack layout cfg d event = .ok (d', out)) :
    Matched unpack layout cfg o a d' out := by
  cases event with
  | connected k id => exact h.connected hstep
  | receive k id => exact h.receive hstep
  | checkSetup t => exact h.checkSetup (by omega) hstep
  | turn t => exact h.turn ho hpack hstep
  | serve k id => exact h.serve hn hstep
  | exchange src dst => exact h.exchange hn hstep

end Relation

end MorphlingC.Analysis
