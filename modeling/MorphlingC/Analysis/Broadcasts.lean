import MorphlingC.Analysis.ReplicaHandlers
import MorphlingC.Model.Server

/-!
# Sending to peers that may not be connected

`bcast_msgs` looks its addressee up and sends, without asking whether there is a transport.
So a callback ends in order exactly when everybody that it has a message for is connected:
all other peers for a client's operation that is replicated, the sender for a message with
entries, and the sender for an acknowledgement of another epoch, which is answered with the
guidance.
-/

set_option autoImplicit false

namespace MorphlingC.Analysis

open MorphlingC.Library MorphlingC.Model MorphlingC.Interface MorphlingC.Model.Morphling

variable {n : ℕ} {τ ρ : Type} {unpack : Bytes → Option Operation}

/-! ## `bcast_msgs` -/

/-- The replica sends what is meant to be sent, and its queue is empty afterwards. -/
def Delivers (peerTrans : ℕ → Option ρ) (m : Morphling n τ) : Prop :=
  m.bcastMsgs peerTrans = .ok ({ m with nextMsgs := [] }, reachable peerTrans m.nextMsgs)

/-- INTERNAL: the loop returns only if all addressees are connected.
SOURCE: core/morphling.cpp:210-229 -/
theorem sendAll_connected {peerTrans : ℕ → Option ρ} {msgs : List (GenericMessage n)}
    {sent : List (ρ × GenericMessage n)} (h : sendAll peerTrans msgs = .ok sent) :
    ∀ p ∈ msgs, peerTrans p.dst ≠ none := by
  induction msgs generalizing sent with
  | nil =>
    intro p hp
    cases hp
  | cons q rest ih =>
    obtain ⟨one, hone, h⟩ := bind_eq_ok.mp h
    obtain ⟨others, hothers, -⟩ := bind_eq_ok.mp h
    intro p hp
    rcases List.mem_cons.mp hp with rfl | hp
    · intro hnone
      unfold sendMsg at hone
      rw [hnone] at hone
      split at hone
      · cases hone
      · cases hone
    · exact ih hothers p hp

/-- The messages in the queue go to these addressees, and no append is without entries. -/
structure Queues (m : Morphling n τ) (ids : List ℕ) : Prop where
  addressees : m.nextMsgs.map GenericMessage.dst = ids
  filled : ∀ p ∈ m.nextMsgs, p.noEntries = false

/-- INTERNAL: **`bcast_msgs` does what is meant exactly when all addressees are connected.**
SOURCE: core/morphling.cpp:206-231 -/
theorem Queues.delivers_iff {m : Morphling n τ} {ids : List ℕ} (h : Queues m ids)
    (peerTrans : ℕ → Option ρ) :
    Delivers peerTrans m ↔ ∀ id ∈ ids, peerTrans id ≠ none := by
  have hids : (∀ id ∈ ids, peerTrans id ≠ none) ↔
      ∀ p ∈ m.nextMsgs, peerTrans p.dst ≠ none := by
    rw [← h.addressees, List.forall_mem_map]
  rw [hids]
  constructor
  · intro hdelivers
    obtain ⟨sent, hsent, -⟩ := bind_eq_ok.mp hdelivers
    exact sendAll_connected hsent
  · intro hconnected
    unfold Delivers bcastMsgs
    rw [sendAll_reachable fun p hp => ⟨h.filled p hp, hconnected p hp⟩]
    rfl

/-! ## What the callbacks queue -/

@[simp] theorem stamp_dst (m : Morphling n τ) (p : GenericMessage n) :
    (m.stamp p).dst = p.dst := by
  cases p <;> rfl

@[simp] theorem stamp_noEntries (m : Morphling n τ) (p : GenericMessage n) :
    (m.stamp p).noEntries = p.noEntries := by
  cases p <;> rfl

/-- INTERNAL: with nothing queued before, a call queues the messages of its callbacks.
SOURCE: core/morphling.cpp:12-26, 165-184 -/
theorem queues_afterCall {m : Morphling n τ} (hm : m.nextMsgs = [])
    (gid : Fin defaultKeySpace) (smr : SMR) {cbs : List Callback}
    {msgs : List (GenericMessage n)} (hqueued : cbs.filterMap (queuedMsg n) = msgs)
    (hfilled : ∀ q ∈ msgs, q.noEntries = false) :
    Queues (afterCall m gid smr cbs) (msgs.map GenericMessage.dst) := by
  have hmsgs : (afterCall m gid smr cbs).nextMsgs = msgs.map m.stamp := by
    simp only [afterCall, hm, List.nil_append, hqueued]
  constructor
  · rw [hmsgs, List.map_map]
    apply List.map_congr_left
    intro q _
    exact stamp_dst m q
  · intro p hp
    rw [hmsgs] at hp
    obtain ⟨q, hq, rfl⟩ := List.mem_map.mp hp
    rw [stamp_noEntries]
    exact hfilled q hq

/-- The groups are those of the replica: they have its number and its peers. -/
def OwnGroups (m : Morphling n τ) : Prop :=
  ∀ gid, (m.smrs gid).peers = m.peers ∧ (m.smrs gid).me = m.me

/-- INTERNAL: a call of a group that keeps its number and its peers. -/
theorem OwnGroups.afterCall {m : Morphling n τ} (h : OwnGroups m) {gid : Fin defaultKeySpace}
    {smr : SMR} (hpeers : smr.peers = (m.smrs gid).peers) (hme : smr.me = (m.smrs gid).me)
    (cbs : List Callback) : OwnGroups (Analysis.afterCall m gid smr cbs) := by
  apply (Function.forall_update_iff m.smrs
    (p := fun _ s => s.peers = m.peers ∧ s.me = m.me)).mpr
  rw [hpeers, hme]
  exact ⟨h gid, fun g _ => h g⟩

/-- Between callbacks nothing is queued, neither messages nor entries. -/
structure Ready (m : Morphling n τ) : Prop where
  noMsgs : m.nextMsgs = []
  noEntries : m.applyEntries = []
  own : OwnGroups m

/-- Those for whom a callback queues a message: all other peers for an operation of the
replica's epoch that is no read, the sender for a message with entries, and the sender for an
acknowledgement of another epoch. -/
def addressees (unpack : Bytes → Option Operation) (m : Morphling n τ) :
    ServerCall n → List ℕ
  | .client _ msg =>
    if m.isValidGuidance msg.epoch ∧ (unpack msg.op).any (·.opType ≠ 0) then
      m.peers.filter (· ≠ m.me)
    else []
  | .peer (.append msg _) => [msg.fromId]
  | .peer (.appendReply msg _) => if m.isValidGuidance msg.epoch then [] else [msg.fromId]
  | .peer (.guidance _ _) => []

/-- INTERNAL: nothing is queued. -/
theorem Ready.queues_nil {m : Morphling n τ} (h : Ready m) : Queues m [] where
  addressees := by rw [h.noMsgs]; rfl
  filled := by
    intro p hp
    rw [h.noMsgs] at hp
    cases hp

/-- INTERNAL: the guidance is queued for a peer. SOURCE: core/morphling.cpp:149-155 -/
theorem Ready.queues_guidance {m : Morphling n τ} (h : Ready m) (id : ℕ) :
    Queues (m.replyGuidance id) [id] where
  addressees := by simp [replyGuidance, h.noMsgs, GenericMessage.dst]
  filled := by
    intro p hp
    simp only [replyGuidance, h.noMsgs, List.nil_append, List.mem_singleton] at hp
    subst hp
    rfl

/-- INTERNAL: one message to each of some peers. SOURCE: core/smr.cpp:217-222 -/
theorem filterMap_notifySend (msg : AppendEntriesMessage) (ids : List ℕ) :
    (ids.map fun id => Callback.notifySendAppendEntry msg id).filterMap (queuedMsg n) =
      ids.map fun id => .append msg id := by
  rw [List.filterMap_map, ← List.filterMap_eq_map]
  rfl

/-- INTERNAL: these messages go to those peers. -/
theorem map_dst_append (msg : AppendEntriesMessage) (ids : List ℕ) :
    (ids.map fun id => (.append msg id : GenericMessage n)).map GenericMessage.dst = ids := by
  rw [List.map_map]
  exact List.map_id _

/-- INTERNAL: **a client's message.** SOURCE: core/morphling.cpp:103-126 -/
theorem Ready.client {m m' : Morphling n τ} {msg : ClientMessage} {tr : τ}
    {effects : List (Effect n τ)} (hr : Ready m)
    (h : m.handleOperation unpack msg tr = .ok (m', effects)) :
    Queues m' (if m.isValidGuidance msg.epoch ∧ (unpack msg.op).any (·.opType ≠ 0) then
      m.peers.filter (· ≠ m.me) else []) ∧ Ready { m' with nextMsgs := [] } := by
  rcases handleOperation_cases h with ⟨hepoch, rfl, -⟩ | ⟨hepoch, op, hop, hcase⟩
  · rw [if_neg (by simp [isValidGuidance, hepoch])]
    exact ⟨hr.queues_nil, rfl, hr.noEntries, hr.own⟩
  · rcases hcase with ⟨hread, rfl, -⟩ | ⟨hwrite, smr, cbs, idx, hcall, rfl, -⟩
    · rw [if_neg (by simp [hop, hread])]
      exact ⟨hr.queues_nil, rfl, hr.noEntries, hr.own⟩
    · rw [if_pos (by simp [isValidGuidance, hepoch, hop, hwrite])]
      have happlied := handleOperation_applied hcall
      obtain ⟨-, -, -, -, hme, hpeers, -, hcbs⟩ := handleOperation_ok hcall
      have hqueued : cbs.filterMap (queuedMsg n) = (m.peers.filter (· ≠ m.me)).map fun id =>
          .append (appendMessage (m.smrs (findTargetSmr msg.keyHash))
            ⟨msg.epoch, idx, msg.op⟩) id := by
        rw [hcbs, filterMap_notifySend, (hr.own _).1, (hr.own _).2]
      have hqueues := queues_afterCall hr.noMsgs (findTargetSmr msg.keyHash) smr hqueued (by
        intro q hq
        obtain ⟨id, -, rfl⟩ := List.mem_map.mp hq
        rfl)
      rw [map_dst_append] at hqueues
      refine ⟨⟨hqueues.addressees, hqueues.filled⟩, rfl, ?_, hr.own.afterCall hpeers hme cbs⟩
      simp only [afterCall, hr.noEntries, happlied, List.append_nil]

/-- INTERNAL: **a message with entries.** SOURCE: core/morphling.cpp:128-136 -/
theorem Ready.append {m m' : Morphling n τ} {msg : AppendEntriesMessage} {sender : ℕ}
    {effects : List (Effect n τ)} (hr : Ready m)
    (h : m.handleAppendEntries msg sender = .ok (m', effects)) :
    Queues m' [sender] ∧ Ready { m' with nextMsgs := [] } := by
  rcases handleAppend_cases h with ⟨-, rfl, -⟩ | ⟨-, gid, smr, cbs, -, hcall, rfl, -⟩
  · exact ⟨hr.queues_guidance sender, rfl, hr.noEntries, hr.own⟩
  · have happlied := handleAppendEntries_applied hcall
    have hframe : smr.peers = (m.smrs gid).peers ∧ smr.me = (m.smrs gid).me := by
      rw [handleAppendEntries_frame hcall]
      exact ⟨rfl, rfl⟩
    have hreply : ∃ s ok, cbs = [appendReply s ok sender] := by
      rcases handleAppendEntries_ok.mp hcall with ⟨-, -, rfl⟩ | ⟨-, log, -, -, rfl⟩
      · exact ⟨_, _, rfl⟩
      · exact ⟨_, _, rfl⟩
    obtain ⟨s, ok, hcbs⟩ := hreply
    have hqueued : cbs.filterMap (queuedMsg n) =
        [.appendReply ⟨0, 0, ok, s.gid, s.log.log.length⟩ sender] := by
      rw [hcbs]
      rfl
    refine ⟨queues_afterCall hr.noMsgs gid smr hqueued ?_, rfl, ?_,
      hr.own.afterCall hframe.1 hframe.2 cbs⟩
    · intro q hq
      rw [List.mem_singleton] at hq
      subst hq
      rfl
    · simp only [afterCall, hr.noEntries, happlied, List.append_nil]

/-- INTERNAL: **an acknowledgement**, before the queue of entries is applied.
SOURCE: core/morphling.cpp:139-147 -/
theorem Ready.ack {m m' : Morphling n τ} {msg : AppenEntriesReplyMessage} {sender : ℕ}
    {effects : List (Effect n τ)} (hr : Ready m)
    (h : m.handleAppendEntriesReply msg sender = .ok (m', effects)) :
    Queues m' (if m.isValidGuidance msg.epoch then [] else [sender]) ∧ OwnGroups m' := by
  rcases handleAck_cases h with ⟨hepoch, rfl, -⟩ | ⟨hepoch, gid, smr, cbs, -, hcall, rfl, -⟩
  · rw [if_neg (by simp [isValidGuidance, hepoch])]
    exact ⟨hr.queues_guidance sender, hr.own⟩
  · rw [if_pos (by simp [isValidGuidance, hepoch])]
    have hquiet : cbs.filterMap (queuedMsg n) = [] ∧ smr.peers = (m.smrs gid).peers ∧
        smr.me = (m.smrs gid).me := by
      rcases handleReply_cases hcall with ⟨-, rfl, rfl⟩ | ⟨-, votes, reached, -, hcase⟩
      · exact ⟨rfl, rfl, rfl⟩
      · rcases hcase with ⟨-, rfl, rfl⟩ | ⟨-, -, -, rfl, rfl⟩
        · exact ⟨rfl, rfl, rfl⟩
        · exact ⟨rfl, rfl, rfl⟩
    obtain ⟨hnone, hpeers, hme⟩ := hquiet
    refine ⟨queues_afterCall hr.noMsgs gid smr hnone ?_, hr.own.afterCall hpeers hme cbs⟩
    intro q hq
    cases hq

/-- INTERNAL: **what a callback queues**, and that nothing else stays behind.
SOURCE: app/server.cpp:158-171, 185-227 -/
theorem Ready.handle {m m' : Morphling n ℕ} {c : ServerCall n} {effects : List (Effect n ℕ)}
    (hr : Ready m) (h : Server.handle unpack m c = .ok (m', effects)) :
    Queues m' (addressees unpack m c) ∧ Ready { m' with nextMsgs := [] } := by
  cases c with
  | client conn msg => exact hr.client h
  | peer p =>
    cases p with
    | append msg dst => exact hr.append h
    | appendReply msg dst =>
      obtain ⟨⟨m₁, queued⟩, hack, h⟩ := bind_eq_ok.mp h
      obtain ⟨⟨m₂, answers⟩, happly, h⟩ := bind_eq_ok.mp h
      cases h
      obtain ⟨hqueues, hown⟩ := hr.ack hack
      obtain ⟨rfl, -⟩ := maybeApply_ok happly
      exact ⟨⟨hqueues.addressees, hqueues.filled⟩, rfl, rfl, hown⟩
    | guidance msg dst =>
      cases h
      exact ⟨hr.queues_nil, rfl, hr.noEntries, hr.own⟩

/-! ## Runs of a server -/

/-- Whenever a callback comes to send what the replica has queued, it sends what is meant to
be sent, and empties the queue. -/
def Broadcasts (unpack : Bytes → Option Operation) (s : Server n ρ) : ServerEvent n ρ → Prop
  | .call c => s.Arrives c → ∀ m effects,
      Server.handle unpack s.replica c = .ok (m, effects) → Delivers s.peerTrans m
  | .accept => True
  | .close _ => True
  | .connected _ _ => True
  | .getGuidance _ => True

/-- Whenever a callback comes to send what the replica has queued, everybody that it queues a
message for is connected. -/
def AddresseesConnected (unpack : Bytes → Option Operation) (s : Server n ρ) :
    ServerEvent n ρ → Prop
  | .call c => s.Arrives c → (Server.handle unpack s.replica c).isOk →
      ∀ id ∈ addressees unpack s.replica c, (s.peerTrans id).isSome
  | .accept => True
  | .close _ => True
  | .connected _ _ => True
  | .getGuidance _ => True

instance (s : Server n ρ) : DecidablePred (AddresseesConnected unpack s)
  | .call _ => inferInstanceAs (Decidable (_ → _ → ∀ id ∈ _, _))
  | .accept => isTrue trivial
  | .close _ => isTrue trivial
  | .connected _ _ => isTrue trivial
  | .getGuidance _ => isTrue trivial

/-- INTERNAL: a fresh replica. SOURCE: core/morphling.cpp:9-36 -/
theorem Ready.new (id : ℕ) (peers : List ℕ) (hp : peers.length = n) :
    Ready (Morphling.new id peers hp : Morphling n τ) where
  noMsgs := rfl
  noEntries := rfl
  own := fun _ => ⟨rfl, rfl⟩

/-- INTERNAL: **what a callback does to the server**, when it returns: the replica handles
the message, and what it has queued is sent. SOURCE: app/server.cpp:158-229 -/
theorem serverCall_cases {s s' : Server n ρ} {c : ServerCall n} {os : List (ServerOutput n ρ)}
    (h : Server.step unpack s (.call c) = .ok (s', os)) :
    (¬ s.Arrives c ∧ s' = s ∧ os = []) ∨
    (s.Arrives c ∧ ∃ (m : Morphling n ℕ) (effects : List (Effect n ℕ))
        (sent : List (ρ × GenericMessage n)),
      Server.handle unpack s.replica c = .ok (m, effects) ∧
      s' = { s with replica := { m with nextMsgs := [] } } ∧
      os = effects.map .effect ++ sent.map fun p => .sent p.1 p.2) := by
  by_cases harrives : s.Arrives c
  · simp only [Server.step, if_pos harrives] at h
    obtain ⟨⟨m, effects⟩, hhandle, h⟩ := bind_eq_ok.mp h
    obtain ⟨⟨s₁, sent⟩, hfinish, h⟩ := bind_eq_ok.mp h
    cases h
    obtain ⟨⟨m₁, sent₁⟩, hbcast, hfinish⟩ := bind_eq_ok.mp hfinish
    cases hfinish
    obtain ⟨others, -, hbcast⟩ := bind_eq_ok.mp hbcast
    cases hbcast
    exact .inr ⟨harrives, m, effects, _, hhandle, rfl, rfl⟩
  · simp only [Server.step, if_neg harrives] at h
    cases h
    exact .inl ⟨harrives, rfl, rfl⟩

/-- INTERNAL: each event leaves nothing behind. SOURCE: app/server.cpp:158-263 -/
theorem Ready.step {s s' : Server n ρ} {e : ServerEvent n ρ} {os : List (ServerOutput n ρ)}
    (hr : Ready s.replica) (h : Server.step unpack s e = .ok (s', os)) : Ready s'.replica := by
  cases e with
  | accept =>
    cases h
    exact hr
  | close conn =>
    cases h
    split
    · exact hr
    · exact hr
  | connected id tr =>
    cases h
    exact hr
  | getGuidance conn =>
    cases h
    exact hr
  | call c =>
    rcases serverCall_cases h with ⟨-, rfl, -⟩ | ⟨-, m, effects, sent, hhandle, rfl, -⟩
    · exact hr
    · exact (hr.handle hhandle).2

/-- INTERNAL: at each event the two conditions are the same.
SOURCE: core/morphling.cpp:206-231 -/
theorem Ready.broadcasts_iff {s : Server n ρ} (hr : Ready s.replica) (e : ServerEvent n ρ) :
    Broadcasts unpack s e ↔ AddresseesConnected unpack s e := by
  cases e with
  | call c =>
    apply imp_congr_right
    intro _
    have hsome : (∀ id ∈ addressees unpack s.replica c, (s.peerTrans id).isSome) ↔
        ∀ id ∈ addressees unpack s.replica c, s.peerTrans id ≠ none := by
      simp only [← Option.isSome_iff_ne_none]
    rw [hsome]
    constructor
    · intro h hok
      cases hhandle : Server.handle unpack s.replica c with
      | error fault =>
        rw [hhandle] at hok
        cases hok
      | ok r =>
        exact ((hr.handle hhandle).1.delivers_iff s.peerTrans).mp (h r.1 r.2 hhandle)
    · intro h m effects hhandle
      exact ((hr.handle hhandle).1.delivers_iff s.peerTrans).mpr (h (by rw [hhandle]; rfl))
  | accept => exact Iff.rfl
  | close conn => exact Iff.rfl
  | connected id tr => exact Iff.rfl
  | getGuidance conn => exact Iff.rfl

/-- **Broadcasting is done as meant exactly as long as all addressees are connected.**  For
every order of connections of peers and clients, clients' messages and peers' messages at a
server: every callback sends each queued message whose addressee is connected, once and in
order, never through an absent transport, and leaves the queue empty, if and only if at every
callback everybody that a message is queued for is connected: all other peers for an
operation that is replicated, the sender for a message with entries or for an acknowledgement
of another epoch. SOURCE: core/morphling.cpp:103-155, 206-231; app/server.cpp:158-263 -/
theorem broadcasts_iff_connected (unpack : Bytes → Option Operation) (ρ : Type) (id : ℕ)
    (peers : List ℕ) (hp : peers.length = n) (events : List (ServerEvent n ρ)) :
    Machine.Guarded (Server.step unpack) (Broadcasts unpack) (Server.new ρ id peers hp)
        events ↔
      Machine.Guarded (Server.step unpack) (AddresseesConnected unpack)
        (Server.new ρ id peers hp) events := by
  have hnew : Ready (Server.new ρ id peers hp).replica := Ready.new id peers hp
  constructor
  · apply Machine.guarded_of_invariant (Server.step unpack) (J := fun s => Ready s.replica)
      _ _ hnew
    · intro s e hr h
      exact (hr.broadcasts_iff e).mp h
    · intro s e s' os hr _ h
      exact hr.step h
  · apply Machine.guarded_of_invariant (Server.step unpack) (J := fun s => Ready s.replica)
      _ _ hnew
    · intro s e hr h
      exact (hr.broadcasts_iff e).mpr h
    · intro s e s' os hr _ h
      exact hr.step h

/-- Both peers are connected when a client's write comes, and then an entry of one of them and
an acknowledgement of another epoch of the other. -/
theorem broadcasts_when_connected :
    Machine.Guarded (Server.step unpackShort) (Broadcasts unpackShort)
      (Server.new ℕ 0 [0, 1, 2] rfl : Server 3 ℕ)
      [.connected 1 10, .connected 2 20, .accept,
        .call (.client 0 ⟨1, 0x0100, [0x93, 1, 0xcd, 1, 0, 0xc4, 1, 7]⟩),
        .call (.peer (.append ⟨1, 1, 0, 0, 0, 2, [⟨1, 1, [7]⟩]⟩ 0)),
        .call (.peer (.appendReply ⟨2, 9, true, 1, 1⟩ 0))] :=
  (broadcasts_iff_connected unpackShort ℕ 0 [0, 1, 2] rfl
    [.connected 1 10, .connected 2 20, .accept,
      .call (.client 0 ⟨1, 0x0100, [0x93, 1, 0xcd, 1, 0, 0xc4, 1, 7]⟩),
      .call (.peer (.append ⟨1, 1, 0, 0, 0, 2, [⟨1, 1, [7]⟩]⟩ 0)),
      .call (.peer (.appendReply ⟨2, 9, true, 1, 1⟩ 0))]).mpr (by decide +kernel)

/-- A client's write comes when peer 2 is connected and peer 1 is not: the first send is
through an absent transport, and nothing is sent to peer 2. -/
theorem write_before_connected :
    Machine.run (Server.step unpackShort) (Server.new ℕ 0 [0, 1, 2] rfl : Server 3 ℕ)
        [.connected 2 20, .accept,
          .call (.client 0 ⟨1, 0x0100, [0x93, 1, 0xcd, 1, 0, 0xc4, 1, 7]⟩)] =
      .error .nullTransport ∧
    ¬ Machine.Guarded (Server.step unpackShort) (Broadcasts unpackShort)
        (Server.new ℕ 0 [0, 1, 2] rfl : Server 3 ℕ)
        [.connected 2 20, .accept,
          .call (.client 0 ⟨1, 0x0100, [0x93, 1, 0xcd, 1, 0, 0xc4, 1, 7]⟩)] := by
  refine ⟨rfl, ?_⟩
  intro h
  have hdelivers := ((h.2 _ _ rfl).2 _ _ rfl).1 (by decide) _ _ rfl
  cases hdelivers

end MorphlingC.Analysis
