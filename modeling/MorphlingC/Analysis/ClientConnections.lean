import MorphlingC.Analysis.Broadcasts
import MorphlingC.Analysis.ReplyRouting

/-!
# Replies to clients that have gone

`event_cb` frees the bufferevent of a client that has gone, and `m_client_pendings` keeps the
transport that refers to it.  When an operation of that client is committed afterwards, the
reply is sent on a connection that has been closed.

As long as no client goes that waits for an operation of its own to be committed, and no
operation takes an index that is still awaited, every entry that an acknowledgement commits
is applied, and all replies go to the clients that asked, on open connections.  Whose
operation an entry is, is read off the server's outputs so far, not off `m_client_pendings`.
The invariant `Hosted` says that the clients of all entries not yet committed are there.
-/

set_option autoImplicit false

namespace MorphlingC.Analysis

open MorphlingC.Library MorphlingC.Model MorphlingC.Interface MorphlingC.Model.Morphling

variable {n : ℕ} {ρ : Type} {unpack : Bytes → Option Operation}

/-! ## What is meant -/

/-- The effects at the replica among the outputs of its server. -/
def effectsOf (os : List (ServerOutput n ρ)) : List (Effect n ℕ) :=
  os.filterMap fun
    | .effect e => some e
    | .sent _ _ => none

@[simp] theorem effectsOf_append (os os' : List (ServerOutput n ρ)) :
    effectsOf (os ++ os') = effectsOf os ++ effectsOf os' := List.filterMap_append

@[simp] theorem effectsOf_effects (effects : List (Effect n ℕ)) :
    effectsOf (effects.map .effect : List (ServerOutput n ρ)) = effects := by
  rw [effectsOf, List.filterMap_map]
  exact List.filterMap_some

@[simp] theorem effectsOf_sent (sent : List (ρ × GenericMessage n)) :
    effectsOf (sent.map fun p => (.sent p.1 p.2 : ServerOutput n ρ)) = [] := by
  rw [effectsOf, List.filterMap_map, List.filterMap_eq_nil_iff]
  exact fun _ _ => rfl

/-- The replies that are meant to be sent for queued entries, of which each is in a group:
one for each entry whose client, the one whose operation became it, is still connected, in
order. -/
def openAnswers (s : Server n ρ) (h : List (Effect n ℕ)) (queue : List (ℕ × Entry)) :
    List (Entry × ℕ) :=
  queue.filterMap fun q =>
    ((creator h q.1 q.2.index).filter fun conn => decide (s.IsOpen conn)).map fun conn =>
      (q.2, conn)

/-- `maybe_apply` applies what has been queued, and replies to the clients still connected. -/
def AppliesOpen (unpack : Bytes → Option Operation) (s : Server n ρ) (h : List (Effect n ℕ))
    (m : Morphling n ℕ) (queue : List (ℕ × Entry)) : Prop :=
  ∃ m' outs, m.maybeApply unpack = .ok (m', outs) ∧
    m'.storage = applyWrites m.storage (writesOf unpack (queue.map Prod.snd)) ∧
    answers outs = openAnswers s h queue

/-- Whenever an acknowledgement has been handled, `maybe_apply` does that. -/
def RepliesOpen (unpack : Bytes → Option Operation)
    (p : Server n ρ × List (ServerOutput n ρ)) : ServerEvent n ρ → Prop
  | .call (.peer (.appendReply msg _)) => ∀ m queued,
      p.1.replica.handleAppendEntriesReply msg msg.fromId = .ok (m, queued) →
        AppliesOpen unpack p.1 (effectsOf p.2) m (queuedEntries queued)
  | .call (.peer (.append _ _)) => True
  | .call (.peer (.guidance _ _)) => True
  | .call (.client _ _) => True
  | .accept => True
  | .close _ => True
  | .connected _ _ => True
  | .getGuidance _ => True

/-- An operation of the client at the connection is not committed yet. -/
def WaitsOn (h : List (Effect n ℕ)) (m : Morphling n ℕ) (conn : ℕ) : Prop :=
  ∃ gid : Fin defaultKeySpace, ∃ i ≤ (m.smrs gid).log.lastIndex,
    (m.smrs gid).log.currCommit < i ∧ creator h gid i = some conn

instance (h : List (Effect n ℕ)) (m : Morphling n ℕ) (conn : ℕ) :
    Decidable (WaitsOn h m conn) :=
  inferInstanceAs (Decidable (∃ _, ∃ _ ≤ _, _ ∧ _))

/-- No connection closes whose client waits for an operation of its own to be committed, and
no operation is given an index that is still awaited.  Entries come from clients only:
messages with entries of the server's epoch are not among the events. -/
def ClosesIdle (unpack : Bytes → Option Operation) (p : Server n ρ × List (ServerOutput n ρ)) :
    ServerEvent n ρ → Prop
  | .close conn => ¬ WaitsOn (effectsOf p.2) p.1.replica conn
  | .call (.client conn msg) =>
    p.1.IsOpen conn → TakesFreeIndex unpack p.1.replica (.operation msg conn)
  | .call (.peer (.append msg _)) => ¬ p.1.replica.isValidGuidance msg.epoch
  | .call (.peer (.appendReply _ _)) => True
  | .call (.peer (.guidance _ _)) => True
  | .accept => True
  | .connected _ _ => True
  | .getGuidance _ => True

instance (p : Server n ρ × List (ServerOutput n ρ)) : DecidablePred (ClosesIdle unpack p)
  | .close _ => inferInstanceAs (Decidable (¬ _))
  | .call (.client _ _) => inferInstanceAs (Decidable (_ → _))
  | .call (.peer (.append _ _)) => inferInstanceAs (Decidable (¬ _))
  | .call (.peer (.appendReply _ _)) => isTrue trivial
  | .call (.peer (.guidance _ _)) => isTrue trivial
  | .accept => isTrue trivial
  | .connected _ _ => isTrue trivial
  | .getGuidance _ => isTrue trivial

/-! ## The invariant -/

/-- The clients of the entries not yet committed wait under the indices of their entries, and
are connected; and all entries decode. -/
structure Hosted (unpack : Bytes → Option Operation) (s : Server n ρ) (h : List (Effect n ℕ)) :
    Prop where
  ready : Ready s.replica
  waiting : Waiting s.replica h
  connected : ∀ conn, WaitsOn h s.replica conn → s.IsOpen conn
  decodes : ∀ gid, ∀ e ∈ (s.replica.smrs gid).log.log, ∃ op, unpack e.data = some op

/-- INTERNAL: a fresh server. SOURCE: app/server.cpp:138-147 -/
theorem Hosted.new (unpack : Bytes → Option Operation) (ρ : Type) (id : ℕ) (peers : List ℕ)
    (hp : peers.length = n) : Hosted unpack (Server.new ρ id peers hp) [] where
  ready := Ready.new id peers hp
  waiting := Waiting.init id peers hp
  connected := by
    rintro conn ⟨gid, i, -, -, hconn⟩
    cases hconn
  decodes := by
    intro gid e he
    cases he

/-- INTERNAL: a client that waits after a part of a run that creates nothing, keeps the logs
and lets no commit index go down, has waited before. -/
theorem WaitsOn.of_quiet {h h' : List (Effect n ℕ)} {m m' : Morphling n ℕ} {conn : ℕ}
    (hcreated : createdOps h' = [])
    (hgroups : ∀ g, (m'.smrs g).log.log = (m.smrs g).log.log ∧
      (m.smrs g).log.commits ≤ (m'.smrs g).log.commits)
    (hw : WaitsOn (h ++ h') m' conn) : WaitsOn h m conn := by
  obtain ⟨gid, i, hle, hlt, hconn⟩ := hw
  rw [SMRLog.lastIndex_eq, (hgroups gid).1] at hle
  rw [creator_append_of_quiet hcreated] at hconn
  exact ⟨gid, i, by rwa [SMRLog.lastIndex_eq], (hgroups gid).2.trans_lt hlt, hconn⟩

/-- INTERNAL: an event that creates nothing, keeps the logs, lets no commit index go down and
closes no connection on which a client waits. -/
theorem Hosted.quiet {s s' : Server n ρ} {h h' : List (Effect n ℕ)} (hs : Hosted unpack s h)
    (hready : Ready s'.replica) (hwaiting : Waiting s'.replica (h ++ h'))
    (hcreated : createdOps h' = [])
    (hgroups : ∀ g, (s'.replica.smrs g).log.log = (s.replica.smrs g).log.log ∧
      (s.replica.smrs g).log.commits ≤ (s'.replica.smrs g).log.commits)
    (hopen : ∀ conn, WaitsOn h s.replica conn → s.IsOpen conn → s'.IsOpen conn) :
    Hosted unpack s' (h ++ h') where
  ready := hready
  waiting := hwaiting
  connected := by
    intro conn hw
    have hbefore := hw.of_quiet hcreated hgroups
    exact hopen conn hbefore (hs.connected conn hbefore)
  decodes := by
    intro gid e he
    rw [(hgroups gid).1] at he
    exact hs.decodes gid e he

/-- INTERNAL: an event that creates nothing, leaves the groups alone and closes no connection. -/
theorem Hosted.still {s s' : Server n ρ} {h h' : List (Effect n ℕ)} (hs : Hosted unpack s h)
    (hready : Ready s'.replica) (hwaiting : Waiting s'.replica (h ++ h'))
    (hcreated : createdOps h' = []) (hsmrs : s'.replica.smrs = s.replica.smrs)
    (hopen : ∀ conn, s.IsOpen conn → s'.IsOpen conn) : Hosted unpack s' (h ++ h') := by
  refine hs.quiet hready hwaiting hcreated (fun g => ?_) fun conn _ => hopen conn
  rw [hsmrs]
  exact ⟨rfl, le_rfl⟩

/-- INTERNAL: **an operation becomes an entry**, and its client waits at an open connection.
SOURCE: core/morphling.cpp:103-126 -/
theorem Hosted.create {s : Server n ρ} {h : List (Effect n ℕ)} (hs : Hosted unpack s h)
    {msg : ClientMessage} {op : Operation} {gid : Fin defaultKeySpace} {smr : SMR}
    {cbs : List Callback} {idx conn : ℕ} (hop : unpack msg.op = some op)
    (hcall : (s.replica.smrs gid).handleOperation msg = .ok (smr, cbs, idx))
    (hconn : s.IsOpen conn) {m : Morphling n ℕ} (hready : Ready m)
    (hwaiting : Waiting m (h ++ [.created gid idx conn]))
    (hsmrs : m.smrs = Function.update s.replica.smrs gid smr) :
    Hosted unpack { s with replica := m } (h ++ [.created gid idx conn]) := by
  obtain ⟨-, hlog, -⟩ := handleOperation_ok hcall
  constructor
  · exact hready
  · exact hwaiting
  · rintro c ⟨g, i, hle, hlt, hc⟩
    show s.IsOpen c
    rw [creator_append_created] at hc
    by_cases hnew : gid.val = g.val ∧ idx = i
    · -- the entry is the new one, unless its place had been given before
      rw [if_pos hnew] at hc
      rcases Option.or_eq_some_iff.mp hc with hold | ⟨-, hone⟩
      · have hsome : (creator h gid idx).isSome := by
          rw [hnew.1, hnew.2, hold]
          rfl
        have hidx := (handleOperation_ok hcall).1
        have := hs.waiting.created gid idx hsome
        omega
      · cases hone
        exact hconn
    · rw [if_neg hnew, Option.or_none] at hc
      have hlt' : (Function.update s.replica.smrs gid smr g).log.commits < i := by
        rw [← hsmrs]
        exact hlt
      have hle' : i ≤ (Function.update s.replica.smrs gid smr g).log.log.length := by
        rw [← hsmrs, ← SMRLog.lastIndex_eq]
        exact hle
      rcases uncommitted_of_operation hcall hlt' hle' with ⟨rfl, rfl⟩ | ⟨hlt, hle⟩
      · exact absurd ⟨rfl, rfl⟩ hnew
      · exact hs.connected c ⟨g, i, by rwa [SMRLog.lastIndex_eq], hlt, hc⟩
  · intro g e (he : e ∈ (m.smrs g).log.log)
    rw [hsmrs] at he
    by_cases hg : g = gid
    · subst hg
      rw [Function.update_self, hlog] at he
      rcases List.mem_append.mp he with he | he
      · exact hs.decodes g e he
      · rw [List.mem_singleton] at he
        subst he
        exact ⟨op, hop⟩
    · rw [Function.update_of_ne hg] at he
      exact hs.decodes g e he

/-- INTERNAL: who waits does not depend on the messages that are queued to be sent. -/
theorem Waiting.congr {m m' : Morphling n ℕ} {h : List (Effect n ℕ)} (hw : Waiting m h)
    (hsmrs : m'.smrs = m.smrs) (hqueue : m'.applyEntries = m.applyEntries)
    (hpend : m'.clientPendings = m.clientPendings) : Waiting m' h := by
  rw [← List.append_nil h]
  exact hw.quiet hsmrs hqueue hpend rfl rfl rfl

/-- INTERNAL: sending what is queued keeps who waits. SOURCE: core/morphling.cpp:206-231 -/
theorem Waiting.sent {m : Morphling n ℕ} {h : List (Effect n ℕ)} (hw : Waiting m h) :
    Waiting { m with nextMsgs := [] } h :=
  hw.congr rfl rfl rfl

/-- INTERNAL: **a callback that returns keeps the invariant**, when it meets the guard.
SOURCE: app/server.cpp:158-229 -/
theorem Hosted.call {s : Server n ρ} {os : List (ServerOutput n ρ)}
    (hs : Hosted unpack s (effectsOf os)) {c : ServerCall n} (harrives : s.Arrives c)
    (hidle : ClosesIdle unpack (s, os) (.call c)) {m : Morphling n ℕ}
    {effects : List (Effect n ℕ)} (hhandle : Server.handle unpack s.replica c = .ok (m, effects))
    (hready : Ready { m with nextMsgs := [] }) :
    Hosted unpack { s with replica := { m with nextMsgs := [] } } (effectsOf os ++ effects) := by
  cases c with
  | client conn msg =>
    have hstep : Morphling.step unpack s.replica (.operation msg conn) = .ok (m, effects) := hhandle
    have hwaiting := (hs.waiting.step (hidle harrives) hstep).sent
    rcases handleOperation_cases hhandle with ⟨-, rfl, rfl⟩ | ⟨-, op, hop, hcase⟩
    · exact hs.still hready hwaiting rfl rfl fun _ hopen => hopen
    · rcases hcase with ⟨-, rfl, rfl⟩ | ⟨-, smr, cbs, idx, hcall, rfl, rfl⟩
      · exact hs.still hready hwaiting rfl rfl fun _ hopen => hopen
      · exact hs.create hop hcall harrives hready hwaiting rfl
  | peer p =>
    cases p with
    | append msg dst =>
      rcases handleAppend_cases hhandle with ⟨-, rfl, rfl⟩ | ⟨hepoch, -⟩
      · have hwaiting : Waiting (s.replica.replyGuidance msg.fromId) (effectsOf os ++ []) := by
          rw [List.append_nil]
          exact hs.waiting.congr rfl rfl rfl
        exact hs.still hready hwaiting.sent rfl rfl fun _ hopen => hopen
      · exact absurd (by simp [isValidGuidance, hepoch]) hidle
    | appendReply msg dst =>
      obtain ⟨⟨m₁, queued⟩, hack, hhandle⟩ := bind_eq_ok.mp hhandle
      obtain ⟨⟨m₂, outs⟩, happly, hhandle⟩ := bind_eq_ok.mp hhandle
      cases hhandle
      have hstep : Morphling.step unpack s.replica (.ack msg msg.fromId) = .ok (m₁, queued) := hack
      have hfree : TakesFreeIndex unpack s.replica (.ack msg msg.fromId) := trivial
      have hwaiting := ((hs.waiting.step hfree hstep).apply happly).sent
      rw [List.append_assoc] at hwaiting
      obtain ⟨rfl, -, hnone, -⟩ := maybeApply_ok happly
      rcases handleAck_cases hack with ⟨-, rfl, rfl⟩ | ⟨-, gid, smr, cbs, -, hcall, rfl, rfl⟩
      · exact hs.still hready hwaiting hnone rfl fun _ hopen => hopen
      · have hquiet := (effects_quiet (n := n) (τ := ℕ) gid cbs).1
        refine hs.quiet hready hwaiting ?_ (groups_of_ack hcall) fun _ _ hopen => hopen
        rw [createdOps_append, hquiet, hnone, List.append_nil]
    | guidance msg dst =>
      cases hhandle
      have hwaiting := hs.waiting.sent
      rw [← List.append_nil (effectsOf os)] at hwaiting
      exact hs.still hready hwaiting rfl rfl fun _ hopen => hopen

/-- INTERNAL: **each event that meets the guard keeps the invariant.**
SOURCE: app/server.cpp:158-246 -/
theorem Hosted.step {s s' : Server n ρ} {e : ServerEvent n ρ} {os o : List (ServerOutput n ρ)}
    (hs : Hosted unpack s (effectsOf os)) (hidle : ClosesIdle unpack (s, os) e)
    (hstep : Server.step unpack s e = .ok (s', o)) : Hosted unpack s' (effectsOf (os ++ o)) := by
  have hready := hs.ready.step hstep
  rw [effectsOf_append]
  have hsame : Waiting s.replica (effectsOf os ++ []) := by
    rw [List.append_nil]
    exact hs.waiting
  cases e with
  | accept =>
    cases hstep
    exact hs.still hready hsame rfl rfl fun _ hopen =>
      ⟨hopen.1.trans (Nat.lt_succ_self _), hopen.2⟩
  | close conn =>
    cases hstep
    split
    · refine hs.quiet hs.ready hsame rfl (fun _ => ⟨rfl, le_rfl⟩) ?_
      intro c hwaits hopen
      refine ⟨hopen.1, ?_⟩
      intro hfreed
      rcases List.mem_cons.mp hfreed with rfl | hfreed
      · exact hidle hwaits
      · exact hopen.2 hfreed
    · exact hs.still hs.ready hsame rfl rfl fun _ hopen => hopen
  | connected id tr =>
    cases hstep
    exact hs.still hready hsame rfl rfl fun _ hopen => hopen
  | getGuidance conn =>
    cases hstep
    split
    · exact hs.still hs.ready (hs.waiting.quiet rfl rfl rfl rfl rfl rfl) rfl rfl
        fun _ hopen => hopen
    · exact hs.still hs.ready hsame rfl rfl fun _ hopen => hopen
  | call c =>
    rcases serverCall_cases hstep with
      ⟨-, rfl, rfl⟩ | ⟨harrives, m, effects, sent, hhandle, rfl, rfl⟩
    · exact hs.still hready hsame rfl rfl fun _ hopen => hopen
    · rw [effectsOf_append, effectsOf_effects, effectsOf_sent, List.append_nil]
      exact hs.call harrives hidle hhandle hready

/-! ## Applying -/

/-- INTERNAL: if the clients whose operations became the entries of the queue wait under the
entries' indices and are connected, and the entries decode, all entries are applied and
answered. SOURCE: core/morphling.cpp:186-204 -/
theorem appliesOpen_of_connected {s : Server n ρ} {h : List (Effect n ℕ)} {m : Morphling n ℕ}
    {queue : List (ℕ × Entry)} (hqueue : queue.map Prod.snd = m.applyEntries)
    (hq : ∀ q ∈ queue, (∃ op, unpack q.2.data = some op) ∧
      ∃ conn, creator h q.1 q.2.index = some conn ∧ m.clientPendings q.2.index = some conn ∧
        s.IsOpen conn) :
    AppliesOpen unpack s h m queue := by
  have hready : ∀ e ∈ m.applyEntries,
      (∃ op, unpack e.data = some op) ∧ m.clientPendings e.index ≠ none := by
    intro e he
    rw [← hqueue] at he
    obtain ⟨q, hmem, rfl⟩ := List.mem_map.mp he
    obtain ⟨hdecodes, conn, -, hconn, -⟩ := hq q hmem
    refine ⟨hdecodes, ?_⟩
    rw [hconn]
    exact Option.some_ne_none conn
  obtain ⟨outs, happly, -⟩ := maybeApply_total hready
  obtain ⟨-, hanswers, -⟩ := maybeApply_ok happly
  refine ⟨_, outs, happly, by rw [hqueue], ?_⟩
  -- every answer goes to the creator, whose connection is open
  have hmeant : (openAnswers s h queue).map (fun a => (a.1, some a.2)) =
      queue.map fun q => (q.2, m.clientPendings q.2.index) := by
    unfold openAnswers
    rw [List.map_filterMap, ← List.filterMap_eq_map]
    apply List.filterMap_congr
    intro q hmem
    obtain ⟨-, conn, hcreator, hconn, hopen⟩ := hq q hmem
    simp [hcreator, hconn, hopen]
  have hinj : Function.Injective fun a : Entry × ℕ => (a.1, some a.2) := by
    rintro ⟨e, c⟩ ⟨e', c'⟩ heq
    rw [Prod.mk.injEq, Option.some.injEq] at heq
    exact Prod.ext heq.1 heq.2
  apply List.map_injective_iff.mpr hinj
  rw [hanswers, hmeant, ← hqueue, List.map_map]
  rfl

/-- INTERNAL: **after an acknowledgement** the clients of the queued entries are connected.
SOURCE: core/morphling.cpp:139-147 -/
theorem Hosted.repliesOpen {s : Server n ρ} {os : List (ServerOutput n ρ)}
    (hs : Hosted unpack s (effectsOf os)) (e : ServerEvent n ρ) :
    RepliesOpen unpack (s, os) e := by
  cases e with
  | accept => trivial
  | close conn => trivial
  | connected id tr => trivial
  | getGuidance conn => trivial
  | call c =>
    cases c with
    | client conn msg => trivial
    | peer p =>
      cases p with
      | append msg dst => trivial
      | guidance msg dst => trivial
      | appendReply msg dst =>
        intro m queued hack
        rcases handleAck_cases hack with ⟨-, rfl, rfl⟩ | ⟨-, gid, smr, cbs, -, hcall, rfl, rfl⟩
        · exact appliesOpen_of_connected hs.ready.noEntries.symm
            fun _ hq => absurd hq List.not_mem_nil
        · obtain ⟨-, -, -, hpart⟩ := handleReply_applied hcall
          rw [queuedEntries_effects]
          refine appliesOpen_of_connected ?_ ?_
          · simp only [afterCall, hs.ready.noEntries, List.nil_append, List.map_map,
              Function.comp_def, List.map_id']
          · intro q hq
            obtain ⟨e, he, rfl⟩ := List.mem_map.mp hq
            rw [hpart] at he
            obtain ⟨hlt, -, hle⟩ := SMRLog.index_of_mem_part _ he
            obtain ⟨hsome, hpend⟩ := hs.waiting.uncommitted gid e.index hlt hle
            obtain ⟨conn, hconn⟩ := Option.isSome_iff_exists.mp hsome
            have hwaits : WaitsOn (effectsOf os) s.replica conn :=
              ⟨gid, e.index, by rwa [SMRLog.lastIndex_eq], hlt, hconn⟩
            exact ⟨hs.decodes gid e (List.mem_of_mem_take (List.mem_of_mem_drop he)), conn, hconn,
              hpend.trans hconn, hs.connected conn hwaits⟩

/-- **Replies go to open connections as long as nobody goes who waits for one.**  For every
order of clients' connections opening and closing, clients' messages, acknowledgements and
connections to peers: if no connection closes whose client waits for an operation of its own
to be committed, and no operation is given an index that is still awaited, then after every
acknowledgement `maybe_apply` applies every entry of the queue and sends the replies, one for
each entry and in order, each to the client whose operation became the entry and on an open
connection. SOURCE: app/server.cpp:158-246; core/morphling.cpp:103-147, 186-204 -/
theorem replies_open_of_idle (unpack : Bytes → Option Operation) (ρ : Type) (id : ℕ)
    (peers : List ℕ) (hp : peers.length = n) (events : List (ServerEvent n ρ))
    (hidle : Machine.Guarded (Machine.recorded (Server.step unpack)) (ClosesIdle unpack)
      (Server.new ρ id peers hp, []) events) :
    Machine.Guarded (Machine.recorded (Server.step unpack)) (RepliesOpen unpack)
      (Server.new ρ id peers hp, []) events := by
  apply Machine.guarded_of_invariant (Machine.recorded (Server.step unpack))
    (J := fun p => Hosted unpack p.1 (effectsOf p.2)) _ _ (Hosted.new unpack ρ id peers hp) hidle
  · intro p e hs _
    exact hs.repliesOpen e
  · intro p e p' o hs hclose hstep
    obtain ⟨hstep, hos⟩ := (Machine.recorded_ok _).mp hstep
    rw [hos]
    exact hs.step hclose hstep

/-- A client has its reply and goes. -/
theorem replies_open_in_turn :
    Machine.Guarded (Machine.recorded (Server.step unpackShort)) (RepliesOpen unpackShort)
      ((Server.new ℕ 0 [0, 1, 2] rfl : Server 3 ℕ), [])
      [.connected 1 10, .connected 2 20, .accept,
        .call (.client 0 ⟨1, 0x0100, [0x93, 1, 0xcd, 1, 0, 0xc4, 1, 7]⟩),
        .call (.peer (.appendReply ⟨1, 1, true, 1, 1⟩ 0)), .close 0] :=
  replies_open_of_idle unpackShort ℕ 0 [0, 1, 2] rfl
    [.connected 1 10, .connected 2 20, .accept,
      .call (.client 0 ⟨1, 0x0100, [0x93, 1, 0xcd, 1, 0, 0xc4, 1, 7]⟩),
      .call (.peer (.appendReply ⟨1, 1, true, 1, 1⟩ 0)), .close 0] (by decide +kernel)

/-- A client goes before its write is committed: the acknowledgement that commits the write
has the reply sent on the connection that has been closed. -/
theorem reply_after_close :
    ∃ (s s' : Server 3 ℕ) (os os' : List (ServerOutput 3 ℕ)) (m m' : Morphling 3 ℕ)
        (queued outs : List (Effect 3 ℕ)),
      Machine.run (Server.step unpackShort) (Server.new ℕ 0 [0, 1, 2] rfl)
        [.connected 1 10, .connected 2 20, .accept,
          .call (.client 0 ⟨1, 0x0100, [0x93, 1, 0xcd, 1, 0, 0xc4, 1, 7]⟩), .close 0] =
            .ok (s, os) ∧
      ¬ s.IsOpen 0 ∧
      s.replica.handleAppendEntriesReply ⟨1, 1, true, 1, 1⟩ 1 = .ok (m, queued) ∧
      m.maybeApply unpackShort = .ok (m', outs) ∧
      answers outs = [(⟨1, 1, [0x93, 1, 0xcd, 1, 0, 0xc4, 1, 7]⟩, 0)] ∧
      Server.step unpackShort s (.call (.peer (.appendReply ⟨1, 1, true, 1, 1⟩ 0))) =
        .ok (s', os') ∧
      ¬ RepliesOpen unpackShort (s, os) (.call (.peer (.appendReply ⟨1, 1, true, 1, 1⟩ 0))) := by
  refine ⟨_, _, _, _, _, _, _, _, rfl, by decide, rfl, rfl, rfl, rfl, ?_⟩
  intro h
  obtain ⟨m', outs, happly, -, hanswers⟩ := h _ _ rfl
  cases happly
  cases hanswers

end MorphlingC.Analysis
