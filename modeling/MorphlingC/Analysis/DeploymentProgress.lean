import MorphlingC.Analysis.DeploymentCounts

/-!
# No client waits in vain

A client that is set up, or that reads, needs the guidance of every replica.  From each of them
it has it, or it is on its way, or it has been asked for and the request is on its way
(`Promised`).  So when nothing is on its way any more, no client waits: a thread that is set up
can go on to send, and every client of a thread that sends is idle (`Promised.idle`).
-/

set_option autoImplicit false

namespace MorphlingC.Analysis

open MorphlingC.Library MorphlingC.Model MorphlingC.Interface MorphlingC.Model.Client
  MorphlingC.Model.Deployment

variable {n : ℕ} {κ θ π : Type} {unpack : Bytes → Option Operation}

/-! ## A collection that is full -/

section Clients

variable {c : Client n} {cfg : ProcessConfig}

/-- INTERNAL: the last check of a round. SOURCE: app/client2.cpp:225-254 -/
theorem checkGuidanceQuorum_of_filled (hn : 0 < n)
    (hleading : c.leadingGuidance = Guidance.initLocalGuidance {})
    (h : ∀ i, c.oneTurnCollection i = Guidance.initLocalGuidance {}) :
    c.checkGuidanceQuorum = true := by
  obtain ⟨hlast, hvotes⟩ := votes_of_filled hn h
  have hepoch : c.leadingGuidance.epoch = 1 := by rw [hleading]; rfl
  have hquorum : n ≥ quorum n := by
    unfold quorum
    omega
  simp only [checkGuidanceQuorum, hepoch, hlast, hvotes, hquorum, one_ne_zero, if_false,
    lt_irrefl, if_true]

/-- INTERNAL: set-up of a client that has the guidance of every replica.
SOURCE: app/client2.cpp:255-266 -/
theorem hasUniformGuidance_of_filled (hn : 0 < n)
    (h : ∀ i, c.oneTurnCollection i = Guidance.initLocalGuidance {}) :
    c.hasUniformGuidance = true := by
  obtain ⟨m, rfl⟩ : ∃ m, n = m + 1 := ⟨n - 1, by omega⟩
  simp [hasUniformGuidance, epochs_of_filled h, List.replicate_succ]

/-- INTERNAL: **the guidance of a replica** is kept, unless it ends the round that the client
waits in. SOURCE: app/client2.cpp:433-441, 482-491 -/
theorem guidance_kept (cfg : ProcessConfig) (c : Client n) (id : Fin n) {msg : GuidanceMessage n}
    (hguide : msg.guide = Guidance.initLocalGuidance {}) :
    c.status = .waitingGuidance ∧ (c.handleAnswer cfg id (.guidance msg)).status = .idle ∨
      c.handleAnswer cfg id (.guidance msg) = c.setGuidance id (Guidance.initLocalGuidance {}) ∧
        (c.status = .waitingGuidance → cfg.unreplicatedRead = false →
          (c.setGuidance id (Guidance.initLocalGuidance {})).checkGuidanceQuorum = false) := by
  unfold handleAnswer
  split_ifs with hur
  · refine .inr ⟨by rw [handleUrReply, hguide], fun _ hnot => ?_⟩
    rw [hur] at hnot
    cases hnot
  · dsimp only [handleGuidance]
    rw [hguide]
    split_ifs with hwaiting hquorum
    · exact .inl ⟨hwaiting, rfl⟩
    · exact .inr ⟨rfl, fun _ _ => by simpa using hquorum⟩
    · exact .inr ⟨rfl, fun hw => absurd hw hwaiting⟩

/-- INTERNAL: **the reply that a client awaits**, when it does not end the round: its guidance is
kept. SOURCE: app/client2.cpp:441-456, 492-516 -/
theorem reply_kept (cfg : ProcessConfig) (c : Client n) (id : Fin n) {msg : ClientReplyMessage n}
    (hguide : msg.guidance = Guidance.initLocalGuidance {}) (hawait : awaiting c.status = true)
    (hur : cfg.unreplicatedRead = true → c.status ≠ .writing) :
    (c.handleAnswer cfg id (.reply msg)).status = .idle ∨
      cfg.unreplicatedRead = false ∧ c.status = .reading ∧ c.handleAnswer cfg id (.reply msg) =
        { c.setGuidance id (Guidance.initLocalGuidance {}) with status := .waitingGuidance } ∧
        (c.setGuidance id (Guidance.initLocalGuidance {})).checkGuidanceQuorum = false := by
  unfold handleAnswer
  split_ifs with hmode
  · have hreading : c.status = .reading := by
      have hne := hur hmode
      cases hstatus : c.status <;> simp_all [awaiting]
    rw [handleUrReply, if_pos hreading]
    exact .inl rfl
  · dsimp only [handleClientReply]
    rw [hguide]
    split_ifs with hreading hquorum hwriting
    · exact .inl rfl
    · exact .inr ⟨by simpa using hmode, hreading, rfl, by simpa using hquorum⟩
    · exact .inl rfl
    · simp [awaiting, hreading, hwriting] at hawait

end Clients

/-! ## Promises -/

/-- The server answers the request as soon as it reads it. -/
def Answered (unpack : Bytes → Option Operation) : Request → Prop
  | .operation msg => ∃ op, unpack msg.op = some op ∧ op.opType = 0
  | .getGuidance => True

/-- The client has the guidance of the replica, or something is on its way from there, or a
request that brings something. -/
def Promise (unpack : Bytes → Option Operation) (c : Client n) (toServer : Fin n → List Request)
    (toClient : Fin n → List (Answer n)) (id : Fin n) : Prop :=
  c.oneTurnCollection id = Guidance.initLocalGuidance {} ∨ toClient id ≠ [] ∨
    ∃ request ∈ toServer id, Answered unpack request

/-- **What a client waits for is promised**: before its thread sends, the guidance of every
replica that it is connected to; in a round of the guidance read, that of every replica; and the
round has not ended unnoticed. -/
structure Promised (unpack : Bytes → Option Operation) (cfg : ProcessConfig) (phase : Phase)
    (c : Client n) (connected : Fin n → Bool) (toServer : Fin n → List Request)
    (toClient : Fin n → List (Answer n)) : Prop where
  setup : phase = .setup → ∀ id, connected id = true → Promise unpack c toServer toClient id
  round : cfg.unreplicatedRead = false → c.status = .reading ∨ c.status = .waitingGuidance →
    ∀ id, Promise unpack c toServer toClient id
  unsure : c.status = .waitingGuidance →
    cfg.unreplicatedRead = false ∧ c.checkGuidanceQuorum = false

section Promises

variable {cfg : ProcessConfig} {phase : Phase} {c c' : Client n}
  {connected connected' : Fin n → Bool}
  {toServer toServer' : Fin n → List Request} {toClient toClient' : Fin n → List (Answer n)}

/-- INTERNAL: what is on its way may change as long as the promises are kept. -/
theorem Promised.grow (h : Promised unpack cfg phase c connected toServer toClient)
    (hkept : ∀ id, Promise unpack c toServer toClient id → Promise unpack c toServer' toClient' id)
    (hnew : ∀ id, connected' id = true →
      connected id = true ∨ Promise unpack c toServer' toClient' id) :
    Promised unpack cfg phase c connected' toServer' toClient' where
  setup := fun hphase id hconn => (hnew id hconn).elim
    (fun hold => hkept id (h.setup hphase id hold)) fun hpromise => hpromise
  round := fun hur hstatus id => hkept id (h.round hur hstatus id)
  unsure := h.unsure

/-- INTERNAL: reading what a replica has sent keeps the promise. -/
theorem Promise.read {id j : Fin n} (h : Promise unpack c toServer toClient j)
    (hother : ∀ i ≠ id, toClient' i = toClient i) (status : Status) :
    Promise unpack { c.setGuidance id (Guidance.initLocalGuidance {}) with status := status }
      toServer toClient' j := by
  by_cases hj : j = id
  · subst hj
    exact .inl (c.setGuidance_self j _)
  · rcases h with hfilled | hcoming | hasked
    · exact .inl ((c.setGuidance_of_ne hj _).trans hfilled)
    · exact .inr (.inl (by rwa [hother j hj]))
    · exact .inr (.inr hasked)

/-- INTERNAL: a client reads the guidance of a replica. SOURCE: app/client2.cpp:433-441, 482-491 -/
theorem Promised.guidance (h : Promised unpack cfg phase c connected toServer toClient)
    (hphase : PhaseOk phase c.status) (id : Fin n) {msg : GuidanceMessage n}
    (hguide : msg.guide = Guidance.initLocalGuidance {})
    (hother : ∀ i ≠ id, toClient' i = toClient i) :
    Promised unpack cfg phase (c.handleAnswer cfg id (.guidance msg)) connected toServer
      toClient' := by
  rcases guidance_kept cfg c id hguide with ⟨hwaiting, hidle⟩ | ⟨heq, hunsure⟩
  · refine ⟨fun hsetup => ?_, fun _ hstatus => ?_, fun hstatus => ?_⟩
    · rw [hsetup, hwaiting] at hphase
      rcases hphase with hs | hs <;> cases hs
    · rw [hidle] at hstatus
      rcases hstatus with hs | hs <;> cases hs
    · rw [hidle] at hstatus
      cases hstatus
  · rw [heq]
    refine ⟨fun hsetup j hconn => (h.setup hsetup j hconn).read hother c.status,
      fun hur hstatus j => (h.round hur hstatus j).read hother c.status, fun hstatus => ?_⟩
    exact ⟨(h.unsure hstatus).1, hunsure hstatus (h.unsure hstatus).1⟩

/-- INTERNAL: a client reads the reply that it awaits. SOURCE: app/client2.cpp:441-456, 492-516 -/
theorem Promised.reply (h : Promised unpack cfg phase c connected toServer toClient)
    (hphase : PhaseOk phase c.status) (id : Fin n) {msg : ClientReplyMessage n}
    (hguide : msg.guidance = Guidance.initLocalGuidance {}) (hawait : awaiting c.status = true)
    (hur : cfg.unreplicatedRead = true → c.status ≠ .writing)
    (hother : ∀ i ≠ id, toClient' i = toClient i) :
    Promised unpack cfg phase (c.handleAnswer cfg id (.reply msg)) connected toServer
      toClient' := by
  have hsending := hphase.of_awaiting hawait
  rcases reply_kept cfg c id hguide hawait hur with hidle | ⟨hmode, hreading, heq, hquorum⟩
  · refine ⟨fun hsetup => ?_, fun _ hstatus => ?_, fun hstatus => ?_⟩
    · rw [hsending] at hsetup
      cases hsetup
    · rw [hidle] at hstatus
      rcases hstatus with hs | hs <;> cases hs
    · rw [hidle] at hstatus
      cases hstatus
  · rw [heq]
    refine ⟨fun hsetup => ?_, fun hur _ j => (h.round hur (.inl hreading) j).read hother _,
      fun _ => ⟨hmode, hquorum⟩⟩
    rw [hsending] at hsetup
    cases hsetup

/-- INTERNAL: a client is set up. SOURCE: app/client2.cpp:553-568 -/
theorem Promised.setUp {phase' : Phase}
    (h : Promised unpack cfg phase c connected toServer toClient)
    (hphase : phase' = .setup → phase = .setup) :
    Promised unpack cfg phase'
      { c with leadingGuidance := Guidance.initLocalGuidance {}, status := .idle } connected
      toServer toClient where
  setup := fun hsetup => h.setup (hphase hsetup)
  round := fun _ hstatus => by rcases hstatus with hs | hs <;> cases hs
  unsure := fun hstatus => by cases hstatus

/-- INTERNAL: **a client sends**: of a read, the reply and the guidance of the others are
promised. SOURCE: app/client2.cpp:350-409 -/
theorem Promised.sent (hphase : phase = .sending) {o : Fin n}
    (hpack : unpack (messageOf cfg).op = some (operationOf cfg)) (c : Client n)
    (connected : Fin n → Bool) (toClient : Fin n → List (Answer n))
    (hsent : ∀ id, ∀ send ∈ (o, Request.operation (messageOf cfg)) ::
      (asked cfg o).map (fun id => (id, Request.getGuidance)), send.1 = id → send.2 ∈ toServer id)
    (sendMsgNums : ℕ) :
    Promised unpack cfg phase { c with sendMsgNums := sendMsgNums, status := sentStatus cfg }
      connected toServer toClient where
  setup := fun hsetup => by rw [hphase] at hsetup; cases hsetup
  round := by
    intro hur hstatus id
    have hread : cfg.isRead = true := by
      by_contra hwrite
      have hwriting : sentStatus cfg = .writing := by
        rw [sentStatus, if_neg (by simp [hur, hwrite])]
      dsimp only at hstatus
      rw [hwriting] at hstatus
      rcases hstatus with hs | hs <;> cases hs
    by_cases hid : id = o
    · subst hid
      refine .inr (.inr ⟨_, hsent id _ List.mem_cons_self rfl, _, hpack, ?_⟩)
      rw [operationOf, if_pos hread]
    · refine .inr (.inr ⟨.getGuidance, hsent id (id, .getGuidance) ?_ rfl, trivial⟩)
      refine List.mem_cons_of_mem _ (List.mem_map.mpr ⟨id, ?_, rfl⟩)
      simp [asked, hur, hread, hid]
  unsure := fun hstatus => by
    have hawaits := awaiting_sentStatus cfg
    rw [show sentStatus cfg = .waitingGuidance from hstatus] at hawaits
    cases hawaits

end Promises

/-! ## The promises over a run -/

section Steps

/-- What is promised to the clients. -/
def AllPromised (unpack : Bytes → Option Operation) (layout : Layout κ θ π)
    (cfg : π → ProcessConfig) (d : Deployment n κ θ π) : Prop :=
  ∀ k, Promised unpack (cfgOf layout cfg k) (d.phase (layout.threadOf k)) (d.clients k)
    (d.connected k) (d.toServer k) fun id => d.toClient id k

/-- INTERNAL: nothing is on its way before connections are made. -/
theorem AllPromised.init (unpack : Bytes → Option Operation) (layout : Layout κ θ π)
    (cfg : π → ProcessConfig) : AllPromised unpack layout cfg (Deployment.init n layout cfg) :=
  fun _ =>
    { setup := fun _ _ hconn => by cases hconn
      round := fun _ hstatus => by rcases hstatus with hs | hs <;> cases hs
      unsure := fun hstatus => by cases hstatus }

variable [DecidableEq κ]

/-- INTERNAL: what a client sends leaves the streams of the others as they are. -/
theorem post_of_ne {toServer : κ → Fin n → List Request} {k k' : κ} (hk : k' ≠ k)
    (sends : List (Fin n × Request)) : post toServer k sends k' = toServer k' := by
  funext j
  rw [post, if_neg hk]

/-- INTERNAL: what the servers send is added to what is on its way. -/
theorem deliver_ne_nil {toClient : Fin n → κ → List (Answer n)}
    (effects : List (Fin n × Effect n κ)) {i : Fin n} {k : κ} (h : toClient i k ≠ []) :
    deliver toClient effects i k ≠ [] := List.append_ne_nil_of_left_ne_nil h _

/-- INTERNAL: **a request that is answered is answered at once.** SOURCE: app/server.cpp:158-178;
core/morphling.cpp:103-126, 157-163 -/
theorem Answered.served {servers servers' : Linked n κ} {k : κ} {id : Fin n} {request : Request}
    {effects : List (Fin n × Effect n κ)} (h : Answered unpack request)
    (hstep : Linked.step unpack servers (Request.event k id request) = .ok (servers', effects))
    (toClient : Fin n → κ → List (Answer n)) : deliver toClient effects id k ≠ [] := by
  have hanswer : ∃ e, effects = [(id, e)] ∧ (e.answerTo k).isSome = true := by
    cases request with
    | getGuidance =>
      cases hstep
      exact ⟨_, rfl, by simp [Effect.answerTo]⟩
    | operation msg =>
      obtain ⟨op, hop, hread⟩ := h
      obtain ⟨⟨m, outs⟩, hhandle, hstep⟩ := bind_eq_ok.mp hstep
      obtain ⟨c, -, heq⟩ := bind_eq_ok.mp hstep
      cases heq
      rcases handleOperation_cases hhandle with
        ⟨-, -, rfl⟩ | ⟨-, op', hop', ⟨-, -, rfl⟩ | ⟨hwrite, -⟩⟩
      · exact ⟨_, rfl, by simp [Effect.answerTo]⟩
      · exact ⟨_, rfl, by simp [Effect.answerTo]⟩
      · obtain rfl : op = op' := Option.some.inj (hop.symm.trans hop')
        exact absurd hread hwrite
  obtain ⟨e, rfl, hsome⟩ := hanswer
  obtain ⟨answer, hanswer⟩ := Option.isSome_iff_exists.mp hsome
  refine List.append_ne_nil_of_right_ne_nil _ ?_
  simp [hanswer]

variable [DecidableEq θ] [DecidableEq π] {layout : Layout κ θ π} {cfg : π → ProcessConfig}
  {o : Fin n} {d d' : Deployment n κ θ π} {v : StoreService κ}
  {a : Atomic (ℕ → Bytes) κ Operation Bytes} {out : List (Action κ Operation Bytes)}

/-- INTERNAL: a connection is made. SOURCE: app/client2.cpp:460-473 -/
theorem AllPromised.connected (h : AllPromised unpack layout cfg d) {k : κ} {id : Fin n}
    (hstep : Deployment.step unpack layout cfg d (.connected k id) = .ok (d', out)) :
    AllPromised unpack layout cfg d' := by
  obtain ⟨-, ⟨-, rfl⟩ | ⟨-, rfl⟩⟩ := step_connected hstep
  · exact h
  · intro k'
    by_cases hk : k' = k
    · subst hk
      have hmem : ∀ j request, request ∈ d.toServer k' j →
          request ∈ post d.toServer k' [(id, .getGuidance)] k' j := by
        intro j request hmem
        rw [post, if_pos rfl]
        exact List.mem_append_left _ hmem
      refine (h k').grow (fun j hpromise => ?_) fun j hconn => ?_
      · rcases hpromise with hfilled | hcoming | ⟨request, hq, ha⟩
        · exact .inl hfilled
        · exact .inr (.inl hcoming)
        · exact .inr (.inr ⟨request, hmem j _ hq, ha⟩)
      · by_cases hj : j = id
        · subst hj
          refine .inr (.inr (.inr ⟨.getGuidance, ?_, trivial⟩))
          simp [post]
        · dsimp only at hconn
          rw [Function.update_self, Function.update_of_ne hj] at hconn
          exact .inl hconn
    · refine (h k').grow (fun j hpromise => ?_) fun j hconn => ?_
      · dsimp only
        rwa [post_of_ne hk]
      · dsimp only at hconn
        rw [Function.update_of_ne hk] at hconn
        exact .inl hconn

/-- INTERNAL: a client reads what a server has sent. SOURCE: app/client2.cpp:433-456, 475-524 -/
theorem AllPromised.receive (h : AllPromised unpack layout cfg d)
    (hok : DeployOk unpack layout cfg o d v a) {k : κ} {id : Fin n}
    (hstep : Deployment.step unpack layout cfg d (.receive k id) = .ok (d', out)) :
    AllPromised unpack layout cfg d' := by
  rcases step_receive hstep with ⟨rfl, -⟩ | ⟨answer, rest, -, hnext, heq⟩
  · exact h
  · obtain ⟨rfl, -⟩ := Prod.mk.inj heq
    have hanswer : AnswerOk o id answer :=
      hok.answers id k answer (by rw [hnext]; exact List.mem_cons_self)
    intro k'
    by_cases hk : k' = k
    · subst hk
      have hother : ∀ i ≠ id, (if i = id ∧ k' = k' then (d.toClient i k').tail
          else d.toClient i k') = d.toClient i k' := fun i hi => if_neg fun heq => hi heq.1
      dsimp only [Deployment.receive]
      rw [Function.update_self]
      cases answer with
      | guidance msg => exact (h k').guidance (hok.phases k') id hanswer hother
      | reply msg =>
        obtain ⟨rfl, hguide⟩ := hanswer
        have hdata : repliesIn (d.toClient id k') = msg.replyData :: repliesIn rest := by
          rw [hnext]
          rfl
        obtain ⟨hawaits, -⟩ := (hok.stages k').of_reply hdata
        exact (h k').reply (hok.phases k') id hguide hawaits (hok.clients k').unreplicated hother
    · have hsame : ∀ i, (if i = id ∧ k' = k then (d.toClient i k').tail
          else d.toClient i k') = d.toClient i k' := fun i => if_neg fun heq => hk heq.2
      dsimp only [Deployment.receive]
      simp only [hsame, Function.update_of_ne hk]
      exact h k'

/-- INTERNAL: a thread checks whether its clients are set up. SOURCE: app/client2.cpp:553-568 -/
theorem AllPromised.checkSetup (h : AllPromised unpack layout cfg d)
    (hok : DeployOk unpack layout cfg o d v a) (hn : 0 < n) {t : θ}
    (hstep : Deployment.step unpack layout cfg d (.checkSetup t) = .ok (d', out)) :
    AllPromised unpack layout cfg d' := by
  obtain ⟨-, ⟨-, rfl⟩ | ⟨hphase, clients, ready, hsetups, rfl⟩⟩ := step_checkSetup hstep
  · exact h
  · obtain ⟨clients', ready', hsetups', hset, -⟩ :=
      checkSetups_ok hn (layout.members t) hok.clients
    rw [hsetups] at hsetups'
    cases hsetups'
    intro k
    have hback : (if ready then Function.update d.phase t .sending else d.phase)
        (layout.threadOf k) = .setup → d.phase (layout.threadOf k) = .setup := by
      intro hsetup
      split_ifs at hsetup
      · by_cases ht : layout.threadOf k = t
        · rw [ht, Function.update_self] at hsetup
          cases hsetup
        · rwa [Function.update_of_ne ht] at hsetup
      · exact hsetup
    dsimp only
    rcases hset k with heq | ⟨-, -, heq⟩
    · rw [heq]
      exact ⟨fun hsetup => (h k).setup (hback hsetup), (h k).round, (h k).unsure⟩
    · rw [heq]
      exact (h k).setUp hback

/-- INTERNAL: a client that is refused only learns that. SOURCE: app/client2.cpp:204-212 -/
theorem afterRefusal_clients (layout : Layout κ θ π) (d : Deployment n κ θ π)
    (t : θ) (k j : κ) :
    (afterRefusal layout d t k).clients j = d.clients j ∨
      (afterRefusal layout d t k).clients j = { d.clients j with finishAllMsg := true } := by
  dsimp only [afterRefusal]
  by_cases hj : j = k
  · subst hj
    exact .inr (Function.update_self ..)
  · exact .inl (Function.update_of_ne hj ..)

/-- INTERNAL: a thread takes a turn. SOURCE: app/client2.cpp:544-551, 623-647 -/
theorem AllPromised.turn (h : AllPromised unpack layout cfg d)
    (hok : DeployOk unpack layout cfg o d v a) (ho : routedTo n Client.theKey = some o)
    (hpack : ∀ p, unpack (messageOf (cfg p)).op = some (operationOf (cfg p))) {t : θ}
    (hstep : Deployment.step unpack layout cfg d (.turn t) = .ok (d', out)) :
    AllPromised unpack layout cfg d' := by
  rcases step_turn hstep with ⟨-, rfl, -⟩ | ⟨hphase, hturn⟩
  · exact h
  cases hfind : (layout.members t).find? fun k => (d.clients k).status = .idle with
  | none =>
    rw [Deployment.turn, hfind] at hturn
    cases hturn
    exact h
  | some k =>
    have hmem : k ∈ layout.members t := List.mem_of_find?_eq_some hfind
    obtain rfl : layout.threadOf k = t := (layout.mem_members t k).mp hmem
    rw [turn_eq (hok.clients k) ho hfind] at hturn
    split_ifs at hturn with hcan
    · obtain ⟨rfl, -⟩ := Prod.mk.inj (Except.ok.inj hturn)
      intro k'
      dsimp only [afterSend]
      by_cases hk : k' = k
      · subst hk
        rw [Function.update_self]
        refine Promised.sent hphase (o := o) (hpack _) _ _ _ (fun id send hsend hid => ?_) _
        rw [post, if_pos rfl]
        exact List.mem_append_right _
          (List.mem_map.mpr ⟨send, List.mem_filter.mpr ⟨hsend, by simpa using hid⟩, rfl⟩)
      · rw [Function.update_of_ne hk, post_of_ne hk]
        exact h k'
    · obtain ⟨rfl, -⟩ := Prod.mk.inj (Except.ok.inj hturn)
      intro k'
      have hback : (afterRefusal layout d (layout.threadOf k) k).phase (layout.threadOf k') =
          .setup → d.phase (layout.threadOf k') = .setup := by
        dsimp only [afterRefusal]
        intro hsetup
        split_ifs at hsetup
        · by_cases ht : layout.threadOf k' = layout.threadOf k
          · rw [ht, Function.update_self] at hsetup
            cases hsetup
          · rwa [Function.update_of_ne ht] at hsetup
        · exact hsetup
      rcases afterRefusal_clients layout d (layout.threadOf k) k k' with heq | heq
      · rw [heq]
        exact ⟨fun hsetup => (h k').setup (hback hsetup), (h k').round, (h k').unsure⟩
      · rw [heq]
        exact ⟨fun hsetup => (h k').setup (hback hsetup), (h k').round, (h k').unsure⟩

/-- INTERNAL: a server reads what a client has sent. SOURCE: app/server.cpp:158-178 -/
theorem AllPromised.serve (h : AllPromised unpack layout cfg d) {k : κ} {id : Fin n}
    (hstep : Deployment.step unpack layout cfg d (.serve k id) = .ok (d', out)) :
    AllPromised unpack layout cfg d' := by
  obtain ⟨-, ⟨-, rfl⟩ | ⟨request, rest, servers, effects, hnext, hserve, rfl⟩⟩ := step_serve hstep
  · exact h
  · refine fun k' => (h k').grow (fun j hpromise => ?_) fun _ hconn => .inl hconn
    dsimp only
    rcases hpromise with hfilled | hcoming | ⟨q, hq, hanswered⟩
    · exact .inl hfilled
    · exact .inr (.inl (deliver_ne_nil _ hcoming))
    · by_cases hat : k' = k ∧ j = id
      · obtain ⟨rfl, rfl⟩ := hat
        rw [hnext] at hq
        rcases List.mem_cons.mp hq with rfl | hrest
        · exact .inr (.inl (hanswered.served hserve _))
        · refine .inr (.inr ⟨q, ?_, hanswered⟩)
          rwa [Function.update_self, Function.update_self]
      · refine .inr (.inr ⟨q, ?_, hanswered⟩)
        by_cases hk : k' = k
        · subst hk
          rwa [Function.update_self, Function.update_of_ne fun hj => hat ⟨rfl, hj⟩]
        · rwa [Function.update_of_ne hk]

/-- INTERNAL: **every step keeps the promises.** -/
theorem AllPromised.step (h : AllPromised unpack layout cfg d)
    (hok : DeployOk unpack layout cfg o d v a) (hn : 0 < n)
    (ho : routedTo n Client.theKey = some o)
    (hpack : ∀ p, unpack (messageOf (cfg p)).op = some (operationOf (cfg p)))
    {event : DeploymentEvent n κ θ}
    (hstep : Deployment.step unpack layout cfg d event = .ok (d', out)) :
    AllPromised unpack layout cfg d' := by
  cases event with
  | connected k id => exact h.connected hstep
  | receive k id => exact h.receive hok hstep
  | checkSetup t => exact h.checkSetup hok hn hstep
  | turn t => exact h.turn hok ho hpack hstep
  | serve k id => exact h.serve hstep
  | exchange src dst =>
    obtain ⟨-, servers, effects, -, rfl⟩ := step_exchange hstep
    exact fun k => (h k).grow (fun j hpromise => hpromise.imp_right
      (Or.imp_left (deliver_ne_nil effects))) fun _ hconn => .inl hconn

end Steps

end MorphlingC.Analysis
