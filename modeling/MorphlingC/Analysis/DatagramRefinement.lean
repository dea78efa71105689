import MorphlingC.Analysis.LinkedRefinement
import MorphlingC.Analysis.ServiceSocket
import MorphlingC.Analysis.SmallMessages

/-!
# Datagrams are one way of delivering messages

Whatever the servers of `app/server2.cpp` do over their sockets, they do when messages are
delivered in any order, any number of times or not at all (`datagrams_refine`).  The datagrams
between servers are the frames of messages of the network, or guidances that nobody looks at
(`FromNetwork`); a request from outside is handled when it is first in its socket.
-/

set_option autoImplicit false

namespace MorphlingC.Analysis

open MorphlingC.Library MorphlingC.Model MorphlingC.Interface MorphlingC.Model.Morphling

variable {n : ℕ} {τ : Type} {readers : Readers} {unpack : Bytes → Option Operation}
  {image : GuidanceMessage n → Bytes} {k : ℕ}

/-- When it is an operation, it is one that `pack_operation` has packed.
SOURCE: app/utils.cpp:21-42 -/
def FromClient (datagram : Bytes) : Prop :=
  (MessageHeader.ofBytes datagram).msgType = .client → ∃ op msg msg',
    msg.epoch < 2 ^ 64 ∧ msg.keyHash < 2 ^ 64 ∧
      packOperation Operation.pack ClientMessage.pack op msg = .ok (msg', datagram)

/-- The requests of clients are packed ones; anything may arrive besides. -/
def FromClients : DatagramEvent n τ → Prop
  | .request _ datagram _ => FromClient datagram
  | .arrive _ _ => True
  | .service _ => True
  | .peer _ => True
  | .period _ => True

/-- It is a guidance, or the frame of a message on the network for this server. -/
def FromNetwork (image : GuidanceMessage n → Bytes) (network : List (GenericMessage n))
    (r : Fin n) (datagram : Bytes) : Prop :=
  (∃ msg, datagram = udpSend .guidance (image msg)) ∨
    ∃ p ∈ network, p.dst = r ∧ datagram = udpSend p.msgType (p.payload image)

/-- **The invariant of the two**, after `k` events.  The replicas are the same and small, what is
between the servers is from the network, and what waits for them is from clients. -/
structure OnSockets (image : GuidanceMessage n → Bytes) (k : ℕ) (c : Datagrams n τ)
    (c' : Cluster n τ) : Prop where
  replicas : c.replicas = c'.replicas
  sent : ∀ r, ∀ d ∈ c.sent r, FromNetwork image c'.network r d
  peer : ∀ r, ∀ d ∈ c.peer r, FromNetwork image c'.network r d
  service : ∀ r, ∀ q ∈ c.service r, FromClient q.1
  small : ∀ i, SmallReplica i (c'.replicas i)
  idle : ∀ i, (c'.replicas i).nextMsgs = []
  messages : ∀ p ∈ c'.network, SmallMsg p
  logs : ∀ i g, ((c'.replicas i).smrs g).log.log.length ≤ k

/-- INTERNAL: fresh replicas and empty sockets. -/
theorem OnSockets.init (image : GuidanceMessage n → Bytes) :
    OnSockets image 0 (Datagrams.init n τ) (Cluster.init n τ) where
  replicas := rfl
  sent := fun _ _ hd => absurd hd List.not_mem_nil
  peer := fun _ _ hd => absurd hd List.not_mem_nil
  service := fun _ _ hq => absurd hq List.not_mem_nil
  small := SmallReplica.init
  idle := fun _ => rfl
  messages := fun _ hp => absurd hp List.not_mem_nil
  logs := fun _ _ => le_rfl

/-- INTERNAL: an event in which no replica is called. -/
theorem OnSockets.later {c : Datagrams n τ} {c' : Cluster n τ} (h : OnSockets image k c c') :
    OnSockets image (k + 1) c c' :=
  { h with logs := fun i g => (h.logs i g).trans (Nat.le_succ k) }

/-- INTERNAL: there is room for one more entry, unless there have been 2^64 events. -/
theorem OnSockets.hasRoom {c : Datagrams n τ} {c' : Cluster n τ} (h : OnSockets image k c c')
    (hk : k + 1 < 2 ^ 64) (r : Fin n) : HasRoom (c'.replicas r) := by
  intro g
  have hle := h.logs r g
  omega

/-- INTERNAL: a network that grows has what it had. -/
theorem FromNetwork.mono {network more : List (GenericMessage n)} {r : Fin n} {d : Bytes}
    (h : FromNetwork image network r d) : FromNetwork image (network ++ more) r d := by
  rcases h with hguidance | ⟨p, hp, hdst, hd⟩
  · exact .inl hguidance
  · exact .inr ⟨p, List.mem_append_left _ hp, hdst, hd⟩

/-! ## Datagrams -/

/-- INTERNAL: both transports put the same in front of a payload.
SOURCE: app/server.cpp:48-61; app/server2.cpp:91-103 -/
theorem udpSend_eq (msgType : MessageType) (payload : Bytes) :
    udpSend msgType payload = socketSend msgType payload := by
  rw [udpSend, messageHeader_toBytes, socketSend, socketHeader_eq]

/-- INTERNAL: the type of a datagram is the one it is sent with.
SOURCE: core/message.h:109-112; app/server2.cpp:91-103 -/
theorem msgType_udpSend (msgType : MessageType) (payload : Bytes) :
    (MessageHeader.ofBytes (udpSend msgType payload)).msgType = msgType := by
  unfold udpSend
  rw [MessageHeader.ofBytes_toBytes]
  exact MessageType.ofByte_toByte msgType

/-- INTERNAL: a frame is taken off a socket as a whole. SOURCE: app/server2.cpp:242-254 -/
theorem recvFrom_frame {f : Frame} {capacity : Option ℕ}
    (hroom : ∀ b ∈ capacity, 4 + f.payload.length ≤ b) :
    recvFrom capacity f.encode = .ok f.payload := by
  have hsize : (MessageHeader.ofBytes f.encode).size.toNat = f.payload.length :=
    (ofBytes_frameHeader f.msgType f.sized f.payload).2
  have htake : f.encode.take (4 + f.payload.length) = f.encode := by
    rw [← encode_length, List.take_length]
  have hfits : capacity.any (· < f.encode.length) = false := by
    cases capacity with
    | none => rfl
    | some b =>
      rw [Option.any_some, decide_eq_false_iff_not, encode_length]
      exact not_lt.mpr (hroom b rfl)
  unfold recvFrom
  dsimp only
  rw [hsize, htake, hfits, if_neg Bool.false_ne_true, if_neg (not_not.mpr (encode_length f)),
    Frame.encode, List.drop_left' (frameHeader_length _ _)]

/-- INTERNAL: **a client's operation is taken off the socket as it was packed.**
SOURCE: app/utils.cpp:21-42; app/server2.cpp:248-258 -/
theorem recvFrom_operation (hreaders : readers.ReadPacked) {op : Operation}
    {msg msg' : ClientMessage} {datagram : Bytes}
    (hepoch : msg.epoch < 2 ^ 64) (hkey : msg.keyHash < 2 ^ 64)
    (hpack : packOperation Operation.pack ClientMessage.pack op msg = .ok (msg', datagram)) :
    recvFrom (some recvCapacity) datagram = .ok msg'.pack ∧
      readers.client msg'.pack = some msg' ∧ msg'.op.length ≤ 1993 := by
  obtain ⟨rfl, hsize, rfl⟩ := packOperation_ok hpack
  have hop := op_length_le hsize
  have hfits : ClientMessage.Fits { msg with op := op.pack } := ⟨hepoch, hkey, by omega⟩
  have hroom : ∀ b ∈ some recvCapacity,
      4 + (ClientMessage.pack { msg with op := op.pack }).length ≤ b := by
    rintro b ⟨⟩
    unfold recvCapacity
    omega
  have hread := recvFrom_frame (f := ⟨.client, ClientMessage.pack { msg with op := op.pack },
    by decide, by omega⟩) hroom
  exact ⟨hread, hreaders.client _ hfits, hop⟩

/-! ## The end of a callback -/

/-- INTERNAL: a datagram is sent as it is. SOURCE: app/server2.cpp:105-110 -/
theorem sendTo_ok {d d' : Bytes} (h : sendTo d = .ok d') : d' = d := by
  unfold sendTo at h
  split at h
  · cases h
  · cases h
    rfl

/-- INTERNAL: what the end of a callback sends. SOURCE: app/server2.cpp:91-103, 263, 311 -/
theorem finish_sends {c d : Datagrams n τ} {r : Fin n} {m : Morphling n τ}
    {effects : List (Effect n τ)} (h : c.finish image r m effects = .ok d) :
    ∃ m' msgs, m.bcastMsgs (Cluster.peerTrans m) = .ok (m', msgs) ∧
      d = { c with
        replicas := Function.update c.replicas r m'
        sent := Datagrams.put c.sent
          (msgs.map fun p => (p.1, udpSend p.2.msgType (p.2.payload image))) } := by
  obtain ⟨_, -, h⟩ := bind_eq_ok.mp h
  obtain ⟨⟨m', msgs⟩, hbcast, h⟩ := bind_eq_ok.mp h
  obtain ⟨datagrams, hsent, h⟩ := bind_eq_ok.mp h
  cases h
  have heach := eq_map_of_mapM (g := fun p : ℕ × GenericMessage n =>
    (p.1, udpSend p.2.msgType (p.2.payload image))) (fun p d hd => by
      obtain ⟨datagram, hto, hd⟩ := bind_eq_ok.mp hd
      cases hd
      rw [sendTo_ok hto]) hsent
  exact ⟨m', msgs, mapError_eq_ok.mp hbcast, by rw [heach]⟩

/-- INTERNAL: a datagram on the way to a server was on the way before, or has been sent to it. -/
theorem mem_put_datagrams {sent : Fin n → List Bytes} {datagrams : List (ℕ × Bytes)} {r : Fin n}
    {d : Bytes} (h : d ∈ Datagrams.put sent datagrams r) :
    d ∈ sent r ∨ (r.val, d) ∈ datagrams := by
  rcases List.mem_append.mp h with hold | hnew
  · exact .inl hold
  · obtain ⟨⟨id, d'⟩, hmem, hsome⟩ := List.mem_filterMap.mp hnew
    dsimp only at hsome
    split at hsome
    · rename_i hid
      cases hsome
      exact .inr (hid ▸ hmem)
    · cases hsome

/-- INTERNAL: **the end of a callback is matched**: when a call of a replica leaves it small, with
small messages queued, what is sent is the frames of what is sent.
SOURCE: app/server2.cpp:263, 311; core/morphling.cpp:206-231 -/
theorem OnSockets.finish {c d : Datagrams n τ} {c' : Cluster n τ} (h : OnSockets image k c c')
    {r : Fin n} {m : Morphling n τ} {effects : List (Effect n τ)}
    (hsmall : SmallReplica r m ∧ ∀ p ∈ m.nextMsgs, SmallMsg p)
    (hlogs : ∀ g, (m.smrs g).log.log.length ≤ k + 1)
    (hfinish : c.finish image r m effects = .ok d) :
    ∃ d', c'.finish r m = .ok d' ∧ OnSockets image (k + 1) d d' := by
  obtain ⟨m', msgs, hbcast, rfl⟩ := finish_sends hfinish
  obtain ⟨msgs', hall, heq⟩ := bind_eq_ok.mp hbcast
  cases heq
  obtain ⟨hm, hqueued⟩ := hsmall
  refine ⟨{ replicas := Function.update c'.replicas r { m with nextMsgs := [] }
            network := c'.network ++ msgs.map Prod.snd }, ?_, ?_⟩
  · rw [Cluster.finish, hbcast, ok_bind]
  · refine ⟨?_, ?_, fun i d hd => (h.peer i d hd).mono, h.service, ?_, ?_, ?_, ?_⟩
    · dsimp only
      rw [h.replicas]
    · intro i d hd
      rcases mem_put_datagrams hd with hold | hnew
      · exact (h.sent i d hold).mono
      · obtain ⟨⟨id, p⟩, hp, heq⟩ := List.mem_map.mp hnew
        cases heq
        refine .inr ⟨p, List.mem_append_right _ (List.mem_map_of_mem hp), ?_, rfl⟩
        exact (eq_of_peerTrans (mem_sendAll hall _ hp).2).symm
    · exact (Function.forall_update_iff c'.replicas (p := fun i t => SmallReplica i t)).mpr
        ⟨⟨hm.me, hm.epoch, hm.gids, hm.logs⟩, fun i _ => h.small i⟩
    · exact (Function.forall_update_iff c'.replicas (p := fun _ t => t.nextMsgs = [])).mpr
        ⟨rfl, fun i _ => h.idle i⟩
    · intro p hp
      rcases List.mem_append.mp hp with hold | hnew
      · exact h.messages p hold
      · obtain ⟨s, hs, rfl⟩ := List.mem_map.mp hnew
        exact hqueued _ (mem_sendAll hall _ hs).1
    · exact (Function.forall_update_iff c'.replicas (p := fun _ t =>
        ∀ g, (t.smrs g).log.log.length ≤ k + 1)).mpr
        ⟨hlogs, fun i _ g => (h.logs i g).trans (Nat.le_succ k)⟩

/-! ## Requests -/

/-- The message that a datagram in the socket for clients of a server is.
SOURCE: app/server2.cpp:242-272 -/
def opened (readers : Readers) (r : Fin n) (q : Bytes × τ) : Option (ClusterEvent n τ) :=
  match (MessageHeader.ofBytes q.1).msgType with
  | .client =>
    match recvFrom (some recvCapacity) q.1 with
    | .error _ => none
    | .ok payload => (readers.client payload).map fun msg => .client r msg q.2
  | .getGuidance => some (.getGuidance r q.2)
  | _ => none

/-- What comes from outside to one server. -/
def ClusterEvent.outsideAt (r : Fin n) : ClusterEvent n τ → Option (ClusterEvent n τ)
  | .client j msg tr => if j = r then some (.client j msg tr) else none
  | .getGuidance j tr => if j = r then some (.getGuidance j tr) else none
  | .peer _ => none
  | .lose _ => none

/-- INTERNAL: **`ev_service` is matched**: it takes the first datagram off and handles it as the
message that it is, or does nothing. SOURCE: app/server2.cpp:234-277 -/
theorem OnSockets.serviceEvent {c d : Datagrams n τ} {c' : Cluster n τ}
    (h : OnSockets image k c c') (hreaders : readers.ReadPacked)
    (hroom : ∀ i, HasRoom (c'.replicas i)) {j : Fin n} {effects : List (Effect n τ)}
    (hcall : c.serviceEvent image readers unpack j = .ok (d, effects)) :
    (∃ q rest event d', c.service j = q :: rest ∧
      d.service = Function.update c.service j rest ∧ opened readers j q = some event ∧
      (∀ r, ClusterEvent.outsideAt r event = if j = r then some event else none) ∧
      Cluster.step unpack c' event = .ok (d', effects.map (j, ·)) ∧
      OnSockets image (k + 1) d d') ∨ (d = c ∧ effects = []) := by
  unfold Datagrams.serviceEvent at hcall
  cases hqueue : c.service j with
  | nil =>
    rw [hqueue] at hcall
    cases hcall
    exact .inr ⟨rfl, rfl⟩
  | cons q rest =>
    obtain ⟨datagram, tr⟩ := q
    simp only [hqueue] at hcall
    have hclients : ∀ i, ∀ q ∈ Function.update c.service j rest i, FromClient q.1 :=
      (Function.forall_update_iff c.service (p := fun _ queue => ∀ q ∈ queue, FromClient q.1)).mpr
        ⟨fun q hq => h.service j q (by rw [hqueue]; exact List.mem_cons_of_mem _ hq),
          fun i _ => h.service i⟩
    have htaken : OnSockets image k { c with service := Function.update c.service j rest } c' :=
      { h with service := hclients }
    split_ifs at hcall with hheader hclient hget
    · -- an operation, as it was packed
      obtain ⟨op, msg, msg', hepoch, hkey, hpack⟩ :=
        h.service j (datagram, tr) (by rw [hqueue]; exact List.mem_cons_self) hclient
      obtain ⟨hread, hunpack, hop⟩ := recvFrom_operation hreaders hepoch hkey hpack
      obtain ⟨payload, hpayload, hcall⟩ := bind_eq_ok.mp hcall
      rw [hread] at hpayload
      cases hpayload
      rw [hunpack] at hcall
      obtain ⟨⟨m, outs⟩, hhandle, hcall⟩ := bind_eq_ok.mp hcall
      obtain ⟨c₁, hfinish, hcall⟩ := bind_eq_ok.mp hcall
      cases hcall
      have hhandle' := mapError_eq_ok.mp hhandle
      rw [h.replicas] at hhandle'
      obtain ⟨d', hfinish', hon⟩ := htaken.finish
        ((h.small j).operation (h.idle j) (hroom j) hop hhandle')
        (fun g => (operation_grows hhandle' g).trans (Nat.add_le_add_right (h.logs j g) 1)) hfinish
      have hrest : d.service = Function.update c.service j rest := finish_service hfinish
      refine .inl ⟨(datagram, tr), rest, .client j msg' tr, d', rfl, hrest, ?_, fun _ => rfl, ?_,
        hon⟩
      · simp only [opened, hclient, hread, hunpack, Option.map_some]
      · simp only [Cluster.step, hhandle', ok_bind, hfinish']
    · -- a request for the guidance
      obtain ⟨_, -, hcall⟩ := bind_eq_ok.mp hcall
      cases hcall
      refine .inl ⟨(datagram, tr), rest, .getGuidance j tr, c', rfl, rfl, ?_, fun _ => rfl, ?_,
        htaken.later⟩
      · simp only [opened, hget]
      · rw [Cluster.step, h.replicas]
    · cases hcall
      exact .inr ⟨rfl, rfl⟩

/-! ## Messages of other servers -/

/-- INTERNAL: the end of a callback that queues nothing sends nothing.
SOURCE: app/server2.cpp:311; core/morphling.cpp:206-231 -/
theorem finish_idle {c d : Datagrams n τ} {r : Fin n} (hidle : (c.replicas r).nextMsgs = [])
    (h : c.finish image r (c.replicas r) [] = .ok d) : d = c := by
  obtain ⟨m', msgs, hbcast, rfl⟩ := finish_sends h
  obtain ⟨msgs', hall, heq⟩ := bind_eq_ok.mp hbcast
  rw [hidle] at hall
  cases hall
  cases heq
  have hsame : { c.replicas r with nextMsgs := [] } = c.replicas r := by
    rw [← hidle]
  have hput : Datagrams.put c.sent [] = c.sent := funext fun j => List.append_nil _
  rw [List.map_nil, hput, hsame, Function.update_eq_self]

/-- INTERNAL: **`ev_peer` is matched**: the first datagram is the frame of a message on the
network, which is delivered, or a guidance. SOURCE: app/server2.cpp:279-316 -/
theorem OnSockets.peerEvent {c d : Datagrams n τ} {c' : Cluster n τ}
    (h : OnSockets image k c c') (hreaders : readers.ReadPacked) (hn : n ≤ 255)
    (hroom : ∀ i, HasRoom (c'.replicas i)) {j : Fin n} {effects : List (Effect n τ)}
    (hcall : c.peerEvent image readers unpack j = .ok (d, effects)) :
    ∃ events d', (∀ r, events.filterMap (ClusterEvent.outsideAt r) = []) ∧
      Machine.run (Cluster.step unpack) c' events = .ok (d', effects.map (j, ·)) ∧
      OnSockets image (k + 1) d d' := by
  unfold Datagrams.peerEvent at hcall
  cases hqueue : c.peer j with
  | nil =>
    rw [hqueue] at hcall
    cases hcall
    exact ⟨[], c', fun _ => rfl, rfl, h.later⟩
  | cons datagram rest =>
    simp only [hqueue] at hcall
    have hpeers : ∀ i, ∀ d ∈ Function.update c.peer j rest i,
        FromNetwork image c'.network i d :=
      (Function.forall_update_iff c.peer (p := fun i queue =>
        ∀ d ∈ queue, FromNetwork image c'.network i d)).mpr
        ⟨fun d hd => h.peer j d (by rw [hqueue]; exact List.mem_cons_of_mem _ hd),
          fun i _ => h.peer i⟩
    have htaken : OnSockets image k { c with peer := Function.update c.peer j rest } c' :=
      { h with peer := hpeers }
    split_ifs at hcall with hheader
    obtain ⟨payload, hread, hcall⟩ := bind_eq_ok.mp hcall
    obtain ⟨⟨m, outs⟩, hhandle, hcall⟩ := bind_eq_ok.mp hcall
    obtain ⟨c₁, hfinish, hcall⟩ := bind_eq_ok.mp hcall
    cases hcall
    have hhandle' := mapError_eq_ok.mp hhandle
    rcases h.peer j datagram (by rw [hqueue]; exact List.mem_cons_self) with
      ⟨msg, rfl⟩ | ⟨p, hmem, hdst, rfl⟩
    · -- nobody looks at the guidance of a peer
      rw [msgType_udpSend] at hhandle'
      cases hhandle'
      have hsame : d = { c with peer := Function.update c.peer j rest } :=
        finish_idle (c := { c with peer := Function.update c.peer j rest })
          (by dsimp only; rw [h.replicas]; exact h.idle j) hfinish
      subst hsame
      exact ⟨[], c', fun _ => rfl, rfl, htaken.later⟩
    · have hp := h.messages p hmem
      obtain ⟨f, hframe, htype, hpayload, -⟩ := small_frame hn image hp
      rw [udpSend_eq, hframe, recvFrom_frame fun _ hb => absurd hb (Option.not_mem_none _)] at hread
      cases hread
      rw [msgType_udpSend, hpayload, handlePayload_eq hreaders hn image _ hp] at hhandle'
      have hmsg := mapError_eq_ok.mp hhandle'
      rw [h.replicas] at hmsg
      obtain ⟨d', hfinish', hon⟩ := htaken.finish
        ((h.small j).peerMsg (h.idle j) (hroom j) hp hmsg)
        (fun g => ((h.small j).peerMsg_grows hp hmsg g).trans
          (Nat.add_le_add_right (h.logs j g) 1)) hfinish
      obtain ⟨i, hi⟩ := List.mem_iff_getElem?.mp hmem
      refine ⟨[.peer i], d', fun _ => rfl, Machine.run_singleton _ ?_, hon⟩
      have hlt : p.dst < n := hdst ▸ j.isLt
      have hfin : (⟨p.dst, hlt⟩ : Fin n) = j := Fin.ext hdst
      simp only [Cluster.step, hi, hlt, dif_pos, hfin, hmsg, ok_bind, hfinish']

/-! ## Runs -/

/-- INTERNAL: an event in which nothing is taken off the sockets for clients. -/
theorem takes_nothing {c d : Datagrams n τ} {event : DatagramEvent n τ}
    {events : List (ClusterEvent n τ)}
    (hservice : ∀ r, c.service r ++ DatagramEvent.requests r event = d.service r)
    (hevents : ∀ r, events.filterMap (ClusterEvent.outsideAt r) = []) (r : Fin n) :
    ∃ taken, c.service r ++ DatagramEvent.requests r event = taken ++ d.service r ∧
      taken.map (opened readers r) = (events.filterMap (ClusterEvent.outsideAt r)).map some :=
  ⟨[], hservice r, by rw [hevents r]; rfl⟩

/-- INTERNAL: **every event over sockets is a run of the cluster** that is given what is taken
off the sockets for clients. SOURCE: app/server2.cpp:234-333 -/
theorem OnSockets.step {c d : Datagrams n τ} {c' : Cluster n τ} (h : OnSockets image k c c')
    (hreaders : readers.ReadPacked) (hn : n ≤ 255) (hroom : ∀ i, HasRoom (c'.replicas i))
    {event : DatagramEvent n τ}
    (hclients : FromClients event) {out : List (Fin n × Effect n τ)}
    (hstep : Datagrams.step image readers unpack c event = .ok (d, out)) :
    ∃ events d', Machine.run (Cluster.step unpack) c' events = .ok (d', out) ∧
      OnSockets image (k + 1) d d' ∧ ∀ r, ∃ taken,
        c.service r ++ DatagramEvent.requests r event = taken ++ d.service r ∧
        taken.map (opened readers r) = (events.filterMap (ClusterEvent.outsideAt r)).map some := by
  cases event with
  | request j datagram tr =>
    cases hstep
    have hservice : ∀ i, ∀ q ∈ Function.update c.service j (c.service j ++ [(datagram, tr)]) i,
        FromClient q.1 :=
      (Function.forall_update_iff c.service (p := fun _ queue => ∀ q ∈ queue, FromClient q.1)).mpr
        ⟨fun q hq => (List.mem_append.mp hq).elim (h.service j q) fun hnew => by
          rw [List.mem_singleton.mp hnew]
          exact hclients, fun i _ => h.service i⟩
    refine ⟨[], c', rfl, { h.later with service := hservice }, takes_nothing (fun r => ?_)
      fun _ => rfl⟩
    by_cases hj : j = r
    · subst hj
      simp [DatagramEvent.requests]
    · simp [DatagramEvent.requests, hj, Function.update_of_ne (Ne.symm hj)]
  | arrive j i =>
    unfold Datagrams.step at hstep
    dsimp only at hstep
    split at hstep
    · cases hstep
      exact ⟨[], c', rfl, h.later, takes_nothing (fun _ => List.append_nil _) fun _ => rfl⟩
    · rename_i datagram hi
      cases hstep
      have hpeer : ∀ r, ∀ d ∈ Function.update c.peer j (c.peer j ++ [datagram]) r,
          FromNetwork image c'.network r d :=
        (Function.forall_update_iff c.peer (p := fun r queue =>
          ∀ d ∈ queue, FromNetwork image c'.network r d)).mpr
          ⟨fun d hd => (List.mem_append.mp hd).elim (h.peer j d) fun hnew => by
            rw [List.mem_singleton.mp hnew]
            exact h.sent j datagram (List.mem_of_getElem? hi), fun r _ => h.peer r⟩
      exact ⟨[], c', rfl, { h.later with peer := hpeer },
        takes_nothing (fun _ => List.append_nil _) fun _ => rfl⟩
  | service j =>
    obtain ⟨⟨c₁, effects⟩, hcall, hstep⟩ := bind_eq_ok.mp hstep
    cases hstep
    rcases h.serviceEvent hreaders hroom hcall with
      ⟨q, rest, event, d', hqueue, hrest, hopened, hat, hcluster, hon⟩ | ⟨rfl, rfl⟩
    · refine ⟨[event], d', Machine.run_singleton _ hcluster, hon, fun r => ?_⟩
      rw [List.filterMap_cons, List.filterMap_nil, hat, hrest]
      by_cases hj : j = r
      · subst hj
        refine ⟨[q], ?_, ?_⟩
        · rw [hqueue, Function.update_self]
          exact List.append_nil _
        · rw [if_pos rfl, List.map_singleton, hopened]
          rfl
      · refine ⟨[], ?_, ?_⟩
        · rw [Function.update_of_ne (Ne.symm hj)]
          exact List.append_nil _
        · rw [if_neg hj]
          rfl
    · exact ⟨[], c', rfl, h.later, takes_nothing (fun _ => List.append_nil _) fun _ => rfl⟩
  | peer j =>
    obtain ⟨⟨c₁, effects⟩, hcall, hstep⟩ := bind_eq_ok.mp hstep
    cases hstep
    have hsame := (peerEvent_quiet hcall).1
    obtain ⟨events, d', hnone, hrun, hon⟩ := h.peerEvent hreaders hn hroom hcall
    refine ⟨events, d', hrun, hon, takes_nothing (fun r => ?_) hnone⟩
    rw [hsame]
    exact List.append_nil _
  | period j =>
    obtain ⟨c₁, hcall, hstep⟩ := bind_eq_ok.mp hstep
    cases hstep
    obtain ⟨datagrams, hsent, hcall⟩ := bind_eq_ok.mp hcall
    cases hcall
    have heach := eq_map_of_mapM (g := fun id : Fin n =>
      (id.val, udpSend .guidance (image (c.replicas j).guidanceMsg))) (fun id d hd => by
        obtain ⟨datagram, hto, hd⟩ := bind_eq_ok.mp hd
        cases hd
        rw [sendTo_ok hto]) hsent
    have hguidances : ∀ r, ∀ d ∈ Datagrams.put c.sent datagrams r,
        FromNetwork image c'.network r d := by
      intro r d hd
      rcases mem_put_datagrams hd with hold | hnew
      · exact h.sent r d hold
      · rw [heach] at hnew
        obtain ⟨id, -, heq⟩ := List.mem_map.mp hnew
        exact .inl ⟨_, (Prod.mk.inj heq).2.symm⟩
    exact ⟨[], c', rfl, { h.later with sent := hguidances },
      takes_nothing (fun _ => List.append_nil _) fun _ => rfl⟩

/-- **What the servers do over datagrams, they do over the network.**  Let the readers read back
what has been packed.  Take a run of at most 255 servers over their sockets that returns, in which
clients send what `pack_operation` has packed and there are less than 2^64 - 1 events, whatever
else arrives, and however what the servers send is lost, overtaken and repeated: there is a run in
which messages are delivered in any order, with the same effects and the same replicas at its end,
in which each server is given what has been taken off its socket for clients, in order, and this
is a beginning of all that came.
SOURCE: app/server2.cpp:91-103, 234-333; core/morphling.cpp:206-231 -/
theorem datagrams_refine (image : GuidanceMessage n → Bytes) {readers : Readers}
    (hreaders : readers.ReadPacked) (unpack : Bytes → Option Operation) (hn : n ≤ 255)
    (events : List (DatagramEvent n τ))
    (hcount : events.length + 1 < 2 ^ 64) (hclients : ∀ event ∈ events, FromClients event)
    {c : Datagrams n τ} {h : List (Fin n × Effect n τ)}
    (hrun : Machine.run (Datagrams.step image readers unpack) (Datagrams.init n τ) events =
      .ok (c, h)) :
    ∃ events' c', Machine.run (Cluster.step unpack) (Cluster.init n τ) events' = .ok (c', h) ∧
      c'.replicas = c.replicas ∧ ∀ r, ∃ taken,
        events.flatMap (DatagramEvent.requests r) = taken ++ c.service r ∧
        taken.map (opened readers r) = (events'.filterMap (ClusterEvent.outsideAt r)).map some := by
  have hguard := Machine.guarded_of_count (Datagrams.step image readers unpack)
    (G := fun _ event => FromClients event)
    (H := fun c event => FromClients event ∧ ∀ i, HasRoom (c.replicas i))
    (I := fun k c => ∃ c', OnSockets image k c c') (b := 2 ^ 64 - 2)
    (fun k c event d out hk ⟨c', h⟩ hG hs => by
      obtain ⟨-, d', -, hon, -⟩ := h.step hreaders hn (h.hasRoom (by omega)) hG hs
      exact ⟨d', hon⟩)
    (fun k c event hk ⟨c', h⟩ hG => ⟨hG, by
      rw [h.replicas]
      exact h.hasRoom (by omega)⟩)
    ⟨_, OnSockets.init image⟩ (by omega)
    (Machine.guarded_of_forall _ (fun event he _ => hclients event he) _)
  obtain ⟨events', c', hrun', ⟨k, hon⟩, htaken⟩ := Machine.run_refines_served
    (Datagrams.step image readers unpack) (Cluster.step unpack)
    (G := fun c event => FromClients event ∧ ∀ i, HasRoom (c.replicas i))
    (R := fun c c' => ∃ k, OnSockets image k c c')
    (Q := fun (r : Fin n) (c : Datagrams n τ) => c.service r) (A := DatagramEvent.requests)
    (f := opened readers) (g := ClusterEvent.outsideAt) (p := some)
    (fun c c' event d out ⟨k, h⟩ hG hs => by
      rw [List.filterMap_some]
      obtain ⟨events', d', hrun', hon, htaken⟩ := h.step hreaders hn (by
        rw [← h.replicas]
        exact hG.2) hG.1 hs
      exact ⟨events', d', hrun', ⟨k + 1, hon⟩, htaken⟩)
    ⟨0, OnSockets.init image⟩ hguard hrun
  rw [List.filterMap_some] at hrun'
  exact ⟨events', c', hrun', hon.replicas.symm, htaken⟩

/-- A write of 7, as a client packs it. -/
def packedWrite : Bytes :=
  udpSend .client (ClientMessage.pack ⟨1, 0x0100, Operation.pack ⟨1, 0x0100, [7]⟩⟩)

/-- The write is handled; the append reaches the other server twice, with a guidance in between,
and both answers come back. -/
def writeTwice (r r' : Fin n) : List (DatagramEvent n ℕ) :=
  [.request r packedWrite 10, .service r, .arrive r' 0, .period r, .arrive r' 1, .arrive r' 0,
    .peer r', .peer r', .peer r', .arrive r 0, .arrive r 1, .peer r, .peer r]

/-- The client is answered once. -/
theorem datagrams_of_a_write : (writeTwice (0 : Fin 2) 1).length + 1 < 2 ^ 64 ∧
    (∀ event ∈ writeTwice (0 : Fin 2) 1, FromClients event) ∧
    (∃ c h, Machine.run (Datagrams.step (fun _ => []) packedReaders unpackOperation)
      (Datagrams.init 2 ℕ) (writeTwice 0 1) = .ok (c, h)) ∧
    ∃ events' c', ∃ h : List (Fin 2 × Effect 2 ℕ),
      Machine.run (Cluster.step unpackOperation) (Cluster.init 2 ℕ) events' = .ok (c', h) ∧
      (answers (effectsAt h 0)).map Prod.snd = [10] := by
  have hclients : ∀ event ∈ writeTwice (0 : Fin 2) 1, FromClients event := by
    intro event he
    simp only [writeTwice, List.mem_cons, List.not_mem_nil, or_false] at he
    rcases he with rfl | rfl | rfl | rfl | rfl | rfl | rfl | rfl | rfl | rfl | rfl | rfl | rfl
    · exact fun _ => ⟨⟨1, 0x0100, [7]⟩, ⟨1, 0x0100, []⟩,
        ⟨1, 0x0100, Operation.pack ⟨1, 0x0100, [7]⟩⟩, by decide, by decide, by decide⟩
    all_goals trivial
  have hrun : (Machine.run (Datagrams.step (fun _ => []) packedReaders unpackOperation)
      (Datagrams.init 2 ℕ) (writeTwice 0 1)).toOption.map
        (fun r => (answers (effectsAt r.2 0)).map Prod.snd) =
      some [10] := by
    decide +kernel
  cases hres : Machine.run (Datagrams.step (fun _ => []) packedReaders unpackOperation)
      (Datagrams.init 2 ℕ) (writeTwice 0 1) with
  | error f =>
    rw [hres] at hrun
    cases hrun
  | ok res =>
    obtain ⟨c, h⟩ := res
    rw [hres] at hrun
    obtain ⟨events', c', hcluster, -⟩ := datagrams_refine (fun _ => [])
      packedReaders_readPacked unpackOperation (by decide) (writeTwice 0 1) (by decide) hclients
      hres
    exact ⟨by decide, hclients, ⟨c, h, rfl⟩, events', c', h, hcluster, Option.some.inj hrun⟩

end MorphlingC.Analysis
