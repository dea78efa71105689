import MorphlingC.Analysis.LinkedRefinement
import MorphlingC.Analysis.MessageCodec
import MorphlingC.Analysis.SmallMessages

/-!
# Bytes carry messages

The servers over the bytes of their connections and the servers over streams of messages.  The
bytes that have been written to a connection and not been read are the frames of the messages
that are in the stream (`OnWire`).  So whatever happens over bytes, however they are cut when
they arrive, happens over messages (`wired_refines`); and as long as what arrives completes a
frame, the same happens at the same time, including every failure (`wired_in_lockstep`).
-/

set_option autoImplicit false

namespace MorphlingC.Analysis

open MorphlingC.Library MorphlingC.Model MorphlingC.Interface MorphlingC.Model.Morphling

variable {n : ℕ} {τ : Type} {readers : Readers} {unpack : Bytes → Option Operation}
  {image : GuidanceMessage n → Bytes} {rounds k : ℕ}

/-- What a transport writes for a message. -/
def written (image : GuidanceMessage n → Bytes) (p : GenericMessage n) : Bytes :=
  socketSend p.msgType (p.payload image)

/-- **The invariant of the two**, after `k` events.  The replicas are the same and small, the
bytes of each connection that are not read are those of the messages in its stream, and no log
has more than `k` entries. -/
structure OnWire (image : GuidanceMessage n → Bytes) (k : ℕ) (c : Wired n τ) (l : Linked n τ) :
    Prop where
  replicas : c.replicas = l.replicas
  bytes : ∀ i j, c.input i j ++ c.sent i j = (l.wire i j).flatMap (written image)
  small : ∀ i, SmallReplica i (l.replicas i)
  idle : ∀ i, (l.replicas i).nextMsgs = []
  messages : ∀ i j, ∀ p ∈ l.wire i j, SmallMsg p
  logs : ∀ i g, ((l.replicas i).smrs g).log.log.length ≤ k

/-- INTERNAL: fresh replicas, and nothing on the connections. -/
theorem OnWire.init (image : GuidanceMessage n → Bytes) :
    OnWire image 0 (Wired.init n τ) (Linked.init n τ) where
  replicas := rfl
  bytes := fun _ _ => rfl
  small := SmallReplica.init
  idle := fun _ => rfl
  messages := fun _ _ _ hp => absurd hp List.not_mem_nil
  logs := fun _ _ => le_rfl

/-- INTERNAL: an event in which nothing happens. -/
theorem OnWire.later {c : Wired n τ} {l : Linked n τ} (h : OnWire image k c l) :
    OnWire image (k + 1) c l :=
  { h with logs := fun i g => (h.logs i g).trans (Nat.le_succ k) }

/-- INTERNAL: there is room for one more entry, unless there have been 2^64 events. -/
theorem OnWire.hasRoom {c : Wired n τ} {l : Linked n τ} (h : OnWire image k c l)
    (hk : k + 1 < 2 ^ 64) (r : Fin n) : HasRoom (c.replicas r) := by
  intro g
  rw [h.replicas]
  have hle := h.logs r g
  omega

/-- The event over messages that an event over bytes is. -/
def WiredEvent.linked : WiredEvent n τ → LinkedEvent n τ
  | .client r msg tr => .client r msg tr
  | .getGuidance r tr => .getGuidance r tr
  | .arrive src dst _ => .arrive src dst

/-- What comes from outside the servers, over bytes. -/
def WiredEvent.fromOutside : WiredEvent n τ → Option (ClusterEvent n τ)
  | .client r msg tr => some (.client r msg tr)
  | .getGuidance r tr => some (.getGuidance r tr)
  | .arrive _ _ _ => none

/-- A client's message is one that `pack_operation` does not refuse, and the logs of the replica
that is called have room for one more entry. -/
def Regular (c : Wired n τ) : WiredEvent n τ → Prop
  | .client r msg _ => msg.pack.length < 2000 ∧ HasRoom (c.replicas r)
  | .getGuidance _ _ => True
  | .arrive _ dst _ => HasRoom (c.replicas dst)

/-- The buffer begins with a whole frame. SOURCE: app/utils.cpp:68-91 -/
def HoldsFrame (buffer : Bytes) : Prop :=
  4 ≤ buffer.length ∧ 4 + payloadSize (buffer.take 4) ≤ buffer.length

/-- When bytes arrive, there are some, and there is a whole frame then. -/
def CompletesFrame (c : Wired n τ) : WiredEvent n τ → Prop
  | .client _ _ _ => True
  | .getGuidance _ _ => True
  | .arrive src dst count => (c.sent src dst).take count ≠ [] ∧
      HoldsFrame (c.input src dst ++ (c.sent src dst).take count)

instance (buffer : Bytes) : Decidable (HoldsFrame buffer) :=
  inferInstanceAs (Decidable (_ ∧ _))

/-! ## The end of a callback -/

/-- INTERNAL: what is written for the messages sent is what is put on the streams.
SOURCE: app/server.cpp:48-105 -/
theorem put_bytes {streams : Fin n → Fin n → Bytes}
    {wire : Fin n → Fin n → List (GenericMessage n)} {i j : Fin n} {before : Bytes}
    (h : before ++ streams i j = (wire i j).flatMap (written image)) (r : Fin n)
    (sent : List (ℕ × GenericMessage n)) :
    before ++ Wired.put image streams r sent i j =
      (Linked.put wire r sent i j).flatMap (written image) := by
  unfold Wired.put Linked.put
  split_ifs
  · rw [← List.append_assoc, h, List.flatMap_append]
    rfl
  · exact h

/-- Both callbacks return, with the same effects, or both fail in the same way. -/
def Together (image : GuidanceMessage n → Bytes) (k : ℕ)
    (x : Except WireFault (Wired n τ × List (Fin n × Effect n τ)))
    (y : Except Fault (Linked n τ × List (Fin n × Effect n τ))) : Prop :=
  (∃ c' l' out, x = .ok (c', out) ∧ y = .ok (l', out) ∧ OnWire image k c' l') ∨
    ∃ f, x = .error (.replica f) ∧ y = .error f

/-- INTERNAL: **the end of a callback**: when a call of a replica leaves it small, with small
messages queued, both send these, or both fail to.
SOURCE: core/morphling.cpp:206-231; app/server.cpp:171, 228 -/
theorem OnWire.callback {c : Wired n τ} {l : Linked n τ} (h : OnWire image k c l) (r : Fin n)
    {call : Except Fault (Morphling n τ × List (Effect n τ))}
    (hcall : ∀ m effects, call = .ok (m, effects) →
      (SmallReplica r m ∧ ∀ p ∈ m.nextMsgs, SmallMsg p) ∧
        ∀ g, (m.smrs g).log.log.length ≤ k + 1) :
    Together image (k + 1)
      (do
        let (m, effects) ← call.mapError .replica
        let c ← c.finish image r m
        .ok (c, effects.map (r, ·)))
      (do
        let (m, effects) ← call
        let l ← l.finish r m
        .ok (l, effects.map (r, ·))) := by
  cases call with
  | error f => exact .inr ⟨f, rfl, rfl⟩
  | ok res =>
    obtain ⟨m, effects⟩ := res
    obtain ⟨⟨hm, hqueued⟩, hlogs⟩ := hcall m effects rfl
    simp only [Except.mapError, ok_bind, Wired.finish, Linked.finish]
    cases hbcast : m.bcastMsgs (Cluster.peerTrans m) with
    | error f => exact .inr ⟨f, rfl, rfl⟩
    | ok res =>
      obtain ⟨m', sent⟩ := res
      obtain ⟨sent', hall, heq⟩ := bind_eq_ok.mp hbcast
      cases heq
      refine .inl ⟨_, _, _, rfl, rfl, ?_, fun i j => put_bytes (h.bytes i j) r sent, ?_, ?_, ?_, ?_⟩
      · dsimp only
        rw [h.replicas]
      · exact (Function.forall_update_iff l.replicas (p := fun i t => SmallReplica i t)).mpr
          ⟨⟨hm.me, hm.epoch, hm.gids, hm.logs⟩, fun i _ => h.small i⟩
      · exact (Function.forall_update_iff l.replicas (p := fun _ t => t.nextMsgs = [])).mpr
          ⟨rfl, fun i _ => h.idle i⟩
      · intro i j p hp
        rcases mem_put hp with hold | ⟨-, hnew⟩
        · exact h.messages i j p hold
        · exact hqueued p (mem_sendAll hall _ hnew).1
      · exact (Function.forall_update_iff l.replicas (p := fun _ t =>
          ∀ g, (t.smrs g).log.log.length ≤ k + 1)).mpr
          ⟨hlogs, fun i _ g => (h.logs i g).trans (Nat.le_succ k)⟩

/-! ## What arrives -/

/-- INTERNAL: the bytes that are not read begin with the frame of the first message. -/
theorem OnWire.first {c : Wired n τ} {l : Linked n τ} (h : OnWire image k c l) {src dst : Fin n}
    {p : GenericMessage n} {rest : List (GenericMessage n)} (hwire : l.wire src dst = p :: rest)
    (count : ℕ) :
    (c.input src dst ++ (c.sent src dst).take count) ++ (c.sent src dst).drop count =
      written image p ++ rest.flatMap (written image) := by
  rw [List.append_assoc, List.take_append_drop, h.bytes, hwire, List.flatMap_cons]

/-- INTERNAL: **what begins with a whole frame begins with the frame of the first message.**
SOURCE: app/utils.cpp:68-91 -/
theorem frame_of_holds {f : Frame} {buffer later more : Bytes} (hholds : HoldsFrame buffer)
    (hstream : buffer ++ later = f.encode ++ more) :
    ∃ left, buffer = f.encode ++ left ∧ left ++ later = more := by
  obtain ⟨hfour, hlen⟩ := hholds
  have hheader : buffer.take 4 = frameHeader f.msgType f.payload.length := by
    have htake := congrArg (List.take 4) hstream
    rwa [List.take_append_of_le_length hfour, Frame.encode, List.append_assoc,
      List.take_left' (frameHeader_length _ _)] at htake
  rw [hheader, payloadSize_frameHeader f.msgType f.sized] at hlen
  have hle : f.encode.length ≤ buffer.length := by
    rw [encode_length]
    exact hlen
  rcases List.append_eq_append_iff.mp hstream with ⟨left, hbuf, hlater⟩ | ⟨left, hbuf, hmore⟩
  · have hnil : left = [] := by
      have hboth := congrArg List.length hbuf
      rw [List.length_append] at hboth
      exact List.length_eq_zero_iff.mp (by omega)
    subst hnil
    rw [List.append_nil] at hbuf
    exact ⟨[], by rw [List.append_nil, hbuf], hlater⟩
  · exact ⟨left, hbuf, hmore.symm⟩

/-- INTERNAL: the read takes the frame of the first message off the buffer.
SOURCE: app/utils.cpp:68-91 -/
theorem OnWire.read {c : Wired n τ} {l : Linked n τ} (h : OnWire image k c l) (rounds : ℕ)
    (hn : n ≤ 255)
    {src dst : Fin n} {p : GenericMessage n} {rest : List (GenericMessage n)}
    (hwire : l.wire src dst = p :: rest) {count : ℕ}
    (hholds : HoldsFrame (c.input src dst ++ (c.sent src dst).take count)) :
    ∃ left, recvMsg recvCapacity (rounds + 1)
        (c.input src dst ++ (c.sent src dst).take count) =
          .ok (p.msgType, p.payload image, left) ∧
      left ++ (c.sent src dst).drop count = rest.flatMap (written image) := by
  have hp := h.messages src dst p (by rw [hwire]; exact List.mem_cons_self)
  obtain ⟨f, hframe, htype, hpayload, hroom⟩ := small_frame hn image hp
  have hstream := h.first hwire count
  rw [written, hframe] at hstream
  obtain ⟨left, hbuffer, hleft⟩ := frame_of_holds hholds hstream
  refine ⟨left, ?_, hleft⟩
  rw [hbuffer, recvMsg_whole rounds (by decide) hroom, htype, hpayload]

/-- INTERNAL: the connections after the first message of one has been read. -/
theorem OnWire.pop {c : Wired n τ} {l : Linked n τ} (h : OnWire image k c l) {src dst : Fin n}
    {p : GenericMessage n} {rest : List (GenericMessage n)} (hwire : l.wire src dst = p :: rest)
    {count : ℕ} {left : Bytes}
    (hleft : left ++ (c.sent src dst).drop count = rest.flatMap (written image)) :
    OnWire image k
      { c with
        sent := Wired.setStream c.sent src dst ((c.sent src dst).drop count)
        input := Wired.setStream c.input src dst left }
      { l with wire := Linked.pop l.wire src dst } where
  replicas := h.replicas
  bytes := by
    intro i j
    dsimp only [Wired.setStream, Linked.pop]
    by_cases hij : i = src ∧ j = dst
    · rw [if_pos hij, if_pos hij, if_pos hij, hij.1, hij.2, hwire]
      exact hleft
    · rw [if_neg hij, if_neg hij, if_neg hij]
      exact h.bytes i j
  small := h.small
  idle := h.idle
  messages := fun i j q hq => h.messages i j q (mem_of_mem_pop hq)
  logs := h.logs

/-- INTERNAL: the type of a message for a peer is one that peers handle. -/
theorem msgType_handled (p : GenericMessage n) :
    p.msgType = .append ∨ p.msgType = .appendReply ∨ p.msgType = .guidance := by
  cases p with
  | append msg dst => exact .inl rfl
  | appendReply msg dst => exact .inr (.inl rfl)
  | guidance msg dst => exact .inr (.inr rfl)

/-- INTERNAL: what the assertion of `pack_operation` leaves for the operation of a message.
SOURCE: app/utils.cpp:39 -/
theorem Regular.op {c : Wired n τ} {r : Fin n} {msg : ClientMessage} {tr : τ}
    (h : Regular c (.client r msg tr)) : msg.op.length ≤ 1993 := op_length_le h.1

/-- INTERNAL: **one event, in lockstep**: when what arrives completes a frame, the bytes do what
the messages do. SOURCE: app/server.cpp:158-178, 185-229 -/
theorem OnWire.step {c : Wired n τ} {l : Linked n τ} (h : OnWire image k c l)
    (hreaders : readers.ReadPacked) (rounds : ℕ) (hn : n ≤ 255)
    {event : WiredEvent n τ} (hregular : Regular c event) (hwhole : CompletesFrame c event) :
    Together image (k + 1) (Wired.step image readers unpack (rounds + 1) c event)
      (Linked.step unpack l (WiredEvent.linked event)) := by
  cases event with
  | client r msg tr =>
    have hroom : HasRoom (l.replicas r) := by
      rw [← h.replicas]
      exact hregular.2
    simp only [Wired.step, Linked.step, WiredEvent.linked, h.replicas]
    exact h.callback r fun m effects hcall =>
      ⟨(h.small r).operation (h.idle r) hroom hregular.op hcall, fun g =>
        (operation_grows hcall g).trans (Nat.add_le_add_right (h.logs r g) 1)⟩
  | getGuidance r tr =>
    refine .inl ⟨c, l, _, rfl, ?_, h.later⟩
    rw [h.replicas]
    rfl
  | arrive src dst count =>
    obtain ⟨hsome, hholds⟩ := hwhole
    have hroom : HasRoom (l.replicas dst) := by
      rw [← h.replicas]
      exact hregular
    cases hwire : l.wire src dst with
    | nil =>
      have hbytes := h.bytes src dst
      rw [hwire, List.flatMap_nil, List.append_eq_nil_iff] at hbytes
      rw [hbytes.2, List.take_nil] at hsome
      exact absurd rfl hsome
    | cons p rest =>
      have hp := h.messages src dst p (by rw [hwire]; exact List.mem_cons_self)
      obtain ⟨left, hread, hleft⟩ := h.read rounds hn hwire hholds
      have hpop := h.pop hwire hleft
      have hcallback := hpop.callback dst fun m effects
          (hcall : Cluster.peerMsg unpack (l.replicas dst) p = .ok (m, effects)) =>
        ⟨(h.small dst).peerMsg (h.idle dst) hroom hp hcall, fun g =>
          ((h.small dst).peerMsg_grows hp hcall g).trans (Nat.add_le_add_right (h.logs dst g) 1)⟩
      have hok : Except.mapError WireFault.read (.ok (p.msgType, p.payload image, left)) =
          .ok (p.msgType, p.payload image, left) := rfl
      simp only [Wired.step, if_neg hsome, hread, Linked.step, WiredEvent.linked, hwire, hok,
        ok_bind, Wired.dispatch, if_neg p.msgType_known, if_pos (msgType_handled p),
        handlePayload_eq hreaders hn image _ hp, h.replicas]
      simp only [h.replicas] at hcallback
      exact hcallback

/-- INTERNAL: **a callback that returns has read a whole frame.**
SOURCE: app/utils.cpp:68-91; app/server.cpp:189-191 -/
theorem OnWire.completes {c c' : Wired n τ} {l : Linked n τ} (h : OnWire image k c l)
    (hn : n ≤ 255) {src dst : Fin n} {count : ℕ} {out : List (Fin n × Effect n τ)}
    (hsome : (c.sent src dst).take count ≠ [])
    (hstep : Wired.step image readers unpack rounds c (.arrive src dst count) = .ok (c', out)) :
    CompletesFrame c (.arrive src dst count) := by
  refine ⟨hsome, ?_⟩
  simp only [Wired.step, if_neg hsome] at hstep
  obtain ⟨⟨msgType, payload, left⟩, hmap, -⟩ := bind_eq_ok.mp hstep
  cases hread : recvMsg recvCapacity rounds
      (c.input src dst ++ (c.sent src dst).take count) with
  | error f =>
    rw [hread] at hmap
    cases hmap
  | ok res =>
    obtain ⟨msgType', payload', left'⟩ := res
    cases hwire : l.wire src dst with
    | nil =>
      have hbytes := h.bytes src dst
      rw [hwire, List.flatMap_nil, List.append_eq_nil_iff] at hbytes
      rw [hbytes.2, List.take_nil] at hsome
      exact absurd rfl hsome
    | cons p rest =>
      have hp := h.messages src dst p (by rw [hwire]; exact List.mem_cons_self)
      obtain ⟨f, hframe, -⟩ := small_frame hn image hp
      have hstream := h.first hwire count
      rw [written, hframe] at hstream
      obtain ⟨-, hbuffer, -⟩ := recvMsg_only ⟨_, hstream⟩ hread
      rw [hbuffer]
      constructor
      · rw [List.length_append, encode_length]
        omega
      · rw [Frame.encode, List.append_assoc, List.take_left' (frameHeader_length _ _),
          payloadSize_frameHeader f.msgType f.sized]
        simp only [List.length_append, frameHeader_length]
        omega

/-- INTERNAL: when the bytes go on, so do the messages. -/
theorem Together.ok {x : Except WireFault (Wired n τ × List (Fin n × Effect n τ))}
    {y : Except Fault (Linked n τ × List (Fin n × Effect n τ))} (h : Together image k x y)
    {c : Wired n τ} {out : List (Fin n × Effect n τ)} (hx : x = .ok (c, out)) :
    ∃ l, y = .ok (l, out) ∧ OnWire image k c l := by
  rcases h with ⟨c', l, out', hx', hy, hon⟩ | ⟨f, hx', -⟩
  · rw [hx] at hx'
    cases hx'
    exact ⟨l, hy, hon⟩
  · rw [hx] at hx'
    cases hx'

/-- INTERNAL: **one event that returns**: it is the event over messages, or nothing has arrived.
SOURCE: app/server.cpp:158-178, 185-229 -/
theorem OnWire.step_of_ok {c c' : Wired n τ} {l : Linked n τ} (h : OnWire image k c l)
    (hreaders : readers.ReadPacked) (hn : n ≤ 255) {event : WiredEvent n τ}
    (hregular : Regular c event)
    {out : List (Fin n × Effect n τ)}
    (hstep : Wired.step image readers unpack rounds c event = .ok (c', out)) :
    ∃ events l', events.filterMap LinkedEvent.fromOutside =
        (WiredEvent.fromOutside event).toList ∧
      Machine.run (Linked.step unpack) l events = .ok (l', out) ∧ OnWire image (k + 1) c' l' := by
  cases event with
  | client r msg tr =>
    have htogether : Together image (k + 1)
        (Wired.step image readers unpack rounds c (.client r msg tr))
        (Linked.step unpack l (.client r msg tr)) := h.step hreaders 0 hn hregular trivial
    obtain ⟨l', hl, hon⟩ := htogether.ok hstep
    exact ⟨[.client r msg tr], l', rfl, Machine.run_singleton _ hl, hon⟩
  | getGuidance r tr =>
    have htogether : Together image (k + 1)
        (Wired.step image readers unpack rounds c (.getGuidance r tr))
        (Linked.step unpack l (.getGuidance r tr)) := h.step hreaders 0 hn hregular trivial
    obtain ⟨l', hl, hon⟩ := htogether.ok hstep
    exact ⟨[.getGuidance r tr], l', rfl, Machine.run_singleton _ hl, hon⟩
  | arrive src dst count =>
    by_cases hsome : (c.sent src dst).take count = []
    · simp only [Wired.step, if_pos hsome] at hstep
      cases hstep
      exact ⟨[], l, rfl, rfl, h.later⟩
    · have hwhole := h.completes hn hsome hstep
      cases rounds with
      | zero =>
        -- the loop of `full_read` takes at least one round
        simp only [Wired.step, if_neg hsome] at hstep
        cases hstep
      | succ rounds =>
        obtain ⟨l', hl, hon⟩ := (h.step hreaders rounds hn hregular hwhole).ok hstep
        exact ⟨[.arrive src dst], l', rfl, Machine.run_singleton _ hl, hon⟩

/-! ## Runs -/

/-- A client's message is one that `pack_operation` does not refuse. SOURCE: app/utils.cpp:39 -/
def Packed : WiredEvent n τ → Prop
  | .client _ msg _ => msg.pack.length < 2000
  | .getGuidance _ _ => True
  | .arrive _ _ _ => True

instance : DecidablePred (Packed : WiredEvent n τ → Prop)
  | .client _ _ _ => inferInstanceAs (Decidable (_ < _))
  | .getGuidance _ _ => isTrue trivial
  | .arrive _ _ _ => isTrue trivial

/-- INTERNAL: no log is full before there have been 2^64 events. -/
theorem OnWire.regular {c : Wired n τ} {l : Linked n τ} (h : OnWire image k c l)
    (hk : k + 1 < 2 ^ 64) {event : WiredEvent n τ} (hpacked : Packed event) :
    Regular c event := by
  cases event with
  | client r msg tr => exact ⟨hpacked, h.hasRoom hk r⟩
  | getGuidance r tr => trivial
  | arrive src dst count => exact h.hasRoom hk dst

/-- **Bytes and messages in lockstep.**  Let the readers read back what has been packed.  For every
run of at most 255 servers over the bytes of their connections, in which clients send what
`pack_operation` does not refuse, there are less than 2^64 - 1 events, and what arrives completes
a frame: the run over messages that reads one
message where the run over bytes reads one frame returns when that one does, with the same
effects and the same replicas at its end, and fails when that one does, in the same call of a
replica. SOURCE: app/server.cpp:48-105, 158-178, 185-229; app/utils.cpp:50-91 -/
theorem wired_in_lockstep (image : GuidanceMessage n → Bytes) {readers : Readers}
    (hreaders : readers.ReadPacked) (unpack : Bytes → Option Operation) (rounds : ℕ) (hn : n ≤ 255)
    (events : List (WiredEvent n τ))
    (hcount : events.length + 1 < 2 ^ 64) (hpacked : ∀ event ∈ events, Packed event)
    (hwhole : Machine.Guarded (Wired.step image readers unpack (rounds + 1)) CompletesFrame
      (Wired.init n τ) events) :
    (∃ c l h, Machine.run (Wired.step image readers unpack (rounds + 1)) (Wired.init n τ) events =
        .ok (c, h) ∧
      Machine.run (Linked.step unpack) (Linked.init n τ) (events.map WiredEvent.linked) =
        .ok (l, h) ∧ l.replicas = c.replicas) ∨
    ∃ f, Machine.run (Wired.step image readers unpack (rounds + 1)) (Wired.init n τ) events =
        .error (.replica f) ∧
      Machine.run (Linked.step unpack) (Linked.init n τ) (events.map WiredEvent.linked) =
        .error f := by
  have hboth := (Machine.guarded_of_forall (Wired.step image readers unpack (rounds + 1))
    (G := fun _ event => Packed event) (fun event he _ => hpacked event he)
    (Wired.init n τ)).and _ hwhole
  have hguard := Machine.guarded_of_count (Wired.step image readers unpack (rounds + 1))
    (H := fun c event => Regular c event ∧ CompletesFrame c event)
    (I := fun k c => ∃ l, OnWire image k c l) (b := 2 ^ 64 - 2)
    (fun k c event c' out hk ⟨l, h⟩ hG hs => by
      have hregular := h.regular (by omega) hG.1
      obtain ⟨l', -, hon⟩ := (h.step hreaders rounds hn hregular hG.2).ok hs
      exact ⟨l', hon⟩)
    (fun k c event hk ⟨l, h⟩ hG => ⟨h.regular (by omega) hG.1, hG.2⟩)
    ⟨_, OnWire.init image⟩ (by omega) hboth
  have hruns := Machine.run_lockstep (Wired.step image readers unpack (rounds + 1))
    (Linked.step unpack) (R := fun c l => ∃ k, OnWire image k c l) (f := WiredEvent.linked)
    (E := fun e f => e = WireFault.replica f)
    (fun c l event ⟨k, h⟩ hG => by
      rcases h.step hreaders rounds hn hG.1 hG.2 with ⟨c', l', out, hc, hl, hon⟩ | ⟨f, hc, hl⟩
      · exact .inl ⟨c', l', out, hc, hl, k + 1, hon⟩
      · exact .inr ⟨_, f, hc, hl, rfl⟩)
    ⟨0, OnWire.init image⟩ hguard
  rcases hruns with ⟨c, l, h, hc, hl, k, hon⟩ | ⟨e, f, hc, hl, rfl⟩
  · exact .inl ⟨c, l, h, hc, hl, hon.replicas.symm⟩
  · exact .inr ⟨f, hc, hl⟩

/-- A client writes at a server. -/
def writeAt (r : Fin n) (data : UInt8) (tr : τ) : WiredEvent n τ :=
  .client r ⟨1, 0x0100, [0x93, 1, 0xcd, 1, 0, 0xc4, 1, data]⟩ tr

/-- The bytes of an append arrive all at once. -/
theorem whole_append_in_lockstep :
    Machine.Guarded (Wired.step (fun _ => []) packedReaders unpackOperation 1) CompletesFrame
      (Wired.init 2 ℕ) [writeAt 0 7 10, .arrive 0 1 30] ∧
    ∃ c l h, Machine.run (Wired.step (fun _ => []) packedReaders unpackOperation 1) (Wired.init 2 ℕ)
        [writeAt 0 7 10, .arrive 0 1 30] = .ok (c, h) ∧
      Machine.run (Linked.step unpackOperation) (Linked.init 2 ℕ)
        (List.map WiredEvent.linked [writeAt 0 7 10, .arrive 0 1 30]) = .ok (l, h) ∧
      l.replicas = c.replicas := by
  have hbytes : (Wired.step (fun _ => []) packedReaders unpackOperation 1 (Wired.init 2 ℕ)
      (writeAt 0 7 10)).toOption.map (fun r => (r.1.sent 0 1, r.1.input 0 1)) =
      some ([21, 0, 0, 0, 151, 0, 1, 0, 0, 0, 1, 145, 147, 1, 1, 196, 8, 147, 1, 205, 1, 0, 196,
        1, 7], []) := by
    decide +kernel
  have hwhole : Machine.Guarded (Wired.step (fun _ => []) packedReaders unpackOperation 1)
      CompletesFrame (Wired.init 2 ℕ) [writeAt 0 7 10, .arrive 0 1 30] := by
    refine ⟨trivial, fun c out hstep => ⟨?_, fun _ _ _ => trivial⟩⟩
    rw [hstep] at hbytes
    obtain ⟨hsent, hinput⟩ : c.sent 0 1 = _ ∧ c.input 0 1 = _ :=
      Prod.mk.inj (Option.some.inj hbytes)
    simp only [CompletesFrame, hsent, hinput]
    decide
  have hrun : (Machine.run (Wired.step (fun _ => []) packedReaders unpackOperation 1)
      (Wired.init 2 ℕ) [writeAt 0 7 10, .arrive 0 1 30]).toOption.map (fun r => r.2.length) =
        some 1 := by
    decide +kernel
  refine ⟨hwhole, ?_⟩
  rcases wired_in_lockstep (fun _ => []) packedReaders_readPacked
      unpackOperation 0 (by decide)
      [writeAt 0 7 10, .arrive 0 1 30] (by decide) (by decide) hwhole with hboth | ⟨f, hfail, -⟩
  · exact hboth
  · rw [hfail] at hrun
    cases hrun

/-- **Bytes carry messages.**  Let the readers read back what has been packed.  Every run of at
most 255 servers over the bytes of their connections that returns, in which clients send what
`pack_operation` does not refuse and there are less than 2^64 - 1 events, however the bytes are
cut when they arrive, has a run over messages, with the same messages from outside in the same
order, the same effects, and the same replicas at its end.
SOURCE: app/server.cpp:48-105, 158-178, 185-229; app/utils.cpp:50-91 -/
theorem wired_refines (image : GuidanceMessage n → Bytes) {readers : Readers}
    (hreaders : readers.ReadPacked) (unpack : Bytes → Option Operation) (rounds : ℕ) (hn : n ≤ 255)
    (events : List (WiredEvent n τ))
    (hcount : events.length + 1 < 2 ^ 64) (hpacked : ∀ event ∈ events, Packed event)
    {c : Wired n τ} {h : List (Fin n × Effect n τ)}
    (hrun : Machine.run (Wired.step image readers unpack rounds) (Wired.init n τ) events =
      .ok (c, h)) :
    ∃ events' l, events'.filterMap LinkedEvent.fromOutside =
        events.filterMap WiredEvent.fromOutside ∧
      Machine.run (Linked.step unpack) (Linked.init n τ) events' = .ok (l, h) ∧
      l.replicas = c.replicas := by
  have hguard := Machine.guarded_of_count (Wired.step image readers unpack rounds)
    (G := fun _ event => Packed event) (H := Regular) (I := fun k c => ∃ l, OnWire image k c l)
    (b := 2 ^ 64 - 2)
    (fun k c event c' out hk ⟨l, h⟩ hG hs => by
      obtain ⟨-, l', -, -, hon⟩ := h.step_of_ok hreaders hn (h.regular (by omega) hG) hs
      exact ⟨l', hon⟩)
    (fun k c event hk ⟨l, h⟩ hG => h.regular (by omega) hG)
    ⟨_, OnWire.init image⟩ (by omega)
    (Machine.guarded_of_forall _ (fun event he _ => hpacked event he) _)
  obtain ⟨events', l, hsame, hrun', k, hon⟩ := Machine.run_refines
    (Wired.step image readers unpack rounds) (Linked.step unpack) (G := Regular)
    (R := fun c l => ∃ k, OnWire image k c l) (f := WiredEvent.fromOutside)
    (g := LinkedEvent.fromOutside) (p := some)
    (fun c l event c' out ⟨k, h⟩ hG hs => by
      rw [List.filterMap_some]
      obtain ⟨events', l', hsame, hl, hon⟩ := h.step_of_ok hreaders hn hG hs
      exact ⟨events', l', hsame, hl, k + 1, hon⟩)
    ⟨0, OnWire.init image⟩ hguard hrun
  rw [List.filterMap_some] at hrun'
  exact ⟨events', l, hsame, hrun', hon.replicas.symm⟩

/-- Two writes at one server, and what it writes to another one arrives in two parts. -/
def cutInTwo (r r' : Fin n) : List (WiredEvent n ℕ) :=
  [writeAt r 7 10, writeAt r 8 20, .arrive r r' 30, .arrive r r' 30, .arrive r' r 12,
    .arrive r' r 12]

/-- Two appends and the answers to them cross the connections in parts. -/
theorem wired_of_two_writes : (cutInTwo (0 : Fin 2) 1).length + 1 < 2 ^ 64 ∧
    (∃ c h, Machine.run (Wired.step (fun _ => []) packedReaders unpackOperation 1) (Wired.init 2 ℕ)
      (cutInTwo 0 1) = .ok (c, h)) ∧
    ∃ events' l, ∃ h : List (Fin 2 × Effect 2 ℕ), events'.filterMap LinkedEvent.fromOutside =
        (cutInTwo 0 1).filterMap WiredEvent.fromOutside ∧
      Machine.run (Linked.step unpackOperation) (Linked.init 2 ℕ) events' = .ok (l, h) ∧
      h.length = 6 := by
  have hrun : (Machine.run (Wired.step (fun _ => []) packedReaders unpackOperation 1)
      (Wired.init 2 ℕ) (cutInTwo 0 1)).toOption.map (fun r => r.2.length) = some 6 := by
    decide +kernel
  cases hres : Machine.run (Wired.step (fun _ => []) packedReaders unpackOperation 1)
      (Wired.init 2 ℕ) (cutInTwo 0 1) with
  | error f =>
    rw [hres] at hrun
    cases hrun
  | ok res =>
    obtain ⟨c, h⟩ := res
    rw [hres] at hrun
    obtain ⟨events', l, hsame, hl, -⟩ := wired_refines (fun _ => [])
      packedReaders_readPacked unpackOperation 1 (by decide) (cutInTwo 0 1) (by decide) (by decide)
      hres
    exact ⟨by decide, ⟨c, h, rfl⟩, events', l, h, hsame, hl, Option.some.inj hrun⟩

end MorphlingC.Analysis
