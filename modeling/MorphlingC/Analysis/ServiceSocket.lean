import MorphlingC.Analysis.MessageCodec
import MorphlingC.Analysis.ReplicaHandlers
import MorphlingC.Library.Schedules
import MorphlingC.Model.Datagrams

/-!
# One stray datagram closes the socket for clients

`ev_service` takes two types of messages off its socket and only reports any other, which stays
in front.  So a server takes up the requests of its clients in the order in which they came, each
once, up to the first datagram of another type, and no request that comes after this one is ever
taken up (`taken_up_to_stray`).
-/

set_option autoImplicit false

namespace MorphlingC.Analysis

open MorphlingC.Library MorphlingC.Model MorphlingC.Interface MorphlingC.Model.Morphling

variable {n : ℕ} {τ : Type} {readers : Readers} {unpack : Bytes → Option Operation}
  {image : GuidanceMessage n → Bytes}

/-- The two types of datagrams that `ev_service` takes off its socket.
SOURCE: app/server2.cpp:248, 266 -/
def Served (datagram : Bytes) : Prop :=
  (MessageHeader.ofBytes datagram).msgType = .client ∨
    (MessageHeader.ofBytes datagram).msgType = .getGuidance

instance : DecidablePred Served := fun _ => inferInstanceAs (Decidable (_ ∨ _))

/-- The sender of a datagram that is taken off the socket. -/
def servedFor (q : Bytes × τ) : Option τ := if Served q.1 then some q.2 else none

/-- The client whose request an effect takes up: its operation is queued or replied to at once,
or it gets the guidance. -/
def Effect.takesUp : Effect n τ → Option τ
  | .created _ _ tr => some tr
  | .queued _ _ => none
  | .answered _ _ _ => none
  | .read tr _ => some tr
  | .guidance tr _ => some tr

/-- The clients whose requests a server takes up, in order. -/
def takenUp (r : Fin n) (h : List (Fin n × Effect n τ)) : List τ :=
  h.filterMap fun e => if e.1 = r then Effect.takesUp e.2 else none

/-- The datagrams that an event brings to the socket for clients of a server. -/
def DatagramEvent.requests (r : Fin n) : DatagramEvent n τ → List (Bytes × τ)
  | .request j datagram tr => if j = r then [(datagram, tr)] else []
  | .arrive _ _ => []
  | .service _ => []
  | .peer _ => []
  | .period _ => []

/-- INTERNAL: the effects of one server take up what they do there, and nothing elsewhere. -/
theorem takenUp_map (r j : Fin n) (effects : List (Effect n τ)) :
    takenUp r (effects.map (j, ·)) =
      if j = r then effects.filterMap Effect.takesUp else [] := by
  unfold takenUp
  rw [List.filterMap_map]
  by_cases hj : j = r
  · simp only [Function.comp_def, hj, if_true]
  · simp only [Function.comp_def, if_neg hj, List.filterMap_none]

/-! ## The callbacks -/

/-- INTERNAL: an operation is taken up once. SOURCE: core/morphling.cpp:103-126 -/
theorem takesUp_operation {m m' : Morphling n τ} {msg : ClientMessage} {tr : τ}
    {effects : List (Effect n τ)} (h : m.handleOperation unpack msg tr = .ok (m', effects)) :
    effects.filterMap Effect.takesUp = [tr] := by
  rcases handleOperation_cases h with
    ⟨-, -, rfl⟩ | ⟨-, op, -, ⟨-, -, rfl⟩ | ⟨-, _, _, _, -, -, rfl⟩⟩
  · rfl
  · rfl
  · rfl

/-- INTERNAL: the callbacks of a group take nothing up. -/
theorem takesUp_callbacks (gid : ℕ) (cbs : List Callback) :
    (cbs.filterMap (Callback.effect n τ gid)).filterMap Effect.takesUp = [] := by
  apply List.filterMap_eq_nil_iff.mpr
  intro e he
  obtain ⟨cb, -, hcb⟩ := List.mem_filterMap.mp he
  cases cb <;> cases hcb
  rfl

/-- INTERNAL: what is applied was taken up before. SOURCE: core/morphling.cpp:187-202 -/
theorem takesUp_applyAll {entries : List Entry} {m m' : Morphling n τ}
    {outs : List (Effect n τ)} (h : applyAll unpack entries m = .ok (m', outs)) :
    outs.filterMap Effect.takesUp = [] := by
  induction entries generalizing m m' outs with
  | nil =>
    cases h
    rfl
  | cons e rest ih =>
    unfold applyAll at h
    obtain ⟨⟨m₁, answer⟩, hone, h⟩ := bind_eq_ok.mp h
    obtain ⟨⟨m₂, others⟩, hrest, h⟩ := bind_eq_ok.mp h
    cases h
    obtain ⟨op, -, hone⟩ := bind_eq_ok.mp hone
    dsimp only at hone
    split at hone
    · cases hone
    · cases hone
      have hothers : others.filterMap Effect.takesUp = [] := ih hrest
      exact hothers

/-- INTERNAL: a message of a peer takes nothing up. SOURCE: core/morphling.cpp:128-147, 186-204 -/
theorem takesUp_peerMsg {m m' : Morphling n τ} {p : GenericMessage n}
    {effects : List (Effect n τ)} (h : Cluster.peerMsg unpack m p = .ok (m', effects)) :
    effects.filterMap Effect.takesUp = [] := by
  cases p with
  | append msg dst =>
    rcases handleAppend_cases h with ⟨-, -, rfl⟩ | ⟨-, gid, _, cbs, -, -, -, rfl⟩
    · rfl
    · exact takesUp_callbacks gid cbs
  | appendReply msg dst =>
    obtain ⟨⟨m₁, queued⟩, hack, h⟩ := bind_eq_ok.mp h
    obtain ⟨⟨m₂, answers⟩, happly, h⟩ := bind_eq_ok.mp h
    obtain ⟨⟨m₃, outs⟩, hall, hanswers⟩ := bind_eq_ok.mp happly
    cases hanswers
    cases h
    have hqueued : queued.filterMap Effect.takesUp = [] := by
      rcases handleAck_cases hack with ⟨-, -, rfl⟩ | ⟨-, gid, _, cbs, -, -, -, rfl⟩
      · rfl
      · exact takesUp_callbacks gid cbs
    rw [List.filterMap_append, hqueued, takesUp_applyAll hall, List.append_nil]
  | guidance msg dst =>
    cases h
    rfl

/-- INTERNAL: no payload of a peer takes anything up. SOURCE: app/server2.cpp:296-310 -/
theorem takesUp_handlePayload {m m' : Morphling n τ} {msgType : MessageType} {payload : Bytes}
    {effects : List (Effect n τ)}
    (h : m.handlePayload readers unpack msgType payload = .ok (m', effects)) :
    effects.filterMap Effect.takesUp = [] := by
  unfold handlePayload at h
  split at h
  · split at h
    · cases h
    · exact takesUp_peerMsg (mapError_eq_ok.mp h)
  · split at h
    · cases h
    · exact takesUp_peerMsg (mapError_eq_ok.mp h)
  · cases h
    rfl

/-- INTERNAL: the end of a callback leaves the socket for clients alone. -/
theorem finish_service {c c' : Datagrams n τ} {r : Fin n} {m : Morphling n τ}
    {effects : List (Effect n τ)} (h : c.finish image r m effects = .ok c') :
    c'.service = c.service := by
  obtain ⟨_, -, h⟩ := bind_eq_ok.mp h
  obtain ⟨_, -, h⟩ := bind_eq_ok.mp h
  obtain ⟨_, -, h⟩ := bind_eq_ok.mp h
  cases h
  rfl

/-- INTERNAL: **what `ev_service` does with the socket**, when it returns: it takes the first
datagram up, or there is none, or it is a stray one and stays. SOURCE: app/server2.cpp:234-277 -/
theorem serviceEvent_cases {c c' : Datagrams n τ} {r : Fin n} {effects : List (Effect n τ)}
    (h : c.serviceEvent image readers unpack r = .ok (c', effects)) :
    (∃ datagram tr rest, c.service r = (datagram, tr) :: rest ∧ Served datagram ∧
      c'.service = Function.update c.service r rest ∧
      effects.filterMap Effect.takesUp = [tr]) ∨
    ((∀ q ∈ (c.service r).head?, ¬Served q.1) ∧ c' = c ∧ effects = []) := by
  unfold Datagrams.serviceEvent at h
  cases hqueue : c.service r with
  | nil =>
    rw [hqueue] at h
    cases h
    exact .inr ⟨fun q hq => absurd hq (Option.not_mem_none q), rfl, rfl⟩
  | cons q rest =>
    obtain ⟨datagram, tr⟩ := q
    simp only [hqueue] at h
    split_ifs at h with hheader hclient hget
    · -- a client's message
      obtain ⟨payload, -, h⟩ := bind_eq_ok.mp h
      split at h
      · cases h
      · obtain ⟨⟨m, outs⟩, hhandle, h⟩ := bind_eq_ok.mp h
        obtain ⟨c₁, hfinish, h⟩ := bind_eq_ok.mp h
        cases h
        refine .inl ⟨datagram, tr, rest, rfl, .inl hclient, ?_, ?_⟩
        · exact finish_service hfinish
        · exact takesUp_operation (mapError_eq_ok.mp hhandle)
    · -- a request for the guidance
      obtain ⟨_, -, h⟩ := bind_eq_ok.mp h
      cases h
      exact .inl ⟨datagram, tr, rest, rfl, .inr hget, rfl, rfl⟩
    · cases h
      refine .inr ⟨fun q hq => ?_, rfl, rfl⟩
      cases hq
      exact not_or.mpr ⟨hclient, hget⟩

/-- INTERNAL: `ev_peer` leaves the socket for clients alone and takes nothing up.
SOURCE: app/server2.cpp:279-316 -/
theorem peerEvent_quiet {c c' : Datagrams n τ} {r : Fin n} {effects : List (Effect n τ)}
    (h : c.peerEvent image readers unpack r = .ok (c', effects)) :
    c'.service = c.service ∧ effects.filterMap Effect.takesUp = [] := by
  unfold Datagrams.peerEvent at h
  split at h
  · cases h
    exact ⟨rfl, rfl⟩
  · split at h
    · cases h
    · obtain ⟨payload, -, h⟩ := bind_eq_ok.mp h
      obtain ⟨⟨m, outs⟩, hhandle, h⟩ := bind_eq_ok.mp h
      obtain ⟨c₁, hfinish, h⟩ := bind_eq_ok.mp h
      cases h
      have hsame := finish_service hfinish
      exact ⟨hsame, takesUp_handlePayload (mapError_eq_ok.mp hhandle)⟩

/-! ## Runs -/

/-- INTERNAL: **one event takes up what it takes off the socket.**
SOURCE: app/server2.cpp:234-333 -/
theorem step_serves (r : Fin n) {c c' : Datagrams n τ} {event : DatagramEvent n τ}
    {out : List (Fin n × Effect n τ)}
    (h : Datagrams.step image readers unpack c event = .ok (c', out)) :
    ∃ taken, c.service r ++ DatagramEvent.requests r event = taken ++ c'.service r ∧
      taken.map servedFor = (takenUp r out).map some := by
  cases event with
  | request j datagram tr =>
    cases h
    refine ⟨[], ?_, rfl⟩
    by_cases hj : j = r
    · subst hj
      simp [DatagramEvent.requests]
    · simp [DatagramEvent.requests, hj, Function.update_of_ne (Ne.symm hj)]
  | arrive j k =>
    unfold Datagrams.step at h
    dsimp only at h
    split at h
    · cases h
      exact ⟨[], List.append_nil _, rfl⟩
    · cases h
      exact ⟨[], List.append_nil _, rfl⟩
  | service j =>
    obtain ⟨⟨c₁, effects⟩, hcall, h⟩ := bind_eq_ok.mp h
    cases h
    rw [takenUp_map]
    rcases serviceEvent_cases hcall with ⟨datagram, tr, rest, hqueue, hserved, hrest, hup⟩ |
      ⟨-, rfl, rfl⟩
    · by_cases hj : j = r
      · subst hj
        refine ⟨[(datagram, tr)], ?_, ?_⟩
        · rw [hqueue, hrest, Function.update_self]
          exact List.append_nil _
        · rw [if_pos rfl, hup]
          simp [servedFor, hserved]
      · refine ⟨[], ?_, ?_⟩
        · rw [hrest, Function.update_of_ne (Ne.symm hj)]
          exact List.append_nil _
        · rw [if_neg hj]
          rfl
    · refine ⟨[], List.append_nil _, ?_⟩
      rw [List.filterMap_nil, ite_self]
      rfl
  | peer j =>
    obtain ⟨⟨c₁, effects⟩, hcall, h⟩ := bind_eq_ok.mp h
    cases h
    obtain ⟨hsame, hup⟩ := peerEvent_quiet hcall
    refine ⟨[], ?_, ?_⟩
    · rw [hsame]
      exact List.append_nil _
    · rw [takenUp_map, hup, ite_self]
      rfl
  | period j =>
    obtain ⟨c₁, hcall, h⟩ := bind_eq_ok.mp h
    cases h
    obtain ⟨_, -, hcall⟩ := bind_eq_ok.mp hcall
    cases hcall
    exact ⟨[], List.append_nil _, rfl⟩

/-- INTERNAL: **what has been taken up is a beginning of what was asked for.**
SOURCE: app/server2.cpp:234-333 -/
theorem exists_served (r : Fin n) {events : List (DatagramEvent n τ)} {c : Datagrams n τ}
    {h : List (Fin n × Effect n τ)}
    (hrun : Machine.run (Datagrams.step image readers unpack) (Datagrams.init n τ) events =
      .ok (c, h)) :
    ∃ taken, events.flatMap (DatagramEvent.requests r) = taken ++ c.service r ∧
      taken.map servedFor = (takenUp r h).map some :=
  Machine.run_serves (Datagrams.step image readers unpack) (G := fun _ _ => True)
    (Q := fun c : Datagrams n τ => c.service r) (A := DatagramEvent.requests r)
    (f := servedFor) (p := fun e => if e.1 = r then Effect.takesUp e.2 else none)
    (fun _ _ _ _ _ hs => step_serves r hs) (Machine.guarded_of_forall _ (fun _ _ _ => trivial) _)
    hrun

/-- The senders of the datagrams before the first one of another type. -/
def upToStray (queue : List (Bytes × τ)) : List τ :=
  (queue.takeWhile fun q => Served q.1).map Prod.snd

/-- INTERNAL: a request in front counts. -/
theorem upToStray_cons_of_served {q : Bytes × τ} {queue : List (Bytes × τ)} (h : Served q.1) :
    upToStray (q :: queue) = q.2 :: upToStray queue := by
  unfold upToStray
  rw [List.takeWhile_cons_of_pos (p := fun q : Bytes × τ => decide (Served q.1))
    (decide_eq_true h), List.map_cons]

/-- INTERNAL: nothing behind a stray datagram counts. -/
theorem upToStray_of_stray {queue : List (Bytes × τ)} (h : ∀ q ∈ queue.head?, ¬Served q.1) :
    upToStray queue = [] := by
  cases queue with
  | nil => rfl
  | cons q queue =>
    have hq : ¬Served q.1 := h q (Option.mem_some_self q)
    unfold upToStray
    rw [List.takeWhile_cons_of_neg (p := fun q : Bytes × τ => decide (Served q.1))
      (fun hd => hq (of_decide_eq_true hd)), List.map_nil]

/-- INTERNAL: senders of requests are those that requests are taken off for. -/
theorem upToStray_append {taken queue : List (Bytes × τ)} {clients : List τ}
    (h : taken.map servedFor = clients.map some) :
    upToStray (taken ++ queue) = clients ++ upToStray queue := by
  induction taken generalizing clients with
  | nil =>
    rw [List.map_eq_nil_iff.mp h.symm]
    rfl
  | cons q taken ih =>
    cases clients with
    | nil => cases h
    | cons tr clients =>
      obtain ⟨hq, hrest⟩ := List.cons.inj h
      unfold servedFor at hq
      split at hq
      · rename_i hserved
        cases hq
        rw [List.cons_append, upToStray_cons_of_served hserved, ih hrest, List.cons_append]
      · cases hq

/-- INTERNAL: as many callbacks take as many requests off, up to a stray one.
SOURCE: app/server2.cpp:234-277 -/
theorem upToStray_callbacks (r : Fin n) (k : ℕ) {c c' : Datagrams n τ}
    {h : List (Fin n × Effect n τ)}
    (hrun : Machine.run (Datagrams.step image readers unpack) c (List.replicate k (.service r)) =
      .ok (c', h)) :
    upToStray (c'.service r) = (upToStray (c.service r)).drop k := by
  induction k generalizing c h with
  | zero =>
    cases hrun
    rfl
  | succ k ih =>
    rw [List.replicate_succ] at hrun
    obtain ⟨c₁, out, h', hstep, hrest, -⟩ := Machine.run_cons_ok _ |>.mp hrun
    obtain ⟨⟨c₂, effects⟩, hcall, heq⟩ := bind_eq_ok.mp hstep
    cases heq
    have hone : upToStray (c₁.service r) = (upToStray (c.service r)).drop 1 := by
      rcases serviceEvent_cases hcall with ⟨datagram, tr, rest, hqueue, hserved, hsame, hup⟩ |
        ⟨hstray, hsame, hquiet⟩
      · rw [hqueue, hsame, Function.update_self,
          upToStray_cons_of_served (q := (datagram, tr)) hserved]
        rfl
      · rw [hsame, upToStray_of_stray hstray]
        rfl
    rw [ih hrest, hone, List.drop_drop, Nat.add_comm]

/-- **Up to the first stray datagram, and no further.**  In every run that returns, whatever
arrives at the sockets and whatever the library's readers make of it, and whichever callbacks run
when: the clients whose requests a server has taken up, followed by those that wait for it before
any stray datagram, are the senders of all that came before the first datagram of another type
than the two that are served, in order.  After enough callbacks none of these waits.  So
everything behind a stray datagram waits forever.
SOURCE: app/server2.cpp:234-333 -/
theorem taken_up_to_stray (image : GuidanceMessage n → Bytes) (readers : Readers)
    (unpack : Bytes → Option Operation) (r : Fin n) (events : List (DatagramEvent n τ)) (k : ℕ)
    {c : Datagrams n τ} {h : List (Fin n × Effect n τ)}
    (hrun : Machine.run (Datagrams.step image readers unpack) (Datagrams.init n τ)
      (events ++ List.replicate k (.service r)) = .ok (c, h)) :
    takenUp r h ++ upToStray (c.service r) =
        upToStray (events.flatMap (DatagramEvent.requests r)) ∧
      ((events.flatMap (DatagramEvent.requests r)).length ≤ k →
        upToStray (c.service r) = []) := by
  have hnone : (List.replicate k (.service r)).flatMap
      (DatagramEvent.requests (τ := τ) r) = [] := by
    simp [DatagramEvent.requests]
  constructor
  · obtain ⟨taken, hqueue, hmade⟩ := exists_served r hrun
    rw [List.flatMap_append, hnone, List.append_nil] at hqueue
    rw [hqueue, upToStray_append hmade]
  · intro hk
    obtain ⟨c₁, h₁, h₂, hfirst, hsecond⟩ := Machine.exists_of_run_append _ hrun
    rw [upToStray_callbacks r k hsecond]
    obtain ⟨taken, hqueue, -⟩ := exists_served r hfirst
    have hlength := congrArg List.length hqueue
    have hwhile := (List.takeWhile_sublist (fun q : Bytes × τ => decide (Served q.1))
      (l := c₁.service r)).length_le
    apply List.drop_eq_nil_of_le
    rw [upToStray, List.length_map]
    rw [List.length_append] at hlength
    omega

/-- A write, a datagram of the type of replies, and a request for the guidance. -/
def strayInBetween (r : Fin n) : List (DatagramEvent n ℕ) :=
  [.request r (udpSend .client (ClientMessage.pack
      ⟨1, 0x0100, [0x93, 1, 0xcd, 1, 0, 0xc4, 1, 7]⟩)) 10,
    .request r (udpSend .clientReply []) 20, .request r packGetGuiddance 30]

/-- The write is taken up and the request is not, whatever is done about it. -/
theorem write_taken_up :
    (∃ c, Machine.run (Datagrams.step (fun _ => []) packedReaders unpackOperation)
      (Datagrams.init 2 ℕ) (strayInBetween 0 ++ List.replicate 3 (.service 0)) =
        .ok (c, [(0, .created 1 1 10)])) ∧
    upToStray ((strayInBetween (0 : Fin 2)).flatMap (DatagramEvent.requests 0)) = [10] := by
  have hrun : (Machine.run (Datagrams.step (fun _ => []) packedReaders unpackOperation)
      (Datagrams.init 2 ℕ)
      (strayInBetween 0 ++ List.replicate 3 (.service 0))).toOption.map Prod.snd =
      some [(0, .created 1 1 10)] := by
    decide +kernel
  cases hres : Machine.run (Datagrams.step (fun _ => []) packedReaders unpackOperation)
      (Datagrams.init 2 ℕ) (strayInBetween 0 ++ List.replicate 3 (.service 0)) with
  | error f =>
    rw [hres] at hrun
    cases hrun
  | ok res =>
    obtain ⟨c, h⟩ := res
    rw [hres] at hrun
    obtain rfl : h = [(0, .created 1 1 10)] := Option.some.inj hrun
    obtain ⟨hall, hnone⟩ := taken_up_to_stray (fun _ => []) packedReaders
      unpackOperation 0
      (strayInBetween 0) 3 hres
    rw [hnone (by decide)] at hall
    exact ⟨⟨c, rfl⟩, hall.symm⟩

end MorphlingC.Analysis
