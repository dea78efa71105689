import MorphlingC.Analysis.ClusterRuns
import MorphlingC.Analysis.GuidanceRead
import MorphlingC.Model.Deployment

/-!
# What a client does under one guidance

All replicas start with one guidance and never change it, so a client collects nothing else.
For a client in this invariant (`ClientOk`) the functions of `app/client2.cpp` never run into a
fatal error, and what they do can be said exactly: set-up (`checkSetup_eq`, `checkSetups_ok`),
sending (`oneSendIn_eq`) and the answers (`ClientOk.guidance`, `ClientOk.reply`).
-/

set_option autoImplicit false

namespace MorphlingC.Analysis

open MorphlingC.Library MorphlingC.Model MorphlingC.Model.Client

variable {n : ℕ} {cfg : ProcessConfig} {c : Client n}

/-- The operation that the clients of a process send. SOURCE: app/client2.cpp:364-372 -/
def operationOf (cfg : ProcessConfig) : Operation where
  opType := if cfg.isRead then 0 else 1
  keyHash := theKey
  data := if cfg.isRead then [] else cfg.value

/-- The message that carries it. -/
def messageOf (cfg : ProcessConfig) : ClientMessage where
  epoch := 1
  keyHash := theKey
  op := cfg.pack (operationOf cfg)

/-- The client has sent an operation and has not read the reply. -/
def awaiting (s : Status) : Bool := s = .reading || s = .writing

/-- **The invariant of a client.** -/
structure ClientOk (cfg : ProcessConfig) (c : Client n) : Prop where
  value : c.data = cfg.value
  collected : ∀ id, c.oneTurnCollection id = {} ∨
    c.oneTurnCollection id = Guidance.initLocalGuidance {}
  leading : c.status ≠ .init → c.leadingGuidance = Guidance.initLocalGuidance {}
  unreplicated : cfg.unreplicatedRead = true → c.status ≠ .writing

/-- INTERNAL: a client that holds the value to write sends the operation of its process. -/
theorem nextOperation_eq (h : c.data = cfg.value) :
    c.nextOperation cfg.toClientConfig = operationOf cfg := by
  unfold nextOperation operationOf
  cases cfg.isRead with
  | true => rfl
  | false => simp [h]

/-- INTERNAL: what a client collects under one guidance, when its collection changes in one
place or is cleared. -/
theorem collected_set (h : ∀ id, c.oneTurnCollection id = {} ∨
      c.oneTurnCollection id = Guidance.initLocalGuidance {}) (id i : Fin n) :
    (c.setGuidance id (Guidance.initLocalGuidance {})).oneTurnCollection i = {} ∨
      (c.setGuidance id (Guidance.initLocalGuidance {})).oneTurnCollection i =
        Guidance.initLocalGuidance {} := by
  by_cases hi : i = id
  · subst hi
    exact .inr (c.setGuidance_self i _)
  · rw [c.setGuidance_of_ne hi]
    exact h i

/-! ## Set-up -/

/-- INTERNAL: **a client with a uniform collection has the guidance of the replicas from all
of them.** SOURCE: app/client2.cpp:255-266 -/
theorem ClientOk.uniform (h : ClientOk cfg c) (huniform : c.hasUniformGuidance = true)
    (i : Fin n) : c.oneTurnCollection i = Guidance.initLocalGuidance {} := by
  unfold hasUniformGuidance at huniform
  cases hepochs : c.epochs with
  | nil => simp [hepochs] at huniform
  | cons fe rest =>
    simp only [hepochs] at huniform
    split_ifs at huniform with hzero
    have hmem : (c.oneTurnCollection i).epoch ∈ c.epochs :=
      List.mem_map_of_mem (List.mem_finRange i)
    rw [hepochs] at hmem
    have hne : (c.oneTurnCollection i).epoch ≠ 0 := by
      rcases List.mem_cons.mp hmem with heq | hrest
      · rw [heq]
        exact hzero
      · have hfe := List.all_eq_true.mp huniform _ hrest
        rw [of_decide_eq_true hfe]
        exact hzero
    refine (h.collected i).resolve_left fun hempty => hne ?_
    rw [hempty]

/-- INTERNAL: the epochs of a collection that holds the guidance of every replica. -/
theorem epochs_of_filled (h : ∀ i, c.oneTurnCollection i = Guidance.initLocalGuidance {}) :
    c.epochs = List.replicate n 1 := by
  rw [epochs, List.eq_replicate_iff]
  refine ⟨by simp, fun e he => ?_⟩
  obtain ⟨i, -, rfl⟩ := List.mem_map.mp he
  rw [h]
  rfl

/-- INTERNAL: in such a collection all agree on the one epoch. SOURCE: app/client2.cpp:230-236 -/
theorem votes_of_filled (hn : 0 < n)
    (h : ∀ i, c.oneTurnCollection i = Guidance.initLocalGuidance {}) :
    c.lastEpoch = 1 ∧ c.epochVotes 1 = n := by
  constructor
  · rw [lastEpoch, epochs_of_filled h]
    obtain ⟨m, rfl⟩ : ∃ m, n = m + 1 := ⟨n - 1, by omega⟩
    have hle : ∀ m, (List.replicate m 1).foldr max 0 ≤ 1 := by
      intro m
      induction m with
      | zero => exact Nat.zero_le _
      | succ m ih =>
        rw [List.replicate_succ, List.foldr_cons]
        exact max_le le_rfl ih
    rw [List.replicate_succ, List.foldr_cons]
    exact max_eq_left (hle m)
  · rw [epochVotes, epochs_of_filled h, List.count_replicate_self]

/-- INTERNAL: with the guidance of all replicas, it becomes the one that the client follows.
SOURCE: app/client2.cpp:267-289 -/
theorem updateLeadingGuidance_eq (hn : 0 < n)
    (h : ∀ i, c.oneTurnCollection i = Guidance.initLocalGuidance {}) :
    c.updateLeadingGuidance =
      ({ c with leadingGuidance := Guidance.initLocalGuidance {} }, true) := by
  obtain ⟨hlast, hvotes⟩ := votes_of_filled hn h
  have hfind : ∃ id, ((List.finRange n).find? fun id => (c.oneTurnCollection id).epoch = 1) =
      some id := by
    rw [← Option.isSome_iff_exists, List.find?_isSome]
    exact ⟨⟨0, hn⟩, List.mem_finRange _, by rw [h]; rfl⟩
  obtain ⟨id, hid⟩ := hfind
  have hquorum : n ≥ quorum n := by
    unfold quorum
    omega
  simp only [updateLeadingGuidance, hlast, hvotes, hquorum, if_true]
  rw [hid]
  dsimp only
  rw [h]

/-- INTERNAL: **set-up of one client.** SOURCE: app/client2.cpp:553-568 -/
theorem checkSetup_eq (h : ClientOk cfg c) (hn : 0 < n) :
    c.checkSetup = .ok (if c.hasUniformGuidance then
      ({ c with leadingGuidance := Guidance.initLocalGuidance {}, status := .idle }, true)
      else (c, false)) := by
  unfold checkSetup
  cases huniform : c.hasUniformGuidance with
  | false => rfl
  | true =>
    simp only [updateLeadingGuidance_eq hn (h.uniform huniform), Bool.not_true,
      Bool.false_eq_true, if_false, if_true]

/-- INTERNAL: a client that is set up is in the invariant. -/
theorem ClientOk.setUp (h : ClientOk cfg c) :
    ClientOk cfg { c with leadingGuidance := Guidance.initLocalGuidance {}, status := .idle } where
  value := h.value
  collected := h.collected
  leading := fun _ => rfl
  unreplicated := fun _ hwriting => by cases hwriting

/-- INTERNAL: **set-up of the clients of a thread**: some of them are set up, and all of them
when the answer is that they are. SOURCE: app/client2.cpp:553-568 -/
theorem checkSetups_ok {κ : Type} [DecidableEq κ] {cfgs : κ → ProcessConfig} (hn : 0 < n)
    (ks : List κ) {clients : κ → Client n} (h : ∀ k, ClientOk (cfgs k) (clients k)) :
    ∃ clients' ready, checkSetups clients ks = .ok (clients', ready) ∧
      (∀ k, clients' k = clients k ∨ k ∈ ks ∧ (clients k).hasUniformGuidance = true ∧
        clients' k = { clients k with
          leadingGuidance := Guidance.initLocalGuidance {}, status := .idle }) ∧
      (ready = true ↔ ∀ k ∈ ks, (clients k).hasUniformGuidance = true) ∧
      (ready = true → ∀ k ∈ ks, (clients' k).status = .idle) := by
  induction ks generalizing clients with
  | nil =>
    exact ⟨clients, true, rfl, fun _ => .inl rfl, by simp, fun _ _ hk => absurd hk List.not_mem_nil⟩
  | cons k rest ih =>
    cases huniform : (clients k).hasUniformGuidance with
    | false =>
      refine ⟨clients, false, ?_, fun _ => .inl rfl, by simp [huniform],
        fun hready => by cases hready⟩
      simp only [checkSetups, checkSetup_eq (h k) hn, huniform, ok_bind, Bool.false_eq_true,
        if_false, Function.update_eq_self]
    | true =>
      have hok : ∀ j, ClientOk (cfgs j) (Function.update clients k { clients k with
          leadingGuidance := Guidance.initLocalGuidance {}, status := .idle } j) := by
        intro j
        by_cases hj : j = k
        · subst hj
          rw [Function.update_self]
          exact (h j).setUp
        · rw [Function.update_of_ne hj]
          exact h j
      obtain ⟨clients', ready, hrest, hset, hready, hidle⟩ := ih hok
      -- whether a client is ready does not depend on the guidance that it follows
      have hsame : ∀ j, (Function.update clients k { clients k with
          leadingGuidance := Guidance.initLocalGuidance {}, status := .idle } j
            ).hasUniformGuidance = (clients j).hasUniformGuidance := by
        intro j
        by_cases hj : j = k
        · subst hj
          rw [Function.update_self]
          rfl
        · rw [Function.update_of_ne hj]
      refine ⟨clients', ready, ?_, fun j => ?_, ?_, fun hr j hj => ?_⟩
      · simp only [checkSetups, checkSetup_eq (h k) hn, huniform, ok_bind, if_true, hrest]
      · by_cases hj : j = k
        · subst hj
          refine .inr ⟨List.mem_cons_self, huniform, ?_⟩
          rcases hset j with heq | ⟨-, -, heq⟩
          · rw [heq, Function.update_self]
          · rw [heq, Function.update_self]
        · rcases hset j with heq | ⟨hmem, hj', heq⟩
          · exact .inl (by rw [heq, Function.update_of_ne hj])
          · rw [Function.update_of_ne hj] at hj' heq
            exact .inr ⟨List.mem_cons_of_mem _ hmem, hj', heq⟩
      · rw [hready]
        simp only [hsame, List.mem_cons, forall_eq_or_imp, huniform, true_and]
      · rcases List.mem_cons.mp hj with rfl | hmem
        · rcases hset j with heq | ⟨-, -, heq⟩
          · rw [heq, Function.update_self]
          · rw [heq]
        · exact hidle hr j hmem

/-! ## Sending -/

/-- The status of a client that has sent. SOURCE: app/client2.cpp:392-408 -/
def sentStatus (cfg : ProcessConfig) : Status :=
  if cfg.unreplicatedRead ∨ cfg.isRead then .reading else .writing

/-- Whom a client asks for the guidance when it has sent an operation to `rid`.
SOURCE: app/client2.cpp:392-408 -/
def asked (cfg : ProcessConfig) (rid : Fin n) : List (Fin n) :=
  if cfg.unreplicatedRead = false ∧ cfg.isRead = true then (List.finRange n).filter (· ≠ rid)
  else []

/-- INTERNAL: **what a turn of an idle client does**: nothing when the counter is past the number
of messages; otherwise its operation goes to the replica that serves the key, and requests for the
guidance may go to the others, unless the message is too long. SOURCE: app/client2.cpp:204-212,
350-409; app/utils.cpp:39 -/
theorem oneSendIn_eq (h : ClientOk cfg c) (hidle : c.status = .idle) {o : Fin n}
    (ho : routedTo n theKey = some o) (sent : ℕ) :
    c.oneSendIn cfg sent = if atomicInt (sent + 1) ≤ cfg.msgNums then
        if (cfg.packMessage (messageOf cfg)).length < 2000 then
          .ok ({ c with sendMsgNums := c.sendMsgNums + 1, status := sentStatus cfg },
            (o, .operation (messageOf cfg)) :: (asked cfg o).map fun id => (id, .getGuidance))
        else .error .messageTooLong
      else .ok ({ c with finishAllMsg := true }, []) := by
  have hleading : c.leadingGuidance.nodeOfKey theKey = some o := by
    rw [h.leading (by rw [hidle]; decide)]
    exact ho
  have hop : ({ c with sendMsgNums := c.sendMsgNums + 1 } : Client n).nextOperation
      cfg.toClientConfig = operationOf cfg := nextOperation_eq h.value
  have hpacked : packedMessage cfg.toClientConfig (operationOf cfg) =
      if (cfg.packMessage (messageOf cfg)).length < 2000 then .ok (messageOf cfg)
      else .error .messageTooLong := packedMessage_eq _ _
  have hkey : (messageOf cfg).keyHash = theKey := rfl
  unfold oneSendIn oneSendUnreplicated oneSend canSend
  simp only [hidle, ne_eq, not_true, if_false]
  rw [hidle] at hop
  by_cases hcan : atomicInt (sent + 1) ≤ cfg.msgNums
  · simp only [if_pos hcan, Bool.not_true, Bool.false_eq_true, if_false, hop, hpacked]
    by_cases hshort : (cfg.packMessage (messageOf cfg)).length < 2000
    · simp only [if_pos hshort, ok_bind, hkey, hleading]
      cases hur : cfg.unreplicatedRead with
      | true => simp [sentStatus, asked, hur]
      | false =>
        cases hread : cfg.isRead with
        | true => simp [sentStatus, asked, hur, hread, operationOf]
        | false => simp [sentStatus, asked, hur, hread, operationOf]
    · simp only [if_neg hshort, error_bind, ite_self]
  · simp only [if_neg hcan, Bool.not_false, if_true, ite_self]

/-- INTERNAL: a client that has sent is in the invariant. -/
theorem ClientOk.sent (h : ClientOk cfg c) (hidle : c.status = .idle) (sendMsgNums : ℕ) :
    ClientOk cfg { c with sendMsgNums := sendMsgNums, status := sentStatus cfg } where
  value := h.value
  collected := h.collected
  leading := fun _ => h.leading (by rw [hidle]; decide)
  unreplicated := fun hur => by simp [sentStatus, hur]

/-- INTERNAL: a client that has sent awaits the reply. -/
theorem awaiting_sentStatus (cfg : ProcessConfig) : awaiting (sentStatus cfg) = true := by
  unfold sentStatus
  split
  · rfl
  · rfl

/-! ## Answers -/

/-- INTERNAL: **the guidance of a replica**: the client still awaits what it has awaited, and
at most ends the round that it waits in. SOURCE: app/client2.cpp:433-456, 475-491 -/
theorem ClientOk.guidance (h : ClientOk cfg c) (id : Fin n) {msg : GuidanceMessage n}
    (hguide : msg.guide = Guidance.initLocalGuidance {}) :
    ClientOk cfg (c.handleAnswer cfg id (.guidance msg)) ∧
      ((c.handleAnswer cfg id (.guidance msg)).status = c.status ∨
        c.status = .waitingGuidance ∧
          (c.handleAnswer cfg id (.guidance msg)).status = .idle) := by
  have hset : ClientOk cfg (c.setGuidance id (Guidance.initLocalGuidance {})) :=
    ⟨h.value, collected_set h.collected id, h.leading, h.unreplicated⟩
  unfold handleAnswer
  split_ifs with hur
  · rw [handleUrReply, hguide]
    exact ⟨hset, .inl rfl⟩
  · dsimp only [handleGuidance]
    rw [hguide]
    split_ifs with hwaiting hquorum
    · refine ⟨⟨h.value, fun _ => .inl rfl, fun _ => h.leading ?_, fun _ hwriting => ?_⟩,
        .inr ⟨hwaiting, rfl⟩⟩
      · intro hinit
        exact absurd (hinit.symm.trans hwaiting) (by decide)
      · cases hwriting
    · exact ⟨hset, .inl rfl⟩
    · exact ⟨hset, .inl rfl⟩

/-- INTERNAL: **the reply that a client awaits**: the client awaits nothing any more.
SOURCE: app/client2.cpp:433-456, 492-516 -/
theorem ClientOk.reply (h : ClientOk cfg c) (id : Fin n) {msg : ClientReplyMessage n}
    (hguide : msg.guidance = Guidance.initLocalGuidance {}) (hawait : awaiting c.status = true) :
    ClientOk cfg (c.handleAnswer cfg id (.reply msg)) ∧
      ((c.handleAnswer cfg id (.reply msg)).status = .idle ∨
        (c.handleAnswer cfg id (.reply msg)).status = .waitingGuidance) := by
  have hleading : c.leadingGuidance = Guidance.initLocalGuidance {} := h.leading (by
    intro hinit
    rw [hinit] at hawait
    cases hawait)
  have hset := collected_set h.collected id
  unfold handleAnswer
  split_ifs with hur
  · -- only reads are awaited in this mode
    have hreading : c.status = .reading := by
      have hne := h.unreplicated hur
      cases hstatus : c.status <;> simp_all [awaiting]
    rw [handleUrReply, if_pos hreading]
    exact ⟨⟨h.value, h.collected, fun _ => hleading, fun _ hwriting => by cases hwriting⟩,
      .inl rfl⟩
  · dsimp only [handleClientReply]
    rw [hguide]
    split_ifs with hreading hquorum hwriting
    · exact ⟨⟨h.value, fun _ => .inl rfl, fun _ => hleading, fun _ hw => by cases hw⟩, .inl rfl⟩
    · exact ⟨⟨h.value, hset, fun _ => hleading, fun _ hw => by cases hw⟩, .inr rfl⟩
    · exact ⟨⟨h.value, fun _ => .inl rfl, fun _ => hleading, fun _ hw => by cases hw⟩, .inl rfl⟩
    · simp [awaiting, hreading, hwriting] at hawait

end MorphlingC.Analysis
