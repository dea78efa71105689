import MorphlingC.Analysis.DeploymentSteps
import MorphlingC.Analysis.Linearizability

/-!
# How many operations a process sends

All clients of a process count their messages together, and a thread ends when a client of it
has been refused and all its clients are idle.  So in every run a process has sent as many
operations as turns were taken, but never more than it is configured to (`Counted`); and when its
threads have all ended, it has sent exactly that many, and each of them has been answered
(`process_counts`).

None of this depends on what the servers do.
-/

set_option autoImplicit false

namespace MorphlingC.Analysis

open MorphlingC.Library MorphlingC.Model MorphlingC.Model.Client MorphlingC.Model.Deployment

variable {n : ℕ} {κ θ π : Type}

/-! ## What one call does to a client -/

section Clients

variable {c c' : Client n}

/-- INTERNAL: the guidance of a replica ends nothing that the client awaits.
SOURCE: app/client2.cpp:433-441, 482-491 -/
theorem guidance_status (cfg : ProcessConfig) (c : Client n) (id : Fin n)
    (msg : GuidanceMessage n) :
    (c.handleAnswer cfg id (.guidance msg)).finishAllMsg = c.finishAllMsg ∧
      ((c.handleAnswer cfg id (.guidance msg)).status = c.status ∨
        c.status = .waitingGuidance ∧
          (c.handleAnswer cfg id (.guidance msg)).status = .idle) := by
  unfold handleAnswer
  split_ifs with hur
  · exact ⟨rfl, .inl rfl⟩
  · dsimp only [handleGuidance]
    split_ifs with hwaiting hquorum
    · exact ⟨rfl, .inr ⟨hwaiting, rfl⟩⟩
    · exact ⟨rfl, .inl rfl⟩
    · exact ⟨rfl, .inl rfl⟩

/-- INTERNAL: a reply ends what the client awaits, or changes nothing that counts.
SOURCE: app/client2.cpp:441-456, 492-516 -/
theorem reply_status (cfg : ProcessConfig) (c : Client n) (id : Fin n)
    (msg : ClientReplyMessage n) :
    (c.handleAnswer cfg id (.reply msg)).finishAllMsg = c.finishAllMsg ∧
      ((c.handleAnswer cfg id (.reply msg)).status = c.status ∨
        awaiting c.status = true ∧ ((c.handleAnswer cfg id (.reply msg)).status = .idle ∨
          (c.handleAnswer cfg id (.reply msg)).status = .waitingGuidance)) := by
  unfold handleAnswer
  split_ifs with hur
  · dsimp only [handleUrReply]
    split_ifs with hreading
    · exact ⟨rfl, .inr ⟨by rw [hreading]; rfl, .inl rfl⟩⟩
    · exact ⟨rfl, .inl rfl⟩
  · dsimp only [handleClientReply]
    split_ifs with hreading hquorum hwriting
    · exact ⟨rfl, .inr ⟨by rw [hreading]; rfl, .inl rfl⟩⟩
    · exact ⟨rfl, .inr ⟨by rw [hreading]; rfl, .inr rfl⟩⟩
    · exact ⟨rfl, .inr ⟨by rw [hwriting]; rfl, .inl rfl⟩⟩
    · exact ⟨rfl, .inl rfl⟩

/-- INTERNAL: **a turn of an idle client**, when it returns: the client is refused, or awaits a
reply. SOURCE: app/client2.cpp:204-212, 350-409 -/
theorem oneSendIn_cases {cfg : ProcessConfig} {sent : ℕ} {sends : List (Fin n × Request)}
    (hidle : c.status = .idle) (h : c.oneSendIn cfg sent = .ok (c', sends)) :
    (atomicInt (sent + 1) ≤ cfg.msgNums ∧ awaiting c'.status = true ∧
        c'.finishAllMsg = c.finishAllMsg) ∨
      (¬ atomicInt (sent + 1) ≤ cfg.msgNums ∧ c' = { c with finishAllMsg := true } ∧
        sends = []) := by
  unfold oneSendIn oneSendUnreplicated oneSend canSend at h
  simp only [hidle, ne_eq, not_true, if_false] at h
  by_cases hcan : atomicInt (sent + 1) ≤ cfg.msgNums
  · refine .inl ⟨hcan, ?_⟩
    simp only [if_pos hcan, Bool.not_true, Bool.false_eq_true, if_false] at h
    split_ifs at h
    all_goals
      obtain ⟨msg, -, h⟩ := bind_eq_ok.mp h
      split at h
      · cases h
      · cases h
        exact ⟨rfl, rfl⟩
  · refine .inr ⟨hcan, ?_⟩
    simp only [if_neg hcan, Bool.not_false, if_true, ite_self] at h
    cases h
    exact ⟨by rw [hidle], rfl⟩

/-- INTERNAL: set-up of one client, when it returns. SOURCE: app/client2.cpp:553-568 -/
theorem checkSetup_status {ready : Bool} (h : c.checkSetup = .ok (c', ready)) :
    c'.finishAllMsg = c.finishAllMsg ∧
      if ready = true then c'.status = .idle else c'.status = c.status := by
  unfold checkSetup at h
  split_ifs at h with huniform
  · cases h
    exact ⟨rfl, rfl⟩
  · have hupdated : (c.updateLeadingGuidance.1).finishAllMsg = c.finishAllMsg := by
      unfold updateLeadingGuidance
      dsimp only
      split_ifs
      · split <;> rfl
      · rfl
    dsimp only at h
    split_ifs at h
    cases h
    exact ⟨hupdated, rfl⟩

/-- INTERNAL: set-up of the clients of a thread, when it returns: clients that are set up are
idle, and all are when the answer is that they are. SOURCE: app/client2.cpp:553-568 -/
theorem checkSetups_status [DecidableEq κ] {ks : List κ} {clients clients' : κ → Client n}
    {ready : Bool} (h : checkSetups clients ks = .ok (clients', ready)) :
    (∀ k, (clients' k).finishAllMsg = (clients k).finishAllMsg) ∧
      (∀ k, (clients' k).status = (clients k).status ∨ k ∈ ks ∧ (clients' k).status = .idle) ∧
      (ready = true → ∀ k ∈ ks, (clients' k).status = .idle) := by
  induction ks generalizing clients with
  | nil =>
    cases h
    exact ⟨fun _ => rfl, fun _ => .inl rfl, fun _ k hk => absurd hk List.not_mem_nil⟩
  | cons k rest ih =>
    unfold checkSetups at h
    obtain ⟨⟨c, one⟩, hone, h⟩ := bind_eq_ok.mp h
    obtain ⟨hfinish, hstatus⟩ := checkSetup_status hone
    have hkept : ∀ j, (Function.update clients k c j).finishAllMsg = (clients j).finishAllMsg := by
      intro j
      by_cases hj : j = k
      · subst hj
        rw [Function.update_self, hfinish]
      · rw [Function.update_of_ne hj]
    cases one with
    | false =>
      cases h
      refine ⟨hkept, fun j => .inl ?_, fun hready => by cases hready⟩
      by_cases hj : j = k
      · subst hj
        rw [Function.update_self]
        exact hstatus
      · rw [Function.update_of_ne hj]
    | true =>
      dsimp only at h
      rw [if_pos rfl] at h hstatus
      obtain ⟨hrest, hstep, hall⟩ := ih h
      refine ⟨fun j => (hrest j).trans (hkept j), fun j => ?_, fun hready j hj => ?_⟩
      · rcases hstep j with hsame | ⟨hmem, hidle⟩
        · by_cases hj : j = k
          · subst hj
            rw [Function.update_self] at hsame
            exact .inr ⟨List.mem_cons_self, hsame.trans hstatus⟩
          · rw [Function.update_of_ne hj] at hsame
            exact .inl hsame
        · exact .inr ⟨List.mem_cons_of_mem _ hmem, hidle⟩
      · rcases List.mem_cons.mp hj with rfl | hmem
        · rcases hstep j with hsame | ⟨-, hidle⟩
          · rw [hsame, Function.update_self]
            exact hstatus
          · exact hidle
        · exact hall hready j hmem

end Clients

/-! ## Counting -/

section Counts

variable [DecidableEq κ] [DecidableEq π]

/-- How many operations the clients of a process have sent. -/
def sentBy (layout : Layout κ θ π) (p : π) (h : List (Action κ Operation Bytes)) : ℕ :=
  h.countP fun
    | .invoke k _ => layout.processOf (layout.threadOf k) = p
    | .respond _ _ => false

/-- How many operations a client has sent. -/
def sentByClient (k : κ) (h : List (Action κ Operation Bytes)) : ℕ :=
  h.countP fun
    | .invoke k' _ => k' = k
    | .respond _ _ => false

/-- How many answers a client has read. -/
def answeredTo (k : κ) (h : List (Action κ Operation Bytes)) : ℕ :=
  h.countP fun
    | .invoke _ _ => false
    | .respond k' _ => k' = k

/-- **The invariant of the counts**: as long as its counter is an `int`, a process has sent as many
operations as its clients have asked for, up to its number, and who has been refused, and which
thread has ended, had to wait for this number; a client awaits the answer to at most one. -/
structure Counted (layout : Layout κ θ π) (cfg : π → ProcessConfig) (d : Deployment n κ θ π)
    (h : List (Action κ Operation Bytes)) : Prop where
  sent : ∀ p, d.sentNums p < 2 ^ 31 → sentBy layout p h = min (d.sentNums p) (cfg p).msgNums
  calls : ∀ k, sentByClient k h =
    answeredTo k h + if awaiting (d.clients k).status = true then 1 else 0
  phases : ∀ k, PhaseOk (d.phase (layout.threadOf k)) (d.clients k).status
  refused : ∀ k, d.sentNums (layout.processOf (layout.threadOf k)) < 2 ^ 31 →
    (d.clients k).finishAllMsg = true →
      (cfgOf layout cfg k).msgNums < d.sentNums (layout.processOf (layout.threadOf k))
  ended : ∀ t, d.sentNums (layout.processOf t) < 2 ^ 31 → d.phase t = .finished →
    (cfg (layout.processOf t)).msgNums < d.sentNums (layout.processOf t)

variable {unpack : Bytes → Option Operation} {layout : Layout κ θ π} {cfg : π → ProcessConfig}
  {d d' : Deployment n κ θ π} {h : List (Action κ Operation Bytes)}

/-- INTERNAL: nothing has been sent at first. -/
theorem Counted.init (layout : Layout κ θ π) (cfg : π → ProcessConfig) :
    Counted layout cfg (Deployment.init n layout cfg) [] where
  sent := fun p _ => (Nat.zero_min _).symm
  calls := fun _ => rfl
  phases := fun _ => .inl rfl
  refused := fun _ _ hrefused => by cases hrefused
  ended := fun _ _ hended => by cases hended

/-- INTERNAL: what the servers do and where connections are made does not count. -/
theorem Counted.of_same (hc : Counted layout cfg d h) (hclients : d'.clients = d.clients)
    (hsent : d'.sentNums = d.sentNums) (hphase : d'.phase = d.phase) :
    Counted layout cfg d' (h ++ []) := by
  rw [List.append_nil]
  refine ⟨?_, ?_, ?_, ?_, ?_⟩
  · rw [hsent]
    exact hc.sent
  · rw [hclients]
    exact hc.calls
  · rw [hclients, hphase]
    exact hc.phases
  · rw [hclients, hsent]
    exact hc.refused
  · rw [hphase, hsent]
    exact hc.ended

variable [DecidableEq θ]

omit [DecidableEq θ] [DecidableEq π] in
/-- INTERNAL: what is seen when a client reads a message: the reply that it awaits, or nothing
that changes what it awaits. SOURCE: app/client2.cpp:433-456, 475-524 -/
theorem receive_seen (layout : Layout κ θ π) (cfg : π → ProcessConfig) (d : Deployment n κ θ π)
    (k : κ) (id : Fin n) (answer : Answer n) {status : Status}
    (hstatus : status = ((d.clients k).handleAnswer (cfgOf layout cfg k) id answer).status) :
    ((d.receive layout cfg k id answer).2 = [] ∧ (status = (d.clients k).status ∨
        (d.clients k).status = .waitingGuidance ∧ status = .idle)) ∨
      ∃ ret, (d.receive layout cfg k id answer).2 = [.respond k ret] ∧
        awaiting (d.clients k).status = true ∧ (status = .idle ∨ status = .waitingGuidance) := by
  subst hstatus
  cases answer with
  | guidance msg => exact .inl ⟨rfl, (guidance_status _ _ id msg).2⟩
  | reply msg =>
    rcases (reply_status (cfgOf layout cfg k) (d.clients k) id msg).2 with hsame | ⟨hawaits, hends⟩
    · refine .inl ⟨?_, .inl hsame⟩
      dsimp only [Deployment.receive]
      rw [if_neg (not_not.mpr hsame)]
    · refine .inr ⟨msg.replyData, ?_, hawaits, hends⟩
      have hchanged : ((d.clients k).handleAnswer (cfgOf layout cfg k) id (.reply msg)).status ≠
          (d.clients k).status := by
        intro heq
        rw [← heq] at hawaits
        rcases hends with hs | hs <;> rw [hs] at hawaits <;> cases hawaits
      dsimp only [Deployment.receive]
      rw [if_pos hchanged]

omit [DecidableEq θ] in
/-- INTERNAL: a client reads a message. SOURCE: app/client2.cpp:433-456, 475-524 -/
theorem Counted.receive (hc : Counted layout cfg d h) (k : κ) (id : Fin n) (answer : Answer n) :
    Counted layout cfg (d.receive layout cfg k id answer).1
      (h ++ (d.receive layout cfg k id answer).2) := by
  obtain ⟨status, hstatus⟩ : ∃ status, status =
      ((d.clients k).handleAnswer (cfgOf layout cfg k) id answer).status := ⟨_, rfl⟩
  have hclients : (d.receive layout cfg k id answer).1.clients =
      Function.update d.clients k ((d.clients k).handleAnswer (cfgOf layout cfg k) id answer) := rfl
  have hfinish : ((d.clients k).handleAnswer (cfgOf layout cfg k) id answer).finishAllMsg =
      (d.clients k).finishAllMsg := by
    cases answer with
    | guidance msg => exact (guidance_status _ _ id msg).1
    | reply msg => exact (reply_status _ _ id msg).1
  have hseen := receive_seen layout cfg d k id answer hstatus
  refine ⟨fun p hint => ?_, fun j => ?_, ?_, ?_, hc.ended⟩
  · rw [sentBy, List.countP_append, ← sentBy, hc.sent p hint]
    rcases hseen with ⟨hout, -⟩ | ⟨ret, hout, -⟩
    · rw [hout]
      rfl
    · rw [hout]
      rfl
  · rw [sentByClient, answeredTo, List.countP_append, List.countP_append, ← sentByClient,
      ← answeredTo, hc.calls j, hclients]
    by_cases hj : j = k
    · subst hj
      rw [Function.update_self, ← hstatus]
      rcases hseen with ⟨hout, hsame | ⟨hwaiting, hidle⟩⟩ | ⟨ret, hout, hawaits, hidle | hwaiting⟩
      · rw [hout, hsame]
        rfl
      · rw [hout, hwaiting, hidle]
        rfl
      · rw [hout, hawaits, hidle]
        simp [awaiting]
      · rw [hout, hawaits, hwaiting]
        simp [awaiting]
    · rw [Function.update_of_ne hj]
      rcases hseen with ⟨hout, -⟩ | ⟨ret, hout, -⟩
      · rw [hout]
        rfl
      · rw [hout]
        simp [Ne.symm hj]
  · rw [hclients]
    refine (Function.forall_update_iff d.clients
      (p := fun j c => PhaseOk (d.phase (layout.threadOf j)) c.status)).mpr
      ⟨?_, fun j _ => hc.phases j⟩
    rw [← hstatus]
    have hold := hc.phases k
    rcases hseen with ⟨-, hsame | ⟨hwaiting, hidle⟩⟩ | ⟨ret, -, hawaits, hends⟩
    · rw [hsame]
      exact hold
    · rw [hwaiting] at hold
      rw [hidle]
      cases hp : d.phase (layout.threadOf k) with
      | setup => exact .inr rfl
      | sending => exact fun hinit => by cases hinit
      | finished => rfl
    · rw [hold.of_awaiting hawaits]
      intro hinit
      rcases hends with hs | hs <;> rw [hs] at hinit <;> cases hinit
  · rw [hclients]
    refine (Function.forall_update_iff d.clients (p := fun j c =>
      d.sentNums (layout.processOf (layout.threadOf j)) < 2 ^ 31 → c.finishAllMsg = true →
        (cfgOf layout cfg j).msgNums < d.sentNums (layout.processOf (layout.threadOf j)))).mpr
      ⟨?_, fun j _ => hc.refused j⟩
    rw [hfinish]
    exact hc.refused k

/-- INTERNAL: a thread checks whether its clients are set up. SOURCE: app/client2.cpp:553-568 -/
theorem Counted.checkSetup (hc : Counted layout cfg d h) {t : θ} (hphase : d.phase t = .setup)
    {clients : κ → Client n} {ready : Bool}
    (hsetups : checkSetups d.clients (layout.members t) = .ok (clients, ready)) :
    Counted layout cfg { d with
      clients := clients
      phase := if ready then Function.update d.phase t .sending else d.phase } (h ++ []) := by
  obtain ⟨hfinish, hstatus, hready⟩ := checkSetups_status hsetups
  rw [List.append_nil]
  refine ⟨hc.sent, fun k => ?_, fun k => ?_, fun k => ?_, fun t' hint hended => ?_⟩
  · rw [hc.calls k]
    dsimp only
    rcases hstatus k with hsame | ⟨hmem, hidle⟩
    · rw [hsame]
    · -- nothing is awaited before a thread sends
      have hold := hc.phases k
      rw [(layout.mem_members t k).mp hmem, hphase] at hold
      rw [hidle]
      rcases hold with hs | hs
      · rw [hs]
        rfl
      · rw [hs]
  · have hold := hc.phases k
    dsimp only
    by_cases hk : layout.threadOf k = t
    · rw [hk, hphase] at hold
      cases ready with
      | false =>
        rw [if_neg (by decide), hk, hphase]
        rcases hstatus k with hsame | ⟨-, hidle⟩
        · rw [hsame]
          exact hold
        · exact .inr hidle
      | true =>
        rw [if_pos rfl, hk, Function.update_self,
          hready rfl k ((layout.mem_members t k).mpr hk)]
        exact fun hinit => by cases hinit
    · have hsame := (hstatus k).resolve_right fun heq => hk ((layout.mem_members t k).mp heq.1)
      rw [hsame]
      split_ifs
      · rw [Function.update_of_ne hk]
        exact hold
      · exact hold
  · dsimp only
    rw [hfinish]
    exact hc.refused k
  · dsimp only at hended
    by_cases ht : t' = t
    · subst ht
      split_ifs at hended
      · rw [Function.update_self] at hended
        cases hended
      · rw [hphase] at hended
        cases hended
    · refine hc.ended t' hint ?_
      split_ifs at hended
      · rwa [Function.update_of_ne ht] at hended
      · exact hended

/-- INTERNAL: one more client has asked for a message. -/
theorem min_succ (sent nums : ℕ) :
    min (sent + 1) nums = min sent nums + if sent + 1 ≤ nums then 1 else 0 := by
  split_ifs with hle
  · rw [min_eq_left hle, min_eq_left (by omega)]
  · rw [min_eq_right (by omega), min_eq_right (by omega), Nat.add_zero]

omit [DecidableEq κ] in
/-- INTERNAL: a process that has counted more than before has not counted less. -/
theorem le_update_succ (sent : π → ℕ) (p q : π) :
    sent q ≤ Function.update sent p (sent p + 1) q := by
  by_cases hq : q = p
  · subst hq
    rw [Function.update_self]
    exact Nat.le_succ _
  · rw [Function.update_of_ne hq]

/-- INTERNAL: **what a turn of a thread does**, when it returns: nothing, when no client of it is
idle; or the first such client sends an operation, or is refused, and then the thread may end.
SOURCE: app/client2.cpp:544-551, 623-647 -/
theorem turn_cases {t : θ} {out : List (Action κ Operation Bytes)}
    (hturn : d.turn layout cfg t = .ok (d', out)) :
    (d' = d ∧ out = [] ∧ ∀ k ∈ layout.members t, (d.clients k).status ≠ .idle) ∨
    ∃ k c, layout.threadOf k = t ∧ (d.clients k).status = .idle ∧
      d'.clients = Function.update d.clients k c ∧
      d'.sentNums = Function.update d.sentNums (layout.processOf t)
        (d.sentNums (layout.processOf t) + 1) ∧
      ((atomicInt (d.sentNums (layout.processOf t) + 1) ≤ (cfg (layout.processOf t)).msgNums ∧
          awaiting c.status = true ∧ c.finishAllMsg = (d.clients k).finishAllMsg ∧
          d'.phase = d.phase ∧ ∃ op, out = [.invoke k op]) ∨
        (¬ atomicInt (d.sentNums (layout.processOf t) + 1) ≤ (cfg (layout.processOf t)).msgNums ∧
          c = { d.clients k with finishAllMsg := true } ∧ out = [] ∧
          (d'.phase = d.phase ∨ d'.phase = Function.update d.phase t .finished ∧
            ∀ j ∈ layout.members t, (d.clients j).status = .idle))) := by
  unfold Deployment.turn at hturn
  split at hturn
  · rename_i hfind
    cases hturn
    refine .inl ⟨rfl, rfl, fun k hk => ?_⟩
    simpa using List.find?_eq_none.mp hfind k hk
  · rename_i k hfind
    have hidle : (d.clients k).status = .idle := by simpa using List.find?_some hfind
    have hmem : k ∈ layout.members t := List.mem_of_find?_eq_some hfind
    obtain ⟨⟨c, sends⟩, hsend, hturn⟩ := bind_eq_ok.mp hturn
    obtain ⟨hd, hout⟩ := Prod.mk.inj (Except.ok.inj hturn)
    refine .inr ⟨k, c, (layout.mem_members t k).mp hmem, hidle, by rw [← hd], by rw [← hd], ?_⟩
    rcases oneSendIn_cases hidle (mapError_eq_ok.mp hsend) with
      ⟨hcan, hawaits, hsame⟩ | ⟨hcan, rfl, rfl⟩
    · have hbusy : c.status ≠ .idle := by
        intro heq
        rw [heq] at hawaits
        cases hawaits
      have hnot : ¬ ∀ j ∈ layout.members t, (Function.update d.clients k c j).status = .idle := by
        intro hall
        have hk := hall k hmem
        rw [Function.update_self] at hk
        exact hbusy hk
      refine .inl ⟨hcan, hawaits, hsame, ?_, _, by rw [← hout, if_neg hbusy]⟩
      rw [← hd]
      simp only [List.all_eq_true, decide_eq_true_iff, hnot, and_false, if_false]
    · refine .inr ⟨hcan, rfl, by rw [← hout, if_pos hidle], ?_⟩
      -- being refused leaves the client idle
      have hstatus : ∀ j, (Function.update d.clients k
          { d.clients k with finishAllMsg := true } j).status = (d.clients j).status := by
        intro j
        by_cases hj : j = k
        · subst hj
          rw [Function.update_self]
        · rw [Function.update_of_ne hj]
      rw [← hd]
      simp only [List.all_eq_true, decide_eq_true_iff, hstatus, true_and]
      split_ifs with hall
      · exact .inr ⟨rfl, hall⟩
      · exact .inl rfl

/-- INTERNAL: a thread takes a turn. SOURCE: app/client2.cpp:544-551, 623-647 -/
theorem Counted.turn (hc : Counted layout cfg d h) {t : θ} (hphase : d.phase t = .sending)
    {out : List (Action κ Operation Bytes)} (hturn : d.turn layout cfg t = .ok (d', out)) :
    Counted layout cfg d' (h ++ out) := by
  rcases turn_cases hturn with ⟨rfl, rfl, -⟩ |
    ⟨k, c, rfl, hidle, hclients, hsent, ⟨hcan, hawaits, hsame, hphases, op, rfl⟩ |
      ⟨hcan, rfl, rfl, hphases⟩⟩
  · exact hc.of_same rfl rfl rfl
  · refine ⟨fun p hint => ?_, fun j => ?_, ?_, ?_, fun t hint hended => ?_⟩
    · rw [sentBy, List.countP_append, ← sentBy]
      rw [hsent] at hint ⊢
      rw [hc.sent p ((le_update_succ _ _ _).trans_lt hint)]
      by_cases hp : p = layout.processOf (layout.threadOf k)
      · subst hp
        rw [Function.update_self] at hint ⊢
        rw [atomicInt_of_lt hint, Nat.cast_le] at hcan
        rw [min_succ, if_pos hcan]
        simp
      · rw [Function.update_of_ne hp]
        simp [Ne.symm hp]
    · rw [sentByClient, answeredTo, List.countP_append, List.countP_append, ← sentByClient,
        ← answeredTo, hc.calls j, hclients]
      by_cases hj : j = k
      · subst hj
        rw [Function.update_self, hawaits, hidle]
        simp [awaiting]
      · rw [Function.update_of_ne hj]
        simp [Ne.symm hj]
    · rw [hclients, hphases]
      refine (Function.forall_update_iff d.clients
        (p := fun j c => PhaseOk (d.phase (layout.threadOf j)) c.status)).mpr
        ⟨?_, fun j _ => hc.phases j⟩
      rw [hphase]
      intro hinit
      rw [hinit] at hawaits
      cases hawaits
    · rw [hclients, hsent]
      refine (Function.forall_update_iff d.clients (p := fun j c => _ < 2 ^ 31 →
        c.finishAllMsg = true → (cfgOf layout cfg j).msgNums < _)).mpr
        ⟨fun hint hrefused => ?_, fun j _ hint hrefused => ?_⟩
      · rw [hsame] at hrefused
        exact (hc.refused k ((le_update_succ _ _ _).trans_lt hint) hrefused).trans_le
          (le_update_succ _ _ _)
      · exact (hc.refused j ((le_update_succ _ _ _).trans_lt hint) hrefused).trans_le
          (le_update_succ _ _ _)
    · rw [hphases] at hended
      rw [hsent] at hint ⊢
      exact (hc.ended t ((le_update_succ _ _ _).trans_lt hint) hended).trans_le
        (le_update_succ _ _ _)
  · -- the process has counted past its number
    have hpast : ∀ {sent : ℕ}, sent < 2 ^ 31 →
        sent = d.sentNums (layout.processOf (layout.threadOf k)) + 1 →
        (cfg (layout.processOf (layout.threadOf k))).msgNums < sent := by
      rintro sent hint rfl
      rw [atomicInt_of_lt hint, Nat.cast_le] at hcan
      omega
    have hself : Function.update d.sentNums (layout.processOf (layout.threadOf k))
        (d.sentNums (layout.processOf (layout.threadOf k)) + 1)
        (layout.processOf (layout.threadOf k)) =
          d.sentNums (layout.processOf (layout.threadOf k)) + 1 := Function.update_self ..
    have hstatus : ∀ j, (d'.clients j).status = (d.clients j).status := by
      intro j
      rw [hclients]
      by_cases hj : j = k
      · subst hj
        rw [Function.update_self]
      · rw [Function.update_of_ne hj]
    rw [List.append_nil]
    refine ⟨fun p hint => ?_, fun j => ?_, fun j => ?_, ?_, fun t hint hended => ?_⟩
    · rw [hsent] at hint ⊢
      rw [hc.sent p ((le_update_succ _ _ _).trans_lt hint)]
      by_cases hp : p = layout.processOf (layout.threadOf k)
      · subst hp
        rw [hself] at hint ⊢
        rw [min_succ, if_neg (not_le.mpr (hpast hint rfl)), Nat.add_zero]
      · rw [Function.update_of_ne hp]
    · rw [hc.calls j, hstatus]
    · rw [hstatus]
      rcases hphases with hsame | ⟨hends, hall⟩
      · rw [hsame]
        exact hc.phases j
      · rw [hends]
        by_cases hj : layout.threadOf j = layout.threadOf k
        · rw [hj, Function.update_self]
          exact hall j ((layout.mem_members _ j).mpr hj)
        · rw [Function.update_of_ne hj]
          exact hc.phases j
    · rw [hclients, hsent]
      refine (Function.forall_update_iff d.clients (p := fun j c => _ < 2 ^ 31 →
        c.finishAllMsg = true → (cfgOf layout cfg j).msgNums < _)).mpr
        ⟨fun hint _ => hpast hint hself, fun j _ hint hrefused => ?_⟩
      exact (hc.refused j ((le_update_succ _ _ _).trans_lt hint) hrefused).trans_le
        (le_update_succ _ _ _)
    · rw [hsent] at hint ⊢
      rcases hphases with hsame | ⟨hends, -⟩
      · rw [hsame] at hended
        exact (hc.ended t ((le_update_succ _ _ _).trans_lt hint) hended).trans_le
          (le_update_succ _ _ _)
      · rw [hends] at hended
        by_cases ht : t = layout.threadOf k
        · rw [ht] at hint ⊢
          exact hpast hint hself
        · rw [Function.update_of_ne ht] at hended
          exact (hc.ended t ((le_update_succ _ _ _).trans_lt hint) hended).trans_le
            (le_update_succ _ _ _)

/-- INTERNAL: **every step keeps the counts.** -/
theorem Counted.step (hc : Counted layout cfg d h) {event : DeploymentEvent n κ θ}
    {out : List (Action κ Operation Bytes)}
    (hstep : Deployment.step unpack layout cfg d event = .ok (d', out)) :
    Counted layout cfg d' (h ++ out) := by
  cases event with
  | connected k id =>
    obtain ⟨rfl, ⟨-, rfl⟩ | ⟨-, rfl⟩⟩ := step_connected hstep
    · exact hc.of_same rfl rfl rfl
    · exact hc.of_same rfl rfl rfl
  | receive k id =>
    rcases step_receive hstep with ⟨rfl, rfl, -⟩ | ⟨answer, rest, -, -, heq⟩
    · exact hc.of_same rfl rfl rfl
    · have hread := hc.receive k id answer
      rwa [← heq] at hread
  | checkSetup t =>
    obtain ⟨rfl, ⟨-, rfl⟩ | ⟨hphase, clients, ready, hsetups, rfl⟩⟩ := step_checkSetup hstep
    · exact hc.of_same rfl rfl rfl
    · exact hc.checkSetup hphase hsetups
  | turn t =>
    rcases step_turn hstep with ⟨-, rfl, rfl⟩ | ⟨hphase, hturn⟩
    · exact hc.of_same rfl rfl rfl
    · exact hc.turn hphase hturn
  | serve k id =>
    obtain ⟨rfl, ⟨-, rfl⟩ | ⟨request, rest, servers, effects, -, -, rfl⟩⟩ := step_serve hstep
    · exact hc.of_same rfl rfl rfl
    · exact hc.of_same rfl rfl rfl
  | exchange src dst =>
    obtain ⟨rfl, servers, effects, -, rfl⟩ := step_exchange hstep
    exact hc.of_same rfl rfl rfl

/-- INTERNAL: every run keeps the counts. -/
theorem counted_of_run {events : List (DeploymentEvent n κ θ)}
    (hrun : Machine.run (Deployment.step unpack layout cfg) (Deployment.init n layout cfg) events =
      .ok (d, h)) : Counted layout cfg d h :=
  Machine.run_invariant (Deployment.step unpack layout cfg) (G := fun _ _ => True)
    (I := fun d h => Counted layout cfg d h) (h := []) (fun _ _ _ _ _ hc _ hs => hc.step hs)
    (Counted.init layout cfg) (Machine.guarded_of_forall _ (fun _ _ _ => trivial) _) hrun

/-- INTERNAL: **what a step does to the counters**: nothing, or it increases that of a process
with a thread that takes a turn. SOURCE: app/client2.cpp:204-212 -/
theorem sentNums_step {event : DeploymentEvent n κ θ} {out : List (Action κ Operation Bytes)}
    (hstep : Deployment.step unpack layout cfg d event = .ok (d', out)) :
    d'.sentNums = d.sentNums ∨ ∃ t, event = .turn t ∧ d.phase t = .sending ∧
      d'.sentNums = Function.update d.sentNums (layout.processOf t)
        (d.sentNums (layout.processOf t) + 1) := by
  cases event with
  | connected k id =>
    obtain ⟨-, ⟨-, rfl⟩ | ⟨-, rfl⟩⟩ := step_connected hstep
    · exact .inl rfl
    · exact .inl rfl
  | receive k id =>
    rcases step_receive hstep with ⟨rfl, -⟩ | ⟨answer, rest, -, -, heq⟩
    · exact .inl rfl
    · obtain ⟨rfl, -⟩ := Prod.mk.inj heq
      exact .inl rfl
  | checkSetup t =>
    obtain ⟨-, ⟨-, rfl⟩ | ⟨-, clients, ready, -, rfl⟩⟩ := step_checkSetup hstep
    · exact .inl rfl
    · exact .inl rfl
  | turn t =>
    rcases step_turn hstep with ⟨-, rfl, -⟩ | ⟨hphase, hturn⟩
    · exact .inl rfl
    · rcases turn_cases hturn with ⟨rfl, -⟩ | ⟨k, c, -, -, -, hsent, -⟩
      · exact .inl rfl
      · exact .inr ⟨t, rfl, hphase, hsent⟩
  | serve k id =>
    obtain ⟨-, ⟨-, rfl⟩ | ⟨request, rest, servers, effects, -, -, rfl⟩⟩ := step_serve hstep
    · exact .inl rfl
    · exact .inl rfl
  | exchange src dst =>
    obtain ⟨-, servers, effects, -, rfl⟩ := step_exchange hstep
    exact .inl rfl

/-- INTERNAL: the counters are `int`s at the end of a run in which none runs over. -/
theorem counter_of_run {events : List (DeploymentEvent n κ θ)}
    (hfits : Machine.Guarded (Deployment.step unpack layout cfg) (CounterFits layout)
      (Deployment.init n layout cfg) events)
    (hrun : Machine.run (Deployment.step unpack layout cfg) (Deployment.init n layout cfg) events =
      .ok (d, h)) (p : π) : d.sentNums p < 2 ^ 31 :=
  Machine.run_invariant (Deployment.step unpack layout cfg) (h := [])
    (I := fun d _ => ∀ p, d.sentNums p < 2 ^ 31)
    (fun d _ event d' out hI hG hs p => by
      rcases sentNums_step hs with hsame | ⟨t, rfl, -, hsent⟩
      · rw [hsame]
        exact hI p
      · rw [hsent]
        by_cases hp : p = layout.processOf t
        · subst hp
          rw [Function.update_self]
          exact hG
        · rw [Function.update_of_ne hp]
          exact hI p)
    (fun _ => by exact Nat.two_pow_pos 31) hfits hrun p

omit [DecidableEq θ] in
/-- INTERNAL: what holds once a thread has ended. -/
theorem Counted.of_finished (hc : Counted layout cfg d h) {k : κ}
    (hended : d.phase (layout.threadOf k) = .finished) :
    answeredTo k h = sentByClient k h ∧
      (d.sentNums (layout.processOf (layout.threadOf k)) < 2 ^ 31 →
        sentBy layout (layout.processOf (layout.threadOf k)) h = (cfgOf layout cfg k).msgNums) := by
  have hidle := hc.phases k
  rw [hended] at hidle
  have hstatus : (d.clients k).status = .idle := hidle
  have hcalls := hc.calls k
  rw [hstatus] at hcalls
  refine ⟨hcalls.symm, fun hint => ?_⟩
  rw [hc.sent _ hint]
  exact min_eq_right (hc.ended _ hint hended).le

/-- **A process sends as many operations as it is configured to.**  For every run of clients and
servers that returns, whatever the servers answer and whichever thread takes its turn: each
client has sent at most one operation that is not answered yet, and the clients of a thread that
has ended have been answered all they have sent.  Of a process whose clients have asked to send
fewer than 2^31 times, so that its counter is an `int`, as many operations are sent as turns of
idle clients were taken, up to its number of messages and never more; and exactly its number of
messages once a thread of it has ended.
SOURCE: app/client2.cpp:39, 204-215, 350-409, 433-456, 475-524, 544-568, 605-656 -/
theorem process_counts (unpack : Bytes → Option Operation) (layout : Layout κ θ π)
    (cfg : π → ProcessConfig) (events : List (DeploymentEvent n κ θ)) {d : Deployment n κ θ π}
    {h : List (Action κ Operation Bytes)}
    (hrun : Machine.run (Deployment.step unpack layout cfg) (Deployment.init n layout cfg) events =
      .ok (d, h)) :
    (∀ k, answeredTo k h ≤ sentByClient k h ∧ sentByClient k h ≤ answeredTo k h + 1) ∧
      (∀ t, d.phase t = .finished → ∀ k ∈ layout.members t, answeredTo k h = sentByClient k h) ∧
      ∀ p, d.sentNums p < 2 ^ 31 → sentBy layout p h = min (d.sentNums p) (cfg p).msgNums ∧
        ∀ t, layout.processOf t = p → d.phase t = .finished →
          sentBy layout p h = (cfg p).msgNums := by
  have hc := counted_of_run hrun
  refine ⟨fun k => ?_, fun t hended k hk => ?_, fun p hint => ⟨hc.sent p hint, ?_⟩⟩
  · have hcalls := hc.calls k
    split_ifs at hcalls
    · omega
    · omega
  · rw [← (layout.mem_members t k).mp hk] at hended
    exact (hc.of_finished hended).1
  · rintro t rfl hended
    rw [hc.sent _ hint]
    exact min_eq_right (hc.ended t hint hended).le

end Counts

/-- A client is set up and writes to the replica `r`, which needs one other replica; the client
reads the answer, and its thread takes one more turn. -/
def oneWrite (k : Fin 2) (r other : Fin 3) : List (DeploymentEvent 3 (Fin 2) (Fin 2)) :=
  setUpOf k ++ [.turn k, .serve k r, .exchange r other, .exchange other r, .receive k r, .turn k]

/-- The thread of the client has ended, and its one write is answered. -/
theorem one_write_counted :
    ∃ (d : Deployment 3 (Fin 2) (Fin 2) (Fin 2)) (h : List (Action (Fin 2) Operation Bytes)),
      Machine.run (Deployment.step unpackOperation oneEach writerAndReader)
        (Deployment.init 3 oneEach writerAndReader) (oneWrite 0 0 1) = .ok (d, h) ∧
      sentBy oneEach 0 h = 1 ∧ answeredTo (0 : Fin 2) h = 1 := by
  have hphase : (Machine.run (Deployment.step unpackOperation oneEach writerAndReader)
      (Deployment.init 3 oneEach writerAndReader) (oneWrite 0 0 1)).toOption.map
        (fun r => (r.1.phase 0, r.1.sentNums 0, sentByClient (0 : Fin 2) r.2)) =
          some (.finished, 2, 1) := by
    decide +kernel
  cases hres : Machine.run (Deployment.step unpackOperation oneEach writerAndReader)
      (Deployment.init 3 oneEach writerAndReader) (oneWrite 0 0 1) with
  | error f =>
    rw [hres] at hphase
    cases hphase
  | ok r =>
    obtain ⟨d, h⟩ := r
    rw [hres] at hphase
    obtain ⟨hended, hrest⟩ := Prod.mk.inj (Option.some.inj hphase)
    obtain ⟨hasked, hsent⟩ := Prod.mk.inj hrest
    obtain ⟨-, hanswered, hcounted⟩ := process_counts _ _ _ _ hres
    obtain ⟨-, hone⟩ := hcounted 0 (by rw [hasked]; decide)
    exact ⟨d, h, rfl, hone 0 rfl hended,
      (hanswered 0 hended 0 (List.mem_singleton.mpr rfl)).trans hsent⟩

end MorphlingC.Analysis
