import MorphlingC.Analysis.LinkedStep
import Mathlib.Algebra.BigOperators.Fin
import Mathlib.Tactic.FinCases

/-!
# Runs of the cluster over streams

Read off `LinkedOk`, for every run in which the replicated operations of each group all reach
one replica.

* The streams of a group carry exactly what the followers lack and what is not counted yet,
  and a majority of counts is what commits (`streams_carry_what_lacks`).
* **When the streams are empty, all is done** (`drained_is_complete`): every log is what the
  clients have sent for the group, in order, and all of it is committed, applied and answered.
* **Reading what is in the streams comes to an end** (`every_schedule_drains`), after a number
  of messages known in advance, in whichever order the streams are read.
-/

set_option autoImplicit false

namespace MorphlingC.Analysis

open MorphlingC.Library MorphlingC.Model MorphlingC.Interface MorphlingC.Model.Morphling

variable {n : ℕ} {τ : Type} {unpack : Bytes → Option Operation}
  {fits : Fin defaultKeySpace → Operation → Prop} {owner : Fin defaultKeySpace → Fin n}

/-! ## What a run has done -/

/-- What clients send decodes, and what is replicated reaches the owner of its group. -/
def Routed (unpack : Bytes → Option Operation) (owner : Fin defaultKeySpace → Fin n) :
    LinkedEvent n τ → Prop
  | .client r msg _ => ∃ op, unpack msg.op = some op ∧
      (op.opType ≠ 0 → r = owner (findTargetSmr msg.keyHash))
  | .getGuidance _ _ => True
  | .arrive _ _ => True

/-- The bytes of the operation that the event brings to the group, if it does. -/
def broughtTo (unpack : Bytes → Option Operation) (gid : Fin defaultKeySpace) :
    LinkedEvent n τ → List Bytes
  | .client _ msg _ =>
    if replicates unpack msg ∧ findTargetSmr msg.keyHash = gid then [msg.op] else []
  | .getGuidance _ _ => []
  | .arrive _ _ => []

/-- INTERNAL: what is routed is accepted. -/
theorem Routed.accepted {event : LinkedEvent n τ} (h : Routed unpack owner event) :
    FromOutside (Accepted unpack (fun _ _ => True) owner) event := by
  intro e he
  cases event with
  | client r msg tr =>
    cases he
    obtain ⟨op, hop, hroute⟩ := h
    exact fun _ => ⟨op, hop, fun htype => ⟨hroute htype, trivial⟩⟩
  | getGuidance r tr =>
    cases he
    trivial
  | arrive src dst => cases he

/-- The entries queued at the owner of a group, of that group, are those it has committed. -/
def QueuesCommitted (owner : Fin defaultKeySpace → Fin n) (c : Cluster n τ)
    (h : List (Fin n × Effect n τ)) : Prop :=
  ∀ gid, (queuedEntries (effectsAt h (owner gid))).filter (fun q => q.1 = gid.val) =
    (committedAt owner c gid).map (gid.val, ·)

/-- INTERNAL: what a group commits in a step is queued in it. -/
theorem QueuesCommitted.step {c c' : Cluster n τ} {h out : List (Fin n × Effect n τ)}
    {event : ClusterEvent n τ} {gid : Fin defaultKeySpace} {es : List Entry}
    (hq : QueuesCommitted owner c h) (hcommits : Commits unpack owner event c c' out gid es) :
    QueuesCommitted owner c' (h ++ out) := by
  intro g
  rw [effectsAt_append, queuedEntries_append, List.filter_append, hq g, hcommits.queued,
    hcommits.committed, List.map_append]
  congr 1
  by_cases hg : g = gid
  · subst hg
    rw [if_pos rfl, if_pos rfl, List.filter_eq_self]
    intro q hmem
    obtain ⟨e, -, rfl⟩ := List.mem_map.mp hmem
    simp
  · rw [if_neg hg, List.map_nil, List.filter_eq_nil_iff]
    intro q hmem
    have hne : gid.val ≠ g := fun heq => hg (Fin.ext heq.symm)
    split at hmem
    · obtain ⟨e, -, rfl⟩ := List.mem_map.mp hmem
      simpa using hne
    · cases hmem

/-- What holds of the servers and the effects so far, over streams. -/
def LinkedRun (unpack : Bytes → Option Operation)
    (fits : Fin defaultKeySpace → Operation → Prop) (owner : Fin defaultKeySpace → Fin n)
    (c : Linked n τ) (h : List (Fin n × Effect n τ)) : Prop :=
  ∃ d, LinkedOk unpack fits owner c d ∧ RunOk unpack fits owner d h ∧ QueuesCommitted owner d h

/-- INTERNAL: nothing has happened at first. -/
theorem LinkedRun.init (unpack : Bytes → Option Operation)
    (fits : Fin defaultKeySpace → Operation → Prop) (owner : Fin defaultKeySpace → Fin n) :
    LinkedRun unpack fits owner (Linked.init n τ) [] :=
  ⟨_, LinkedOk.init unpack fits owner, RunOk.init unpack fits owner, fun _ => rfl⟩

/-- INTERNAL: **each accepted event goes on.** -/
theorem LinkedRun.step {c c' : Linked n τ} {h out : List (Fin n × Effect n τ)}
    {event : LinkedEvent n τ} (hr : LinkedRun unpack fits owner c h) (hn : 2 ≤ n)
    (haccepted : FromOutside (Accepted unpack fits owner) event)
    (hstep : Linked.step unpack c event = .ok (c', out)) :
    LinkedRun unpack fits owner c' (h ++ out) := by
  obtain ⟨d, hok, hrun, hq⟩ := hr
  obtain ⟨events, d', hall, hevents, hok'⟩ := hok.step hn haccepted hstep
  obtain ⟨hrun', hq'⟩ := Machine.run_invariant (Cluster.step unpack)
    (G := fun _ e => Accepted unpack fits owner e)
    (I := fun d h => RunOk unpack fits owner d h ∧ QueuesCommitted owner d h)
    (fun _ _ _ _ _ hI ha hs => by
      obtain ⟨hr', gid, es, hcommits, -⟩ := hI.1.step ha hs
      exact ⟨hr', hI.2.step hcommits⟩)
    ⟨hrun, hq⟩ (Machine.guarded_of_forall _ (fun e he _ => hall e he) _) hevents
  exact ⟨d', hok', hrun', hq'⟩

/-- INTERNAL: a run of accepted events that returns goes on. -/
theorem LinkedRun.run {c c' : Linked n τ} {h out : List (Fin n × Effect n τ)}
    {events : List (LinkedEvent n τ)} (hr : LinkedRun unpack fits owner c h) (hn : 2 ≤ n)
    (haccepted : ∀ e ∈ events, FromOutside (Accepted unpack fits owner) e)
    (hrun : Machine.run (Linked.step unpack) c events = .ok (c', out)) :
    LinkedRun unpack fits owner c' (h ++ out) :=
  Machine.run_invariant (Linked.step unpack)
    (G := fun _ e => FromOutside (Accepted unpack fits owner) e)
    (fun _ _ _ _ _ hI ha hs => hI.step hn ha hs) hr
    (Machine.guarded_of_forall _ (fun e he _ => haccepted e he) _) hrun

/-! ## The log is what clients have sent -/

/-- The bytes of the operations in the log of the owner of a group. -/
def ownerLog (owner : Fin defaultKeySpace → Fin n) (gid : Fin defaultKeySpace)
    (c : Linked n τ) : List Bytes :=
  ((c.replicas (owner gid)).smrs gid).log.log.map Entry.data

/-- INTERNAL: the state of a group at a replica after the end of a callback. -/
theorem Sends.smr_eq {c d : Linked n τ} {left : Fin n → Fin n → List (GenericMessage n)}
    {r : Fin n} {gid : Fin defaultKeySpace} {s : SMR} {msgs : List (GenericMessage n)}
    (h : Sends c d left r gid s msgs) (g : Fin defaultKeySpace) (i : Fin n) :
    (d.replicas i).smrs g = if g = gid ∧ i = r then s else (c.replicas i).smrs g := by
  by_cases hg : g = gid
  · subst hg
    have hat := congrFun h.group i
    by_cases hi : i = r
    · subst hi
      simpa using hat
    · simpa [hi] using hat
  · rw [if_neg fun heq => hg heq.1]
    exact congrFun (h.others g hg) i

/-- INTERNAL: **each event adds to the log of a group what it brings to the group.**
SOURCE: core/smr.cpp:211-268 -/
theorem LinkedOk.ownerLog_step {c c' : Linked n τ} {d : Cluster n τ} {event : LinkedEvent n τ}
    {out : List (Fin n × Effect n τ)} (h : LinkedOk unpack fits owner c d)
    (haccepted : FromOutside (Accepted unpack fits owner) event)
    (hstep : Linked.step unpack c event = .ok (c', out)) (g : Fin defaultKeySpace) :
    ownerLog owner g c' = ownerLog owner g c ++ broughtTo unpack g event := by
  cases event with
  | client r msg tr =>
    rcases h.client (haccepted _ rfl) hstep with
      ⟨hnot, -, hsmrs⟩ | ⟨hyes, gid, s, cbs, idx, hgid, hr, hcall, hsends⟩
    · rw [ownerLog, congrFun (hsmrs g) (owner g)]
      simp [broughtTo, hnot, ownerLog]
    · obtain ⟨-, hlog, -⟩ := handleOperation_ok hcall
      rw [ownerLog, hsends.smr_eq]
      by_cases hg : g = gid
      · subst hg
        rw [if_pos ⟨rfl, hr.symm⟩, hlog, List.map_append, hr]
        simp [broughtTo, hyes, ← hgid, ownerLog]
      · rw [if_neg fun heq => hg heq.1]
        simp [broughtTo, ← hgid, Ne.symm hg, ownerLog]
  | getGuidance r tr =>
    cases hstep
    exact (List.append_nil _).symm
  | arrive src dst =>
    rw [broughtTo, List.append_nil]
    cases hw : c.wire src dst with
    | nil =>
      simp only [Linked.step, hw] at hstep
      cases hstep
      rfl
    | cons p rest =>
      simp only [Linked.step, hw] at hstep
      obtain ⟨⟨m, effects⟩, hhandle, hstep⟩ := bind_eq_ok.mp hstep
      obtain ⟨c₁, hfinish, heq⟩ := bind_eq_ok.mp hstep
      cases heq
      cases p with
      | guidance msg dst' =>
        have hmem : .guidance msg dst' ∈ c.wire src dst := by
          rw [hw]
          exact List.mem_cons_self
        obtain ⟨gid, hgid⟩ := h.cluster.wire _ (h.network.wire src dst _ hmem).1
        exact hgid.elim
      | append msg dst' =>
        obtain ⟨gid, s, ack, -, hdst, -, -, -, -, -, -, hsends⟩ := h.readAppend hw hhandle hfinish
        have hother : ¬ (g = gid ∧ owner g = dst) := by
          rintro ⟨rfl, heq⟩
          exact hdst heq.symm
        rw [ownerLog, hsends.smr_eq, if_neg hother]
        rfl
      | appendReply msg dst' =>
        obtain ⟨⟨m₁, queued⟩, hcount, hrest⟩ := bind_eq_ok.mp hhandle
        obtain ⟨⟨m₂, answers⟩, happly, heq⟩ := bind_eq_ok.mp hrest
        cases heq
        obtain ⟨gid, s, cbs, hdst, -, -, hcall, hsends⟩ := h.readAck hw hcount happly hfinish
        rw [ownerLog, hsends.smr_eq]
        by_cases hg : g = gid
        · subst hg
          rw [if_pos ⟨rfl, hdst.symm⟩, (handleReply_applied hcall).1, hdst]
          rfl
        · rw [if_neg fun heq => hg heq.1]
          rfl

/-- INTERNAL: after a run from the start, the log of the owner of a group is what clients have
sent for the group. -/
theorem ownerLog_run (hn : 2 ≤ n) {events : List (LinkedEvent n τ)} {c : Linked n τ}
    {h : List (Fin n × Effect n τ)}
    (haccepted : ∀ e ∈ events, FromOutside (Accepted unpack fits owner) e)
    (hrun : Machine.run (Linked.step unpack) (Linked.init n τ) events = .ok (c, h))
    (gid : Fin defaultKeySpace) :
    ownerLog owner gid c = events.flatMap (broughtTo unpack gid) :=
  Machine.run_collects (Linked.step unpack)
    (G := fun _ e => FromOutside (Accepted unpack fits owner) e)
    (J := fun c => ∃ d, LinkedOk unpack fits owner c d)
    (f := ownerLog owner gid) (g := broughtTo unpack gid)
    (fun c e c' out hI ha hs => by
      obtain ⟨d, hok⟩ := hI
      obtain ⟨-, d', -, -, hok'⟩ := hok.step hn ha hs
      exact ⟨⟨d', hok'⟩, hok.ownerLog_step ha hs gid⟩)
    ⟨_, LinkedOk.init unpack fits owner⟩
    (Machine.guarded_of_forall _ (fun e he _ => haccepted e he) _) hrun

/-- INTERNAL: an event brings a group at most one operation. -/
theorem broughtTo_length (gid : Fin defaultKeySpace) (event : LinkedEvent n τ) :
    (broughtTo unpack gid event).length = if Brings unpack gid event then 1 else 0 := by
  cases event with
  | client r msg tr =>
    cases hop : unpack msg.op with
    | none =>
      simp [broughtTo, Brings, LinkedEvent.fromOutside, Replicates, ReplicatedFor, replicates, hop]
    | some op =>
      simp only [broughtTo, Brings, LinkedEvent.fromOutside, Replicates, ReplicatedFor, replicates,
        hop, Option.any_some, Bool.and_eq_true, decide_eq_true_eq]
      split <;> rfl
  | getGuidance r tr => rfl
  | arrive src dst => rfl

/-- INTERNAL: a group is brought one operation by each event that brings it any. -/
theorem flatMap_broughtTo_length (gid : Fin defaultKeySpace) (events : List (LinkedEvent n τ)) :
    (events.flatMap (broughtTo unpack gid)).length = events.countP (Brings unpack gid) := by
  induction events with
  | nil => rfl
  | cons event events ih =>
    rw [List.flatMap_cons, List.length_append, broughtTo_length, ih, List.countP_cons,
      Nat.add_comm]

/-- INTERNAL: a run returns exactly when the log of each owner has room for what its group is
brought. SOURCE: core/smr.cpp:10, 30-45 -/
theorem linked_returns_iff (hn : 2 ≤ n) {events : List (LinkedEvent n τ)}
    (haccepted : ∀ e ∈ events, FromOutside (Accepted unpack fits owner) e) :
    (∃ c h, Machine.run (Linked.step unpack) (Linked.init n τ) events = .ok (c, h)) ↔
      ∀ gid, (events.flatMap (broughtTo unpack gid)).length ≤ reservedEntries := by
  have hlength : ∀ (c : Linked n τ) gid, (ownerLog owner gid c).length =
      ((c.replicas (owner gid)).smrs gid).log.log.length := fun c gid => List.length_map _
  rw [Machine.returns_iff_within_budget (Linked.step unpack) (L := reservedEntries)
    (G := fun _ e => FromOutside (Accepted unpack fits owner) e)
    (I := fun c => ∃ d, LinkedOk unpack fits owner c d)
    (U := fun c gid => (ownerLog owner gid c).length) (A := Brings unpack)
    (fun c _ gid => (hlength c gid).trans_le (SMRLog.fits _))
    (fun c e c' out hI ha hs => by
      obtain ⟨d, hok⟩ := hI
      obtain ⟨-, d', -, -, hok'⟩ := hok.step hn ha hs
      refine ⟨⟨d', hok'⟩, fun gid => ?_⟩
      rw [hok.ownerLog_step ha hs, List.length_append, broughtTo_length])
    (fun c e hI ha room => by
      obtain ⟨d, hok⟩ := hI
      exact hok.returns ha fun gid hbrings => (hlength c gid).symm.trans_lt (room gid hbrings))
    ⟨_, LinkedOk.init unpack fits owner⟩
    (Machine.guarded_of_forall _ (fun e he _ => haccepted e he) _)]
  refine forall_congr' fun gid => ?_
  have hempty : (ownerLog owner gid (Linked.init n τ)).length = 0 := rfl
  rw [hempty, Nat.zero_add, flatMap_broughtTo_length]

/-! ## What the streams carry -/

/-- **The streams carry exactly what is lacking.**  For every run of two or more servers on
their connections, in which all that clients send decodes and the replicated operations of
each group reach one replica, whichever stream is read next: the run returns exactly when no
group is brought more than 1000000 operations.  In the state that it ends in then, for every
group, the log of the owner is what clients have sent, in order; the stream to each replica
carries one append for each entry that its log lacks, in order; the stream back carries one
acknowledgement for each entry that it has and that the owner has not counted for it, in order,
none of them a refusal; and an index is committed exactly when a majority has been counted up
to it.
SOURCE: core/smr.cpp:10, 30-45, 115-141, 174-286; core/morphling.cpp:103-147, 165-231;
app/server.cpp:158-178, 185-229 -/
theorem streams_carry_what_lacks (unpack : Bytes → Option Operation)
    (owner : Fin defaultKeySpace → Fin n) (hn : 2 ≤ n) (events : List (LinkedEvent n τ))
    (hroute : ∀ event ∈ events, Routed unpack owner event) :
    ((∃ c h, Machine.run (Linked.step unpack) (Linked.init n τ) events = .ok (c, h)) ↔
        ∀ gid, (events.flatMap (broughtTo unpack gid)).length ≤ 1000000) ∧
    ∀ c h, Machine.run (Linked.step unpack) (Linked.init n τ) events = .ok (c, h) →
      ∀ gid, ∃ counted : Fin n → ℕ,
        ownerLog owner gid c = events.flatMap (broughtTo unpack gid) ∧
        (∀ j, appendsOf gid (c.wire (owner gid) j) =
          List.range' ((c.replicas j).smrs gid).log.lastIndex
            (((c.replicas (owner gid)).smrs gid).log.lastIndex -
              ((c.replicas j).smrs gid).log.lastIndex)) ∧
        (∀ j, counted j ≤ ((c.replicas j).smrs gid).log.lastIndex ∧
          acksOf gid (c.wire j (owner gid)) =
            (List.range' (counted j + 1)
              (((c.replicas j).smrs gid).log.lastIndex - counted j)).map (true, ·)) ∧
        ∀ i, 1 ≤ i → (i ≤ ((c.replicas (owner gid)).smrs gid).log.currCommit ↔
          Majority fun j => i ≤ counted j) := by
  have haccepted := fun e he => (hroute e he).accepted
  refine ⟨linked_returns_iff hn haccepted, fun c h hrun gid => ?_⟩
  obtain ⟨d, hok, -⟩ :=
    (LinkedRun.init unpack (fun _ _ => True) owner).run (τ := τ) hn haccepted hrun
  obtain ⟨counted, q⟩ := hok.groups gid
  simp only [SMRLog.lastIndex_eq]
  refine ⟨counted, ownerLog_run hn haccepted hrun gid, fun j => ?_, fun j => ⟨q.counted_le j, ?_⟩,
    q.commits⟩
  · rw [q.appends, if_pos rfl]
  · rw [q.acks, if_pos rfl]

/-- Two clients write to one key at replica 0; replica 1 has read the first append and replica
2 none.  The log of the owner is the two operations. -/
theorem streams_after_two_writes :
    let a : Bytes := [0x93, 1, 0xcd, 1, 0, 0xc4, 1, 7]
    let b : Bytes := [0x93, 1, 0xcd, 1, 0, 0xc4, 1, 8]
    ∃ (c : Linked 3 ℕ) (h : List (Fin 3 × Effect 3 ℕ)),
      Machine.run (Linked.step unpackShort) (Linked.init 3 ℕ)
        [.client 0 ⟨1, 0x0100, a⟩ 10, .client 0 ⟨1, 0x0100, b⟩ 20, .arrive 0 1] = .ok (c, h) ∧
      ownerLog (fun _ => 0) ⟨1, by decide⟩ c = [a, b] := by
  intro a b
  obtain ⟨hreturns, hall⟩ := streams_carry_what_lacks (n := 3) (τ := ℕ) unpackShort (fun _ => 0)
    (by decide) [.client 0 ⟨1, 0x0100, a⟩ 10, .client 0 ⟨1, 0x0100, b⟩ 20, .arrive 0 1] (by
      intro event he
      simp only [List.mem_cons, List.not_mem_nil, or_false] at he
      rcases he with rfl | rfl | rfl
      · exact ⟨_, rfl, fun _ => rfl⟩
      · exact ⟨_, rfl, fun _ => rfl⟩
      · trivial)
  obtain ⟨c, h, hrun⟩ := hreturns.mpr fun gid => by
    have hshort : ∀ g : Fin defaultKeySpace, (List.flatMap (broughtTo unpackShort g)
        [.client (0 : Fin 3) ⟨1, 0x0100, a⟩ 10, .client 0 ⟨1, 0x0100, b⟩ 20,
          .arrive 0 1]).length ≤ 2 := by
      decide +kernel
    exact (hshort gid).trans (by decide)
  obtain ⟨counted, hlog, -⟩ := hall c h hrun ⟨1, by decide⟩
  exact ⟨c, h, hrun, hlog.trans (by decide +kernel)⟩

/-- **When the streams are empty, all is done.**  When every message that was sent is read, all
logs of a group are the same, namely what clients have sent for the group, in order; all of
it is committed at the owner, has been queued to be applied there, and is answered, entry by
entry in the order in which the owner has committed them.
SOURCE: core/smr.cpp:174-286; core/morphling.cpp:103-147, 165-231;
app/server.cpp:158-178, 185-229 -/
theorem drained_is_complete (unpack : Bytes → Option Operation)
    (owner : Fin defaultKeySpace → Fin n) (hn : 2 ≤ n) (events : List (LinkedEvent n τ))
    (hroute : ∀ event ∈ events, Routed unpack owner event) {c : Linked n τ}
    {h : List (Fin n × Effect n τ)}
    (hrun : Machine.run (Linked.step unpack) (Linked.init n τ) events = .ok (c, h))
    (hdrained : ∀ i j, c.wire i j = []) (gid : Fin defaultKeySpace) :
    (∀ j, ((c.replicas j).smrs gid).log.log = ((c.replicas (owner gid)).smrs gid).log.log ∧
      ((c.replicas j).smrs gid).log.log.map Entry.data =
        events.flatMap (broughtTo unpack gid)) ∧
    ((c.replicas (owner gid)).smrs gid).log.currCommit =
      ((c.replicas (owner gid)).smrs gid).log.lastIndex ∧
    (queuedEntries (effectsAt h (owner gid))).filter (fun q => q.1 = gid.val) =
      ((c.replicas (owner gid)).smrs gid).log.log.map (gid.val, ·) ∧
    (answers (effectsAt h (owner gid))).map Prod.fst =
      (queuedEntries (effectsAt h (owner gid))).map Prod.snd := by
  have haccepted := fun e he => (hroute e he).accepted
  obtain ⟨d, hok, hr, hq⟩ :=
    (LinkedRun.init unpack (fun _ _ => True) owner).run (τ := τ) hn haccepted hrun
  obtain ⟨counted, q⟩ := hok.groups gid
  have hsmrs : ∀ i g, (d.replicas i).smrs g = (c.replicas i).smrs g := by
    intro i g
    rw [hok.network.replicas]
  have hgroup := hok.cluster.groups gid
  simp only [hsmrs] at hgroup
  obtain ⟨hlogs, hcommits⟩ := q.complete hgroup (fun j => by rw [hdrained]; rfl)
    (fun j => by rw [hdrained]; rfl)
  have hall : ((c.replicas (owner gid)).smrs gid).log.currCommit =
      ((c.replicas (owner gid)).smrs gid).log.log.length := hcommits
  rw [SMRLog.lastIndex_eq]
  refine ⟨fun j => ⟨hlogs j, ?_⟩, hall, ?_, hr.answered (owner gid)⟩
  · rw [hlogs j]
    exact ownerLog_run hn haccepted hrun gid
  · rw [← List.nil_append h, hq gid, committedAt, hsmrs, hall, List.take_length]

/-- A client writes, and the four messages of the write are read. -/
theorem write_is_complete :
    ∃ (c : Linked 3 ℕ) (h : List (Fin 3 × Effect 3 ℕ)),
      Machine.run (Linked.step unpackShort) (Linked.init 3 ℕ)
        [.client 0 ⟨1, 0x0100, [0x93, 1, 0xcd, 1, 0, 0xc4, 1, 7]⟩ 10, .arrive 0 2, .arrive 0 1,
          .arrive 1 0, .arrive 2 0] = .ok (c, h) ∧
      (∀ j, ((c.replicas j).smrs ⟨1, by decide⟩).log.log.map Entry.data =
        [[0x93, 1, 0xcd, 1, 0, 0xc4, 1, 7]]) ∧
      (answers (effectsAt h 0)).map Prod.snd = [10] := by
  refine ⟨_, _, rfl, fun j => ?_, by decide +kernel⟩
  refine ((drained_is_complete (n := 3) (τ := ℕ) unpackShort (fun _ => 0) (by decide)
    [.client 0 ⟨1, 0x0100, [0x93, 1, 0xcd, 1, 0, 0xc4, 1, 7]⟩ 10, .arrive 0 2, .arrive 0 1,
      .arrive 1 0, .arrive 2 0] ?_ rfl ?_ ⟨1, by decide⟩).1 j).2
  · intro event he
    simp only [List.mem_cons, List.not_mem_nil, or_false] at he
    rcases he with rfl | rfl | rfl | rfl | rfl
    · exact ⟨_, rfl, fun _ => rfl⟩
    all_goals trivial
  · intro i j
    fin_cases i <;> fin_cases j <;> rfl

/-! ## Reading what is in the streams -/

/-- How many messages are still to be read because of the message: an append brings an
acknowledgement. -/
def readsLeft : GenericMessage n → ℕ
  | .append _ _ => 2
  | .appendReply _ _ => 1
  | .guidance _ _ => 1

/-- How many messages are still to be read because of those in the streams. -/
def inFlight (c : Linked n τ) : ℕ := ∑ i, ∑ j, ((c.wire i j).map readsLeft).sum

/-- The event reads a message that is there. -/
def Reads (c : Linked n τ) : LinkedEvent n τ → Prop
  | .client _ _ _ => False
  | .getGuidance _ _ => False
  | .arrive src dst => c.wire src dst ≠ []

instance (c : Linked n τ) : DecidablePred (Reads c) := fun e =>
  match e with
  | .client _ _ _ => isFalse id
  | .getGuidance _ _ => isFalse id
  | .arrive src dst => inferInstanceAs (Decidable (c.wire src dst ≠ []))

/-- INTERNAL: nothing is still to be read exactly when the streams are empty. -/
theorem inFlight_eq_zero (c : Linked n τ) : inFlight c = 0 ↔ ∀ i j, c.wire i j = [] := by
  simp only [inFlight, Finset.sum_eq_zero_iff, Finset.mem_univ, true_implies]
  refine forall_congr' fun i => forall_congr' fun j => ?_
  cases hw : c.wire i j with
  | nil => simp
  | cons p rest =>
    refine iff_of_false ?_ (List.cons_ne_nil _ _)
    have hpos : 0 < readsLeft p := by cases p <;> simp [readsLeft]
    rw [List.map_cons, List.sum_cons]
    omega

/-- INTERNAL: reading a message that makes `k` more to be read, all by `o`, takes what is left
for the message and adds these. -/
theorem inFlight_read {c c' : Linked n τ} {src dst o : Fin n} {p : GenericMessage n}
    {rest : List (GenericMessage n)} {k : ℕ} (hw : c.wire src dst = p :: rest)
    (hwire : ∀ i j, ((c'.wire i j).map readsLeft).sum =
      ((Linked.pop c.wire src dst i j).map readsLeft).sum + if i = dst ∧ j = o then k else 0) :
    inFlight c' + readsLeft p = inFlight c + k := by
  have hsplit : ∀ i j, ((c'.wire i j).map readsLeft).sum +
        (if i = src ∧ j = dst then readsLeft p else 0) =
      ((c.wire i j).map readsLeft).sum + if i = dst ∧ j = o then k else 0 := by
    intro i j
    rw [hwire, Linked.pop]
    by_cases hij : i = src ∧ j = dst
    · obtain ⟨rfl, rfl⟩ := hij
      simp only [and_self, if_true, hw, List.tail_cons, List.map_cons, List.sum_cons]
      omega
    · simp only [hij, if_false, Nat.add_zero]
  have hone : ∀ (a b : Fin n) (x : ℕ),
      ∑ i : Fin n, ∑ j : Fin n, (if i = a ∧ j = b then x else 0) = x := by
    intro a b x
    simp [ite_and]
  have hsum := Finset.sum_congr (rfl : (Finset.univ : Finset (Fin n)) = Finset.univ)
    fun i _ => Finset.sum_congr (rfl : (Finset.univ : Finset (Fin n)) = Finset.univ)
      fun j _ => hsplit i j
  simp only [Finset.sum_add_distrib, hone] at hsum
  exact hsum

/-- INTERNAL: **each message that is read leaves one less to be read.** -/
theorem LinkedOk.read {c c' : Linked n τ} {d : Cluster n τ} {event : LinkedEvent n τ}
    {out : List (Fin n × Effect n τ)} (h : LinkedOk unpack fits owner c d)
    (hreads : Reads c event) (hstep : Linked.step unpack c event = .ok (c', out)) :
    inFlight c' + 1 = inFlight c := by
  cases event with
  | client r msg tr => exact hreads.elim
  | getGuidance r tr => exact hreads.elim
  | arrive src dst =>
    cases hw : c.wire src dst with
    | nil => exact absurd hw hreads
    | cons p rest =>
      simp only [Linked.step, hw] at hstep
      obtain ⟨⟨m, effects⟩, hhandle, hstep⟩ := bind_eq_ok.mp hstep
      obtain ⟨c₁, hfinish, heq⟩ := bind_eq_ok.mp hstep
      cases heq
      cases p with
      | guidance msg dst' =>
        have hmem : .guidance msg dst' ∈ c.wire src dst := by
          rw [hw]
          exact List.mem_cons_self
        obtain ⟨gid, hgid⟩ := h.cluster.wire _ (h.network.wire src dst _ hmem).1
        exact hgid.elim
      | append msg dst' =>
        obtain ⟨gid, s, ack, -, -, -, -, -, -, -, -, hsends⟩ := h.readAppend hw hhandle hfinish
        have hread : inFlight c' + _ = _ := inFlight_read (o := owner gid) (k := 1) hw fun i j => by
          rw [hsends.wire, List.map_append, List.sum_append]
          by_cases hi : i = dst
          · by_cases hj : j = owner gid
            · simp [hi, hj, GenericMessage.dst, readsLeft]
            · have hne : (owner gid).val ≠ j := fun heq => hj (Fin.ext heq.symm)
              simp [hj, hne, GenericMessage.dst]
          · simp [hi]
        have htwo : readsLeft (.append msg dst' : GenericMessage n) = 2 := rfl
        omega
      | appendReply msg dst' =>
        obtain ⟨⟨m₁, queued⟩, hcount, hrest⟩ := bind_eq_ok.mp hhandle
        obtain ⟨⟨m₂, answers⟩, happly, heq⟩ := bind_eq_ok.mp hrest
        cases heq
        obtain ⟨gid, s, cbs, -, -, -, -, hsends⟩ := h.readAck hw hcount happly hfinish
        have hread : inFlight c' + _ = _ := inFlight_read (o := dst) (k := 0) hw fun i j => by
          rw [hsends.wire, List.map_append, List.sum_append]
          simp
        have hone : readsLeft (.appendReply msg dst' : GenericMessage n) = 1 := rfl
        omega

/-- **Every schedule drains.**  From any state that two or more servers reach on their
connections, when all that clients send decodes and the replicated operations of each group
reach one replica, let the streams be read in any order: every message that is there can be
read, no schedule reads more than `inFlight` messages, one that reads so many leaves the
streams empty, one that reads less does not, and there is one that reads so many.
SOURCE: core/smr.cpp:174-286; core/morphling.cpp:128-147, 165-231; app/server.cpp:185-229 -/
theorem every_schedule_drains (unpack : Bytes → Option Operation)
    (owner : Fin defaultKeySpace → Fin n) (hn : 2 ≤ n) (events : List (LinkedEvent n τ))
    (hroute : ∀ event ∈ events, Routed unpack owner event) {c : Linked n τ}
    {h : List (Fin n × Effect n τ)}
    (hrun : Machine.run (Linked.step unpack) (Linked.init n τ) events = .ok (c, h)) :
    (∀ reads, Machine.Guarded (Linked.step unpack) Reads c reads →
      ∃ c' out, Machine.run (Linked.step unpack) c reads = .ok (c', out) ∧
        reads.length ≤ inFlight c ∧
        (reads.length = inFlight c ↔ ∀ i j, c'.wire i j = [])) ∧
    ∃ reads, Machine.Guarded (Linked.step unpack) Reads c reads ∧
      reads.length = inFlight c := by
  have haccepted := fun e he => (hroute e he).accepted
  obtain ⟨d, hok, -⟩ :=
    (LinkedRun.init unpack (fun _ _ => True) owner).run (τ := τ) hn haccepted hrun
  have hread : ∀ (c : Linked n τ) (e : LinkedEvent n τ),
      (∃ d, LinkedOk unpack (fun _ _ => True) owner c d) → Reads c e →
      ∃ c' out, Linked.step unpack c e = .ok (c', out) ∧
        (∃ d, LinkedOk unpack (fun _ _ => True) owner c' d) ∧ inFlight c' + 1 = inFlight c := by
    rintro c e ⟨d, hok⟩ hreads
    have haccept : FromOutside (Accepted unpack (fun _ _ => True) owner) e := by
      intro x hx
      cases e with
      | client r msg tr => exact hreads.elim
      | getGuidance r tr => exact hreads.elim
      | arrive src dst => cases hx
    obtain ⟨c', out, hstep⟩ := hok.returns haccept fun gid hbrings => by
      cases e with
      | client r msg tr => exact hreads.elim
      | getGuidance r tr => exact hreads.elim
      | arrive src dst => cases hbrings
    obtain ⟨-, d', -, -, hok'⟩ := hok.step hn haccept hstep
    exact ⟨c', out, hstep, ⟨d', hok'⟩, hok.read hreads hstep⟩
  have hstep : ∀ (c : Linked n τ) (e : LinkedEvent n τ) (c' : Linked n τ)
      (out : List (Fin n × Effect n τ)),
      (∃ d, LinkedOk unpack (fun _ _ => True) owner c d) → Reads c e →
      Linked.step unpack c e = .ok (c', out) →
      (∃ d, LinkedOk unpack (fun _ _ => True) owner c' d) ∧ inFlight c' + 1 = inFlight c := by
    intro c e c' out hI hreads hs
    obtain ⟨c₂, out₂, hs₂, hrest⟩ := hread c e hI hreads
    rw [hs] at hs₂
    cases hs₂
    exact hrest
  constructor
  · intro reads hguard
    obtain ⟨c', out, hr, -⟩ := Machine.run_total (Linked.step unpack)
      (I := fun c => ∃ d, LinkedOk unpack (fun _ _ => True) owner c d)
      (fun c e hI hreads => by
        obtain ⟨c', out, hs, hI', -⟩ := hread c e hI hreads
        exact ⟨c', out, hs, hI'⟩)
      ⟨d, hok⟩ hguard
    obtain ⟨-, hlen⟩ := Machine.run_measure (Linked.step unpack) hstep ⟨d, hok⟩ hguard hr
    refine ⟨c', out, hr, by omega, ?_⟩
    rw [← inFlight_eq_zero]
    omega
  · obtain ⟨reads, c', out, hguard, hr, -, hzero⟩ :=
      Machine.exists_drain (Linked.step unpack) (G := Reads) hread
        (fun c _ hne => by
          rw [Ne, inFlight_eq_zero] at hne
          push Not at hne
          obtain ⟨i, j, hij⟩ := hne
          exact ⟨.arrive i j, hij⟩)
        (inFlight c) ⟨d, hok⟩ rfl
    obtain ⟨-, hlen⟩ := Machine.run_measure (Linked.step unpack) hstep ⟨d, hok⟩ hguard hr
    exact ⟨reads, hguard, by omega⟩

/-- A write leaves two appends to be read, and so four messages. -/
theorem write_drains :
    ∃ (c : Linked 3 ℕ) (h : List (Fin 3 × Effect 3 ℕ)),
      Machine.run (Linked.step unpackShort) (Linked.init 3 ℕ)
        [.client 0 ⟨1, 0x0100, [0x93, 1, 0xcd, 1, 0, 0xc4, 1, 7]⟩ 10] = .ok (c, h) ∧
      inFlight c = 4 ∧
      ∃ reads, Machine.Guarded (Linked.step unpackShort) Reads c reads ∧
        reads.length = inFlight c := by
  refine ⟨_, _, rfl, rfl, (every_schedule_drains (n := 3) (τ := ℕ) unpackShort (fun _ => 0)
    (by decide) [.client 0 ⟨1, 0x0100, [0x93, 1, 0xcd, 1, 0, 0xc4, 1, 7]⟩ 10] ?_ rfl).2⟩
  intro event he
  rw [List.mem_singleton] at he
  subst he
  exact ⟨_, rfl, fun _ => rfl⟩

end MorphlingC.Analysis
