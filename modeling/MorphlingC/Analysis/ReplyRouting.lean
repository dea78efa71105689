import MorphlingC.Analysis.ReplicaHandlers

/-!
# Who gets the reply

The clients that wait for a reply are kept in one map for all groups, under the index of
their entry, and every group numbers its entries from 1 on.  An operation that takes an
index under which somebody of another group is still waited for takes over that client's
place: both replies then go to the later client.

Replies go to the clients that asked as long as no operation takes an index that is still
awaited (`replies_to_creators`).  The invariant `Waiting` says where the clients of the
entries not yet answered are; each event keeps it (`Waiting.step`).
-/

set_option autoImplicit false

namespace MorphlingC.Analysis

open MorphlingC.Library MorphlingC.Model MorphlingC.Interface MorphlingC.Model.Morphling

variable {n : ℕ} {τ : Type} {unpack : Bytes → Option Operation}

/-- A reply under this index is still to come: an entry with the index is queued to be
applied, or some group has one that is not committed. -/
def Awaited (m : Morphling n τ) (index : ℕ) : Prop :=
  (∃ e ∈ m.applyEntries, e.index = index) ∨
    ∃ gid, (m.smrs gid).log.currCommit < index ∧ index ≤ (m.smrs gid).log.lastIndex

instance (m : Morphling n τ) (index : ℕ) : Decidable (Awaited m index) :=
  inferInstanceAs (Decidable (_ ∨ _))

/-- The event does not give a new entry an index that is still awaited. -/
def TakesFreeIndex (unpack : Bytes → Option Operation) (m : Morphling n τ) :
    ReplicaEvent τ → Prop
  | .operation msg _ => m.isValidGuidance msg.epoch →
      ∀ op, unpack msg.op = some op → op.opType ≠ 0 →
        ¬ Awaited m (m.smrs (findTargetSmr msg.keyHash)).log.nextIndex
  | .ack _ _ => True
  | .maybeApply => True

instance (m : Morphling n τ) : DecidablePred (TakesFreeIndex unpack m)
  | .operation msg _ =>
    inferInstanceAs (Decidable (_ → ∀ op ∈ unpack msg.op, op.opType ≠ 0 → ¬ Awaited m _))
  | .ack _ _ => isTrue trivial
  | .maybeApply => isTrue trivial

/-- The invariant of a replica `m` that has had the effects `h`.  The entries queued so far
are those answered and those in the queue; the clients of the entries in the queue, and of
those not yet committed, wait under the indices of their entries. -/
structure Waiting (m : Morphling n τ) (h : List (Effect n τ)) : Prop where
  created : ∀ gid : Fin defaultKeySpace, ∀ i, (creator h gid i).isSome →
    i ≤ (m.smrs gid).log.log.length
  uncommitted : ∀ gid : Fin defaultKeySpace, ∀ i, (m.smrs gid).log.commits < i →
    i ≤ (m.smrs gid).log.log.length →
    (creator h gid i).isSome ∧ m.clientPendings i = creator h gid i
  queued : ∀ q ∈ queuedEntries h, (creator h q.1 q.2.index).isSome ∧
    ∃ gid : Fin defaultKeySpace, q.1 = gid ∧ q.2.index ≤ (m.smrs gid).log.commits
  once : ((queuedEntries h).map fun q => (q.1, q.2.index)).Nodup
  oneCall : ((createdOps h).map fun c => (c.1, c.2.1)).Nodup
  answered : ∃ done rest, queuedEntries h = done ++ rest ∧ rest.map Prod.snd = m.applyEntries ∧
    (answers h).map (fun a => (a.1, some a.2)) =
      done.map (fun q => (q.2, creator h q.1 q.2.index)) ∧
    ∀ q ∈ rest, m.clientPendings q.2.index = creator h q.1 q.2.index

/-- INTERNAL: a fresh replica is in the invariant. -/
theorem Waiting.init (id : ℕ) (peers : List ℕ) (hp : peers.length = n) :
    Waiting (Morphling.new id peers hp : Morphling n τ) [] where
  created := fun _ _ h => absurd h (by simp [creator, createdOps])
  uncommitted := fun _ i hlt hle => by
    simp only [Morphling.new, SMR.new, List.length_nil] at hlt hle
    omega
  queued := fun _ h => absurd h List.not_mem_nil
  once := List.nodup_nil
  oneCall := List.nodup_nil
  answered := ⟨[], [], rfl, rfl, rfl, fun _ h => absurd h List.not_mem_nil⟩

/-- INTERNAL: the invariant gives what is claimed of the answers. -/
theorem Waiting.rightlyAnswered {m : Morphling n τ} {h : List (Effect n τ)}
    (hw : Waiting m h) : RightlyAnswered m h := by
  obtain ⟨done, rest, hqueue, hrest, hanswers, -⟩ := hw.answered
  exact ⟨⟨done, rest, hqueue, hrest, hanswers⟩, hw.once, hw.oneCall⟩

/-- INTERNAL: what the invariant says of the groups, and of what was queued, stays when
nothing is created, the logs and the waiting clients stay, and no commit index goes down. -/
theorem Waiting.kept {m m' : Morphling n τ} {h h' : List (Effect n τ)} (hw : Waiting m h)
    (hcreated : createdOps h' = [])
    (hgroups : ∀ g, (m'.smrs g).log.log = (m.smrs g).log.log ∧
      (m.smrs g).log.commits ≤ (m'.smrs g).log.commits)
    (hpend : m'.clientPendings = m.clientPendings) :
    (∀ gid : Fin defaultKeySpace, ∀ i, (creator (h ++ h') gid i).isSome →
      i ≤ (m'.smrs gid).log.log.length) ∧
    (∀ gid : Fin defaultKeySpace, ∀ i, (m'.smrs gid).log.commits < i →
      i ≤ (m'.smrs gid).log.log.length →
      (creator (h ++ h') gid i).isSome ∧ m'.clientPendings i = creator (h ++ h') gid i) ∧
    ∀ q ∈ queuedEntries h, (creator (h ++ h') q.1 q.2.index).isSome ∧
      ∃ gid : Fin defaultKeySpace, q.1 = gid ∧ q.2.index ≤ (m'.smrs gid).log.commits := by
  have hcreator := creator_append_of_quiet (h := h) hcreated
  refine ⟨?_, ?_, ?_⟩
  · intro g i hi
    rw [hcreator] at hi
    rw [(hgroups g).1]
    exact hw.created g i hi
  · intro g i hlt hle
    rw [(hgroups g).1] at hle
    rw [hcreator, hpend]
    exact hw.uncommitted g i (lt_of_le_of_lt (hgroups g).2 hlt) hle
  · intro q hq
    rw [hcreator]
    obtain ⟨hsome, g, hg, hle⟩ := hw.queued q hq
    exact ⟨hsome, g, hg, hle.trans (hgroups g).2⟩

/-- INTERNAL: an event that creates, queues and answers nothing, and leaves the groups, the
queue and the waiting clients alone, keeps the invariant. -/
theorem Waiting.quiet {m m' : Morphling n τ} {h h' : List (Effect n τ)} (hw : Waiting m h)
    (hsmrs : m'.smrs = m.smrs) (hqueue : m'.applyEntries = m.applyEntries)
    (hpend : m'.clientPendings = m.clientPendings) (hcreated : createdOps h' = [])
    (hqueued : queuedEntries h' = []) (hanswers : answers h' = []) : Waiting m' (h ++ h') := by
  have hcreator := creator_append_of_quiet (h := h) hcreated
  obtain ⟨done, rest, hdone, hrest, hans, hwait⟩ := hw.answered
  have hgroups : ∀ g, (m'.smrs g).log.log = (m.smrs g).log.log ∧
      (m.smrs g).log.commits ≤ (m'.smrs g).log.commits := by
    intro g
    rw [hsmrs]
    exact ⟨rfl, le_rfl⟩
  obtain ⟨hlogs, huncommitted, hold⟩ := hw.kept hcreated hgroups hpend
  refine ⟨hlogs, huncommitted, ?_, ?_, ?_, ?_⟩
  · rw [queuedEntries_append, hqueued, List.append_nil]
    exact hold
  · rw [queuedEntries_append, hqueued, List.append_nil]
    exact hw.once
  · rw [createdOps_append, hcreated, List.append_nil]
    exact hw.oneCall
  · refine ⟨done, rest, ?_, by rw [hqueue, hrest], ?_, ?_⟩
    · rw [queuedEntries_append, hqueued, List.append_nil, hdone]
    · rw [answers_append, hanswers, List.append_nil, hans]
      simp only [hcreator]
    · intro q hq
      rw [hpend, hcreator]
      exact hwait q hq

/-- INTERNAL: **an operation that takes a free index** keeps the invariant: nobody who is
still waited for is at that place. SOURCE: core/morphling.cpp:103-126 -/
theorem Waiting.create {m : Morphling n τ} {h : List (Effect n τ)} (hw : Waiting m h)
    {gid : Fin defaultKeySpace} {smr : SMR} {cbs : List Callback} {idx : ℕ}
    {msg : ClientMessage} (hcall : (m.smrs gid).handleOperation msg = .ok (smr, cbs, idx))
    (hfree : ¬ Awaited m idx) (tr : τ) :
    Waiting { afterCall m gid smr cbs with
        clientPendings := Function.update m.clientPendings idx (some tr) }
      (h ++ [.created gid idx tr]) := by
  obtain ⟨hidx, hlog, hcommits, -⟩ := handleOperation_ok hcall
  have hlen : smr.log.log.length = (m.smrs gid).log.log.length + 1 := by
    rw [hlog]
    simp
  have hnew : creator h gid idx = none := by
    rw [← Option.not_isSome_iff_eq_none]
    intro hsome
    have := hw.created gid idx hsome
    omega
  have hcreator := creator_append_created h gid.val idx tr
  have hfree' : ∀ g, (m.smrs g).log.commits < idx → (m.smrs g).log.log.length < idx := by
    intro g hlt
    by_contra hle
    exact hfree (.inr ⟨g, hlt, by rw [SMRLog.lastIndex_eq]; omega⟩)
  obtain ⟨done, rest, hdone, hrest, hans, hwait⟩ := hw.answered
  have hkept : ∀ q ∈ queuedEntries h, creator (h ++ [.created gid idx tr]) q.1 q.2.index =
      creator h q.1 q.2.index := fun q hq =>
    creator_append_of_isSome (hw.queued q hq).1 _
  constructor
  · intro g i hi
    by_cases hg : g = gid
    · subst hg
      simp only [afterCall, Function.update_self, hlen]
      rw [hcreator, Option.isSome_or] at hi
      rcases Bool.or_eq_true_iff.mp hi with hold | hone
      · exact (hw.created g i hold).trans (Nat.le_succ _)
      · by_cases hgi : g.val = g.val ∧ idx = i
        · omega
        · rw [if_neg hgi] at hone
          cases hone
    · simp only [afterCall, Function.update_of_ne hg]
      rw [hcreator, if_neg (fun hgi => hg (Fin.ext hgi.1.symm)), Option.or_none] at hi
      exact hw.created g i hi
  · intro g i hlt hle
    dsimp only [afterCall] at hlt hle ⊢
    by_cases hgi : g = gid ∧ i = idx
    · obtain ⟨rfl, rfl⟩ := hgi
      rw [Function.update_self, hcreator, hnew]
      simp
    · -- an entry that was there before, under another index
      have hold : (m.smrs g).log.commits < i ∧ i ≤ (m.smrs g).log.log.length :=
        (uncommitted_of_operation hcall hlt hle).resolve_left hgi
      obtain ⟨hlt', hle'⟩ := hold
      have hi : i ≠ idx := by
        rintro rfl
        have := hfree' g hlt'
        omega
      obtain ⟨hsome, hpend⟩ := hw.uncommitted g i hlt' hle'
      rw [Function.update_of_ne hi, creator_append_of_isSome hsome]
      exact ⟨hsome, hpend⟩
  · intro q hq
    rw [queuedEntries_append] at hq
    have hq' : q ∈ queuedEntries h := by simpa [queuedEntries] using hq
    obtain ⟨hsome, g, hg, hle⟩ := hw.queued q hq'
    refine ⟨by rwa [hkept q hq'], g, hg, ?_⟩
    by_cases hgg : g = gid
    · subst hgg
      simpa only [afterCall, Function.update_self, hcommits] using hle
    · simpa only [afterCall, Function.update_of_ne hgg] using hle
  · rw [queuedEntries_append]
    simpa [queuedEntries] using hw.once
  · have hone : createdOps [(.created gid idx tr : Effect n τ)] = [(gid.val, idx, tr)] := rfl
    rw [createdOps_append, hone, List.map_append, List.nodup_append]
    refine ⟨hw.oneCall, List.nodup_singleton _, ?_⟩
    intro a ha b hb hab
    obtain ⟨c, hc, rfl⟩ := List.mem_map.mp ha
    rw [List.map_singleton, List.mem_singleton] at hb
    rw [hb, Prod.mk.injEq] at hab
    -- the place after the last entry has been given to nobody
    have hsome := creator_isSome_of_mem hc
    rw [hab.1, hab.2, hnew] at hsome
    cases hsome
  · refine ⟨done, rest, ?_, ?_, ?_, ?_⟩
    · rw [queuedEntries_append, hdone]
      simp [queuedEntries]
    · simp only [afterCall, handleOperation_applied hcall, List.append_nil, hrest]
    · have hquiet : answers [(.created gid idx tr : Effect n τ)] = [] := rfl
      rw [answers_append, hquiet, List.append_nil, hans]
      apply List.map_congr_left
      intro q hq
      rw [hkept q (by rw [hdone]; exact List.mem_append_left _ hq)]
    · intro q hq
      have hmem : q.2 ∈ m.applyEntries := by
        rw [← hrest]
        exact List.mem_map_of_mem hq
      have hne : q.2.index ≠ idx := fun heq => hfree (.inl ⟨q.2, hmem, heq⟩)
      rw [hkept q (by rw [hdone]; exact List.mem_append_right _ hq)]
      dsimp only
      rw [Function.update_of_ne hne]
      exact hwait q hq

/-- INTERNAL: the entries of a part of a log have different indices. -/
theorem part_keys_nodup (l : SMRLog) (gid a b : ℕ) :
    ((((l.log.take b).drop a).map fun e => (gid, e)).map fun q => (q.1, q.2.index)).Nodup := by
  have hpair : (fun q : ℕ × Entry => (q.1, q.2.index)) ∘ (fun e => (gid, e)) =
      Prod.mk gid ∘ Entry.index := rfl
  rw [List.map_map, hpair, ← List.map_map]
  exact (l.part_nodup a b).map (Prod.mk_right_injective gid)

/-- INTERNAL: **an acknowledgement** keeps the invariant: the entries it commits go from
those not committed into the queue. SOURCE: core/morphling.cpp:139-147 -/
theorem Waiting.commit {m : Morphling n τ} {h : List (Effect n τ)} (hw : Waiting m h)
    {gid : Fin defaultKeySpace} {smr : SMR} {cbs : List Callback}
    {msg : AppenEntriesReplyMessage} {sender : ℕ}
    (hcall : (m.smrs gid).handleAppendEntriesReply msg sender = .ok (smr, cbs)) :
    Waiting (afterCall m gid smr cbs)
      (h ++ cbs.filterMap (Callback.effect n τ gid)) := by
  obtain ⟨-, -, -, hpart⟩ := handleReply_applied hcall
  obtain ⟨hcreated, hanswers, -⟩ := effects_quiet (n := n) (τ := τ) gid cbs
  have hqueued := queuedEntries_effects (n := n) (τ := τ) gid cbs
  have hcreator := creator_append_of_quiet (h := h) hcreated
  obtain ⟨done, rest, hdone, hrest, hans, hwait⟩ := hw.answered
  -- the entries that are queued were waited for
  have hnew : ∀ e ∈ appliedEntries cbs, (m.smrs gid).log.commits < e.index ∧
      e.index ≤ smr.log.commits ∧ (creator h gid e.index).isSome ∧
      m.clientPendings e.index = creator h gid e.index := by
    intro e he
    rw [hpart] at he
    obtain ⟨hlt, hle, hlen⟩ := SMRLog.index_of_mem_part _ he
    exact ⟨hlt, hle, hw.uncommitted gid e.index hlt hlen⟩
  have hgroups : ∀ g, ((afterCall m gid smr cbs).smrs g).log.log = (m.smrs g).log.log ∧
      (m.smrs g).log.commits ≤ ((afterCall m gid smr cbs).smrs g).log.commits :=
    groups_of_ack hcall
  obtain ⟨hlogs, huncommitted, hold⟩ := hw.kept hcreated hgroups rfl
  refine ⟨hlogs, huncommitted, ?_, ?_, ?_, ?_⟩
  · intro q hq
    rw [queuedEntries_append, hqueued] at hq
    rcases List.mem_append.mp hq with hq | hq
    · exact hold q hq
    · obtain ⟨e, he, rfl⟩ := List.mem_map.mp hq
      obtain ⟨-, hle, hsome, -⟩ := hnew e he
      rw [hcreator]
      refine ⟨hsome, gid, rfl, ?_⟩
      simpa only [afterCall, Function.update_self] using hle
  · rw [queuedEntries_append, hqueued, List.map_append, List.nodup_append]
    refine ⟨hw.once, ?_, ?_⟩
    · rw [hpart]
      exact part_keys_nodup (m.smrs gid).log gid _ _
    · intro a ha b hb heq
      obtain ⟨q, hq, rfl⟩ := List.mem_map.mp ha
      obtain ⟨q', hq', rfl⟩ := List.mem_map.mp hb
      obtain ⟨e, he, rfl⟩ := List.mem_map.mp hq'
      obtain ⟨-, g, hg, hle⟩ := hw.queued q hq
      rw [Prod.mk.injEq] at heq
      have hgg : g = gid := Fin.ext (hg.symm.trans heq.1)
      subst hgg
      have hidx : q.2.index = e.index := heq.2
      have := (hnew e he).1
      omega
  · rw [createdOps_append, hcreated, List.append_nil]
    exact hw.oneCall
  · refine ⟨done, rest ++ (appliedEntries cbs).map (gid.val, ·), ?_, ?_, ?_, ?_⟩
    · rw [queuedEntries_append, hqueued, hdone, List.append_assoc]
    · simp only [List.map_append, hrest, List.map_map, Function.comp_def, List.map_id',
        afterCall]
    · rw [answers_append, hanswers, List.append_nil, hans]
      simp only [hcreator]
    · intro q hq
      rw [hcreator]
      rcases List.mem_append.mp hq with hq | hq
      · exact hwait q hq
      · obtain ⟨e, he, rfl⟩ := List.mem_map.mp hq
        exact (hnew e he).2.2.2

/-- INTERNAL: **applying the queue** keeps the invariant: everything queued is answered.
SOURCE: core/morphling.cpp:186-204 -/
theorem Waiting.apply {m m' : Morphling n τ} {h outs : List (Effect n τ)} (hw : Waiting m h)
    (happly : m.maybeApply unpack = .ok (m', outs)) : Waiting m' (h ++ outs) := by
  obtain ⟨rfl, hans, hcreated, hqueued, -⟩ := maybeApply_ok happly
  have hcreator := creator_append_of_quiet (h := h) hcreated
  obtain ⟨done, rest, hdone, hrest, hans₀, hwait⟩ := hw.answered
  obtain ⟨hlogs, huncommitted, hold⟩ := hw.kept hcreated (fun _ => ⟨rfl, le_rfl⟩) rfl
  refine ⟨hlogs, huncommitted, ?_, ?_, ?_, ?_⟩
  · rw [queuedEntries_append, hqueued, List.append_nil]
    exact hold
  · rw [queuedEntries_append, hqueued, List.append_nil]
    exact hw.once
  · rw [createdOps_append, hcreated, List.append_nil]
    exact hw.oneCall
  · refine ⟨done ++ rest, [], ?_, rfl, ?_, fun _ hq => absurd hq List.not_mem_nil⟩
    · rw [queuedEntries_append, hqueued, List.append_nil, hdone, List.append_nil]
    · rw [answers_append, List.map_append, hans₀, hans, ← hrest, List.map_map, List.map_append]
      simp only [hcreator]
      congr 1
      apply List.map_congr_left
      intro q hq
      rw [Function.comp_apply, hwait q hq]

/-- INTERNAL: **each event that takes no awaited index keeps the invariant.** -/
theorem Waiting.step {m m' : Morphling n τ} {h outs : List (Effect n τ)}
    {event : ReplicaEvent τ} (hw : Waiting m h) (hfree : TakesFreeIndex unpack m event)
    (hstep : Morphling.step unpack m event = .ok (m', outs)) : Waiting m' (h ++ outs) := by
  cases event with
  | operation msg tr =>
    rcases handleOperation_cases hstep with ⟨-, rfl, rfl⟩ | ⟨hepoch, op, hop, hcase⟩
    · exact hw.quiet rfl rfl rfl rfl rfl rfl
    · rcases hcase with ⟨-, rfl, rfl⟩ | ⟨htype, smr, cbs, idx, hcall, rfl, rfl⟩
      · exact hw.quiet rfl rfl rfl rfl rfl rfl
      · have hidx := (handleOperation_ok hcall).1
        have hnot := hfree (by simpa [isValidGuidance] using hepoch) op hop htype
        rw [SMRLog.nextIndex_eq, ← hidx] at hnot
        exact hw.create hcall hnot tr
  | ack msg sender =>
    rcases handleAck_cases hstep with ⟨-, rfl, rfl⟩ | ⟨-, gid, smr, cbs, -, hcall, rfl, rfl⟩
    · exact hw.quiet rfl rfl rfl rfl rfl rfl
    · exact hw.commit hcall
  | maybeApply => exact hw.apply hstep

/-- **Replies go to the clients that asked, as long as no operation takes an awaited
index.**  For every run of a replica in which clients' operations for keys of any groups,
acknowledgements and applications of the queue come in any order: if no operation is given
an index under which a reply is still to come, then the entries queued so far are those
answered and those that `maybe_apply` has still to apply, and each of those answered had
exactly one reply, in their order, to the client whose operation became the entry.
SOURCE: core/morphling.cpp:103-126, 186-204; core/smr.cpp:211-268 -/
theorem replies_to_creators (unpack : Bytes → Option Operation) (id : ℕ) (peers : List ℕ)
    (hp : peers.length = n) (events : List (ReplicaEvent τ))
    (hfree : Machine.Guarded (Morphling.step unpack) (TakesFreeIndex unpack)
      (Morphling.new id peers hp) events)
    {m : Morphling n τ} {h : List (Effect n τ)}
    (hrun : Machine.run (Morphling.step unpack) (Morphling.new id peers hp) events = .ok (m, h)) :
    RightlyAnswered m h := by
  have hw := Machine.run_invariant (Morphling.step unpack) (I := Waiting)
    (fun _ _ _ _ _ hw hfree hstep => hw.step hfree hstep) (Waiting.init id peers hp) hfree hrun
  rw [List.nil_append] at hw
  exact hw.rightlyAnswered

/-- Two clients write to keys of two groups in turn: the first has its reply before the
second takes the same index, and both are answered. -/
theorem replies_to_creators_in_turn :
    ∃ (m : Morphling 3 ℕ) (h : List (Effect 3 ℕ)),
      RightlyAnswered m h ∧ (answers h).map Prod.snd = [10, 20] := by
  refine ⟨_, _, replies_to_creators (n := 3) (τ := ℕ) unpackShort 0 [0, 1, 2] rfl
    [.operation ⟨1, 0x0100, [0x93, 1, 0xcd, 1, 0, 0xc4, 1, 7]⟩ 10,
      .ack { fromId := 1, epoch := 1, success := true, groupId := 1, index := 1 } 1,
      .maybeApply,
      .operation ⟨1, 0x0200, [0x93, 1, 0xcd, 2, 0, 0xc4, 1, 8]⟩ 20,
      .ack { fromId := 1, epoch := 1, success := true, groupId := 2, index := 1 } 1,
      .maybeApply] ?_ rfl, rfl⟩
  refine ⟨fun _ op _ _ => by decide +kernel, fun _ _ hs => ?_⟩
  cases hs
  refine ⟨trivial, fun _ _ hs => ?_⟩
  cases hs
  refine ⟨trivial, fun _ _ hs => ?_⟩
  cases hs
  refine ⟨fun _ op _ _ => by decide +kernel, fun _ _ hs => ?_⟩
  cases hs
  exact ⟨trivial, fun _ _ _ => ⟨trivial, fun _ _ _ => trivial⟩⟩

/-- Two clients write to keys of two groups that replica 0 serves.  Both entries have the
index 1, so the second client takes over the place of the first, and it is sent the reply
to the first one's write. -/
theorem reply_to_other_client :
    (Guidance.initLocalGuidance {} : Guidance 3).nodeOfKey 0x0100 = some 0 ∧
      (Guidance.initLocalGuidance {} : Guidance 3).nodeOfKey 0x0200 = some 0 ∧
      ∃ (m : Morphling 3 ℕ) (h : List (Effect 3 ℕ)),
        Machine.run (Morphling.step unpackShort) (Morphling.new 0 [0, 1, 2] rfl)
          [.operation ⟨1, 0x0100, [0x93, 1, 0xcd, 1, 0, 0xc4, 1, 7]⟩ 10,
            .operation ⟨1, 0x0200, [0x93, 1, 0xcd, 2, 0, 0xc4, 1, 8]⟩ 20,
            .ack { fromId := 1, epoch := 1, success := true, groupId := 1, index := 1 } 1,
            .maybeApply] = .ok (m, h) ∧
        queuedEntries h = [(1, ⟨1, 1, [0x93, 1, 0xcd, 1, 0, 0xc4, 1, 7]⟩)] ∧
        creator h 1 1 = some 10 ∧
        answers h = [(⟨1, 1, [0x93, 1, 0xcd, 1, 0, 0xc4, 1, 7]⟩, 20)] ∧
        ¬ RightlyAnswered m h :=
  ⟨by decide, by decide, _, _, rfl, rfl, rfl, rfl,
    fun hr => absurd (hr.of_applied rfl) (by decide)⟩

end MorphlingC.Analysis
