import MorphlingC.Analysis.Handlers
import MorphlingC.Interface.ReplySpec

/-!
# What the handlers of a replica do

One lemma per function of `Morphling`, on top of those about the groups.  The later files
use these and do not unfold a handler again.
-/

set_option autoImplicit false

namespace MorphlingC.Analysis

open MorphlingC.Library MorphlingC.Model MorphlingC.Interface MorphlingC.Model.Morphling

variable {n : ℕ} {τ : Type} {unpack : Bytes → Option Operation}

/-! ## Callbacks -/

/-- The message that a callback queues, not yet stamped. -/
def queuedMsg (n : ℕ) : Callback → Option (GenericMessage n)
  | .notifySendAppendEntry msg dst => some (.append msg dst)
  | .notifySendAppendEntryReply msg dst => some (.appendReply msg dst)
  | .notifyApply _ => none

/-- INTERNAL: taking callbacks queues their messages and their entries.
SOURCE: core/morphling.cpp:12-26 -/
theorem foldl_takeCallback (cbs : List Callback) (m : Morphling n τ) :
    cbs.foldl takeCallback m =
      { m with
        nextMsgs := m.nextMsgs ++ cbs.filterMap (queuedMsg n)
        applyEntries := m.applyEntries ++ appliedEntries cbs } := by
  induction cbs generalizing m with
  | nil => simp [appliedEntries]
  | cons cb rest ih =>
    rw [List.foldl_cons, ih]
    cases cb with
    | notifySendAppendEntry msg dst =>
      simp [takeCallback, queuedMsg, appliedEntries, Callback.applied]
    | notifySendAppendEntryReply msg dst =>
      simp [takeCallback, queuedMsg, appliedEntries, Callback.applied]
    | notifyApply entries =>
      rw [List.filterMap_cons_none rfl]
      simp [takeCallback, appliedEntries, Callback.applied]

/-- The replica after a call of one of its groups: the group's new state is in place, and
what its callbacks queued is stamped. -/
def afterCall (m : Morphling n τ) (gid : Fin defaultKeySpace) (smr : SMR)
    (cbs : List Callback) : Morphling n τ :=
  { m with
    smrs := Function.update m.smrs gid smr
    nextMsgs := (m.nextMsgs ++ cbs.filterMap (queuedMsg n)).map m.stamp
    applyEntries := m.applyEntries ++ appliedEntries cbs }

/-- INTERNAL: the end of each handler. SOURCE: core/morphling.cpp:12-26, 165-184 -/
theorem putSmr_prepareMsgs (m : Morphling n τ) (gid : Fin defaultKeySpace) (smr : SMR)
    (cbs : List Callback) : (m.putSmr gid smr cbs).prepareMsgs.1 = afterCall m gid smr cbs := by
  unfold putSmr
  rw [foldl_takeCallback]
  rfl

/-- INTERNAL: with nothing queued before, what is queued after a call is stamped by the
replica, with its epoch. SOURCE: core/morphling.cpp:165-184 -/
theorem mem_afterCall_nextMsgs {m : Morphling n τ} {gid : Fin defaultKeySpace} {smr : SMR}
    {cbs : List Callback} (hm : m.nextMsgs = []) {p : GenericMessage n}
    (hp : p ∈ (afterCall m gid smr cbs).nextMsgs) :
    ∃ cb ∈ cbs, ∃ q, queuedMsg n cb = some q ∧ p = m.stamp q := by
  simp only [afterCall, hm, List.nil_append, List.mem_map, List.mem_filterMap] at hp
  obtain ⟨q, ⟨cb, hcb, hq⟩, rfl⟩ := hp
  exact ⟨cb, hcb, q, hq, rfl⟩

/-- INTERNAL: the entries that callbacks hand on are those their effects report.
SOURCE: core/morphling.cpp:21-26 -/
theorem queuedEntries_effects (gid : ℕ) (cbs : List Callback) :
    queuedEntries (cbs.filterMap (Callback.effect n τ gid)) =
      (appliedEntries cbs).map (gid, ·) := by
  induction cbs with
  | nil => rfl
  | cons cb rest ih =>
    cases cb with
    | notifySendAppendEntry msg dst => exact ih
    | notifySendAppendEntryReply msg dst => exact ih
    | notifyApply entries =>
      have hsplit : appliedEntries (Callback.notifyApply entries :: rest) =
          entries ++ appliedEntries rest := rfl
      rw [hsplit, List.map_append, ← ih]
      rfl

/-- INTERNAL: callbacks create nothing, answer nobody and read nothing. -/
theorem effects_quiet (gid : ℕ) (cbs : List Callback) :
    createdOps (cbs.filterMap (Callback.effect n τ gid)) = [] ∧
      answers (cbs.filterMap (Callback.effect n τ gid)) = [] ∧
      reads (cbs.filterMap (Callback.effect n τ gid)) = [] := by
  refine ⟨?_, ?_, ?_⟩
  all_goals
    apply List.filterMap_eq_nil_iff.mpr
    intro e he
    obtain ⟨cb, -, hcb⟩ := List.mem_filterMap.mp he
    cases cb <;> cases hcb
    rfl

/-! ## The handlers -/

/-- INTERNAL: every handler goes on with a message of the replica's epoch.
SOURCE: core/morphling.cpp:79-84 -/
theorem ite_valid_of_eq {α : Type} {m : Morphling n τ} {epoch : ℕ} (h : m.guide.epoch = epoch)
    (x y : α) : (if !m.isValidGuidance epoch then x else y) = y := by
  simp [isValidGuidance, h]

/-- INTERNAL: every handler answers a message of another epoch with the guidance.
SOURCE: core/morphling.cpp:79-84 -/
theorem ite_valid_of_ne {α : Type} {m : Morphling n τ} {epoch : ℕ} (h : m.guide.epoch ≠ epoch)
    (x y : α) : (if !m.isValidGuidance epoch then x else y) = x := by
  simp [isValidGuidance, h]

/-- INTERNAL: **what a client's operation does**, when the call returns: nothing but an
answer with the guidance, for another epoch; nothing but a reply from the storage, for a
read; and otherwise the group of its key handles it, and the client waits under the number
of the new entry. SOURCE: core/morphling.cpp:103-126 -/
theorem handleOperation_cases {m m' : Morphling n τ} {msg : ClientMessage} {tr : τ}
    {effects : List (Effect n τ)} (h : m.handleOperation unpack msg tr = .ok (m', effects)) :
    (m.guide.epoch ≠ msg.epoch ∧ m' = m ∧ effects = [.guidance tr m.guidanceMsg]) ∨
    (m.guide.epoch = msg.epoch ∧ ∃ op, unpack msg.op = some op ∧
      ((op.opType = 0 ∧ m' = m ∧
          effects = [.read tr ⟨m.me, true, m.guide, msg.keyHash, m.storage msg.keyHash⟩]) ∨
        (op.opType ≠ 0 ∧ ∃ smr cbs idx,
          (m.smrs (findTargetSmr msg.keyHash)).handleOperation msg = .ok (smr, cbs, idx) ∧
          m' = { afterCall m (findTargetSmr msg.keyHash) smr cbs with
            clientPendings := Function.update m.clientPendings idx (some tr) } ∧
          effects = [.created (findTargetSmr msg.keyHash) idx tr]))) := by
  unfold Morphling.handleOperation at h
  by_cases hepoch : m.guide.epoch = msg.epoch
  · rw [ite_valid_of_eq hepoch] at h
    obtain ⟨op, hop, h⟩ := bind_eq_ok.mp h
    have hunpack : unpack msg.op = some op := by
      unfold parseOperation at hop
      split at hop
      · cases hop
      · rename_i op' hop'
        cases hop
        exact hop'
    refine .inr ⟨hepoch, op, hunpack, ?_⟩
    by_cases hread : op.opType = 0
    · rw [if_pos hread] at h
      cases h
      exact .inl ⟨hread, rfl, rfl⟩
    · rw [if_neg hread] at h
      obtain ⟨⟨smr, cbs, idx⟩, hcall, h⟩ := bind_eq_ok.mp h
      refine .inr ⟨hread, smr, cbs, idx, hcall, ?_⟩
      simp only [Except.ok.injEq, Prod.mk.injEq] at h
      obtain ⟨rfl, rfl⟩ := h
      refine ⟨?_, rfl⟩
      unfold putSmr
      rw [foldl_takeCallback]
      rfl
  · rw [ite_valid_of_ne hepoch] at h
    cases h
    exact .inl ⟨hepoch, rfl, rfl⟩

/-- INTERNAL: a message of another epoch is answered with the guidance.
SOURCE: core/morphling.cpp:104-107 -/
theorem handleOperation_other_epoch {m : Morphling n τ} {msg : ClientMessage} (tr : τ)
    (hepoch : m.guide.epoch ≠ msg.epoch) :
    m.handleOperation unpack msg tr = .ok (m, [.guidance tr m.guidanceMsg]) := by
  unfold Morphling.handleOperation
  rw [ite_valid_of_ne hepoch]
  rfl

/-- INTERNAL: a read is replied to from the storage. SOURCE: core/morphling.cpp:109-121 -/
theorem handleOperation_read {m : Morphling n τ} {msg : ClientMessage} {op : Operation} (tr : τ)
    (hepoch : m.guide.epoch = msg.epoch) (hop : unpack msg.op = some op)
    (htype : op.opType = 0) :
    m.handleOperation unpack msg tr =
      .ok (m, [.read tr ⟨m.me, true, m.guide, msg.keyHash, m.storage msg.keyHash⟩]) := by
  unfold Morphling.handleOperation parseOperation
  rw [ite_valid_of_eq hepoch, hop, ok_bind, if_pos htype]

/-- INTERNAL: an operation that the group of its key handles is handled.
SOURCE: core/morphling.cpp:103-126 -/
theorem handleOperation_replicated {m : Morphling n τ} {msg : ClientMessage} {op : Operation}
    {smr : SMR} {cbs : List Callback} {idx : ℕ} (tr : τ) (hepoch : m.guide.epoch = msg.epoch)
    (hop : unpack msg.op = some op) (htype : op.opType ≠ 0)
    (hcall : (m.smrs (findTargetSmr msg.keyHash)).handleOperation msg = .ok (smr, cbs, idx)) :
    m.handleOperation unpack msg tr =
      .ok ({ afterCall m (findTargetSmr msg.keyHash) smr cbs with
          clientPendings := Function.update m.clientPendings idx (some tr) },
        [.created (findTargetSmr msg.keyHash) idx tr]) := by
  unfold Morphling.handleOperation parseOperation
  rw [ite_valid_of_eq hepoch, hop, ok_bind, if_neg htype]
  dsimp only
  rw [hcall, ok_bind]
  unfold putSmr
  rw [foldl_takeCallback]
  rfl

/-- INTERNAL: a message of the replica's epoch with entries for one of its groups is
handled as the group does. SOURCE: core/morphling.cpp:128-136 -/
theorem handleAppendEntries_group {m : Morphling n τ} {msg : AppendEntriesMessage}
    {gid : Fin defaultKeySpace} {sender : ℕ} {smr : SMR} {cbs : List Callback}
    (hepoch : m.guide.epoch = msg.epoch) (hne : msg.entries ≠ [])
    (hgid : msg.groupId = gid)
    (hcall : (m.smrs gid).handleAppendEntries msg sender = .ok (smr, cbs)) :
    m.handleAppendEntries msg sender =
      .ok (afterCall m gid smr cbs, cbs.filterMap (Callback.effect n τ gid)) := by
  obtain ⟨gid, hlt⟩ := gid
  dsimp only at hgid
  subst hgid
  unfold Morphling.handleAppendEntries
  rw [ite_valid_of_eq hepoch, if_neg hne, dif_pos hlt, hcall, ok_bind]
  dsimp only
  rw [putSmr_prepareMsgs]

/-- INTERNAL: what is done with the message of a peer for a group, when it is done: the group
handles it. SOURCE: core/morphling.cpp:128-147 -/
theorem atGroup_ok {m m' : Morphling n τ} {groupId : ℕ} {effects : List (Effect n τ)}
    (handle : SMR → Except Fault (SMR × List Callback))
    (h : (if h : groupId < defaultKeySpace then do
        let (smr, cbs) ← handle (m.smrs ⟨groupId, h⟩)
        .ok ((m.putSmr ⟨groupId, h⟩ smr cbs).prepareMsgs.1,
          cbs.filterMap (Callback.effect n τ groupId))
      else .error .groupOutOfRange) = .ok (m', effects)) :
    ∃ (gid : Fin defaultKeySpace) (smr : SMR) (cbs : List Callback), groupId = gid ∧
      handle (m.smrs gid) = .ok (smr, cbs) ∧ m' = afterCall m gid smr cbs ∧
      effects = cbs.filterMap (Callback.effect n τ gid) := by
  by_cases hlt : groupId < defaultKeySpace
  · rw [dif_pos hlt] at h
    obtain ⟨⟨smr, cbs⟩, hcall, h⟩ := bind_eq_ok.mp h
    simp only [putSmr_prepareMsgs, Except.ok.injEq, Prod.mk.injEq] at h
    exact ⟨⟨groupId, hlt⟩, smr, cbs, rfl, hcall, h.1.symm, h.2.symm⟩
  · rw [dif_neg hlt] at h
    cases h

/-- INTERNAL: **what a message with entries does**, when the call returns: with another epoch,
the sender gets the guidance; otherwise its group handles it.
SOURCE: core/morphling.cpp:128-136 -/
theorem handleAppend_cases {m m' : Morphling n τ} {msg : AppendEntriesMessage} {sender : ℕ}
    {effects : List (Effect n τ)} (h : m.handleAppendEntries msg sender = .ok (m', effects)) :
    (m.guide.epoch ≠ msg.epoch ∧ m' = m.replyGuidance sender ∧ effects = []) ∨
    (m.guide.epoch = msg.epoch ∧ ∃ (gid : Fin defaultKeySpace) (smr : SMR)
        (cbs : List Callback), msg.groupId = gid ∧
      (m.smrs gid).handleAppendEntries msg sender = .ok (smr, cbs) ∧
      m' = afterCall m gid smr cbs ∧
      effects = cbs.filterMap (Callback.effect n τ gid)) := by
  unfold Morphling.handleAppendEntries at h
  by_cases hepoch : m.guide.epoch = msg.epoch
  · rw [ite_valid_of_eq hepoch] at h
    by_cases hempty : msg.entries = []
    · rw [if_pos hempty] at h
      cases h
    · rw [if_neg hempty] at h
      exact .inr ⟨hepoch, atGroup_ok (·.handleAppendEntries msg sender) h⟩
  · rw [ite_valid_of_ne hepoch] at h
    cases h
    exact .inl ⟨hepoch, rfl, rfl⟩

/-- INTERNAL: **what an acknowledgement does**, when the call returns: with another epoch,
the sender gets the guidance; otherwise its group handles it.
SOURCE: core/morphling.cpp:139-147 -/
theorem handleAck_cases {m m' : Morphling n τ} {msg : AppenEntriesReplyMessage} {sender : ℕ}
    {effects : List (Effect n τ)}
    (h : m.handleAppendEntriesReply msg sender = .ok (m', effects)) :
    (m.guide.epoch ≠ msg.epoch ∧ m' = m.replyGuidance sender ∧ effects = []) ∨
    (m.guide.epoch = msg.epoch ∧ ∃ (gid : Fin defaultKeySpace) (smr : SMR)
        (cbs : List Callback), msg.groupId = gid ∧
      (m.smrs gid).handleAppendEntriesReply msg sender = .ok (smr, cbs) ∧
      m' = afterCall m gid smr cbs ∧
      effects = cbs.filterMap (Callback.effect n τ gid)) := by
  unfold Morphling.handleAppendEntriesReply at h
  by_cases hepoch : m.guide.epoch = msg.epoch
  · rw [ite_valid_of_eq hepoch] at h
    exact .inr ⟨hepoch, atGroup_ok (·.handleAppendEntriesReply msg sender) h⟩
  · rw [ite_valid_of_ne hepoch] at h
    cases h
    exact .inl ⟨hepoch, rfl, rfl⟩

/-- INTERNAL: an acknowledgement of the replica's epoch for one of its groups is handled as
the group does. SOURCE: core/morphling.cpp:139-147 -/
theorem handleAck_group {m : Morphling n τ} {msg : AppenEntriesReplyMessage}
    {gid : Fin defaultKeySpace} {sender : ℕ} {smr : SMR} {cbs : List Callback}
    (hepoch : m.guide.epoch = msg.epoch) (hgid : msg.groupId = gid)
    (hcall : (m.smrs gid).handleAppendEntriesReply msg sender = .ok (smr, cbs)) :
    m.handleAppendEntriesReply msg sender =
      .ok (afterCall m gid smr cbs, cbs.filterMap (Callback.effect n τ gid)) := by
  obtain ⟨gid, hlt⟩ := gid
  dsimp only at hgid
  subst hgid
  unfold Morphling.handleAppendEntriesReply
  rw [ite_valid_of_eq hepoch, dif_pos hlt, hcall, ok_bind]
  dsimp only
  rw [putSmr_prepareMsgs]

/-! ## The groups after a call -/

/-- The message is a replicated operation of the initial epoch for a key of the group. -/
def ReplicatedFor (unpack : Bytes → Option Operation) (gid : Fin defaultKeySpace)
    (msg : ClientMessage) : Bool :=
  msg.epoch = 1 && (unpack msg.op).any (fun op => op.opType ≠ 0) && findTargetSmr msg.keyHash = gid

/-- INTERNAL: what such a message is. -/
theorem replicatedFor_iff {gid : Fin defaultKeySpace} {msg : ClientMessage} :
    ReplicatedFor unpack gid msg = true ↔ msg.epoch = 1 ∧
      (∃ op, unpack msg.op = some op ∧ op.opType ≠ 0) ∧ findTargetSmr msg.keyHash = gid := by
  unfold ReplicatedFor
  cases unpack msg.op with
  | none => simp
  | some op => simp [and_assoc]

/-- INTERNAL: **a client's message makes the log of a group one entry longer**, when it is a
replicated operation for the group, and then there was room for it; it leaves the other logs
as they are. SOURCE: core/morphling.cpp:103-126; core/smr.cpp:30-45, 211-224 -/
theorem handleOperation_length {m m' : Morphling n τ} {msg : ClientMessage} {tr : τ}
    {effects : List (Effect n τ)} (h : m.handleOperation unpack msg tr = .ok (m', effects))
    (hepoch : m.guide.epoch = 1) (gid : Fin defaultKeySpace) :
    (m'.smrs gid).log.log.length =
        (m.smrs gid).log.log.length + (if ReplicatedFor unpack gid msg then 1 else 0) ∧
      (ReplicatedFor unpack gid msg = true →
        (m.smrs gid).log.log.length < reservedEntries) := by
  have hsame : ¬ ReplicatedFor unpack gid msg = true →
      (m'.smrs gid).log.log.length = (m.smrs gid).log.log.length →
      (m'.smrs gid).log.log.length =
          (m.smrs gid).log.log.length + (if ReplicatedFor unpack gid msg then 1 else 0) ∧
        (ReplicatedFor unpack gid msg = true →
          (m.smrs gid).log.log.length < reservedEntries) := by
    intro hnot heq
    rw [if_neg hnot]
    exact ⟨heq, fun hyes => absurd hyes hnot⟩
  rcases handleOperation_cases h with ⟨hother, rfl, -⟩ | ⟨hsome, op, hop, hcase⟩
  · refine hsame (fun hrep => ?_) rfl
    exact hother (hepoch.trans (replicatedFor_iff.mp hrep).1.symm)
  rcases hcase with ⟨hread, rfl, -⟩ | ⟨htype, smr, cbs, idx, hcall, rfl, -⟩
  · refine hsame (fun hrep => ?_) rfl
    obtain ⟨-, ⟨op', hop', htype'⟩, -⟩ := replicatedFor_iff.mp hrep
    rw [hop] at hop'
    cases hop'
    exact htype' hread
  · obtain ⟨-, hlog, -⟩ := handleOperation_ok hcall
    by_cases hgid : findTargetSmr msg.keyHash = gid
    · subst hgid
      have hrep : ReplicatedFor unpack (findTargetSmr msg.keyHash) msg = true :=
        replicatedFor_iff.mpr ⟨hsome.symm.trans hepoch, ⟨op, hop, htype⟩, rfl⟩
      rw [if_pos hrep]
      refine ⟨?_, fun _ => handleOperation_room hcall⟩
      simp [afterCall, hlog]
    · refine hsame (fun hrep => hgid (replicatedFor_iff.mp hrep).2.2) ?_
      simp only [afterCall, Function.update_of_ne (Ne.symm hgid)]

/-- INTERNAL: an entry that is not committed after an operation is the new one, or was there
and not committed before. SOURCE: core/smr.cpp:211-224 -/
theorem uncommitted_of_operation {smrs : Fin defaultKeySpace → SMR}
    {gid g : Fin defaultKeySpace} {smr : SMR} {cbs : List Callback} {idx i : ℕ}
    {msg : ClientMessage} (hcall : (smrs gid).handleOperation msg = .ok (smr, cbs, idx))
    (hlt : (Function.update smrs gid smr g).log.commits < i)
    (hle : i ≤ (Function.update smrs gid smr g).log.log.length) :
    (g = gid ∧ i = idx) ∨ ((smrs g).log.commits < i ∧ i ≤ (smrs g).log.log.length) := by
  obtain ⟨hidx, hlog, hcommits, -⟩ := handleOperation_ok hcall
  by_cases hg : g = gid
  · subst hg
    rw [Function.update_self] at hlt hle
    rw [hlog, List.length_append, List.length_singleton] at hle
    rw [hcommits] at hlt
    by_cases hi : i = idx
    · exact .inl ⟨rfl, hi⟩
    · exact .inr ⟨hlt, by omega⟩
  · rw [Function.update_of_ne hg] at hlt hle
    exact .inr ⟨hlt, hle⟩

/-- INTERNAL: an acknowledgement changes no log, and takes back no commit.
SOURCE: core/smr.cpp:252-268 -/
theorem groups_of_ack {smrs : Fin defaultKeySpace → SMR} {gid : Fin defaultKeySpace}
    {smr : SMR} {cbs : List Callback} {msg : AppenEntriesReplyMessage} {sender : ℕ}
    (hcall : (smrs gid).handleAppendEntriesReply msg sender = .ok (smr, cbs)) :
    ∀ g, (Function.update smrs gid smr g).log.log = (smrs g).log.log ∧
      (smrs g).log.commits ≤ (Function.update smrs gid smr g).log.commits := by
  obtain ⟨hlog, hcommits, -⟩ := handleReply_applied hcall
  apply (Function.forall_update_iff smrs (p := fun g s =>
    s.log.log = (smrs g).log.log ∧ (smrs g).log.commits ≤ s.log.commits)).mpr
  exact ⟨⟨hlog, hcommits⟩, fun _ _ => ⟨rfl, le_rfl⟩⟩

/-! ## Applying the queue -/

/-- INTERNAL: **what the loop of `maybe_apply` does**, when it returns: the writes among the
entries go into the storage, and each entry is answered, in order, to the client that waits
under its number. SOURCE: core/morphling.cpp:187-202 -/
theorem applyAll_ok {entries : List Entry} {m m' : Morphling n τ}
    {outs : List (Effect n τ)} (h : applyAll unpack entries m = .ok (m', outs)) :
    m' = { m with storage := applyWrites m.storage (writesOf unpack entries) } ∧
      (answers outs).map (fun a => (a.1, some a.2)) =
        entries.map (fun e => (e, m.clientPendings e.index)) ∧
      createdOps outs = [] ∧ queuedEntries outs = [] ∧ reads outs = [] := by
  induction entries generalizing m m' outs with
  | nil =>
    cases h
    exact ⟨rfl, rfl, rfl, rfl, rfl⟩
  | cons e rest ih =>
    unfold applyAll at h
    obtain ⟨⟨m₁, answer⟩, hone, h⟩ := bind_eq_ok.mp h
    obtain ⟨⟨m₂, others⟩, hrest, h⟩ := bind_eq_ok.mp h
    cases h
    obtain ⟨hm, hans, hcreated, hqueued, hreads⟩ := ih hrest
    unfold applyEntry parseOperation at hone
    cases hop : unpack e.data with
    | none =>
      rw [hop] at hone
      cases hone
    | some op =>
      rw [hop, ok_bind] at hone
      cases hpend : m.clientPendings e.index with
      | none =>
        -- the storage does not matter to who is waiting
        by_cases hwrite : op.opType = 1
        · simp only [hwrite, if_true, hpend] at hone
          cases hone
        · simp only [hwrite, if_false, hpend] at hone
          cases hone
      | some tr =>
        by_cases hwrite : op.opType = 1
        · simp only [hwrite, if_true, hpend, Except.ok.injEq, Prod.mk.injEq] at hone
          obtain ⟨rfl, rfl⟩ := hone
          refine ⟨?_, ?_, hcreated, hqueued, hreads⟩
          · rw [hm]
            simp [writesOf, hop, hwrite]
          · simpa [answers, hpend] using hans
        · simp only [hwrite, if_false, hpend, Except.ok.injEq, Prod.mk.injEq] at hone
          obtain ⟨rfl, rfl⟩ := hone
          refine ⟨?_, ?_, hcreated, hqueued, hreads⟩
          · rw [hm]
            simp [writesOf, hop, hwrite]
          · simpa [answers, hpend] using hans

/-- INTERNAL: the loop of `maybe_apply` returns when every entry decodes and a client waits
under its number. SOURCE: core/morphling.cpp:187-202 -/
theorem applyAll_total {entries : List Entry} {m : Morphling n τ}
    (h : ∀ e ∈ entries, (∃ op, unpack e.data = some op) ∧ m.clientPendings e.index ≠ none) :
    ∃ m' outs, applyAll unpack entries m = .ok (m', outs) := by
  induction entries generalizing m with
  | nil => exact ⟨m, [], rfl⟩
  | cons e rest ih =>
    obtain ⟨⟨op, hop⟩, hpend⟩ := h e List.mem_cons_self
    obtain ⟨tr, htr⟩ := Option.ne_none_iff_exists'.mp hpend
    have hone : ∃ m₁ answer, applyEntry unpack m e = .ok (m₁, answer) ∧
        m₁.clientPendings = m.clientPendings := by
      unfold applyEntry parseOperation
      by_cases hwrite : op.opType = 1
      · simp only [hop, ok_bind, hwrite, if_true, htr]
        exact ⟨_, _, rfl, rfl⟩
      · simp only [hop, ok_bind, hwrite, if_false, htr]
        exact ⟨_, _, rfl, rfl⟩
    obtain ⟨m₁, answer, hone, hpend₁⟩ := hone
    obtain ⟨m₂, others, hrest⟩ := ih (m := m₁) fun e' he' => by
      rw [hpend₁]
      exact h e' (List.mem_cons_of_mem _ he')
    exact ⟨m₂, answer :: others, by simp only [applyAll, hone, ok_bind, hrest]⟩

/-- INTERNAL: **what `maybe_apply` does**, when it returns. SOURCE: core/morphling.cpp:186-204 -/
theorem maybeApply_ok {m m' : Morphling n τ} {outs : List (Effect n τ)}
    (h : m.maybeApply unpack = .ok (m', outs)) :
    m' = { m with
        storage := applyWrites m.storage (writesOf unpack m.applyEntries)
        applyEntries := [] } ∧
      (answers outs).map (fun a => (a.1, some a.2)) =
        m.applyEntries.map (fun e => (e, m.clientPendings e.index)) ∧
      createdOps outs = [] ∧ queuedEntries outs = [] ∧ reads outs = [] := by
  unfold maybeApply at h
  obtain ⟨⟨m₁, outs₁⟩, hall, h⟩ := bind_eq_ok.mp h
  cases h
  obtain ⟨rfl, hrest⟩ := applyAll_ok hall
  exact ⟨rfl, hrest⟩

/-- INTERNAL: **`maybe_apply` returns** when every queued entry decodes and a client waits
under its number; every entry is answered. SOURCE: core/morphling.cpp:186-204 -/
theorem maybeApply_total {m : Morphling n τ}
    (h : ∀ e ∈ m.applyEntries,
      (∃ op, unpack e.data = some op) ∧ m.clientPendings e.index ≠ none) :
    ∃ outs, m.maybeApply unpack = .ok
        ({ m with
          storage := applyWrites m.storage (writesOf unpack m.applyEntries)
          applyEntries := [] }, outs) ∧
      (answers outs).map Prod.fst = m.applyEntries ∧ queuedEntries outs = [] ∧
      reads outs = [] := by
  obtain ⟨m₁, outs, hall⟩ := applyAll_total h
  have happly : m.maybeApply unpack = .ok ({ m₁ with applyEntries := [] }, outs) := by
    rw [maybeApply, hall, ok_bind]
  obtain ⟨hm, hans, -, hqueued, hreads⟩ := maybeApply_ok happly
  rw [hm] at happly
  refine ⟨outs, happly, ?_, hqueued, hreads⟩
  have hfst := congrArg (List.map Prod.fst) hans
  simpa only [List.map_map, Function.comp_def, List.map_id'] using hfst

/-! ## Sending -/

/-- What is meant to be sent: each queued message whose addressee is connected, once and in
order. -/
def reachable {ρ : Type} (peersTrans : ℕ → Option ρ) (msgs : List (GenericMessage n)) :
    List (ρ × GenericMessage n) :=
  msgs.filterMap fun p => (peersTrans p.dst).map fun tr => (tr, p)

/-- INTERNAL: the loop of `bcast_msgs` sends what is meant, when every message has a transport
and every append has an entry. SOURCE: core/morphling.cpp:206-231 -/
theorem sendAll_reachable {ρ : Type} {peersTrans : ℕ → Option ρ}
    {msgs : List (GenericMessage n)}
    (h : ∀ p ∈ msgs, p.noEntries = false ∧ peersTrans p.dst ≠ none) :
    sendAll peersTrans msgs = .ok (reachable peersTrans msgs) := by
  induction msgs with
  | nil => rfl
  | cons p rest ih =>
    obtain ⟨hne, hp⟩ := h p List.mem_cons_self
    obtain ⟨tr, htr⟩ := Option.ne_none_iff_exists'.mp hp
    have hrest := ih fun q hq => h q (List.mem_cons_of_mem _ hq)
    unfold sendAll sendMsg
    rw [hne, htr, hrest]
    simp [reachable, htr]

/-- INTERNAL: with a transport for every message, all of them are meant to be sent. -/
theorem map_snd_reachable {ρ : Type} {peersTrans : ℕ → Option ρ}
    {msgs : List (GenericMessage n)} (h : ∀ p ∈ msgs, peersTrans p.dst ≠ none) :
    (reachable peersTrans msgs).map Prod.snd = msgs := by
  have hsome : msgs.filterMap (fun p => ((peersTrans p.dst).map fun tr => (tr, p)).map
      Prod.snd) = msgs.filterMap some := by
    apply List.filterMap_congr
    intro p hp
    obtain ⟨tr, htr⟩ := Option.ne_none_iff_exists'.mp (h p hp)
    rw [htr]
    rfl
  unfold reachable
  rw [List.map_filterMap, hsome, List.filterMap_some]

end MorphlingC.Analysis
