import MorphlingC.Interface.AppendSpec

/-!
# What one call of a handler does

One lemma per function of `core/smr.cpp`, each saying everything that a call which returns
has done.  The three handlers come last: `handleOperation_ok`, `handleAppendEntries_ok`
and `handleReply_cases`.  Nothing after this file unfolds a handler.

Two facts keep the case analyses small.  The consistency check never aborts and is a
lookup of the epoch at `prev_index` (`checkSafety_eq`).  The scan for a conflict is
`missing` with one more outcome: it aborts when the first missing entry lies beyond the
log (`staleConflict_eq`).
-/

set_option autoImplicit false

namespace MorphlingC.Analysis

open MorphlingC.Library MorphlingC.Model MorphlingC.Interface MorphlingC.Model.SMR

/-! ## The log -/

/-- INTERNAL: an index of the log, or 0, is looked up without abort, and the entry found
has the epoch at that index. SOURCE: core/smr.cpp:59-69 -/
theorem entryAt_of_le_length (l : SMRLog) {i : ℕ} (h : i ≤ l.log.length) :
    ∃ e, l.entryAt i = .ok e ∧ termAt l.log i = some e.epoch := by
  rcases Nat.eq_zero_or_pos i with rfl | hpos
  · exact ⟨dummyEntry, rfl, rfl⟩
  · have hlt : i - 1 < l.log.length := by omega
    exact ⟨_, l.entryAt_of_lt hpos hlt, termAt_of_lt hpos hlt⟩

/-- INTERNAL: the epoch at the last index is that of `last_entry`.
SOURCE: core/smr.cpp:100-108 -/
theorem termAt_lastEntry (l : SMRLog) : termAt l.log l.log.length = some l.lastEntry.epoch :=
  termAt_length l.log

/-- INTERNAL: appending entries one by one numbers them on from the end of the log, and returns
when there is room for all of them. SOURCE: core/smr.cpp:236-238 -/
theorem appendAll_ok {l l' : SMRLog} {entries : List Entry} :
    appendAll l entries = .ok l' ↔ l.log.length + entries.length ≤ reservedEntries ∧
      l'.log = l.log ++ numberedFrom (l.log.length + 1) entries ∧ l'.commits = l.commits := by
  induction entries generalizing l with
  | nil =>
    rw [appendAll, Except.ok.injEq, numberedFrom, List.append_nil]
    constructor
    · rintro rfl
      exact ⟨l.fits, rfl, rfl⟩
    · rintro ⟨-, hlog, hcommits⟩
      exact SMRLog.ext hlog.symm hcommits.symm
  | cons e rest ih =>
    rw [appendAll, List.length_cons]
    by_cases room : l.log.length < reservedEntries
    · rw [l.append_of_room e e.epoch room, ok_bind]
      simp only [ih, SMRLog.grown_log, SMRLog.grown_commits, List.length_append,
        List.length_singleton, List.append_assoc, List.singleton_append, numberedFrom]
      rw [Nat.add_assoc, Nat.add_comm 1]
    · rw [l.append_of_full e e.epoch (by omega), error_bind]
      constructor
      · rintro ⟨⟩
      · rintro ⟨hle, -⟩
        omega

/-- INTERNAL: entries for which there is room are appended. SOURCE: core/smr.cpp:236-238 -/
theorem appendAll_total {l : SMRLog} {entries : List Entry}
    (h : l.log.length + entries.length ≤ reservedEntries) : ∃ l', appendAll l entries = .ok l' := by
  induction entries generalizing l with
  | nil => exact ⟨l, rfl⟩
  | cons e rest ih =>
    rw [List.length_cons] at h
    have room : l.log.length < reservedEntries := by omega
    rw [appendAll, l.append_of_room e e.epoch room, ok_bind]
    apply ih
    rw [SMRLog.grown_log, List.length_append, List.length_singleton]
    omega

/-- INTERNAL: the passive commit never aborts; it raises the commit index to that of the
message, as far as the log goes. SOURCE: core/smr.cpp:240-244 -/
theorem passiveCommit_eq (l : SMRLog) (commit : ℕ) :
    passiveCommit l commit =
      .ok { l with commits := max l.commits (min commit l.log.length) } := by
  unfold passiveCommit SMRLog.currCommit
  split
  · dsimp only
    rw [SMRLog.lastIndex_eq, l.commitTo_of_le (min_le_right _ _)]
    rfl
  · rename_i h
    have hmax : max l.commits (min commit l.log.length) = l.commits := by omega
    rw [hmax]

/-! ## The consistency check -/

/-- INTERNAL: **the consistency check** finds the message safe exactly when the log has an
entry of its `prev_term` at its `prev_index`, and stale when that is before the last one.
SOURCE: core/smr.cpp:174-192 -/
theorem checkSafety_eq (s : SMR) (prevTerm prevIndex : ℕ) :
    s.checkSafety prevTerm prevIndex =
      .ok (decide (termAt s.log.log prevIndex = some prevTerm),
        decide (termAt s.log.log prevIndex = some prevTerm ∧ prevIndex < s.log.log.length)) := by
  have hlast : s.log.lastEntry.index = s.log.log.length := s.log.lastIndex_eq
  unfold checkSafety
  dsimp only
  rw [hlast]
  rcases Nat.lt_trichotomy prevIndex s.log.log.length with hlt | heq | hgt
  · obtain ⟨te, hte, hterm⟩ := entryAt_of_le_length s.log hlt.le
    rw [if_pos hlt, hte, ok_bind, hterm]
    by_cases h : prevTerm = te.epoch
    · simp [h, hlt]
    · simp [h, Ne.symm h]
  · subst heq
    rw [if_neg (lt_irrefl _), if_pos rfl, termAt_lastEntry]
    by_cases h : prevTerm = s.log.lastEntry.epoch
    · simp [h]
    · simp [h, Ne.symm h]
  · rw [if_neg (by omega), if_neg (by omega), termAt_of_gt hgt]
    simp

/-! ## Stale entries -/

/-- INTERNAL: **the scan for a conflict** stops at the first missing entry of the message,
and aborts when that entry lies beyond the log. SOURCE: core/smr.cpp:195-200 -/
theorem staleConflict_eq (l : SMRLog) (entries : List Entry) :
    staleConflict l l.log.length entries =
      match missing l.log entries with
      | [] => .ok none
      | e :: rest =>
        if e.index ≤ l.log.length then .ok (some (e, rest.length + 1))
        else .error .entryBeyondLog := by
  induction entries with
  | nil => rfl
  | cons item rest ih =>
    unfold staleConflict
    by_cases hle : item.index ≤ l.log.length
    · obtain ⟨e, he, hterm⟩ := entryAt_of_le_length l hle
      rw [he, ok_bind]
      by_cases hepoch : e.epoch = item.epoch
      · have hpresent : Present l.log item := by rw [Present, hterm, hepoch]
        rw [if_neg (by omega), missing_cons_of_present rest hpresent, ih]
      · have habsent : ¬ Present l.log item := by
          rw [Present, hterm]
          simpa using hepoch
        rw [if_pos (.inr hepoch), missing_cons_of_absent rest habsent]
        simp [hle]
    · have habsent : ¬ Present l.log item := by
        rw [Present, termAt_of_gt (by omega)]
        simp
      rw [l.entryAt_of_gt (by omega), missing_cons_of_absent rest habsent]
      simp [hle]

/-- INTERNAL: **what `handle_stale_entries` leaves behind**: the log itself when nothing is
missing; else the log up to the first missing entry, and then that entry as often as there
are entries missing, for which there is room. SOURCE: core/smr.cpp:194-209 -/
theorem handleStaleEntries_ok {l l' : SMRLog} {msg : AppendEntriesMessage} :
    handleStaleEntries l msg = .ok l' ↔
      (missing l.log msg.entries = [] ∧ l' = l) ∨
      ∃ e rest, missing l.log msg.entries = e :: rest ∧ 1 ≤ e.index ∧
        e.index ≤ l.log.length ∧ e.index + rest.length ≤ reservedEntries ∧
        l'.commits = l.commits ∧
        l'.log = l.log.take (e.index - 1) ++
          numberedFrom e.index (List.replicate (rest.length + 1) e) := by
  unfold handleStaleEntries
  rw [SMRLog.lastIndex_eq, staleConflict_eq]
  cases hm : missing l.log msg.entries with
  | nil => simp [eq_comm]
  | cons e rest =>
    dsimp only
    by_cases hle : e.index ≤ l.log.length
    · rw [if_pos hle, ok_bind, bind_eq_ok]
      constructor
      · rintro ⟨t, ht, hl'⟩
        obtain ⟨hpos, -, hlog, hcommits⟩ := SMRLog.truncate_ok.mp ht
        obtain ⟨hroom, hall, hallc⟩ := appendAll_ok.mp hl'
        have hlen : t.log.length + 1 = e.index := by
          rw [hlog, List.length_take]
          omega
        rw [List.length_replicate] at hroom
        refine .inr ⟨e, rest, rfl, hpos, hle, by omega, by rw [hallc, hcommits], ?_⟩
        rw [hall, hlen, hlog]
      · rintro (⟨h, -⟩ | ⟨e', rest', h, hpos, -, hroom, hcommits, hlog⟩)
        · cases h
        · obtain ⟨rfl, rfl⟩ := List.cons.inj h
          obtain ⟨t, ht⟩ := SMRLog.truncate_isOk (l := l) hpos (by omega)
          obtain ⟨-, -, htlog, htcommits⟩ := SMRLog.truncate_ok.mp ht
          have hlen : t.log.length + 1 = e.index := by
            rw [htlog, List.length_take]
            omega
          refine ⟨t, ht, appendAll_ok.mpr ⟨?_, ?_, ?_⟩⟩
          · rw [List.length_replicate]
            omega
          · rw [hlen, htlog, hlog]
          · rw [htcommits, hcommits]
    · rw [if_neg hle, error_bind]
      constructor
      · rintro ⟨⟩
      · rintro (⟨h, -⟩ | ⟨e', rest', h, -, hle', -⟩)
        · cases h
        · obtain ⟨rfl, rfl⟩ := List.cons.inj h
          exact absurd hle' hle

/-- INTERNAL: `handle_stale_entries` returns when the first missing entry, if any, is at an
index of the log, and there is room from there on. SOURCE: core/smr.cpp:194-209 -/
theorem handleStaleEntries_total (l : SMRLog) (msg : AppendEntriesMessage)
    (h : ∀ e rest, missing l.log msg.entries = e :: rest →
      1 ≤ e.index ∧ e.index ≤ l.log.length ∧ e.index + rest.length ≤ reservedEntries) :
    ∃ l', handleStaleEntries l msg = .ok l' := by
  unfold handleStaleEntries
  rw [SMRLog.lastIndex_eq, staleConflict_eq]
  cases hm : missing l.log msg.entries with
  | nil => exact ⟨l, rfl⟩
  | cons e rest =>
    obtain ⟨hpos, hle, hroom⟩ := h e rest hm
    obtain ⟨t, ht⟩ := SMRLog.truncate_isOk (l := l) hpos (by omega)
    dsimp only
    rw [if_pos hle, ok_bind]
    dsimp only
    rw [ht, ok_bind]
    apply appendAll_total
    rw [(SMRLog.truncate_ok.mp ht).2.2.1, List.length_take, List.length_replicate]
    omega

/-! ## `handle_append_entries` -/

/-- The reply of a follower. SOURCE: core/smr.cpp:248-249 -/
def appendReply (s : SMR) (success : Bool) (sender : ℕ) : Callback :=
  .notifySendAppendEntryReply
    { success := success, groupId := s.gid, index := s.log.log.length } sender

/-- INTERNAL: **what `handle_append_entries` does**: it refuses a message whose previous
entry is not in the log; otherwise it takes the entries over, commits passively, and
replies with its last index. SOURCE: core/smr.cpp:226-250 -/
theorem handleAppendEntries_ok {s s' : SMR} {msg : AppendEntriesMessage} {sender : ℕ}
    {cbs : List Callback} :
    s.handleAppendEntries msg sender = .ok (s', cbs) ↔
      (termAt s.log.log msg.prevIndex ≠ some msg.prevTerm ∧ s' = s ∧
        cbs = [appendReply s false sender]) ∨
      (termAt s.log.log msg.prevIndex = some msg.prevTerm ∧
        ∃ log, acceptEntries s.log (decide (msg.prevIndex < s.log.log.length)) msg = .ok log ∧
          s' = { s with log := { log with
            commits := max log.commits (min msg.commit log.log.length) } } ∧
          cbs = [appendReply s' true sender]) := by
  unfold handleAppendEntries
  rw [checkSafety_eq, ok_bind]
  by_cases hsafe : termAt s.log.log msg.prevIndex = some msg.prevTerm
  · simp only [hsafe, decide_true, true_and, Bool.not_true, Bool.false_eq_true, if_false,
      ne_eq, not_true_eq_false, false_and, false_or, passiveCommit_eq]
    rw [bind_eq_ok]
    refine exists_congr fun log => and_congr Iff.rfl ?_
    rw [ok_bind]
    simp only [Except.ok.injEq, Prod.mk.injEq, sendAppendEntriesReply, SMRLog.lastIndex_eq]
    constructor
    · rintro ⟨rfl, rfl⟩
      exact ⟨rfl, rfl⟩
    · rintro ⟨rfl, rfl⟩
      exact ⟨rfl, rfl⟩
  · simp only [hsafe, decide_false, false_and, Bool.not_false, if_true, ne_eq,
      not_false_eq_true, true_and, or_false, Except.ok.injEq, Prod.mk.injEq,
      sendAppendEntriesReply, SMRLog.lastIndex_eq]
    constructor
    · rintro ⟨rfl, rfl⟩
      exact ⟨rfl, rfl⟩
    · rintro ⟨rfl, rfl⟩
      exact ⟨rfl, rfl⟩

/-- INTERNAL: **how `handle_append_entries` changes the log**: a refused message changes
nothing.  An accepted one keeps a part of the log and puts entries behind it, and then
raises the commit index: it keeps all and adds nothing when it is stale and nothing is
missing; it keeps the entries before the first missing one, which it then repeats; or it
keeps all and adds its own entries, when it starts at the end.
SOURCE: core/smr.cpp:226-250 -/
theorem handleAppendEntries_log {s s' : SMR} {msg : AppendEntriesMessage} {sender : ℕ}
    {cbs : List Callback} (h : s.handleAppendEntries msg sender = .ok (s', cbs)) :
    (termAt s.log.log msg.prevIndex ≠ some msg.prevTerm ∧ s' = s) ∨
    (termAt s.log.log msg.prevIndex = some msg.prevTerm ∧
      s'.log.commits = max s.log.commits (min msg.commit s'.log.log.length) ∧
      ((msg.prevIndex < s.log.log.length ∧ missing s.log.log msg.entries = [] ∧
          s'.log.log = s.log.log) ∨
        (msg.prevIndex < s.log.log.length ∧ ∃ e rest,
          missing s.log.log msg.entries = e :: rest ∧
          1 ≤ e.index ∧ e.index ≤ s.log.log.length ∧
          s'.log.log = s.log.log.take (e.index - 1) ++
            numberedFrom e.index (List.replicate (rest.length + 1) e)) ∨
        (msg.prevIndex = s.log.log.length ∧
          s'.log.log = s.log.log ++ numberedFrom (s.log.log.length + 1) msg.entries))) := by
  rcases handleAppendEntries_ok.mp h with ⟨hrefused, rfl, -⟩ | ⟨hsafe, log, hlog, rfl, -⟩
  · exact .inl ⟨hrefused, rfl⟩
  · refine .inr ⟨hsafe, ?_⟩
    unfold acceptEntries at hlog
    by_cases hstale : msg.prevIndex < s.log.log.length
    · rw [decide_eq_true hstale, if_pos rfl] at hlog
      rcases handleStaleEntries_ok.mp hlog with
        ⟨hm, rfl⟩ | ⟨e, rest, hm, hpos, hle, -, hcommits, hlog'⟩
      · exact ⟨rfl, .inl ⟨hstale, hm, rfl⟩⟩
      · exact ⟨by simp [hcommits], .inr (.inl ⟨hstale, e, rest, hm, hpos, hle, hlog'⟩)⟩
    · rw [decide_eq_false hstale, if_neg (by simp)] at hlog
      obtain ⟨-, hall, hcommits⟩ := appendAll_ok.mp hlog
      have hend : msg.prevIndex = s.log.log.length := by
        have := le_of_termAt hsafe
        omega
      exact ⟨by simp [hcommits], .inr (.inr ⟨hend, hall⟩)⟩

/-- INTERNAL: a call of `handle_append_entries` keeps everything but the log.
SOURCE: core/smr.cpp:226-250 -/
theorem handleAppendEntries_frame {s s' : SMR} {msg : AppendEntriesMessage} {sender : ℕ}
    {cbs : List Callback} (h : s.handleAppendEntries msg sender = .ok (s', cbs)) :
    s' = { s with log := s'.log } := by
  rcases handleAppendEntries_ok.mp h with ⟨-, rfl, -⟩ | ⟨-, log, -, rfl, -⟩
  · rfl
  · rfl

/-- INTERNAL: no entry is handed to the state machine while a message is appended.
SOURCE: core/smr.cpp:226-250 -/
theorem handleAppendEntries_applied {s s' : SMR} {msg : AppendEntriesMessage} {sender : ℕ}
    {cbs : List Callback} (h : s.handleAppendEntries msg sender = .ok (s', cbs)) :
    appliedEntries cbs = [] := by
  rcases handleAppendEntries_ok.mp h with ⟨-, -, rfl⟩ | ⟨-, log, -, -, rfl⟩
  · rfl
  · rfl

/-! ## `handle_append_entries_reply` -/

/-- INTERNAL: **what `handle_append_entries_reply` does**: nothing for a failure; a vote
for a success; and when the vote completes an index of the log that is above the commit
index, the commit index moves there and the entries in between are handed on.
SOURCE: core/smr.cpp:252-268 -/
theorem handleReply_cases {s s' : SMR} {msg : AppenEntriesReplyMessage} {sender : ℕ}
    {cbs : List Callback} (h : s.handleAppendEntriesReply msg sender = .ok (s', cbs)) :
    (msg.success = false ∧ s' = s ∧ cbs = []) ∨
    (msg.success = true ∧ ∃ votes reached,
      s.entryVotes.vote sender msg.index = .ok (votes, reached) ∧
      (((reached = false ∨ msg.index ≤ s.log.commits) ∧
          s' = { s with entryVotes := votes } ∧ cbs = []) ∨
        (reached = true ∧ s.log.commits < msg.index ∧ msg.index ≤ s.log.log.length ∧
          s' = { s with
            entryVotes := votes
            log := { s.log with commits := msg.index } } ∧
          cbs = [.notifyApply ((s.log.log.take msg.index).drop s.log.commits)]))) := by
  unfold handleAppendEntriesReply at h
  cases hs : msg.success with
  | false =>
    simp only [hs, Bool.not_false, if_true, Except.ok.injEq, Prod.mk.injEq] at h
    exact .inl ⟨rfl, h.1.symm, h.2.symm⟩
  | true =>
    simp only [hs, Bool.not_true, Bool.false_eq_true, if_false] at h
    rw [bind_eq_ok] at h
    obtain ⟨⟨votes, reached⟩, hv, h⟩ := h
    refine .inr ⟨rfl, votes, reached, hv, ?_⟩
    cases reached with
    | false =>
      simp only [Bool.false_eq_true, if_false, Except.ok.injEq, Prod.mk.injEq] at h
      exact .inl ⟨.inl rfl, h.1.symm, h.2.symm⟩
    | true =>
      simp only [if_true] at h
      rw [bind_eq_ok] at h
      obtain ⟨⟨log, ok⟩, hc, h⟩ := h
      by_cases hle : msg.index ≤ s.log.log.length
      · rw [s.log.commitTo_of_le hle, Except.ok.injEq, Prod.mk.injEq] at hc
        obtain ⟨rfl, rfl⟩ := hc
        by_cases hlt : s.log.commits < msg.index
        · simp only [hlt, decide_true, if_true, SMRLog.currCommit,
            Nat.max_eq_right (le_of_lt hlt)] at h
          rw [SMRLog.getPartEntries_of_le { s.log with commits := msg.index } (by omega)
            (by omega) hle, ok_bind,
            Except.ok.injEq, Prod.mk.injEq] at h
          exact .inr ⟨rfl, hlt, hle, h.1.symm, h.2.symm⟩
        · simp only [hlt, decide_false, Bool.false_eq_true, if_false,
            Nat.max_eq_left (not_lt.mp hlt), Except.ok.injEq, Prod.mk.injEq] at h
          exact .inl ⟨.inr (not_lt.mp hlt), h.1.symm, h.2.symm⟩
      · rw [s.log.commitTo_of_gt (by omega)] at hc
        cases hc

/-- INTERNAL: over a call of `handle_append_entries_reply` the log stays, the commit index
may go up within the log, and the entries in between are handed on.
SOURCE: core/smr.cpp:252-268 -/
theorem handleReply_applied {s s' : SMR} {msg : AppenEntriesReplyMessage} {sender : ℕ}
    {cbs : List Callback} (h : s.handleAppendEntriesReply msg sender = .ok (s', cbs)) :
    s'.log.log = s.log.log ∧ s.log.commits ≤ s'.log.commits ∧
      (s'.log.commits = s.log.commits ∨ s'.log.commits ≤ s.log.log.length) ∧
      appliedEntries cbs = (s.log.log.take s'.log.commits).drop s.log.commits := by
  have hnone : (s.log.log.take s.log.commits).drop s.log.commits = [] :=
    List.drop_eq_nil_of_le (List.length_take_le _ _)
  rcases handleReply_cases h with ⟨-, rfl, rfl⟩ | ⟨-, votes, reached, -, hcase⟩
  · exact ⟨rfl, le_rfl, .inl rfl, hnone.symm⟩
  · rcases hcase with ⟨-, rfl, rfl⟩ | ⟨-, hlt, hle, rfl, rfl⟩
    · exact ⟨rfl, le_rfl, .inl rfl, hnone.symm⟩
    · exact ⟨rfl, le_of_lt hlt, .inr hle, List.append_nil _⟩

/-- INTERNAL: the entries handed on over a call of `handle_append_entries_reply` follow those
committed before, up to those committed after it. SOURCE: core/smr.cpp:252-268 -/
theorem handleReply_committed {s s' : SMR} {msg : AppenEntriesReplyMessage} {sender : ℕ}
    {cbs : List Callback} (h : s.handleAppendEntriesReply msg sender = .ok (s', cbs)) :
    s.log.log.take s.log.commits ++ appliedEntries cbs = s'.log.log.take s'.log.commits := by
  obtain ⟨hlog, hle, -, happlied⟩ := handleReply_applied h
  have hsplit := List.take_append_drop s.log.commits (s.log.log.take s'.log.commits)
  rw [List.take_take, Nat.min_eq_left hle] at hsplit
  rw [hlog, happlied, hsplit]

/-- INTERNAL: a reply from a peer for an index of the log is handled without abort.
SOURCE: core/smr.cpp:252-268 -/
theorem handleReply_total (s : SMR) (msg : AppenEntriesReplyMessage) {sender : ℕ}
    (hpeer : sender < s.entryVotes.peerNum)
    (hindex : msg.success = true → msg.index ≤ s.log.log.length) :
    ∃ s' cbs, s.handleAppendEntriesReply msg sender = .ok (s', cbs) := by
  unfold handleAppendEntriesReply
  cases hs : msg.success with
  | false => exact ⟨_, _, rfl⟩
  | true =>
    have hle := hindex hs
    obtain ⟨votes, reached, hv⟩ := s.entryVotes.vote_total msg.index hpeer
    simp only [Bool.not_true, Bool.false_eq_true, if_false]
    rw [hv, ok_bind]
    cases reached with
    | false => exact ⟨_, _, rfl⟩
    | true =>
      simp only [if_true]
      rw [s.log.commitTo_of_le hle, ok_bind]
      by_cases hlt : s.log.commits < msg.index
      · simp only [hlt, decide_true, if_true, SMRLog.currCommit]
        rw [SMRLog.getPartEntries_of_le { s.log with commits := max s.log.commits msg.index }
          (by omega) (by omega) hle]
        exact ⟨_, _, rfl⟩
      · simp only [hlt, decide_false]
        exact ⟨_, _, rfl⟩

/-! ## `handle_operation` -/

/-- The message a peer gets when `entry` has been appended to the log of `s`.
SOURCE: core/smr.cpp:270-281 -/
def appendMessage (s : SMR) (entry : Entry) : AppendEntriesMessage where
  prevTerm := s.log.lastEntry.epoch
  prevIndex := s.log.log.length
  commit := s.log.commits
  groupId := s.gid
  entries := [entry]

/-- INTERNAL: the loop over the peers sends to each other peer the entry just appended,
with the entry before it as the previous one, and changes the `next` indices only.
SOURCE: core/smr.cpp:217-222 -/
theorem sendToPeers_ok (s₀ : SMR) (entry : Entry) (peers : List ℕ) :
    ∀ s : SMR, s.log.log = s₀.log.log ++ [entry] → s.log.commits = s₀.log.commits →
      s.gid = s₀.gid → s.me = s₀.me →
      ∃ prs, sendToPeers (s₀.log.log.length + 1) peers s =
        .ok ({ s with prs := prs },
          (peers.filter (· ≠ s₀.me)).map fun rid =>
            .notifySendAppendEntry (appendMessage s₀ entry) rid) := by
  induction peers with
  | nil =>
    intro s _ _ _ _
    exact ⟨s.prs, rfl⟩
  | cons rid rest ih =>
    intro s hlog hcommits hgid hme
    unfold sendToPeers
    by_cases hrid : rid = s.me
    · rw [if_pos hrid]
      obtain ⟨prs, hprs⟩ := ih s hlog hcommits hgid hme
      exact ⟨prs, by rw [hprs]; simp [← hme, hrid]⟩
    · rw [if_neg hrid]
      have hlen : s.log.log.length = s₀.log.log.length + 1 := by simp [hlog]
      -- the `next` index of the peer is the last index, so one entry is sent
      have hsend : ∀ prs : ℕ → PeerStatus, (prs rid).next = s₀.log.log.length + 1 →
          sendAppendEntries { s with prs := prs } rid =
            .ok (.notifySendAppendEntry (appendMessage s₀ entry) rid) := by
        intro prs hnext
        have hterm : termAt s.log.log s₀.log.log.length = some s₀.log.lastEntry.epoch := by
          rw [hlog, termAt_append le_rfl]
          exact termAt_lastEntry s₀.log
        obtain ⟨prev, hprev, hprevTerm⟩ :=
          entryAt_of_le_length s.log (i := s₀.log.log.length) (by omega)
        have hepoch : prev.epoch = s₀.log.lastEntry.epoch := by
          rw [hterm] at hprevTerm
          exact (Option.some.inj hprevTerm).symm
        have hne : s.log.log ≠ [] := by simp [hlog]
        have htail := s.log.getTailEntries_last hne
        rw [hlen] at htail
        unfold sendAppendEntries
        dsimp only
        rw [hnext, if_neg (by omega), Nat.add_sub_cancel, hprev, ok_bind, htail, ok_bind]
        simp [appendMessage, hepoch, SMRLog.currCommit, hcommits, hgid, hlog]
      obtain ⟨prs, hprs⟩ := ih
        { s with
          prs := Function.update s.prs rid { s.prs rid with next := s₀.log.log.length + 1 } }
        hlog hcommits hgid hme
      refine ⟨prs, ?_⟩
      dsimp only at hprs ⊢
      rw [hsend _ (by simp), ok_bind, hprs, ok_bind]
      simp [← hme, hrid]

/-- INTERNAL: with room in the log, and once the own vote has returned, `handle_operation`
returns: the log has one more entry, with the client's epoch and bytes, and that entry goes to
every other peer. SOURCE: core/smr.cpp:211-224 -/
theorem handleOperation_eq {s : SMR} {votes : EntryVoteRecord} {reached : Bool}
    (msg : ClientMessage) (room : s.log.log.length < reservedEntries)
    (hv : s.entryVotes.vote s.me (s.log.log.length + 1) = .ok (votes, reached)) :
    ∃ prs, s.handleOperation msg =
      .ok ({ s with
          log := s.log.grown { data := msg.op } msg.epoch room
          entryVotes := votes
          prs := prs },
        (s.peers.filter (· ≠ s.me)).map (fun rid => .notifySendAppendEntry
          (appendMessage s ⟨msg.epoch, s.log.log.length + 1, msg.op⟩) rid),
        s.log.log.length + 1) := by
  have hlog := s.log.grown_log { data := msg.op } msg.epoch room
  have hcommits := s.log.grown_commits { data := msg.op } msg.epoch room
  unfold handleOperation
  rw [s.log.append_of_room { data := msg.op } msg.epoch room, ok_bind]
  dsimp only
  generalize s.log.grown { data := msg.op } msg.epoch room = log at hlog hcommits ⊢
  rw [hv, ok_bind]
  obtain ⟨prs, hprs⟩ := sendToPeers_ok s ⟨msg.epoch, s.log.log.length + 1, msg.op⟩ s.peers
    { s with
      log := log
      entryVotes := votes
      prs := Function.update s.prs s.me
        { matched := s.log.log.length + 1, next := s.log.log.length + 1 + 1 } }
    hlog hcommits rfl rfl
  refine ⟨prs, ?_⟩
  dsimp only at hprs ⊢
  rw [hprs]
  rfl

/-- INTERNAL: `handle_operation` returns only when there is room in the log.
SOURCE: core/smr.cpp:30-45, 211-213 -/
theorem handleOperation_room {s s' : SMR} {msg : ClientMessage} {cbs : List Callback} {idx : ℕ}
    (h : s.handleOperation msg = .ok (s', cbs, idx)) : s.log.log.length < reservedEntries := by
  obtain ⟨⟨log, lastIdx⟩, happend, -⟩ := bind_eq_ok.mp h
  exact (SMRLog.append_ok happend).1

/-- INTERNAL: **what `handle_operation` does** when it returns: it appends one entry with
the client's epoch and bytes, casts its own vote for it, and sends it to every other peer.
SOURCE: core/smr.cpp:211-224 -/
theorem handleOperation_ok {s s' : SMR} {msg : ClientMessage} {cbs : List Callback} {idx : ℕ}
    (h : s.handleOperation msg = .ok (s', cbs, idx)) :
    idx = s.log.log.length + 1 ∧
      s'.log.log = s.log.log ++ [⟨msg.epoch, idx, msg.op⟩] ∧
      s'.log.commits = s.log.commits ∧ s'.gid = s.gid ∧ s'.me = s.me ∧ s'.peers = s.peers ∧
      (∃ reached, s.entryVotes.vote s.me idx = .ok (s'.entryVotes, reached)) ∧
      cbs = (s.peers.filter (· ≠ s.me)).map fun rid =>
        .notifySendAppendEntry (appendMessage s ⟨msg.epoch, idx, msg.op⟩) rid := by
  obtain ⟨votes, reached, hv⟩ : ∃ votes reached,
      s.entryVotes.vote s.me (s.log.log.length + 1) = .ok (votes, reached) := by
    obtain ⟨⟨log, lastIdx⟩, happend, h⟩ := bind_eq_ok.mp h
    obtain ⟨⟨votes, reached⟩, hv, -⟩ := bind_eq_ok.mp h
    obtain ⟨-, rfl, -, -⟩ := SMRLog.append_ok happend
    exact ⟨votes, reached, hv⟩
  have room := handleOperation_room h
  obtain ⟨prs, hop⟩ := handleOperation_eq msg room hv
  rw [hop, Except.ok.injEq, Prod.mk.injEq, Prod.mk.injEq] at h
  obtain ⟨rfl, rfl, rfl⟩ := h
  exact ⟨rfl, by simp, rfl, rfl, rfl, rfl, ⟨reached, hv⟩, rfl⟩

/-- INTERNAL: no entry is handed to the state machine while an operation is handled.
SOURCE: core/smr.cpp:211-224 -/
theorem handleOperation_applied {s s' : SMR} {msg : ClientMessage} {cbs : List Callback}
    {idx : ℕ} (h : s.handleOperation msg = .ok (s', cbs, idx)) : appliedEntries cbs = [] := by
  obtain ⟨-, -, -, -, -, -, -, rfl⟩ := handleOperation_ok h
  apply List.flatMap_eq_nil_iff.mpr
  intro cb hcb
  obtain ⟨rid, -, rfl⟩ := List.mem_map.mp hcb
  rfl

/-- INTERNAL: a peer of the group with room in its log handles an operation without abort.
SOURCE: core/smr.cpp:211-224 -/
theorem handleOperation_total (s : SMR) (msg : ClientMessage)
    (hme : s.me < s.entryVotes.peerNum) (room : s.log.log.length < reservedEntries) :
    ∃ s' cbs idx, s.handleOperation msg = .ok (s', cbs, idx) := by
  obtain ⟨votes, reached, hv⟩ := s.entryVotes.vote_total (s.log.log.length + 1) hme
  obtain ⟨prs, hop⟩ := handleOperation_eq msg room hv
  exact ⟨_, _, _, hop⟩

end MorphlingC.Analysis
