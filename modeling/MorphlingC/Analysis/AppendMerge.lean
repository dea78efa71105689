import MorphlingC.Analysis.Handlers

/-!
# When appending a message is safe, and when it merges

The code and `MorphlingC.Interface.AppendSpec` part in three ways, two of them in
`handle_stale_entries` and only for messages that start before the follower's last entry.

* **It aborts** when the message overlaps the log, agrees with it all along the overlap,
  and goes on past its end: the entry of the log is looked up before the test for the end
  of the log (`Overreaches`).
* **It reads what has moved** when the log would get more entries than there is room for
  (`RoomBehind`).  It fails in no other case.
* **It repeats one entry** when it has truncated the log: the inner loop appends the
  conflicting entry once for each entry left in the message.  The result is the merge
  exactly when the entries left all have the epoch and the data of the first of them
  (`TailRepeats`).
-/

set_option autoImplicit false

namespace MorphlingC.Analysis

open MorphlingC.Library MorphlingC.Model MorphlingC.Interface MorphlingC.Model.SMR

/-! ## Aborts -/

/-- The message starts before the last entry of the log, goes on past it, and agrees with
the log as far as the log goes. -/
def Overreaches (log : List Entry) (msg : AppendEntriesMessage) : Prop :=
  msg.prevIndex < log.length ∧ log.length < msg.prevIndex + msg.entries.length ∧
    ∀ e ∈ msg.entries.take (log.length - msg.prevIndex), Present log e

instance (log : List Entry) (msg : AppendEntriesMessage) : Decidable (Overreaches log msg) :=
  inferInstanceAs (Decidable (_ ∧ _ ∧ _))

/-- The vector has room for the entries of the message behind the one it continues from. -/
def RoomBehind (msg : AppendEntriesMessage) : Prop :=
  msg.prevIndex + msg.entries.length ≤ reservedEntries

instance (msg : AppendEntriesMessage) : Decidable (RoomBehind msg) :=
  inferInstanceAs (Decidable (_ ≤ _))

/-- The message is handled without abort or a read of what has moved, and if the log is truncated
on the way, then at the position of one of its entries. -/
def AppendsSafely (s : SMR) (msg : AppendEntriesMessage) (sender : ℕ) : Prop :=
  (∃ s' cbs, s.handleAppendEntries msg sender = .ok (s', cbs)) ∧
    (msg.prevIndex < s.log.log.length → ∀ e count,
      staleConflict s.log s.log.lastIndex msg.entries = .ok (some (e, count)) →
      ∃ pos, SMRLog.entryPos e.index = .ok pos ∧ pos < s.log.log.length)

/-- INTERNAL: the first missing entry of consecutive entries lies beyond the log exactly
when the entries agree with the log as far as it goes and then go on.
SOURCE: core/smr.cpp:194-200 -/
theorem missing_beyond_iff {log : List Entry} {i : ℕ} {entries : List Entry} (hi : 1 ≤ i)
    (hle : i ≤ log.length + 1) (hc : ConsecutiveFrom i entries) :
    (∃ e rest, missing log entries = e :: rest ∧ log.length < e.index) ↔
      log.length + 1 < i + entries.length ∧
        ∀ e ∈ entries.take (log.length + 1 - i), Present log e := by
  induction entries generalizing i with
  | nil =>
    simp only [missing_nil, List.length_nil]
    constructor
    · rintro ⟨e, rest, h, -⟩
      cases h
    · rintro ⟨h, -⟩
      omega
  | cons x xs ih =>
    obtain ⟨hx, hxs⟩ := hc
    rcases Nat.lt_or_ge log.length i with hend | hin
    · -- the first entry is already past the end of the log
      have hi' : i = log.length + 1 := by omega
      have habsent : ¬ Present log x := by
        rw [Present, termAt_of_gt (by omega)]
        simp
      rw [missing_cons_of_absent xs habsent]
      constructor
      · intro _
        refine ⟨by simp; omega, ?_⟩
        rw [hi', Nat.sub_self, List.take_zero]
        simp
      · intro _
        exact ⟨x, xs, rfl, by omega⟩
    · have htake : log.length + 1 - i = (log.length + 1 - (i + 1)) + 1 := by omega
      rw [htake, List.take_succ_cons, List.forall_mem_cons, List.length_cons]
      by_cases hpresent : Present log x
      · rw [missing_cons_of_present xs hpresent, ih (by omega) (by omega) hxs]
        constructor
        · rintro ⟨hlen, hall⟩
          exact ⟨by omega, hpresent, hall⟩
        · rintro ⟨hlen, -, hall⟩
          exact ⟨by omega, hall⟩
      · rw [missing_cons_of_absent xs hpresent]
        constructor
        · rintro ⟨e, rest, he, hgt⟩
          obtain ⟨rfl, -⟩ := List.cons.inj he
          omega
        · rintro ⟨-, hpresent', -⟩
          exact absurd hpresent' hpresent

/-- INTERNAL: a message that continues from an entry of the log overreaches exactly when
its first missing entry lies beyond the log. SOURCE: core/smr.cpp:194-200 -/
theorem overreaches_iff {log : List Entry} {msg : AppendEntriesMessage}
    (hstale : msg.prevIndex < log.length)
    (hc : ConsecutiveFrom (msg.prevIndex + 1) msg.entries) :
    Overreaches log msg ↔
      ∃ e rest, missing log msg.entries = e :: rest ∧ log.length < e.index := by
  rw [missing_beyond_iff (by omega) (by omega) hc, Nat.add_sub_add_right]
  unfold Overreaches
  constructor
  · rintro ⟨-, hlen, hall⟩
    exact ⟨by omega, hall⟩
  · rintro ⟨hlen, hall⟩
    exact ⟨hstale, by omega, hall⟩

/-- INTERNAL: **a safe message is taken over exactly when it does not overreach and there is
room.** SOURCE: core/smr.cpp:194-209, 233-239 -/
theorem acceptEntries_returns_iff {l : SMRLog} {msg : AppendEntriesMessage}
    (hle : msg.prevIndex ≤ l.log.length) (hc : ConsecutiveFrom (msg.prevIndex + 1) msg.entries) :
    (∃ l', acceptEntries l (decide (msg.prevIndex < l.log.length)) msg = .ok l') ↔
      ¬ Overreaches l.log msg ∧ RoomBehind msg := by
  unfold acceptEntries RoomBehind
  by_cases hstale : msg.prevIndex < l.log.length
  · rw [decide_eq_true hstale, if_pos rfl, overreaches_iff hstale hc]
    constructor
    · rintro ⟨l', hl'⟩
      rcases handleStaleEntries_ok.mp hl' with ⟨hnone, -⟩ | ⟨e, rest, hm, -, hin, hroom, -⟩
      · refine ⟨?_, ?_⟩
        · rintro ⟨e, rest, hm, -⟩
          rw [hnone] at hm
          cases hm
        · -- nothing is missing, so the entries are those of the log
          by_contra hmany
          have hfits := l.fits
          have hall : ∀ e ∈ msg.entries.take (l.log.length + 1 - (msg.prevIndex + 1)),
              Present l.log e := by
            intro e he
            exact present_of_missing_nil hnone (List.mem_of_mem_take he)
          obtain ⟨e, rest, hm, -⟩ := (missing_beyond_iff (by omega) (by omega) hc).mpr
            ⟨by omega, hall⟩
          rw [hnone] at hm
          cases hm
      · have hend := hc.missing_length hm
        refine ⟨?_, by omega⟩
        rintro ⟨e', rest', hm', hgt⟩
        rw [hm] at hm'
        obtain ⟨rfl, -⟩ := List.cons.inj hm'
        omega
    · rintro ⟨hnot, hroom⟩
      apply handleStaleEntries_total
      intro e rest hm
      have hend := hc.missing_length hm
      have hfirst := (hc.missing hm).1
      refine ⟨by omega, ?_, by omega⟩
      by_contra hgt
      exact hnot ⟨e, rest, hm, by omega⟩
  · have hend : msg.prevIndex = l.log.length := by omega
    have hnot : ¬ Overreaches l.log msg := fun h => hstale h.1
    rw [decide_eq_false hstale, if_neg (by simp), hend]
    constructor
    · rintro ⟨l', hl'⟩
      exact ⟨hnot, (appendAll_ok.mp hl').1⟩
    · rintro ⟨-, hroom⟩
      exact appendAll_total hroom

/-- **Appending a safe message returns, without truncating outside the log, exactly when
the message does not agree with the log up to its end and then go on, and does not bring an
entry behind the 1000000th.** SOURCE: core/smr.cpp:10, 30-57, 194-209, 226-250 -/
theorem append_is_safe_iff (s : SMR) (msg : AppendEntriesMessage) (sender : ℕ)
    (hsafe : termAt s.log.log msg.prevIndex = some msg.prevTerm)
    (hc : ConsecutiveFrom (msg.prevIndex + 1) msg.entries) :
    AppendsSafely s msg sender ↔ ¬ Overreaches s.log.log msg ∧ RoomBehind msg := by
  have haccept := acceptEntries_returns_iff (le_of_termAt hsafe) hc
  constructor
  · rintro ⟨⟨s', cbs, hok⟩, -⟩
    rcases handleAppendEntries_ok.mp hok with ⟨hrefused, -, -⟩ | ⟨-, log, hlog, -, -⟩
    · exact absurd hsafe hrefused
    · exact haccept.mp ⟨log, hlog⟩
  · intro hroom
    obtain ⟨log, hlog⟩ := haccept.mpr hroom
    refine ⟨⟨_, _, handleAppendEntries_ok.mpr (.inr ⟨hsafe, log, hlog, rfl, rfl⟩)⟩, ?_⟩
    intro hstale e count hscan
    rw [SMRLog.lastIndex_eq, staleConflict_eq] at hscan
    cases hm : missing s.log.log msg.entries with
    | nil =>
      rw [hm] at hscan
      cases hscan
    | cons e' rest =>
      rw [hm] at hscan
      dsimp only at hscan
      split_ifs at hscan with hle
      cases hscan
      have hfirst := (hc.missing hm).1
      exact ⟨e.index - 1, SMRLog.entryPos_pos (by omega), by omega⟩

/-- A follower that holds the given entries. -/
def followerWith (entries : List Entry) : SMR :=
  let s := SMR.new 1 [0, 1, 2] 0
  { s with log := (appendAll s.log entries).toOption.getD s.log }

/-- A message that overlaps the log and conflicts inside it is handled. -/
theorem append_is_safe_iff_conflict :
    AppendsSafely (followerWith [⟨1, 1, [7]⟩, ⟨1, 2, [8]⟩])
      { prevTerm := 1, prevIndex := 1, commit := 0, entries := [⟨2, 2, [9]⟩, ⟨2, 3, [9]⟩] } 0 :=
  (append_is_safe_iff _ _ _ (by decide) (by decide)).mpr (by decide)

/-- A message that repeats the follower's only entry and brings one more is safe by the
consistency check, and aborts the process. -/
theorem append_aborts_past_end :
    let s := followerWith [⟨1, 1, [7]⟩]
    let msg : AppendEntriesMessage :=
      { prevTerm := 0, prevIndex := 0, commit := 0, entries := [⟨1, 1, [7]⟩, ⟨1, 2, [8]⟩] }
    termAt s.log.log msg.prevIndex = some msg.prevTerm ∧
      ConsecutiveFrom (msg.prevIndex + 1) msg.entries ∧
      s.handleAppendEntries msg 0 = .error .entryBeyondLog ∧
      ¬ AppendsSafely s msg 0 := by
  refine ⟨by decide, by decide, rfl, ?_⟩
  rintro ⟨⟨s', cbs, h⟩, -⟩
  cases h

/-! ## The merge -/

/-- From the first entry of the message that the log does not have on, all entries have the
same epoch and the same data. -/
def TailRepeats (log entries : List Entry) : Prop :=
  ∀ e ∈ (missing log entries).head?, ∀ x ∈ missing log entries,
    x.epoch = e.epoch ∧ x.data = e.data

instance (log entries : List Entry) : Decidable (TailRepeats log entries) :=
  inferInstanceAs (Decidable (∀ e ∈ _, ∀ x ∈ _, _ ∧ _))

/-- INTERNAL: appending a message right after the log is the merge.
SOURCE: core/smr.cpp:236-238 -/
theorem appendAll_eq_merged {l l' : SMRLog} {entries : List Entry}
    (hc : ConsecutiveFrom (l.log.length + 1) entries) (h : appendAll l entries = .ok l') :
    l'.log = mergedLog l.log entries := by
  rw [(appendAll_ok.mp h).2.1, hc.numberedFrom_eq]
  unfold mergedLog
  rw [missing_of_consecutive_end hc]
  cases entries with
  | nil => simp
  | cons e rest =>
    dsimp only
    rw [hc.1, Nat.add_sub_cancel, List.take_length]

/-- INTERNAL: taking over stale entries is the merge exactly when the missing entries of
the message repeat one entry. SOURCE: core/smr.cpp:194-209 -/
theorem handleStaleEntries_merged_iff {l l' : SMRLog} {msg : AppendEntriesMessage} {i : ℕ}
    (hc : ConsecutiveFrom i msg.entries) (h : handleStaleEntries l msg = .ok l') :
    l'.log = mergedLog l.log msg.entries ↔ TailRepeats l.log msg.entries := by
  unfold mergedLog TailRepeats
  rcases handleStaleEntries_ok.mp h with ⟨hm, rfl⟩ | ⟨e, rest, hm, -, -, -, -, hlog⟩
  · simp [hm]
  · have hrepeat := numberedFrom_replicate_eq_iff e (hc.missing hm).2
    rw [hlog, hm]
    simpa using hrepeat

/-- **A message that is handled is merged into the log as specified exactly when it is
refused, or starts at the end of the log, or its entries from the first missing one on
repeat one entry.** SOURCE: core/smr.cpp:194-209, 226-250 -/
theorem append_merges_iff {s s' : SMR} {msg : AppendEntriesMessage} {sender : ℕ}
    {cbs : List Callback} (hc : ConsecutiveFrom (msg.prevIndex + 1) msg.entries)
    (h : s.handleAppendEntries msg sender = .ok (s', cbs)) :
    AppendSpec s msg s' cbs ↔
      (termAt s.log.log msg.prevIndex ≠ some msg.prevTerm ∨
        msg.prevIndex = s.log.log.length ∨ TailRepeats s.log.log msg.entries) := by
  rcases handleAppendEntries_ok.mp h with ⟨hrefused, rfl, rfl⟩ | ⟨hsafe, log, hlog, rfl, rfl⟩
  · constructor
    · exact fun _ => .inl hrefused
    · intro _
      refine ⟨_, _, rfl, ?_⟩
      rw [if_neg hrefused]
      exact ⟨rfl, rfl, rfl⟩
  · have hspec : AppendSpec s msg { s with log := { log with
          commits := max log.commits (min msg.commit log.log.length) } }
        [appendReply { s with log := { log with
          commits := max log.commits (min msg.commit log.log.length) } } true sender] ↔
        log.log = mergedLog s.log.log msg.entries := by
      constructor
      · rintro ⟨reply, dst, -, hif⟩
        rw [if_pos hsafe] at hif
        exact hif.2
      · intro hmerged
        refine ⟨_, _, rfl, ?_⟩
        rw [if_pos hsafe]
        exact ⟨rfl, hmerged⟩
    rw [hspec]
    unfold acceptEntries at hlog
    by_cases hstale : msg.prevIndex < s.log.log.length
    · rw [decide_eq_true hstale, if_pos rfl] at hlog
      rw [handleStaleEntries_merged_iff hc hlog]
      constructor
      · exact fun htail => .inr (.inr htail)
      · rintro (hrefused | hend | htail)
        · exact absurd hsafe hrefused
        · omega
        · exact htail
    · have hend : msg.prevIndex = s.log.log.length := by
        have := le_of_termAt hsafe
        omega
      rw [decide_eq_false hstale, if_neg (by simp)] at hlog
      rw [hend] at hc
      exact iff_of_true (appendAll_eq_merged hc hlog) (.inr (.inl hend))

/-- A conflict followed by nothing else in the message is merged as specified. -/
theorem append_merges_iff_last :
    let s := followerWith [⟨1, 1, [7]⟩, ⟨1, 2, [8]⟩]
    let msg : AppendEntriesMessage :=
      { prevTerm := 1, prevIndex := 1, commit := 0, entries := [⟨2, 2, [9]⟩] }
    ∃ s' cbs, s.handleAppendEntries msg 0 = .ok (s', cbs) ∧ AppendSpec s msg s' cbs :=
  ⟨_, _, rfl, (append_merges_iff (by decide) rfl).mpr (by decide)⟩

/-- A conflict with one more entry behind it leaves the conflicting entry twice in the log,
where the message has two different ones. -/
theorem append_repeats_conflict :
    let s := followerWith [⟨1, 1, [7]⟩, ⟨1, 2, [8]⟩]
    let msg : AppendEntriesMessage :=
      { prevTerm := 0, prevIndex := 0, commit := 0, entries := [⟨2, 1, [9]⟩, ⟨2, 2, [10]⟩] }
    ConsecutiveFrom (msg.prevIndex + 1) msg.entries ∧
      ∃ s' cbs, s.handleAppendEntries msg 0 = .ok (s', cbs) ∧
        s'.log.log = [⟨2, 1, [9]⟩, ⟨2, 2, [9]⟩] ∧
        mergedLog s.log.log msg.entries = [⟨2, 1, [9]⟩, ⟨2, 2, [10]⟩] ∧
        ¬ AppendSpec s msg s' cbs := by
  refine ⟨by decide, _, _, rfl, rfl, rfl, ?_⟩
  rintro ⟨reply, dst, -, hspec⟩
  exact absurd hspec.2 (by decide)

end MorphlingC.Analysis
