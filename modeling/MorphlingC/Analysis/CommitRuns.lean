import MorphlingC.Analysis.Handlers

/-!
# Runs of one group: what is committed, and what is applied

Two laws about any sequence of calls of the three handlers at one replica, in whatever
role, and exactly when the code keeps them.

* **What is committed stays** (`committed_stays_iff`).  The commit index only grows, stays
  within the log, and the entries up to it do not change, exactly as long as no message
  truncates the log at or below the commit index: `handle_stale_entries` does not look at
  it.
* **What is applied is what is committed** (`applied_iff_no_passive_commit`).  Entries are
  handed to the state machine when votes commit them, and only then; entries committed
  through the commit field of a message are never handed on.

Both are proved call by call (`stays_iff`, `applied_iff`) and carried over runs by
`Machine.throughout_iff_guarded`.
-/

set_option autoImplicit false

namespace MorphlingC.Analysis

open MorphlingC.Library MorphlingC.Model MorphlingC.Interface MorphlingC.Model.SMR

/-! ## What is committed stays -/

/-- Between two states of a group, what was committed has stayed: the commit index is
within the log and has not decreased, and the entries up to the earlier one are the same. -/
structure Stays (s s' : SMR) : Prop where
  bounded : s'.log.commits ≤ s'.log.log.length
  grows : s.log.commits ≤ s'.log.commits
  kept : s'.log.log.take s.log.commits = s.log.log.take s.log.commits

/-- The message is accepted, starts before the last entry, and its first entry that the log
does not have is at or below the commit index. -/
def TruncatesCommitted (s : SMR) (msg : AppendEntriesMessage) : Prop :=
  termAt s.log.log msg.prevIndex = some msg.prevTerm ∧ msg.prevIndex < s.log.log.length ∧
    ∃ e ∈ (missing s.log.log msg.entries).head?, e.index ≤ s.log.commits

/-- The call does not truncate the log at or below the commit index. -/
def KeepsCommitted (s : SMR) : SMRCall → Prop
  | .operation _ => True
  | .append msg _ => ¬ TruncatesCommitted s msg
  | .reply _ _ => True

/-- INTERNAL: an operation adds an entry behind all others. SOURCE: core/smr.cpp:211-224 -/
theorem operation_stays {s s' : SMR} {msg : ClientMessage} {cbs : List Callback} {idx : ℕ}
    (hb : s.log.commits ≤ s.log.log.length)
    (h : s.handleOperation msg = .ok (s', cbs, idx)) : Stays s s' := by
  obtain ⟨-, hlog, hcommits, -⟩ := handleOperation_ok h
  constructor
  · rw [hcommits, hlog, List.length_append]
    omega
  · exact hcommits.ge
  · rw [hlog, List.take_append_of_le_length hb]

/-- INTERNAL: an acknowledgement moves the commit index up, within the log.
SOURCE: core/smr.cpp:252-268 -/
theorem reply_stays {s s' : SMR} {msg : AppenEntriesReplyMessage} {sender : ℕ}
    {cbs : List Callback} (hb : s.log.commits ≤ s.log.log.length)
    (h : s.handleAppendEntriesReply msg sender = .ok (s', cbs)) : Stays s s' := by
  rcases handleReply_cases h with ⟨-, rfl, -⟩ | ⟨-, votes, reached, -, hcase⟩
  · exact ⟨hb, le_rfl, rfl⟩
  · rcases hcase with ⟨-, rfl, -⟩ | ⟨-, hlt, hle, rfl, -⟩
    · exact ⟨hb, le_rfl, rfl⟩
    · exact ⟨hle, le_of_lt hlt, rfl⟩

/-- INTERNAL: **a message that is handled keeps what is committed exactly when it does not
truncate there.**  If it does, the entry it puts at the place of the truncation has another
epoch than the one that was there. SOURCE: core/smr.cpp:194-209, 226-250 -/
theorem append_stays_iff {s s' : SMR} {msg : AppendEntriesMessage} {sender : ℕ}
    {cbs : List Callback} (hb : s.log.commits ≤ s.log.log.length)
    (h : s.handleAppendEntries msg sender = .ok (s', cbs)) :
    Stays s s' ↔ ¬ TruncatesCommitted s msg := by
  rcases handleAppendEntries_log h with ⟨hrefused, rfl⟩ | ⟨hsafe, hcommits, hcase⟩
  · exact iff_of_true ⟨hb, le_rfl, rfl⟩ fun ht => hrefused ht.1
  -- a message that keeps a part of the log which includes what is committed
  have hkeeps : ∀ n more, s'.log.log = s.log.log.take n ++ more → s.log.commits ≤ n →
      n ≤ s.log.log.length → Stays s s' := by
    intro n more hlog hn hlen
    have htake : (s.log.log.take n).length = n := by
      rw [List.length_take]
      omega
    refine ⟨?_, by rw [hcommits]; exact le_max_left _ _, ?_⟩
    · have hlen' : n ≤ s'.log.log.length := by
        rw [hlog, List.length_append, htake]
        omega
      omega
    · rw [hlog, List.take_append_of_le_length (by omega), List.take_take,
        Nat.min_eq_left hn]
  rcases hcase with ⟨-, hm, hlog⟩ | ⟨hstale, e, rest, hm, hpos, hle, hlog⟩ | ⟨hend, hlog⟩
  · apply iff_of_true (hkeeps s.log.log.length [] (by simp [hlog]) hb le_rfl)
    rintro ⟨-, -, e, he, -⟩
    rw [hm] at he
    cases he
  · constructor
    · rintro ⟨-, -, hkept⟩ ⟨-, -, e', he', hcommitted⟩
      rw [hm, List.head?_cons, Option.mem_some_iff] at he'
      subst he'
      -- compare the two logs at the index of the truncation
      have hget : s'.log.log[e.index - 1]? = s.log.log[e.index - 1]? := by
        have hat := congrArg (fun l => l[e.index - 1]?) hkept
        simpa only [List.getElem?_take, if_pos (show e.index - 1 < s.log.commits by omega)]
          using hat
      have hnew : s'.log.log[e.index - 1]? = some { e with index := e.index } := by
        rw [hlog, List.getElem?_append_right (by rw [List.length_take]; omega),
          List.length_take, Nat.min_eq_left (by omega), Nat.sub_self, List.replicate_succ]
        rfl
      apply (missing_head hm).2
      rw [Present, termAt, if_neg (by omega), ← hget, hnew]
      rfl
    · intro hnot
      refine hkeeps (e.index - 1) _ hlog ?_ (by omega)
      by_contra hlt
      exact hnot ⟨hsafe, hstale, e, by rw [hm]; rfl, by omega⟩
  · apply iff_of_true (hkeeps s.log.log.length _ (by rw [hlog, List.take_length]) hb le_rfl)
    rintro ⟨-, hlt, -⟩
    omega

/-- INTERNAL: one call, of any handler. SOURCE: core/smr.cpp:211-268 -/
theorem stays_iff {s s' : SMR} {c : SMRCall} {cbs : List Callback}
    (hb : s.log.commits ≤ s.log.log.length) (h : SMR.call s c = .ok (s', cbs)) :
    Stays s s' ↔ KeepsCommitted s c := by
  cases c with
  | operation msg =>
    obtain ⟨idx, hop⟩ := call_operation_ok.mp h
    exact iff_of_true (operation_stays hb hop) trivial
  | append msg sender => exact append_stays_iff hb h
  | reply msg sender => exact iff_of_true (reply_stays hb h) trivial

/-- **What is committed stays, exactly as long as no message truncates it.**  For every
replica and every sequence of calls: every call that returns leaves the commit index within
the log and not lower than before, and the entries up to the earlier commit index as they
were, if and only if no call that returns truncates the log at or below the commit index.
SOURCE: core/smr.cpp:51-57, 86-96, 194-209, 226-250 -/
theorem committed_stays_iff (me : ℕ) (peers : List ℕ) (gid : ℕ) (calls : List SMRCall) :
    Machine.Throughout SMR.call (fun s _ s' _ => Stays s s') (SMR.new me peers gid) [] calls ↔
      Machine.Guarded SMR.call (Machine.WhenReturns SMR.call KeepsCommitted)
        (SMR.new me peers gid) calls := by
  refine Machine.throughout_iff_guarded SMR.call (B := fun _ _ => True)
    (J := fun s _ => s.log.commits ≤ s.log.log.length) ?_ ?_ le_rfl
    (Machine.guarded_of_forall SMR.call (fun _ _ _ => trivial) _)
  · intro s _ c s' cbs hb _ h
    exact stays_iff hb h
  · intro s _ c s' cbs _ _ _ hstays
    exact hstays.bounded

/-- A message of a later epoch replaces both committed entries by one of its own, and the
commit index is left beyond the end of the log. -/
theorem truncates_committed :
    let first : AppendEntriesMessage :=
      { prevTerm := 0, prevIndex := 0, commit := 2, entries := [⟨1, 1, [7]⟩, ⟨1, 2, [8]⟩] }
    let second : AppendEntriesMessage :=
      { prevTerm := 0, prevIndex := 0, commit := 0, entries := [⟨2, 1, [9]⟩] }
    let calls : List SMRCall := [.append first 0, .append second 2]
    ConsecutiveFrom (first.prevIndex + 1) first.entries ∧
      ConsecutiveFrom (second.prevIndex + 1) second.entries ∧
      (∃ s₁ cbs₁ s₂ cbs₂,
        SMR.call (SMR.new 1 [0, 1, 2] 0) (.append first 0) = .ok (s₁, cbs₁) ∧
        SMR.call s₁ (.append second 2) = .ok (s₂, cbs₂) ∧
        s₁.log.log = [⟨1, 1, [7]⟩, ⟨1, 2, [8]⟩] ∧ s₁.log.commits = 2 ∧
        s₂.log.log = [⟨2, 1, [9]⟩] ∧ s₂.log.commits = 2) ∧
      ¬ Machine.Throughout SMR.call (fun s _ s' _ => Stays s s') (SMR.new 1 [0, 1, 2] 0) []
        calls := by
  refine ⟨by decide, by decide, ⟨_, _, _, _, rfl, rfl, rfl, rfl, rfl, rfl⟩, ?_⟩
  intro h
  have hstays := ((h _ _ rfl).2 _ _ rfl).1
  exact absurd hstays.bounded (by decide)

/-! ## What is applied is what is committed -/

/-- The entries handed to the state machine so far are the committed ones. -/
def AppliedIsCommitted (s : SMR) (cbs : List Callback) : Prop :=
  appliedEntries cbs = s.log.log.take s.log.commits

instance (s : SMR) (cbs : List Callback) : Decidable (AppliedIsCommitted s cbs) :=
  inferInstanceAs (Decidable (_ = _))

/-- The call commits nothing through the commit field of a message: a message that is
accepted carries no commit index above the replica's, unless the log ends at the commit
index and the message has no entry to put behind it. -/
def NoPassiveCommit (s : SMR) : SMRCall → Prop
  | .operation _ => True
  | .append msg _ =>
    termAt s.log.log msg.prevIndex ≠ some msg.prevTerm ∨ msg.commit ≤ s.log.commits ∨
      (s.log.commits = s.log.log.length ∧
        (msg.prevIndex < s.log.log.length ∨ msg.entries = []))
  | .reply _ _ => True

/-- INTERNAL: two commit indices within two logs that agree up to the lower one cut off
equal parts exactly when they are equal. -/
theorem take_eq_take_iff {log log' : List Entry} {c c' : ℕ} (hc : c ≤ log.length)
    (hc' : c' ≤ log'.length) (hkept : log'.take c = log.take c) :
    log.take c = log'.take c' ↔ c' = c := by
  constructor
  · intro h
    have hlen := congrArg List.length h
    simp only [List.length_take] at hlen
    omega
  · rintro rfl
    exact hkept.symm

/-- INTERNAL: a commit index raised as far as the log goes has not moved exactly when the
given one, or the log, does not reach beyond it. -/
theorem max_min_eq_iff (c given len : ℕ) :
    max c (min given len) = c ↔ given ≤ c ∨ len ≤ c := by
  omega

/-- INTERNAL: **a message that keeps what is committed commits nothing exactly when
`NoPassiveCommit` holds.** SOURCE: core/smr.cpp:226-250 -/
theorem append_commits_iff {s s' : SMR} {msg : AppendEntriesMessage} {sender : ℕ}
    {cbs : List Callback} (hb : s.log.commits ≤ s.log.log.length)
    (hkeeps : ¬ TruncatesCommitted s msg)
    (h : s.handleAppendEntries msg sender = .ok (s', cbs)) :
    s'.log.commits = s.log.commits ↔ NoPassiveCommit s (.append msg sender) := by
  unfold NoPassiveCommit
  rcases handleAppendEntries_log h with ⟨hrefused, rfl⟩ | ⟨hsafe, hcommits, hcase⟩
  · exact iff_of_true rfl (.inl hrefused)
  have hsafe' : ¬ termAt s.log.log msg.prevIndex ≠ some msg.prevTerm := not_not.mpr hsafe
  rw [hcommits, max_min_eq_iff]
  simp only [hsafe', false_or]
  apply or_congr_right
  rcases hcase with ⟨hstale, -, hlog⟩ | ⟨hstale, e, rest, hm, hpos, hle, hlog⟩ | ⟨hend, hlog⟩
  · rw [hlog]
    constructor
    · exact fun hlen => ⟨by omega, .inl hstale⟩
    · exact fun hfull => hfull.1.ge
  · -- the log is longer than the commit index before and after the message
    have hgt : s.log.commits < e.index := by
      by_contra hcommitted
      exact hkeeps ⟨hsafe, hstale, e, by rw [hm]; rfl, by omega⟩
    have hlen : e.index ≤ s'.log.log.length := by
      rw [hlog, List.length_append, List.length_take, numberedFrom_length,
        List.length_replicate]
      omega
    exact iff_of_false (by omega) (by omega)
  · rw [hlog, List.length_append, numberedFrom_length]
    constructor
    · intro hlen
      exact ⟨by omega, .inr (List.eq_nil_of_length_eq_zero (by omega))⟩
    · rintro ⟨hfull, hlt | hnil⟩
      · omega
      · simp [hnil, hfull]

/-- INTERNAL: one call, of any handler. SOURCE: core/smr.cpp:211-268 -/
theorem applied_iff {s s' : SMR} {c : SMRCall} {done cbs : List Callback}
    (hb : s.log.commits ≤ s.log.log.length) (happlied : AppliedIsCommitted s done)
    (hkeeps : KeepsCommitted s c) (h : SMR.call s c = .ok (s', cbs)) :
    AppliedIsCommitted s' (done ++ cbs) ↔ NoPassiveCommit s c := by
  have hstays := (stays_iff hb h).mpr hkeeps
  unfold AppliedIsCommitted at happlied ⊢
  rw [appliedEntries_append, happlied]
  cases c with
  | operation msg =>
    obtain ⟨idx, hop⟩ := call_operation_ok.mp h
    obtain ⟨-, -, hcommits, -⟩ := handleOperation_ok hop
    rw [handleOperation_applied hop, List.append_nil,
      take_eq_take_iff hb hstays.bounded hstays.kept]
    exact iff_of_true hcommits trivial
  | append msg sender =>
    rw [handleAppendEntries_applied h, List.append_nil,
      take_eq_take_iff hb hstays.bounded hstays.kept]
    exact append_commits_iff hb hkeeps h
  | reply msg sender =>
    -- the entries handed on are those after the old commit index
    exact iff_of_true (handleReply_committed h) trivial

/-- **What is applied is what is committed, exactly as long as nothing is committed
passively.**  For every replica, in whatever role, and every sequence of calls in which no
message conflicts with a committed entry: after every call that returns, the entries handed
to the state machine so far are the log entries up to the commit index, in order and each
once, if and only if no call commits entries through the commit field of a message.
SOURCE: core/smr.cpp:76-96, 226-268 -/
theorem applied_iff_no_passive_commit (me : ℕ) (peers : List ℕ) (gid : ℕ)
    (calls : List SMRCall)
    (hkeeps : Machine.Guarded SMR.call (Machine.WhenReturns SMR.call KeepsCommitted)
      (SMR.new me peers gid) calls) :
    Machine.Throughout SMR.call (fun _ _ s' cbs => AppliedIsCommitted s' cbs)
        (SMR.new me peers gid) [] calls ↔
      Machine.Guarded SMR.call (Machine.WhenReturns SMR.call NoPassiveCommit)
        (SMR.new me peers gid) calls := by
  refine Machine.throughout_iff_guarded SMR.call
    (J := fun s cbs => s.log.commits ≤ s.log.log.length ∧ AppliedIsCommitted s cbs)
    ?_ ?_ ⟨le_rfl, rfl⟩ hkeeps
  · intro s done c s' cbs hJ hk h
    exact applied_iff hJ.1 hJ.2 (hk ⟨s', cbs, h⟩) h
  · intro s done c s' cbs hJ hk h happlied
    exact ⟨((stays_iff hJ.1 h).mpr (hk ⟨s', cbs, h⟩)).bounded, happlied⟩

/-- A leader that commits by votes applies exactly what it commits. -/
theorem applied_iff_two_operations :
    Machine.Throughout SMR.call (fun _ _ s' cbs => AppliedIsCommitted s' cbs)
      (SMR.new 0 [0, 1, 2] 0) []
      [.operation ⟨1, 5, [7]⟩, .operation ⟨1, 5, [8]⟩,
        .reply { success := true, index := 2 } 1, .reply { success := true, index := 1 } 2] :=
  (applied_iff_no_passive_commit 0 [0, 1, 2] 0 _
    (Machine.guarded_of_forall SMR.call
      (by simp [Machine.WhenReturns, KeepsCommitted]) _)).mpr
    (Machine.guarded_of_forall SMR.call
      (by simp [Machine.WhenReturns, NoPassiveCommit]) _)

/-- A follower that learns from the second message that the first entry is committed moves
its commit index there, and hands no entry on. -/
theorem passive_commit_not_applied :
    let first : AppendEntriesMessage :=
      { prevTerm := 0, prevIndex := 0, commit := 0, entries := [⟨1, 1, [7]⟩] }
    let second : AppendEntriesMessage :=
      { prevTerm := 1, prevIndex := 1, commit := 1, entries := [⟨1, 2, [8]⟩] }
    let calls : List SMRCall := [.append first 0, .append second 0]
    Machine.Guarded SMR.call (Machine.WhenReturns SMR.call KeepsCommitted)
        (SMR.new 1 [0, 1, 2] 0) calls ∧
      (∃ s₂ cbs, Machine.run SMR.call (SMR.new 1 [0, 1, 2] 0) calls = .ok (s₂, cbs) ∧
        s₂.log.log.take s₂.log.commits = [⟨1, 1, [7]⟩] ∧ appliedEntries cbs = []) ∧
      ¬ Machine.Throughout SMR.call (fun _ _ s' cbs => AppliedIsCommitted s' cbs)
        (SMR.new 1 [0, 1, 2] 0) [] calls := by
  refine ⟨⟨?_, ?_⟩, ⟨_, _, rfl, rfl, rfl⟩, ?_⟩
  · rintro - ⟨-, hlt, -⟩
    exact absurd hlt (by decide)
  · intro s₁ cbs₁ h₁
    cases h₁
    refine ⟨?_, fun _ _ _ => trivial⟩
    rintro - ⟨-, hlt, -⟩
    exact absurd hlt (by decide)
  · intro h
    have happlied := ((h _ _ rfl).2 _ _ rfl).1
    exact absurd happlied (by decide)

end MorphlingC.Analysis
