import MorphlingC.Analysis.AppendMerge
import MorphlingC.Interface.LogMatching

/-!
# What a follower acknowledges and commits, and what it has compared

A follower compares its log with a message only from the message's `prev_index` on and only
as far as the message goes.  Its reply carries its last index, and its passive commit goes
up to its last index; either may lie behind what was compared.  Where entries were missing,
the comparison is followed by the repetition of one entry (`MorphlingC.Analysis.AppendMerge`).

For a sender's log and a follower's log that match, and a message cut from the sender's log:

* **an acknowledged index is held** exactly in the cases of `AckVerified`
  (`acknowledged_is_held_iff`);
* **a passively committed entry is the sender's** exactly in those of `CommitVerified`
  (`passive_commit_verified_iff`).
-/

set_option autoImplicit false

namespace MorphlingC.Analysis

open MorphlingC.Library MorphlingC.Model MorphlingC.Interface MorphlingC.Model.SMR

/-! ## The log after an accepted message -/

/-- INTERNAL: an accepted message continues from an index up to which the logs are the same.
SOURCE: core/smr.cpp:174-192 -/
theorem same_before_message {F S : List Entry} {msg : AppendEntriesMessage}
    (hmatch : LogMatching F S) (hcut : CutFrom S msg)
    (hsafe : termAt F msg.prevIndex = some msg.prevTerm) :
    F.take msg.prevIndex = S.take msg.prevIndex :=
  hmatch _ (le_of_termAt hsafe) (hsafe.trans hcut.1.symm)

/-- INTERNAL: a log that has, behind a part of the sender's log, one of the sender's next
entries over and over: where it agrees with the sender's log.
SOURCE: core/smr.cpp:200-206 -/
theorem repeated_sameAt {S : SMRLog} {F' : List Entry} {e : Entry} {rest : List Entry}
    (hpos : 1 ≤ e.index) (hcut : e :: rest <+: S.log.drop (e.index - 1))
    (hlog : F' = S.log.take (e.index - 1) ++
      numberedFrom e.index (List.replicate (rest.length + 1) e)) :
    (∀ x ∈ e :: rest, e.index ≤ x.index ∧ x.index ≤ F'.length ∧
      (SameAt F' S.log x.index ↔ x.epoch = e.epoch ∧ x.data = e.data)) ∧
    ∀ j, 1 ≤ j → j ≤ F'.length → SameAt F' S.log j ∨ ∃ x ∈ e :: rest, x.index = j := by
  have hS : e.index - 1 + (rest.length + 1) ≤ S.log.length := by
    have hle := hcut.length_le
    rw [List.length_cons, List.length_drop] at hle
    omega
  have hlen : F'.length = e.index - 1 + (rest.length + 1) := by
    rw [hlog, List.length_append, List.length_take, numberedFrom_length,
      List.length_replicate]
    omega
  have htake : (S.log.take (e.index - 1)).length = e.index - 1 := by
    rw [List.length_take]
    omega
  -- the entry of the message at a position, in both logs
  have hat : ∀ m (hm : m < (e :: rest).length),
      (e :: rest)[m].index = e.index + m ∧ S.log[e.index - 1 + m]? = some (e :: rest)[m] ∧
        F'[e.index - 1 + m]? = some { e with index := e.index + m } := by
    intro m hm
    have hSm : S.log[e.index - 1 + m]? = some (e :: rest)[m] := by
      rw [← List.getElem?_drop]
      exact List.prefix_iff_getElem?.mp hcut m hm
    refine ⟨?_, hSm, ?_⟩
    · obtain ⟨hlt, heq⟩ := List.getElem?_eq_some_iff.mp hSm
      rw [← heq, S.indexed]
      omega
    · rw [hlog, List.getElem?_append_right (by omega), htake, Nat.add_sub_cancel_left,
        numberedFrom_getElem?, List.getElem?_replicate, if_pos (by simpa using hm)]
      rfl
  constructor
  · intro x hx
    obtain ⟨m, hm, rfl⟩ := List.mem_iff_getElem.mp hx
    obtain ⟨hidx, hSm, hFm⟩ := hat m hm
    rw [List.length_cons] at hm
    refine ⟨by omega, by omega, ?_⟩
    have hsub : (e :: rest)[m].index - 1 = e.index - 1 + m := by omega
    unfold SameAt
    rw [hsub, hSm, hFm]
    constructor
    · rintro ⟨y, hF, hy⟩
      rw [Option.some.injEq] at hF hy
      rw [hy, ← hF]
      exact ⟨rfl, rfl⟩
    · rintro ⟨hepoch, hdata⟩
      refine ⟨_, ?_, rfl⟩
      rw [Option.some.injEq, ← hidx, ← hepoch, ← hdata]
  · intro j hj hle
    rcases Nat.lt_or_ge j e.index with hlt | hge
    · left
      apply sameAt_of_take_eq (i := e.index - 1) _ hj (by omega) hle
      rw [hlog, List.take_left' htake]
    · right
      have hm : j - e.index < (e :: rest).length := by
        rw [List.length_cons]
        omega
      refine ⟨(e :: rest)[j - e.index], List.getElem_mem hm, ?_⟩
      rw [(hat _ hm).1]
      omega

/-- INTERNAL: **the log after an accepted message**, for logs that match and a message cut
from the sender's: a part of the sender's log if the message starts at the end; the old log
if nothing is missing; else a part of the sender's log and the first missing entry over and
over. SOURCE: core/smr.cpp:194-209, 226-250 -/
theorem accepted_log {F F' : SMR} {S : SMRLog} {msg : AppendEntriesMessage} {sender : ℕ}
    {cbs : List Callback} (hmatch : LogMatching F.log.log S.log) (hcut : CutFrom S.log msg)
    (hsafe : termAt F.log.log msg.prevIndex = some msg.prevTerm)
    (h : F.handleAppendEntries msg sender = .ok (F', cbs)) :
    (msg.prevIndex = F.log.log.length ∧ F'.log.log <+: S.log) ∨
    (msg.prevIndex ≠ F.log.log.length ∧ missing F.log.log msg.entries = [] ∧
      F'.log.log = F.log.log) ∨
    (msg.prevIndex ≠ F.log.log.length ∧ ∃ e rest, missing F.log.log msg.entries = e :: rest ∧
      1 ≤ e.index ∧ e :: rest <+: S.log.drop (e.index - 1) ∧
      F'.log.log = S.log.take (e.index - 1) ++
        numberedFrom e.index (List.replicate (rest.length + 1) e)) := by
  have hsame := same_before_message hmatch hcut hsafe
  rcases handleAppendEntries_log h with ⟨hrefused, -⟩ | ⟨-, -, hcase⟩
  · exact absurd hsafe hrefused
  rcases hcase with ⟨hstale, hm, hlog⟩ | ⟨hstale, e, rest, hm, hpos, -, hlog⟩ | ⟨hend, hlog⟩
  · exact .inr (.inl ⟨by omega, hm, hlog⟩)
  · obtain ⟨-, htake, hfollow⟩ := hmatch.missing (le_of_termAt hsafe) hsame hcut.2 hm
    rw [htake] at hlog
    exact .inr (.inr ⟨by omega, e, rest, hm, hpos, hfollow, hlog⟩)
  · have hcons := consecutive_of_isPrefix S hcut.2
    rw [hend] at hcons
    rw [hend, List.take_length] at hsame
    refine .inl ⟨hend, ?_⟩
    rw [hlog, hcons.numberedFrom_eq, hsame]
    obtain ⟨more, hmore⟩ := hcut.2
    refine ⟨more, ?_⟩
    rw [List.append_assoc, hmore, hend, List.take_append_drop]

/-- INTERNAL: **where the follower has the sender's entries** after an accepted message, over
the indices behind `a` and up to `b`. SOURCE: core/smr.cpp:194-209, 226-250 -/
theorem range_same_iff {F F' : SMR} {S : SMRLog} {msg : AppendEntriesMessage} {sender : ℕ}
    {cbs : List Callback} (hmatch : LogMatching F.log.log S.log) (hcut : CutFrom S.log msg)
    (hsafe : termAt F.log.log msg.prevIndex = some msg.prevTerm)
    (h : F.handleAppendEntries msg sender = .ok (F', cbs)) {a b : ℕ}
    (hb : b ≤ F'.log.log.length) :
    (∀ j, a < j → j ≤ b → SameAt F'.log.log S.log j) ↔
      msg.prevIndex = F.log.log.length ∨
      (missing F.log.log msg.entries = [] ∧
        (b ≤ a ∨ termAt F.log.log b = termAt S.log b)) ∨
      (∃ e rest, missing F.log.log msg.entries = e :: rest ∧
        ∀ x ∈ e :: rest, a < x.index → x.index ≤ b →
          x.epoch = e.epoch ∧ x.data = e.data) := by
  rcases accepted_log hmatch hcut hsafe h with
    ⟨hend, hfix⟩ | ⟨hend, hm, hlog⟩ | ⟨hend, e, rest, hm, hpos, hfollow, hlog⟩
  · refine iff_of_true ?_ (.inl hend)
    intro j hj hle
    have htake := List.prefix_iff_eq_take.mp hfix
    apply sameAt_of_take_eq (i := F'.log.log.length) _ (by omega) (by omega) (by omega)
    rw [List.take_length]
    exact htake
  · simp only [hend, hm, true_and, false_or, reduceCtorEq, false_and, exists_false, or_false]
    rw [hlog] at hb ⊢
    constructor
    · intro hall
      rcases Nat.lt_or_ge a b with hlt | hge
      · exact .inr (hall b hlt le_rfl).termAt_eq
      · exact .inl hge
    · rintro (hempty | hterm)
      · intro j hj hle
        omega
      · intro j hj hle
        exact sameAt_of_take_eq (hmatch b hb hterm) (by omega) hle (by omega)
  · simp only [hend, hm, false_or, reduceCtorEq, false_and, List.cons.injEq]
    obtain ⟨hentries, hcover⟩ := repeated_sameAt hpos hfollow hlog
    constructor
    · intro hall
      refine ⟨e, rest, ⟨rfl, rfl⟩, ?_⟩
      intro x hx hgt hle
      exact (hentries x hx).2.2.mp (hall x.index hgt hle)
    · rintro ⟨e', rest', ⟨rfl, rfl⟩, hrepeat⟩
      intro j hj hle
      rcases hcover j (by omega) (by omega) with hsame | ⟨x, hx, rfl⟩
      · exact hsame
      · exact (hentries x hx).2.2.mpr (hrepeat x hx hj hle)

/-! ## Acknowledged entries -/

/-- The follower has the sender's entry at every index up to the one that it acknowledges. -/
def AckIsHeld (F' : SMR) (S : SMRLog) (cbs : List Callback) : Prop :=
  ∀ reply dst, .notifySendAppendEntryReply reply dst ∈ cbs → reply.success = true →
    reply.index ≤ S.lastIndex ∧
      ∀ j, 1 ≤ j → j ≤ reply.index → SameAt F'.log.log S.log j

/-- The message is refused; or it starts at the end of the log; or the log misses nothing of
it and ends with an epoch that the sender has there; or what the log misses repeats one
entry. -/
def AckVerified (F S : List Entry) (msg : AppendEntriesMessage) : Prop :=
  termAt F msg.prevIndex ≠ some msg.prevTerm ∨ msg.prevIndex = F.length ∨
    (missing F msg.entries = [] ∧ termAt F F.length = termAt S F.length) ∨
    (missing F msg.entries ≠ [] ∧ TailRepeats F msg.entries)

instance (F S : List Entry) (msg : AppendEntriesMessage) : Decidable (AckVerified F S msg) :=
  inferInstanceAs (Decidable (_ ∨ _ ∨ _ ∨ _))

/-- **An acknowledged index is held exactly in the cases of `AckVerified`.**  For every
sender's log and follower's log that match, and every message cut from the sender's log that
is handled: a successful reply carries an index of the sender's log up to which the
follower's log is the sender's, if and only if `AckVerified` holds.
SOURCE: core/smr.cpp:174-209, 226-250 -/
theorem acknowledged_is_held_iff (F : SMR) {F' : SMR} (S : SMRLog)
    (msg : AppendEntriesMessage) (sender : ℕ) {cbs : List Callback}
    (hmatch : LogMatching F.log.log S.log)
    (hcut : CutFrom S.log msg) (h : F.handleAppendEntries msg sender = .ok (F', cbs)) :
    AckIsHeld F' S cbs ↔ AckVerified F.log.log S.log msg := by
  by_cases hsafe : termAt F.log.log msg.prevIndex = some msg.prevTerm
  · have hheld : AckIsHeld F' S cbs ↔
        ∀ j, 0 < j → j ≤ F'.log.log.length → SameAt F'.log.log S.log j := by
      rcases handleAppendEntries_ok.mp h with ⟨hrefused, -, -⟩ | ⟨-, log, -, -, rfl⟩
      · exact absurd hsafe hrefused
      · constructor
        · intro hheld j hj hle
          exact (hheld _ _ (List.mem_singleton.mpr rfl) rfl).2 j hj hle
        · intro hall reply dst hmem _
          cases List.mem_singleton.mp hmem
          refine ⟨?_, fun j hj hle => hall j hj hle⟩
          -- the last index is the sender's because its entry is
          rw [SMRLog.lastIndex_eq]
          rcases Nat.eq_zero_or_pos F'.log.log.length with h0 | hpos
          · exact h0.le.trans (Nat.zero_le _)
          · obtain ⟨e, -, hS⟩ := hall F'.log.log.length hpos le_rfl
            have := (List.getElem?_eq_some_iff.mp hS).1
            show F'.log.log.length ≤ _
            omega
    rw [hheld, range_same_iff hmatch hcut hsafe h le_rfl]
    unfold AckVerified TailRepeats
    simp only [hsafe, ne_eq, not_true_eq_false, false_or]
    rcases accepted_log hmatch hcut hsafe h with
      ⟨hend, -⟩ | ⟨-, hm, hlog⟩ | ⟨-, e, rest, hm, hpos, hfollow, hlog⟩
    · exact iff_of_true (.inl hend) (.inl hend)
    · apply or_congr_right
      simp only [hm, hlog, true_and, reduceCtorEq, false_and, exists_false, or_false,
        not_true_eq_false]
      constructor
      · rintro (hempty | hterm)
        · rw [Nat.le_zero.mp hempty]
          rfl
        · exact hterm
      · exact .inr
    · apply or_congr_right
      obtain ⟨hentries, -⟩ := repeated_sameAt hpos hfollow hlog
      simp only [hm, reduceCtorEq, false_and, false_or, not_false_eq_true, true_and,
        List.cons.injEq, List.head?_cons, Option.mem_some_iff, forall_eq']
      constructor
      · rintro ⟨e', rest', ⟨rfl, rfl⟩, hrepeat⟩ x hx
        obtain ⟨hge, hle, -⟩ := hentries x hx
        exact hrepeat x hx (by omega) hle
      · intro hrepeat
        exact ⟨e, rest, ⟨rfl, rfl⟩, fun x hx _ _ => hrepeat x hx⟩
  · refine iff_of_true ?_ (.inl hsafe)
    rcases handleAppendEntries_ok.mp h with ⟨-, -, rfl⟩ | ⟨hsafe', -⟩
    · intro reply dst hmem hsuccess
      cases List.mem_singleton.mp hmem
      cases hsuccess
    · exact absurd hsafe' hsafe

/-- A follower that is one entry behind gets that entry. -/
theorem acknowledged_is_held_behind :
    let F := followerWith [⟨1, 1, [7]⟩]
    let S := (followerWith [⟨1, 1, [7]⟩, ⟨1, 2, [8]⟩]).log
    let msg : AppendEntriesMessage :=
      { prevTerm := 1, prevIndex := 1, commit := 0, entries := [⟨1, 2, [8]⟩] }
    ∃ F' cbs, F.handleAppendEntries msg 0 = .ok (F', cbs) ∧ AckIsHeld F' S cbs :=
  ⟨_, _, rfl, (acknowledged_is_held_iff (followerWith [⟨1, 1, [7]⟩])
    (followerWith [⟨1, 1, [7]⟩, ⟨1, 2, [8]⟩]).log
    { prevTerm := 1, prevIndex := 1, commit := 0, entries := [⟨1, 2, [8]⟩] }
    0 (by decide) (by decide) rfl).mpr (by decide)⟩

/-- A follower with one entry more than the sender gets the sender's entry, which it has,
and acknowledges its own last index, which the sender does not have. -/
theorem acknowledges_beyond_sender :
    let F := followerWith [⟨1, 1, [7]⟩, ⟨1, 2, [8]⟩]
    let S := (followerWith [⟨1, 1, [7]⟩]).log
    let msg : AppendEntriesMessage :=
      { prevTerm := 0, prevIndex := 0, commit := 0, entries := [⟨1, 1, [7]⟩] }
    LogMatching F.log.log S.log ∧ CutFrom S.log msg ∧
      ∃ F' cbs, F.handleAppendEntries msg 0 = .ok (F', cbs) ∧
        cbs = [.notifySendAppendEntryReply { success := true, index := 2 } 0] ∧
        S.lastIndex = 1 ∧ ¬ AckIsHeld F' S cbs := by
  refine ⟨by decide, by decide, _, _, rfl, rfl, rfl, ?_⟩
  intro hheld
  exact absurd (hheld _ _ (List.mem_singleton.mpr rfl) rfl).1 (by decide)

/-! ## Passively committed entries -/

/-- The follower has the sender's entry at every index that the call commits. -/
def CommitsSame (F F' : SMR) (S : SMRLog) : Prop :=
  ∀ j, F.log.currCommit < j → j ≤ F'.log.currCommit → SameAt F'.log.log S.log j

/-- The message is refused; or it starts at the end of the log; or the log misses nothing of
it, and either nothing is committed or the log has the sender's epoch at the new commit
index; or the missing entries that are committed are the first missing one over and over. -/
def CommitVerified (F : SMRLog) (S : List Entry) (msg : AppendEntriesMessage) : Prop :=
  termAt F.log msg.prevIndex ≠ some msg.prevTerm ∨ msg.prevIndex = F.log.length ∨
    (missing F.log msg.entries = [] ∧
      (min msg.commit F.log.length ≤ F.commits ∨
        termAt F.log (min msg.commit F.log.length) =
          termAt S (min msg.commit F.log.length))) ∨
    (missing F.log msg.entries ≠ [] ∧ ∀ e ∈ (missing F.log msg.entries).head?,
      ∀ x ∈ missing F.log msg.entries, F.commits < x.index → x.index ≤ msg.commit →
        x.epoch = e.epoch ∧ x.data = e.data)

instance (F : SMRLog) (S : List Entry) (msg : AppendEntriesMessage) :
    Decidable (CommitVerified F S msg) :=
  inferInstanceAs (Decidable (_ ∨ _ ∨ (_ ∧ (_ ∨ _)) ∨ (_ ∧ ∀ e ∈ _, ∀ x ∈ _, _ → _ → _ ∧ _)))

/-- **A passively committed entry is the sender's exactly in the cases of
`CommitVerified`.**  For every sender's log and follower's log that match, and every message
cut from the sender's log that is handled, whatever its commit index: at every index that the
call commits the follower has the sender's entry, if and only if `CommitVerified` holds.
SOURCE: core/smr.cpp:86-108, 194-209, 226-250 -/
theorem passive_commit_verified_iff (F : SMR) {F' : SMR} (S : SMRLog)
    (msg : AppendEntriesMessage) (sender : ℕ) {cbs : List Callback}
    (hmatch : LogMatching F.log.log S.log)
    (hcut : CutFrom S.log msg) (h : F.handleAppendEntries msg sender = .ok (F', cbs)) :
    CommitsSame F F' S ↔ CommitVerified F.log S.log msg := by
  unfold CommitsSame SMRLog.currCommit
  rcases handleAppendEntries_log h with ⟨hrefused, rfl⟩ | ⟨hsafe, hcommits, -⟩
  · refine iff_of_true ?_ (.inl hrefused)
    intro j hj hle
    omega
  -- what is committed is what lies behind the old commit index and up to the message's
  have hrange : (∀ j, F.log.commits < j → j ≤ F'.log.commits → SameAt F'.log.log S.log j) ↔
      ∀ j, F.log.commits < j → j ≤ min msg.commit F'.log.log.length →
        SameAt F'.log.log S.log j := by
    rw [hcommits]
    constructor
    · intro hall j hj hle
      exact hall j hj (hle.trans (le_max_right _ _))
    · intro hall j hj hle
      exact hall j hj (by omega)
  rw [hrange, range_same_iff hmatch hcut hsafe h (min_le_right _ _)]
  unfold CommitVerified
  simp only [hsafe, ne_eq, not_true_eq_false, false_or]
  rcases accepted_log hmatch hcut hsafe h with
    ⟨hend, -⟩ | ⟨-, hm, hlog⟩ | ⟨-, e, rest, hm, hpos, hfollow, hlog⟩
  · exact iff_of_true (.inl hend) (.inl hend)
  · apply or_congr_right
    simp only [hm, hlog, true_and, reduceCtorEq, false_and, exists_false, or_false,
      not_true_eq_false]
  · apply or_congr_right
    obtain ⟨hentries, -⟩ := repeated_sameAt hpos hfollow hlog
    simp only [hm, reduceCtorEq, false_and, false_or, not_false_eq_true, true_and,
      List.cons.injEq, List.head?_cons, Option.mem_some_iff, forall_eq']
    constructor
    · rintro ⟨e', rest', ⟨rfl, rfl⟩, hrepeat⟩ x hx hgt hle
      exact hrepeat x hx hgt (le_min hle (hentries x hx).2.1)
    · intro hrepeat
      exact ⟨e, rest, ⟨rfl, rfl⟩, fun x hx hgt hle =>
        hrepeat x hx hgt (hle.trans (min_le_left _ _))⟩

/-- A follower that is one entry behind gets that entry and the commit index before it. -/
theorem passive_commit_verified_behind :
    let F := followerWith [⟨1, 1, [7]⟩]
    let S := (followerWith [⟨1, 1, [7]⟩, ⟨1, 2, [8]⟩]).log
    let msg : AppendEntriesMessage :=
      { prevTerm := 1, prevIndex := 1, commit := 1, entries := [⟨1, 2, [8]⟩] }
    ∃ F' cbs, F.handleAppendEntries msg 0 = .ok (F', cbs) ∧ CommitsSame F F' S :=
  ⟨_, _, rfl, (passive_commit_verified_iff (followerWith [⟨1, 1, [7]⟩])
    (followerWith [⟨1, 1, [7]⟩, ⟨1, 2, [8]⟩]).log
    { prevTerm := 1, prevIndex := 1, commit := 1, entries := [⟨1, 2, [8]⟩] }
    0 (by decide) (by decide) rfl).mpr (by decide)⟩

/-- The logs part at the second index, and the message brings the first entry only.  The
follower has that, and commits its own second entry with the sender's commit index. -/
theorem commits_unverified_entry :
    let F := followerWith [⟨1, 1, [7]⟩, ⟨2, 2, [8]⟩]
    let S := { (followerWith [⟨1, 1, [7]⟩, ⟨3, 2, [9]⟩]).log with commits := 2 }
    let msg : AppendEntriesMessage :=
      { prevTerm := 0, prevIndex := 0, commit := 2, entries := [⟨1, 1, [7]⟩] }
    LogMatching F.log.log S.log ∧ CutFrom S.log msg ∧ msg.commit ≤ S.currCommit ∧
      ∃ F' cbs, F.handleAppendEntries msg 0 = .ok (F', cbs) ∧
        F'.log.log = [⟨1, 1, [7]⟩, ⟨2, 2, [8]⟩] ∧ F'.log.currCommit = 2 ∧
        ¬ CommitsSame F F' S := by
  refine ⟨by decide, by decide, by decide, _, _, rfl, rfl, rfl, ?_⟩
  intro hsame
  obtain ⟨e, hF, hS⟩ := hsame 2 (by decide) (by decide)
  rw [Option.some.inj hF.symm] at hS
  exact absurd hS (by decide)

end MorphlingC.Analysis
