import MorphlingC.Interface.AppendSpec

/-!
# Two logs of one group

What a sender's log and a follower's log have to do with each other, and what a message is
that the sender has cut out of its log.  Two logs match when an index at which they have the
same epoch is an index up to which they are the same; this is what makes the comparison of
epochs, which is all that a follower does, say something about the data.

Nothing here is translated from the source.
-/

set_option autoImplicit false

namespace MorphlingC.Interface

open MorphlingC.Model

/-- The logs are the same up to every index of `F` at which they have the same epoch. -/
def LogMatching (F S : List Entry) : Prop :=
  ∀ i ≤ F.length, termAt F i = termAt S i → F.take i = S.take i

instance (F S : List Entry) : Decidable (LogMatching F S) :=
  inferInstanceAs (Decidable (∀ i ≤ _, _ → _))

/-- The message continues from an index of the log, under the epoch there, and its entries
are the ones that follow in the log. -/
def CutFrom (S : List Entry) (msg : AppendEntriesMessage) : Prop :=
  termAt S msg.prevIndex = some msg.prevTerm ∧ msg.entries <+: S.drop msg.prevIndex

instance (S : List Entry) (msg : AppendEntriesMessage) : Decidable (CutFrom S msg) :=
  inferInstanceAs (Decidable (_ ∧ _))

/-- Both logs have an entry at the index, and it is the same one. -/
def SameAt (F S : List Entry) (i : ℕ) : Prop := ∃ e, F[i - 1]? = some e ∧ S[i - 1]? = some e

/-- Where two logs have the same entry they have the same epoch. -/
theorem SameAt.termAt_eq {F S : List Entry} {i : ℕ} (h : SameAt F S i) :
    termAt F i = termAt S i := by
  obtain ⟨e, hF, hS⟩ := h
  unfold termAt
  rw [hF, hS]

/-- Logs that are the same up to an index have the same entry at each index up to it. -/
theorem sameAt_of_take_eq {F S : List Entry} {i j : ℕ} (h : F.take i = S.take i)
    (hj : 1 ≤ j) (hji : j ≤ i) (hF : j ≤ F.length) : SameAt F S j := by
  have hlt : j - 1 < F.length := by omega
  have hat := congrArg (fun l => l[j - 1]?) h
  simp only [List.getElem?_take, if_pos (show j - 1 < i by omega)] at hat
  exact ⟨F[j - 1], List.getElem?_eq_getElem hlt, by rw [← hat, List.getElem?_eq_getElem hlt]⟩

/-- The entries that follow in a log are numbered on. -/
theorem consecutive_of_isPrefix (S : SMRLog) {p : ℕ} {entries : List Entry}
    (h : entries <+: S.log.drop p) : ConsecutiveFrom (p + 1) entries := by
  induction entries generalizing p with
  | nil => trivial
  | cons e rest ih =>
    obtain ⟨more, hmore⟩ := h
    have hp : p < S.log.length := by
      by_contra hge
      rw [List.drop_eq_nil_of_le (by omega)] at hmore
      cases hmore
    rw [List.drop_eq_getElem_cons hp, List.cons_append] at hmore
    obtain ⟨rfl, hrest⟩ := List.cons.inj hmore
    exact ⟨S.indexed p hp, ih ⟨more, hrest⟩⟩

/-- **Where a follower stops agreeing with a message.**  If the logs match and are the same
up to the index that the message continues from, they are the same up to the first entry of
the message that the follower misses, and the missing entries are the sender's from there
on. -/
theorem LogMatching.missing {F : List Entry} {S : SMRLog} (hmatch : LogMatching F S.log)
    {p : ℕ} {entries : List Entry} (hp : p ≤ F.length) (hsame : F.take p = S.log.take p)
    (hcut : entries <+: S.log.drop p) {e : Entry} {rest : List Entry}
    (hm : missing F entries = e :: rest) :
    p + 1 ≤ e.index ∧ F.take (e.index - 1) = S.log.take (e.index - 1) ∧
      e :: rest <+: S.log.drop (e.index - 1) := by
  induction entries generalizing p with
  | nil => cases hm
  | cons x xs ih =>
    have hx : x.index = p + 1 := (consecutive_of_isPrefix S hcut).1
    by_cases hpresent : Present F x
    · rw [missing_cons_of_present xs hpresent] at hm
      obtain ⟨more, hmore⟩ := hcut
      have hlt : p < S.log.length := by
        by_contra hge
        rw [List.drop_eq_nil_of_le (by omega)] at hmore
        cases hmore
      rw [List.drop_eq_getElem_cons hlt, List.cons_append] at hmore
      obtain ⟨rfl, hrest⟩ := List.cons.inj hmore
      unfold Present at hpresent
      rw [hx] at hpresent
      have hF := le_of_termAt hpresent
      -- the follower has the sender's epoch here, so the logs are the same up to here
      have hS : termAt S.log (p + 1) = some S.log[p].epoch := termAt_of_lt (by omega) hlt
      obtain ⟨hle, htake, hfollow⟩ :=
        ih hF (hmatch (p + 1) hF (hpresent.trans hS.symm)) ⟨more, hrest⟩ hm
      exact ⟨by omega, htake, hfollow⟩
    · rw [missing_cons_of_absent xs hpresent] at hm
      obtain ⟨rfl, rfl⟩ := List.cons.inj hm
      rw [hx, Nat.add_sub_cancel]
      exact ⟨le_rfl, hsame, hcut⟩

end MorphlingC.Interface
