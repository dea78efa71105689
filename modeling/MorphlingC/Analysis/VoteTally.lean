import MorphlingC.Library.Machine
import MorphlingC.Library.Tally
import MorphlingC.Model.Vote

/-!
# The vote record keeps a tally

`EntryVoteRecord` stops recording votes for an index once it is complete, and compares the
number of flags with the quorum for equality.  Against the set of all votes ever cast it
nevertheless answers correctly: an index is complete exactly when a quorum has voted for
it, and a vote is answered true exactly when it is the one that makes it so
(`vote_tallies`).  So an index without votes can be completed by the votes of its peers
(`fresh_canGather`).
-/

set_option autoImplicit false

namespace MorphlingC.Analysis

open MorphlingC.Library MorphlingC.Model MorphlingC.Model.EntryVoteRecord

/-- At one index the record agrees with the votes cast: the index is complete when a quorum
has voted for it, and until then its flags are its voters. -/
structure TalliesAt (r : EntryVoteRecord) (V : Finset (ℕ × ℕ)) (i : ℕ) : Prop where
  complete : r.entryComplete i = true ↔ Reached r.quorum V i
  flags : r.entryComplete i = false → ∀ p, p ∈ voters V i ↔ r.Voted p i

/-- At every index the record agrees with the votes cast. -/
def Tallies (r : EntryVoteRecord) (V : Finset (ℕ × ℕ)) : Prop := ∀ i, TalliesAt r V i

/-- INTERNAL: a record without votes. SOURCE: core/smr.cpp:110-113 -/
theorem init_tallies (num : ℕ) : Tallies (init num) ∅ := by
  intro i
  constructor
  · simp [init, Reached, voters]
  · intro _ p
    simpa using init_not_voted num p i

/-- INTERNAL: a vote does not change the quorum. SOURCE: core/smr.cpp:115-141 -/
theorem vote_quorum {r r' : EntryVoteRecord} {p i : ℕ} {b : Bool}
    (h : r.vote p i = .ok (r', b)) : r'.quorum = r.quorum := by
  rw [r'.majority, r.majority, vote_peerNum h]

/-- INTERNAL: a vote does not change the record of another index.
SOURCE: core/smr.cpp:115-141 -/
theorem vote_other {r r' : EntryVoteRecord} {p i j : ℕ} {b : Bool}
    (h : r.vote p i = .ok (r', b)) (hj : j ≠ i) :
    r'.entryComplete j = r.entryComplete j ∧ ∀ x, r'.Voted x j ↔ r.Voted x j := by
  rcases vote_cases h with ⟨-, rfl, -⟩ | ⟨-, hp, hrec, hnum, -, hcomp⟩
  · exact ⟨rfl, fun _ => Iff.rfl⟩
  · constructor
    · rw [hcomp]
      cases b with
      | true => simp [hj]
      | false => simp
    · intro x
      unfold Voted
      rw [record_of_records_eq (r := r.raise p i) hrec hnum, raise_record, if_neg hj]

/-- INTERNAL: **one vote, against the votes for its index.**  It is answered true exactly
when a quorum has voted for the index with it and had not before.
SOURCE: core/smr.cpp:115-141 -/
theorem vote_talliesAt {r r' : EntryVoteRecord} {V : Finset (ℕ × ℕ)} {p i : ℕ} {b : Bool}
    (ht : TalliesAt r V i) (h : r.vote p i = .ok (r', b)) :
    TalliesAt r' (insert (p, i) V) i ∧
      (b = true ↔ ¬ Reached r.quorum V i ∧ Reached r.quorum (insert (p, i) V) i) := by
  have hquorum := vote_quorum h
  rcases vote_cases h with ⟨hc, rfl, rfl⟩ | ⟨hc, hp, hrec, hnum, hb, hcomp⟩
  · -- the index is complete and the vote is dropped
    have hreached : Reached r'.quorum V i := ht.complete.mp hc
    refine ⟨⟨iff_of_true hc (hreached.mono (Finset.subset_insert _ _)), ?_⟩,
      by simp [hreached]⟩
    intro hopen
    rw [hc] at hopen
    cases hopen
  · have hnot : ¬ Reached r.quorum V i := by
      intro hreached
      rw [ht.complete.mpr hreached] at hc
      cases hc
    -- the flags are the voters, this one included
    have hflags : ∀ x, x ∈ voters (insert (p, i) V) i ↔ (r.raise p i).Voted x i := by
      intro x
      rw [raise_voted hp, ← ht.flags hc x, voters_insert_self, Finset.mem_insert]
      tauto
    have hanswer : b = true ↔ Reached r.quorum (insert (p, i) V) i := by
      rw [reached_insert_iff hnot, ← voters_insert_self, hb, decide_eq_true_iff]
      unfold agreeCount
      rw [count_eq_card_of_mem hflags]
    refine ⟨⟨?_, ?_⟩, by rw [hanswer]; simp [hnot]⟩
    · rw [hquorum, hcomp, ← hanswer]
      cases b with
      | true => simp
      | false => simp [hc]
    · intro _ x
      rw [hflags]
      unfold Voted
      rw [record_of_records_eq (r := r.raise p i) hrec hnum]

/-- INTERNAL: a vote keeps the agreement at other indices. SOURCE: core/smr.cpp:115-141 -/
theorem vote_talliesAt_of_ne {r r' : EntryVoteRecord} {V : Finset (ℕ × ℕ)} {p i j : ℕ}
    {b : Bool} (ht : TalliesAt r V j) (hj : j ≠ i) (h : r.vote p i = .ok (r', b)) :
    TalliesAt r' (insert (p, i) V) j := by
  obtain ⟨hcomp, hvoted⟩ := vote_other h hj
  constructor
  · rw [hcomp, vote_quorum h, reached_insert_of_ne hj]
    exact ht.complete
  · intro hopen x
    rw [voters_insert_of_ne V p hj, hvoted]
    exact ht.flags (hcomp ▸ hopen) x

/-- INTERNAL: **one vote, against all votes cast.** SOURCE: core/smr.cpp:115-141 -/
theorem vote_tallies {r r' : EntryVoteRecord} {V : Finset (ℕ × ℕ)} {p i : ℕ} {b : Bool}
    (ht : Tallies r V) (h : r.vote p i = .ok (r', b)) :
    Tallies r' (insert (p, i) V) ∧
      (b = true ↔ ¬ Reached r.quorum V i ∧ Reached r.quorum (insert (p, i) V) i) := by
  refine ⟨?_, (vote_talliesAt (ht i) h).2⟩
  intro j
  by_cases hj : j = i
  · subst hj
    exact (vote_talliesAt (ht j) h).1
  · exact vote_talliesAt_of_ne (ht j) hj h

/-! ## Votes in turn -/

/-- One vote, as a machine that emits the answers. SOURCE: core/smr.cpp:115-141 -/
def voteStep : Machine EntryVoteRecord (ℕ × ℕ) Bool Fault
  | r, (id, index) => do
    let (r, answer) ← r.vote id index
    .ok (r, [answer])

/-- Some votes of peers for the index, given in turn, have one that is answered true. -/
def CanGather (r : EntryVoteRecord) (index : ℕ) : Prop :=
  ∃ (ids : List ℕ) (r' : EntryVoteRecord) (answers : List Bool),
    (∀ id ∈ ids, id < r.peerNum) ∧
    Machine.run voteStep r (ids.map (·, index)) = .ok (r', answers) ∧ true ∈ answers

/-- INTERNAL: the votes of some peers for one index are all answered; an index that was not
complete is complete afterwards only if one of them is answered true.
SOURCE: core/smr.cpp:115-141 -/
theorem votes_run {r : EntryVoteRecord} {V : Finset (ℕ × ℕ)} {i : ℕ} (ids : List ℕ)
    (hids : ∀ id ∈ ids, id < r.peerNum) (ht : TalliesAt r V i) :
    ∃ r' answers, Machine.run voteStep r (ids.map (·, i)) = .ok (r', answers) ∧
      TalliesAt r' ((ids.map (·, i)).toFinset ∪ V) i ∧ r'.quorum = r.quorum ∧
      (true ∉ answers → r'.entryComplete i = r.entryComplete i) := by
  induction ids generalizing r V with
  | nil => exact ⟨r, [], rfl, by simpa using ht, rfl, fun _ => rfl⟩
  | cons id rest ih =>
    obtain ⟨r₁, b, hv⟩ := r.vote_total i (hids id List.mem_cons_self)
    have hrest : ∀ x ∈ rest, x < r₁.peerNum := by
      intro x hx
      rw [vote_peerNum hv]
      exact hids x (List.mem_cons_of_mem _ hx)
    obtain ⟨r', answers, hrun, ht', hq, hstill⟩ := ih hrest (vote_talliesAt ht hv).1
    refine ⟨r', b :: answers, ?_, ?_, hq.trans (vote_quorum hv), ?_⟩
    · rw [List.map_cons, Machine.run_cons_ok]
      exact ⟨r₁, [b], answers, by simp [voteStep, hv], hrun, rfl⟩
    · rw [List.map_cons, List.toFinset_cons, Finset.insert_union, ← Finset.union_insert]
      exact ht'
    · intro hnone
      rw [List.mem_cons, not_or] at hnone
      rw [hstill hnone.2]
      rcases vote_cases hv with ⟨-, rfl, -⟩ | ⟨-, -, -, -, -, hcomp⟩
      · rfl
      · rw [hcomp, if_neg (Ne.symm hnone.1)]

/-- INTERNAL: **an index that nobody has voted for can gather a quorum**: all peers vote for
it in turn. SOURCE: core/smr.cpp:115-141 -/
theorem fresh_canGather {r : EntryVoteRecord} {i : ℕ} (hpos : 0 < r.peerNum)
    (hopen : r.entryComplete i = false) (hnone : ∀ p, ¬ r.Voted p i) : CanGather r i := by
  have ht : TalliesAt r ∅ i := by
    constructor
    · rw [hopen]
      have hq : 0 < r.quorum := by rw [r.majority]; omega
      simp [Reached, voters, hq.ne']
    · intro _ p
      simpa using hnone p
  obtain ⟨r', answers, hrun, ht', hq, hstill⟩ :=
    votes_run (List.range r.peerNum) (fun id hid => List.mem_range.mp hid) ht
  refine ⟨List.range r.peerNum, r', answers, fun id hid => List.mem_range.mp hid, hrun, ?_⟩
  by_contra hnot
  -- all peers have voted, so the index is complete
  have hall : voters (((List.range r.peerNum).map (·, i)).toFinset ∪ ∅) i =
      Finset.range r.peerNum := by
    ext p
    simp
  have hcomplete : r'.entryComplete i = true := by
    rw [ht'.complete, Reached, hall, hq, r.majority, Finset.card_range]
    omega
  rw [hstill hnot, hopen] at hcomplete
  exact absurd hcomplete Bool.false_ne_true

end MorphlingC.Analysis
