import MorphlingC.Analysis.VoteTally

/-!
# The answers of a vote record

A new record is given votes in turn, for any indices and in any order.  Each call is answered
true exactly when it is the first at which a quorum of ids has voted for its index.  The rest
follows from this: an index is completed once, a vote that is repeated is answered false, and
two completed indices have a voter in common.  What the record answers for one index it would
answer without the votes for the others.
-/

set_option autoImplicit false

namespace MorphlingC.Analysis

open MorphlingC.Library MorphlingC.Model MorphlingC.Model.EntryVoteRecord

/-- The ids that have voted for the index in the first calls. -/
def votersIn (calls : List (ℕ × ℕ)) (count index : ℕ) : Finset ℕ :=
  voters (calls.take count).toFinset index

/-- The call is the first one at which a quorum of distinct ids has voted for its index. -/
def FirstQuorum (quorum : ℕ) (calls : List (ℕ × ℕ)) (k : ℕ) : Prop :=
  ∃ id index, calls[k]? = some (id, index) ∧ (votersIn calls (k + 1) index).card = quorum ∧
    ∀ j ≤ k, (votersIn calls j index).card < quorum

/-! ## One call after another -/

/-- INTERNAL: the ids of the later calls are still those of peers after the first one.
SOURCE: core/smr.cpp:115-141 -/
theorem ids_of_cons {r r₁ : EntryVoteRecord} {id index : ℕ} {b : Bool} {calls : List (ℕ × ℕ)}
    (hids : ∀ c ∈ (id, index) :: calls, c.1 < r.peerNum)
    (hvote : r.vote id index = .ok (r₁, b)) : ∀ c ∈ calls, c.1 < r₁.peerNum := by
  intro c hc
  rw [vote_peerNum hvote]
  exact hids c (List.mem_cons_of_mem _ hc)

/-- INTERNAL: a call that is answered true makes its index reached.
SOURCE: core/smr.cpp:115-141 -/
theorem calls_answered {r : EntryVoteRecord} {V : Finset (ℕ × ℕ)} (calls : List (ℕ × ℕ))
    (hids : ∀ c ∈ calls, c.1 < r.peerNum) (ht : Tallies r V) :
    ∃ r' answers, Machine.run voteStep r calls = .ok (r', answers) ∧
      answers.length = calls.length ∧
      ∀ k, answers[k]? = some true ↔ ∃ id index, calls[k]? = some (id, index) ∧
        ¬ Reached r.quorum ((calls.take k).toFinset ∪ V) index ∧
        Reached r.quorum ((calls.take (k + 1)).toFinset ∪ V) index := by
  induction calls generalizing r V with
  | nil => exact ⟨r, [], rfl, rfl, by simp⟩
  | cons c calls ih =>
    obtain ⟨id, index⟩ := c
    obtain ⟨r₁, b, hvote⟩ := r.vote_total index (hids (id, index) List.mem_cons_self)
    obtain ⟨ht₁, hb⟩ := vote_tallies ht hvote
    have hrest := ids_of_cons hids hvote
    obtain ⟨r', answers, hrun, hlength, hanswers⟩ := ih hrest ht₁
    refine ⟨r', b :: answers, ?_, by rw [List.length_cons, hlength, List.length_cons], ?_⟩
    · rw [Machine.run_cons_ok]
      exact ⟨r₁, [b], answers, by simp [voteStep, hvote], hrun, rfl⟩
    · intro k
      cases k with
      | zero => simp [hb]
      | succ k =>
        rw [List.getElem?_cons_succ, hanswers k, vote_quorum hvote]
        simp only [List.getElem?_cons_succ, List.take_succ_cons, List.toFinset_cons,
          Finset.insert_union, Finset.union_insert]

/-- INTERNAL: the votes of the first calls, and one more. -/
theorem take_succ_toFinset {calls : List (ℕ × ℕ)} {k : ℕ} {c : ℕ × ℕ}
    (h : calls[k]? = some c) :
    (calls.take (k + 1)).toFinset = insert c (calls.take k).toFinset := by
  obtain ⟨hk, rfl⟩ := List.getElem?_eq_some_iff.mp h
  rw [List.take_succ_eq_append_getElem hk, List.toFinset_append, Finset.union_comm]
  rfl

/-- INTERNAL: to be the first call that makes its index reached is to be the first one at
which the quorum has voted. -/
theorem firstQuorum_iff {quorum : ℕ} {calls : List (ℕ × ℕ)} {k : ℕ} :
    FirstQuorum quorum calls k ↔ ∃ id index, calls[k]? = some (id, index) ∧
      ¬ Reached quorum (calls.take k).toFinset index ∧
      Reached quorum (calls.take (k + 1)).toFinset index := by
  unfold FirstQuorum
  apply exists_congr
  intro id
  apply exists_congr
  intro index
  apply and_congr_right
  intro hcall
  constructor
  · rintro ⟨hcard, hbefore⟩
    exact ⟨not_le.mpr (hbefore k le_rfl), hcard.ge⟩
  · rintro ⟨hnot, hreached⟩
    refine ⟨?_, ?_⟩
    · -- one more vote adds one id at most
      rw [take_succ_toFinset hcall, reached_insert_iff hnot, ← voters_insert_self,
        ← take_succ_toFinset hcall] at hreached
      exact hreached
    · intro j hj
      by_contra hge
      refine hnot (Reached.mono ?_ (not_lt.mp hge))
      intro c hc
      rw [List.mem_toFinset] at hc ⊢
      exact (List.take_prefix_take_left hj).subset hc

/-- INTERNAL: the call of one index that is answered true comes once.
SOURCE: core/smr.cpp:115-141 -/
theorem FirstQuorum.not_again {quorum : ℕ} {calls : List (ℕ × ℕ)} {j k id id' index : ℕ}
    (hj : FirstQuorum quorum calls j) (hk : FirstQuorum quorum calls k)
    (hcall : calls[j]? = some (id, index)) (hcall' : calls[k]? = some (id', index)) : k ≤ j := by
  obtain ⟨_, _, heq, hcard, -⟩ := hj
  obtain ⟨_, _, heq', -, hbefore⟩ := hk
  cases heq.symm.trans hcall
  cases heq'.symm.trans hcall'
  by_contra hlt
  have hfew := hbefore (j + 1) (by omega)
  omega

/-- INTERNAL: a repeated vote is not the first one at which a quorum has voted. -/
theorem not_firstQuorum_of_repeated {quorum : ℕ} {calls : List (ℕ × ℕ)} {j k : ℕ}
    {c : ℕ × ℕ} (hjk : j < k) (hj : calls[j]? = some c) (hk : calls[k]? = some c) :
    ¬ FirstQuorum quorum calls k := by
  rw [firstQuorum_iff]
  rintro ⟨id, index, hcall, hnot, hreached⟩
  have hold : c ∈ (calls.take k).toFinset := by
    rw [List.mem_toFinset, List.mem_take_iff_getElem]
    obtain ⟨hlt, rfl⟩ := List.getElem?_eq_some_iff.mp hj
    exact ⟨j, lt_min hjk hlt, rfl⟩
  rw [take_succ_toFinset hk, Finset.insert_eq_of_mem hold] at hreached
  exact hnot hreached

/-- INTERNAL: the voters of an index are peers. -/
theorem votersIn_subset {n : ℕ} {calls : List (ℕ × ℕ)} (hids : ∀ c ∈ calls, c.1 < n)
    (count index : ℕ) : votersIn calls count index ⊆ Finset.range n := by
  intro p hp
  have hmem := mem_voters.mp hp
  rw [List.mem_toFinset] at hmem
  exact Finset.mem_range.mpr (hids _ (List.mem_of_mem_take hmem))

/-- INTERNAL: two quorums have a voter in common. -/
theorem votersIn_inter_nonempty {n : ℕ} {calls : List (ℕ × ℕ)} (hids : ∀ c ∈ calls, c.1 < n)
    {count count' index index' : ℕ} (h : (votersIn calls count index).card = n / 2 + 1)
    (h' : (votersIn calls count' index').card = n / 2 + 1) :
    (votersIn calls count index ∩ votersIn calls count' index').Nonempty := by
  apply Finset.inter_nonempty_of_card_lt_card_add_card (votersIn_subset hids _ _)
    (votersIn_subset hids _ _)
  rw [h, h', Finset.card_range]
  omega

/-! ## One index at a time -/

/-- INTERNAL: a vote for another index changes nothing in what a record says of this one. -/
theorem TalliesAt.insert_of_ne {r : EntryVoteRecord} {V : Finset (ℕ × ℕ)} {p i j : ℕ}
    (ht : TalliesAt r V i) (h : i ≠ j) : TalliesAt r (insert (p, j) V) i := by
  constructor
  · rw [reached_insert_of_ne h]
    exact ht.complete
  · rw [voters_insert_of_ne V p h]
    exact ht.flags

/-- INTERNAL: a record that gets the votes for one index only answers them as one that gets
all votes. SOURCE: core/smr.cpp:115-141 -/
theorem answers_of_index {r s : EntryVoteRecord} {V : Finset (ℕ × ℕ)} (calls : List (ℕ × ℕ))
    (i : ℕ) (hids : ∀ c ∈ calls, c.1 < r.peerNum) (hpeers : s.peerNum = r.peerNum)
    (hr : TalliesAt r V i) (hs : TalliesAt s V i) :
    ∃ r' s' answers, Machine.run voteStep r calls = .ok (r', answers) ∧
      Machine.run voteStep s (calls.filter (·.2 = i)) =
        .ok (s', ((calls.zip answers).filter (·.1.2 = i)).map Prod.snd) := by
  induction calls generalizing r s V with
  | nil => exact ⟨r, s, [], rfl, rfl⟩
  | cons c calls ih =>
    obtain ⟨id, index⟩ := c
    have hid := hids (id, index) List.mem_cons_self
    obtain ⟨r₁, b, hvote⟩ := r.vote_total index hid
    have hrest := ids_of_cons hids hvote
    have hfirst : voteStep r (id, index) = .ok (r₁, [b]) := by simp [voteStep, hvote]
    by_cases hi : index = i
    · subst hi
      obtain ⟨s₁, b', hvote'⟩ := s.vote_total index (hpeers ▸ hid)
      obtain ⟨hr₁, hb⟩ := vote_talliesAt hr hvote
      obtain ⟨hs₁, hb'⟩ := vote_talliesAt hs hvote'
      have hquorum : s.quorum = r.quorum := by rw [s.majority, r.majority, hpeers]
      have hsame : b' = b := by
        rw [Bool.eq_iff_iff, hb, hb', hquorum]
      subst hsame
      have hfirst' : voteStep s (id, index) = .ok (s₁, [b']) := by simp [voteStep, hvote']
      obtain ⟨r', s', answers, hrun, hrun'⟩ := ih hrest
        (by rw [vote_peerNum hvote', vote_peerNum hvote, hpeers]) hr₁ hs₁
      refine ⟨r', s', b' :: answers, ?_, ?_⟩
      · rw [Machine.run_cons_of_ok _ hfirst, hrun]
        rfl
      · rw [List.filter_cons_of_pos (by simp), Machine.run_cons_of_ok _ hfirst', hrun',
          List.zip_cons_cons, List.filter_cons_of_pos (by simp)]
        rfl
    · obtain ⟨r', s', answers, hrun, hrun'⟩ := ih hrest (by rw [vote_peerNum hvote, hpeers])
        (vote_talliesAt_of_ne hr (Ne.symm hi) hvote) (hs.insert_of_ne (Ne.symm hi))
      refine ⟨r', s', b :: answers, ?_, ?_⟩
      · rw [Machine.run_cons_of_ok _ hfirst, hrun]
        rfl
      · rw [List.filter_cons_of_neg (by simpa using hi), List.zip_cons_cons,
          List.filter_cons_of_neg (by simpa using hi), hrun']

/-! ## All answers -/

/-- **A vote completes an index once, exactly at the quorum.**  For every number of peers and
every sequence of votes of peers given to a new record, in any order and with any repetitions,
all calls return, and a call is answered true exactly when it is the first at which a quorum
of distinct ids has voted for its index.  So at most one call for an index is answered true; a
repeated vote is answered false; the answers for an index are those of a record that gets the
votes for this index only; and two completed indices have a voter in common. -/
theorem vote_answers (n : ℕ) (calls : List (ℕ × ℕ)) (hids : ∀ c ∈ calls, c.1 < n) :
    ∃ r answers, Machine.run voteStep (EntryVoteRecord.init n) calls = .ok (r, answers) ∧
      answers.length = calls.length ∧
      (∀ k : ℕ, answers[k]? = some true ↔ FirstQuorum (n / 2 + 1) calls k) ∧
      (∀ j k id id' index : ℕ, answers[j]? = some true → answers[k]? = some true →
        calls[j]? = some (id, index) → calls[k]? = some (id', index) → j = k) ∧
      (∀ (j k : ℕ) (c : ℕ × ℕ), j < k → calls[j]? = some c → calls[k]? = some c →
        answers[k]? = some false) ∧
      (∀ i : ℕ, ∃ r, Machine.run voteStep (EntryVoteRecord.init n) (calls.filter (·.2 = i)) =
        .ok (r, ((calls.zip answers).filter (·.1.2 = i)).map Prod.snd)) ∧
      (∀ j k id id' index index' : ℕ, answers[j]? = some true → answers[k]? = some true →
        calls[j]? = some (id, index) → calls[k]? = some (id', index') →
        (votersIn calls (j + 1) index ∩ votersIn calls (k + 1) index').Nonempty) := by
  obtain ⟨r, answers, hrun, hlength, hanswers⟩ :=
    calls_answered calls hids (init_tallies n)
  have hfirst : ∀ k, answers[k]? = some true ↔ FirstQuorum (n / 2 + 1) calls k := by
    intro k
    rw [hanswers, firstQuorum_iff]
    simp only [Finset.union_empty]
    rfl
  refine ⟨r, answers, hrun, hlength, hfirst, ?_, ?_, ?_, ?_⟩
  · intro j k id id' index hj hk hcall hcall'
    rw [hfirst] at hj hk
    exact le_antisymm (hk.not_again hj hcall' hcall) (hj.not_again hk hcall hcall')
  · intro j k c hjk hcall hcall'
    have hlt : k < answers.length := by
      rw [hlength]
      exact (List.getElem?_eq_some_iff.mp hcall').1
    have hnot := mt (hfirst k).mp (not_firstQuorum_of_repeated hjk hcall hcall')
    rw [List.getElem?_eq_getElem hlt] at hnot ⊢
    simpa using hnot
  · intro i
    obtain ⟨_, s', answers', hrun', hindex⟩ := answers_of_index calls i hids rfl
      (init_tallies n i) (init_tallies n i)
    cases hrun.symm.trans hrun'
    exact ⟨s', hindex⟩
  · intro j k id id' index index' hj hk hcall hcall'
    obtain ⟨_, _, heq, hcard, -⟩ := (hfirst j).mp hj
    obtain ⟨_, _, heq', hcard', -⟩ := (hfirst k).mp hk
    cases heq.symm.trans hcall
    cases heq'.symm.trans hcall'
    exact votersIn_inter_nonempty hids hcard hcard'

/-- Four votes of three peers: the second one completes the index. -/
theorem vote_answers_second : FirstQuorum 2 [(2, 2), (1, 2), (0, 2), (1, 2)] 1 := by
  obtain ⟨r, answers, hrun, -, hfirst, -⟩ :=
    vote_answers 3 [(2, 2), (1, 2), (0, 2), (1, 2)] (by decide)
  cases hrun
  exact (hfirst 1).mp rfl

end MorphlingC.Analysis
