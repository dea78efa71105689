import MorphlingC.Library.Quorum
import Mathlib.Data.Finset.Image
import Mathlib.Order.Bounds.Basic

/-!
# Tallies

The votes cast so far are a finite set of pairs: who voted, and for which item.  An item
is reached when a given number of parties have voted for it (`Reached`).  Since the votes
are a set, neither their order nor their repetition matters.

When the items are numbered there is a second reading, in which a vote for an item counts
for all items below it too (`ReachedFrom`).  One more vote moves the highest item reached
in one way under the first reading (`isGreatest_insert`).  Under the second reading the
same move is right exactly when the items do not fall between two votes
(`isGreatestFrom_insert_iff`).
-/

set_option autoImplicit false

namespace MorphlingC.Library

variable {ν ι : Type} [DecidableEq ν] [DecidableEq ι]

/-! ## Voters of one item -/

/-- Who voted for the item. -/
def voters (V : Finset (ν × ι)) (i : ι) : Finset ν :=
  (V.filter fun v => v.2 = i).image Prod.fst

/-- At least `q` parties voted for the item. -/
def Reached (q : ℕ) (V : Finset (ν × ι)) (i : ι) : Prop := q ≤ (voters V i).card

instance (q : ℕ) (V : Finset (ν × ι)) (i : ι) : Decidable (Reached q V i) :=
  inferInstanceAs (Decidable (_ ≤ _))

@[simp] theorem mem_voters {V : Finset (ν × ι)} {p : ν} {i : ι} :
    p ∈ voters V i ↔ (p, i) ∈ V := by
  unfold voters
  simp only [Finset.mem_image, Finset.mem_filter, Prod.exists, exists_and_right,
    exists_eq_right]

/-- A vote adds its voter to those of its item. -/
theorem voters_insert_self (V : Finset (ν × ι)) (p : ν) (i : ι) :
    voters (insert (p, i) V) i = insert p (voters V i) := by
  ext x
  simp

/-- A vote does not matter to other items. -/
theorem voters_insert_of_ne (V : Finset (ν × ι)) (p : ν) {i j : ι} (h : j ≠ i) :
    voters (insert (p, i) V) j = voters V j := by
  ext x
  simp [h]

/-- A vote does not matter to whether other items are reached. -/
theorem reached_insert_of_ne {q : ℕ} {V : Finset (ν × ι)} {p : ν} {i j : ι} (h : j ≠ i) :
    Reached q (insert (p, i) V) j ↔ Reached q V j := by
  unfold Reached
  rw [voters_insert_of_ne V p h]

/-- With more votes, the items reached stay so. -/
theorem Reached.mono {q : ℕ} {V W : Finset (ν × ι)} {i : ι} (hVW : V ⊆ W)
    (h : Reached q V i) : Reached q W i := by
  apply le_trans h
  apply Finset.card_le_card
  intro p hp
  exact mem_voters.mpr (hVW (mem_voters.mp hp))

/-- A vote reaches its item, which was not reached before, exactly when it brings the number
of voters to the number asked for. -/
theorem reached_insert_iff {q : ℕ} {V : Finset (ν × ι)} {p : ν} {i : ι}
    (h : ¬ Reached q V i) :
    Reached q (insert (p, i) V) i ↔ (insert p (voters V i)).card = q := by
  unfold Reached at h ⊢
  rw [voters_insert_self]
  have hle := Finset.card_insert_le p (voters V i)
  omega

/-! ## Numbered items -/

/-- Who voted for the item or for a higher one. -/
def votersFrom (V : Finset (ν × ℕ)) (i : ℕ) : Finset ν :=
  (V.filter fun v => i ≤ v.2).image Prod.fst

/-- At least `q` parties voted for the item or for a higher one. -/
def ReachedFrom (q : ℕ) (V : Finset (ν × ℕ)) (i : ℕ) : Prop := q ≤ (votersFrom V i).card

instance (q : ℕ) (V : Finset (ν × ℕ)) (i : ℕ) : Decidable (ReachedFrom q V i) :=
  inferInstanceAs (Decidable (_ ≤ _))

@[simp] theorem mem_votersFrom {V : Finset (ν × ℕ)} {p : ν} {i : ℕ} :
    p ∈ votersFrom V i ↔ ∃ j, i ≤ j ∧ (p, j) ∈ V := by
  unfold votersFrom
  simp only [Finset.mem_image, Finset.mem_filter, Prod.exists, exists_and_right,
    exists_eq_right]
  constructor
  · rintro ⟨j, hmem, hle⟩
    exact ⟨j, hle, hmem⟩
  · rintro ⟨j, hle, hmem⟩
    exact ⟨j, hmem, hle⟩

/-- An item that is reached is reached in the second reading too. -/
theorem Reached.from {q : ℕ} {V : Finset (ν × ℕ)} {i : ℕ} (h : Reached q V i) :
    ReachedFrom q V i := by
  apply le_trans h
  apply Finset.card_le_card
  intro p hp
  exact mem_votersFrom.mpr ⟨i, le_rfl, mem_voters.mp hp⟩

/-- In the second reading the items below one that is reached are reached. -/
theorem ReachedFrom.anti {q : ℕ} {V : Finset (ν × ℕ)} {i j : ℕ} (hij : i ≤ j)
    (h : ReachedFrom q V j) : ReachedFrom q V i := by
  apply le_trans h
  apply Finset.card_le_card
  intro p hp
  obtain ⟨k, hk, hmem⟩ := mem_votersFrom.mp hp
  exact mem_votersFrom.mpr ⟨k, hij.trans hk, hmem⟩

/-- With more votes, the items reached in the second reading stay so. -/
theorem ReachedFrom.mono {q : ℕ} {V W : Finset (ν × ℕ)} {i : ℕ} (hVW : V ⊆ W)
    (h : ReachedFrom q V i) : ReachedFrom q W i := by
  apply le_trans h
  apply Finset.card_le_card
  intro p hp
  obtain ⟨k, hk, hmem⟩ := mem_votersFrom.mp hp
  exact mem_votersFrom.mpr ⟨k, hk, hVW hmem⟩

/-- A vote does not matter to the items above it. -/
theorem reachedFrom_insert_of_lt {q : ℕ} {V : Finset (ν × ℕ)} {p : ν} {i j : ℕ} (h : i < j) :
    ReachedFrom q (insert (p, i) V) j ↔ ReachedFrom q V j := by
  have hvoters : votersFrom (insert (p, i) V) j = votersFrom V j := by
    ext x
    simp only [mem_votersFrom, Finset.mem_insert, Prod.mk.injEq]
    constructor
    · rintro ⟨k, hk, ⟨-, rfl⟩ | hmem⟩
      · omega
      · exact ⟨k, hk, hmem⟩
    · rintro ⟨k, hk, hmem⟩
      exact ⟨k, hk, .inr hmem⟩
  unfold ReachedFrom
  rw [hvoters]

/-! ## The highest item -/

/-- **The highest item reached, after one more vote**: the vote's own item if that is now
reached and higher than the one before. -/
theorem isGreatest_insert {q c : ℕ} {V : Finset (ν × ℕ)} {p : ν} {i : ℕ}
    (h : IsGreatest {j | j = 0 ∨ Reached q V j} c) :
    IsGreatest {j | j = 0 ∨ Reached q (insert (p, i) V) j}
      (if Reached q (insert (p, i) V) i then max c i else c) := by
  obtain ⟨hmem, hupper⟩ := h
  have hc : c = 0 ∨ Reached q (insert (p, i) V) c := by
    rcases hmem with h0 | hr
    · exact .inl h0
    · exact .inr (hr.mono (Finset.subset_insert _ _))
  have hbound : ∀ j, (j = 0 ∨ Reached q (insert (p, i) V) j) → j ≠ i → j ≤ c := by
    rintro j (rfl | hr) hne
    · exact Nat.zero_le c
    · exact hupper (.inr ((reached_insert_of_ne hne).mp hr))
  by_cases hi : Reached q (insert (p, i) V) i
  · rw [if_pos hi]
    constructor
    · rcases le_total c i with hle | hle
      · rw [max_eq_right hle]
        exact .inr hi
      · rw [max_eq_left hle]
        exact hc
    · intro j hj
      by_cases hne : j = i
      · exact hne.le.trans (le_max_right c i)
      · exact (hbound j hj hne).trans (le_max_left c i)
  · rw [if_neg hi]
    refine ⟨hc, ?_⟩
    intro j hj
    by_cases hne : j = i
    · subst hne
      rcases hj with h0 | hr
      · exact h0.le.trans (Nat.zero_le c)
      · exact absurd hr hi
    · exact hbound j hj hne

/-- **The same move under the second reading.**  It gives the highest item reached exactly
when a vote that makes some item above the highest one reached makes its own item reached in
the first reading. -/
theorem isGreatestFrom_insert_iff {q c : ℕ} {V : Finset (ν × ℕ)} {p : ν} {i : ℕ}
    (h : IsGreatest {j | j = 0 ∨ ReachedFrom q V j} c) :
    IsGreatest {j | j = 0 ∨ ReachedFrom q (insert (p, i) V) j}
        (if Reached q (insert (p, i) V) i then max c i else c) ↔
      (c < i → ReachedFrom q (insert (p, i) V) (c + 1) → Reached q (insert (p, i) V) i) := by
  obtain ⟨hmem, hupper⟩ := h
  have hc : c = 0 ∨ ReachedFrom q (insert (p, i) V) c := by
    rcases hmem with h0 | hr
    · exact .inl h0
    · exact .inr (hr.mono (Finset.subset_insert _ _))
  have habove : ∀ j, i < j → ReachedFrom q (insert (p, i) V) j → j ≤ c := by
    intro j hj hr
    exact hupper (.inr ((reachedFrom_insert_of_lt hj).mp hr))
  by_cases hi : Reached q (insert (p, i) V) i
  · rw [if_pos hi]
    refine iff_of_true ⟨?_, ?_⟩ fun _ _ => hi
    · rcases le_total c i with hle | hle
      · rw [max_eq_right hle]
        exact .inr hi.from
      · rw [max_eq_left hle]
        exact hc
    · rintro j (rfl | hr)
      · exact Nat.zero_le _
      · rcases Nat.lt_or_ge i j with hlt | hge
        · exact (habove j hlt hr).trans (le_max_left c i)
        · exact hge.trans (le_max_right c i)
  · rw [if_neg hi]
    constructor
    · intro hgreatest _ hr
      have hle := hgreatest.2 (show c + 1 ∈ {j | j = 0 ∨ _} from .inr hr)
      omega
    · intro hcond
      refine ⟨hc, ?_⟩
      rintro j (rfl | hr)
      · exact Nat.zero_le _
      · by_contra hlt
        have hcj : c < j := not_le.mp hlt
        rcases Nat.lt_or_ge i j with hij | hij
        · exact hlt (habove j hij hr)
        · exact hi (hcond (by omega) (hr.anti hcj))

end MorphlingC.Library
