import Mathlib.Data.Fintype.Fin
import Mathlib.Data.Finset.Card

/-!
# Majorities

A majority of `n` parties is a set of at least `n / 2 + 1` of them.  `Majority P` says
that the parties with the property `P` are one.  A vector of flags is a majority when it
has that many flags up (`majority_of_count`).
-/

set_option autoImplicit false

namespace MorphlingC.Library

/-- The parties that have the property number at least `n / 2 + 1`. -/
def Majority {n : ℕ} (P : Fin n → Prop) : Prop :=
  ∃ S : Finset (Fin n), n / 2 + 1 ≤ S.card ∧ ∀ i ∈ S, P i

/-- All parties together are a majority. -/
theorem majority_of_forall {n : ℕ} {P : Fin n → Prop} (hn : 0 < n) (h : ∀ i, P i) :
    Majority P :=
  ⟨Finset.univ, by rw [Finset.card_univ, Fintype.card_fin]; omega, fun i _ => h i⟩

/-- A weaker property has a majority too. -/
theorem Majority.mono {n : ℕ} {P Q : Fin n → Prop} (hPQ : ∀ i, P i → Q i)
    (h : Majority P) : Majority Q := by
  obtain ⟨S, hcard, hS⟩ := h
  exact ⟨S, hcard, fun i hi => hPQ i (hS i hi)⟩

/-- Whether a property has a majority is seen by counting the parties that have it. -/
theorem majority_iff_card {n : ℕ} {P : Fin n → Prop} [DecidablePred P] :
    Majority P ↔ n / 2 + 1 ≤ (Finset.univ.filter P).card := by
  constructor
  · rintro ⟨S, hcard, hS⟩
    apply hcard.trans
    apply Finset.card_le_card
    intro i hi
    exact Finset.mem_filter.mpr ⟨Finset.mem_univ i, hS i hi⟩
  · intro hcard
    exact ⟨_, hcard, fun i hi => (Finset.mem_filter.mp hi).2⟩

/-- One party alone is not a majority of two or more. -/
theorem not_majority_of_unique {n : ℕ} (hn : 2 ≤ n) {P : Fin n → Prop} {o : Fin n}
    (h : ∀ i, P i → i = o) : ¬ Majority P := by
  rintro ⟨S, hcard, hS⟩
  have hle : S.card ≤ 1 := Finset.card_le_one.mpr fun i hi j hj =>
    (h i (hS i hi)).trans (h j (hS j hj)).symm
  omega

/-- The flags of a vector that are up number as many as their places. -/
theorem count_eq_card {n : ℕ} (v : List Bool) (hv : v.length = n) :
    v.count true = (Finset.univ.filter fun i : Fin n => v[i.val]? = some true).card := by
  refine (Fin.card_filter_univ_eq_vector_get_eq_count true ⟨v, hv⟩).symm.trans ?_
  congr 1
  ext i
  have hi : i.val < v.length := by rw [hv]; exact i.isLt
  rw [Finset.mem_filter, Finset.mem_filter, List.getElem?_eq_getElem hi, Option.some.injEq]
  rfl

/-- The flags of a vector that are up number as many as the parties they stand for. -/
theorem count_eq_card_of_mem {v : List Bool} {S : Finset ℕ}
    (h : ∀ p, p ∈ S ↔ v[p]? = some true) : v.count true = S.card := by
  rw [count_eq_card v rfl, ← Finset.card_map Fin.valEmbedding]
  congr 1
  ext p
  simp only [Finset.mem_map, Finset.mem_filter, Finset.mem_univ, true_and,
    Fin.valEmbedding_apply]
  constructor
  · rintro ⟨i, hi, rfl⟩
    exact (h i).mpr hi
  · intro hp
    have hup := (h p).mp hp
    exact ⟨⟨p, (List.getElem?_eq_some_iff.mp hup).1⟩, hup, rfl⟩

/-- As many flags up as a majority needs are the flags of a majority. -/
theorem majority_of_count {n : ℕ} {v : List Bool} {P : Fin n → Prop} (hv : v.length = n)
    (hcount : n / 2 + 1 ≤ v.count true) (hP : ∀ i : Fin n, v[i.val]? = some true → P i) :
    Majority P := by
  rw [count_eq_card v hv] at hcount
  exact ⟨_, hcount, fun i hi => hP i (Finset.mem_filter.mp hi).2⟩

end MorphlingC.Library
