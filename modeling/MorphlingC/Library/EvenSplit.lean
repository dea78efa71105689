import Mathlib.Order.Bounds.Basic
import Mathlib.Order.Interval.Finset.Nat

/-!
# Cutting a space into even ranges

The numbers below `K` are cut into `n` consecutive ranges: range `i` goes from `i * K / n` up
to where range `i + 1` begins.  Every number is in exactly one range, the last one that does
not begin behind it (`isGreatest_of_mem_splitRange`), and the sizes of two ranges differ by
one at most (`splitRange_card`).
-/

set_option autoImplicit false

namespace MorphlingC.Library

/-- Where range `i` of `n` begins. -/
def splitStart (K n i : ℕ) : ℕ := i * K / n

/-- The numbers in range `i` of `n`. -/
def splitRange (K n i : ℕ) : Finset ℕ := Finset.Ico (splitStart K n i) (splitStart K n (i + 1))

variable {K n : ℕ}

theorem mem_splitRange {i p : ℕ} :
    p ∈ splitRange K n i ↔ splitStart K n i ≤ p ∧ p < splitStart K n (i + 1) := Finset.mem_Ico

/-- The ranges end where the space does. -/
theorem splitStart_self (hn : 0 < n) : splitStart K n n = K := Nat.mul_div_cancel_left K hn

/-- Later ranges begin later. -/
theorem splitStart_mono {i j : ℕ} (hij : i ≤ j) : splitStart K n i ≤ splitStart K n j :=
  Nat.div_le_div_right (Nat.mul_le_mul_right K hij)

/-- A range begins inside the space. -/
theorem splitStart_le {i : ℕ} (hn : 0 < n) (hi : i ≤ n) : splitStart K n i ≤ K := by
  calc splitStart K n i ≤ splitStart K n n := splitStart_mono hi
    _ = K := splitStart_self hn

/-- The size of a range is the average, rounded down or up. -/
theorem splitStart_succ (hn : 0 < n) (i : ℕ) :
    splitStart K n i + K / n ≤ splitStart K n (i + 1) ∧
      splitStart K n (i + 1) ≤ splitStart K n i + K / n + 1 := by
  unfold splitStart
  rw [Nat.succ_mul, Nat.add_div hn]
  split_ifs <;> omega

/-- **Every number of the space is in some range.** -/
theorem exists_mem_splitRange {p : ℕ} (hn : 0 < n) (hp : p < K) :
    ∃ i < n, p ∈ splitRange K n i := by
  -- the first range that begins behind the number follows the one that has it
  have hlast : ∃ i, p < splitStart K n i := ⟨n, by rwa [splitStart_self hn]⟩
  have hfirst := Nat.find_spec hlast
  cases h : Nat.find hlast with
  | zero =>
    rw [h] at hfirst
    simp [splitStart] at hfirst
  | succ i =>
    rw [h] at hfirst
    have hbefore : splitStart K n i ≤ p := not_lt.mp (Nat.find_min hlast (by omega))
    refine ⟨i, ?_, mem_splitRange.mpr ⟨hbefore, hfirst⟩⟩
    by_contra hge
    have hall := splitStart_mono (K := K) (n := n) (not_lt.mp hge)
    rw [splitStart_self hn] at hall
    omega

/-- The range of a number is the last one that does not begin behind it. -/
theorem isGreatest_of_mem_splitRange {i p : ℕ} (h : p ∈ splitRange K n i) :
    IsGreatest {j | splitStart K n j ≤ p} i := by
  obtain ⟨hle, hlt⟩ := mem_splitRange.mp h
  refine ⟨hle, fun j hj => ?_⟩
  by_contra hij
  have hnext := splitStart_mono (K := K) (n := n) (show i + 1 ≤ j by omega)
  exact absurd (hnext.trans hj) (not_le.mpr hlt)

/-- A number is in one range only. -/
theorem splitRange_unique {i j p : ℕ} (hi : p ∈ splitRange K n i) (hj : p ∈ splitRange K n j) :
    i = j :=
  (isGreatest_of_mem_splitRange hi).unique (isGreatest_of_mem_splitRange hj)

/-- **The sizes of the ranges** are the average, rounded down or up. -/
theorem splitRange_card (hn : 0 < n) (i : ℕ) :
    K / n ≤ (splitRange K n i).card ∧ (splitRange K n i).card ≤ K / n + 1 := by
  obtain ⟨hlow, hhigh⟩ := splitStart_succ (K := K) hn i
  rw [splitRange, Nat.card_Ico]
  generalize K / n = average at hlow hhigh ⊢
  omega

/-- No range is empty when there are no more of them than numbers. -/
theorem splitStart_lt_succ (hn : 0 < n) (hK : n ≤ K) (i : ℕ) :
    splitStart K n i < splitStart K n (i + 1) := by
  have hone : 1 ≤ K / n := (Nat.one_le_div_iff hn).mpr hK
  have hlow := (splitStart_succ (K := K) hn i).1
  omega

end MorphlingC.Library
