import Mathlib.Data.List.Basic
import Mathlib.Logic.Function.Basic

/-!
# Stores and the last write to a key

A store maps keys to values.  `applyWrites` puts a list of writes into it, one after the
other; what a key then holds is the value of the last write to it, or what it held before
(`applyWrites_apply`).
-/

set_option autoImplicit false

namespace MorphlingC.Library

variable {κ ν : Type} [DecidableEq κ]

/-- Put the writes into the store, in order. -/
def applyWrites (store : κ → ν) (writes : List (κ × ν)) : κ → ν :=
  writes.foldl (fun store w => Function.update store w.1 w.2) store

/-- The value of the last write to the key. -/
def lastWrite (k : κ) (writes : List (κ × ν)) : Option ν :=
  (writes.filter fun w => w.1 = k).getLast?.map Prod.snd

@[simp] theorem applyWrites_nil (store : κ → ν) : applyWrites store [] = store := rfl

@[simp] theorem applyWrites_cons (store : κ → ν) (w : κ × ν) (rest : List (κ × ν)) :
    applyWrites store (w :: rest) = applyWrites (Function.update store w.1 w.2) rest := rfl

@[simp] theorem lastWrite_nil (k : κ) : lastWrite k ([] : List (κ × ν)) = none := rfl

/-- The last write of a list that is two in a row is in the second if there is any. -/
theorem lastWrite_append (k : κ) (xs ys : List (κ × ν)) :
    lastWrite k (xs ++ ys) = (lastWrite k ys).or (lastWrite k xs) := by
  unfold lastWrite
  rw [List.filter_append, List.getLast?_append]
  cases (ys.filter fun w => w.1 = k).getLast? <;> rfl

/-- A list without writes to the key has no last one. -/
theorem lastWrite_eq_none {k : κ} {writes : List (κ × ν)} (h : ∀ w ∈ writes, w.1 ≠ k) :
    lastWrite k writes = none := by
  unfold lastWrite
  rw [List.filter_eq_nil_iff.mpr (by simpa using h)]
  rfl

/-- **A key holds the last write to it.** -/
theorem applyWrites_apply (store : κ → ν) (writes : List (κ × ν)) (k : κ) :
    applyWrites store writes k = (lastWrite k writes).getD (store k) := by
  induction writes generalizing store with
  | nil => rfl
  | cons w rest ih =>
    rw [applyWrites_cons, ih, ← List.singleton_append, lastWrite_append]
    cases hr : lastWrite k rest with
    | some v => rfl
    | none =>
      by_cases hk : w.1 = k
      · subst hk
        simp [lastWrite, Function.update_self]
      · simp [lastWrite, hk, Function.update_of_ne (Ne.symm hk)]

end MorphlingC.Library
