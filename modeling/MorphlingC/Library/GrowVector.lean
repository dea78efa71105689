import Mathlib.Data.List.Basic

/-!
# Vectors that move when they grow

A vector has its elements in one place, with room for `capacity` of them.  A push that finds
no room moves the elements to a larger place, and a reference taken before that refers to
nothing any more: reading through it gives no value.  A reference is therefore a position
together with the number of moves at the time it was taken.

That there are no more elements than there is room for is a field of the structure.
-/

set_option autoImplicit false

namespace MorphlingC.Library

/-- The capacity after a move, which is always larger. -/
structure Growth where
  next : ℕ → ℕ
  larger : ∀ capacity, capacity < next capacity

/-- The elements, the room for them, and how many times they have been moved. -/
@[ext] structure GrowVector (α : Type) where
  elements : List α
  capacity : ℕ
  moves : ℕ
  fits : elements.length ≤ capacity

/-- A reference to an element. -/
structure ElementRef where
  moves : ℕ
  pos : ℕ
deriving DecidableEq, Repr

namespace GrowVector

variable {α : Type} (grow : Growth)

/-- A vector without elements, with room reserved. -/
def reserved (capacity : ℕ) : GrowVector α := ⟨[], capacity, 0, Nat.zero_le _⟩

/-- Put an element behind the others; a reference to it is returned. -/
def push (v : GrowVector α) (a : α) : GrowVector α × ElementRef :=
  if h : v.elements.length < v.capacity then
    (⟨v.elements ++ [a], v.capacity, v.moves, by
        rw [List.length_append, List.length_singleton]
        exact h⟩,
      ⟨v.moves, v.elements.length⟩)
  else
    (⟨v.elements ++ [a], grow.next v.capacity, v.moves + 1, by
        have hlarger := grow.larger v.capacity
        have hfits := v.fits
        rw [List.length_append, List.length_singleton]
        omega⟩,
      ⟨v.moves + 1, v.elements.length⟩)

/-- A reference to the last element. -/
def back (v : GrowVector α) : ElementRef := ⟨v.moves, v.elements.length - 1⟩

/-- The value a reference refers to: none after a move. -/
def read (v : GrowVector α) (r : ElementRef) : Option α :=
  if r.moves = v.moves then v.elements[r.pos]? else none

/-- Replace the value a reference refers to. -/
def write (v : GrowVector α) (r : ElementRef) (a : α) : Option (GrowVector α) :=
  if r.moves = v.moves ∧ r.pos < v.elements.length then
    some { v with
      elements := v.elements.set r.pos a
      fits := by rw [List.length_set]; exact v.fits }
  else none

/-- Drop the elements behind the first ones; the room stays. -/
def keepFirst (v : GrowVector α) (count : ℕ) : GrowVector α :=
  { v with
    elements := v.elements.take count
    fits := Nat.le_trans (List.length_take_le' _ _) v.fits }

/-! ## What a push does -/

@[simp] theorem push_elements (v : GrowVector α) (a : α) :
    (v.push grow a).1.elements = v.elements ++ [a] := by
  unfold push
  split <;> rfl

/-- A push with room moves nothing. -/
theorem push_of_room {v : GrowVector α} (h : v.elements.length < v.capacity) (a : α) :
    (v.push grow a).1.capacity = v.capacity ∧ (v.push grow a).1.moves = v.moves := by
  unfold push
  rw [dif_pos h]
  exact ⟨rfl, rfl⟩

/-- The new reference refers to the new element; it does not depend on what was pushed. -/
@[simp] theorem read_push_new (v : GrowVector α) (a b : α) :
    (v.push grow a).1.read (v.push grow b).2 = some a := by
  unfold push read
  split <;> simp

/-- Writing through the new reference is as if that value had been pushed. -/
@[simp] theorem write_push_new (v : GrowVector α) (a b c : α) :
    (v.push grow a).1.write (v.push grow b).2 c = some (v.push grow c).1 := by
  unfold push write
  split <;> simp

/-- A reference to the last element that was taken before a push with room refers to it. -/
theorem read_back_of_room {v : GrowVector α} (h : v.elements.length < v.capacity)
    (hne : v.elements ≠ []) (a : α) :
    (v.push grow a).1.read v.back = v.elements.getLast? := by
  have hpos := List.length_pos_iff.mpr hne
  unfold read back
  dsimp only
  rw [if_pos (push_of_room grow h a).2.symm, push_elements,
    List.getElem?_append_left (by omega), List.getLast?_eq_getElem?]

/-- A reference that was taken before a push without room refers to nothing. -/
theorem read_back_of_full {v : GrowVector α} (h : v.capacity ≤ v.elements.length) (a : α) :
    (v.push grow a).1.read v.back = none := by
  unfold push read back
  rw [dif_neg (by omega), if_neg (by simp)]

end GrowVector

end MorphlingC.Library
