import Mathlib.Data.Nat.Digits.Lemmas

/-!
# Numbers as bytes

A number is written in a given number of bytes, the least significant first (`leBytes`) or
last (`beBytes`), and what does not fit is cut off.  Reading the bytes back gives the number
modulo the range of the bytes (`ofLeBytes_leBytes`).
-/

set_option autoImplicit false

namespace MorphlingC.Library

/-- The low bytes of a number, the least significant first. -/
def leBytes : ℕ → ℕ → List UInt8
  | 0, _ => []
  | width + 1, value => UInt8.ofNat value :: leBytes width (value / 256)

/-- The low bytes of a number, the most significant first. -/
def beBytes (width value : ℕ) : List UInt8 := (leBytes width value).reverse

/-- The number whose bytes these are, the least significant first. -/
def ofLeBytes (bytes : List UInt8) : ℕ := Nat.ofDigits 256 (bytes.map UInt8.toNat)

@[simp] theorem leBytes_length (width value : ℕ) : (leBytes width value).length = width := by
  induction width generalizing value with
  | zero => rfl
  | succ width ih => rw [leBytes, List.length_cons, ih]

@[simp] theorem beBytes_length (width value : ℕ) : (beBytes width value).length = width := by
  rw [beBytes, List.length_reverse, leBytes_length]

/-- The first byte is the number modulo 256, and the others are the rest of it. -/
theorem ofLeBytes_cons (b : UInt8) (bytes : List UInt8) :
    ofLeBytes (b :: bytes) = b.toNat + 256 * ofLeBytes bytes := by
  rw [ofLeBytes, List.map_cons, Nat.ofDigits_cons]
  rfl

/-- What has been written reads back, as far as it fits. -/
theorem ofLeBytes_leBytes (width value : ℕ) :
    ofLeBytes (leBytes width value) = value % 256 ^ width := by
  induction width generalizing value with
  | zero =>
    rw [pow_zero, Nat.mod_one]
    rfl
  | succ width ih =>
    have hsplit : value % (256 * 256 ^ width) =
        value % 256 + 256 * (value / 256 % 256 ^ width) := Nat.mod_mul
    rw [leBytes, ofLeBytes_cons, ih, UInt8.toNat_ofNat', pow_succ' 256 width, hsplit]

end MorphlingC.Library
