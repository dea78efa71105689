import MorphlingC.Library.ByteOrder

/-!
# The msgpack format

The encodings of integers, truth values, byte strings and arrays, each in the shortest form
that holds the value, and how long they are.  A string or an array of 2^32 or more elements
has no encoding; the longest form is taken for it here, so that the functions are total.
-/

set_option autoImplicit false

namespace MorphlingC.Library.MsgPack

/-- An integer that is not negative. -/
def packUInt (value : ℕ) : List UInt8 :=
  if value < 2 ^ 7 then [UInt8.ofNat value]
  else if value < 2 ^ 8 then 0xcc :: beBytes 1 value
  else if value < 2 ^ 16 then 0xcd :: beBytes 2 value
  else if value < 2 ^ 32 then 0xce :: beBytes 4 value
  else 0xcf :: beBytes 8 value

/-- Any integer; a negative one in two's complement. -/
def packInt (value : ℤ) : List UInt8 :=
  let word := (value % 2 ^ 64).toNat
  if 0 ≤ value then packUInt value.toNat
  else if -2 ^ 5 ≤ value then beBytes 1 word
  else if -2 ^ 7 ≤ value then 0xd0 :: beBytes 1 word
  else if -2 ^ 15 ≤ value then 0xd1 :: beBytes 2 word
  else if -2 ^ 31 ≤ value then 0xd2 :: beBytes 4 word
  else 0xd3 :: beBytes 8 word

/-- A truth value. -/
def packBool (value : Bool) : List UInt8 := if value then [0xc3] else [0xc2]

/-- A byte string. -/
def packBin (data : List UInt8) : List UInt8 :=
  (if data.length < 2 ^ 8 then 0xc4 :: beBytes 1 data.length
    else if data.length < 2 ^ 16 then 0xc5 :: beBytes 2 data.length
    else 0xc6 :: beBytes 4 data.length) ++ data

/-- An array of elements that are packed already. -/
def packArray (elements : List (List UInt8)) : List UInt8 :=
  (if elements.length < 2 ^ 4 then [UInt8.ofNat (0x90 + elements.length)]
    else if elements.length < 2 ^ 16 then 0xdc :: beBytes 2 elements.length
    else 0xdd :: beBytes 4 elements.length) ++ elements.flatten

/-! ## How long they are -/

/-- Every integer takes a byte. -/
theorem packUInt_length_pos (value : ℕ) : 1 ≤ (packUInt value).length := by
  unfold packUInt
  split_ifs <;> simp

/-- No integer of 64 bits takes more than nine bytes. -/
theorem packUInt_length_le (value : ℕ) : (packUInt value).length ≤ 9 := by
  unfold packUInt
  split_ifs <;> simp

/-- An integer of 32 bits takes at most five bytes. -/
theorem packUInt_length_le_of_lt_32 {value : ℕ} (h : value < 2 ^ 32) :
    (packUInt value).length ≤ 5 := by
  unfold packUInt
  split_ifs <;> simp

/-- An integer of eight bits takes at most two bytes. -/
theorem packUInt_length_le_of_lt_8 {value : ℕ} (h : value < 2 ^ 8) :
    (packUInt value).length ≤ 2 := by
  unfold packUInt
  split_ifs <;> simp

/-- An integer of seven bits is its own encoding. -/
theorem packUInt_of_lt_7 {value : ℕ} (h : value < 2 ^ 7) :
    packUInt value = [UInt8.ofNat value] := by
  unfold packUInt
  rw [if_pos h]

/-- Every integer takes a byte. -/
theorem packInt_length_pos (value : ℤ) : 1 ≤ (packInt value).length := by
  unfold packInt
  dsimp only
  split_ifs
  · exact packUInt_length_pos value.toNat
  all_goals simp

@[simp] theorem packBool_length (value : Bool) : (packBool value).length = 1 := by
  cases value <;> rfl

/-- A byte string is its bytes behind a header of two, three or five bytes. -/
theorem packBin_length (data : List UInt8) :
    (packBin data).length = data.length +
      if data.length < 2 ^ 8 then 2 else if data.length < 2 ^ 16 then 3 else 5 := by
  unfold packBin
  split_ifs <;> simp <;> omega

/-- A short array is its elements behind a header of one byte. -/
theorem packArray_length {elements : List (List UInt8)} (h : elements.length < 2 ^ 4) :
    (packArray elements).length = 1 + (elements.map List.length).sum := by
  unfold packArray
  rw [if_pos h, List.length_append, List.length_flatten]
  rfl

end MorphlingC.Library.MsgPack
