import MorphlingC.Library.MsgPack

/-!
# Reading the msgpack format

A reader takes something off the front of a list of bytes and leaves the rest; it has no
answer for bytes that it does not understand.  `Reads r bytes a` says that `r` takes exactly
these bytes, whatever follows them, and answers `a`.  The rules for it follow the way in which
readers are put together, so that what a reader of a structure reads back is put together in
the same way from what the readers of its fields read back.

Every reader here accepts every form of a value that the format has, not only the shortest.
-/

set_option autoImplicit false

namespace MorphlingC.Library

/-- Something is read off the front of some bytes. -/
abbrev Reader := StateT (List UInt8) Option

/-- The reader takes exactly these bytes, whatever follows them. -/
def Reads {α : Type} (r : Reader α) (bytes : List UInt8) (a : α) : Prop :=
  ∀ rest, r (bytes ++ rest) = some (a, rest)

namespace Reads

variable {α β : Type}

/-- Reading nothing takes no bytes. -/
theorem pure (a : α) : Reads (Pure.pure a : Reader α) [] a := fun _ => rfl

/-- Two readers in sequence take the bytes of the one and then those of the other. -/
theorem bind {r : Reader α} {f : α → Reader β} {bytes bytes' : List UInt8} {a : α} {b : β}
    (h : Reads r bytes a) (h' : Reads (f a) bytes' b) :
    Reads (r >>= f) (bytes ++ bytes') b := by
  intro rest
  have hfirst : r (bytes ++ bytes' ++ rest) = some (a, bytes' ++ rest) := by
    rw [List.append_assoc]
    exact h _
  show (r (bytes ++ bytes' ++ rest)).bind (fun p => f p.1 p.2) = some (b, rest)
  rw [hfirst]
  exact h' rest

/-- The last reader of a sequence. -/
theorem bind_pure {r : Reader α} {f : α → β} {bytes : List UInt8} {a : α} (h : Reads r bytes a) :
    Reads (r >>= fun x => Pure.pure (f x)) bytes (f a) := by
  have hbind : Reads (r >>= fun x => Pure.pure (f x)) (bytes ++ []) (f a) := h.bind (.pure _)
  rwa [List.append_nil] at hbind

/-- The last reader of a sequence, when what it reads is tested. -/
theorem bind_test {r : Reader α} {p : α → Prop} [DecidablePred p] {f : α → β}
    {bytes : List UInt8} {a : α} (h : Reads r bytes a) (hp : p a) :
    Reads (r >>= fun x => if p x then Pure.pure (f x) else failure) bytes (f a) := by
  have hbind : Reads (r >>= fun x => if p x then Pure.pure (f x) else failure) (bytes ++ [])
      (f a) := by
    refine h.bind ?_
    rw [if_pos hp]
    exact .pure _
  rwa [List.append_nil] at hbind

/-- A reader that a test on what has been read chooses. -/
theorem ite_pos {c : Prop} [Decidable c] {r r' : Reader α} {bytes : List UInt8} {a : α}
    (hc : c) (h : Reads r bytes a) : Reads (if c then r else r') bytes a := by
  rwa [if_pos hc]

end Reads

namespace MsgPack

variable {α : Type}

/-! ## Bytes and numbers -/

/-- The next byte. -/
def byte : Reader UInt8
  | [] => none
  | b :: rest => some (b, rest)

/-- So many bytes. -/
def takeBytes (count : ℕ) : Reader (List UInt8) := fun bytes =>
  if count ≤ bytes.length then some (bytes.take count, bytes.drop count) else none

/-- The number in so many bytes, the most significant first. -/
def number (width : ℕ) : Reader ℕ := do
  let bytes ← takeBytes width
  return ofLeBytes bytes.reverse

/-- The number in so many bytes, in two's complement. -/
def signed (width : ℕ) : Reader ℤ := do
  let value ← number width
  return if 2 * value < 256 ^ width then (value : ℤ) else (value : ℤ) - 256 ^ width

theorem reads_byte (b : UInt8) : Reads byte [b] b := fun _ => rfl

theorem reads_takeBytes (bytes : List UInt8) : Reads (takeBytes bytes.length) bytes bytes := by
  intro rest
  rw [takeBytes, if_pos (by rw [List.length_append]; omega), List.take_left, List.drop_left]

/-- What has been written of a number is read back. -/
theorem reads_low (width value : ℕ) :
    Reads (number width) (beBytes width value) (value % 256 ^ width) := by
  have htake := reads_takeBytes (beBytes width value)
  rw [beBytes_length] at htake
  have hvalue : ofLeBytes (beBytes width value).reverse = value % 256 ^ width := by
    rw [beBytes, List.reverse_reverse, ofLeBytes_leBytes]
  have hread : Reads (number width) (beBytes width value)
      (ofLeBytes (beBytes width value).reverse) := htake.bind_pure
  rwa [hvalue] at hread

/-- A number that fits is read back. -/
theorem reads_number {width value : ℕ} (h : value < 256 ^ width) :
    Reads (number width) (beBytes width value) value := by
  have hread := reads_low width value
  rwa [Nat.mod_eq_of_lt h] at hread

/-- A negative number that fits is read back from its two's complement. -/
theorem reads_signed {width word : ℕ} {value : ℤ} (hfits : -256 ^ width ≤ 2 * value)
    (hword : (word : ℤ) % 256 ^ width = value + 256 ^ width) :
    Reads (signed width) (beBytes width word) value := by
  have hread : Reads (signed width) (beBytes width word)
      (if 2 * (word % 256 ^ width) < 256 ^ width then ((word % 256 ^ width : ℕ) : ℤ)
        else ((word % 256 ^ width : ℕ) : ℤ) - 256 ^ width) := (reads_low width word).bind_pure
  have hcast : ((word % 256 ^ width : ℕ) : ℤ) = value + 256 ^ width := by
    push_cast
    exact hword
  have hsign : ¬ 2 * (word % 256 ^ width) < 256 ^ width := by
    intro hlt
    have hlt' : 2 * ((word % 256 ^ width : ℕ) : ℤ) < 256 ^ width := by exact_mod_cast hlt
    omega
  rw [if_neg hsign, hcast, add_sub_cancel_right] at hread
  exact hread

/-! ## Values -/

/-- An integer that is not negative, after its first byte. -/
def unsignedForm (first : UInt8) : Reader ℕ :=
  if first < 0x80 then return first.toNat
  else if first = 0xcc then number 1
  else if first = 0xcd then number 2
  else if first = 0xce then number 4
  else if first = 0xcf then number 8
  else failure

/-- An integer that is not negative. -/
def readUInt : Reader ℕ := byte >>= unsignedForm

/-- Any integer. -/
def readInt : Reader ℤ := do
  let first ← byte
  if 0xe0 ≤ first then return (first.toNat : ℤ) - 256
  else if first < 0xd0 then
    let value ← unsignedForm first
    return (value : ℤ)
  else if first = 0xd0 then signed 1
  else if first = 0xd1 then signed 2
  else if first = 0xd2 then signed 4
  else if first = 0xd3 then signed 8
  else failure

/-- A truth value. -/
def readBool : Reader Bool := do
  let first ← byte
  if first = 0xc3 then return true
  else if first = 0xc2 then return false
  else failure

/-- A byte string. -/
def readBin : Reader (List UInt8) := do
  let first ← byte
  let count ←
    if first = 0xc4 then number 1
    else if first = 0xc5 then number 2
    else if first = 0xc6 then number 4
    else failure
  takeBytes count

/-- The number of elements of an array. -/
def arrayHeader : Reader ℕ := do
  let first ← byte
  if 0x90 ≤ first ∧ first < 0xa0 then return first.toNat - 0x90
  else if first = 0xdc then number 2
  else if first = 0xdd then number 4
  else failure

/-- A structure, as an array of so many fields. -/
def tuple (count : ℕ) (fields : Reader α) : Reader α := do
  let found ← arrayHeader
  if found = count then fields else failure

/-- So many elements. -/
def many (element : Reader α) : ℕ → Reader (List α)
  | 0 => return []
  | count + 1 => do
    let a ← element
    let others ← many element count
    return a :: others

/-- An array of any number of elements. -/
def readArray (element : Reader α) : Reader (List α) := arrayHeader >>= many element

/-! ## What has been packed is read back -/

/-- The first byte of a small integer is the integer. -/
theorem reads_small {value : ℕ} (h : value < 2 ^ 7) :
    Reads (unsignedForm (UInt8.ofNat value)) [] value := by
  have hnat : (UInt8.ofNat value).toNat = value := by
    rw [UInt8.toNat_ofNat']
    omega
  have hlt : UInt8.ofNat value < 0x80 := by
    rw [UInt8.lt_iff_toNat_lt, hnat]
    exact h
  unfold unsignedForm
  rw [if_pos hlt, hnat]
  exact .pure value

/-- Every integer of 64 bits is read back. -/
theorem reads_uint {value : ℕ} (h : value < 2 ^ 64) : Reads readUInt (packUInt value) value := by
  unfold packUInt
  split_ifs with h7 h8 h16 h32
  · exact (reads_byte _).bind (reads_small h7)
  · exact (reads_byte 0xcc).bind (reads_number h8)
  · exact (reads_byte 0xcd).bind (reads_number (show value < 256 ^ 2 by omega))
  · exact (reads_byte 0xce).bind (reads_number (show value < 256 ^ 4 by omega))
  · exact (reads_byte 0xcf).bind (reads_number (show value < 256 ^ 8 by omega))

/-- The first byte of a negative integer of five bits is its two's complement. -/
theorem reads_small_neg {value : ℤ} (h : -2 ^ 5 ≤ value) (hneg : value < 0) :
    Reads readInt (beBytes 1 (value % 2 ^ 64).toNat) value := by
  have hword : ((UInt8.ofNat (value % 2 ^ 64).toNat).toNat : ℤ) = value + 256 := by
    rw [UInt8.toNat_ofNat']
    omega
  have hfirst : (0xe0 : UInt8) ≤ UInt8.ofNat (value % 2 ^ 64).toNat := by
    rw [UInt8.le_iff_toNat_le]
    show 224 ≤ _
    omega
  have hread : Reads readInt ([UInt8.ofNat (value % 2 ^ 64).toNat] ++ [])
      (((UInt8.ofNat (value % 2 ^ 64).toNat).toNat : ℤ) - 256) :=
    (reads_byte _).bind (.ite_pos hfirst (.pure _))
  rwa [hword, add_sub_cancel_right] at hread

/-- An integer that is not negative is read as an integer. -/
theorem reads_int_of_nonneg {value : ℕ} (h : value < 2 ^ 64) :
    Reads readInt (packUInt value) (value : ℤ) := by
  unfold packUInt
  split_ifs with h7 h8 h16 h32
  · have hnat : (UInt8.ofNat value).toNat = value := by
      rw [UInt8.toNat_ofNat']
      omega
    have hneg : ¬ (0xe0 : UInt8) ≤ UInt8.ofNat value := by
      rw [UInt8.le_iff_toNat_le, hnat]
      exact Nat.not_le.mpr (h7.trans (by decide))
    have hpos : UInt8.ofNat value < 0xd0 := by
      rw [UInt8.lt_iff_toNat_lt, hnat]
      exact h7.trans (by decide)
    refine (reads_byte _).bind ?_
    rw [if_neg hneg, if_pos hpos]
    exact (reads_small h7).bind_pure
  · exact (reads_byte 0xcc).bind (reads_number h8).bind_pure
  · exact (reads_byte 0xcd).bind (reads_number (show value < 256 ^ 2 by omega)).bind_pure
  · exact (reads_byte 0xce).bind (reads_number (show value < 256 ^ 4 by omega)).bind_pure
  · exact (reads_byte 0xcf).bind (reads_number (show value < 256 ^ 8 by omega)).bind_pure

/-- **Every integer of 64 bits, with or without a sign, is read back.** -/
theorem reads_int {value : ℤ} (hlow : -2 ^ 63 ≤ value) (hhigh : value < 2 ^ 64) :
    Reads readInt (packInt value) value := by
  unfold packInt
  dsimp only
  split_ifs with h0 h5 h7 h15 h31
  · have hread : Reads readInt (packUInt value.toNat) (value.toNat : ℤ) :=
      reads_int_of_nonneg (by omega)
    rwa [Int.toNat_of_nonneg h0] at hread
  · exact reads_small_neg h5 (by omega)
  · exact (reads_byte 0xd0).bind (reads_signed (by omega) (by omega))
  · exact (reads_byte 0xd1).bind (reads_signed (by omega) (by omega))
  · exact (reads_byte 0xd2).bind (reads_signed (by omega) (by omega))
  · exact (reads_byte 0xd3).bind (reads_signed (by omega) (by omega))

/-- A truth value is read back. -/
theorem reads_bool (value : Bool) : Reads readBool (packBool value) value := by
  cases value with
  | false => exact (reads_byte 0xc2).bind (.pure false)
  | true => exact (reads_byte 0xc3).bind (.pure true)

/-- A byte string of less than 2^32 bytes is read back. -/
theorem reads_bin {data : List UInt8} (h : data.length < 2 ^ 32) :
    Reads readBin (packBin data) data := by
  unfold packBin
  split_ifs with h8 h16
  · exact (reads_byte 0xc4).bind ((reads_number h8).bind (reads_takeBytes data))
  · exact (reads_byte 0xc5).bind
      ((reads_number (show data.length < 256 ^ 2 by omega)).bind (reads_takeBytes data))
  · exact (reads_byte 0xc6).bind
      ((reads_number (show data.length < 256 ^ 4 by omega)).bind (reads_takeBytes data))

/-- An array of less than 2^32 elements is read as its elements are. -/
theorem reads_elements {elements : List (List UInt8)} {r : ℕ → Reader α} {a : α}
    (hcount : elements.length < 2 ^ 32) (h : Reads (r elements.length) elements.flatten a) :
    Reads (arrayHeader >>= r) (packArray elements) a := by
  unfold packArray
  refine Reads.bind ?_ h
  split_ifs with h4 h16
  · have hnat : (UInt8.ofNat (0x90 + elements.length)).toNat = 0x90 + elements.length := by
      rw [UInt8.toNat_ofNat']
      omega
    have hshort : (0x90 : UInt8) ≤ UInt8.ofNat (0x90 + elements.length) ∧
        UInt8.ofNat (0x90 + elements.length) < 0xa0 := by
      rw [UInt8.le_iff_toNat_le, UInt8.lt_iff_toNat_lt, hnat]
      exact ⟨Nat.le_add_right _ _, Nat.add_lt_add_left h4 _⟩
    have hread : Reads arrayHeader ([UInt8.ofNat (0x90 + elements.length)] ++ [])
        ((UInt8.ofNat (0x90 + elements.length)).toNat - 0x90) :=
      (reads_byte _).bind (.ite_pos hshort (.pure _))
    rwa [hnat, Nat.add_sub_cancel_left] at hread
  · exact (reads_byte 0xdc).bind (reads_number (show elements.length < 256 ^ 2 by omega))
  · exact (reads_byte 0xdd).bind (reads_number (show elements.length < 256 ^ 4 by omega))

/-- A structure is read back as its fields are. -/
theorem reads_tuple (elements : List (List UInt8)) {fields : Reader α} {a : α}
    (hcount : elements.length < 2 ^ 32) (h : Reads fields elements.flatten a) :
    Reads (tuple elements.length fields) (packArray elements) a :=
  reads_elements hcount (.ite_pos rfl h)

/-- Elements that are each read back are read back in a row. -/
theorem reads_many {element : Reader α} {pack : α → List UInt8} {values : List α}
    (h : ∀ a ∈ values, Reads element (pack a) a) :
    Reads (many element values.length) (values.map pack).flatten values := by
  induction values with
  | nil => exact .pure _
  | cons a others ih =>
    have hothers := ih fun b hb => h b (List.mem_cons_of_mem _ hb)
    exact (h a List.mem_cons_self).bind hothers.bind_pure

/-- An array of less than 2^32 elements that are each read back is read back. -/
theorem reads_array {element : Reader α} {pack : α → List UInt8} {values : List α}
    (hcount : values.length < 2 ^ 32) (h : ∀ a ∈ values, Reads element (pack a) a) :
    Reads (readArray element) (packArray (values.map pack)) values := by
  refine reads_elements (by rwa [List.length_map]) ?_
  rw [List.length_map]
  exact reads_many h

end MsgPack

end MorphlingC.Library
