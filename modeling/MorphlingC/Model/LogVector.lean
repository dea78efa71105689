import MorphlingC.Library.GrowVector
import MorphlingC.Model.Log

/-!
# The vector of the log

`SMRLog::append` and `SMRLog::truncate` on the vector they work on, with its references and
the moves of its elements, of which `SMRLog` of `MorphlingC.Model.Log` knows only the room that
is reserved.  `append` takes a reference to the last entry before it pushes the new one, and
reads the last index through it afterwards.
-/

set_option autoImplicit false

namespace MorphlingC.Model

open MorphlingC.Library

/-- The entries of a log, in a vector. SOURCE: core/smr.h:48 -/
abbrev LogVector := GrowVector Entry

/-- The ways a call on the vector can fail to return. -/
inductive VectorFault where
  /-- The value of a reference is asked for after the elements have moved.
  SOURCE: core/smr.cpp:37-42 -/
  | dangling
  /-- "can not find entry index 0 in log". SOURCE: core/smr.cpp:13-15 -/
  | entryIndexZero
  /-- An iterator past the end of the vector; in 64 bits it may come out anywhere.
  SOURCE: core/smr.cpp:53 -/
  | iteratorPastEnd
deriving DecidableEq, Repr

/-- What the log without the vector calls it. -/
def VectorFault.fault : VectorFault → Fault
  | .dangling => .lastEntryMoved
  | .entryIndexZero => .entryIndexZero
  | .iteratorPastEnd => .iteratorPastEnd

namespace LogVector

/-- SOURCE: core/smr.cpp:10 -/
def new : LogVector := GrowVector.reserved reservedEntries

/-- SOURCE: core/smr.cpp:100-108 -/
def lastIndex (v : LogVector) : ℕ := (v.elements.getLast?.getD dummyEntry).index

/-- The value of a reference. -/
def deref (v : LogVector) (r : ElementRef) : Except VectorFault Entry :=
  match v.read r with
  | none => .error .dangling
  | some e => .ok e

/-- Assign to a field of the entry that a reference refers to. -/
def assign (v : LogVector) (r : ElementRef) (set : Entry → Entry) :
    Except VectorFault LogVector := do
  let e ← deref v r
  match v.write r (set e) with
  | none => .error .dangling
  | some v => .ok v

variable (grow : Growth)

/-- SOURCE: core/smr.cpp:30-49 -/
def append (v : LogVector) (e : Entry) (epoch : ℕ := e.epoch) :
    Except VectorFault (LogVector × ℕ) :=
  if v.elements.length = 0 then do
    let (v, newE) := v.push grow { data := e.data }
    let v ← assign v newE fun new => { new with index := 1 }
    let v ← assign v newE fun new => { new with epoch := epoch }
    .ok (v, 1)
  else do
    let lastE := v.back
    let (v, newE) := v.push grow { data := e.data }
    let last ← deref v lastE
    let v ← assign v newE fun new => { new with index := last.index + 1 }
    let v ← assign v newE fun new => { new with epoch := epoch }
    let new ← deref v newE
    .ok (v, new.index)

/-- Entries are popped off the end until the position of the index is the end.
SOURCE: core/smr.cpp:51-57 -/
def truncate (v : LogVector) (tIdx : ℕ) : Except VectorFault LogVector :=
  match SMRLog.entryPos tIdx with
  | .error _ => .error .entryIndexZero
  | .ok pos => if v.elements.length < pos then .error .iteratorPastEnd else .ok (v.keepFirst pos)

/-! ## What a call does -/

/-- The value of the reference to the new entry. -/
@[simp] theorem deref_push_new (v : LogVector) (a b : Entry) :
    deref (v.push grow a).1 (v.push grow b).2 = .ok a := by
  simp [deref]

/-- Assigning to the new entry is as if the entry had been pushed so. -/
@[simp] theorem assign_push_new (v : LogVector) (a b : Entry) (set : Entry → Entry) :
    assign (v.push grow a).1 (v.push grow b).2 set = .ok (v.push grow (set a)).1 := by
  simp [assign]

/-- An append to an empty log reads nothing. -/
theorem append_of_empty {v : LogVector} (h : v.elements = []) (e : Entry) (epoch : ℕ) :
    append grow v e epoch = .ok ((v.push grow ⟨epoch, 1, e.data⟩).1, 1) := by
  unfold append
  rw [if_pos (by rw [h]; rfl)]
  simp

/-- An append with room for the entry numbers it after the last one. -/
theorem append_of_room {v : LogVector} (hne : v.elements ≠ [])
    (hroom : v.elements.length < v.capacity) (e : Entry) (epoch : ℕ) :
    append grow v e epoch =
      .ok ((v.push grow ⟨epoch, lastIndex v + 1, e.data⟩).1, lastIndex v + 1) := by
  obtain ⟨last, hlast⟩ := List.getLast?_isSome.mpr hne |> Option.isSome_iff_exists.mp
  have hread := GrowVector.read_back_of_room grow hroom hne { data := e.data }
  unfold append lastIndex
  rw [if_neg (by simpa using hne)]
  simp [deref, hread, hlast]

/-- An append without room reads the last index of a place that the entries have left. -/
theorem append_of_full {v : LogVector} (hne : v.elements ≠ [])
    (hfull : v.capacity ≤ v.elements.length) (e : Entry) (epoch : ℕ) :
    append grow v e epoch = .error .dangling := by
  have hread := GrowVector.read_back_of_full grow hfull { data := e.data }
  unfold append
  rw [if_neg (by simpa using hne)]
  simp [deref, hread]

/-- An append that returns has numbered the entry after the last one. -/
theorem append_ok {v v' : LogVector} {e : Entry} {epoch index : ℕ}
    (h : append grow v e epoch = .ok (v', index)) :
    index = lastIndex v + 1 ∧
      v'.elements = v.elements ++ [⟨epoch, lastIndex v + 1, e.data⟩] := by
  by_cases hempty : v.elements = []
  · have hzero : lastIndex v = 0 := by simp [lastIndex, hempty]
    rw [append_of_empty grow hempty] at h
    cases h
    rw [hzero]
    exact ⟨rfl, GrowVector.push_elements grow v _⟩
  · rcases Nat.lt_or_ge v.elements.length v.capacity with hroom | hfull
    · rw [append_of_room grow hempty hroom] at h
      cases h
      exact ⟨rfl, GrowVector.push_elements grow v _⟩
    · rw [append_of_full grow hempty hfull] at h
      cases h

end LogVector

/-! ## Runs on one log -/

/-- A call that changes the entries of a log. -/
inductive LogCall where
  /-- SOURCE: core/smr.cpp:47-49 -/
  | append (e : Entry)
  /-- SOURCE: core/smr.cpp:30-45 -/
  | appendUnder (e : Entry) (epoch : ℕ)
  /-- SOURCE: core/smr.cpp:51-57 -/
  | truncate (tIdx : ℕ)
deriving DecidableEq, Repr

/-- The call is one of the two forms of `append`. -/
def LogCall.appends : LogCall → Bool
  | .truncate _ => false
  | _ => true

/-- One call on the vector; an append emits the index it returns. -/
def LogVector.call (grow : Growth) : Machine LogVector LogCall ℕ VectorFault
  | v, .append e => do
    let (v, index) ← LogVector.append grow v e
    .ok (v, [index])
  | v, .appendUnder e epoch => do
    let (v, index) ← LogVector.append grow v e epoch
    .ok (v, [index])
  | v, .truncate tIdx => do
    let v ← LogVector.truncate v tIdx
    .ok (v, [])

/-- One call on the log without its vector; an append emits the index it returns. -/
def SMRLog.call : Machine SMRLog LogCall ℕ Fault
  | l, .append e => do
    let (l, index) ← l.append e
    .ok (l, [index])
  | l, .appendUnder e epoch => do
    let (l, index) ← l.append e epoch
    .ok (l, [index])
  | l, .truncate tIdx => do
    let l ← l.truncate tIdx
    .ok (l, [])

end MorphlingC.Model
