import Mathlib.Data.Fintype.Pi
import Mathlib.Tactic.IntervalCases

/-!
# The guidance: which replica serves which key positions

The key space is cut into positions, one per group, and the guidance gives each of the
`n` replicas a range of positions, packed with its alive flag into one 32-bit word
(`core/guidance.h`).  `n` is the compile-time constant `HARD_CODE_REPLICAS`.

The words are bit vectors of the width of the source's types, so that masks, shifts and
truncations are the ones of the code.
-/

set_option autoImplicit false

namespace MorphlingC.Model

/-- `DEFAULT_KEY_SPACE`: the number of key positions, and of groups.
SOURCE: core/morphling.h:10 -/
def defaultKeySpace : ℕ := 256

/-- `DEFAULT_KEY_MASK`. SOURCE: core/morphling.h:11 -/
def defaultKeyMask : ℕ := 0xff00

/-- `DEFAULT_MASK_OFFSET`. SOURCE: core/morphling.h:12 -/
def defaultMaskOffset : ℕ := 8

/-- The position of a key hash, which is also the number of its group.
SOURCE: core/morphling.cpp:5-7 -/
def calcKeyPos (keyHash : ℕ) : ℕ := (keyHash &&& defaultKeyMask) >>> defaultMaskOffset

/-- Every key hash has a position in the key space. -/
theorem calcKeyPos_lt (keyHash : ℕ) : calcKeyPos keyHash < defaultKeySpace := by
  have h : keyHash &&& defaultKeyMask ≤ defaultKeyMask := Nat.and_le_right
  unfold calcKeyPos
  rw [Nat.shiftRight_eq_div_pow]
  unfold defaultKeyMask defaultMaskOffset defaultKeySpace at *
  omega

/-- One replica's word: `0x000000FF` is the start position, `0x0000FF00` the end
position, `0x00FF0000` the alive flag. SOURCE: core/guidance.h:22-32 -/
structure NodeStatus where
  status : BitVec 32 := 0
deriving DecidableEq, Repr

namespace NodeStatus

/-- SOURCE: core/guidance.h:34-36 -/
def getStartPos (s : NodeStatus) : BitVec 8 := (s.status &&& 0xFF#32).setWidth 8

/-- SOURCE: core/guidance.h:37-39 -/
def getEndPos (s : NodeStatus) : BitVec 8 := ((s.status &&& 0xFF00#32) >>> 8).setWidth 8

/-- SOURCE: core/guidance.h:40-42 -/
def alive (s : NodeStatus) : BitVec 8 := ((s.status &&& 0xFF0000#32) >>> 16).setWidth 8

/-- Both positions are packed into 16 bits and replace the low half of the word.
SOURCE: core/guidance.h:43-47 -/
def setPos (s : NodeStatus) (startPos endPos : BitVec 8) : NodeStatus :=
  let pos : BitVec 16 := (startPos.setWidth 32 ||| (endPos.setWidth 32 <<< 8)).setWidth 16
  ⟨(s.status &&& 0xFFFF0000#32) ||| pos.setWidth 32⟩

/-- SOURCE: core/guidance.h:48-51 -/
def setAlive (s : NodeStatus) : NodeStatus :=
  ⟨(s.status &&& 0x0000FFFF#32) ||| 0x00010000#32⟩

/-- A range whose start exceeds its end wraps around. SOURCE: core/guidance.h:55-73 -/
def posIsIn (s : NodeStatus) (pos : BitVec 8) : Bool :=
  if s.alive = 0 then false
  else if s.getStartPos > s.getEndPos then s.getStartPos ≤ pos || pos ≤ s.getEndPos
  else s.getStartPos ≤ pos && pos ≤ s.getEndPos

/-! What the setters of a word do is checked bit by bit. -/

@[simp] theorem setPos_getStartPos (s : NodeStatus) (startPos endPos : BitVec 8) :
    (s.setPos startPos endPos).getStartPos = startPos := by
  apply BitVec.eq_of_getLsbD_eq
  intro i hi
  unfold getStartPos setPos
  interval_cases i <;> simp

@[simp] theorem setPos_getEndPos (s : NodeStatus) (startPos endPos : BitVec 8) :
    (s.setPos startPos endPos).getEndPos = endPos := by
  apply BitVec.eq_of_getLsbD_eq
  intro i hi
  unfold getEndPos setPos
  interval_cases i <;> simp

@[simp] theorem setAlive_getStartPos (s : NodeStatus) :
    s.setAlive.getStartPos = s.getStartPos := by
  apply BitVec.eq_of_getLsbD_eq
  intro i hi
  unfold getStartPos setAlive
  interval_cases i <;> simp

@[simp] theorem setAlive_getEndPos (s : NodeStatus) : s.setAlive.getEndPos = s.getEndPos := by
  apply BitVec.eq_of_getLsbD_eq
  intro i hi
  unfold getEndPos setAlive
  interval_cases i <;> simp

@[simp] theorem setAlive_alive (s : NodeStatus) : s.setAlive.alive = 1 := by
  apply BitVec.eq_of_getLsbD_eq
  intro i hi
  unfold alive setAlive
  interval_cases i <;> simp

/-- An alive node whose range does not wrap around has the positions from its start to its
end. -/
theorem posIsIn_iff {s : NodeStatus} (halive : s.alive = 1) (hle : s.getStartPos ≤ s.getEndPos)
    (pos : BitVec 8) : s.posIsIn pos = true ↔ s.getStartPos ≤ pos ∧ pos ≤ s.getEndPos := by
  unfold posIsIn
  have hwraps : ¬ s.getStartPos > s.getEndPos := BitVec.not_lt.mpr hle
  rw [halive, if_neg (by decide), if_neg hwraps, Bool.and_eq_true, decide_eq_true_iff,
    decide_eq_true_iff]

end NodeStatus

/-- What clients and replicas know of the placement of keys.
SOURCE: core/guidance.h:77-84 -/
structure Guidance (n : ℕ) where
  epoch : ℕ := 0
  status : BitVec 32 := 0
  cluster : Fin n → NodeStatus := fun _ => {}
deriving DecidableEq

namespace Guidance

variable {n : ℕ}

/-- SOURCE: core/guidance.h:85-87 -/
def getClusterSize (g : Guidance n) : BitVec 8 := ((g.status &&& 0xFF00#32) >>> 8).setWidth 8

/-- SOURCE: core/guidance.h:88-90 -/
def getAliveNum (g : Guidance n) : BitVec 8 := (g.status &&& 0xFF#32).setWidth 8

/-- SOURCE: core/guidance.h:91-94 -/
def setClusterSize (g : Guidance n) (size : BitVec 8) : Guidance n :=
  { g with status := (g.status &&& 0x00FF#32) ||| (size.setWidth 32 <<< 8) }

/-- SOURCE: core/guidance.h:95-98 -/
def setAliveNum (g : Guidance n) (num : BitVec 8) : Guidance n :=
  { g with status := (g.status &&& 0xFF00#32) ||| num.setWidth 32 }

/-- The first node whose range has the position, or none (`-1` in the source).
SOURCE: core/guidance.h:99-106 -/
def mapNodeId (g : Guidance n) (pos : BitVec 8) : Option (Fin n) :=
  (List.finRange n).find? fun id => (g.cluster id).posIsIn pos

/-- The node that serves the position of a key hash; the `int` position is passed as a
`uint8_t`. -/
def nodeOfKey (g : Guidance n) (keyHash : ℕ) : Option (Fin n) :=
  g.mapNodeId (BitVec.ofNat 8 (calcKeyPos keyHash))

/-- The guidance every replica builds when it starts: the key space is cut into `n`
consecutive ranges, each node alive.  The body is the one that runs after the check that
the number of peers is `HARD_CODE_REPLICAS`. SOURCE: core/morphling.cpp:58-77 -/
def initLocalGuidance (g : Guidance n) (keySpace : ℕ := defaultKeySpace) : Guidance n :=
  let clusterSize : BitVec 32 := BitVec.ofNat 32 n
  let g := { g with epoch := 1 }
  let g := g.setClusterSize (clusterSize.setWidth 8)
  let g := g.setAliveNum (clusterSize.setWidth 8)
  { g with
    cluster := fun i =>
      let startKeyPos : BitVec 32 := BitVec.ofNat 32 (i * keySpace) / clusterSize
      let endKeyPos : BitVec 32 := BitVec.ofNat 32 ((i + 1) * keySpace) / clusterSize - 1
      ((g.cluster i).setPos (startKeyPos.setWidth 8) (endKeyPos.setWidth 8)).setAlive }

/-- Setting the number of alive nodes leaves the cluster size as it was set. -/
theorem setAliveNum_getClusterSize (g : Guidance n) (size num : BitVec 8) :
    ((g.setClusterSize size).setAliveNum num).getClusterSize = size := by
  apply BitVec.eq_of_getLsbD_eq
  intro i hi
  unfold setClusterSize setAliveNum getClusterSize
  interval_cases i <;> simp

theorem setAliveNum_getAliveNum (g : Guidance n) (num : BitVec 8) :
    (g.setAliveNum num).getAliveNum = num := by
  apply BitVec.eq_of_getLsbD_eq
  intro i hi
  unfold setAliveNum getAliveNum
  interval_cases i <;> simp

/-- A position that only one node has is mapped to that node. -/
theorem mapNodeId_of_unique {g : Guidance n} {pos : BitVec 8} {i : Fin n}
    (h : ∀ j, (g.cluster j).posIsIn pos = true ↔ j = i) : g.mapNodeId pos = some i := by
  unfold mapNodeId
  cases hfind : (List.finRange n).find? fun id => (g.cluster id).posIsIn pos with
  | none =>
    have hnone := List.find?_eq_none.mp hfind i (List.mem_finRange i)
    exact absurd ((h i).mpr rfl) hnone
  | some j =>
    rw [(h j).mp (List.find?_some (p := fun id => (g.cluster id).posIsIn pos) hfind)]

/-- The initial guidance is of epoch 1. -/
@[simp] theorem initLocalGuidance_epoch (g : Guidance n) (keySpace : ℕ) :
    (g.initLocalGuidance keySpace).epoch = 1 := rfl

end Guidance

/-- Three replicas share the default key space as `0..84`, `85..169` and `170..255`. -/
example : (List.map ((({} : Guidance 3).initLocalGuidance).nodeOfKey)
    [0x0000, 0x5499, 0x5500, 0xa900, 0xaa00, 0xff00]) =
      [some 0, some 0, some 1, some 1, some 2, some 2] := by decide

end MorphlingC.Model
