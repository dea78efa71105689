import MorphlingC.Library.EvenSplit
import MorphlingC.Model.Guidance

/-!
# The initial guidance partitions the keys

`init_local_guidance` gives each node a range of an even split of the key space, as long as
there are no more nodes than positions and a position fits into a byte: no number computed on
the way is cut off, and no range wraps around.  So every position, and with the default key
space every key, is served by exactly one node, the same for whoever holds the guidance.
-/

set_option autoImplicit false

namespace MorphlingC.Analysis

open MorphlingC.Library MorphlingC.Model

variable {n : ℕ}

/-- The positions of the key space that are in a node's range. -/
def ownedPositions (g : Guidance n) (keySpace : ℕ) (i : Fin n) : Finset ℕ :=
  (Finset.range keySpace).filter fun p => (g.cluster i).posIsIn (BitVec.ofNat 8 p) = true

/-! ## One node -/

/-- INTERNAL: the divisions of `init_local_guidance` are those of the even split.
SOURCE: core/morphling.cpp:72-73 -/
theorem keyPos_toNat {keySpace i : ℕ} (hn : n ≤ 255) (hbyte : keySpace ≤ 256) (hi : i ≤ n) :
    (BitVec.ofNat 32 (i * keySpace) / BitVec.ofNat 32 n).toNat = splitStart keySpace n i := by
  have hprod : i * keySpace ≤ 255 * 256 := Nat.mul_le_mul (hi.trans hn) hbyte
  rw [BitVec.toNat_udiv, BitVec.toNat_ofNat, BitVec.toNat_ofNat,
    Nat.mod_eq_of_lt (by omega), Nat.mod_eq_of_lt (by omega)]
  rfl

section Node

variable {keySpace : ℕ} (hn : n ≤ 255) (hspace : n ≤ keySpace) (hbyte : keySpace ≤ 256)
include hn hspace hbyte

/-- INTERNAL: the word of a node after `init_local_guidance`: it is alive, and its range is
that of the even split. SOURCE: core/morphling.cpp:71-76 -/
theorem initLocalGuidance_node (g : Guidance n) (i : Fin n) :
    ((g.initLocalGuidance keySpace).cluster i).alive = 1 ∧
      ((g.initLocalGuidance keySpace).cluster i).getStartPos.toNat =
        splitStart keySpace n i ∧
      ((g.initLocalGuidance keySpace).cluster i).getEndPos.toNat =
        splitStart keySpace n (i + 1) - 1 := by
  have hpos : 0 < n := i.pos
  have hstart := keyPos_toNat hn hbyte i.isLt.le
  have hend := keyPos_toNat (i := i + 1) hn hbyte i.isLt
  have hnonempty := splitStart_lt_succ hpos hspace i
  have htop : splitStart keySpace n (i + 1) ≤ keySpace := splitStart_le hpos i.isLt
  unfold Guidance.initLocalGuidance
  dsimp only
  refine ⟨NodeStatus.setAlive_alive _, ?_, ?_⟩
  · rw [NodeStatus.setAlive_getStartPos, NodeStatus.setPos_getStartPos, BitVec.toNat_setWidth,
      hstart, Nat.mod_eq_of_lt (by omega)]
  · rw [NodeStatus.setAlive_getEndPos, NodeStatus.setPos_getEndPos, BitVec.toNat_setWidth,
      BitVec.toNat_sub_of_le (by rw [BitVec.le_def, hend]; exact hnonempty.pos), hend,
      show (1 : BitVec 32).toNat = 1 from rfl, Nat.mod_eq_of_lt (by omega)]

/-- INTERNAL: `pos_is_in` is true for the positions of the node's range.
SOURCE: core/guidance.h:55-73 -/
theorem posIsIn_initLocalGuidance (g : Guidance n) (i : Fin n) {p : ℕ} (hp : p < keySpace) :
    ((g.initLocalGuidance keySpace).cluster i).posIsIn (BitVec.ofNat 8 p) = true ↔
      p ∈ splitRange keySpace n i := by
  have hnonempty := splitStart_lt_succ i.pos hspace i
  obtain ⟨halive, hstart, hend⟩ := initLocalGuidance_node hn hspace hbyte g i
  rw [NodeStatus.posIsIn_iff halive (by rw [BitVec.le_def, hstart, hend]; omega),
    BitVec.le_def, BitVec.le_def, hstart, hend, BitVec.toNat_ofNat,
    Nat.mod_eq_of_lt (show p < 2 ^ 8 by omega), mem_splitRange]
  omega

/-- INTERNAL: the positions of a node are its range. -/
theorem ownedPositions_initLocalGuidance (g : Guidance n) (i : Fin n) :
    ownedPositions (g.initLocalGuidance keySpace) keySpace i = splitRange keySpace n i := by
  ext p
  unfold ownedPositions
  rw [Finset.mem_filter, Finset.mem_range]
  constructor
  · rintro ⟨hp, hin⟩
    exact (posIsIn_initLocalGuidance hn hspace hbyte g i hp).mp hin
  · intro hin
    have hp : p < keySpace :=
      (mem_splitRange.mp hin).2.trans_le (splitStart_le i.pos i.isLt)
    exact ⟨hp, (posIsIn_initLocalGuidance hn hspace hbyte g i hp).mpr hin⟩

/-- INTERNAL: exactly one node has a position, and the position is mapped to it.
SOURCE: core/guidance.h:99-106 -/
theorem owner_initLocalGuidance (g : Guidance n) {p : ℕ} (hpos : 0 < n) (hp : p < keySpace) :
    ∃ i : Fin n, IsGreatest {j : ℕ | j * keySpace / n ≤ p} i ∧
      (∀ j, ((g.initLocalGuidance keySpace).cluster j).posIsIn (BitVec.ofNat 8 p) = true ↔
        j = i) ∧
      (g.initLocalGuidance keySpace).mapNodeId (BitVec.ofNat 8 p) = some i := by
  obtain ⟨i, hi, hmem⟩ := exists_mem_splitRange hpos hp
  have hone : ∀ j, ((g.initLocalGuidance keySpace).cluster j).posIsIn (BitVec.ofNat 8 p) =
      true ↔ j = ⟨i, hi⟩ := by
    intro j
    rw [posIsIn_initLocalGuidance hn hspace hbyte g j hp]
    constructor
    · intro hj
      exact Fin.ext (splitRange_unique hj hmem)
    · rintro rfl
      exact hmem
  exact ⟨⟨i, hi⟩, isGreatest_of_mem_splitRange hmem, hone, Guidance.mapNodeId_of_unique hone⟩

end Node

/-! ## The whole key space -/

/-- **The initial guidance partitions the keys.**  For every number of replicas that fits into
a byte and every key space of at least as many and at most 256 positions: every position is in
the range of exactly one node, the last one that does not begin behind it, to which it is
mapped; no node is without positions, and their numbers differ by one at most; and the number
of replicas reads back.  With 256 positions every key hash is routed to exactly one replica,
which is the same in any two initial guidances, whatever was in them before. -/
theorem initial_guidance_partitions (n keySpace : ℕ) (hpos : 1 ≤ n) (hn : n ≤ 255)
    (hspace : n ≤ keySpace) (hbyte : keySpace ≤ 256) (g g' : Guidance n) :
    (∀ p < keySpace, ∃ i : Fin n, IsGreatest {j : ℕ | j * keySpace / n ≤ p} i ∧
      (∀ j, ((g.initLocalGuidance keySpace).cluster j).posIsIn (BitVec.ofNat 8 p) = true ↔
        j = i) ∧
      (g.initLocalGuidance keySpace).mapNodeId (BitVec.ofNat 8 p) = some i) ∧
    (∀ i, (ownedPositions (g.initLocalGuidance keySpace) keySpace i).Nonempty) ∧
    (∀ i j, (ownedPositions (g.initLocalGuidance keySpace) keySpace i).card ≤
      (ownedPositions (g.initLocalGuidance keySpace) keySpace j).card + 1) ∧
    (g.initLocalGuidance keySpace).getClusterSize.toNat = n ∧
    (g.initLocalGuidance keySpace).getAliveNum.toNat = n ∧
    (keySpace = 256 → ∀ keyHash, ∃ i : Fin n,
      (∀ j, ((g.initLocalGuidance keySpace).cluster j).posIsIn
        (BitVec.ofNat 8 (calcKeyPos keyHash)) = true ↔ j = i) ∧
      (g.initLocalGuidance keySpace).nodeOfKey keyHash = some i ∧
      (g'.initLocalGuidance keySpace).nodeOfKey keyHash = some i) := by
  have hcount : ((BitVec.ofNat 32 n).setWidth 8).toNat = n := by
    rw [BitVec.toNat_setWidth, BitVec.toNat_ofNat, Nat.mod_eq_of_lt (by omega),
      Nat.mod_eq_of_lt (by omega)]
  refine ⟨?_, ?_, ?_, ?_, ?_, ?_⟩
  · intro p hp
    exact owner_initLocalGuidance hn hspace hbyte g hpos hp
  · intro i
    rw [ownedPositions_initLocalGuidance hn hspace hbyte]
    exact Finset.nonempty_Ico.mpr (splitStart_lt_succ hpos hspace i)
  · intro i j
    rw [ownedPositions_initLocalGuidance hn hspace hbyte,
      ownedPositions_initLocalGuidance hn hspace hbyte]
    have hi := (splitRange_card (K := keySpace) hpos i).2
    have hj := (splitRange_card (K := keySpace) hpos j).1
    exact hi.trans (Nat.succ_le_succ hj)
  · have hsize : (g.initLocalGuidance keySpace).getClusterSize = (BitVec.ofNat 32 n).setWidth 8 :=
      Guidance.setAliveNum_getClusterSize { g with epoch := 1 } _ _
    rw [hsize, hcount]
  · have hnum : (g.initLocalGuidance keySpace).getAliveNum = (BitVec.ofNat 32 n).setWidth 8 :=
      Guidance.setAliveNum_getAliveNum (Guidance.setClusterSize { g with epoch := 1 } _) _
    rw [hnum, hcount]
  · rintro rfl keyHash
    have hkey : calcKeyPos keyHash < 256 := calcKeyPos_lt keyHash
    obtain ⟨i, hi, hone, hmap⟩ := owner_initLocalGuidance hn hspace hbyte g hpos hkey
    obtain ⟨i', hi', -, hmap'⟩ := owner_initLocalGuidance hn hspace hbyte g' hpos hkey
    have hsame : i' = i := Fin.ext (hi'.unique hi)
    rw [hsame] at hmap'
    exact ⟨i, hone, hmap, hmap'⟩

/-- The three replicas and the default key space: they have the positions up to 84, from 85 to
169 and from 170 on. -/
theorem initial_guidance_partitions_three :
    let guidance := ({} : Guidance 3).initLocalGuidance 256
    (∀ p < 256, ∃ i : Fin 3, (∀ j, (guidance.cluster j).posIsIn (BitVec.ofNat 8 p) = true ↔ j = i) ∧
      guidance.mapNodeId (BitVec.ofNat 8 p) = some i) ∧
    (∀ i, (ownedPositions guidance 256 i).Nonempty) ∧
    (∀ i j, (ownedPositions guidance 256 i).card ≤ (ownedPositions guidance 256 j).card + 1) ∧
    ownedPositions guidance 256 0 = Finset.Ico 0 85 ∧
    ownedPositions guidance 256 1 = Finset.Ico 85 170 ∧
    ownedPositions guidance 256 2 = Finset.Ico 170 256 ∧
    guidance.getClusterSize.toNat = 3 ∧ guidance.getAliveNum.toNat = 3 := by
  obtain ⟨hone, hsome, heven, hsize, halive, -⟩ :=
    initial_guidance_partitions 3 256 (by decide) (by decide) (by decide) (by decide) {} {}
  have hrange : ∀ i : Fin 3, ownedPositions (({} : Guidance 3).initLocalGuidance 256) 256 i =
      splitRange 256 3 i :=
    ownedPositions_initLocalGuidance (by decide) (by decide) (by decide) {}
  intro guidance
  refine ⟨fun p hp => ?_, hsome, heven, hrange 0, hrange 1, hrange 2, hsize, halive⟩
  obtain ⟨i, -, howns, hmap⟩ := hone p hp
  exact ⟨i, howns, hmap⟩

end MorphlingC.Analysis
