import MorphlingC.Model.Message
import Mathlib.Logic.Function.Basic

/-!
# The vote record

`EntryVoteRecord` of `core/smr.h`: for each index a vector with one flag per peer, and the
set of indices that have reached the quorum.  The two hash maps are functions from the
index; a vector that is not there yet reads as all flags down, which is what `vote` puts
there first.  `m_entry_complete` maps every key it has to `true`, so it is its key set.

That every vector has one flag per peer and that the quorum is a majority are fields of
the structure, established by `init`.
-/

set_option autoImplicit false

namespace MorphlingC.Model

/-- SOURCE: core/smr.h:84-94 -/
structure EntryVoteRecord where
  records : ℕ → Option (List Bool)
  entryComplete : ℕ → Bool
  quorum : ℕ
  peerNum : ℕ
  sized : ∀ index v, records index = some v → v.length = peerNum
  majority : quorum = peerNum / 2 + 1

namespace EntryVoteRecord

/-- SOURCE: core/smr.cpp:110-113 -/
def init (num : ℕ) : EntryVoteRecord where
  records := fun _ => none
  entryComplete := fun _ => false
  quorum := num / 2 + 1
  peerNum := num
  sized := by intro _ _ h; cases h
  majority := rfl

/-- The vector of an index, all flags down when there is none yet.
SOURCE: core/smr.cpp:121-126 -/
def record (r : EntryVoteRecord) (index : ℕ) : List Bool :=
  (r.records index).getD (List.replicate r.peerNum false)

/-- Every vector has one flag per peer. -/
@[simp] theorem record_length (r : EntryVoteRecord) (index : ℕ) :
    (r.record index).length = r.peerNum := by
  unfold record
  cases h : r.records index with
  | none => simp
  | some v => simpa using r.sized index v h

/-- Raise the flag of a peer in the vector of an index. SOURCE: core/smr.cpp:121-127 -/
def raise (r : EntryVoteRecord) (id index : ℕ) : EntryVoteRecord :=
  { r with
    records := Function.update r.records index (some ((r.record index).set id true))
    sized := by
      intro i v hv
      by_cases hi : i = index
      · subst hi
        rw [Function.update_self, Option.some.injEq] at hv
        subst hv
        simp
      · rw [Function.update_of_ne hi] at hv
        exact r.sized i v hv }

/-- Count the flags of an index. SOURCE: core/smr.cpp:129-134 -/
def agreeCount (r : EntryVoteRecord) (index : ℕ) : ℕ := (r.record index).count true

/-- Record a vote; the answer is true when it is the one that completes the index.
SOURCE: core/smr.cpp:115-141 -/
def vote (r : EntryVoteRecord) (id index : ℕ) : Except Fault (EntryVoteRecord × Bool) :=
  if r.entryComplete index then .ok (r, false)
  else if (r.record index).length ≤ id then .error .voterOutOfRange
  else
    let r := r.raise id index
    if r.agreeCount index = r.quorum then
      .ok ({ r with entryComplete := Function.update r.entryComplete index true }, true)
    else .ok (r, false)

/-- The peer's flag for the index is up. -/
def Voted (r : EntryVoteRecord) (id index : ℕ) : Prop := (r.record index)[id]? = some true

/-! ## What a vote does -/

@[simp] theorem init_peerNum (num : ℕ) : (init num).peerNum = num := rfl

/-- Nobody has voted at first. -/
theorem init_not_voted (num id index : ℕ) : ¬ (init num).Voted id index := by
  unfold Voted record init
  simp [List.getElem?_replicate]

@[simp] theorem raise_peerNum (r : EntryVoteRecord) (id index : ℕ) :
    (r.raise id index).peerNum = r.peerNum := rfl

@[simp] theorem raise_quorum (r : EntryVoteRecord) (id index : ℕ) :
    (r.raise id index).quorum = r.quorum := rfl

/-- Raising a flag changes the vector of its own index only. -/
theorem raise_record (r : EntryVoteRecord) (id index i : ℕ) :
    (r.raise id index).record i =
      if i = index then (r.record index).set id true else r.record i := by
  unfold record raise
  by_cases h : i = index
  · subst h
    simp [Function.update_self, record]
  · simp [h]

/-- After raising a flag, the flags that are up are those that were, and it. -/
theorem raise_voted {r : EntryVoteRecord} {id index j i : ℕ} (hid : id < r.peerNum) :
    (r.raise id index).Voted j i ↔ r.Voted j i ∨ (j = id ∧ i = index) := by
  unfold Voted
  rw [raise_record]
  by_cases h : i = index
  · subst h
    rw [if_pos rfl, List.getElem?_set]
    by_cases hj : id = j
    · subst hj
      simp [hid]
    · simp [hj, Ne.symm hj]
  · simp [h]

/-- **What a vote that returns has done.**  For an index that is complete, nothing.
Otherwise the voter is a peer, its flag is up, and the answer tells whether the flags of
the index now number exactly the quorum, in which case the index is complete. -/
theorem vote_cases {r r' : EntryVoteRecord} {id index : ℕ} {b : Bool}
    (h : r.vote id index = .ok (r', b)) :
    (r.entryComplete index = true ∧ r' = r ∧ b = false) ∨
    (r.entryComplete index = false ∧ id < r.peerNum ∧
      r'.records = (r.raise id index).records ∧ r'.peerNum = r.peerNum ∧
      b = decide ((r.raise id index).agreeCount index = r.quorum) ∧
      r'.entryComplete =
        if b then Function.update r.entryComplete index true else r.entryComplete) := by
  unfold vote at h
  split at h
  · rename_i hc
    simp only [Except.ok.injEq, Prod.mk.injEq] at h
    exact .inl ⟨hc, h.1.symm, h.2.symm⟩
  · rename_i hc
    right
    split at h
    · cases h
    · rename_i hid
      rw [record_length, not_le] at hid
      dsimp only at h
      split at h
      · rename_i hq
        simp only [Except.ok.injEq, Prod.mk.injEq] at h
        obtain ⟨rfl, rfl⟩ := h
        exact ⟨by simpa using hc, hid, rfl, rfl, by simpa using hq, rfl⟩
      · rename_i hq
        simp only [Except.ok.injEq, Prod.mk.injEq] at h
        obtain ⟨rfl, rfl⟩ := h
        exact ⟨by simpa using hc, hid, rfl, rfl, by simpa using hq, rfl⟩

/-- The vote of a peer always returns. -/
theorem vote_total (r : EntryVoteRecord) {id : ℕ} (index : ℕ) (hid : id < r.peerNum) :
    ∃ r' b, r.vote id index = .ok (r', b) := by
  unfold vote
  split
  · exact ⟨_, _, rfl⟩
  · rw [if_neg (by simpa using hid)]
    dsimp only
    split <;> exact ⟨_, _, rfl⟩

/-- Votes do not change the number of peers. -/
theorem vote_peerNum {r r' : EntryVoteRecord} {id index : ℕ} {b : Bool}
    (h : r.vote id index = .ok (r', b)) : r'.peerNum = r.peerNum := by
  rcases vote_cases h with ⟨-, rfl, -⟩ | ⟨-, -, -, hp, -⟩
  · rfl
  · exact hp

/-- The vectors after a vote, when the index was not complete. -/
theorem record_of_records_eq {r r' : EntryVoteRecord} (hrec : r'.records = r.records)
    (hp : r'.peerNum = r.peerNum) (i : ℕ) : r'.record i = r.record i := by
  unfold record
  rw [hrec, hp]

/-- A flag that is up after a vote was up before, or is the voter's. -/
theorem vote_voted {r r' : EntryVoteRecord} {id index j i : ℕ} {b : Bool}
    (h : r.vote id index = .ok (r', b)) (hv : r'.Voted j i) :
    r.Voted j i ∨ (j = id ∧ i = index) := by
  rcases vote_cases h with ⟨-, rfl, -⟩ | ⟨-, hid, hrec, hp, -⟩
  · exact .inl hv
  · unfold Voted at hv
    rw [record_of_records_eq (r := r.raise id index) hrec hp] at hv
    exact (raise_voted hid).mp hv

/-- A vote that answers true leaves a quorum of flags up at its index. -/
theorem vote_true_count {r r' : EntryVoteRecord} {id index : ℕ}
    (h : r.vote id index = .ok (r', true)) :
    (r'.record index).count true = r'.peerNum / 2 + 1 := by
  rcases vote_cases h with ⟨-, -, hb⟩ | ⟨-, -, hrec, hp, hb, -⟩
  · cases hb
  · have hq : (r.raise id index).agreeCount index = r.quorum := by simpa using hb.symm
    rw [record_of_records_eq (r := r.raise id index) hrec hp, hp, ← r.majority]
    exact hq

end EntryVoteRecord

/-- The second of three peers completes an index, the third and repeated votes do not.
The same votes as in tests/entry_vote_test.cpp. -/
example : (do
    let r := EntryVoteRecord.init 3
    let (r, b₁) ← r.vote 2 2
    let (r, b₂) ← r.vote 1 2
    let (r, b₃) ← r.vote 0 2
    let (_, b₄) ← r.vote 1 2
    .ok [b₁, b₂, b₃, b₄] : Except Fault (List Bool)) = .ok [false, true, false, false] := rfl

end MorphlingC.Model
