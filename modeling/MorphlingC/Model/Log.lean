import MorphlingC.Library.Machine
import MorphlingC.Model.Message

/-!
# The replicated log

`SMRLog` of `core/smr.h`: the entries from position 0 on, and the commit index.  The
dummy entry of the source is never written to, so it is the constant `dummyEntry`, of
epoch and index 0.  The vector is a list.  It has room for `reservedEntries` entries, and an
append that finds no room fails; `MorphlingC.Model.LogVector` says why.

That the entry at position `p` has index `p + 1`, and that there is room for the entries, are
fields of the structure: `append` numbers a new entry after the last one, as the source does,
and carries the proofs on.
-/

set_option autoImplicit false

namespace MorphlingC.Model

open MorphlingC.Library

/-- `m_dummy_entry`, which stands before the first entry. SOURCE: core/smr.cpp:10 -/
def dummyEntry : Entry := ⟨0, 0, []⟩

@[simp] theorem dummyEntry_index : dummyEntry.index = 0 := rfl

@[simp] theorem dummyEntry_epoch : dummyEntry.epoch = 0 := rfl

/-- `m_log.reserve(1000000)`. SOURCE: core/smr.cpp:10 -/
def reservedEntries : ℕ := 1000000

/-- The log of one group at one replica. SOURCE: core/smr.h:47-80 -/
@[ext] structure SMRLog where
  log : List Entry := []
  commits : ℕ := 0
  indexed : ∀ p (h : p < log.length), log[p].index = p + 1 := by
    exact fun p h => absurd h (Nat.not_lt_zero p)
  fits : log.length ≤ reservedEntries := by exact Nat.zero_le _
deriving DecidableEq

namespace SMRLog

/-- The position of an index in the vector. SOURCE: core/smr.cpp:12-20 -/
def entryPos (eIndex : ℕ) : Except Fault ℕ :=
  if eIndex = 0 then .error .entryIndexZero
  else if eIndex < dummyEntry.index then .ok 0
  else .ok (eIndex - dummyEntry.index - 1)

/-- SOURCE: core/smr.cpp:100-106 -/
def lastEntry (l : SMRLog) : Entry := l.log.getLast?.getD dummyEntry

/-- SOURCE: core/smr.cpp:108 -/
def lastIndex (l : SMRLog) : ℕ := l.lastEntry.index

/-- SOURCE: core/smr.cpp:98 -/
def currCommit (l : SMRLog) : ℕ := l.commits

/-- The last index is the number of entries. -/
@[simp] theorem lastIndex_eq (l : SMRLog) : l.lastIndex = l.log.length := by
  unfold lastIndex lastEntry
  cases h : l.log.getLast? with
  | none => simp [List.getLast?_eq_none_iff.mp h]
  | some e =>
    rw [List.getLast?_eq_getElem?, List.getElem?_eq_some_iff] at h
    obtain ⟨hlt, rfl⟩ := h
    rw [Option.getD_some, l.indexed]
    omega

/-- The index `append` gives to a new entry: 1 in an empty log, else one more than that of
the last entry. SOURCE: core/smr.cpp:31-42 -/
def nextIndex (l : SMRLog) : ℕ :=
  match l.log.getLast? with
  | none => 1
  | some lastE => lastE.index + 1

/-- A new entry is numbered one past the last index. -/
@[simp] theorem nextIndex_eq (l : SMRLog) : l.nextIndex = l.log.length + 1 := by
  have hlast := l.lastIndex_eq
  unfold lastIndex lastEntry at hlast
  unfold nextIndex
  cases h : l.log.getLast? with
  | none => simp [List.getLast?_eq_none_iff.mp h]
  | some e =>
    rw [h, Option.getD_some] at hlast
    simp [hlast]

/-- The log with one more entry. -/
def grown (l : SMRLog) (e : Entry) (epoch : ℕ) (room : l.log.length < reservedEntries) : SMRLog :=
  { l with
    log := l.log ++ [⟨epoch, l.nextIndex, e.data⟩]
    indexed := by
      intro p hp
      rcases Nat.lt_or_ge p l.log.length with h | h
      · rw [List.getElem_append_left h]
        exact l.indexed p h
      · have hp' : p = l.log.length := by
          simp only [List.length_append, List.length_singleton] at hp
          omega
        subst hp'
        simp
    fits := by
      rw [List.length_append, List.length_singleton]
      exact room }

/-- Append the data of an entry under an epoch, by default the entry's own; the index is
the log's to give.  The new index is returned.  A vector without room moves its entries before
`last_e.index` is read. SOURCE: core/smr.cpp:10, 30-49 -/
def append (l : SMRLog) (e : Entry) (epoch : ℕ := e.epoch) : Except Fault (SMRLog × ℕ) :=
  if room : l.log.length < reservedEntries then .ok (l.grown e epoch room, l.nextIndex)
  else .error .lastEntryMoved

/-- Keep the entries before index `tIdx`: the loop pops entries off the end until the
position of `tIdx` is the end.  An iterator past the end is none of the vector.
SOURCE: core/smr.cpp:51-57 -/
def truncate (l : SMRLog) (tIdx : ℕ) : Except Fault SMRLog := do
  let pos ← entryPos tIdx
  if l.log.length < pos then .error .iteratorPastEnd
  else .ok { l with
    log := l.log.take pos
    indexed := by
      intro p hp
      rw [List.getElem_take]
      exact l.indexed p (lt_of_lt_of_le hp (List.length_take_le' _ _))
    fits := le_trans (List.length_take_le' _ _) l.fits }

/-- SOURCE: core/smr.cpp:59-69 -/
def entryAt (l : SMRLog) (index : ℕ) : Except Fault Entry :=
  if index = 0 ∨ index ≤ dummyEntry.index then .ok dummyEntry
  else do
    let realIndex ← entryPos index
    match l.log[realIndex]? with
    | none => .error .entryBeyondLog
    | some e => .ok e

/-- The entries from `startIdx` to `endIdx`, both included. SOURCE: core/smr.cpp:76-84 -/
def getPartEntries (l : SMRLog) (startIdx endIdx : ℕ) : Except Fault (List Entry) :=
  if endIdx < startIdx then .error .startAfterEnd
  else do
    let startPos ← entryPos startIdx
    let endPos ← entryPos endIdx
    let exEndPos := endPos + 1
    if l.log.length < exEndPos then .error .rangeOutOfLog
    else .ok ((l.log.drop startPos).take (exEndPos - startPos))

/-- SOURCE: core/smr.cpp:71-73 -/
def getTailEntries (l : SMRLog) (startIdx : ℕ) : Except Fault (List Entry) :=
  l.getPartEntries startIdx l.lastIndex

/-- Move the commit index up; the answer tells whether it moved.
SOURCE: core/smr.cpp:86-96 -/
def commitTo (l : SMRLog) (index : ℕ) : Except Fault (SMRLog × Bool) :=
  if index > l.lastIndex then .error .commitBeyondLast
  else if index > l.commits then .ok ({ l with commits := index }, true)
  else .ok (l, false)

/-! ## What each operation does -/

@[simp] theorem grown_log (l : SMRLog) (e : Entry) (epoch : ℕ)
    (room : l.log.length < reservedEntries) :
    (l.grown e epoch room).log = l.log ++ [⟨epoch, l.log.length + 1, e.data⟩] := by
  simp [grown]

@[simp] theorem grown_commits (l : SMRLog) (e : Entry) (epoch : ℕ)
    (room : l.log.length < reservedEntries) : (l.grown e epoch room).commits = l.commits := rfl

/-- An append that finds room numbers the entry after the last one. -/
theorem append_of_room (l : SMRLog) (e : Entry) (epoch : ℕ)
    (room : l.log.length < reservedEntries) :
    l.append e epoch = .ok (l.grown e epoch room, l.log.length + 1) := by
  rw [append, dif_pos room, nextIndex_eq]

/-- An append that finds no room reads what has moved. -/
theorem append_of_full (l : SMRLog) (e : Entry) (epoch : ℕ)
    (hfull : reservedEntries ≤ l.log.length) : l.append e epoch = .error .lastEntryMoved := by
  rw [append, dif_neg (by omega)]

/-- An append that returns has found room, and has put one entry behind the others. -/
theorem append_ok {l l' : SMRLog} {e : Entry} {epoch index : ℕ}
    (h : l.append e epoch = .ok (l', index)) :
    l.log.length < reservedEntries ∧ index = l.log.length + 1 ∧
      l'.log = l.log ++ [⟨epoch, index, e.data⟩] ∧ l'.commits = l.commits := by
  by_cases room : l.log.length < reservedEntries
  · rw [append_of_room l e epoch room] at h
    cases h
    exact ⟨room, rfl, grown_log l e epoch room, rfl⟩
  · rw [append_of_full l e epoch (by omega)] at h
    cases h

@[simp] theorem entryPos_zero : entryPos 0 = .error .entryIndexZero := rfl

/-- Indices from 1 on have the position one below. -/
theorem entryPos_pos {i : ℕ} (h : 1 ≤ i) : entryPos i = .ok (i - 1) := by
  unfold entryPos
  rw [if_neg (by omega), if_neg (by simp)]
  simp

/-- The indices of the entries are the numbers from 1 on. -/
theorem map_index (l : SMRLog) : l.log.map Entry.index = List.range' 1 l.log.length := by
  apply List.ext_getElem (by simp)
  intro p h _
  rw [List.length_map] at h
  rw [List.getElem_map, l.indexed p h, List.getElem_range']
  omega

/-- The entries behind the first `a` and up to `b` have the indices in between. -/
theorem index_of_mem_part (l : SMRLog) {a b : ℕ} {e : Entry}
    (h : e ∈ (l.log.take b).drop a) : a < e.index ∧ e.index ≤ b ∧ e.index ≤ l.log.length := by
  obtain ⟨p, hp, rfl⟩ := List.mem_iff_getElem.mp h
  rw [List.length_drop, List.length_take] at hp
  rw [List.getElem_drop, List.getElem_take, l.indexed]
  omega

/-- The index of an entry is a place of the log. -/
theorem index_of_mem (l : SMRLog) {e : Entry} (h : e ∈ l.log) :
    1 ≤ e.index ∧ e.index ≤ l.log.length := by
  rw [← List.take_length (l := l.log), ← List.drop_zero (l := l.log.take l.log.length)] at h
  obtain ⟨hlt, -, hle⟩ := l.index_of_mem_part h
  exact ⟨hlt, hle⟩

/-- No two entries of a part of the log have the same index. -/
theorem part_nodup (l : SMRLog) (a b : ℕ) :
    (((l.log.take b).drop a).map Entry.index).Nodup := by
  have hsub := ((List.drop_sublist a _).trans (List.take_sublist b l.log)).map Entry.index
  rw [map_index] at hsub
  exact hsub.nodup List.nodup_range'

/-- Truncation from index 1 on, up to the one behind the last, keeps the entries below the
index. -/
theorem truncate_ok {l l' : SMRLog} {tIdx : ℕ} :
    l.truncate tIdx = .ok l' ↔ 1 ≤ tIdx ∧ tIdx ≤ l.log.length + 1 ∧
      l'.log = l.log.take (tIdx - 1) ∧ l'.commits = l.commits := by
  rcases Nat.eq_zero_or_pos tIdx with rfl | h
  · simp [truncate]
  · unfold truncate
    rw [entryPos_pos h, ok_bind]
    by_cases hpast : l.log.length < tIdx - 1
    · rw [if_pos hpast]
      constructor
      · rintro ⟨⟩
      · rintro ⟨-, hle, -⟩
        omega
    · rw [if_neg hpast, Except.ok.injEq]
      constructor
      · rintro rfl
        exact ⟨h, by omega, rfl, rfl⟩
      · rintro ⟨-, -, hlog, hc⟩
        exact SMRLog.ext hlog.symm hc.symm

/-- Truncation returns for the indices of the log, and the one behind. -/
theorem truncate_isOk {l : SMRLog} {tIdx : ℕ} (h : 1 ≤ tIdx) (hle : tIdx ≤ l.log.length + 1) :
    ∃ l', l.truncate tIdx = .ok l' := by
  unfold truncate
  rw [entryPos_pos h, ok_bind, if_neg (by omega)]
  exact ⟨_, rfl⟩

/-- Truncation beyond that asks for an iterator past the end. -/
theorem truncate_of_gt {l : SMRLog} {tIdx : ℕ} (h : l.log.length + 1 < tIdx) :
    l.truncate tIdx = .error .iteratorPastEnd := by
  unfold truncate
  rw [entryPos_pos (by omega), ok_bind, if_pos (by omega)]

@[simp] theorem entryAt_zero (l : SMRLog) : l.entryAt 0 = .ok dummyEntry := rfl

/-- From index 1 on, `entryAt` reads the list one position below. -/
theorem entryAt_pos (l : SMRLog) {i : ℕ} (h : 1 ≤ i) :
    l.entryAt i = match l.log[i - 1]? with
      | none => .error .entryBeyondLog
      | some e => .ok e := by
  unfold entryAt
  rw [if_neg (by simp; omega), entryPos_pos h]
  rfl

/-- Looking up an index of the log finds its entry. -/
theorem entryAt_of_lt (l : SMRLog) {i : ℕ} (h : 1 ≤ i) (hlt : i - 1 < l.log.length) :
    l.entryAt i = .ok l.log[i - 1] := by
  rw [entryAt_pos l h, List.getElem?_eq_getElem hlt]

/-- Looking up an index beyond the log aborts. -/
theorem entryAt_of_gt (l : SMRLog) {i : ℕ} (h : l.log.length < i) :
    l.entryAt i = .error .entryBeyondLog := by
  rw [entryAt_pos l (by omega), List.getElem?_eq_none (by omega)]

/-- A range inside the log is copied whole. -/
theorem getPartEntries_of_le (l : SMRLog) {a b : ℕ} (ha : 1 ≤ a) (hab : a ≤ b)
    (hb : b ≤ l.log.length) :
    l.getPartEntries a b = .ok ((l.log.take b).drop (a - 1)) := by
  unfold getPartEntries
  rw [if_neg (by omega), entryPos_pos ha, entryPos_pos (by omega), ok_bind, ok_bind,
    if_neg (by omega), List.drop_take]
  have h : b - 1 + 1 - (a - 1) = b - (a - 1) := by omega
  rw [h]

/-- The tail from the last index is the last entry alone. -/
theorem getTailEntries_last (l : SMRLog) (h : l.log ≠ []) :
    l.getTailEntries l.log.length = .ok [l.log.getLast h] := by
  have hpos : 0 < l.log.length := List.length_pos_iff.mpr h
  unfold getTailEntries
  rw [lastIndex_eq, getPartEntries_of_le l hpos le_rfl le_rfl, List.take_length,
    List.drop_length_sub_one h]

/-- Committing inside the log returns and raises the commit index to the given one. -/
theorem commitTo_of_le (l : SMRLog) {i : ℕ} (h : i ≤ l.log.length) :
    l.commitTo i = .ok ({ l with commits := max l.commits i }, decide (l.commits < i)) := by
  unfold commitTo
  rw [if_neg (by simp; omega)]
  split
  · rename_i hlt
    simp [Nat.max_eq_right (le_of_lt hlt), hlt]
  · rename_i hge
    simp [not_lt.mp hge]

/-- Committing beyond the log aborts. -/
theorem commitTo_of_gt (l : SMRLog) {i : ℕ} (h : l.log.length < i) :
    l.commitTo i = .error .commitBeyondLast := by
  unfold commitTo
  rw [if_pos (by simpa using h)]

end SMRLog

end MorphlingC.Model
