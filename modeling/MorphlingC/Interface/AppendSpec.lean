import MorphlingC.Model.Smr

/-!
# What appending a message to a log is meant to do

The consistency check and the merge of an `AppendEntriesMessage` with a follower's log,
stated on lists of entries and without the code's loops.  A message names the entry it
continues from by index and epoch, index 0 standing for the start of the log, with epoch
0.  Its entries that the log already has, under the same epoch, change nothing; from the
first one that is absent or of another epoch on, the message's entries replace the rest of
the log.

Nothing here is translated from the source: `MorphlingC.Analysis` compares the handlers
with it.
-/

set_option autoImplicit false

namespace MorphlingC.Interface

open MorphlingC.Model

/-- The epoch of the entry at an index, where index 0 has epoch 0. -/
def termAt (log : List Entry) (index : ℕ) : Option ℕ :=
  if index = 0 then some 0 else log[index - 1]?.map Entry.epoch

/-- The log has an entry at the index of `e`, under the epoch of `e`. -/
def Present (log : List Entry) (e : Entry) : Prop := termAt log e.index = some e.epoch

instance (log : List Entry) (e : Entry) : Decidable (Present log e) :=
  inferInstanceAs (Decidable (_ = _))

/-- The entries of a message from the first one that the log does not have on. -/
def missing (log entries : List Entry) : List Entry :=
  entries.dropWhile fun e => Present log e

/-- The log after the merge: the old log up to the entry before the first missing one,
then all the message's entries from there on. -/
def mergedLog (log entries : List Entry) : List Entry :=
  match missing log entries with
  | [] => log
  | e :: rest => log.take (e.index - 1) ++ e :: rest

/-- The entries carry the consecutive indices `i`, `i + 1`, … -/
def ConsecutiveFrom : ℕ → List Entry → Prop
  | _, [] => True
  | i, e :: rest => e.index = i ∧ ConsecutiveFrom (i + 1) rest

instance : ∀ (i : ℕ) (entries : List Entry), Decidable (ConsecutiveFrom i entries)
  | _, [] => isTrue trivial
  | i, _ :: rest =>
    have : Decidable (ConsecutiveFrom (i + 1) rest) := instDecidableConsecutiveFrom (i + 1) rest
    inferInstanceAs (Decidable (_ ∧ _))

/-- The entries, numbered anew from `i` on. -/
def numberedFrom : ℕ → List Entry → List Entry
  | _, [] => []
  | i, e :: rest => { e with index := i } :: numberedFrom (i + 1) rest

/-- What a follower at `s` is meant to do with the message: refuse it and change nothing
when its log does not have the entry the message continues from, else accept it and merge.
`s'` and `cbs` are the state and the callbacks after the call. -/
def AppendSpec (s : SMR) (msg : AppendEntriesMessage) (s' : SMR) (cbs : List Callback) : Prop :=
  ∃ reply dst, cbs = [.notifySendAppendEntryReply reply dst] ∧
    if termAt s.log.log msg.prevIndex = some msg.prevTerm then
      reply.success = true ∧ s'.log.log = mergedLog s.log.log msg.entries
    else
      reply.success = false ∧ s'.log.log = s.log.log ∧ s'.log.commits = s.log.commits

/-! ## Lookups -/

@[simp] theorem termAt_zero (log : List Entry) : termAt log 0 = some 0 := rfl

/-- Inside the log, the epoch is that of the entry one position below. -/
theorem termAt_of_lt {log : List Entry} {i : ℕ} (h : 1 ≤ i) (hlt : i - 1 < log.length) :
    termAt log i = some log[i - 1].epoch := by
  unfold termAt
  rw [if_neg (by omega), List.getElem?_eq_getElem hlt]
  rfl

/-- Beyond the log there is no epoch. -/
theorem termAt_of_gt {log : List Entry} {i : ℕ} (h : log.length < i) : termAt log i = none := by
  unfold termAt
  rw [if_neg (by omega), List.getElem?_eq_none (by omega)]
  rfl

/-- An index that has an epoch is in the log. -/
theorem le_of_termAt {log : List Entry} {i t : ℕ} (h : termAt log i = some t) :
    i ≤ log.length := by
  by_contra hlt
  rw [termAt_of_gt (by omega)] at h
  cases h

/-- A longer log has the same epochs at the indices of the shorter one. -/
theorem termAt_append {log : List Entry} {i : ℕ} (h : i ≤ log.length) (more : List Entry) :
    termAt (log ++ more) i = termAt log i := by
  unfold termAt
  split
  · rfl
  · rw [List.getElem?_append_left (by omega)]

/-- The epoch at the last index is that of the last entry. -/
theorem termAt_length (log : List Entry) :
    termAt log log.length = some (log.getLast?.getD dummyEntry).epoch := by
  rcases Nat.eq_zero_or_pos log.length with h | h
  · rw [List.length_eq_zero_iff] at h
    subst h
    rfl
  · have hlt : log.length - 1 < log.length := by omega
    rw [termAt_of_lt h hlt, List.getLast?_eq_getElem?, List.getElem?_eq_getElem hlt,
      Option.getD_some]

/-! ## The missing entries -/

@[simp] theorem missing_nil (log : List Entry) : missing log [] = [] := rfl

theorem missing_cons_of_present {log : List Entry} {e : Entry} (rest : List Entry)
    (h : Present log e) : missing log (e :: rest) = missing log rest := by
  simp [missing, h]

theorem missing_cons_of_absent {log : List Entry} {e : Entry} (rest : List Entry)
    (h : ¬ Present log e) : missing log (e :: rest) = e :: rest := by
  simp [missing, h]

/-- The first missing entry is one of the message, and the log does not have it. -/
theorem missing_head {log entries : List Entry} {e : Entry} {rest : List Entry}
    (h : missing log entries = e :: rest) : e ∈ entries ∧ ¬ Present log e := by
  induction entries with
  | nil => cases h
  | cons x xs ih =>
    by_cases hx : Present log x
    · rw [missing_cons_of_present xs hx] at h
      exact ⟨List.mem_cons_of_mem _ (ih h).1, (ih h).2⟩
    · rw [missing_cons_of_absent xs hx] at h
      obtain ⟨rfl, -⟩ := List.cons.inj h
      exact ⟨List.mem_cons_self, hx⟩

/-- The missing entries of consecutive ones end where these do. -/
theorem ConsecutiveFrom.missing_length {log entries : List Entry} {i : ℕ} {e : Entry}
    {rest : List Entry} (hc : ConsecutiveFrom i entries) (h : missing log entries = e :: rest) :
    e.index + rest.length + 1 = i + entries.length := by
  induction entries generalizing i with
  | nil => cases h
  | cons x xs ih =>
    rw [List.length_cons]
    by_cases hx : Present log x
    · rw [missing_cons_of_present xs hx] at h
      have hrest := ih hc.2 h
      omega
    · rw [missing_cons_of_absent xs hx] at h
      obtain ⟨rfl, rfl⟩ := List.cons.inj h
      have hfirst := hc.1
      omega

/-- Consecutive entries are consecutive from the first missing one on. -/
theorem ConsecutiveFrom.missing {log entries : List Entry} {i : ℕ} {e : Entry}
    {rest : List Entry} (hc : ConsecutiveFrom i entries)
    (h : missing log entries = e :: rest) :
    i ≤ e.index ∧ ConsecutiveFrom e.index (e :: rest) := by
  induction entries generalizing i with
  | nil => cases h
  | cons x xs ih =>
    by_cases hx : Present log x
    · rw [missing_cons_of_present xs hx] at h
      obtain ⟨hle, hcons⟩ := ih hc.2 h
      exact ⟨by omega, hcons⟩
    · rw [missing_cons_of_absent xs hx] at h
      obtain ⟨rfl, rfl⟩ := List.cons.inj h
      exact ⟨hc.1.ge, by rw [hc.1]; exact hc⟩

/-- When nothing is missing, the log has all entries. -/
theorem present_of_missing_nil {log entries : List Entry} (h : missing log entries = []) {e : Entry}
    (he : e ∈ entries) : Present log e := by
  induction entries with
  | nil => cases he
  | cons x xs ih =>
    by_cases hx : Present log x
    · rw [missing_cons_of_present xs hx] at h
      rcases List.mem_cons.mp he with rfl | hrest
      · exact hx
      · exact ih h hrest
    · rw [missing_cons_of_absent xs hx] at h
      cases h

/-- Consecutive entries that start right after the log are all missing from it. -/
theorem missing_of_consecutive_end {log entries : List Entry}
    (hc : ConsecutiveFrom (log.length + 1) entries) : missing log entries = entries := by
  cases entries with
  | nil => rfl
  | cons e rest =>
    apply missing_cons_of_absent
    unfold Present
    rw [hc.1, termAt_of_gt (by omega)]
    simp

/-! ## Numbering -/

@[simp] theorem numberedFrom_length (i : ℕ) (entries : List Entry) :
    (numberedFrom i entries).length = entries.length := by
  induction entries generalizing i with
  | nil => rfl
  | cons e rest ih => simp [numberedFrom, ih]

/-- What is at a position of renumbered entries. -/
theorem numberedFrom_getElem? (i : ℕ) (entries : List Entry) (p : ℕ) :
    (numberedFrom i entries)[p]? = entries[p]?.map fun e => { e with index := i + p } := by
  induction entries generalizing i p with
  | nil => rfl
  | cons e rest ih =>
    cases p with
    | zero => rfl
    | succ p =>
      rw [numberedFrom, List.getElem?_cons_succ, List.getElem?_cons_succ, ih]
      simp [Nat.add_comm, Nat.add_left_comm]

/-- Consecutive entries are numbered already. -/
theorem ConsecutiveFrom.numberedFrom_eq {i : ℕ} {entries : List Entry}
    (h : ConsecutiveFrom i entries) : numberedFrom i entries = entries := by
  induction entries generalizing i with
  | nil => rfl
  | cons e rest ih =>
    obtain ⟨he, hrest⟩ := h
    rw [numberedFrom, ih hrest, ← he]

/-- Copies of one entry, numbered from `i` on, are the given consecutive entries exactly
when these all have its epoch and its data. -/
theorem numberedFrom_replicate_eq_iff {i : ℕ} {entries : List Entry} (e : Entry)
    (h : ConsecutiveFrom i entries) :
    numberedFrom i (List.replicate entries.length e) = entries ↔
      ∀ x ∈ entries, x.epoch = e.epoch ∧ x.data = e.data := by
  induction entries generalizing i with
  | nil => simp [numberedFrom]
  | cons x xs ih =>
    obtain ⟨hx, hxs⟩ := h
    simp only [List.length_cons, List.replicate_succ, numberedFrom, List.cons.injEq,
      List.forall_mem_cons, ih hxs]
    apply and_congr_left
    intro _
    constructor
    · rintro rfl
      exact ⟨rfl, rfl⟩
    · rintro ⟨hepoch, hdata⟩
      rw [← hx, ← hepoch, ← hdata]

end MorphlingC.Interface
