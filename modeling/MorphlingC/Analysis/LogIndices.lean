import MorphlingC.Analysis.LogGrowth

/-!
# Indices and positions of a log

The entries of a log are numbered by their positions, one higher, and all operations that take
an index agree on it (`IndicesAgree`).  The vector of the log, which carries no such numbering
with it, has the same entries after the same calls, and fails where the log does
(`vector_in_step`).
-/

set_option autoImplicit false

namespace MorphlingC.Analysis

open MorphlingC.Library MorphlingC.Model MorphlingC.Model.LogVector

/-- The operations on a log agree on what the index of an entry is. -/
structure IndicesAgree (l : SMRLog) : Prop where
  position : ∀ p (h : p < l.log.length), l.log[p].index = p + 1
  last : l.lastIndex = l.log.length
  entryAt : ∀ i ≤ l.lastIndex, ∃ e, l.entryAt i = .ok e ∧ e.index = i
  truncate : ∀ t, 1 ≤ t → t ≤ l.lastIndex + 1 → ∃ l', l.truncate t = .ok l' ∧
    l'.log = l.log.take (min (t - 1) l.lastIndex)
  getPartEntries : ∀ a b, 1 ≤ a → a ≤ b → b ≤ l.lastIndex →
    l.getPartEntries a b = .ok (l.log.filter fun e => a ≤ e.index ∧ e.index ≤ b)
  partIndices : ∀ a b, 1 ≤ a → a ≤ b → b ≤ l.lastIndex →
    (l.log.filter fun e => a ≤ e.index ∧ e.index ≤ b).map Entry.index =
      List.range' a (b + 1 - a)
  getTailEntries : ∀ a, l.getTailEntries a = l.getPartEntries a l.lastIndex

/-- What a call is to do to the entries, and to return: an append puts one behind the others and
returns its index; a truncation leaves the entries with lower indices. -/
def ChangesRight (v v' : LogVector) (os : List ℕ) : LogCall → Prop
  | .append e => os = [lastIndex v + 1] ∧
      v'.elements = v.elements ++ [⟨e.epoch, lastIndex v + 1, e.data⟩]
  | .appendUnder e epoch => os = [lastIndex v + 1] ∧
      v'.elements = v.elements ++ [⟨epoch, lastIndex v + 1, e.data⟩]
  | .truncate tIdx => os = [] ∧ v'.elements = v.elements.take (min (tIdx - 1) (lastIndex v))

/-- Every call on a new log returns and does what it is to do, and after each of them the
operations on the log agree on what the index of an entry is. -/
def IndicesRight (grow : Growth) (calls : List LogCall) : Prop :=
  (∃ v os, (LogVector.call grow).run LogVector.new calls = .ok (v, os)) ∧
    (LogVector.call grow).EachStep
      (fun v call v' os => ChangesRight v v' os call ∧ ∃ l, l.log = v'.elements ∧ IndicesAgree l)
      LogVector.new calls

/-! ## One log -/

/-- INTERNAL: the entries from one index to another are those in between.
SOURCE: core/smr.cpp:76-84 -/
theorem filter_index (l : SMRLog) {a b : ℕ} (ha : 1 ≤ a) :
    l.log.filter (fun e => a ≤ e.index ∧ e.index ≤ b) = (l.log.take b).drop (a - 1) := by
  have hlow : ∀ e ∈ (l.log.take b).take (a - 1), ¬ (a ≤ e.index ∧ e.index ≤ b) := by
    intro e he
    rw [List.take_take] at he
    have hindex := (l.index_of_mem_part (a := 0) he).2.1
    omega
  have hmiddle : ∀ e ∈ (l.log.take b).drop (a - 1), a ≤ e.index ∧ e.index ≤ b := by
    intro e he
    have hindex := l.index_of_mem_part he
    omega
  have hhigh : ∀ e ∈ l.log.drop b, ¬ (a ≤ e.index ∧ e.index ≤ b) := by
    intro e he
    rw [← List.take_length (l := l.log)] at he
    have hindex := (l.index_of_mem_part he).1
    omega
  conv_lhs => rw [← List.take_append_drop b l.log,
    ← List.take_append_drop (a - 1) (l.log.take b)]
  rw [List.filter_append, List.filter_append, List.filter_eq_nil_iff.mpr (by simpa using hlow),
    List.filter_eq_self.mpr (by simpa using hmiddle),
    List.filter_eq_nil_iff.mpr (by simpa using hhigh), List.nil_append, List.append_nil]

/-- INTERNAL: every log has its operations agree: the index of an entry is one more than its
position. SOURCE: core/smr.cpp:12-108 -/
theorem indicesAgree (l : SMRLog) : IndicesAgree l where
  position := l.indexed
  last := l.lastIndex_eq
  entryAt := by
    intro i hi
    rw [l.lastIndex_eq] at hi
    rcases Nat.eq_zero_or_pos i with rfl | hpos
    · exact ⟨dummyEntry, rfl, rfl⟩
    · have hlt : i - 1 < l.log.length := by omega
      refine ⟨l.log[i - 1], l.entryAt_of_lt hpos hlt, ?_⟩
      rw [l.indexed (i - 1) hlt]
      omega
  truncate := by
    intro t ht hle
    rw [l.lastIndex_eq] at hle ⊢
    obtain ⟨l', hl'⟩ := SMRLog.truncate_isOk (l := l) ht hle
    refine ⟨l', hl', ?_⟩
    rw [(SMRLog.truncate_ok.mp hl').2.2.1, ← List.take_eq_take_min]
  getPartEntries := by
    intro a b ha hab hb
    rw [l.lastIndex_eq] at hb
    rw [l.getPartEntries_of_le ha hab hb, filter_index l ha]
  partIndices := by
    intro a b ha hab hb
    rw [l.lastIndex_eq] at hb
    rw [filter_index l ha, List.map_drop, List.map_take, l.map_index,
      List.take_range'_of_length_ge hb, List.drop_range', Nat.mul_one,
      show 1 + (a - 1) = a from by omega, show b - (a - 1) = b + 1 - a from by omega]
  getTailEntries := fun _ => rfl

/-! ## The vector and the log -/

/-- The vector holds the entries of the log, in the place it was given. -/
def InStep (v : LogVector) (l : SMRLog) : Prop :=
  v.elements = l.log ∧ v.capacity = reservedEntries

/-- INTERNAL: both have the same last index. SOURCE: core/smr.cpp:100-108 -/
theorem InStep.lastIndex {v : LogVector} {l : SMRLog} (h : InStep v l) :
    LogVector.lastIndex v = l.log.length := by
  rw [← l.lastIndex_eq]
  show (v.elements.getLast?.getD dummyEntry).index = (l.log.getLast?.getD dummyEntry).index
  rw [h.1]

variable (grow : Growth)

/-- INTERNAL: **a call that finds room, on the vector and on the log.**
SOURCE: core/smr.cpp:30-57 -/
theorem InStep.call {v : LogVector} {l : SMRLog} {call : LogCall} (h : InStep v l)
    (hroom : RoomFor v call) :
    ∃ v' l' os, LogVector.call grow v call = .ok (v', os) ∧ SMRLog.call l call = .ok (l', os) ∧
      ChangesRight v v' os call ∧ InStep v' l' := by
  have happend : ∀ e epoch, v.elements.length < reservedEntries →
      ∃ v' l', append grow v e epoch = .ok (v', LogVector.lastIndex v + 1) ∧
        l.append e epoch = .ok (l', LogVector.lastIndex v + 1) ∧
        v'.elements = v.elements ++ [⟨epoch, LogVector.lastIndex v + 1, e.data⟩] ∧
        InStep v' l' := by
    intro e epoch hless
    obtain ⟨v', hv, hcapacity, helements⟩ := append_right grow h.2 hless e epoch
    have hless' : l.log.length < reservedEntries := h.1 ▸ hless
    refine ⟨v', l.grown e epoch hless', hv, ?_, helements, ?_, hcapacity⟩
    · rw [l.append_of_room e epoch hless', h.lastIndex]
    · rw [helements, SMRLog.grown_log, h.lastIndex, h.1]
  cases call with
  | append e =>
    obtain ⟨v', l', hv, hl, helements, hstep⟩ := happend e e.epoch hroom
    exact ⟨v', l', _, by rw [LogVector.call, hv]; rfl, by rw [SMRLog.call, hl]; rfl,
      ⟨rfl, helements⟩, hstep⟩
  | appendUnder e epoch =>
    obtain ⟨v', l', hv, hl, helements, hstep⟩ := happend e epoch hroom
    exact ⟨v', l', _, by rw [LogVector.call, hv]; rfl, by rw [SMRLog.call, hl]; rfl,
      ⟨rfl, helements⟩, hstep⟩
  | truncate tIdx =>
    obtain ⟨hpos, hle⟩ := hroom
    obtain ⟨l', hl⟩ := SMRLog.truncate_isOk (l := l) hpos (h.1 ▸ hle)
    obtain ⟨-, -, hlog, -⟩ := SMRLog.truncate_ok.mp hl
    refine ⟨_, l', [], call_truncate grow hpos hle, by rw [SMRLog.call, hl]; rfl, ⟨rfl, ?_⟩, ?_,
      h.2⟩
    · rw [h.lastIndex, ← h.1, ← List.take_eq_take_min]
      rfl
    · rw [hlog, ← h.1]
      rfl

/-- INTERNAL: **a call that finds no room fails on both.** SOURCE: core/smr.cpp:30-57 -/
theorem InStep.call_stuck {v : LogVector} {l : SMRLog} {call : LogCall} (h : InStep v l)
    (hroom : ¬ RoomFor v call) :
    ∃ f, LogVector.call grow v call = .error f ∧ SMRLog.call l call = .error f.fault := by
  have hfull : ∀ e epoch, ¬ v.elements.length < reservedEntries →
      append grow v e epoch = .error .dangling ∧ l.append e epoch = .error .lastEntryMoved := by
    intro e epoch hnot
    exact ⟨append_dangling grow h.2 (not_lt.mp hnot) e epoch,
      l.append_of_full e epoch (h.1 ▸ not_lt.mp hnot)⟩
  cases call with
  | append e =>
    obtain ⟨hv, hl⟩ := hfull e e.epoch hroom
    exact ⟨.dangling, by rw [LogVector.call, hv]; rfl, by rw [SMRLog.call, hl]; rfl⟩
  | appendUnder e epoch =>
    obtain ⟨hv, hl⟩ := hfull e epoch hroom
    exact ⟨.dangling, by rw [LogVector.call, hv]; rfl, by rw [SMRLog.call, hl]; rfl⟩
  | truncate tIdx =>
    rcases Nat.eq_zero_or_pos tIdx with rfl | hpos
    · exact ⟨.entryIndexZero, rfl, rfl⟩
    · have hgt : l.log.length + 1 < tIdx := by
        rw [← h.1]
        exact not_le.mp fun hle => hroom ⟨hpos, hle⟩
      refine ⟨.iteratorPastEnd, ?_, by rw [SMRLog.call, SMRLog.truncate_of_gt hgt]; rfl⟩
      show (LogVector.truncate v tIdx >>= fun v => .ok (v, [])) = _
      rw [LogVector.truncate, SMRLog.entryPos_pos hpos]
      dsimp only
      rw [if_pos (by rw [h.1]; omega)]
      rfl

/-- INTERNAL: **the vector and the log stay in step**: a run of the same calls ends on both with
the same entries and the same answers, or fails on both. SOURCE: core/smr.cpp:30-57 -/
theorem vector_in_step {calls : List LogCall} {v : LogVector} {l : SMRLog} (h : InStep v l) :
    (∃ v' l' os, (LogVector.call grow).run v calls = .ok (v', os) ∧
      Machine.run SMRLog.call l calls = .ok (l', os) ∧ InStep v' l') ∨
    ∃ f, (LogVector.call grow).run v calls = .error f ∧
      Machine.run SMRLog.call l calls = .error f.fault := by
  induction calls generalizing v l with
  | nil => exact .inl ⟨v, l, [], rfl, rfl, h⟩
  | cons call calls ih =>
    by_cases hroom : RoomFor v call
    · obtain ⟨v', l', os, hv, hl, -, hstep⟩ := h.call grow hroom
      rcases ih hstep with ⟨v'', l'', os', hrun, hrun', hend⟩ | ⟨f, hrun, hrun'⟩
      · exact .inl ⟨v'', l'', os ++ os', (Machine.run_cons_ok _).mpr ⟨_, _, _, hv, hrun, rfl⟩,
          (Machine.run_cons_ok _).mpr ⟨_, _, _, hl, hrun', rfl⟩, hend⟩
      · refine .inr ⟨f, ?_, ?_⟩
        · rw [Machine.run_cons_of_ok _ hv, hrun]
          rfl
        · rw [Machine.run_cons_of_ok _ hl, hrun']
          rfl
    · obtain ⟨f, hv, hl⟩ := h.call_stuck grow hroom
      exact .inr ⟨f, Machine.run_cons_of_error _ hv, Machine.run_cons_of_error _ hl⟩

/-- **Indices and positions agree as long as the calls stay in the log.**  For every way in which
the vector grows and every sequence of appends, of either form, and truncations on a new log:
every call returns and does what it is to do, and after each of them the entry at a position has
the index one higher and all that takes an index agrees on it, exactly when every append meets a
log with fewer than 1000000 entries and every truncation is from an index of the log on, or from
the one behind. -/
theorem log_indices_agree (calls : List LogCall) :
    IndicesRight grow calls ↔ (LogVector.call grow).Guarded RoomFor LogVector.new calls := by
  unfold IndicesRight
  refine Machine.returns_iff_guarded (J := fun v => ∃ l, InStep v l) _ ?_ ?_ ⟨{}, rfl, rfl⟩
  · rintro v call ⟨l, h⟩ hroom
    obtain ⟨v', l', os, hv, -, hchanges, hstep⟩ := h.call grow hroom
    exact ⟨v', os, hv, ⟨hchanges, l', hstep.1.symm, indicesAgree l'⟩, l', hstep⟩
  · rintro v call ⟨l, h⟩ hroom
    obtain ⟨f, hv, -⟩ := h.call_stuck grow hroom
    exact ⟨f, hv⟩

/-- One append and a truncation far behind the log; and one append more than there is room for. -/
theorem calls_leave_log :
    (LogVector.call doubling).run LogVector.new
        [.append ⟨1, 0, [7]⟩, .truncate (2 ^ 61 + 1)] = .error .iteratorPastEnd ∧
      ¬ IndicesRight doubling [.append ⟨1, 0, [7]⟩, .truncate (2 ^ 61 + 1)] ∧
      ¬ IndicesRight doubling (List.replicate 1000001 (.append ⟨1, 0, [7]⟩)) := by
  have hpast : (LogVector.call doubling).run LogVector.new
      [.append ⟨1, 0, [7]⟩, .truncate (2 ^ 61 + 1)] = .error .iteratorPastEnd := by
    rfl
  refine ⟨hpast, ?_, ?_⟩
  · rintro ⟨⟨v, os, hrun⟩, -⟩
    rw [hpast] at hrun
    cases hrun
  · rintro ⟨⟨v, os, hrun⟩, -⟩
    rw [appends_run_dangling doubling (v := LogVector.new) ?_ rfl ?_] at hrun
    · cases hrun
    · intro call hcall
      rw [List.eq_of_mem_replicate hcall]
      rfl
    · rw [List.length_replicate]
      show 1000000 < 0 + 1000001
      omega

end MorphlingC.Analysis
