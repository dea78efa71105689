import MorphlingC.Model.LogVector

/-!
# A log that outgrows its vector

`append` reads the last index through a reference that a growing vector has left behind.  The
constructor reserves room for 1000000 entries, so an append is right as long as the log that
it meets has fewer; the next one moves the entries and reads nothing.
-/

set_option autoImplicit false

namespace MorphlingC.Analysis

open MorphlingC.Library MorphlingC.Model MorphlingC.Model.LogVector

variable (grow : Growth)

/-- Every call on a new log returns, no reference is read after a move, and every append
returns the index behind the last one. -/
def AppendsRight (calls : List LogCall) : Prop :=
  (∃ v os, (LogVector.call grow).run LogVector.new calls = .ok (v, os)) ∧
    (LogVector.call grow).EachStep
      (fun v call _ os => call.appends = true → os = [lastIndex v + 1]) LogVector.new calls

/-- The log has room for the entry that a call appends, or the call truncates from an index of
the log on, or from the one behind. -/
def RoomFor (v : LogVector) : LogCall → Prop
  | .truncate tIdx => 1 ≤ tIdx ∧ tIdx ≤ v.elements.length + 1
  | _ => v.elements.length < reservedEntries

/-! ## One call -/

/-- INTERNAL: an append with room for the entry. SOURCE: core/smr.cpp:30-45 -/
theorem append_right {v : LogVector} (hcapacity : v.capacity = reservedEntries)
    (hroom : v.elements.length < reservedEntries) (e : Entry) (epoch : ℕ) :
    ∃ v', append grow v e epoch = .ok (v', lastIndex v + 1) ∧ v'.capacity = reservedEntries ∧
      v'.elements = v.elements ++ [⟨epoch, lastIndex v + 1, e.data⟩] := by
  have hless : v.elements.length < v.capacity := hcapacity ▸ hroom
  refine ⟨(v.push grow ⟨epoch, lastIndex v + 1, e.data⟩).1, ?_,
    (GrowVector.push_of_room grow hless _).1.trans hcapacity, GrowVector.push_elements grow v _⟩
  by_cases hempty : v.elements = []
  · have hzero : lastIndex v = 0 := by simp [lastIndex, hempty]
    rw [append_of_empty grow hempty, hzero]
  · exact append_of_room grow hempty hless e epoch

/-- INTERNAL: an append without room for the entry. SOURCE: core/smr.cpp:36-42 -/
theorem append_dangling {v : LogVector} (hcapacity : v.capacity = reservedEntries)
    (hfull : reservedEntries ≤ v.elements.length) (e : Entry) (epoch : ℕ) :
    append grow v e epoch = .error .dangling := by
  have hne : v.elements ≠ [] := by
    rintro hempty
    rw [hempty] at hfull
    exact absurd hfull (by decide)
  exact append_of_full grow hne (hcapacity ▸ hfull) e epoch

/-- INTERNAL: the calls that change a log. -/
theorem appends_or_truncates (call : LogCall) :
    call.appends = true ∨ ∃ tIdx, call = .truncate tIdx := by
  cases call with
  | append e => exact .inl rfl
  | appendUnder e epoch => exact .inl rfl
  | truncate tIdx => exact .inr ⟨tIdx, rfl⟩

/-- INTERNAL: both forms of `append` are one. SOURCE: core/smr.cpp:47-49 -/
theorem call_of_appends {call : LogCall} (h : call.appends = true) :
    ∃ e epoch, (∀ v, LogVector.call grow v call =
      append grow v e epoch >>= fun r => .ok (r.1, [r.2])) ∧
      (∀ l : SMRLog, SMRLog.call l call = l.append e epoch >>= fun r => .ok (r.1, [r.2])) ∧
      ∀ v : LogVector, RoomFor v call ↔ v.elements.length < reservedEntries := by
  cases call with
  | append e => exact ⟨e, e.epoch, fun _ => rfl, fun _ => rfl, fun _ => Iff.rfl⟩
  | appendUnder e epoch => exact ⟨e, epoch, fun _ => rfl, fun _ => rfl, fun _ => Iff.rfl⟩
  | truncate tIdx => cases h

/-- INTERNAL: an append that has room. SOURCE: core/smr.cpp:30-49 -/
theorem call_right {v : LogVector} {call : LogCall} (hcapacity : v.capacity = reservedEntries)
    (happends : call.appends = true) (hroom : v.elements.length < reservedEntries) :
    ∃ v', LogVector.call grow v call = .ok (v', [lastIndex v + 1]) ∧
      v'.capacity = reservedEntries ∧ v'.elements.length = v.elements.length + 1 := by
  obtain ⟨e, epoch, hcall, -, -⟩ := call_of_appends grow happends
  obtain ⟨v', happend, hcapacity', helements⟩ := append_right grow hcapacity hroom e epoch
  refine ⟨v', ?_, hcapacity', by rw [helements, List.length_append, List.length_singleton]⟩
  rw [hcall, happend]
  rfl

/-- INTERNAL: an append that finds no room. SOURCE: core/smr.cpp:36-42 -/
theorem call_dangling {v : LogVector} {call : LogCall} (hcapacity : v.capacity = reservedEntries)
    (happends : call.appends = true) (hfull : reservedEntries ≤ v.elements.length) :
    LogVector.call grow v call = .error .dangling := by
  obtain ⟨e, epoch, hcall, -, -⟩ := call_of_appends grow happends
  rw [hcall, append_dangling grow hcapacity hfull]
  rfl

/-- INTERNAL: a truncation from an index of the log on, or from the one behind.
SOURCE: core/smr.cpp:51-57 -/
theorem call_truncate {v : LogVector} {tIdx : ℕ} (h : 1 ≤ tIdx)
    (hle : tIdx ≤ v.elements.length + 1) :
    LogVector.call grow v (.truncate tIdx) = .ok (v.keepFirst (tIdx - 1), []) := by
  show (LogVector.truncate v tIdx >>= fun v => .ok (v, [])) = _
  unfold LogVector.truncate
  rw [SMRLog.entryPos_pos h]
  dsimp only
  rw [if_neg (by omega)]
  rfl

/-- INTERNAL: a truncation from any other index. SOURCE: core/smr.cpp:12-20, 51-57 -/
theorem call_truncate_stuck {v : LogVector} {tIdx : ℕ}
    (h : ¬ (1 ≤ tIdx ∧ tIdx ≤ v.elements.length + 1)) :
    ∃ f, LogVector.call grow v (.truncate tIdx) = .error f := by
  rcases Nat.eq_zero_or_pos tIdx with rfl | hpos
  · exact ⟨.entryIndexZero, rfl⟩
  · refine ⟨.iteratorPastEnd, ?_⟩
    show (LogVector.truncate v tIdx >>= fun v => .ok (v, [])) = _
    unfold LogVector.truncate
    rw [SMRLog.entryPos_pos hpos]
    dsimp only
    rw [if_pos (by omega)]
    rfl

/-! ## Runs -/

/-- INTERNAL: the calls of a run are right exactly when there is room for each.
SOURCE: core/smr.cpp:30-57 -/
theorem appendsRight_iff_roomFor (calls : List LogCall) :
    AppendsRight grow calls ↔ (LogVector.call grow).Guarded RoomFor LogVector.new calls := by
  unfold AppendsRight
  refine Machine.returns_iff_guarded (J := fun v => v.capacity = reservedEntries) _ ?_ ?_ rfl
  · intro v call hcapacity hroom
    rcases appends_or_truncates call with happends | ⟨tIdx, rfl⟩
    · obtain ⟨e, epoch, -, -, hiff⟩ := call_of_appends grow happends
      obtain ⟨v', hcall, hcapacity', -⟩ :=
        call_right grow hcapacity happends ((hiff v).mp hroom)
      exact ⟨v', [lastIndex v + 1], hcall, fun _ => rfl, hcapacity'⟩
    · exact ⟨_, [], call_truncate grow hroom.1 hroom.2, fun h => absurd h Bool.false_ne_true,
        hcapacity⟩
  · intro v call hcapacity hroom
    rcases appends_or_truncates call with happends | ⟨tIdx, rfl⟩
    · obtain ⟨e, epoch, -, -, hiff⟩ := call_of_appends grow happends
      rw [hiff, not_lt] at hroom
      exact ⟨_, call_dangling grow hcapacity happends hroom⟩
    · exact call_truncate_stuck grow hroom

/-- INTERNAL: when all calls append, there is room for each exactly when there is room for as
many entries as there are calls. -/
theorem roomFor_appends {calls : List LogCall} (happends : ∀ call ∈ calls, call.appends = true)
    {v : LogVector} (hcapacity : v.capacity = reservedEntries) :
    (LogVector.call grow).Guarded RoomFor v calls ↔
      v.elements.length + calls.length ≤ reservedEntries := by
  induction calls generalizing v with
  | nil => exact iff_of_true trivial (hcapacity ▸ v.fits)
  | cons call calls ih =>
    obtain ⟨hfirst, hrest⟩ := List.forall_mem_cons.mp happends
    obtain ⟨e, epoch, -, -, hiff⟩ := call_of_appends grow hfirst
    rw [List.length_cons]
    by_cases hless : v.elements.length < reservedEntries
    · obtain ⟨v', hcall, hcapacity', hlength⟩ := call_right grow hcapacity hfirst hless
      have hnext := ih hrest hcapacity'
      constructor
      · intro hguard
        have hle := hnext.mp (hguard.2 v' _ hcall)
        omega
      · intro hle
        exact Machine.guarded_cons _ ((hiff v).mpr hless) hcall (hnext.mpr (by omega))
    · exact iff_of_false (fun hguard => hless ((hiff v).mp hguard.1)) (by omega)

/-- INTERNAL: more appends than there is room for end with a read of a reference that refers to
nothing. SOURCE: core/smr.cpp:36-42 -/
theorem appends_run_dangling {calls : List LogCall}
    (happends : ∀ call ∈ calls, call.appends = true) {v : LogVector}
    (hcapacity : v.capacity = reservedEntries)
    (hmany : reservedEntries < v.elements.length + calls.length) :
    (LogVector.call grow).run v calls = .error .dangling := by
  induction calls generalizing v with
  | nil =>
    have hfits := v.fits
    rw [hcapacity] at hfits
    exact absurd hfits (not_le.mpr hmany)
  | cons call calls ih =>
    obtain ⟨hfirst, hrest⟩ := List.forall_mem_cons.mp happends
    by_cases hless : v.elements.length < reservedEntries
    · obtain ⟨v', hcall, hcapacity', hlength⟩ := call_right grow hcapacity hfirst hless
      rw [List.length_cons] at hmany
      rw [Machine.run_cons_of_ok _ hcall, ih hrest hcapacity' (by omega)]
      rfl
    · exact Machine.run_cons_of_error _ (call_dangling grow hcapacity hfirst (not_lt.mp hless))

/-- **Appends are right as long as they find room.**  For every way in which the vector grows
and every sequence of appends and truncations on a new log: no append reads through a
reference that a move has left behind, and every append returns the index behind the last one,
exactly when every append meets a log with fewer than 1000000 entries and every truncation is
from an index of the log on, or from the one behind.  When all calls are appends, this is so
exactly when there are at most 1000000 of them. -/
theorem appends_right_iff :
    (∀ calls : List LogCall,
      AppendsRight grow calls ↔ (LogVector.call grow).Guarded RoomFor LogVector.new calls) ∧
    ∀ calls : List LogCall, (∀ call ∈ calls, call.appends = true) →
      (AppendsRight grow calls ↔ calls.length ≤ 1000000) := by
  refine ⟨appendsRight_iff_roomFor grow, fun calls happends => ?_⟩
  rw [appendsRight_iff_roomFor, roomFor_appends grow happends rfl]
  show 0 + calls.length ≤ 1000000 ↔ _
  rw [Nat.zero_add]

/-- The growth of the standard library at hand: to twice the size. -/
def doubling : Growth := ⟨fun capacity => capacity + max capacity 1, by intro c; omega⟩

/-- Two appends, one of each form. -/
theorem appends_right_few :
    AppendsRight doubling [.append ⟨1, 0, [7]⟩, .appendUnder ⟨0, 0, [8]⟩ 1] :=
  ((appends_right_iff doubling).2 _ (by decide)).mpr (by decide)

/-- The first append to a log of 1000000 entries. -/
theorem append_reads_moved :
    (LogVector.call doubling).run LogVector.new (List.replicate 1000001 (.append ⟨1, 0, [7]⟩)) =
        .error .dangling ∧
      ¬ AppendsRight doubling (List.replicate 1000001 (.append ⟨1, 0, [7]⟩)) := by
  have hdangling : (LogVector.call doubling).run LogVector.new
      (List.replicate 1000001 (.append ⟨1, 0, [7]⟩)) = .error .dangling := by
    apply appends_run_dangling doubling _ rfl
    · rw [List.length_replicate]
      show 1000000 < 0 + 1000001
      omega
    · intro call hcall
      rw [List.eq_of_mem_replicate hcall]
      rfl
  refine ⟨hdangling, ?_⟩
  rintro ⟨⟨v, os, hrun⟩, -⟩
  rw [hdangling] at hrun
  cases hrun

end MorphlingC.Analysis
