import MorphlingC.Library.Machine

/-!
# Taking one item per event off a stream

Items are written one after another onto a stream, which arrives in pieces.  A reader gets
one event for each piece; its state is what has arrived and has not been taken yet.  Two
ways of saying that it takes one item per event: `Whole`, when the next item has arrived it
is taken, and `Only`, nothing else is ever taken.

A reader with both goes on exactly as long as after every event there have arrived at least
as many items as there were events (`KeepsUp`), and it has then taken that many
(`run_of_keepsUp`, `keepsUp_of_run`).
-/

set_option autoImplicit false

namespace MorphlingC.Library

/-- How items are written, which of them can be read, and what a reader makes of one. -/
structure Script (α ι ο : Type) where
  write : ι → List α
  readable : ι → Prop
  made : ι → ο

namespace Script

variable {α ι ο φ : Type} (w : Script α ι ο)

/-- The items as they are written, one after another. -/
def writeAll (items : List ι) : List α := items.flatMap w.write

@[simp] theorem writeAll_nil : w.writeAll [] = [] := rfl

@[simp] theorem writeAll_cons (i : ι) (items : List ι) :
    w.writeAll (i :: items) = w.write i ++ w.writeAll items := by
  simp [writeAll]

/-- When a readable item has arrived as a whole, it is taken. -/
def Whole (m : Machine (List α) (List α) ο φ) : Prop :=
  ∀ i buffer piece rest, w.readable i → buffer ++ piece = w.write i ++ rest →
    m buffer piece = .ok (rest, [w.made i])

/-- What is taken when the stream goes on with an item is that item, which is readable and
has arrived as a whole; and nothing is taken of nothing. -/
def Only (m : Machine (List α) (List α) ο φ) : Prop :=
  (∀ i buffer piece more s os, buffer ++ piece <+: w.write i ++ more →
    m buffer piece = .ok (s, os) →
      w.readable i ∧ buffer ++ piece = w.write i ++ s ∧ os = [w.made i]) ∧
  ∀ s os, m [] [] ≠ .ok (s, os)

/-- After every event there have arrived, with what was there before, at least as many items
as there were events, and the last of these is readable. -/
def KeepsUp (items : List ι) (before : ℕ) (pieces : List (List α)) : Prop :=
  ∀ k < pieces.length, ∃ i, items[k]? = some i ∧ w.readable i ∧
    (w.writeAll (items.take (k + 1))).length ≤
      before + (pieces.take (k + 1)).flatten.length

/-- Keeping up with the first event, and then with the others. -/
theorem keepsUp_cons {i : ι} {items : List ι} {before : ℕ} {piece : List α}
    {pieces : List (List α)} {rest : ℕ}
    (hlen : before + piece.length = (w.write i).length + rest) (hi : w.readable i) :
    w.KeepsUp (i :: items) before (piece :: pieces) ↔ w.KeepsUp items rest pieces := by
  constructor
  · intro h k hk
    obtain ⟨j, hj, hread, hle⟩ := h (k + 1) (by simpa using hk)
    refine ⟨j, hj, hread, ?_⟩
    simp only [List.take_succ_cons, writeAll_cons, List.length_append, List.flatten_cons] at hle
    omega
  · intro h k hk
    cases k with
    | zero =>
      refine ⟨i, rfl, hi, ?_⟩
      simp only [List.take_succ_cons, List.take_zero, writeAll_cons, writeAll_nil,
        List.append_nil, List.flatten_cons, List.flatten_nil]
      omega
    | succ k =>
      obtain ⟨j, hj, hread, hle⟩ := h k (by simpa using hk)
      refine ⟨j, hj, hread, ?_⟩
      simp only [List.take_succ_cons, writeAll_cons, List.length_append, List.flatten_cons]
        at hle ⊢
      omega

/-- A stream that arrives item by item keeps up. -/
theorem keepsUp_map_write {items : List ι} (h : ∀ i ∈ items, w.readable i) :
    w.KeepsUp items 0 (items.map w.write) := by
  intro k hk
  rw [List.length_map] at hk
  refine ⟨items.get ⟨k, hk⟩, List.getElem?_eq_getElem hk, h _ (List.get_mem items _), ?_⟩
  rw [← List.map_take, ← List.flatMap_def, Nat.zero_add]
  exact Nat.le_refl _

/-- **A reader that takes whole items goes on as long as the stream keeps up**, and takes one
item per event. -/
theorem run_of_keepsUp {m : Machine (List α) (List α) ο φ} (hm : w.Whole m)
    {pieces : List (List α)} {items : List ι} {buffer : List α}
    (hstream : buffer ++ pieces.flatten <+: w.writeAll items)
    (h : w.KeepsUp items buffer.length pieces) :
    ∃ s, m.run buffer pieces = .ok (s, (items.take pieces.length).map w.made) := by
  induction pieces generalizing items buffer with
  | nil => exact ⟨buffer, by simp⟩
  | cons piece pieces ih =>
    obtain ⟨i, hi, hread, hle⟩ := h 0 (by simp)
    cases items with
    | nil => cases hi
    | cons j items =>
      cases hi
      simp only [List.take_succ_cons, List.take_zero, writeAll_cons, writeAll_nil,
        List.append_nil, List.flatten_cons, List.flatten_nil, Nat.zero_add] at hle
      rw [List.flatten_cons, ← List.append_assoc, writeAll_cons] at hstream
      -- the first item has arrived as a whole
      have hfirst : w.write i <+: buffer ++ piece := by
        refine List.prefix_of_prefix_length_le (List.prefix_append _ _)
          ((List.prefix_append _ _).trans hstream) ?_
        rw [List.length_append]
        omega
      obtain ⟨rest, hrest⟩ := hfirst
      rw [← hrest, List.append_assoc, List.prefix_append_right_inj] at hstream
      have hlen : buffer.length + piece.length = (w.write i).length + rest.length := by
        rw [← List.length_append, ← List.length_append, hrest]
      obtain ⟨s, hs⟩ := ih hstream ((w.keepsUp_cons hlen hread).mp h)
      refine ⟨s, m.run_cons_ok.mpr ⟨rest, [w.made i], _, hm i _ _ _ hread hrest.symm, hs, ?_⟩⟩
      simp

/-- **A reader that takes nothing else goes on only as long as the stream keeps up.** -/
theorem keepsUp_of_run {m : Machine (List α) (List α) ο φ} (hm : w.Only m)
    {pieces : List (List α)} {items : List ι} {buffer s : List α} {os : List ο}
    (hstream : buffer ++ pieces.flatten <+: w.writeAll items)
    (h : m.run buffer pieces = .ok (s, os)) :
    w.KeepsUp items buffer.length pieces ∧ os = (items.take pieces.length).map w.made := by
  induction pieces generalizing items buffer os with
  | nil =>
    rw [Machine.run_nil, Except.ok.injEq, Prod.mk.injEq] at h
    refine ⟨?_, by simp [h.2.symm]⟩
    intro k hk
    cases hk
  | cons piece pieces ih =>
    obtain ⟨s', o, os', hstep, hrun, rfl⟩ := m.run_cons_ok.mp h
    rw [List.flatten_cons, ← List.append_assoc] at hstream
    cases items with
    | nil =>
      -- there is nothing on the stream any more
      have hempty := List.prefix_nil.mp hstream
      rw [List.append_eq_nil_iff, List.append_eq_nil_iff] at hempty
      obtain ⟨⟨rfl, rfl⟩, -⟩ := hempty
      exact absurd hstep (hm.2 _ _)
    | cons i items =>
      rw [writeAll_cons] at hstream
      obtain ⟨hread, htaken, rfl⟩ :=
        hm.1 i _ _ _ _ _ ((List.prefix_append _ _).trans hstream) hstep
      rw [htaken, List.append_assoc, List.prefix_append_right_inj] at hstream
      have hlen : buffer.length + piece.length = (w.write i).length + s'.length := by
        rw [← List.length_append, ← List.length_append, htaken]
      obtain ⟨hkeeps, rfl⟩ := ih hstream hrun
      exact ⟨(w.keepsUp_cons hlen hread).mpr hkeeps, by simp⟩

end Script

end MorphlingC.Library
