import MorphlingC.Model.Replica
import MorphlingC.Library.Store

/-!
# What replies are meant to be

Reading the effects of a run: which client's operation became which entry, which entries
were queued to be applied, which answers were given, and what reads were told.  On top of
that, two statements of purpose.

* Every queued entry has had its answer or is in the replica's queue, and the answers are
  those entries', in their order, each to the client whose operation became the entry
  (`RightlyAnswered`).
* What a key holds after some entries is the data of the last write to it among them
  (`heldAfter`).

Nothing here is translated from the source.
-/

set_option autoImplicit false

namespace MorphlingC.Interface

open MorphlingC.Library MorphlingC.Model

variable {n : ℕ} {τ : Type}

/-! ## Reading effects -/

/-- The operations that became entries: group, index and the client's transport. -/
def createdOps (h : List (Effect n τ)) : List (ℕ × ℕ × τ) :=
  h.filterMap fun
    | .created group index tr => some (group, index, tr)
    | _ => none

/-- The entries queued to be applied, each with its group, in order. -/
def queuedEntries (h : List (Effect n τ)) : List (ℕ × Entry) :=
  h.flatMap fun
    | .queued group entries => entries.map (group, ·)
    | _ => []

/-- The answers given to applied entries, in order. -/
def answers (h : List (Effect n τ)) : List (Entry × τ) :=
  h.filterMap fun
    | .answered entry tr _ => some (entry, tr)
    | _ => none

/-- The replies given to reads, in order. -/
def reads (h : List (Effect n τ)) : List (ClientReplyMessage n) :=
  h.filterMap fun
    | .read _ reply => some reply
    | _ => none

/-- The effects at one replica of a cluster. -/
def effectsAt (h : List (Fin n × Effect n τ)) (i : Fin n) : List (Effect n τ) :=
  h.filterMap fun e => if e.1 = i then some e.2 else none

@[simp] theorem createdOps_append (h h' : List (Effect n τ)) :
    createdOps (h ++ h') = createdOps h ++ createdOps h' := List.filterMap_append

@[simp] theorem queuedEntries_append (h h' : List (Effect n τ)) :
    queuedEntries (h ++ h') = queuedEntries h ++ queuedEntries h' := List.flatMap_append

@[simp] theorem answers_append (h h' : List (Effect n τ)) :
    answers (h ++ h') = answers h ++ answers h' := List.filterMap_append

@[simp] theorem reads_append (h h' : List (Effect n τ)) :
    reads (h ++ h') = reads h ++ reads h' := List.filterMap_append

@[simp] theorem effectsAt_append (h h' : List (Fin n × Effect n τ)) (i : Fin n) :
    effectsAt (h ++ h') i = effectsAt h i ++ effectsAt h' i := List.filterMap_append

/-- Effects of one replica are its own and nobody else's. -/
theorem effectsAt_map (h : List (Effect n τ)) (i j : Fin n) :
    effectsAt (h.map (i, ·)) j = if j = i then h else [] := by
  unfold effectsAt
  rw [List.filterMap_map]
  by_cases hij : j = i
  · simp [hij]
  · simp [hij, Ne.symm hij]

/-- The decoder of operations on short ones: a msgpack array of the type, a two-byte key and
one byte of data. -/
def unpackShort : Bytes → Option Operation
  | [0x93, opType, 0xcd, hi, lo, 0xc4, 1, byte] =>
    some ⟨opType.toNat, hi.toNat * 256 + lo.toNat, [byte]⟩
  | _ => none

/-! ## Answers -/

/-- The transport of the client whose operation became the entry. -/
def creator (h : List (Effect n τ)) (group index : ℕ) : Option τ :=
  ((createdOps h).find? fun c => c.1 = group ∧ c.2.1 = index).map fun c => c.2.2

/-- The clients of a replica `m` that has had the effects `h` have been answered rightly.
The entries queued so far are those that have been answered and those that `m` has still to
apply; each of the former was answered exactly once, in their order, to the client whose
operation became the entry.  No entry is queued twice, and each was created by one call. -/
structure RightlyAnswered (m : Morphling n τ) (h : List (Effect n τ)) : Prop where
  toCreator : ∃ answered rest, queuedEntries h = answered ++ rest ∧
    rest.map Prod.snd = m.applyEntries ∧
    (answers h).map (fun a => (a.1, some a.2)) =
      answered.map fun q => (q.2, creator h q.1 q.2.index)
  once : ((queuedEntries h).map fun q => (q.1, q.2.index)).Nodup
  oneCall : ((createdOps h).map fun c => (c.1, c.2.1)).Nodup

/-- When the queue has been applied, all that was queued has been answered. -/
theorem RightlyAnswered.of_applied {m : Morphling n τ} {h : List (Effect n τ)}
    (hr : RightlyAnswered m h) (hm : m.applyEntries = []) :
    (answers h).map (fun a => (a.1, some a.2)) =
      (queuedEntries h).map fun q => (q.2, creator h q.1 q.2.index) := by
  obtain ⟨answered, rest, hqueue, hrest, hanswers⟩ := hr.toCreator
  rw [hm, List.map_eq_nil_iff] at hrest
  rw [hanswers, hqueue, hrest, List.append_nil]

/-- Whoever created an entry is known. -/
theorem creator_isSome_of_mem {h : List (Effect n τ)} {c : ℕ × ℕ × τ} (hc : c ∈ createdOps h) :
    (creator h c.1 c.2.1).isSome := by
  unfold creator
  rw [Option.isSome_map, List.find?_isSome]
  exact ⟨c, hc, by simp⟩

/-- Who created an entry, over two parts of a run: the first part knows first. -/
theorem creator_append (h h' : List (Effect n τ)) (group index : ℕ) :
    creator (h ++ h') group index = (creator h group index).or (creator h' group index) := by
  unfold creator
  rw [createdOps_append, List.find?_append, Option.map_or]

/-- A part of a run that creates nothing does not matter to who created an entry. -/
theorem creator_append_of_quiet {h h' : List (Effect n τ)} (hq : createdOps h' = [])
    (group index : ℕ) : creator (h ++ h') group index = creator h group index := by
  rw [creator_append]
  unfold creator
  rw [hq]
  simp

/-- Who created an entry, when one more has been created. -/
theorem creator_append_created (h : List (Effect n τ)) (gid idx : ℕ) (tr : τ) (g i : ℕ) :
    creator (h ++ [.created gid idx tr]) g i =
      (creator h g i).or (if gid = g ∧ idx = i then some tr else none) := by
  have hcreated : createdOps [(.created gid idx tr : Effect n τ)] = [(gid, idx, tr)] := rfl
  rw [creator_append, creator, creator, hcreated]
  congr 1
  by_cases hgi : gid = g ∧ idx = i
  · simp [hgi]
  · simp [hgi]

/-- Who created an entry does not change any more. -/
theorem creator_append_of_isSome {h : List (Effect n τ)} {group index : ℕ}
    (hsome : (creator h group index).isSome) (h' : List (Effect n τ)) :
    creator (h ++ h') group index = creator h group index := by
  rw [creator_append]
  exact Option.or_of_isSome hsome

/-! ## Reads -/

/-- The writes among entries: key and data of each operation of type 1. -/
def writesOf (unpack : Bytes → Option Operation) (entries : List Entry) : List (ℕ × Bytes) :=
  entries.filterMap fun e =>
    match unpack e.data with
    | some op => if op.opType = 1 then some (op.keyHash, op.data) else none
    | none => none

/-- What a key holds after the entries: the data of the last write to it, or nothing. -/
def heldAfter (unpack : Bytes → Option Operation) (entries : List Entry) (k : ℕ) : Bytes :=
  (lastWrite k (writesOf unpack entries)).getD []

@[simp] theorem writesOf_nil (unpack : Bytes → Option Operation) :
    writesOf unpack [] = [] := rfl

@[simp] theorem writesOf_append (unpack : Bytes → Option Operation) (es es' : List Entry) :
    writesOf unpack (es ++ es') = writesOf unpack es ++ writesOf unpack es' :=
  List.filterMap_append

/-- Storing the writes of further entries moves what a key holds on to what it holds after
all of them. -/
theorem applyWrites_heldAfter (unpack : Bytes → Option Operation) (es es' : List Entry)
    (store : ℕ → Bytes) {k : ℕ} (h : store k = heldAfter unpack es k) :
    applyWrites store (writesOf unpack es') k = heldAfter unpack (es ++ es') k := by
  unfold heldAfter at h ⊢
  rw [applyWrites_apply, h, writesOf_append, lastWrite_append]
  cases lastWrite k (writesOf unpack es') <;> rfl

end MorphlingC.Interface
