import MorphlingC.Analysis.OneOwner
import MorphlingC.Analysis.VoteTally

/-!
# One group over streams

When the messages of a group with one owner travel in streams, more is known than over a
network that loses and reorders.  The stream from the owner to a follower holds exactly the
entries that the follower does not have yet, in order; the stream back holds exactly the
acknowledgements that the owner has not counted yet, in order; and the commit index is the
highest index that a majority has been counted for.  This is `InOrder`, in which `counted`
is the last index counted for each replica.  Each handler keeps it: `InOrder.operation`,
`InOrder.append`, `InOrder.ack`.
-/

set_option autoImplicit false

namespace MorphlingC.Analysis

open MorphlingC.Library MorphlingC.Model

variable {n : ℕ}

/-! ## What is in a stream for a group -/

/-- The length of log that the message is for, when it is an append of the group. -/
def appendOf (gid : ℕ) : GenericMessage n → Option ℕ
  | .append msg _ => if msg.groupId = gid then some msg.prevIndex else none
  | .appendReply _ _ => none
  | .guidance _ _ => none

/-- What the message answers, when it is an acknowledgement of the group: whether the append
was taken, and the last index. -/
def ackOf (gid : ℕ) : GenericMessage n → Option (Bool × ℕ)
  | .append _ _ => none
  | .appendReply msg _ => if msg.groupId = gid then some (msg.success, msg.index) else none
  | .guidance _ _ => none

/-- The appends of the group among the messages, in order. -/
def appendsOf (gid : ℕ) (msgs : List (GenericMessage n)) : List ℕ :=
  msgs.filterMap (appendOf gid)

/-- The acknowledgements of the group among the messages, in order. -/
def acksOf (gid : ℕ) (msgs : List (GenericMessage n)) : List (Bool × ℕ) :=
  msgs.filterMap (ackOf gid)

@[simp] theorem appendsOf_append (gid : ℕ) (msgs msgs' : List (GenericMessage n)) :
    appendsOf gid (msgs ++ msgs') = appendsOf gid msgs ++ appendsOf gid msgs' :=
  List.filterMap_append

@[simp] theorem acksOf_append (gid : ℕ) (msgs msgs' : List (GenericMessage n)) :
    acksOf gid (msgs ++ msgs') = acksOf gid msgs ++ acksOf gid msgs' :=
  List.filterMap_append

/-! ## What has been counted -/

/-- The votes for all indices up to the one counted for each replica. -/
def castVotes (counted : Fin n → ℕ) : Finset (ℕ × ℕ) :=
  Finset.univ.biUnion fun j : Fin n => (Finset.Icc 1 (counted j)).image fun i => (j.val, i)

theorem mem_castVotes {counted : Fin n → ℕ} {p i : ℕ} :
    (p, i) ∈ castVotes counted ↔ ∃ j : Fin n, j.val = p ∧ 1 ≤ i ∧ i ≤ counted j := by
  simp only [castVotes, Finset.mem_biUnion, Finset.mem_univ, true_and, Finset.mem_image,
    Finset.mem_Icc, Prod.mk.injEq]
  constructor
  · rintro ⟨j, i', hi, rfl, rfl⟩
    exact ⟨j, rfl, hi⟩
  · rintro ⟨j, rfl, hi⟩
    exact ⟨j, i, hi, rfl, rfl⟩

/-- Counting one more index for a replica is one more vote. -/
theorem castVotes_update (counted : Fin n → ℕ) (j : Fin n) :
    castVotes (Function.update counted j (counted j + 1)) =
      insert (j.val, counted j + 1) (castVotes counted) := by
  ext ⟨p, i⟩
  rw [Finset.mem_insert, mem_castVotes, mem_castVotes, Prod.mk.injEq]
  constructor
  · rintro ⟨k, rfl, hpos, hle⟩
    by_cases hk : k = j
    · subst hk
      rw [Function.update_self] at hle
      by_cases hi : i = counted k + 1
      · exact .inl ⟨rfl, hi⟩
      · exact .inr ⟨k, rfl, hpos, by omega⟩
    · rw [Function.update_of_ne hk] at hle
      exact .inr ⟨k, rfl, hpos, hle⟩
  · rintro (⟨rfl, rfl⟩ | ⟨k, rfl, hpos, hle⟩)
    · exact ⟨j, rfl, by omega, by rw [Function.update_self]⟩
    · refine ⟨k, rfl, hpos, ?_⟩
      by_cases hk : k = j
      · subst hk
        rw [Function.update_self]
        omega
      · rwa [Function.update_of_ne hk]

/-- An index has the votes of a majority when a majority has been counted up to it. -/
theorem reached_castVotes {counted : Fin n → ℕ} {i : ℕ} (hi : 1 ≤ i) :
    Reached (n / 2 + 1) (castVotes counted) i ↔ Majority fun j => i ≤ counted j := by
  have hvoters : voters (castVotes counted) i =
      (Finset.univ.filter fun j : Fin n => i ≤ counted j).map Fin.valEmbedding := by
    ext p
    simp only [mem_voters, mem_castVotes, Finset.mem_map, Finset.mem_filter, Finset.mem_univ,
      true_and, Fin.valEmbedding_apply]
    constructor
    · rintro ⟨j, rfl, -, hle⟩
      exact ⟨j, hle, rfl⟩
    · rintro ⟨j, hle, rfl⟩
      exact ⟨j, rfl, hi, hle⟩
  rw [Reached, hvoters, Finset.card_map, majority_iff_card]

/-! ## The invariant -/

/-- **The invariant of a group with one owner over streams.** -/
structure InOrder (o : Fin n) (gid : ℕ) (smr : Fin n → SMR)
    (wire : Fin n → Fin n → List (GenericMessage n)) (counted : Fin n → ℕ) : Prop where
  appends : ∀ i j, appendsOf gid (wire i j) =
    if i = o then List.range' (smr j).log.log.length
      ((smr o).log.log.length - (smr j).log.log.length) else []
  acks : ∀ i j, acksOf gid (wire i j) =
    if j = o then (List.range' (counted i + 1)
      ((smr i).log.log.length - counted i)).map (true, ·) else []
  counted_le : ∀ i, counted i ≤ (smr i).log.log.length
  counted_owner : counted o = (smr o).log.log.length
  tallies : Tallies (smr o).entryVotes (castVotes counted)
  commits : ∀ i, 1 ≤ i → (i ≤ (smr o).log.commits ↔ Majority fun j => i ≤ counted j)

/-- INTERNAL: fresh replicas and empty streams are in the invariant. -/
theorem InOrder.init (o : Fin n) (gid : ℕ) :
    InOrder o gid (fun i => SMR.new i (List.range n) gid) (fun _ _ => []) fun _ => 0 where
  appends := fun i j => by
    split <;> rfl
  acks := fun i j => by
    split <;> rfl
  counted_le := fun _ => le_rfl
  counted_owner := rfl
  tallies := by
    have hnone : castVotes (fun _ : Fin n => 0) = ∅ := by
      ext ⟨p, i⟩
      rw [mem_castVotes]
      refine iff_of_false ?_ (Finset.notMem_empty _)
      rintro ⟨j, -, hpos, hle⟩
      omega
    rw [hnone]
    exact init_tallies _
  commits := fun i hi => by
    refine iff_of_false (Nat.not_le_of_lt hi) ?_
    rintro ⟨S, hcard, hS⟩
    obtain ⟨j, hj⟩ := Finset.card_pos.mp (lt_of_lt_of_le (Nat.succ_pos _) hcard)
    have hzero := hS j hj
    omega

/-- INTERNAL: **the owner takes an operation**: the new entry goes into the stream to every
follower, and is counted for the owner. SOURCE: core/smr.cpp:211-224 -/
theorem InOrder.operation {o : Fin n} {gid : ℕ} {smr : Fin n → SMR}
    {wire wire' : Fin n → Fin n → List (GenericMessage n)} {counted : Fin n → ℕ}
    {net : GenericMessage n → Prop} (q : InOrder o gid smr wire counted)
    (h : OneOwner o gid smr net) (hn : 2 ≤ n) {msg : ClientMessage} {s : SMR}
    {cbs : List Callback} {idx : ℕ}
    (hcall : (smr o).handleOperation msg = .ok (s, cbs, idx))
    (happends : ∀ i j, appendsOf gid (wire' i j) = appendsOf gid (wire i j) ++
      if i = o ∧ j ≠ o then [(smr o).log.log.length] else [])
    (hacks : ∀ i j, acksOf gid (wire' i j) = acksOf gid (wire i j)) :
    InOrder o gid (Function.update smr o s) wire'
      (Function.update counted o (counted o + 1)) := by
  obtain ⟨hidx, hlog, hcommits, -, -, -, ⟨reached, hvote⟩, -⟩ := handleOperation_ok hcall
  have hlen : s.log.log.length = (smr o).log.log.length + 1 := by
    rw [hlog, List.length_append, List.length_singleton]
  have hnext : idx = counted o + 1 := by rw [hidx, q.counted_owner]
  constructor
  · intro i j
    rw [happends, q.appends]
    by_cases hi : i = o
    · rw [if_pos hi, if_pos hi, Function.update_self, hlen]
      by_cases hj : j = o
      · subst hj
        rw [if_neg (by simp), Function.update_self, hlen, Nat.sub_self, Nat.sub_self]
        rfl
      · have hle := (h.isPrefix j).length_le
        rw [if_pos ⟨hi, hj⟩, Function.update_of_ne hj, Nat.succ_sub hle, List.range'_concat]
        simp [Nat.add_sub_cancel' hle]
    · rw [if_neg hi, if_neg hi, if_neg (fun h => hi h.1)]
      rfl
  · intro i j
    rw [hacks, q.acks]
    by_cases hi : i = o
    · subst hi
      rw [Function.update_self, Function.update_self, hlen, q.counted_owner, Nat.sub_self,
        Nat.sub_self]
      rfl
    · rw [Function.update_of_ne hi, Function.update_of_ne hi]
  · intro i
    by_cases hi : i = o
    · subst hi
      rw [Function.update_self, Function.update_self, hlen, q.counted_owner]
    · rw [Function.update_of_ne hi, Function.update_of_ne hi]
      exact q.counted_le i
  · rw [Function.update_self, Function.update_self, hlen, q.counted_owner]
  · rw [Function.update_self, castVotes_update, ← hnext, ← h.me o]
    exact (vote_tallies q.tallies hvote).1
  · intro i hi
    rw [Function.update_self, hcommits, q.commits i hi]
    by_cases hi' : i = idx
    · -- nobody but the owner can have the new entry
      refine iff_of_false (not_majority_of_unique hn (o := o) ?_)
        (not_majority_of_unique hn (o := o) ?_)
      · intro j hj
        have hle := (q.counted_le j).trans (h.isPrefix j).length_le
        omega
      · intro j hj
        by_contra hjo
        rw [Function.update_of_ne hjo] at hj
        have hle := (q.counted_le j).trans (h.isPrefix j).length_le
        omega
    · constructor
      · refine Majority.mono fun j hj => ?_
        by_cases hjo : j = o
        · subst hjo
          rw [Function.update_self]
          omega
        · rwa [Function.update_of_ne hjo]
      · refine Majority.mono fun j hj => ?_
        by_cases hjo : j = o
        · subst hjo
          rw [Function.update_self] at hj
          omega
        · rwa [Function.update_of_ne hjo] at hj

/-- INTERNAL: an append of the group that is next in a stream is from the owner, and is the
one that the log of the follower ends right before. -/
theorem InOrder.next_append {o : Fin n} {gid : ℕ} {smr : Fin n → SMR}
    {wire : Fin n → Fin n → List (GenericMessage n)} {counted : Fin n → ℕ}
    (q : InOrder o gid smr wire counted) {i j : Fin n} {prevIndex : ℕ} {rest : List ℕ}
    (hnext : appendsOf gid (wire i j) = prevIndex :: rest) :
    i = o ∧ prevIndex = (smr j).log.log.length ∧
      rest = List.range' ((smr j).log.log.length + 1)
        ((smr o).log.log.length - ((smr j).log.log.length + 1)) := by
  have hstream := q.appends i j
  rw [hnext] at hstream
  by_cases hi : i = o
  · rw [if_pos hi] at hstream
    cases hsub : (smr o).log.log.length - (smr j).log.log.length with
    | zero =>
      rw [hsub] at hstream
      cases hstream
    | succ k =>
      rw [hsub, List.range'_succ, List.cons.injEq] at hstream
      have hk : (smr o).log.log.length - ((smr j).log.log.length + 1) = k := by omega
      rw [hk]
      exact ⟨hi, hstream⟩
  · rw [if_neg hi] at hstream
    cases hstream

/-- INTERNAL: an acknowledgement of the group that is next in a stream is for the owner, and
is a success for the index after the last one counted. -/
theorem InOrder.next_ack {o : Fin n} {gid : ℕ} {smr : Fin n → SMR}
    {wire : Fin n → Fin n → List (GenericMessage n)} {counted : Fin n → ℕ}
    (q : InOrder o gid smr wire counted) {i j : Fin n} {ack : Bool × ℕ}
    {rest : List (Bool × ℕ)} (hnext : acksOf gid (wire i j) = ack :: rest) :
    j = o ∧ ack = (true, counted i + 1) ∧ counted i + 1 ≤ (smr i).log.log.length ∧
      rest = (List.range' (counted i + 2)
        ((smr i).log.log.length - (counted i + 1))).map (true, ·) := by
  have hstream := q.acks i j
  rw [hnext] at hstream
  by_cases hj : j = o
  · rw [if_pos hj] at hstream
    cases hsub : (smr i).log.log.length - counted i with
    | zero =>
      rw [hsub] at hstream
      cases hstream
    | succ k =>
      rw [hsub, List.range'_succ, List.map_cons, List.cons.injEq] at hstream
      have hk : (smr i).log.log.length - (counted i + 1) = k := by omega
      rw [hk]
      exact ⟨hj, hstream.1, by omega, hstream.2⟩
  · rw [if_neg hj] at hstream
    cases hstream

/-- INTERNAL: **a follower takes the next append**: it is the one that its log ends right
before, and its acknowledgement goes into the stream back.
SOURCE: core/smr.cpp:226-250 -/
theorem InOrder.append {o : Fin n} {gid : ℕ} {smr : Fin n → SMR}
    {wire wire' : Fin n → Fin n → List (GenericMessage n)} {counted : Fin n → ℕ}
    (q : InOrder o gid smr wire counted) {j : Fin n} (hj : j ≠ o) {s : SMR}
    {prevIndex : ℕ}
    (hnext : appendsOf gid (wire o j) = prevIndex :: appendsOf gid (wire' o j))
    (hgrow : s.log.log.length = (smr j).log.log.length + 1)
    (happends : ∀ a b, ¬ (a = o ∧ b = j) → appendsOf gid (wire' a b) = appendsOf gid (wire a b))
    (hacks : ∀ a b, acksOf gid (wire' a b) = acksOf gid (wire a b) ++
      if a = j ∧ b = o then [(true, s.log.log.length)] else []) :
    InOrder o gid (Function.update smr j s) wire' counted := by
  obtain ⟨-, -, htail⟩ := q.next_append hnext
  have hoj := Ne.symm hj
  constructor
  · intro a b
    rw [Function.update_of_ne hoj]
    by_cases hab : a = o ∧ b = j
    · obtain ⟨rfl, rfl⟩ := hab
      rw [if_pos rfl, Function.update_self, hgrow, htail]
    · rw [happends a b hab, q.appends]
      by_cases ha : a = o
      · have hb : b ≠ j := fun hb => hab ⟨ha, hb⟩
        rw [if_pos ha, if_pos ha, Function.update_of_ne hb]
      · rw [if_neg ha, if_neg ha]
  · intro a b
    rw [hacks, q.acks]
    by_cases ha : a = j
    · subst ha
      rw [Function.update_self, hgrow]
      by_cases hb : b = o
      · have hle := q.counted_le a
        rw [if_pos hb, if_pos ⟨rfl, hb⟩, if_pos hb, Nat.succ_sub hle, List.range'_concat]
        simp
        omega
      · rw [if_neg hb, if_neg hb, if_neg (fun h => hb h.2)]
        rfl
    · have hother : ¬ (a = j ∧ b = o) := fun hab => ha hab.1
      rw [if_neg hother, Function.update_of_ne ha, List.append_nil]
  · intro i
    by_cases hi : i = j
    · subst hi
      rw [Function.update_self, hgrow]
      exact Nat.le_succ_of_le (q.counted_le i)
    · rw [Function.update_of_ne hi]
      exact q.counted_le i
  · rw [Function.update_of_ne hoj]
    exact q.counted_owner
  · rw [Function.update_of_ne hoj]
    exact q.tallies
  · rw [Function.update_of_ne hoj]
    exact q.commits

/-- INTERNAL: **where one more count moves the commit index.**  When the commit index is the
highest index that a majority has been counted for, and the next index is counted for `j`,
it is so again after the move that `handle_append_entries_reply` makes.
SOURCE: core/smr.cpp:115-141, 252-268 -/
theorem commits_of_counted {counted : Fin n → ℕ} {j : Fin n} {commits commits' : ℕ}
    {votes votes' : EntryVoteRecord} {reached : Bool}
    (hcommits : ∀ i, 1 ≤ i → (i ≤ commits ↔ Majority fun k => i ≤ counted k))
    (htallies : Tallies votes (castVotes counted)) (hquorum : votes.quorum = n / 2 + 1)
    (hvote : votes.vote j (counted j + 1) = .ok (votes', reached))
    (hmove : ((reached = false ∨ counted j + 1 ≤ commits) ∧ commits' = commits) ∨
      (reached = true ∧ commits < counted j + 1 ∧ commits' = counted j + 1)) :
    ∀ i, 1 ≤ i → (i ≤ commits' ↔
      Majority fun k => i ≤ Function.update counted j (counted j + 1) k) := by
  obtain ⟨-, hreached⟩ := vote_tallies htallies hvote
  rw [hquorum, ← castVotes_update, reached_castVotes (by omega),
    reached_castVotes (by omega)] at hreached
  -- the count matters to its own index only, and to no index is it a loss
  have hgrow : ∀ i k, i ≤ counted k → i ≤ Function.update counted j (counted j + 1) k := by
    intro i k hk
    by_cases hkj : k = j
    · subst hkj
      rw [Function.update_self]
      omega
    · rwa [Function.update_of_ne hkj]
  have hsame : ∀ i k, i ≠ counted j + 1 → i ≤ Function.update counted j (counted j + 1) k →
      i ≤ counted k := by
    intro i k hi hk
    by_cases hkj : k = j
    · subst hkj
      rw [Function.update_self] at hk
      omega
    · rwa [Function.update_of_ne hkj] at hk
  intro i hi
  rcases hmove with ⟨hstay, rfl⟩ | ⟨htrue, hlt, rfl⟩
  · rw [hcommits i hi]
    refine ⟨Majority.mono (hgrow i), fun hmaj => ?_⟩
    by_cases hij : i = counted j + 1
    · subst hij
      rcases hstay with hfalse | hle
      · by_contra hnot
        rw [hreached.mpr ⟨hnot, hmaj⟩] at hfalse
        cases hfalse
      · exact (hcommits _ hi).mp hle
    · exact hmaj.mono fun k => hsame i k hij
  · constructor
    · intro hle
      exact (hreached.mp htrue).2.mono fun k hk => hle.trans hk
    · intro hmaj
      by_contra hgt
      have hold := (hcommits i hi).mpr (hmaj.mono fun k => hsame i k (by omega))
      omega

/-- INTERNAL: **the owner counts the next acknowledgement** of a follower: the commit index
moves to its index exactly when a majority has it now and had not before.
SOURCE: core/smr.cpp:252-268 -/
theorem InOrder.ack {o : Fin n} {gid : ℕ} {smr : Fin n → SMR}
    {wire wire' : Fin n → Fin n → List (GenericMessage n)} {counted : Fin n → ℕ}
    {net : GenericMessage n → Prop} (q : InOrder o gid smr wire counted)
    (h : OneOwner o gid smr net) {j : Fin n} (hj : j ≠ o) {msg : AppenEntriesReplyMessage}
    {s : SMR} {cbs : List Callback}
    (hcall : (smr o).handleAppendEntriesReply msg j = .ok (s, cbs))
    (hnext : acksOf gid (wire j o) = (msg.success, msg.index) :: acksOf gid (wire' j o))
    (hacks : ∀ a b, ¬ (a = j ∧ b = o) → acksOf gid (wire' a b) = acksOf gid (wire a b))
    (happends : ∀ a b, appendsOf gid (wire' a b) = appendsOf gid (wire a b)) :
    InOrder o gid (Function.update smr o s) wire'
      (Function.update counted j (counted j + 1)) := by
  obtain ⟨-, hack, hcount, htail⟩ := q.next_ack hnext
  rw [Prod.mk.injEq] at hack
  obtain ⟨hsuccess, hindex⟩ := hack
  obtain ⟨hlog, -⟩ := handleReply_applied hcall
  obtain ⟨votes, reached, hvote, hvotes, hmove⟩ : ∃ votes reached,
      (smr o).entryVotes.vote j (counted j + 1) = .ok (votes, reached) ∧ s.entryVotes = votes ∧
      (((reached = false ∨ counted j + 1 ≤ (smr o).log.commits) ∧
          s.log.commits = (smr o).log.commits) ∨
        (reached = true ∧ (smr o).log.commits < counted j + 1 ∧
          s.log.commits = counted j + 1)) := by
    rw [← hindex]
    rcases handleReply_cases hcall with ⟨hfail, -⟩ | ⟨-, votes, reached, hvote, hcase⟩
    · rw [hsuccess] at hfail
      cases hfail
    · rcases hcase with ⟨hstay, rfl, -⟩ | ⟨htrue, hlt, -, rfl, -⟩
      · exact ⟨votes, reached, hvote, rfl, .inl ⟨hstay, rfl⟩⟩
      · exact ⟨votes, reached, hvote, rfl, .inr ⟨htrue, hlt, rfl⟩⟩
  have hlen : ∀ i, (Function.update smr o s i).log.log.length = (smr i).log.log.length :=
    update_frame smr o (fun s => s.log.log.length) (congrArg List.length hlog)
  constructor
  · intro a b
    rw [happends, q.appends, hlen, hlen]
  · intro a b
    rw [hlen]
    by_cases hab : a = j ∧ b = o
    · obtain ⟨rfl, rfl⟩ := hab
      rw [if_pos rfl, Function.update_self, htail]
    · rw [hacks a b hab, q.acks]
      by_cases hb : b = o
      · have ha : a ≠ j := fun ha => hab ⟨ha, hb⟩
        rw [if_pos hb, if_pos hb, Function.update_of_ne ha]
      · rw [if_neg hb, if_neg hb]
  · intro i
    rw [hlen]
    by_cases hi : i = j
    · subst hi
      rw [Function.update_self]
      exact hcount
    · rw [Function.update_of_ne hi]
      exact q.counted_le i
  · rw [hlen, Function.update_of_ne (Ne.symm hj)]
    exact q.counted_owner
  · rw [Function.update_self, castVotes_update, hvotes]
    exact (vote_tallies q.tallies hvote).1
  · rw [Function.update_self]
    refine commits_of_counted q.commits q.tallies ?_ hvote hmove
    rw [EntryVoteRecord.majority, h.voters]

/-- INTERNAL: what travels for other groups does not matter. -/
theorem InOrder.same {o : Fin n} {gid : ℕ} {smr : Fin n → SMR}
    {wire wire' : Fin n → Fin n → List (GenericMessage n)} {counted : Fin n → ℕ}
    (q : InOrder o gid smr wire counted)
    (happends : ∀ i j, appendsOf gid (wire' i j) = appendsOf gid (wire i j))
    (hacks : ∀ i j, acksOf gid (wire' i j) = acksOf gid (wire i j)) :
    InOrder o gid smr wire' counted :=
  { q with
    appends := fun i j => (happends i j).trans (q.appends i j)
    acks := fun i j => (hacks i j).trans (q.acks i j) }

/-! ## What it says -/

/-- INTERNAL: what is counted for a replica is its log without the acknowledgements that are
still in its stream. -/
theorem InOrder.counted_eq {o : Fin n} {gid : ℕ} {smr : Fin n → SMR}
    {wire : Fin n → Fin n → List (GenericMessage n)} {counted : Fin n → ℕ}
    (q : InOrder o gid smr wire counted) (j : Fin n) :
    counted j + (acksOf gid (wire j o)).length = (smr j).log.log.length := by
  have hle := q.counted_le j
  rw [q.acks, if_pos rfl, List.length_map, List.length_range']
  omega

/-- INTERNAL: **when nothing of the group is on its way**, every log is the owner's, and all of
it is committed at the owner. -/
theorem InOrder.complete {o : Fin n} {gid : ℕ} {smr : Fin n → SMR}
    {wire : Fin n → Fin n → List (GenericMessage n)} {counted : Fin n → ℕ}
    {net : GenericMessage n → Prop} (q : InOrder o gid smr wire counted)
    (h : OneOwner o gid smr net) (happends : ∀ j, appendsOf gid (wire o j) = [])
    (hacks : ∀ j, acksOf gid (wire j o) = []) :
    (∀ j, (smr j).log.log = (smr o).log.log) ∧
      (smr o).log.commits = (smr o).log.log.length := by
  have hlen : ∀ j, (smr j).log.log.length = (smr o).log.log.length := by
    intro j
    have hle := (h.isPrefix j).length_le
    have hnone := q.appends o j
    rw [happends, if_pos rfl, eq_comm, List.range'_eq_nil_iff] at hnone
    omega
  refine ⟨fun j => (h.isPrefix j).eq_of_length (hlen j), ?_⟩
  apply le_antisymm (h.bounded o)
  by_cases hpos : 1 ≤ (smr o).log.log.length
  · apply (q.commits _ hpos).mpr
    apply majority_of_forall (lt_of_le_of_lt (Nat.zero_le _) o.isLt)
    intro j
    have hcount := q.counted_eq j
    rw [hacks, hlen] at hcount
    exact hcount.ge
  · omega

end MorphlingC.Analysis
