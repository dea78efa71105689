import MorphlingC.Analysis.VoteTally
import MorphlingC.Analysis.Handlers

/-!
# Votes for an entry and votes for an index

The vote record is keyed by index alone, and `truncate` does not touch it.  An entry that is
put at an index where another one was truncated finds the votes for that one there, or finds
the index complete already, in which case it can never be committed by votes.

For any sequence of calls of the three handlers, the votes counted for an entry are its own,
and every entry put can gather a quorum, as long as entries are put only at indices without
votes (`votes_belong_of_fresh`).
-/

set_option autoImplicit false

namespace MorphlingC.Analysis

open MorphlingC.Library MorphlingC.Model MorphlingC.Interface MorphlingC.Model.SMR

/-! ## Where a call puts entries -/

/-- The indices at which a message puts its entries: none if it is refused, those of the
missing ones if it starts before the last entry, else those behind the last entry. -/
def putByAppend (log : List Entry) (msg : AppendEntriesMessage) : List ℕ :=
  if termAt log msg.prevIndex ≠ some msg.prevTerm then []
  else if msg.prevIndex < log.length then
    match missing log msg.entries with
    | [] => []
    | e :: rest => List.range' e.index (rest.length + 1)
  else List.range' (log.length + 1) msg.entries.length

/-- The indices at which the call puts an entry. -/
def putBy (s : SMR) : SMRCall → List ℕ
  | .operation _ => [s.log.log.length + 1]
  | .append msg _ => putByAppend s.log.log msg
  | .reply _ _ => []

/-! ## The votes for the entries that are there -/

/-- A group at one replica, with the votes cast for each index since the entry that is now
at the index was put there. -/
structure Voting where
  smr : SMR
  since : Finset (ℕ × ℕ)

namespace Voting

/-- The vote that a call casts: the own one for a new entry, or that of an acknowledgement. -/
def castBy (s : SMR) : SMRCall → Finset (ℕ × ℕ)
  | .operation _ => {(s.me, s.log.log.length + 1)}
  | .append _ _ => ∅
  | .reply msg sender => if msg.success then {(sender, msg.index)} else ∅

/-- A group that has not done anything yet. -/
def new (me : ℕ) (peers : List ℕ) (gid : ℕ) : Voting where
  smr := SMR.new me peers gid
  since := ∅

/-- One call of a handler; the votes for an index are forgotten when an entry is put there. -/
def step : Machine Voting SMRCall Callback Fault
  | v, c => do
    let (smr, cbs) ← SMR.call v.smr c
    .ok ({ smr := smr
           since := (v.since.filter fun x => x.2 ∉ putBy v.smr c) ∪ castBy v.smr c }, cbs)

/-- When an acknowledgement advances the commit index, a majority of flags is up there, each
of a replica that has voted since the entry was put; and every index at which an entry is
put can gather a quorum. -/
structure VotesBelong (v : Voting) (c : SMRCall) (v' : Voting) (cbs : List Callback) :
    Prop where
  counted : ∀ msg sender, c = .reply msg sender →
    v.smr.log.currCommit < v'.smr.log.currCommit →
    v'.smr.log.currCommit = msg.index ∧
      v.smr.peers.length / 2 + 1 ≤ (v'.smr.entryVotes.record msg.index).count true ∧
      ∀ p, v'.smr.entryVotes.Voted p msg.index → (p, msg.index) ∈ v'.since
  gathers : ∀ i ∈ putBy v.smr c, CanGather v.smr.entryVotes i

/-- The call puts entries only at indices that are not complete and that nobody has voted
for. -/
def PutsFresh (v : Voting) (c : SMRCall) : Prop :=
  ∀ i ∈ putBy v.smr c,
    v.smr.entryVotes.entryComplete i = false ∧ true ∉ v.smr.entryVotes.record i

instance (v : Voting) : DecidablePred v.PutsFresh := fun _ =>
  inferInstanceAs (Decidable (∀ i ∈ _, _ ∧ _))

/-- Until an index is complete, its flags are those of votes for the entry that is there. -/
structure Fresh (v : Voting) : Prop where
  peers : v.smr.peers.length = v.smr.entryVotes.peerNum
  pos : 0 < v.smr.entryVotes.peerNum
  since : ∀ i p, v.smr.entryVotes.entryComplete i = false →
    v.smr.entryVotes.Voted p i → (p, i) ∈ v.since

/-- INTERNAL: one vote raises no flag but its own, and opens no complete index.
SOURCE: core/smr.cpp:115-141 -/
theorem vote_frame {r r' : EntryVoteRecord} {id index : ℕ} {b : Bool}
    (h : r.vote id index = .ok (r', b)) {i : ℕ} (hopen : r'.entryComplete i = false) :
    r.entryComplete i = false ∧
      ∀ p, r'.Voted p i → r.Voted p i ∨ (p, i) ∈ ({(id, index)} : Finset (ℕ × ℕ)) := by
  constructor
  · rcases EntryVoteRecord.vote_cases h with ⟨-, rfl, -⟩ | ⟨-, -, -, -, -, hcomp⟩
    · exact hopen
    · rw [hcomp] at hopen
      cases b with
      | false => exact hopen
      | true =>
        by_cases hi : i = index
        · subst hi
          simp at hopen
        · simpa [hi] using hopen
  · intro p hp
    simpa using EntryVoteRecord.vote_voted h hp

/-- INTERNAL: **what a call does to the votes**: the flags of an index that is open after it
were up before it, or are those of the vote it casts. SOURCE: core/smr.cpp:211-268 -/
theorem call_votes {s s' : SMR} {c : SMRCall} {cbs : List Callback}
    (h : SMR.call s c = .ok (s', cbs)) :
    s'.peers = s.peers ∧ s'.entryVotes.peerNum = s.entryVotes.peerNum ∧
      ∀ i, s'.entryVotes.entryComplete i = false → s.entryVotes.entryComplete i = false ∧
        ∀ p, s'.entryVotes.Voted p i → s.entryVotes.Voted p i ∨ (p, i) ∈ castBy s c := by
  cases c with
  | operation msg =>
    obtain ⟨idx, hop⟩ := call_operation_ok.mp h
    obtain ⟨rfl, -, -, -, -, hpeers, ⟨reached, hv⟩, -⟩ := handleOperation_ok hop
    exact ⟨hpeers, EntryVoteRecord.vote_peerNum hv, fun i hopen => vote_frame hv hopen⟩
  | append msg sender =>
    rw [handleAppendEntries_frame h]
    exact ⟨rfl, rfl, fun i hopen => ⟨hopen, fun p hp => .inl hp⟩⟩
  | reply msg sender =>
    rcases handleReply_cases h with ⟨-, rfl, -⟩ | ⟨hs, votes, reached, hv, hcase⟩
    · exact ⟨rfl, rfl, fun i hopen => ⟨hopen, fun p hp => .inl hp⟩⟩
    · have hframe : s'.peers = s.peers ∧ s'.entryVotes = votes := by
        rcases hcase with ⟨-, rfl, -⟩ | ⟨-, -, -, rfl, -⟩ <;> exact ⟨rfl, rfl⟩
      obtain ⟨hpeers, rfl⟩ := hframe
      dsimp only [castBy]
      rw [if_pos hs]
      exact ⟨hpeers, EntryVoteRecord.vote_peerNum hv, fun i hopen => vote_frame hv hopen⟩

/-- INTERNAL: a flag that is up is one of its vector. -/
theorem mem_of_voted {r : EntryVoteRecord} {p i : ℕ} (h : r.Voted p i) : true ∈ r.record i :=
  List.mem_of_getElem? h

/-- INTERNAL: **one call.**  If it puts entries only at fresh indices, the votes it counts
belong to the entry, and the flags stay those of the entries that are there.
SOURCE: core/smr.cpp:115-141, 194-268 -/
theorem step_belongs {v v' : Voting} {c : SMRCall} {cbs : List Callback} (hv : v.Fresh)
    (hputs : v.PutsFresh c) (h : v.step c = .ok (v', cbs)) :
    VotesBelong v c v' cbs ∧ v'.Fresh := by
  unfold step at h
  obtain ⟨⟨smr, cbs₁⟩, hcall, heq⟩ := bind_eq_ok.mp h
  cases heq
  obtain ⟨hpeers, hnum, hvotes⟩ := call_votes hcall
  constructor
  · constructor
    · rintro msg sender rfl hlt
      dsimp only [SMRLog.currCommit] at hlt
      rcases handleReply_cases hcall with ⟨-, rfl, -⟩ | ⟨hs, votes, reached, hvote, hcase⟩
      · exact absurd hlt (lt_irrefl _)
      rcases hcase with ⟨-, rfl, -⟩ | ⟨rfl, -, -, rfl, -⟩
      · exact absurd hlt (lt_irrefl _)
      refine ⟨rfl, ?_, ?_⟩
      · dsimp only
        rw [EntryVoteRecord.vote_true_count hvote, EntryVoteRecord.vote_peerNum hvote, hv.peers]
      · intro p hp
        simp only [putBy, castBy, hs, List.not_mem_nil, not_false_eq_true, Finset.filter_true,
          if_true, Finset.mem_union, Finset.mem_singleton, Prod.mk.injEq]
        rcases EntryVoteRecord.vote_cases hvote with ⟨-, -, hfalse⟩ | ⟨hopen, -⟩
        · cases hfalse
        · rcases EntryVoteRecord.vote_voted hvote hp with hold | hown
          · exact .inl (hv.since _ p hopen hold)
          · exact .inr ⟨hown.1, trivial⟩
    · intro i hi
      obtain ⟨hopen, hnone⟩ := hputs i hi
      exact fresh_canGather hv.pos hopen fun p hp => hnone (mem_of_voted hp)
  · refine ⟨?_, ?_, ?_⟩
    · show smr.peers.length = smr.entryVotes.peerNum
      rw [hpeers, hnum, hv.peers]
    · show 0 < smr.entryVotes.peerNum
      rw [hnum]
      exact hv.pos
    · intro i p hopen hp
      obtain ⟨hopen', hflags⟩ := hvotes i hopen
      rw [Finset.mem_union, Finset.mem_filter]
      rcases hflags p hp with hold | hcast
      · -- the index had a flag, so no entry has been put there
        exact .inl ⟨hv.since i p hopen' hold, fun hput => (hputs i hput).2 (mem_of_voted hold)⟩
      · exact .inr hcast

end Voting

open Voting in
/-- **Votes belong to the entry as long as entries are put at fresh indices.**  For any
number of replicas and every sequence of calls of the three handlers at one replica in which
no entry is put at an index that is complete or has votes: whenever an acknowledgement
advances the commit index, a majority of flags is up there and each is of a replica that has
voted for the index since the entry there was put; and every index at which an entry is put
can gather a quorum. SOURCE: core/smr.cpp:51-57, 115-141, 194-268 -/
theorem votes_belong_of_fresh (me : ℕ) (peers : List ℕ) (gid : ℕ) (hn : 0 < peers.length)
    (calls : List SMRCall)
    (hfresh : Machine.Guarded step PutsFresh (new me peers gid) calls) :
    Machine.EachStep step VotesBelong (new me peers gid) calls := by
  apply Machine.eachStep_of_guarded step (G := PutsFresh) (J := Fresh) _ _ hfresh
  · intro v c v' cbs hv hputs h
    exact step_belongs hv hputs h
  · refine ⟨rfl, hn, ?_⟩
    intro i p _ hp
    exact absurd hp (EntryVoteRecord.init_not_voted peers.length p i)

/-- An operation and the acknowledgement that commits it, and then a message that puts
another entry behind it. -/
theorem votes_belong_in_turn :
    Machine.EachStep Voting.step Voting.VotesBelong (Voting.new 0 [0, 1, 2] 0)
      [.operation ⟨1, 5, [7]⟩, .reply { success := true, index := 1 } 1,
        .append { prevTerm := 1, prevIndex := 1, commit := 1, entries := [⟨2, 2, [9]⟩] } 2] :=
  votes_belong_of_fresh 0 [0, 1, 2] 0 (by decide) _ (by decide)

/-- The replica puts an entry of its own and votes for it.  A message replaces the entry by
another one, nobody but one peer acknowledges that, and the new entry is committed with the
vote for the old one. -/
theorem vote_for_truncated_counts :
    let calls : List SMRCall :=
      [.operation ⟨1, 5, [7]⟩,
        .append { prevTerm := 0, prevIndex := 0, commit := 0, entries := [⟨2, 1, [9]⟩] } 2,
        .reply { success := true, index := 1 } 1]
    (∃ v cbs, Machine.run Voting.step (Voting.new 0 [0, 1, 2] 0) calls = .ok (v, cbs) ∧
        v.smr.log.log = [⟨2, 1, [9]⟩] ∧ v.smr.log.currCommit = 1 ∧
        v.smr.entryVotes.record 1 = [true, true, false] ∧ v.since = {(1, 1)}) ∧
      ¬ Machine.EachStep Voting.step Voting.VotesBelong (Voting.new 0 [0, 1, 2] 0) calls := by
  refine ⟨⟨_, _, rfl, rfl, rfl, rfl, by decide⟩, ?_⟩
  intro h
  have hbelongs := (((h _ _ rfl).2 _ _ rfl).2 _ _ rfl).1
  have hcounted := (hbelongs.counted _ _ rfl (by decide)).2.2 0 rfl
  exact absurd hcounted (by decide)

end MorphlingC.Analysis
