import MorphlingC.Analysis.VoteTally
import MorphlingC.Analysis.Handlers
import Mathlib.Order.Interval.Finset.Nat

/-!
# A group with one appender: the quorum rule, and the order of acknowledgements

One replica handles all operations of its group and gets acknowledgements from its peers,
in any order, lost or repeated.  A peer acknowledges its last index, so an acknowledgement
speaks for all entries up to it; the votes are counted per exact index.

* **The quorum rule** (`commits_by_quorum_iff`).  The commit index is the highest index
  that a majority has acknowledged exactly as long as there are at least two replicas, and
  as long as an acknowledgement that gives a majority something above the commit index
  gives its own index a majority.
* **The order of acknowledgements** does not matter (`ack_order_immaterial`).

Both compare the commit index with the set of all votes cast, acknowledgements and own
votes together (`Appender.votes`).
-/

set_option autoImplicit false

namespace MorphlingC.Analysis

open MorphlingC.Library MorphlingC.Model

/-! ## The appender -/

/-- The group at its only appender, and the acknowledgements that have arrived, each with
the peer it came from. -/
structure Appender where
  smr : SMR
  acks : Finset (ℕ × ℕ)

/-- What reaches the appender. -/
inductive AppenderEvent where
  | operation (msg : ClientMessage)
  | ack (msg : AppenEntriesReplyMessage) (sender : ℕ)
deriving DecidableEq, Repr

/-- The event appends an entry. -/
def AppenderEvent.appends : AppenderEvent → Bool
  | .operation _ => true
  | .ack _ _ => false

namespace Appender

/-- An appender that has not done anything yet. -/
def new (me : ℕ) (peers : List ℕ) (gid : ℕ) : Appender where
  smr := SMR.new me peers gid
  acks := ∅

/-- One call of a handler, as a machine that emits its callbacks.
SOURCE: core/smr.cpp:211-224, 252-268 -/
def step : Machine Appender AppenderEvent Callback Fault
  | a, .operation msg => do
    let (smr, cbs) ← SMR.call a.smr (.operation msg)
    .ok ({ a with smr := smr }, cbs)
  | a, .ack msg sender => do
    let (smr, cbs) ← SMR.call a.smr (.reply msg sender)
    .ok ({ smr := smr, acks := insert (sender, msg.index) a.acks }, cbs)

/-- An acknowledgement is a success of a peer of the group, for an index that has been
sent to it. -/
def FromPeer (a : Appender) : AppenderEvent → Prop
  | .operation _ => True
  | .ack msg sender =>
    msg.success = true ∧ sender < a.smr.peers.length ∧ msg.index ≤ a.smr.log.lastIndex

instance (a : Appender) : DecidablePred a.FromPeer
  | .operation _ => isTrue trivial
  | .ack _ _ => inferInstanceAs (Decidable (_ ∧ _ ∧ _))

/-- The replicas that have acknowledged the index or a higher one: the appender by its own
last index, the others by what they have sent. -/
def acknowledged (a : Appender) (i : ℕ) : Finset ℕ :=
  (Finset.range a.smr.peers.length).filter fun p =>
    (p = a.smr.me ∧ i ≤ a.smr.log.lastIndex) ∨ ∃ v ∈ a.acks, v.1 = p ∧ i ≤ v.2

/-- The commit index is the highest one that a majority has acknowledged, or 0. -/
def QuorumRule (a : Appender) : Prop :=
  IsGreatest {i | i = 0 ∨ a.smr.peers.length / 2 + 1 ≤ (a.acknowledged i).card}
    a.smr.log.currCommit

/-- The appender's own votes: one for each of its entries. -/
def ownVotes (a : Appender) : Finset (ℕ × ℕ) :=
  (Finset.Icc 1 a.smr.log.log.length).image fun i => (a.smr.me, i)

/-- All votes cast. -/
def votes (a : Appender) : Finset (ℕ × ℕ) := a.acks ∪ a.ownVotes

/-- What holds of an appender at any time: the votes are those of peers, for indices of the
log, and the vote record has counted them. -/
structure Sound (a : Appender) : Prop where
  peers : a.smr.peers.length = a.smr.entryVotes.peerNum
  me_lt : a.smr.me < a.smr.entryVotes.peerNum
  acked : ∀ v ∈ a.acks, v.1 < a.smr.entryVotes.peerNum ∧ v.2 ≤ a.smr.log.log.length
  tallies : Tallies a.smr.entryVotes a.votes

theorem mem_votes {a : Appender} {p i : ℕ} :
    (p, i) ∈ a.votes ↔
      (p, i) ∈ a.acks ∨ (p = a.smr.me ∧ 1 ≤ i ∧ i ≤ a.smr.log.log.length) := by
  unfold votes ownVotes
  rw [Finset.mem_union, Finset.mem_image]
  apply or_congr_right
  constructor
  · rintro ⟨j, hj, heq⟩
    rw [Finset.mem_Icc] at hj
    obtain ⟨rfl, rfl⟩ := Prod.mk.inj heq
    exact ⟨rfl, hj⟩
  · rintro ⟨rfl, hi⟩
    exact ⟨i, Finset.mem_Icc.mpr hi, rfl⟩

/-- No vote is for an index beyond the log. -/
theorem Sound.vote_le {a : Appender} (hs : a.Sound) {p i : ℕ} (h : (p, i) ∈ a.votes) :
    i ≤ a.smr.log.log.length := by
  rcases mem_votes.mp h with hack | ⟨-, -, hle⟩
  · exact (hs.acked _ hack).2
  · exact hle

/-- The quorum is a majority of the peers. -/
theorem Sound.quorum {a : Appender} (hs : a.Sound) :
    a.smr.entryVotes.quorum = a.smr.peers.length / 2 + 1 := by
  rw [a.smr.entryVotes.majority, hs.peers]

/-- INTERNAL: a fresh appender. SOURCE: core/smr.cpp:145-172 -/
theorem new_sound {me : ℕ} {peers : List ℕ} (gid : ℕ) (hme : me < peers.length) :
    (new me peers gid).Sound := by
  refine ⟨rfl, hme, ?_, ?_⟩
  · intro v hv
    exact absurd hv (Finset.notMem_empty v)
  · exact init_tallies peers.length

/-- Nobody has voted at first. -/
theorem new_not_reachedFrom {me : ℕ} {peers : List ℕ} (gid : ℕ) (hme : me < peers.length)
    (i : ℕ) : ¬ ReachedFrom (new me peers gid).smr.entryVotes.quorum (new me peers gid).votes
      i := by
  have hnone : votersFrom (new me peers gid).votes i = ∅ := rfl
  unfold ReachedFrom
  rw [hnone, (new_sound gid hme).quorum]
  simp

/-! ## One step -/

/-- INTERNAL: a call that leaves the peers and the replica as they are keeps the appender
sound, when the votes after it are for indices of the log and have been counted. -/
theorem Sound.after {a a' : Appender} (hs : a.Sound) (hpeers : a'.smr.peers = a.smr.peers)
    (hme : a'.smr.me = a.smr.me) (hnum : a'.smr.entryVotes.peerNum = a.smr.entryVotes.peerNum)
    (hacked : ∀ v ∈ a'.acks, v.1 < a.smr.entryVotes.peerNum ∧ v.2 ≤ a'.smr.log.log.length)
    (htallies : Tallies a'.smr.entryVotes a'.votes) : a'.Sound where
  peers := by rw [hpeers, hnum, hs.peers]
  me_lt := by
    rw [hme, hnum]
    exact hs.me_lt
  acked := by
    rw [hnum]
    exact hacked
  tallies := htallies

/-- INTERNAL: **an operation** adds one entry and the own vote for it; the commit index
stays. SOURCE: core/smr.cpp:211-224 -/
theorem operation_step {a a' : Appender} {msg : ClientMessage} {cbs : List Callback}
    (hs : a.Sound) (h : a.step (.operation msg) = .ok (a', cbs)) :
    a'.Sound ∧ a'.votes = insert (a.smr.me, a.smr.log.log.length + 1) a.votes ∧
      a'.smr.peers = a.smr.peers ∧ a'.smr.log.commits = a.smr.log.commits := by
  unfold step at h
  obtain ⟨⟨smr, cbs₁⟩, hcall, heq⟩ := bind_eq_ok.mp h
  cases heq
  obtain ⟨idx, hop⟩ := SMR.call_operation_ok.mp hcall
  obtain ⟨rfl, hlog, hcommits, -, hme, hpeers, ⟨reached, hv⟩, -⟩ := handleOperation_ok hop
  have hlen : smr.log.log.length = a.smr.log.log.length + 1 := by simp [hlog]
  have hnum := EntryVoteRecord.vote_peerNum hv
  have hvotes : votes { a with smr := smr } =
      insert (a.smr.me, a.smr.log.log.length + 1) a.votes := by
    ext ⟨p, i⟩
    rw [Finset.mem_insert, mem_votes, mem_votes, Prod.mk.injEq]
    dsimp only
    rw [hme, hlen]
    constructor
    · rintro (hack | ⟨rfl, hpos, hle⟩)
      · exact .inr (.inl hack)
      · by_cases hi : i = a.smr.log.log.length + 1
        · exact .inl ⟨rfl, hi⟩
        · exact .inr (.inr ⟨rfl, hpos, by omega⟩)
    · rintro (⟨rfl, rfl⟩ | hack | ⟨rfl, hpos, hle⟩)
      · exact .inr ⟨rfl, by omega, le_rfl⟩
      · exact .inl hack
      · exact .inr ⟨rfl, hpos, by omega⟩
  refine ⟨hs.after hpeers hme hnum ?_ ?_, hvotes, hpeers, hcommits⟩
  · intro v hv'
    obtain ⟨hpeer, hle⟩ := hs.acked v hv'
    refine ⟨hpeer, ?_⟩
    show v.2 ≤ smr.log.log.length
    omega
  · rw [hvotes]
    exact (vote_tallies hs.tallies hv).1

/-- INTERNAL: **an acknowledgement** adds one vote.  If its index was committed when a
quorum had voted for it before, the commit index moves to it exactly if it is higher and a
quorum has voted for it now. SOURCE: core/smr.cpp:252-268 -/
theorem ack_step {a a' : Appender} {msg : AppenEntriesReplyMessage} {sender : ℕ}
    {cbs : List Callback} (hs : a.Sound) (hack : a.FromPeer (.ack msg sender))
    (h : a.step (.ack msg sender) = .ok (a', cbs)) :
    a'.Sound ∧ a'.votes = insert (sender, msg.index) a.votes ∧
      a'.smr.peers = a.smr.peers ∧ a'.smr.log.log = a.smr.log.log ∧
      ((Reached a.smr.entryVotes.quorum a.votes msg.index →
          msg.index ≤ a.smr.log.commits) →
        a'.smr.log.commits =
          if Reached a.smr.entryVotes.quorum (insert (sender, msg.index) a.votes)
              msg.index then
            max a.smr.log.commits msg.index
          else a.smr.log.commits) := by
  obtain ⟨hsuccess, hsender, hindex⟩ := hack
  rw [SMRLog.lastIndex_eq] at hindex
  unfold step SMR.call at h
  obtain ⟨⟨smr, cbs₁⟩, hcall, heq⟩ := bind_eq_ok.mp h
  cases heq
  rcases handleReply_cases hcall with ⟨hfail, -⟩ | ⟨-, record, reached, hv, hcase⟩
  · rw [hsuccess] at hfail
    cases hfail
  have hnum := EntryVoteRecord.vote_peerNum hv
  obtain ⟨htallies, hreached⟩ := vote_tallies hs.tallies hv
  -- whatever the commit index does, the log, the peers and the record are these
  have hframe : smr.log.log = a.smr.log.log ∧ smr.peers = a.smr.peers ∧
      smr.me = a.smr.me ∧ smr.entryVotes = record := by
    rcases hcase with ⟨-, rfl, -⟩ | ⟨-, -, -, rfl, -⟩ <;> exact ⟨rfl, rfl, rfl, rfl⟩
  have hcommits : (Reached a.smr.entryVotes.quorum a.votes msg.index →
        msg.index ≤ a.smr.log.commits) → smr.log.commits =
      if Reached a.smr.entryVotes.quorum (insert (sender, msg.index) a.votes) msg.index then
        max a.smr.log.commits msg.index
      else a.smr.log.commits := by
    intro hknown
    rcases hcase with ⟨hstill, rfl, -⟩ | ⟨hr, hlt, -, rfl, -⟩
    · split
      · rename_i hnow
        have hle : msg.index ≤ a.smr.log.commits := by
          rcases hstill with hr | hle
          · apply hknown
            by_contra hbefore
            rw [hreached.mpr ⟨hbefore, hnow⟩] at hr
            cases hr
          · exact hle
        exact (max_eq_left hle).symm
      · rfl
    · rw [if_pos (hreached.mp hr).2, max_eq_right hlt.le]
  obtain ⟨hlog, hpeers, hme, rfl⟩ := hframe
  have hvotes : votes { smr := smr, acks := insert (sender, msg.index) a.acks } =
      insert (sender, msg.index) a.votes := by
    unfold votes ownVotes
    rw [Finset.insert_union]
    dsimp only
    rw [hlog, hme]
  refine ⟨hs.after hpeers hme hnum ?_ ?_, hvotes, hpeers, hlog, hcommits⟩
  · intro v hv'
    dsimp only
    rw [hlog]
    rcases Finset.mem_insert.mp hv' with rfl | hmem
    · exact ⟨hs.peers ▸ hsender, hindex⟩
    · exact hs.acked v hmem
  · rw [hvotes]
    exact htallies

/-- INTERNAL: operations that find room and acknowledgements are handled without abort.
SOURCE: core/smr.cpp:211-224, 252-268 -/
theorem step_total {a : Appender} {e : AppenderEvent} (hs : a.Sound) (he : a.FromPeer e)
    (room : e.appends = true → a.smr.log.log.length < reservedEntries) :
    ∃ a' cbs, a.step e = .ok (a', cbs) := by
  cases e with
  | operation msg =>
    obtain ⟨smr, cbs, idx, hop⟩ := handleOperation_total a.smr msg hs.me_lt (room rfl)
    refine ⟨{ a with smr := smr }, cbs, ?_⟩
    dsimp only [step, SMR.call]
    rw [hop]
    rfl
  | ack msg sender =>
    obtain ⟨-, hsender, hindex⟩ := he
    rw [SMRLog.lastIndex_eq] at hindex
    obtain ⟨smr, cbs, hreply⟩ :=
      handleReply_total a.smr msg (hs.peers ▸ hsender) fun _ => hindex
    refine ⟨{ smr := smr, acks := insert (sender, msg.index) a.acks }, cbs, ?_⟩
    dsimp only [step, SMR.call]
    rw [hreply]
    rfl

end Appender

/-! ## The quorum rule -/

namespace Appender

/-- The replicas that have acknowledged this very index: the appender if it has the entry,
the others by what they have sent. -/
def acknowledgedExactly (a : Appender) (i : ℕ) : Finset ℕ :=
  (Finset.range a.smr.peers.length).filter fun p =>
    (p = a.smr.me ∧ i ≤ a.smr.log.lastIndex) ∨ (p, i) ∈ a.acks

/-- The acknowledgement has arrived. -/
def heard (a : Appender) (sender index : ℕ) : Appender :=
  { a with acks := insert (sender, index) a.acks }

/-- There are other replicas to wait for when an operation is handled; and when an
acknowledgement for an index above the commit index gives a majority something above the
commit index, it gives that very index a majority. -/
def MajorityOnIndex (a : Appender) : AppenderEvent → Prop
  | .operation _ => 2 ≤ a.smr.peers.length
  | .ack msg sender =>
    a.smr.log.currCommit < msg.index →
    a.smr.peers.length / 2 + 1 ≤
      ((a.heard sender msg.index).acknowledged (a.smr.log.currCommit + 1)).card →
    a.smr.peers.length / 2 + 1 ≤
      ((a.heard sender msg.index).acknowledgedExactly msg.index).card

instance (a : Appender) : DecidablePred a.MajorityOnIndex
  | .operation _ => inferInstanceAs (Decidable (_ ≤ _))
  | .ack _ _ => inferInstanceAs (Decidable (_ → _ → _))

/-- INTERNAL: the replicas that have acknowledged an index or a higher one are those with a
vote for such an index. -/
theorem acknowledged_eq {a : Appender} (hpeers : ∀ v ∈ a.acks, v.1 < a.smr.peers.length)
    (hme : a.smr.me < a.smr.peers.length) {i : ℕ} (hi : 1 ≤ i) :
    a.acknowledged i = votersFrom a.votes i := by
  ext p
  unfold acknowledged
  rw [Finset.mem_filter, Finset.mem_range, mem_votersFrom, SMRLog.lastIndex_eq]
  constructor
  · rintro ⟨-, ⟨rfl, hle⟩ | ⟨⟨q, j⟩, hmem, rfl, hle⟩⟩
    · exact ⟨i, le_rfl, mem_votes.mpr (.inr ⟨rfl, hi, hle⟩)⟩
    · exact ⟨j, hle, mem_votes.mpr (.inl hmem)⟩
  · rintro ⟨j, hle, hmem⟩
    rcases mem_votes.mp hmem with hack | ⟨rfl, -, hlen⟩
    · exact ⟨hpeers _ hack, .inr ⟨_, hack, rfl, hle⟩⟩
    · exact ⟨hme, .inl ⟨rfl, hle.trans hlen⟩⟩

/-- INTERNAL: the replicas that have acknowledged this very index are those with a vote for
it. -/
theorem acknowledgedExactly_eq {a : Appender}
    (hpeers : ∀ v ∈ a.acks, v.1 < a.smr.peers.length)
    (hme : a.smr.me < a.smr.peers.length) {i : ℕ} (hi : 1 ≤ i) :
    a.acknowledgedExactly i = voters a.votes i := by
  ext p
  unfold acknowledgedExactly
  rw [Finset.mem_filter, Finset.mem_range, mem_voters, mem_votes, SMRLog.lastIndex_eq]
  constructor
  · rintro ⟨-, ⟨rfl, hle⟩ | hack⟩
    · exact .inr ⟨rfl, hi, hle⟩
    · exact .inl hack
  · rintro (hack | ⟨rfl, -, hle⟩)
    · exact ⟨hpeers _ hack, .inr hack⟩
    · exact ⟨hme, .inl ⟨rfl, hle⟩⟩

/-- INTERNAL: the rule, as a fact about the votes. -/
theorem Sound.quorumRule_iff {a : Appender} (hs : a.Sound) :
    a.QuorumRule ↔
      IsGreatest {i | i = 0 ∨ ReachedFrom a.smr.entryVotes.quorum a.votes i}
        a.smr.log.commits := by
  have hpeers : ∀ v ∈ a.acks, v.1 < a.smr.peers.length := by
    intro v hv
    rw [hs.peers]
    exact (hs.acked v hv).1
  have hset : {i | i = 0 ∨ a.smr.peers.length / 2 + 1 ≤ (a.acknowledged i).card} =
      {i | i = 0 ∨ ReachedFrom a.smr.entryVotes.quorum a.votes i} := by
    ext i
    rcases Nat.eq_zero_or_pos i with rfl | hi
    · simp
    · rw [Set.mem_ofPred_eq, Set.mem_ofPred_eq, ReachedFrom, hs.quorum,
        acknowledged_eq hpeers (hs.peers ▸ hs.me_lt) hi]
  unfold QuorumRule SMRLog.currCommit
  rw [hset]

/-- INTERNAL: the votes once an acknowledgement has arrived. -/
theorem heard_votes (a : Appender) (sender index : ℕ) :
    (a.heard sender index).votes = insert (sender, index) a.votes := by
  unfold votes heard
  rw [Finset.insert_union]
  rfl

/-- INTERNAL: the condition on an acknowledgement, as a fact about the votes. -/
theorem Sound.majorityOnIndex_ack_iff {a : Appender} (hs : a.Sound)
    {msg : AppenEntriesReplyMessage} {sender : ℕ} (hsender : sender < a.smr.peers.length) :
    a.MajorityOnIndex (.ack msg sender) ↔
      (a.smr.log.commits < msg.index →
        ReachedFrom a.smr.entryVotes.quorum (insert (sender, msg.index) a.votes)
          (a.smr.log.commits + 1) →
        Reached a.smr.entryVotes.quorum (insert (sender, msg.index) a.votes) msg.index) := by
  have hpeers : ∀ v ∈ (a.heard sender msg.index).acks, v.1 < a.smr.peers.length := by
    intro v hv
    rcases Finset.mem_insert.mp hv with rfl | hmem
    · exact hsender
    · rw [hs.peers]
      exact (hs.acked v hmem).1
  have hme : a.smr.me < a.smr.peers.length := hs.peers ▸ hs.me_lt
  unfold MajorityOnIndex ReachedFrom Reached SMRLog.currCommit
  apply imp_congr_right
  intro hlt
  rw [acknowledged_eq hpeers hme (by omega), acknowledgedExactly_eq hpeers hme (by omega),
    heard_votes, hs.quorum]

/-- INTERNAL: with the votes all within the log, so is the highest index reached. -/
theorem Sound.commits_le {a : Appender} (hs : a.Sound) (hrule : a.QuorumRule) :
    a.smr.log.commits ≤ a.smr.log.log.length := by
  rcases (hs.quorumRule_iff.mp hrule).1 with h0 | hreached
  · rw [h0]
    exact Nat.zero_le _
  · have hpos : 0 < (votersFrom a.votes a.smr.log.commits).card := by
      apply lt_of_lt_of_le _ hreached
      rw [hs.quorum]
      omega
    obtain ⟨p, hp⟩ := Finset.card_pos.mp hpos
    obtain ⟨j, hle, hmem⟩ := mem_votersFrom.mp hp
    exact hle.trans (hs.vote_le hmem)

/-- INTERNAL: **an operation keeps the rule exactly when there is another replica.**  The
new entry has only the appender's own vote, which is a majority of one.
SOURCE: core/smr.cpp:211-224 -/
theorem operation_keeps_iff {a a' : Appender} {msg : ClientMessage} {cbs : List Callback}
    (hs : a.Sound) (hrule : a.QuorumRule) (h : a.step (.operation msg) = .ok (a', cbs)) :
    a'.QuorumRule ↔ 2 ≤ a.smr.peers.length := by
  obtain ⟨hs', hvotes, hpeers, hcommits⟩ := operation_step hs h
  have hle := hs.commits_le hrule
  have hgreatest := hs.quorumRule_iff.mp hrule
  have hquorum : a'.smr.entryVotes.quorum = a.smr.entryVotes.quorum := by
    rw [hs'.quorum, hs.quorum, hpeers]
  rw [hs'.quorumRule_iff, hvotes, hquorum, hcommits]
  -- who is counted for the new index: the appender alone
  have hnew : votersFrom (insert (a.smr.me, a.smr.log.log.length + 1) a.votes)
      (a.smr.log.log.length + 1) = {a.smr.me} := by
    ext p
    simp only [mem_votersFrom, Finset.mem_insert, Prod.mk.injEq, Finset.mem_singleton]
    constructor
    · rintro ⟨j, hj, ⟨rfl, -⟩ | hmem⟩
      · rfl
      · have := hs.vote_le hmem
        omega
    · rintro rfl
      exact ⟨_, le_rfl, .inl ⟨rfl, rfl⟩⟩
  constructor
  · intro hgreatest'
    by_contra hone
    have hreached : ReachedFrom a.smr.entryVotes.quorum
        (insert (a.smr.me, a.smr.log.log.length + 1) a.votes)
        (a.smr.log.log.length + 1) := by
      unfold ReachedFrom
      rw [hnew, hs.quorum, Finset.card_singleton]
      omega
    have hupper := hgreatest'.2 (show a.smr.log.log.length + 1 ∈ {i | i = 0 ∨ _} from
      .inr hreached)
    omega
  · intro htwo
    constructor
    · rcases hgreatest.1 with h0 | hreached
      · exact .inl h0
      · exact .inr (hreached.mono (Finset.subset_insert _ _))
    · rintro j (rfl | hreached)
      · exact Nat.zero_le _
      · rcases Nat.lt_or_ge a.smr.log.log.length j with hgt | hin
        · -- beyond the old log a majority would need a second replica
          have hreached' := hreached.anti (show a.smr.log.log.length + 1 ≤ j from hgt)
          unfold ReachedFrom at hreached'
          rw [hnew, hs.quorum, Finset.card_singleton] at hreached'
          omega
        · rcases Nat.eq_zero_or_pos j with rfl | hpos
          · exact Nat.zero_le _
          apply hgreatest.2
          refine .inr (hreached.trans (Finset.card_le_card ?_))
          intro p hp
          obtain ⟨k, hk, hmem⟩ := mem_votersFrom.mp hp
          rcases Finset.mem_insert.mp hmem with heq | hold
          · -- the appender has acknowledged its whole log before
            obtain ⟨rfl, -⟩ := Prod.mk.inj heq
            exact mem_votersFrom.mpr
              ⟨_, hin, mem_votes.mpr (.inr ⟨rfl, by omega, le_rfl⟩)⟩
          · exact mem_votersFrom.mpr ⟨k, hk, hold⟩

/-- INTERNAL: **an acknowledgement keeps the rule exactly when the majority is on its
index.** SOURCE: core/smr.cpp:115-141, 252-268 -/
theorem ack_keeps_iff {a a' : Appender} {msg : AppenEntriesReplyMessage} {sender : ℕ}
    {cbs : List Callback} (hs : a.Sound) (hrule : a.QuorumRule)
    (hack : a.FromPeer (.ack msg sender)) (h : a.step (.ack msg sender) = .ok (a', cbs)) :
    a'.QuorumRule ↔ a.MajorityOnIndex (.ack msg sender) := by
  have hgreatest := hs.quorumRule_iff.mp hrule
  have hknown : Reached a.smr.entryVotes.quorum a.votes msg.index →
      msg.index ≤ a.smr.log.commits := fun hr => hgreatest.2 (.inr hr.from)
  obtain ⟨hs', hvotes, hpeers, -, hcommits⟩ := ack_step hs hack h
  have hquorum : a'.smr.entryVotes.quorum = a.smr.entryVotes.quorum := by
    rw [hs'.quorum, hs.quorum, hpeers]
  rw [hs'.quorumRule_iff, hs.majorityOnIndex_ack_iff hack.2.1, hvotes, hquorum,
    hcommits hknown]
  exact isGreatestFrom_insert_iff hgreatest

/-- INTERNAL: operations and acknowledgements of peers keep an appender sound.
SOURCE: core/smr.cpp:211-224, 252-268 -/
theorem step_sound {a a' : Appender} {e : AppenderEvent} {cbs : List Callback} (hs : a.Sound)
    (he : a.FromPeer e) (h : a.step e = .ok (a', cbs)) : a'.Sound := by
  cases e with
  | operation msg => exact (operation_step hs h).1
  | ack msg sender => exact (ack_step hs he h).1

/-- INTERNAL: one step, of either kind. SOURCE: core/smr.cpp:211-224, 252-268 -/
theorem step_keeps_iff {a a' : Appender} {e : AppenderEvent} {cbs : List Callback}
    (hs : a.Sound) (hrule : a.QuorumRule) (he : a.FromPeer e) (h : a.step e = .ok (a', cbs)) :
    a'.QuorumRule ↔ a.MajorityOnIndex e := by
  cases e with
  | operation msg => exact operation_keeps_iff hs hrule h
  | ack msg sender => exact ack_keeps_iff hs hrule he h

/-- INTERNAL: an operation makes the log one entry longer, an acknowledgement leaves it.
SOURCE: core/smr.cpp:211-224, 252-268 -/
theorem step_length {a a' : Appender} {e : AppenderEvent} {cbs : List Callback}
    (h : a.step e = .ok (a', cbs)) :
    a'.smr.log.log.length = a.smr.log.log.length + if e.appends then 1 else 0 := by
  cases e with
  | operation msg =>
    obtain ⟨⟨smr, cbs₁⟩, hcall, heq⟩ := bind_eq_ok.mp h
    cases heq
    obtain ⟨idx, hop⟩ := SMR.call_operation_ok.mp hcall
    obtain ⟨-, hlog, -⟩ := handleOperation_ok hop
    simp [hlog, AppenderEvent.appends]
  | ack msg sender =>
    obtain ⟨⟨smr, cbs₁⟩, hcall, heq⟩ := bind_eq_ok.mp h
    cases heq
    obtain ⟨hlog, -⟩ := handleReply_applied hcall
    simp [hlog, AppenderEvent.appends]

/-- INTERNAL: a run of an appender returns exactly when there is room for its operations.
SOURCE: core/smr.cpp:10, 30-45, 211-224, 252-268 -/
theorem run_returns_iff {me : ℕ} {peers : List ℕ} (gid : ℕ) (hme : me < peers.length)
    {events : List AppenderEvent} (hpeers : Machine.Guarded step FromPeer
      (new me peers gid) events) :
    (∃ a cbs, Machine.run step (new me peers gid) events = .ok (a, cbs)) ↔
      events.countP AppenderEvent.appends ≤ reservedEntries := by
  have hbudget := Machine.returns_iff_within_budget step (I := Sound) (L := reservedEntries)
    (U := fun a (_ : Unit) => a.smr.log.log.length) (A := fun _ => AppenderEvent.appends)
    (fun a _ _ => a.smr.log.fits)
    (fun a e a' cbs hs he h => ⟨step_sound hs he h, fun _ => step_length h⟩)
    (fun a e hs he room => step_total hs he (room ())) (new_sound gid hme) hpeers
  rw [hbudget]
  constructor
  · intro h
    have hall := h ()
    rwa [show (new me peers gid).smr.log.log.length = 0 from rfl, Nat.zero_add] at hall
  · intro h _
    rwa [show (new me peers gid).smr.log.log.length = 0 from rfl, Nat.zero_add]

end Appender

open Appender in
/-- **The quorum rule holds exactly as long as a majority gathers on one index.**  For any
number of replicas and every run of the only appender of a group, with acknowledgements
from peers in any order, lost or repeated: the run returns exactly when it has at most 1000000
operations, and after every step that returns the commit index is the highest index that a
majority has acknowledged, itself or by a higher one, if and only if there are two replicas or
more whenever an operation is handled, and every acknowledgement for an index above the commit
index which gives a majority something above the commit index gives that index a majority of
its own. SOURCE: core/smr.cpp:10, 30-45, 86-96, 110-141, 211-224, 252-268 -/
theorem commits_by_quorum_iff (me : ℕ) (peers : List ℕ) (gid : ℕ) (hme : me < peers.length)
    (events : List AppenderEvent)
    (hpeers : Machine.Guarded step FromPeer (new me peers gid) events) :
    ((∃ a cbs, Machine.run step (new me peers gid) events = .ok (a, cbs)) ↔
        events.countP AppenderEvent.appends ≤ reservedEntries) ∧
      (Machine.Throughout step (fun _ _ a' _ => a'.QuorumRule) (new me peers gid) [] events ↔
        Machine.Guarded step (Machine.WhenReturns step MajorityOnIndex) (new me peers gid)
          events) := by
  constructor
  · exact run_returns_iff gid hme hpeers
  · apply Machine.throughout_iff_guarded step (B := FromPeer)
      (J := fun a _ => a.Sound ∧ a.QuorumRule) _ _ _ hpeers
    · rintro a _ e a' cbs ⟨hs, hrule⟩ he h
      exact step_keeps_iff hs hrule he h
    · rintro a _ e a' cbs ⟨hs, -⟩ he h hrule'
      exact ⟨step_sound hs he h, hrule'⟩
    · refine ⟨new_sound gid hme, ?_⟩
      rw [(new_sound gid hme).quorumRule_iff]
      refine ⟨.inl rfl, ?_⟩
      rintro i (rfl | hreached)
      · exact le_rfl
      · exact absurd hreached (new_not_reachedFrom gid hme i)

/-- Two operations, each acknowledged by one peer of two. -/
theorem commits_by_quorum_in_turn :
    Machine.Throughout Appender.step (fun _ _ a' _ => a'.QuorumRule)
      (Appender.new 0 [0, 1, 2] 0) []
      [.operation ⟨1, 5, [7]⟩, .ack { success := true, index := 1 } 1,
        .operation ⟨1, 5, [8]⟩, .ack { success := true, index := 2 } 2] :=
  (commits_by_quorum_iff 0 [0, 1, 2] 0 (by decide) _ (by decide)).2.mpr (by decide)

/-- Five replicas, three entries.  One peer acknowledges the third entry and another the
second: three replicas hold the first two entries, and nothing is committed. -/
theorem majority_not_committed :
    let events : List AppenderEvent :=
      [.operation ⟨1, 5, [7]⟩, .operation ⟨1, 5, [8]⟩, .operation ⟨1, 5, [9]⟩,
        .ack { success := true, index := 3 } 1, .ack { success := true, index := 2 } 2]
    Machine.Guarded Appender.step Appender.FromPeer (Appender.new 0 [0, 1, 2, 3, 4] 0) events ∧
      (∃ a cbs, Machine.run Appender.step (Appender.new 0 [0, 1, 2, 3, 4] 0) events =
          .ok (a, cbs) ∧
        a.acknowledged 2 = {0, 1, 2} ∧ a.smr.log.currCommit = 0 ∧ ¬ a.QuorumRule) ∧
      ¬ Machine.Throughout Appender.step (fun _ _ a' _ => a'.QuorumRule)
        (Appender.new 0 [0, 1, 2, 3, 4] 0) [] events := by
  refine ⟨by decide, ⟨_, _, rfl, by decide, rfl, ?_⟩, ?_⟩
  · intro hrule
    have hle := hrule.2 (show 2 ∈ {i | i = 0 ∨ _} from .inr (by decide))
    exact absurd hle (by decide)
  · intro h
    have hrule := ((((h _ _ rfl).2 _ _ rfl).2 _ _ rfl).2 _ _ rfl).2 _ _ rfl
    have hle := hrule.1.2 (show 2 ∈ {i | i = 0 ∨ _} from .inr (by decide))
    exact absurd hle (by decide)

/-! ## The order of acknowledgements -/

namespace Appender

/-- The commit index is the highest index for which a quorum has voted. -/
def CommitsVotes (a : Appender) : Prop :=
  IsGreatest {i | i = 0 ∨ Reached a.smr.entryVotes.quorum a.votes i} a.smr.log.commits

/-- The votes that a list of acknowledgements brings. -/
def ackVotes (acks : List (AppenEntriesReplyMessage × ℕ)) : Finset (ℕ × ℕ) :=
  (acks.map fun x => (x.2, x.1.index)).toFinset

/-- A list of acknowledgements, as events. -/
def ackEvents (acks : List (AppenEntriesReplyMessage × ℕ)) : List AppenderEvent :=
  acks.map fun x => .ack x.1 x.2

/-- INTERNAL: with two replicas or more an operation leaves the highest index voted for as
it is: its own entry has one vote. SOURCE: core/smr.cpp:211-224 -/
theorem operation_commitsVotes {a a' : Appender} {msg : ClientMessage} {cbs : List Callback}
    (hs : a.Sound) (htwo : 2 ≤ a.smr.peers.length) (hc : a.CommitsVotes)
    (h : a.step (.operation msg) = .ok (a', cbs)) : a'.CommitsVotes := by
  obtain ⟨hs', hvotes, hpeers, hcommits⟩ := operation_step hs h
  have hquorum : a'.smr.entryVotes.quorum = a.smr.entryVotes.quorum := by
    rw [hs'.quorum, hs.quorum, hpeers]
  have hone : ¬ Reached a.smr.entryVotes.quorum
      (insert (a.smr.me, a.smr.log.log.length + 1) a.votes) (a.smr.log.log.length + 1) := by
    have hnobody : voters a.votes (a.smr.log.log.length + 1) = ∅ := by
      apply Finset.eq_empty_of_forall_notMem
      intro p hp
      have := hs.vote_le (mem_voters.mp hp)
      omega
    unfold Reached
    rw [voters_insert_self, hnobody, hs.quorum, insert_empty_eq, Finset.card_singleton]
    omega
  have hgreatest := isGreatest_insert (p := a.smr.me) (i := a.smr.log.log.length + 1) hc
  rw [if_neg hone] at hgreatest
  unfold CommitsVotes
  rw [hvotes, hquorum, hcommits]
  exact hgreatest

/-- INTERNAL: an acknowledgement moves the commit index with the highest index voted for.
SOURCE: core/smr.cpp:115-141, 252-268 -/
theorem ack_commitsVotes {a a' : Appender} {msg : AppenEntriesReplyMessage} {sender : ℕ}
    {cbs : List Callback} (hs : a.Sound) (hack : a.FromPeer (.ack msg sender))
    (hc : a.CommitsVotes) (h : a.step (.ack msg sender) = .ok (a', cbs)) :
    a'.CommitsVotes := by
  obtain ⟨hs', hvotes, hpeers, -, hcommits⟩ := ack_step hs hack h
  have hquorum : a'.smr.entryVotes.quorum = a.smr.entryVotes.quorum := by
    rw [hs'.quorum, hs.quorum, hpeers]
  unfold CommitsVotes
  rw [hvotes, hquorum, hcommits fun hr => hc.2 (.inr hr)]
  exact isGreatest_insert hc

/-- INTERNAL: in every run of an appender with two replicas or more the commit index is the
highest index voted for. SOURCE: core/smr.cpp:110-141, 211-224, 252-268 -/
theorem run_commitsVotes {me : ℕ} {peers : List ℕ} (gid : ℕ) (hme : me < peers.length)
    (htwo : 2 ≤ peers.length) {events : List AppenderEvent}
    (hpeers : Machine.Guarded step FromPeer (new me peers gid) events) {a : Appender}
    {cbs : List Callback} (h : Machine.run step (new me peers gid) events = .ok (a, cbs)) :
    a.Sound ∧ a.smr.peers = peers ∧ a.CommitsVotes := by
  apply Machine.run_invariant step (G := FromPeer)
    (I := fun a _ => a.Sound ∧ a.smr.peers = peers ∧ a.CommitsVotes) _ _ hpeers h (h := [])
  · rintro a _ e a' cbs ⟨hs, hp, hc⟩ he h
    cases e with
    | operation msg =>
      obtain ⟨hs', -, hp', -⟩ := operation_step hs h
      exact ⟨hs', hp'.trans hp, operation_commitsVotes hs (hp ▸ htwo) hc h⟩
    | ack msg sender =>
      obtain ⟨hs', -, hp', -⟩ := ack_step hs he h
      exact ⟨hs', hp'.trans hp, ack_commitsVotes hs he hc h⟩
  · refine ⟨new_sound gid hme, rfl, .inl rfl, ?_⟩
    rintro i (rfl | hreached)
    · exact le_rfl
    · exact absurd hreached.from (new_not_reachedFrom gid hme i)

/-- INTERNAL: the entries that an acknowledgement hands on are those up to the new commit
index behind those up to the old one. SOURCE: core/smr.cpp:252-268 -/
theorem ack_applied {a a' : Appender} {msg : AppenEntriesReplyMessage} {sender : ℕ}
    {cbs : List Callback} (h : a.step (.ack msg sender) = .ok (a', cbs)) :
    a.smr.log.log.take a.smr.log.commits ++ appliedEntries cbs =
      a.smr.log.log.take a'.smr.log.commits := by
  unfold step SMR.call at h
  obtain ⟨⟨smr, cbs₁⟩, hcall, heq⟩ := bind_eq_ok.mp h
  cases heq
  have hcommitted := handleReply_committed hcall
  rwa [(handleReply_applied hcall).1] at hcommitted

/-- INTERNAL: **a list of acknowledgements** is handled without abort.  At the end its votes
have been counted, the commit index is the highest index voted for, and the entries handed
on are those up to it behind those up to the old one. SOURCE: core/smr.cpp:252-268 -/
theorem acks_run (acks : List (AppenEntriesReplyMessage × ℕ)) {a : Appender} (hs : a.Sound)
    (hc : a.CommitsVotes) (hacks : ∀ x ∈ acks, a.FromPeer (.ack x.1 x.2)) :
    ∃ t cbs, Machine.run step a (ackEvents acks) = .ok (t, cbs) ∧ t.Sound ∧ t.CommitsVotes ∧
      t.votes = ackVotes acks ∪ a.votes ∧ t.smr.peers = a.smr.peers ∧
      a.smr.log.log.take a.smr.log.commits ++ appliedEntries cbs =
        a.smr.log.log.take t.smr.log.commits := by
  induction acks generalizing a with
  | nil => exact ⟨a, [], rfl, hs, hc, by simp [ackVotes], rfl, List.append_nil _⟩
  | cons x rest ih =>
    have hx := hacks x List.mem_cons_self
    obtain ⟨a₁, cbs₁, h₁⟩ := step_total hs hx nofun
    obtain ⟨hs₁, hvotes₁, hpeers₁, hlog₁, -⟩ := ack_step hs hx h₁
    have hrest : ∀ y ∈ rest, a₁.FromPeer (.ack y.1 y.2) := by
      intro y hy
      have hy' := hacks y (List.mem_cons_of_mem _ hy)
      unfold FromPeer at hy' ⊢
      rwa [hpeers₁, SMRLog.lastIndex_eq, hlog₁, ← SMRLog.lastIndex_eq]
    obtain ⟨t, cbs, hrun, hst, hct, hvotes, hpeers, happlied⟩ :=
      ih hs₁ (ack_commitsVotes hs hx hc h₁) hrest
    refine ⟨t, cbs₁ ++ cbs, (Machine.run_cons_ok step).mpr ⟨a₁, cbs₁, cbs, h₁, hrun, rfl⟩,
      hst, hct, ?_, hpeers.trans hpeers₁, ?_⟩
    · rw [hvotes, hvotes₁]
      unfold ackVotes
      rw [List.map_cons, List.toFinset_cons, Finset.insert_union, Finset.union_insert]
    · rw [appliedEntries_append, ← List.append_assoc, ack_applied h₁, ← hlog₁, happlied]

/-- INTERNAL: two lists of acknowledgements with the same votes end alike.
SOURCE: core/smr.cpp:115-141, 252-268 -/
theorem commits_of_votes {t t' : Appender} (hs : t.Sound) (hs' : t'.Sound)
    (hc : t.CommitsVotes) (hc' : t'.CommitsVotes) (hvotes : t.votes = t'.votes)
    (hpeers : t.smr.peers = t'.smr.peers) :
    t.smr.log.commits = t'.smr.log.commits ∧
      t.smr.entryVotes.entryComplete = t'.smr.entryVotes.entryComplete := by
  have hquorum : t.smr.entryVotes.quorum = t'.smr.entryVotes.quorum := by
    rw [hs.quorum, hs'.quorum, hpeers]
  constructor
  · unfold CommitsVotes at hc
    rw [hvotes, hquorum] at hc
    exact hc.unique hc'
  · funext i
    rw [Bool.eq_iff_iff, (hs.tallies i).complete, (hs'.tallies i).complete, hvotes, hquorum]

end Appender

open Appender in
/-- **The order of acknowledgements does not matter.**  After any run of the only appender
of a group of two replicas or more, any list of successful acknowledgements from peers, for
indices of its log and with repetitions, and any permutation of it, are both handled without
abort, and they end with the same commit index, the same complete indices, and the same
entries handed to the state machine, in the same order.
SOURCE: core/smr.cpp:76-96, 115-141, 252-268 -/
theorem ack_order_immaterial (me : ℕ) (peers : List ℕ) (gid : ℕ) (hme : me < peers.length)
    (htwo : 2 ≤ peers.length) (events : List AppenderEvent)
    (hpeers : Machine.Guarded step FromPeer (new me peers gid) events) {a : Appender}
    {cbs₀ : List Callback}
    (hrun : Machine.run step (new me peers gid) events = .ok (a, cbs₀))
    {acks acks' : List (AppenEntriesReplyMessage × ℕ)} (hperm : acks.Perm acks')
    (hacks : ∀ x ∈ acks, a.FromPeer (.ack x.1 x.2)) :
    ∃ t cbs t' cbs',
      Machine.run step a (ackEvents acks) = .ok (t, cbs) ∧
      Machine.run step a (ackEvents acks') = .ok (t', cbs') ∧
      t.smr.log.currCommit = t'.smr.log.currCommit ∧
      t.smr.entryVotes.entryComplete = t'.smr.entryVotes.entryComplete ∧
      appliedEntries cbs = appliedEntries cbs' := by
  obtain ⟨hs, -, hc⟩ := run_commitsVotes gid hme htwo hpeers hrun
  obtain ⟨t, cbs, ht, hst, hct, hvotes, hp, happlied⟩ := acks_run acks hs hc hacks
  obtain ⟨t', cbs', ht', hst', hct', hvotes', hp', happlied'⟩ :=
    acks_run acks' hs hc fun x hx => hacks x (hperm.mem_iff.mpr hx)
  have hsame : ackVotes acks = ackVotes acks' :=
    List.toFinset_eq_of_perm _ _ (hperm.map _)
  obtain ⟨hcommits, hcomplete⟩ := commits_of_votes hst hst' hct hct'
    (by rw [hvotes, hvotes', hsame]) (hp.trans hp'.symm)
  refine ⟨t, cbs, t', cbs', ht, ht', hcommits, hcomplete, ?_⟩
  rw [hcommits, ← happlied'] at happlied
  exact List.append_cancel_left happlied

/-- Three operations, and acknowledgements for the third and the first entry in either
order. -/
theorem ack_order_immaterial_swap :
    ∃ a cbs₀, Machine.run Appender.step (Appender.new 0 [0, 1, 2] 0)
        [.operation ⟨1, 5, [7]⟩, .operation ⟨1, 5, [8]⟩, .operation ⟨1, 5, [9]⟩] =
          .ok (a, cbs₀) ∧
      ∃ t cbs t' cbs',
        Machine.run Appender.step a (Appender.ackEvents
          [({ success := true, index := 3 }, 1), ({ success := true, index := 1 }, 2)]) =
            .ok (t, cbs) ∧
        Machine.run Appender.step a (Appender.ackEvents
          [({ success := true, index := 1 }, 2), ({ success := true, index := 3 }, 1)]) =
            .ok (t', cbs') ∧
        t.smr.log.currCommit = t'.smr.log.currCommit ∧
        t.smr.entryVotes.entryComplete = t'.smr.entryVotes.entryComplete ∧
        appliedEntries cbs = appliedEntries cbs' :=
  ⟨_, _, rfl, ack_order_immaterial 0 [0, 1, 2] 0 (by decide) (by decide)
    [.operation ⟨1, 5, [7]⟩, .operation ⟨1, 5, [8]⟩, .operation ⟨1, 5, [9]⟩] (by decide) rfl
    (List.Perm.swap _ _ _) (by decide)⟩

end MorphlingC.Analysis
