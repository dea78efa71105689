import MorphlingC.Analysis.Handlers
import MorphlingC.Library.Quorum
import MorphlingC.Model.Group

/-!
# One owner: log matching and durability

When all operations of a group are handled by one replica, the owner, every other log is
a prefix of the owner's, whatever the network loses, repeats or reorders.  The invariant
`OneOwner` ties together the logs, the two commit indices, the votes at the owner and the
messages in flight:

* an append in flight carries one entry of the owner's log, with the epoch of the entry
  before it, and a commit index the owner has reached;
* a successful reply in flight carries an index that the log of its sender has reached, and
  so does every vote at the owner;
* the owner's commit index is held by a majority.

Each handler preserves it and returns: `OneOwner.operation`, `OneOwner.append`,
`OneOwner.reply`.  Messages are a predicate here, not a list, so that the lemmas serve
both the system of one group (`Group.step`) and the cluster, where the messages of a group
are some of those on the wire and carry a stamp.
-/

set_option autoImplicit false

namespace MorphlingC.Analysis

open MorphlingC.Library MorphlingC.Model MorphlingC.Interface MorphlingC.Model.SMR

variable {n : ℕ}

/-- An append in flight: one entry of the owner's log, after the entry before it, and a
commit index the owner has reached. -/
structure AppendInFlight (o : Fin n) (gid : ℕ) (ownerLog : SMRLog)
    (msg : AppendEntriesMessage) (dst : ℕ) : Prop where
  sender : msg.fromId = o
  addressee : dst < n ∧ dst ≠ o
  group : msg.groupId = gid
  entry : ∃ e, msg.entries = [e] ∧ ownerLog.log[msg.prevIndex]? = some e
  previous : termAt ownerLog.log msg.prevIndex = some msg.prevTerm
  commit : msg.commit ≤ ownerLog.commits

/-- A reply in flight: from another replica to the owner, and if it is a success, for an
index that the sender's log has reached. -/
structure ReplyInFlight (o : Fin n) (gid : ℕ) (smr : Fin n → SMR)
    (msg : AppenEntriesReplyMessage) (dst : ℕ) : Prop where
  addressee : dst = o
  group : msg.groupId = gid
  sender : ∃ j : Fin n, msg.fromId = j ∧ j ≠ o ∧
    (msg.success = true → 1 ≤ msg.index ∧ msg.index ≤ (smr j).log.log.length)

/-- **The invariant of a group with one owner.** -/
structure OneOwner (o : Fin n) (gid : ℕ) (smr : Fin n → SMR)
    (net : GenericMessage n → Prop) : Prop where
  me : ∀ i, (smr i).me = i
  peers : ∀ i, (smr i).peers = List.range n
  voters : ∀ i, (smr i).entryVotes.peerNum = n
  group : ∀ i, (smr i).gid = gid
  isPrefix : ∀ i, (smr i).log.log <+: (smr o).log.log
  bounded : ∀ i, (smr i).log.commits ≤ (smr i).log.log.length
  behind : ∀ i, (smr i).log.commits ≤ (smr o).log.commits
  votes : ∀ j : Fin n, ∀ idx, (smr o).entryVotes.Voted j idx →
    idx ≤ (smr j).log.log.length
  durable : Majority fun i => (smr o).log.commits ≤ (smr i).log.log.length
  appends : ∀ msg dst, net (.append msg dst) → AppendInFlight o gid (smr o).log msg dst
  replies : ∀ msg dst, net (.appendReply msg dst) → ReplyInFlight o gid smr msg dst

/-- The packet is what the replica `me` sends for the callback, up to the epoch that is
stamped on it. -/
def Stamped (me : ℕ) : Callback → GenericMessage n → Prop
  | .notifySendAppendEntry msg dst, p =>
    ∃ epoch, p = .append { msg with fromId := me, epoch := epoch } dst
  | .notifySendAppendEntryReply msg dst, p =>
    ∃ epoch, p = .appendReply { msg with fromId := me, epoch := epoch } dst
  | .notifyApply _, _ => False

/-! ## The invariant at the start, and what does not break it -/

/-- INTERNAL: fresh replicas and no messages are in the invariant. -/
theorem OneOwner.init (o : Fin n) (gid : ℕ) :
    OneOwner o gid (fun i => SMR.new i (List.range n) gid) fun _ => False where
  me := fun _ => rfl
  peers := fun _ => rfl
  voters := fun _ => by simp [SMR.new]
  group := fun _ => rfl
  isPrefix := fun _ => List.prefix_rfl
  bounded := fun _ => le_rfl
  behind := fun _ => le_rfl
  votes := fun j idx h => absurd h (EntryVoteRecord.init_not_voted _ _ _)
  durable := majority_of_forall (lt_of_le_of_lt (Nat.zero_le _) o.isLt) fun _ => le_rfl
  appends := fun _ _ h => h.elim
  replies := fun _ _ h => h.elim

/-- INTERNAL: messages may be lost. -/
theorem OneOwner.lose {o : Fin n} {gid : ℕ} {smr : Fin n → SMR}
    {net net' : GenericMessage n → Prop} (h : OneOwner o gid smr net)
    (hnet : ∀ p, net' p → net p) : OneOwner o gid smr net' :=
  { h with
    appends := fun msg dst hp => h.appends msg dst (hnet _ hp)
    replies := fun msg dst hp => h.replies msg dst (hnet _ hp) }

/-- INTERNAL: an append in flight stays one while the owner's log and commit index grow. -/
theorem AppendInFlight.mono {o : Fin n} {gid : ℕ} {l l' : SMRLog} {msg : AppendEntriesMessage}
    {dst : ℕ} (h : AppendInFlight o gid l msg dst) {more : List Entry}
    (hlog : l'.log = l.log ++ more) (hcommits : l.commits ≤ l'.commits) :
    AppendInFlight o gid l' msg dst := by
  obtain ⟨e, hentries, hget⟩ := h.entry
  obtain ⟨hlt, -⟩ := List.getElem?_eq_some_iff.mp hget
  exact
    { sender := h.sender
      addressee := h.addressee
      group := h.group
      entry := ⟨e, hentries, by rw [hlog, List.getElem?_append_left hlt, hget]⟩
      previous := by rw [hlog, termAt_append (le_of_lt hlt), h.previous]
      commit := h.commit.trans hcommits }

/-- INTERNAL: a reply in flight stays one while logs grow. -/
theorem ReplyInFlight.mono {o : Fin n} {gid : ℕ} {smr smr' : Fin n → SMR}
    {msg : AppenEntriesReplyMessage} {dst : ℕ} (h : ReplyInFlight o gid smr msg dst)
    (hlen : ∀ i, (smr i).log.log.length ≤ (smr' i).log.log.length) :
    ReplyInFlight o gid smr' msg dst := by
  obtain ⟨j, hj, hne, hidx⟩ := h.sender
  refine ⟨h.addressee, h.group, j, hj, hne, fun hs => ?_⟩
  exact ⟨(hidx hs).1, (hidx hs).2.trans (hlen j)⟩

/-- INTERNAL: replacing the state of one replica by one with a log at least as long makes
no log shorter. -/
theorem update_length_le (smr : Fin n → SMR) (i : Fin n) {s : SMR}
    (h : (smr i).log.log.length ≤ s.log.log.length) :
    ∀ j, (smr j).log.log.length ≤ (Function.update smr i s j).log.log.length :=
  (Function.forall_update_iff smr fun j s => (smr j).log.log.length ≤ s.log.log.length).mpr
    ⟨h, fun _ _ => le_rfl⟩

/-- INTERNAL: what the new state of one replica leaves as it was is as it was everywhere. -/
theorem update_frame {α β : Type} (states : Fin n → α) (i : Fin n) {s : α} (f : α → β)
    (h : f s = f (states i)) : ∀ j, f (Function.update states i s j) = f (states j) :=
  (Function.forall_update_iff states fun j s => f s = f (states j)).mpr ⟨h, fun _ _ => rfl⟩

/-! ## The owner handles an operation -/

/-- INTERNAL: **the owner appends an operation**: when its log has room, the call returns, its
messages carry the new entry, and the invariant is kept. SOURCE: core/smr.cpp:211-224 -/
theorem OneOwner.operation {o : Fin n} {gid : ℕ} {smr : Fin n → SMR}
    {net : GenericMessage n → Prop} (h : OneOwner o gid smr net) (msg : ClientMessage)
    (room : (smr o).log.log.length < reservedEntries) :
    ∃ s cbs idx, (smr o).handleOperation msg = .ok (s, cbs, idx) ∧
      ∀ net' : GenericMessage n → Prop,
        (∀ p, net' p → net p ∨ ∃ cb ∈ cbs, Stamped o cb p) →
        OneOwner o gid (Function.update smr o s) net' := by
  obtain ⟨s, cbs, idx, hop⟩ := handleOperation_total (smr o) msg
    (by rw [h.me, h.voters]; exact o.isLt) room
  refine ⟨s, cbs, idx, hop, fun net' hnet => ?_⟩
  obtain ⟨hidx, hlog, hcommits, hgid, hme, hpeers, ⟨reached, hvote⟩, hcbs⟩ :=
    handleOperation_ok hop
  have hgrow : (smr o).log.log <+: s.log.log := by
    rw [hlog]
    exact List.prefix_append _ _
  have hlen := update_length_le smr o hgrow.length_le
  have hso : Function.update smr o s o = s := Function.update_self ..
  have hcommits' := update_frame smr o (fun s => s.log.commits) hcommits
  constructor
  · exact fun i => (update_frame smr o SMR.me hme i).trans (h.me i)
  · exact fun i => (update_frame smr o SMR.peers hpeers i).trans (h.peers i)
  · have hvoters := EntryVoteRecord.vote_peerNum hvote
    exact fun i => (update_frame smr o (fun s => s.entryVotes.peerNum) hvoters i).trans (h.voters i)
  · exact fun i => (update_frame smr o SMR.gid hgid i).trans (h.group i)
  · rw [hso]
    exact (Function.forall_update_iff smr fun _ s' => s'.log.log <+: s.log.log).mpr
      ⟨List.prefix_rfl, fun i _ => (h.isPrefix i).trans hgrow⟩
  · intro i
    rw [hcommits' i]
    exact (h.bounded i).trans (hlen i)
  · intro i
    rw [hcommits' i, hcommits' o]
    exact h.behind i
  · intro j i hv
    rw [hso] at hv
    rcases EntryVoteRecord.vote_voted hvote hv with hold | ⟨hj, rfl⟩
    · exact (h.votes j i hold).trans (hlen j)
    · have hjo : j = o := Fin.ext (hj.trans (h.me o))
      subst hjo
      rw [hso, hlog, hidx]
      simp
  · apply h.durable.mono
    intro i hi
    rw [hcommits' o]
    exact hi.trans (hlen i)
  · intro m dst hp
    rw [hso]
    rcases hnet _ hp with hold | ⟨cb, hcb, hstamp⟩
    · exact (h.appends m dst hold).mono hlog hcommits.ge
    · rw [hcbs, List.mem_map] at hcb
      obtain ⟨rid, hrid, rfl⟩ := hcb
      obtain ⟨epoch, heq⟩ := hstamp
      cases heq
      simp only [List.mem_filter, decide_eq_true_eq, h.peers o, List.mem_range, h.me o] at hrid
      refine ⟨rfl, hrid, h.group o, ⟨_, rfl, ?_⟩, ?_, hcommits.ge⟩
      · simp [hlog, appendMessage]
      · rw [hlog]
        dsimp only [appendMessage]
        rw [termAt_append le_rfl]
        exact termAt_lastEntry _
  · intro m dst hp
    rcases hnet _ hp with hold | ⟨cb, hcb, hstamp⟩
    · exact (h.replies m dst hold).mono hlen
    · rw [hcbs, List.mem_map] at hcb
      obtain ⟨rid, -, rfl⟩ := hcb
      obtain ⟨epoch, heq⟩ := hstamp
      cases heq

/-! ## A follower appends -/

/-- INTERNAL: **a follower takes an append of the owner**: when its log ends right before
the entry, the entry is appended; when the log has it, nothing changes; when there is a
gap, the message is refused.  Whichever it is, the call returns.
SOURCE: core/smr.cpp:174-209, 226-250 -/
theorem follower_append {o : Fin n} {gid : ℕ} {ownerLog : SMRLog} {s : SMR}
    {msg : AppendEntriesMessage} {dst : ℕ} (hm : AppendInFlight o gid ownerLog msg dst)
    (hp : s.log.log <+: ownerLog.log) (hb : s.log.commits ≤ s.log.log.length) :
    ∃ s' success, s.handleAppendEntries msg msg.fromId =
        .ok (s', [appendReply s' success msg.fromId]) ∧
      s' = { s with log := s'.log } ∧ s.log.log <+: s'.log.log ∧
      s'.log.log <+: ownerLog.log ∧ s'.log.commits ≤ s'.log.log.length ∧
      s'.log.commits ≤ max s.log.commits msg.commit ∧
      (success = true → 1 ≤ s'.log.log.length) := by
  obtain ⟨e, hentries, hget⟩ := hm.entry
  obtain ⟨hlt, he⟩ := List.getElem?_eq_some_iff.mp hget
  obtain ⟨more, hmore⟩ := hp
  have hindex : e.index = msg.prevIndex + 1 := by
    rw [← he]
    exact ownerLog.indexed msg.prevIndex hlt
  rcases Nat.lt_or_ge s.log.log.length msg.prevIndex with hgap | hin
  · refine ⟨s, false, handleAppendEntries_ok.mpr (.inl ⟨?_, rfl, rfl⟩), rfl, List.prefix_rfl,
      ⟨more, hmore⟩, hb, le_max_left _ _, by simp⟩
    rw [termAt_of_gt hgap]
    simp
  · have hsafe : termAt s.log.log msg.prevIndex = some msg.prevTerm := by
      rw [← termAt_append hin more, hmore]
      exact hm.previous
    rcases Nat.lt_or_eq_of_le hin with hstale | hend
    · -- the follower's log has the entry already
      have hpresent : Present s.log.log e := by
        have hgets : s.log.log[msg.prevIndex]? = some e := by
          rw [← hget, ← hmore, List.getElem?_append_left hstale]
        rw [Present, termAt, hindex, if_neg (by omega), Nat.add_sub_cancel, hgets]
        rfl
      have hstay : acceptEntries s.log (decide (msg.prevIndex < s.log.log.length)) msg =
          .ok s.log := by
        rw [acceptEntries, decide_eq_true hstale, if_pos rfl]
        refine handleStaleEntries_ok.mpr (.inl ⟨?_, rfl⟩)
        rw [hentries, missing_cons_of_present [] hpresent, missing_nil]
      refine ⟨_, true, handleAppendEntries_ok.mpr (.inr ⟨hsafe, _, hstay, rfl, rfl⟩), rfl,
        List.prefix_rfl, ⟨more, hmore⟩, ?_, ?_, fun _ => by dsimp only; omega⟩
      · dsimp only
        omega
      · dsimp only
        omega
    · -- the entry is the one right after the follower's log
      have room : s.log.log.length + [e].length ≤ reservedEntries := by
        have hfits := ownerLog.fits
        rw [List.length_singleton]
        omega
      obtain ⟨log, hlog⟩ := appendAll_total room
      have hadd : acceptEntries s.log (decide (msg.prevIndex < s.log.log.length)) msg =
          .ok log := by
        rw [acceptEntries, decide_eq_false (by omega), hentries]
        exact hlog
      obtain ⟨-, hall, hcommits⟩ := appendAll_ok.mp hlog
      have hnum : numberedFrom (s.log.log.length + 1) [e] = [e] := by
        rw [← hend, ← hindex]
        rfl
      rw [hnum] at hall
      have hlen : log.log.length = s.log.log.length + 1 := by
        rw [hall]
        simp
      refine ⟨_, true, handleAppendEntries_ok.mpr (.inr ⟨hsafe, _, hadd, rfl, rfl⟩), rfl,
        ?_, ?_, ?_, ?_, fun _ => by dsimp only; omega⟩
      · dsimp only
        rw [hall]
        exact List.prefix_append _ _
      · dsimp only
        rw [hall, ← hmore, List.prefix_append_right_inj]
        rw [← hmore, List.getElem?_append_right (by omega), hend, Nat.sub_self] at hget
        cases more with
        | nil => cases hget
        | cons x xs =>
          cases hget
          exact List.prefix_append [e] xs
      · dsimp only
        omega
      · dsimp only
        omega

/-- INTERNAL: **what an append of the owner does to the log of a follower**: it adds its entry
when the log ends right before it, and is acknowledged with the new last index; otherwise
the log stays as it is. SOURCE: core/smr.cpp:174-209, 226-250 -/
theorem follower_outcome {o : Fin n} {gid : ℕ} {ownerLog : SMRLog} {s s' : SMR}
    {msg : AppendEntriesMessage} {dst sender : ℕ} {cbs : List Callback}
    (hm : AppendInFlight o gid ownerLog msg dst) (hp : s.log.log <+: ownerLog.log)
    (h : s.handleAppendEntries msg sender = .ok (s', cbs)) :
    (msg.prevIndex ≠ s.log.log.length ∧ s'.log.log = s.log.log) ∨
    (msg.prevIndex = s.log.log.length ∧ s'.log.log.length = s.log.log.length + 1 ∧
      cbs = [appendReply s' true sender]) := by
  obtain ⟨e, hentries, hget⟩ := hm.entry
  obtain ⟨hlt, he⟩ := List.getElem?_eq_some_iff.mp hget
  obtain ⟨more, hmore⟩ := hp
  have hreply := handleAppendEntries_ok.mp h
  rcases handleAppendEntries_log h with ⟨hrefused, rfl⟩ | ⟨hsafe, -, hcases⟩
  · refine .inl ⟨fun hend => hrefused ?_, rfl⟩
    rw [← hm.previous, hend, ← hmore, termAt_append le_rfl]
  rcases hcases with ⟨hstale, -, hsame⟩ | ⟨hstale, e', rest, hmissing, -⟩ | ⟨hend, hadd⟩
  · exact .inl ⟨Nat.ne_of_lt hstale, hsame⟩
  · -- a log that reaches beyond the entry before it has the entry
    have hindex : e.index = msg.prevIndex + 1 := by
      rw [← he]
      exact ownerLog.indexed msg.prevIndex hlt
    have hpresent : Present s.log.log e := by
      have hgets : s.log.log[msg.prevIndex]? = some e := by
        rw [← hget, ← hmore, List.getElem?_append_left hstale]
      rw [Present, termAt, hindex, if_neg (by omega), Nat.add_sub_cancel, hgets]
      rfl
    rw [hentries, missing_cons_of_present [] hpresent, missing_nil] at hmissing
    cases hmissing
  · refine .inr ⟨hend, ?_, ?_⟩
    · rw [hadd, hentries, List.length_append, numberedFrom_length, List.length_singleton]
    · rcases hreply with ⟨hrefused, -⟩ | ⟨-, -, -, -, hcbs⟩
      · exact absurd hsafe hrefused
      · exact hcbs

/-- INTERNAL: **an append of the owner reaches a follower**: the call returns and the
invariant is kept. SOURCE: core/smr.cpp:226-250 -/
theorem OneOwner.append {o : Fin n} {gid : ℕ} {smr : Fin n → SMR}
    {net : GenericMessage n → Prop} (h : OneOwner o gid smr net)
    {msg : AppendEntriesMessage} {i : Fin n} (hp : net (.append msg i)) :
    ∃ s cbs, (smr i).handleAppendEntries msg msg.fromId = .ok (s, cbs) ∧
      ∀ net' : GenericMessage n → Prop,
        (∀ p, net' p → net p ∨ ∃ cb ∈ cbs, Stamped i cb p) →
        OneOwner o gid (Function.update smr i s) net' := by
  have hm := h.appends msg i hp
  have hio : i ≠ o := fun heq => hm.addressee.2 (by rw [heq])
  obtain ⟨s, success, hcall, hs, hgrow, hpre, hbounded, hcommit, hpos⟩ :=
    follower_append hm (h.isPrefix i) (h.bounded i)
  refine ⟨s, _, hcall, fun net' hnet => ?_⟩
  have hlen := update_length_le smr i hgrow.length_le
  have hsi : Function.update smr i s i = s := Function.update_self ..
  have hso : Function.update smr i s o = smr o := Function.update_of_ne (Ne.symm hio) ..
  constructor
  · exact fun j => (update_frame smr i SMR.me (by rw [hs]) j).trans (h.me j)
  · exact fun j => (update_frame smr i SMR.peers (by rw [hs]) j).trans (h.peers j)
  · exact fun j => (update_frame smr i (fun s => s.entryVotes.peerNum) (by rw [hs]) j).trans
      (h.voters j)
  · exact fun j => (update_frame smr i SMR.gid (by rw [hs]) j).trans (h.group j)
  · rw [hso]
    exact (Function.forall_update_iff smr fun _ s => s.log.log <+: (smr o).log.log).mpr
      ⟨hpre, fun j _ => h.isPrefix j⟩
  · exact (Function.forall_update_iff smr fun _ s => s.log.commits ≤ s.log.log.length).mpr
      ⟨hbounded, fun j _ => h.bounded j⟩
  · rw [hso]
    exact (Function.forall_update_iff smr fun _ s => s.log.commits ≤ (smr o).log.commits).mpr
      ⟨hcommit.trans (max_le (h.behind i) hm.commit), fun j _ => h.behind j⟩
  · intro j idx hv
    rw [hso] at hv
    exact (h.votes j idx hv).trans (hlen j)
  · rw [hso]
    exact h.durable.mono fun j hj => hj.trans (hlen j)
  · intro m dst hp'
    rw [hso]
    rcases hnet _ hp' with hold | ⟨cb, hcb, hstamp⟩
    · exact h.appends m dst hold
    · rw [List.mem_singleton] at hcb
      subst hcb
      obtain ⟨epoch, heq⟩ := hstamp
      cases heq
  · intro m dst hp'
    rcases hnet _ hp' with hold | ⟨cb, hcb, hstamp⟩
    · exact (h.replies m dst hold).mono hlen
    · rw [List.mem_singleton] at hcb
      subst hcb
      obtain ⟨epoch, heq⟩ := hstamp
      cases heq
      refine ⟨hm.sender, ?_, i, rfl, hio, ?_⟩
      · dsimp only
        rw [hs]
        exact h.group i
      · intro hsuccess
        rw [hsi]
        exact ⟨hpos hsuccess, le_rfl⟩

/-! ## The owner gets a reply -/

/-- INTERNAL: **the owner counts a reply**: the call returns and sends nothing.  It changes
the votes, in which every flag is still of an index that the log of its peer has reached, and
possibly the commit index, which goes up to an index that a majority has reached.
SOURCE: core/smr.cpp:115-141, 252-268 -/
theorem owner_reply {o : Fin n} {gid : ℕ} {smr : Fin n → SMR} {net : GenericMessage n → Prop}
    (h : OneOwner o gid smr net) {msg : AppenEntriesReplyMessage} {dst : ℕ}
    (hm : ReplyInFlight o gid smr msg dst) :
    ∃ s cbs votes c, (smr o).handleAppendEntriesReply msg msg.fromId = .ok (s, cbs) ∧
      (∀ cb ∈ cbs, ∀ p : GenericMessage n, ¬ Stamped o cb p) ∧
      s = { smr o with entryVotes := votes, log := { (smr o).log with commits := c } } ∧
      votes.peerNum = n ∧
      (∀ k : Fin n, ∀ idx, votes.Voted k idx → idx ≤ (smr k).log.log.length) ∧
      (smr o).log.commits ≤ c ∧ c ≤ (smr o).log.log.length ∧
      Majority fun k => c ≤ (smr k).log.log.length := by
  obtain ⟨j, hj, -, hidx⟩ := hm.sender
  have hjlen : msg.success = true → msg.index ≤ (smr o).log.log.length := fun hs =>
    (hidx hs).2.trans (h.isPrefix j).length_le
  have hvoter : msg.fromId < (smr o).entryVotes.peerNum := by
    rw [h.voters, hj]
    exact j.isLt
  obtain ⟨s, cbs, hcall⟩ := handleReply_total (smr o) msg hvoter hjlen
  rcases handleReply_cases hcall with ⟨-, rfl, rfl⟩ | ⟨hsucc, votes, reached, hvote, hcase⟩
  · exact ⟨_, _, _, _, hcall, fun _ hcb => absurd hcb List.not_mem_nil, rfl, h.voters o, h.votes,
      le_rfl, h.bounded o, h.durable⟩
  have hpeer : votes.peerNum = n := by
    rw [EntryVoteRecord.vote_peerNum hvote, h.voters]
  have hvoted : ∀ k : Fin n, ∀ idx, votes.Voted k idx → idx ≤ (smr k).log.log.length := by
    intro k idx hv
    rcases EntryVoteRecord.vote_voted hvote hv with hold | ⟨hk, rfl⟩
    · exact h.votes k idx hold
    · have hkj : k = j := Fin.ext (hk.trans hj)
      subst hkj
      exact (hidx hsucc).2
  rcases hcase with ⟨-, rfl, rfl⟩ | ⟨hreached, hlt, hle, rfl, rfl⟩
  · exact ⟨_, _, votes, _, hcall, fun _ hcb => absurd hcb List.not_mem_nil, rfl, hpeer, hvoted,
      le_rfl, h.bounded o, h.durable⟩
  · refine ⟨_, _, votes, _, hcall, ?_, rfl, hpeer, hvoted, le_of_lt hlt, hle, ?_⟩
    · intro cb hcb p hstamp
      rw [List.mem_singleton] at hcb
      subst hcb
      exact hstamp
    · subst hreached
      apply majority_of_count (v := votes.record msg.index) (by simp [hpeer])
      · rw [EntryVoteRecord.vote_true_count hvote, hpeer]
      · exact fun k hk => hvoted k msg.index hk

/-- INTERNAL: **a reply reaches the owner**: the call returns, and when it moves the commit
index, a majority has the entry there. SOURCE: core/smr.cpp:252-268 -/
theorem OneOwner.reply {o : Fin n} {gid : ℕ} {smr : Fin n → SMR}
    {net : GenericMessage n → Prop} (h : OneOwner o gid smr net)
    {msg : AppenEntriesReplyMessage} {i : Fin n} (hp : net (.appendReply msg i)) :
    i = o ∧ ∃ s cbs, (smr i).handleAppendEntriesReply msg msg.fromId = .ok (s, cbs) ∧
      ∀ net' : GenericMessage n → Prop,
        (∀ p, net' p → net p ∨ ∃ cb ∈ cbs, Stamped i cb p) →
        OneOwner o gid (Function.update smr i s) net' := by
  have hm := h.replies msg i hp
  have hio : i = o := Fin.ext hm.addressee
  subst hio
  obtain ⟨s, cbs, votes, c, hcall, hsilent, hs, hpeer, hvoted, hge, hle, hdurable⟩ :=
    owner_reply h hm
  refine ⟨rfl, s, cbs, hcall, fun net' hnet => ?_⟩
  have hnet' : ∀ p, net' p → net p := by
    intro p hp'
    rcases hnet p hp' with hold | ⟨cb, hcb, hstamp⟩
    · exact hold
    · exact absurd hstamp (hsilent cb hcb p)
  refine OneOwner.lose ?_ hnet'
  have hsi : Function.update smr i s i = s := Function.update_self ..
  have hlog := update_frame smr i (fun s => s.log.log) (s := s) (by rw [hs])
  have hvoters : s.entryVotes.peerNum = (smr i).entryVotes.peerNum := by
    rw [hs, h.voters]
    exact hpeer
  constructor
  · exact fun k => (update_frame smr i SMR.me (by rw [hs]) k).trans (h.me k)
  · exact fun k => (update_frame smr i SMR.peers (by rw [hs]) k).trans (h.peers k)
  · exact fun k => (update_frame smr i (fun s => s.entryVotes.peerNum) hvoters k).trans (h.voters k)
  · exact fun k => (update_frame smr i SMR.gid (by rw [hs]) k).trans (h.group k)
  · intro k
    rw [hlog k, hlog i]
    exact h.isPrefix k
  · exact (Function.forall_update_iff smr fun _ s => s.log.commits ≤ s.log.log.length).mpr
      ⟨by rw [hs]; exact hle, fun k _ => h.bounded k⟩
  · rw [hsi]
    apply (Function.forall_update_iff smr fun _ s' => s'.log.commits ≤ s.log.commits).mpr
    refine ⟨le_rfl, fun k _ => (h.behind k).trans ?_⟩
    rw [hs]
    exact hge
  · intro k idx hv
    rw [hlog k]
    rw [hsi, hs] at hv
    exact hvoted k idx hv
  · apply hdurable.mono
    intro k hk
    rw [hlog k, hsi, hs]
    exact hk
  · intro m dst hp'
    have hsame : s.log.log = (smr i).log.log ++ [] := by rw [hs, List.append_nil]
    rw [hsi]
    exact (h.appends m dst hp').mono hsame (by rw [hs]; exact hge)
  · intro m dst hp'
    exact (h.replies m dst hp').mono fun k => (by rw [hlog k])

end MorphlingC.Analysis
