import MorphlingC.Analysis.MessageSizes
import MorphlingC.Analysis.ReplicaHandlers
import MorphlingC.Model.Wired

/-!
# What replicas send can be packed, read and unpacked

A client's operation comes in a frame of less than 2000 bytes, so every entry of a log is short,
and everything that a replica sends because of it is: each append has one entry, each
acknowledgement an index.  `SmallReplica` is kept by every handler, as long as a log has less
than 2^64 entries, and what is queued then is a message that crosses the connection as it is
(`small_frame`).
-/

set_option autoImplicit false

namespace MorphlingC.Analysis

open MorphlingC.Library MorphlingC.Library.MsgPack MorphlingC.Model MorphlingC.Interface
  MorphlingC.Model.Morphling

variable {n : ℕ} {τ : Type} {unpack : Bytes → Option Operation}

/-! ## Small values -/

/-- An entry of the initial epoch, with data that an accepted operation leaves room for. -/
structure SmallEntry (e : Entry) : Prop where
  epoch : e.epoch = 1
  data : e.data.length ≤ 1993

/-- A log of small entries, whose indices are in the range of their type. -/
structure SmallLog (l : SMRLog) : Prop where
  entries : ∀ e ∈ l.log, SmallEntry e
  length : l.log.length < 2 ^ 64
  commits : l.commits < 2 ^ 64

/-- An append with one small entry, apart from what it is stamped with. -/
structure SmallAppend (msg : AppendEntriesMessage) : Prop where
  prevTerm : msg.prevTerm < 2 ^ 64
  prevIndex : msg.prevIndex < 2 ^ 64
  commit : msg.commit < 2 ^ 64
  groupId : msg.groupId < defaultKeySpace
  entries : ∃ e, msg.entries = [e] ∧ SmallEntry e ∧ e.index < 2 ^ 64

/-- An acknowledgement, apart from what it is stamped with. -/
structure SmallReply (msg : AppenEntriesReplyMessage) : Prop where
  groupId : msg.groupId < defaultKeySpace
  index : msg.index < 2 ^ 64

/-- What a replica of `n` sends to another one. -/
def SmallMsg : GenericMessage n → Prop
  | .append msg _ => msg.fromId < n ∧ msg.epoch = 1 ∧ SmallAppend msg
  | .appendReply msg _ => msg.fromId < n ∧ msg.epoch = 1 ∧ SmallReply msg
  | .guidance _ _ => False

/-- A callback of a group queues a small message or none. -/
def SmallCallback : Callback → Prop
  | .notifySendAppendEntry msg _ => SmallAppend msg
  | .notifySendAppendEntryReply msg _ => SmallReply msg
  | .notifyApply _ => True

/-- **The invariant of a replica.** -/
structure SmallReplica (r : Fin n) (m : Morphling n τ) : Prop where
  me : m.me = r
  epoch : m.guide.epoch = 1
  gids : ∀ g, (m.smrs g).gid = g
  logs : ∀ g, SmallLog (m.smrs g).log

/-- A fresh replica. -/
theorem SmallReplica.init (r : Fin n) :
    SmallReplica r (Morphling.new r (List.range n) List.length_range : Morphling n τ) where
  me := rfl
  epoch := rfl
  gids := fun _ => rfl
  logs := fun _ => ⟨fun _ he => absurd he List.not_mem_nil, Nat.two_pow_pos 64, Nat.two_pow_pos 64⟩

/-! ## Groups -/

/-- INTERNAL: the last entry of a small log is small, or the dummy entry. -/
theorem SmallLog.lastEntry_epoch {l : SMRLog} (h : SmallLog l) : l.lastEntry.epoch < 2 ^ 64 := by
  unfold SMRLog.lastEntry
  cases hlast : l.log.getLast? with
  | none => decide
  | some e =>
    have hsmall := h.entries e (List.mem_of_getLast? hlast)
    rw [Option.getD_some, hsmall.epoch]
    decide

/-- INTERNAL: entries that are numbered anew are small when they were.
SOURCE: core/smr.cpp:30-49 -/
theorem small_of_mem_numberedFrom {entries : List Entry} (h : ∀ e ∈ entries, SmallEntry e)
    {i : ℕ} {e : Entry} (he : e ∈ numberedFrom i entries) : SmallEntry e := by
  induction entries generalizing i with
  | nil => cases he
  | cons a rest ih =>
    rcases List.mem_cons.mp he with rfl | hrest
    · exact ⟨(h a List.mem_cons_self).epoch, (h a List.mem_cons_self).data⟩
    · exact ih (fun b hb => h b (List.mem_cons_of_mem _ hb)) hrest

/-- INTERNAL: a client's operation keeps a log small and is sent in small messages.
SOURCE: core/smr.cpp:211-224 -/
theorem SmallLog.operation {s s' : SMR} {msg : ClientMessage} {cbs : List Callback} {idx : ℕ}
    (h : SmallLog s.log) (hgid : s.gid < defaultKeySpace)
    (hroom : s.log.log.length + 1 < 2 ^ 64) (hepoch : msg.epoch = 1)
    (hop : msg.op.length ≤ 1993) (hcall : s.handleOperation msg = .ok (s', cbs, idx)) :
    SmallLog s'.log ∧ s'.gid = s.gid ∧ ∀ cb ∈ cbs, SmallCallback cb := by
  obtain ⟨hidx, hlog, hcommits, hsame, -, -, -, rfl⟩ := handleOperation_ok hcall
  have hentry : SmallEntry ⟨msg.epoch, idx, msg.op⟩ := ⟨hepoch, hop⟩
  refine ⟨⟨?_, ?_, ?_⟩, hsame, ?_⟩
  · intro e he
    rw [hlog] at he
    rcases List.mem_append.mp he with hold | hnew
    · exact h.entries e hold
    · rw [List.mem_singleton.mp hnew]
      exact hentry
  · rw [hlog, List.length_append, List.length_singleton]
    exact hroom
  · rw [hcommits]
    exact h.commits
  · intro cb hcb
    obtain ⟨rid, -, rfl⟩ := List.mem_map.mp hcb
    exact ⟨h.lastEntry_epoch, h.length, h.commits, hgid, _, rfl, hentry, by rw [hidx]; exact hroom⟩

/-- INTERNAL: an append with one small entry puts small entries into a log, which grows by one
entry at most. SOURCE: core/smr.cpp:194-209, 226-250 -/
theorem appended_log {s s' : SMR} {msg : AppendEntriesMessage} {sender : ℕ}
    {cbs : List Callback} (h : ∀ e ∈ s.log.log, SmallEntry e) (hmsg : SmallAppend msg)
    (hcall : s.handleAppendEntries msg sender = .ok (s', cbs)) :
    (∀ e ∈ s'.log.log, SmallEntry e) ∧ s'.log.log.length ≤ s.log.log.length + 1 := by
  obtain ⟨e, hentries, hentry, -⟩ := hmsg.entries
  have hsmall : ∀ a ∈ msg.entries, SmallEntry a := by
    rw [hentries]
    exact fun a ha => (List.mem_singleton.mp ha) ▸ hentry
  rcases handleAppendEntries_log hcall with ⟨-, rfl⟩ | ⟨-, -, hcases⟩
  · exact ⟨h, Nat.le_succ _⟩
  · rcases hcases with ⟨-, -, hlog⟩ | ⟨-, a, rest, hmissing, hpos, hle, hlog⟩ | ⟨-, hlog⟩
    · rw [hlog]
      exact ⟨h, Nat.le_succ _⟩
    · have hmem : a :: rest <:+ [e] := by
        rw [← hmissing, missing, hentries]
        exact List.dropWhile_suffix _
      have hrest : rest.length = 0 := by
        have hlen := hmem.length_le
        simp only [List.length_cons, List.length_nil] at hlen
        omega
      have ha : SmallEntry a := hsmall a (by rw [hentries]; exact hmem.subset List.mem_cons_self)
      rw [hlog]
      constructor
      · intro b hb
        rcases List.mem_append.mp hb with hold | hnew
        · exact h b (List.mem_of_mem_take hold)
        · refine small_of_mem_numberedFrom (fun c hc => ?_) hnew
          rw [List.eq_of_mem_replicate hc]
          exact ha
      · rw [List.length_append, List.length_take, numberedFrom_length, List.length_replicate]
        omega
    · rw [hlog]
      constructor
      · intro b hb
        rcases List.mem_append.mp hb with hold | hnew
        · exact h b hold
        · exact small_of_mem_numberedFrom hsmall hnew
      · rw [List.length_append, numberedFrom_length, hentries]
        exact le_rfl

/-- INTERNAL: an append with one small entry keeps a log small.
SOURCE: core/smr.cpp:194-209, 226-250 -/
theorem SmallLog.appended {s s' : SMR} {msg : AppendEntriesMessage} {sender : ℕ}
    {cbs : List Callback} (h : SmallLog s.log) (hroom : s.log.log.length + 1 < 2 ^ 64)
    (hmsg : SmallAppend msg) (hcall : s.handleAppendEntries msg sender = .ok (s', cbs)) :
    SmallLog s'.log := by
  obtain ⟨hentries, hlength⟩ := appended_log h.entries hmsg hcall
  refine ⟨hentries, by omega, ?_⟩
  have hcommit := h.commits
  rcases handleAppendEntries_log hcall with ⟨-, rfl⟩ | ⟨-, hcommits, -⟩
  · exact hcommit
  · rw [hcommits]
    omega

/-- INTERNAL: the answer to an append is small. SOURCE: core/smr.cpp:226-250, 283-286 -/
theorem SmallLog.append_answer {s s' : SMR} {msg : AppendEntriesMessage} {sender : ℕ}
    {cbs : List Callback} (h : SmallLog s'.log) (hgid : s.gid < defaultKeySpace)
    (hcall : s.handleAppendEntries msg sender = .ok (s', cbs)) :
    s'.gid = s.gid ∧ ∀ cb ∈ cbs, SmallCallback cb := by
  have hsame : s'.gid = s.gid := by rw [handleAppendEntries_frame hcall]
  have hanswer : ∃ success, cbs = [appendReply s' success sender] := by
    rcases handleAppendEntries_ok.mp hcall with ⟨-, rfl, hcbs⟩ | ⟨-, log, -, -, hcbs⟩
    · exact ⟨false, hcbs⟩
    · exact ⟨true, hcbs⟩
  obtain ⟨success, rfl⟩ := hanswer
  refine ⟨hsame, fun cb hcb => ?_⟩
  rw [List.mem_singleton.mp hcb]
  exact ⟨by rw [hsame]; exact hgid, h.length⟩

/-- INTERNAL: an acknowledgement keeps a log small, and nothing is sent.
SOURCE: core/smr.cpp:252-268 -/
theorem SmallLog.acked {s s' : SMR} {msg : AppenEntriesReplyMessage} {sender : ℕ}
    {cbs : List Callback} (h : SmallLog s.log)
    (hcall : s.handleAppendEntriesReply msg sender = .ok (s', cbs)) :
    SmallLog s'.log ∧ s'.gid = s.gid ∧ ∀ cb ∈ cbs, SmallCallback cb := by
  rcases handleReply_cases hcall with
    ⟨-, rfl, rfl⟩ | ⟨-, votes, reached, -, ⟨-, rfl, rfl⟩ | ⟨-, -, hle, rfl, rfl⟩⟩
  · exact ⟨h, rfl, fun cb hcb => absurd hcb List.not_mem_nil⟩
  · exact ⟨h, rfl, fun cb hcb => absurd hcb List.not_mem_nil⟩
  · refine ⟨⟨h.entries, h.length, lt_of_le_of_lt hle h.length⟩, rfl, fun cb hcb => ?_⟩
    rw [List.mem_singleton.mp hcb]
    trivial

/-! ## Replicas -/

/-- INTERNAL: a call of a group that keeps its log small and queues small messages.
SOURCE: core/morphling.cpp:12-26, 165-184 -/
theorem SmallReplica.afterCall {r : Fin n} {m : Morphling n τ} (h : SmallReplica r m)
    (hidle : m.nextMsgs = []) {gid : Fin defaultKeySpace} {s : SMR} {cbs : List Callback}
    (hlog : SmallLog s.log) (hgid : s.gid = (m.smrs gid).gid)
    (hcbs : ∀ cb ∈ cbs, SmallCallback cb) :
    SmallReplica r (afterCall m gid s cbs) ∧
      ∀ p ∈ (Analysis.afterCall m gid s cbs).nextMsgs, SmallMsg p := by
  refine ⟨⟨h.me, h.epoch, ?_, ?_⟩, fun p hp => ?_⟩
  · exact (Function.forall_update_iff m.smrs (p := fun g t => t.gid = g)).mpr
      ⟨hgid.trans (h.gids gid), fun g _ => h.gids g⟩
  · exact (Function.forall_update_iff m.smrs (p := fun _ t => SmallLog t.log)).mpr
      ⟨hlog, fun g _ => h.logs g⟩
  · obtain ⟨cb, hcb, q, hq, rfl⟩ := mem_afterCall_nextMsgs hidle hp
    have hsmall := hcbs cb hcb
    have hme : m.me < n := by rw [h.me]; exact r.isLt
    cases cb with
    | notifySendAppendEntry msg dst =>
      cases hq
      exact ⟨hme, h.epoch, hsmall.prevTerm, hsmall.prevIndex, hsmall.commit, hsmall.groupId,
        hsmall.entries⟩
    | notifySendAppendEntryReply msg dst =>
      cases hq
      exact ⟨hme, h.epoch, hsmall.groupId, hsmall.index⟩
    | notifyApply entries => cases hq

/-- There is room for one more entry in every log. -/
def HasRoom (m : Morphling n τ) : Prop := ∀ g, (m.smrs g).log.log.length + 1 < 2 ^ 64

/-- INTERNAL: a client's message at a replica. SOURCE: core/morphling.cpp:103-126 -/
theorem SmallReplica.operation {r : Fin n} {m m' : Morphling n τ} (h : SmallReplica r m)
    (hidle : m.nextMsgs = []) (hroom : HasRoom m) {msg : ClientMessage} {tr : τ}
    {effects : List (Effect n τ)} (hop : msg.op.length ≤ 1993)
    (hcall : m.handleOperation unpack msg tr = .ok (m', effects)) :
    SmallReplica r m' ∧ ∀ p ∈ m'.nextMsgs, SmallMsg p := by
  have hsame : SmallReplica r m ∧ ∀ p ∈ m.nextMsgs, SmallMsg p :=
    ⟨h, fun p hp => absurd hp (by rw [hidle]; exact List.not_mem_nil)⟩
  rcases handleOperation_cases hcall with
    ⟨-, rfl, -⟩ | ⟨hepoch, op, -, ⟨-, rfl, -⟩ | ⟨-, smr, cbs, idx, hgroup, rfl, -⟩⟩
  · exact hsame
  · exact hsame
  · have hgid : (m.smrs (findTargetSmr msg.keyHash)).gid < defaultKeySpace := by
      rw [h.gids]
      exact (findTargetSmr msg.keyHash).isLt
    obtain ⟨hlog, hkept, hcbs⟩ := (h.logs _).operation hgid (hroom _)
      (hepoch.symm.trans h.epoch) hop hgroup
    obtain ⟨hafter, hqueued⟩ := h.afterCall hidle hlog hkept hcbs
    exact ⟨⟨hafter.me, hafter.epoch, hafter.gids, hafter.logs⟩, hqueued⟩

/-- INTERNAL: a small message of a peer at a replica. SOURCE: app/server.cpp:202-219 -/
theorem SmallReplica.peerMsg {r : Fin n} {m m' : Morphling n τ} (h : SmallReplica r m)
    (hidle : m.nextMsgs = []) (hroom : HasRoom m) {p : GenericMessage n} (hp : SmallMsg p)
    {effects : List (Effect n τ)} (hcall : Cluster.peerMsg unpack m p = .ok (m', effects)) :
    SmallReplica r m' ∧ ∀ q ∈ m'.nextMsgs, SmallMsg q := by
  cases p with
  | append msg dst =>
    obtain ⟨-, hepoch, hmsg⟩ := hp
    rcases handleAppend_cases hcall with ⟨hne, -, -⟩ | ⟨-, gid, smr, cbs, -, hgroup, rfl, -⟩
    · exact absurd (h.epoch.trans hepoch.symm) hne
    · have hlog := (h.logs gid).appended (hroom gid) hmsg hgroup
      obtain ⟨hkept, hcbs⟩ := hlog.append_answer (by rw [h.gids]; exact gid.isLt) hgroup
      exact h.afterCall hidle hlog hkept hcbs
  | appendReply msg dst =>
    obtain ⟨-, hepoch, hmsg⟩ := hp
    obtain ⟨⟨m₁, queued⟩, hack, hcall⟩ := bind_eq_ok.mp hcall
    obtain ⟨⟨m₂, answers⟩, happly, hcall⟩ := bind_eq_ok.mp hcall
    cases hcall
    obtain ⟨rfl, -⟩ := maybeApply_ok happly
    rcases handleAck_cases hack with ⟨hne, -, -⟩ | ⟨-, gid, smr, cbs, -, hgroup, rfl, -⟩
    · exact absurd (h.epoch.trans hepoch.symm) hne
    · obtain ⟨hlog, hkept, hcbs⟩ := (h.logs gid).acked hgroup
      obtain ⟨hafter, hqueued⟩ := h.afterCall hidle hlog hkept hcbs
      exact ⟨⟨hafter.me, hafter.epoch, hafter.gids, hafter.logs⟩, hqueued⟩
  | guidance msg dst => exact hp.elim

/-- INTERNAL: a client's message makes no log longer by more than an entry.
SOURCE: core/smr.cpp:211-224 -/
theorem operation_grows {m m' : Morphling n τ} {msg : ClientMessage} {tr : τ}
    {effects : List (Effect n τ)} (hcall : m.handleOperation unpack msg tr = .ok (m', effects)) :
    ∀ g, (m'.smrs g).log.log.length ≤ (m.smrs g).log.log.length + 1 := by
  rcases handleOperation_cases hcall with
    ⟨-, rfl, -⟩ | ⟨-, op, -, ⟨-, rfl, -⟩ | ⟨-, smr, cbs, idx, hgroup, rfl, -⟩⟩
  · exact fun _ => Nat.le_succ _
  · exact fun _ => Nat.le_succ _
  · obtain ⟨-, hlog, -⟩ := handleOperation_ok hgroup
    refine (Function.forall_update_iff m.smrs (p := fun g t =>
      t.log.log.length ≤ (m.smrs g).log.log.length + 1)).mpr ⟨?_, fun g _ => Nat.le_succ _⟩
    rw [hlog, List.length_append, List.length_singleton]

/-- INTERNAL: neither does a small message of a peer. SOURCE: core/smr.cpp:226-268 -/
theorem SmallReplica.peerMsg_grows {r : Fin n} {m m' : Morphling n τ} (h : SmallReplica r m)
    {p : GenericMessage n} (hp : SmallMsg p) {effects : List (Effect n τ)}
    (hcall : Cluster.peerMsg unpack m p = .ok (m', effects)) :
    ∀ g, (m'.smrs g).log.log.length ≤ (m.smrs g).log.log.length + 1 := by
  cases p with
  | append msg dst =>
    rcases handleAppend_cases hcall with ⟨-, rfl, -⟩ | ⟨-, gid, smr, cbs, -, hgroup, rfl, -⟩
    · exact fun _ => Nat.le_succ _
    · exact (Function.forall_update_iff m.smrs (p := fun g t =>
        t.log.log.length ≤ (m.smrs g).log.log.length + 1)).mpr
        ⟨(appended_log (h.logs gid).entries hp.2.2 hgroup).2, fun g _ => Nat.le_succ _⟩
  | appendReply msg dst =>
    obtain ⟨⟨m₁, queued⟩, hack, hcall⟩ := bind_eq_ok.mp hcall
    obtain ⟨⟨m₂, answers⟩, happly, hcall⟩ := bind_eq_ok.mp hcall
    cases hcall
    obtain ⟨rfl, -⟩ := maybeApply_ok happly
    rcases handleAck_cases hack with ⟨-, rfl, -⟩ | ⟨-, gid, smr, cbs, -, hgroup, rfl, -⟩
    · exact fun _ => Nat.le_succ _
    · obtain ⟨hlog, -⟩ := handleReply_applied hgroup
      refine (Function.forall_update_iff m.smrs (p := fun g t =>
        t.log.log.length ≤ (m.smrs g).log.log.length + 1)).mpr ⟨?_, fun g _ => Nat.le_succ _⟩
      rw [hlog]
      exact Nat.le_succ _
  | guidance msg dst => exact hp.elim

/-! ## Frames -/

/-- INTERNAL: a small append is packed in no more bytes than the array that it is read into.
SOURCE: core/message.h:29-40; core/smr.h:18-33 -/
theorem SmallAppend.pack_length_le {msg : AppendEntriesMessage} (h : SmallAppend msg)
    (hfrom : msg.fromId < 2 ^ 8) (hepoch : msg.epoch = 1) : msg.pack.length ≤ recvCapacity := by
  obtain ⟨e, hentries, hentry, -⟩ := h.entries
  have he : e.pack.length ≤ 14 + e.data.length :=
    entry_pack_length_le (by rw [hentry.epoch]; decide) (by have := hentry.data; omega)
  have hsender := packUInt_length_le_of_lt_8 hfrom
  have hterm := packUInt_length_le msg.prevTerm
  have hindex := packUInt_length_le msg.prevIndex
  have hcommit := packUInt_length_le msg.commit
  have hgroup : (packUInt msg.groupId).length ≤ 2 := packUInt_length_le_of_lt_8 h.groupId
  have hdata := hentry.data
  unfold AppendEntriesMessage.pack recvCapacity
  rw [hentries, hepoch, List.map_singleton, packArray_length (by simp)]
  simp only [List.map_cons, List.map_nil, List.sum_cons, List.sum_nil, packArray_one]
  have hone : (packUInt 1).length = 1 := rfl
  omega

/-- INTERNAL: so is an acknowledgement. SOURCE: core/message.h:42-51 -/
theorem reply_pack_length (msg : AppenEntriesReplyMessage) :
    msg.pack.length ≤ recvCapacity := by
  have hsender := packUInt_length_le msg.fromId
  have hepoch := packUInt_length_le msg.epoch
  have hgroup := packUInt_length_le msg.groupId
  have hindex := packUInt_length_le msg.index
  unfold AppenEntriesReplyMessage.pack recvCapacity
  rw [packArray_length (by simp)]
  simp only [List.map_cons, List.map_nil, List.sum_cons, List.sum_nil, packBool_length]
  omega

/-- INTERNAL: the fields of a small message are in the ranges of their types.
SOURCE: core/message.h:29-51; core/smr.h:18-33 -/
theorem SmallAppend.fits {msg : AppendEntriesMessage} (h : SmallAppend msg)
    (hfrom : msg.fromId < 2 ^ 8) (hepoch : msg.epoch = 1) : msg.Fits := by
  obtain ⟨e, hentries, hentry, hindex⟩ := h.entries
  have hgroup : msg.groupId < 256 := h.groupId
  have hdata := hentry.data
  refine ⟨by omega, by omega, h.prevTerm, h.prevIndex, h.commit, by omega, ?_, fun a ha => ?_⟩
  · rw [hentries]
    exact Nat.one_lt_two_pow (by decide)
  · rw [hentries] at ha
    rw [List.mem_singleton.mp ha]
    exact ⟨by rw [hentry.epoch]; decide, hindex, by omega⟩

/-- INTERNAL: **a small message has a frame that fits the array it is read into.**
SOURCE: app/server.cpp:48-80 -/
theorem small_frame (hn : n ≤ 255) (image : GuidanceMessage n → Bytes) {p : GenericMessage n}
    (h : SmallMsg p) :
    ∃ f : Frame, socketSend p.msgType (p.payload image) = f.encode ∧ f.msgType = p.msgType ∧
      f.payload = p.payload image ∧ f.payload.length ≤ recvCapacity := by
  have hroom : (p.payload image).length ≤ recvCapacity := by
    cases p with
    | append msg dst => exact h.2.2.pack_length_le (by have := h.1; omega) h.2.1
    | appendReply msg dst => exact reply_pack_length msg
    | guidance msg dst => exact h.elim
  refine ⟨⟨p.msgType, p.payload image, p.msgType_known, lt_of_le_of_lt hroom (by decide)⟩, ?_,
    rfl, rfl, hroom⟩
  rw [socketSend, socketHeader_eq]
  rfl

/-- INTERNAL: **the payload of a small message is handled as the message**, when what has been
packed is read back. SOURCE: app/server.cpp:202-223 -/
theorem handlePayload_eq {readers : Readers} (hreaders : readers.ReadPacked) (hn : n ≤ 255)
    (image : GuidanceMessage n → Bytes) (m : Morphling n τ) {p : GenericMessage n}
    (h : SmallMsg p) :
    m.handlePayload readers unpack p.msgType (p.payload image) =
      (Cluster.peerMsg unpack m p).mapError .replica := by
  cases p with
  | append msg dst =>
    have hfits := h.2.2.fits (by have := h.1; omega) h.2.1
    have hmsg := hreaders.append msg hfits
    simp only [GenericMessage.msgType, GenericMessage.payload, handlePayload, hmsg]
    rfl
  | appendReply msg dst =>
    obtain ⟨hfrom, hepoch, hreply⟩ := h
    have hgroup : msg.groupId < 256 := hreply.groupId
    have hmsg := hreaders.appendReply msg ⟨by omega, by omega, by omega, hreply.index⟩
    simp only [GenericMessage.msgType, GenericMessage.payload, handlePayload, hmsg]
    rfl
  | guidance msg dst => exact h.elim

end MorphlingC.Analysis
