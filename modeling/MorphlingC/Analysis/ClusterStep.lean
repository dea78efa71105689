import MorphlingC.Analysis.GroupRuns
import MorphlingC.Analysis.ReplicaHandlers
import MorphlingC.Model.Cluster

/-!
# One step of the cluster

When every group has one owner, that is, all replicated operations of the group are
handled by one replica, each group lives in the invariant `OneOwner`, over the messages on
the wire that are the group's.  `ClusterOk` is that, for all groups at once, together with
what the replicas keep between two callbacks: nothing is queued, every entry decodes, and
a client waits under the index of every entry of the owner.

`cluster_step` says what a step does: it returns, it keeps `ClusterOk`, and at most one
group commits more entries, at its owner, which in the same step queues them, stores their
writes and answers their clients (`Commits`).  The properties of runs are all read off it.
-/

set_option autoImplicit false

namespace MorphlingC.Analysis

open MorphlingC.Library MorphlingC.Model MorphlingC.Interface MorphlingC.Model.Morphling

variable {n : ℕ} {τ : Type} {unpack : Bytes → Option Operation}
  {fits : Fin defaultKeySpace → Operation → Prop} {owner : Fin defaultKeySpace → Fin n}

/-- The message is an append or an acknowledgement of the group, of the initial epoch. -/
def ForGroup (gid : Fin defaultKeySpace) : GenericMessage n → Prop
  | .append msg _ => msg.groupId = gid ∧ msg.epoch = 1
  | .appendReply msg _ => msg.groupId = gid ∧ msg.epoch = 1
  | .guidance _ _ => False

/-- INTERNAL: a message is of one group at most. -/
theorem ForGroup.unique {gid g : Fin defaultKeySpace} {p : GenericMessage n}
    (h : ForGroup gid p) (h' : ForGroup g p) : g = gid := by
  cases p with
  | append msg dst => exact Fin.ext (h'.1.symm.trans h.1)
  | appendReply msg dst => exact Fin.ext (h'.1.symm.trans h.1)
  | guidance msg dst => exact h.elim

/-- **The invariant of a cluster whose groups have one owner each.**  `fits` is what is known
of the operations in each group. -/
structure ClusterOk (unpack : Bytes → Option Operation)
    (fits : Fin defaultKeySpace → Operation → Prop) (owner : Fin defaultKeySpace → Fin n)
    (c : Cluster n τ) : Prop where
  me : ∀ i, (c.replicas i).me = i
  peers : ∀ i, (c.replicas i).peers = List.range n
  epoch : ∀ i, (c.replicas i).guide.epoch = 1
  sent : ∀ i, (c.replicas i).nextMsgs = []
  applied : ∀ i, (c.replicas i).applyEntries = []
  groups : ∀ gid, OneOwner (owner gid) gid (fun i => (c.replicas i).smrs gid)
    fun p => p ∈ c.network ∧ ForGroup gid p
  wire : ∀ p ∈ c.network, ∃ gid, ForGroup gid p
  decodes : ∀ gid, ∀ e ∈ ((c.replicas (owner gid)).smrs gid).log.log,
    ∃ op, unpack e.data = some op ∧ fits gid op
  waits : ∀ gid, ∀ i, 1 ≤ i → i ≤ ((c.replicas (owner gid)).smrs gid).log.log.length →
    (c.replicas (owner gid)).clientPendings i ≠ none

/-- The event brings no replicated operation that does not decode, is not for the replica
that owns its group, or does not fit it. -/
def Accepted (unpack : Bytes → Option Operation)
    (fits : Fin defaultKeySpace → Operation → Prop) (owner : Fin defaultKeySpace → Fin n) :
    ClusterEvent n τ → Prop
  | .client r msg _ => msg.epoch = 1 → ∃ op, unpack msg.op = some op ∧
      (op.opType ≠ 0 → r = owner (findTargetSmr msg.keyHash) ∧
        fits (findTargetSmr msg.keyHash) op)
  | .getGuidance _ _ => True
  | .peer _ => True
  | .lose _ => True

/-- The event is a replicated operation of the initial epoch for a key of the group. -/
def Replicates (unpack : Bytes → Option Operation) (gid : Fin defaultKeySpace) :
    ClusterEvent n τ → Bool
  | .client _ msg _ => ReplicatedFor unpack gid msg
  | .getGuidance _ _ => false
  | .peer _ => false
  | .lose _ => false

/-- The entries of a group that its owner has committed. -/
def committedAt (owner : Fin defaultKeySpace → Fin n) (c : Cluster n τ)
    (gid : Fin defaultKeySpace) : List Entry :=
  ((c.replicas (owner gid)).smrs gid).log.log.take
    ((c.replicas (owner gid)).smrs gid).log.currCommit

/-- In the step from `c` to `c'` on `event`, with the effects `out`, the group `gid` commits
the entries `es` at its owner, which queues, stores and answers them, and no other group
commits anything; a read is replied to from the storage of the replica it came to. -/
structure Commits (unpack : Bytes → Option Operation) (owner : Fin defaultKeySpace → Fin n)
    (event : ClusterEvent n τ) (c c' : Cluster n τ) (out : List (Fin n × Effect n τ))
    (gid : Fin defaultKeySpace) (es : List Entry) : Prop where
  committed : ∀ g, committedAt owner c' g = committedAt owner c g ++ if g = gid then es else []
  storage : ∀ i, (c'.replicas i).storage =
    if i = owner gid then applyWrites (c.replicas i).storage (writesOf unpack es)
    else (c.replicas i).storage
  queued : ∀ i, queuedEntries (effectsAt out i) =
    if i = owner gid then es.map (gid.val, ·) else []
  answered : ∀ i, (answers (effectsAt out i)).map Prod.fst = if i = owner gid then es else []
  reads : ∀ i, ∀ reply ∈ reads (effectsAt out i),
    (∃ msg tr, event = .client i msg tr ∧ reply.keyHash = msg.keyHash) ∧
      reply.replyData = (c.replicas i).storage reply.keyHash

/-! ## What a replica sends -/

/-- INTERNAL: what is queued after a call is stamped with the replica's number and epoch.
SOURCE: core/morphling.cpp:165-184 -/
theorem ClusterOk.stamped {c : Cluster n τ} (h : ClusterOk unpack fits owner c) {r : Fin n}
    {gid : Fin defaultKeySpace} {s : SMR} {cbs : List Callback} {p : GenericMessage n}
    (hp : p ∈ (afterCall (c.replicas r) gid s cbs).nextMsgs) :
    ∃ cb ∈ cbs, Stamped r cb p := by
  obtain ⟨cb, hcb, q, hq, rfl⟩ := mem_afterCall_nextMsgs (h.sent r) hp
  refine ⟨cb, hcb, ?_⟩
  cases cb with
  | notifySendAppendEntry msg dst =>
    cases hq
    exact ⟨_, by rw [stamp, h.me]⟩
  | notifySendAppendEntryReply msg dst =>
    cases hq
    exact ⟨_, by rw [stamp, h.me]⟩
  | notifyApply entries => cases hq

/-- The replica `r` can send the message for the group: it is the group's, has an entry if
it is an append, and goes to another replica. -/
structure Sendable (gid : Fin defaultKeySpace) (r : Fin n) (p : GenericMessage n) : Prop where
  group : ForGroup gid p
  entries : p.noEntries = false
  addressee : p.dst < n ∧ p.dst ≠ r

/-- INTERNAL: what is queued after a call that keeps its group in the invariant can be sent.
SOURCE: core/morphling.cpp:165-184, 206-231 -/
theorem ClusterOk.sendable {c : Cluster n τ} (h : ClusterOk unpack fits owner c) {r o : Fin n}
    {gid : Fin defaultKeySpace} {s : SMR} {cbs : List Callback} {smr : Fin n → SMR}
    {net : GenericMessage n → Prop} (hgroup : OneOwner o gid smr net) {p : GenericMessage n}
    (hp : p ∈ (afterCall (c.replicas r) gid s cbs).nextMsgs) (hnet : net p) :
    Sendable gid r p := by
  obtain ⟨cb, -, q, hq, rfl⟩ := mem_afterCall_nextMsgs (h.sent r) hp
  cases cb with
  | notifySendAppendEntry msg dst =>
    cases hq
    have hm := hgroup.appends _ _ hnet
    obtain ⟨e, hentries, -⟩ := hm.entry
    have hro : r.val = o := (h.me r).symm.trans hm.sender
    refine ⟨⟨hm.group, h.epoch r⟩, ?_, hm.addressee.1, ?_⟩
    · dsimp only at hentries
      simp [stamp, GenericMessage.noEntries, hentries]
    · rw [hro]
      exact hm.addressee.2
  | notifySendAppendEntryReply msg dst =>
    cases hq
    have hm := hgroup.replies _ _ hnet
    obtain ⟨j, hj, hne, -⟩ := hm.sender
    have hrj : r = j := Fin.ext ((h.me r).symm.trans hj)
    have hdst : dst = o := hm.addressee
    refine ⟨⟨hm.group, h.epoch r⟩, rfl, ?_, ?_⟩
    · exact lt_of_eq_of_lt hdst o.isLt
    · rw [hrj]
      exact fun heq => hne (Fin.ext (heq.symm.trans hdst))
  | notifyApply entries => cases hq

/-- INTERNAL: the end of a callback sends what is queued.
SOURCE: core/morphling.cpp:206-231; app/server.cpp:171, 228 -/
theorem finish_ok (c : Cluster n τ) {r : Fin n} {m : Morphling n τ} (hme : m.me = r)
    (hpeers : m.peers = List.range n) {gid : Fin defaultKeySpace}
    (h : ∀ p ∈ m.nextMsgs, Sendable gid r p) :
    c.finish r m = .ok
      { replicas := Function.update c.replicas r { m with nextMsgs := [] }
        network := c.network ++ m.nextMsgs } := by
  have hready : ∀ p ∈ m.nextMsgs, p.noEntries = false ∧ Cluster.peerTrans m p.dst ≠ none := by
    intro p hp
    obtain ⟨-, hentries, hlt, hdst⟩ := h p hp
    refine ⟨hentries, ?_⟩
    rw [Cluster.peerTrans, hpeers, hme, if_pos ⟨List.mem_range.mpr hlt, hdst⟩]
    exact Option.some_ne_none _
  have hall := map_snd_reachable fun p hp => (hready p hp).2
  simp only [Cluster.finish, bcastMsgs, sendAll_reachable hready, ok_bind, hall]

/-! ## A call of one group -/

/-- The replica after a callback in which its group `gid` has gone to `s`. -/
def afterStep (m : Morphling n τ) (gid : Fin defaultKeySpace) (s : SMR)
    (pendings : ℕ → Option τ) (storage : ℕ → Bytes) : Morphling n τ :=
  { m with
    smrs := Function.update m.smrs gid s
    clientPendings := pendings
    storage := storage }

/-- The cluster after a callback at `r` in which its group `gid` has gone to `s`. -/
def afterAt (c : Cluster n τ) (r : Fin n) (gid : Fin defaultKeySpace) (s : SMR)
    (cbs : List Callback) (pendings : ℕ → Option τ) (storage : ℕ → Bytes) : Cluster n τ where
  replicas := Function.update c.replicas r (afterStep (c.replicas r) gid s pendings storage)
  network := c.network ++ (afterCall (c.replicas r) gid s cbs).nextMsgs

/-- The replica of the callback. -/
@[simp] theorem afterAt_self (c : Cluster n τ) (r : Fin n) (gid : Fin defaultKeySpace) (s : SMR)
    (cbs : List Callback) (pendings : ℕ → Option τ) (storage : ℕ → Bytes) :
    (afterAt c r gid s cbs pendings storage).replicas r =
      afterStep (c.replicas r) gid s pendings storage := Function.update_self ..

/-- The other replicas. -/
theorem afterAt_of_ne (c : Cluster n τ) {r i : Fin n} (hi : i ≠ r) (gid : Fin defaultKeySpace)
    (s : SMR) (cbs : List Callback) (pendings : ℕ → Option τ) (storage : ℕ → Bytes) :
    (afterAt c r gid s cbs pendings storage).replicas i = c.replicas i :=
  Function.update_of_ne hi ..

/-- INTERNAL: a group's states over the replicas after a callback, for the group of the
call. -/
theorem afterAt_smrs_self (c : Cluster n τ) (r : Fin n) (gid : Fin defaultKeySpace) (s : SMR)
    (cbs : List Callback) (pendings : ℕ → Option τ) (storage : ℕ → Bytes) :
    (fun i => ((afterAt c r gid s cbs pendings storage).replicas i).smrs gid) =
      Function.update (fun i => (c.replicas i).smrs gid) r s := by
  funext i
  by_cases hi : i = r
  · subst hi
    simp [afterAt, afterStep]
  · simp [afterAt, hi]

/-- INTERNAL: a group's states over the replicas after a callback, for other groups. -/
theorem afterAt_smrs_of_ne (c : Cluster n τ) (r : Fin n) {gid g : Fin defaultKeySpace}
    (hg : g ≠ gid) (s : SMR) (cbs : List Callback) (pendings : ℕ → Option τ)
    (storage : ℕ → Bytes) (i : Fin n) :
    ((afterAt c r gid s cbs pendings storage).replicas i).smrs g = (c.replicas i).smrs g := by
  by_cases hi : i = r
  · subst hi
    simp [afterAt, afterStep, hg]
  · simp [afterAt, hi]

/-- INTERNAL: **a callback in which one group takes a step of its own** keeps the invariant,
and what it has queued can be sent.  `hnext` is what the lemmas about one group give. -/
theorem ClusterOk.put {c : Cluster n τ} (h : ClusterOk unpack fits owner c) {r : Fin n}
    {gid : Fin defaultKeySpace} {s : SMR} {cbs : List Callback} (pendings : ℕ → Option τ)
    (storage : ℕ → Bytes)
    (hnext : ∀ net' : GenericMessage n → Prop,
      (∀ p, net' p → (p ∈ c.network ∧ ForGroup gid p) ∨ ∃ cb ∈ cbs, Stamped r cb p) →
      OneOwner (owner gid) gid (Function.update (fun i => (c.replicas i).smrs gid) r s) net')
    (hpendings : ∀ i, (c.replicas r).clientPendings i ≠ none → pendings i ≠ none)
    (hlog : r = owner gid → ∀ e ∈ s.log.log,
      (∃ op, unpack e.data = some op ∧ fits gid op) ∧ pendings e.index ≠ none) :
    (∀ p ∈ (afterCall (c.replicas r) gid s cbs).nextMsgs, Sendable gid r p) ∧
    ClusterOk unpack fits owner (afterAt c r gid s cbs pendings storage) := by
  have hgroup := hnext _ fun p hp => hp
  have hsendable : ∀ p ∈ (afterCall (c.replicas r) gid s cbs).nextMsgs, Sendable gid r p :=
    fun p hp => h.sendable hgroup hp (.inr (h.stamped hp))
  refine ⟨hsendable, ?_⟩
  have hsame : ∀ {β : Type} (f : Morphling n τ → β),
      f (afterStep (c.replicas r) gid s pendings storage) = f (c.replicas r) →
      ∀ i, f ((afterAt c r gid s cbs pendings storage).replicas i) = f (c.replicas i) :=
    fun f => update_frame c.replicas r f
  constructor
  · exact fun i => (hsame Morphling.me rfl i).trans (h.me i)
  · exact fun i => (hsame Morphling.peers rfl i).trans (h.peers i)
  · exact fun i => (hsame (fun m => m.guide.epoch) rfl i).trans (h.epoch i)
  · exact fun i => (hsame Morphling.nextMsgs rfl i).trans (h.sent i)
  · exact fun i => (hsame Morphling.applyEntries rfl i).trans (h.applied i)
  · intro g
    by_cases hg : g = gid
    · subst hg
      rw [afterAt_smrs_self]
      apply hnext _
      intro p hp
      rcases List.mem_append.mp hp.1 with hold | hnew
      · exact .inl ⟨hold, hp.2⟩
      · exact .inr (h.stamped hnew)
    · simp only [afterAt_smrs_of_ne c r hg]
      apply (h.groups g).lose
      intro p hp
      rcases List.mem_append.mp hp.1 with hold | hnew
      · exact ⟨hold, hp.2⟩
      · -- a message of the group of the call is not one of another group
        exact absurd ((hsendable p hnew).group.unique hp.2) hg
  · intro p hp
    rcases List.mem_append.mp hp with hold | hnew
    · exact h.wire p hold
    · exact ⟨gid, (hsendable p hnew).group⟩
  · intro g e he
    by_cases hg : g = gid
    · subst hg
      by_cases hr : r = owner g
      · rw [← hr] at he
        simp only [afterAt_self, afterStep, Function.update_self] at he
        exact (hlog hr e he).1
      · rw [afterAt_of_ne c (Ne.symm hr)] at he
        exact h.decodes g e he
    · rw [afterAt_smrs_of_ne c r hg] at he
      exact h.decodes g e he
  · intro g i hpos hle
    by_cases hr : r = owner g
    · have hpend : ((afterAt c r gid s cbs pendings storage).replicas (owner g)).clientPendings =
          pendings := by
        rw [← hr, afterAt_self]
        rfl
      rw [hpend]
      by_cases hg : g = gid
      · subst hg
        rw [← hr] at hle
        simp only [afterAt_self, afterStep, Function.update_self] at hle
        have hlt : i - 1 < s.log.log.length := by omega
        have hwait := (hlog hr _ (List.getElem_mem hlt)).2
        rwa [s.log.indexed, Nat.sub_add_cancel hpos] at hwait
      · rw [afterAt_smrs_of_ne c r hg] at hle
        apply hpendings i
        rw [hr]
        exact h.waits g i hpos hle
    · rw [afterAt_of_ne c (Ne.symm hr)] at hle ⊢
      exact h.waits g i hpos hle

/-- INTERNAL: what is found at `r` alone is found at `o` alone, when nothing is found unless
these are the same. -/
theorem found_at {β : Type} {r o : Fin n} {found : List β} (h : r ≠ o → found = []) (i : Fin n) :
    (if i = r then found else []) = if i = o then found else [] := by
  by_cases hr : r = o
  · rw [hr]
  · rw [h hr, ite_self, ite_self]

/-- INTERNAL: **what a callback commits**, in which one group takes a step of its own: what
the owner of the group commits, and nothing when it is at another replica. -/
theorem Commits.put (event : ClusterEvent n τ) (c : Cluster n τ) {r : Fin n}
    {gid : Fin defaultKeySpace} {s : SMR} {cbs : List Callback} {pendings : ℕ → Option τ}
    {storage : ℕ → Bytes} (effects : List (Effect n τ)) (es : List Entry)
    (hcommitted : r = owner gid → s.log.log.take s.log.commits =
      ((c.replicas r).smrs gid).log.log.take ((c.replicas r).smrs gid).log.commits ++ es)
    (hother : r ≠ owner gid → es = [])
    (hstorage : storage = applyWrites (c.replicas r).storage (writesOf unpack es))
    (hqueued : queuedEntries effects = es.map (gid.val, ·))
    (hanswered : (answers effects).map Prod.fst = es)
    (hreads : Interface.reads effects = []) :
    Commits unpack owner event c (afterAt c r gid s cbs pendings storage) (effects.map (r, ·)) gid
      es := by
  have hat : ∀ {β : Type} (f : List (Effect n τ) → List β), f [] = [] →
      ∀ i, f (effectsAt (effects.map (r, ·)) i) = if i = r then f effects else [] := by
    intro β f hf i
    rw [effectsAt_map, apply_ite f, hf]
  constructor
  · intro g
    unfold committedAt
    by_cases hg : g = gid
    · subst hg
      rw [if_pos rfl]
      by_cases hr : r = owner g
      · rw [← hr, afterAt_self]
        simp only [afterStep, Function.update_self]
        exact hcommitted hr
      · rw [afterAt_of_ne c (Ne.symm hr), hother hr, List.append_nil]
    · rw [afterAt_smrs_of_ne c r hg, if_neg hg, List.append_nil]
  · intro i
    by_cases hi : i = r
    · subst hi
      rw [afterAt_self]
      by_cases ho : i = owner gid
      · rw [if_pos ho]
        exact hstorage
      · rw [if_neg ho]
        rw [hother ho] at hstorage
        exact hstorage
    · rw [afterAt_of_ne c hi]
      by_cases ho : i = owner gid
      · rw [if_pos ho, hother fun hr => hi (ho.trans hr.symm)]
        rfl
      · rw [if_neg ho]
  · intro i
    rw [hat queuedEntries rfl, hqueued]
    apply found_at
    intro hr
    rw [hother hr, List.map_nil]
  · intro i
    rw [hat (fun l => (answers l).map Prod.fst) rfl, hanswered]
    exact found_at hother i
  · intro i reply hreply
    rw [hat Interface.reads rfl, hreads, ite_self] at hreply
    cases hreply

/-! ## The steps -/

/-- INTERNAL: an entry at the owner of its group decodes and fits, and its client waits. -/
theorem ClusterOk.known {c : Cluster n τ} (h : ClusterOk unpack fits owner c)
    {gid : Fin defaultKeySpace} {e : Entry}
    (he : e ∈ ((c.replicas (owner gid)).smrs gid).log.log) :
    (∃ op, unpack e.data = some op ∧ fits gid op) ∧
      (c.replicas (owner gid)).clientPendings e.index ≠ none := by
  obtain ⟨hpos, hle⟩ := SMRLog.index_of_mem _ he
  exact ⟨h.decodes gid e he, h.waits gid e.index hpos hle⟩

/-- INTERNAL: **a replicated operation at the owner of its group.**
SOURCE: app/server.cpp:158-171; core/morphling.cpp:103-126 -/
theorem ClusterOk.create {c : Cluster n τ} (h : ClusterOk unpack fits owner c)
    {r : Fin n} {msg : ClientMessage} (tr : τ) {op : Operation} (hepoch : msg.epoch = 1)
    (hop : unpack msg.op = some op) (htype : op.opType ≠ 0)
    (howner : r = owner (findTargetSmr msg.keyHash))
    (hfits : fits (findTargetSmr msg.keyHash) op)
    (room : ((c.replicas r).smrs (findTargetSmr msg.keyHash)).log.log.length < reservedEntries) :
    ∃ c' out, Cluster.step unpack c (.client r msg tr) = .ok (c', out) ∧
      ClusterOk unpack fits owner c' ∧
      Commits unpack owner (.client r msg tr) c c' out (findTargetSmr msg.keyHash) [] := by
  subst howner
  generalize hgid : findTargetSmr msg.keyHash = gid at *
  obtain ⟨s, cbs, idx, hcall, hnext⟩ := (h.groups gid).operation msg room
  obtain ⟨hidx, hlog, hcommits, -⟩ := handleOperation_ok hcall
  have hnone := handleOperation_applied hcall
  have hcreate := handleOperation_replicated (m := c.replicas (owner gid)) tr
    ((h.epoch _).trans hepoch.symm) hop htype (by rw [hgid]; exact hcall)
  rw [hgid] at hcreate
  obtain ⟨hsend, hok⟩ := h.put
    (Function.update (c.replicas (owner gid)).clientPendings idx (some tr))
    (c.replicas (owner gid)).storage hnext
    (by
      intro i hi
      by_cases hidx' : i = idx
      · rw [hidx', Function.update_self]
        exact Option.some_ne_none _
      · rwa [Function.update_of_ne hidx'])
    (by
      intro _ e he
      rw [hlog] at he
      rcases List.mem_append.mp he with hold | hnew
      · obtain ⟨hdecodes, hwaits⟩ := h.known hold
        have hle := (SMRLog.index_of_mem _ hold).2
        refine ⟨hdecodes, ?_⟩
        rwa [Function.update_of_ne (by omega)]
      · rw [List.mem_singleton] at hnew
        subst hnew
        refine ⟨⟨op, hop, hfits⟩, ?_⟩
        rw [Function.update_self]
        exact Option.some_ne_none _)
  refine ⟨_, _, ?_, hok, Commits.put _ c [.created gid idx tr] [] ?_ (fun _ => rfl) rfl rfl rfl
    rfl⟩
  · have hfinish := finish_ok c (r := owner gid) (m :=
      { afterCall (c.replicas (owner gid)) gid s cbs with
        clientPendings := Function.update (c.replicas (owner gid)).clientPendings idx (some tr) })
      (h.me _) (h.peers _) hsend
    simp only [Cluster.step, hcreate, ok_bind, hfinish]
    simp only [afterAt, afterStep, afterCall, hnone, List.append_nil, h.sent, List.nil_append]
  · intro _
    rw [hcommits, hlog, List.append_nil,
      List.take_append_of_le_length ((h.groups gid).bounded (owner gid))]

/-- INTERNAL: **an append reaches its addressee**, a replica that does not own the group.
SOURCE: app/server.cpp:202-228; core/morphling.cpp:128-136 -/
theorem ClusterOk.append {c : Cluster n τ} (h : ClusterOk unpack fits owner c)
    (event : ClusterEvent n τ) {msg : AppendEntriesMessage} {r : Fin n}
    (hp : .append msg r ∈ c.network) :
    ∃ m effects c', Cluster.peerMsg unpack (c.replicas r) (.append msg r) = .ok (m, effects) ∧
      c.finish r m = .ok c' ∧ ClusterOk unpack fits owner c' ∧
      ∃ gid, Commits unpack owner event c c' (effects.map (r, ·)) gid [] := by
  obtain ⟨gid, hgid, hepoch⟩ := h.wire _ hp
  have hm := (h.groups gid).appends msg r ⟨hp, hgid, hepoch⟩
  obtain ⟨e, hentries, -⟩ := hm.entry
  have hr : r ≠ owner gid := fun heq => hm.addressee.2 (by rw [heq])
  obtain ⟨s, cbs, hcall, hnext⟩ := (h.groups gid).append ⟨hp, hgid, hepoch⟩
  have hnone := handleAppendEntries_applied hcall
  have hhandle := handleAppendEntries_group (m := c.replicas r)
    ((h.epoch r).trans hepoch.symm) (by rw [hentries]; exact List.cons_ne_nil _ _) hgid hcall
  obtain ⟨hsend, hok⟩ := h.put (c.replicas r).clientPendings (c.replicas r).storage hnext
    (fun _ => id) (fun heq => absurd heq hr)
  obtain ⟨-, hanswers, hreads⟩ := effects_quiet (n := n) (τ := τ) gid cbs
  refine ⟨_, _, _, hhandle, ?_, hok, gid,
    Commits.put event c _ _ (fun heq => absurd heq hr) (fun _ => rfl) rfl ?_ ?_ hreads⟩
  · rw [finish_ok c (r := r) (m := afterCall (c.replicas r) gid s cbs) (h.me r) (h.peers r) hsend]
    simp only [afterAt, afterStep, afterCall, hnone, List.append_nil, h.sent, List.nil_append]
  · rw [queuedEntries_effects, hnone]
  · rw [hanswers, List.map_nil]

/-- INTERNAL: **an acknowledgement reaches the owner of its group**: the entries that it
commits are queued, applied and answered. SOURCE: app/server.cpp:211-228;
core/morphling.cpp:139-147, 186-204 -/
theorem ClusterOk.ack {c : Cluster n τ} (h : ClusterOk unpack fits owner c)
    (event : ClusterEvent n τ) {msg : AppenEntriesReplyMessage} {r : Fin n}
    (hp : .appendReply msg r ∈ c.network) :
    ∃ m effects c',
      Cluster.peerMsg unpack (c.replicas r) (.appendReply msg r) = .ok (m, effects) ∧
      c.finish r m = .ok c' ∧ ClusterOk unpack fits owner c' ∧
      ∃ gid es, Commits unpack owner event c c' (effects.map (r, ·)) gid es ∧
        ∀ e ∈ es, ∃ op, unpack e.data = some op ∧ fits gid op := by
  obtain ⟨gid, hgid, hepoch⟩ := h.wire _ hp
  obtain ⟨hr, s, cbs, hcall, hnext⟩ := (h.groups gid).reply ⟨hp, hgid, hepoch⟩
  subst hr
  obtain ⟨hlog, -, -, hpart⟩ := handleReply_applied hcall
  have hhandle := handleAck_group (m := c.replicas (owner gid))
    ((h.epoch _).trans hepoch.symm) hgid hcall
  have hes : ∀ e ∈ appliedEntries cbs, e ∈ ((c.replicas (owner gid)).smrs gid).log.log := by
    intro e he
    rw [hpart] at he
    exact List.mem_of_mem_take (List.mem_of_mem_drop he)
  have hqueue : (afterCall (c.replicas (owner gid)) gid s cbs).applyEntries =
      appliedEntries cbs := by
    simp [afterCall, h.applied]
  -- what is committed is applied at once
  have hready : ∀ e ∈ (afterCall (c.replicas (owner gid)) gid s cbs).applyEntries,
      (∃ op, unpack e.data = some op) ∧
        (afterCall (c.replicas (owner gid)) gid s cbs).clientPendings e.index ≠ none := by
    intro e he
    rw [hqueue] at he
    obtain ⟨⟨op, hop, -⟩, hwait⟩ := h.known (hes e he)
    exact ⟨⟨op, hop⟩, hwait⟩
  obtain ⟨outs, happly, hanswers, hqueued, hreads⟩ := maybeApply_total hready
  rw [hqueue] at happly hanswers
  obtain ⟨hsend, hok⟩ := h.put (c.replicas (owner gid)).clientPendings
    (applyWrites (c.replicas (owner gid)).storage (writesOf unpack (appliedEntries cbs)))
    hnext (fun _ => id) (fun _ e he => h.known (by rwa [hlog] at he))
  obtain ⟨-, hquiet, hquiet'⟩ := effects_quiet (n := n) (τ := τ) gid cbs
  obtain ⟨m, hm⟩ : ∃ m, m = { afterCall (c.replicas (owner gid)) gid s cbs with
      storage := applyWrites (c.replicas (owner gid)).storage
        (writesOf unpack (appliedEntries cbs))
      applyEntries := [] } := ⟨_, rfl⟩
  have happly' : (afterCall (c.replicas (owner gid)) gid s cbs).maybeApply unpack =
      .ok (m, outs) := by
    rw [happly, hm]
    rfl
  have hfinish := finish_ok c (r := owner gid) (m := m) (by rw [hm]; exact h.me _)
    (by rw [hm]; exact h.peers _) (by rw [hm]; exact hsend)
  refine ⟨m, cbs.filterMap (Callback.effect n τ gid) ++ outs, _,
    by simp only [Cluster.peerMsg, hhandle, ok_bind, happly'],
    hfinish.trans ?_, hok, gid, appliedEntries cbs,
    Commits.put event c _ _ (fun _ => ?_) (fun hne => absurd rfl hne) rfl ?_ ?_ ?_,
    fun e he => (h.known (hes e he)).1⟩
  · rw [hm]
    simp only [afterAt, afterStep, afterCall, h.applied, h.sent]
  · -- the part that was committed, and the part that is committed now
    exact (handleReply_committed hcall).symm
  · rw [queuedEntries_append, queuedEntries_effects, hqueued, List.append_nil]
  · rw [answers_append, hquiet, List.nil_append, hanswers]
  · rw [reads_append, hquiet', hreads]
    rfl

/-- INTERNAL: a step that leaves the replicas alone, and at most replies to a read, commits
nothing. -/
theorem Commits.same (event : ClusterEvent n τ) (c : Cluster n τ)
    (network : List (GenericMessage n)) (r : Fin n) (effects : List (Effect n τ))
    (gid : Fin defaultKeySpace)
    (hqueued : queuedEntries effects = []) (hanswered : answers effects = [])
    (hreads : ∀ reply ∈ Interface.reads effects,
      (∃ msg tr, event = .client r msg tr ∧ reply.keyHash = msg.keyHash) ∧
        reply.replyData = (c.replicas r).storage reply.keyHash) :
    Commits unpack owner event c { c with network := network } (effects.map (r, ·)) gid [] where
  committed := fun _ => by simp [committedAt]
  storage := fun _ => by simp
  queued := fun i => by
    rw [effectsAt_map, apply_ite queuedEntries, hqueued]
    simp [queuedEntries]
  answered := fun i => by
    rw [effectsAt_map, apply_ite answers, hanswered]
    simp [answers]
  reads := fun i reply hreply => by
    rw [effectsAt_map] at hreply
    by_cases hi : i = r
    · rw [if_pos hi] at hreply
      rw [hi]
      exact hreads reply hreply
    · rw [if_neg hi] at hreply
      cases hreply

/-- INTERNAL: a callback that changes nothing and queues nothing to send.
SOURCE: core/morphling.cpp:206-209 -/
theorem ClusterOk.finish_self {c : Cluster n τ} (h : ClusterOk unpack fits owner c)
    (r : Fin n) : c.finish r (c.replicas r) = .ok c := by
  have hnone : ∀ p ∈ (c.replicas r).nextMsgs, Sendable ⟨0, by decide⟩ r p := by
    intro p hp
    rw [h.sent r] at hp
    cases hp
  rw [finish_ok c (h.me r) (h.peers r) hnone]
  have hsame : { c.replicas r with nextMsgs := [] } = c.replicas r := by rw [← h.sent r]
  rw [hsame, Function.update_eq_self, h.sent r, List.append_nil]

/-- INTERNAL: a client's message that changes nothing at the replica.
SOURCE: app/server.cpp:158-171 -/
theorem ClusterOk.client_unchanged {c : Cluster n τ} (h : ClusterOk unpack fits owner c)
    {r : Fin n} {msg : ClientMessage} {tr : τ} {effects : List (Effect n τ)}
    (hop : (c.replicas r).handleOperation unpack msg tr = .ok (c.replicas r, effects)) :
    Cluster.step unpack c (.client r msg tr) = .ok (c, effects.map (r, ·)) := by
  simp only [Cluster.step, hop, ok_bind, h.finish_self]

/-- INTERNAL: messages may be lost. -/
theorem ClusterOk.lose {c : Cluster n τ} (h : ClusterOk unpack fits owner c) (k : ℕ) :
    ClusterOk unpack fits owner { c with network := c.network.eraseIdx k } :=
  { h with
    groups := fun gid => (h.groups gid).lose fun _ hp => ⟨List.mem_of_mem_eraseIdx hp.1, hp.2⟩
    wire := fun p hp => h.wire p (List.mem_of_mem_eraseIdx hp) }

/-- **What one step of the cluster does**, in the invariant: a step that brings no replicated
operation but to the owner of its group, whose log has room for it, returns and keeps the
invariant, and what it commits, if anything, are entries of one group that decode and fit it. -/
theorem cluster_step {c : Cluster n τ} (h : ClusterOk unpack fits owner c)
    {event : ClusterEvent n τ} (haccepted : Accepted unpack fits owner event)
    (room : ∀ gid, Replicates unpack gid event = true →
      ((c.replicas (owner gid)).smrs gid).log.log.length < reservedEntries) :
    ∃ c' out, Cluster.step unpack c event = .ok (c', out) ∧ ClusterOk unpack fits owner c' ∧
      ∃ gid es, Commits unpack owner event c c' out gid es ∧
        ∀ e ∈ es, ∃ op, unpack e.data = some op ∧ fits gid op := by
  let first : Fin defaultKeySpace := ⟨0, by decide⟩
  have hnone : ∀ e ∈ ([] : List Entry), ∃ op, unpack e.data = some op ∧ fits first op :=
    fun _ he => absurd he List.not_mem_nil
  cases event with
  | client r msg tr =>
    by_cases hepoch : msg.epoch = 1
    · obtain ⟨op, hop, hroute⟩ := haccepted hepoch
      by_cases htype : op.opType = 0
      · have hread := handleOperation_read (m := c.replicas r) tr
          ((h.epoch r).trans hepoch.symm) hop htype
        refine ⟨c, _, h.client_unchanged hread, h, first, [],
          Commits.same _ c c.network r _ first rfl rfl ?_, hnone⟩
        intro reply hreply
        have heq : reply = _ := List.mem_singleton.mp hreply
        rw [heq]
        exact ⟨⟨msg, tr, rfl, rfl⟩, rfl⟩
      · obtain ⟨howner, hfits⟩ := hroute htype
        have hroom := room (findTargetSmr msg.keyHash)
          (replicatedFor_iff.mpr ⟨hepoch, ⟨op, hop, htype⟩, rfl⟩)
        rw [← howner] at hroom
        obtain ⟨c', out, hstep, hok, hcommits⟩ := h.create tr hepoch hop htype howner hfits hroom
        exact ⟨c', out, hstep, hok, _, [], hcommits, fun _ he => absurd he List.not_mem_nil⟩
    · have hother : (c.replicas r).guide.epoch ≠ msg.epoch := fun heq =>
        hepoch (heq.symm.trans (h.epoch r))
      exact ⟨c, _, h.client_unchanged (handleOperation_other_epoch tr hother), h, first, [],
        Commits.same _ c c.network r _ first rfl rfl fun _ hr => absurd hr List.not_mem_nil,
        hnone⟩
  | getGuidance r tr =>
    exact ⟨c, _, rfl, h, first, [],
      Commits.same _ c c.network r [_] first rfl rfl fun _ hr => absurd hr List.not_mem_nil,
      hnone⟩
  | lose k =>
    exact ⟨_, [], rfl, h.lose k, first, [],
      Commits.same _ c _ (owner first) [] first rfl rfl fun _ hr => absurd hr List.not_mem_nil,
      hnone⟩
  | peer k =>
    cases hk : c.network[k]? with
    | none =>
      exact ⟨c, [], by rw [Cluster.step, hk], h, first, [],
        Commits.same _ c c.network (owner first) [] first rfl rfl
          fun _ hr => absurd hr List.not_mem_nil, hnone⟩
    | some p =>
      have hmem : p ∈ c.network := List.mem_of_getElem? hk
      obtain ⟨gid, hgid⟩ := h.wire p hmem
      cases p with
      | guidance msg dst => exact hgid.elim
      | append msg dst =>
        have hdst := ((h.groups gid).appends msg dst ⟨hmem, hgid⟩).addressee.1
        obtain ⟨m, effects, c', hpeer, hfinish, hok, gid', hcommits⟩ :=
          h.append (.peer k) (r := ⟨dst, hdst⟩) hmem
        refine ⟨c', effects.map (⟨dst, hdst⟩, ·), ?_, hok, gid', [], hcommits,
          fun _ he => absurd he List.not_mem_nil⟩
        simp only [Cluster.step, hk, GenericMessage.dst, hdst, dif_pos, hpeer, ok_bind, hfinish]
      | appendReply msg dst =>
        have hdst : dst < n := by
          rw [((h.groups gid).replies msg dst ⟨hmem, hgid⟩).addressee]
          exact (owner gid).isLt
        obtain ⟨m, effects, c', hpeer, hfinish, hok, gid', es, hcommits, hes⟩ :=
          h.ack (.peer k) (r := ⟨dst, hdst⟩) hmem
        refine ⟨c', effects.map (⟨dst, hdst⟩, ·), ?_, hok, gid', es, hcommits, hes⟩
        simp only [Cluster.step, hk, GenericMessage.dst, hdst, dif_pos, hpeer, ok_bind, hfinish]

/-- INTERNAL: the replicas after the end of a callback. SOURCE: core/morphling.cpp:206-231 -/
theorem cluster_finish_replicas {c c' : Cluster n τ} {r : Fin n} {m : Morphling n τ}
    (h : c.finish r m = .ok c') :
    c'.replicas = Function.update c.replicas r { m with nextMsgs := [] } := by
  obtain ⟨⟨m', sent⟩, hbcast, heq⟩ := bind_eq_ok.mp h
  cases heq
  obtain ⟨sent', -, hsent⟩ := bind_eq_ok.mp hbcast
  cases hsent
  rfl

/-- INTERNAL: **what a step does to the log of a group at its owner**, in the invariant: a
replicated operation for the group makes it one entry longer, and then there was room for it;
anything else leaves its length. SOURCE: app/server.cpp:158-178, 185-229 -/
theorem cluster_length {c c' : Cluster n τ} {event : ClusterEvent n τ}
    {out : List (Fin n × Effect n τ)} (h : ClusterOk unpack fits owner c)
    (haccepted : Accepted unpack fits owner event)
    (hstep : Cluster.step unpack c event = .ok (c', out)) (gid : Fin defaultKeySpace) :
    ((c'.replicas (owner gid)).smrs gid).log.log.length =
        ((c.replicas (owner gid)).smrs gid).log.log.length +
          (if Replicates unpack gid event then 1 else 0) ∧
      (Replicates unpack gid event = true →
        ((c.replicas (owner gid)).smrs gid).log.log.length < reservedEntries) := by
  -- a step without an operation brings no log of an owner a new entry
  have hquiet : ∀ c'' : Cluster n τ, Replicates unpack gid event = false →
      ((c''.replicas (owner gid)).smrs gid).log.log.length =
        ((c.replicas (owner gid)).smrs gid).log.log.length →
      ((c''.replicas (owner gid)).smrs gid).log.log.length =
          ((c.replicas (owner gid)).smrs gid).log.log.length +
            (if Replicates unpack gid event then 1 else 0) ∧
        (Replicates unpack gid event = true →
          ((c.replicas (owner gid)).smrs gid).log.log.length < reservedEntries) := by
    intro c'' hnone heq
    rw [hnone]
    exact ⟨heq, nofun⟩
  cases event with
  | client r msg tr =>
    obtain ⟨⟨m, effects⟩, hhandle, hrest⟩ := bind_eq_ok.mp hstep
    obtain ⟨c₁, hfinish, heq⟩ := bind_eq_ok.mp hrest
    cases heq
    have hlength := handleOperation_length hhandle (h.epoch r) gid
    rw [cluster_finish_replicas hfinish]
    by_cases hr : owner gid = r
    · subst hr
      rw [Function.update_self]
      exact hlength
    · -- an operation for the group would have come to its owner
      rw [Function.update_of_ne hr]
      have hnone : Replicates unpack gid (.client r msg tr : ClusterEvent n τ) = false := by
        rw [Bool.eq_false_iff]
        intro hrep
        obtain ⟨hepoch, ⟨op, hop, htype⟩, hkey⟩ := replicatedFor_iff.mp hrep
        obtain ⟨op', hop', hroute⟩ := haccepted hepoch
        rw [hop] at hop'
        cases hop'
        rw [(hroute htype).1, hkey] at hr
        exact hr rfl
      exact hquiet c hnone rfl
  | getGuidance r tr =>
    cases hstep
    exact hquiet c rfl rfl
  | lose k =>
    cases hstep
    exact hquiet _ rfl rfl
  | peer k =>
    refine hquiet c' rfl ?_
    have hgroup : ∀ r (m : Morphling n τ), c.finish r m = .ok c' →
        (r = owner gid → (m.smrs gid).log.log.length =
          ((c.replicas r).smrs gid).log.log.length) →
        ((c'.replicas (owner gid)).smrs gid).log.log.length =
          ((c.replicas (owner gid)).smrs gid).log.log.length := by
      intro r m hfinish hsame
      rw [cluster_finish_replicas hfinish]
      by_cases hr : owner gid = r
      · subst hr
        rw [Function.update_self]
        exact hsame rfl
      · rw [Function.update_of_ne hr]
    cases hk : c.network[k]? with
    | none =>
      rw [Cluster.step, hk] at hstep
      cases hstep
      rfl
    | some p =>
      have hmem : p ∈ c.network := List.mem_of_getElem? hk
      obtain ⟨g, hg⟩ := h.wire p hmem
      by_cases hlt : p.dst < n
      · simp only [Cluster.step, hk, hlt, dif_pos] at hstep
        obtain ⟨⟨m, effects⟩, hhandle, hrest⟩ := bind_eq_ok.mp hstep
        obtain ⟨c₁, hfinish, heq⟩ := bind_eq_ok.mp hrest
        cases heq
        refine hgroup _ m hfinish fun hr => ?_
        cases p with
        | guidance msg dst => exact hg.elim
        | append msg dst =>
          have hne := ((h.groups g).appends msg dst ⟨hmem, hg⟩).addressee.2
          rcases handleAppend_cases hhandle with ⟨hother, -⟩ | ⟨-, g', s, cbs, hgid, -, rfl, -⟩
          · exact absurd ((h.epoch _).trans hg.2.symm) hother
          · obtain rfl : g' = g := Fin.ext (hgid.symm.trans hg.1)
            have hother : gid ≠ g' := by
              rintro rfl
              exact hne (congrArg Fin.val hr)
            simp only [afterCall, Function.update_of_ne hother]
        | appendReply msg dst =>
          obtain ⟨⟨m₁, queued⟩, hcount, hrest⟩ := bind_eq_ok.mp hhandle
          obtain ⟨⟨m₂, told⟩, happly, heq⟩ := bind_eq_ok.mp hrest
          cases heq
          obtain ⟨rfl, -⟩ := maybeApply_ok happly
          rcases handleAck_cases hcount with ⟨hother, -⟩ | ⟨-, g', s, cbs, -, hcall, rfl, -⟩
          · exact absurd ((h.epoch _).trans hg.2.symm) hother
          · simp only [afterCall, (groups_of_ack hcall gid).1]
      · simp only [Cluster.step, hk, hlt, dif_neg, not_false_iff] at hstep
        cases hstep
        rfl

/-- INTERNAL: **what a step that returned has done**, in the invariant. -/
theorem cluster_step_keeps {c c' : Cluster n τ} {event : ClusterEvent n τ}
    {out : List (Fin n × Effect n τ)} (h : ClusterOk unpack fits owner c)
    (haccepted : Accepted unpack fits owner event)
    (hstep : Cluster.step unpack c event = .ok (c', out)) :
    ClusterOk unpack fits owner c' ∧ ∃ gid es, Commits unpack owner event c c' out gid es ∧
      ∀ e ∈ es, ∃ op, unpack e.data = some op ∧ fits gid op := by
  obtain ⟨c₁, out₁, hstep₁, hnext⟩ := cluster_step h haccepted fun gid =>
    (cluster_length h haccepted hstep gid).2
  cases hstep.symm.trans hstep₁
  exact hnext

/-- INTERNAL: a fresh cluster is in the invariant. -/
theorem ClusterOk.init (unpack : Bytes → Option Operation)
    (fits : Fin defaultKeySpace → Operation → Prop) (owner : Fin defaultKeySpace → Fin n) :
    ClusterOk unpack fits owner (Cluster.init n τ) where
  me := fun _ => rfl
  peers := fun _ => rfl
  epoch := fun _ => rfl
  sent := fun _ => rfl
  applied := fun _ => rfl
  groups := fun gid => (OneOwner.init (owner gid) gid).lose fun _ hp => absurd hp.1 List.not_mem_nil
  wire := fun _ hp => absurd hp List.not_mem_nil
  decodes := fun _ _ he => absurd he List.not_mem_nil
  waits := fun _ i hpos hle => by
    have hzero : i ≤ 0 := hle
    omega

end MorphlingC.Analysis
