import MorphlingC.Analysis.ClusterStep

/-!
# Runs of the cluster

What holds in every run, read off `cluster_step`.

* **A run that follows the guidance fails only for want of room** (`well_routed_runs_return`):
  no assertion of the log, no access out of range, no absent transport and no decoder exception,
  as long as no group is given more entries than its log has room for.
* **Agreement** (`agreement_under_one_owner`), as long as the replicated operations of each
  group all go to one replica.  Nothing in a replica checks that they do, and without it
  two replicas may commit different entries under the same index
  (`two_owners_disagree`).
* **Reads at the owner see the committed writes, and only those**
  (`reads_see_committed_writes`).
-/

set_option autoImplicit false

namespace MorphlingC.Analysis

open MorphlingC.Library MorphlingC.Model MorphlingC.Interface MorphlingC.Model.Morphling

variable {n : ℕ} {τ : Type} {unpack : Bytes → Option Operation}
  {fits : Fin defaultKeySpace → Operation → Prop} {owner : Fin defaultKeySpace → Fin n}

/-! ## Routing by the guidance -/

/-- The replica that the guidance of all replicas maps a key hash to. -/
def routedTo (n : ℕ) (keyHash : ℕ) : Option (Fin n) :=
  (Guidance.initLocalGuidance {} : Guidance n).nodeOfKey keyHash

/-- The replica that the guidance maps the keys of a group to. -/
def guidedOwner (hn : 0 < n) (gid : Fin defaultKeySpace) : Fin n :=
  ((Guidance.initLocalGuidance {} : Guidance n).mapNodeId (BitVec.ofNat 8 gid)).getD ⟨0, hn⟩

/-- INTERNAL: keys of one group are mapped to one replica. SOURCE: core/guidance.h:99-106 -/
theorem eq_guidedOwner (hn : 0 < n) {keyHash : ℕ} {r : Fin n}
    (h : routedTo n keyHash = some r) : r = guidedOwner hn (findTargetSmr keyHash) := by
  have hmap : (Guidance.initLocalGuidance {} : Guidance n).mapNodeId
      (BitVec.ofNat 8 (findTargetSmr keyHash)) = some r := h
  rw [guidedOwner, hmap]
  rfl

/-! ## A run that follows the guidance fails only for want of room -/

/-- The event brings no client operation that does not decode, and no replicated one but to
the replica that the guidance maps its key to. -/
def WellRouted (unpack : Bytes → Option Operation) : ClusterEvent n τ → Prop
  | .client r msg _ => ∃ op, unpack msg.op = some op ∧
      (op.opType ≠ 0 → routedTo n msg.keyHash = some r)
  | .getGuidance _ _ => True
  | .peer _ => True
  | .lose _ => True

/-- INTERNAL: the guidance gives every group one owner. -/
theorem WellRouted.accepted (hn : 0 < n) {event : ClusterEvent n τ}
    (h : WellRouted unpack event) :
    Accepted unpack (fun _ _ => True) (guidedOwner hn) event := by
  cases event with
  | client r msg tr =>
    obtain ⟨op, hop, hroute⟩ := h
    exact fun _ => ⟨op, hop, fun htype => ⟨eq_guidedOwner hn (hroute htype), trivial⟩⟩
  | getGuidance r tr => trivial
  | peer k => trivial
  | lose k => trivial

/-- INTERNAL: in the invariant, a run that follows the guidance returns exactly when the owners'
logs have room for its operations. SOURCE: core/smr.cpp:10, 30-45; app/server.cpp:158-229 -/
theorem well_routed_returns_iff (hn : 0 < n) (events : List (ClusterEvent n τ))
    (hroute : ∀ event ∈ events, WellRouted unpack event) :
    (∃ c out, Machine.run (Cluster.step unpack) (Cluster.init n τ) events = .ok (c, out)) ↔
      ∀ gid, events.countP (Replicates unpack gid) ≤ reservedEntries := by
  have hbudget := Machine.returns_iff_within_budget (Cluster.step unpack)
    (G := fun _ event => WellRouted unpack event)
    (I := ClusterOk unpack (fun _ _ => True) (guidedOwner hn)) (L := reservedEntries)
    (U := fun (c : Cluster n τ) gid =>
      ((c.replicas (guidedOwner hn gid)).smrs gid).log.log.length)
    (A := Replicates unpack) (fun c _ gid => ((c.replicas _).smrs gid).log.fits)
    (fun c event c' out h hroute hstep => ⟨(cluster_step_keeps h (hroute.accepted hn) hstep).1,
      fun gid => (cluster_length h (hroute.accepted hn) hstep gid).1⟩)
    (fun c event h hroute room => by
      obtain ⟨c', out, hstep, -⟩ := cluster_step h (hroute.accepted hn) room
      exact ⟨c', out, hstep⟩)
    (ClusterOk.init unpack _ (guidedOwner hn))
    (Machine.guarded_of_forall _ (fun event he _ => hroute event he) _)
  rw [hbudget]
  refine forall_congr' fun gid => ?_
  rw [show ((((Cluster.init n τ).replicas (guidedOwner hn gid)).smrs gid).log.log.length = 0) from
    rfl, Nat.zero_add]

/-- **A run that follows the guidance fails only for want of room.**  For every run of a cluster
in which every client operation decodes, every replicated one reaches the replica that the
guidance maps its key to, and messages between the replicas are lost, repeated and reordered at
will: every callback returns exactly when no group is given more than 1000000 replicated
operations.  Then none of the assertions of the log fails, no vector is read out of range or
after it has moved, no message lacks its first entry or its transport, every applied entry
decodes, and a client waits for its reply.
SOURCE: core/smr.cpp:10-96, 211-286; core/morphling.cpp:103-147, 186-231 -/
theorem well_routed_runs_return (unpack : Bytes → Option Operation) (hn : 0 < n)
    (events : List (ClusterEvent n τ)) (hroute : ∀ event ∈ events, WellRouted unpack event) :
    (∃ c out, Machine.run (Cluster.step unpack) (Cluster.init n τ) events = .ok (c, out)) ↔
      ∀ gid, events.countP (Replicates unpack gid) ≤ 1000000 :=
  well_routed_returns_iff hn events hroute

/-- A write goes through three replicas: the client's message, the two appends, one of them
twice, and the acknowledgements. -/
theorem well_routed_write_returns :
    ∃ (c : Cluster 3 ℕ) (out : List (Fin 3 × Effect 3 ℕ)),
      Machine.run (Cluster.step unpackShort) (Cluster.init 3 ℕ)
        [.client 0 ⟨1, 0x0100, [0x93, 1, 0xcd, 1, 0, 0xc4, 1, 7]⟩ 10, .peer 0, .peer 0, .peer 1,
          .peer 2, .peer 4] = .ok (c, out) := by
  refine (well_routed_runs_return unpackShort (by decide) _ ?_).mpr fun gid => ?_
  · intro event he
    simp only [List.mem_cons, List.not_mem_nil, or_false] at he
    rcases he with rfl | rfl | rfl | rfl | rfl | rfl
    · exact ⟨_, rfl, fun _ => by decide⟩
    all_goals trivial
  · exact List.countP_le_length.trans (by decide)

/-- Writes of one client to one key, one more than the log has room for.  Each decodes and goes
to the replica that the guidance maps the key to. -/
theorem well_routed_writes_overrun :
    let events : List (ClusterEvent 3 ℕ) := List.replicate 1000001
      (.client 0 ⟨1, 0x0100, [0x93, 1, 0xcd, 1, 0, 0xc4, 1, 7]⟩ 10)
    (∀ event ∈ events, WellRouted unpackShort event) ∧
      ¬ ∃ c out, Machine.run (Cluster.step unpackShort) (Cluster.init 3 ℕ) events =
        .ok (c, out) := by
  intro events
  have hroute : ∀ event ∈ events, WellRouted unpackShort event := by
    intro event he
    rw [List.eq_of_mem_replicate he]
    exact ⟨_, rfl, fun _ => by decide⟩
  refine ⟨hroute, fun hreturns => ?_⟩
  have hroom := (well_routed_returns_iff (by decide) events hroute).mp hreturns ⟨1, by decide⟩
  rw [List.countP_replicate, if_pos (by decide)] at hroom
  exact absurd hroom (by decide)

/-! ## Agreement -/

/-- No two replicas have different entries committed under the same index of a group. -/
def Agreement (c : Cluster n τ) : Prop :=
  ∀ gid i j k e e', k < ((c.replicas i).smrs gid).log.currCommit →
    k < ((c.replicas j).smrs gid).log.currCommit →
    ((c.replicas i).smrs gid).log.log[k]? = some e →
    ((c.replicas j).smrs gid).log.log[k]? = some e' → e = e'

/-- The client at `tr` was answered success by the replica `i` for the entry `e` of a group:
it is the addressee of an answer, and the entry, with its group, has the same place among
those that the replica queued to be applied. -/
def AnsweredFor (h : List (Fin n × Effect n τ)) (i : Fin n) (gid : ℕ) (e : Entry) (tr : τ) :
    Prop :=
  ∃ p : ℕ, (queuedEntries (effectsAt h i))[p]? = some (gid, e) ∧
    (answers (effectsAt h i))[p]? = some (e, tr)

/-- No two clients were answered for different entries under the same index of a group. -/
def AnswersAgree (h : List (Fin n × Effect n τ)) : Prop :=
  ∀ i j gid e e' tr tr', AnsweredFor h i gid e tr → AnsweredFor h j gid e' tr' →
    e.index = e'.index → e = e'

/-- The invariant of a run under one owner per group: what a replica has queued is committed
at the owner of the group, and it is all answered. -/
structure RunOk (unpack : Bytes → Option Operation)
    (fits : Fin defaultKeySpace → Operation → Prop) (owner : Fin defaultKeySpace → Fin n)
    (c : Cluster n τ) (h : List (Fin n × Effect n τ)) : Prop where
  cluster : ClusterOk unpack fits owner c
  queued : ∀ i, ∀ q ∈ queuedEntries (effectsAt h i), ∃ gid : Fin defaultKeySpace,
    q.1 = gid ∧ i = owner gid ∧ q.2 ∈ committedAt owner c gid ∧
      ∃ op, unpack q.2.data = some op ∧ fits gid op
  answered : ∀ i, (answers (effectsAt h i)).map Prod.fst =
    (queuedEntries (effectsAt h i)).map Prod.snd

/-- INTERNAL: the start. -/
theorem RunOk.init (unpack : Bytes → Option Operation)
    (fits : Fin defaultKeySpace → Operation → Prop) (owner : Fin defaultKeySpace → Fin n) :
    RunOk unpack fits owner (Cluster.init n τ) [] where
  cluster := ClusterOk.init unpack fits owner
  queued := fun _ _ hq => absurd hq List.not_mem_nil
  answered := fun _ => rfl

/-- INTERNAL: **one step of a run.** -/
theorem RunOk.step {c c' : Cluster n τ} {h out : List (Fin n × Effect n τ)}
    {event : ClusterEvent n τ} (hr : RunOk unpack fits owner c h)
    (haccepted : Accepted unpack fits owner event)
    (hstep : Cluster.step unpack c event = .ok (c', out)) :
    RunOk unpack fits owner c' (h ++ out) ∧
      ∃ gid es, Commits unpack owner event c c' out gid es ∧
        ∀ e ∈ es, ∃ op, unpack e.data = some op ∧ fits gid op := by
  obtain ⟨hok, gid, es, hcommits, hes⟩ := cluster_step_keeps hr.cluster haccepted hstep
  refine ⟨⟨hok, fun i q hq => ?_, fun i => ?_⟩, gid, es, hcommits, hes⟩
  · rw [effectsAt_append, queuedEntries_append, hcommits.queued i] at hq
    rcases List.mem_append.mp hq with hold | hnew
    · obtain ⟨g, hg, hi, hmem, hfits⟩ := hr.queued i q hold
      refine ⟨g, hg, hi, ?_, hfits⟩
      rw [hcommits.committed g]
      exact List.mem_append_left _ hmem
    · by_cases hi : i = owner gid
      · rw [if_pos hi] at hnew
        obtain ⟨e, he, rfl⟩ := List.mem_map.mp hnew
        refine ⟨gid, rfl, hi, ?_, hes e he⟩
        rw [hcommits.committed gid, if_pos rfl]
        exact List.mem_append_right _ he
      · rw [if_neg hi] at hnew
        cases hnew
  · rw [effectsAt_append, queuedEntries_append, answers_append, List.map_append,
      List.map_append, hr.answered i, hcommits.queued i, hcommits.answered i]
    by_cases hi : i = owner gid
    · rw [if_pos hi, if_pos hi, List.map_map]
      simp [Function.comp_def]
    · rw [if_neg hi, if_neg hi, List.map_nil]

/-- The event brings no replicated operation of the current epoch but to the owner of the
group of its key. -/
def ToOwner (unpack : Bytes → Option Operation) (owner : Fin defaultKeySpace → Fin n) :
    ClusterEvent n τ → Prop
  | .client r msg _ => msg.epoch = 1 → ∀ op, unpack msg.op = some op → op.opType ≠ 0 →
      r = owner (findTargetSmr msg.keyHash)
  | .getGuidance _ _ => True
  | .peer _ => True
  | .lose _ => True

/-- INTERNAL: a step that returned has decoded the operation it needed.
SOURCE: core/morphling.cpp:103-109 -/
theorem ToOwner.accepted {c c' : Cluster n τ} {h out : List (Fin n × Effect n τ)}
    {event : ClusterEvent n τ} (hr : RunOk unpack fits owner c h)
    (howner : ToOwner unpack owner event)
    (hstep : Cluster.step unpack c event = .ok (c', out)) :
    Accepted unpack (fun _ _ => True) owner event := by
  cases event with
  | client r msg tr =>
    intro hepoch
    obtain ⟨⟨m, effects⟩, hhandle, -⟩ := bind_eq_ok.mp hstep
    rcases handleOperation_cases hhandle with ⟨hother, -⟩ | ⟨-, op, hop, -⟩
    · exact absurd ((hr.cluster.epoch r).trans hepoch.symm) hother
    · exact ⟨op, hop, fun htype => ⟨howner hepoch op hop htype, trivial⟩⟩
  | getGuidance r tr => trivial
  | peer k => trivial
  | lose k => trivial

/-- INTERNAL: in the invariant, committed entries are those of the owner. -/
theorem ClusterOk.agreement {c : Cluster n τ} (h : ClusterOk unpack fits owner c) :
    Agreement c := by
  intro gid i j k e e' _ _ hi hj
  obtain ⟨more, hmore⟩ := (h.groups gid).isPrefix i
  obtain ⟨more', hmore'⟩ := (h.groups gid).isPrefix j
  have hi' : ((c.replicas (owner gid)).smrs gid).log.log[k]? = some e := by
    rw [← hmore, List.getElem?_append_left (List.getElem?_eq_some_iff.mp hi).1, hi]
  have hj' : ((c.replicas (owner gid)).smrs gid).log.log[k]? = some e' := by
    rw [← hmore', List.getElem?_append_left (List.getElem?_eq_some_iff.mp hj).1, hj]
  rw [hi'] at hj'
  exact Option.some.inj hj'

/-- INTERNAL: entries of one log with the same index are the same. -/
theorem eq_of_index_eq (l : SMRLog) {e e' : Entry} (he : e ∈ l.log) (he' : e' ∈ l.log)
    (h : e.index = e'.index) : e = e' := by
  obtain ⟨p, hp, rfl⟩ := List.mem_iff_getElem.mp he
  obtain ⟨q, hq, rfl⟩ := List.mem_iff_getElem.mp he'
  rw [l.indexed, l.indexed] at h
  have hpq : p = q := by omega
  subst hpq
  rfl

/-- INTERNAL: in the invariant, answers are for committed entries of one log. -/
theorem RunOk.answersAgree {c : Cluster n τ} {h : List (Fin n × Effect n τ)}
    (hr : RunOk unpack fits owner c h) : AnswersAgree h := by
  rintro i j gid e e' tr tr' ⟨p, hp, -⟩ ⟨q, hq, -⟩ hindex
  obtain ⟨g, hg, -, hmem, -⟩ := hr.queued i _ (List.mem_of_getElem? hp)
  obtain ⟨g', hg', -, hmem', -⟩ := hr.queued j _ (List.mem_of_getElem? hq)
  have hgg : g = g' := Fin.ext (hg.symm.trans hg')
  subst hgg
  exact eq_of_index_eq _ (List.mem_of_mem_take hmem) (List.mem_of_mem_take hmem') hindex

/-- **Agreement under one owner per group.**  For every run of a cluster in which any client
sends anything to any replica, except that the replicated operations of the current epoch
for the keys of one group all reach one replica, whichever it is, and in which messages
between the replicas are lost, repeated and reordered at will: no two replicas have
different entries committed under the same index of a group, and no two clients are
answered for different entries under the same index of a group.
SOURCE: core/morphling.cpp:79-126; core/smr.cpp:174-268 -/
theorem agreement_under_one_owner (unpack : Bytes → Option Operation)
    (owner : Fin defaultKeySpace → Fin n) (events : List (ClusterEvent n τ))
    (howner : ∀ event ∈ events, ToOwner unpack owner event)
    {c : Cluster n τ} {h : List (Fin n × Effect n τ)}
    (hrun : Machine.run (Cluster.step unpack) (Cluster.init n τ) events = .ok (c, h)) :
    Agreement c ∧ AnswersAgree h := by
  have hr := Machine.run_invariant (Cluster.step unpack)
    (G := fun _ event => ToOwner unpack owner event)
    (I := RunOk unpack (fun _ _ => True) owner)
    (fun _ _ _ _ _ hr ho hstep => (hr.step (ho.accepted hr hstep) hstep).1)
    (RunOk.init unpack _ owner)
    (Machine.guarded_of_forall _ (fun event he _ => howner event he) _) hrun
  rw [List.nil_append] at hr
  exact ⟨hr.cluster.agreement, hr.answersAgree⟩

/-- Two clients write to one key at replica 1, which the guidance does not map the key to;
both writes are committed there, and both clients are answered. -/
theorem agreement_at_one_replica :
    ∃ (c : Cluster 3 ℕ) (h : List (Fin 3 × Effect 3 ℕ)),
      (Agreement c ∧ AnswersAgree h) ∧ (answers (effectsAt h 1)).map Prod.snd = [10, 20] := by
  refine ⟨_, _, agreement_under_one_owner (n := 3) (τ := ℕ) unpackShort (fun _ => 1)
    [.client 1 ⟨1, 0x0100, [0x93, 1, 0xcd, 1, 0, 0xc4, 1, 7]⟩ 10, .peer 1, .peer 2,
      .client 1 ⟨1, 0x0100, [0x93, 1, 0xcd, 1, 0, 0xc4, 1, 8]⟩ 20, .peer 4, .peer 5]
    ?_ rfl, rfl⟩
  intro event he
  simp only [List.mem_cons, List.not_mem_nil, or_false] at he
  rcases he with rfl | rfl | rfl | rfl | rfl | rfl
  all_goals first | trivial | exact fun _ _ _ _ => rfl

/-- Two clients write to one key at two replicas, in the same epoch.  Replica 2 takes the
append of the first; that of the second finds an entry of its epoch there and changes
nothing, and yet both are acknowledged.  So each of the two replicas commits its own entry
under index 1, and both clients are answered. -/
theorem two_owners_disagree :
    let a : Bytes := [0x93, 1, 0xcd, 1, 0, 0xc4, 1, 7]
    let b : Bytes := [0x93, 1, 0xcd, 1, 0, 0xc4, 1, 8]
    unpackShort a = some ⟨1, 0x0100, [7]⟩ ∧ unpackShort b = some ⟨1, 0x0100, [8]⟩ ∧
      ∃ (c : Cluster 3 ℕ) (h : List (Fin 3 × Effect 3 ℕ)),
        Machine.run (Cluster.step unpackShort) (Cluster.init 3 ℕ)
          [.client 0 ⟨1, 0x0100, a⟩ 10, .client 1 ⟨1, 0x0100, b⟩ 20,
            .peer 1, .peer 4, .peer 3, .peer 5] = .ok (c, h) ∧
        AnsweredFor h 0 1 ⟨1, 1, a⟩ 10 ∧ AnsweredFor h 1 1 ⟨1, 1, b⟩ 20 ∧
        ¬ Agreement c ∧ ¬ AnswersAgree h := by
  refine ⟨rfl, rfl, _, _, rfl, ⟨0, rfl, rfl⟩, ⟨0, rfl, rfl⟩, fun h => ?_, fun h => ?_⟩
  · have heq := h ⟨1, by decide⟩ 0 1 0 _ _ (by decide) (by decide) rfl rfl
    exact absurd heq (by decide)
  · have heq := h 0 1 1 _ _ 10 20 ⟨0, rfl, rfl⟩ ⟨0, rfl, rfl⟩ rfl
    exact absurd heq (by decide)

/-! ## Reads -/

/-- The client's message goes to the replica that the guidance maps its key to, and packs an
operation on that key. -/
def Guided (unpack : Bytes → Option Operation) : ClusterEvent n τ → Prop
  | .client r msg _ => routedTo n msg.keyHash = some r ∧
      ∃ op, unpack msg.op = some op ∧ op.keyHash = msg.keyHash
  | .getGuidance _ _ => True
  | .peer _ => True
  | .lose _ => True

/-- What is known of the operations in a group, when clients follow the guidance: their keys
are the group's. -/
def OnKeyOf (gid : Fin defaultKeySpace) (op : Operation) : Prop :=
  findTargetSmr op.keyHash = gid

/-- INTERNAL: clients that follow the guidance give every group one owner, and operations on
its own keys. -/
theorem Guided.accepted (hn : 0 < n) {event : ClusterEvent n τ} (h : Guided unpack event) :
    Accepted unpack OnKeyOf (guidedOwner hn) event := by
  cases event with
  | client r msg tr =>
    obtain ⟨hroute, op, hop, hkey⟩ := h
    exact fun _ => ⟨op, hop, fun _ => ⟨eq_guidedOwner hn hroute, by rw [OnKeyOf, hkey]⟩⟩
  | getGuidance r tr => trivial
  | peer k => trivial
  | lose k => trivial

/-- At the owner of its group, each key holds the last committed write to it. -/
def StoresCommitted (unpack : Bytes → Option Operation) (owner : Fin defaultKeySpace → Fin n)
    (c : Cluster n τ) : Prop :=
  ∀ k, (c.replicas (owner (findTargetSmr k))).storage k =
    heldAfter unpack (committedAt owner c (findTargetSmr k)) k

/-- INTERNAL: **each step keeps the storages in line with what is committed**: the entries
that a group commits are stored at its owner, in order, and concern its own keys only. -/
theorem StoresCommitted.step {c c' : Cluster n τ} {out : List (Fin n × Effect n τ)}
    {event : ClusterEvent n τ} {gid : Fin defaultKeySpace} {es : List Entry}
    (h : StoresCommitted unpack owner c)
    (hcommits : Commits unpack owner event c c' out gid es)
    (hes : ∀ e ∈ es, ∃ op, unpack e.data = some op ∧ OnKeyOf gid op) :
    StoresCommitted unpack owner c' := by
  intro k
  rw [hcommits.committed, hcommits.storage]
  by_cases hk : findTargetSmr k = gid
  · rw [if_pos (by rw [hk]), if_pos hk]
    exact applyWrites_heldAfter unpack _ es _ (h k)
  · rw [if_neg hk, List.append_nil]
    by_cases ho : owner (findTargetSmr k) = owner gid
    · -- the same replica stores writes of another group
      rw [if_pos ho, applyWrites_apply, lastWrite_eq_none, Option.getD_none]
      · exact h k
      · intro w hw
        obtain ⟨e, he, hwrite⟩ := List.mem_filterMap.mp hw
        obtain ⟨op, hop, hkey⟩ := hes e he
        rw [hop] at hwrite
        dsimp only at hwrite
        split at hwrite
        · cases hwrite
          rintro rfl
          exact hk hkey
        · cases hwrite
    · rw [if_neg ho]
      exact h k

/-- **Reads at the owner see exactly the committed writes.**  For every run of a cluster in
which clients follow the guidance, and messages between the replicas are lost, repeated
and reordered at will, and every step after it: when the step is a read of a key, of the initial
epoch, the client is sent one reply, on its own transport and under that key, and nothing else is
sent; every reply to a read holds the data of the last write to its key among the committed
entries of the group of the key, or nothing when there is none; and every entry that a client has
been answered for is among the committed entries of the group of its key.
SOURCE: core/morphling.cpp:9-36, 86-126, 186-204; core/smr.cpp:211-268 -/
theorem reads_see_committed_writes (unpack : Bytes → Option Operation) (hn : 0 < n)
    (events : List (ClusterEvent n τ)) (event : ClusterEvent n τ)
    (hguided : ∀ e ∈ events ++ [event], Guided unpack e)
    {c c' : Cluster n τ} {h out : List (Fin n × Effect n τ)}
    (hrun : Machine.run (Cluster.step unpack) (Cluster.init n τ) events = .ok (c, h))
    (hstep : Cluster.step unpack c event = .ok (c', out)) (r : Fin n) :
    (∀ msg tr op, event = .client r msg tr → msg.epoch = 1 → unpack msg.op = some op →
      op.opType = 0 → ∃ reply, out = [(r, .read tr reply)] ∧ reply.success = true ∧
        reply.keyHash = msg.keyHash ∧ reply.replyData =
          heldAfter unpack
            (((c.replicas r).smrs (findTargetSmr msg.keyHash)).log.log.take
              ((c.replicas r).smrs (findTargetSmr msg.keyHash)).log.currCommit) msg.keyHash) ∧
    (∀ reply ∈ reads (effectsAt out r), reply.replyData =
      heldAfter unpack
        (((c.replicas r).smrs (findTargetSmr reply.keyHash)).log.log.take
          ((c.replicas r).smrs (findTargetSmr reply.keyHash)).log.currCommit) reply.keyHash) ∧
    (∀ a ∈ answers (effectsAt h r), ∀ op, unpack a.1.data = some op →
      a.1 ∈ ((c.replicas r).smrs (findTargetSmr op.keyHash)).log.log.take
        ((c.replicas r).smrs (findTargetSmr op.keyHash)).log.currCommit) := by
  have hr := Machine.run_invariant (Cluster.step unpack)
    (G := fun _ event => Guided unpack event)
    (I := fun c h => RunOk unpack OnKeyOf (guidedOwner hn) c h ∧
      StoresCommitted unpack (guidedOwner hn) c)
    (fun c h event c' out hI hg hs => by
      obtain ⟨hr', gid, es, hcommits, hes⟩ := hI.1.step (hg.accepted hn) hs
      exact ⟨hr', hI.2.step hcommits hes⟩)
    ⟨RunOk.init unpack _ _, fun k => rfl⟩
    (Machine.guarded_of_forall _
      (fun e he _ => hguided e (List.mem_append_left _ he)) _) hrun
  rw [List.nil_append] at hr
  obtain ⟨hr, hstores⟩ := hr
  have hevent := hguided event (List.mem_append_right _ (List.mem_singleton_self _))
  have hread : ∀ msg tr, event = .client r msg tr →
      (c.replicas r).storage msg.keyHash = heldAfter unpack
        (((c.replicas r).smrs (findTargetSmr msg.keyHash)).log.log.take
          ((c.replicas r).smrs (findTargetSmr msg.keyHash)).log.currCommit) msg.keyHash := by
    intro msg tr hclient
    rw [hclient] at hevent
    have hro := eq_guidedOwner hn hevent.1
    have hheld := hstores msg.keyHash
    rwa [committedAt, ← hro] at hheld
  refine ⟨?_, ?_, ?_⟩
  · intro msg tr op hclient hepoch hop htype
    have heffect := hr.cluster.client_unchanged (handleOperation_read (m := c.replicas r) tr
      ((hr.cluster.epoch r).trans hepoch.symm) hop htype)
    rw [hclient, heffect] at hstep
    cases hstep
    exact ⟨_, rfl, rfl, rfl, hread msg tr hclient⟩
  · intro reply hreply
    obtain ⟨-, gid, es, hcommits, -⟩ := hr.step (hevent.accepted hn) hstep
    obtain ⟨⟨msg, tr, hclient, hkey⟩, hdata⟩ := hcommits.reads r reply hreply
    rw [hdata, hkey]
    exact hread msg tr hclient
  · intro a ha op hop
    have hfst : a.1 ∈ (queuedEntries (effectsAt h r)).map Prod.snd := by
      rw [← hr.answered r]
      exact List.mem_map_of_mem ha
    obtain ⟨q, hq, hqa⟩ := List.mem_map.mp hfst
    obtain ⟨gid, -, hro, hmem, op', hop', hkey⟩ := hr.queued r q hq
    rw [hqa] at hmem hop'
    rw [hop, Option.some.injEq] at hop'
    subst hop'
    rw [OnKeyOf] at hkey
    rw [hkey, hro]
    exact hmem

/-- A write is committed with one acknowledgement, and a read after it gets its data. -/
theorem read_sees_write :
    ∃ (c c' : Cluster 3 ℕ) (h out : List (Fin 3 × Effect 3 ℕ)),
      Machine.run (Cluster.step unpackShort) (Cluster.init 3 ℕ)
        [.client 0 ⟨1, 0x0100, [0x93, 1, 0xcd, 1, 0, 0xc4, 1, 7]⟩ 10, .peer 0, .peer 2] =
          .ok (c, h) ∧
      Cluster.step unpackShort c
        (.client 0 ⟨1, 0x0100, [0x93, 0, 0xcd, 1, 0, 0xc4, 1, 0]⟩ 20) = .ok (c', out) ∧
      (reads (effectsAt out 0)).map ClientReplyMessage.replyData = [[7]] ∧
      ∃ reply, out = [(0, .read 20 reply)] ∧ reply.success = true ∧ reply.keyHash = 0x0100 ∧
        reply.replyData = heldAfter unpackShort
          (((c.replicas 0).smrs (findTargetSmr 0x0100)).log.log.take
            ((c.replicas 0).smrs (findTargetSmr 0x0100)).log.currCommit) 0x0100 := by
  refine ⟨_, _, _, _, rfl, rfl, by decide +kernel,
    (reads_see_committed_writes (n := 3) (τ := ℕ) unpackShort (by decide)
      [.client 0 ⟨1, 0x0100, [0x93, 1, 0xcd, 1, 0, 0xc4, 1, 7]⟩ 10, .peer 0, .peer 2]
      (.client 0 ⟨1, 0x0100, [0x93, 0, 0xcd, 1, 0, 0xc4, 1, 0]⟩ 20) ?_ rfl rfl 0).1
      ⟨1, 0x0100, [0x93, 0, 0xcd, 1, 0, 0xc4, 1, 0]⟩ 20 _ rfl rfl rfl rfl⟩
  intro event he
  simp only [List.cons_append, List.nil_append, List.mem_cons, List.not_mem_nil, or_false] at he
  rcases he with rfl | rfl | rfl | rfl
  · exact ⟨by decide, _, rfl, rfl⟩
  · trivial
  · trivial
  · exact ⟨by decide, _, rfl, rfl⟩

end MorphlingC.Analysis
