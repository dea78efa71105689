import MorphlingC.Analysis.ClusterRuns
import MorphlingC.Analysis.InOrder
import MorphlingC.Analysis.LinkedRefinement

/-!
# One step of the cluster over streams

When the connections are streams and the replicated operations of each group all reach one
replica, every group stays in the invariant `InOrder`.  `LinkedOk` is that, together with the
cluster of `Cluster.step` that does the same, and each accepted event returns and keeps it
(`LinkedOk.returns`, `LinkedOk.step`).

What an event does to the streams is said once for each kind of event, by `Sends`: which
group of which replica it changes, what is left of the streams, and what is written to them.
-/

set_option autoImplicit false

namespace MorphlingC.Analysis

open MorphlingC.Library MorphlingC.Model MorphlingC.Interface MorphlingC.Model.Morphling

variable {n : ℕ} {τ : Type} {unpack : Bytes → Option Operation}
  {fits : Fin defaultKeySpace → Operation → Prop} {owner : Fin defaultKeySpace → Fin n}

/-! ## What a callback does to the streams -/

/-- INTERNAL: every queued message goes out on the transport of its addressee.
SOURCE: core/morphling.cpp:206-231 -/
theorem sendAll_eq {m : Morphling n τ} {msgs : List (GenericMessage n)}
    {sent : List (ℕ × GenericMessage n)}
    (h : sendAll (Cluster.peerTrans m) msgs = .ok sent) :
    sent = msgs.map fun p => (p.dst, p) := by
  induction msgs generalizing sent with
  | nil =>
    cases h
    rfl
  | cons msg rest ih =>
    unfold sendAll at h
    obtain ⟨one, hone, h⟩ := bind_eq_ok.mp h
    obtain ⟨others, hothers, h⟩ := bind_eq_ok.mp h
    cases h
    rw [List.map_cons, ← ih hothers]
    unfold sendMsg at hone
    split at hone
    · cases hone
    · split at hone
      · cases hone
      · rename_i tr htr
        cases hone
        rw [eq_of_peerTrans htr]

/-- In the step from `c` to `d`, the group `gid` of the replica `r` goes to `s`, what is left
of the streams is `left`, and `msgs` are sent. -/
structure Sends (c d : Linked n τ) (left : Fin n → Fin n → List (GenericMessage n)) (r : Fin n)
    (gid : Fin defaultKeySpace) (s : SMR) (msgs : List (GenericMessage n)) : Prop where
  group : (fun i => (d.replicas i).smrs gid) =
    Function.update (fun i => (c.replicas i).smrs gid) r s
  others : ∀ g, g ≠ gid → (fun i => (d.replicas i).smrs g) = fun i => (c.replicas i).smrs g
  wire : ∀ i j, d.wire i j = left i j ++
    if i = r then msgs.filter fun p => p.dst = j.val else []

/-- INTERNAL: **what the end of a callback does.** SOURCE: core/morphling.cpp:206-231;
app/server.cpp:171, 228 -/
theorem Sends.finish {c d : Linked n τ} {left : Fin n → Fin n → List (GenericMessage n)}
    {r : Fin n} {gid : Fin defaultKeySpace} {s : SMR} {m : Morphling n τ}
    (hsmrs : m.smrs = Function.update (c.replicas r).smrs gid s)
    (h : Linked.finish { c with wire := left } r m = .ok d) :
    Sends c d left r gid s m.nextMsgs := by
  obtain ⟨⟨m', sent⟩, hbcast, heq⟩ := bind_eq_ok.mp h
  cases heq
  obtain ⟨sent', hall, hb⟩ := bind_eq_ok.mp hbcast
  cases hb
  have hsent := sendAll_eq hall
  constructor
  · funext i
    by_cases hi : i = r
    · subst hi
      simp [hsmrs]
    · simp [hi]
  · intro g hg
    funext i
    by_cases hi : i = r
    · subst hi
      simp [hsmrs, hg]
    · simp [hi]
  · intro i j
    dsimp only [Linked.put]
    by_cases hi : i = r
    · rw [if_pos hi, if_pos hi, hsent, List.filterMap_map, ← List.filterMap_eq_filter]
      congr 2
      funext p
      simp [Option.guard]
    · rw [if_neg hi, if_neg hi, List.append_nil]

/-- INTERNAL: what is in the streams for a group after the end of a callback. -/
theorem Sends.appendsOf_wire {c d : Linked n τ} {left : Fin n → Fin n → List (GenericMessage n)}
    {r : Fin n} {gid : Fin defaultKeySpace} {s : SMR} {msgs : List (GenericMessage n)}
    (h : Sends c d left r gid s msgs) (g : ℕ) (i j : Fin n) :
    appendsOf g (d.wire i j) = appendsOf g (left i j) ++
      if i = r then appendsOf g (msgs.filter fun p => p.dst = j.val) else [] := by
  rw [h.wire, appendsOf_append, apply_ite (appendsOf g)]
  rfl

/-- INTERNAL: what is in the streams for a group after the end of a callback. -/
theorem Sends.acksOf_wire {c d : Linked n τ} {left : Fin n → Fin n → List (GenericMessage n)}
    {r : Fin n} {gid : Fin defaultKeySpace} {s : SMR} {msgs : List (GenericMessage n)}
    (h : Sends c d left r gid s msgs) (g : ℕ) (i j : Fin n) :
    acksOf g (d.wire i j) = acksOf g (left i j) ++
      if i = r then acksOf g (msgs.filter fun p => p.dst = j.val) else [] := by
  rw [h.wire, acksOf_append, apply_ite (acksOf g)]
  rfl

/-- INTERNAL: a stream is the message that is read from it, and what is left. -/
theorem filterMap_pop {β : Type} (f : GenericMessage n → Option β)
    {wire : Fin n → Fin n → List (GenericMessage n)} {src dst : Fin n} {p : GenericMessage n}
    {rest : List (GenericMessage n)} (hw : wire src dst = p :: rest) (i j : Fin n) :
    (wire i j).filterMap f = (if i = src ∧ j = dst then (f p).toList else []) ++
      (Linked.pop wire src dst i j).filterMap f := by
  unfold Linked.pop
  by_cases hij : i = src ∧ j = dst
  · obtain ⟨rfl, rfl⟩ := hij
    rw [if_pos ⟨rfl, rfl⟩, if_pos ⟨rfl, rfl⟩, hw, List.filterMap_cons]
    cases f p <;> rfl
  · rw [if_neg hij, if_neg hij]
    rfl

/-- INTERNAL: the appends in a stream, one of which is read. -/
theorem appendsOf_pop (g : ℕ) {wire : Fin n → Fin n → List (GenericMessage n)}
    {src dst : Fin n} {p : GenericMessage n} {rest : List (GenericMessage n)}
    (hw : wire src dst = p :: rest) (i j : Fin n) :
    appendsOf g (wire i j) = (if i = src ∧ j = dst then (appendOf g p).toList else []) ++
      appendsOf g (Linked.pop wire src dst i j) := filterMap_pop (appendOf g) hw i j

/-- INTERNAL: the acknowledgements in a stream, one of which is read. -/
theorem acksOf_pop (g : ℕ) {wire : Fin n → Fin n → List (GenericMessage n)}
    {src dst : Fin n} {p : GenericMessage n} {rest : List (GenericMessage n)}
    (hw : wire src dst = p :: rest) (i j : Fin n) :
    acksOf g (wire i j) = (if i = src ∧ j = dst then (ackOf g p).toList else []) ++
      acksOf g (Linked.pop wire src dst i j) := filterMap_pop (ackOf g) hw i j

/-- The message carries the number of the replica that sent it. -/
def SentBy (i : ℕ) : GenericMessage n → Prop
  | .append msg _ => msg.fromId = i
  | .appendReply msg _ => msg.fromId = i
  | .guidance msg _ => msg.fromId = i

/-- INTERNAL: of a list of numbers without repetitions, those that are `j` and not `r`. -/
theorem filter_filter_eq {l : List ℕ} (hl : l.Nodup) {j : ℕ} (hj : j ∈ l) (r : ℕ) :
    ((l.filter (· ≠ r)).filter fun rid => rid = j) = if j ≠ r then [j] else [] := by
  rw [List.filter_comm, List.filter_eq, List.count_eq_one_of_mem hl hj]
  by_cases hjr : j = r
  · simp [hjr]
  · simp [hjr]

/-- INTERNAL: **what an operation sends**: one append to each other replica, for the end of the
log as it was. SOURCE: core/smr.cpp:211-224, 270-281; core/morphling.cpp:165-184 -/
theorem operation_sends {m : Morphling n τ} {gid : Fin defaultKeySpace} {s : SMR}
    {msg : ClientMessage} {cbs : List Callback} {idx : ℕ} (hm : m.nextMsgs = [])
    (hpeers : (m.smrs gid).peers = List.range n)
    (hcall : (m.smrs gid).handleOperation msg = .ok (s, cbs, idx)) :
    (∀ g (j : Fin n), appendsOf g ((afterCall m gid s cbs).nextMsgs.filter fun p => p.dst = j.val) =
      if g = (m.smrs gid).gid ∧ j.val ≠ (m.smrs gid).me then
        [(m.smrs gid).log.log.length] else []) ∧
    (∀ g (j : Fin n), acksOf g ((afterCall m gid s cbs).nextMsgs.filter fun p => p.dst = j.val) =
      []) ∧
    ∀ p ∈ (afterCall m gid s cbs).nextMsgs, SentBy m.me p := by
  obtain ⟨-, -, -, -, -, -, -, hcbs⟩ := handleOperation_ok hcall
  obtain ⟨am, ham, hgroup, hprev⟩ : ∃ am : AppendEntriesMessage,
      (afterCall m gid s cbs).nextMsgs =
        ((List.range n).filter (· ≠ (m.smrs gid).me)).map (fun rid => .append am rid) ∧
      am.groupId = (m.smrs gid).gid ∧ am.prevIndex = (m.smrs gid).log.log.length ∧
      am.fromId = m.me := by
    refine ⟨{ appendMessage (m.smrs gid) ⟨msg.epoch, idx, msg.op⟩ with
        fromId := m.me, epoch := m.guide.epoch }, ?_, rfl, rfl, rfl⟩
    simp only [afterCall, hm, hcbs, hpeers, List.nil_append, List.filterMap_map]
    rw [List.map_filterMap, ← List.filterMap_eq_map]
    rfl
  have hto : ∀ j : Fin n, ((afterCall m gid s cbs).nextMsgs.filter fun p => p.dst = j.val) =
      if j.val ≠ (m.smrs gid).me then [.append am j] else [] := by
    intro j
    rw [ham, List.filter_map]
    have hpart := filter_filter_eq List.nodup_range (List.mem_range.mpr j.isLt)
      (m.smrs gid).me
    rw [show ((fun p : GenericMessage n => decide (p.dst = j.val)) ∘ fun rid => .append am rid) =
      fun rid => decide (rid = j.val) from rfl, hpart]
    split
    · rfl
    · rfl
  refine ⟨fun g j => ?_, fun g j => ?_, ?_⟩
  · rw [hto]
    by_cases hj : j.val ≠ (m.smrs gid).me
    · rw [if_pos hj]
      by_cases hg : g = (m.smrs gid).gid
      · simp [appendsOf, appendOf, hgroup, hprev.1, hg, hj]
      · simp [appendsOf, appendOf, hgroup, hg, Ne.symm hg]
    · rw [if_neg hj, if_neg (fun h => hj h.2)]
      rfl
  · rw [hto]
    split
    · rfl
    · rfl
  · intro p hp
    rw [ham] at hp
    obtain ⟨rid, -, rfl⟩ := List.mem_map.mp hp
    exact hprev.2

/-- INTERNAL: where an acknowledgement goes. -/
theorem ack_to (ack : AppenEntriesReplyMessage) (o : Fin n) (g : ℕ) (j : Fin n) :
    acksOf g (([.appendReply ack o] : List (GenericMessage n)).filter fun p => p.dst = j.val) =
        (if ack.groupId = g ∧ j = o then [(ack.success, ack.index)] else []) ∧
      appendsOf g (([.appendReply ack o] : List (GenericMessage n)).filter
        fun p => p.dst = j.val) = [] := by
  by_cases hj : j = o
  · subst hj
    by_cases hg : ack.groupId = g
    · simp [acksOf, ackOf, appendsOf, appendOf, GenericMessage.dst, hg]
    · simp [acksOf, ackOf, appendsOf, appendOf, GenericMessage.dst, hg]
  · have hne : o.val ≠ j := fun heq => hj (Fin.ext heq.symm)
    simp [acksOf, appendsOf, GenericMessage.dst, hj, hne]

/-! ## The invariant -/

/-- **The invariant of the cluster over streams**: it is matched by a cluster in `ClusterOk`,
every message carries its sender, and every group is in `InOrder`. -/
structure LinkedOk (unpack : Bytes → Option Operation)
    (fits : Fin defaultKeySpace → Operation → Prop) (owner : Fin defaultKeySpace → Fin n)
    (c : Linked n τ) (d : Cluster n τ) : Prop where
  network : OnNetwork c d
  cluster : ClusterOk unpack fits owner d
  senders : ∀ i j, ∀ p ∈ c.wire i j, SentBy i p
  groups : ∀ gid, ∃ counted, InOrder (owner gid) gid
    (fun i => (c.replicas i).smrs gid) c.wire counted

/-- INTERNAL: fresh replicas and empty streams are in the invariant. -/
theorem LinkedOk.init (unpack : Bytes → Option Operation)
    (fits : Fin defaultKeySpace → Operation → Prop) (owner : Fin defaultKeySpace → Fin n) :
    LinkedOk unpack fits owner (Linked.init n τ) (Cluster.init n τ) where
  network := ⟨rfl, fun _ _ _ hp => absurd hp List.not_mem_nil⟩
  cluster := ClusterOk.init unpack fits owner
  senders := fun _ _ _ hp => absurd hp List.not_mem_nil
  groups := fun gid => ⟨_, InOrder.init (owner gid) gid⟩

/-- INTERNAL: the messages that a callback sends carry their sender. -/
theorem Sends.senders {c d : Linked n τ} {left : Fin n → Fin n → List (GenericMessage n)}
    {r : Fin n} {gid : Fin defaultKeySpace} {s : SMR} {msgs : List (GenericMessage n)}
    (h : Sends c d left r gid s msgs) (hleft : ∀ i j, ∀ p ∈ left i j, SentBy i p)
    (hmsgs : ∀ p ∈ msgs, SentBy r p) : ∀ i j, ∀ p ∈ d.wire i j, SentBy i p := by
  intro i j p hp
  rw [h.wire] at hp
  rcases List.mem_append.mp hp with hold | hnew
  · exact hleft i j p hold
  · by_cases hi : i = r
    · rw [if_pos hi] at hnew
      rw [hi]
      exact hmsgs p (List.mem_filter.mp hnew).1
    · rw [if_neg hi] at hnew
      cases hnew

/-- INTERNAL: a callback that neither changes a group nor sends anything. -/
theorem Sends.quiet {c d : Linked n τ} {r : Fin n} {gid : Fin defaultKeySpace}
    (h : Sends c d c.wire r gid ((c.replicas r).smrs gid) []) :
    d.wire = c.wire ∧
      ∀ g, (fun i => (d.replicas i).smrs g) = fun i => (c.replicas i).smrs g := by
  constructor
  · funext i j
    rw [h.wire]
    simp
  · intro g
    by_cases hg : g = gid
    · subst hg
      rw [h.group]
      exact Function.update_eq_self r _
    · exact h.others g hg

/-- Whether the client's message is one that is replicated: of the current epoch, and not a
read. -/
def replicates (unpack : Bytes → Option Operation) (msg : ClientMessage) : Bool :=
  match unpack msg.op with
  | none => false
  | some op => msg.epoch = 1 ∧ op.opType ≠ 0

/-- What is asked of the events of a cluster, asked of what comes from outside over streams. -/
def FromOutside (P : ClusterEvent n τ → Prop) (event : LinkedEvent n τ) : Prop :=
  ∀ e, LinkedEvent.fromOutside event = some e → P e

/-- INTERNAL: **what a client's message does**: nothing to the groups and the streams, or it is
appended to the group of its key, at the owner. SOURCE: app/server.cpp:158-171;
core/morphling.cpp:103-126 -/
theorem LinkedOk.client {c c' : Linked n τ} {d : Cluster n τ} {r : Fin n} {msg : ClientMessage}
    {tr : τ} {out : List (Fin n × Effect n τ)} (h : LinkedOk unpack fits owner c d)
    (haccepted : Accepted unpack fits owner (.client r msg tr : ClusterEvent n τ))
    (hstep : Linked.step unpack c (.client r msg tr) = .ok (c', out)) :
    (replicates unpack msg = false ∧ c'.wire = c.wire ∧
      ∀ g, (fun i => (c'.replicas i).smrs g) = fun i => (c.replicas i).smrs g) ∨
    (replicates unpack msg = true ∧ ∃ (gid : Fin defaultKeySpace) (s : SMR)
        (cbs : List Callback) (idx : ℕ),
      gid = findTargetSmr msg.keyHash ∧ r = owner gid ∧
      ((c.replicas r).smrs gid).handleOperation msg = .ok (s, cbs, idx) ∧
      Sends c c' c.wire r gid s (afterCall (c.replicas r) gid s cbs).nextMsgs) := by
  obtain ⟨replicas, network⟩ := d
  obtain rfl : c.replicas = replicas := h.network.replicas
  obtain ⟨⟨m, effects⟩, hhandle, hstep⟩ := bind_eq_ok.mp hstep
  obtain ⟨c₁, hfinish, heq⟩ := bind_eq_ok.mp hstep
  cases heq
  have hsent : (c.replicas r).nextMsgs = [] := h.cluster.sent r
  have hepoch₁ : (c.replicas r).guide.epoch = 1 := h.cluster.epoch r
  have hsame : m = c.replicas r → c'.wire = c.wire ∧
      ∀ g, (fun i => (c'.replicas i).smrs g) = fun i => (c.replicas i).smrs g := by
    rintro rfl
    have hsmrs : (c.replicas r).smrs = Function.update (c.replicas r).smrs ⟨0, by decide⟩ _ :=
      (Function.update_eq_self _ _).symm
    have hsends := Sends.finish (c := c) hsmrs hfinish
    rw [hsent] at hsends
    exact hsends.quiet
  rcases handleOperation_cases hhandle with ⟨hother, hm, -⟩ | ⟨hepoch, op, hop, hcase⟩
  · refine .inl ⟨?_, hsame hm⟩
    have hne : msg.epoch ≠ 1 := fun heq => hother (hepoch₁.trans heq.symm)
    cases hop : unpack msg.op with
    | none => simp [replicates, hop]
    | some op => simp [replicates, hop, hne]
  have hone : msg.epoch = 1 := hepoch.symm.trans hepoch₁
  rcases hcase with ⟨hread, hm, -⟩ | ⟨htype, s, cbs, idx, hcall, hm, -⟩
  · exact .inl ⟨by simp [replicates, hop, hread], hsame hm⟩
  · obtain ⟨op', hop', hroute⟩ := haccepted hone
    rw [hop, Option.some.injEq] at hop'
    subst hop'
    have hsends := Sends.finish (c := c) (by rw [hm]; rfl) hfinish
    have hmsgs : m.nextMsgs =
        (afterCall (c.replicas r) (findTargetSmr msg.keyHash) s cbs).nextMsgs := by
      rw [hm]
    rw [hmsgs] at hsends
    exact .inr ⟨by simp [replicates, hone, hop, htype], _, s, cbs, idx, rfl, (hroute htype).1,
      hcall, hsends⟩

/-- INTERNAL: **an operation that is appended keeps the groups in order.**
SOURCE: core/smr.cpp:211-224, 270-281 -/
theorem LinkedOk.client_groups {c c' : Linked n τ} {d : Cluster n τ} {r : Fin n}
    {msg : ClientMessage} {gid : Fin defaultKeySpace} {s : SMR} {cbs : List Callback} {idx : ℕ}
    (h : LinkedOk unpack fits owner c d) (hn : 2 ≤ n) (hr : r = owner gid)
    (hcall : ((c.replicas r).smrs gid).handleOperation msg = .ok (s, cbs, idx))
    (hsends : Sends c c' c.wire r gid s (afterCall (c.replicas r) gid s cbs).nextMsgs) :
    (∀ i j, ∀ p ∈ c'.wire i j, SentBy i p) ∧
    ∀ g, ∃ counted, InOrder (owner g) g (fun i => (c'.replicas i).smrs g) c'.wire counted := by
  obtain ⟨replicas, network⟩ := d
  obtain rfl : c.replicas = replicas := h.network.replicas
  subst hr
  have hgroup := h.cluster.groups gid
  have hgid : ((c.replicas (owner gid)).smrs gid).gid = gid := hgroup.group _
  have hme : ((c.replicas (owner gid)).smrs gid).me = owner gid := hgroup.me _
  have hby₁ : (c.replicas (owner gid)).me = owner gid := h.cluster.me _
  obtain ⟨happends, hacks, hby⟩ :=
    operation_sends (n := n) (h.cluster.sent (owner gid)) (hgroup.peers _) hcall
  rw [hgid, hme] at happends
  rw [hby₁] at hby
  refine ⟨hsends.senders h.senders hby, fun g => ?_⟩
  obtain ⟨counted, q⟩ := h.groups g
  have hacks' : ∀ i j, acksOf g (c'.wire i j) = acksOf g (c.wire i j) := by
    intro i j
    rw [hsends.acksOf_wire, hacks, ite_self, List.append_nil]
  by_cases hg : g = gid
  · subst hg
    rw [hsends.group]
    refine ⟨_, q.operation hgroup hn hcall (fun i j => ?_) hacks'⟩
    rw [hsends.appendsOf_wire, happends]
    by_cases hi : i = owner g
    · by_cases hj : j = owner g
      · simp [hi, hj]
      · have hne : j.val ≠ owner g := fun heq => hj (Fin.ext heq)
        simp [hi, hj, hne]
    · simp [hi]
  · rw [hsends.others g hg]
    refine ⟨_, q.same (fun i j => ?_) hacks'⟩
    have hother : ¬ (g.val = gid ∧ j.val ≠ owner gid) := fun heq => hg (Fin.ext heq.1)
    rw [hsends.appendsOf_wire, happends, if_neg hother, ite_self, List.append_nil]

/-- INTERNAL: **what an append that is read does**: it is the next one for its group, it is
taken, and acknowledged to the owner. SOURCE: app/server.cpp:202-228;
core/morphling.cpp:128-136; core/smr.cpp:226-250 -/
theorem LinkedOk.readAppend {c c' : Linked n τ} {d : Cluster n τ} {src dst : Fin n}
    {msg : AppendEntriesMessage} {dst' : ℕ} {rest : List (GenericMessage n)} {m : Morphling n τ}
    {effects : List (Effect n τ)} (h : LinkedOk unpack fits owner c d)
    (hw : c.wire src dst = .append msg dst' :: rest)
    (hhandle : (c.replicas dst).handleAppendEntries msg msg.fromId = .ok (m, effects))
    (hfinish : Linked.finish { c with wire := Linked.pop c.wire src dst } dst m = .ok c') :
    ∃ (gid : Fin defaultKeySpace) (s : SMR) (ack : AppenEntriesReplyMessage),
      src = owner gid ∧ dst ≠ owner gid ∧ msg.groupId = gid ∧
      s.log.log.length = ((c.replicas dst).smrs gid).log.log.length + 1 ∧
      ack.fromId = dst ∧ ack.groupId = gid ∧ ack.success = true ∧
      ack.index = s.log.log.length ∧
      Sends c c' (Linked.pop c.wire src dst) dst gid s [.appendReply ack (owner gid)] := by
  obtain ⟨replicas, network⟩ := d
  obtain rfl : c.replicas = replicas := h.network.replicas
  have hmem : .append msg dst' ∈ c.wire src dst := by
    rw [hw]
    exact List.mem_cons_self
  obtain ⟨hnet, hdst⟩ := h.network.wire src dst _ hmem
  obtain ⟨gid, hgid, hepoch⟩ := h.cluster.wire _ hnet
  have hgroup := h.cluster.groups gid
  have hm := hgroup.appends msg dst' ⟨hnet, hgid, hepoch⟩
  have hne : dst ≠ owner gid := fun heq => hm.addressee.2 (by rw [← heq]; exact hdst)
  -- the group handles it
  rcases handleAppend_cases hhandle with ⟨hother, -⟩ | ⟨-, gid', s, cbs, hgid', hcall, hm', -⟩
  · exact absurd ((h.cluster.epoch dst).trans hepoch.symm) hother
  obtain rfl : gid' = gid := Fin.ext (hgid'.symm.trans hgid)
  obtain ⟨counted, q⟩ := h.groups gid'
  have hnext : appendsOf gid' (c.wire src dst) =
      msg.prevIndex :: appendsOf gid' (Linked.pop c.wire src dst src dst) := by
    rw [appendsOf_pop gid' hw, if_pos ⟨rfl, rfl⟩]
    simp [appendOf, hgid]
  obtain ⟨hsrc, hend, -⟩ := q.next_append hnext
  obtain ⟨-, hgrow, hcbs⟩ : msg.prevIndex = _ ∧ _ ∧ _ :=
    (follower_outcome hm (hgroup.isPrefix dst) hcall).resolve_left fun hno => hno.1 hend
  have hsends := Sends.finish (c := c) (s := s) (by rw [hm']; rfl) hfinish
  have hsent : (c.replicas dst).nextMsgs = [] := h.cluster.sent dst
  have hme : (c.replicas dst).me = dst := h.cluster.me dst
  have hsgid : s.gid = gid' := by
    rw [handleAppendEntries_frame hcall]
    exact hgroup.group dst
  have hmsgs : m.nextMsgs = [.appendReply
      ⟨dst, (c.replicas dst).guide.epoch, true, gid', s.log.log.length⟩ (owner gid')] := by
    rw [hm', hcbs, hm.sender]
    simp only [afterCall, hsent, List.nil_append]
    simp [queuedMsg, appendReply, stamp, hme, hsgid]
  rw [hmsgs] at hsends
  exact ⟨gid', s, _, hsrc, hne, hgid, hgrow, rfl, rfl, rfl, rfl, hsends⟩

/-- INTERNAL: **an append that is read keeps the groups in order.** -/
theorem LinkedOk.append_groups {c c' : Linked n τ} {d : Cluster n τ} {src dst : Fin n}
    {msg : AppendEntriesMessage} {dst' : ℕ} {rest : List (GenericMessage n)}
    {gid : Fin defaultKeySpace} {s : SMR} {ack : AppenEntriesReplyMessage}
    (h : LinkedOk unpack fits owner c d) (hw : c.wire src dst = .append msg dst' :: rest)
    (hsrc : src = owner gid) (hdst : dst ≠ owner gid) (hgid : msg.groupId = gid)
    (hgrow : s.log.log.length = ((c.replicas dst).smrs gid).log.log.length + 1)
    (hackgid : ack.groupId = gid) (hsuccess : ack.success = true)
    (hindex : ack.index = s.log.log.length)
    (hsends : Sends c c' (Linked.pop c.wire src dst) dst gid s [.appendReply ack (owner gid)]) :
    ∀ g, ∃ counted, InOrder (owner g) g (fun i => (c'.replicas i).smrs g) c'.wire counted := by
  subst hsrc
  intro g
  obtain ⟨counted, q⟩ := h.groups g
  have happends : ∀ i j, appendsOf g (c.wire i j) =
      (if i = owner gid ∧ j = dst ∧ g = gid then [msg.prevIndex] else []) ++
        appendsOf g (c'.wire i j) := by
    intro i j
    have hsame : appendsOf g (c'.wire i j) =
        appendsOf g (Linked.pop c.wire (owner gid) dst i j) := by
      rw [hsends.appendsOf_wire, (ack_to ack (owner gid) g j).2, ite_self, List.append_nil]
    rw [hsame, appendsOf_pop g hw, appendOf, hgid]
    by_cases hg : g = gid
    · subst hg
      by_cases hij : i = owner g ∧ j = dst
      · simp [hij]
      · rw [if_neg hij, if_neg fun heq => hij ⟨heq.1, heq.2.1⟩]
    · have hne : gid.val ≠ g := fun heq => hg (Fin.ext heq.symm)
      simp [hg, hne]
  have hacks : ∀ i j, acksOf g (c'.wire i j) = acksOf g (c.wire i j) ++
      if i = dst ∧ j = owner gid ∧ g = gid then [(true, s.log.log.length)] else [] := by
    intro i j
    rw [hsends.acksOf_wire, (ack_to ack (owner gid) g j).1, hackgid, hsuccess, hindex,
      acksOf_pop g hw i j]
    by_cases hi : i = dst
    · by_cases hj : j = owner gid
      · simp [ackOf, hi, hj, Fin.ext_iff, eq_comm]
      · simp [ackOf, hj]
    · simp [ackOf, hi]
  by_cases hg : g = gid
  · subst hg
    rw [hsends.group]
    refine ⟨_, q.append hdst (by rw [happends, if_pos ⟨rfl, rfl, rfl⟩]; rfl) hgrow
      (fun i j hij => ?_) fun i j => ?_⟩
    · rw [happends, if_neg fun heq => hij ⟨heq.1, heq.2.1⟩]
      rfl
    · rw [hacks]
      simp
  · rw [hsends.others g hg]
    refine ⟨_, q.same (fun i j => ?_) fun i j => ?_⟩
    · rw [happends, if_neg fun heq => hg heq.2.2]
      rfl
    · rw [hacks, if_neg fun heq => hg heq.2.2, List.append_nil]

/-- INTERNAL: **what an acknowledgement that is read does**: it is for the owner of its group,
from the replica that its stream comes from, and nothing is sent.
SOURCE: app/server.cpp:211-228; core/morphling.cpp:139-147 -/
theorem LinkedOk.readAck {c c' : Linked n τ} {d : Cluster n τ} {src dst : Fin n}
    {msg : AppenEntriesReplyMessage} {dst' : ℕ} {rest : List (GenericMessage n)}
    {m m' : Morphling n τ} {effects answers : List (Effect n τ)}
    (h : LinkedOk unpack fits owner c d) (hw : c.wire src dst = .appendReply msg dst' :: rest)
    (hhandle : (c.replicas dst).handleAppendEntriesReply msg msg.fromId = .ok (m, effects))
    (happly : m.maybeApply unpack = .ok (m', answers))
    (hfinish : Linked.finish { c with wire := Linked.pop c.wire src dst } dst m' = .ok c') :
    ∃ (gid : Fin defaultKeySpace) (s : SMR) (cbs : List Callback),
      dst = owner gid ∧ src ≠ owner gid ∧ msg.groupId = gid ∧
      ((c.replicas dst).smrs gid).handleAppendEntriesReply msg src = .ok (s, cbs) ∧
      Sends c c' (Linked.pop c.wire src dst) dst gid s [] := by
  obtain ⟨replicas, network⟩ := d
  obtain rfl : c.replicas = replicas := h.network.replicas
  have hmem : .appendReply msg dst' ∈ c.wire src dst := by
    rw [hw]
    exact List.mem_cons_self
  obtain ⟨hnet, -⟩ := h.network.wire src dst _ hmem
  have hfrom : msg.fromId = src := h.senders src dst _ hmem
  obtain ⟨gid, hgid, hepoch⟩ := h.cluster.wire _ hnet
  rcases handleAck_cases hhandle with ⟨hother, -⟩ | ⟨-, gid', s, cbs, hgid', hcall, hm, -⟩
  · exact absurd ((h.cluster.epoch dst).trans hepoch.symm) hother
  obtain rfl : gid' = gid := Fin.ext (hgid'.symm.trans hgid)
  obtain ⟨counted, q⟩ := h.groups gid'
  have hnext : acksOf gid' (c.wire src dst) =
      (msg.success, msg.index) :: acksOf gid' (Linked.pop c.wire src dst src dst) := by
    rw [acksOf_pop gid' hw, if_pos ⟨rfl, rfl⟩]
    simp [ackOf, hgid]
  obtain ⟨hdst, -, hle, -⟩ := q.next_ack hnext
  have hne : src ≠ owner gid' := by
    rintro rfl
    have hcount := q.counted_owner
    omega
  obtain ⟨hm', -⟩ := maybeApply_ok happly
  -- counting an acknowledgement sends nothing
  have hsent : (c.replicas dst).nextMsgs = [] := h.cluster.sent _
  have hnone : m'.nextMsgs = [] := by
    rw [hm', hm]
    rcases handleReply_cases hcall with ⟨-, -, rfl⟩ | ⟨-, -, -, -, ⟨-, -, rfl⟩ | ⟨-, -, -, -, rfl⟩⟩
    · simp [afterCall, hsent]
    · simp [afterCall, hsent]
    · simp [afterCall, hsent, queuedMsg]
  have hsends := Sends.finish (c := c) (s := s) (by rw [hm', hm]; rfl) hfinish
  rw [hnone] at hsends
  rw [hfrom] at hcall
  exact ⟨gid', s, cbs, hdst, hne, hgid, hcall, hsends⟩

/-- INTERNAL: **an acknowledgement that is read keeps the groups in order.** -/
theorem LinkedOk.ack_groups {c c' : Linked n τ} {d : Cluster n τ} {src dst : Fin n}
    {msg : AppenEntriesReplyMessage} {dst' : ℕ} {rest : List (GenericMessage n)}
    {gid : Fin defaultKeySpace} {s : SMR} {cbs : List Callback}
    (h : LinkedOk unpack fits owner c d) (hw : c.wire src dst = .appendReply msg dst' :: rest)
    (hdst : dst = owner gid) (hsrc : src ≠ owner gid) (hgid : msg.groupId = gid)
    (hcall : ((c.replicas dst).smrs gid).handleAppendEntriesReply msg src = .ok (s, cbs))
    (hsends : Sends c c' (Linked.pop c.wire src dst) dst gid s []) :
    ∀ g, ∃ counted, InOrder (owner g) g (fun i => (c'.replicas i).smrs g) c'.wire counted := by
  obtain ⟨replicas, network⟩ := d
  obtain rfl : c.replicas = replicas := h.network.replicas
  subst hdst
  intro g
  obtain ⟨counted, q⟩ := h.groups g
  have happends : ∀ i j, appendsOf g (c'.wire i j) = appendsOf g (c.wire i j) := by
    intro i j
    rw [hsends.appendsOf_wire, appendsOf_pop g hw i j]
    simp [appendOf, appendsOf]
  have hacks : ∀ i j, acksOf g (c.wire i j) =
      (if i = src ∧ j = owner gid ∧ g = gid then [(msg.success, msg.index)] else []) ++
        acksOf g (c'.wire i j) := by
    intro i j
    have hsame : acksOf g (c'.wire i j) = acksOf g (Linked.pop c.wire src (owner gid) i j) := by
      rw [hsends.acksOf_wire]
      simp [acksOf]
    rw [hsame, acksOf_pop g hw, ackOf, hgid]
    by_cases hg : g = gid
    · subst hg
      by_cases hij : i = src ∧ j = owner g
      · simp [hij]
      · rw [if_neg hij, if_neg fun heq => hij ⟨heq.1, heq.2.1⟩]
    · have hne : gid.val ≠ g := fun heq => hg (Fin.ext heq.symm)
      simp [hg, hne]
  by_cases hg : g = gid
  · subst hg
    rw [hsends.group]
    refine ⟨_, q.ack (h.cluster.groups g) hsrc hcall
      (by rw [hacks, if_pos ⟨rfl, rfl, rfl⟩]; rfl) (fun i j hij => ?_) happends⟩
    rw [hacks, if_neg fun heq => hij ⟨heq.1, heq.2.1⟩]
    rfl
  · rw [hsends.others g hg]
    refine ⟨_, q.same happends fun i j => ?_⟩
    rw [hacks, if_neg fun heq => hg heq.2.2]
    rfl

/-- INTERNAL: the events that match an accepted one are accepted. -/
theorem accepted_of_matched {event : LinkedEvent n τ} {events : List (ClusterEvent n τ)}
    (haccepted : FromOutside (Accepted unpack fits owner) event)
    (hmatch : events.filterMap ClusterEvent.fromOutside =
      (LinkedEvent.fromOutside event).toList) :
    ∀ e ∈ events, Accepted unpack fits owner e := by
  intro e he
  have hout : ∀ x, ClusterEvent.fromOutside e = some x → Accepted unpack fits owner x := by
    intro x hx
    have hmem : x ∈ events.filterMap ClusterEvent.fromOutside :=
      List.mem_filterMap.mpr ⟨e, he, hx⟩
    rw [hmatch, Option.mem_toList] at hmem
    exact haccepted x hmem
  cases e with
  | client r msg tr => exact hout _ rfl
  | getGuidance r tr => trivial
  | peer k => trivial
  | lose k => trivial

/-- INTERNAL: the groups after an event, which is an induction step of `LinkedOk`. -/
theorem LinkedOk.step_groups {c c' : Linked n τ} {d : Cluster n τ} {event : LinkedEvent n τ}
    {out : List (Fin n × Effect n τ)} (h : LinkedOk unpack fits owner c d) (hn : 2 ≤ n)
    (haccepted : FromOutside (Accepted unpack fits owner) event)
    (hstep : Linked.step unpack c event = .ok (c', out)) :
    (∀ i j, ∀ p ∈ c'.wire i j, SentBy i p) ∧
    ∀ g, ∃ counted, InOrder (owner g) g (fun i => (c'.replicas i).smrs g) c'.wire counted := by
  cases event with
  | client r msg tr =>
    rcases h.client (haccepted _ rfl) hstep with
      ⟨-, hwire, hsmrs⟩ | ⟨-, gid, s, cbs, idx, -, hr, hcall, hsends⟩
    · rw [hwire]
      exact ⟨h.senders, fun g => by rw [hsmrs]; exact h.groups g⟩
    · exact h.client_groups hn hr hcall hsends
  | getGuidance r tr =>
    cases hstep
    exact ⟨h.senders, h.groups⟩
  | arrive src dst =>
    cases hw : c.wire src dst with
    | nil =>
      simp only [Linked.step, hw] at hstep
      cases hstep
      exact ⟨h.senders, h.groups⟩
    | cons p rest =>
      simp only [Linked.step, hw] at hstep
      obtain ⟨⟨m, effects⟩, hhandle, hstep⟩ := bind_eq_ok.mp hstep
      obtain ⟨c₁, hfinish, heq⟩ := bind_eq_ok.mp hstep
      cases heq
      have hleft : ∀ i j, ∀ q ∈ Linked.pop c.wire src dst i j, SentBy i q :=
        fun i j q hq => h.senders i j q (mem_of_mem_pop hq)
      cases p with
      | guidance msg dst' =>
        have hmem : .guidance msg dst' ∈ c.wire src dst := by
          rw [hw]
          exact List.mem_cons_self
        obtain ⟨gid, hgid⟩ := h.cluster.wire _ (h.network.wire src dst _ hmem).1
        exact hgid.elim
      | append msg dst' =>
        obtain ⟨gid, s, ack, hsrc, hdst, hgid, hgrow, hfrom, hackgid, hsuccess, hindex, hsends⟩ :=
          h.readAppend hw hhandle hfinish
        refine ⟨hsends.senders hleft ?_, h.append_groups hw hsrc hdst hgid hgrow hackgid hsuccess
          hindex hsends⟩
        intro q hq
        rw [List.mem_singleton] at hq
        subst hq
        exact hfrom
      | appendReply msg dst' =>
        obtain ⟨⟨m₁, queued⟩, hcount, hrest⟩ := bind_eq_ok.mp hhandle
        obtain ⟨⟨m₂, answers⟩, happly, heq⟩ := bind_eq_ok.mp hrest
        cases heq
        obtain ⟨gid, s, cbs, hdst, hsrc, hgid, hcall, hsends⟩ :=
          h.readAck hw hcount happly hfinish
        exact ⟨hsends.senders hleft fun q hq => absurd hq List.not_mem_nil,
          h.ack_groups hw hdst hsrc hgid hcall hsends⟩

/-- **Each event over streams keeps the invariant**, and is matched by accepted events of the
cluster with the same effects. -/
theorem LinkedOk.step {c c' : Linked n τ} {d : Cluster n τ} {event : LinkedEvent n τ}
    {out : List (Fin n × Effect n τ)} (h : LinkedOk unpack fits owner c d) (hn : 2 ≤ n)
    (haccepted : FromOutside (Accepted unpack fits owner) event)
    (hstep : Linked.step unpack c event = .ok (c', out)) :
    ∃ events d', (∀ e ∈ events, Accepted unpack fits owner e) ∧
      Machine.run (Cluster.step unpack) d events = .ok (d', out) ∧
      LinkedOk unpack fits owner c' d' := by
  obtain ⟨events, d', hmatch, hrun, hon⟩ := h.network.step hstep
  have hall := accepted_of_matched haccepted hmatch
  obtain ⟨hsenders, hgroups⟩ := h.step_groups hn haccepted hstep
  refine ⟨events, d', hall, hrun, hon, ?_, hsenders, hgroups⟩
  exact Machine.run_invariant (Cluster.step unpack) (h := [])
    (G := fun _ e => Accepted unpack fits owner e)
    (I := fun d _ => ClusterOk unpack fits owner d)
    (fun _ _ _ _ _ hc ha hs => (cluster_step_keeps hc ha hs).1)
    h.cluster (Machine.guarded_of_forall _ (fun e he _ => hall e he) _) hrun

/-- INTERNAL: the end of a callback returns over streams when it does over the network.
SOURCE: core/morphling.cpp:206-231 -/
theorem linked_finish_ok {c : Linked n τ} {d d' : Cluster n τ} {r : Fin n} {m : Morphling n τ}
    (h : d.finish r m = .ok d') : ∃ c', c.finish r m = .ok c' := by
  obtain ⟨⟨m', sent⟩, hbcast, -⟩ := bind_eq_ok.mp h
  exact ⟨_, by rw [Linked.finish, hbcast, ok_bind]⟩

/-- The event brings an operation to be replicated to the group. -/
def Brings (unpack : Bytes → Option Operation) (gid : Fin defaultKeySpace)
    (event : LinkedEvent n τ) : Bool :=
  (LinkedEvent.fromOutside event).any (Replicates unpack gid)

/-- **Each accepted event over streams returns**, when the log of the owner has room for what it
brings. -/
theorem LinkedOk.returns {c : Linked n τ} {d : Cluster n τ} {event : LinkedEvent n τ}
    (h : LinkedOk unpack fits owner c d)
    (haccepted : FromOutside (Accepted unpack fits owner) event)
    (room : ∀ gid, Brings unpack gid event = true →
      ((c.replicas (owner gid)).smrs gid).log.log.length < reservedEntries) :
    ∃ c' out, Linked.step unpack c event = .ok (c', out) := by
  obtain ⟨replicas, network⟩ := d
  obtain rfl : c.replicas = replicas := h.network.replicas
  cases event with
  | client r msg tr =>
    obtain ⟨d', out, hstep, -⟩ := cluster_step h.cluster (haccepted _ rfl) room
    obtain ⟨⟨m, effects⟩, hhandle, hstep⟩ := bind_eq_ok.mp hstep
    obtain ⟨d₁, hfinish, -⟩ := bind_eq_ok.mp hstep
    obtain ⟨c', hfinish'⟩ := linked_finish_ok (c := c) hfinish
    dsimp only at hhandle
    exact ⟨c', effects.map (r, ·), by simp only [Linked.step, hhandle, ok_bind, hfinish']⟩
  | getGuidance r tr => exact ⟨c, _, rfl⟩
  | arrive src dst =>
    cases hw : c.wire src dst with
    | nil => exact ⟨c, [], by simp only [Linked.step, hw]⟩
    | cons p rest =>
      obtain ⟨hnet, hdst⟩ := h.network.wire src dst p (by rw [hw]; exact List.mem_cons_self)
      obtain ⟨k, hk⟩ := List.mem_iff_getElem?.mp hnet
      have haccept : Accepted unpack fits owner (.peer k : ClusterEvent n τ) := trivial
      obtain ⟨d', out, hstep, -⟩ := cluster_step h.cluster haccept
        fun _ hbrings => absurd hbrings Bool.false_ne_true
      have hlt : p.dst < n := hdst ▸ dst.isLt
      have hfin : (⟨p.dst, hlt⟩ : Fin n) = dst := Fin.ext hdst
      simp only [Cluster.step, hk, hlt, dif_pos, hfin] at hstep
      obtain ⟨⟨m, effects⟩, hhandle, hstep⟩ := bind_eq_ok.mp hstep
      obtain ⟨d₁, hfinish, -⟩ := bind_eq_ok.mp hstep
      obtain ⟨c', hfinish'⟩ := linked_finish_ok
        (c := { c with wire := Linked.pop c.wire src dst }) hfinish
      exact ⟨c', effects.map (dst, ·),
        by simp only [Linked.step, hw, hhandle, ok_bind, hfinish']⟩

end MorphlingC.Analysis
