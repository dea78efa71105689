import MorphlingC.Analysis.LinkedRuns
import MorphlingC.Interface.StoreService

/-!
# The servers are a store with a queue

To clients whose operations are all on the keys of one group, and all reach the owner of the
group, the servers are what `StoreService` is: one store, and one queue in front of it, in the
order in which the operations have come (`servers_refine_service`).  What the replicas
send each other only decides how far the queue has advanced.

`Serves` relates the two: the store is the storage of the owner, and the queue is made of the
entries that are not committed, each with the client that waits under its number.
-/

set_option autoImplicit false

namespace MorphlingC.Analysis

open MorphlingC.Library MorphlingC.Model MorphlingC.Interface MorphlingC.Model.Morphling

variable {n : ℕ} {κ : Type} {unpack : Bytes → Option Operation}
  {owner : Fin defaultKeySpace → Fin n} {gid : Fin defaultKeySpace}

/-! ## The relation -/

/-- The operations are those of one group. -/
def OfGroup (gid : Fin defaultKeySpace) (g : Fin defaultKeySpace) (_ : Operation) : Prop := g = gid

/-- The entries of a group that are not committed, each with the client that waits under its
number and the operation it is. -/
def waiting (unpack : Bytes → Option Operation) (gid : Fin defaultKeySpace) (m : Morphling n κ) :
    List (Option κ × Option Operation) :=
  ((m.smrs gid).log.log.drop (m.smrs gid).log.commits).map fun e =>
    (m.clientPendings e.index, unpack e.data)

/-- **The servers are the service**: the store is that of the owner, and its queue holds what
the owner has not committed. -/
structure Serves (unpack : Bytes → Option Operation) (owner : Fin defaultKeySpace → Fin n)
    (gid : Fin defaultKeySpace) (c : Linked n κ) (v : StoreService κ) : Prop where
  linked : ∃ d, LinkedOk unpack (OfGroup gid) owner c d
  guides : ∀ i, (c.replicas i).guide = Guidance.initLocalGuidance {}
  store : (c.replicas (owner gid)).storage = v.store
  queue : waiting unpack gid (c.replicas (owner gid)) =
    v.queue.map fun q => (some q.1, some q.2)

/-- INTERNAL: fresh replicas are an empty store without a queue. -/
theorem Serves.init (unpack : Bytes → Option Operation) (owner : Fin defaultKeySpace → Fin n)
    (gid : Fin defaultKeySpace) : Serves unpack owner gid (Linked.init n κ) {} where
  linked := ⟨_, LinkedOk.init unpack (OfGroup gid) owner⟩
  guides := fun _ => rfl
  store := rfl
  queue := rfl

/-- A client's operation is on a key of the group, reaches the owner, and decodes. -/
def AtStore (unpack : Bytes → Option Operation) (owner : Fin defaultKeySpace → Fin n)
    (gid : Fin defaultKeySpace) : LinkedEvent n κ → Prop
  | .client r msg _ => r = owner gid ∧ findTargetSmr msg.keyHash = gid ∧
      ∃ op, unpack msg.op = some op ∧ op.keyHash = msg.keyHash
  | .getGuidance _ _ => True
  | .arrive _ _ => True

/-- INTERNAL: such events are accepted. -/
theorem AtStore.accepted {event : LinkedEvent n κ} (h : AtStore unpack owner gid event) :
    FromOutside (Accepted unpack (OfGroup gid) owner) event := by
  intro e he
  cases event with
  | client r msg tr =>
    cases he
    obtain ⟨hr, hkey, op, hop, -⟩ := h
    exact fun _ => ⟨op, hop, fun _ => ⟨by rw [hkey]; exact hr, hkey⟩⟩
  | getGuidance r tr =>
    cases he
    trivial
  | arrive src dst => cases he

/-- What the effect tells a client comes with the guidance that all replicas have, and if it
is the answer to an operation, from the replica `o`. -/
def GuidedAt (o : Fin n) (e : Fin n × Effect n κ) : Prop :=
  match e.2 with
  | .created _ _ _ => True
  | .queued _ _ => True
  | .answered _ _ reply => e.1 = o ∧ reply.guidance = Guidance.initLocalGuidance {}
  | .read _ reply => e.1 = o ∧ reply.guidance = Guidance.initLocalGuidance {}
  | .guidance _ msg => msg.guide = Guidance.initLocalGuidance {}

/-! ## What the calls leave as it is -/

/-- INTERNAL: a replica after the end of its callback. SOURCE: core/morphling.cpp:206-231 -/
theorem finish_replicas {c c' : Linked n κ} {wire : Fin n → Fin n → List (GenericMessage n)}
    {r : Fin n} {m : Morphling n κ} (h : Linked.finish { c with wire := wire } r m = .ok c') :
    c'.replicas = Function.update c.replicas r { m with nextMsgs := [] } := by
  obtain ⟨⟨m', sent⟩, hbcast, heq⟩ := bind_eq_ok.mp h
  cases heq
  obtain ⟨sent', -, hsent⟩ := bind_eq_ok.mp hbcast
  cases hsent
  rfl

/-- INTERNAL: **a callback that keeps the guidance, and at the owner of the group the relation,
keeps the relation.** -/
theorem Serves.after {c c' : Linked n κ} {v v' : StoreService κ} {r : Fin n} {m : Morphling n κ}
    (h : Serves unpack owner gid c v) (hlinked : ∃ d, LinkedOk unpack (OfGroup gid) owner c' d)
    (hreplicas : c'.replicas = Function.update c.replicas r { m with nextMsgs := [] })
    (hguide : m.guide = (c.replicas r).guide)
    (howner : r = owner gid → m.storage = v'.store ∧
      waiting unpack gid m = v'.queue.map fun q => (some q.1, some q.2))
    (hother : r ≠ owner gid → v' = v) : Serves unpack owner gid c' v' := by
  have hguides : ∀ i, (c'.replicas i).guide = Guidance.initLocalGuidance {} := by
    intro i
    rw [hreplicas]
    by_cases hi : i = r
    · subst hi
      rw [Function.update_self]
      exact hguide.trans (h.guides i)
    · rw [Function.update_of_ne hi]
      exact h.guides i
  by_cases hr : r = owner gid
  · obtain ⟨hstore, hqueue⟩ := howner hr
    subst hr
    refine ⟨hlinked, hguides, ?_, ?_⟩
    · rw [hreplicas, Function.update_self]
      exact hstore
    · rw [hreplicas, Function.update_self]
      exact hqueue
  · rw [hother hr]
    refine ⟨hlinked, hguides, ?_, ?_⟩
    · rw [hreplicas, Function.update_of_ne (Ne.symm hr)]
      exact h.store
    · rw [hreplicas, Function.update_of_ne (Ne.symm hr)]
      exact h.queue

/-- INTERNAL: callbacks tell clients nothing. SOURCE: core/morphling.cpp:12-26 -/
theorem callbacks_tell_nothing (r : Fin n) (g : ℕ) (cbs : List Callback) :
    repliesOf ((cbs.filterMap (Callback.effect n κ g)).map (r, ·)) = [] ∧
      ∀ o, ∀ e ∈ (cbs.filterMap (Callback.effect n κ g)).map (r, ·), GuidedAt o e := by
  have hall : ∀ e ∈ cbs.filterMap (Callback.effect n κ g), ∃ g' es, e = .queued g' es := by
    intro e he
    obtain ⟨cb, -, hcb⟩ := List.mem_filterMap.mp he
    cases cb with
    | notifySendAppendEntry msg dst => cases hcb
    | notifySendAppendEntryReply msg dst => cases hcb
    | notifyApply entries =>
      cases hcb
      exact ⟨_, _, rfl⟩
  constructor
  · rw [repliesOf_map, List.filterMap_eq_nil_iff]
    intro e he
    obtain ⟨g', es, rfl⟩ := hall e he
    rfl
  · intro o e he
    obtain ⟨e', he', rfl⟩ := List.mem_map.mp he
    obtain ⟨g', es, rfl⟩ := hall e' he'
    trivial

/-- INTERNAL: **applying entries is doing the operations that wait**: the storage and the
answers are those of the service. SOURCE: core/morphling.cpp:186-204 -/
theorem applyAll_executes {entries : List Entry} {m m' : Morphling n κ} {outs : List (Effect n κ)}
    {ops : List (κ × Operation)} (h : applyAll unpack entries m = .ok (m', outs))
    (hops : entries.map (fun e => (m.clientPendings e.index, unpack e.data)) =
      ops.map fun q => (some q.1, some q.2)) :
    m'.storage = (Atomic.executeAll execute m.storage ops).1 ∧
      outs.filterMap replyOf = (Atomic.executeAll execute m.storage ops).2 ∧
      ∀ e ∈ outs, ∃ entry tr reply, e = .answered entry tr reply ∧ reply.guidance = m.guide := by
  induction entries generalizing m m' outs ops with
  | nil =>
    cases h
    obtain rfl : ops = [] := List.map_eq_nil_iff.mp hops.symm
    exact ⟨rfl, rfl, fun _ he => absurd he List.not_mem_nil⟩
  | cons e rest ih =>
    cases ops with
    | nil => cases hops
    | cons q ops =>
      obtain ⟨k, op⟩ := q
      simp only [List.map_cons, List.cons.injEq, Prod.mk.injEq] at hops
      obtain ⟨⟨hpend, hop⟩, hrest⟩ := hops
      unfold applyAll at h
      obtain ⟨⟨m₁, answer⟩, hone, h⟩ := bind_eq_ok.mp h
      obtain ⟨⟨m₂, others⟩, hothers, h⟩ := bind_eq_ok.mp h
      cases h
      unfold applyEntry parseOperation at hone
      by_cases hwrite : op.opType = 1
      · simp only [hop, ok_bind, hwrite, if_true, hpend, Except.ok.injEq, Prod.mk.injEq] at hone
        obtain ⟨rfl, rfl⟩ := hone
        obtain ⟨hstorage, hreplies, hall⟩ := ih hothers hrest
        refine ⟨?_, ?_, ?_⟩
        · rw [hstorage, Atomic.executeAll]
          simp only [execute, hwrite, if_true]
        · simp only [List.filterMap_cons, replyOf, hreplies, Atomic.executeAll, execute, hwrite,
            if_true]
        · intro e' he'
          rcases List.mem_cons.mp he' with rfl | hlater
          · exact ⟨_, _, _, rfl, rfl⟩
          · exact hall e' hlater
      · simp only [hop, ok_bind, hwrite, if_false, hpend, Except.ok.injEq, Prod.mk.injEq] at hone
        obtain ⟨rfl, rfl⟩ := hone
        obtain ⟨hstorage, hreplies, hall⟩ := ih hothers hrest
        refine ⟨?_, ?_, ?_⟩
        · rw [hstorage, Atomic.executeAll]
          simp only [execute, hwrite, if_false]
        · simp only [List.filterMap_cons, replyOf, hreplies, Atomic.executeAll, execute, hwrite,
            if_false]
        · intro e' he'
          rcases List.mem_cons.mp he' with rfl | hlater
          · exact ⟨_, _, _, rfl, rfl⟩
          · exact hall e' hlater

/-! ## The callbacks of the owner -/

/-- The replica has the store of the service, and the operations that wait in its log. -/
structure Holds (unpack : Bytes → Option Operation) (gid : Fin defaultKeySpace)
    (m : Morphling n κ) (v : StoreService κ) : Prop where
  store : m.storage = v.store
  queue : waiting unpack gid m = v.queue.map fun q => (some q.1, some q.2)

/-- INTERNAL: **a client's operation is submitted to the service.**
SOURCE: core/morphling.cpp:103-126 -/
theorem Holds.operation {m m' : Morphling n κ} {v : StoreService κ} {msg : ClientMessage} {k : κ}
    {op : Operation} {effects : List (Effect n κ)} (h : Holds unpack gid m v)
    (hguide : m.guide = Guidance.initLocalGuidance {})
    (hbounded : (m.smrs gid).log.commits ≤ (m.smrs gid).log.log.length)
    (hkey : findTargetSmr msg.keyHash = gid) (hepoch : msg.epoch = 1)
    (hop : unpack msg.op = some op) (hopkey : op.keyHash = msg.keyHash)
    (hhandle : m.handleOperation unpack msg k = .ok (m', effects)) (o : Fin n) :
    m'.guide = m.guide ∧
      (∃ v', StoreService.step v (.submit k op) = .ok (v', repliesOf (effects.map (o, ·))) ∧
        Holds unpack gid m' v') ∧ ∀ e ∈ effects.map (o, ·), GuidedAt o e := by
  rcases handleOperation_cases hhandle with ⟨hother, -⟩ | ⟨-, op₁, hop₁, hcase⟩
  · rw [hguide, hepoch] at hother
    exact absurd rfl hother
  obtain rfl : op = op₁ := Option.some.inj (hop.symm.trans hop₁)
  rcases hcase with ⟨hread, rfl, rfl⟩ | ⟨htype, s, cbs, idx, hcall, rfl, rfl⟩
  · -- a read changes nothing
    refine ⟨rfl, ⟨v, ?_, h⟩, ?_⟩
    · rw [StoreService.step, if_pos hread]
      simp [repliesOf, replyOf, hopkey, h.store]
    · intro e he
      rw [List.map_singleton, List.mem_singleton] at he
      subst he
      exact ⟨rfl, hguide⟩
  · obtain ⟨hidx, hlog, hcommits, -⟩ := handleOperation_ok hcall
    rw [hkey] at hlog hcommits hidx
    rw [hkey]
    refine ⟨rfl, ⟨{ v with queue := v.queue ++ [(k, op)] }, ?_, h.store, ?_⟩, ?_⟩
    · rw [StoreService.step, if_neg htype]
      rfl
    · -- the new entry is at the end, under a number of its own
      have hold := h.queue
      rw [waiting] at hold ⊢
      simp only [afterCall, Function.update_self, hlog, hcommits]
      rw [List.drop_append_of_le_length hbounded, List.map_append, List.map_append, ← hold]
      congr 1
      · apply List.map_congr_left
        intro e he
        have hindex := (m.smrs gid).log.index_of_mem (List.mem_of_mem_drop he)
        rw [Function.update_of_ne (by omega)]
      · simp [hop]
    · intro e he
      rw [List.map_singleton, List.mem_singleton] at he
      subst he
      trivial

/-- INTERNAL: **an acknowledgement lets the queue advance by what it commits.**
SOURCE: core/morphling.cpp:139-147, 186-204; core/smr.cpp:252-268 -/
theorem Holds.ack {m m' m'' : Morphling n κ} {v : StoreService κ}
    {msg : AppenEntriesReplyMessage} {queued told : List (Effect n κ)}
    (h : Holds unpack gid m v) (hguide : m.guide = Guidance.initLocalGuidance {})
    (happlied : m.applyEntries = []) (hgid : msg.groupId = gid) (hepoch : msg.epoch = 1)
    (hcount : m.handleAppendEntriesReply msg msg.fromId = .ok (m', queued))
    (happly : m'.maybeApply unpack = .ok (m'', told)) (o : Fin n) :
    m''.guide = m.guide ∧
      (∃ count v', StoreService.step v (.advance count) =
          .ok (v', repliesOf ((queued ++ told).map (o, ·))) ∧ Holds unpack gid m'' v') ∧
      ∀ e ∈ (queued ++ told).map (o, ·), GuidedAt o e := by
  rcases handleAck_cases hcount with ⟨hother, -⟩ | ⟨-, g, s, cbs, hg, hcall, rfl, rfl⟩
  · rw [hguide, hepoch] at hother
    exact absurd rfl hother
  obtain rfl : g = gid := Fin.ext (hg.symm.trans hgid)
  obtain ⟨hlog, hle, -, hentries⟩ := handleReply_applied hcall
  -- what is applied is the front of what waits
  obtain ⟨⟨m₁, outs⟩, hall, heq⟩ := bind_eq_ok.mp happly
  cases heq
  have hfront : (afterCall m g s cbs).applyEntries =
      ((m.smrs g).log.log.drop (m.smrs g).log.commits).take
        (s.log.commits - (m.smrs g).log.commits) := by
    simp only [afterCall, happlied, List.nil_append, hentries, List.drop_take]
  rw [hfront] at hall
  obtain ⟨hm₁, -⟩ := applyAll_ok hall
  have hops : (((m.smrs g).log.log.drop (m.smrs g).log.commits).take
        (s.log.commits - (m.smrs g).log.commits)).map
          (fun e => (m.clientPendings e.index, unpack e.data)) =
      (v.queue.take (s.log.commits - (m.smrs g).log.commits)).map
        fun q => (some q.1, some q.2) := by
    rw [List.map_take, List.map_take, ← h.queue]
    rfl
  obtain ⟨hstorage, hreplies, htold⟩ := applyAll_executes hall hops
  obtain ⟨hquiet, hguided⟩ := callbacks_tell_nothing (κ := κ) o g cbs
  have hstore : (afterCall m g s cbs).storage = v.store := h.store
  rw [hstore] at hstorage hreplies
  refine ⟨by rw [hm₁]; rfl, ⟨s.log.commits - (m.smrs g).log.commits,
    { store := m₁.storage
      queue := v.queue.drop (s.log.commits - (m.smrs g).log.commits) }, ?_, rfl, ?_⟩, ?_⟩
  · rw [List.map_append, repliesOf_append, hquiet, List.nil_append, repliesOf_map, hreplies,
      hstorage]
    rfl
  · rw [List.map_drop, ← h.queue, waiting, waiting, hm₁]
    simp only [afterCall, Function.update_self, hlog]
    rw [← List.map_drop, List.drop_drop, Nat.add_sub_cancel' hle]
  · intro e he
    rw [List.map_append] at he
    rcases List.mem_append.mp he with hq | ht
    · exact hguided o e hq
    · obtain ⟨e', he', rfl⟩ := List.mem_map.mp ht
      obtain ⟨entry, tr, reply, rfl, hfrom⟩ := htold e' he'
      exact ⟨rfl, hfrom.trans hguide⟩

/-! ## Each event is one of the service -/

/-- INTERNAL: **a client's operation is submitted to the service.**
SOURCE: core/morphling.cpp:103-126; app/server.cpp:158-171 -/
theorem Serves.submit {c c' : Linked n κ} {v : StoreService κ} {r : Fin n} {msg : ClientMessage}
    {k : κ} {op : Operation} {out : List (Fin n × Effect n κ)} (h : Serves unpack owner gid c v)
    (hn : 2 ≤ n) (hat : AtStore unpack owner gid (.client r msg k : LinkedEvent n κ))
    (hepoch : msg.epoch = 1) (hop : unpack msg.op = some op)
    (hstep : Linked.step unpack c (.client r msg k) = .ok (c', out)) :
    ∃ v', StoreService.step v (.submit k op) = .ok (v', repliesOf out) ∧
      Serves unpack owner gid c' v' ∧ ∀ e ∈ out, GuidedAt (owner gid) e := by
  obtain ⟨d, hok⟩ := h.linked
  obtain ⟨-, d', -, -, hok'⟩ := hok.step hn hat.accepted hstep
  obtain ⟨rfl, hkey, op', hop', hopkey⟩ := hat
  obtain rfl : op = op' := Option.some.inj (hop.symm.trans hop')
  obtain ⟨⟨m, effects⟩, hhandle, hstep⟩ := bind_eq_ok.mp hstep
  obtain ⟨c₁, hfinish, heq⟩ := bind_eq_ok.mp hstep
  cases heq
  have hbounded := (hok.cluster.groups gid).bounded (owner gid)
  rw [← hok.network.replicas] at hbounded
  obtain ⟨hguide, ⟨v', hsubmit, hholds⟩, hguided⟩ := Holds.operation ⟨h.store, h.queue⟩
    (h.guides (owner gid)) hbounded hkey hepoch hop hopkey hhandle (owner gid)
  exact ⟨v', hsubmit, h.after ⟨d', hok'⟩ (finish_replicas hfinish) hguide
    (fun _ => ⟨hholds.store, hholds.queue⟩) fun hne => absurd rfl hne, hguided⟩

/-- INTERNAL: **an append that is read does nothing to the service.**
SOURCE: core/morphling.cpp:128-136; app/server.cpp:202-228 -/
theorem Serves.append {c c' : Linked n κ} {d d' : Cluster n κ} {v : StoreService κ}
    {src dst : Fin n} {msg : AppendEntriesMessage} {dst' : ℕ} {rest : List (GenericMessage n)}
    {m : Morphling n κ} {effects : List (Effect n κ)} (h : Serves unpack owner gid c v)
    (hok : LinkedOk unpack (OfGroup gid) owner c d)
    (hok' : LinkedOk unpack (OfGroup gid) owner c' d')
    (hw : c.wire src dst = .append msg dst' :: rest)
    (hhandle : (c.replicas dst).handleAppendEntries msg msg.fromId = .ok (m, effects))
    (hfinish : Linked.finish { c with wire := Linked.pop c.wire src dst } dst m = .ok c') :
    repliesOf (effects.map (dst, ·)) = [] ∧ Serves unpack owner gid c' v ∧
      ∀ e ∈ effects.map (dst, ·), GuidedAt (owner gid) e := by
  obtain ⟨g, s, -, -, hdst, hgid, -⟩ := hok.readAppend hw hhandle hfinish
  have hreplicas : c'.replicas = Function.update c.replicas dst { m with nextMsgs := [] } :=
    finish_replicas hfinish
  rcases handleAppend_cases hhandle with ⟨-, rfl, rfl⟩ | ⟨-, g', s', cbs, hgid', hcall, rfl, rfl⟩
  · exact ⟨rfl, h.after ⟨d', hok'⟩ hreplicas rfl
      (fun hr => by subst hr; exact ⟨h.store, h.queue⟩) fun _ => rfl,
      fun _ he => absurd he List.not_mem_nil⟩
  · obtain ⟨hquiet, hguided⟩ := callbacks_tell_nothing (κ := κ) dst g' cbs
    refine ⟨hquiet, h.after ⟨d', hok'⟩ hreplicas rfl (fun hr => ?_) fun _ => rfl,
      hguided _⟩
    subst hr
    -- the owner of the group reads appends for other groups only
    have hne : gid ≠ g' := by
      rintro rfl
      obtain rfl : g = gid := Fin.ext (hgid.symm.trans hgid')
      exact hdst rfl
    refine ⟨h.store, ?_⟩
    rw [← h.queue, waiting, waiting]
    simp only [afterCall, Function.update_of_ne hne]

/-- INTERNAL: only the one group has entries, so only it has acknowledgements. -/
theorem Serves.ack_group {c : Linked n κ} {d : Cluster n κ} {src dst : Fin n}
    {msg : AppenEntriesReplyMessage} {dst' : ℕ} {rest : List (GenericMessage n)}
    {g : Fin defaultKeySpace} (hok : LinkedOk unpack (OfGroup gid) owner c d)
    (hw : c.wire src dst = .appendReply msg dst' :: rest) (hgid : msg.groupId = g) :
    g = gid := by
  obtain ⟨counted, q⟩ := hok.groups g
  have hnext : acksOf g (c.wire src dst) =
      (msg.success, msg.index) :: acksOf g (Linked.pop c.wire src dst src dst) := by
    rw [acksOf_pop g hw, if_pos ⟨rfl, rfl⟩]
    simp [ackOf, hgid]
  obtain ⟨-, -, hle, -⟩ := q.next_ack hnext
  have hprefix := ((hok.cluster.groups g).isPrefix src).length_le
  rw [hok.network.replicas] at hle
  obtain ⟨e, he⟩ := List.exists_mem_of_length_pos
    (show 0 < ((d.replicas (owner g)).smrs g).log.log.length by omega)
  obtain ⟨op, -, hg⟩ := hok.cluster.decodes g e he
  exact hg

/-- INTERNAL: **an acknowledgement that is read lets the queue advance by what it commits.**
SOURCE: core/morphling.cpp:139-147, 186-204; core/smr.cpp:252-268 -/
theorem Serves.ack {c c' : Linked n κ} {d d' : Cluster n κ} {v : StoreService κ}
    {src dst : Fin n} {msg : AppenEntriesReplyMessage} {dst' : ℕ}
    {rest : List (GenericMessage n)} {m m' : Morphling n κ} {queued told : List (Effect n κ)}
    (h : Serves unpack owner gid c v) (hok : LinkedOk unpack (OfGroup gid) owner c d)
    (hok' : LinkedOk unpack (OfGroup gid) owner c' d')
    (hw : c.wire src dst = .appendReply msg dst' :: rest)
    (hcount : (c.replicas dst).handleAppendEntriesReply msg msg.fromId = .ok (m, queued))
    (happly : m.maybeApply unpack = .ok (m', told))
    (hfinish : Linked.finish { c with wire := Linked.pop c.wire src dst } dst m' = .ok c') :
    ∃ count v', StoreService.step v (.advance count) =
        .ok (v', repliesOf ((queued ++ told).map (dst, ·))) ∧
      Serves unpack owner gid c' v' ∧
      ∀ e ∈ (queued ++ told).map (dst, ·), GuidedAt (owner gid) e := by
  obtain ⟨g, -, -, hdst, -, hgid, -⟩ := hok.readAck hw hcount happly hfinish
  obtain rfl : g = gid := Serves.ack_group hok hw hgid
  subst hdst
  have happlied : (c.replicas (owner g)).applyEntries = [] := by
    rw [hok.network.replicas]
    exact hok.cluster.applied _
  have hmem : .appendReply msg dst' ∈ c.wire src (owner g) := by
    rw [hw]
    exact List.mem_cons_self
  obtain ⟨-, -, hepoch⟩ := hok.cluster.wire _ (hok.network.wire src _ _ hmem).1
  obtain ⟨hguide, ⟨count, v', hadvance, hholds⟩, hguided⟩ := Holds.ack ⟨h.store, h.queue⟩
    (h.guides (owner g)) happlied hgid hepoch hcount happly (owner g)
  exact ⟨count, v', hadvance, h.after ⟨d', hok'⟩ (finish_replicas hfinish) hguide
    (fun _ => ⟨hholds.store, hholds.queue⟩) fun hne => absurd rfl hne, hguided⟩

/-- INTERNAL: **a message that is read lets the queue of the service advance.**
SOURCE: app/server.cpp:185-229 -/
theorem Serves.advance {c c' : Linked n κ} {v : StoreService κ} {src dst : Fin n}
    {out : List (Fin n × Effect n κ)} (h : Serves unpack owner gid c v) (hn : 2 ≤ n)
    (hstep : Linked.step unpack c (.arrive src dst) = .ok (c', out)) :
    ∃ count v', StoreService.step v (.advance count) = .ok (v', repliesOf out) ∧
      Serves unpack owner gid c' v' ∧ ∀ e ∈ out, GuidedAt (owner gid) e := by
  obtain ⟨d, hok⟩ := h.linked
  have hat : AtStore unpack owner gid (.arrive src dst : LinkedEvent n κ) := trivial
  obtain ⟨-, d', -, -, hok'⟩ := hok.step hn hat.accepted hstep
  cases hw : c.wire src dst with
  | nil =>
    simp only [Linked.step, hw] at hstep
    cases hstep
    exact ⟨0, v, rfl, h, fun _ he => absurd he List.not_mem_nil⟩
  | cons p rest =>
    simp only [Linked.step, hw] at hstep
    obtain ⟨⟨m, effects⟩, hhandle, hstep⟩ := bind_eq_ok.mp hstep
    obtain ⟨c₁, hfinish, heq⟩ := bind_eq_ok.mp hstep
    cases heq
    cases p with
    | guidance msg dst' =>
      have hmem : .guidance msg dst' ∈ c.wire src dst := by
        rw [hw]
        exact List.mem_cons_self
      obtain ⟨g, hg⟩ := hok.cluster.wire _ (hok.network.wire src dst _ hmem).1
      exact hg.elim
    | append msg dst' =>
      obtain ⟨hquiet, hserves, hguided⟩ := h.append hok hok' hw hhandle hfinish
      exact ⟨0, v, by rw [hquiet]; rfl, hserves, hguided⟩
    | appendReply msg dst' =>
      obtain ⟨⟨m₁, queued⟩, hcount, hrest⟩ := bind_eq_ok.mp hhandle
      obtain ⟨⟨m₂, told⟩, happly, heq⟩ := bind_eq_ok.mp hrest
      cases heq
      exact h.ack hok hok' hw hcount happly hfinish

/-- INTERNAL: a request for the guidance does nothing to the service.
SOURCE: core/morphling.cpp:157-163; app/server.cpp:172-178 -/
theorem Serves.getGuidance {c c' : Linked n κ} {v : StoreService κ} {r : Fin n} {k : κ}
    {out : List (Fin n × Effect n κ)} (h : Serves unpack owner gid c v)
    (hstep : Linked.step unpack c (.getGuidance r k) = .ok (c', out)) :
    c' = c ∧ out = [(r, .guidance k (c.replicas r).guidanceMsg)] ∧
      ∀ e ∈ out, GuidedAt (owner gid) e := by
  cases hstep
  refine ⟨rfl, rfl, fun e he => ?_⟩
  rw [replyGuidanceTo, List.map_singleton, List.mem_singleton] at he
  subst he
  exact h.guides r

/-- INTERNAL: an operation of another epoch is answered with the guidance.
SOURCE: core/morphling.cpp:104-107 -/
theorem Serves.otherEpoch {c c' : Linked n κ} {v : StoreService κ} {r : Fin n}
    {msg : ClientMessage} {k : κ} {out : List (Fin n × Effect n κ)}
    (h : Serves unpack owner gid c v) (hn : 2 ≤ n)
    (hat : AtStore unpack owner gid (.client r msg k : LinkedEvent n κ)) (hepoch : msg.epoch ≠ 1)
    (hstep : Linked.step unpack c (.client r msg k) = .ok (c', out)) :
    repliesOf out = [] ∧ Serves unpack owner gid c' v := by
  obtain ⟨d, hok⟩ := h.linked
  obtain ⟨-, d', -, -, hok'⟩ := hok.step hn hat.accepted hstep
  have hne : (c.replicas r).guide.epoch ≠ msg.epoch := by
    rw [h.guides]
    exact Ne.symm hepoch
  simp only [Linked.step, handleOperation_other_epoch k hne, ok_bind] at hstep
  obtain ⟨c₁, hfinish, heq⟩ := bind_eq_ok.mp hstep
  cases heq
  exact ⟨rfl, h.after ⟨d', hok'⟩ (finish_replicas hfinish) rfl
    (fun hr => by subst hr; exact ⟨h.store, h.queue⟩) fun _ => rfl⟩

/-! ## Runs -/

/-- The operation that the event submits, and whose it is. -/
def submission (unpack : Bytes → Option Operation) : LinkedEvent n κ → Option (κ × Operation)
  | .client _ msg k => if msg.epoch = 1 then (unpack msg.op).map (k, ·) else none
  | .getGuidance _ _ => none
  | .arrive _ _ => none

/-- The operation that the event of the service submits. -/
def submitted : ServiceEvent κ → Option (κ × Operation)
  | .submit k op => some (k, op)
  | .advance _ => none

/-- INTERNAL: **each event is a run of the service.** -/
theorem Serves.step {c c' : Linked n κ} {v : StoreService κ} {event : LinkedEvent n κ}
    {out : List (Fin n × Effect n κ)} (h : Serves unpack owner gid c v) (hn : 2 ≤ n)
    (hat : AtStore unpack owner gid event)
    (hstep : Linked.step unpack c event = .ok (c', out)) :
    ∃ js v', js.filterMap submitted = (submission unpack event).toList ∧
      Machine.run StoreService.step v js = .ok (v', repliesOf out) ∧
      Serves unpack owner gid c' v' := by
  cases event with
  | client r msg k =>
    by_cases hepoch : msg.epoch = 1
    · obtain ⟨-, -, op, hop, -⟩ := id hat
      obtain ⟨v', hv, hserves, -⟩ := h.submit hn hat hepoch hop hstep
      refine ⟨[.submit k op], v', ?_, Machine.run_singleton _ hv, hserves⟩
      simp [submission, submitted, hepoch, hop]
    · obtain ⟨hquiet, hserves⟩ := h.otherEpoch hn hat hepoch hstep
      refine ⟨[], v, ?_, by rw [hquiet]; rfl, hserves⟩
      simp [submission, hepoch]
  | getGuidance r k =>
    obtain ⟨rfl, rfl, -⟩ := h.getGuidance hstep
    exact ⟨[], v, rfl, rfl, h⟩
  | arrive src dst =>
    obtain ⟨count, v', hv, hserves, -⟩ := h.advance hn hstep
    exact ⟨[.advance count], v', rfl, Machine.run_singleton _ hv, hserves⟩

/-- INTERNAL: when the streams are empty, nothing waits. -/
theorem Serves.idle {c : Linked n κ} {v : StoreService κ} (h : Serves unpack owner gid c v)
    (hdrained : ∀ i j, c.wire i j = []) : v.queue = [] := by
  obtain ⟨d, hok⟩ := h.linked
  obtain ⟨counted, q⟩ := hok.groups gid
  have hgroup := hok.cluster.groups gid
  simp only [← hok.network.replicas] at hgroup
  obtain ⟨-, hall⟩ := q.complete hgroup (fun j => by rw [hdrained]; rfl)
    fun j => by rw [hdrained]; rfl
  have hqueue := h.queue
  rw [waiting, hall, List.drop_length, List.map_nil, eq_comm, List.map_eq_nil_iff] at hqueue
  exact hqueue

/-- INTERNAL: no other group is brought anything. -/
theorem broughtTo_other {g : Fin defaultKeySpace} (hne : g ≠ gid) {events : List (LinkedEvent n κ)}
    (hat : ∀ event ∈ events, AtStore unpack owner gid event) :
    events.flatMap (broughtTo unpack g) = [] := by
  rw [List.flatMap_eq_nil_iff]
  intro event he
  cases event with
  | client r msg k =>
    obtain ⟨-, hkey, -⟩ := hat _ he
    rw [broughtTo, if_neg fun h => hne (h.2.symm.trans hkey)]
  | getGuidance r k => rfl
  | arrive src dst => rfl

/-- **The servers are a store with a queue.**  For every run of two or more servers on their
connections, in which the operations of the clients are all on the keys of one group, decode,
and reach the owner of the group, whichever stream is read next: the run returns exactly when
at most 1000000 of the operations are replicated, and then there is a run of the service to
which the same operations are submitted in the same order, in which every client is told the
same in the same order, and whose queue is empty when the streams are.
SOURCE: core/smr.cpp:10, 30-45, 174-286; core/morphling.cpp:103-147, 165-231;
app/server.cpp:158-178, 185-229 -/
theorem servers_refine_service (unpack : Bytes → Option Operation)
    (owner : Fin defaultKeySpace → Fin n) (gid : Fin defaultKeySpace) (hn : 2 ≤ n)
    (events : List (LinkedEvent n κ)) (hat : ∀ event ∈ events, AtStore unpack owner gid event) :
    ((∃ c h, Machine.run (Linked.step unpack) (Linked.init n κ) events = .ok (c, h)) ↔
        (events.flatMap (broughtTo unpack gid)).length ≤ 1000000) ∧
    ∀ c h, Machine.run (Linked.step unpack) (Linked.init n κ) events = .ok (c, h) →
      ∃ js v, js.filterMap submitted = events.filterMap (submission unpack) ∧
        Machine.run StoreService.step {} js = .ok (v, repliesOf h) ∧
        ((∀ i j, c.wire i j = []) → v.queue = []) := by
  constructor
  · rw [linked_returns_iff hn fun e he => (hat e he).accepted]
    refine ⟨fun h => h gid, fun h g => ?_⟩
    by_cases hg : g = gid
    · rw [hg]
      exact h
    · rw [broughtTo_other hg hat]
      exact Nat.zero_le _
  · intro c h hrun
    obtain ⟨js, v, hsame, hservice, hserves⟩ := Machine.run_refines (Linked.step unpack)
      StoreService.step (G := fun _ e => AtStore unpack owner gid e) (f := submission unpack)
      (g := submitted) (p := fun e => replyOf e.2)
      (fun _ _ _ _ _ hR hG hs => hR.step hn hG hs)
      (Serves.init unpack owner gid) (Machine.guarded_of_forall _ (fun e he _ => hat e he) _) hrun
    exact ⟨js, v, hsame, hservice, hserves.idle⟩

/-- Two clients write to one key and one of them reads it, between the two acknowledgements. -/
theorem service_of_two_writes :
    let a : Bytes := [0x93, 1, 0xcd, 1, 0, 0xc4, 1, 7]
    let b : Bytes := [0x93, 1, 0xcd, 1, 0, 0xc4, 1, 8]
    let read : Bytes := [0x93, 0, 0xcd, 1, 0, 0xc4, 1, 0]
    let events : List (LinkedEvent 3 ℕ) :=
      [.client 0 ⟨1, 0x0100, a⟩ 10, .client 0 ⟨1, 0x0100, b⟩ 20, .arrive 0 1, .arrive 1 0,
        .client 0 ⟨1, 0x0100, read⟩ 10, .arrive 0 1, .arrive 1 0]
    ∃ (c : Linked 3 ℕ) (h : List (Fin 3 × Effect 3 ℕ)) (js : List (ServiceEvent ℕ))
      (v : StoreService ℕ),
      Machine.run (Linked.step unpackShort) (Linked.init 3 ℕ) events = .ok (c, h) ∧
      js.filterMap submitted = [(10, ⟨1, 0x0100, [7]⟩), (20, ⟨1, 0x0100, [8]⟩),
        (10, ⟨0, 0x0100, [0]⟩)] ∧
      Machine.run StoreService.step {} js = .ok (v, [(10, []), (10, [7]), (20, [])]) := by
  intro a b read events
  obtain ⟨hreturns, hall⟩ := servers_refine_service (n := 3) (κ := ℕ)
    unpackShort (fun _ => 0) ⟨1, by decide⟩ (by decide) events (by
      intro event he
      simp only [events, List.mem_cons, List.not_mem_nil, or_false] at he
      rcases he with rfl | rfl | rfl | rfl | rfl | rfl | rfl
      all_goals trivial)
  obtain ⟨c, h, hrun⟩ := hreturns.mpr (by
    have htwo : (events.flatMap (broughtTo unpackShort ⟨1, by decide⟩)).length = 2 := by
      decide +kernel
    rw [htwo]
    decide)
  obtain ⟨js, v, hsame, hservice, -⟩ := hall c h hrun
  refine ⟨c, h, js, v, hrun, hsame, ?_⟩
  have hreplies : (Machine.run (Linked.step unpackShort) (Linked.init 3 ℕ) events).toOption.map
      (fun r => repliesOf r.2) = some [(10, []), (10, [7]), (20, [])] := by decide +kernel
  rw [hrun] at hreplies
  rw [← Option.some.inj hreplies]
  exact hservice

end MorphlingC.Analysis
