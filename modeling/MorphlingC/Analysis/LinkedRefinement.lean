import MorphlingC.Analysis.ReplicaHandlers
import MorphlingC.Library.Schedules
import MorphlingC.Model.Linked

/-!
# Streams are one way of delivering messages

Whatever the servers do when each connection is a stream, they can do when messages are
delivered in any order, any number of times or not at all (`linked_refines`).  The network
of the second cluster holds every message ever sent, the streams those that are not read
yet.  So what is known of every run of `Cluster.step` is known of the servers on their
connections.
-/

set_option autoImplicit false

namespace MorphlingC.Analysis

open MorphlingC.Library MorphlingC.Model MorphlingC.Interface MorphlingC.Model.Morphling

variable {n : ℕ} {τ : Type} {unpack : Bytes → Option Operation}

/-- What comes from outside the servers, over streams. -/
def LinkedEvent.fromOutside : LinkedEvent n τ → Option (ClusterEvent n τ)
  | .client r msg tr => some (.client r msg tr)
  | .getGuidance r tr => some (.getGuidance r tr)
  | .arrive _ _ => none

/-- What comes from outside the servers. -/
def ClusterEvent.fromOutside : ClusterEvent n τ → Option (ClusterEvent n τ)
  | .client r msg tr => some (.client r msg tr)
  | .getGuidance r tr => some (.getGuidance r tr)
  | .peer _ => none
  | .lose _ => none

/-- The replicas are the same, and what is in a stream is on the network, for the replica
that the stream leads to. -/
structure OnNetwork (c : Linked n τ) (c' : Cluster n τ) : Prop where
  replicas : c.replicas = c'.replicas
  wire : ∀ i j, ∀ p ∈ c.wire i j, p ∈ c'.network ∧ p.dst = j

/-- INTERNAL: what the loop of `bcast_msgs` sends was queued, and goes on the transport of its
addressee. SOURCE: core/morphling.cpp:206-231 -/
theorem mem_sendAll {ρ : Type} {peersTrans : ℕ → Option ρ} {msgs : List (GenericMessage n)}
    {sent : List (ρ × GenericMessage n)} (h : sendAll peersTrans msgs = .ok sent) :
    ∀ s ∈ sent, s.2 ∈ msgs ∧ peersTrans s.2.dst = some s.1 := by
  induction msgs generalizing sent with
  | nil =>
    cases h
    exact fun s hs => absurd hs List.not_mem_nil
  | cons msg rest ih =>
    unfold sendAll at h
    obtain ⟨one, hone, h⟩ := bind_eq_ok.mp h
    obtain ⟨others, hothers, h⟩ := bind_eq_ok.mp h
    cases h
    intro s hs
    rcases List.mem_cons.mp hs with rfl | hs
    · unfold sendMsg at hone
      split at hone
      · cases hone
      · split at hone
        · cases hone
        · rename_i tr htr
          cases hone
          exact ⟨List.mem_cons_self, htr⟩
    · obtain ⟨hmem, htr⟩ := ih hothers s hs
      exact ⟨List.mem_cons_of_mem _ hmem, htr⟩

/-- INTERNAL: the transport of a peer is its number. -/
theorem eq_of_peerTrans {m : Morphling n τ} {id tr : ℕ} (h : Cluster.peerTrans m id = some tr) :
    tr = id := by
  unfold Cluster.peerTrans at h
  split at h
  · exact (Option.some.inj h).symm
  · cases h

/-- INTERNAL: what is in a stream after something is sent was there before, or was sent on
its transport. -/
theorem mem_put {wire : Fin n → Fin n → List (GenericMessage n)} {r i j : Fin n}
    {sent : List (ℕ × GenericMessage n)} {p : GenericMessage n}
    (h : p ∈ Linked.put wire r sent i j) : p ∈ wire i j ∨ (i = r ∧ (j.val, p) ∈ sent) := by
  unfold Linked.put at h
  by_cases hi : i = r
  · rw [if_pos hi] at h
    rcases List.mem_append.mp h with hold | hnew
    · exact .inl hold
    · obtain ⟨⟨tr, q⟩, hq, hsome⟩ := List.mem_filterMap.mp hnew
      dsimp only at hsome
      split at hsome
      · rename_i htr
        cases hsome
        exact .inr ⟨hi, htr ▸ hq⟩
      · cases hsome
  · rw [if_neg hi] at h
    exact .inl h

/-- INTERNAL: what is in a stream after its first message is read was there before. -/
theorem mem_of_mem_pop {wire : Fin n → Fin n → List (GenericMessage n)} {src dst i j : Fin n}
    {p : GenericMessage n} (h : p ∈ Linked.pop wire src dst i j) : p ∈ wire i j := by
  unfold Linked.pop at h
  split at h
  · exact List.mem_of_mem_tail h
  · exact h

/-- INTERNAL: the end of a callback is matched: the same is sent.
SOURCE: core/morphling.cpp:206-231; app/server.cpp:171, 228 -/
theorem OnNetwork.finish {c d : Linked n τ} {c' : Cluster n τ} (h : OnNetwork c c') {r : Fin n}
    {m : Morphling n τ} (hfinish : c.finish r m = .ok d) :
    ∃ d', c'.finish r m = .ok d' ∧ OnNetwork d d' := by
  obtain ⟨⟨m', sent⟩, hbcast, heq⟩ := bind_eq_ok.mp hfinish
  cases heq
  refine ⟨{ replicas := Function.update c'.replicas r m'
            network := c'.network ++ sent.map Prod.snd }, ?_, ?_, ?_⟩
  · rw [Cluster.finish, hbcast, ok_bind]
  · dsimp only
    rw [h.replicas]
  · intro i j p hp
    rcases mem_put hp with hold | ⟨-, hsent⟩
    · obtain ⟨hmem, hdst⟩ := h.wire i j p hold
      exact ⟨List.mem_append_left _ hmem, hdst⟩
    · refine ⟨List.mem_append_right _ (List.mem_map_of_mem hsent), ?_⟩
      obtain ⟨sent', hall, hb⟩ := bind_eq_ok.mp hbcast
      cases hb
      exact (eq_of_peerTrans (mem_sendAll hall _ hsent).2).symm

/-- INTERNAL: **each callback over streams is a callback of the cluster**, on the same message
from outside, or on a message of the network. SOURCE: app/server.cpp:158-178, 185-229 -/
theorem OnNetwork.step {c d : Linked n τ} {c' : Cluster n τ} (h : OnNetwork c c')
    {event : LinkedEvent n τ} {out : List (Fin n × Effect n τ)}
    (hstep : Linked.step unpack c event = .ok (d, out)) :
    ∃ events d', events.filterMap ClusterEvent.fromOutside =
        (LinkedEvent.fromOutside event).toList ∧
      Machine.run (Cluster.step unpack) c' events = .ok (d', out) ∧ OnNetwork d d' := by
  cases event with
  | client r msg tr =>
    obtain ⟨⟨m, effects⟩, hhandle, hstep⟩ := bind_eq_ok.mp hstep
    obtain ⟨d₁, hfinish, heq⟩ := bind_eq_ok.mp hstep
    cases heq
    obtain ⟨d', hfinish', hd⟩ := h.finish hfinish
    refine ⟨[.client r msg tr], d', rfl, Machine.run_singleton _ ?_, hd⟩
    rw [h.replicas] at hhandle
    simp only [Cluster.step, hhandle, ok_bind, hfinish']
  | getGuidance r tr =>
    cases hstep
    refine ⟨[.getGuidance r tr], c', rfl, Machine.run_singleton _ ?_, h⟩
    rw [Cluster.step, h.replicas]
  | arrive src dst =>
    cases hw : c.wire src dst with
    | nil =>
      simp only [Linked.step, hw] at hstep
      cases hstep
      exact ⟨[], c', rfl, rfl, h⟩
    | cons p rest =>
      simp only [Linked.step, hw] at hstep
      obtain ⟨⟨m, effects⟩, hhandle, hstep⟩ := bind_eq_ok.mp hstep
      obtain ⟨d₁, hfinish, heq⟩ := bind_eq_ok.mp hstep
      cases heq
      -- the message is delivered where it is on the network
      obtain ⟨hmem, hdst⟩ := h.wire src dst p (by rw [hw]; exact List.mem_cons_self)
      obtain ⟨k, hk⟩ := List.mem_iff_getElem?.mp hmem
      have hpop : OnNetwork { c with wire := Linked.pop c.wire src dst } c' :=
        ⟨h.replicas, fun i j q hq => h.wire i j q (mem_of_mem_pop hq)⟩
      obtain ⟨d', hfinish', hd⟩ := hpop.finish hfinish
      refine ⟨[.peer k], d', rfl, Machine.run_singleton _ ?_, hd⟩
      rw [h.replicas] at hhandle
      have hfin : (⟨p.dst, hdst ▸ dst.isLt⟩ : Fin n) = dst := Fin.ext hdst
      have hlt : p.dst < n := hdst ▸ dst.isLt
      simp only [Cluster.step, hk, hlt, dif_pos, hfin, hhandle, ok_bind, hfinish']

/-- **What the servers do over streams, they do over the network.**  Every run of the servers
on their connections, whatever clients send and whichever stream is read next, has a run in
which messages are delivered in any order, with the same messages from outside in the same
order, the same effects, and the same replicas at its end.
SOURCE: app/server.cpp:49-104, 158-178, 185-229; core/morphling.cpp:206-231 -/
theorem linked_refines (unpack : Bytes → Option Operation) (events : List (LinkedEvent n τ))
    {c : Linked n τ} {h : List (Fin n × Effect n τ)}
    (hrun : Machine.run (Linked.step unpack) (Linked.init n τ) events = .ok (c, h)) :
    ∃ events' c', events'.filterMap ClusterEvent.fromOutside =
        events.filterMap LinkedEvent.fromOutside ∧
      Machine.run (Cluster.step unpack) (Cluster.init n τ) events' = .ok (c', h) ∧
      c'.replicas = c.replicas := by
  have hinit : OnNetwork (Linked.init n τ) (Cluster.init n τ) :=
    ⟨rfl, fun _ _ _ hp => absurd hp List.not_mem_nil⟩
  obtain ⟨events', c', hsame, hrun', hon⟩ := Machine.run_refines (Linked.step unpack)
    (Cluster.step unpack) (G := fun _ _ => True) (f := LinkedEvent.fromOutside)
    (g := ClusterEvent.fromOutside) (p := some)
    (fun _ _ _ _ _ h _ hs => by
      rw [List.filterMap_some]
      exact h.step hs)
    hinit (Machine.guarded_of_forall _ (fun _ _ _ => trivial) _) hrun
  rw [List.filterMap_some] at hrun'
  exact ⟨events', c', hsame, hrun', hon.replicas.symm⟩

/-- A client writes, the two other servers read the appends, and one acknowledgement is
read. -/
theorem linked_write_refines :
    ∃ (c : Linked 3 ℕ) (h : List (Fin 3 × Effect 3 ℕ)) (events : List (ClusterEvent 3 ℕ))
      (c' : Cluster 3 ℕ),
      Machine.run (Linked.step unpackShort) (Linked.init 3 ℕ)
        [.client 0 ⟨1, 0x0100, [0x93, 1, 0xcd, 1, 0, 0xc4, 1, 7]⟩ 10, .arrive 0 2, .arrive 0 1,
          .arrive 2 0] = .ok (c, h) ∧
      Machine.run (Cluster.step unpackShort) (Cluster.init 3 ℕ) events = .ok (c', h) ∧
      c'.replicas = c.replicas := by
  obtain ⟨events, c', -, hrun, hsame⟩ := linked_refines (n := 3) (τ := ℕ) unpackShort
    [.client 0 ⟨1, 0x0100, [0x93, 1, 0xcd, 1, 0, 0xc4, 1, 7]⟩ 10, .arrive 0 2, .arrive 0 1,
      .arrive 2 0] rfl
  exact ⟨_, _, events, c', rfl, hrun, hsame⟩

end MorphlingC.Analysis
