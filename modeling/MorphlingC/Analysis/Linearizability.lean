import MorphlingC.Analysis.DeploymentStore
import MorphlingC.Analysis.KeyPartition
import MorphlingC.Analysis.MessageCodec
import Mathlib.Algebra.Order.BigOperators.Group.Finset
import Mathlib.Tactic.FinCases

/-!
# What clients see is linearizable

What is seen at the clients in a run that returns is a history of an atomic store, and a run
returns as long as three bounds are kept (`deployment_linearizable`): the messages of the clients
are short, the processes write no more often than the log of the owner has room for, and no
counter runs over.

For the room in the log each client that has a write on its way to the owner has a place of its
own in it (`Room`).
-/

set_option autoImplicit false

namespace MorphlingC.Analysis

open MorphlingC.Library MorphlingC.Model MorphlingC.Interface MorphlingC.Model.Morphling
  MorphlingC.Model.Deployment

variable {n : ℕ} {κ θ π : Type} {unpack : Bytes → Option Operation}

/-! ## Room in the log of the owner -/

/-- How many writes the processes send at most. -/
def writesAtMost [Fintype π] (cfg : π → ProcessConfig) : ℕ :=
  ∑ p, if (cfg p).isRead then 0 else (cfg p).msgNums

/-- How many writes the processes have been let to send, by their counters. -/
def writesLet [Fintype π] (cfg : π → ProcessConfig) (sentNums : π → ℕ) : ℕ :=
  ∑ p, if (cfg p).isRead then 0 else min (sentNums p) (cfg p).msgNums

/-- When a thread takes a turn, the counter of its process is still to be an `int` afterwards.
SOURCE: app/client2.cpp:39, 204-206 -/
def CounterFits (layout : Layout κ θ π) (d : Deployment n κ θ π) : DeploymentEvent n κ θ → Prop
  | .connected _ _ => True
  | .receive _ _ => True
  | .checkSetup _ => True
  | .turn t => d.sentNums (layout.processOf t) + 1 < 2 ^ 31
  | .serve _ _ => True
  | .exchange _ _ => True

instance (layout : Layout κ θ π) (d : Deployment n κ θ π) :
    DecidablePred (CounterFits layout d) := fun event =>
  match event with
  | .connected _ _ => isTrue trivial
  | .receive _ _ => isTrue trivial
  | .checkSetup _ => isTrue trivial
  | .turn t => inferInstanceAs (Decidable (d.sentNums (layout.processOf t) + 1 < 2 ^ 31))
  | .serve _ _ => isTrue trivial
  | .exchange _ _ => isTrue trivial

/-- INTERNAL: then the counter lets a client send when it is not past the number of messages. -/
theorem CounterFits.can_iff {layout : Layout κ θ π} {cfg : π → ProcessConfig}
    {d : Deployment n κ θ π} {t : θ} (h : CounterFits layout d (.turn t)) :
    Client.atomicInt (d.sentNums (layout.processOf t) + 1) ≤
        (cfg (layout.processOf t)).msgNums ↔
      d.sentNums (layout.processOf t) < (cfg (layout.processOf t)).msgNums := by
  rw [Client.atomicInt_of_lt h, Nat.cast_le, Nat.succ_le_iff]

section Room

variable [Fintype π] {layout : Layout κ θ π} {cfg : π → ProcessConfig} {o : Fin n}
  {d d' : Deployment n κ θ π} {v : StoreService κ} {a : Atomic (ℕ → Bytes) κ Operation Bytes}
  {out : List (Action κ Operation Bytes)}

/-- INTERNAL: no more are let through than are configured. -/
theorem writesLet_le (cfg : π → ProcessConfig) (sentNums : π → ℕ) :
    writesLet cfg sentNums ≤ writesAtMost cfg := by
  refine Finset.sum_le_sum fun p _ => ?_
  split_ifs
  · exact le_rfl
  · exact min_le_right _ _

/-- INTERNAL: a process is let to send one more when it writes and its counter is not past its
number. -/
theorem writesLet_succ [DecidableEq π] (cfg : π → ProcessConfig) (sentNums : π → ℕ) (p : π) :
    writesLet cfg (Function.update sentNums p (sentNums p + 1)) =
      writesLet cfg sentNums +
        if (cfg p).isRead = false ∧ sentNums p + 1 ≤ (cfg p).msgNums then 1 else 0 := by
  have hrest : ∀ q ∈ Finset.univ.erase p,
      (if (cfg q).isRead then 0
        else min (Function.update sentNums p (sentNums p + 1) q) (cfg q).msgNums) =
      if (cfg q).isRead then 0 else min (sentNums q) (cfg q).msgNums := by
    intro q hq
    rw [Function.update_of_ne (Finset.ne_of_mem_erase hq)]
  unfold writesLet
  rw [← Finset.add_sum_erase _ _ (Finset.mem_univ p), Finset.sum_congr rfl hrest,
    ← Finset.add_sum_erase (Finset.univ : Finset π)
      (fun q => if (cfg q).isRead then 0 else min (sentNums q) (cfg q).msgNums)
      (Finset.mem_univ p), Function.update_self]
  cases (cfg p).isRead with
  | true => simp
  | false =>
    simp only [Bool.false_eq_true, if_false, true_and]
    split_ifs with hle
    · rw [min_eq_left hle, min_eq_left (by omega)]
      omega
    · rw [min_eq_right (by omega), min_eq_right (by omega)]
      omega

/-- **There is room**: with the entries of the log of the owner, the clients that have a write on
its way there are no more than the processes have been let to write. -/
def Room (unpack : Bytes → Option Operation) (cfg : π → ProcessConfig) (o : Fin n)
    (d : Deployment n κ θ π) : Prop :=
  ∃ S : Finset κ,
    (∀ k, ∀ op ∈ operationsIn unpack (d.toServer k o), op.opType ≠ 0 → k ∈ S) ∧
    ((d.servers.replicas o).smrs keyGroup).log.log.length + S.card ≤ writesLet cfg d.sentNums

/-- INTERNAL: nothing is written at first. -/
theorem Room.init (unpack : Bytes → Option Operation) (layout : Layout κ θ π)
    (cfg : π → ProcessConfig) (o : Fin n) :
    Room unpack cfg o (Deployment.init n layout cfg) :=
  ⟨∅, fun _ _ hop => absurd hop List.not_mem_nil, Nat.zero_le _⟩

/-- INTERNAL: there is room for a write that is on its way to the owner. -/
theorem Room.lt (h : Room unpack cfg o d) {k : κ} {op : Operation}
    (hop : op ∈ operationsIn unpack (d.toServer k o)) (hwrite : op.opType ≠ 0) :
    ((d.servers.replicas o).smrs keyGroup).log.log.length < writesAtMost cfg := by
  obtain ⟨S, hS, hlen⟩ := h
  have hpos : 0 < S.card := Finset.card_pos.mpr ⟨k, hS k op hop hwrite⟩
  have hle := writesLet_le cfg d.sentNums
  omega

variable [DecidableEq κ] [DecidableEq θ] [DecidableEq π]

/-- INTERNAL: a turn keeps the room: a write that a client sends is one more that its process was
let to send. SOURCE: app/client2.cpp:204-212, 350-409 -/
theorem Room.turn (h : Room unpack cfg o d) (hok : DeployOk unpack layout cfg o d v a)
    (ho : routedTo n Client.theKey = some o)
    (hpack : ∀ p, unpack (messageOf (cfg p)).op = some (operationOf (cfg p))) {t : θ}
    (hfits : CounterFits layout d (.turn t))
    (hturn : d.turn layout cfg t = .ok (d', out)) : Room unpack cfg o d' := by
  obtain ⟨S, hS, hlen⟩ := h
  rcases hok.turn_cases ho hturn with
    ⟨rfl, -⟩ | ⟨k, rfl, hidle, ⟨hcan, rfl, -⟩ | ⟨-, rfl, -⟩⟩
  · exact ⟨S, hS, hlen⟩
  · rw [hfits.can_iff] at hcan
    obtain ⟨hops, -⟩ := (hok.stages k).of_not_awaiting (by rw [hidle]; rfl)
    have hlet : writesLet cfg
        (afterSend layout cfg o d (layout.threadOf k) k).sentNums = _ :=
      writesLet_succ cfg d.sentNums (layout.processOf (layout.threadOf k))
    cases hread : (cfg (layout.processOf (layout.threadOf k))).isRead with
    | true =>
      refine ⟨S, fun k' op hop hwrite => ?_, ?_⟩
      · rw [operationsIn_afterSend hpack hops] at hop
        split_ifs at hop
        · obtain rfl := List.mem_singleton.mp hop
          rw [operationOf, cfgOf, if_pos hread] at hwrite
          exact absurd rfl hwrite
        · exact hS k' op hop hwrite
      · rw [hlet, hread, if_neg (by simp)]
        exact hlen
    | false =>
      refine ⟨insert k S, fun k' op hop hwrite => ?_, ?_⟩
      · rw [operationsIn_afterSend hpack hops] at hop
        split_ifs at hop with hk
        · rw [hk]
          exact Finset.mem_insert_self k S
        · exact Finset.mem_insert_of_mem (hS k' op hop hwrite)
      · rw [hlet, if_pos ⟨hread, hcan⟩]
        have hcard := Finset.card_insert_le k S
        have hsame : ((afterSend layout cfg o d (layout.threadOf k) k).servers.replicas o) =
            d.servers.replicas o := rfl
        rw [hsame]
        omega
  · have hlet : writesLet cfg (afterRefusal layout d (layout.threadOf k) k).sentNums = _ :=
      writesLet_succ cfg d.sentNums (layout.processOf (layout.threadOf k))
    exact ⟨S, hS, hlen.trans (by rw [hlet]; exact Nat.le_add_right _ _)⟩

omit [DecidableEq θ] [DecidableEq π] in
/-- INTERNAL: a request that is read keeps the room: a write leaves its place to its entry.
SOURCE: app/server.cpp:158-178 -/
theorem Room.serve (h : Room unpack cfg o d) (hok : DeployOk unpack layout cfg o d v a)
    {k : κ} {id : Fin n} {request : Request} {rest : List Request} {servers : Linked n κ}
    {effects : List (Fin n × Effect n κ)} (hnext : d.toServer k id = request :: rest)
    (hservers : Linked.step unpack d.servers (Request.event k id request) =
      .ok (servers, effects)) :
    Room unpack cfg o { d with
      servers := servers
      toServer := Function.update d.toServer k (Function.update (d.toServer k) id rest)
      toClient := deliver d.toClient effects } := by
  obtain ⟨S, hS, hlen⟩ := h
  have hlog := hok.log_length (hok.atStore (by rw [hnext]; exact List.mem_cons_self)) hservers
  have hpop : ∀ k', operationsIn unpack (d.toServer k' o) = _ := operationsIn_pop hnext
  have hleft : ∀ k', ∀ op ∈ operationsIn unpack (Function.update d.toServer k
      (Function.update (d.toServer k) id rest) k' o),
      op ∈ operationsIn unpack (d.toServer k' o) := by
    intro k' op hop
    rw [hpop k']
    exact List.mem_append_right _ hop
  by_cases hbrings : Brings unpack keyGroup (Request.event k id request) = true
  · obtain ⟨-, rfl, op, hop, hwrite⟩ := hok.of_brings hnext hbrings
    -- the client has nothing else on its way
    obtain ⟨op₁, hfirst⟩ : ∃ op₁, operationsIn unpack [request] = [op₁] := by
      cases request with
      | getGuidance => cases hbrings
      | operation msg =>
        obtain ⟨-, -, -, op₁, hop₁, -⟩ :=
          hok.requests k id _ (by rw [hnext]; exact List.mem_cons_self)
        exact ⟨op₁, by simp [operationsIn, hop₁]⟩
    have hall := hpop k
    rw [if_pos ⟨rfl, rfl⟩, hfirst, List.singleton_append] at hall
    obtain ⟨-, hnone, -⟩ := (hok.stages k).of_operation hall
    refine ⟨S.erase k, fun k' op' hop' hwrite' => ?_, ?_⟩
    · refine Finset.mem_erase.mpr ⟨?_, hS k' op' (hleft k' op' hop') hwrite'⟩
      rintro rfl
      dsimp only at hop'
      rw [hnone] at hop'
      cases hop'
    · have hcard := Finset.card_erase_add_one (hS k op hop hwrite)
      rw [if_pos hbrings] at hlog
      dsimp only
      omega
  · refine ⟨S, fun k' op hop hwrite => hS k' op (hleft k' op hop) hwrite, ?_⟩
    rw [if_neg hbrings] at hlog
    dsimp only
    omega

/-- INTERNAL: **each step keeps the room**, as long as the counters fit. -/
theorem Room.step (h : Room unpack cfg o d) (hok : DeployOk unpack layout cfg o d v a)
    (ho : routedTo n Client.theKey = some o)
    (hpack : ∀ p, unpack (messageOf (cfg p)).op = some (operationOf (cfg p)))
    {event : DeploymentEvent n κ θ} (hfits : CounterFits layout d event)
    (hstep : Deployment.step unpack layout cfg d event = .ok (d', out)) :
    Room unpack cfg o d' := by
  cases event with
  | connected k id =>
    obtain ⟨-, ⟨-, rfl⟩ | ⟨-, rfl⟩⟩ := step_connected hstep
    · exact h
    · obtain ⟨S, hS, hlen⟩ := h
      refine ⟨S, fun k' op hop => hS k' op ?_, hlen⟩
      dsimp only at hop
      rwa [operationsIn_post_guidance] at hop
  | receive k id =>
    rcases step_receive hstep with ⟨rfl, -⟩ | ⟨answer, rest, -, -, heq⟩
    · exact h
    · obtain ⟨rfl, -⟩ := Prod.mk.inj heq
      exact h
  | checkSetup t =>
    obtain ⟨-, ⟨-, rfl⟩ | ⟨-, clients, ready, -, rfl⟩⟩ := step_checkSetup hstep
    · exact h
    · exact h
  | turn t =>
    rcases step_turn hstep with ⟨-, rfl, -⟩ | ⟨-, hturn⟩
    · exact h
    · exact h.turn hok ho hpack hfits hturn
  | serve k id =>
    obtain ⟨-, ⟨-, rfl⟩ | ⟨request, rest, servers, effects, hnext, hservers, rfl⟩⟩ :=
      step_serve hstep
    · exact h
    · exact h.serve hok hnext hservers
  | exchange src dst =>
    obtain ⟨-, servers, effects, hservers, rfl⟩ := step_exchange hstep
    obtain ⟨S, hS, hlen⟩ := h
    have hlog := hok.log_length (show AtStore _ _ _ (.arrive src dst) from trivial) hservers
    refine ⟨S, hS, ?_⟩
    rw [if_neg (by simp [Brings, LinkedEvent.fromOutside])] at hlog
    dsimp only
    omega

/-- INTERNAL: **each step returns**, when the messages are short and the log of the owner has
room for all writes. SOURCE: app/utils.cpp:39; core/smr.cpp:10, 30-45 -/
theorem DeployOk.returns (hok : DeployOk unpack layout cfg o d v a) (h : Room unpack cfg o d)
    (hn : 0 < n) (ho : routedTo n Client.theKey = some o)
    (hshort : ∀ p, ((cfg p).packMessage (messageOf (cfg p))).length < 2000)
    (hroom : writesAtMost cfg ≤ reservedEntries) (event : DeploymentEvent n κ θ) :
    ∃ d' out, Deployment.step unpack layout cfg d event = .ok (d', out) := by
  obtain ⟨linked, hlinked⟩ := hok.serves.linked
  cases event with
  | connected k id =>
    unfold Deployment.step
    dsimp only
    split_ifs
    · exact ⟨_, _, rfl⟩
    · exact ⟨_, _, rfl⟩
  | receive k id =>
    unfold Deployment.step
    dsimp only
    split_ifs
    · exact ⟨_, _, rfl⟩
    · split
      · exact ⟨_, _, rfl⟩
      · exact ⟨_, _, rfl⟩
  | checkSetup t =>
    obtain ⟨clients, ready, hsetups, -⟩ := checkSetups_ok hn (layout.members t) hok.clients
    unfold Deployment.step
    dsimp only
    split_ifs
    · exact ⟨_, _, rfl⟩
    · rw [hsetups]
      exact ⟨_, _, rfl⟩
  | turn t =>
    unfold Deployment.step
    dsimp only
    split_ifs
    · exact ⟨_, _, rfl⟩
    · cases hfind : (layout.members t).find? fun k => (d.clients k).status = .idle with
      | none =>
        rw [Deployment.turn, hfind]
        exact ⟨_, _, rfl⟩
      | some k =>
        obtain rfl : layout.threadOf k = t :=
          (layout.mem_members t k).mp (List.mem_of_find?_eq_some hfind)
        rw [turn_eq (hok.clients k) ho hfind, if_pos (hshort _)]
        split_ifs
        · exact ⟨_, _, rfl⟩
        · exact ⟨_, _, rfl⟩
  | serve k id =>
    cases hnext : d.toServer k id with
    | nil => exact ⟨_, _, by rw [Deployment.step, hnext]⟩
    | cons request rest =>
      have hat := hok.atStore (by rw [hnext]; exact List.mem_cons_self)
      obtain ⟨servers, effects, hservers⟩ := hlinked.returns hat.accepted fun gid hbrings => by
        obtain ⟨rfl, -, op, hop, hwrite⟩ := hok.of_brings hnext hbrings
        exact (h.lt hop hwrite).trans_le hroom
      refine ⟨{ d with
        servers := servers
        toServer := Function.update d.toServer k (Function.update (d.toServer k) id rest)
        toClient := deliver d.toClient effects }, [], ?_⟩
      rw [Deployment.step, hnext]
      dsimp only
      rw [serverStep_ok hservers]
      rfl
  | exchange src dst =>
    have hat : AtStore unpack (fun _ => o) keyGroup (.arrive src dst : LinkedEvent n κ) := trivial
    obtain ⟨servers, effects, hservers⟩ := hlinked.returns hat.accepted
      fun _ hbrings => absurd hbrings Bool.false_ne_true
    refine ⟨{ d with servers := servers, toClient := deliver d.toClient effects }, [], ?_⟩
    rw [Deployment.step, serverStep_ok hservers d.toServer]
    rfl

end Room

/-! ## Runs -/

/-- INTERNAL: the key of the clients has an owner. SOURCE: core/guidance.h:99-106;
core/morphling.cpp:58-77 -/
theorem theKey_routed (hn : 0 < n) (hn' : n ≤ 255) : ∃ o, routedTo n Client.theKey = some o := by
  have hspace : n ≤ defaultKeySpace := hn'.trans (by decide)
  obtain ⟨o, -, -, ho⟩ :=
    owner_initLocalGuidance hn' hspace le_rfl ({} : Guidance n) hn (calcKeyPos_lt Client.theKey)
  exact ⟨o, ho⟩

section Runs

variable [DecidableEq κ] [DecidableEq θ] [DecidableEq π]

/-- INTERNAL: every run of clients and servers that returns is one of the atomic store. -/
theorem deployment_run {layout : Layout κ θ π} {cfg : π → ProcessConfig} {o : Fin n} (hn : 2 ≤ n)
    (ho : routedTo n Client.theKey = some o)
    (hpack : ∀ p, unpack (messageOf (cfg p)).op = some (operationOf (cfg p)))
    {events : List (DeploymentEvent n κ θ)} {d : Deployment n κ θ π}
    {h : List (Action κ Operation Bytes)}
    (hrun : Machine.run (Deployment.step unpack layout cfg) (Deployment.init n layout cfg)
      events = .ok (d, h)) :
    ∃ v js a, Machine.run (Atomic.step execute) (Atomic.init fun _ => []) js = .ok (a, h) ∧
      DeployOk unpack layout cfg o d v a := by
  obtain ⟨js, a, -, hatomic, v, hok⟩ := Machine.run_refines (Deployment.step unpack layout cfg)
    (Atomic.step execute) (G := fun _ _ => True)
    (R := fun d a => ∃ v, DeployOk unpack layout cfg o d v a)
    (f := fun _ => (none : Option Unit)) (g := fun _ => none) (p := some)
    (fun d a event d' out hR _ hs => by
      obtain ⟨v, h⟩ := hR
      obtain ⟨v', js, a', hatomic, h'⟩ := h.step hn ho hpack hs
      refine ⟨js, a', ?_, ?_, v', h'⟩
      · simp
      · rwa [List.filterMap_some])
    ⟨_, DeployOk.init unpack layout cfg o⟩
    (Machine.guarded_of_forall _ (fun _ _ _ => trivial) _) hrun
  rw [List.filterMap_some] at hatomic
  exact ⟨v, js, a, hatomic, hok⟩

/-- INTERNAL: what every step within the bounds keeps. -/
def RunsOn [Fintype π] (unpack : Bytes → Option Operation) (layout : Layout κ θ π)
    (cfg : π → ProcessConfig) (o : Fin n) (d : Deployment n κ θ π) : Prop :=
  (∃ v a, DeployOk unpack layout cfg o d v a) ∧ Room unpack cfg o d

/-- INTERNAL: **a step within the bounds** returns. -/
theorem RunsOn.step [Fintype π] {layout : Layout κ θ π} {cfg : π → ProcessConfig} {o : Fin n}
    {d : Deployment n κ θ π} (h : RunsOn unpack layout cfg o d) (hn : 2 ≤ n)
    (ho : routedTo n Client.theKey = some o)
    (hpack : ∀ p, unpack (messageOf (cfg p)).op = some (operationOf (cfg p)))
    (hshort : ∀ p, ((cfg p).packMessage (messageOf (cfg p))).length < 2000)
    (hroom : writesAtMost cfg ≤ reservedEntries) {event : DeploymentEvent n κ θ}
    (hfits : CounterFits layout d event) :
    ∃ d' out, Deployment.step unpack layout cfg d event = .ok (d', out) ∧
      RunsOn unpack layout cfg o d' := by
  obtain ⟨⟨v, a, hok⟩, hr⟩ := h
  obtain ⟨d', out, hstep⟩ := hok.returns hr (by omega) ho hshort hroom event
  obtain ⟨v', js, a', -, hok'⟩ := hok.step hn ho hpack hstep
  exact ⟨d', out, hstep, ⟨v', a', hok'⟩, hr.step hok ho hpack hfits hstep⟩

/-- INTERNAL: a run within the bounds returns. -/
theorem deployment_returns [Fintype π] {layout : Layout κ θ π} {cfg : π → ProcessConfig}
    {o : Fin n} (hn : 2 ≤ n) (ho : routedTo n Client.theKey = some o)
    (hpack : ∀ p, unpack (messageOf (cfg p)).op = some (operationOf (cfg p)))
    {events : List (DeploymentEvent n κ θ)}
    (hshort : ∀ p, ((cfg p).packMessage (messageOf (cfg p))).length < 2000)
    (hroom : writesAtMost cfg ≤ reservedEntries)
    (hfits : Machine.Guarded (Deployment.step unpack layout cfg) (CounterFits layout)
      (Deployment.init n layout cfg) events) :
    ∃ d h, Machine.run (Deployment.step unpack layout cfg) (Deployment.init n layout cfg)
      events = .ok (d, h) := by
  obtain ⟨d, h, hrun, -⟩ := Machine.run_total (Deployment.step unpack layout cfg)
    (I := RunsOn unpack layout cfg o)
    (fun d event hI hG => hI.step hn ho hpack hshort hroom hG)
    ⟨⟨_, _, DeployOk.init unpack layout cfg o⟩, Room.init unpack layout cfg o⟩ hfits
  exact ⟨d, h, hrun⟩

/-- **What clients see is linearizable.**  Take two or more servers that are connected to each
other, and any clients of the guidance-read and the unreplicated mode, of processes that read or
write values of their own, whichever stream is read next, whichever thread takes its turn, and
whenever clients are connected.  In every run that returns, what the clients see is a history of
an atomic store, in which no key holds anything at first.  And a run returns, so that no server
and no client runs into a fault or a fatal error, when `pack_operation` accepts the message of
every process, the processes that write are configured to at most 1000000 messages together, and
no counter of a process runs over.
SOURCE: app/client2.cpp:39, 204-294, 350-456, 460-568, 577-660; app/utils.cpp:21-42;
app/server.cpp:158-178, 185-229; core/smr.cpp:10, 30-45, 115-141, 174-286;
core/morphling.cpp:58-147, 157-231 -/
theorem deployment_linearizable [Fintype π] (unpack : Bytes → Option Operation)
    (layout : Layout κ θ π) (cfg : π → ProcessConfig) (hn : 2 ≤ n) (hn' : n ≤ 255)
    (hpack : ∀ p, unpack ((cfg p).pack (operationOf (cfg p))) = some (operationOf (cfg p)))
    (events : List (DeploymentEvent n κ θ)) :
    (∀ d h, Machine.run (Deployment.step unpack layout cfg) (Deployment.init n layout cfg)
        events = .ok (d, h) → Linearizable execute (fun _ => []) h) ∧
    ((∀ p, ((cfg p).packMessage (messageOf (cfg p))).length < 2000) →
      writesAtMost cfg ≤ 1000000 →
      Machine.Guarded (Deployment.step unpack layout cfg) (CounterFits layout)
        (Deployment.init n layout cfg) events →
      ∃ d h, Machine.run (Deployment.step unpack layout cfg) (Deployment.init n layout cfg)
        events = .ok (d, h)) := by
  obtain ⟨o, ho⟩ := theKey_routed (by omega) hn'
  constructor
  · intro d h hrun
    obtain ⟨v, js, a, hatomic, -⟩ := deployment_run hn ho hpack hrun
    exact ⟨js, a, hatomic⟩
  · exact deployment_returns hn ho hpack

end Runs

/-- Two processes, of one thread with one client each. -/
def oneEach : Layout (Fin 2) (Fin 2) (Fin 2) where
  members := fun t => [t]
  threadOf := id
  processOf := id
  mem_members := fun _ _ => by rw [List.mem_singleton, id]

/-- The first process writes once, and the second one reads once. -/
def writerAndReader (p : Fin 2) : ProcessConfig where
  isRead := p = 1
  msgNums := 1
  pack := Operation.pack
  packMessage := ClientMessage.pack
  unreplicatedRead := false
  value := [7]

/-- INTERNAL: what they send is unpacked as it is packed. -/
theorem writerAndReader_packs (p : Fin 2) :
    unpackOperation ((writerAndReader p).pack (operationOf (writerAndReader p))) =
      some (operationOf (writerAndReader p)) := by
  have hfits : (operationOf (writerAndReader p)).Fits := by
    fin_cases p
    · exact ⟨by decide, by decide, by decide⟩
    · exact ⟨by decide, by decide, by decide⟩
  exact unpackOperation_pack hfits

/-- A client is connected to three servers and set up. -/
def setUpOf (k : Fin 2) : List (DeploymentEvent 3 (Fin 2) (Fin 2)) :=
  [.connected k 0, .connected k 1, .connected k 2, .serve k 0, .serve k 1, .serve k 2,
    .receive k 0, .receive k 1, .receive k 2, .checkSetup k]

/-- Two clients are set up, the first one writes, and then the second one reads what was
written. -/
theorem write_then_read_linearizable :
    Linearizable execute (fun _ => []) [.invoke (0 : Fin 2) (⟨1, 0x5499, [7]⟩ : Operation),
      .respond 0 [], .invoke 1 ⟨0, 0x5499, []⟩, .respond 1 [7]] := by
  let events := setUpOf 0 ++ setUpOf 1 ++
    [.turn 0, .serve 0 0, .exchange 0 1, .exchange 1 0, .receive 0 0, .turn 1, .serve 1 0,
      .serve 1 1, .receive 1 0, .receive 1 1]
  obtain ⟨hlin, hreturns⟩ := deployment_linearizable (n := 3) unpackOperation oneEach
    writerAndReader (by decide) (by decide) writerAndReader_packs events
  obtain ⟨d, h, hrun⟩ := hreturns (by decide) (by decide) (by decide +kernel)
  have hseen : (Machine.run (Deployment.step unpackOperation oneEach writerAndReader)
      (Deployment.init 3 oneEach writerAndReader) events).toOption.map (fun r => r.2) =
      some [.invoke (0 : Fin 2) (⟨1, 0x5499, [7]⟩ : Operation), .respond 0 [],
        .invoke 1 ⟨0, 0x5499, []⟩, .respond 1 [7]] := by
    decide +kernel
  rw [hrun] at hseen
  rw [← Option.some.inj hseen]
  exact hlin d h hrun

end MorphlingC.Analysis
