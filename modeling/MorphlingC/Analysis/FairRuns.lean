import MorphlingC.Analysis.DeploymentProgress
import Mathlib.Algebra.Order.BigOperators.Group.Finset
import Mathlib.Data.Prod.Lex

/-!
# Every fair run finishes

Processes end by themselves.  Let each connection be made at some time, each stream be read again
and again, and each thread take its turn again and again, in any order (`Machine.Fair`).  Then
there is a time from which on every thread with clients has ended, every process has sent all its
messages, and every one is answered (`fair_runs_finish`).

An event is useful when it does something (`Useful`).  Useful events lower `work`, the others
leave what is useful useful (`Unmoved`), and where no event is useful all threads have ended
(`stuck_is_finished`).
-/

set_option autoImplicit false

namespace MorphlingC.Analysis

open MorphlingC.Library MorphlingC.Library.Machine MorphlingC.Model MorphlingC.Interface
  MorphlingC.Model.Client MorphlingC.Model.Deployment

variable {n : ℕ} {κ θ π : Type} {unpack : Bytes → Option Operation}

/-! ## Useful events -/

/-- **The event does something**: a connection is new, something is there to be read, all clients
of a thread can be set up, or an idle client may send, or ends its thread. -/
def Useful (layout : Layout κ θ π) (cfg : π → ProcessConfig) (d : Deployment n κ θ π) :
    DeploymentEvent n κ θ → Prop
  | .connected k id => d.connected k id = false
  | .receive k id => d.phase (layout.threadOf k) ≠ .finished ∧ d.toClient id k ≠ []
  | .checkSetup t => d.phase t = .setup ∧
      ∀ k ∈ layout.members t, (d.clients k).hasUniformGuidance = true
  | .turn t => d.phase t = .sending ∧ (∃ k ∈ layout.members t, (d.clients k).status = .idle) ∧
      (d.sentNums (layout.processOf t) < (cfg (layout.processOf t)).msgNums ∨
        ∀ k ∈ layout.members t, (d.clients k).status = .idle)
  | .serve k id => d.toServer k id ≠ []
  | .exchange src dst => d.servers.wire src dst ≠ []

/-- **What an event that is not useful may do**: it sets up clients, or counts a message that is
not sent. -/
structure Unmoved (layout : Layout κ θ π) (cfg : π → ProcessConfig)
    (d d' : Deployment n κ θ π) : Prop where
  servers : d'.servers = d.servers
  connected : d'.connected = d.connected
  toServer : d'.toServer = d.toServer
  toClient : d'.toClient = d.toClient
  phase : d'.phase = d.phase
  uniform : ∀ k, (d'.clients k).hasUniformGuidance = (d.clients k).hasUniformGuidance
  status : ∀ k, d.phase (layout.threadOf k) = .sending →
    (d'.clients k).status = (d.clients k).status
  sentNums : ∀ p, d.sentNums p ≤ d'.sentNums p ∧
    (d.sentNums p < (cfg p).msgNums → d'.sentNums p = d.sentNums p)

section Events

variable {layout : Layout κ θ π} {cfg : π → ProcessConfig} {d d' : Deployment n κ θ π}

/-- INTERNAL: nothing is moved when nothing is done. -/
theorem Unmoved.refl (layout : Layout κ θ π) (cfg : π → ProcessConfig) (d : Deployment n κ θ π) :
    Unmoved layout cfg d d :=
  ⟨rfl, rfl, rfl, rfl, rfl, fun _ => rfl, fun _ _ => rfl, fun _ => ⟨le_rfl, fun _ => rfl⟩⟩

/-- INTERNAL: **what is useful stays useful** until something useful is done. -/
theorem Unmoved.useful (h : Unmoved layout cfg d d') {event : DeploymentEvent n κ θ}
    (huseful : Useful layout cfg d event) : Useful layout cfg d' event := by
  cases event with
  | connected k id =>
    rw [Useful, h.connected]
    exact huseful
  | receive k id =>
    rw [Useful, h.phase, h.toClient]
    exact huseful
  | checkSetup t =>
    rw [Useful, h.phase]
    exact ⟨huseful.1, fun k hk => (h.uniform k).trans (huseful.2 k hk)⟩
  | turn t =>
    obtain ⟨hphase, ⟨k, hk, hidle⟩, hsends⟩ := huseful
    have hstatus : ∀ j ∈ layout.members t, (d'.clients j).status = (d.clients j).status :=
      fun j hj => h.status j (by rw [(layout.mem_members t j).mp hj, hphase])
    rw [Useful, h.phase]
    refine ⟨hphase, ⟨k, hk, (hstatus k hk).trans hidle⟩,
      hsends.imp (fun hless => ?_) fun hall => ?_⟩
    · rwa [(h.sentNums _).2 hless]
    · exact fun j hj => (hstatus j hj).trans (hall j hj)
  | serve k id =>
    rw [Useful, h.toServer]
    exact huseful
  | exchange src dst =>
    rw [Useful, h.servers]
    exact huseful

end Events

/-! ## The work that is left -/

section Work

variable [Fintype κ] [Fintype θ] [Fintype π]

/-- How many phases of a thread are left. -/
def phasesLeft : Phase → ℕ
  | .setup => 2
  | .sending => 1
  | .finished => 0

/-- How many connections are not made, messages not sent, and phases not over. -/
def todo (cfg : π → ProcessConfig) (d : Deployment n κ θ π) : ℕ :=
  ∑ k, ∑ id, (!d.connected k id).toNat + ∑ p, ((cfg p).msgNums - d.sentNums p) +
    ∑ t, phasesLeft (d.phase t)

/-- How many requests are on their way to the servers. -/
def requestsLeft (d : Deployment n κ θ π) : ℕ := ∑ k, ∑ id, (d.toServer k id).length

/-- How many answers are on their way to the clients. -/
def answersLeft (d : Deployment n κ θ π) : ℕ := ∑ id, ∑ k, (d.toClient id k).length

/-- **The work that is left**: what clients have to do counts for more than the requests, these
for more than what the servers have to read, and that for more than the answers. -/
def work (cfg : π → ProcessConfig) (d : Deployment n κ θ π) : ℕ ×ₗ ℕ ×ₗ ℕ ×ₗ ℕ :=
  toLex (todo cfg d, toLex (requestsLeft d, toLex (inFlight d.servers, answersLeft d)))

/-- INTERNAL: what lowers the work. -/
theorem work_lt {cfg : π → ProcessConfig} {d d' : Deployment n κ θ π}
    (h : todo cfg d' < todo cfg d ∨ todo cfg d' = todo cfg d ∧
      (requestsLeft d' < requestsLeft d ∨ requestsLeft d' = requestsLeft d ∧
        (inFlight d'.servers < inFlight d.servers ∨ inFlight d'.servers = inFlight d.servers ∧
          answersLeft d' < answersLeft d))) : work cfg d' < work cfg d := by
  simpa only [work, Prod.Lex.toLex_lt_toLex] using h

/-- INTERNAL: a sum over two indices is less when one summand is and the others are not more. -/
theorem sum_sum_lt {ι ι' : Type} [Fintype ι] [Fintype ι'] {f g : ι → ι' → ℕ}
    (hle : ∀ i j, f i j ≤ g i j) (i : ι) (j : ι') (hlt : f i j < g i j) :
    ∑ i, ∑ j, f i j < ∑ i, ∑ j, g i j :=
  Finset.sum_lt_sum (fun i _ => Finset.sum_le_sum fun j _ => hle i j)
    ⟨i, Finset.mem_univ i, Finset.sum_lt_sum (fun j _ => hle i j) ⟨j, Finset.mem_univ j, hlt⟩⟩

variable {layout : Layout κ θ π} {cfg : π → ProcessConfig} {d d' : Deployment n κ θ π}

/-- INTERNAL: what moves nothing leaves no more to do. -/
theorem Unmoved.work_le (h : Unmoved layout cfg d d') : work cfg d' ≤ work cfg d := by
  have htodo : todo cfg d' ≤ todo cfg d := by
    unfold todo
    rw [h.connected, h.phase]
    refine Nat.add_le_add_right (Nat.add_le_add_left (Finset.sum_le_sum fun p _ => ?_) _) _
    exact Nat.sub_le_sub_left (h.sentNums p).1 _
  have hrequests : requestsLeft d' = requestsLeft d := by
    rw [requestsLeft, h.toServer, requestsLeft]
  have hanswers : answersLeft d' = answersLeft d := by rw [answersLeft, h.toClient, answersLeft]
  simp only [work, Prod.Lex.toLex_le_toLex, hrequests, hanswers, h.servers, le_refl, and_true]
  exact htodo.lt_or_eq

end Work

/-! ## One step -/

section Steps

variable [DecidableEq κ] {layout : Layout κ θ π} {cfg : π → ProcessConfig} {o : Fin n}
  {d d' : Deployment n κ θ π} {v : StoreService κ} {a : Atomic (ℕ → Bytes) κ Operation Bytes}

/-- INTERNAL: **where nothing useful is left, every thread with a client has ended.** -/
theorem DeployOk.finished_of_stuck (hok : DeployOk unpack layout cfg o d v a)
    (hpromised : AllPromised unpack layout cfg d) (hn : 0 < n)
    (hstuck : ∀ event, ¬ Useful layout cfg d event) (k : κ) :
    d.phase (layout.threadOf k) = .finished := by
  by_contra hnot
  have hrequests : ∀ j id, d.toServer j id = [] := fun j id => not_not.mp (hstuck (.serve j id))
  have hmembers : ∀ j ∈ layout.members (layout.threadOf k), layout.threadOf j = layout.threadOf k :=
    fun j hj => (layout.mem_members _ j).mp hj
  have hanswers : ∀ j ∈ layout.members (layout.threadOf k), ∀ id, d.toClient id j = [] := by
    intro j hj id
    by_contra hsome
    exact hstuck (.receive j id) ⟨by rwa [hmembers j hj], hsome⟩
  -- what is promised and not on its way is there
  have hfilled : ∀ j ∈ layout.members (layout.threadOf k), ∀ id,
      Promise unpack (d.clients j) (d.toServer j) (fun id => d.toClient id j) id →
      (d.clients j).oneTurnCollection id = Guidance.initLocalGuidance {} := by
    intro j hj id hpromise
    rcases hpromise with hfilled | hcoming | ⟨q, hq, -⟩
    · exact hfilled
    · exact absurd (hanswers j hj id) hcoming
    · rw [hrequests] at hq
      cases hq
  cases hphase : d.phase (layout.threadOf k) with
  | setup =>
    refine hstuck (.checkSetup (layout.threadOf k)) ⟨hphase, fun j hj => ?_⟩
    refine hasUniformGuidance_of_filled hn fun id => hfilled j hj id ?_
    refine (hpromised j).setup ?_ id ?_
    · rw [hmembers j hj, hphase]
    · simpa [Useful] using hstuck (.connected j id)
  | sending =>
    have hqueue : v.queue = [] :=
      hok.serves.idle fun src dst => not_not.mp (hstuck (.exchange src dst))
    have hidle : ∀ j ∈ layout.members (layout.threadOf k), (d.clients j).status = .idle := by
      intro j hj
      have hawaits : ¬ awaiting (d.clients j).status = true := by
        intro hawaits
        have hstage := hok.stages j
        rw [hawaits, hrequests, hqueue, hanswers j hj] at hstage
        cases hstage
      have hstatus := hok.phases j
      rw [hmembers j hj, hphase] at hstatus
      cases hs : (d.clients j).status with
      | init => exact absurd hs hstatus
      | reading => exact absurd (by rw [hs]; rfl) hawaits
      | writing => exact absurd (by rw [hs]; rfl) hawaits
      | idle => rfl
      | waitingGuidance =>
        obtain ⟨hur, hquorum⟩ := (hpromised j).unsure hs
        have hall := checkGuidanceQuorum_of_filled hn
          ((hok.clients j).leading (by rw [hs]; decide))
          fun id => hfilled j hj id ((hpromised j).round hur (.inr hs) id)
        rw [hquorum] at hall
        cases hall
    have hk : k ∈ layout.members (layout.threadOf k) := (layout.mem_members _ k).mpr rfl
    exact hstuck (.turn (layout.threadOf k)) ⟨hphase, ⟨k, hk, hidle k hk⟩, .inr hidle⟩
  | finished => exact hnot hphase

variable [DecidableEq θ] [DecidableEq π] {out : List (Action κ Operation Bytes)}

/-- INTERNAL: a turn that is not useful is refused, or finds no idle client.
SOURCE: app/client2.cpp:204-215, 623-647 -/
theorem DeployOk.unmoved_turn (hok : DeployOk unpack layout cfg o d v a)
    (ho : routedTo n Client.theKey = some o) {t : θ} (hfits : CounterFits layout d (.turn t))
    (hphase : d.phase t = .sending) (hturn : d.turn layout cfg t = .ok (d', out))
    (huseless : ¬ Useful layout cfg d (.turn t)) : Unmoved layout cfg d d' := by
  rcases hok.turn_cases ho hturn with
    ⟨rfl, -, -⟩ | ⟨k, rfl, hidle, ⟨hcan, rfl, -⟩ | ⟨hcan, rfl, -⟩⟩
  · exact Unmoved.refl layout cfg d'
  · rw [hfits.can_iff] at hcan
    exact absurd ⟨hphase, ⟨k, (layout.mem_members _ k).mpr rfl, hidle⟩, .inl hcan⟩ huseless
  · rw [hfits.can_iff, not_lt] at hcan
    have hnot : ¬ ∀ j ∈ layout.members (layout.threadOf k), (d.clients j).status = .idle :=
      fun hall => huseless ⟨hphase, ⟨k, (layout.mem_members _ k).mpr rfl, hidle⟩, .inr hall⟩
    refine ⟨rfl, rfl, rfl, rfl, ?_, fun j => ?_, fun j _ => ?_, fun p => ⟨?_, fun hless => ?_⟩⟩
    · exact if_neg hnot
    · rcases afterRefusal_clients layout d (layout.threadOf k) k j with heq | heq
      · rw [heq]
      · rw [heq]
        rfl
    · rcases afterRefusal_clients layout d (layout.threadOf k) k j with heq | heq
      · rw [heq]
      · rw [heq]
    · exact le_update_succ _ _ _
    · refine Function.update_of_ne ?_ ..
      rintro rfl
      omega

/-- INTERNAL: **an event that is not useful moves nothing.** -/
theorem DeployOk.unmoved (hok : DeployOk unpack layout cfg o d v a) (hn : 0 < n)
    (ho : routedTo n Client.theKey = some o) {event : DeploymentEvent n κ θ}
    (hfits : CounterFits layout d event)
    (hstep : Deployment.step unpack layout cfg d event = .ok (d', out))
    (huseless : ¬ Useful layout cfg d event) : Unmoved layout cfg d d' := by
  cases event with
  | connected k id =>
    obtain ⟨-, ⟨-, rfl⟩ | ⟨hnew, -⟩⟩ := step_connected hstep
    · exact Unmoved.refl layout cfg d'
    · exact absurd hnew huseless
  | receive k id =>
    rcases step_receive hstep with ⟨rfl, -⟩ | ⟨answer, rest, hphase, hnext, -⟩
    · exact Unmoved.refl layout cfg d'
    · exact absurd ⟨hphase, by rw [hnext]; exact List.cons_ne_nil _ _⟩ huseless
  | checkSetup t =>
    obtain ⟨-, ⟨-, rfl⟩ | ⟨hphase, clients, ready, hsetups, rfl⟩⟩ := step_checkSetup hstep
    · exact Unmoved.refl layout cfg d'
    · obtain ⟨clients', ready', hsetups', hset, hready, -⟩ :=
        checkSetups_ok hn (layout.members t) hok.clients
      rw [hsetups] at hsetups'
      cases hsetups'
      have hnot : ¬ ready = true := fun htrue => huseless ⟨hphase, hready.mp htrue⟩
      refine ⟨rfl, rfl, rfl, rfl, if_neg hnot, fun k => ?_, fun k hsending => ?_,
        fun _ => ⟨le_rfl, fun _ => rfl⟩⟩
      · rcases hset k with heq | ⟨-, -, heq⟩
        · exact congrArg hasUniformGuidance heq
        · rw [show ({ d with clients := clients } : Deployment n κ θ π).clients k = _ from heq]
          rfl
      · refine congrArg Client.status ((hset k).resolve_right fun heq => ?_)
        rw [(layout.mem_members t k).mp heq.1, hphase] at hsending
        cases hsending
  | turn t =>
    rcases step_turn hstep with ⟨-, rfl, -⟩ | ⟨hphase, hturn⟩
    · exact Unmoved.refl layout cfg d'
    · exact hok.unmoved_turn ho hfits hphase hturn huseless
  | serve k id =>
    obtain ⟨-, ⟨-, rfl⟩ | ⟨request, rest, servers, effects, hnext, -, -⟩⟩ := step_serve hstep
    · exact Unmoved.refl layout cfg d'
    · exact absurd (by rw [Useful, hnext]; exact List.cons_ne_nil _ _) huseless
  | exchange src dst =>
    obtain ⟨-, servers, effects, hservers, rfl⟩ := step_exchange hstep
    have hempty : d.servers.wire src dst = [] := by simpa [Useful] using huseless
    simp only [Linked.step, hempty] at hservers
    cases hservers
    refine ⟨rfl, rfl, rfl, ?_, rfl, fun _ => rfl, fun _ _ => rfl, fun _ => ⟨le_rfl, fun _ => rfl⟩⟩
    funext i k
    exact List.append_nil _

section Lowering

variable [Fintype κ] [Fintype θ] [Fintype π]

/-- INTERNAL: a turn that is useful sends a message, or ends the thread.
SOURCE: app/client2.cpp:204-215, 623-647 -/
theorem DeployOk.todo_turn (hok : DeployOk unpack layout cfg o d v a)
    (ho : routedTo n Client.theKey = some o) {t : θ} (hfits : CounterFits layout d (.turn t))
    (hturn : d.turn layout cfg t = .ok (d', out)) (huseful : Useful layout cfg d (.turn t)) :
    todo cfg d' < todo cfg d := by
  obtain ⟨hphase, ⟨k₀, hk₀, hidle₀⟩, hsends⟩ := huseful
  have hcounts : ∀ p q, (cfg q).msgNums -
      Function.update d.sentNums p (d.sentNums p + 1) q ≤ (cfg q).msgNums - d.sentNums q :=
    fun p q => Nat.sub_le_sub_left (le_update_succ _ _ _) _
  rcases hok.turn_cases ho hturn with
    ⟨-, -, hnone⟩ | ⟨k, rfl, -, ⟨hcan, rfl, -⟩ | ⟨hcan, rfl, -⟩⟩
  · exact absurd hidle₀ (hnone k₀ hk₀)
  · rw [hfits.can_iff] at hcan
    refine Nat.add_lt_add_right (Nat.add_lt_add_left ?_ _) _
    refine Finset.sum_lt_sum (fun q _ => hcounts _ q)
      ⟨layout.processOf (layout.threadOf k), Finset.mem_univ _, ?_⟩
    dsimp only [afterSend]
    rw [Function.update_self]
    omega
  · rw [hfits.can_iff] at hcan
    have hall := hsends.resolve_left hcan
    refine Nat.add_lt_add_of_le_of_lt
      (Nat.add_le_add_left (Finset.sum_le_sum fun q _ => hcounts _ q) _) ?_
    refine Finset.sum_lt_sum (fun t' _ => ?_) ⟨layout.threadOf k, Finset.mem_univ _, ?_⟩
    · dsimp only [afterRefusal]
      rw [if_pos hall]
      by_cases ht : t' = layout.threadOf k
      · rw [ht, Function.update_self]
        exact Nat.zero_le _
      · rw [Function.update_of_ne ht]
    · dsimp only [afterRefusal]
      rw [if_pos hall, Function.update_self, hphase]
      exact Nat.one_pos

/-- INTERNAL: **a useful event lowers the work.** -/
theorem DeployOk.work_lt (hok : DeployOk unpack layout cfg o d v a) (hn : 0 < n)
    (ho : routedTo n Client.theKey = some o) {event : DeploymentEvent n κ θ}
    (hfits : CounterFits layout d event)
    (hstep : Deployment.step unpack layout cfg d event = .ok (d', out))
    (huseful : Useful layout cfg d event) : work cfg d' < work cfg d := by
  cases event with
  | connected k id =>
    obtain ⟨-, ⟨hold, -⟩ | ⟨-, rfl⟩⟩ := step_connected hstep
    · rw [show d.connected k id = false from huseful] at hold
      cases hold
    · refine Analysis.work_lt (.inl (Nat.add_lt_add_right (Nat.add_lt_add_right ?_ _) _))
      refine sum_sum_lt (fun k' j => ?_) k id ?_
      · by_cases hk : k' = k
        · subst hk
          dsimp only
          rw [Function.update_self]
          by_cases hj : j = id
          · subst hj
            rw [Function.update_self]
            exact Nat.zero_le _
          · rw [Function.update_of_ne hj]
        · dsimp only
          rw [Function.update_of_ne hk]
      · dsimp only
        rw [Function.update_self, Function.update_self, show d.connected k id = false from huseful]
        exact Nat.one_pos
  | receive k id =>
    rcases step_receive hstep with ⟨-, -, hnone⟩ | ⟨answer, rest, -, hnext, heq⟩
    · exact absurd hnone (not_or.mpr huseful)
    · obtain ⟨rfl, -⟩ := Prod.mk.inj heq
      refine Analysis.work_lt (.inr ⟨rfl, .inr ⟨rfl, .inr ⟨rfl, ?_⟩⟩⟩)
      refine sum_sum_lt (fun i k' => ?_) id k ?_
      · dsimp only [Deployment.receive]
        split_ifs
        · rw [List.length_tail]
          exact Nat.sub_le _ _
        · exact le_rfl
      · dsimp only [Deployment.receive]
        rw [if_pos ⟨rfl, rfl⟩, hnext]
        exact Nat.lt_succ_self _
  | checkSetup t =>
    obtain ⟨-, ⟨hphase, -⟩ | ⟨hphase, clients, ready, hsetups, rfl⟩⟩ := step_checkSetup hstep
    · exact absurd huseful.1 hphase
    · obtain ⟨clients', ready', hsetups', -, hready, -⟩ :=
        checkSetups_ok hn (layout.members t) hok.clients
      rw [hsetups] at hsetups'
      cases hsetups'
      refine Analysis.work_lt (.inl (Nat.add_lt_add_left ?_ _))
      dsimp only
      rw [if_pos (hready.mpr huseful.2)]
      refine Finset.sum_lt_sum (fun t' _ => ?_) ⟨t, Finset.mem_univ t, ?_⟩
      · by_cases ht : t' = t
        · subst ht
          rw [Function.update_self, hphase]
          exact Nat.le_succ 1
        · rw [Function.update_of_ne ht]
      · rw [Function.update_self, hphase]
        exact Nat.lt_succ_self 1
  | turn t =>
    rcases step_turn hstep with ⟨hphase, -⟩ | ⟨-, hturn⟩
    · exact absurd huseful.1 hphase
    · exact Analysis.work_lt (.inl (hok.todo_turn ho hfits hturn huseful))
  | serve k id =>
    obtain ⟨-, ⟨hnone, -⟩ | ⟨request, rest, servers, effects, hnext, -, rfl⟩⟩ := step_serve hstep
    · exact absurd hnone huseful
    · refine Analysis.work_lt (.inr ⟨rfl, .inl (sum_sum_lt (fun k' j => ?_) k id ?_)⟩)
      · dsimp only
        by_cases hk : k' = k
        · subst hk
          rw [Function.update_self]
          by_cases hj : j = id
          · subst hj
            rw [Function.update_self, hnext]
            exact Nat.le_succ _
          · rw [Function.update_of_ne hj]
        · rw [Function.update_of_ne hk]
      · dsimp only
        rw [Function.update_self, Function.update_self, hnext]
        exact Nat.lt_succ_self _
  | exchange src dst =>
    obtain ⟨-, servers, effects, hservers, rfl⟩ := step_exchange hstep
    obtain ⟨linked, hlinked⟩ := hok.serves.linked
    have hread := hlinked.read (show Reads d.servers (.arrive src dst) from huseful) hservers
    refine Analysis.work_lt (.inr ⟨rfl, .inr ⟨rfl, .inl ?_⟩⟩)
    dsimp only
    omega

end Lowering

end Steps

/-! ## Runs -/

section Runs

variable [DecidableEq κ] [DecidableEq θ] [DecidableEq π] [Fintype κ] [Fintype θ] [Fintype π]

/-- INTERNAL: a fair run within the bounds comes to a state in which every thread with a client has
ended. -/
theorem fair_run_ends (unpack : Bytes → Option Operation) (layout : Layout κ θ π)
    (cfg : π → ProcessConfig) (hn : 2 ≤ n) {o : Fin n} (ho : routedTo n Client.theKey = some o)
    (hpack : ∀ p, unpack (messageOf (cfg p)).op = some (operationOf (cfg p)))
    (hshort : ∀ p, ((cfg p).packMessage (messageOf (cfg p))).length < 2000)
    (hroom : writesAtMost cfg ≤ reservedEntries)
    {f : ℕ → DeploymentEvent n κ θ} (hfair : Machine.Fair f)
    (hfits : ∀ m, Machine.Guarded (Deployment.step unpack layout cfg) (CounterFits layout)
      (Deployment.init n layout cfg) (upTo f m)) :
    ∃ b d h, Machine.run (Deployment.step unpack layout cfg) (Deployment.init n layout cfg)
        (upTo f b) = .ok (d, h) ∧ ∀ k, d.phase (layout.threadOf k) = .finished := by
  have hpos : 0 < n := by omega
  obtain ⟨b, d, h, hrun, ⟨⟨⟨v, a, hok⟩, -⟩, hpromised⟩, hstuck⟩ :=
    Machine.run_settles (Deployment.step unpack layout cfg) (U := Useful layout cfg)
      (μ := work cfg) (G := CounterFits layout)
      (J := fun d => RunsOn unpack layout cfg o d ∧ AllPromised unpack layout cfg d)
      (fun d event hJ hG => by
        obtain ⟨hruns, hpromised⟩ := hJ
        obtain ⟨d', out, hstep, hruns'⟩ := hruns.step hn ho hpack hshort hroom hG
        obtain ⟨⟨v, a, hok⟩, -⟩ := hruns
        refine ⟨d', out, hstep, ⟨hruns', hpromised.step hok hpos ho hpack hstep⟩,
          hok.work_lt hpos ho hG hstep, fun huseless => ?_⟩
        have hunmoved := hok.unmoved hpos ho hG hstep huseless
        exact ⟨hunmoved.work_le, fun _ => hunmoved.useful⟩)
      ⟨⟨⟨_, _, DeployOk.init unpack layout cfg o⟩, Room.init unpack layout cfg o⟩,
        AllPromised.init unpack layout cfg⟩ hfits hfair
  exact ⟨b, d, h, hrun, hok.finished_of_stuck hpromised hpos hstuck⟩

/-- **Every fair run finishes.**  Let two or more servers, connected to each other, and finitely
many clients, threads and processes, of the guidance-read and the unreplicated mode, run in any
order in which each client connects at some time, each stream is read again and again, so that no
frame stays in a buffer for ever, and each thread takes its turn again and again.  When
`pack_operation` accepts the message of every process, the processes that write are configured
to at most 1000000 messages together, and no counter of a process runs over, there is a time from
which on, for every client: its thread has ended, its process has sent exactly as many operations
as it is configured to, and every operation of the client has been answered.
SOURCE: app/client2.cpp:39, 204-294, 350-456, 460-568, 577-660; app/utils.cpp:21-42;
app/server.cpp:158-178, 185-229; core/smr.cpp:10, 30-45, 115-141, 174-286;
core/morphling.cpp:58-147, 157-231 -/
theorem fair_runs_finish (unpack : Bytes → Option Operation) (layout : Layout κ θ π)
    (cfg : π → ProcessConfig) (hn : 2 ≤ n) (hn' : n ≤ 255)
    (hpack : ∀ p, unpack ((cfg p).pack (operationOf (cfg p))) = some (operationOf (cfg p)))
    (hshort : ∀ p, ((cfg p).packMessage (messageOf (cfg p))).length < 2000)
    (hroom : writesAtMost cfg ≤ 1000000)
    (f : ℕ → DeploymentEvent n κ θ) (hfair : Machine.Fair f)
    (hfits : ∀ m, Machine.Guarded (Deployment.step unpack layout cfg) (CounterFits layout)
      (Deployment.init n layout cfg) (upTo f m)) :
    ∃ b, ∀ m, b ≤ m → ∃ d h,
      Machine.run (Deployment.step unpack layout cfg) (Deployment.init n layout cfg)
        (upTo f m) = .ok (d, h) ∧
      ∀ k, d.phase (layout.threadOf k) = .finished ∧
        sentBy layout (layout.processOf (layout.threadOf k)) h = (cfgOf layout cfg k).msgNums ∧
        answeredTo k h = sentByClient k h := by
  obtain ⟨o, ho⟩ := theKey_routed (by omega) hn'
  obtain ⟨b, d₀, h₀, hrun₀, hended₀⟩ :=
    fair_run_ends unpack layout cfg hn ho hpack hshort hroom hfair hfits
  refine ⟨b, fun m hm => ?_⟩
  obtain ⟨d, h, hrun⟩ := deployment_returns hn ho hpack hshort hroom (hfits m)
  refine ⟨d, h, hrun, fun k => ?_⟩
  -- what has ended by the time `b` stays ended
  have hended : d.phase (layout.threadOf k) = .finished := by
    have hlater := hrun
    rw [← Nat.add_sub_cancel' hm, upTo_add] at hlater
    obtain ⟨d₁, h₁, h₂, hfirst, hrest⟩ := Machine.exists_of_run_append _ hlater
    rw [hrun₀] at hfirst
    cases hfirst
    exact Machine.run_keeps _ (I := fun d => d.phase (layout.threadOf k) = .finished)
      (fun _ _ _ _ hI hs => step_finished hI hs) (hended₀ k) hrest
  obtain ⟨hanswered, hsent⟩ := (counted_of_run hrun).of_finished hended
  exact ⟨hended, hsent (counter_of_run (hfits m) hrun _), hanswered⟩

omit [Fintype κ] [Fintype θ] [Fintype π] in
/-- INTERNAL: once all threads have ended, the counters stand still.
SOURCE: app/client2.cpp:623-660 -/
theorem fits_of_ended {layout : Layout κ θ π} {cfg : π → ProcessConfig} {d : Deployment n κ θ π}
    (hended : ∀ t, d.phase t = .finished) (hcount : ∀ p, d.sentNums p + 1 < 2 ^ 31)
    (events : List (DeploymentEvent n κ θ)) :
    Machine.Guarded (Deployment.step unpack layout cfg) (CounterFits layout) d events :=
  Machine.guarded_of_invariant (Deployment.step unpack layout cfg) (G := fun _ _ => True)
    (J := fun d => (∀ t, d.phase t = .finished) ∧ ∀ p, d.sentNums p + 1 < 2 ^ 31)
    (fun d event hJ _ => by
      cases event with
      | turn t => exact hJ.2 _
      | connected k id => trivial
      | receive k id => trivial
      | checkSetup t => trivial
      | serve k id => trivial
      | exchange src dst => trivial)
    (fun d event d' out hJ _ hs => by
      refine ⟨fun t => step_finished (hJ.1 t) hs, ?_⟩
      rcases sentNums_step hs with hsame | ⟨t, rfl, hphase, -⟩
      · rw [hsame]
        exact hJ.2
      · rw [hJ.1 t] at hphase
        cases hphase)
    ⟨hended, hcount⟩ (Machine.guarded_of_forall _ (fun _ _ _ => trivial) _)

omit [Fintype κ] [Fintype θ] [Fintype π] in
/-- INTERNAL: no counter runs over in a schedule in which none does until all threads have ended. -/
theorem fits_upTo {layout : Layout κ θ π} {cfg : π → ProcessConfig}
    {f : ℕ → DeploymentEvent n κ θ} {b : ℕ}
    (hfits : Machine.Guarded (Deployment.step unpack layout cfg) (CounterFits layout)
      (Deployment.init n layout cfg) (upTo f b))
    (hends : ∀ d h, Machine.run (Deployment.step unpack layout cfg) (Deployment.init n layout cfg)
      (upTo f b) = .ok (d, h) →
        (∀ t, d.phase t = .finished) ∧ ∀ p, d.sentNums p + 1 < 2 ^ 31) (m : ℕ) :
    Machine.Guarded (Deployment.step unpack layout cfg) (CounterFits layout)
      (Deployment.init n layout cfg) (upTo f m) := by
  rcases le_total m b with hle | hle
  · rw [← Nat.add_sub_cancel' hle, upTo_add] at hfits
    exact Machine.Guarded.of_append _ hfits
  · rw [← Nat.add_sub_cancel' hle, upTo_add]
    refine Machine.Guarded.append _ hfits fun d h hrun => ?_
    obtain ⟨hended, hcount⟩ := hends d h hrun
    exact fits_of_ended hended hcount _

end Runs

/-- All events of three servers and two clients, one after another. -/
def oneRound : List (DeploymentEvent 3 (Fin 2) (Fin 2)) :=
  let streams := (List.finRange 2).flatMap fun k => (List.finRange 3).map fun id => (k, id)
  streams.map (fun s => .connected s.1 s.2) ++ streams.map (fun s => .serve s.1 s.2) ++
    ((List.finRange 3).flatMap fun src => (List.finRange 3).map fun dst => .exchange src dst) ++
    streams.map (fun s => .receive s.1 s.2) ++
    (List.finRange 2).flatMap fun t => [.checkSetup t, .turn t]

/-- Round after round. -/
def rounds (j : ℕ) : DeploymentEvent 3 (Fin 2) (Fin 2) :=
  oneRound.getD (j % oneRound.length) (.turn ⟨0, Nat.two_pos⟩)

/-- INTERNAL: two processes, of which one writes and one reads, have ended after two rounds. -/
theorem two_rounds_end {d : Deployment 3 (Fin 2) (Fin 2) (Fin 2)}
    {h : List (Action (Fin 2) Operation Bytes)}
    (hrun : Machine.run (Deployment.step unpackOperation oneEach writerAndReader)
      (Deployment.init 3 oneEach writerAndReader) (upTo rounds 62) = .ok (d, h)) :
    (∀ t, d.phase t = .finished) ∧ ∀ p, d.sentNums p + 1 < 2 ^ 31 := by
  have hends : (Machine.run (Deployment.step unpackOperation oneEach writerAndReader)
      (Deployment.init 3 oneEach writerAndReader) (upTo rounds 62)).toOption.map
        (fun r => (r.1.phase 0, r.1.phase 1, r.1.sentNums 0, r.1.sentNums 1)) =
      some (.finished, .finished, 2, 2) := by
    decide +kernel
  rw [hrun] at hends
  obtain ⟨hended₀, hrest⟩ := Prod.mk.inj (Option.some.inj hends)
  obtain ⟨hended₁, hrest⟩ := Prod.mk.inj hrest
  obtain ⟨hcount₀, hcount₁⟩ := Prod.mk.inj hrest
  refine ⟨fun t => ?_, fun p => ?_⟩
  · fin_cases t
    · exact hended₀
    · exact hended₁
  · fin_cases p
    · exact hcount₀.symm ▸ by decide
    · exact hcount₁.symm ▸ by decide

/-- Two processes, of which one writes and one reads, end when all events come in turn. -/
theorem rounds_finish :
    ∃ m d h, Machine.run (Deployment.step unpackOperation oneEach writerAndReader)
        (Deployment.init 3 oneEach writerAndReader) (upTo rounds m) = .ok (d, h) ∧
      d.phase 0 = .finished ∧ d.phase 1 = .finished ∧ sentBy oneEach 0 h = 1 ∧
      sentBy oneEach 1 h = 1 := by
  have hall : ∀ event, event ∈ oneRound := by
    intro event
    cases event <;> simp [oneRound]
  obtain ⟨b, hfrom⟩ := fair_runs_finish (n := 3) unpackOperation oneEach writerAndReader
    (by decide) (by decide) writerAndReader_packs (by decide) (by decide) rounds
    (fair_cycle hall (.turn 0))
    (fits_upTo (b := 62) (by decide +kernel) fun _ _ hrun => two_rounds_end hrun)
  obtain ⟨d, h, hrun, hends⟩ := hfrom b le_rfl
  exact ⟨b, d, h, hrun, (hends 0).1, (hends 1).1, (hends 0).2.1, (hends 1).2.1⟩

end MorphlingC.Analysis
