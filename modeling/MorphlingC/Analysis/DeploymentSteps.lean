import MorphlingC.Model.Deployment

/-!
# What an event does to clients and servers

Read off `Deployment.step` once for each event: when the step returns, it has done nothing, or
exactly what the lemma says.  The proofs about runs of clients and servers that do not build the
step themselves start from these.
-/

set_option autoImplicit false

namespace MorphlingC.Analysis

open MorphlingC.Library MorphlingC.Model MorphlingC.Model.Client MorphlingC.Model.Deployment

variable {n : ℕ} {κ θ π : Type} [DecidableEq κ] [DecidableEq θ] [DecidableEq π]
  {unpack : Bytes → Option Operation} {layout : Layout κ θ π} {cfg : π → ProcessConfig}
  {d d' : Deployment n κ θ π} {out : List (Action κ Operation Bytes)}

/-- INTERNAL: a connection is made, and the guidance is asked for.
SOURCE: app/client2.cpp:460-473 -/
theorem step_connected {k : κ} {id : Fin n}
    (h : Deployment.step unpack layout cfg d (.connected k id) = .ok (d', out)) :
    out = [] ∧ (d.connected k id = true ∧ d' = d ∨ d.connected k id = false ∧ d' = { d with
      connected := Function.update d.connected k (Function.update (d.connected k) id true)
      toServer := post d.toServer k [(id, .getGuidance)] }) := by
  unfold Deployment.step at h
  dsimp only at h
  split_ifs at h with hconn
  · cases h
    exact ⟨rfl, .inl ⟨hconn, rfl⟩⟩
  · cases h
    exact ⟨rfl, .inr ⟨by simpa using hconn, rfl⟩⟩

/-- INTERNAL: a client reads the next message of a server, when there is one and its thread has
not ended. SOURCE: app/client2.cpp:475-524 -/
theorem step_receive {k : κ} {id : Fin n}
    (h : Deployment.step unpack layout cfg d (.receive k id) = .ok (d', out)) :
    (d' = d ∧ out = [] ∧
        (d.phase (layout.threadOf k) = .finished ∨ d.toClient id k = [])) ∨
      ∃ answer rest, d.phase (layout.threadOf k) ≠ .finished ∧
        d.toClient id k = answer :: rest ∧ (d', out) = d.receive layout cfg k id answer := by
  unfold Deployment.step at h
  dsimp only at h
  split_ifs at h with hfinished
  · cases h
    exact .inl ⟨rfl, rfl, .inl hfinished⟩
  · split at h
    · rename_i hnext
      cases h
      exact .inl ⟨rfl, rfl, .inr hnext⟩
    · rename_i answer rest hnext
      exact .inr ⟨answer, rest, hfinished, hnext, (Except.ok.inj h).symm⟩

/-- INTERNAL: a thread that is set up checks its clients. SOURCE: app/client2.cpp:553-568,
605-621 -/
theorem step_checkSetup {t : θ}
    (h : Deployment.step unpack layout cfg d (.checkSetup t) = .ok (d', out)) :
    out = [] ∧ (d.phase t ≠ .setup ∧ d' = d ∨ d.phase t = .setup ∧ ∃ clients ready,
      checkSetups d.clients (layout.members t) = .ok (clients, ready) ∧ d' = { d with
        clients := clients
        phase := if ready then Function.update d.phase t .sending else d.phase }) := by
  unfold Deployment.step at h
  dsimp only at h
  split_ifs at h with hphase
  · cases h
    exact ⟨rfl, .inl ⟨hphase, rfl⟩⟩
  · obtain ⟨⟨clients, ready⟩, hsetups, h⟩ := bind_eq_ok.mp h
    cases h
    exact ⟨rfl, .inr ⟨not_not.mp hphase, clients, ready, mapError_eq_ok.mp hsetups, rfl⟩⟩

/-- INTERNAL: a thread that sends takes a turn. SOURCE: app/client2.cpp:623-656 -/
theorem step_turn {t : θ}
    (h : Deployment.step unpack layout cfg d (.turn t) = .ok (d', out)) :
    (d.phase t ≠ .sending ∧ d' = d ∧ out = []) ∨
      d.phase t = .sending ∧ d.turn layout cfg t = .ok (d', out) := by
  unfold Deployment.step at h
  dsimp only at h
  split_ifs at h with hphase
  · cases h
    exact .inl ⟨hphase, rfl, rfl⟩
  · exact .inr ⟨not_not.mp hphase, h⟩

/-- INTERNAL: a server reads the next message of a client, when there is one.
SOURCE: app/server.cpp:158-178 -/
theorem step_serve {k : κ} {id : Fin n}
    (h : Deployment.step unpack layout cfg d (.serve k id) = .ok (d', out)) :
    out = [] ∧ (d.toServer k id = [] ∧ d' = d ∨ ∃ request rest servers effects,
      d.toServer k id = request :: rest ∧
      Linked.step unpack d.servers (Request.event k id request) = .ok (servers, effects) ∧
      d' = { d with
        servers := servers
        toServer := Function.update d.toServer k (Function.update (d.toServer k) id rest)
        toClient := deliver d.toClient effects }) := by
  unfold Deployment.step at h
  dsimp only at h
  split at h
  · rename_i hnext
    cases h
    exact ⟨rfl, .inl ⟨hnext, rfl⟩⟩
  · rename_i request rest hnext
    obtain ⟨d₁, hserve, h⟩ := bind_eq_ok.mp h
    cases h
    obtain ⟨⟨servers, effects⟩, hservers, hserve⟩ := bind_eq_ok.mp hserve
    cases hserve
    exact ⟨rfl, .inr ⟨request, rest, servers, effects, hnext, mapError_eq_ok.mp hservers, rfl⟩⟩

/-- INTERNAL: a server reads what another one has sent. SOURCE: app/server.cpp:185-229 -/
theorem step_exchange {src dst : Fin n}
    (h : Deployment.step unpack layout cfg d (.exchange src dst) = .ok (d', out)) :
    out = [] ∧ ∃ servers effects,
      Linked.step unpack d.servers (.arrive src dst) = .ok (servers, effects) ∧
      d' = { d with servers := servers, toClient := deliver d.toClient effects } := by
  obtain ⟨d₁, hserve, h⟩ := bind_eq_ok.mp h
  cases h
  obtain ⟨⟨servers, effects⟩, hservers, hserve⟩ := bind_eq_ok.mp hserve
  cases hserve
  exact ⟨rfl, servers, effects, mapError_eq_ok.mp hservers, rfl⟩

/-- INTERNAL: a thread that has ended does not start again. SOURCE: app/client2.cpp:623-660 -/
theorem step_finished {t : θ} (hended : d.phase t = .finished)
    {event : DeploymentEvent n κ θ}
    (h : Deployment.step unpack layout cfg d event = .ok (d', out)) : d'.phase t = .finished := by
  cases event with
  | connected k id =>
    obtain ⟨-, ⟨-, rfl⟩ | ⟨-, rfl⟩⟩ := step_connected h
    · exact hended
    · exact hended
  | receive k id =>
    rcases step_receive h with ⟨rfl, -⟩ | ⟨answer, rest, -, -, heq⟩
    · exact hended
    · obtain ⟨rfl, -⟩ := Prod.mk.inj heq
      exact hended
  | checkSetup t' =>
    obtain ⟨-, ⟨-, rfl⟩ | ⟨hsetup, clients, ready, -, rfl⟩⟩ := step_checkSetup h
    · exact hended
    · have hne : t ≠ t' := by
        rintro rfl
        rw [hended] at hsetup
        cases hsetup
      dsimp only
      split_ifs
      · rwa [Function.update_of_ne hne]
      · exact hended
  | turn t' =>
    rcases step_turn h with ⟨-, rfl, -⟩ | ⟨-, hturn⟩
    · exact hended
    · unfold Deployment.turn at hturn
      split at hturn
      · cases hturn
        exact hended
      · obtain ⟨⟨c, sends⟩, -, hturn⟩ := bind_eq_ok.mp hturn
        obtain ⟨rfl, -⟩ := Prod.mk.inj (Except.ok.inj hturn)
        dsimp only
        split_ifs
        · by_cases ht : t = t'
          · subst ht
            exact Function.update_self ..
          · rwa [Function.update_of_ne ht]
        · exact hended
  | serve k id =>
    obtain ⟨-, ⟨-, rfl⟩ | ⟨request, rest, servers, effects, -, -, rfl⟩⟩ := step_serve h
    · exact hended
    · exact hended
  | exchange src dst =>
    obtain ⟨-, servers, effects, -, rfl⟩ := step_exchange h
    exact hended

end MorphlingC.Analysis
