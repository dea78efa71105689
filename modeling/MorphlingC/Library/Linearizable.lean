import MorphlingC.Library.Machine
import Mathlib.Logic.Function.Basic

/-!
# Linearizable histories

What clients see of a shared object is a history: who has asked for what, and what came back.
A history is linearizable when it is one of the atomic object, at which each operation of a
client takes effect at one point between the two.

The atomic object is a machine (`Atomic.step`) that emits the history, and that fails on what
cannot happen: a client that asks again before it has its answer, or an answer before the
operation has taken effect.  So an implementation is shown to be linearizable by the
refinement rule of `MorphlingC.Library.Schedules`.  `Atomic.run_takes` is the rule for
operations of several clients that take effect one after another.
-/

set_option autoImplicit false

namespace MorphlingC.Library

/-- What is seen at the clients `κ` of an object with operations `ω` and answers `ρ`. -/
inductive Action (κ ω ρ : Type) where
  | invoke (k : κ) (op : ω)
  | respond (k : κ) (ret : ρ)
deriving DecidableEq

/-- Where the operation of a client stands: there is none, it has not taken effect, or it has,
and this is its answer. -/
inductive Call (ω ρ : Type) where
  | idle
  | invoked (op : ω)
  | taken (ret : ρ)
deriving DecidableEq

/-- An object and the operations of its clients. -/
structure Atomic (α κ ω ρ : Type) where
  object : α
  call : κ → Call ω ρ

/-- A client asks for an operation, the operation takes effect, or the client is answered. -/
inductive AtomicEvent (κ ω : Type) where
  | invoke (k : κ) (op : ω)
  | take (k : κ)
  | respond (k : κ)

namespace Atomic

variable {α κ ω ρ : Type} (execute : α → ω → α × ρ)

/-- The operations of some clients done one after another: the object, and the answers. -/
def executeAll : α → List (κ × ω) → α × List (κ × ρ)
  | object, [] => (object, [])
  | object, (k, op) :: rest =>
    let (object, ret) := execute object op
    let (object, rets) := executeAll object rest
    (object, (k, ret) :: rets)

/-- The clients are answered in the order of their operations. -/
theorem executeAll_map_fst (object : α) (ops : List (κ × ω)) :
    (executeAll execute object ops).2.map Prod.fst = ops.map Prod.fst := by
  induction ops generalizing object with
  | nil => rfl
  | cons q rest ih =>
    obtain ⟨k, op⟩ := q
    exact congrArg (k :: ·) (ih _)

variable [DecidableEq κ]

/-- The atomic object, as a machine that emits the history at its clients; `execute` is what an
operation does to the object, and its answer. -/
def step : Machine (Atomic α κ ω ρ) (AtomicEvent κ ω) (Action κ ω ρ) Unit
  | s, .invoke k op =>
    match s.call k with
    | .idle => .ok ({ s with call := Function.update s.call k (.invoked op) }, [.invoke k op])
    | .invoked _ => .error ()
    | .taken _ => .error ()
  | s, .take k =>
    match s.call k with
    | .idle => .error ()
    | .invoked op =>
      let (object, ret) := execute s.object op
      .ok ({ object := object, call := Function.update s.call k (.taken ret) }, [])
    | .taken _ => .error ()
  | s, .respond k =>
    match s.call k with
    | .idle => .error ()
    | .invoked _ => .error ()
    | .taken ret => .ok ({ s with call := Function.update s.call k .idle }, [.respond k ret])

/-- An object at which no client has asked for anything. -/
def init (object : α) : Atomic α κ ω ρ where
  object := object
  call := fun _ => .idle

/-- A client without an operation may ask for one. -/
theorem step_invoke {s : Atomic α κ ω ρ} {k : κ} (h : s.call k = .idle) (op : ω) :
    step execute s (.invoke k op) =
      .ok ({ s with call := Function.update s.call k (.invoked op) }, [.invoke k op]) := by
  simp only [step, h]

/-- An operation that has been asked for may take effect. -/
theorem step_take {s : Atomic α κ ω ρ} {k : κ} {op : ω} (h : s.call k = .invoked op) :
    step execute s (.take k) = .ok
      ({ object := (execute s.object op).1
         call := Function.update s.call k (.taken (execute s.object op).2) }, []) := by
  simp only [step, h]

/-- A client whose operation has taken effect may be answered. -/
theorem step_respond {s : Atomic α κ ω ρ} {k : κ} {ret : ρ} (h : s.call k = .taken ret) :
    step execute s (.respond k) =
      .ok ({ s with call := Function.update s.call k .idle }, [.respond k ret]) := by
  simp only [step, h]

/-- **The rule for operations that take effect one after another**, each of another client. -/
theorem run_takes {ops : List (κ × ω)} {s : Atomic α κ ω ρ} (hnodup : (ops.map Prod.fst).Nodup)
    (hcalls : ∀ q ∈ ops, s.call q.1 = .invoked q.2) :
    ∃ t : Atomic α κ ω ρ, Machine.run (step execute) s (ops.map fun q => .take q.1) = .ok (t, []) ∧
      t.object = (executeAll execute s.object ops).1 ∧
      (∀ a ∈ (executeAll execute s.object ops).2, t.call a.1 = .taken a.2) ∧
      ∀ k, k ∉ ops.map Prod.fst → t.call k = s.call k := by
  induction ops generalizing s with
  | nil => exact ⟨s, rfl, rfl, fun _ h => absurd h List.not_mem_nil, fun _ _ => rfl⟩
  | cons q rest ih =>
    obtain ⟨k, op⟩ := q
    rw [List.map_cons, List.nodup_cons] at hnodup
    obtain ⟨hk, hrest⟩ := hnodup
    have htake := step_take execute (hcalls (k, op) List.mem_cons_self)
    obtain ⟨t, hrun, hobject, htaken, hsame⟩ := ih
      (s := { object := (execute s.object op).1
              call := Function.update s.call k (.taken (execute s.object op).2) }) hrest
      fun q hq => by
        have hne : q.1 ≠ k := by
          rintro rfl
          exact hk (List.mem_map.mpr ⟨q, hq, rfl⟩)
        dsimp only
        rw [Function.update_of_ne hne]
        exact hcalls q (List.mem_cons_of_mem _ hq)
    refine ⟨t, (Machine.run_cons_ok _).mpr ⟨_, [], [], htake, hrun, rfl⟩, hobject, ?_, ?_⟩
    · intro a ha
      rcases List.mem_cons.mp ha with rfl | hlater
      · rw [hsame k hk]
        exact Function.update_self ..
      · exact htaken a hlater
    · intro j hj
      rw [List.map_cons, List.mem_cons, not_or] at hj
      rw [hsame j hj.2]
      exact Function.update_of_ne hj.1 ..

end Atomic

/-- The history is one of the atomic object. -/
def Linearizable {α κ ω ρ : Type} [DecidableEq κ] (execute : α → ω → α × ρ) (object : α)
    (h : List (Action κ ω ρ)) : Prop :=
  ∃ events s, Machine.run (Atomic.step execute) (Atomic.init object) events = .ok (s, h)

end MorphlingC.Library
