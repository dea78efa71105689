import Mathlib.Data.List.Basic

/-!
# Machines that read inputs, may fail, and emit outputs

A `Machine` is one step of a reactive program: it takes the state and one input and
either fails or returns the next state with the outputs of that step.  `run` feeds it a
list of inputs and collects the outputs in order; a failed step ends the run.

Two ways of speaking about a whole run are used.  `Guarded G` says that every input that
is read meets `G` in the state it is read in: it is how an assumption on the environment,
or on the branches taken, is put on a run.  `Throughout R` says that every step that
returns relates the state and outputs before it to those after it by `R`: it is how a
property of every state reached is put.  The rules below turn a fact about one step into
a fact about every run.
-/

set_option autoImplicit false

namespace MorphlingC.Library

/-! ## Computations that may fail -/

/-- A bound computation goes on from the value it has. -/
@[simp] theorem ok_bind {φ α β : Type} (a : α) (f : α → Except φ β) :
    (Except.ok a >>= f) = f a := rfl

/-- A bound computation stops at the first failure. -/
@[simp] theorem error_bind {φ α β : Type} (e : φ) (f : α → Except φ β) :
    ((Except.error e : Except φ α) >>= f) = Except.error e := rfl

/-- A bound computation that returns has a first part that returns. -/
theorem bind_eq_ok {φ α β : Type} {x : Except φ α} {f : α → Except φ β} {r : β} :
    (x >>= f) = .ok r ↔ ∃ a, x = .ok a ∧ f a = .ok r := by
  cases x with
  | error e => simp
  | ok a => simp

/-- Renaming the failures of a computation does not make it return. -/
theorem mapError_eq_ok {φ ψ α : Type} {x : Except φ α} {f : φ → ψ} {r : α} :
    x.mapError f = .ok r ↔ x = .ok r := by
  cases x with
  | error e => simp [Except.mapError]
  | ok a => simp [Except.mapError]

/-- When a computation gives `g a` of every `a` of which it gives anything, so it does of a
list. -/
theorem eq_map_of_mapM {φ α β : Type} {f : α → Except φ β} {g : α → β}
    (h : ∀ a b, f a = .ok b → b = g a) {xs : List α} {ys : List β} (hm : xs.mapM f = .ok ys) :
    ys = xs.map g := by
  induction xs generalizing ys with
  | nil =>
    cases hm
    rfl
  | cons x xs ih =>
    rw [List.mapM_cons] at hm
    obtain ⟨y, hy, hm⟩ := bind_eq_ok.mp hm
    obtain ⟨others, hothers, hm⟩ := bind_eq_ok.mp hm
    cases hm
    rw [h x y hy, ih hothers, List.map_cons]

/-! ## Machines -/

/-- One step of a reactive program: a state and an input give a failure, or the next
state and the outputs of the step. -/
abbrev Machine (σ ι ο φ : Type) := σ → ι → Except φ (σ × List ο)

namespace Machine

variable {σ ι ο φ : Type} (m : Machine σ ι ο φ)

/-- Feed a list of inputs to the machine; the outputs are concatenated in order, and the
first failure ends the run. -/
def run : σ → List ι → Except φ (σ × List ο)
  | s, [] => .ok (s, [])
  | s, i :: is =>
    match m s i with
    | .error f => .error f
    | .ok (s', o) =>
      match run s' is with
      | .error f => .error f
      | .ok (t, os) => .ok (t, o ++ os)

/-- Every input of the run meets `G` in the state in which it is read. -/
def Guarded (G : σ → ι → Prop) : σ → List ι → Prop
  | _, [] => True
  | s, i :: is => G s i ∧ ∀ s' o, m s i = .ok (s', o) → Guarded G s' is

/-- Every step of the run that returns relates the state and all outputs so far, before
the step, to those after it by `R`. -/
def Throughout (R : σ → List ο → σ → List ο → Prop) : σ → List ο → List ι → Prop
  | _, _, [] => True
  | s, h, i :: is => ∀ s' o, m s i = .ok (s', o) →
      R s h s' (h ++ o) ∧ Throughout R s' (h ++ o) is

/-- Every step of the run that returns has `P` of its state, its input, and what it returns. -/
def EachStep (P : σ → ι → σ → List ο → Prop) : σ → List ι → Prop
  | _, [] => True
  | s, i :: is => ∀ s' o, m s i = .ok (s', o) → P s i s' o ∧ EachStep P s' is

/-- A guard that is asked for only when the step returns. -/
def WhenReturns (G : σ → ι → Prop) (s : σ) (i : ι) : Prop :=
  (∃ s' o, m s i = .ok (s', o)) → G s i

/-- The machine with all its outputs so far kept beside the state, so that guards can speak
of them. -/
def recorded : Machine (σ × List ο) ι ο φ
  | (s, h), i => (m s i).map fun r => ((r.1, h ++ r.2), r.2)

/-- What a step of the recorded machine does. -/
theorem recorded_ok {p p' : σ × List ο} {i : ι} {o : List ο} :
    m.recorded p i = .ok (p', o) ↔ m p.1 i = .ok (p'.1, o) ∧ p'.2 = p.2 ++ o := by
  obtain ⟨s, h⟩ := p
  obtain ⟨s', h'⟩ := p'
  cases hs : m s i with
  | error f => simp [recorded, hs, Except.map]
  | ok r =>
    obtain ⟨t, outs⟩ := r
    simp only [recorded, hs, Except.map, Except.ok.injEq, Prod.mk.injEq]
    constructor
    · rintro ⟨⟨rfl, rfl⟩, rfl⟩
      exact ⟨⟨rfl, rfl⟩, rfl⟩
    · rintro ⟨⟨rfl, rfl⟩, rfl⟩
      exact ⟨⟨rfl, rfl⟩, rfl⟩

/-- A guarded run can be checked by running it. -/
instance decidableGuarded {G : σ → ι → Prop} [∀ s, DecidablePred (G s)] :
    ∀ (s : σ) (is : List ι), Decidable (m.Guarded G s is)
  | _, [] => isTrue trivial
  | s, i :: is =>
    match hs : m s i with
    | .error _ =>
      decidable_of_iff (G s i) <| by simp [Guarded, hs]
    | .ok (s', o) =>
      have : Decidable (m.Guarded G s' is) := decidableGuarded s' is
      decidable_of_iff (G s i ∧ m.Guarded G s' is) <| by
        simp only [Guarded, hs, Except.ok.injEq, Prod.mk.injEq]
        apply and_congr_right
        intro _
        constructor
        · rintro h t o' ⟨rfl, -⟩
          exact h
        · intro h
          exact h s' o ⟨rfl, rfl⟩

/-- A guard asked for only when the step returns can be checked by making the step. -/
instance decidableWhenReturns {G : σ → ι → Prop} [∀ s, DecidablePred (G s)] (s : σ) :
    DecidablePred (m.WhenReturns G s) := fun i =>
  match hs : m s i with
  | .error _ => isTrue <| by simp [WhenReturns, hs]
  | .ok (s', o) => decidable_of_iff (G s i) <| by simp [WhenReturns, hs]

/-- The empty run stays where it is. -/
@[simp] theorem run_nil (s : σ) : m.run s [] = .ok (s, []) := rfl

/-- A run that returns takes its first step and then runs the rest. -/
theorem run_cons_ok {s : σ} {i : ι} {is : List ι} {t : σ} {os : List ο} :
    m.run s (i :: is) = .ok (t, os) ↔
      ∃ s' o os', m s i = .ok (s', o) ∧ m.run s' is = .ok (t, os') ∧ os = o ++ os' := by
  constructor
  · intro h
    rw [run] at h
    split at h
    · cases h
    · rename_i s' o hs
      split at h
      · cases h
      · rename_i t' os' hr
        simp only [Except.ok.injEq, Prod.mk.injEq] at h
        obtain ⟨rfl, rfl⟩ := h
        exact ⟨s', o, os', hs, hr, rfl⟩
  · rintro ⟨s', o, os', hs, hr, rfl⟩
    simp only [run, hs, hr]

/-- A run whose first step is known goes on from where it leads. -/
theorem run_cons_of_ok {s s' : σ} {i : ι} {is : List ι} {o : List ο} (hs : m s i = .ok (s', o)) :
    m.run s (i :: is) = (m.run s' is).map fun r => (r.1, o ++ r.2) := by
  rw [run, hs]
  dsimp only
  cases m.run s' is with
  | error f => rfl
  | ok r => rfl

/-- A run fails when its first step does. -/
theorem run_cons_of_error {s : σ} {i : ι} {is : List ι} {f : φ} (hs : m s i = .error f) :
    m.run s (i :: is) = .error f := by
  rw [run, hs]

/-- A run whose first part returns goes on from where that part ends. -/
theorem run_append_of_ok {s t : σ} {is js : List ι} {os : List ο}
    (h : m.run s is = .ok (t, os)) :
    m.run s (is ++ js) = (m.run t js).map fun r => (r.1, os ++ r.2) := by
  induction is generalizing s os with
  | nil =>
    cases h
    rw [List.nil_append]
    cases m.run t js with
    | error f => rfl
    | ok r => rfl
  | cons i is ih =>
    obtain ⟨s', o, os', hs, hr, rfl⟩ := m.run_cons_ok.mp h
    rw [List.cons_append, m.run_cons_of_ok hs, ih hr]
    cases m.run t js with
    | error f => rfl
    | ok r => simp [Except.map]

/-- A run fails when its first part does. -/
theorem run_append_of_error {s : σ} {is js : List ι} {f : φ} (h : m.run s is = .error f) :
    m.run s (is ++ js) = .error f := by
  induction is generalizing s with
  | nil => cases h
  | cons i is ih =>
    rw [List.cons_append]
    cases hs : m s i with
    | error g =>
      rw [m.run_cons_of_error hs] at h ⊢
      exact h
    | ok r =>
      obtain ⟨s', o⟩ := r
      rw [m.run_cons_of_ok hs] at h ⊢
      cases hr : m.run s' is with
      | error g =>
        rw [hr] at h
        cases h
        rw [ih hr]
        rfl
      | ok r =>
        rw [hr] at h
        cases h

/-- **The invariant rule with outputs.**  A fact about the state and all outputs so far
that every guarded step preserves holds at the end of every guarded run. -/
theorem run_invariant {G : σ → ι → Prop} {I : σ → List ο → Prop}
    (step : ∀ s h i s' o, I s h → G s i → m s i = .ok (s', o) → I s' (h ++ o)) :
    ∀ {is : List ι} {s : σ} {h : List ο} {t : σ} {os : List ο},
      I s h → m.Guarded G s is → m.run s is = .ok (t, os) → I t (h ++ os) := by
  intro is
  induction is with
  | nil =>
    intro s h t os hI _ hr
    simp only [run_nil, Except.ok.injEq, Prod.mk.injEq] at hr
    obtain ⟨rfl, rfl⟩ := hr
    simpa using hI
  | cons i is ih =>
    intro s h t os hI hG hr
    obtain ⟨s', o, os', hs, hr', rfl⟩ := m.run_cons_ok.mp hr
    have hI' := step s h i s' o hI hG.1 hs
    simpa using ih hI' (hG.2 s' o hs) hr'

/-- A fact about the state that every step preserves holds at the end of every run. -/
theorem run_keeps {I : σ → Prop} (step : ∀ s i s' o, I s → m s i = .ok (s', o) → I s')
    {is : List ι} {s t : σ} {os : List ο} (hI : I s) (hr : m.run s is = .ok (t, os)) :
    I t := by
  induction is generalizing s os with
  | nil =>
    simp only [run_nil, Except.ok.injEq, Prod.mk.injEq] at hr
    exact hr.1 ▸ hI
  | cons i is ih =>
    obtain ⟨s', o, os', hs, hr', -⟩ := m.run_cons_ok.mp hr
    exact ih (step s i s' o hI hs) hr'

/-- **The progress rule.**  When every guarded step from a state in the invariant returns
and stays in it, every guarded run returns. -/
theorem run_total {G : σ → ι → Prop} {I : σ → Prop}
    (step : ∀ s i, I s → G s i → ∃ s' o, m s i = .ok (s', o) ∧ I s') :
    ∀ {is : List ι} {s : σ}, I s → m.Guarded G s is →
      ∃ t os, m.run s is = .ok (t, os) ∧ I t := by
  intro is
  induction is with
  | nil =>
    intro s hI _
    exact ⟨s, [], rfl, hI⟩
  | cons i is ih =>
    intro s hI hG
    obtain ⟨s', o, hs, hI'⟩ := step s i hI hG.1
    obtain ⟨t, os, hr, ht⟩ := ih hI' (hG.2 s' o hs)
    exact ⟨t, o ++ os, m.run_cons_ok.mpr ⟨s', o, os, hs, hr, rfl⟩, ht⟩

/-- **The budget rule.**  Suppose that, in the invariant, no more than `L` is used (`U`) of any `g`,
that a guarded step which returns uses one of each `g` that its input asks for (`A`), and that a
guarded step returns when nothing it asks for is used up.  Then a guarded run returns exactly
when no `g` is asked for more often than is left of it. -/
theorem returns_iff_within_budget {γ : Type} {G : σ → ι → Prop} {I : σ → Prop}
    {U : σ → γ → ℕ} {A : γ → ι → Bool} {L : ℕ}
    (bounded : ∀ s, I s → ∀ g, U s g ≤ L)
    (spends : ∀ s i s' o, I s → G s i → m s i = .ok (s', o) →
      I s' ∧ ∀ g, U s' g = U s g + if A g i then 1 else 0)
    (returns : ∀ s i, I s → G s i → (∀ g, A g i = true → U s g < L) →
      ∃ s' o, m s i = .ok (s', o)) :
    ∀ {is : List ι} {s : σ}, I s → m.Guarded G s is →
      ((∃ t os, m.run s is = .ok (t, os)) ↔ ∀ g, U s g + is.countP (A g) ≤ L) := by
  intro is
  induction is with
  | nil => exact fun hI _ => iff_of_true ⟨_, _, rfl⟩ (bounded _ hI)
  | cons i is ih =>
    intro s hI hG
    have hcount : ∀ g, (i :: is).countP (A g) =
        is.countP (A g) + if A g i then 1 else 0 := fun g => List.countP_cons
    constructor
    · rintro ⟨t, os, hr⟩ g
      obtain ⟨s', o, os', hs, hr', -⟩ := m.run_cons_ok.mp hr
      obtain ⟨hI', hused⟩ := spends s i s' o hI hG.1 hs
      have hrest := (ih hI' (hG.2 s' o hs)).mp ⟨t, os', hr'⟩ g
      rw [hused] at hrest
      rw [hcount]
      omega
    · intro hbudget
      obtain ⟨s', o, hs⟩ := returns s i hI hG.1 fun g hasks => by
        have hg := hbudget g
        rw [hcount, if_pos hasks] at hg
        omega
      obtain ⟨hI', hused⟩ := spends s i s' o hI hG.1 hs
      obtain ⟨t, os, hr⟩ := (ih hI' (hG.2 s' o hs)).mpr fun g => by
        have hg := hbudget g
        rw [hcount] at hg
        rw [hused]
        omega
      exact ⟨t, o ++ os, m.run_cons_ok.mpr ⟨s', o, os, hs, hr, rfl⟩⟩

/-- A guarded run whose first step is known. -/
theorem guarded_cons {G : σ → ι → Prop} {s s' : σ} {i : ι} {is : List ι} {o : List ο}
    (hG : G s i) (hs : m s i = .ok (s', o)) (hrest : m.Guarded G s' is) :
    m.Guarded G s (i :: is) := by
  refine ⟨hG, fun t o' ht => ?_⟩
  rw [hs] at ht
  cases ht
  exact hrest

/-- A guard that does not look at the state is a guard on every input of the list. -/
theorem guarded_of_forall {G : σ → ι → Prop} {is : List ι}
    (h : ∀ i ∈ is, ∀ s, G s i) : ∀ s, m.Guarded G s is := by
  induction is with
  | nil => exact fun _ => trivial
  | cons i is ih =>
    intro s
    exact ⟨h i List.mem_cons_self s,
      fun s' _ _ => ih (fun j hj => h j (List.mem_cons_of_mem _ hj)) s'⟩

/-- A guard may be weakened. -/
theorem Guarded.mono {G H : σ → ι → Prop} (hGH : ∀ s i, G s i → H s i) :
    ∀ {is : List ι} {s : σ}, m.Guarded G s is → m.Guarded H s is := by
  intro is
  induction is with
  | nil => exact fun _ => trivial
  | cons i is ih =>
    intro s h
    exact ⟨hGH s i h.1, fun s' o hs => ih (h.2 s' o hs)⟩

/-- **The exactness rule.**  Suppose that, in the invariant `J` and under the assumption
`B`, a step that returns meets `R` exactly when its input meets `G`, and that a step
meeting `R` stays in `J`.  Then over every run under `B`, all steps meet `R` exactly when
all inputs that are answered meet `G`. -/
theorem throughout_iff_guarded {B G : σ → ι → Prop} {J : σ → List ο → Prop}
    {R : σ → List ο → σ → List ο → Prop}
    (exact_step : ∀ s h i s' o, J s h → B s i → m s i = .ok (s', o) →
      (R s h s' (h ++ o) ↔ G s i))
    (keeps : ∀ s h i s' o, J s h → B s i → m s i = .ok (s', o) →
      R s h s' (h ++ o) → J s' (h ++ o)) :
    ∀ {is : List ι} {s : σ} {h : List ο}, J s h → m.Guarded B s is →
      (m.Throughout R s h is ↔ m.Guarded (m.WhenReturns G) s is) := by
  intro is
  induction is with
  | nil =>
    intro s h _ _
    exact Iff.rfl
  | cons i is ih =>
    intro s h hJ hB
    constructor
    · intro hT
      refine ⟨?_, fun s' o hs => ?_⟩
      · rintro ⟨s', o, hs⟩
        exact (exact_step s h i s' o hJ hB.1 hs).mp (hT s' o hs).1
      · have hR := (hT s' o hs).1
        exact (ih (keeps s h i s' o hJ hB.1 hs hR) (hB.2 s' o hs)).mp (hT s' o hs).2
    · intro hG s' o hs
      have hR := (exact_step s h i s' o hJ hB.1 hs).mpr (hG.1 ⟨s', o, hs⟩)
      exact ⟨hR, (ih (keeps s h i s' o hJ hB.1 hs hR) (hB.2 s' o hs)).mpr (hG.2 s' o hs)⟩

/-- **The safety rule.**  When every guarded step from a state in the invariant has `P` and
stays in the invariant, every step of every guarded run has `P`. -/
theorem eachStep_of_guarded {G : σ → ι → Prop} {J : σ → Prop}
    {P : σ → ι → σ → List ο → Prop}
    (step : ∀ s i s' o, J s → G s i → m s i = .ok (s', o) → P s i s' o ∧ J s') :
    ∀ {is : List ι} {s : σ}, J s → m.Guarded G s is → m.EachStep P s is := by
  intro is
  induction is with
  | nil => exact fun _ _ => trivial
  | cons i is ih =>
    intro s hJ hG s' o hs
    obtain ⟨hP, hJ'⟩ := step s i s' o hJ hG.1 hs
    exact ⟨hP, ih hJ' (hG.2 s' o hs)⟩

/-- **The rule of what may be asked.**  Suppose that, in the invariant `J`, a step whose input
meets `G` returns with `P` and stays in `J`, and one whose input does not meet `G` fails.
Then a run returns with `P` in each of its steps exactly when all its inputs meet `G`. -/
theorem returns_iff_guarded {G : σ → ι → Prop} {J : σ → Prop} {P : σ → ι → σ → List ο → Prop}
    (step : ∀ s i, J s → G s i → ∃ s' o, m s i = .ok (s', o) ∧ P s i s' o ∧ J s')
    (stuck : ∀ s i, J s → ¬ G s i → ∃ f, m s i = .error f) :
    ∀ {is : List ι} {s : σ}, J s →
      ((∃ t os, m.run s is = .ok (t, os)) ∧ m.EachStep P s is ↔ m.Guarded G s is) := by
  intro is
  induction is with
  | nil => exact fun _ => iff_of_true ⟨⟨_, _, rfl⟩, trivial⟩ trivial
  | cons i is ih =>
    intro s hJ
    by_cases hG : G s i
    · obtain ⟨s', o, hs, hP, hJ'⟩ := step s i hJ hG
      constructor
      · rintro ⟨⟨t, os, hr⟩, heach⟩
        obtain ⟨s'', o', os', hs', hr', -⟩ := m.run_cons_ok.mp hr
        have hrest := (heach s'' o' hs').2
        cases hs.symm.trans hs'
        exact m.guarded_cons hG hs ((ih hJ').mp ⟨⟨t, os', hr'⟩, hrest⟩)
      · intro hguard
        obtain ⟨⟨t, os, hr⟩, heach⟩ := (ih hJ').mpr (hguard.2 s' o hs)
        refine ⟨⟨t, o ++ os, m.run_cons_ok.mpr ⟨s', o, os, hs, hr, rfl⟩⟩, ?_⟩
        intro s'' o' hs'
        cases hs.symm.trans hs'
        exact ⟨hP, heach⟩
    · obtain ⟨f, hf⟩ := stuck s i hJ hG
      refine iff_of_false ?_ fun hguard => hG hguard.1
      rintro ⟨⟨t, os, hr⟩, -⟩
      rw [m.run_cons_of_error hf] at hr
      cases hr

/-- **The guard rule.**  When every input that meets `G` in a state in the invariant meets `P`
there, and the invariant is kept, every run guarded by `G` is guarded by `P`. -/
theorem guarded_of_invariant {G P : σ → ι → Prop} {J : σ → Prop}
    (meets : ∀ s i, J s → G s i → P s i)
    (keeps : ∀ s i s' o, J s → G s i → m s i = .ok (s', o) → J s') :
    ∀ {is : List ι} {s : σ}, J s → m.Guarded G s is → m.Guarded P s is := by
  intro is
  induction is with
  | nil => exact fun _ _ => trivial
  | cons i is ih =>
    intro s hJ hG
    exact ⟨meets s i hJ hG.1, fun s' o hs => ih (keeps s i s' o hJ hG.1 hs) (hG.2 s' o hs)⟩

/-- **The rule of what lasts.**  Suppose that, in the invariant `J`, a step leads from a state
without `B` to one with `B` exactly when its input does not meet `G`, and that `B` lasts.
Then a run ends without `B` exactly when all its inputs meet `G`. -/
theorem guarded_iff_of_lasting {G : σ → ι → Prop} {J B : σ → Prop}
    (keeps : ∀ s i s' o, J s → m s i = .ok (s', o) → J s')
    (enters : ∀ s i s' o, J s → ¬ B s → m s i = .ok (s', o) → (B s' ↔ ¬ G s i))
    (lasts : ∀ s i s' o, J s → B s → m s i = .ok (s', o) → B s') :
    ∀ {is : List ι} {s t : σ} {os : List ο}, J s → ¬ B s → m.run s is = .ok (t, os) →
      (¬ B t ↔ m.Guarded G s is) := by
  intro is
  induction is with
  | nil =>
    intro s t os _ hB hr
    simp only [run_nil, Except.ok.injEq, Prod.mk.injEq] at hr
    exact iff_of_true (hr.1 ▸ hB) trivial
  | cons i is ih =>
    intro s t os hJ hB hr
    obtain ⟨s', o, os', hs, hr', -⟩ := m.run_cons_ok.mp hr
    have hJ' := keeps s i s' o hJ hs
    have henter := enters s i s' o hJ hB hs
    by_cases hB' : B s'
    · -- once entered, `B` lasts to the end of the run
      have hlast : J t ∧ B t := m.run_keeps (I := fun s => J s ∧ B s)
        (fun s i s' o h hs => ⟨keeps s i s' o h.1 hs, lasts s i s' o h.1 h.2 hs⟩)
        ⟨hJ', hB'⟩ hr'
      exact iff_of_false (not_not.mpr hlast.2) fun hG => henter.mp hB' hG.1
    · have hG : G s i := by
        by_contra hnot
        exact hB' (henter.mpr hnot)
      rw [ih hJ' hB' hr']
      constructor
      · exact fun hrest => m.guarded_cons hG hs hrest
      · exact fun hguard => hguard.2 s' o hs

end Machine

end MorphlingC.Library
