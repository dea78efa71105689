import MorphlingC.Library.Machine
import Mathlib.Data.List.GetD
import Mathlib.Order.WellFounded

/-!
# Schedules

Seven more rules about the runs of machines.

* **Refinement** (`run_refines`): one machine may match a step of another by several steps
  of its own, on other inputs, as long as it puts out the same of what is looked at, and those
  inputs that are of both are the same.
* **Lockstep** (`run_lockstep`): two machines that go on or fail together in every step do so
  in every run.
* **Counting** (`guarded_of_count`): what is true after so many steps may be used as a guard.
* **Collection** (`run_collects`): a list that grows with every input by what that input
  brings is, after a run, all that was brought, in order.
* **Queues** (`run_serves`, `run_refines_served`): when each step takes requests off the front
  of a queue and shows what it makes of them, a run shows what it makes of a beginning of all
  that was queued, in order; and so does a run of another machine that matches it.
* **Draining** (`run_measure`, `exists_drain`): when every step that is enabled takes one off
  a measure, every schedule of enabled steps is as long as the measure falls, and one that
  cannot go on has brought it to zero.
* **Fairness** (`run_settles`): when useful steps lower a well-founded measure, and the others
  do not disturb them, a schedule in which every input comes again and again uses them up.
-/

set_option autoImplicit false

namespace MorphlingC.Library.Machine

variable {σ ι ο φ : Type} (m : Machine σ ι ο φ)

/-! ## Refinement -/

/-- A run of one step is that step. -/
theorem run_singleton {s s' : σ} {i : ι} {o : List ο} (h : m s i = .ok (s', o)) :
    m.run s [i] = .ok (s', o) :=
  m.run_cons_ok.mpr ⟨s', o, [], h, rfl, (List.append_nil o).symm⟩

/-- Two runs that follow one another are one run. -/
theorem run_append_ok {s s' t : σ} {is js : List ι} {o os : List ο}
    (h : m.run s is = .ok (s', o)) (h' : m.run s' js = .ok (t, os)) :
    m.run s (is ++ js) = .ok (t, o ++ os) := by
  rw [m.run_append_of_ok h, h']
  rfl

/-- A run in two parts. -/
theorem exists_of_run_append {s t : σ} {is js : List ι} {os : List ο}
    (h : m.run s (is ++ js) = .ok (t, os)) :
    ∃ s' o o', m.run s is = .ok (s', o) ∧ m.run s' js = .ok (t, o') := by
  cases hfirst : m.run s is with
  | error f =>
    rw [m.run_append_of_error hfirst] at h
    cases h
  | ok r =>
    obtain ⟨s', o⟩ := r
    rw [m.run_append_of_ok hfirst] at h
    cases hsecond : m.run s' js with
    | error f =>
      rw [hsecond] at h
      cases h
    | ok r' =>
      obtain ⟨t', o'⟩ := r'
      rw [hsecond] at h
      cases h
      exact ⟨s', o, o', rfl, hsecond⟩

/-- **The refinement rule.**  Let `f` and `g` say what the inputs of two machines have in
common, and `p` what of an output of the one the other puts out.  When every guarded step of
the one is matched by a run of the other, with these outputs and the same common inputs, so is
every guarded run. -/
theorem run_refines {τ κ ο' ψ γ : Type} (n : Machine τ κ ο' ψ) {G : σ → ι → Prop}
    {R : σ → τ → Prop} {f : ι → Option γ} {g : κ → Option γ} {p : ο → Option ο'}
    (step : ∀ s t i s' o, R s t → G s i → m s i = .ok (s', o) →
      ∃ js t', js.filterMap g = (f i).toList ∧ n.run t js = .ok (t', o.filterMap p) ∧ R s' t') :
    ∀ {is : List ι} {s s' : σ} {t : τ} {os : List ο}, R s t → m.Guarded G s is →
      m.run s is = .ok (s', os) → ∃ js t', js.filterMap g = is.filterMap f ∧
        n.run t js = .ok (t', os.filterMap p) ∧ R s' t' := by
  intro is
  induction is with
  | nil =>
    intro s s' t os hR _ hr
    cases hr
    exact ⟨[], t, rfl, rfl, hR⟩
  | cons i is ih =>
    intro s s' t os hR hG hr
    obtain ⟨s₁, o, os', hs, hr', rfl⟩ := m.run_cons_ok.mp hr
    obtain ⟨js, t₁, hjs, hrun, hR₁⟩ := step s t i s₁ o hR hG.1 hs
    obtain ⟨ks, t', hks, hrun', hR'⟩ := ih hR₁ (hG.2 s₁ o hs) hr'
    refine ⟨js ++ ks, t', ?_, ?_, hR'⟩
    · rw [List.filterMap_append, hjs, hks, List.filterMap_cons]
      cases f i <;> rfl
    · rw [List.filterMap_append]
      exact n.run_append_ok hrun hrun'

/-! ## Lockstep -/

/-- **The lockstep rule.**  When two machines that take guarded steps on corresponding inputs
both go on with the same outputs, or both fail with corresponding failures, so do guarded
runs. -/
theorem run_lockstep {τ κ ψ : Type} (n : Machine τ κ ο ψ) {G : σ → ι → Prop}
    {R : σ → τ → Prop} {f : ι → κ} {E : φ → ψ → Prop}
    (step : ∀ s t i, R s t → G s i →
      (∃ s' t' o, m s i = .ok (s', o) ∧ n t (f i) = .ok (t', o) ∧ R s' t') ∨
        ∃ e e', m s i = .error e ∧ n t (f i) = .error e' ∧ E e e') :
    ∀ {is : List ι} {s : σ} {t : τ}, R s t → m.Guarded G s is →
      (∃ s' t' os, m.run s is = .ok (s', os) ∧ n.run t (is.map f) = .ok (t', os) ∧ R s' t') ∨
        ∃ e e', m.run s is = .error e ∧ n.run t (is.map f) = .error e' ∧ E e e' := by
  intro is
  induction is with
  | nil => exact fun hR _ => .inl ⟨_, _, [], rfl, rfl, hR⟩
  | cons i is ih =>
    intro s t hR hG
    rcases step s t i hR hG.1 with ⟨s₁, t₁, o, hs, ht, hR₁⟩ | ⟨e, e', hs, ht, hE⟩
    · rcases ih hR₁ (hG.2 s₁ o hs) with ⟨s', t', os, hrun, hrun', hR'⟩ | ⟨e, e', hrun, hrun', hE⟩
      · refine .inl ⟨s', t', o ++ os, ?_, ?_, hR'⟩
        · simp only [run, hs, hrun]
        · simp only [List.map_cons, run, ht, hrun']
      · refine .inr ⟨e, e', ?_, ?_, hE⟩
        · simp only [run, hs, hrun]
        · simp only [List.map_cons, run, ht, hrun']
    · refine .inr ⟨e, e', ?_, ?_, hE⟩
      · simp only [run, hs]
      · simp only [List.map_cons, run, ht]

/-! ## Counted steps -/

/-- What comes first in a guarded run is guarded. -/
theorem Guarded.of_append {G : σ → ι → Prop} {is js : List ι} :
    ∀ {s : σ}, m.Guarded G s (is ++ js) → m.Guarded G s is := by
  induction is with
  | nil => exact fun _ => trivial
  | cons i is ih => exact fun h => ⟨h.1, fun s' o hs => ih (h.2 s' o hs)⟩

/-- Two guarded runs that follow one another are a guarded run. -/
theorem Guarded.append {G : σ → ι → Prop} {is js : List ι} :
    ∀ {s : σ}, m.Guarded G s is → (∀ t os, m.run s is = .ok (t, os) → m.Guarded G t js) →
      m.Guarded G s (is ++ js) := by
  induction is with
  | nil => exact fun _ h => h _ [] rfl
  | cons i is ih =>
    intro s h hrest
    exact ⟨h.1, fun s' o hs => ih (h.2 s' o hs) fun t os hr =>
      hrest t (o ++ os) (m.run_cons_ok.mpr ⟨s', o, os, hs, hr, rfl⟩)⟩

/-- Two guards that are both met. -/
theorem Guarded.and {G G' : σ → ι → Prop} {is : List ι} :
    ∀ {s : σ}, m.Guarded G s is → m.Guarded G' s is →
      m.Guarded (fun s i => G s i ∧ G' s i) s is := by
  induction is with
  | nil => exact fun _ _ => trivial
  | cons i is ih =>
    intro s h h'
    exact ⟨⟨h.1, h'.1⟩, fun s' o hs => ih (h.2 s' o hs) (h'.2 s' o hs)⟩

/-- **The counting rule.**  Let an invariant say what is true after so many steps.  When it is
kept by guarded steps, up to a number of them, and gives another guard, a run of no more steps
that meets the one guard meets the other. -/
theorem guarded_of_count {G H : σ → ι → Prop} {I : ℕ → σ → Prop} {b : ℕ}
    (step : ∀ k s i s' o, k < b → I k s → G s i → m s i = .ok (s', o) → I (k + 1) s')
    (guard : ∀ k s i, k < b → I k s → G s i → H s i) :
    ∀ {is : List ι} {s : σ} {k : ℕ}, I k s → k + is.length ≤ b → m.Guarded G s is →
      m.Guarded H s is := by
  intro is
  induction is with
  | nil => exact fun _ _ _ => trivial
  | cons i is ih =>
    intro s k hI hle hG
    rw [List.length_cons] at hle
    have hk : k < b := by omega
    refine ⟨guard k s i hk hI hG.1, fun s' o hs => ?_⟩
    exact ih (step k s i s' o hk hI hG.1 hs) (by omega) (hG.2 s' o hs)

/-! ## What a run collects -/

/-- **The collection rule.**  When every guarded step adds to a list of the state what its input
brings, a guarded run adds what its inputs bring, in order. -/
theorem run_collects {β : Type} {G : σ → ι → Prop} {J : σ → Prop} {f : σ → List β}
    {g : ι → List β}
    (step : ∀ s i s' o, J s → G s i → m s i = .ok (s', o) → J s' ∧ f s' = f s ++ g i) :
    ∀ {is : List ι} {s t : σ} {os : List ο}, J s → m.Guarded G s is →
      m.run s is = .ok (t, os) → f t = f s ++ is.flatMap g := by
  intro is
  induction is with
  | nil =>
    intro s t os _ _ hr
    cases hr
    exact (List.append_nil _).symm
  | cons i is ih =>
    intro s t os hJ hG hr
    obtain ⟨s', o, os', hs, hr', -⟩ := m.run_cons_ok.mp hr
    obtain ⟨hJ', hf⟩ := step s i s' o hJ hG.1 hs
    rw [ih hJ' (hG.2 s' o hs) hr', hf, List.flatMap_cons, List.append_assoc]

/-! ## Queues -/

/-- **Refinement through queues.**  One machine takes requests off queues, one for each `r`:
`Q` is the queue, `A` what an input puts behind it, and `f` what is made of a request, if
anything can be.  The other machine is given what `f` makes of them, which `g` finds among its
inputs.  When every guarded step of the one is matched by a run of the other that is given what
this step takes, every guarded run is matched by a run that is given what it takes, a beginning of
all that was queued, in order. -/
theorem run_refines_served {ρ τ κ ο' ψ γ δ : Type} (n : Machine τ κ ο' ψ) {G : σ → ι → Prop}
    {R : σ → τ → Prop} {Q : ρ → σ → List γ} {A : ρ → ι → List γ} {f : ρ → γ → Option δ}
    {g : ρ → κ → Option δ} {p : ο → Option ο'}
    (step : ∀ s t i s' o, R s t → G s i → m s i = .ok (s', o) →
      ∃ js t', n.run t js = .ok (t', o.filterMap p) ∧ R s' t' ∧ ∀ r, ∃ taken,
        Q r s ++ A r i = taken ++ Q r s' ∧
        taken.map (f r) = (js.filterMap (g r)).map some) :
    ∀ {is : List ι} {s s' : σ} {t : τ} {os : List ο}, R s t → m.Guarded G s is →
      m.run s is = .ok (s', os) → ∃ js t', n.run t js = .ok (t', os.filterMap p) ∧ R s' t' ∧
        ∀ r, ∃ taken, Q r s ++ is.flatMap (A r) = taken ++ Q r s' ∧
          taken.map (f r) = (js.filterMap (g r)).map some := by
  intro is
  induction is with
  | nil =>
    intro s s' t os hR _ hr
    cases hr
    exact ⟨[], t, rfl, hR, fun r => ⟨[], List.append_nil _, rfl⟩⟩
  | cons i is ih =>
    intro s s' t os hR hG hr
    obtain ⟨s₁, o, os', hs, hr', rfl⟩ := m.run_cons_ok.mp hr
    obtain ⟨js, t₁, hrun, hR₁, htaken⟩ := step s t i s₁ o hR hG.1 hs
    obtain ⟨ks, t', hrun', hR', htaken'⟩ := ih hR₁ (hG.2 s₁ o hs) hr'
    refine ⟨js ++ ks, t', ?_, hR', fun r => ?_⟩
    · rw [List.filterMap_append]
      exact n.run_append_ok hrun hrun'
    · obtain ⟨taken, hqueue, hmade⟩ := htaken r
      obtain ⟨others, hqueue', hmade'⟩ := htaken' r
      refine ⟨taken ++ others, ?_, ?_⟩
      · rw [List.flatMap_cons, ← List.append_assoc, hqueue, List.append_assoc, hqueue',
          List.append_assoc]
      · rw [List.map_append, hmade, hmade', List.filterMap_append, List.map_append]

/-- The machine that puts out what it is given. -/
def echo (δ ψ : Type) : Machine Unit δ δ ψ := fun _ d => .ok ((), [d])

/-- What a run of `echo` puts out is what it is given. -/
theorem run_echo {δ ψ : Type} (ds : List δ) : (echo δ ψ).run () ds = .ok ((), ds) := by
  induction ds with
  | nil => rfl
  | cons d ds ih => exact (echo δ ψ).run_cons_ok.mpr ⟨(), [d], ds, rfl, ih, rfl⟩

/-- **The queue rule.**  When every guarded step takes requests off the front of one queue and
what it makes of them is what `p` shows of its outputs, a guarded run takes a beginning of all
that was queued, and shows what it makes of each, in order. -/
theorem run_serves {γ δ : Type} {G : σ → ι → Prop} {Q : σ → List γ} {A : ι → List γ}
    {f : γ → Option δ} {p : ο → Option δ}
    (step : ∀ s i s' o, G s i → m s i = .ok (s', o) → ∃ taken,
      Q s ++ A i = taken ++ Q s' ∧ taken.map f = (o.filterMap p).map some)
    {is : List ι} {s t : σ} {os : List ο} (hG : m.Guarded G s is)
    (hr : m.run s is = .ok (t, os)) :
    ∃ taken, Q s ++ is.flatMap A = taken ++ Q t ∧
      taken.map f = (os.filterMap p).map some := by
  obtain ⟨js, u, hrun, -, htaken⟩ := m.run_refines_served (echo δ φ) (R := fun _ _ => True)
    (Q := fun _ : Unit => Q) (A := fun _ => A) (f := fun _ => f) (g := fun _ => some)
    (p := p) (fun s _ i s' o _ hG hs => by
      obtain ⟨taken, hqueue, hmade⟩ := step s i s' o hG hs
      refine ⟨o.filterMap p, (), run_echo _, trivial, fun _ => ⟨taken, hqueue, ?_⟩⟩
      rw [List.filterMap_some]
      exact hmade)
    (t := ()) trivial hG hr
  rw [run_echo] at hrun
  cases hrun
  obtain ⟨taken, hqueue, hmade⟩ := htaken ()
  rw [List.filterMap_some] at hmade
  exact ⟨taken, hqueue, hmade⟩

/-! ## Draining -/

/-- **The length of a schedule.**  When every enabled step takes one off the measure, a
schedule of enabled steps is as long as the measure has fallen. -/
theorem run_measure {G : σ → ι → Prop} {J : σ → Prop} {μ : σ → ℕ}
    (step : ∀ s i s' o, J s → G s i → m s i = .ok (s', o) → J s' ∧ μ s' + 1 = μ s) :
    ∀ {is : List ι} {s t : σ} {os : List ο}, J s → m.Guarded G s is →
      m.run s is = .ok (t, os) → J t ∧ μ t + is.length = μ s := by
  intro is
  induction is with
  | nil =>
    intro s t os hJ _ hr
    cases hr
    exact ⟨hJ, rfl⟩
  | cons i is ih =>
    intro s t os hJ hG hr
    obtain ⟨s', o, os', hs, hr', -⟩ := m.run_cons_ok.mp hr
    obtain ⟨hJ', hμ⟩ := step s i s' o hJ hG.1 hs
    obtain ⟨ht, hlen⟩ := ih hJ' (hG.2 s' o hs) hr'
    refine ⟨ht, ?_⟩
    rw [List.length_cons]
    omega

/-- **A schedule that drains.**  When moreover some step is enabled as long as the measure is
not zero, and enabled steps return, there is a schedule that brings it to zero. -/
theorem exists_drain {G : σ → ι → Prop} {J : σ → Prop} {μ : σ → ℕ}
    (step : ∀ s i, J s → G s i → ∃ s' o, m s i = .ok (s', o) ∧ J s' ∧ μ s' + 1 = μ s)
    (enabled : ∀ s, J s → μ s ≠ 0 → ∃ i, G s i) :
    ∀ (k : ℕ) {s : σ}, J s → μ s = k →
      ∃ is t os, m.Guarded G s is ∧ m.run s is = .ok (t, os) ∧ J t ∧ μ t = 0 := by
  intro k
  induction k with
  | zero =>
    intro s hJ hμ
    exact ⟨[], s, [], trivial, rfl, hJ, hμ⟩
  | succ k ih =>
    intro s hJ hμ
    obtain ⟨i, hG⟩ := enabled s hJ (by omega)
    obtain ⟨s', o, hs, hJ', hμ'⟩ := step s i hJ hG
    obtain ⟨is, t, os, hguard, hr, ht, hzero⟩ := ih hJ' (by omega)
    exact ⟨i :: is, t, o ++ os, m.guarded_cons hG hs hguard,
      m.run_cons_ok.mpr ⟨s', o, os, hs, hr, rfl⟩, ht, hzero⟩

/-! ## Fairness -/

/-- The first `k` inputs of an endless schedule. -/
def upTo (f : ℕ → ι) (k : ℕ) : List ι := (List.range k).map f

/-- In an endless schedule that is fair every input comes again and again. -/
def Fair (f : ℕ → ι) : Prop := ∀ i k, ∃ j, k ≤ j ∧ f j = i

/-- The inputs of a schedule that come first. -/
theorem upTo_succ (f : ℕ → ι) (k : ℕ) : upTo f (k + 1) = f 0 :: upTo (fun j => f (j + 1)) k := by
  rw [upTo, List.range_succ_eq_map, List.map_cons, List.map_map]
  rfl

/-- The inputs of a schedule up to a later point. -/
theorem upTo_add (f : ℕ → ι) (k l : ℕ) :
    upTo f (k + l) = upTo f k ++ upTo (fun j => f (k + j)) l := by
  rw [upTo, List.range_add, List.map_append, List.map_map]
  rfl

/-- A fair schedule is fair later on. -/
theorem Fair.later {f : ℕ → ι} (h : Fair f) (l : ℕ) : Fair fun j => f (j + l) := by
  intro i k
  obtain ⟨j, hj, hi⟩ := h i (k + l)
  refine ⟨j - l, by omega, ?_⟩
  dsimp only
  rw [Nat.sub_add_cancel (by omega), hi]

/-- A schedule that repeats a list of all inputs is fair. -/
theorem fair_cycle {l : List ι} (hl : ∀ i, i ∈ l) (i₀ : ι) :
    Fair fun j => l.getD (j % l.length) i₀ := by
  intro i k
  obtain ⟨j, hj, hi⟩ := List.mem_iff_getElem.mp (hl i)
  refine ⟨k * l.length + j, ?_, ?_⟩
  · calc k ≤ k * l.length := Nat.le_mul_of_pos_right k (by omega)
      _ ≤ k * l.length + j := Nat.le_add_right _ _
  · dsimp only
    rw [Nat.mul_comm, Nat.mul_add_mod, Nat.mod_eq_of_lt hj, List.getD_eq_getElem _ _ hj, hi]

/-- A schedule is run by taking its first step, and then what is left of it. -/
theorem run_upTo_succ {s s' t : σ} {f : ℕ → ι} {k : ℕ} {o os : List ο}
    (hs : m s (f 0) = .ok (s', o)) (hr : m.run s' (upTo (fun j => f (j + 1)) k) = .ok (t, os)) :
    m.run s (upTo f (k + 1)) = .ok (t, o ++ os) := by
  rw [upTo_succ]
  exact m.run_cons_ok.mpr ⟨s', o, os, hs, hr, rfl⟩

/-- A schedule that is guarded at all times is so after its first step. -/
theorem guarded_later {G : σ → ι → Prop} {s s' : σ} {f : ℕ → ι} {o : List ο}
    (hG : ∀ k, m.Guarded G s (upTo f k)) (hs : m s (f 0) = .ok (s', o)) (k : ℕ) :
    m.Guarded G s' (upTo (fun j => f (j + 1)) k) := by
  have hnext := hG (k + 1)
  rw [upTo_succ] at hnext
  exact hnext.2 s' o hs

/-- **The rule of fair schedules.**  Let every guarded step from a state in the invariant return
and stay in it.  When useful steps lower a well-founded measure, and the others do not raise it
and leave what is useful useful, a fair schedule comes to a state in which no step is useful. -/
theorem run_settles {α : Type} [Preorder α] [WellFoundedLT α] {J : σ → Prop} {G U : σ → ι → Prop}
    {μ : σ → α}
    (step : ∀ s i, J s → G s i → ∃ s' o, m s i = .ok (s', o) ∧ J s' ∧ (U s i → μ s' < μ s) ∧
      (¬ U s i → μ s' ≤ μ s ∧ ∀ j, U s j → U s' j)) :
    ∀ {s : σ} {f : ℕ → ι}, J s → (∀ k, m.Guarded G s (upTo f k)) → Fair f →
      ∃ k t os, m.run s (upTo f k) = .ok (t, os) ∧ J t ∧ ∀ i, ¬ U t i := by
  -- the induction is on the measure, and within it on when a useful input comes
  have hmain : ∀ (a : α) (s : σ) (f : ℕ → ι), μ s ≤ a → J s → (∀ k, m.Guarded G s (upTo f k)) →
      Fair f → ∃ k t os, m.run s (upTo f k) = .ok (t, os) ∧ J t ∧ ∀ i, ¬ U t i := by
    intro a
    induction a using WellFoundedLT.induction with
    | ind a ih =>
      have hfirst : ∀ (s : σ) (f : ℕ → ι), μ s ≤ a → J s → (∀ k, m.Guarded G s (upTo f k)) →
          Fair f → U s (f 0) →
            ∃ k t os, m.run s (upTo f k) = .ok (t, os) ∧ J t ∧ ∀ i, ¬ U t i := by
        intro s f ha hJ hG hf hU
        obtain ⟨s', o, hs, hJ', hless, -⟩ := step s (f 0) hJ (hG 1).1
        obtain ⟨k, t, os, hr, ht⟩ := ih (μ s') (lt_of_lt_of_le (hless hU) ha) s' _ le_rfl hJ'
          (m.guarded_later hG hs) (hf.later 1)
        exact ⟨k + 1, t, o ++ os, m.run_upTo_succ hs hr, ht⟩
      intro s f ha hJ hG hf
      by_cases huseful : ∃ i, U s i
      · obtain ⟨i, hi⟩ := huseful
        obtain ⟨l, -, hl⟩ := hf i 0
        induction l generalizing s f with
        | zero => exact hfirst s f ha hJ hG hf (hl ▸ hi)
        | succ l ihl =>
          by_cases hU : U s (f 0)
          · exact hfirst s f ha hJ hG hf hU
          · obtain ⟨s', o, hs, hJ', -, hsame⟩ := step s (f 0) hJ (hG 1).1
            obtain ⟨hle, hkept⟩ := hsame hU
            obtain ⟨k, t, os, hr, ht⟩ := ihl s' _ (hle.trans ha) hJ' (m.guarded_later hG hs)
              (hf.later 1) (hkept i hi) hl
            exact ⟨k + 1, t, o ++ os, m.run_upTo_succ hs hr, ht⟩
      · exact ⟨0, s, [], rfl, hJ, fun i hi => huseful ⟨i, hi⟩⟩
  intro s f hJ hG hf
  exact hmain _ s f le_rfl hJ hG hf

end MorphlingC.Library.Machine
