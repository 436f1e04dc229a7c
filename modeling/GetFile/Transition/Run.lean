import Mathlib.Data.Nat.Notation
import Mathlib.Tactic.Common

/-!
# Runs of a partial step function

A system is a partial function `step` from an action and a state to the next state. A
schedule is a list of actions; `run` takes them one after the other, and `Along` says that
every step of the run meets a condition on the action and the state before it.
-/

namespace Transition

variable {σ α : Type*}

/-- The state after the actions of a schedule, if each of them can be taken. -/
def run (step : α → σ → Option σ) : List α → σ → Option σ
  | [], s => some s
  | a :: as, s => (step a s).bind (run step as)

/-- `P` holds of the action and the state before it at every step of a schedule. -/
def Along (step : α → σ → Option σ) (P : α → σ → Prop) : List α → σ → Prop
  | [], _ => True
  | a :: as, s => P a s ∧ ∀ s', step a s = some s' → Along step P as s'

variable {step : α → σ → Option σ}

/-- Whether a condition is met along a schedule can be computed. -/
instance decidableAlong {P : α → σ → Prop} [∀ a s, Decidable (P a s)] :
    ∀ (as : List α) (s : σ), Decidable (Along step P as s)
  | [], _ => inferInstanceAs (Decidable True)
  | a :: as, s =>
    match h : step a s with
    | none => decidable_of_iff (P a s) (by simp [Along, h])
    | some s' =>
      have := decidableAlong (P := P) as s'
      decidable_of_iff (P a s ∧ Along step P as s') (by simp [Along, h])

@[simp]
theorem run_nil (s : σ) :
  run step [] s = some s
  := rfl

/-- A run with a first step is that step and a run from there. -/
theorem run_cons {a : α} {as : List α} {s t : σ} :
  run step (a :: as) s = some t ↔ ∃ s', step a s = some s' ∧ run step as s' = some t
  := by
  rw [run, Option.bind_eq_some_iff]

/-- A run of two schedules is a run of the first and a run of the second from there. -/
theorem run_append {as bs : List α} {s t : σ} :
  run step (as ++ bs) s = some t ↔ ∃ s', run step as s = some s' ∧ run step bs s' = some t
  := by
  induction as generalizing s with
  | nil => simp
  | cons a as ih =>
      rw [List.cons_append, run_cons]
      constructor
      · intro ⟨s₁, hs, h⟩
        obtain ⟨s', hs', ht⟩ := ih.mp h
        exact ⟨s', run_cons.mpr ⟨s₁, hs, hs'⟩, ht⟩
      · intro ⟨s', h, ht⟩
        obtain ⟨s₁, hs, hs'⟩ := run_cons.mp h
        exact ⟨s₁, hs, ih.mpr ⟨s', hs', ht⟩⟩

/-- Invariant rule: what every step keeps holds in every state a run reaches. -/
theorem run_invariant {I : σ → Prop} (keep : ∀ a s s', I s → step a s = some s' → I s')
    {as : List α} {s t : σ} (h : I s) (hr : run step as s = some t) :
  I t
  := by
  induction as generalizing s with
  | nil =>
      rw [run_nil, Option.some.injEq] at hr
      rw [← hr]
      apply h
  | cons a as ih =>
      obtain ⟨s', hs, hr'⟩ := run_cons.mp hr
      apply ih (keep a s s' h hs) hr'

/-- A quantity that every step increases by one counts the steps of a run. -/
theorem run_length {I : σ → Prop} {f : σ → ℕ} (keep : ∀ a s s', I s → step a s = some s' → I s')
    (count : ∀ a s s', I s → step a s = some s' → f s' = f s + 1)
    {as : List α} {s t : σ} (h : I s) (hr : run step as s = some t) :
  f t = f s + as.length
  := by
  induction as generalizing s with
  | nil =>
      rw [run_nil, Option.some.injEq] at hr
      rw [hr, List.length_nil, Nat.add_zero]
  | cons a as ih =>
      obtain ⟨s', hs, hr'⟩ := run_cons.mp hr
      rw [ih (keep a s s' h hs) hr', count a s s' h hs, List.length_cons, Nat.add_assoc,
        Nat.add_comm 1]

/-- Guarded invariant rule: what every step that meets a condition keeps holds in every state
reached by a run whose steps meet it. -/
theorem run_invariant_along {I : σ → Prop} {P : α → σ → Prop}
    (keep : ∀ a s s', I s → P a s → step a s = some s' → I s')
    {as : List α} {s t : σ} (h : I s) (hP : Along step P as s) (hr : run step as s = some t) :
  I t
  := by
  induction as generalizing s with
  | nil =>
      rw [run_nil, Option.some.injEq] at hr
      rw [← hr]
      apply h
  | cons a as ih =>
      obtain ⟨s', hs, hr'⟩ := run_cons.mp hr
      apply ih (keep a s s' h hP.1 hs) (hP.2 s' hs) hr'

/-- Lossy invariant rule: when a step keeps a condition on states exactly where it meets a condition
itself, a run ends in a state with it exactly when all of its steps meet theirs. -/
theorem run_invariant_iff {I : σ → Prop} {P : α → σ → Prop}
    (keep : ∀ a s s', step a s = some s' → (I s' ↔ I s ∧ P a s))
    {as : List α} {s t : σ} (h : I s) (hr : run step as s = some t) :
  I t ↔ Along step P as s
  := by
  have hlost : ∀ {as : List α} {s : σ}, ¬ I s → run step as s = some t → ¬ I t := by
    intro as s hs hr
    refine run_invariant (I := fun s => ¬ I s) ?_ hs hr
    intro a s s' hs hstep hI
    exact hs ((keep a s s' hstep).mp hI).1
  induction as generalizing s with
  | nil =>
      rw [run_nil, Option.some.injEq] at hr
      rw [← hr]
      exact iff_of_true h trivial
  | cons a as ih =>
      obtain ⟨s', hs, hr'⟩ := run_cons.mp hr
      have hcons : Along step P (a :: as) s ↔ P a s ∧ Along step P as s' := by
        rw [Along, hs]
        simp
      rw [hcons]
      by_cases hP : P a s
      · rw [and_iff_right hP]
        exact ih ((keep a s s' hs).mpr ⟨h, hP⟩) hr'
      · refine iff_of_false ?_ fun hall => hP hall.1
        exact hlost (fun hI => hP ((keep a s s' hs).mp hI).2) hr'

/-- Simulation rule: when each step of one system is followed by a step of another one that keeps a
relation between their states, a run is followed by a run. -/
theorem run_simulation {τ : Type*} {step' : α → τ → Option τ} {R : σ → τ → Prop} {P : α → σ → Prop}
    {Q : α → τ → Prop}
    (keep : ∀ a s t t', R s t → P a s → Q a t → step' a t = some t' →
      ∃ s', step a s = some s' ∧ R s' t')
    {as : List α} {s : σ} {t t' : τ} (h : R s t) (hP : Along step P as s)
    (hQ : Along step' Q as t) (hr : run step' as t = some t') :
  ∃ s', run step as s = some s' ∧ R s' t'
  := by
  induction as generalizing s t with
  | nil =>
      rw [run_nil, Option.some.injEq] at hr
      subst hr
      exact ⟨s, rfl, h⟩
  | cons a as ih =>
      obtain ⟨t₁, ht, hr'⟩ := run_cons.mp hr
      obtain ⟨s₁, hs, hR⟩ := keep a s t t₁ h hP.1 hQ.1 ht
      obtain ⟨s', hrun, hR'⟩ := ih hR (hP.2 s₁ hs) (hQ.2 t₁ ht) hr'
      exact ⟨s', run_cons.mpr ⟨s₁, hs, hrun⟩, hR'⟩

/-- What holds along a schedule holds of each of its actions in the state that the actions
before it lead to. -/
theorem Along.after {P : α → σ → Prop} {as : List α} {a : α} {s t : σ}
    (h : Along step P (as ++ [a]) s) (hr : run step as s = some t) :
  P a t
  := by
  induction as generalizing s with
  | nil =>
      rw [run_nil, Option.some.injEq] at hr
      rw [← hr]
      apply h.1
  | cons b as ih =>
      obtain ⟨s', hs, hr'⟩ := run_cons.mp hr
      apply ih (h.2 s' hs) hr'

/-- A run whose steps meet a condition can be continued by a step that meets it. -/
theorem Along.concat {P : α → σ → Prop} {as : List α} {a : α} {s t : σ}
    (h : Along step P as s) (hr : run step as s = some t) (ha : P a t) :
  Along step P (as ++ [a]) s
  := by
  induction as generalizing s with
  | nil =>
      rw [run_nil, Option.some.injEq] at hr
      rw [hr]
      exact ⟨ha, fun _ _ => trivial⟩
  | cons b as ih =>
      obtain ⟨s', hs, hr'⟩ := run_cons.mp hr
      refine ⟨h.1, ?_⟩
      intro s'' hs''
      rw [hs, Option.some.injEq] at hs''
      rw [← hs'']
      apply ih _ hr'
      exact h.2 s' hs

/-- If every step that misses a condition leads to a state from which no run comes back, then a
run that ends elsewhere meets the condition at every step. -/
theorem along_of_final {I D : σ → Prop} {P : α → σ → Prop}
    (keep : ∀ a s s', I s → step a s = some s' → I s')
    (lost : ∀ a s s', I s → ¬ P a s → step a s = some s' → D s')
    (stays : ∀ a s s', D s → step a s = some s' → D s')
    {as : List α} {s t : σ} (h : I s) (hr : run step as s = some t) (ht : ¬ D t) :
  Along step P as s
  := by
  induction as generalizing s with
  | nil => trivial
  | cons a as ih =>
      obtain ⟨s', hs, hr'⟩ := run_cons.mp hr
      constructor
      · by_contra hP
        apply ht
        apply run_invariant stays (lost a s s' h hP hs) hr'
      · intro s'' hs''
        rw [hs, Option.some.injEq] at hs''
        rw [← hs'']
        apply ih (keep a s s' h hs) hr'

/-- Under an invariant kept by the steps that meet one condition, two conditions that agree
in each state agree along every run. -/
theorem along_iff {I : σ → Prop} {P Q : α → σ → Prop}
    (keep : ∀ a s s', I s → Q a s → step a s = some s' → I s')
    (agree : ∀ a s, I s → (P a s ↔ Q a s))
    {as : List α} {s : σ} (h : I s) :
  Along step P as s ↔ Along step Q as s
  := by
  induction as generalizing s with
  | nil => rfl
  | cons a as ih =>
      constructor
      · intro ⟨hP, hs⟩
        have hQ := (agree a s h).mp hP
        exact ⟨hQ, fun s' hs' => (ih (keep a s s' h hQ hs')).mp (hs s' hs')⟩
      · intro ⟨hQ, hs⟩
        exact ⟨(agree a s h).mpr hQ, fun s' hs' => (ih (keep a s s' h hQ hs')).mpr (hs s' hs')⟩

end Transition
