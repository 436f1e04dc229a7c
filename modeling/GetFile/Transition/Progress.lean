import GetFile.Transition.Threads

/-!
# Runs that come to an end

A run of steps that meet a condition finishes when no such run is longer than some bound, and
each of them that has not come to its end can be continued (`Finishes`). This follows from a
measure that the steps make smaller and from a step that is possible before the end
(`Finishes.of_measure`). For threads the measure is a sum over the threads, of which a step
changes one term (`Pool.step_sum`).
-/

namespace Transition

variable {σ α : Type*} {step : α → σ → Option σ}

/-- The runs from a state whose steps meet `P` are bounded in their length, and those that have
not come to a state with `F` can be continued. -/
structure Finishes (step : α → σ → Option σ) (P : α → σ → Prop) (F : σ → Prop) (s : σ) :
    Prop where
  bounded : ∃ N, ∀ as t, Along step P as s → run step as s = some t → as.length ≤ N
  continued : ∀ as t, Along step P as s → run step as s = some t → ¬ F t →
    ∃ a, P a t ∧ (step a t).isSome = true

/-- A run is no longer than a measure that all its steps make smaller. -/
theorem run_measure {I : σ → Prop} {P : α → σ → Prop} {f : σ → ℕ}
    (keep : ∀ a s s', I s → P a s → step a s = some s' → I s')
    (less : ∀ a s s', I s → P a s → step a s = some s' → f s' < f s)
    {as : List α} {s t : σ} (h : I s) (hP : Along step P as s) (hr : run step as s = some t) :
  as.length + f t ≤ f s
  := by
  induction as generalizing s with
  | nil =>
      rw [run_nil, Option.some.injEq] at hr
      rw [hr, List.length_nil, Nat.zero_add]
  | cons a as ih =>
      obtain ⟨s', hs, hr'⟩ := run_cons.mp hr
      have hless := less a s s' h hP.1 hs
      have hrest := ih (keep a s s' h hP.1 hs) (hP.2 s' hs) hr'
      rw [List.length_cons]
      omega

/-- Measure rule: a measure that the steps make smaller, and a step that is possible before the
end, let the runs finish. -/
theorem Finishes.of_measure {I F : σ → Prop} {P : α → σ → Prop} (f : σ → ℕ)
    (keep : ∀ a s s', I s → P a s → step a s = some s' → I s')
    (less : ∀ a s s', I s → P a s → step a s = some s' → f s' < f s)
    (enabled : ∀ s, I s → ¬ F s → ∃ a, P a s ∧ (step a s).isSome = true)
    {s : σ} (h : I s) :
  Finishes step P F s
  where
  bounded := by
    use f s
    intro as t hP hr
    exact Nat.le_of_add_right_le (run_measure keep less h hP hr)
  continued as t hP hr hF := by
    apply enabled t _ hF
    apply run_invariant_along keep h hP hr

/-- Runs that finish can be continued to their end. -/
theorem Finishes.reaches {P : α → σ → Prop} {F : σ → Prop} {s : σ} (h : Finishes step P F s) :
  ∃ as t, Along step P as s ∧ run step as s = some t ∧ F t
  := by
  obtain ⟨N, hN⟩ := h.bounded
  have hlong : ∀ k, (∃ as t, Along step P as s ∧ run step as s = some t ∧ F t) ∨
      ∃ as t, Along step P as s ∧ run step as s = some t ∧ as.length = k := by
    intro k
    induction k with
    | zero => exact Or.inr ⟨[], s, trivial, rfl, rfl⟩
    | succ k ih =>
        obtain hdone | ⟨as, t, hP, hr, hlength⟩ := ih
        · exact Or.inl hdone
        · by_cases hF : F t
          · exact Or.inl ⟨as, t, hP, hr, hF⟩
          · obtain ⟨a, ha, hsome⟩ := h.continued as t hP hr hF
            obtain ⟨t', ht'⟩ := Option.isSome_iff_exists.mp hsome
            refine Or.inr ⟨as ++ [a], t', hP.concat hr ha, ?_, ?_⟩
            · exact run_append.mpr ⟨t, hr, run_cons.mpr ⟨t', ht', rfl⟩⟩
            · rw [List.length_append, hlength, List.length_singleton]
  obtain hdone | ⟨as, t, hP, hr, hlength⟩ := hlong (N + 1)
  · exact hdone
  · have hle := hN as t hP hr
    omega

section

variable {τ : Type*} {step' : α → τ → Option τ} {f : τ → σ} {I : τ → Prop} {P : α → σ → Prop}
  {Q : α → τ → Prop}

end

/-! ### Sums over threads -/

variable {τ : Type*} {A : τ → Type*} {S : Type*} {L : τ → Type*} [DecidableEq τ] [Fintype τ]
  {code : Code A S L}

/-- A step of one thread changes one term of a sum over the threads. -/
theorem Pool.step_sum (h : ∀ t, L t → ℕ) {a : Σ t, A t} {p p' : Pool S L}
    (hs : p.step code a = some p') :
  ∑ t, h t (p'.threads t) + h a.1 (p.threads a.1)
    = ∑ t, h t (p.threads t) + h a.1 (p'.threads a.1)
  := by
  rw [Pool.step_threads hs, sum_update, Function.update_self]

end Transition
