import Mathlib.Tactic.Common

/-!
# Loops fed from outside

A loop `while (1)` whose rounds each consume one input is a function `body` from the state
at the head of the loop and the input to a `Round`: the loop goes on in a new state or
leaves with a result. `feed` runs the loop on a list of inputs and then applies `stop`, and
`Always` says that a property holds whenever the loop is at its head. `afterInputs` runs the
loop on an endless supply of inputs, and `leaves_of_measure` is the rule for its termination.
-/

namespace Transition

/-- What one round of a loop does: it goes on in a new state or leaves with a result. -/
inductive Round (σ β : Type*) where
  | again : σ → Round σ β
  | leave : β → Round σ β

variable {σ α β : Type*}

/-- Run the loop from a state on the inputs, and leave with `stop` when they run out. -/
def feed (body : σ → α → Round σ β) (stop : σ → β) : σ → List α → β
  | s, [] => stop s
  | s, a :: as =>
    match body s a with
    | .again s' => feed body stop s' as
    | .leave b => b

/-- `P` holds of the state and the remaining inputs whenever the loop is at its head. -/
def Always (body : σ → α → Round σ β) (P : σ → List α → Prop) : σ → List α → Prop
  | s, [] => P s []
  | s, a :: as => P s (a :: as) ∧ ∀ s', body s a = .again s' → Always body P s' as

/-- What the loop leaves with when a round has just ended and the inputs follow. -/
def Round.feed (body : σ → α → Round σ β) (stop : σ → β) (as : List α) : Round σ β → β
  | .again s => Transition.feed body stop s as
  | .leave b => b

/-- `P` holds whenever the loop is at its head when a round has just ended and the inputs
follow. -/
def Round.Always (body : σ → α → Round σ β) (P : σ → List α → Prop) (as : List α) :
    Round σ β → Prop
  | .again s => Transition.Always body P s as
  | .leave _ => True

variable {body : σ → α → Round σ β} {stop : σ → β}

@[simp]
theorem Round.feed_again (s : σ) (as : List α) :
  (Round.again s : Round σ β).feed body stop as = Transition.feed body stop s as
  := rfl

@[simp]
theorem Round.feed_leave (b : β) (as : List α) :
  (Round.leave b : Round σ β).feed body stop as = b
  := rfl

@[simp]
theorem Round.always_again {P : σ → List α → Prop} (s : σ) (as : List α) :
  (Round.again s : Round σ β).Always body P as ↔ Transition.Always body P s as
  := Iff.rfl

@[simp]
theorem Round.always_leave {P : σ → List α → Prop} (b : β) (as : List α) :
  (Round.leave b : Round σ β).Always body P as
  := True.intro

theorem feed_cons (s : σ) (a : α) (as : List α) :
  feed body stop s (a :: as) = (body s a).feed body stop as
  := by
  rw [feed]
  cases body s a with
  | again s' => rfl
  | leave b => rfl

theorem always_cons {P : σ → List α → Prop} (s : σ) (a : α) (as : List α) :
  Always body P s (a :: as) ↔ P s (a :: as) ∧ (body s a).Always body P as
  := by
  rw [Always]
  cases body s a with
  | again s' => simp [Round.Always]
  | leave b => simp [Round.Always]

@[simp]
theorem feed_nil (s : σ) :
  feed body stop s [] = stop s
  := rfl

theorem feed_again {s s' : σ} {a : α} {as : List α} (h : body s a = .again s') :
  feed body stop s (a :: as) = feed body stop s' as
  := by
  rw [feed, h]

theorem feed_leave {s : σ} {a : α} {as : List α} {b : β} (h : body s a = .leave b) :
  feed body stop s (a :: as) = b
  := by
  rw [feed, h]

/-- What always holds holds at the start. -/
theorem Always.head {P : σ → List α → Prop} {s : σ} {as : List α} (h : Always body P s as) :
  P s as
  := by
  cases as with
  | nil => apply h
  | cons a as => apply h.1

/-- What always holds still always holds after a round. -/
theorem Always.next {P : σ → List α → Prop} {s s' : σ} {a : α} {as : List α}
    (h : Always body P s (a :: as)) (hs : body s a = .again s') :
  Always body P s' as
  := h.2 s' hs

/-- After a round that goes on, a property always holds if it held before the round and
always holds from there. -/
theorem always_again {P : σ → List α → Prop} {s s' : σ} {a : α} {as : List α}
    (hs : body s a = .again s') :
  Always body P s (a :: as) ↔ P s (a :: as) ∧ Always body P s' as
  := by
  rw [Always, hs]
  simp

/-- Where the loop leaves, only the head before is to be checked. -/
theorem always_leave {P : σ → List α → Prop} {s : σ} {a : α} {as : List α} {b : β}
    (hs : body s a = .leave b) :
  Always body P s (a :: as) ↔ P s (a :: as)
  := by
  rw [Always, hs]
  simp

/-- Invariant rule: what a round preserves always holds. -/
theorem always_of_step {I P : σ → List α → Prop}
    (himp : ∀ s as, I s as → P s as)
    (hstep : ∀ s a as s', I s (a :: as) → body s a = .again s' → I s' as)
    {s : σ} {as : List α} (h : I s as) :
  Always body P s as
  := by
  induction as generalizing s with
  | nil => apply himp s [] h
  | cons a as ih =>
      constructor
      · apply himp s (a :: as) h
      · intro s' hs
        apply ih (hstep s a as s' h hs)

/-- Result rule: what an invariant gives at the end of the inputs and in each leaving round
holds of the result. -/
theorem feed_rule {I : σ → List α → Prop} {Q : β → Prop}
    (hnil : ∀ s, I s [] → Q (stop s))
    (hagain : ∀ s a as s', I s (a :: as) → body s a = .again s' → I s' as)
    (hleave : ∀ s a as b, I s (a :: as) → body s a = .leave b → Q b)
    {s : σ} {as : List α} (h : I s as) :
  Q (feed body stop s as)
  := by
  induction as generalizing s with
  | nil => apply hnil s h
  | cons a as ih =>
      cases hs : body s a with
      | again s' =>
          rw [feed_again hs]
          apply ih (hagain s a as s' h hs)
      | leave b =>
          rw [feed_leave hs]
          apply hleave s a as b h hs

/-! ### Endless inputs -/

/-- The head of the loop, or the result it has left with, after the first `n` inputs of an
endless supply. -/
def afterInputs (body : σ → α → Round σ β) (s : σ) (as : ℕ → α) : ℕ → Round σ β
  | 0 => .again s
  | n + 1 =>
    match afterInputs body s as n with
    | .again s' => body s' (as n)
    | .leave b => .leave b

@[simp]
theorem afterInputs_zero (s : σ) (as : ℕ → α) :
  afterInputs body s as 0 = .again s
  := rfl

theorem afterInputs_again {s s' : σ} {as : ℕ → α} {n : ℕ}
    (h : afterInputs body s as n = .again s') :
  afterInputs body s as (n + 1) = body s' (as n)
  := by
  rw [afterInputs, h]

/-- Behind a first round that goes on, the loop runs on the rest of the supply. -/
theorem afterInputs_next {s s' : σ} {as : ℕ → α} (h : body s (as 0) = .again s') (n : ℕ) :
  afterInputs body s as (n + 1) = afterInputs body s' (fun i => as (i + 1)) n
  := by
  induction n with
  | zero => apply h
  | succ n ih => rw [afterInputs, ih, afterInputs]

/-- Termination rule: on an endless supply on which each round that goes on keeps an invariant
and makes a measure smaller, some round leaves. -/
theorem leaves_of_measure {I : σ → Prop} {measure : σ → ℕ} {s : σ} {as : ℕ → α}
    (hstep : ∀ n s₁ s₂, afterInputs body s as n = .again s₁ →
      afterInputs body s as (n + 1) = .again s₂ → I s₁ → I s₂ ∧ measure s₂ < measure s₁)
    (h : I s) :
  ∃ n s' b, n ≤ measure s ∧ afterInputs body s as n = .again s' ∧ I s' ∧
    body s' (as n) = .leave b
  := by
  -- otherwise the measure falls below zero
  by_contra hnot
  push Not at hnot
  have hgoes : ∀ n ≤ measure s + 1, ∃ s', afterInputs body s as n = .again s' ∧ I s' ∧
      measure s' + n ≤ measure s := by
    intro n hn
    induction n with
    | zero => exact ⟨s, rfl, h, Nat.le_refl _⟩
    | succ n ih =>
        obtain ⟨s₁, hs₁, hI, hle⟩ := ih (by omega)
        cases hs₂ : body s₁ (as n) with
        | again s₂ =>
            have hagain := (afterInputs_again hs₁).trans hs₂
            obtain ⟨hI', hlt⟩ := hstep n s₁ s₂ hs₁ hagain hI
            exact ⟨s₂, hagain, hI', by omega⟩
        | leave b => apply absurd hs₂ (hnot n s₁ b (by omega) hs₁ hI)
  obtain ⟨s', -, -, hle⟩ := hgoes (measure s + 1) (Nat.le_refl _)
  omega

end Transition
