import GetFile.Transition.Run
import Mathlib.Algebra.BigOperators.Group.Finset.Basic

/-!
# Threads over a shared state

A pool is a shared state with one local state for each thread. The code of a thread is a
partial function of its action, the shared state and its own local state, so that a step of
one thread leaves the local states of all others as they are. Three rules follow from what
the code does to one thread: a quantity split between the shared state and the threads is
conserved (`Pool.step_conserved`), a lock is owned exactly by the thread that is inside its
section (`Owned.step`), and a fact about each thread is kept (`Pool.step_forall`).
-/

namespace Transition

/-- A shared state and the local states of the threads. -/
structure Pool {τ : Type*} (S : Type*) (L : τ → Type*) where
  shared : S
  threads : ∀ t, L t

/-- The code of the threads: what an action of a thread makes of the shared state and of its
own local state. -/
abbrev Code {τ : Type*} (A : τ → Type*) (S : Type*) (L : τ → Type*) :=
  ∀ t, A t → S → L t → Option (S × L t)

variable {τ : Type*} {A : τ → Type*} {S : Type*} {L : τ → Type*}

variable [DecidableEq τ]

/-- One thread takes an action. -/
def Pool.step (code : Code A S L) (a : Σ t, A t) (p : Pool S L) : Option (Pool S L) :=
  (code a.1 a.2 p.shared (p.threads a.1)).map fun r =>
    { shared := r.1, threads := Function.update p.threads a.1 r.2 }

variable {code : Code A S L}

/-- A step of the pool is a step of one thread's code. -/
theorem Pool.step_own {a : Σ t, A t} {p p' : Pool S L} (h : p.step code a = some p') :
  code a.1 a.2 p.shared (p.threads a.1) = some (p'.shared, p'.threads a.1)
  := by
  obtain ⟨⟨s', l'⟩, hc, rfl⟩ := Option.map_eq_some_iff.mp h
  rw [hc]
  simp only [Function.update_self]

/-- A thread whose code can take an action can take it in the pool. -/
theorem Pool.step_isSome {t : τ} {x : A t} {p : Pool S L}
    (h : (code t x p.shared (p.threads t)).isSome = true) :
  (p.step code ⟨t, x⟩).isSome = true
  := by
  unfold Pool.step
  rw [Option.isSome_map]
  apply h

/-- A step of one thread leaves the other threads as they are. -/
theorem Pool.step_other {a : Σ t, A t} {p p' : Pool S L} (h : p.step code a = some p') {u : τ}
    (hu : u ≠ a.1) :
  p'.threads u = p.threads u
  := by
  obtain ⟨⟨s', l'⟩, hc, rfl⟩ := Option.map_eq_some_iff.mp h
  apply Function.update_of_ne hu

/-- After a step the local states are those before it with the one of the thread updated. -/
theorem Pool.step_threads {a : Σ t, A t} {p p' : Pool S L} (h : p.step code a = some p') :
  p'.threads = Function.update p.threads a.1 (p'.threads a.1)
  := by
  funext u
  by_cases hu : u = a.1
  · subst hu
    rw [Function.update_self]
  · rw [Function.update_of_ne hu, Pool.step_other h hu]

/-- If each step of a thread keeps a fact about itself and disturbs it for no other thread,
then every step keeps it for all threads. -/
theorem Pool.step_forall {F : ∀ t, S → L t → Prop} {a : Σ t, A t} {p p' : Pool S L}
    (own : F a.1 p'.shared (p'.threads a.1))
    (others : ∀ u, u ≠ a.1 → F u p'.shared (p.threads u))
    (h : p.step code a = some p') (t : τ) :
  F t p'.shared (p'.threads t)
  := by
  by_cases ht : t = a.1
  · subst ht
    apply own
  · rw [Pool.step_other h ht]
    apply others t ht

/-! ### Conserved quantities -/

/-- The sum over the threads after one of them has changed. -/
theorem sum_update [Fintype τ] {M : Type*} [AddCommMonoid M] (h : ∀ t, L t → M) (ls : ∀ t, L t)
    (t : τ) (l : L t) :
  ∑ u, h u (Function.update ls t l u) + h t (ls t) = ∑ u, h u (ls u) + h t l
  := by
  rw [← Finset.add_sum_erase _ _ (Finset.mem_univ t),
    ← Finset.add_sum_erase _ (fun u => h u (ls u)) (Finset.mem_univ t), Function.update_self]
  have hrest : ∑ u ∈ Finset.univ.erase t, h u (Function.update ls t l u)
      = ∑ u ∈ Finset.univ.erase t, h u (ls u) := by
    apply Finset.sum_congr rfl
    intro u hu
    rw [Function.update_of_ne (Finset.ne_of_mem_erase hu)]
  rw [hrest]
  ac_rfl

/-- A quantity that a thread's step moves between the shared state and the thread is
conserved. -/
theorem Pool.step_conserved [Fintype τ] {M : Type*} [AddCommMonoid M] [IsRightCancelAdd M]
    (q : S → M) (h : ∀ t, L t → M) {a : Σ t, A t} {p p' : Pool S L}
    (move : q p'.shared + h a.1 (p'.threads a.1) = q p.shared + h a.1 (p.threads a.1))
    (hp : p.step code a = some p') :
  q p'.shared + ∑ t, h t (p'.threads t) = q p.shared + ∑ t, h t (p.threads t)
  := by
  have hsum := sum_update h p.threads a.1 (p'.threads a.1)
  rw [← Pool.step_threads hp] at hsum
  apply add_right_cancel (b := h a.1 (p.threads a.1))
  calc
    q p'.shared + ∑ t, h t (p'.threads t) + h a.1 (p.threads a.1)
      = q p'.shared + (∑ t, h t (p.threads t) + h a.1 (p'.threads a.1)) := by
        rw [add_assoc, hsum]
    _ = q p'.shared + h a.1 (p'.threads a.1) + ∑ t, h t (p.threads t) := by ac_rfl
    _ = q p.shared + h a.1 (p.threads a.1) + ∑ t, h t (p.threads t) := by rw [move]
    _ = q p.shared + ∑ t, h t (p.threads t) + h a.1 (p.threads a.1) := by ac_rfl

/-! ### A lock and the section it protects -/

/-- The lock is owned exactly by the thread that is inside its section. -/
def Owned (owner : S → Option τ) (inside : ∀ t, L t → Prop) (p : Pool S L) : Prop :=
  ∀ t, owner p.shared = some t ↔ inside t (p.threads t)

/-- What a step of thread `t` does to the lock: it leaves it alone, takes it and enters the
section, or leaves the section and gives it back. -/
inductive Handover (t : τ) (owner owner' : Option τ) (inside inside' : Prop) : Prop where
  | keep (owner : owner' = owner) (inside : inside' ↔ inside)
  | take (free : owner = none) (owner : owner' = some t) (inside : inside')
  | give (owner : owner = some t) (free : owner' = none) (outside : ¬ inside')

omit [DecidableEq τ] in
/-- Two threads are not inside the section at once. -/
theorem Owned.unique {owner : S → Option τ} {inside : ∀ t, L t → Prop} {p : Pool S L}
    (ho : Owned owner inside p) {t u : τ} (ht : inside t (p.threads t))
    (hu : inside u (p.threads u)) :
  t = u
  := by
  have h := (ho t).mpr ht
  rw [(ho u).mpr hu] at h
  exact (Option.some.inj h).symm

omit [DecidableEq τ] in
/-- Nobody is inside the section of a lock that is free. -/
theorem Owned.free {owner : S → Option τ} {inside : ∀ t, L t → Prop} {p : Pool S L}
    (ho : Owned owner inside p) (hout : ∀ t, ¬ inside t (p.threads t)) :
  owner p.shared = none
  := by
  cases h : owner p.shared with
  | none => rfl
  | some t => exact absurd ((ho t).mp h) (hout t)

/-- The lock is owned by the thread inside after every step that hands it over properly. -/
theorem Owned.step {owner : S → Option τ} {inside : ∀ t, L t → Prop} {a : Σ t, A t}
    {p p' : Pool S L} (ho : Owned owner inside p)
    (hand : Handover a.1 (owner p.shared) (owner p'.shared) (inside a.1 (p.threads a.1))
      (inside a.1 (p'.threads a.1)))
    (h : p.step code a = some p') :
  Owned owner inside p'
  := by
  intro t
  have ht := ho t
  by_cases hta : t = a.1
  · subst hta
    cases hand with
    | keep how hin => rw [how, hin, ht]
    | take hfree how hin => simp [how, hin]
    | give how hfree hout => simp [hfree, hout]
  · rw [Pool.step_other h hta]
    cases hand with
    | keep how hin => rw [how, ht]
    | take hfree how hin =>
        rw [hfree] at ht
        rw [how, ← ht]
        simp [Ne.symm hta]
    | give how hfree hout =>
        rw [how] at ht
        rw [hfree, ← ht]
        simp [Ne.symm hta]

end Transition
