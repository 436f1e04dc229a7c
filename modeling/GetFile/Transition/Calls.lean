import GetFile.Transition.Threads

/-!
# Threads whose calls take many steps

In the code of a pool a thread makes a call in one step. `Calls.code` lets the call take as many
steps as it needs, in surroundings that the calls of all threads share, while the other threads go
on. The threads alone then take the same steps as before, or none (`Calls.step_threads`), so that
what every step of the threads keeps is kept (`Calls.invariant`).
-/

namespace Transition

variable {τ : Type*} {A : τ → Type*} {S : Type*} {L : τ → Type*} {Q E K R : Type*}

/-- The calls that threads make: the call that a thread is at, where a call begins, a step of it,
what it returns at its end, and whether the surroundings let anything go on. A step of a call looks
at what the threads share and changes the surroundings. -/
structure Calls (A : τ → Type*) (S : Type*) (L : τ → Type*) (Q E K R : Type*) where
  call : ∀ t, L t → Option Q
  first : K
  step : ∀ t, A t → S → Q → E → K → Option (E × K)
  result : K → Option R
  running : E → Bool

/-- What the threads share, and the surroundings of their calls. -/
structure Machine (S E : Type*) where
  shared : S
  surroundings : E

/-- A thread, where it is in its call, and the calls that have returned with their results. -/
structure Caller (L K Q R : Type*) where
  thread : L
  inside : K
  returned : List (Q × R)

/-- The code of the threads when their calls take many steps. -/
def Calls.code (c : Calls A S L Q E K R) (code : Code A S L) :
    Code A (Machine S E) (fun t => Caller (L t) K Q R) := fun t a m l =>
  if c.running m.surroundings then
    match c.call t l.thread, c.result l.inside with
    | some q, none =>
      (c.step t a m.shared q m.surroundings l.inside).map fun x =>
        ({ m with surroundings := x.1 }, { l with inside := x.2 })
    | some q, some r =>
      (code t a m.shared l.thread).map fun x =>
        ({ m with shared := x.1 }, ⟨x.2, c.first, l.returned ++ [(q, r)]⟩)
    | none, _ =>
      (code t a m.shared l.thread).map fun x =>
        ({ m with shared := x.1 }, ⟨x.2, c.first, l.returned⟩)
  else none

/-- The threads alone. -/
def Pool.callers (p : Pool (Machine S E) (fun t => Caller (L t) K Q R)) : Pool S L where
  shared := p.shared.shared
  threads t := (p.threads t).thread

/-- The threads of a pool at the beginning, in the given surroundings. -/
def Calls.start (c : Calls A S L Q E K R) (p : Pool S L) (e : E) :
    Pool (Machine S E) (fun t => Caller (L t) K Q R) where
  shared := ⟨p.shared, e⟩
  threads t := ⟨p.threads t, c.first, []⟩

/-- The steps of a thread: in a call, with the result of a call, or outside of its calls. -/
inductive CallerStep (c : Calls A S L Q E K R) (code : Code A S L) (t : τ) (a : A t)
    (m : Machine S E) (l : Caller (L t) K Q R) :
    Machine S E → Caller (L t) K Q R → Prop where
  | inside (q : Q) (e : E) (k : K) (call : c.call t l.thread = some q)
      (step : c.step t a m.shared q m.surroundings l.inside = some (e, k)) :
      CallerStep c code t a m l { m with surroundings := e } { l with inside := k }
  | returns (q : Q) (r : R) (s : S) (thread : L t) (call : c.call t l.thread = some q)
      (result : c.result l.inside = some r) (step : code t a m.shared l.thread = some (s, thread)) :
      CallerStep c code t a m l { m with shared := s } ⟨thread, c.first, l.returned ++ [(q, r)]⟩
  | outside (s : S) (thread : L t) (call : c.call t l.thread = none)
      (step : code t a m.shared l.thread = some (s, thread)) :
      CallerStep c code t a m l { m with shared := s } ⟨thread, c.first, l.returned⟩

variable {c : Calls A S L Q E K R} {code : Code A S L}

/-- Every step of a thread is one of the listed ones. -/
theorem Calls.code_cases {t : τ} {a : A t} {m m' : Machine S E} {l l' : Caller (L t) K Q R}
    (h : c.code code t a m l = some (m', l')) :
  CallerStep c code t a m l m' l'
  := by
  obtain ⟨-, h⟩ := Option.ite_none_right_eq_some.mp h
  split at h
  · obtain ⟨⟨e, k⟩, hstep, heq⟩ := Option.map_eq_some_iff.mp h
    cases heq
    exact .inside _ e k (by assumption) hstep
  · obtain ⟨⟨s, thread⟩, hstep, heq⟩ := Option.map_eq_some_iff.mp h
    cases heq
    exact .returns _ _ s thread (by assumption) (by assumption) hstep
  · obtain ⟨⟨s, thread⟩, hstep, heq⟩ := Option.map_eq_some_iff.mp h
    cases heq
    exact .outside s thread (by assumption) hstep

/-- The thread alone takes a step, or it stays where it is. -/
theorem CallerStep.thread {t : τ} {a : A t} {m m' : Machine S E} {l l' : Caller (L t) K Q R}
    (h : CallerStep c code t a m l m' l') :
  code t a m.shared l.thread = some (m'.shared, l'.thread) ∨
    m'.shared = m.shared ∧ l'.thread = l.thread
  := by
  cases h with
  | inside => exact Or.inr ⟨rfl, rfl⟩
  | returns q r s thread call result step => exact Or.inl step
  | outside s thread call step => exact Or.inl step

variable [DecidableEq τ] {p p' : Pool (Machine S E) (fun t => Caller (L t) K Q R)} {a : Σ t, A t}

/-- Every step is one of a thread. -/
theorem Calls.step_cases (h : Pool.step (c.code code) a p = some p') :
  CallerStep c code a.1 a.2 p.shared (p.threads a.1) p'.shared (p'.threads a.1)
  := Calls.code_cases (Pool.step_own h)

/-- The threads alone take a step, or they stay where they are. -/
theorem Calls.step_threads (h : Pool.step (c.code code) a p = some p') :
  Pool.step code a p.callers = some p'.callers ∨ p'.callers = p.callers
  := by
  have hthreads : p'.callers.threads =
      Function.update p.callers.threads a.1 (p'.callers.threads a.1) := by
    funext t
    by_cases ht : t = a.1
    · subst ht
      rw [Function.update_self]
    · rw [Function.update_of_ne ht]
      exact congrArg Caller.thread (Pool.step_other h ht)
  rcases (Calls.step_cases h).thread with hstep | ⟨hshared, hthread⟩
  · left
    unfold Pool.step
    rw [show code a.1 a.2 p.callers.shared (p.callers.threads a.1) =
      some (p'.callers.shared, p'.callers.threads a.1) from hstep, Option.map_some, ← hthreads]
  · right
    have hsame : p'.callers.threads a.1 = p.callers.threads a.1 := hthread
    rw [hsame, Function.update_eq_self] at hthreads
    exact congrArg₂ Pool.mk hshared hthreads

/-- What every step of the threads keeps is kept when their calls take many steps. -/
theorem Calls.invariant {I : Pool S L → Prop}
    (keep : ∀ a q q', I q → Pool.step code a q = some q' → I q')
    (hp : I p.callers) (h : Pool.step (c.code code) a p = some p') :
  I p'.callers
  := by
  rcases Calls.step_threads h with hstep | heq
  · exact keep a _ _ hp hstep
  · rw [heq]
    exact hp

/-- When each step of a thread notes the call that it has made, the calls that have returned are the
noted ones. -/
theorem Calls.logged {log : ∀ t, L t → List Q}
    (note : ∀ t a s l s' l', code t a s l = some (s', l') →
      log t l' = log t l ++ (c.call t l).toList)
    (hp : ∀ t, (p.threads t).returned.map Prod.fst = log t (p.threads t).thread)
    (h : Pool.step (c.code code) a p = some p') (t : τ) :
  (p'.threads t).returned.map Prod.fst = log t (p'.threads t).thread
  := by
  by_cases ht : t = a.1
  · subst ht
    have hbefore := hp a.1
    have hstep := Calls.step_cases h
    generalize p'.shared = m', p'.threads a.1 = l' at hstep ⊢
    cases hstep with
    | inside => exact hbefore
    | returns q r s thread call result step =>
        rw [note _ _ _ _ _ _ step, call, List.map_append, hbefore]
        rfl
    | outside s thread call step =>
        rw [note _ _ _ _ _ _ step, call, hbefore]
        exact (List.append_nil _).symm
  · rw [Pool.step_other h ht]
    exact hp t

/-- The calls that go on are as `V` says, and those that have returned as `W` says. -/
def Calls.Right (c : Calls A S L Q E K R) (V : Q → K → Prop) (W : Q → R → Prop)
    (p : Pool (Machine S E) (fun t => Caller (L t) K Q R)) : Prop :=
  ∀ t, (∀ q, c.call t (p.threads t).thread = some q → V q (p.threads t).inside) ∧
    ∀ x ∈ (p.threads t).returned, W x.1 x.2

/-- What every step of a call keeps, whatever the surroundings are, is kept by all steps. -/
theorem Calls.step_right {V : Q → K → Prop} {W : Q → R → Prop} (first : ∀ q, V q c.first)
    (keep : ∀ t a s q e k e' k', V q k → c.step t a s q e k = some (e', k') → V q k')
    (result : ∀ q k r, V q k → c.result k = some r → W q r)
    (hp : c.Right V W p) (h : Pool.step (c.code code) a p = some p') :
  c.Right V W p'
  := by
  intro t
  by_cases ht : t = a.1
  · subst ht
    obtain ⟨hinside, hreturned⟩ := hp a.1
    have hstep := Calls.step_cases h
    generalize p'.shared = m', p'.threads a.1 = l' at hstep ⊢
    cases hstep with
    | inside q e k call step =>
        refine ⟨?_, hreturned⟩
        intro q' hq'
        cases hq'.symm.trans call
        exact keep _ _ _ _ _ _ _ _ (hinside q call) step
    | returns q r s thread call hresult step =>
        refine ⟨fun q _ => first q, ?_⟩
        intro x hx
        rcases List.mem_append.mp hx with hold | hnew
        · exact hreturned x hold
        · rw [List.mem_singleton.mp hnew]
          exact result q _ r (hinside q call) hresult
    | outside s thread call step => exact ⟨fun q _ => first q, hreturned⟩
  · rw [Pool.step_other h ht]
    exact hp t

end Transition
