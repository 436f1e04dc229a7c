import GetFile.Transition.Loop

/-!
# The states that a loop goes through

The body of a loop is a list of calls. `through` lists the states between the calls, and
`trace` those of all rounds. What every call keeps holds in all of these states, and a
transitive relation between the states in front of and behind each call holds between any two
of them in order (`through_rule`, `trace_rule`).
-/

namespace Transition

variable {σ α β : Type*}

/-- The states in front of, between and behind the calls. -/
def through : List (σ → σ) → σ → List σ
  | [], s => [s]
  | c :: cs, s => s :: through cs (c s)

/-- Along the calls, `I` holds of every state and `R` between the states in front of and behind
a call. -/
def Passes (I : σ → Prop) (R : σ → σ → Prop) : List (σ → σ) → σ → Prop
  | [], s => I s
  | c :: cs, s => I s ∧ R s (c s) ∧ Passes I R cs (c s)

variable {I : σ → Prop} {R : σ → σ → Prop}

/-- The state behind the calls is one of those gone through. -/
theorem foldl_mem_through (cs : List (σ → σ)) (s : σ) :
  cs.foldl (fun s c => c s) s ∈ through cs s
  := by
  induction cs generalizing s with
  | nil => exact List.mem_singleton_self s
  | cons c cs ih => exact List.mem_cons_of_mem _ (ih (c s))

/-- What holds along the calls holds of all states gone through. -/
theorem Passes.forall {cs : List (σ → σ)} {s : σ} (h : Passes I R cs s) :
  ∀ x ∈ through cs s, I x
  := by
  induction cs generalizing s with
  | nil =>
      intro x hx
      rw [through, List.mem_singleton] at hx
      rw [hx]
      apply h
  | cons c cs ih =>
      obtain ⟨hs, -, hrest⟩ := h
      intro x hx
      rw [through, List.mem_cons] at hx
      obtain rfl | hx := hx
      · apply hs
      · apply ih hrest x hx

/-- A state stands in the relation to all states that follow it, itself included. -/
theorem Passes.head (refl : ∀ s, R s s) (trans : ∀ s t u, R s t → R t u → R s u)
    {cs : List (σ → σ)} {s : σ} (h : Passes I R cs s) :
  ∀ x ∈ through cs s, R s x
  := by
  induction cs generalizing s with
  | nil =>
      intro x hx
      rw [through, List.mem_singleton] at hx
      rw [hx]
      apply refl
  | cons c cs ih =>
      obtain ⟨-, hstep, hrest⟩ := h
      intro x hx
      rw [through, List.mem_cons] at hx
      obtain rfl | hx := hx
      · apply refl
      · apply trans _ _ _ hstep (ih hrest x hx)

/-- Any two of the states gone through stand in the relation. -/
theorem Passes.pairwise (refl : ∀ s, R s s) (trans : ∀ s t u, R s t → R t u → R s u)
    {cs : List (σ → σ)} {s : σ} (h : Passes I R cs s) :
  (through cs s).Pairwise R
  := by
  induction cs generalizing s with
  | nil => exact List.pairwise_singleton R s
  | cons c cs ih =>
      rw [through, List.pairwise_cons]
      obtain ⟨-, hstep, hrest⟩ := h
      constructor
      · intro x hx
        apply trans _ _ _ hstep (hrest.head refl trans x hx)
      · apply ih hrest

/-- All states gone through stand in the relation to the state behind the calls. -/
theorem Passes.last (refl : ∀ s, R s s) (trans : ∀ s t u, R s t → R t u → R s u)
    {cs : List (σ → σ)} {s : σ} (h : Passes I R cs s) :
  ∀ x ∈ through cs s, R x (cs.foldl (fun s c => c s) s)
  := by
  induction cs generalizing s with
  | nil =>
      intro x hx
      rw [through, List.mem_singleton] at hx
      rw [hx]
      apply refl
  | cons c cs ih =>
      have hhead := h.head refl trans
      obtain ⟨-, -, hrest⟩ := h
      intro x hx
      rw [through, List.mem_cons] at hx
      obtain rfl | hx := hx
      · apply hhead
        apply foldl_mem_through
      · apply ih hrest x hx

/-! ### All rounds -/

/-- The states at the head of the loop, and between them those that `inner` lists for a
round. -/
def trace (body : σ → α → Round σ β) (inner : σ → α → List σ) : σ → List α → List σ
  | s, [] => [s]
  | s, a :: as =>
    s :: (inner s a ++
      match body s a with
      | .again s' => trace body inner s' as
      | .leave _ => [])

variable {body : σ → α → Round σ β} {inner : σ → α → List σ}

/-- What holds at every head of the loop and in every state of a round holds in all states. -/
theorem trace_forall {H : σ → Prop} (head : ∀ s, H s → I s)
    (round : ∀ s a, H s → ∀ x ∈ inner s a, I x)
    (again : ∀ s a s', H s → body s a = .again s' → H s') {s : σ} {as : List α} (h : H s) :
  ∀ x ∈ trace body inner s as, I x
  := by
  induction as generalizing s with
  | nil =>
      intro x hx
      rw [trace, List.mem_singleton] at hx
      rw [hx]
      apply head s h
  | cons a as ih =>
      intro x hx
      rw [trace, List.mem_cons, List.mem_append] at hx
      obtain rfl | hx | hx := hx
      · apply head _ h
      · apply round s a h x hx
      · cases hbody : body s a with
        | again s' =>
            rw [hbody] at hx
            apply ih (again s a s' h hbody) x hx
        | leave b =>
            rw [hbody] at hx
            cases hx

/-- The relation holds between any two states in order if it holds in each round, from its head
on and up to the next head. -/
theorem trace_pairwise {H : σ → Prop} (refl : ∀ s, R s s) (trans : ∀ s t u, R s t → R t u → R s u)
    (round : ∀ s a, H s → (s :: inner s a).Pairwise R)
    (again : ∀ s a s', H s → body s a = .again s' → H s' ∧ ∀ x ∈ s :: inner s a, R x s')
    {s : σ} {as : List α} (h : H s) :
  (trace body inner s as).Pairwise R ∧ ∀ x ∈ trace body inner s as, R s x
  := by
  induction as generalizing s with
  | nil =>
      constructor
      · exact List.pairwise_singleton R s
      · intro x hx
        rw [trace, List.mem_singleton] at hx
        rw [hx]
        apply refl
  | cons a as ih =>
      have hround := round s a h
      have hinner := (List.pairwise_cons.mp hround).1
      cases hbody : body s a with
      | leave b =>
          have htrace : trace body inner s (a :: as) = s :: inner s a := by
            rw [trace, hbody, List.append_nil]
          rw [htrace]
          refine ⟨hround, ?_⟩
          intro x hx
          rw [List.mem_cons] at hx
          obtain rfl | hx := hx
          · apply refl
          · apply hinner x hx
      | again s' =>
          obtain ⟨hs', hnext⟩ := again s a s' h hbody
          obtain ⟨hpairwise, hhead⟩ := ih hs'
          have htrace : trace body inner s (a :: as) =
              (s :: inner s a) ++ trace body inner s' as := by
            rw [trace, hbody, List.cons_append]
          rw [htrace]
          constructor
          · rw [List.pairwise_append]
            refine ⟨hround, hpairwise, ?_⟩
            intro x hx y hy
            apply trans _ _ _ (hnext x hx) (hhead y hy)
          · intro x hx
            rw [List.mem_append, List.mem_cons] at hx
            obtain (rfl | hx) | hx := hx
            · apply refl
            · apply hinner x hx
            · apply trans _ _ _ (hnext s List.mem_cons_self) (hhead x hx)

end Transition
