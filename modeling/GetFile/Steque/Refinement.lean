import GetFile.Steque.Nodes

/-!
# Steque: the pointers and nodes refine the list

Every sequence of calls on the pointers and nodes returns what it returns on the list of the items,
and leaves the links leading through nodes with these items, as long as `INT_MAX` items are never
exceeded (`steque_refines`). Beyond that the counter, an `int`, is not the number of the items.
-/

namespace GetFile

open CString Heap Transition

variable {ι α : Type*} [DecidableEq ι] {this : StequeT ι α} {xs : Steque α}

instance [DecidableEq α] (c : StequeCall ι α) (s : StequeT ι α × List (Returned α)) :
    Decidable (Mallocs c s) :=
  match c with
  | .enqueue node _ | .push node _ => inferInstanceAs (Decidable (s.1.nodes node = none))
  | .init | .pop | .cycle | .front | .size | .isempty => inferInstanceAs (Decidable True)

instance (c : StequeCall ι α) (s : Steque α × List (Returned α)) : Decidable (HasRoom c s) :=
  match c with
  | .enqueue _ _ | .push _ _ => inferInstanceAs (Decidable (_ < _))
  | .init | .pop | .cycle | .front | .size | .isempty => inferInstanceAs (Decidable True)

/-- The links lead from `front` through `N` distinct nodes with these items to `back`, the pointers
are null exactly when there are none, and `steque_destroy` comes to an end and leaves none. -/
structure Represents (this : StequeT ι α) (xs : Steque α) : Prop where
  linked : ∃ cells, Linked this.nodes this.front this.back cells ∧ items cells = xs ∧
    this.N = cells.length
  front : this.front = none ↔ this.N = 0
  back : this.back = none ↔ this.N = 0
  destroy : ∃ rounds this', this.destroy rounds = some this' ∧ this'.front = none ∧
    this'.back = none ∧ this'.N = 0

/-- `steque_destroy` takes off one item after the other. -/
theorem Tracks.destroy (h : Tracks this xs) (hlen : xs.length < 2 ^ 31) :
  ∃ this', this.destroy xs.length = some this' ∧ Tracks this' []
  := by
  induction xs generalizing this with
  | nil =>
      refine ⟨this, ?_, h⟩
      rw [List.length_nil, StequeT.destroy, h.isempty_eq hlen]
      rfl
  | cons x xs ih =>
      obtain ⟨this₁, hpop, htracks⟩ := h.pop
      rw [List.length_cons] at hlen
      obtain ⟨this', hdestroy, hempty⟩ := ih htracks (by omega)
      refine ⟨this', ?_, hempty⟩
      have hne : ¬ this.isempty = true := by
        rw [h.isempty_eq (by simpa using hlen), Steque.isempty_iff]
        exact List.cons_ne_nil x xs
      rw [List.length_cons, StequeT.destroy, if_neg hne, hpop]
      exact hdestroy

/-- With at most `INT_MAX` items the counter is right. -/
theorem Tracks.represents (h : Tracks this xs) (hlen : xs.length < 2 ^ 31) :
  Represents this xs
  := by
  have hN := h.size_eq hlen
  have hzero : this.N = 0 ↔ xs = [] := by
    rw [hN, Nat.cast_eq_zero, List.length_eq_zero_iff]
  constructor
  case linked =>
    obtain ⟨cells, hlinked, rfl, -⟩ := h
    rw [length_items] at hN
    exact ⟨cells, hlinked, rfl, hN⟩
  case front => rw [h.front_eq_none, hzero]
  case back => rw [h.back_eq_none, hzero]
  case destroy =>
    obtain ⟨this', hdestroy, hempty⟩ := h.destroy hlen
    exact ⟨xs.length, this', hdestroy, hempty.front_eq_none.mpr rfl, hempty.back_eq_none.mpr rfl,
      hempty.size_eq (Nat.two_pow_pos 31)⟩

/-! ### Sequences of calls -/

/-- A call returns on the nodes what it returns on the items, and keeps the nodes in step. -/
theorem Tracks.call {c : StequeCall ι α} {v : Returned α} {xs' : Steque α} (h : Tracks this xs)
    (hlen : xs.length < 2 ^ 31) {vs : List (Returned α)} (hmalloc : Mallocs c (this, vs))
    (hcall : xs.call c = some (v, xs')) :
  ∃ this', this.call c = some (v, this') ∧ Tracks this' xs'
  := by
  cases c with
  | init =>
      cases hcall
      exact ⟨this.init, rfl, Tracks.init this⟩
  | enqueue node item =>
      cases hcall
      obtain ⟨this', henqueue, htracks⟩ := h.enqueue hmalloc item
      exact ⟨this', by rw [StequeT.call, henqueue]; rfl, htracks⟩
  | push node item =>
      cases hcall
      exact ⟨this.push node item, rfl, h.push hmalloc item⟩
  | pop =>
      cases xs with
      | nil => cases hcall
      | cons x xs =>
          cases hcall
          obtain ⟨this', hpop, htracks⟩ := h.pop
          exact ⟨this', by rw [StequeT.call, hpop]; rfl, htracks⟩
  | cycle =>
      cases hcall
      obtain ⟨this', hcycle, htracks⟩ := h.cycle
      exact ⟨this', by rw [StequeT.call, hcycle]; rfl, htracks⟩
  | front =>
      cases xs with
      | nil => cases hcall
      | cons x xs =>
          cases hcall
          exact ⟨this, by rw [StequeT.call, h.frontItem]; rfl, h⟩
  | size =>
      cases hcall
      exact ⟨this, by rw [StequeT.call, StequeT.size, h.size_eq hlen]; rfl, h⟩
  | isempty =>
      cases hcall
      exact ⟨this, by rw [StequeT.call, h.isempty_eq hlen], h⟩

omit [DecidableEq ι] in
/-- A call that has room leaves at most `INT_MAX` items. -/
theorem HasRoom.length_lt {c : StequeCall ι α} {v : Returned α} {xs' : Steque α}
    {vs : List (Returned α)} (h : HasRoom c (xs, vs)) (hlen : xs.length < 2 ^ 31)
    (hcall : xs.call c = some (v, xs')) :
  xs'.length < 2 ^ 31
  := by
  cases c with
  | init =>
      cases hcall
      exact Nat.two_pow_pos 31
  | enqueue node item =>
      cases hcall
      have hroom : xs.length < 2 ^ 31 - 1 := h
      rw [Steque.enqueue, List.length_append, List.length_singleton]
      omega
  | push node item =>
      cases hcall
      have hroom : xs.length < 2 ^ 31 - 1 := h
      rw [Steque.push, List.length_cons]
      omega
  | pop =>
      cases xs with
      | nil => cases hcall
      | cons x xs =>
          cases hcall
          exact lt_of_le_of_lt (Nat.le_succ _) hlen
  | cycle =>
      cases hcall
      cases xs with
      | nil => exact hlen
      | cons x xs => simpa [Steque.cycle] using hlen
  | front =>
      cases xs with
      | nil => cases hcall
      | cons x xs =>
          cases hcall
          exact hlen
  | size | isempty =>
      cases hcall
      exact hlen

/-- For every sequence of calls behind `steque_init` in which elements are taken and read only when
there are some and there are never more than `INT_MAX` of them, and every choice of free addresses
by `malloc`: the calls return on the pointers and nodes what they return on the list of the items,
and the pointers, nodes and counter represent that list. -/
theorem steque_refines (this : StequeT ι α) {cs : List (StequeCall ι α)} {xs : Steque α}
    {vs : List (Returned α)} (hrun : run Steque.step cs ([], []) = some (xs, vs))
    (hroom : Along Steque.step HasRoom cs ([], []))
    (hmalloc : Along StequeT.step Mallocs cs (this.init, [])) :
  ∃ this', run StequeT.step cs (this.init, []) = some (this', vs) ∧ Represents this' xs
  := by
  have hkeep : ∀ c (s : StequeT ι α × List (Returned α)) (t t' : Steque α × List (Returned α)),
      Tracks s.1 t.1 ∧ t.1.length < 2 ^ 31 ∧ s.2 = t.2 → Mallocs c s → HasRoom c t →
      Steque.step c t = some t' →
      ∃ s', StequeT.step c s = some s' ∧ Tracks s'.1 t'.1 ∧ t'.1.length < 2 ^ 31 ∧ s'.2 = t'.2 := by
    rintro c ⟨this, vs⟩ ⟨xs, vs'⟩ t' ⟨htracks, hlen, hvs⟩ hmalloc hroom hstep
    dsimp only at htracks hlen hvs
    subst hvs
    obtain ⟨⟨v, xs'⟩, hcall, rfl⟩ := Option.map_eq_some_iff.mp hstep
    obtain ⟨this', hcall', htracks'⟩ := htracks.call hlen hmalloc hcall
    refine ⟨(this', vs ++ [v]), ?_, htracks', hroom.length_lt hlen hcall, rfl⟩
    rw [StequeT.step, hcall']
    rfl
  have hstart : Tracks (this.init, ([] : List (Returned α))).1 [] ∧
      (([], []) : Steque α × List (Returned α)).1.length < 2 ^ 31 ∧
      ([] : List (Returned α)) = [] := ⟨Tracks.init this, Nat.two_pow_pos 31, rfl⟩
  obtain ⟨⟨this', vs'⟩, hrun', htracks, hlen, hvs⟩ := run_simulation hkeep hstart hmalloc hroom hrun
  dsimp only at htracks hlen hvs
  subst hvs
  exact ⟨this', hrun', htracks.represents hlen⟩

/-- Memory without nodes, and pointers that have not been set. -/
def noNodes : StequeT ℕ α :=
  ⟨some 7, none, 3, fun _ => none⟩

/-- Some calls on two items. -/
def someCalls : List (StequeCall ℕ ℕ) :=
  [.enqueue 0 5, .push 1 6, .cycle, .front, .pop, .isempty, .cycle, .size]

theorem steque_refines_someCalls :
  ∃ this' vs, run StequeT.step someCalls ((noNodes : StequeT ℕ ℕ).init, []) = some (this', vs) ∧
    Represents this' [6]
  := by
  have hrun : run Steque.step someCalls ([], []) = some ([6], [.void, .void, .void, .item 5,
    .item 5, .int 0, .void, .int 1]) := rfl
  obtain ⟨this', hrun', hrepresents⟩ :=
    steque_refines (noNodes : StequeT ℕ ℕ) hrun (by decide) (by decide)
  exact ⟨this', _, hrun', hrepresents⟩

/-! ### One item too many -/

/-- Adding `n` items, where `malloc` returns the addresses from `a` on. -/
def enqueues (a n : ℕ) : List (StequeCall ℕ Unit) :=
  (List.range' a n).map fun node => .enqueue node ()

/-- On the list the items are added. -/
theorem run_enqueues (a n : ℕ) (xs : Steque Unit) (vs : List (Returned Unit)) :
  ∃ vs', run Steque.step (enqueues a n) (xs, vs) = some (xs ++ List.replicate n (), vs')
  := by
  induction n generalizing a xs vs with
  | zero =>
      refine ⟨vs, ?_⟩
      rw [List.replicate_zero, List.append_nil]
      rfl
  | succ n ih =>
      obtain ⟨vs', hrun⟩ := ih (a + 1) (xs.enqueue ()) (vs ++ [.void])
      refine ⟨vs', run_cons.mpr ⟨_, rfl, ?_⟩⟩
      rw [enqueues] at hrun
      rw [hrun, Steque.enqueue, List.append_assoc, List.replicate_succ]
      rfl

/-- `steque_enqueue` takes no other free address. -/
theorem StequeT.nodes_enqueue {this this' : StequeT ι α} {a b : ι} {x : α}
    (h : this.enqueue a x = some this') (hb : this.nodes b = none) (hab : b ≠ a) :
  this'.nodes b = none
  := by
  rw [StequeT.enqueue] at h
  cases hback : this.back with
  | none =>
      simp only [hback] at h
      cases h
      dsimp only
      rw [Function.update_of_ne hab]
      exact hb
  | some c =>
      simp only [hback] at h
      obtain ⟨last, hlast, rfl⟩ := Option.map_eq_some_iff.mp h
      by_cases hbc : b = c
      · subst hbc
        rw [Function.update_of_ne hab, hb] at hlast
        cases hlast
      · dsimp only
        rw [Function.update_of_ne hbc, Function.update_of_ne hab]
        exact hb

/-- On the nodes they are added as well. -/
theorem Tracks.enqueues {this : StequeT ℕ Unit} {xs : Steque Unit} (h : Tracks this xs) (a n : ℕ)
    (hfree : ∀ b, a ≤ b → this.nodes b = none) (vs : List (Returned Unit)) :
  Along StequeT.step Mallocs (enqueues a n) (this, vs) ∧
    ∀ this' vs', run StequeT.step (enqueues a n) (this, vs) = some (this', vs') →
      Tracks this' (xs ++ List.replicate n ())
  := by
  induction n generalizing this xs a vs with
  | zero =>
      refine ⟨trivial, ?_⟩
      rintro this' vs' ⟨⟩
      rw [List.replicate_zero, List.append_nil]
      exact h
  | succ n ih =>
      obtain ⟨this₁, henqueue, htracks⟩ := h.enqueue (hfree a le_rfl) ()
      have hstep : StequeT.step (.enqueue a ()) (this, vs) = some (this₁, vs ++ [.void]) := by
        rw [StequeT.step, StequeT.call, henqueue]
        rfl
      have hfree₁ : ∀ b, a + 1 ≤ b → this₁.nodes b = none := by
        intro b hb
        exact StequeT.nodes_enqueue henqueue (hfree b (by omega)) (by omega)
      obtain ⟨halong, hrun⟩ := ih htracks (a + 1) hfree₁ (vs ++ [.void])
      constructor
      · refine ⟨hfree a le_rfl, ?_⟩
        intro s' hs'
        rw [hstep, Option.some.injEq] at hs'
        rw [← hs']
        exact halong
      · intro this' vs' h'
        obtain ⟨s', hs', hrest⟩ := run_cons.mp h'
        rw [hstep, Option.some.injEq] at hs'
        subst hs'
        have htracks' := hrun this' vs' hrest
        rw [List.append_assoc] at htracks'
        exact htracks'

/-- After `2 ^ 31` items have been added, the counter is not their number. -/
theorem not_steque_refines :
  ∃ (cs : List (StequeCall ℕ Unit)) (xs : Steque Unit) (vs : List (Returned Unit)),
    run Steque.step cs ([], []) = some (xs, vs) ∧
    Along StequeT.step Mallocs cs ((noNodes : StequeT ℕ Unit).init, []) ∧
    ¬ ∃ this', run StequeT.step cs ((noNodes : StequeT ℕ Unit).init, []) = some (this', vs) ∧
      Represents this' xs
  := by
  obtain ⟨vs, hrun⟩ := run_enqueues 0 (2 ^ 31) [] []
  obtain ⟨halong, htracks⟩ := (Tracks.init (noNodes : StequeT ℕ Unit)).enqueues 0 (2 ^ 31)
    (fun _ _ => rfl) []
  refine ⟨enqueues 0 (2 ^ 31), _, vs, hrun, halong, ?_⟩
  rintro ⟨this', hrun', hrepresents⟩
  obtain ⟨cells, -, hitems, hN⟩ := hrepresents.linked
  obtain ⟨-, -, -, hcount⟩ := htracks this' vs hrun'
  have hlength := congrArg List.length hitems
  rw [length_items, List.nil_append, List.length_replicate] at hlength
  rw [List.nil_append, List.length_replicate, hN, hlength, eq_comm, asInt_eq_iff] at hcount
  omega

end GetFile
