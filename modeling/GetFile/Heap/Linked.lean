import Mathlib.Data.List.Nodup
import Mathlib.Logic.Function.Basic
import Mathlib.Tactic.Common

/-!
# Linked lists in memory

The nodes in memory are a partial function from addresses. `Chain` says where the links lead, and
`Linked` that they lead from a front pointer through the nodes of a list to a back pointer. The
changes of memory by which an element is added at either end, taken off the front or moved from the
front to the back keep this (`Linked.enqueue`, `Linked.push`, `Linked.pop`, `Linked.cycle`).
-/

namespace Heap

/-- A node: an item, and the address of the next node if there is one. -/
structure Node (ι α : Type*) where
  item : α
  next : Option ι
  deriving DecidableEq

/-- The nodes in memory. -/
abbrev Nodes (ι α : Type*) :=
  ι → Option (Node ι α)

variable {ι α : Type*}

/-- The links lead from `p` through the nodes at these addresses, with these items, to `q`. -/
inductive Chain (m : Nodes ι α) : Option ι → List (ι × α) → Option ι → Prop where
  | nil (p : Option ι) : Chain m p [] p
  | cons {a : ι} {x : α} {p q : Option ι} {cells : List (ι × α)} (node : m a = some ⟨x, p⟩)
      (rest : Chain m p cells q) : Chain m (some a) ((a, x) :: cells) q

/-- The addresses of the nodes. -/
def addresses (cells : List (ι × α)) : List ι :=
  cells.map Prod.fst

/-- The items in the nodes. -/
def items (cells : List (ι × α)) : List α :=
  cells.map Prod.snd

variable {m m' : Nodes ι α} {p q r : Option ι} {cells cells' : List (ι × α)} {a : ι} {x : α}

@[simp]
theorem addresses_nil :
  addresses ([] : List (ι × α)) = []
  := rfl

@[simp]
theorem addresses_cons :
  addresses ((a, x) :: cells) = a :: addresses cells
  := rfl

@[simp]
theorem addresses_append :
  addresses (cells ++ cells') = addresses cells ++ addresses cells'
  := List.map_append

@[simp]
theorem items_cons :
  items ((a, x) :: cells) = x :: items cells
  := rfl

@[simp]
theorem items_append :
  items (cells ++ cells') = items cells ++ items cells'
  := List.map_append

@[simp]
theorem length_items :
  (items cells).length = cells.length
  := List.length_map _

/-! ### Chains -/

@[simp]
theorem chain_nil :
  Chain m p [] q ↔ p = q
  := by
  constructor
  · rintro ⟨⟩
    rfl
  · rintro rfl
    apply Chain.nil

theorem chain_cons :
  Chain m p ((a, x) :: cells) q ↔ p = some a ∧ ∃ r, m a = some ⟨x, r⟩ ∧ Chain m r cells q
  := by
  constructor
  · intro h
    cases h with
    | cons node rest => exact ⟨rfl, _, node, rest⟩
  · rintro ⟨rfl, r, node, rest⟩
    apply Chain.cons node rest

theorem chain_append :
  Chain m p (cells ++ cells') q ↔ ∃ r, Chain m p cells r ∧ Chain m r cells' q
  := by
  induction cells generalizing p with
  | nil => simp
  | cons c cells ih =>
      obtain ⟨a, x⟩ := c
      rw [List.cons_append, chain_cons]
      constructor
      · rintro ⟨rfl, r, node, h⟩
        obtain ⟨s, hfirst, hsecond⟩ := ih.mp h
        exact ⟨s, Chain.cons node hfirst, hsecond⟩
      · rintro ⟨s, hfirst, hsecond⟩
        obtain ⟨rfl, r, node, hrest⟩ := chain_cons.mp hfirst
        exact ⟨rfl, r, node, ih.mpr ⟨s, hrest, hsecond⟩⟩

/-- A chain up to a last node. -/
theorem chain_concat :
  Chain m p (cells ++ [(a, x)]) q ↔ Chain m p cells (some a) ∧ m a = some ⟨x, q⟩
  := by
  rw [chain_append]
  constructor
  · rintro ⟨r, hchain, hlast⟩
    obtain ⟨rfl, s, node, hend⟩ := chain_cons.mp hlast
    rw [chain_nil] at hend
    subst hend
    exact ⟨hchain, node⟩
  · rintro ⟨hchain, node⟩
    exact ⟨some a, hchain, Chain.cons node (Chain.nil q)⟩

/-- The nodes of a chain are in memory. -/
theorem Chain.isSome (h : Chain m p cells q) (ha : a ∈ addresses cells) :
  (m a).isSome = true
  := by
  induction h with
  | nil => cases ha
  | cons node rest ih =>
      rw [addresses_cons, List.mem_cons] at ha
      obtain rfl | ha := ha
      · rw [node]
        rfl
      · apply ih ha

/-- A chain depends on its own nodes only. -/
theorem Chain.congr (h : Chain m p cells q) (heq : ∀ a ∈ addresses cells, m' a = m a) :
  Chain m' p cells q
  := by
  induction h with
  | nil => apply Chain.nil
  | @cons a x p q cells node rest ih =>
      apply Chain.cons
      · rw [heq a List.mem_cons_self]
        apply node
      · apply ih
        intro b hb
        apply heq b (List.mem_cons_of_mem _ hb)

/-! ### Front and back -/

/-- The links lead from `front` through distinct nodes, the last of which is at `back` and has no
next one. -/
structure Linked (m : Nodes ι α) (front back : Option ι) (cells : List (ι × α)) : Prop where
  chain : Chain m front cells none
  nodup : (addresses cells).Nodup
  back_eq : back = (addresses cells).getLast?

variable {front back : Option ι}

/-- There is no first node exactly when there is none at all. -/
theorem Linked.front_eq_none (h : Linked m front back cells) :
  front = none ↔ cells = []
  := by
  cases cells with
  | nil => simpa using chain_nil.mp h.chain
  | cons c cells =>
      obtain ⟨rfl, -⟩ := chain_cons.mp h.chain
      simp

/-- There is no last node exactly when there is none at all. -/
theorem Linked.back_eq_none (h : Linked m front back cells) :
  back = none ↔ cells = []
  := by
  rw [h.back_eq, List.getLast?_eq_none_iff, addresses, List.map_eq_nil_iff]

/-- Without nodes both pointers are null. -/
theorem linked_nil :
  Linked m none none ([] : List (ι × α))
  := ⟨Chain.nil none, List.nodup_nil, rfl⟩

/-- The last node is at the back, and no node is next to it. -/
theorem Linked.last (h : Linked m front (some a) cells) :
  ∃ init x, cells = init ++ [(a, x)] ∧ Chain m front init (some a) ∧ m a = some ⟨x, none⟩ ∧
    a ∉ addresses init
  := by
  rcases List.eq_nil_or_concat cells with rfl | ⟨init, ⟨b, x⟩, rfl⟩
  · have hnone := h.back_eq
    cases hnone
  · rw [List.concat_eq_append] at h ⊢
    have hback := h.back_eq
    rw [addresses_append, addresses_cons, addresses_nil, List.getLast?_concat,
      Option.some.injEq] at hback
    subst hback
    obtain ⟨hchain, hlast⟩ := chain_concat.mp h.chain
    have hnodup := h.nodup
    rw [addresses_append, addresses_cons, addresses_nil, List.nodup_append] at hnodup
    refine ⟨init, x, rfl, hchain, hlast, ?_⟩
    intro hmem
    exact hnodup.2.2 a hmem a (List.mem_singleton_self a) rfl

/-- The node at an address that is free is none of the list. -/
theorem Linked.not_mem (h : Linked m front back cells) (ha : m a = none) :
  a ∉ addresses cells
  := by
  intro hmem
  have hsome := h.chain.isSome hmem
  rw [ha] at hsome
  cases hsome

/-! ### Changes of memory -/

section

variable [DecidableEq ι]

/-- A change at an address outside leaves a chain as it is. -/
theorem Chain.update {n : Option (Node ι α)} (h : Chain m p cells q) (ha : a ∉ addresses cells) :
  Chain (Function.update m a n) p cells q
  := by
  apply h.congr
  intro b hb
  apply Function.update_of_ne
  rintro rfl
  apply ha hb

/-- A new node in front. -/
theorem Linked.push (h : Linked m front back cells) (ha : m a = none) :
  Linked (Function.update m a (some ⟨x, front⟩)) (some a)
    (if back = none then some a else back) ((a, x) :: cells)
  := by
  have hmem := h.not_mem ha
  constructor
  · apply Chain.cons (Function.update_self _ _ _)
    apply h.chain.update hmem
  · rw [addresses_cons, List.nodup_cons]
    exact ⟨hmem, h.nodup⟩
  · by_cases hback : back = none
    · rw [if_pos hback, h.back_eq_none.mp hback]
      rfl
    · have hne : addresses cells ≠ [] := by
        intro hnil
        apply hback
        rw [h.back_eq, hnil]
        rfl
      rw [if_neg hback, h.back_eq, addresses_cons, List.getLast?_cons_of_ne_nil hne]

/-- A new node behind the last one, which is linked to it. -/
theorem Linked.enqueue {b : ι} {y : α} (h : Linked m front (some b) cells) (ha : m a = none)
    (hb : m b = some ⟨y, none⟩) :
  Linked (Function.update (Function.update m a (some ⟨x, none⟩)) b (some ⟨y, some a⟩)) front
    (some a) (cells ++ [(a, x)])
  := by
  have hmem := h.not_mem ha
  obtain ⟨init, z, rfl, hchain, hlast, hinit⟩ := h.last
  rw [hb] at hlast
  cases hlast
  rw [addresses_append, addresses_cons, addresses_nil, List.mem_append, List.mem_singleton,
    not_or] at hmem
  obtain ⟨hmem, hne⟩ := hmem
  constructor
  · rw [chain_concat, chain_concat]
    refine ⟨⟨(hchain.update hmem).update hinit, Function.update_self _ _ _⟩, ?_⟩
    rw [Function.update_of_ne hne, Function.update_self]
  · rw [addresses_append, List.nodup_append]
    refine ⟨h.nodup, List.nodup_singleton a, ?_⟩
    intro c hc d hd
    rw [addresses_cons, addresses_nil, List.mem_singleton] at hd
    rw [hd]
    rintro rfl
    rw [addresses_append, List.mem_append, addresses_cons, addresses_nil, List.mem_singleton] at hc
    obtain hc | hc := hc
    · exact hmem hc
    · exact hne hc
  · rw [addresses_append, addresses_cons, addresses_nil, List.getLast?_concat]

/-- A new node where there was none. -/
theorem linked_singleton (m : Nodes ι α) (a : ι) (x : α) :
  Linked (Function.update m a (some ⟨x, none⟩)) (some a) (some a) [(a, x)]
  := by
  constructor
  · exact Chain.cons (Function.update_self _ _ _) (Chain.nil none)
  · exact List.nodup_singleton a
  · rfl

/-- The first node is taken off and freed. -/
theorem Linked.pop (h : Linked m (some a) back ((a, x) :: cells)) :
  ∃ next, m a = some ⟨x, next⟩ ∧
    Linked (Function.update m a none) next (if next = none then none else back) cells
  := by
  obtain ⟨-, next, node, hrest⟩ := chain_cons.mp h.chain
  have hnodup := h.nodup
  rw [addresses_cons, List.nodup_cons] at hnodup
  refine ⟨next, node, hrest.update hnodup.1, hnodup.2, ?_⟩
  cases cells with
  | nil =>
      rw [chain_nil] at hrest
      rw [if_pos hrest]
      rfl
  | cons c cells =>
      obtain ⟨hsome, -⟩ := chain_cons.mp hrest
      rw [if_neg (by rw [hsome]; exact Option.some_ne_none _), h.back_eq, addresses_cons,
        List.getLast?_cons_of_ne_nil (by simp [addresses])]

/-- The first node is moved behind the last one, which is another: the last one is linked to it
first, and then its own link is cut. -/
theorem Linked.cycle {b : ι} {y : α} {next : Option ι}
    (h : Linked m (some a) (some b) ((a, x) :: cells)) (hab : a ≠ b) (hb : m b = some ⟨y, none⟩)
    (ha : m a = some ⟨x, next⟩) :
  Linked (Function.update (Function.update m b (some ⟨y, some a⟩)) a (some ⟨x, none⟩)) next
    (some a) (cells ++ [(a, x)])
  := by
  obtain ⟨-, next', node, hrest⟩ := chain_cons.mp h.chain
  rw [ha] at node
  cases node
  obtain ⟨hmem, hnodup⟩ := List.nodup_cons.mp h.nodup
  have hback : some b = (addresses cells).getLast? := by
    have hback := h.back_eq
    rw [addresses_cons] at hback
    cases cells with
    | nil =>
        cases hback
        exact absurd rfl hab
    | cons c cells => rwa [List.getLast?_cons_of_ne_nil (by simp [addresses])] at hback
  have htail : Linked m next (some b) cells := ⟨hrest, hnodup, hback⟩
  obtain ⟨init, z, rfl, hchain, hlast, hinit⟩ := htail.last
  rw [hb] at hlast
  cases hlast
  have ha' : a ∉ addresses init := by
    intro hin
    apply hmem
    change a ∈ addresses (init ++ [(b, y)])
    rw [addresses_append]
    exact List.mem_append_left _ hin
  constructor
  · rw [chain_concat, chain_concat]
    refine ⟨⟨(hchain.update hinit).update ha', ?_⟩, Function.update_self _ _ _⟩
    rw [Function.update_of_ne hab.symm, Function.update_self]
  · rw [addresses_append, List.nodup_append]
    refine ⟨hnodup, List.nodup_singleton a, ?_⟩
    intro c hc d hd
    rw [addresses_cons, addresses_nil, List.mem_singleton] at hd
    rw [hd]
    rintro rfl
    exact hmem hc
  · rw [addresses_append, addresses_cons, addresses_nil, List.getLast?_concat]

/-- A single node stays where it is, when it is linked to itself and then cut off. -/
theorem Linked.cycle_single (h : Linked m (some a) (some a) cells) (next : Option ι) :
  ∃ x, cells = [(a, x)] ∧ m a = some ⟨x, none⟩ ∧
    Linked (Function.update (Function.update m a (some ⟨x, next⟩)) a (some ⟨x, none⟩)) (some a)
      (some a) cells
  := by
  obtain ⟨init, x, rfl, hchain, hlast, hinit⟩ := h.last
  cases init with
  | nil =>
      refine ⟨x, rfl, hlast, ?_⟩
      apply linked_singleton
  | cons c init =>
      obtain ⟨b, y⟩ := c
      obtain ⟨heq, -⟩ := chain_cons.mp hchain
      cases heq
      exact absurd List.mem_cons_self hinit

end

end Heap
