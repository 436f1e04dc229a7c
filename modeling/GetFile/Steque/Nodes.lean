import GetFile.CString.Int
import GetFile.Heap.Linked
import GetFile.Steque.Items
import GetFile.Transition.Run

/-!
# Steque: the pointers and the nodes

The operations of `steque.c` as they are written: on the pointers `front` and `back`, the counter
`N`, which is an `int`, and the nodes in memory. They do on the list of the items what the
operations of `Steque` do (`steque_refines`), as long as the counter can hold the number of the
items.
-/

namespace GetFile

open CString Heap Transition

/-- A `steque_t`, and the nodes in memory. -/
structure StequeT (ι α : Type*) where
  front : Option ι
  back : Option ι
  N : ℤ
  nodes : Nodes ι α

namespace StequeT

variable {ι α : Type*} [DecidableEq ι]

/-- `steque_init`. -/
def init (this : StequeT ι α) : StequeT ι α :=
  { this with front := none, back := none, N := 0 }

/-- `steque_enqueue`, where `malloc` returns the address `node`. There is no result when a pointer
leads to no node. -/
def enqueue (this : StequeT ι α) (node : ι) (item : α) : Option (StequeT ι α) :=
  let nodes := Function.update this.nodes node (some ⟨item, none⟩)
  match this.back with
  | none => some { front := some node, back := some node, N := asInt (this.N + 1), nodes }
  | some back =>
    (nodes back).map fun last =>
      { front := this.front
        back := some node
        N := asInt (this.N + 1)
        nodes := Function.update nodes back (some { last with next := some node }) }

/-- `steque_push`, where `malloc` returns the address `node`. -/
def push (this : StequeT ι α) (node : ι) (item : α) : StequeT ι α where
  front := some node
  back := if this.back = none then some node else this.back
  N := asInt (this.N + 1)
  nodes := Function.update this.nodes node (some ⟨item, this.front⟩)

/-- `steque_size`. -/
def size (this : StequeT ι α) : ℤ :=
  this.N

/-- `steque_isempty`. -/
def isempty (this : StequeT ι α) : Bool :=
  this.N == 0

/-- `steque_pop`, which ends the process when `front` is null. -/
def pop (this : StequeT ι α) : Option (α × StequeT ι α) :=
  this.front.bind fun node =>
    (this.nodes node).map fun first =>
      (first.item,
        { front := first.next
          back := if first.next = none then none else this.back
          N := asInt (this.N - 1)
          nodes := Function.update this.nodes node none })

/-- `steque_cycle`. -/
def cycle (this : StequeT ι α) : Option (StequeT ι α) :=
  match this.back with
  | none => some this
  | some back =>
    (this.nodes back).bind fun last =>
      let nodes := Function.update this.nodes back (some { last with next := this.front })
      this.front.bind fun front =>
        (nodes front).map fun first =>
          { front := first.next
            back := some front
            N := this.N
            nodes := Function.update nodes front (some { first with next := none }) }

/-- `steque_front`, which ends the process when `front` is null. -/
def frontItem (this : StequeT ι α) : Option α :=
  this.front.bind fun node => (this.nodes node).map Node.item

/-- `steque_destroy` within the given number of rounds. -/
def destroy : ℕ → StequeT ι α → Option (StequeT ι α)
  | 0, this => if this.isempty then some this else none
  | rounds + 1, this =>
    if this.isempty then some this
    else this.pop.bind fun x => destroy rounds x.2

end StequeT

/-! ### Sequences of operations -/

/-- A call of one of the operations. Those that call `malloc` come with the address it returns. -/
inductive StequeCall (ι α : Type*) where
  | init
  | enqueue (node : ι) (item : α)
  | push (node : ι) (item : α)
  | pop
  | cycle
  | front
  | size
  | isempty

/-- What a call returns. -/
inductive Returned (α : Type*) where
  | void
  | item (x : α)
  | int (z : ℤ)

variable {ι α : Type*}

/-- A call on the list of the items. -/
def Steque.call (c : StequeCall ι α) (this : Steque α) : Option (Returned α × Steque α) :=
  match c with
  | .init => some (.void, Steque.init)
  | .enqueue _ item => some (.void, this.enqueue item)
  | .push _ item => some (.void, this.push item)
  | .pop => this.pop.map fun x => (.item x.1, x.2)
  | .cycle => some (.void, this.cycle)
  | .front => this.front.map fun x => (.item x, this)
  | .size => some (.int this.size, this)
  | .isempty => some (.int (if this.isempty then 1 else 0), this)

/-- A step of a sequence of calls on a list, with what they have returned. -/
def Steque.step (c : StequeCall ι α) (s : Steque α × List (Returned α)) :
    Option (Steque α × List (Returned α)) :=
  (s.1.call c).map fun x => (x.2, s.2 ++ [x.1])

section

variable [DecidableEq ι]

/-- A call on the pointers and the nodes. -/
def StequeT.call (c : StequeCall ι α) (this : StequeT ι α) :
    Option (Returned α × StequeT ι α) :=
  match c with
  | .init => some (.void, this.init)
  | .enqueue node item => (this.enqueue node item).map fun this => (.void, this)
  | .push node item => some (.void, this.push node item)
  | .pop => this.pop.map fun x => (.item x.1, x.2)
  | .cycle => this.cycle.map fun this => (.void, this)
  | .front => this.frontItem.map fun x => (.item x, this)
  | .size => some (.int this.size, this)
  | .isempty => some (.int (if this.isempty then 1 else 0), this)

/-- A step of a sequence of calls on the pointers and the nodes, with what they have returned. -/
def StequeT.step (c : StequeCall ι α) (s : StequeT ι α × List (Returned α)) :
    Option (StequeT ι α × List (Returned α)) :=
  (s.1.call c).map fun x => (x.2, s.2 ++ [x.1])

/-- `malloc` returns an address at which there is nothing. -/
def Mallocs (c : StequeCall ι α) (s : StequeT ι α × List (Returned α)) : Prop :=
  match c with
  | .enqueue node _ | .push node _ => s.1.nodes node = none
  | _ => True

end

/-- An element is added only while there are fewer than `INT_MAX`. -/
def HasRoom (c : StequeCall ι α) (s : Steque α × List (Returned α)) : Prop :=
  match c with
  | .enqueue _ _ | .push _ _ => s.1.size < 2 ^ 31 - 1
  | _ => True

/-! ### The items that the links lead through -/

/-- The links lead through nodes with these items, and the counter has been moved along. -/
def Tracks (this : StequeT ι α) (xs : Steque α) : Prop :=
  ∃ cells, Linked this.nodes this.front this.back cells ∧ items cells = xs ∧
    this.N = asInt xs.length

variable {this : StequeT ι α} {xs : Steque α}

theorem Tracks.init (this : StequeT ι α) :
  Tracks this.init []
  := ⟨[], linked_nil, rfl, (asInt_eq (z := 0) (by decide) (by decide)).symm⟩

/-- The front pointer is null exactly when there are no items. -/
theorem Tracks.front_eq_none (h : Tracks this xs) :
  this.front = none ↔ xs = []
  := by
  obtain ⟨cells, hlinked, rfl, -⟩ := h
  rw [hlinked.front_eq_none, items, List.map_eq_nil_iff]

/-- So is the back pointer. -/
theorem Tracks.back_eq_none (h : Tracks this xs) :
  this.back = none ↔ xs = []
  := by
  obtain ⟨cells, hlinked, rfl, -⟩ := h
  rw [hlinked.back_eq_none, items, List.map_eq_nil_iff]

/-- With at most `INT_MAX` items the counter is their number. -/
theorem Tracks.size_eq (h : Tracks this xs) (hlen : xs.length < 2 ^ 31) :
  this.N = xs.length
  := by
  obtain ⟨-, -, -, hN⟩ := h
  rw [hN, asInt_eq (by omega) (by omega)]

/-- `steque_isempty` tells whether there are items, as long as there are at most `INT_MAX`. -/
theorem Tracks.isempty_eq (h : Tracks this xs) (hlen : xs.length < 2 ^ 31) :
  this.isempty = xs.isempty
  := by
  rw [StequeT.isempty, h.size_eq hlen, Steque.isempty]
  cases xs with
  | nil => rfl
  | cons x xs =>
      simp only [List.length_cons]
      rw [beq_eq_false_iff_ne.mpr (by omega), beq_eq_false_iff_ne.mpr (by omega)]

/-- The counter moved up. -/
theorem Tracks.succ (h : Tracks this xs) :
  asInt (this.N + 1) = asInt (xs.length + 1 : ℕ)
  := by
  obtain ⟨-, -, -, hN⟩ := h
  rw [hN, asInt_add, Nat.cast_succ]

/-- The counter moved down. -/
theorem Tracks.pred {x : α} (h : Tracks this (x :: xs)) :
  asInt (this.N - 1) = asInt xs.length
  := by
  obtain ⟨-, -, -, hN⟩ := h
  rw [hN, asInt_sub, List.length_cons, Nat.cast_succ, add_sub_cancel_right]

/-- `steque_front` returns the first item. -/
theorem Tracks.frontItem {x : α} (h : Tracks this (x :: xs)) :
  this.frontItem = some x
  := by
  obtain ⟨cells, hlinked, hitems, -⟩ := h
  cases cells with
  | nil => cases hitems
  | cons c cells =>
      obtain ⟨a, y⟩ := c
      rw [items_cons, List.cons.injEq] at hitems
      obtain ⟨rfl, -⟩ := hitems
      obtain ⟨hfront, r, node, -⟩ := chain_cons.mp hlinked.chain
      rw [StequeT.frontItem, hfront, Option.bind_some, node]
      rfl

section

variable [DecidableEq ι]

/-- `steque_push` adds an item in front. -/
theorem Tracks.push {a : ι} (h : Tracks this xs) (ha : this.nodes a = none) (x : α) :
  Tracks (this.push a x) (x :: xs)
  := by
  have hcount := h.succ
  obtain ⟨cells, hlinked, rfl, -⟩ := h
  exact ⟨(a, x) :: cells, hlinked.push ha, rfl, hcount⟩

/-- `steque_enqueue` adds an item behind the others. -/
theorem Tracks.enqueue {a : ι} (h : Tracks this xs) (ha : this.nodes a = none) (x : α) :
  ∃ this', this.enqueue a x = some this' ∧ Tracks this' (xs ++ [x])
  := by
  have hcount : asInt (this.N + 1) = asInt (xs ++ [x]).length := by
    rw [h.succ, List.length_append, List.length_singleton]
  obtain ⟨cells, hlinked, rfl, -⟩ := h
  rw [StequeT.enqueue]
  cases hback : this.back with
  | none =>
      rw [hlinked.back_eq_none.mp hback] at hcount ⊢
      exact ⟨_, rfl, [(a, x)], linked_singleton _ _ _, rfl, hcount⟩
  | some b =>
      rw [hback] at hlinked
      obtain ⟨init, y, hcells, -, hlast, -⟩ := hlinked.last
      have hab : b ≠ a := by
        rintro rfl
        rw [ha] at hlast
        cases hlast
      dsimp only
      rw [Function.update_of_ne hab, hlast, Option.map_some]
      exact ⟨_, rfl, cells ++ [(a, x)], hlinked.enqueue ha hlast, items_append, hcount⟩

/-- `steque_pop` takes the first item off. -/
theorem Tracks.pop {x : α} (h : Tracks this (x :: xs)) :
  ∃ this', this.pop = some (x, this') ∧ Tracks this' xs
  := by
  have hcount := h.pred
  obtain ⟨cells, hlinked, hitems, -⟩ := h
  cases cells with
  | nil => cases hitems
  | cons c cells =>
      obtain ⟨a, y⟩ := c
      rw [items_cons, List.cons.injEq] at hitems
      obtain ⟨rfl, rfl⟩ := hitems
      obtain ⟨hfront, -⟩ := chain_cons.mp hlinked.chain
      rw [hfront] at hlinked
      obtain ⟨next, node, hrest⟩ := hlinked.pop
      rw [StequeT.pop, hfront, Option.bind_some, node, Option.map_some]
      exact ⟨_, rfl, cells, hrest, rfl, hcount⟩

/-- `steque_cycle` moves the first item behind the others. -/
theorem Tracks.cycle (h : Tracks this xs) :
  ∃ this', this.cycle = some this' ∧ Tracks this' xs.cycle
  := by
  cases xs with
  | nil =>
      refine ⟨this, ?_, h⟩
      rw [StequeT.cycle, h.back_eq_none.mpr rfl]
  | cons x xs =>
      obtain ⟨cells, hlinked, hitems, hN⟩ := h
      cases cells with
      | nil => cases hitems
      | cons c cells =>
          obtain ⟨a, y⟩ := c
          rw [items_cons, List.cons.injEq] at hitems
          obtain ⟨rfl, rfl⟩ := hitems
          have hcount : this.N = asInt (Steque.cycle (y :: items cells)).length := by
            rw [hN, Steque.cycle, List.length_append, List.length_cons, List.length_singleton]
          obtain ⟨hfront, next, node, -⟩ := chain_cons.mp hlinked.chain
          rw [StequeT.cycle, hfront]
          cases hback : this.back with
          | none =>
              rw [hlinked.back_eq_none] at hback
              cases hback
          | some b =>
              dsimp only
              rw [hfront, hback] at hlinked
              by_cases hab : a = b
              · subst hab
                obtain ⟨x, hcells, hlast, hsingle⟩ := hlinked.cycle_single (some a)
                cases hcells
                rw [hlast, Option.bind_some, Option.bind_some, Function.update_self,
                  Option.map_some]
                exact ⟨_, rfl, [(a, y)], hsingle, rfl, hcount⟩
              · obtain ⟨init, z, -, -, hlast, -⟩ := hlinked.last
                rw [hlast, Option.bind_some, Option.bind_some, Function.update_of_ne hab, node,
                  Option.map_some]
                exact ⟨_, rfl, cells ++ [(a, y)], hlinked.cycle hab hlast node, items_append,
                  hcount⟩

end

end GetFile
