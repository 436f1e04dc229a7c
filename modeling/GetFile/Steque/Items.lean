import Mathlib.Data.Nat.Notation
import Mathlib.Tactic.Common

/-!
# Steque: the items from front to back

The operations of `steque.c` on the list of the items that the links lead through from
`front` to `back`.
-/

namespace GetFile

/-- The items of a `steque_t` from front to back. -/
abbrev Steque (α : Type*) := List α

namespace Steque

variable {α : Type*}

/-- `steque_init`. -/
def init : Steque α :=
  []

/-- `steque_isempty`. -/
def isempty (this : Steque α) : Bool :=
  this.length == 0

/-- `steque_enqueue`. -/
def enqueue (this : Steque α) (item : α) : Steque α :=
  this ++ [item]

/-- `steque_push`. -/
def push (this : Steque α) (item : α) : Steque α :=
  item :: this

/-- `steque_pop`, which ends the process on an empty steque. -/
def pop : Steque α → Option (α × Steque α)
  | [] => none
  | item :: this => some (item, this)

/-- `steque_size`. -/
def size (this : Steque α) : ℕ :=
  this.length

/-- `steque_front`, which ends the process on an empty steque. -/
def front : Steque α → Option α
  | [] => none
  | item :: _ => some item

/-- `steque_cycle`. -/
def cycle : Steque α → Steque α
  | [] => []
  | item :: this => this ++ [item]

theorem isempty_iff (this : Steque α) :
  this.isempty = true ↔ this = []
  := by
  simp [isempty]

theorem isempty_eq_false (this : Steque α) :
  this.isempty = false ↔ this ≠ []
  := by
  simp [isempty]

/-- What `steque_pop` does not end the process on is its item in front of the rest. -/
theorem pop_eq_some {this rest : Steque α} {item : α} (h : this.pop = some (item, rest)) :
  this = item :: rest
  := by
  cases this with
  | nil => simp [pop] at h
  | cons i r =>
      simp only [pop, Option.some.injEq, Prod.mk.injEq] at h
      rw [h.1, h.2]

/-- `steque_pop` ends the process exactly on an empty steque. -/
theorem pop_eq_none {this : Steque α} :
  this.pop = none ↔ this = []
  := by
  cases this with
  | nil => simp [pop]
  | cons i r => simp [pop]

end Steque

end GetFile
