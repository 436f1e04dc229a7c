import Mathlib.Algebra.Order.Ring.Int
import Mathlib.Data.Nat.Notation
import Mathlib.Tactic.Common

/-!
# The type `int`

`asInt` is the conversion to a 32-bit `int`, which is also how its arithmetic wraps around.
-/

namespace CString

/-- A number as an `int` holds it. -/
def asInt (z : ℤ) : ℤ :=
  z.bmod (2 ^ 32)

/-- The numbers of the type are held as they are. -/
theorem asInt_eq {z : ℤ} (hlow : -2 ^ 31 ≤ z) (hhigh : z < 2 ^ 31) :
  asInt z = z
  := by
  rw [asInt]
  apply Int.bmod_eq_of_le
  · omega
  · omega

/-- What an `int` holds is a number of the type. -/
theorem asInt_range (z : ℤ) :
  -2 ^ 31 ≤ asInt z ∧ asInt z < 2 ^ 31
  := by
  have hlow : -((2 ^ 32 : ℕ) : ℤ) / 2 ≤ asInt z := Int.le_bmod (by decide)
  have hhigh : asInt z < ((2 ^ 32 : ℕ) + 1 : ℤ) / 2 := Int.bmod_lt (by decide)
  omega

/-- A number is held as it is exactly when it is one of the type. -/
theorem asInt_eq_iff {z : ℤ} :
  asInt z = z ↔ -2 ^ 31 ≤ z ∧ z < 2 ^ 31
  := by
  constructor
  · intro h
    rw [← h]
    apply asInt_range
  · rintro ⟨hlow, hhigh⟩
    apply asInt_eq hlow hhigh

/-- Adding wraps around once. -/
theorem asInt_add (y z : ℤ) :
  asInt (asInt y + z) = asInt (y + z)
  := Int.bmod_add_bmod

/-- So does subtracting. -/
theorem asInt_sub (y z : ℤ) :
  asInt (asInt y - z) = asInt (y - z)
  := Int.bmod_sub_bmod

end CString
