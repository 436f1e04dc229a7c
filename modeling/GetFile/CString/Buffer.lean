import Mathlib.Algebra.Group.Nat.Defs
import Mathlib.Data.List.Basic
import Mathlib.Data.List.OfFn
import Mathlib.Tactic.Common

/-!
# Byte arrays and scans

A `Buffer size` is an array of `size` bytes followed in memory by zeros. `Buffer.store`
copies data into the array, `Buffer.slice` reads a range of it, and `scan` is the loop
`while (p(m[i])) i++` with a bound on its number of rounds, which `scan_eq` and `scan_spec`
characterize by the index at which it stops.
-/

namespace CString

/-- The bytes of a string literal, without the terminator. -/
def ascii (s : String) : List UInt8 :=
  s.toList.map fun c => c.toNat.toUInt8

/-- The space character. -/
def space : UInt8 := 32

/-- The carriage return character. -/
def cr : UInt8 := 13

/-- The line feed character. -/
def lf : UInt8 := 10

theorem space_ne_zero :
  space ≠ 0
  := by decide

theorem cr_ne_zero :
  cr ≠ 0
  := by decide

/-- The sum of two numbers in 32-bit `unsigned` arithmetic. -/
def unsignedAdd (a b : ℕ) : ℕ :=
  (a + b) % 2 ^ 32

/-- The difference of two numbers in 32-bit `unsigned` arithmetic. -/
def unsignedSub (a b : ℕ) : ℕ :=
  (a + 2 ^ 32 - b) % 2 ^ 32

/-! ### Scanning memory -/

/-- The first index from `i` on whose byte fails `p`, or `i + fuel` if the first `fuel`
bytes all satisfy `p`. -/
def scan (p : UInt8 → Bool) (m : ℕ → UInt8) : ℕ → ℕ → ℕ
  | 0, i => i
  | fuel + 1, i => if p (m i) then scan p m fuel (i + 1) else i

section

variable {p : UInt8 → Bool} {m : ℕ → UInt8}

/-- The index `j` is where a scan from `i` with `fuel` rounds stops: every byte before it
satisfies `p`, and it fails `p` unless the rounds are used up. -/
structure Stops (p : UInt8 → Bool) (m : ℕ → UInt8) (fuel i j : ℕ) : Prop where
  le : i ≤ j
  le_fuel : j ≤ i + fuel
  pass : ∀ k, i ≤ k → k < j → p (m k) = true
  fail : j < i + fuel → p (m j) = false

/-- A scan stops where `Stops` says. -/
theorem scan_spec (fuel i : ℕ) :
  Stops p m fuel i (scan p m fuel i)
  := by
  induction fuel generalizing i with
  | zero =>
      constructor
      · apply le_refl
      · apply le_refl
      · intro k hik hki
        simp only [scan] at hki
        omega
      · intro h
        simp only [scan] at h
        omega
  | succ fuel ih =>
      simp only [scan]
      split
      · rename_i hp
        obtain ⟨hle, hfuel, hpass, hfail⟩ := ih (i + 1)
        constructor
        · omega
        · omega
        · intro k hik hk
          by_cases h : k = i
          · rw [h]
            apply hp
          · apply hpass k (by omega) hk
        · intro h
          apply hfail (by omega)
      · rename_i hp
        constructor
        · apply le_refl
        · omega
        · intro k hik hki
          omega
        · intro _
          simpa using hp

/-- There is only one index at which a scan stops. -/
theorem Stops.unique {fuel i j j' : ℕ} (h : Stops p m fuel i j) (h' : Stops p m fuel i j') :
  j = j'
  := by
  by_contra hne
  rcases Nat.lt_or_gt_of_ne hne with hlt | hlt
  · have hpass := h'.pass j h.le hlt
    have hfail := h.fail (by have := h'.le_fuel; omega)
    simp [hpass] at hfail
  · have hpass := h.pass j' h'.le hlt
    have hfail := h'.fail (by have := h.le_fuel; omega)
    simp [hpass] at hfail

/-- A scan is the index at which it stops. -/
theorem scan_eq {fuel i j : ℕ} (h : Stops p m fuel i j) :
  scan p m fuel i = j
  := Stops.unique (scan_spec fuel i) h

end

/-! ### Buffers -/

/-- An array of `size` bytes, followed in memory by zeros. -/
structure Buffer (size : ℕ) where
  byte : ℕ → UInt8
  zero_of_le : ∀ i, size ≤ i → byte i = 0

namespace Buffer

variable {size : ℕ}

/-- The buffer as `memset` or `bzero` leaves it. -/
def zero (size : ℕ) : Buffer size :=
  ⟨fun _ => 0, fun _ _ => rfl⟩

/-- Copying `data` into the array from index `off` on. Bytes that would land outside the
array are dropped, so a caller first asks whether they fit. -/
def store (b : Buffer size) (off : ℕ) (data : List UInt8) : Buffer size where
  byte i := if off ≤ i ∧ i < off + data.length ∧ i < size then data.getD (i - off) 0 else b.byte i
  zero_of_le i h := by
    rw [if_neg (by omega)]
    apply b.zero_of_le i h

/-- Writing the terminator at index `i`. -/
def terminate (b : Buffer size) (i : ℕ) : Buffer size where
  byte j := if j = i then 0 else b.byte j
  zero_of_le j h := by
    split
    · rfl
    · apply b.zero_of_le j h

/-- The `len` bytes from index `i` on. -/
def slice (b : Buffer size) (i len : ℕ) : List UInt8 :=
  (List.range len).map fun j => b.byte (i + j)

/-- Whether `strncmp(&b[i], lit, strlen(lit))` is `0`. -/
def strncmp (b : Buffer size) : ℕ → List UInt8 → Bool
  | _, [] => true
  | i, c :: lit => b.byte i == c && b.strncmp (i + 1) lit

/-- Bytes that are not zero lie inside the array. -/
theorem lt_of_ne_zero {b : Buffer size} {i : ℕ} (h : b.byte i ≠ 0) :
  i < size
  := by
  by_contra hle
  apply h
  apply b.zero_of_le i (by omega)

@[simp]
theorem zero_byte (i : ℕ) :
  (zero size).byte i = 0
  := rfl

theorem store_byte_of_mem {b : Buffer size} {off : ℕ} {data : List UInt8} {i : ℕ}
    (hoff : off ≤ i) (hlen : i < off + data.length) (hsize : i < size) :
  (b.store off data).byte i = data.getD (i - off) 0
  := if_pos ⟨hoff, hlen, hsize⟩

theorem store_byte_of_not_mem {b : Buffer size} {off : ℕ} {data : List UInt8} {i : ℕ}
    (h : i < off ∨ off + data.length ≤ i) :
  (b.store off data).byte i = b.byte i
  := if_neg (by omega)

@[simp]
theorem terminate_byte_self (b : Buffer size) (i : ℕ) :
  (b.terminate i).byte i = 0
  := if_pos rfl

theorem terminate_byte_of_ne (b : Buffer size) {i j : ℕ} (h : j ≠ i) :
  (b.terminate i).byte j = b.byte j
  := if_neg h

@[simp]
theorem length_slice (b : Buffer size) (i len : ℕ) :
  (b.slice i len).length = len
  := by simp [slice]

theorem getElem_slice (b : Buffer size) {i len j : ℕ} (h : j < (b.slice i len).length) :
  (b.slice i len)[j] = b.byte (i + j)
  := by simp [slice]

/-- A slice is the list `l` when each of its bytes is the byte of `l` at that place. -/
theorem slice_eq {b : Buffer size} {i len : ℕ} {l : List UInt8} (hlen : l.length = len)
    (h : ∀ j (hj : j < l.length), b.byte (i + j) = l[j]) :
  b.slice i len = l
  := by
  apply List.ext_getElem
  · rw [length_slice, hlen]
  · intro j hj hj'
    rw [getElem_slice]
    apply h j hj'

/-- A slice is determined by the bytes in its range. -/
theorem slice_congr {size' : ℕ} {b : Buffer size} {b' : Buffer size'} {i len : ℕ}
    (h : ∀ j, i ≤ j → j < i + len → b.byte j = b'.byte j) :
  b.slice i len = b'.slice i len
  := by
  apply slice_eq (length_slice _ _ _)
  intro j hj
  rw [getElem_slice]
  rw [length_slice] at hj
  apply h (i + j) (by omega) (by omega)

/-- A slice of adjacent ranges is the two slices in order. -/
theorem slice_add (b : Buffer size) (i len len' : ℕ) :
  b.slice i (len + len') = b.slice i len ++ b.slice (i + len) len'
  := by
  simp only [slice, List.range_add, List.map_append, List.map_map]
  congr 1
  apply List.map_congr_left
  intro j _
  simp [Nat.add_assoc]

/-- A stored byte is the byte of the data. -/
theorem store_byte {b : Buffer size} {off : ℕ} {data : List UInt8} {j : ℕ}
    (hj : j < data.length) (h : off + data.length ≤ size) :
  (b.store off data).byte (off + j) = data[j]
  := by
  rw [store_byte_of_mem (by omega) (by omega) (by omega), Nat.add_sub_cancel_left]
  simp [hj]

/-- Reading back part of what was stored. -/
theorem slice_store {b : Buffer size} {off k n : ℕ} {data : List UInt8}
    (h : off + data.length ≤ size) (hn : k + n ≤ data.length) :
  (b.store off data).slice (off + k) n = (data.drop k).take n
  := by
  apply slice_eq
  · simp only [List.length_take, List.length_drop]
    omega
  · intro j hj
    simp only [List.length_take, List.length_drop] at hj
    rw [Nat.add_assoc, store_byte (by omega) h]
    simp

/-- Reading back what was stored. -/
theorem slice_store_self {b : Buffer size} {off : ℕ} {data : List UInt8}
    (h : off + data.length ≤ size) :
  (b.store off data).slice off data.length = data
  := by
  have hslice := slice_store (b := b) (k := 0) (n := data.length) h (by omega)
  simpa using hslice

/-- A comparison succeeds exactly when each byte of the literal is found in its place. -/
theorem strncmp_iff {b : Buffer size} {i : ℕ} {lit : List UInt8} :
  b.strncmp i lit = true ↔ ∀ j (hj : j < lit.length), b.byte (i + j) = lit[j]
  := by
  induction lit generalizing i with
  | nil => simp [strncmp]
  | cons c lit ih =>
      rw [strncmp, Bool.and_eq_true, beq_iff_eq, ih]
      constructor
      · rintro ⟨hc, hlit⟩ j hj
        cases j with
        | zero => apply hc
        | succ j =>
            have h := hlit j (by simpa using hj)
            rw [Nat.add_assoc, Nat.add_comm 1 j] at h
            apply h
      · intro h
        constructor
        · apply h 0 (by simp)
        · intro j hj
          have h' := h (j + 1) (by simpa using hj)
          rw [Nat.add_assoc, Nat.add_comm 1 j]
          apply h'

/-- A comparison succeeds exactly when the slice of the literal's length is the literal. -/
theorem strncmp_iff_slice {b : Buffer size} {i : ℕ} {lit : List UInt8} :
  b.strncmp i lit = true ↔ b.slice i lit.length = lit
  := by
  rw [strncmp_iff]
  constructor
  · intro h
    apply slice_eq rfl h
  · intro h j hj
    have hj' : j < (b.slice i lit.length).length := by
      simpa using hj
    rw [← getElem_slice b hj']
    simp only [h]

end Buffer

end CString
