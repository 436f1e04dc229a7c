import GetFile.CString.Buffer
import Mathlib.Data.List.Induction
import Mathlib.Data.List.TakeWhile
import Mathlib.Data.Nat.Digits.Lemmas
import Mathlib.Data.Nat.Notation
import Mathlib.Tactic.Common
import Mathlib.Tactic.Positivity.Basic

/-!
# Decimal numbers

`decimal n` is what `printf` writes for a number that is not negative, and `strtol` and
`atoi` read a number in the base ten. Reading back what was written gives the number
(`atoi_decimal`), as for every list of digits (`atoi_digits`).
-/

namespace CString

/-- The character of a decimal digit. -/
def digitChar (d : ℕ) : UInt8 :=
  (48 + d).toUInt8

/-- The decimal digits of `n`, the most significant one first. -/
def decimal (n : ℕ) : List UInt8 :=
  if n = 0 then [digitChar 0] else (Nat.digits 10 n).reverse.map digitChar

/-- Whether `isdigit` holds in the C locale. -/
def isDigit (c : UInt8) : Bool :=
  48 ≤ c && c ≤ 57

/-- Whether `isspace` holds in the C locale. -/
def isSpace (c : UInt8) : Bool :=
  c == 32 || (9 ≤ c && c ≤ 13)

/-- The number that a list of decimal digits stands for. -/
def decimalValue (ds : List UInt8) : ℕ :=
  ds.foldl (fun n c => 10 * n + (c.toNat - 48)) 0

/-- `strtol(s, NULL, 10)` for a 64-bit `long`: white space, a sign and digits, clamped to the
range of the type. -/
def strtol (s : List UInt8) : ℤ :=
  match s.dropWhile isSpace with
  | [] => 0
  | c :: cs =>
    if c = 45 then max (-2 ^ 63) (-(decimalValue (cs.takeWhile isDigit) : ℤ))
    else if c = 43 then min (2 ^ 63 - 1) (decimalValue (cs.takeWhile isDigit) : ℤ)
    else min (2 ^ 63 - 1) (decimalValue ((c :: cs).takeWhile isDigit) : ℤ)

/-- `atoi(s)`, which is `strtol` converted to a 32-bit `int`. -/
def atoi (s : List UInt8) : ℤ :=
  (strtol s).bmod (2 ^ 32)

/-- `strndup(&b[i], n)`: at most `n` bytes, up to the first terminator. -/
def Buffer.strndup {size : ℕ} (b : Buffer size) (i n : ℕ) : List UInt8 :=
  (b.slice i n).takeWhile fun c => c != 0

/-! ### Digits -/

/-- A digit is neither white space nor a sign. -/
theorem not_isSpace_of_isDigit {c : UInt8} (h : isDigit c = true) :
  isSpace c = false ∧ c ≠ 45 ∧ c ≠ 43 ∧ c ≠ 0
  := by
  simp only [isDigit, Bool.and_eq_true, decide_eq_true_eq, UInt8.le_iff_toNat_le] at h
  have hlow : (48 : UInt8).toNat = 48 := rfl
  have hhigh : (57 : UInt8).toNat = 57 := rfl
  refine ⟨?_, ?_, ?_, ?_⟩
  · simp only [isSpace, Bool.or_eq_false_iff, beq_eq_false_iff_ne, Bool.and_eq_false_iff,
      decide_eq_false_iff_not, UInt8.le_iff_toNat_le]
    have hthirteen : (13 : UInt8).toNat = 13 := rfl
    constructor
    · rintro rfl
      have hspace : (32 : UInt8).toNat = 32 := rfl
      omega
    · right
      omega
  · rintro rfl
    have hminus : (45 : UInt8).toNat = 45 := rfl
    omega
  · rintro rfl
    have hplus : (43 : UInt8).toNat = 43 := rfl
    omega
  · rintro rfl
    have hzero : (0 : UInt8).toNat = 0 := rfl
    omega

theorem toNat_digitChar {d : ℕ} (h : d < 10) :
  (digitChar d).toNat = 48 + d
  := by
  have hd : ∀ d < 10, (digitChar d).toNat = 48 + d := by decide
  apply hd d h

theorem isDigit_digitChar {d : ℕ} (h : d < 10) :
  isDigit (digitChar d) = true
  := by
  have hd : ∀ d < 10, isDigit (digitChar d) = true := by decide
  apply hd d h

theorem decimal_ne_nil (n : ℕ) :
  decimal n ≠ []
  := by
  rw [decimal]
  split
  · simp
  · rename_i hn
    simp [Nat.digits_ne_nil_iff_ne_zero.mpr hn]

/-- A written number consists of digits. -/
theorem isDigit_of_mem_decimal {n : ℕ} {c : UInt8} (h : c ∈ decimal n) :
  isDigit c = true
  := by
  rw [decimal] at h
  split at h
  · rw [List.mem_singleton] at h
    rw [h]
    apply isDigit_digitChar
    decide
  · simp only [List.mem_map, List.mem_reverse] at h
    obtain ⟨d, hd, rfl⟩ := h
    apply isDigit_digitChar
    apply Nat.digits_lt_base (by decide) hd

/-- The value of a list of digits, one digit longer. -/
theorem decimalValue_concat (ds : List UInt8) (c : UInt8) :
  decimalValue (ds ++ [c]) = 10 * decimalValue ds + (c.toNat - 48)
  := by simp [decimalValue]

/-- A written number has its value. -/
theorem decimalValue_decimal (n : ℕ) :
  decimalValue (decimal n) = n
  := by
  induction n using Nat.strong_induction_on with
  | h n ih =>
      by_cases hn : n = 0
      · rw [hn]
        decide
      · have hdigit : n % 10 < 10 := Nat.mod_lt n (by decide)
        have hhead : decimal n = (Nat.digits 10 (n / 10)).reverse.map digitChar ++ [digitChar (n % 10)] := by
          rw [decimal, if_neg hn, Nat.digits_def' (by decide) (Nat.pos_of_ne_zero hn)]
          simp
        rw [hhead, decimalValue_concat, toNat_digitChar hdigit]
        by_cases hsmall : n / 10 = 0
        · rw [hsmall]
          simp [decimalValue]
          omega
        · have hrest := ih (n / 10) (Nat.div_lt_self (Nat.pos_of_ne_zero hn) (by decide))
          rw [decimal, if_neg hsmall] at hrest
          rw [hrest]
          omega

/-! ### Reading a number -/

/-- `strtol` reads a list of digits up to the first other character. -/
theorem strtol_digits {ds rest : List UInt8} (hne : ds ≠ []) (hds : ∀ c ∈ ds, isDigit c = true)
    (hrest : ∀ c ∈ rest.head?, isDigit c = false) :
  strtol (ds ++ rest) = min (2 ^ 63 - 1) (decimalValue ds : ℤ)
  := by
  obtain ⟨c, ds, rfl⟩ := List.exists_cons_of_ne_nil hne
  have hc := not_isSpace_of_isDigit (hds c (List.mem_cons_self ..))
  have htake : (c :: ds ++ rest).takeWhile isDigit = c :: ds := by
    rw [List.takeWhile_append_of_pos hds]
    cases rest with
    | nil => simp
    | cons d rest =>
        have hd : isDigit d = false := hrest d rfl
        simp [hd]
  have hdrop : (c :: ds ++ rest).dropWhile isSpace = c :: (ds ++ rest) := by
    rw [List.cons_append, List.dropWhile_cons, hc.1]
    simp
  rw [strtol, hdrop]
  dsimp only
  rw [if_neg hc.2.1, if_neg hc.2.2.1, ← List.cons_append, htake]

/-- The digits of a number below `2 ^ 32`, read by `atoi` and stored as an `unsigned`, are the
number. -/
theorem atoi_unsigned {ds : List UInt8} (hne : ds ≠ []) (hds : ∀ c ∈ ds, isDigit c = true)
    (hmax : decimalValue ds < 2 ^ 32) :
  (atoi ds % 2 ^ 32).toNat = decimalValue ds
  := by
  have hread : strtol (ds ++ []) = min (2 ^ 63 - 1) (decimalValue ds : ℤ) :=
    strtol_digits hne hds (by simp)
  have hmin : min (2 ^ 63 - 1) (decimalValue ds : ℤ) = decimalValue ds := by omega
  rw [List.append_nil, hmin] at hread
  have hmod : atoi ds % 2 ^ 32 = strtol ds % 2 ^ 32 := Int.bmod_emod
  rw [hmod, hread]
  omega

/-- `atoi` reads a list of digits whose value is in the range of the type. -/
theorem atoi_digits {ds rest : List UInt8} (hne : ds ≠ []) (hds : ∀ c ∈ ds, isDigit c = true)
    (hrest : ∀ c ∈ rest.head?, isDigit c = false) (hmax : decimalValue ds < 2 ^ 31) :
  atoi (ds ++ rest) = decimalValue ds
  := by
  rw [atoi, strtol_digits hne hds hrest]
  have hmin : min (2 ^ 63 - 1) (decimalValue ds : ℤ) = decimalValue ds := by omega
  rw [hmin]
  apply Int.bmod_eq_of_le
  · omega
  · omega

/-- `atoi` reads back what `printf` has written. -/
theorem atoi_decimal {n : ℕ} (hn : n < 2 ^ 31) :
  atoi (decimal n) = n
  := by
  have hread : atoi (decimal n ++ []) = decimalValue (decimal n) := by
    apply atoi_digits (decimal_ne_nil n)
    · intro c hc
      apply isDigit_of_mem_decimal hc
    · simp
    · rw [decimalValue_decimal]
      apply hn
  rw [List.append_nil, decimalValue_decimal] at hread
  apply hread

/-! ### Numbers and their length -/

/-- A list of digits stands for a number below the power of ten of its length. -/
theorem decimalValue_lt {ds : List UInt8} (hds : ∀ c ∈ ds, isDigit c = true) :
  decimalValue ds < 10 ^ ds.length
  := by
  induction ds using List.reverseRecOn with
  | nil => decide
  | append_singleton ds c ih =>
      have hlt := ih fun c' hc' => hds c' (List.mem_append_left _ hc')
      have hc := hds c (List.mem_append_right _ (List.mem_singleton_self c))
      simp only [isDigit, Bool.and_eq_true, decide_eq_true_eq, UInt8.le_iff_toNat_le] at hc
      have hhigh : (57 : UInt8).toNat = 57 := rfl
      rw [decimalValue_concat, List.length_append, List.length_singleton, Nat.pow_succ]
      omega

/-- The digits at the start of a string stand for a number below the power of ten of its
length. -/
theorem decimalValue_takeWhile_lt (l : List UInt8) :
  decimalValue (l.takeWhile isDigit) < 10 ^ l.length
  := by
  apply lt_of_lt_of_le
  · apply decimalValue_lt
    intro c hc
    apply List.mem_takeWhile_imp hc
  · apply Nat.pow_le_pow_right (by decide)
    apply (List.takeWhile_prefix _).length_le

/-- What `strtol` reads is bounded by the power of ten of the length of the string. -/
theorem strtol_lt (l : List UInt8) :
  -(10 ^ l.length : ℤ) < strtol l ∧ strtol l < 10 ^ l.length
  := by
  have hpos : (0 : ℤ) < 10 ^ l.length := by positivity
  have hread : ∀ l' : List UInt8, l'.length ≤ l.length →
      (decimalValue (l'.takeWhile isDigit) : ℤ) < 10 ^ l.length := by
    intro l' hl'
    have hlt := decimalValue_takeWhile_lt l'
    have hle : 10 ^ l'.length ≤ 10 ^ l.length := Nat.pow_le_pow_right (by decide) hl'
    exact_mod_cast lt_of_lt_of_le hlt hle
  have hlength := (List.dropWhile_suffix isSpace (l := l)).length_le
  rw [strtol]
  generalize l.dropWhile isSpace = l' at hlength
  cases l' with
  | nil => exact ⟨neg_lt_zero.mpr hpos, hpos⟩
  | cons c cs =>
      have hall := hread (c :: cs) hlength
      have hrest := hread cs (le_trans (Nat.le_succ _) hlength)
      dsimp only
      split
      · omega
      · split
        · omega
        · omega

/-- A number that `atoi` reads from a string is not longer than the string. -/
theorem length_decimal_le {l : List UInt8} {n : ℕ} (hone : 1 ≤ n) (hsmall : n < 2 ^ 31)
    (h : (atoi l % 2 ^ 32).toNat = n) :
  (decimal n).length ≤ l.length
  := by
  by_contra hlt
  have hne : n ≠ 0 := by omega
  have hlength : (decimal n).length = (Nat.digits 10 n).length := by
    rw [decimal, if_neg hne, List.length_map, List.length_reverse]
  have hdigits := Nat.base_pow_length_digits_le 10 n (by decide) hne
  have hpow : 10 ^ (l.length + 1) ≤ 10 ^ (Nat.digits 10 n).length :=
    Nat.pow_le_pow_right (by decide) (by omega)
  have hbound : 10 ^ l.length ≤ n := by
    rw [Nat.pow_succ] at hpow
    omega
  have hread := strtol_lt l
  have hcast : ((10 ^ l.length : ℕ) : ℤ) = 10 ^ l.length := by push_cast; rfl
  rw [← hcast] at hread
  rw [atoi, Int.bmod_eq_of_le (by omega) (by omega)] at h
  omega

/-- A number below a power of ten has at most as many digits as the exponent. -/
theorem length_decimal_of_lt {n k : ℕ} (hk : 1 ≤ k) (hn : n < 10 ^ k) :
  (decimal n).length ≤ k
  := by
  rw [decimal]
  split
  · apply hk
  · rw [List.length_map, List.length_reverse]
    apply (Nat.digits_length_le_iff (by decide) n).mpr hn

/-- The numbers with at most `k` digits are those below the power of ten. -/
theorem length_decimal_le_iff {n k : ℕ} (hk : 1 ≤ k) :
  (decimal n).length ≤ k ↔ n < 10 ^ k
  := by
  constructor
  · intro hlength
    calc
      n = decimalValue (decimal n) := (decimalValue_decimal n).symm
      _ < 10 ^ (decimal n).length := decimalValue_lt fun c hc => isDigit_of_mem_decimal hc
      _ ≤ 10 ^ k := Nat.pow_le_pow_right (by decide) hlength
  · intro hn
    apply length_decimal_of_lt hk hn

/-- Different numbers are written differently. -/
theorem decimal_injective :
  Function.Injective decimal
  := Function.LeftInverse.injective decimalValue_decimal

end CString
