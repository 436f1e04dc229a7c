import GetFile.CString.Buffer
import Mathlib.Data.List.TakeWhile

/-!
# Strings in a buffer and `strsep`

`Holds b i s` says that the string `s` stands in `b` at index `i`, and `string` reads it back.
`strsep b ds p` is the call `strsep(&p, ds)` for a pointer `p` into `b`: the string at `p` is cut
at its first delimiter, and `p` moves behind it, or becomes `NULL` when there is none.
-/

namespace CString

variable {size : ℕ}

/-! ### Strings -/

namespace Buffer

/-- The length of the string at index `i`. -/
def strlen (b : Buffer size) (i : ℕ) : ℕ :=
  scan (fun c => c != 0) b.byte (size - i) i - i

/-- The string at index `i`. -/
def string (b : Buffer size) (i : ℕ) : List UInt8 :=
  b.slice i (b.strlen i)

end Buffer

/-- The string `s` stands in the buffer at index `i`. -/
structure Holds (b : Buffer size) (i : ℕ) (s : List UInt8) : Prop where
  byte : ∀ j (hj : j < s.length), b.byte (i + j) = s[j]
  ne : (0 : UInt8) ∉ s
  zero : b.byte (i + s.length) = 0

variable {b : Buffer size} {i k : ℕ} {s t : List UInt8} {d : UInt8} {ds : List UInt8}

theorem Holds.byte_ne (h : Holds b i s) {j : ℕ} (hj : j < s.length) :
  b.byte (i + j) ≠ 0
  := by
  rw [h.byte j hj]
  intro hzero
  apply h.ne
  rw [← hzero]
  apply List.getElem_mem

/-- A scan that passes only bytes of the string ends inside the memory that it may look at. -/
theorem Holds.le_fuel (h : Holds b i s) {j : ℕ} (hj : j ≤ s.length) :
  i + j ≤ i + (size - i)
  := by
  cases j with
  | zero => omega
  | succ j =>
      have hlt := Buffer.lt_of_ne_zero (h.byte_ne (j := j) (by omega))
      omega

theorem Holds.strlen_eq (h : Holds b i s) :
  b.strlen i = s.length
  := by
  have hstops : Stops (fun c => c != 0) b.byte (size - i) i (i + s.length) := by
    constructor
    · apply Nat.le_add_right
    · apply h.le_fuel (Nat.le_refl _)
    · intro k hik hk
      have hne := h.byte_ne (j := k - i) (by omega)
      rw [Nat.add_sub_cancel' hik] at hne
      simpa using hne
    · intro _
      simpa using h.zero
  rw [Buffer.strlen, scan_eq hstops, Nat.add_sub_cancel_left]

/-- What is read back is the string. -/
theorem Holds.string_eq (h : Holds b i s) :
  b.string i = s
  := by
  rw [Buffer.string, h.strlen_eq]
  apply Buffer.slice_eq rfl h.byte

/-- A terminator written into the string cuts it off there. -/
theorem Holds.take (h : Holds b i s) (hk : k ≤ s.length) :
  Holds (b.terminate (i + k)) i (s.take k)
  where
  byte j hj := by
    rw [List.length_take] at hj
    rw [Buffer.terminate_byte_of_ne b (by omega), h.byte j (by omega), List.getElem_take]
  ne hmem := h.ne (List.mem_of_mem_take hmem)
  zero := by
    rw [List.length_take_of_le hk, Buffer.terminate_byte_self]

/-- A terminator written elsewhere leaves the string. -/
theorem Holds.terminate (h : Holds b i s) (hk : k < i ∨ i + s.length ≤ k) :
  Holds (b.terminate k) i s
  where
  byte j hj := by
    rw [Buffer.terminate_byte_of_ne b (by omega), h.byte j hj]
  ne := h.ne
  zero := by
    by_cases heq : i + s.length = k
    · rw [heq, Buffer.terminate_byte_self]
    · rw [Buffer.terminate_byte_of_ne b heq, h.zero]

/-- The end of a string is a string too. -/
theorem Holds.drop (h : Holds b i (s ++ t)) :
  Holds b (i + s.length) t
  where
  byte j hj := by
    rw [Nat.add_assoc, h.byte (s.length + j) (by rw [List.length_append]; omega),
      List.getElem_append_right (by omega)]
    simp
  ne hmem := h.ne (List.mem_append_right s hmem)
  zero := by
    have hzero := h.zero
    rwa [List.length_append, ← Nat.add_assoc] at hzero

/-- The string that starts with the data: it ends at the first zero, or behind the data, where
the terminator is. -/
def cstr (data : List UInt8) : List UInt8 :=
  data.takeWhile (· != 0)

theorem cstr_of_free (hfree : (0 : UInt8) ∉ s) :
  cstr s = s
  := by
  rw [cstr, List.takeWhile_eq_self_iff]
  intro c hc
  rw [bne_iff_ne]
  rintro rfl
  exact hfree hc

theorem cstr_append_zero (hfree : (0 : UInt8) ∉ s) :
  cstr (s ++ 0 :: t) = s
  := by
  have hpos : ∀ c ∈ s, (c != 0) = true := List.takeWhile_eq_self_iff.mp (cstr_of_free hfree)
  rw [cstr, List.takeWhile_append_of_pos hpos]
  simp

/-- The data are the string and what follows it. -/
theorem cstr_append (data : List UInt8) :
  ∃ rest, data = cstr data ++ rest
  := ⟨data.dropWhile (· != 0), List.takeWhile_append_dropWhile.symm⟩

theorem cstr_free (data : List UInt8) :
  (0 : UInt8) ∉ cstr data
  := by
  intro hmem
  simpa using List.mem_takeWhile_imp hmem

/-- The string is all of the data exactly when they have no zero. -/
theorem cstr_eq_self_iff {data : List UInt8} :
  cstr data = data ↔ (0 : UInt8) ∉ data
  := by
  constructor
  · intro h
    rw [← h]
    apply cstr_free
  · apply cstr_of_free

/-- Data copied to the front of a buffer with a terminator behind it holds the string that starts
with the data. -/
theorem holds_store (b : Buffer size) {data : List UInt8} (hsize : data.length < size) :
  Holds ((b.store 0 data).terminate data.length) 0 (cstr data)
  := by
  have hbyte : ∀ j (hj : j < data.length),
      ((b.store 0 data).terminate data.length).byte (0 + j) = data[j] := by
    intro j hj
    rw [Buffer.terminate_byte_of_ne _ (by omega)]
    apply Buffer.store_byte hj (by omega)
  by_cases hmem : (0 : UInt8) ∈ data
  · obtain ⟨s, t, rfl, hfree⟩ := List.eq_append_cons_of_mem hmem
    rw [cstr_append_zero hfree]
    have hlength : s.length < (s ++ 0 :: t).length := by simp
    constructor
    · intro j hj
      rw [hbyte j (by omega), List.getElem_append_left hj]
    · apply hfree
    · rw [hbyte s.length hlength]
      simp
  · rw [cstr_of_free hmem]
    constructor
    · apply hbyte
    · apply hmem
    · rw [Nat.zero_add, Buffer.terminate_byte_self]

/-! ### `strsep` -/

/-- What `strsep` returns and leaves behind: the index of the token, if there is one, the buffer,
and the index to which the pointer moves, if it does not become `NULL`. -/
structure Separated (size : ℕ) where
  token : Option ℕ
  buffer : Buffer size
  next : Option ℕ

/-- One call of `strsep` with the delimiters `ds`. -/
def strsep (b : Buffer size) (ds : List UInt8) : Option ℕ → Separated size
  | none => ⟨none, b, none⟩
  | some i =>
    let e := scan (fun c => c != 0 && !ds.contains c) b.byte (size - i) i
    if b.byte e = 0 then ⟨some i, b, none⟩ else ⟨some i, b.terminate e, some (e + 1)⟩

/-- A delimiter overwritten by a terminator leaves the strings in front of it and behind it. -/
theorem Holds.cut (h : Holds b i (s ++ d :: t)) :
  Holds (b.terminate (i + s.length)) i s ∧
    Holds (b.terminate (i + s.length)) (i + s.length + 1) t
  := by
  constructor
  · have htake := h.take (k := s.length) (by simp)
    rwa [List.take_left] at htake
  · have hdrop : Holds b (i + (s ++ [d]).length) t := Holds.drop (by simpa using h)
    rw [List.length_append, List.length_singleton, ← Nat.add_assoc] at hdrop
    apply hdrop.terminate
    omega

/-- The scan for the end of a token passes the bytes in front of it. -/
theorem Holds.separator_stops (h : Holds b i (s ++ t)) (hfree : ∀ c ∈ s, c ∉ ds)
    (hend : b.byte (i + s.length) = 0 ∨ b.byte (i + s.length) ∈ ds) :
  Stops (fun c => c != 0 && !ds.contains c) b.byte (size - i) i (i + s.length)
  := by
  constructor
  · apply Nat.le_add_right
  · apply h.le_fuel
    rw [List.length_append]
    apply Nat.le_add_right
  · intro k hik hk
    have hj : k - i < s.length := by omega
    have hlength : k - i < (s ++ t).length := by
      rw [List.length_append]
      omega
    have hne := h.byte_ne hlength
    have hbyte := h.byte (k - i) hlength
    rw [Nat.add_sub_cancel' hik] at hne hbyte
    rw [List.getElem_append_left hj] at hbyte
    have hnot := hfree _ (List.getElem_mem hj)
    rw [← hbyte] at hnot
    simp [hne, hnot]
  · intro _
    rcases hend with hzero | hmem
    · simp [hzero]
    · simp [hmem]

/-- A string without a delimiter is the last token. -/
theorem strsep_last (h : Holds b i s) (hfree : ∀ c ∈ s, c ∉ ds) :
  strsep b ds (some i) = ⟨some i, b, none⟩
  := by
  have hheld : Holds b i (s ++ []) := by simpa using h
  have hstops := hheld.separator_stops hfree (.inl h.zero)
  simp only [strsep]
  rw [scan_eq hstops, if_pos h.zero]

/-- A string with a delimiter is cut there, and the next token starts behind it. -/
theorem strsep_cut (h : Holds b i (s ++ d :: t)) (hfree : ∀ c ∈ s, c ∉ ds) (hd : d ∈ ds) :
  strsep b ds (some i) = ⟨some i, b.terminate (i + s.length), some (i + s.length + 1)⟩
  := by
  have hlength : s.length < (s ++ d :: t).length := by simp
  have hbyte : b.byte (i + s.length) = d := by
    rw [h.byte _ hlength]
    simp
  have hne : b.byte (i + s.length) ≠ 0 := h.byte_ne hlength
  have hstops := h.separator_stops hfree (.inr (by rwa [hbyte]))
  simp only [strsep]
  rw [scan_eq hstops, if_neg hne]

end CString
