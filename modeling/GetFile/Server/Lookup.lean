import GetFile.CString.Int
import GetFile.Server.Content
import Mathlib.Data.List.Lex
import Mathlib.Order.Compare

/-!
# Server: finding a key

`qsort` sorts the table by `_itemcmp`, and `content_get` of the server and `simplecache_get` of
the cache search it. With `strcmp` as a linear order of the strings, the key lies between `lo` and
`hi` if it is in the table (`Between`), so that a key that is there is found
(`contentGet_exact`).
-/

namespace GetFile.Server

open CString

/-! ### The order of the strings -/

/-- The bytes of a string as numbers. -/
def codes (s : List UInt8) : List ℕ :=
  s.map UInt8.toNat

theorem codes_injective :
  Function.Injective codes
  := List.map_injective_iff.mpr fun _ _ h => UInt8.toNat_inj.mp h

/-- `strcmp` compares the bytes as unsigned numbers, in the lexicographic order. -/
theorem strcmp_lt_iff {a b : List UInt8} :
  strcmp a b = .lt ↔ codes a < codes b
  := by
  induction a generalizing b with
  | nil =>
      cases b with
      | nil => simp [strcmp, codes]
      | cons y b => simp [strcmp, codes]
  | cons x a ih =>
      cases b with
      | nil => simp [strcmp, codes]
      | cons y b =>
          simp only [codes, List.map_cons, List.cons_lt_cons_iff, ← UInt8.lt_iff_toNat_lt,
            UInt8.toNat_inj] at ih ⊢
          rw [strcmp]
          split
          · rename_i hlt
            simp [hlt]
          · rename_i hlt
            split
            · rename_i hgt
              have hne : x ≠ y := by
                rintro rfl
                exact hlt hgt
              simp [hlt, hne]
            · rename_i hgt
              have hxy : x = y := by
                rw [UInt8.lt_iff_toNat_lt] at hlt hgt
                apply UInt8.toNat_inj.mp
                omega
              rw [ih]
              simp [hxy]

/-- Exchanging the strings exchanges the signs. -/
theorem strcmp_swap (a b : List UInt8) :
  (strcmp a b).swap = strcmp b a
  := by
  induction a generalizing b with
  | nil =>
      cases b with
      | nil => rfl
      | cons y b => rfl
  | cons x a ih =>
      cases b with
      | nil => rfl
      | cons y b =>
          rw [strcmp, strcmp]
          split
          · rename_i hlt
            have hgt : ¬ y < x := by
              rw [UInt8.lt_iff_toNat_lt] at hlt ⊢
              omega
            rw [if_neg hgt]
            rfl
          · split
            · rfl
            · exact ih b

theorem strcmp_gt_iff {a b : List UInt8} :
  strcmp a b = .gt ↔ codes b < codes a
  := by
  rw [← strcmp_lt_iff, ← strcmp_swap a b]
  cases strcmp a b with
  | lt => decide
  | eq => decide
  | gt => decide

/-- Strings are equal exactly when `strcmp` says so. -/
theorem strcmp_eq_iff {a b : List UInt8} :
  strcmp a b = .eq ↔ a = b
  := by
  rw [← codes_injective.eq_iff]
  cases h : strcmp a b with
  | lt => simp [(strcmp_lt_iff.mp h).ne]
  | gt => simp [(strcmp_gt_iff.mp h).ne']
  | eq =>
      have hlt : ¬ codes a < codes b := by simp [← strcmp_lt_iff, h]
      have hgt : ¬ codes b < codes a := by simp [← strcmp_gt_iff, h]
      simp [le_antisymm (not_lt.mp hgt) (not_lt.mp hlt)]

/-! ### The loop with everything checked that C leaves undefined -/

/-- The loop of the search between `lo` and `hi`. There is no result when the rounds run out, when
a difference, an index or a bound is no `int`, or when an index is not in the table. -/
def searchChecked (items : List Item) (key : List UInt8) : ℕ → ℤ → ℤ → Option ℤ
  | 0, lo, hi => if lo ≤ hi then none else some (-1)
  | rounds + 1, lo, hi =>
    if lo ≤ hi then
      let mid := lo + (hi - lo) / 2
      if asInt (hi - lo) = hi - lo ∧ asInt mid = mid ∧ 0 ≤ mid then
        match items[mid.toNat]? with
        | none => none
        | some item =>
          match strcmp key item.key with
          | .lt => if asInt (mid - 1) = mid - 1 then searchChecked items key rounds lo (mid - 1)
              else none
          | .gt => if asInt (mid + 1) = mid + 1 then searchChecked items key rounds (mid + 1) hi
              else none
          | .eq => some item.fildes
      else none
    else some (-1)

/-- `simplecache_get`, which has the loop of `content_get` but leaves the file where it is. -/
def simplecacheGet (items : List Item) (key : List UInt8) : ℤ :=
  search items key items.length 0 (items.length - 1)

/-! ### The table -/

/-- `qsort` with `_itemcmp` has sorted the records. -/
structure Sorts (records items : List Item) : Prop where
  perm : items.Perm records
  sorted : items.Pairwise fun a b => strcmp a.key b.key ≠ .gt

/-- What `content_init` and `simplecache_init` have loaded: as many records as an `int` can count,
each with the descriptor of an open file. -/
structure Loaded (records : List Item) : Prop where
  small : records.length < 2 ^ 31
  fildes : ∀ r ∈ records, 0 ≤ r.fildes

/-- The key lies between `lo` and `hi` if it is in the table. -/
structure Between (items : List Item) (key : List UInt8) (lo hi : ℤ) : Prop where
  low : 0 ≤ lo
  high : hi < items.length
  before : ∀ i (h : i < items.length), (i : ℤ) < lo → strcmp key items[i].key = .gt
  after : ∀ i (h : i < items.length), hi < i → strcmp key items[i].key = .lt

variable {items records : List Item} {key : List UInt8} {lo hi : ℤ}

theorem between_start (items : List Item) (key : List UInt8) :
  Between items key 0 (items.length - 1)
  where
  low := le_rfl
  high := by omega
  before i _ hi := by omega
  after i _ hi := by omega

/-- Sorted records: one with a smaller index is not greater. -/
theorem Sorts.le (h : Sorts records items) {i j : ℕ} (hij : i ≤ j) (hj : j < items.length) :
  codes items[i].key ≤ codes items[j].key
  := by
  rcases Nat.eq_or_lt_of_le hij with rfl | hlt
  · exact le_rfl
  · have hsorted := List.pairwise_iff_getElem.mp h.sorted i j (by omega) hj hlt
    rw [ne_eq, strcmp_gt_iff] at hsorted
    exact not_lt.mp hsorted

/-- When the key comes before the middle, it comes before everything behind the middle. -/
theorem Between.left (h : Between items key lo hi) (hsorts : Sorts records items) {m : ℕ}
    (hm : m < items.length) (hlt : strcmp key items[m].key = .lt) :
  Between items key lo (m - 1)
  where
  low := h.low
  high := by
    have hhigh := h.high
    omega
  before := h.before
  after i hi hlt' := by
    rw [strcmp_lt_iff] at hlt ⊢
    exact hlt.trans_le (hsorts.le (by omega) hi)

/-- When the key comes behind the middle, it comes behind everything before the middle. -/
theorem Between.right (h : Between items key lo hi) (hsorts : Sorts records items) {m : ℕ}
    (hm : m < items.length) (hgt : strcmp key items[m].key = .gt) :
  Between items key (m + 1) hi
  where
  low := by omega
  high := h.high
  before i hi hlt' := by
    rw [strcmp_gt_iff] at hgt ⊢
    exact (hsorts.le (by omega) hm).trans_lt hgt
  after := h.after

/-- Where nothing is left between `lo` and `hi`, the key is not in the table. -/
theorem Between.absent (h : Between items key lo hi) (hempty : ¬ lo ≤ hi) :
  ∀ item ∈ items, item.key ≠ key
  := by
  intro item hitem heq
  obtain ⟨i, hi, rfl⟩ := List.getElem_of_mem hitem
  have hcmp : strcmp key items[i].key = .eq := strcmp_eq_iff.mpr heq.symm
  by_cases hlo : (i : ℤ) < lo
  · rw [h.before i hi hlo] at hcmp
    cases hcmp
  · rw [h.after i hi (by omega)] at hcmp
    cases hcmp

/-- What the search answers: the descriptor of a record with the key, or `-1` when there is none. -/
inductive Answers (items : List Item) (key : List UInt8) : ℤ → Prop where
  | found (item : Item) (mem : item ∈ items) (eq : item.key = key) : Answers items key item.fildes
  | absent (none : ∀ item ∈ items, item.key ≠ key) : Answers items key (-1)

/-- On a sorted table the loop never does what C leaves undefined, and answers with the right
descriptor. -/
theorem searchChecked_spec (key : List UInt8) (hsorts : Sorts records items)
    (hsmall : items.length < 2 ^ 31) {rounds : ℕ} (h : Between items key lo hi)
    (hrounds : hi + 1 - lo ≤ rounds) :
  searchChecked items key rounds lo hi = some (search items key rounds lo hi) ∧
    Answers items key (search items key rounds lo hi)
  := by
  induction rounds generalizing lo hi with
  | zero =>
      have hempty : ¬ lo ≤ hi := by omega
      rw [searchChecked, search, if_neg hempty]
      exact ⟨rfl, .absent (h.absent hempty)⟩
  | succ rounds ih =>
      rw [searchChecked, search]
      by_cases hle : lo ≤ hi
      · have hlow := h.low
        have hhigh := h.high
        obtain ⟨m, hm⟩ : ∃ m : ℕ, lo + (hi - lo) / 2 = m := Int.eq_ofNat_of_zero_le (by omega)
        have hlt : m < items.length := by omega
        have hint : asInt (hi - lo) = hi - lo ∧ asInt (m : ℤ) = m ∧ 0 ≤ (m : ℤ) :=
          ⟨asInt_eq (by omega) (by omega), asInt_eq (by omega) (by omega), by omega⟩
        rw [if_pos hle, if_pos hle]
        dsimp only
        rw [hm, if_pos hint, Int.toNat_natCast, List.getElem?_eq_getElem hlt]
        dsimp only
        cases hcmp : strcmp key items[m].key with
        | lt =>
            dsimp only
            rw [if_pos (asInt_eq (by omega) (by omega))]
            exact ih (h.left hsorts hlt hcmp) (by omega)
        | gt =>
            dsimp only
            rw [if_pos (asInt_eq (by omega) (by omega))]
            exact ih (h.right hsorts hlt hcmp) (by omega)
        | eq => exact ⟨rfl, .found _ (List.getElem_mem hlt) (strcmp_eq_iff.mp hcmp).symm⟩
      · rw [if_neg hle, if_neg hle]
        exact ⟨rfl, .absent (h.absent hle)⟩

/-- For every table that is sorted from the records loaded, and every key: the loop ends within as
many rounds as there are records, computes no number that is not an `int` and uses no index outside
the table; both functions return the same descriptor, which is that of some record with the key if
there is one, and `-1` exactly if there is none. -/
theorem contentGet_exact (hsorts : Sorts records items) (hloaded : Loaded records)
    (key : List UInt8) :
  ∃ fildes, searchChecked items key items.length 0 (items.length - 1) = some fildes ∧
    contentGet items (some key) = some fildes ∧ simplecacheGet items key = fildes ∧
    ((∃ r ∈ records, r.key = key) → ∃ r ∈ records, r.key = key ∧ r.fildes = fildes) ∧
    (fildes = -1 ↔ ¬ ∃ r ∈ records, r.key = key)
  := by
  have hmem : ∀ r, r ∈ items ↔ r ∈ records := fun r => hsorts.perm.mem_iff
  obtain ⟨hchecked, hanswers⟩ := searchChecked_spec key hsorts
    (by rw [hsorts.perm.length_eq]; exact hloaded.small : items.length < 2 ^ 31)
    (between_start items key) (by omega : (items.length : ℤ) - 1 + 1 - 0 ≤ items.length)
  refine ⟨_, hchecked, rfl, rfl, ?_⟩
  generalize search items key items.length 0 (items.length - 1) = fildes at hanswers
  cases hanswers with
  | found item mem eq =>
      have hitem := (hmem item).mp mem
      have hnonneg := hloaded.fildes item hitem
      refine ⟨fun _ => ⟨item, hitem, eq, rfl⟩, ?_⟩
      constructor
      · intro hneg
        omega
      · intro hnone
        exact absurd ⟨item, hitem, eq⟩ hnone
  | absent none =>
      have habsent : ¬ ∃ r ∈ records, r.key = key := by
        rintro ⟨r, hr, hkey⟩
        exact none r ((hmem r).mpr hr) hkey
      exact ⟨fun h => absurd h habsent, fun _ => habsent, fun _ => rfl⟩

/-- Three records, two of them with one key. -/
def threeRecords : List Item :=
  [⟨5, ascii "/b"⟩, ⟨3, ascii "/a"⟩, ⟨4, ascii "/b"⟩]

/-- The table that they are sorted into. -/
def sortedRecords : List Item :=
  [⟨3, ascii "/a"⟩, ⟨4, ascii "/b"⟩, ⟨5, ascii "/b"⟩]

theorem contentGet_exact_threeRecords :
  ∃ fildes, searchChecked sortedRecords (ascii "/b") 3 0 2 = some fildes ∧
    contentGet sortedRecords (some (ascii "/b")) = some fildes ∧
    simplecacheGet sortedRecords (ascii "/b") = fildes ∧
    ((∃ r ∈ threeRecords, r.key = ascii "/b") →
      ∃ r ∈ threeRecords, r.key = ascii "/b" ∧ r.fildes = fildes) ∧
    (fildes = -1 ↔ ¬ ∃ r ∈ threeRecords, r.key = ascii "/b")
  := by
  have hsorts : Sorts threeRecords sortedRecords := ⟨by decide, by decide⟩
  have hloaded : Loaded threeRecords := ⟨by decide, by decide⟩
  exact contentGet_exact hsorts hloaded (ascii "/b")

end GetFile.Server
