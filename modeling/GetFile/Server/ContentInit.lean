import GetFile.CString.Fgets
import GetFile.CString.Int
import GetFile.CString.Strsep
import GetFile.Server.Lookup
import GetFile.Transition.Loop
import Mathlib.Data.List.Forall2

/-!
# Server: loading the content table

The loop that `content_init` of the server and `simplecache_init` of the cache run over the rows
of a content file: a row is read into the next key, its last character is taken out, the key and
the path are separated in place, and the file is opened. `Builds` says that the loop does what
the header promises, and `FitsText` when it does (`contentInit_builds_iff`).
-/

namespace GetFile.Server

open CString Transition

/-- `MAX_KEYLEN`, the size of a key with its terminator. -/
def maxKeylen : ℕ := 256

/-- The delimiters of a row, `" \t"`. -/
def blanks : List UInt8 := [space, 9]

/-- An item together with the path of the file that was opened for it. -/
structure Record extends Item where
  path : List UInt8
  deriving DecidableEq

/-- What the loop meets: the memory in which `malloc` and `realloc` put the keys, and the results
of the calls of `open` in their order. -/
structure Surroundings where
  memory : ℕ → Buffer maxKeylen
  opens : ℕ → List UInt8 → ℤ

/-- The variables of the loop: the number of items, the capacity of their array, and the items
themselves. -/
structure Loading where
  nitems : ℤ
  capacity : ℤ
  records : List Record

/-- The loop starts with an empty array. -/
def Loading.start : Loading :=
  ⟨0, 16, []⟩

/-- The next item is complete, and a full array is made twice as large. -/
def Loading.push (s : Loading) (r : Record) : Loading where
  nitems := asInt (s.nitems + 1)
  capacity := if asInt (s.nitems + 1) = s.capacity then asInt (s.capacity * 2) else s.capacity
  records := s.records ++ [r]

/-- The terminator put over the last character of the key. In front of an empty key it lands in
`fildes`, which `open` sets later. -/
def takeOutEol (key : Buffer maxKeylen) : Buffer maxKeylen :=
  if key.strlen 0 = 0 then key else key.terminate (key.strlen 0 - 1)

/-- The two calls of `strsep` on the key, of which the second returns the path. -/
def separate (key : Buffer maxKeylen) : Separated maxKeylen :=
  let first := strsep key blanks (some 0)
  strsep first.buffer blanks first.next

/-- One round of the loop, on what `fgets` has read. There is no result when it writes outside the
array, and when a file cannot be opened, after which the program exits. No file can be opened at
`NULL`. -/
def loadRow (env : Surroundings) (s : Loading) (chunk : List UInt8) :
    Round Loading (Option (List Record)) :=
  if 0 ≤ s.nitems ∧ s.nitems < s.capacity then
    let slot := env.memory s.nitems.toNat
    let row := separate (takeOutEol ((slot.store 0 chunk).terminate chunk.length))
    match row.token with
    | none => .leave none
    | some p =>
      let path := row.buffer.string p
      let fildes := env.opens s.nitems.toNat path
      if fildes < 0 then .leave none
      else .again (s.push ⟨⟨fildes, row.buffer.string 0⟩, path⟩)
  else .leave none

/-- The loop on the text of a content file. The records are those that `qsort` then sorts. -/
def loadTable (env : Surroundings) (text : List UInt8) : Option (List Record) :=
  feed (loadRow env) (fun s => some s.records) .start
    (chunks (maxKeylen - 1) text.length text)

/-- `content_init` of the server, once the content file is open. -/
def contentInit : Surroundings → List UInt8 → Option (List Record) :=
  loadTable

/-- `simplecache_init` of the cache, which has the loop of `content_init`. -/
def simplecacheInit : Surroundings → List UInt8 → Option (List Record) :=
  loadTable

/-! ### What the header promises -/

/-- The row of a line: the line without the line feed. -/
def row (line : List UInt8) : List UInt8 :=
  if line.getLast? = some lf then line.dropLast else line

/-- Whether the row has the shape of a key, a delimiter and a path. -/
def hasBlank (row : List UInt8) : Bool :=
  row.any blanks.contains

/-- A row starts with the key up to the first delimiter, and the path stands between the first
delimiter and the second one or the end of the row. -/
inductive Splits : List UInt8 → List UInt8 → List UInt8 → Prop where
  | toEnd {key path : List UInt8} {d : UInt8} (hkey : ∀ c ∈ key, c ∉ blanks) (hd : d ∈ blanks)
      (hpath : ∀ c ∈ path, c ∉ blanks) : Splits (key ++ d :: path) key path
  | toBlank {key path rest : List UInt8} {d d' : UInt8} (hkey : ∀ c ∈ key, c ∉ blanks)
      (hd : d ∈ blanks) (hpath : ∀ c ∈ path, c ∉ blanks) (hd' : d' ∈ blanks) :
      Splits (key ++ d :: (path ++ d' :: rest)) key path

/-- The descriptors of the records are what the calls of `open` returned for their paths. -/
def Opened (env : Surroundings) (records : List Record) : Prop :=
  ∀ i (h : i < records.length), records[i].fildes = env.opens i records[i].path

/-- In all surroundings in which the files that the rows name can be opened, one record is built
for each row with the key and the path of the row, and whenever the loop is at its head there is
room for the next item. -/
def Builds (init : Surroundings → List UInt8 → Option (List Record)) (text : List UInt8) : Prop :=
  ∀ env : Surroundings,
    (∀ line ∈ lines text, ∀ key path, Splits (row line) key path → ∀ i, 0 ≤ env.opens i path) →
    (∃ records, init env text = some records ∧ Opened env records ∧
      List.Forall₂ (fun row r => Splits row r.key r.path)
        (((lines text).map row).filter hasBlank) records) ∧
    Always (loadRow env) (fun s _ => s.nitems < s.capacity) .start
      (chunks (maxKeylen - 1) text.length text)

/-- A line that the loop handles: it fits in a key, and it is not the case that its last character
or its zeros matter: either it ends with a line feed and has no zero, and there is a delimiter, or
a second delimiter comes before the first zero. -/
structure FitsLine (line : List UInt8) : Prop where
  short : line.length < maxKeylen
  split : (line.getLast? = some lf ∧ (0 : UInt8) ∉ line ∧ hasBlank line = true) ∨
    2 ≤ (cstr line).countP blanks.contains

/-- A text that the loop handles. -/
structure FitsText (text : List UInt8) : Prop where
  few : (lines text).length < 2 ^ 30
  line : ∀ line ∈ lines text, FitsLine line

/-! ### The separation of one row -/

variable {s key : List UInt8} {b : Buffer maxKeylen}

/-- Every string has no delimiter or a first one. -/
theorem blank_cases (s : List UInt8) :
  (∀ c ∈ s, c ∉ blanks) ∨
    ∃ key d rest, s = key ++ d :: rest ∧ (∀ c ∈ key, c ∉ blanks) ∧ d ∈ blanks
  := by
  induction s with
  | nil => simp
  | cons c s ih =>
      by_cases hc : c ∈ blanks
      · exact .inr ⟨[], c, s, rfl, by simp, hc⟩
      · rcases ih with hfree | ⟨key, d, rest, rfl, hkey, hd⟩
        · left
          simpa [hc] using hfree
        · right
          exact ⟨c :: key, d, rest, rfl, by simpa [hc] using hkey, hd⟩

/-- What the two calls of `strsep` make of the string `s`: there is no path when `s` has no
delimiter, and otherwise the key and the path of `s` stand in the buffer. -/
inductive Separation (s : List UInt8) : Separated maxKeylen → Prop where
  | alone {b : Buffer maxKeylen} (free : ∀ c ∈ s, c ∉ blanks) : Separation s ⟨none, b, none⟩
  | both {b : Buffer maxKeylen} {p : ℕ} {next : Option ℕ} {key path : List UInt8}
      (splits : Splits s key path) (holdsKey : Holds b 0 key) (holdsPath : Holds b p path) :
      Separation s ⟨some p, b, next⟩

theorem separate_spec (h : Holds b 0 s) :
  Separation s (separate b)
  := by
  rcases blank_cases s with hfree | ⟨key, d, rest, rfl, hkey, hd⟩
  · simp only [separate]
    rw [strsep_last h hfree]
    exact .alone hfree
  · obtain ⟨hheldKey, hheldRest⟩ := h.cut
    simp only [separate]
    rw [strsep_cut h hkey hd]
    rcases blank_cases rest with hfree | ⟨path, d', rest', rfl, hpath, hd'⟩
    · dsimp only
      rw [strsep_last hheldRest hfree]
      exact .both (.toEnd hkey hd hfree) hheldKey hheldRest
    · dsimp only
      rw [strsep_cut hheldRest hpath hd']
      refine .both (.toBlank hkey hd hpath hd') (hheldKey.terminate ?_) hheldRest.cut.1
      omega

/-- Taking out the last character. -/
theorem holds_takeOutEol (h : Holds b 0 s) :
  Holds (takeOutEol b) 0 s.dropLast
  := by
  rw [takeOutEol, h.strlen_eq]
  split
  · rename_i hnil
    rw [List.eq_nil_of_length_eq_zero hnil] at h ⊢
    exact h
  · have htake := h.take (k := s.length - 1) (by omega)
    rwa [Nat.zero_add, ← List.dropLast_eq_take] at htake

/-! ### One round -/

variable {env : Surroundings} {l : Loading} {chunk line : List UInt8}

/-- The items are counted, and there is room for the next one. -/
structure Room (l : Loading) : Prop where
  count : l.nitems = l.records.length
  room : ∃ j ≤ 30, l.capacity = 2 ^ j ∧ l.nitems < 2 ^ j

/-- The array cannot be made larger, since its capacity would be no `int`. -/
structure Exhausted (l : Loading) : Prop where
  count : l.records.length = 2 ^ 30
  capacity : l.capacity < l.nitems

theorem Room.nitems_lt (h : Room l) :
  0 ≤ l.nitems ∧ l.nitems < l.capacity ∧ l.records.length < 2 ^ 30
  := by
  obtain ⟨j, hj, hcapacity, hlt⟩ := h.room
  have hpow : (2 : ℤ) ^ j ≤ 2 ^ 30 := pow_le_pow_right₀ (by decide) hj
  have hcount := h.count
  omega

theorem room_start :
  Room .start
  where
  count := rfl
  room := ⟨4, by decide, rfl, by decide⟩

/-- A further item leaves room for the next one, until there are `2 ^ 30` items. -/
theorem Room.push (h : Room l) (r : Record) :
  Room (l.push r) ∨ Exhausted (l.push r)
  := by
  obtain ⟨hlow, -, hfew⟩ := h.nitems_lt
  obtain ⟨j, hj, hcapacity, hlt⟩ := h.room
  have hcount := h.count
  have hlength : (l.push r).records.length = l.records.length + 1 := by simp [Loading.push]
  have hnitems : (l.push r).nitems = l.nitems + 1 := asInt_eq (by omega) (by omega)
  have hpushed : (l.push r).capacity =
      if (l.push r).nitems = l.capacity then asInt (l.capacity * 2) else l.capacity := rfl
  rw [hnitems, hcapacity] at hpushed
  by_cases hfull : l.nitems + 1 = 2 ^ j
  · rw [if_pos hfull, ← pow_succ] at hpushed
    rcases Nat.lt_or_eq_of_le hj with hj | rfl
    · left
      have hpow : (2 : ℤ) ^ (j + 1) ≤ 2 ^ 30 := pow_le_pow_right₀ (by decide) hj
      have hpos : (0 : ℤ) < 2 ^ (j + 1) := pow_pos (by decide) (j + 1)
      have hdouble : (2 : ℤ) ^ (j + 1) = 2 ^ j * 2 := pow_succ 2 j
      constructor
      · omega
      · refine ⟨j + 1, hj, ?_, ?_⟩
        · rw [hpushed, asInt_eq (by omega) (by omega)]
        · omega
    · right
      have hwrap : asInt (2 ^ (30 + 1)) = -2 ^ 31 := by decide
      constructor
      · omega
      · omega
  · rw [if_neg hfull] at hpushed
    left
    constructor
    · omega
    · exact ⟨j, hj, hpushed, by omega⟩

/-- What a round does: it leaves when there is no path or its file cannot be opened, and otherwise
it goes on with one more record. -/
inductive RowCase (env : Surroundings) (l : Loading) (s : List UInt8) :
    Round Loading (Option (List Record)) → Prop where
  | alone (free : ∀ c ∈ s, c ∉ blanks) : RowCase env l s (.leave none)
  | refused {key path : List UInt8} (splits : Splits s key path)
      (neg : env.opens l.records.length path < 0) : RowCase env l s (.leave none)
  | loaded {r : Record} (splits : Splits s r.key r.path)
      (opened : r.fildes = env.opens l.records.length r.path) (nonneg : 0 ≤ r.fildes) :
      RowCase env l s (.again (l.push r))

theorem loadRow_spec (env : Surroundings) (h : Room l) (hshort : chunk.length < maxKeylen) :
  RowCase env l (cstr chunk).dropLast (loadRow env l chunk)
  := by
  obtain ⟨hlow, hlt, -⟩ := h.nitems_lt
  have hcount : l.nitems.toNat = l.records.length := by
    have := h.count
    omega
  have hspec := separate_spec (holds_takeOutEol (holds_store (env.memory l.records.length) hshort))
  rw [loadRow, if_pos ⟨hlow, hlt⟩, hcount]
  dsimp only
  generalize separate (takeOutEol (((env.memory l.records.length).store 0 chunk).terminate
    chunk.length)) = separated at hspec ⊢
  cases hspec with
  | alone free => exact .alone free
  | both splits holdsKey holdsPath =>
      dsimp only
      rw [holdsKey.string_eq, holdsPath.string_eq]
      split
      · rename_i hneg
        exact .refused splits hneg
      · rename_i hnonneg
        exact .loaded (r := ⟨⟨_, _⟩, _⟩) splits rfl (not_lt.mp hnonneg)

/-! ### What the last character does to a row -/

/-- A row with a delimiter has a key and a path. -/
theorem exists_splits (h : hasBlank s = true) :
  ∃ key path, Splits s key path
  := by
  rcases blank_cases s with hfree | ⟨key, d, rest, rfl, hkey, hd⟩
  · simp only [hasBlank, List.any_eq_true, List.contains_iff_mem] at h
    obtain ⟨c, hc, hblank⟩ := h
    exact absurd hblank (hfree c hc)
  · rcases blank_cases rest with hfree | ⟨path, d', rest', rfl, hpath, hd'⟩
    · exact ⟨key, rest, .toEnd hkey hd hfree⟩
    · exact ⟨key, path, .toBlank hkey hd hpath hd'⟩

/-- A row that splits has a delimiter. -/
theorem Splits.hasBlank {path : List UInt8} (h : Splits s key path) :
  hasBlank s = true
  := by
  cases h with
  | toEnd hkey hd hpath => simp [GetFile.Server.hasBlank, hd]
  | toBlank hkey hd hpath hd' => simp [GetFile.Server.hasBlank, hd]

/-- Bytes without a delimiter count none. -/
theorem countP_free (hfree : ∀ c ∈ s, c ∉ blanks) :
  s.countP blanks.contains = 0
  := by
  rw [List.countP_eq_zero]
  simpa using hfree

/-- The row of a line that is longer than one character starts with that character. -/
theorem row_append (s : List UInt8) {t : List UInt8} (ht : t ≠ []) :
  row (s ++ t) = s ++ row t
  := by
  rw [row, row, List.getLast?_append_of_ne_nil s ht]
  split
  · rw [List.dropLast_append_of_ne_nil ht]
  · rfl

/-- Only a line feed alone has an empty row. -/
theorem row_cons (c : UInt8) (u : List UInt8) :
  (c = lf ∧ u = [] ∧ row (c :: u) = []) ∨ ∃ t, row (c :: u) = c :: t
  := by
  by_cases hu : u = []
  · subst hu
    by_cases hc : c = lf
    · left
      simp [row, hc]
    · right
      simp [row, hc]
  · right
    exact ⟨row u, row_append [c] hu⟩

/-- A line and its row around the last character of the string that the line starts with. -/
theorem line_cases (hne : cstr line ≠ []) :
  ∃ s c u, (cstr line).dropLast = s ∧ cstr line = s ++ [c] ∧ line = s ++ c :: u ∧
    row line = s ++ row (c :: u)
  := by
  have hlast := List.dropLast_append_getLast hne
  obtain ⟨u, hu⟩ := cstr_append line
  have hline : line = (cstr line).dropLast ++ (cstr line).getLast hne :: u := by
    rw [← List.singleton_append, ← List.append_assoc, hlast, ← hu]
  refine ⟨_, _, u, rfl, hlast.symm, hline, ?_⟩
  conv_lhs => rw [hline]
  apply row_append
  simp

/-- A delimiter cannot be a line feed. -/
theorem lf_not_blank :
  lf ∉ blanks
  := by decide

/-- What follows the path in a row is nothing or starts with a delimiter. -/
theorem Splits.behind {path whole t : List UInt8} {d : UInt8} (h : Splits whole key path)
    (heq : whole = (key ++ d :: path) ++ t) :
  t = [] ∨ ∃ d' rest, t = d' :: rest ∧ d' ∈ blanks
  := by
  rw [List.append_assoc, List.cons_append] at heq
  cases h with
  | toEnd hkey hd hpath =>
      left
      have htail := List.cons.inj (List.append_cancel_left heq)
      simpa using htail.2
  | toBlank hkey hd hpath hd' =>
      right
      have htail := List.cons.inj (List.append_cancel_left heq)
      exact ⟨_, _, (List.append_cancel_left htail.2).symm, hd'⟩

/-- The key and the path of a string without its last character are those of the row, when the
line is one that the loop handles. -/
theorem FitsLine.splits (h : FitsLine line) :
  hasBlank (cstr line).dropLast = true ∧
    ∀ key path, Splits (cstr line).dropLast key path → Splits (row line) key path
  := by
  rcases h.split with ⟨hend, hfree, hblank⟩ | htwo
  · have hrow : row line = line.dropLast := if_pos hend
    rw [cstr_of_free hfree, hrow]
    refine ⟨?_, fun _ _ hsplits => hsplits⟩
    have hne : line ≠ [] := by
      rintro rfl
      cases hend
    rw [List.getLast?_eq_some_getLast hne, Option.some_inj] at hend
    rw [← List.dropLast_append_getLast hne, hend] at hblank
    simpa [hasBlank, lf_not_blank] using hblank
  · have hne : cstr line ≠ [] := by
      intro hnil
      rw [hnil] at htwo
      cases htwo
    obtain ⟨s, c, u, hs, hcstr, -, hrow⟩ := line_cases hne
    rw [hs, hrow]
    rw [hcstr, List.countP_append] at htwo
    have hlast : [c].countP blanks.contains ≤ 1 := List.countP_le_length
    constructor
    · rw [hasBlank, List.any_eq_true]
      apply List.countP_pos_iff.mp
      omega
    · intro key path hsplits
      cases hsplits with
      | @toEnd key path d hkey hd hpath =>
          -- the last character is the second delimiter
          have hone : (key ++ d :: path).countP blanks.contains = 1 := by
            rw [List.countP_append, List.countP_cons, countP_free hkey, countP_free hpath]
            simp [hd]
          have hc : c ∈ blanks := by
            by_contra hc
            have hzero : [c].countP blanks.contains = 0 := by simp [hc]
            omega
          rcases row_cons c u with ⟨rfl, -, -⟩ | ⟨t, ht⟩
          · exact absurd hc lf_not_blank
          · rw [ht, List.append_assoc, List.cons_append]
            exact .toBlank hkey hd hpath hc
      | @toBlank key path rest d d' hkey hd hpath hd' =>
          rw [List.append_assoc, List.cons_append, List.append_assoc, List.cons_append]
          exact .toBlank hkey hd hpath hd'

/-- Conversely, when they are those of the row, the line is one that the loop handles. -/
theorem split_of_splits {path : List UInt8} (h : Splits (cstr line).dropLast key path)
    (hrow : Splits (row line) key path) :
  (line.getLast? = some lf ∧ (0 : UInt8) ∉ line ∧ hasBlank line = true) ∨
    2 ≤ (cstr line).countP blanks.contains
  := by
  have hne : cstr line ≠ [] := by
    intro hnil
    have hblank := h.hasBlank
    rw [hnil] at hblank
    cases hblank
  obtain ⟨s, c, u, hs, hcstr, hline, hrow'⟩ := line_cases hne
  rw [hs] at h
  rw [hrow'] at hrow
  have hzero := cstr_free line
  rw [hcstr] at hzero ⊢
  cases h with
  | @toEnd key path d hkey hd hpath =>
      by_cases hc : c ∈ blanks
      · right
        rw [List.countP_append, List.countP_append, List.countP_cons]
        simp [hd, hc]
        omega
      · left
        rcases row_cons c u with ⟨rfl, rfl, -⟩ | ⟨t, ht⟩
        · refine ⟨?_, ?_, ?_⟩
          · rw [hline]
            apply List.getLast?_concat
          · rw [hline]
            exact hzero
          · rw [hline]
            simp [hasBlank, hd]
        · -- otherwise the path of the row goes on with the last character
          rw [ht] at hrow
          rcases hrow.behind rfl with hnil | ⟨d', rest, heq, hd'⟩
          · cases hnil
          · cases heq
            exact absurd hd' hc
  | @toBlank key path rest d d' hkey hd hpath hd' =>
      right
      rw [List.countP_append, List.countP_append, List.countP_cons, List.countP_append,
        List.countP_cons]
      simp [hd, hd']
      omega

/-! ### The whole loop -/

variable {rows done : List (List UInt8)} {records : List Record}

/-- What `fgets` reads fits in a key. -/
theorem chunk_short (text : List UInt8) :
  ∀ chunk ∈ chunks (maxKeylen - 1) text.length text, chunk.length < maxKeylen
  := fun chunk hchunk => Nat.lt_of_le_pred (by decide) (chunk_length_le chunk hchunk)

/-- The record holds the key and the path that the loop makes of the line. -/
def Made (line : List UInt8) (r : Record) : Prop :=
  Splits (cstr line).dropLast r.key r.path

/-- Where the loop always has room and reaches the end of the text, it has made one record of each
row, and there are fewer than `2 ^ 30` of them. -/
theorem Room.made (hroom : Room l) (hshort : ∀ chunk ∈ rows, chunk.length < maxKeylen)
    (halways : Always (loadRow env) (fun s _ => s.nitems < s.capacity) l rows)
    (hfeed : feed (loadRow env) (fun s => some s.records) l rows = some records)
    (hdone : List.Forall₂ Made done l.records) :
  List.Forall₂ Made (done ++ rows) records ∧ records.length < 2 ^ 30
  := by
  induction rows generalizing l done with
  | nil =>
      cases hfeed
      rw [List.append_nil]
      exact ⟨hdone, hroom.nitems_lt.2.2⟩
  | cons chunk rows ih =>
      have hspec := loadRow_spec env hroom (hshort chunk (by simp))
      rw [feed_cons] at hfeed
      generalize hround : loadRow env l chunk = round at hspec hfeed
      cases hspec with
      | alone free => cases hfeed
      | refused splits neg => cases hfeed
      | @loaded r splits opened nonneg =>
          rw [Round.feed_again] at hfeed
          have hnext := halways.next hround
          rcases hroom.push r with hroom' | hexhausted
          · rw [List.append_cons]
            apply ih hroom' (fun c hc => hshort c (by simp [hc])) hnext hfeed
            exact List.rel_append hdone (.cons splits .nil)
          · exact absurd hnext.head (not_lt.mpr hexhausted.capacity.le)

/-- A further record is opened by the next call. -/
theorem Opened.push {r : Record} (h : Opened env l.records)
    (hopened : r.fildes = env.opens l.records.length r.path) :
  Opened env (l.push r).records
  := by
  intro i hi
  simp only [Loading.push, List.length_append, List.length_singleton] at hi ⊢
  by_cases hlt : i < l.records.length
  · rw [List.getElem_append_left hlt]
    exact h i hlt
  · have heq : i = l.records.length := by omega
    subst heq
    simpa using hopened

/-- On rows that it handles and whose files can be opened, the loop always has room and makes one
record of each row. -/
theorem Room.builds (hroom : Room l) (hfits : ∀ line ∈ rows, FitsLine line)
    (hfew : l.records.length + rows.length < 2 ^ 30)
    (hopens : ∀ line ∈ rows, ∀ key path, Splits (row line) key path → ∀ i, 0 ≤ env.opens i path)
    (hopened : Opened env l.records)
    (hdone : List.Forall₂ (fun line r => Splits (row line) r.key r.path) done l.records) :
  (∃ records, feed (loadRow env) (fun s => some s.records) l rows = some records ∧
    Opened env records ∧
    List.Forall₂ (fun line r => Splits (row line) r.key r.path) (done ++ rows) records) ∧
  Always (loadRow env) (fun s _ => s.nitems < s.capacity) l rows
  := by
  induction rows generalizing l done with
  | nil =>
      rw [List.append_nil]
      exact ⟨⟨l.records, rfl, hopened, hdone⟩, hroom.nitems_lt.2.1⟩
  | cons line rows ih =>
      have hline := hfits line (by simp)
      obtain ⟨hblank, hsplits⟩ := hline.splits
      have hspec := loadRow_spec env hroom hline.short
      rw [feed_cons, always_cons]
      generalize loadRow env l line = round at hspec ⊢
      cases hspec with
      | alone free =>
          simp only [hasBlank, List.any_eq_true, List.contains_iff_mem] at hblank
          obtain ⟨c, hc, hmem⟩ := hblank
          exact absurd hmem (free c hc)
      | @refused key path splits neg =>
          have hnonneg := hopens line (by simp) key path (hsplits key path splits)
            l.records.length
          omega
      | @loaded r splits opened nonneg =>
          have hlength : (l.push r).records.length = l.records.length + 1 := by simp [Loading.push]
          rw [List.length_cons] at hfew
          rcases hroom.push r with hroom' | hexhausted
          · rw [Round.feed_again, Round.always_again, List.append_cons]
            obtain ⟨hrun, halways⟩ := ih hroom' (fun c hc => hfits c (by simp [hc])) (by omega)
              (fun c hc => hopens c (by simp [hc])) (hopened.push opened)
              (List.rel_append hdone (.cons (hsplits _ _ splits) .nil))
            exact ⟨hrun, hroom.nitems_lt.2.1, halways⟩
          · have hcount := hexhausted.count
            omega

/-- The loop builds the table exactly of the texts that it handles. -/
theorem loadTable_builds_iff (text : List UInt8) :
  Builds loadTable text ↔ FitsText text
  := by
  constructor
  · intro hbuilds
    obtain ⟨⟨records, hrun, -, hrecords⟩, halways⟩ :=
      hbuilds ⟨fun _ => .zero _, fun _ _ => 0⟩ (fun _ _ _ _ _ _ => le_rfl)
    obtain ⟨hmade, hfew⟩ := room_start.made (chunk_short text) halways hrun .nil
    rw [List.nil_append] at hmade
    -- as many chunks as records, and no more records than lines
    have hcount := hmade.length_eq
    have hcount' := hrecords.length_eq
    have hfilter := List.length_filter_le hasBlank ((lines text).map row)
    rw [List.length_map] at hfilter
    obtain ⟨-, hfits⟩ := lines_le_chunks (n := maxKeylen - 1) (by decide) (le_refl text.length)
    have hlines := hfits (by omega)
    rw [chunks_eq_lines hlines le_rfl] at hmade hcount
    have hall : ((lines text).map row).filter hasBlank = (lines text).map row := by
      apply List.filter_eq_self.mpr
      apply List.length_filter_eq_length_iff.mp
      rw [List.length_map]
      omega
    rw [hall, List.forall₂_map_left_iff] at hrecords
    constructor
    · omega
    · intro line hline
      obtain ⟨i, hi, rfl⟩ := List.getElem_of_mem hline
      rw [List.forall₂_iff_get] at hmade hrecords
      exact ⟨Nat.lt_of_le_pred (by decide) (hlines _ hline),
        split_of_splits (hmade.2 i hi (by omega)) (hrecords.2 i hi (by omega))⟩
  · rintro ⟨hfew, hfits⟩ env hopens
    have hchunks : chunks (maxKeylen - 1) text.length text = lines text := by
      apply chunks_eq_lines _ le_rfl
      intro line hline
      exact Nat.le_pred_of_lt (hfits line hline).short
    have hall : ((lines text).map row).filter hasBlank = (lines text).map row := by
      rw [List.filter_eq_self]
      intro row hrow
      obtain ⟨line, hline, rfl⟩ := List.mem_map.mp hrow
      obtain ⟨hblank, hsplits⟩ := (hfits line hline).splits
      obtain ⟨key, path, hsplit⟩ := exists_splits hblank
      exact (hsplits key path hsplit).hasBlank
    obtain ⟨⟨records, hrun, hopened, hrecords⟩, halways⟩ := room_start.builds hfits
      (by simpa [Loading.start] using hfew) hopens (by intro i hi; cases hi) .nil
    rw [loadTable, hchunks, hall]
    exact ⟨⟨records, hrun, hopened, List.forall₂_map_left_iff.mpr hrecords⟩, halways⟩

/-- For every text of a content file: `content_init` builds exactly one record of each row that
has a delimiter, with its key and its path, and always has room for the next item, if and only if
there are fewer than `2 ^ 30` rows and each of them fits in a key, has a delimiter, and either
ends with a line feed and has no zero or has a second delimiter before the first zero. The same
holds of `simplecache_init`. -/
theorem contentInit_builds_iff (text : List UInt8) :
  (Builds contentInit text ↔ FitsText text) ∧ (Builds simplecacheInit text ↔ FitsText text)
  := ⟨loadTable_builds_iff text, loadTable_builds_iff text⟩

/-- The last row has no line feed, and its path loses the last character. -/
theorem contentInit_unendedRow :
  ¬ Builds contentInit (ascii "/a x\n/b yy") ∧ ¬ Builds simplecacheInit (ascii "/a x\n/b yy")
  := by
  have hnot : ¬ Builds loadTable (ascii "/a x\n/b yy") := by
    intro h
    obtain ⟨⟨records, hrun, -, hrecords⟩, -⟩ :=
      h ⟨fun _ => .zero _, fun _ _ => 3⟩ (fun _ _ _ _ _ _ => Int.le.intro 3 rfl)
    have hload : loadTable ⟨fun _ => .zero _, fun _ _ => 3⟩ (ascii "/a x\n/b yy") =
        some [⟨⟨3, ascii "/a"⟩, ascii "x"⟩, ⟨⟨3, ascii "/b"⟩, ascii "y"⟩] := by
      decide +kernel
    have hrows : ((lines (ascii "/a x\n/b yy")).map row).filter hasBlank =
        [ascii "/a x", ascii "/b yy"] := by
      decide
    rw [hload] at hrun
    cases hrun
    rw [hrows, List.forall₂_cons, List.forall₂_cons] at hrecords
    have hsplits : Splits (ascii "/b yy") (ascii "/b") (ascii "y") := hrecords.2.1
    rcases hsplits.behind (d := space) (t := ascii "y") (by decide) with hnil | ⟨d', rest, heq, hd'⟩
    · cases hnil
    · cases heq
      revert hd'
      decide
  exact ⟨hnot, hnot⟩

/-! ### The table that the search meets -/

/-- The items are counted, and their files are open. -/
structure Counted (l : Loading) : Prop where
  room : Room l ∨ Exhausted l
  fildes : ∀ r ∈ l.records, 0 ≤ r.fildes

theorem Counted.length_le (h : Counted l) :
  l.records.length ≤ 2 ^ 30
  := by
  rcases h.room with hroom | hexhausted
  · exact hroom.nitems_lt.2.2.le
  · exact hexhausted.count.le

/-- Every round goes on with items that are counted, or leaves without a result. -/
theorem Counted.round (env : Surroundings) (h : Counted l) (hshort : chunk.length < maxKeylen) :
  (∃ l', loadRow env l chunk = .again l' ∧ Counted l') ∨ loadRow env l chunk = .leave none
  := by
  rcases h.room with hroom | hexhausted
  · have hspec := loadRow_spec env hroom hshort
    generalize loadRow env l chunk = round at hspec ⊢
    cases hspec with
    | alone free => exact .inr rfl
    | refused splits neg => exact .inr rfl
    | @loaded r splits opened nonneg =>
        left
        refine ⟨_, rfl, hroom.push r, fun r' hr' => ?_⟩
        rcases List.mem_append.mp hr' with hr' | hr'
        · exact h.fildes r' hr'
        · rw [List.mem_singleton.mp hr']
          exact nonneg
  · right
    rw [loadRow, if_neg]
    rintro ⟨-, hlt⟩
    exact absurd hlt (not_lt.mpr hexhausted.capacity.le)

theorem Counted.loaded (h : Counted l) (hshort : ∀ chunk ∈ rows, chunk.length < maxKeylen)
    (hfeed : feed (loadRow env) (fun s => some s.records) l rows = some records) :
  Loaded (records.map Record.toItem)
  := by
  induction rows generalizing l with
  | nil =>
      cases hfeed
      have hlength := h.length_le
      constructor
      · rw [List.length_map]
        omega
      · intro item hitem
        obtain ⟨r, hr, rfl⟩ := List.mem_map.mp hitem
        exact h.fildes r hr
  | cons chunk rows ih =>
      rcases h.round env (hshort chunk (by simp)) with ⟨l', hround, h'⟩ | hround
      · rw [feed_again hround] at hfeed
        exact ih h' (fun c hc => hshort c (by simp [hc])) hfeed
      · rw [feed_leave hround] at hfeed
        cases hfeed

/-- What `content_init` has loaded is a table that `content_get` can search once it is sorted. -/
theorem contentInit_loaded {text : List UInt8} (h : contentInit env text = some records) :
  Loaded (records.map Record.toItem)
  := by
  have hstart : Counted .start := ⟨.inl room_start, by simp [Loading.start]⟩
  exact hstart.loaded (chunk_short text) h

end GetFile.Server
