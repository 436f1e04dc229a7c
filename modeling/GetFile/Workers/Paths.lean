import GetFile.CString.Int
import GetFile.CString.Scanf
import GetFile.CString.Strsep
import Mathlib.Data.List.Infix
import Mathlib.Order.Interval.Finset.Nat

/-!
# The paths of the workload

`workload_init` reads the tokens of the workload file into an array, and `workload_get_path` hands
them out in turn. The array has a fixed length, the number of its elements that are in use is an
`unsigned short`, and the counter is an `int` that wraps around (`rotation_iff`).
-/

namespace GetFile.Workload

open CString

/-- The length of `gWorkloadPathArray`. -/
def maxPaths : ℕ := 100

/-- The size of `temp_buf`. -/
def tempBufSize : ℕ := 256

def exitSuccess : ℤ := 0

def exitFailure : ℤ := 1

/-- `WORKLOAD_SEQ` and `WORKLOAD_RND`. -/
inductive Mode where
  | seq
  | rnd

/-- The array, each element of which is `NULL` or points to a string. -/
abbrev PathArray : Type :=
  Fin maxPaths → Option (List UInt8)

/-- The static variables. -/
structure State where
  gWorkloadPathArray : PathArray
  gUniqueWorkloadPaths : ℕ
  counter : ℤ
  mode : Mode

/-- The static variables when the program starts. -/
def State.start : State :=
  ⟨fun _ => none, 0, 0, .seq⟩

/-- The loop of `workload_init` from the index `i` on, for at most the given number of rounds, with
the index behind it. There is no result when a token does not fit into `temp_buf` or a path is
stored behind the array. -/
def readPaths : ℕ → ℕ → PathArray → List UInt8 → Option (ℕ × PathArray)
  | 0, _, _, _ => none
  | rounds + 1, i, paths, text =>
    match scanString text with
    | none => some (i, paths)
    | some (word, rest) =>
      if h : word.length < tempBufSize ∧ i < maxPaths then
        readPaths rounds (i + 1) (Function.update paths ⟨i, h.2⟩ (some (cstr word))) rest
      else none

/-- `workload_init` for a file with the given text, or for none that can be opened. Each round but
the last reads a byte. -/
def workloadInit (file : Option (List UInt8)) (w : State) : Option (ℤ × State) :=
  match file with
  | none => some (exitFailure, w)
  | some text =>
    (readPaths (text.length + 1) 0 w.gWorkloadPathArray text).map fun x =>
      (exitSuccess, { w with gWorkloadPathArray := x.2, gUniqueWorkloadPaths := x.1 % 2 ^ 16 })

/-- An index into the array and the element there. -/
structure Access where
  index : ℤ
  path : Option (List UInt8)

/-- `gWorkloadPathArray[index]`. There is no result outside of the array. -/
def State.access (w : State) (index : ℤ) : Option Access :=
  if h : 0 ≤ index ∧ index.toNat < maxPaths then
    some ⟨index, w.gWorkloadPathArray ⟨index.toNat, h.2⟩⟩
  else none

/-- `workload_get_path`, when `rand()` returns the given number. There is no result when the
counter is divided by zero. -/
def workloadGetPath (rand : ℕ) (w : State) : Option (Access × State) :=
  match w.mode with
  | .rnd => (w.access (w.gUniqueWorkloadPaths * rand / 2 ^ 31 : ℕ)).map fun a => (a, w)
  | .seq =>
    let w := { w with counter := asInt (w.counter + 1) }
    if w.gUniqueWorkloadPaths = 0 then none
    else (w.access (w.counter.tmod w.gUniqueWorkloadPaths)).map fun a => (a, w)

/-- So many calls of `workload_get_path` one after the other, with their accesses. -/
def getPaths (rand : ℕ → ℕ) : ℕ → State → Option (List Access × State)
  | 0, w => some ([], w)
  | m + 1, w =>
    (getPaths rand m w).bind fun x =>
      (workloadGetPath (rand m) x.2).map fun y => (x.1 ++ [y.1], y.2)

/-! ### Filling the array -/

variable {ts : List (List UInt8)} {text : List UInt8} {paths : PathArray} {w w' : State}
  {rand : ℕ → ℕ} {accesses : List Access}

/-- The tokens stand in the array from the index `i` on, each up to its first zero. -/
def Stored (ts : List (List UInt8)) (i : ℕ) (paths : PathArray) : Prop :=
  ∀ k (hk : k < ts.length) (hi : i + k < maxPaths), paths ⟨i + k, hi⟩ = some (cstr ts[k])

/-- Within as many rounds as the text has bytes, and one more for the end of the file, the loop
stores the tokens if there is room for them, and does not touch the elements before. -/
theorem readPaths_spec {rounds i : ℕ} (hrounds : text.length < rounds)
    (hshort : ∀ t ∈ tokens text, t.length < tempBufSize)
    (hroom : i + (tokens text).length ≤ maxPaths) :
  ∃ paths', readPaths rounds i paths text = some (i + (tokens text).length, paths') ∧
    Stored (tokens text) i paths' ∧ ∀ j : Fin maxPaths, j < i → paths' j = paths j
  := by
  induction rounds generalizing i paths text with
  | zero => cases hrounds
  | succ rounds ih =>
      have hspec := scanString_spec text
      rw [readPaths]
      generalize scanString text = scanned at hspec ⊢
      cases hspec with
      | nothing empty =>
          rw [empty]
          exact ⟨paths, rfl, fun k hk => absurd hk (Nat.not_lt_zero k), fun j _ => rfl⟩
      | @token word rest split shorter =>
          rw [split, List.length_cons] at hroom ⊢
          rw [split] at hshort
          have hi : i < maxPaths := by omega
          obtain ⟨paths', hloop, hstored, hbefore⟩ :=
            @ih rest (Function.update paths ⟨i, hi⟩ (some (cstr word))) (i + 1) (by omega)
              (fun t ht => hshort t (List.mem_cons_of_mem _ ht)) (by omega)
          refine ⟨paths', ?_, ?_, ?_⟩
          · dsimp only
            rw [dif_pos ⟨hshort word List.mem_cons_self, hi⟩, hloop, Nat.add_right_comm,
              Nat.add_assoc]
          · intro k hk hik
            cases k with
            | zero =>
                rw [hbefore ⟨i + 0, hik⟩ (Nat.lt_succ_self i)]
                exact Function.update_self _ _ _
            | succ k =>
                have hnext := hstored k (Nat.lt_of_succ_lt_succ hk) (by omega)
                rw [List.getElem_cons_succ, ← hnext]
                congr 2
                omega
          · intro j hj
            rw [hbefore j (Nat.lt_succ_of_lt hj), Function.update_of_ne]
            rintro rfl
            exact Nat.lt_irrefl _ hj

/-- The loop stores a path behind the array when there are too many tokens. -/
theorem readPaths_eq_none {rounds i : ℕ} (hi : i ≤ maxPaths)
    (hmany : maxPaths < i + (tokens text).length) :
  readPaths rounds i paths text = none
  := by
  induction rounds generalizing i paths text with
  | zero => rfl
  | succ rounds ih =>
      have hspec := scanString_spec text
      rw [readPaths]
      generalize scanString text = scanned at hspec ⊢
      cases hspec with
      | nothing empty =>
          rw [empty, List.length_nil] at hmany
          omega
      | @token word rest split shorter =>
          rw [split, List.length_cons] at hmany
          dsimp only
          split
          · rename_i hfits
            apply ih
            · exact hfits.2
            · omega
          · rfl

/-- The array holds the tokens, and they are handed out one after the other. -/
structure Loaded (ts : List (List UInt8)) (w : State) : Prop where
  length : ts.length ≤ maxPaths
  stored : Stored ts 0 w.gWorkloadPathArray
  unique : w.gUniqueWorkloadPaths = ts.length
  mode : w.mode = .seq

/-- `workload_init` succeeds when there is room for all tokens. -/
theorem exists_workloadInit (hshort : ∀ t ∈ tokens text, t.length < tempBufSize)
    (hroom : (tokens text).length ≤ maxPaths) :
  ∃ w, workloadInit (some text) .start = some (exitSuccess, w) ∧ Loaded (tokens text) w ∧
    w.counter = 0
  := by
  obtain ⟨paths, hloop, hstored, -⟩ :=
    @readPaths_spec text State.start.gWorkloadPathArray (text.length + 1) 0 (Nat.lt_succ_self _)
      hshort (by omega)
  rw [Nat.zero_add] at hloop
  have hshortInt : (tokens text).length < 2 ^ 16 := lt_of_le_of_lt hroom (by decide)
  rw [workloadInit, hloop]
  exact ⟨_, rfl, ⟨hroom, hstored, Nat.mod_eq_of_lt hshortInt, rfl⟩, rfl⟩

/-- It succeeds only then. -/
theorem length_le_of_workloadInit {r : ℤ} (h : workloadInit (some text) .start = some (r, w)) :
  (tokens text).length ≤ maxPaths
  := by
  by_contra hmany
  rw [workloadInit, readPaths_eq_none (Nat.zero_le _) (by omega)] at h
  cases h

/-! ### The calls -/

/-- The access that a value of the counter leads to. -/
def accessAt (ts : List (List UInt8)) (counter : ℤ) : Access :=
  ⟨counter.tmod ts.length, ts[(counter.tmod ts.length).toNat]?.map cstr⟩

/-- The counter does not matter for the tokens in the array. -/
theorem Loaded.withCounter (h : Loaded ts w) (c : ℤ) :
  Loaded ts { w with counter := c }
  := ⟨h.length, h.stored, h.unique, h.mode⟩

/-- A call increments the counter, and reads the array if the remainder is not negative. -/
theorem Loaded.workloadGetPath (h : Loaded ts w) (hone : 1 ≤ ts.length) (rand : ℕ) :
  workloadGetPath rand w =
    if 0 ≤ (asInt (w.counter + 1)).tmod ts.length then
      some (accessAt ts (asInt (w.counter + 1)), { w with counter := asInt (w.counter + 1) })
    else none
  := by
  have hpos : 0 < (ts.length : ℤ) := by exact_mod_cast hone
  have hlt := Int.tmod_lt_of_pos (asInt (w.counter + 1)) hpos
  have hlength := h.length
  rw [Workload.workloadGetPath, h.mode]
  dsimp only
  rw [h.unique, if_neg (by omega), State.access, accessAt]
  generalize (asInt (w.counter + 1)).tmod ts.length = index at hlt
  by_cases hnonneg : 0 ≤ index
  · have hi : index.toNat < ts.length := by omega
    have hstored := h.stored index.toNat hi (by omega)
    simp only [Nat.zero_add] at hstored
    rw [if_pos hnonneg, dif_pos ⟨hnonneg, by omega⟩, hstored, List.getElem?_eq_getElem hi]
    rfl
  · rw [if_neg hnonneg, dif_neg fun hin => hnonneg hin.1]
    rfl

/-- The calls read one element after the other as long as no remainder is negative. -/
theorem Loaded.getPaths (h : Loaded ts w) (hone : 1 ≤ ts.length) (hcounter : w.counter = 0)
    {m : ℕ} (hnonneg : ∀ j ≤ m, 0 ≤ (asInt j).tmod ts.length) :
  getPaths rand m w =
    some ((List.range' 1 m).map fun (j : ℕ) => accessAt ts (asInt j), { w with counter := asInt m })
  := by
  induction m with
  | zero =>
      obtain ⟨paths, unique, counter, mode⟩ := w
      subst hcounter
      rfl
  | succ m ih =>
      have hlast := hnonneg (m + 1) le_rfl
      rw [Nat.cast_succ] at hlast
      rw [Workload.getPaths, ih fun j hj => hnonneg j (Nat.le_succ_of_le hj), Option.bind_some,
        (h.withCounter _).workloadGetPath hone]
      simp only [asInt_add]
      rw [if_pos hlast, Option.map_some, List.range'_concat, List.map_append, List.map_singleton,
        Nat.one_mul, Nat.add_comm 1 m, Nat.cast_succ]

/-- They have no result when a remainder is negative. -/
theorem Loaded.tmod_nonneg (h : Loaded ts w) (hone : 1 ≤ ts.length) (hcounter : w.counter = 0)
    {m : ℕ} (hcalls : Workload.getPaths rand m w = some (accesses, w')) :
  ∀ j ≤ m, 0 ≤ (asInt j).tmod ts.length
  := by
  induction m generalizing accesses w' with
  | zero =>
      intro j hj
      rw [Nat.le_zero.mp hj]
      exact le_of_eq (Int.zero_tmod _).symm
  | succ m ih =>
      rw [Workload.getPaths] at hcalls
      obtain ⟨⟨accesses₁, w₁⟩, hbefore, hlast⟩ := Option.bind_eq_some_iff.mp hcalls
      have hnonneg := ih hbefore
      rw [h.getPaths hone hcounter hnonneg, Option.some.injEq, Prod.mk.injEq] at hbefore
      obtain ⟨-, rfl⟩ := hbefore
      rw [(h.withCounter _).workloadGetPath hone] at hlast
      simp only [asInt_add] at hlast
      intro j hj
      rcases Nat.le_succ_iff.mp hj with hle | rfl
      · exact hnonneg j hle
      · by_contra hneg
        rw [Nat.cast_succ] at hneg
        rw [if_neg hneg] at hlast
        cases hlast

/-! ### The counter -/

/-- For `m` calls and `n` tokens the counter leads to an element in use: it stays in the range of
an `int`, or the remainder of what it wraps around to is not negative. -/
def CounterFits (n m : ℕ) : Prop :=
  m < 2 ^ 31 ∨ n = 1 ∨ m = 2 ^ 31 ∧ n ∣ 2 ^ 31

theorem tmod_asInt_of_lt {n j : ℕ} (hj : j < 2 ^ 31) :
  (asInt j).tmod n = (j % n : ℕ)
  := by
  rw [asInt_eq (by omega) (by omega), Int.ofNat_tmod]

/-- What the counter wraps around to. -/
theorem asInt_wrap :
  asInt (2 ^ 31 : ℕ) = -(2 ^ 31 : ℕ) ∧ asInt (2 ^ 31 + 1 : ℕ) = -(2 ^ 31 - 1 : ℕ)
  := by decide

/-- The remainder of a negative number is negative, unless it is divided. -/
theorem dvd_of_neg_tmod_nonneg {n a : ℕ} (h : 0 ≤ (-(a : ℤ)).tmod n) :
  n ∣ a
  := by
  rw [Int.neg_tmod, ← Int.ofNat_tmod] at h
  apply Nat.dvd_of_mod_eq_zero
  omega

/-- While the counter fits, the remainder is that of the number of the call. -/
theorem CounterFits.tmod_asInt {n m j : ℕ} (h : CounterFits n m) (hj : j ≤ m) :
  (asInt j).tmod n = (j % n : ℕ)
  := by
  rcases h with hsmall | rfl | ⟨rfl, hdvd⟩
  · apply tmod_asInt_of_lt
    omega
  · rw [Nat.mod_one]
    exact Int.tmod_one _
  · rcases Nat.lt_or_eq_of_le hj with hlt | rfl
    · apply tmod_asInt_of_lt hlt
    · rw [asInt_wrap.1, Int.neg_tmod, ← Int.ofNat_tmod, Nat.mod_eq_zero_of_dvd hdvd]
      rfl

/-- No remainder is negative exactly when the counter fits. -/
theorem tmod_nonneg_iff {n m : ℕ} :
  (∀ j ≤ m, 0 ≤ (asInt j).tmod n) ↔ CounterFits n m
  := by
  constructor
  · intro h
    rcases Nat.lt_or_ge m (2 ^ 31) with hsmall | hlarge
    · exact Or.inl hsmall
    have hwrap := h (2 ^ 31) hlarge
    rw [asInt_wrap.1] at hwrap
    have hdvd := dvd_of_neg_tmod_nonneg hwrap
    rcases Nat.eq_or_lt_of_le hlarge with rfl | hnext
    · exact Or.inr (Or.inr ⟨rfl, hdvd⟩)
    · have hwrap' := h (2 ^ 31 + 1) hnext
      rw [asInt_wrap.2] at hwrap'
      have hdvd' := dvd_of_neg_tmod_nonneg hwrap'
      have hone : n ∣ 2 ^ 31 - (2 ^ 31 - 1) := Nat.dvd_sub hdvd hdvd'
      exact Or.inr (Or.inl (Nat.dvd_one.mp hone))
  · intro hfits j hj
    rw [hfits.tmod_asInt hj]
    exact Int.natCast_nonneg _

/-! ### Rotation -/

/-- The accesses of calls that hand out the tokens in turn: each is to an element in use, the
`j`-th one returns the token with the number `j` modulo that of the tokens, and as many consecutive
ones as there are tokens return each token once. -/
structure Rotates (ts : List (List UInt8)) (accesses : List Access) : Prop where
  index : ∀ a ∈ accesses, 0 ≤ a.index ∧ a.index < ts.length ∧ a.index < maxPaths
  path : accesses.map Access.path = (List.range' 1 accesses.length).map fun j => ts[j % ts.length]?
  window : ∀ window, window <:+: accesses → window.length = ts.length →
    (window.map Access.path).Perm (ts.map some)

/-- `workload_init` succeeds, and so do `m` calls of `workload_get_path` behind it, which hand out
the tokens in turn. -/
def Rotation (text : List UInt8) (rand : ℕ → ℕ) (m : ℕ) : Prop :=
  ∃ w accesses w', workloadInit (some text) .start = some (exitSuccess, w) ∧
    getPaths rand m w = some (accesses, w') ∧ accesses.length = m ∧ Rotates (tokens text) accesses

/-- The remainders of consecutive numbers are those of a whole period. -/
theorem range'_mod_perm (a n : ℕ) :
  ((List.range' a n).map (· % n)).Perm (List.range n)
  := by
  have h := Nat.multiset_Ico_map_mod a n
  have hIco : Multiset.Ico a (a + n) = List.range' a n := by
    change ((List.range' a (a + n - a) : List ℕ) : Multiset ℕ) = _
    rw [Nat.add_sub_cancel_left]
  rw [hIco, Multiset.map_coe] at h
  exact Multiset.coe_eq_coe.mp h

/-- Reading a list at the remainders of as many consecutive numbers as it has elements gives each
element once. -/
theorem map_getElem?_mod_perm {α : Type*} (l : List α) (a : ℕ) :
  ((List.range' a l.length).map fun j => l[j % l.length]?).Perm (l.map some)
  := by
  have hperm := (range'_mod_perm a l.length).map fun i => l[i]?
  rw [List.map_map] at hperm
  have hrange : ((List.range l.length).map fun i => l[i]?) = l.map some := by
    apply List.ext_getElem
    · rw [List.length_map, List.length_map, List.length_range]
    · intro i _ hi
      rw [List.length_map] at hi
      rw [List.getElem_map, List.getElem_map, List.getElem_range, List.getElem?_eq_getElem hi]
  rw [← hrange]
  exact hperm

/-- A segment of a list that is made of consecutive numbers is made of consecutive numbers. -/
theorem eq_map_range'_of_infix {β : Type*} {f : ℕ → β} {l : List β} {a n : ℕ}
    (h : l <:+: (List.range' a n).map f) :
  ∃ b, l = (List.range' b l.length).map f
  := by
  obtain ⟨before, after, heq⟩ := h
  rw [List.append_assoc] at heq
  obtain ⟨l₁, l₂, hsplit, -, hrest⟩ := List.map_eq_append_iff.mp heq.symm
  obtain ⟨k, -, -, rfl⟩ := List.range'_eq_append_iff.mp hsplit
  obtain ⟨l₃, l₄, hsplit', hl, -⟩ := List.map_eq_append_iff.mp hrest
  obtain ⟨k', -, rfl, -⟩ := List.range'_eq_append_iff.mp hsplit'
  subst hl
  refine ⟨a + k * 1, ?_⟩
  rw [List.length_map, List.length_range']

/-- A string is what was read exactly when there is no zero in it. -/
theorem map_cstr_eq_self_iff {o : Option (List UInt8)} :
  o.map cstr = o ↔ ∀ t ∈ o, (0 : UInt8) ∉ t
  := by
  cases o with
  | none => simp
  | some t => simp [cstr_eq_self_iff]

/-- While the counter fits, a call reads the element with the number of the call. -/
theorem CounterFits.accessAt {m j : ℕ} (h : CounterFits ts.length m) (hj : j ≤ m) :
  accessAt ts (asInt j) = ⟨(j % ts.length : ℕ), ts[j % ts.length]?.map cstr⟩
  := by
  rw [Workload.accessAt, h.tmod_asInt hj, Int.toNat_natCast]

/-- While the counter fits, the calls return the tokens in turn, each up to its first zero. -/
theorem CounterFits.map_path {m : ℕ} (h : CounterFits ts.length m) :
  ((List.range' 1 m).map fun (j : ℕ) => Workload.accessAt ts (asInt j)).map Access.path =
    (List.range' 1 m).map fun j => ts[j % ts.length]?.map cstr
  := by
  rw [List.map_map]
  apply List.map_congr_left
  intro j hj
  have hle : j ≤ m := by
    have hmem := List.mem_range'_1.mp hj
    omega
  rw [Function.comp_apply, h.accessAt hle]

/-- When the calls return the tokens in turn, consecutive ones return each token once. -/
theorem perm_of_window {window : List Access}
    (hpath : accesses.map Access.path =
      (List.range' 1 accesses.length).map fun j => ts[j % ts.length]?)
    (hwindow : window <:+: accesses) (hlength : window.length = ts.length) :
  (window.map Access.path).Perm (ts.map some)
  := by
  have hinfix := hwindow.map Access.path
  rw [hpath] at hinfix
  obtain ⟨b, hb⟩ := eq_map_range'_of_infix hinfix
  rw [hb, List.length_map, hlength]
  apply map_getElem?_mod_perm

/-- The calls hand out the tokens in turn exactly when those that they hand out have no zero. -/
theorem CounterFits.rotates_iff {m : ℕ} (h : CounterFits ts.length m) (hone : 1 ≤ ts.length)
    (hroom : ts.length ≤ maxPaths) :
  Rotates ts ((List.range' 1 m).map fun (j : ℕ) => Workload.accessAt ts (asInt j)) ↔
    ∀ j, 1 ≤ j → j ≤ m → ∀ t ∈ ts[j % ts.length]?, (0 : UInt8) ∉ t
  := by
  have hlength :
      ((List.range' 1 m).map fun (j : ℕ) => Workload.accessAt ts (asInt j)).length = m := by
    rw [List.length_map, List.length_range']
  constructor
  · intro hrotates j hone hj
    have hpath := hrotates.path
    rw [h.map_path, hlength, List.map_inj_left] at hpath
    apply map_cstr_eq_self_iff.mp
    apply hpath j
    rw [List.mem_range'_1]
    omega
  · intro hfree
    have hpath : (List.range' 1 m).map (fun j => ts[j % ts.length]?.map cstr) =
        (List.range' 1 m).map fun j => ts[j % ts.length]? := by
      rw [List.map_inj_left]
      intro j hj
      rw [List.mem_range'_1] at hj
      exact map_cstr_eq_self_iff.mpr (hfree j hj.1 (by omega))
    rw [← h.map_path] at hpath
    constructor
    case index =>
      intro a ha
      obtain ⟨j, hj, rfl⟩ := List.mem_map.mp ha
      rw [List.mem_range'_1] at hj
      have hlt : j % ts.length < ts.length := Nat.mod_lt _ hone
      rw [h.accessAt (by omega)]
      dsimp only
      omega
    case path => rw [hpath, hlength]
    case window =>
      intro window hwindow hwindowLength
      apply perm_of_window _ hwindow hwindowLength
      rw [hpath, hlength]

/-- There is no rotation when the tokens do not fit into the array. -/
theorem Rotation.length_le {m : ℕ} (h : Rotation text rand m) :
  (tokens text).length ≤ 100
  := by
  obtain ⟨w, -, -, hinit, -⟩ := h
  exact length_le_of_workloadInit hinit

/-- For every text of at least one token, all of them shorter than 256 bytes, and every number of
calls: `workload_init` and the calls behind it succeed and hand out the tokens in turn exactly when
there are at most 100 tokens, the counter fits, and no token that is handed out has a zero. -/
theorem rotation_iff (hone : 1 ≤ (tokens text).length)
    (hshort : ∀ t ∈ tokens text, t.length < 256) (rand : ℕ → ℕ) (m : ℕ) :
  Rotation text rand m ↔
    (tokens text).length ≤ 100 ∧ CounterFits (tokens text).length m ∧
      ∀ j, 1 ≤ j → j ≤ m →
        ∀ t ∈ (tokens text)[j % (tokens text).length]?, (0 : UInt8) ∉ t
  := by
  constructor
  · intro h
    have hroom := h.length_le
    obtain ⟨w, hinit, hloaded, hcounter⟩ := exists_workloadInit hshort hroom
    obtain ⟨w₁, accesses, w', hinit', hcalls, -, hrotates⟩ := h
    rw [hinit, Option.some.injEq, Prod.mk.injEq, and_iff_right rfl] at hinit'
    subst hinit'
    have hnonneg := hloaded.tmod_nonneg hone hcounter hcalls
    have hfits := tmod_nonneg_iff.mp hnonneg
    rw [hloaded.getPaths hone hcounter hnonneg, Option.some.injEq, Prod.mk.injEq] at hcalls
    obtain ⟨rfl, -⟩ := hcalls
    exact ⟨hroom, hfits, (hfits.rotates_iff hone hroom).mp hrotates⟩
  · rintro ⟨hroom, hfits, hfree⟩
    obtain ⟨w, hinit, hloaded, hcounter⟩ := exists_workloadInit hshort hroom
    have hcalls := @Loaded.getPaths _ _ rand hloaded hone hcounter m (tmod_nonneg_iff.mpr hfits)
    refine ⟨w, _, _, hinit, hcalls, ?_, (hfits.rotates_iff hone hroom).mpr hfree⟩
    rw [List.length_map, List.length_range']

theorem rotation_iff_twoTokens :
  Rotation (ascii "/a\n/b\n") (fun _ => 0) 3 ↔
    (tokens (ascii "/a\n/b\n")).length ≤ 100 ∧
      CounterFits (tokens (ascii "/a\n/b\n")).length 3 ∧
      ∀ j, 1 ≤ j → j ≤ 3 →
        ∀ t ∈ (tokens (ascii "/a\n/b\n"))[j % (tokens (ascii "/a\n/b\n")).length]?,
          (0 : UInt8) ∉ t
  := rotation_iff (by decide) (by decide) _ _

/-- A text of 101 tokens. -/
def manyTokens : List UInt8 :=
  (List.replicate 101 (ascii "/a\n")).flatten

/-- The token with the number 100 is stored behind the array. -/
theorem not_rotation :
  (1 ≤ (tokens manyTokens).length ∧ ∀ t ∈ tokens manyTokens, t.length < 256) ∧
    ¬ Rotation manyTokens (fun _ => 0) 1
  := by
  have htokens : tokens manyTokens = List.replicate 101 (ascii "/a") := by
    decide +kernel
  refine ⟨?_, ?_⟩
  · rw [htokens]
    decide
  · intro h
    have hle := h.length_le
    rw [htokens, List.length_replicate] at hle
    omega

end GetFile.Workload
