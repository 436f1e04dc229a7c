import GetFile.Shm.Channel
import GetFile.Steque.Nodes
import Mathlib.Data.List.Rotate

/-!
# Shared memory: finding a segment

`find_segment` takes the front of the queue and cycles the queue until it sees the index, but
never counts its rounds. On a queue that is not empty it ends exactly when some segment has the
index (`findsSegment_iff`).
-/

namespace GetFile.Shm

open CString Heap List

variable {ι : Type*} [DecidableEq ι]

/-- The loop of `find_segment` with the counter `i`, as long as `steque_cycle` is called at most
the given number of times: `found`, `seg` and the queue. A round leaves `i` as it is. -/
def findSegment (numSegments index i : ℤ) :
    ℕ → Option SegmentItem → StequeT ι SegmentItem →
      Option (ℤ × Option SegmentItem × StequeT ι SegmentItem)
  | 0, seg, this => if i < numSegments then none else some (0, seg, this)
  | rounds + 1, seg, this =>
    if i < numSegments then
      this.frontItem.bind fun seg =>
        this.cycle.bind fun this =>
          if seg.segmentIndex = index then some (1, some seg, this)
          else findSegment numSegments index i rounds (some seg) this
    else some (0, seg, this)

/-- On a queue of these items, which are as many as there are segments, `find_segment` returns
after at most as many calls of `steque_cycle`. It finds an item with the index if there is one and
finds nothing otherwise, and leaves the queue a rotation of what it was. -/
def FindsSegment (index : ℤ) (this : StequeT ι SegmentItem) (items : Steque SegmentItem) : Prop :=
  ∃ found seg this', findSegment items.length index 0 items.length none this
      = some (found, seg, this') ∧
    ((∃ item ∈ items, item.segmentIndex = index) →
      found = 1 ∧ ∃ item ∈ items, seg = some item ∧ item.segmentIndex = index) ∧
    ((∀ item ∈ items, item.segmentIndex ≠ index) → found = 0) ∧
    ∃ items', Tracks this' items' ∧ items.IsRotated items'

variable {this : StequeT ι SegmentItem} {items : Steque SegmentItem} {index : ℤ}

/-- A round with a segment that has another index goes on with the queue cycled. -/
theorem findSegment_ne {n i : ℤ} {item : SegmentItem} (h : Tracks this (item :: items))
    (hi : i < n) (hne : item.segmentIndex ≠ index) (rounds : ℕ) (seg : Option SegmentItem) :
  ∃ this', Tracks this' (items ++ [item]) ∧
    findSegment n index i (rounds + 1) seg this = findSegment n index i rounds (some item) this'
  := by
  obtain ⟨this', hcycle, htracks⟩ := h.cycle
  refine ⟨this', htracks, ?_⟩
  rw [findSegment, if_pos hi, h.frontItem, Option.bind_some, hcycle, Option.bind_some, if_neg hne]

/-- A round with a segment that has the index returns it, with the queue cycled. -/
theorem findSegment_eq {n i : ℤ} {item : SegmentItem} (h : Tracks this (item :: items))
    (hi : i < n) (heq : item.segmentIndex = index) (rounds : ℕ) (seg : Option SegmentItem) :
  ∃ this', Tracks this' (items ++ [item]) ∧
    findSegment n index i (rounds + 1) seg this = some (1, some item, this')
  := by
  obtain ⟨this', hcycle, htracks⟩ := h.cycle
  refine ⟨this', htracks, ?_⟩
  rw [findSegment, if_pos hi, h.frontItem, Option.bind_some, hcycle, Option.bind_some, if_pos heq]

/-- The first segment with the index is found behind those before it. -/
theorem findSegment_of_append {n i : ℤ} {rounds : ℕ} {before after : List SegmentItem}
    {item : SegmentItem} (h : Tracks this (before ++ item :: after)) (hi : i < n)
    (hne : ∀ x ∈ before, x.segmentIndex ≠ index) (heq : item.segmentIndex = index)
    (hrounds : before.length < rounds) (seg : Option SegmentItem) :
  ∃ this', Tracks this' (after ++ before ++ [item]) ∧
    findSegment n index i rounds seg this = some (1, some item, this')
  := by
  induction before generalizing after this seg rounds with
  | nil =>
      obtain ⟨rounds, rfl⟩ := Nat.exists_eq_succ_of_ne_zero (Nat.ne_of_gt hrounds)
      rw [List.append_nil]
      exact findSegment_eq h hi heq rounds seg
  | cons x before ih =>
      obtain ⟨rounds, rfl⟩ :=
        Nat.exists_eq_succ_of_ne_zero (Nat.ne_of_gt (Nat.zero_lt_of_lt hrounds))
      rw [List.cons_append] at h
      obtain ⟨this₁, htracks₁, hround⟩ :=
        findSegment_ne h hi (hne x List.mem_cons_self) rounds seg
      rw [List.append_assoc, List.cons_append] at htracks₁
      obtain ⟨this', htracks', hfound⟩ := ih htracks₁ (fun y hy => hne y (List.mem_cons_of_mem x hy))
        (Nat.lt_of_succ_lt_succ hrounds) (some x)
      refine ⟨this', ?_, hround.trans hfound⟩
      rw [List.append_assoc, List.append_assoc] at htracks'
      rw [List.append_assoc]
      exact htracks'

/-- A segment with the index is found where there is one, and the queue is left rotated. -/
theorem findSegment_of_mem {n i : ℤ} {rounds : ℕ} (h : Tracks this items) (hi : i < n)
    (hmem : ∃ item ∈ items, item.segmentIndex = index) (hrounds : items.length ≤ rounds)
    (seg : Option SegmentItem) :
  ∃ item ∈ items, item.segmentIndex = index ∧ ∃ this' items',
    findSegment n index i rounds seg this = some (1, some item, this') ∧
    Tracks this' items' ∧ items.IsRotated items'
  := by
  obtain ⟨item, hitem⟩ := Option.isSome_iff_exists.mp (List.find?_isSome.mpr
    (by simpa using hmem : ∃ x ∈ items, decide (x.segmentIndex = index) = true))
  obtain ⟨heq, before, after, rfl, hbefore⟩ := List.find?_eq_some_iff_append.mp hitem
  have heq : item.segmentIndex = index := by simpa using heq
  have hlength : before.length < rounds := by
    rw [List.length_append, List.length_cons] at hrounds
    omega
  obtain ⟨this', htracks, hfound⟩ :=
    findSegment_of_append h hi (fun x hx => by simpa using hbefore x hx) heq hlength seg
  refine ⟨item, by simp, heq, this', after ++ before ++ [item], hfound, htracks, ?_⟩
  rw [List.append_cons, List.append_assoc after]
  exact List.isRotated_append

/-- Without a segment of the index the loop does not end. -/
theorem findSegment_absent {n i : ℤ} {seg : Option SegmentItem} (h : Tracks this items)
    (hi : i < n) (hne : ∀ x ∈ items, x.segmentIndex ≠ index) (hitems : items ≠ []) (rounds : ℕ) :
  findSegment n index i rounds seg this = none
  := by
  induction rounds generalizing this items seg with
  | zero => rw [findSegment, if_pos hi]
  | succ rounds ih =>
      cases items with
      | nil => exact absurd rfl hitems
      | cons x items =>
          obtain ⟨this', htracks, hround⟩ :=
            findSegment_ne h hi (hne x List.mem_cons_self) rounds seg
          rw [hround]
          apply ih htracks
          · intro y hy
            apply hne y
            rw [List.mem_append, List.mem_singleton] at hy
            rw [List.mem_cons]
            exact hy.symm
          · exact List.append_ne_nil_of_right_ne_nil _ (List.cons_ne_nil x [])

/-- `find_segment` does its work exactly on an empty queue and where some segment has the index;
otherwise it never returns. -/
theorem findsSegment_iff (h : Tracks this items) (index : ℤ) :
  FindsSegment index this items ↔
    items = [] ∨ ∃ item ∈ items, item.segmentIndex = index
  := by
  constructor
  · rintro ⟨found, seg, this', hfind, -⟩
    by_contra hnot
    rw [not_or] at hnot
    obtain ⟨hitems, habsent⟩ := hnot
    push Not at habsent
    have hpos : (0 : ℤ) < items.length := by
      have := List.length_pos_iff.mpr hitems
      omega
    rw [findSegment_absent h hpos habsent hitems] at hfind
    cases hfind
  · rintro (rfl | hsome)
    · refine ⟨0, none, this, rfl, ?_, fun _ => rfl, [], h, List.IsRotated.refl []⟩
      rintro ⟨item, hitem, -⟩
      cases hitem
    · have hpos : (0 : ℤ) < items.length := by
        obtain ⟨item, hitem, -⟩ := hsome
        have := List.length_pos_of_mem hitem
        omega
      obtain ⟨item, hitem, heq, this', items', hfound, htracks, hrotated⟩ :=
        findSegment_of_mem h hpos hsome le_rfl none
      refine ⟨1, some item, this', hfound, ?_, ?_, items', htracks, hrotated⟩
      · intro _
        exact ⟨rfl, item, hitem, rfl, heq⟩
      · intro habsent
        exact absurd heq (habsent item hitem)

/-- In a queue of the segments with the indices below `n`, the index is found exactly when the
lookup in one step, which the threads of the cache are modelled with, finds it. -/
theorem exists_segmentIndex_iff {n : ℕ}
    (hitems : items.map SegmentItem.segmentIndex ~ (List.range n).map Nat.cast) :
  (∃ item ∈ items, item.segmentIndex = index) ↔ ∃ i, Cache.findSegment n index = some i
  := by
  have hmem : (∃ item ∈ items, item.segmentIndex = index) ↔
      index ∈ items.map SegmentItem.segmentIndex := by
    rw [List.mem_map]
  rw [hmem, hitems.mem_iff, List.mem_map, Cache.findSegment]
  constructor
  · rintro ⟨i, hi, rfl⟩
    rw [List.mem_range] at hi
    rw [dif_pos ⟨by omega, by omega⟩]
    exact ⟨_, rfl⟩
  · rintro ⟨i, hi⟩
    split at hi
    · rename_i hrange
      refine ⟨index.toNat, ?_, Int.toNat_of_nonneg hrange.1⟩
      rw [List.mem_range]
      omega
    · cases hi

/-- A segment for the index `i`. -/
def segmentOf (i : ℤ) : SegmentItem where
  segmentIndex := i
  segmentId := []
  mqDataTx := 0
  mqDataRx := 0
  mqDataTxStr := []
  mqDataRxStr := []

/-- A queue of the segments for the indices one and zero. -/
def twoSegments : StequeT ℕ SegmentItem :=
  ((⟨none, none, 0, fun _ => none⟩ : StequeT ℕ SegmentItem).push 7 (segmentOf 0)).push 8
    (segmentOf 1)

theorem tracks_twoSegments :
  Tracks twoSegments [segmentOf 1, segmentOf 0]
  := by
  apply Tracks.push
  · apply Tracks.push (Tracks.init ⟨none, none, 0, fun _ => none⟩)
    rfl
  · rfl

theorem findsSegment_iff_twoSegments :
  FindsSegment 0 twoSegments [segmentOf 1, segmentOf 0] ↔
    [segmentOf 1, segmentOf 0] = [] ∨
      ∃ item ∈ [segmentOf 1, segmentOf 0], item.segmentIndex = 0
  := findsSegment_iff tracks_twoSegments 0

/-- Asked for the index two in a queue of the indices one and zero, `find_segment` does not
return. -/
theorem not_findsSegment :
  Tracks twoSegments [segmentOf 1, segmentOf 0] ∧
    ¬ FindsSegment 2 twoSegments [segmentOf 1, segmentOf 0]
  := by
  refine ⟨tracks_twoSegments, ?_⟩
  rintro ⟨found, seg, this', hfind, -⟩
  rw [findSegment_absent tracks_twoSegments (by decide) (by decide) (by decide)] at hfind
  cases hfind

end GetFile.Shm
