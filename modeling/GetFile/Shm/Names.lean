import GetFile.Shm.CleanUp
import Mathlib.Data.List.Nodup

/-!
# Shared memory: the queues of the proxy and of the cache

The proxy and the cache call `shm_create_segments` each on its own, and find each other by the
names alone. What one of them sends to is what the other receives from, and otherwise no two names
are the same. Both hold as long as the printed indices fit into their array, which has no room for
ten digits (`crossConnected_iff`).
-/

namespace GetFile.Shm

open CString

/-! ### Names of one index -/

/-- The indices that fit into their array. -/
theorem prints_iff {i : ℕ} :
  Prints i ↔ i < 10 ^ 9
  := by
  rw [Prints, maxSeg, Nat.succ_le_succ_iff]
  apply length_decimal_le_iff
  decide

/-- A name has one prefix and one index. -/
theorem append_decimal_inj {pre pre' : List UInt8} {i j : ℕ} (hpre : pre ∈ prefixes)
    (hpre' : pre' ∈ prefixes) (h : pre ++ decimal i = pre' ++ decimal j) :
  pre = pre' ∧ i = j
  := by
  have hlen : pre.length = pre'.length := by
    rw [length_of_mem_prefixes hpre, length_of_mem_prefixes hpre']
  obtain ⟨heq, hdecimal⟩ := List.append_inj h hlen
  exact ⟨heq, decimal_injective hdecimal⟩

/-- The name of the object and the names of the message queues of a segment. -/
def SegmentItem.names (item : SegmentItem) : List (List UInt8) :=
  item.segmentId :: item.mqNames

variable {proxy proxy' : Bool} {mqd mqd' i j : ℕ}

/-- In either role, a segment has the name of each prefix with its index. -/
theorem names_segmentItem :
  (segmentItem proxy mqd i).names.Perm (prefixes.map (· ++ decimal i))
  := by
  cases proxy with
  | true => exact List.Perm.refl _
  | false =>
      apply List.Perm.cons
      apply List.Perm.swap

/-- The names of a segment are different from each other. -/
theorem nodup_names_segmentItem :
  (segmentItem proxy mqd i).names.Nodup
  := by
  rw [names_segmentItem.nodup_iff]
  apply List.Nodup.map_on
  · intro pre hpre pre' hpre' heq
    exact (append_decimal_inj hpre hpre' heq).1
  · decide

/-- Segments with different indices have no name in common, whoever has created them. -/
theorem disjoint_names_segmentItem (hne : i ≠ j) :
  (segmentItem proxy mqd i).names.Disjoint (segmentItem proxy' mqd' j).names
  := by
  intro name hi hj
  rw [names_segmentItem.mem_iff, List.mem_map] at hi hj
  obtain ⟨pre, hpre, rfl⟩ := hi
  obtain ⟨pre', hpre', heq⟩ := hj
  exact hne (append_decimal_inj hpre' hpre heq).2.symm

/-! ### Names of a queue -/

variable {n : ℕ} {s s' s₁ s₂ : Ipc} {queue cache : Steque SegmentItem}

/-- All names of a queue are different. -/
theorem Created.nodup_names (h : Created proxy n s queue s₁) :
  (queue.flatMap SegmentItem.names).Nodup
  := by
  rw [h.items, ((List.reverse_perm _).flatMap_right _).nodup_iff, List.flatMap_map,
    List.nodup_flatMap]
  constructor
  · intro i _
    apply nodup_names_segmentItem
  · apply List.nodup_range.imp
    intro i j hne
    apply disjoint_names_segmentItem hne

/-- The segments can be created when all their indices fit. -/
theorem exists_shmCreateSegments {n : ℤ} (hprints : ∀ i < n.toNat, Prints i) (proxy : Bool)
    (s : Ipc) :
  ∃ queue s₁, shmCreateSegments n proxy s = some (queue, s₁)
  := by
  unfold shmCreateSegments
  generalize n.toNat = m at hprints
  induction m with
  | zero => exact ⟨_, _, rfl⟩
  | succ m ih =>
      obtain ⟨queue, s₁, hbefore⟩ := ih fun i hi => hprints i (Nat.lt_succ_of_lt hi)
      obtain ⟨⟨item, s₂⟩, hround⟩ : ∃ x, shmCreateSegment proxy m s₁ = some x :=
        ⟨_, shmCreateSegment_eq_some.mpr ⟨hprints m (Nat.lt_succ_self m), rfl, rfl⟩⟩
      refine ⟨queue.push item, s₂, ?_⟩
      rw [List.range_succ, List.foldlM_append, hbefore, Option.bind_eq_bind, Option.bind_some,
        List.foldlM_cons, hround]
      rfl

/-! ### The two queues -/

/-- The queue has one segment for each index below `n`, and all its names are different. -/
structure Complete (n : ℤ) (queue : Steque SegmentItem) : Prop where
  indices : (queue.map SegmentItem.segmentIndex).Perm ((List.range n.toNat).map Nat.cast)
  nodup : (queue.flatMap SegmentItem.names).Nodup

/-- What one item sends to the other receives from, and they have the same object. -/
structure Crossed (item item' : SegmentItem) : Prop where
  tx : item.mqDataTxStr = item'.mqDataRxStr
  rx : item.mqDataRxStr = item'.mqDataTxStr
  segmentId : item.segmentId = item'.segmentId

/-- The segments of the two queues with the same index are connected, and those with different
indices have no name in common. -/
structure Connected (queue cache : Steque SegmentItem) : Prop where
  same : ∀ item ∈ queue, ∀ item' ∈ cache, item.segmentIndex = item'.segmentIndex →
    Crossed item item'
  different : ∀ item ∈ queue, ∀ item' ∈ cache, item.segmentIndex ≠ item'.segmentIndex →
    item.names.Disjoint item'.names

/-- The proxy and the cache create `n` segments, each for its own system, and their queues are
complete and connected. -/
def CrossConnected (n : ℤ) (s s' : Ipc) : Prop :=
  ∃ queue s₁ cache s₂, shmCreateSegments n true s = some (queue, s₁) ∧
    shmCreateSegments n false s' = some (cache, s₂) ∧ Complete n queue ∧ Complete n cache ∧
    Connected queue cache

/-- The two roles have the prefixes the other way round. -/
theorem crossed_segmentItem :
  Crossed (segmentItem true mqd i) (segmentItem false mqd' i)
  where
  tx := by simp [segmentItem]
  rx := by simp [segmentItem]
  segmentId := by simp [segmentItem]

theorem Created.complete {n : ℤ} (h : Created proxy n.toNat s queue s₁) :
  Complete n queue
  where
  indices := h.indices
  nodup := h.nodup_names

/-- The queues of the two roles are connected. -/
theorem Created.connected (h : Created true n s queue s₁) (h' : Created false n s' cache s₂) :
  Connected queue cache
  := by
  constructor
  case same =>
    intro item hitem item' hitem' heq
    obtain ⟨i, -, rfl⟩ := h.exists_index hitem
    obtain ⟨j, -, rfl⟩ := h'.exists_index hitem'
    obtain rfl : i = j := Int.ofNat.inj heq
    exact crossed_segmentItem
  case different =>
    intro item hitem item' hitem' hne
    obtain ⟨i, -, rfl⟩ := h.exists_index hitem
    obtain ⟨j, -, rfl⟩ := h'.exists_index hitem'
    apply disjoint_names_segmentItem
    rintro rfl
    exact hne rfl

/-- The last index must have less than ten digits. -/
theorem CrossConnected.le {n : ℤ} (h : CrossConnected n s s') :
  n ≤ 10 ^ 9
  := by
  obtain ⟨queue, s₁, -, -, hcreate, -⟩ := h
  by_contra hlt
  have hprints := (shmCreateSegments_created hcreate).prints (10 ^ 9) (by omega)
  exact Nat.lt_irrefl _ (prints_iff.mp hprints)

/-- For every number of segments and whatever names the system has before: the queues that the
proxy and the cache create have one segment for each index, are cross-connected and otherwise have
no name twice, exactly when there are at most `10 ^ 9` segments. With more, an index has ten digits,
and with its terminator it does not fit into `index_str`. -/
theorem crossConnected_iff {n : ℤ} {s s' : Ipc} :
  CrossConnected n s s' ↔ n ≤ 10 ^ 9
  := by
  constructor
  · exact CrossConnected.le
  · intro hle
    have hprints : ∀ i < n.toNat, Prints i := by
      intro i hi
      apply prints_iff.mpr
      omega
    obtain ⟨queue, s₁, hproxy⟩ := exists_shmCreateSegments hprints true s
    obtain ⟨cache, s₂, hcache⟩ := exists_shmCreateSegments hprints false s'
    have hcreated := shmCreateSegments_created hproxy
    have hcreated' := shmCreateSegments_created hcache
    exact ⟨queue, s₁, cache, s₂, hproxy, hcache, hcreated.complete, hcreated'.complete,
      hcreated.connected hcreated'⟩

/-- With one segment more, the queues cannot be created. -/
theorem not_crossConnected :
  ¬ CrossConnected (10 ^ 9 + 1) noNames noNames
  := by
  intro h
  have hle := h.le
  omega

end GetFile.Shm
