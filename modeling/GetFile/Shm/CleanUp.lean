import GetFile.Shm.Channel
import Mathlib.Data.Finset.Image
import Mathlib.Data.List.Range

/-!
# Shared memory: what the clean-up leaves behind

`shm_create_segments` creates for each segment a shared-memory object and two message queues.
`shm_clean_segments` removes the queues and closes their descriptors, but it calls `shm_unlink`
with the names of the message queues: the objects stay (`shmCleanSegments_leaves`).
-/

namespace GetFile.Shm

open CString Cache

/-! ### Names -/

/-- The printed index fits into its array. -/
def Prints (i : ℕ) : Prop :=
  (decimal i).length + 1 ≤ maxSeg

/-- The prefixes of the names. -/
def prefixes : List (List UInt8) :=
  [shmPath, proxyToCache, cacheToProxy]

theorem length_of_mem_prefixes {pre : List UInt8} (h : pre ∈ prefixes) :
  pre.length = 15
  := by
  simp only [prefixes, List.mem_cons, List.not_mem_nil, or_false] at h
  rcases h with rfl | rfl | rfl
  · rfl
  · rfl
  · rfl

theorem shmPath_mem_prefixes :
  shmPath ∈ prefixes
  := List.mem_cons_self

theorem proxyToCache_mem_prefixes :
  proxyToCache ∈ prefixes
  := List.mem_cons_of_mem _ List.mem_cons_self

theorem cacheToProxy_mem_prefixes :
  cacheToProxy ∈ prefixes
  := List.mem_cons_of_mem _ (List.mem_cons_of_mem _ List.mem_cons_self)

/-- `shm_create_id` for an index of a segment. -/
theorem shmCreateId_eq_some {pre name : List UInt8} {i : ℕ} (hpre : pre ∈ prefixes) :
  shmCreateId pre i = some name ↔ Prints i ∧ name = pre ++ decimal i
  := by
  have hdecimal : signedDecimal i = decimal i := by
    rw [signedDecimal, if_neg (by omega), Int.toNat_natCast]
  have hlen : pre.length ≤ shmPath.length := by
    rw [length_of_mem_prefixes hpre]
    rfl
  rw [shmCreateId, hdecimal]
  simp only [hlen, and_true, Prints]
  split
  · rename_i hprints
    rw [and_iff_right hprints, Option.some.injEq, eq_comm]
  · rename_i hprints
    rw [iff_false_left (by simp)]
    rintro ⟨h, -⟩
    exact hprints h

/-- Names with different prefixes are different. -/
theorem append_ne_append {pre pre' a b : List UInt8} (hpre : pre ∈ prefixes)
    (hpre' : pre' ∈ prefixes) (hne : pre ≠ pre') :
  pre ++ a ≠ pre' ++ b
  := by
  intro h
  have hlen : pre.length = pre'.length := by
    rw [length_of_mem_prefixes hpre, length_of_mem_prefixes hpre']
  exact hne (List.append_inj h hlen).1

/-! ### Creating -/

/-- The segment with the index `i` whose queues got the descriptors `mqd` and `mqd + 1`. -/
def segmentItem (proxy : Bool) (mqd i : ℕ) : SegmentItem where
  segmentIndex := i
  segmentId := shmPath ++ decimal i
  mqDataTx := mqd
  mqDataRx := mqd + 1
  mqDataTxStr := (if proxy then proxyToCache else cacheToProxy) ++ decimal i
  mqDataRxStr := (if proxy then cacheToProxy else proxyToCache) ++ decimal i

/-- The names of the message queues of a segment. -/
def SegmentItem.mqNames (item : SegmentItem) : List (List UInt8) :=
  [item.mqDataTxStr, item.mqDataRxStr]

/-- The descriptors of the message queues of a segment. -/
def SegmentItem.mqds (item : SegmentItem) : List ℕ :=
  [item.mqDataTx, item.mqDataRx]

/-- A round creates the object and the queues of one segment. -/
theorem shmCreateSegment_eq_some {proxy : Bool} {i : ℕ} {s s' : Ipc} {item : SegmentItem} :
  shmCreateSegment proxy i s = some (item, s') ↔
    Prints i ∧ item = segmentItem proxy s.opened i ∧
      s' = { s with shm := insert item.segmentId s.shm
                    mqs := insert item.mqDataRxStr (insert item.mqDataTxStr s.mqs)
                    opened := s.opened + 2 }
  := by
  have htx : (if proxy then proxyToCache else cacheToProxy) ∈ prefixes := by
    cases proxy with
    | true => exact proxyToCache_mem_prefixes
    | false => exact cacheToProxy_mem_prefixes
  have hrx : (if proxy then cacheToProxy else proxyToCache) ∈ prefixes := by
    cases proxy with
    | true => exact cacheToProxy_mem_prefixes
    | false => exact proxyToCache_mem_prefixes
  by_cases hprints : Prints i
  · simp only [shmCreateSegment, (shmCreateId_eq_some shmPath_mem_prefixes).mpr ⟨hprints, rfl⟩,
      (shmCreateId_eq_some htx).mpr ⟨hprints, rfl⟩, (shmCreateId_eq_some hrx).mpr ⟨hprints, rfl⟩,
      Option.bind_eq_bind, Option.bind_some]
    rw [and_iff_right hprints]
    constructor
    · rintro ⟨⟩
      exact ⟨rfl, rfl⟩
    · rintro ⟨rfl, rfl⟩
      rfl
  · rw [iff_false_right (fun h => hprints h.1), shmCreateSegment]
    cases hid : shmCreateId shmPath i with
    | none => exact nofun
    | some name => exact absurd ((shmCreateId_eq_some shmPath_mem_prefixes).mp hid).1 hprints

/-- The queue has the segments with the indices below `n`, and the system knows their names and
the names from before. -/
structure Created (proxy : Bool) (n : ℕ) (s : Ipc) (queue : Steque SegmentItem) (s' : Ipc) :
    Prop where
  prints : ∀ i < n, Prints i
  items : queue = ((List.range n).map fun i => segmentItem proxy (s.opened + 2 * i) i).reverse
  shm : s'.shm = s.shm ∪ (queue.map SegmentItem.segmentId).toFinset
  mqs : s'.mqs = s.mqs ∪ (queue.flatMap SegmentItem.mqNames).toFinset
  opened : s'.opened = s.opened + 2 * n
  closed : s'.closed = s.closed

theorem created_zero (proxy : Bool) (s : Ipc) :
  Created proxy 0 s [] s
  where
  prints _ h := absurd h (Nat.not_lt_zero _)
  items := rfl
  shm := (Finset.union_empty s.shm).symm
  mqs := (Finset.union_empty s.mqs).symm
  opened := rfl
  closed := rfl

/-- A round adds the next segment. -/
theorem Created.succ {proxy : Bool} {n : ℕ} {s s₁ s₂ : Ipc} {queue : Steque SegmentItem}
    {item : SegmentItem} (h : Created proxy n s queue s₁)
    (hround : shmCreateSegment proxy n s₁ = some (item, s₂)) :
  Created proxy (n + 1) s (queue.push item) s₂
  := by
  obtain ⟨hprints, hitem, rfl⟩ := shmCreateSegment_eq_some.mp hround
  constructor
  case prints =>
    intro i hi
    rcases Nat.lt_succ_iff_lt_or_eq.mp hi with hlt | rfl
    · exact h.prints i hlt
    · exact hprints
  case items =>
    rw [Steque.push, List.range_succ, List.map_append, List.reverse_append, ← h.items, hitem,
      h.opened]
    rfl
  case shm =>
    rw [Steque.push, List.map_cons, List.toFinset_cons, Finset.union_insert, ← h.shm]
  case mqs =>
    rw [Steque.push, List.flatMap_cons, SegmentItem.mqNames, List.cons_append, List.cons_append,
      List.nil_append, List.toFinset_cons, List.toFinset_cons, Finset.union_insert,
      Finset.union_insert, ← h.mqs, Finset.insert_comm]
  case opened => exact congrArg (· + 2) h.opened
  case closed => exact h.closed

/-- `shm_create_segments` creates the segments with the indices below their number. -/
theorem shmCreateSegments_created {numSegments : ℤ} {proxy : Bool} {s s' : Ipc}
    {queue : Steque SegmentItem} (h : shmCreateSegments numSegments proxy s = some (queue, s')) :
  Created proxy numSegments.toNat s queue s'
  := by
  rw [shmCreateSegments] at h
  generalize numSegments.toNat = n at h ⊢
  induction n generalizing queue s' with
  | zero =>
      cases h
      exact created_zero proxy s
  | succ n ih =>
      rw [List.range_succ, List.foldlM_append] at h
      obtain ⟨⟨queue₁, s₁⟩, hbefore, hlast⟩ := Option.bind_eq_some_iff.mp h
      rw [List.foldlM_cons] at hlast
      obtain ⟨⟨queue₂, s₂⟩, hround, hnil⟩ := Option.bind_eq_some_iff.mp hlast
      cases hnil
      obtain ⟨⟨item, s₃⟩, hitem, heq⟩ := Option.map_eq_some_iff.mp hround
      cases heq
      exact (ih hbefore).succ hitem

/-! ### Cleaning up -/

/-- The first loop removes the names of the message queues from those of the objects. -/
theorem unlinkNames_eq_some {n : ℕ} (s : Ipc) (hprints : ∀ i < n, Prints i) :
  ∃ s', unlinkNames n s = some s' ∧ s'.mqs = s.mqs ∧ s'.closed = s.closed ∧
    ∀ name, name ∈ s'.shm ↔ name ∈ s.shm ∧
      ∀ i < n, name ≠ proxyToCache ++ decimal i ∧ name ≠ cacheToProxy ++ decimal i
  := by
  rw [unlinkNames]
  induction n with
  | zero => exact ⟨s, rfl, rfl, rfl, by simp⟩
  | succ n ih =>
      obtain ⟨s₁, hbefore, hmqs, hclosed, hshm⟩ := ih fun i hi => hprints i (Nat.lt_succ_of_lt hi)
      have htx := (shmCreateId_eq_some proxyToCache_mem_prefixes).mpr
        ⟨hprints n (Nat.lt_succ_self n), rfl⟩
      have hrx := (shmCreateId_eq_some cacheToProxy_mem_prefixes).mpr
        ⟨hprints n (Nat.lt_succ_self n), rfl⟩
      refine ⟨(s₁.shmUnlink (proxyToCache ++ decimal n)).shmUnlink (cacheToProxy ++ decimal n),
        ?_, hmqs, hclosed, ?_⟩
      · rw [List.range_succ, List.foldlM_append, hbefore, Option.bind_eq_bind, Option.bind_some,
          List.foldlM_cons, htx, hrx]
        rfl
      · intro name
        simp only [Ipc.shmUnlink, Finset.mem_erase, hshm]
        constructor
        · rintro ⟨hrx', htx', hmem, hall⟩
          refine ⟨hmem, fun i hi => ?_⟩
          rcases Nat.lt_succ_iff_lt_or_eq.mp hi with hlt | rfl
          · exact hall i hlt
          · exact ⟨htx', hrx'⟩
        · rintro ⟨hmem, hall⟩
          obtain ⟨htx', hrx'⟩ := hall n (Nat.lt_succ_self n)
          exact ⟨hrx', htx', hmem, fun i hi => hall i (Nat.lt_succ_of_lt hi)⟩

/-- The second loop takes every item in turn and leaves the queue as it was. -/
theorem cleanItems_append (before after : List SegmentItem) (s : Ipc) :
  cleanItems after.length before.length (after ++ before) s
    = some (before ++ after, after.foldl (fun s item => cleanItem item s) s)
  := by
  induction after generalizing before s with
  | nil =>
      rw [List.length_nil, cleanItems, List.nil_append, Steque.size, if_neg (Nat.lt_irrefl _),
        List.append_nil]
      rfl
  | cons item after ih =>
      have hlt : before.length < Steque.size ((item :: after) ++ before) := by
        rw [Steque.size, List.length_append, List.length_cons]
        omega
      have hstep := ih (before ++ [item]) (cleanItem item s)
      rw [List.length_append, List.length_singleton, ← List.append_assoc] at hstep
      rw [List.length_cons, cleanItems, if_pos hlt, List.foldl_cons, List.append_cons, ← hstep]
      rfl

/-- Cleaning items up removes the names of their queues and closes their descriptors. -/
theorem foldl_cleanItem (items : List SegmentItem) (s : Ipc) :
  let s' := items.foldl (fun s item => cleanItem item s) s
  s'.shm = s.shm ∧ s'.mqs = s.mqs \ (items.flatMap SegmentItem.mqNames).toFinset ∧
    s'.closed = s.closed ++ items.flatMap SegmentItem.mqds
  := by
  induction items generalizing s with
  | nil => simp
  | cons item items ih =>
      obtain ⟨hshm, hmqs, hclosed⟩ := ih (cleanItem item s)
      refine ⟨hshm, ?_, ?_⟩
      · rw [List.foldl_cons, hmqs]
        ext name
        simp only [cleanItem, Ipc.mqClose, Ipc.mqUnlink, SegmentItem.mqNames, Finset.mem_sdiff,
          Finset.mem_erase, List.flatMap_cons, List.cons_append, List.nil_append,
          List.toFinset_cons, Finset.mem_insert, not_or]
        tauto
      · rw [List.foldl_cons, hclosed, List.flatMap_cons]
        simp [cleanItem, Ipc.mqClose, Ipc.mqUnlink, SegmentItem.mqds]

/-! ### Undoing -/

/-- The system does not know the names of the segments with indices below `n`. -/
def Fresh (n : ℤ) (s : Ipc) : Prop :=
  ∀ i : ℕ, i < n → ∀ pre ∈ prefixes, pre ++ decimal i ∉ s.shm ∧ pre ++ decimal i ∉ s.mqs

/-- Behind `s`, the descriptors of the items have been closed once each, and no others. -/
def ClosedOnce (items : List SegmentItem) (s s' : Ipc) : Prop :=
  ∃ calls, s'.closed = s.closed ++ calls ∧ calls.Perm (items.flatMap SegmentItem.mqds) ∧
    calls.Nodup

/-- Creating the segments and then cleaning them up, in whatever order they are in the queue,
leaves the names as they were and closes each descriptor once. -/
def CleansUp (n : ℤ) (proxy : Bool) (s : Ipc) : Prop :=
  ∃ queue s₁, shmCreateSegments n proxy s = some (queue, s₁) ∧
    ∀ queue' : Steque SegmentItem, queue'.Perm queue →
      ∃ queue'' s₂, shmCleanSegments queue' s₁ = some (queue'', s₂) ∧ s₂.shm = s.shm ∧
        s₂.mqs = s.mqs ∧ ClosedOnce queue s s₂

variable {proxy : Bool} {n : ℕ} {s s₁ : Ipc} {queue : Steque SegmentItem}

/-- A segment in the queue has names with its index. -/
theorem Created.exists_index (h : Created proxy n s queue s₁) {item : SegmentItem}
    (hitem : item ∈ queue) :
  ∃ i < n, item = segmentItem proxy (s.opened + 2 * i) i
  := by
  rw [h.items, List.mem_reverse, List.mem_map] at hitem
  obtain ⟨i, hi, rfl⟩ := hitem
  exact ⟨i, List.mem_range.mp hi, rfl⟩

/-- The indices of the segments are those below their number, as the lookup of a segment takes for
granted. -/
theorem Created.indices (h : Created proxy n s queue s₁) :
  (queue.map SegmentItem.segmentIndex).Perm ((List.range n).map Nat.cast)
  := by
  rw [h.items, List.map_reverse, List.map_map]
  exact List.reverse_perm _

/-- The names of the message queues of a segment come from the two prefixes. -/
theorem mem_mqNames_segmentItem {mqd i : ℕ} {name : List UInt8} :
  name ∈ (segmentItem proxy mqd i).mqNames ↔
    name = proxyToCache ++ decimal i ∨ name = cacheToProxy ++ decimal i
  := by
  cases proxy with
  | true => simp [SegmentItem.mqNames, segmentItem]
  | false => simp [SegmentItem.mqNames, segmentItem, or_comm]

/-- No descriptor is handed out twice. -/
theorem Created.nodup_mqds (h : Created proxy n s queue s₁) :
  (queue.flatMap SegmentItem.mqds).Nodup
  := by
  have hrange : ∀ n, (List.range n).flatMap (fun i =>
      (segmentItem proxy (s.opened + 2 * i) i).mqds) = List.range' s.opened (2 * n) := by
    intro n
    induction n with
    | zero => rfl
    | succ n ih =>
        rw [List.range_succ, List.flatMap_append, ih, Nat.mul_succ, List.range'_concat,
          List.range'_concat, List.append_assoc, Nat.one_mul, Nat.one_mul]
        rfl
  rw [h.items, ((List.reverse_perm _).flatMap_right _).nodup_iff, List.flatMap_map, hrange]
  exact List.nodup_range'

/-- The names of message queues that are used for the segments were not known before. -/
theorem Created.disjoint_mqs (h : Created proxy n s queue s₁) (hfresh : Fresh n s) :
  Disjoint s.mqs (queue.flatMap SegmentItem.mqNames).toFinset
  := by
  rw [Finset.disjoint_right]
  intro name hname hknown
  rw [List.mem_toFinset, List.mem_flatMap] at hname
  obtain ⟨item, hitem, hname⟩ := hname
  obtain ⟨i, hi, rfl⟩ := h.exists_index hitem
  have hi : (i : ℤ) < n := by exact_mod_cast hi
  rcases mem_mqNames_segmentItem.mp hname with rfl | rfl
  · exact (hfresh i hi proxyToCache proxyToCache_mem_prefixes).2 hknown
  · exact (hfresh i hi cacheToProxy cacheToProxy_mem_prefixes).2 hknown

/-- No object in shared memory has the name of a message queue. -/
theorem Created.ne_of_mem_shm (h : Created proxy n s queue s₁) (hfresh : Fresh n s)
    {name pre : List UInt8} (hname : name ∈ s₁.shm) (hpre : pre ∈ prefixes) (hne : pre ≠ shmPath)
    {i : ℕ} (hi : i < n) :
  name ≠ pre ++ decimal i
  := by
  rintro rfl
  have hi : (i : ℤ) < n := by exact_mod_cast hi
  rw [h.shm, Finset.mem_union, List.mem_toFinset, List.mem_map] at hname
  rcases hname with hknown | ⟨item, hitem, hid⟩
  · exact (hfresh i hi pre hpre).1 hknown
  · obtain ⟨j, -, rfl⟩ := h.exists_index hitem
    exact append_ne_append shmPath_mem_prefixes hpre hne.symm hid

/-- As many segments are created as there are indices. -/
theorem Created.length (h : Created proxy n s queue s₁) :
  queue.length = n
  := by
  rw [h.items, List.length_reverse, List.length_map, List.length_range]

/-- The clean-up leaves the objects in shared memory, removes the names of all message queues and
closes each descriptor once. -/
theorem Created.clean (h : Created proxy n s queue s₁) (hfresh : Fresh n s)
    {queue' : Steque SegmentItem} (hperm : queue'.Perm queue) :
  ∃ queue'' s₂, shmCleanSegments queue' s₁ = some (queue'', s₂) ∧ s₂.shm = s₁.shm ∧
    s₂.mqs = s.mqs ∧ ClosedOnce queue s s₂
  := by
  have hlength : queue'.length = n := hperm.length_eq.trans h.length
  obtain ⟨s', hunlink, hmqs', hclosed', hshm'⟩ := unlinkNames_eq_some s₁ h.prints
  obtain ⟨hshm, hmqs, hclosed⟩ := foldl_cleanItem queue' s'
  have hloop := cleanItems_append [] queue' s'
  rw [List.length_nil, List.append_nil] at hloop
  refine ⟨queue', _, ?_, hshm.trans ?_, hmqs.trans ?_, queue'.flatMap SegmentItem.mqds, ?_, ?_, ?_⟩
  · rw [shmCleanSegments, Steque.size, hlength, hunlink, Option.bind_some, ← hlength]
    exact hloop
  · ext name
    rw [hshm', and_iff_left_iff_imp]
    intro hname i hi
    exact ⟨h.ne_of_mem_shm hfresh hname proxyToCache_mem_prefixes (by decide) hi,
      h.ne_of_mem_shm hfresh hname cacheToProxy_mem_prefixes (by decide) hi⟩
  · rw [hmqs', h.mqs, List.toFinset_eq_of_perm _ _ (hperm.flatMap_right _)]
    exact Finset.union_sdiff_cancel_right (h.disjoint_mqs hfresh)
  · rw [hclosed, hclosed', h.closed]
  · exact hperm.flatMap_right _
  · exact (hperm.flatMap_right _).nodup_iff.mpr h.nodup_mqds

/-- Fresh names below an `int` are fresh names below the number of rounds it gives. -/
theorem Fresh.toNat {n : ℤ} (h : Fresh n s) :
  Fresh n.toNat s
  := by
  intro i hi
  exact h i (by omega)

/-- For every number of segments, from a system that does not know their names: the clean-up undoes
the creation exactly when there are no segments. The names of the message queues are always removed
and the descriptors closed once each, but the objects in shared memory stay (`Created.clean`). -/
theorem cleansUp_iff {n : ℤ} (hfresh : Fresh n s) (proxy : Bool) :
  CleansUp n proxy s ↔ n ≤ 0
  := by
  constructor
  · rintro ⟨queue, s₁, hcreate, hclean⟩
    by_contra hpos
    have hcreated := shmCreateSegments_created hcreate
    obtain ⟨queue₁, s₂, hrun, hshm, -⟩ := hclean queue (List.Perm.refl queue)
    obtain ⟨queue₂, s₃, hrun', hshm', -⟩ := hcreated.clean hfresh.toNat (List.Perm.refl queue)
    rw [hrun] at hrun'
    cases hrun'
    -- the object of the first segment was not there before
    have hfirst : segmentItem proxy (s.opened + 2 * 0) 0 ∈ queue := by
      rw [hcreated.items, List.mem_reverse, List.mem_map]
      exact ⟨0, List.mem_range.mpr (by omega), rfl⟩
    have hleft : shmPath ++ decimal 0 ∈ s₁.shm := by
      rw [hcreated.shm, Finset.mem_union, List.mem_toFinset, List.mem_map]
      exact Or.inr ⟨_, hfirst, rfl⟩
    rw [← hshm', hshm] at hleft
    exact (hfresh 0 (by omega) shmPath shmPath_mem_prefixes).1 hleft
  · intro hle
    have hcreate : shmCreateSegments n proxy s = some ([], s) := by
      rw [shmCreateSegments, Int.toNat_of_nonpos hle]
      rfl
    refine ⟨[], s, hcreate, ?_⟩
    rintro queue' hperm
    rw [List.perm_nil] at hperm
    subst hperm
    exact ⟨[], s, rfl, rfl, rfl, [], (List.append_nil _).symm, List.Perm.refl [], List.nodup_nil⟩

/-- A system without names. -/
def noNames : Ipc :=
  ⟨∅, ∅, 0, []⟩

theorem cleansUp_iff_noNames :
  CleansUp 10 true noNames ↔ (10 : ℤ) ≤ 0
  := cleansUp_iff (s := noNames) (fun _ _ _ _ => ⟨Finset.notMem_empty _, Finset.notMem_empty _⟩) true

/-- With one segment, its object in shared memory is left behind. -/
theorem not_cleansUp :
  Fresh 1 noNames ∧ ¬ CleansUp 1 true noNames
  := by
  have hfresh : Fresh 1 noNames := fun _ _ _ _ => ⟨Finset.notMem_empty _, Finset.notMem_empty _⟩
  refine ⟨hfresh, ?_⟩
  rintro ⟨queue, s₁, hcreate, hclean⟩
  have hrun : (shmCreateSegments 1 true noNames).bind (fun x =>
      (shmCleanSegments x.1 x.2).map fun y => y.2.shm) = some {shmPath ++ decimal 0} := by
    decide +kernel
  obtain ⟨queue', s₂, hclean, hshm, -⟩ := hclean queue (List.Perm.refl queue)
  rw [hcreate, Option.bind_some, hclean, Option.map_some, hshm, Option.some.injEq] at hrun
  exact Finset.singleton_ne_empty _ hrun.symm

end GetFile.Shm
