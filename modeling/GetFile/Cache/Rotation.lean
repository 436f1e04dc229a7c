import GetFile.Cache.Progress
import GetFile.Shm.CleanUp
import GetFile.Shm.Lookup

/-!
# One worker and the queue of the segments

The threads with the queue `segment_q` of the cache, through which the worker goes round in
`find_segment` until it sees the index. While there is one worker no other thread moves the queue,
which keeps one segment for each index. Then the loop finds the segment that the lookup in one step
finds, and the steps of the threads are the same with and without the queue (`step_withoutQueue`,
`step_isSome`).
-/

namespace GetFile.Cache

open CString Heap Transition

/-- The queue `segment_q` of the cache. -/
abbrev SegmentQ := StequeT ℕ Shm.SegmentItem

/-- The loop of `find_segment` in the queue, if it comes to an end within one round for each
segment: the segment when `found` is set, and the queue. -/
def SegmentQ.find (n : ℕ) (index : ℤ) (segmentQ : SegmentQ) : Option (Option (Fin n) × SegmentQ) :=
  (Shm.findSegment n index 0 n none segmentQ).map fun (found, seg, segmentQ) =>
    (if found = 1 then seg.bind fun item => findSegment n item.segmentIndex else none, segmentQ)

/-- What the threads share, and the queue of the cache. -/
structure Rotating (n size threads : ℕ) where
  shared : Shared n size threads 1
  segmentQ : SegmentQ

variable {n size threads : ℕ}

/-- One step of the worker in `perform_task`, with `find_segment` in the queue. -/
def performTaskIn (get : List UInt8 → Option (List UInt8)) (num k : ℕ)
    (s : Rotating n size threads) (w : Task n) : Option (Rotating n size threads × Task n) :=
  if w.pc = .lookup ∧ s.shared.channels.exited = false then
    (SegmentQ.find n (w.thrPkt.received num size).segmentIndex s.segmentQ).map fun y =>
      let w' := w.fill get num size y.1
      let channels := { s.shared.channels with exited := w'.pc = .failed }
      ({ shared := { s.shared with channels }, segmentQ := y.2 }, w')
  else (performTask get num k s.shared.channels w).map fun y =>
    ({ s with shared := { s.shared with channels := y.1 } }, y.2)

/-- The code of the threads with the queue. -/
def codeIn (get : List UInt8 → Option (List UInt8)) :
    Code (ThreadAct threads 1) (Rotating n size threads) (ThreadLocal n threads 1)
  | .inl t => fun a s x =>
    (handleWithCache (.inl t) a s.shared x).map fun y => ({ s with shared := y.1 }, y.2)
  | .inr j => performTaskIn get j

/-- The threads when the segments have been created. -/
def startIn (request : HandleRequest) (pkt : Packet) (segmentQ : SegmentQ) :
    Pool (Rotating n size threads) (ThreadLocal n threads 1) where
  shared := { shared := (start request pkt : Pool (Shared n size threads 1) _).shared, segmentQ }
  threads := (start request pkt : Pool (Shared n size threads 1) (ThreadLocal n threads 1)).threads

/-- The threads without the queue. -/
def withoutQueue (p : Pool (Rotating n size threads) (ThreadLocal n threads 1)) :
    Pool (Shared n size threads 1) (ThreadLocal n threads 1) where
  shared := p.shared.shared
  threads := p.threads

/-! ### The queue -/

/-- The queue has one segment for each index below `n`. -/
def Indexed (n : ℕ) (segmentQ : SegmentQ) : Prop :=
  ∃ items, Tracks segmentQ items ∧
    (items.map Shm.SegmentItem.segmentIndex).Perm ((List.range n).map Nat.cast)

variable {segmentQ : SegmentQ}

/-- A segment that exists is found in the queue. -/
theorem Indexed.find (h : Indexed n segmentQ) (i : Fin n) :
  ∃ segmentQ', SegmentQ.find n i segmentQ = some (some i, segmentQ') ∧ Indexed n segmentQ'
  := by
  obtain ⟨items, htracks, hindices⟩ := h
  have hlength : items.length = n := by
    have := hindices.length_eq
    rwa [List.length_map, List.length_map, List.length_range] at this
  have hpos : (0 : ℤ) < n := by
    have := i.pos
    omega
  have hmem : ∃ item ∈ items, item.segmentIndex = i :=
    (Shm.exists_segmentIndex_iff hindices).mpr ⟨i, findSegment_val i⟩
  obtain ⟨item, -, heq, segmentQ', items', hfound, htracks', hrotated⟩ :=
    Shm.findSegment_of_mem htracks hpos hmem hlength.le none
  refine ⟨segmentQ', ?_, items', htracks', ?_⟩
  · rw [SegmentQ.find, hfound]
    simp [heq, findSegment_val]
  · exact (hrotated.perm.symm.map _).trans hindices

/-- The loop ends with the segment that the lookup in one step finds. -/
theorem Indexed.find_eq_some (h : Indexed n segmentQ) (hn : 0 < n) {index : ℤ}
    {found : Option (Fin n)} {segmentQ' : SegmentQ}
    (hfind : SegmentQ.find n index segmentQ = some (found, segmentQ')) :
  found = findSegment n index ∧ Indexed n segmentQ'
  := by
  cases hone : findSegment n index with
  | some i =>
      obtain ⟨segmentQ'', hfound, hindexed⟩ := h.find i
      rw [findSegment_eq_some hone, hfound] at hfind
      cases hfind
      exact ⟨rfl, hindexed⟩
  | none =>
      exfalso
      obtain ⟨items, htracks, hindices⟩ := h
      have habsent : ¬ ∃ item ∈ items, item.segmentIndex = index := by
        rw [Shm.exists_segmentIndex_iff hindices, hone]
        rintro ⟨i, hi⟩
        cases hi
      push Not at habsent
      have hitems : items ≠ [] := by
        rintro rfl
        have := hindices.length_eq
        rw [List.length_map, List.length_map, List.length_range, List.length_nil] at this
        omega
      rw [SegmentQ.find, Shm.findSegment_absent htracks (by omega) habsent hitems] at hfind
      cases hfind

/-! ### The same steps -/

variable {get : List UInt8 → Option (List UInt8)}
  {p p' : Pool (Rotating n size threads) (ThreadLocal n threads 1)}
  {a : Σ t : ThreadId threads 1, ThreadAct threads 1 t}

/-- With a queue that has one segment for each index, a step of the worker is its step without the
queue. -/
theorem performTask_of_performTaskIn {num k : ℕ} {s s' : Rotating n size threads} {w w' : Task n}
    (hn : 0 < n) (hq : Indexed n s.segmentQ) (h : performTaskIn get num k s w = some (s', w')) :
  performTask get num k s.shared.channels w = some (s'.shared.channels, w') ∧
    s'.shared = { s.shared with channels := s'.shared.channels } ∧ Indexed n s'.segmentQ
  := by
  unfold performTaskIn at h
  split at h
  · rename_i hlookup
    obtain ⟨hpc, hrun⟩ := hlookup
    obtain ⟨⟨found, segmentQ'⟩, hfind, heq⟩ := Option.map_eq_some_iff.mp h
    obtain ⟨rfl, hindexed⟩ := hq.find_eq_some hn hfind
    cases heq
    refine ⟨?_, rfl, hindexed⟩
    unfold performTask
    rw [if_neg (by simp [hrun])]
    simp only [hpc]
    rfl
  · obtain ⟨⟨channels, w''⟩, hstep, heq⟩ := Option.map_eq_some_iff.mp h
    cases heq
    exact ⟨hstep, rfl, hq⟩

/-- A step with the queue is a step without it, and the queue keeps one segment for each index. -/
theorem step_withoutQueue (hn : 0 < n) (hq : Indexed n p.shared.segmentQ)
    (hs : Pool.step (codeIn get) a p = some p') :
  Pool.step (code get) a (withoutQueue p) = some (withoutQueue p') ∧
    Indexed n p'.shared.segmentQ
  := by
  obtain ⟨t, b⟩ := a
  obtain ⟨⟨s', x'⟩, hcode, rfl⟩ := Option.map_eq_some_iff.mp hs
  cases t with
  | inl t =>
      obtain ⟨⟨shared, y⟩, hstep, heq⟩ := Option.map_eq_some_iff.mp hcode
      cases heq
      exact ⟨Option.map_eq_some_iff.mpr ⟨⟨shared, y⟩, hstep, rfl⟩, hq⟩
  | inr j =>
      obtain ⟨hstep, hshared, hindexed⟩ := performTask_of_performTaskIn hn hq hcode
      refine ⟨?_, hindexed⟩
      refine Option.map_eq_some_iff.mpr ⟨⟨s'.shared, x'⟩, ?_, rfl⟩
      refine Option.map_eq_some_iff.mpr ⟨⟨s'.shared.channels, x'⟩, hstep, ?_⟩
      rw [hshared]
      rfl

/-- While the packets ask for segments that exist, each step that can be taken without the queue can
be taken with it. -/
theorem step_isSome (hq : Indexed n p.shared.segmentQ) (halive : Alive (withoutQueue p))
    (hs : (Pool.step (code get) a (withoutQueue p)).isSome = true) :
  (Pool.step (codeIn get) a p).isSome = true
  := by
  obtain ⟨t, b⟩ := a
  unfold Pool.step at hs ⊢
  rw [Option.isSome_map] at hs ⊢
  cases t with
  | inl t =>
      change ((handleWithCache (.inl t) b p.shared.shared (p.threads (.inl t))).map _).isSome = true
      rw [Option.isSome_map]
      apply hs
  | inr j =>
      change (performTaskIn get j b p.shared (p.threads (.inr j))).isSome = true
      unfold performTaskIn
      split
      · rename_i hlookup
        obtain ⟨i, hindex⟩ := halive.looking j hlookup.1
        obtain ⟨segmentQ', hfind, -⟩ := hq.find i
        have hreceived : ((p.threads (.inr j)).thrPkt.received j size).segmentIndex = i := hindex
        rw [Option.isSome_map, hreceived, hfind]
        rfl
      · rw [Option.isSome_map]
        change ((performTask get j b p.shared.shared.channels (p.threads (.inr j))).map _).isSome =
          true at hs
        rwa [Option.isSome_map] at hs

end GetFile.Cache
