import GetFile.Cache.Proxy
import Mathlib.Algebra.Order.BigOperators.Group.Finset
import Mathlib.Algebra.Order.Group.Multiset
import Mathlib.Data.Fintype.Sum

/-!
# The pool of segments

The segments are conserved: in every state each of them is either in the queue of the free
segments or held by one proxy thread. The queue is protected by its mutex, so that a thread
that pops a segment finds one.
-/

namespace GetFile.Cache

open CString Transition

variable {n size threads workers : ℕ} {get : List UInt8 → Option (List UInt8)}
  {p p' : Pool (Shared n size threads workers) (ThreadLocal n threads workers)}
  {a : Σ t : ThreadId threads workers, ThreadAct threads workers t}

/-- The segment that a proxy thread holds. -/
def ProxyPc.held : ProxyPc n → Option (Fin n)
  | .unlock seg | .request seg | .lockRelease seg | .push seg => some seg
  | _ => none

/-- The calls between `pthread_mutex_lock` and `pthread_mutex_unlock`. -/
def ProxyPc.Inside : ProxyPc n → Prop
  | .test | .wait | .pop | .unlock _ | .push _ | .signal | .unlockRelease => True
  | _ => False

/-- The segment that a thread holds. -/
def held : ∀ t : ThreadId threads workers, ThreadLocal n threads workers t → Option (Fin n)
  | .inl _ => fun x => x.pc.held
  | .inr _ => fun _ => none

/-- The threads inside the section of the mutex. -/
def Inside : ∀ t : ThreadId threads workers, ThreadLocal n threads workers t → Prop
  | .inl _ => fun x => x.pc.Inside
  | .inr _ => fun _ => False

/-- The segments that a thread holds, as a multiset. -/
def taken (t : ThreadId threads workers) (l : ThreadLocal n threads workers t) :
    Multiset (Fin n) :=
  (held t l).elim 0 fun seg => {seg}

/-- Every step of `handle_with_cache` conserves the segments in the queue and with the
thread. -/
theorem ProxyStep.conserved {t : ThreadId threads workers} {b : ProxyAct}
    {s s' : Shared n size threads workers} {x x' : Proxy n} (h : ProxyStep t b s x s' x') :
  (s'.segQueue : Multiset (Fin n)) + x'.pc.held.elim 0 (fun seg => {seg})
    = s.segQueue + x.pc.held.elim 0 fun seg => {seg}
  := by
  cases h with
  | pop seg segQueue pc pop =>
      simp only [pc, pop, ProxyPc.held, Option.elim, ← Multiset.cons_coe,
        ← Multiset.singleton_add]
      rw [add_zero, add_comm]
  | push seg pc =>
      simp only [pc, ProxyPc.held, Option.elim, ← Multiset.cons_coe, ← Multiset.singleton_add]
      rw [add_zero, add_comm]
  | out pc | lock pc | empty pc | found pc | wait pc | awake pc | unlock _ pc | done _ pc
  | request _ _ _ pc | lockRelease _ pc | signal pc | unlockRelease pc => simp [pc, ProxyPc.held]
  | spurious | underflow => rfl

/-- Every step of `handle_with_cache` takes the mutex when it enters the section and gives it
back when it leaves. -/
theorem ProxyStep.handover {t : ThreadId threads workers} {b : ProxyAct}
    {s s' : Shared n size threads workers} {x x' : Proxy n} (h : ProxyStep t b s x s' x')
    (own : s.segMutex.owner = some t ↔ x.pc.Inside) :
  Handover t s.segMutex.owner s'.segMutex.owner x.pc.Inside x'.pc.Inside
  := by
  cases h with
  | lock pc free | awake pc free | lockRelease _ pc free => exact .take free rfl trivial
  | wait pc | unlock _ pc | unlockRelease pc =>
      refine .give (own.mpr ?_) rfl id
      rw [pc]
      trivial
  | spurious | underflow => exact .keep rfl Iff.rfl
  | out pc | empty pc | found pc | pop _ _ pc | done _ pc | request _ _ _ pc | push _ pc
  | signal pc =>
      exact .keep rfl (by simp [pc, ProxyPc.Inside])

/-- A thread comes to the pop by finding the queue non-empty. -/
theorem ProxyStep.found_queue {t : ThreadId threads workers} {b : ProxyAct}
    {s s' : Shared n size threads workers} {x x' : Proxy n} (h : ProxyStep t b s x s' x')
    (before : x.pc = .pop → s.segQueue ≠ []) (hpc : x'.pc = .pop) :
  s'.segQueue ≠ []
  := by
  cases h with
  | found pc queue => exact queue
  | underflow pc => exact before pc
  | spurious pc => simp [hpc] at pc
  | out | lock | empty | wait | awake | pop | unlock | done | request | lockRelease | push
  | signal | unlockRelease => cases hpc

/-- Only a thread that pops takes a segment out of the queue. -/
theorem ProxyStep.queue {t : ThreadId threads workers} {b : ProxyAct}
    {s s' : Shared n size threads workers} {x x' : Proxy n} (h : ProxyStep t b s x s' x')
    (hq : s.segQueue ≠ []) :
  s'.segQueue ≠ [] ∨ x.pc = .pop
  := by
  cases h with
  | pop _ _ pc => exact .inr pc
  | push => exact .inl (List.cons_ne_nil _ _)
  | out | lock | empty | found | wait | spurious | awake | underflow | unlock | done | request
  | lockRelease | signal | unlockRelease => exact .inl hq

/-- In every state the segments are in the queue or with the threads, the mutex is owned by the
thread inside its section, and a thread that is about to pop finds a segment. -/
structure Segments (p : Pool (Shared n size threads workers) (ThreadLocal n threads workers)) :
    Prop where
  conserved : (p.shared.segQueue : Multiset (Fin n)) + ∑ t, taken t (p.threads t)
    = List.finRange n
  owned : Owned (fun s : Shared n size threads workers => s.segMutex.owner) Inside p
  found : ∀ t, (p.threads (.inl t)).pc = .pop → p.shared.segQueue ≠ []

theorem shmCreateSegments_eq :
  shmCreateSegments n = (List.finRange n).reverse
  := by
  have hpush : ∀ (l : List (Fin n)) (q : Steque (Fin n)),
      l.foldl Steque.push q = l.reverse ++ q := by
    intro l
    induction l with
    | nil => simp
    | cons i l ih =>
        intro q
        rw [List.foldl_cons, ih]
        simp [Steque.push]
  rw [shmCreateSegments, hpush, Steque.init, List.append_nil]

theorem Segments.start (request : HandleRequest) (pkt : Packet) :
  Segments (start request pkt : Pool (Shared n size threads workers) _)
  where
  conserved := by
    have hnone : ∀ t, taken t ((Cache.start request pkt :
        Pool (Shared n size threads workers) (ThreadLocal n threads workers)).threads t) = 0 := by
      intro t
      cases t with
      | inl t => rfl
      | inr j => rfl
    rw [Finset.sum_congr rfl fun t _ => hnone t, Finset.sum_const_zero, add_zero]
    simp [Cache.start, shmCreateSegments_eq]
  owned t := by
    cases t with
    | inl t => exact ⟨nofun, False.elim⟩
    | inr j => exact ⟨nofun, False.elim⟩
  found t h := by cases h

/-- Every step keeps the segments. -/
theorem Segments.step (h : Segments p) (hs : Pool.step (code get) a p = some p') :
  Segments p'
  := by
  obtain ⟨t, b⟩ := a
  cases t with
  | inl t =>
      have hx := handleWithCache_cases (Pool.step_own hs)
      constructor
      case conserved =>
        rw [← h.conserved]
        refine Pool.step_conserved (fun s : Shared n size threads workers =>
          (s.segQueue : Multiset (Fin n))) taken ?_ hs
        exact hx.conserved
      case owned => exact h.owned.step (hx.handover (h.owned (.inl t))) hs
      case found =>
        intro u hpc
        by_cases hu : u = t
        · subst hu
          exact hx.found_queue (h.found u) hpc
        · have hne : (Sum.inl u : ThreadId threads workers) ≠ .inl t :=
            fun he => hu (Sum.inl.inj he)
          rw [Pool.step_other hs hne] at hpc
          obtain hq | hpop := hx.queue (h.found u hpc)
          · exact hq
          · refine absurd (h.owned.unique (t := .inl u) (u := .inl t) ?_ ?_) hne
            · simp only [Inside, hpc, ProxyPc.Inside]
            · simp only [Inside, hpop, ProxyPc.Inside]
  | inr j =>
      obtain ⟨-, hshared⟩ := code_worker (Pool.step_own hs)
      have hq : p'.shared.segQueue = p.shared.segQueue := by rw [hshared]
      have hm : p'.shared.segMutex = p.shared.segMutex := by rw [hshared]
      constructor
      case conserved =>
        rw [← h.conserved]
        refine Pool.step_conserved (fun s : Shared n size threads workers =>
          (s.segQueue : Multiset (Fin n))) taken ?_ hs
        rw [hq]
        rfl
      case owned =>
        refine h.owned.step (.keep ?_ Iff.rfl) hs
        simp only [hm]
      case found =>
        intro u hpc
        rw [Pool.step_other hs Sum.inl_ne_inr] at hpc
        rw [hq]
        apply h.found u hpc

/-- Every state that a run reaches keeps the segments. -/
theorem Segments.run {request : HandleRequest} {pkt : Packet} {as : Schedule threads workers}
    (h : run (Pool.step (code get)) as (Cache.start request pkt) = some p) :
  Segments p
  := by
  apply run_invariant (fun _ _ _ hi hs => Segments.step hi hs) (Segments.start request pkt) h

/-! ### What the conservation means -/

/-- How often a segment occurs in the queue and how many threads hold it makes one. -/
theorem Segments.count (h : Segments p) (i : Fin n) :
  p.shared.segQueue.count i
    + (Finset.univ.filter fun t => held t (p.threads t) = some i).card = 1
  := by
  have htaken : ∀ t, (taken t (p.threads t)).count i
      = if held t (p.threads t) = some i then 1 else 0 := by
    intro t
    unfold taken
    cases held t (p.threads t) with
    | none => simp
    | some j => simp [Multiset.count_singleton, eq_comm]
  calc
    p.shared.segQueue.count i
        + (Finset.univ.filter fun t => held t (p.threads t) = some i).card
      = (p.shared.segQueue : Multiset (Fin n)).count i
          + ∑ t, (taken t (p.threads t)).count i := by
        rw [Multiset.coe_count, Finset.card_filter, Finset.sum_congr rfl fun t _ => htaken t]
    _ = ((p.shared.segQueue : Multiset (Fin n)) + ∑ t, taken t (p.threads t)).count i := by
        rw [Multiset.count_add, Multiset.count_sum']
    _ = (List.finRange n).count i := by rw [h.conserved, Multiset.coe_count]
    _ = 1 := List.count_eq_one_of_mem (List.nodup_finRange n) (List.mem_finRange i)

/-- Two threads do not hold the same segment. -/
theorem Segments.unique (h : Segments p) {t u : ThreadId threads workers} {i : Fin n}
    (ht : held t (p.threads t) = some i) (hu : held u (p.threads u) = some i) :
  t = u
  := by
  apply Finset.card_le_one.mp (le_of_le_of_eq (Nat.le_add_left _ _) (h.count i))
  · simp [ht]
  · simp [hu]

/-- A segment that a thread holds is not in the queue. -/
theorem Segments.not_mem_queue (h : Segments p) {t : ThreadId threads workers} {i : Fin n}
    (ht : held t (p.threads t) = some i) :
  i ∉ p.shared.segQueue
  := by
  have hcount := h.count i
  have hpos : 0 < (Finset.univ.filter fun t => held t (p.threads t) = some i).card :=
    Finset.card_pos.mpr ⟨t, by simp [ht]⟩
  rw [← List.count_eq_zero]
  omega

/-- A segment is in the queue once and held by nobody, or not in the queue and held by
exactly one thread. -/
theorem Segments.queue_or_held (h : Segments p) (i : Fin n) :
  (p.shared.segQueue.count i = 1 ∧ ∀ t, held t (p.threads t) ≠ some i) ∨
    (i ∉ p.shared.segQueue ∧ ∃! t, held t (p.threads t) = some i)
  := by
  have hcount := h.count i
  by_cases hq : i ∈ p.shared.segQueue
  · left
    constructor
    · have hpos := List.count_pos_iff.mpr hq
      omega
    · intro t ht
      apply h.not_mem_queue ht hq
  · right
    rw [List.count_eq_zero.mpr hq, Nat.zero_add] at hcount
    obtain ⟨t, ht⟩ := Finset.card_eq_one.mp hcount
    have hmem : held t (p.threads t) = some i := by
      have hself : t ∈ ({t} : Finset (ThreadId threads workers)) := Finset.mem_singleton_self t
      rw [← ht] at hself
      exact (Finset.mem_filter.mp hself).2
    exact ⟨hq, t, hmem, fun u hu => h.unique hu hmem⟩

/-- When no proxy thread is inside `handle_with_cache` all segments are in the queue. -/
theorem Segments.all_free (h : Segments p) (hout : ∀ t, (p.threads (.inl t)).pc = .out) :
  p.shared.segQueue.Perm (shmCreateSegments n)
  := by
  have hnone : ∀ t, taken t (p.threads t) = 0 := by
    intro t
    cases t with
    | inl t => simp [taken, held, hout t, ProxyPc.held]
    | inr j => rfl
  have hconserved := h.conserved
  rw [Finset.sum_congr rfl fun t _ => hnone t, Finset.sum_const_zero, add_zero,
    Multiset.coe_eq_coe] at hconserved
  rw [shmCreateSegments_eq]
  exact hconserved.trans (List.reverse_perm _).symm

/-- For every number of segments, of proxy threads and of workers of the cache, and every
schedule: in every state that is reached each segment is either in the queue, once, and held by
no thread, or it is not in the queue and held by exactly one thread; a thread pops only what is
there; and when no proxy thread is inside `handle_with_cache`, the queue is a permutation of the
segments that `shm_create_segments` has made. -/
theorem segments_conserved {request : HandleRequest} {pkt : Packet}
    {as : Schedule threads workers}
    (h : run (Pool.step (code get)) as (Cache.start request pkt) = some p) :
  (∀ i, (p.shared.segQueue.count i = 1 ∧ ∀ t, held t (p.threads t) ≠ some i) ∨
    (i ∉ p.shared.segQueue ∧ ∃! t, held t (p.threads t) = some i)) ∧
  (∀ t, (p.threads (.inl t)).pc = .pop → p.shared.segQueue ≠ []) ∧
  ((∀ t, (p.threads (.inl t)).pc = .out) → p.shared.segQueue.Perm (shmCreateSegments n))
  := by
  have hp := Segments.run h
  exact ⟨hp.queue_or_held, hp.found, hp.all_free⟩

/-- A thread that has taken the only segment. -/
theorem segments_conserved_one :
  ∃ (as : Schedule 1 1) (p : Pool (Shared 1 1 1 1) (ThreadLocal 1 1 1)),
    run (Pool.step (code fun _ => none)) as
      (Cache.start (HandleRequest.start ⟨⟨[], 0, 0, 0, 0, 0⟩, 0⟩) ⟨⟨[], 0, 0, 0, 0, 0⟩, 0⟩) = some p ∧
    p.shared.segQueue = [] ∧ ∃! t, held t (p.threads t) = some 0
  := by
  have hrun : ∃ (as : Schedule 1 1) (p : Pool (Shared 1 1 1 1) (ThreadLocal 1 1 1)),
      run (Pool.step (code fun _ => none)) as
        (Cache.start (HandleRequest.start ⟨⟨[], 0, 0, 0, 0, 0⟩, 0⟩) ⟨⟨[], 0, 0, 0, 0, 0⟩, 0⟩) = some p ∧
      p.shared.segQueue = [] :=
    ⟨List.replicate 5 ⟨.inl 0, ⟨[], [], ⟨⟨[], 0, 0, 0, 0, 0⟩, 0⟩, 0, false⟩⟩, _, rfl, rfl⟩
  obtain ⟨as, p, h, hq⟩ := hrun
  obtain ⟨hin, -⟩ | ⟨-, hheld⟩ := (segments_conserved h).1 0
  · rw [hq] at hin
    cases hin
  · exact ⟨as, p, h, hq, hheld⟩

end GetFile.Cache
