import GetFile.Cache.Segments
import GetFile.Transition.Progress
import GetFile.Transition.Waiting

/-!
# The proxy threads that wait for a segment

A proxy thread that finds no free segment waits at the condition variable, and a thread that
gives its segment back signals it. No signal is lost (`Waiting`): as long as threads are
blocked, there are at least as many threads on their way to the queue, or about to signal, as
segments in the queue.
-/

namespace GetFile.Cache

open CString Transition

variable {n size threads workers : ℕ} {get : List UInt8 → Option (List UInt8)}
  {p p' : Pool (Shared n size threads workers) (ThreadLocal n threads workers)}
  {a : Σ t : ThreadId threads workers, ThreadAct threads workers t}
  {t : ThreadId threads workers} {b : ProxyAct} {s s' : Shared n size threads workers}
  {x x' : Proxy n}

/-- What a step of thread `t` makes of the condition variable. -/
def Proxy.segCond (t : ThreadId threads workers) (b : ProxyAct) (x : Proxy n)
    (c : Condition (ThreadId threads workers)) : Condition (ThreadId threads workers) :=
  match x.pc with
  | .wait => c.wait t
  | .blocked => if b.spurious then c.spurious t else c
  | .signal => c.signal
  | _ => c

/-- A step changes the condition variable at `pthread_cond_wait` and `pthread_cond_signal`
only. -/
theorem handleWithCache_segCond (h : handleWithCache t b s x = some (s', x')) :
  s'.segCond = x.segCond t b s.segCond
  := by
  unfold handleWithCache at h
  unfold Proxy.segCond
  split at h
  · cases h
  · cases hpc : x.pc with
    | lock | lockRelease =>
        simp only [hpc] at h
        obtain ⟨m, -, heq⟩ := Option.map_eq_some_iff.mp h
        cases heq
        rfl
    | blocked =>
        simp only [hpc] at h
        by_cases hb : b.spurious = true
        · rw [if_pos hb] at h
          cases h
          exact (if_pos hb).symm
        · rw [if_neg hb] at h
          obtain ⟨m, -, heq⟩ := Option.map_eq_some_iff.mp h
          cases heq
          exact (if_neg hb).symm
    | pop =>
        cases hq : s.segQueue.pop with
        | none =>
            simp only [hpc, hq] at h
            cases h
            rfl
        | some r =>
            simp only [hpc, hq] at h
            cases h
            rfl
    | request seg =>
        simp only [hpc] at h
        split at h
        · cases h
          rfl
        · obtain ⟨y, -, heq⟩ := Option.map_eq_some_iff.mp h
          cases heq
          rfl
    | out | test | wait | unlock | push | signal | unlockRelease =>
        simp only [hpc] at h
        cases h
        rfl

/-- A thread returns from its wait only when it is not blocked. -/
theorem handleWithCache_awake (h : handleWithCache t b s x = some (s', x'))
    (hpc : x.pc = .blocked) (hpc' : x'.pc ≠ .blocked) :
  t ∉ s.segCond.blocked
  := by
  unfold handleWithCache at h
  split at h
  · cases h
  · simp only [hpc] at h
    split at h
    · cases h
      exact absurd hpc hpc'
    · obtain ⟨m, hm, -⟩ := Option.map_eq_some_iff.mp h
      unfold Condition.awake at hm
      split at hm
      · cases hm
      · assumption

/-- A thread goes to its wait only when the queue is empty. -/
theorem handleWithCache_empty (h : handleWithCache t b s x = some (s', x'))
    (hpc' : x'.pc = .wait) (hpc : x.pc ≠ .wait) :
  x.pc = .test ∧ s.segQueue = []
  := by
  have hstep := handleWithCache_cases h
  cases hstep with
  | empty pc =>
      refine ⟨pc, ?_⟩
      unfold handleWithCache at h
      split at h
      · cases h
      · simp only [pc] at h
        by_cases hq : s.segQueue.isempty = true
        · exact (Steque.isempty_iff _).mp hq
        · rw [if_neg hq] at h
          cases h
  | spurious | underflow => exact absurd hpc' hpc
  | out | lock | found | wait | awake | pop | unlock | done | request | lockRelease | push
  | signal | unlockRelease => cases hpc'

/-- A thread that goes to its wait leaves the queue empty. -/
theorem handleWithCache_wait (h : handleWithCache t b s x = some (s', x'))
    (hempty : x.pc = .wait → s.segQueue = []) (hpc : x'.pc = .wait) :
  s'.segQueue = []
  := by
  have hstep := handleWithCache_cases h
  cases hstep with
  | empty pc => exact (handleWithCache_empty h rfl (by simp [pc])).2
  | spurious | underflow => exact hempty hpc
  | out | lock | found | wait | awake | pop | unlock | done | request | lockRelease | push
  | signal | unlockRelease => cases hpc

/-- Only a thread that pushes fills an empty queue. -/
theorem ProxyStep.stays_empty (h : ProxyStep t b s x s' x') (hq : s.segQueue = []) :
  s'.segQueue = [] ∨ ∃ seg, x.pc = .push seg
  := by
  cases h with
  | push seg pc => exact .inr ⟨seg, pc⟩
  | pop _ _ _ pop =>
      rw [hq] at pop
      cases pop
  | out | lock | empty | found | wait | spurious | awake | underflow | unlock | done | request
  | lockRelease | signal | unlockRelease => exact .inl hq

/-! ### No lost signal -/

/-- The thread is blocked, or it has just been. -/
def AtWait : ∀ t : ThreadId threads workers, ThreadLocal n threads workers t → Prop
  | .inl _ => fun x => x.pc = .blocked
  | .inr _ => fun _ => False

/-- The thread will look at the queue or signal before it is blocked or outside, or it is
blocked. -/
def ProxyPc.attention : ProxyPc n → ℕ
  | .test | .blocked | .pop | .signal => 1
  | _ => 0

/-- The attention of a thread. -/
def attention : ∀ t : ThreadId threads workers, ThreadLocal n threads workers t → ℕ
  | .inl _ => fun x => x.pc.attention
  | .inr _ => fun _ => 0

/-- The condition variable knows the threads that wait, a thread that goes to its wait has found
the queue empty, and while threads are blocked, for each segment in the queue there is another
thread that takes care of it. -/
structure Waiting (p : Pool (Shared n size threads workers) (ThreadLocal n threads workers)) :
    Prop where
  parked : Parked (fun s : Shared n size threads workers => s.segCond) AtWait p
  empty : ∀ t, (p.threads (.inl t)).pc = .wait → p.shared.segQueue = []
  signalled : p.shared.segCond.blocked ≠ [] →
    p.shared.segQueue.length + p.shared.segCond.blocked.length ≤ ∑ t, attention t (p.threads t)

theorem Waiting.start (request : HandleRequest) (pkt : Packet) :
  Waiting (start request pkt : Pool (Shared n size threads workers) _)
  where
  parked := by
    constructor
    · apply List.nodup_nil
    · intro t ht
      cases ht
  empty t h := by cases h
  signalled h := absurd rfl h

/-- The threads that are blocked are no more than those that wait. -/
theorem Waiting.blocked_le
    (h : Parked (fun s : Shared n size threads workers => s.segCond) AtWait p) :
  p.shared.segCond.blocked.length ≤ ∑ t, attention t (p.threads t)
  := by
  have hle := @Parked.length_le _ _ _ _ _ _ _ h 1 attention
  rw [Nat.one_mul] at hle
  apply hle
  intro t ht
  cases t with
  | inl t =>
      simp only [AtWait] at ht
      simp [attention, ht, ProxyPc.attention]
  | inr j => exact ht.elim

/-- Only a thread that calls `pthread_cond_wait` is put into the list. -/
theorem handleWithCache_sublist (h : handleWithCache t b s x = some (s', x'))
    (hpc : x.pc ≠ .wait) :
  s'.segCond.blocked.Sublist s.segCond.blocked
  := by
  rw [handleWithCache_segCond h]
  cases hx : x.pc with
  | wait => exact absurd hx hpc
  | blocked =>
      simp only [Proxy.segCond, hx]
      split
      · apply Condition.spurious_sublist
      · exact List.Sublist.refl _
  | signal =>
      simp only [Proxy.segCond, hx]
      apply Condition.signal_sublist
  | out | lock | test | pop | unlock | request | lockRelease | push | unlockRelease =>
      simp only [Proxy.segCond, hx]
      exact List.Sublist.refl _

/-- Every step blocks and wakes up properly. -/
theorem handleWithCache_parking {t : Fin threads}
    (h : handleWithCache (.inl t : ThreadId threads workers) b s x = some (s', x'))
    (hin : Sum.inl t ∈ s.segCond.blocked → x.pc = .blocked) :
  Parking (Sum.inl t : ThreadId threads workers) s.segCond s'.segCond (x.pc = .blocked)
    (x'.pc = .blocked)
  := by
  by_cases hpc : x.pc = .wait
  · refine .park ?_ (by simp [hpc]) ?_
    · rw [handleWithCache_segCond h, Proxy.segCond, hpc]
    · have hstep := handleWithCache_cases h
      cases hstep with
      | wait => rfl
      | out pc | lock pc | empty pc | found pc | spurious pc | awake pc | pop _ _ pc
      | underflow pc | unlock _ pc | done _ pc | request _ _ _ pc | lockRelease _ pc | push _ pc
      | signal pc | unlockRelease pc => simp [hpc] at pc
  · have hsub := handleWithCache_sublist h hpc
    refine .leave hsub ?_
    intro hmem
    by_contra hout
    exact handleWithCache_awake h (hin (hsub.subset hmem)) hout (hsub.subset hmem)

/-- While a segment is in the queue and threads are blocked, a step that takes attention away
takes a segment out of the queue or wakes a thread up. -/
theorem handleWithCache_attention (h : handleWithCache t b s x = some (s', x'))
    (hempty : x.pc = .wait → s.segQueue = []) (hqueue : s'.segQueue ≠ [])
    (hblocked : s'.segCond.blocked ≠ []) :
  s.segCond.blocked ≠ [] ∧
    s'.segQueue.length + s'.segCond.blocked.length + x.pc.attention
      ≤ s.segQueue.length + s.segCond.blocked.length + x'.pc.attention
  := by
  have hstep := handleWithCache_cases h
  have hwait : x.pc ≠ .wait := by
    intro hpc
    apply hqueue
    cases hstep with
    | wait => exact hempty hpc
    | out pc | lock pc | empty pc | found pc | spurious pc | awake pc | pop _ _ pc
    | underflow pc | unlock _ pc | done _ pc | request _ _ _ pc | lockRelease _ pc | push _ pc
    | signal pc | unlockRelease pc => simp [hpc] at pc
  have hsub := handleWithCache_sublist h hwait
  have hlength := hsub.length_le
  constructor
  · intro hnil
    rw [hnil] at hsub
    exact hblocked (List.sublist_nil.mp hsub)
  · cases hstep with
    | wait pc => exact absurd pc hwait
    | empty pc =>
        obtain ⟨-, hq⟩ := handleWithCache_empty h rfl (by simp [pc])
        exact absurd hq hqueue
    | underflow pc hq => exact absurd hq hqueue
    | signal pc =>
        have hcond := handleWithCache_segCond h
        simp only [Proxy.segCond, pc] at hcond
        have htail : s.segCond.signal.blocked.length = s.segCond.blocked.length - 1 :=
          List.length_tail
        have hpos := List.length_pos_of_ne_nil hblocked
        simp only [pc, ProxyPc.attention, hcond] at hpos ⊢
        omega
    | pop seg queue pc hq =>
        simp only [pc, ProxyPc.attention, hq, List.length_cons]
        omega
    | push seg pc =>
        simp only [pc, ProxyPc.attention, List.length_cons]
        omega
    | spurious pc | out pc | lock pc | found pc | awake pc | unlock _ pc | done _ pc
    | request _ _ _ pc | lockRelease _ pc | unlockRelease pc =>
        simp only [pc, ProxyPc.attention] at hlength ⊢
        omega

/-- Every step of a proxy thread loses no signal. -/
theorem Waiting.proxy_step {t : Fin threads} (h : Waiting p) (hp : Segments p)
    (hs : Pool.step (code get) ⟨.inl t, b⟩ p = some p') :
  Waiting p'
  := by
  have hown : handleWithCache (.inl t) b p.shared (p.threads (.inl t)) =
      some (p'.shared, p'.threads (.inl t)) := Pool.step_own hs
  have hstep := handleWithCache_cases hown
  have hparked : Parked (fun s : Shared n size threads workers => s.segCond) AtWait p' := by
    refine h.parked.step ?_ hs
    exact handleWithCache_parking hown (h.parked.waits (.inl t))
  constructor
  case parked => exact hparked
  case empty =>
    intro u hpc
    by_cases hu : u = t
    · subst hu
      exact handleWithCache_wait hown (h.empty u) hpc
    · have hne : (Sum.inl u : ThreadId threads workers) ≠ .inl t := fun he => hu (Sum.inl.inj he)
      rw [Pool.step_other hs hne] at hpc
      obtain hq | ⟨seg, hpush⟩ := hstep.stays_empty (h.empty u hpc)
      · exact hq
      · refine absurd (hp.owned.unique (t := .inl u) (u := .inl t) ?_ ?_) hne
        · simp only [Inside, hpc, ProxyPc.Inside]
        · simp only [Inside, hpush, ProxyPc.Inside]
  case signalled =>
    intro hblocked
    by_cases hqueue : p'.shared.segQueue = []
    · rw [hqueue, List.length_nil, Nat.zero_add]
      exact Waiting.blocked_le hparked
    · obtain ⟨hold, hless⟩ := handleWithCache_attention hown (h.empty t) hqueue hblocked
      have hle := h.signalled hold
      have hsum : ∑ u, attention u (p'.threads u) + (p.threads (.inl t)).pc.attention =
          ∑ u, attention u (p.threads u) + (p'.threads (.inl t)).pc.attention :=
        Pool.step_sum attention hs
      omega

/-- Every step loses no signal. -/
theorem Waiting.step (h : Waiting p) (hp : Segments p)
    (hs : Pool.step (code get) a p = some p') :
  Waiting p'
  := by
  obtain ⟨t, b⟩ := a
  cases t with
  | inl t => exact h.proxy_step hp hs
  | inr j =>
      obtain ⟨-, hshared⟩ := code_worker (Pool.step_own hs)
      have hqueue : p'.shared.segQueue = p.shared.segQueue := by rw [hshared]
      have hcond : p'.shared.segCond = p.shared.segCond := by rw [hshared]
      constructor
      case parked =>
        refine h.parked.step (.leave ?_ ?_) hs
        · rw [hcond]
        · intro hmem
          rw [hcond] at hmem
          exact (h.parked.waits _ hmem).elim
      case empty =>
        intro u hpc
        rw [Pool.step_other hs Sum.inl_ne_inr] at hpc
        rw [hqueue]
        exact h.empty u hpc
      case signalled =>
        have hsum : ∑ u, attention u (p'.threads u) + 0 = ∑ u, attention u (p.threads u) + 0 :=
          Pool.step_sum attention hs
        rw [hqueue, hcond]
        intro hblocked
        have hle := h.signalled hblocked
        omega

end GetFile.Cache
