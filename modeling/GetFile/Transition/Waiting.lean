import GetFile.Transition.Monitor
import GetFile.Transition.Threads
import Mathlib.Algebra.Order.BigOperators.Group.Finset

/-!
# Threads blocked at a condition variable

The threads in the list of a condition variable are at the call that they are blocked in, each
of them once (`Parked`). Hence there are no more of them than threads at this call, and no
fewer when all threads at the call are blocked.
-/

namespace Transition

variable {τ : Type*} {A : τ → Type*} {S : Type*} {L : τ → Type*} {code : Code A S L}

/-- A thread that wakes up without a signal leaves the list. -/
theorem Condition.spurious_sublist [DecidableEq τ] (c : Condition τ) (t : τ) :
  (c.spurious t).blocked.Sublist c.blocked
  := List.erase_sublist

/-- A thread that is signalled leaves the list. -/
theorem Condition.signal_sublist (c : Condition τ) :
  c.signal.blocked.Sublist c.blocked
  := List.tail_sublist _

/-- The threads blocked at the condition variable wait, and each is in its list once. -/
structure Parked (cond : S → Condition τ) (waits : ∀ t, L t → Prop) (p : Pool S L) : Prop where
  nodup : (cond p.shared).blocked.Nodup
  waits : ∀ t ∈ (cond p.shared).blocked, waits t (p.threads t)

/-- What a step of thread `t` does to a condition variable: it blocks the thread, or threads
leave the list. -/
inductive Parking (t : τ) (c c' : Condition τ) (waits waits' : Prop) : Prop where
  | park (cond : c' = c.wait t) (before : ¬ waits) (after : waits')
  | leave (sublist : c'.blocked.Sublist c.blocked) (after : t ∈ c'.blocked → waits')

variable {cond : S → Condition τ} {waits : ∀ t, L t → Prop} {p p' : Pool S L}

/-- The blocked threads wait after every step that blocks and wakes up properly. -/
theorem Parked.step [DecidableEq τ] {a : Σ t, A t} (h : Parked cond waits p)
    (hpark : Parking a.1 (cond p.shared) (cond p'.shared) (waits a.1 (p.threads a.1))
      (waits a.1 (p'.threads a.1)))
    (hs : p.step code a = some p') :
  Parked cond waits p'
  := by
  cases hpark with
  | park hcond before after =>
      have hout : a.1 ∉ (cond p.shared).blocked := fun hmem => before (h.waits _ hmem)
      constructor
      · rw [hcond, Condition.wait]
        apply h.nodup.append (List.nodup_singleton _)
        rw [List.disjoint_singleton]
        exact hout
      · intro t ht
        rw [hcond, Condition.wait] at ht
        by_cases hta : t = a.1
        · rw [hta]
          exact after
        · rw [Pool.step_other hs hta]
          obtain hmem | hmem := List.mem_append.mp ht
          · exact h.waits t hmem
          · exact absurd (List.mem_singleton.mp hmem) hta
  | leave sublist after =>
      constructor
      · apply h.nodup.sublist sublist
      · intro t ht
        by_cases hta : t = a.1
        · rw [hta] at ht ⊢
          exact after ht
        · rw [Pool.step_other hs hta]
          exact h.waits t (sublist.subset ht)

variable [Fintype τ]

/-- When each thread that waits counts `k`, the blocked threads count no more than all. -/
theorem Parked.length_le (h : Parked cond waits p) {k : ℕ} {f : ∀ t, L t → ℕ}
    (hf : ∀ t, waits t (p.threads t) → k ≤ f t (p.threads t)) :
  k * (cond p.shared).blocked.length ≤ ∑ t, f t (p.threads t)
  := by
  classical
  calc
    k * (cond p.shared).blocked.length
      = ∑ _t ∈ (cond p.shared).blocked.toFinset, k := by
        rw [Finset.sum_const_nat fun _ _ => rfl, List.toFinset_card_of_nodup h.nodup,
          Nat.mul_comm]
    _ ≤ ∑ t ∈ (cond p.shared).blocked.toFinset, f t (p.threads t) := by
        apply Finset.sum_le_sum
        intro t ht
        exact hf t (h.waits t (List.mem_toFinset.mp ht))
    _ ≤ ∑ t, f t (p.threads t) := by
        apply Finset.sum_le_sum_of_subset (Finset.subset_univ _)

/-- When only blocked threads count, and each of them one, they count no more than the blocked
threads. -/
theorem sum_le_blocked {c : Condition τ} {f : τ → ℕ} (hle : ∀ t, f t ≤ 1)
    (hf : ∀ t, f t ≠ 0 → t ∈ c.blocked) :
  ∑ t, f t ≤ c.blocked.length
  := by
  classical
  calc
    ∑ t, f t = ∑ t ∈ c.blocked.toFinset, f t := by
        symm
        apply Finset.sum_subset (Finset.subset_univ _)
        intro t _ ht
        by_contra hne
        exact ht (List.mem_toFinset.mpr (hf t hne))
    _ ≤ ∑ _t ∈ c.blocked.toFinset, 1 := Finset.sum_le_sum fun t _ => hle t
    _ ≤ c.blocked.length := by
        rw [Finset.sum_const_nat fun _ _ => rfl, Nat.mul_one]
        apply List.toFinset_card_le

end Transition
