import Mathlib.Tactic.Common

/-!
# Mutexes and condition variables

A POSIX mutex is the thread that owns it, if there is one, and a condition variable is the
list of the threads blocked at it. A thread that waits gives the mutex back and is blocked; it
leaves the list when it is signalled or wakes up without a signal, and it returns from the
wait once it can take the mutex again.
-/

namespace Transition

variable {τ : Type*}

/-- A mutex and the thread that owns it. -/
structure Mutex (τ : Type*) where
  owner : Option τ
  deriving DecidableEq

/-- A mutex that no thread owns. -/
def Mutex.free : Mutex τ
  := { owner := none }

/-- Take the mutex, which is possible while it is free. -/
def Mutex.lock (m : Mutex τ) (t : τ) : Option (Mutex τ) :=
  match m.owner with
  | none => some { owner := some t }
  | some _ => none

/-- Give the mutex back. -/
def Mutex.unlock (_ : Mutex τ) : Mutex τ :=
  Mutex.free

/-- Taking the mutex finds it free and makes the thread its owner. -/
theorem Mutex.lock_eq_some {m m' : Mutex τ} {t : τ} (h : m.lock t = some m') :
  m.owner = none ∧ m' = { owner := some t }
  := by
  unfold Mutex.lock at h
  cases ho : m.owner with
  | some u => simp [ho] at h
  | none =>
      rw [ho, Option.some.injEq] at h
      exact ⟨rfl, h.symm⟩

/-- A condition variable and the threads blocked at it. -/
structure Condition (τ : Type*) where
  blocked : List τ
  deriving DecidableEq

/-- A condition variable at which no thread is blocked. -/
def Condition.init : Condition τ
  := { blocked := [] }

/-- Block a thread. -/
def Condition.wait (c : Condition τ) (t : τ) : Condition τ :=
  { blocked := c.blocked ++ [t] }

/-- Wake a thread up without a signal. -/
def Condition.spurious [DecidableEq τ] (c : Condition τ) (t : τ) : Condition τ :=
  { blocked := c.blocked.erase t }

/-- Wake one blocked thread up, if there is one. -/
def Condition.signal (c : Condition τ) : Condition τ :=
  { blocked := c.blocked.tail }

/-- Wake all blocked threads up. -/
def Condition.broadcast (_ : Condition τ) : Condition τ :=
  Condition.init

/-- Return from the wait: the thread is no longer blocked and takes the mutex. -/
def Condition.awake [DecidableEq τ] (c : Condition τ) (m : Mutex τ) (t : τ) :
    Option (Mutex τ) :=
  if t ∈ c.blocked then none else m.lock t

/-- Returning from the wait finds the mutex free and makes the thread its owner. -/
theorem Condition.awake_eq_some [DecidableEq τ] {c : Condition τ} {m m' : Mutex τ} {t : τ}
    (h : c.awake m t = some m') :
  m.owner = none ∧ m' = { owner := some t }
  := by
  unfold Condition.awake at h
  by_cases hb : t ∈ c.blocked
  · rw [if_pos hb] at h
    cases h
  · rw [if_neg hb] at h
    apply Mutex.lock_eq_some h

end Transition
