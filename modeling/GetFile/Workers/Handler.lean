import GetFile.Steque.Items
import GetFile.Transition.Monitor
import GetFile.Transition.Threads
import Mathlib.Algebra.Order.BigOperators.Group.Finset
import Mathlib.Algebra.Order.Group.Multiset
import Mathlib.Algebra.BigOperators.Option
import Mathlib.Data.Fintype.BigOperators

/-!
# The worker threads of the multithreaded server

The boss of the multithreaded server starts the threads in `handler_init` and then enqueues a
request in every call of `handler_get`; the threads run `thread_main`. Thread `none` is the
boss and thread `some i` is worker number `i`. The type `ρ` stands for what a `request_t`
holds, which none of these functions looks at.

A worker locks the mutex once, in front of its loop, and gives it back inside the loop. So it
owns the mutex where it tests the queue in its first round, and no longer in a later one. Each
operation of the queue is one step all the same: two of them that overlap are not modelled.
-/

namespace GetFile.Handler

open Transition

variable {n : ℕ} {ρ : Type}

/-- The next call of a worker in `thread_main`, with its local variable `req`. The call of
`pthread_cond_wait` is made at `wait` and returns at `blocked`. -/
inductive Pc (ρ : Type) where
  | lock
  | test
  | wait
  | blocked
  | pop
  | unlock (req : ρ)
  | perform (req : ρ)

/-- A worker in `thread_main`, and the requests it has handed to `handler_perform`. -/
structure Worker (ρ : Type) where
  pc : Pc ρ
  performed : List ρ

/-- The next call of the boss: `pthread_create` and `steque_init` in `handler_init`, and then
the calls of `handler_get`. -/
inductive BossPc (ρ : Type) where
  | create
  | init
  | call
  | lock (request : ρ)
  | enqueue (request : ρ)
  | signal
  | unlock

/-- The boss, and the requests for which `handler_get` will be called. -/
structure Boss (ρ : Type) where
  pc : BossPc ρ
  calls : List ρ

/-- What the threads share, the number of workers created, and whether a thread has ended the
process. -/
structure Shared (n : ℕ) (ρ : Type) where
  reqMutex : Mutex (Option (Fin n))
  reqCond : Condition (Option (Fin n))
  requestQueue : Steque ρ
  created : ℕ
  exited : Bool

/-- The local states of the boss and of the workers. -/
abbrev Local (n : ℕ) (ρ : Type) : Option (Fin n) → Type
  | none => Boss ρ
  | some _ => Worker ρ

/-- One step of worker `i` in `thread_main`, where `spurious` wakes it up without a signal. -/
def threadMain (i : Fin n) (spurious : Bool) (s : Shared n ρ) (w : Worker ρ) :
    Option (Shared n ρ × Worker ρ) :=
  if s.exited = true ∨ s.created ≤ i then none else
  match w.pc with
  | .lock =>
    (s.reqMutex.lock (some i)).map fun reqMutex => ({ s with reqMutex }, { w with pc := .test })
  | .test =>
    some (s, { w with pc := if s.requestQueue.isempty then .wait else .pop })
  | .wait =>
    some ({ s with reqMutex := s.reqMutex.unlock, reqCond := s.reqCond.wait (some i) },
      { w with pc := .blocked })
  | .blocked =>
    if spurious then some ({ s with reqCond := s.reqCond.spurious (some i) }, w)
    else (s.reqCond.awake s.reqMutex (some i)).map fun reqMutex =>
      ({ s with reqMutex }, { w with pc := .test })
  | .pop =>
    match s.requestQueue.pop with
    | none => some ({ s with exited := true }, w)
    | some (req, requestQueue) => some ({ s with requestQueue }, { w with pc := .unlock req })
  | .unlock req =>
    some ({ s with reqMutex := s.reqMutex.unlock }, { w with pc := .perform req })
  | .perform req =>
    some (s, { pc := .test, performed := w.performed ++ [req] })

/-- One step of the boss in `handler_init` or `handler_get`, where `success` is the result of
`pthread_create`. -/
def handlerGet (success : Bool) (s : Shared n ρ) (b : Boss ρ) : Option (Shared n ρ × Boss ρ) :=
  if s.exited then none else
  match b.pc with
  | .create =>
    if s.created < n then
      if success then some ({ s with created := s.created + 1 }, b)
      else some ({ s with exited := true }, b)
    else some (s, { b with pc := .init })
  | .init =>
    some ({ s with requestQueue := Steque.init }, { b with pc := .call })
  | .call =>
    match b.calls with
    | [] => none
    | request :: calls => some (s, { pc := .lock request, calls })
  | .lock request =>
    (s.reqMutex.lock none).map fun reqMutex =>
      ({ s with reqMutex }, { b with pc := .enqueue request })
  | .enqueue request =>
    some ({ s with requestQueue := s.requestQueue.enqueue request }, { b with pc := .signal })
  | .signal =>
    some ({ s with reqCond := s.reqCond.signal }, { b with pc := .unlock })
  | .unlock =>
    some ({ s with reqMutex := s.reqMutex.unlock }, { b with pc := .call })

/-- The code of the boss and of the workers. -/
def code : Code (fun _ => Bool) (Shared n ρ) (Local n ρ)
  | none => handlerGet
  | some i => threadMain i

/-- The server when `main` calls `handler_init`, before the calls of `handler_get`. -/
def start (calls : List ρ) : Pool (Shared n ρ) (Local n ρ) where
  shared :=
    { reqMutex := Mutex.free, reqCond := Condition.init, requestQueue := [], created := 0,
      exited := false }
  threads
    | none => { pc := .create, calls }
    | some _ => { pc := .lock, performed := [] }

/-- The schedules: which thread goes on, with a spurious wake-up or the result of
`pthread_create`. -/
abbrev Schedule (n : ℕ) := List (Σ _ : Option (Fin n), Bool)

/-! ### What a step does -/

/-- The steps of `thread_main`. -/
inductive WorkerStep (i : Fin n) (s : Shared n ρ) : Worker ρ → Shared n ρ → Worker ρ → Prop where
  | lock (performed : List ρ) (free : s.reqMutex.owner = none) :
      WorkerStep i s ⟨.lock, performed⟩ { s with reqMutex := { owner := some (some i) } }
        ⟨.test, performed⟩
  | empty (performed : List ρ) (queue : s.requestQueue = []) :
      WorkerStep i s ⟨.test, performed⟩ s ⟨.wait, performed⟩
  | found (performed : List ρ) (queue : s.requestQueue ≠ []) :
      WorkerStep i s ⟨.test, performed⟩ s ⟨.pop, performed⟩
  | wait (performed : List ρ) (reqCond : Condition (Option (Fin n))) :
      WorkerStep i s ⟨.wait, performed⟩ { s with reqMutex := Mutex.free, reqCond }
        ⟨.blocked, performed⟩
  | spurious (performed : List ρ) (reqCond : Condition (Option (Fin n))) :
      WorkerStep i s ⟨.blocked, performed⟩ { s with reqCond } ⟨.blocked, performed⟩
  | awake (performed : List ρ) (free : s.reqMutex.owner = none) :
      WorkerStep i s ⟨.blocked, performed⟩ { s with reqMutex := { owner := some (some i) } }
        ⟨.test, performed⟩
  | pop (performed : List ρ) (req : ρ) (requestQueue : Steque ρ)
      (pop : s.requestQueue = req :: requestQueue) :
      WorkerStep i s ⟨.pop, performed⟩ { s with requestQueue } ⟨.unlock req, performed⟩
  | underflow (performed : List ρ) :
      WorkerStep i s ⟨.pop, performed⟩ { s with exited := true } ⟨.pop, performed⟩
  | unlock (performed : List ρ) (req : ρ) :
      WorkerStep i s ⟨.unlock req, performed⟩ { s with reqMutex := Mutex.free }
        ⟨.perform req, performed⟩
  | perform (performed : List ρ) (req : ρ) :
      WorkerStep i s ⟨.perform req, performed⟩ s ⟨.test, performed ++ [req]⟩

/-- Every step of `thread_main` is one of the listed ones. -/
theorem threadMain_cases {i : Fin n} {spurious : Bool} {s s' : Shared n ρ} {w w' : Worker ρ}
    (h : threadMain i spurious s w = some (s', w')) :
  WorkerStep i s w s' w'
  := by
  obtain ⟨pc, performed⟩ := w
  unfold threadMain at h
  by_cases he : s.exited = true ∨ s.created ≤ i
  · rw [if_pos he] at h
    cases h
  · rw [if_neg he] at h
    cases pc with
    | lock =>
        obtain ⟨m, hm, heq⟩ := Option.map_eq_some_iff.mp h
        obtain ⟨hfree, rfl⟩ := Mutex.lock_eq_some hm
        cases heq
        exact .lock performed hfree
    | test =>
        cases hq : s.requestQueue.isempty with
        | true =>
            simp only [hq, if_true] at h
            cases h
            exact .empty performed ((Steque.isempty_iff _).mp hq)
        | false =>
            simp only [hq, Bool.false_eq_true, if_false] at h
            cases h
            exact .found performed ((Steque.isempty_eq_false _).mp hq)
    | wait =>
        cases h
        exact .wait performed _
    | blocked =>
        cases spurious with
        | true =>
            cases h
            exact .spurious performed _
        | false =>
            obtain ⟨m, hm, heq⟩ := Option.map_eq_some_iff.mp h
            obtain ⟨hfree, rfl⟩ := Condition.awake_eq_some hm
            cases heq
            exact .awake performed hfree
    | pop =>
        cases hq : s.requestQueue.pop with
        | none =>
            simp only [hq] at h
            cases h
            exact .underflow performed
        | some r =>
            simp only [hq] at h
            cases h
            exact .pop performed r.1 r.2 (Steque.pop_eq_some hq)
    | unlock req =>
        cases h
        exact .unlock performed req
    | perform req =>
        cases h
        exact .perform performed req

/-- The steps of `handler_init` and `handler_get`. -/
inductive BossStep (s : Shared n ρ) : Boss ρ → Shared n ρ → Boss ρ → Prop where
  | create (calls : List ρ) (created : ℕ) (exited : Bool) :
      BossStep s ⟨.create, calls⟩ { s with created, exited } ⟨.create, calls⟩
  | created (calls : List ρ) :
      BossStep s ⟨.create, calls⟩ s ⟨.init, calls⟩
  | init (calls : List ρ) :
      BossStep s ⟨.init, calls⟩ { s with requestQueue := [] } ⟨.call, calls⟩
  | call (request : ρ) (calls : List ρ) :
      BossStep s ⟨.call, request :: calls⟩ s ⟨.lock request, calls⟩
  | lock (request : ρ) (calls : List ρ) (free : s.reqMutex.owner = none) :
      BossStep s ⟨.lock request, calls⟩ { s with reqMutex := { owner := some none } }
        ⟨.enqueue request, calls⟩
  | enqueue (request : ρ) (calls : List ρ) :
      BossStep s ⟨.enqueue request, calls⟩
        { s with requestQueue := s.requestQueue ++ [request] } ⟨.signal, calls⟩
  | signal (calls : List ρ) (reqCond : Condition (Option (Fin n))) :
      BossStep s ⟨.signal, calls⟩ { s with reqCond } ⟨.unlock, calls⟩
  | unlock (calls : List ρ) :
      BossStep s ⟨.unlock, calls⟩ { s with reqMutex := Mutex.free } ⟨.call, calls⟩

/-- Every step of the boss is one of the listed ones. -/
theorem handlerGet_cases {success : Bool} {s s' : Shared n ρ} {b b' : Boss ρ}
    (h : handlerGet success s b = some (s', b')) :
  BossStep s b s' b'
  := by
  obtain ⟨pc, calls⟩ := b
  unfold handlerGet at h
  by_cases he : s.exited = true
  · rw [if_pos he] at h
    cases h
  · rw [if_neg he] at h
    cases pc with
    | create =>
        by_cases hn : s.created < n
        · simp only [if_pos hn] at h
          cases success with
          | true =>
              cases h
              exact .create calls _ s.exited
          | false =>
              cases h
              exact .create calls s.created _
        · simp only [if_neg hn] at h
          cases h
          exact .created calls
    | init =>
        cases h
        exact .init calls
    | call =>
        cases calls with
        | nil => cases h
        | cons request calls =>
            cases h
            exact .call request calls
    | lock request =>
        obtain ⟨m, hm, heq⟩ := Option.map_eq_some_iff.mp h
        obtain ⟨hfree, rfl⟩ := Mutex.lock_eq_some hm
        cases heq
        exact .lock request calls hfree
    | enqueue request =>
        cases h
        exact .enqueue request calls
    | signal =>
        cases h
        exact .signal calls _
    | unlock =>
        cases h
        exact .unlock calls

/-! ### No request is lost -/

/-- The request that a worker has popped and not yet handed to `handler_perform`. -/
def Pc.held : Pc ρ → Multiset ρ
  | .unlock req | .perform req => {req}
  | _ => 0

/-- The requests that the boss has not yet enqueued. -/
def Boss.pending (b : Boss ρ) : Multiset ρ :=
  match b.pc with
  | .lock request | .enqueue request => request ::ₘ b.calls
  | _ => b.calls

/-- The requests that a thread holds, has performed or has still to enqueue. -/
def taken : ∀ t : Option (Fin n), Local n ρ t → Multiset ρ
  | none => Boss.pending
  | some _ => fun w => w.pc.held + w.performed

/-- Each request of the calls of `handler_get` is not yet enqueued, in the queue, held by one
worker or performed by one worker. -/
def Conserved (calls : List ρ) (p : Pool (Shared n ρ) (Local n ρ)) : Prop :=
  (p.shared.requestQueue : Multiset ρ) + ∑ t, taken t (p.threads t) = calls

/-- Every step of a worker conserves the requests in the queue and with the worker. -/
theorem WorkerStep.conserved {i : Fin n} {s s' : Shared n ρ} {w w' : Worker ρ}
    (h : WorkerStep i s w s' w') :
  (s'.requestQueue : Multiset ρ) + taken (some i) w' = s.requestQueue + taken (some i) w
  := by
  cases h with
  | lock | empty | found | wait | spurious | awake | underflow | unlock => rfl
  | pop performed req requestQueue pop =>
      simp only [taken, Pc.held, pop, ← Multiset.cons_coe, ← Multiset.singleton_add]
      rw [zero_add]
      ac_rfl
  | perform performed req =>
      simp only [taken, Pc.held, ← Multiset.coe_add, Multiset.coe_singleton]
      rw [zero_add, add_comm (performed : Multiset ρ)]

/-- The queue is empty until the boss has called `steque_init`. -/
def Young (p : Pool (Shared n ρ) (Local n ρ)) : Prop :=
  (p.threads none).pc = .create ∨ (p.threads none).pc = .init → p.shared.requestQueue = []

/-- Every step of the boss conserves the requests in the queue and with the boss. -/
theorem BossStep.conserved {s s' : Shared n ρ} {b b' : Boss ρ} (h : BossStep s b s' b')
    (young : b.pc = .create ∨ b.pc = .init → s.requestQueue = []) :
  (s'.requestQueue : Multiset ρ) + taken (n := n) none b'
    = s.requestQueue + taken (n := n) none b
  := by
  cases h with
  | create | created | call | lock | signal | unlock => rfl
  | init calls =>
      rw [young (.inr rfl)]
      rfl
  | enqueue request calls =>
      simp only [taken, Boss.pending, ← Multiset.coe_add, Multiset.coe_singleton,
        ← Multiset.singleton_add]
      ac_rfl

/-- Every step of the boss keeps the queue empty until `steque_init`. -/
theorem BossStep.young {s s' : Shared n ρ} {b b' : Boss ρ} (h : BossStep s b s' b')
    (young : b.pc = .create ∨ b.pc = .init → s.requestQueue = [])
    (hpc : b'.pc = .create ∨ b'.pc = .init) :
  s'.requestQueue = []
  := by
  cases h with
  | create => exact young (.inl rfl)
  | created => exact young (.inl rfl)
  | init | call | lock | enqueue | signal | unlock => simp at hpc

/-- Only a worker that pops changes the queue. -/
theorem WorkerStep.queue {i : Fin n} {s s' : Shared n ρ} {w w' : Worker ρ}
    (h : WorkerStep i s w s' w') :
  s'.requestQueue = s.requestQueue ∨ w.pc = .pop ∧ s.requestQueue ≠ []
  := by
  cases h with
  | pop performed req requestQueue pop =>
      right
      rw [pop]
      exact ⟨rfl, List.cons_ne_nil _ _⟩
  | lock | empty | found | wait | spurious | awake | underflow | unlock | perform =>
      exact .inl rfl

variable {calls : List ρ} {p p' : Pool (Shared n ρ) (Local n ρ)}

/-- Every step keeps the queue empty until `steque_init`. -/
theorem Young.step {a : Σ _ : Option (Fin n), Bool} (h : Young p)
    (hs : Pool.step code a p = some p') :
  Young p'
  := by
  intro hpc
  obtain ⟨t, ok⟩ := a
  cases t with
  | none => exact (handlerGet_cases (Pool.step_own hs)).young h hpc
  | some i =>
      rw [Pool.step_other hs (Option.some_ne_none i).symm] at hpc
      obtain hq | ⟨-, hne⟩ := (threadMain_cases (Pool.step_own hs)).queue
      · rw [hq]
        apply h hpc
      · exact absurd (h hpc) hne

/-- Every step conserves the requests. -/
theorem Conserved.step {a : Σ _ : Option (Fin n), Bool} (hy : Young p) (h : Conserved calls p)
    (hs : Pool.step code a p = some p') :
  Conserved calls p'
  := by
  rw [Conserved, ← h]
  refine Pool.step_conserved (fun s : Shared n ρ => (s.requestQueue : Multiset ρ)) taken ?_ hs
  obtain ⟨t, ok⟩ := a
  cases t with
  | none => exact (handlerGet_cases (Pool.step_own hs)).conserved hy
  | some i => exact (threadMain_cases (Pool.step_own hs)).conserved

/-- Every state that a run reaches conserves the requests. -/
theorem Conserved.run {as : Schedule n} (h : run (Pool.step code) as (start calls) = some p) :
  Conserved calls p
  := by
  have hstart : Young (start calls : Pool (Shared n ρ) (Local n ρ)) ∧
      Conserved calls (start calls : Pool (Shared n ρ) (Local n ρ)) := by
    constructor
    · intro _
      rfl
    · simp [Conserved, Fintype.sum_option, start, taken, Boss.pending, Pc.held]
  apply And.right (a := Young p)
  apply run_invariant (I := fun p => Young p ∧ Conserved calls p) _ hstart h
  intro a s s' hs hstep
  exact ⟨hs.1.step hstep, hs.2.step hs.1 hstep⟩

/-! ### The mutex and the first round -/

/-- A worker that has performed a request is back at the test of its loop, and goes no
further. -/
def Worker.FirstRound (w : Worker ρ) : Prop :=
  w.performed = [] ∨ w.pc = .test

/-- A worker inside the section of the mutex, in its first round. -/
def Worker.Inside (w : Worker ρ) : Prop :=
  match w.pc with
  | .test => w.performed = []
  | .wait | .pop | .unlock _ => True
  | .lock | .blocked | .perform _ => False

/-- The boss inside the section of the mutex. -/
def Boss.Inside (b : Boss ρ) : Prop :=
  match b.pc with
  | .enqueue _ | .signal | .unlock => True
  | .create | .init | .call | .lock _ => False

/-- The threads inside the section of the mutex. -/
def Inside : ∀ t : Option (Fin n), Local n ρ t → Prop
  | none => Boss.Inside
  | some _ => Worker.Inside

/-- A worker accesses the queue only when it owns the mutex, and pops only what is there. -/
def SafeAccess (a : Σ _ : Option (Fin n), Bool) (p : Pool (Shared n ρ) (Local n ρ)) : Prop :=
  match a.1 with
  | none => True
  | some i =>
    ((p.threads (some i)).pc = .test ∨ (p.threads (some i)).pc = .pop →
      p.shared.reqMutex.owner = some (some i)) ∧
    ((p.threads (some i)).pc = .pop → p.shared.requestQueue ≠ [])

/-- A worker that tests the queue has not yet performed a request. -/
def FirstTest (a : Σ _ : Option (Fin n), Bool) (p : Pool (Shared n ρ) (Local n ρ)) : Prop :=
  match a.1 with
  | none => True
  | some i => (p.threads (some i)).pc = .test → (p.threads (some i)).performed = []

/-- Every step of the boss takes the mutex when it enters the section and gives it back when
it leaves. -/
theorem BossStep.handover {s s' : Shared n ρ} {b b' : Boss ρ} (h : BossStep s b s' b')
    (own : s.reqMutex.owner = some none ↔ b.Inside) :
  Handover none s.reqMutex.owner s'.reqMutex.owner b.Inside b'.Inside
  := by
  cases h with
  | create | created | init | call | enqueue | signal => exact .keep rfl Iff.rfl
  | lock request calls free => exact .take free rfl trivial
  | unlock calls => exact .give (own.mpr trivial) rfl id

/-- In its first round, every step of a worker takes the mutex when it enters the section and
gives it back when it leaves. -/
theorem WorkerStep.handover {i : Fin n} {s s' : Shared n ρ} {w w' : Worker ρ}
    (h : WorkerStep i s w s' w') (own : s.reqMutex.owner = some (some i) ↔ w.Inside)
    (first : w.FirstRound) (test : w.pc = .test → w.performed = []) :
  Handover (some i) s.reqMutex.owner s'.reqMutex.owner w.Inside w'.Inside
  := by
  cases h with
  | lock performed free =>
      obtain hp | hpc := first
      · exact .take free rfl hp
      · cases hpc
  | awake performed free =>
      obtain hp | hpc := first
      · exact .take free rfl hp
      · cases hpc
  | empty performed queue => exact .keep rfl ⟨fun _ => test rfl, fun _ => trivial⟩
  | found performed queue => exact .keep rfl ⟨fun _ => test rfl, fun _ => trivial⟩
  | wait performed reqCond => exact .give (own.mpr trivial) rfl id
  | spurious | pop | underflow => exact .keep rfl Iff.rfl
  | unlock performed req => exact .give (own.mpr trivial) rfl id
  | perform performed req =>
      exact .keep rfl ⟨fun hp => absurd hp (List.append_ne_nil_of_right_ne_nil _ nofun), False.elim⟩

/-- A worker that tests the queue in its first round only does not go further in a later
one. -/
theorem WorkerStep.firstRound {i : Fin n} {s s' : Shared n ρ} {w w' : Worker ρ}
    (h : WorkerStep i s w s' w') (first : w.FirstRound) (test : w.pc = .test → w.performed = []) :
  w'.FirstRound
  := by
  cases h with
  | empty | found => exact .inl (test rfl)
  | perform | awake | lock => exact .inr rfl
  | wait | spurious | pop | underflow | unlock =>
      obtain hp | hpc := first
      · exact .inl hp
      · cases hpc

/-- A worker comes to the pop by finding the queue non-empty. -/
theorem WorkerStep.found_queue {i : Fin n} {s s' : Shared n ρ} {w w' : Worker ρ}
    (h : WorkerStep i s w s' w') (before : w.pc = .pop → s.requestQueue ≠ [])
    (hpc : w'.pc = .pop) :
  s'.requestQueue ≠ []
  := by
  cases h with
  | found performed queue => exact queue
  | underflow => exact before rfl
  | lock | empty | wait | spurious | awake | pop | unlock | perform => cases hpc

/-- The boss empties the queue only in `steque_init`. -/
theorem BossStep.queue {s s' : Shared n ρ} {b b' : Boss ρ} (h : BossStep s b s' b')
    (hq : s.requestQueue ≠ []) :
  b.pc = .init ∨ s'.requestQueue ≠ []
  := by
  cases h with
  | init => exact .inl rfl
  | enqueue request calls => exact .inr (List.append_ne_nil_of_left_ne_nil hq _)
  | create | created | call | lock | signal | unlock => exact .inr hq

/-- As long as workers test the queue in their first round only, the mutex is owned by the
thread inside its section, and a worker that is about to pop finds a request. -/
structure Invariant (p : Pool (Shared n ρ) (Local n ρ)) : Prop where
  young : Young p
  owned : Owned (fun s : Shared n ρ => s.reqMutex.owner) Inside p
  first : ∀ i, (p.threads (some i)).FirstRound
  found : ∀ i, (p.threads (some i)).pc = .pop → p.shared.requestQueue ≠ []

theorem Invariant.start (calls : List ρ) :
  Invariant (start calls : Pool (Shared n ρ) (Local n ρ))
  where
  young _ := rfl
  owned t := by
    cases t with
    | none => exact ⟨nofun, False.elim⟩
    | some i => exact ⟨nofun, False.elim⟩
  first i := .inl rfl
  found i h := by cases h

/-- Every step that meets the condition keeps the invariant. -/
theorem Invariant.step {a : Σ _ : Option (Fin n), Bool} (h : Invariant p) (ha : FirstTest a p)
    (hs : Pool.step code a p = some p') :
  Invariant p'
  where
  young := h.young.step hs
  owned := by
    apply h.owned.step _ hs
    obtain ⟨t, ok⟩ := a
    cases t with
    | none => exact (handlerGet_cases (Pool.step_own hs)).handover (h.owned none)
    | some i =>
        exact (threadMain_cases (Pool.step_own hs)).handover (h.owned (some i)) (h.first i) ha
  first i := by
    obtain ⟨t, ok⟩ := a
    by_cases hi : some i = t
    · subst hi
      exact (threadMain_cases (Pool.step_own hs)).firstRound (h.first i) ha
    · rw [Pool.step_other hs hi]
      apply h.first i
  found i hpc := by
    obtain ⟨t, ok⟩ := a
    cases t with
    | none =>
        rw [Pool.step_other hs (Option.some_ne_none i)] at hpc
        obtain hinit | hq := (handlerGet_cases (Pool.step_own hs)).queue (h.found i hpc)
        · exact absurd (h.young (.inr hinit)) (h.found i hpc)
        · exact hq
    | some j =>
        have hw := threadMain_cases (Pool.step_own hs)
        by_cases hij : i = j
        · subst hij
          exact hw.found_queue (h.found i) hpc
        · have hne : some i ≠ some j := fun he => hij (Option.some.inj he)
          rw [Pool.step_other hs hne] at hpc
          obtain hq | ⟨hpop, -⟩ := hw.queue
          · rw [hq]
            apply h.found i hpc
          · refine absurd (h.owned.unique (t := some i) (u := some j) ?_ ?_) hne
            · simp only [Inside, Worker.Inside, hpc]
            · simp only [Inside, Worker.Inside, hpop]

/-- Under the invariant the accesses that are safe are those of the first round. -/
theorem Invariant.safeAccess_iff {a : Σ _ : Option (Fin n), Bool} (h : Invariant p) :
  SafeAccess a p ↔ FirstTest a p
  := by
  obtain ⟨t, ok⟩ := a
  cases t with
  | none => rfl
  | some i =>
      have hown := h.owned (some i)
      constructor
      · intro hsafe htest
        have hin : (p.threads (some i)).Inside := hown.mp (hsafe.1 (.inl htest))
        simp only [Worker.Inside, htest] at hin
        exact hin
      · intro hfirst
        refine ⟨fun hpc => hown.mpr ?_, h.found i⟩
        obtain htest | hpop := hpc
        · simp only [Inside, Worker.Inside, htest]
          apply hfirst htest
        · simp only [Inside, Worker.Inside, hpop]

/-- For every number of workers, every sequence of calls of `handler_get` and every schedule:
all accesses of the workers to the queue are safe, and in every state that is reached each
request is not yet enqueued, in the queue, held by one worker or performed by one worker, if
and only if workers test the queue in their first round only. -/
theorem pool_safe_iff (calls : List ρ) (as : Schedule n) :
  (Along (Pool.step code) SafeAccess as (start calls) ∧
    ∀ bs p, bs <+: as → run (Pool.step code) bs (start calls) = some p → Conserved calls p) ↔
  Along (Pool.step code) FirstTest as (start calls)
  := by
  have hiff : Along (Pool.step code) SafeAccess as (start calls) ↔
      Along (Pool.step code) FirstTest as (start calls) :=
    along_iff (fun _ _ _ h ha hs => Invariant.step h ha hs) (fun _ _ h => h.safeAccess_iff)
      (Invariant.start calls)
  rw [hiff]
  constructor
  · intro h
    exact h.1
  · intro h
    exact ⟨h, fun _ _ _ hr => Conserved.run hr⟩

/-- One worker performs the first request, comes back and tests the queue without owning the
mutex. -/
theorem not_pool_safe :
  ¬ ∀ (calls : List ℕ) (as : Schedule 1),
    Along (Pool.step code) SafeAccess as (start calls)
  := by
  intro h
  have hsafe := h [0] (List.replicate 8 ⟨none, true⟩ ++ List.replicate 5 ⟨some 0, false⟩
    ++ [⟨some 0, false⟩])
  have hown := (hsafe.after rfl).1 (.inl rfl)
  cases hown

end GetFile.Handler
