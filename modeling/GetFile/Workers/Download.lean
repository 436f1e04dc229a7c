import GetFile.Steque.Items
import GetFile.Transition.Monitor
import GetFile.Transition.Threads
import Mathlib.Algebra.Order.BigOperators.Group.Finset
import Mathlib.Algebra.Order.Group.Multiset
import Mathlib.Data.Fintype.BigOperators

/-!
# The worker threads of the download client

The boss of the multithreaded client starts the threads in `thread_pool_init`, enqueues the
paths of the workload with `enqueue_work` and joins the threads; a thread runs `thread_main`
until it finds the queue empty. Thread `none` is the boss and thread `some i` is worker number
`i`.

The boss enqueues after it has started the workers, so a worker may find the queue empty
before the last request is in it. All requests are handled if some worker is still in its loop
when the last one is enqueued.
-/

namespace GetFile.Download

open Transition

variable {n : ℕ}

/-- A path of the workload, as the bytes of the string. -/
abbrev Path := List UInt8

/-- The next call of a worker in `thread_main`, with its local variable `req`. -/
inductive Pc where
  | lock
  | test
  | leave
  | pop
  | unlock (req : Path)
  | perform (req : Path)
  | exit
  | returned
  deriving DecidableEq

/-- A worker in `thread_main`, and the requests it has handed to `perform_work`. -/
structure Worker where
  pc : Pc
  performed : List Path

/-- The next call of the boss in `thread_pool_init`, in `enqueue_work`, and in the join loop
of `main`. -/
inductive BossPc where
  | create
  | init
  | next
  | lock (path : Path)
  | enqueue (path : Path)
  | unlock
  | broadcast
  | join (i : ℕ)
  | joined
  deriving DecidableEq

/-- The boss, and the paths that `workload_get_path` will give. -/
structure Boss where
  pc : BossPc
  paths : List Path

/-- What the threads share, the number of workers created, the workers that have ended, and
whether a thread has ended the process. -/
structure Shared (n : ℕ) where
  reqMutex : Mutex (Option (Fin n))
  reqCond : Condition (Option (Fin n))
  requestQueue : Steque Path
  created : ℕ
  finished : List (Fin n)
  exited : Bool

/-- The local states of the boss and of the workers. -/
abbrev Local (n : ℕ) : Option (Fin n) → Type
  | none => Boss
  | some _ => Worker

/-- One step of worker `i` in `thread_main`, where `returns` is whether `perform_work` returns. It
ends the process when `openFile` cannot make a directory or open the file. -/
def threadMain (i : Fin n) (returns : Bool) (s : Shared n) (w : Worker) :
    Option (Shared n × Worker) :=
  if s.exited = true ∨ s.created ≤ i then none else
  match w.pc with
  | .lock =>
    (s.reqMutex.lock (some i)).map fun reqMutex => ({ s with reqMutex }, { w with pc := .test })
  | .test =>
    some (s, { w with pc := if s.requestQueue.isempty then .leave else .pop })
  | .leave =>
    some ({ s with reqMutex := s.reqMutex.unlock }, { w with pc := .exit })
  | .pop =>
    match s.requestQueue.pop with
    | none => some ({ s with exited := true }, w)
    | some (req, requestQueue) => some ({ s with requestQueue }, { w with pc := .unlock req })
  | .unlock req =>
    some ({ s with reqMutex := s.reqMutex.unlock }, { w with pc := .perform req })
  | .perform req =>
    if returns then some (s, { pc := .lock, performed := w.performed ++ [req] })
    else some ({ s with exited := true }, w)
  | .exit =>
    some ({ s with finished := i :: s.finished }, { w with pc := .returned })
  | .returned => none

/-- One step of the boss, where `success` is the result of `pthread_create`. -/
def main (success : Bool) (s : Shared n) (b : Boss) : Option (Shared n × Boss) :=
  if s.exited then none else
  match b.pc with
  | .create =>
    if s.created < n then
      if success then some ({ s with created := s.created + 1 }, b)
      else some ({ s with exited := true }, b)
    else some (s, { b with pc := .init })
  | .init =>
    some ({ s with requestQueue := Steque.init }, { b with pc := .next })
  | .next =>
    match b.paths with
    | [] => some (s, { b with pc := .broadcast })
    | path :: paths =>
      if 256 < path.length then some ({ s with exited := true }, b)
      else some (s, { pc := .lock path, paths })
  | .lock path =>
    (s.reqMutex.lock none).map fun reqMutex => ({ s with reqMutex }, { b with pc := .enqueue path })
  | .enqueue path =>
    some ({ s with requestQueue := s.requestQueue.enqueue path }, { b with pc := .unlock })
  | .unlock =>
    some ({ s with reqMutex := s.reqMutex.unlock }, { b with pc := .next })
  | .broadcast =>
    some ({ s with reqCond := s.reqCond.broadcast }, { b with pc := .join 0 })
  | .join i =>
    if h : i < n then
      if ⟨i, h⟩ ∈ s.finished then some (s, { b with pc := .join (i + 1) }) else none
    else some (s, { b with pc := .joined })
  | .joined => none

/-- The code of the boss and of the workers. -/
def code : Code (fun _ => Bool) (Shared n) (Local n)
  | none => main
  | some i => threadMain i

/-- The client when `main` calls `thread_pool_init`, with the paths that
`workload_get_path` will give for the `nrequests * nthreads` requests. -/
def start (paths : List Path) : Pool (Shared n) (Local n) where
  shared :=
    { reqMutex := Mutex.free, reqCond := Condition.init, requestQueue := [], created := 0,
      finished := [], exited := false }
  threads
    | none => { pc := .create, paths }
    | some _ => { pc := .lock, performed := [] }

/-- The schedules: which thread goes on, with the result of `pthread_create`, or with whether
`perform_work` returns. -/
abbrev Schedule (n : ℕ) := List (Σ _ : Option (Fin n), Bool)

/-! ### What a step does -/

/-- The steps of `thread_main`. -/
inductive WorkerStep (i : Fin n) (s : Shared n) : Worker → Shared n → Worker → Prop where
  | lock (performed : List Path) (reqMutex : Mutex (Option (Fin n))) :
      WorkerStep i s ⟨.lock, performed⟩ { s with reqMutex } ⟨.test, performed⟩
  | empty (performed : List Path) (queue : s.requestQueue = []) :
      WorkerStep i s ⟨.test, performed⟩ s ⟨.leave, performed⟩
  | found (performed : List Path) :
      WorkerStep i s ⟨.test, performed⟩ s ⟨.pop, performed⟩
  | leave (performed : List Path) (reqMutex : Mutex (Option (Fin n))) :
      WorkerStep i s ⟨.leave, performed⟩ { s with reqMutex } ⟨.exit, performed⟩
  | pop (performed : List Path) (req : Path) (requestQueue : Steque Path)
      (pop : s.requestQueue = req :: requestQueue) :
      WorkerStep i s ⟨.pop, performed⟩ { s with requestQueue } ⟨.unlock req, performed⟩
  | underflow (performed : List Path) :
      WorkerStep i s ⟨.pop, performed⟩ { s with exited := true } ⟨.pop, performed⟩
  | unlock (performed : List Path) (req : Path) (reqMutex : Mutex (Option (Fin n))) :
      WorkerStep i s ⟨.unlock req, performed⟩ { s with reqMutex } ⟨.perform req, performed⟩
  | perform (performed : List Path) (req : Path) :
      WorkerStep i s ⟨.perform req, performed⟩ s ⟨.lock, performed ++ [req]⟩
  | fail (performed : List Path) (req : Path) :
      WorkerStep i s ⟨.perform req, performed⟩ { s with exited := true } ⟨.perform req, performed⟩
  | exit (performed : List Path) :
      WorkerStep i s ⟨.exit, performed⟩ { s with finished := i :: s.finished }
        ⟨.returned, performed⟩

/-- Every step of `thread_main` is one of the listed ones. -/
theorem threadMain_cases {i : Fin n} {returns : Bool} {s s' : Shared n} {w w' : Worker}
    (h : threadMain i returns s w = some (s', w')) :
  WorkerStep i s w s' w'
  := by
  obtain ⟨pc, performed⟩ := w
  unfold threadMain at h
  by_cases he : s.exited = true ∨ s.created ≤ i
  · rw [if_pos he] at h
    cases h
  · rw [if_neg he] at h
    cases pc with
    | lock =>
        obtain ⟨m, hm, heq⟩ := Option.map_eq_some_iff.mp h
        cases heq
        exact .lock performed m
    | test =>
        cases hq : s.requestQueue.isempty with
        | true =>
            simp only [hq, if_true] at h
            cases h
            exact .empty performed ((Steque.isempty_iff _).mp hq)
        | false =>
            simp only [hq, Bool.false_eq_true, if_false] at h
            cases h
            exact .found performed
    | leave =>
        cases h
        exact .leave performed _
    | pop =>
        cases hq : s.requestQueue.pop with
        | none =>
            simp only [hq] at h
            cases h
            exact .underflow performed
        | some r =>
            simp only [hq] at h
            cases h
            exact .pop performed r.1 r.2 (Steque.pop_eq_some hq)
    | unlock req =>
        cases h
        exact .unlock performed req _
    | perform req =>
        cases returns with
        | true =>
            cases h
            exact .perform performed req
        | false =>
            cases h
            exact .fail performed req
    | exit =>
        cases h
        exact .exit performed
    | returned => cases h

/-- The steps of the boss. -/
inductive BossStep (s : Shared n) : Boss → Shared n → Boss → Prop where
  | create (paths : List Path) (created : ℕ) (exited : Bool) :
      BossStep s ⟨.create, paths⟩ { s with created, exited } ⟨.create, paths⟩
  | created (paths : List Path) :
      BossStep s ⟨.create, paths⟩ s ⟨.init, paths⟩
  | init (paths : List Path) :
      BossStep s ⟨.init, paths⟩ { s with requestQueue := [] } ⟨.next, paths⟩
  | last :
      BossStep s ⟨.next, []⟩ s ⟨.broadcast, []⟩
  | long (paths : List Path) :
      BossStep s ⟨.next, paths⟩ { s with exited := true } ⟨.next, paths⟩
  | next (path : Path) (paths : List Path) :
      BossStep s ⟨.next, path :: paths⟩ s ⟨.lock path, paths⟩
  | lock (path : Path) (paths : List Path) (reqMutex : Mutex (Option (Fin n))) :
      BossStep s ⟨.lock path, paths⟩ { s with reqMutex } ⟨.enqueue path, paths⟩
  | enqueue (path : Path) (paths : List Path) :
      BossStep s ⟨.enqueue path, paths⟩ { s with requestQueue := s.requestQueue ++ [path] }
        ⟨.unlock, paths⟩
  | unlock (paths : List Path) (reqMutex : Mutex (Option (Fin n))) :
      BossStep s ⟨.unlock, paths⟩ { s with reqMutex } ⟨.next, paths⟩
  | broadcast (paths : List Path) (reqCond : Condition (Option (Fin n))) :
      BossStep s ⟨.broadcast, paths⟩ { s with reqCond } ⟨.join 0, paths⟩
  | join (paths : List Path) (i : Fin n) (finished : i ∈ s.finished) :
      BossStep s ⟨.join i, paths⟩ s ⟨.join (i + 1), paths⟩
  | joined (paths : List Path) (i : ℕ) (all : n ≤ i) :
      BossStep s ⟨.join i, paths⟩ s ⟨.joined, paths⟩

/-- Every step of the boss is one of the listed ones. -/
theorem main_cases {success : Bool} {s s' : Shared n} {b b' : Boss}
    (h : main success s b = some (s', b')) :
  BossStep s b s' b'
  := by
  obtain ⟨pc, paths⟩ := b
  unfold main at h
  by_cases he : s.exited = true
  · rw [if_pos he] at h
    cases h
  · rw [if_neg he] at h
    cases pc with
    | create =>
        by_cases hn : s.created < n
        · simp only [if_pos hn] at h
          cases success with
          | true =>
              cases h
              exact .create paths _ s.exited
          | false =>
              cases h
              exact .create paths s.created _
        · simp only [if_neg hn] at h
          cases h
          exact .created paths
    | init =>
        cases h
        exact .init paths
    | next =>
        cases paths with
        | nil =>
            cases h
            exact .last
        | cons path paths =>
            by_cases hl : 256 < path.length
            · simp only [if_pos hl] at h
              cases h
              exact .long _
            · simp only [if_neg hl] at h
              cases h
              exact .next path paths
    | lock path =>
        obtain ⟨m, hm, heq⟩ := Option.map_eq_some_iff.mp h
        cases heq
        exact .lock path paths m
    | enqueue path =>
        cases h
        exact .enqueue path paths
    | unlock =>
        cases h
        exact .unlock paths _
    | broadcast =>
        cases h
        exact .broadcast paths _
    | join i =>
        by_cases hi : i < n
        · simp only [dif_pos hi] at h
          by_cases hf : ⟨i, hi⟩ ∈ s.finished
          · simp only [if_pos hf] at h
            cases h
            exact .join paths ⟨i, hi⟩ hf
          · simp only [if_neg hf] at h
            cases h
        · simp only [dif_neg hi] at h
          cases h
          exact .joined paths i (Nat.le_of_not_lt hi)
    | joined => cases h

/-! ### No request is lost or handled twice -/

/-- The request that a worker has popped and not yet handed to `perform_work`. -/
def Pc.held : Pc → Multiset Path
  | .unlock req | .perform req => {req}
  | _ => 0

/-- The paths that the boss has not yet enqueued. -/
def Boss.pending (b : Boss) : Multiset Path :=
  match b.pc with
  | .lock path | .enqueue path => path ::ₘ b.paths
  | _ => b.paths

/-- The requests that a thread holds, has performed or has still to enqueue. -/
def taken : ∀ t : Option (Fin n), Local n t → Multiset Path
  | none => Boss.pending
  | some _ => fun w => w.pc.held + w.performed

/-- The queue is empty until the boss has called `steque_init`. -/
def Young (p : Pool (Shared n) (Local n)) : Prop :=
  (p.threads none).pc = .create ∨ (p.threads none).pc = .init → p.shared.requestQueue = []

/-- Each path of the workload is not yet enqueued, in the queue, held by one worker or performed
by one worker. -/
def Conserved (paths : List Path) (p : Pool (Shared n) (Local n)) : Prop :=
  (p.shared.requestQueue : Multiset Path) + ∑ t, taken t (p.threads t) = paths

/-- Every step of a worker conserves the requests in the queue and with the worker. -/
theorem WorkerStep.conserved {i : Fin n} {s s' : Shared n} {w w' : Worker}
    (h : WorkerStep i s w s' w') :
  (s'.requestQueue : Multiset Path) + taken (some i) w' = s.requestQueue + taken (some i) w
  := by
  cases h with
  | lock | empty | found | leave | underflow | unlock | fail | exit => rfl
  | pop performed req requestQueue pop =>
      simp only [taken, Pc.held, pop, ← Multiset.cons_coe, ← Multiset.singleton_add]
      rw [zero_add]
      ac_rfl
  | perform performed req =>
      simp only [taken, Pc.held, ← Multiset.coe_add, Multiset.coe_singleton]
      rw [zero_add, add_comm (performed : Multiset Path)]

/-- Every step of the boss conserves the requests in the queue and with the boss. -/
theorem BossStep.conserved {s s' : Shared n} {b b' : Boss} (h : BossStep s b s' b')
    (young : b.pc = .create ∨ b.pc = .init → s.requestQueue = []) :
  (s'.requestQueue : Multiset Path) + taken (n := n) none b'
    = s.requestQueue + taken (n := n) none b
  := by
  cases h with
  | create | created | last | long | next | lock | unlock | broadcast | join | joined => rfl
  | init paths =>
      rw [young (.inr rfl)]
      rfl
  | enqueue path paths =>
      simp only [taken, Boss.pending, ← Multiset.coe_add, Multiset.coe_singleton,
        ← Multiset.singleton_add]
      ac_rfl

/-- Only a worker that pops changes the queue. -/
theorem WorkerStep.queue {i : Fin n} {s s' : Shared n} {w w' : Worker}
    (h : WorkerStep i s w s' w') :
  s'.requestQueue = s.requestQueue ∨ w.pc = .pop ∧ s.requestQueue ≠ []
  := by
  cases h with
  | pop performed req requestQueue pop =>
      right
      rw [pop]
      exact ⟨rfl, List.cons_ne_nil _ _⟩
  | lock | empty | found | leave | underflow | unlock | perform | fail | exit => exact .inl rfl

/-- Every step of the boss keeps the queue empty until `steque_init`. -/
theorem BossStep.young {s s' : Shared n} {b b' : Boss} (h : BossStep s b s' b')
    (young : b.pc = .create ∨ b.pc = .init → s.requestQueue = [])
    (hpc : b'.pc = .create ∨ b'.pc = .init) :
  s'.requestQueue = []
  := by
  cases h with
  | create => exact young (.inl rfl)
  | created => exact young (.inl rfl)
  | init | last | long | next | lock | enqueue | unlock | broadcast | join | joined =>
      simp at hpc

/-! ### The workers that are still in their loop -/

/-- The worker has found the queue empty. -/
def Pc.Left : Pc → Prop
  | .leave | .exit | .returned => True
  | _ => False

/-- The boss has no request left to enqueue. -/
def Boss.Past (b : Boss) : Prop :=
  b.pending = 0

/-- Some worker has not found the queue empty. -/
def Busy (p : Pool (Shared n) (Local n)) : Prop :=
  ∃ i, ¬ (p.threads (some i)).pc.Left

/-- When the boss enqueues the last request, some worker has not found the queue empty. -/
def BusyAtLast (a : Σ _ : Option (Fin n), Bool) (p : Pool (Shared n) (Local n)) : Prop :=
  a.1 = none → ∀ path, p.threads none = ⟨.enqueue path, []⟩ → Busy p

/-- The state that no run comes back from: a request is in the queue, which is not emptied
again by `steque_init`, and all workers have left. -/
def Stranded (p : Pool (Shared n) (Local n)) : Prop :=
  p.shared.requestQueue ≠ [] ∧ ¬ Busy p ∧
    ¬ ((p.threads none).pc = .create ∨ (p.threads none).pc = .init)

/-- A worker leaves its loop only when the queue is empty. -/
theorem WorkerStep.left {i : Fin n} {s s' : Shared n} {w w' : Worker}
    (h : WorkerStep i s w s' w') :
  w'.pc.Left ∧ ¬ w.pc.Left → s'.requestQueue = []
  := by
  cases h with
  | empty performed queue => exact fun _ => queue
  | lock | found | pop | underflow | unlock | perform | fail => exact fun h => h.1.elim
  | leave | exit => exact fun h => absurd trivial h.2

/-- A worker that has left its loop does not come back, and leaves the queue alone. -/
theorem WorkerStep.stays_left {i : Fin n} {s s' : Shared n} {w w' : Worker}
    (h : WorkerStep i s w s' w') (hl : w.pc.Left) :
  w'.pc.Left ∧ s'.requestQueue = s.requestQueue
  := by
  cases h with
  | leave | exit => exact ⟨trivial, rfl⟩
  | lock | empty | found | pop | underflow | unlock | perform | fail => exact hl.elim

/-- The boss comes past its last request by enqueuing it, or it has none. -/
theorem BossStep.past {s s' : Shared n} {b b' : Boss} (h : BossStep s b s' b') (hb : b'.Past) :
  (∃ path, b = ⟨.enqueue path, []⟩) ∨
    b.Past ∧ (s'.requestQueue = s.requestQueue ∨ s'.requestQueue = [])
  := by
  cases h with
  | enqueue path paths =>
      simp only [Boss.Past, Boss.pending, Multiset.coe_eq_zero] at hb
      rw [hb]
      exact .inl ⟨path, rfl⟩
  | init paths => exact .inr ⟨hb, .inr rfl⟩
  | create | created | last | long | next | lock | unlock | broadcast | join | joined =>
      exact .inr ⟨hb, .inl rfl⟩

/-- From `steque_init` on the boss keeps what is in the queue. -/
theorem BossStep.keeps {s s' : Shared n} {b b' : Boss} (h : BossStep s b s' b')
    (hb : ¬ (b.pc = .create ∨ b.pc = .init)) (hq : s.requestQueue ≠ []) :
  s'.requestQueue ≠ [] ∧ ¬ (b'.pc = .create ∨ b'.pc = .init)
  := by
  cases h with
  | create | created | init => simp at hb
  | enqueue path paths =>
      constructor
      · apply List.append_ne_nil_of_left_ne_nil hq
      · simp
  | last | long | next | lock | unlock | broadcast | join | joined =>
      constructor
      · exact hq
      · simp

/-! ### The join loop -/

/-- The boss that joins has no path left, and the workers that it has joined have ended. -/
def Boss.Joined (s : Shared n) (b : Boss) : Prop :=
  match b.pc with
  | .broadcast => b.paths = []
  | .join i => b.paths = [] ∧ ∀ j : Fin n, j.1 < i → j ∈ s.finished
  | .joined => b.paths = [] ∧ ∀ j : Fin n, j ∈ s.finished
  | _ => True

/-- The workers that have ended have returned from `thread_main`. -/
def Finished (s : Shared n) (i : Fin n) (w : Worker) : Prop :=
  i ∈ s.finished → w.pc = .returned

/-- Every step of the boss keeps count of the workers it has joined. -/
theorem BossStep.joined_step {s s' : Shared n} {b b' : Boss} (h : BossStep s b s' b')
    (hj : b.Joined s) :
  b'.Joined s'
  := by
  cases h with
  | create | created | init | long | next | lock | enqueue | unlock => trivial
  | last => rfl
  | broadcast paths reqCond => exact ⟨hj, fun j hlt => absurd hlt (Nat.not_lt_zero _)⟩
  | join paths i finished =>
      refine ⟨hj.1, fun j hlt => ?_⟩
      obtain hlt | heq := Nat.lt_succ_iff_lt_or_eq.mp hlt
      · exact hj.2 j hlt
      · rw [Fin.ext heq]
        exact finished
  | joined paths i all => exact ⟨hj.1, fun j => hj.2 j (Nat.lt_of_lt_of_le j.2 all)⟩

/-- The boss ends no worker. -/
theorem BossStep.finished {s s' : Shared n} {b b' : Boss} (h : BossStep s b s' b') :
  s'.finished = s.finished
  := by
  cases h with
  | create | created | init | last | long | next | lock | enqueue | unlock | broadcast | join
  | joined => rfl

/-- What the boss knows about the joined workers stays true when more workers end. -/
theorem Boss.Joined.mono {s s' : Shared n} {b : Boss} (hj : b.Joined s)
    (hf : ∀ j ∈ s.finished, j ∈ s'.finished) :
  b.Joined s'
  := by
  unfold Boss.Joined at hj ⊢
  cases hpc : b.pc with
  | create | init | next | lock | enqueue | unlock => trivial
  | broadcast =>
      rw [hpc] at hj
      exact hj
  | join i =>
      rw [hpc] at hj
      exact ⟨hj.1, fun j hlt => hf j (hj.2 j hlt)⟩
  | joined =>
      rw [hpc] at hj
      exact ⟨hj.1, fun j => hf j (hj.2 j)⟩

/-- A worker ends when it has returned from `thread_main`, and only itself. -/
theorem WorkerStep.finished {i : Fin n} {s s' : Shared n} {w w' : Worker}
    (h : WorkerStep i s w s' w') :
  w.pc ≠ .returned ∧ (s'.finished = s.finished ∨
    s'.finished = i :: s.finished ∧ w'.pc = .returned)
  := by
  cases h with
  | exit => exact ⟨nofun, .inr ⟨rfl, rfl⟩⟩
  | lock | empty | found | leave | pop | underflow | unlock | perform | fail =>
      exact ⟨nofun, .inl rfl⟩

/-! ### Runs -/

/-- In every state of a run the requests are conserved, and the boss has joined only workers
that have returned. -/
structure Invariant (paths : List Path) (p : Pool (Shared n) (Local n)) : Prop where
  young : Young p
  conserved : Conserved paths p
  joined : (p.threads none).Joined p.shared
  finished : ∀ i, Finished p.shared i (p.threads (some i))

theorem Invariant.start (paths : List Path) :
  Invariant paths (start paths : Pool (Shared n) (Local n))
  where
  young _ := rfl
  conserved := by
    simp [Conserved, Fintype.sum_option, Download.start, taken, Boss.pending, Pc.held]
  joined := trivial
  finished i h := by cases h

variable {paths : List Path} {p p' : Pool (Shared n) (Local n)}
  {a : Σ _ : Option (Fin n), Bool}

/-- Every step keeps the invariant. -/
theorem Invariant.step (h : Invariant paths p) (hs : Pool.step code a p = some p') :
  Invariant paths p'
  := by
  obtain ⟨t, ok⟩ := a
  cases t with
  | none =>
      have hb := main_cases (Pool.step_own hs)
      constructor
      case young => exact hb.young h.young
      case conserved =>
        rw [Conserved, ← h.conserved]
        exact Pool.step_conserved (fun s : Shared n => (s.requestQueue : Multiset Path)) taken
          (hb.conserved h.young) hs
      case joined => exact hb.joined_step h.joined
      case finished =>
        intro i
        rw [Finished, hb.finished, Pool.step_other hs (Option.some_ne_none i)]
        apply h.finished i
  | some i =>
      have hw := threadMain_cases (Pool.step_own hs)
      have hboss := Pool.step_other hs (Option.some_ne_none i).symm
      obtain ⟨hpc, hf⟩ := hw.finished
      constructor
      case young =>
        intro hyoung
        rw [hboss] at hyoung
        obtain hq | ⟨-, hne⟩ := hw.queue
        · rw [hq]
          apply h.young hyoung
        · exact absurd (h.young hyoung) hne
      case conserved =>
        rw [Conserved, ← h.conserved]
        exact Pool.step_conserved (fun s : Shared n => (s.requestQueue : Multiset Path)) taken
          hw.conserved hs
      case joined =>
        rw [hboss]
        apply h.joined.mono
        intro j hj
        obtain hf | ⟨hf, -⟩ := hf
        · rw [hf]
          exact hj
        · rw [hf]
          exact List.mem_cons_of_mem i hj
      case finished =>
        intro j hj
        by_cases hji : j = i
        · subst hji
          obtain hf | ⟨-, hret⟩ := hf
          · rw [hf] at hj
            exact absurd (h.finished j hj) hpc
          · exact hret
        · rw [Pool.step_other hs (fun he => hji (Option.some.inj he))]
          apply h.finished j
          obtain hf | ⟨hf, -⟩ := hf
          · rw [← hf]
            exact hj
          · rw [hf] at hj
            exact (List.mem_cons.mp hj).resolve_left hji

/-- When the boss is past its last request, the queue is empty or some worker is still in its
loop. -/
def Covered (p : Pool (Shared n) (Local n)) : Prop :=
  (p.threads none).Past → p.shared.requestQueue = [] ∨ Busy p

/-- A step of a worker that leaves its loop finds the queue empty, so the requests stay
covered. -/
theorem Covered.step (h : Covered p) (ha : BusyAtLast a p)
    (hs : Pool.step code a p = some p') :
  Covered p'
  := by
  obtain ⟨t, ok⟩ := a
  cases t with
  | none =>
      intro hpast
      have hbusy : Busy p → Busy p' := by
        intro ⟨i, hi⟩
        use i
        rw [Pool.step_other hs (Option.some_ne_none i)]
        exact hi
      obtain ⟨path, hlast⟩ | ⟨hp, hq⟩ := (main_cases (Pool.step_own hs)).past hpast
      · exact .inr (hbusy (ha rfl path hlast))
      · obtain hempty | hb := h hp
        · left
          obtain hq | hq := hq
          · rw [hq, hempty]
          · exact hq
        · exact .inr (hbusy hb)
  | some i =>
      have hw := threadMain_cases (Pool.step_own hs)
      intro hpast
      rw [Pool.step_other hs (Option.some_ne_none i).symm] at hpast
      obtain hempty | ⟨j, hj⟩ := h hpast
      · left
        obtain hq | ⟨-, hne⟩ := hw.queue
        · rw [hq, hempty]
        · exact absurd hempty hne
      · by_cases hji : j = i
        · subst hji
          by_cases hl : (p'.threads (some j)).pc.Left
          · exact .inl (hw.left ⟨hl, hj⟩)
          · exact .inr ⟨j, hl⟩
        · right
          use j
          rw [Pool.step_other hs (fun he => hji (Option.some.inj he))]
          exact hj

/-- A last request that is enqueued when all workers have left is stranded. -/
theorem Stranded.of_not_busyAtLast (ha : ¬ BusyAtLast a p) (hs : Pool.step code a p = some p') :
  Stranded p'
  := by
  obtain ⟨t, ok⟩ := a
  unfold BusyAtLast at ha
  push Not at ha
  obtain ⟨ht, path, hlast, hbusy⟩ := ha
  cases t with
  | some i => cases ht
  | none =>
      have hb := main_cases (Pool.step_own hs)
      have hq : p'.shared.requestQueue ≠ [] ∧
          ¬ ((p'.threads none).pc = .create ∨ (p'.threads none).pc = .init) := by
        generalize p'.threads none = b' at hb ⊢
        generalize p'.shared = s' at hb ⊢
        rw [hlast] at hb
        cases hb with
        | enqueue => simp
      refine ⟨hq.1, ?_, hq.2⟩
      intro ⟨i, hi⟩
      apply hbusy
      use i
      rw [← Pool.step_other hs (Option.some_ne_none i)]
      exact hi

/-- A stranded request stays in the queue. -/
theorem Stranded.step (h : Stranded p) (hs : Pool.step code a p = some p') :
  Stranded p'
  := by
  obtain ⟨hq, hbusy, hinit⟩ := h
  obtain ⟨t, ok⟩ := a
  cases t with
  | none =>
      obtain ⟨hq', hinit'⟩ := (main_cases (Pool.step_own hs)).keeps hinit hq
      refine ⟨hq', ?_, hinit'⟩
      intro ⟨i, hi⟩
      apply hbusy
      use i
      rw [← Pool.step_other hs (Option.some_ne_none i)]
      exact hi
  | some i =>
      have hl : (p.threads (some i)).pc.Left := by
        by_contra hi
        exact hbusy ⟨i, hi⟩
      obtain ⟨hl', hq'⟩ := (threadMain_cases (Pool.step_own hs)).stays_left hl
      refine ⟨by rw [hq']; exact hq, ?_, ?_⟩
      · intro ⟨j, hj⟩
        by_cases hji : j = i
        · subst hji
          exact hj hl'
        · apply hbusy
          use j
          rw [← Pool.step_other hs (fun he => hji (Option.some.inj he))]
          exact hj
      · rw [Pool.step_other hs (Option.some_ne_none i).symm]
        exact hinit

/-- When the boss has joined the workers, all of them have returned. -/
theorem Invariant.returned (h : Invariant paths p) (hj : (p.threads none).pc = .joined)
    (i : Fin n) :
  (p.threads (some i)).pc = .returned
  := by
  have hjoined := h.joined
  simp only [Boss.Joined, hj] at hjoined
  apply h.finished i (hjoined.2 i)

/-- When the boss has joined the workers, every request is in the queue or performed. -/
theorem Invariant.performed (h : Invariant paths p) (hj : (p.threads none).pc = .joined) :
  (p.shared.requestQueue : Multiset Path)
    + ∑ i, ((p.threads (some i)).performed : Multiset Path) = paths
  := by
  have hjoined := h.joined
  simp only [Boss.Joined, hj] at hjoined
  rw [← h.conserved, Fintype.sum_option]
  have hboss : taken none (p.threads none) = 0 := by
    simp only [taken, Boss.pending, hj, hjoined.1, Multiset.coe_nil]
  rw [hboss, zero_add]
  congr 1
  apply Finset.sum_congr rfl
  intro i _
  simp only [taken, Pc.held, h.returned hj i, zero_add]

/-- For every number of workers, every workload and every schedule in which the boss joins all
workers: each request has been handed to `perform_work` exactly once and the queue is empty if
and only if some worker is still in its loop when the last request is enqueued. -/
theorem pool_complete_iff {as : Schedule n} (h : run (Pool.step code) as (start paths) = some p)
    (hj : (p.threads none).pc = .joined) :
  ∑ i, ((p.threads (some i)).performed : Multiset Path) = paths ∧ p.shared.requestQueue = [] ↔
    Along (Pool.step code) BusyAtLast as (start paths)
  := by
  have hi : Invariant paths p :=
    run_invariant (fun _ _ _ hi hs => Invariant.step hi hs) (Invariant.start paths) h
  constructor
  · intro ⟨_, hq⟩
    exact along_of_final (I := fun _ => True) (fun _ _ _ _ _ => trivial)
      (fun _ _ _ _ ha hs => Stranded.of_not_busyAtLast ha hs) (fun _ _ _ hd hs => hd.step hs)
      trivial h (fun hd => hd.1 hq)
  · intro halong
    have hcovered : Covered p :=
      run_invariant_along (fun _ _ _ hc ha hs => Covered.step hc ha hs) (fun _ => .inl rfl)
        halong h
    have hperformed := hi.performed hj
    have hjoined := hi.joined
    simp only [Boss.Joined, hj] at hjoined
    have hpast : (p.threads none).Past := by
      simp only [Boss.Past, Boss.pending, hj, hjoined.1, Multiset.coe_nil]
    obtain hq | ⟨i, hbusy⟩ := hcovered hpast
    · rw [hq, Multiset.coe_nil, zero_add] at hperformed
      exact ⟨hperformed, hq⟩
    · rw [hi.returned hj i] at hbusy
      exact absurd trivial hbusy

/-- One worker handles the one request, which is enqueued before the worker tests the queue. -/
theorem pool_complete_iff_one :
  ∃ (as : Schedule 1) (p : Pool (Shared 1) (Local 1)),
    run (Pool.step code) as (start [[47]]) = some p ∧ (p.threads none).pc = .joined ∧
    (∑ i, ((p.threads (some i)).performed : Multiset Path) = ([[47]] : List Path) ∧
        p.shared.requestQueue = [] ↔
      Along (Pool.step code) BusyAtLast as (start [[47]]))
  := by
  have hrun : ∃ (as : Schedule 1) (p : Pool (Shared 1) (Local 1)),
      run (Pool.step code) as (start [[47]]) = some p ∧ (p.threads none).pc = .joined :=
    ⟨List.replicate 9 ⟨none, true⟩ ++ List.replicate 9 ⟨some 0, true⟩
      ++ List.replicate 2 ⟨none, true⟩, _, rfl, rfl⟩
  obtain ⟨as, p, hp, hj⟩ := hrun
  exact ⟨as, p, hp, hj, pool_complete_iff hp hj⟩

/-- A worker that runs before the first request is enqueued leaves at once, and the request
stays in the queue after the boss has joined it. -/
theorem not_pool_complete :
  ¬ ∀ (paths : List Path) (as : Schedule 1) (p : Pool (Shared 1) (Local 1)),
    run (Pool.step code) as (start paths) = some p → (p.threads none).pc = .joined →
    ∑ i, ((p.threads (some i)).performed : Multiset Path) = paths ∧ p.shared.requestQueue = []
  := by
  intro h
  have hq := (h [[47]]
    (⟨none, true⟩ :: List.replicate 4 ⟨some 0, true⟩ ++ List.replicate 10 ⟨none, true⟩) _ rfl
    rfl).2
  cases hq

end GetFile.Download
