import GetFile.Steque.Items
import GetFile.Transition.Monitor
import GetFile.Transition.Threads
import Mathlib.Algebra.Order.BigOperators.Group.Finset
import Mathlib.Algebra.Order.Group.Multiset

/-!
# The worker threads of the RPC client

`worker_main` of the client that minifies images: the threads share the mutex and the queue
that `load_requests` has filled. Each step of a thread is one call of the source; a call that
ends the process with `exit` stops all threads. `write_to_file` returns `1` when it cannot open the
output, and `worker_main` does not look at that: each request is completed exactly when every output
can be opened (`workers_exactly_once`).
-/

namespace GetFile.Minify

open Transition

/-- The `request_t` of the queue. -/
structure Request where
  inputfilename : List UInt8
  outputfilename : List UInt8
  deriving DecidableEq, Repr

/-- The calls of `read_from_file`, `minify_via_rpc` and `write_to_file`. -/
inductive Stage where
  | read
  | minify
  | write
  deriving DecidableEq, Repr

/-- A call that has returned, the request it was made for, and the bytes that were read,
received or written: none when `write_to_file` has returned `1`. -/
structure Event where
  stage : Stage
  request : Request
  data : Option (List UInt8)
  deriving DecidableEq, Repr

/-- The next call of a thread in `worker_main`, with the local variables it needs. -/
inductive Pc where
  | lock
  | test
  | pop
  | unlock (request : Request)
  | readFromFile (request : Request)
  | minifyViaRpc (request : Request) (src : List UInt8)
  | writeToFile (request : Request) (dst : List UInt8)
  | relock
  | leave
  | returned
  deriving DecidableEq, Repr

/-- A thread in `worker_main`, and the calls it has made for its requests. -/
structure Worker where
  pc : Pc
  log : List Event

/-- What the threads share, and whether one of them has ended the process. -/
structure Shared (τ : Type*) where
  mutex : Mutex τ
  queue : Steque Request
  exited : Bool

variable {τ : Type*}

/-- One step of thread `t` in `worker_main`, where `answer` is what a file or the RPC gives and
`none` is a failure. A failure of `write_to_file` is passed over. -/
def workerMain (t : τ) (answer : Option (List UInt8)) (s : Shared τ) (w : Worker) :
    Option (Shared τ × Worker) :=
  if s.exited then none else
  match w.pc with
  | .lock | .relock =>
    (s.mutex.lock t).map fun mutex => ({ s with mutex }, { w with pc := .test })
  | .test =>
    some (s, { w with pc := if s.queue.isempty then .leave else .pop })
  | .pop =>
    match s.queue.pop with
    | none => some ({ s with exited := true }, w)
    | some (request, queue) => some ({ s with queue }, { w with pc := .unlock request })
  | .unlock request =>
    some ({ s with mutex := s.mutex.unlock }, { w with pc := .readFromFile request })
  | .readFromFile request =>
    match answer with
    | none => some ({ s with exited := true }, w)
    | some src =>
      some (s, { pc := .minifyViaRpc request src, log := w.log ++ [⟨.read, request, some src⟩] })
  | .minifyViaRpc request _ =>
    match answer with
    | none => some ({ s with exited := true }, w)
    | some dst =>
      some (s, { pc := .writeToFile request dst, log := w.log ++ [⟨.minify, request, some dst⟩] })
  | .writeToFile request dst =>
    some (s, { pc := .relock, log := w.log ++ [⟨.write, request, answer.map fun _ => dst⟩] })
  | .leave =>
    some ({ s with mutex := s.mutex.unlock }, { w with pc := .returned })
  | .returned => none

/-- The threads of the client when `load_requests` has filled the queue. -/
def start (loaded : List Request) : Pool (Shared τ) (fun _ : τ => Worker) where
  shared := { mutex := Mutex.free, queue := loaded, exited := false }
  threads _ := { pc := .lock, log := [] }

/-- The schedules: which thread goes on, and what the call it makes is answered. -/
abbrev Schedule (τ : Type*) := List (Σ _ : τ, Option (List UInt8))

/-! ### What a step does -/

/-- The steps of `worker_main`. -/
inductive WorkerStep (t : τ) (s : Shared τ) : Worker → Shared τ → Worker → Prop where
  | lock (pc : Pc) (log : List Event) (hpc : pc = .lock ∨ pc = .relock)
      (free : s.mutex.owner = none) :
      WorkerStep t s ⟨pc, log⟩ { s with mutex := { owner := some t } } ⟨.test, log⟩
  | empty (log : List Event) (queue : s.queue = []) :
      WorkerStep t s ⟨.test, log⟩ s ⟨.leave, log⟩
  | found (log : List Event) (queue : s.queue ≠ []) :
      WorkerStep t s ⟨.test, log⟩ s ⟨.pop, log⟩
  | pop (log : List Event) (request : Request) (queue : Steque Request)
      (pop : s.queue = request :: queue) :
      WorkerStep t s ⟨.pop, log⟩ { s with queue } ⟨.unlock request, log⟩
  | unlock (log : List Event) (request : Request) :
      WorkerStep t s ⟨.unlock request, log⟩ { s with mutex := Mutex.free }
        ⟨.readFromFile request, log⟩
  | read (log : List Event) (request : Request) (src : List UInt8) :
      WorkerStep t s ⟨.readFromFile request, log⟩ s
        ⟨.minifyViaRpc request src, log ++ [⟨.read, request, some src⟩]⟩
  | minify (log : List Event) (request : Request) (src dst : List UInt8) :
      WorkerStep t s ⟨.minifyViaRpc request src, log⟩ s
        ⟨.writeToFile request dst, log ++ [⟨.minify, request, some dst⟩]⟩
  | write (log : List Event) (request : Request) (dst : List UInt8) (data : Option (List UInt8)) :
      WorkerStep t s ⟨.writeToFile request dst, log⟩ s
        ⟨.relock, log ++ [⟨.write, request, data⟩]⟩
  | leave (log : List Event) :
      WorkerStep t s ⟨.leave, log⟩ { s with mutex := Mutex.free } ⟨.returned, log⟩
  | exit (w : Worker) :
      WorkerStep t s w { s with exited := true } w

/-- Every step of `worker_main` is one of the listed ones. -/
theorem workerMain_cases {t : τ} {answer : Option (List UInt8)} {s s' : Shared τ}
    {w w' : Worker} (h : workerMain t answer s w = some (s', w')) :
  WorkerStep t s w s' w'
  := by
  obtain ⟨pc, log⟩ := w
  unfold workerMain at h
  by_cases he : s.exited = true
  · rw [if_pos he] at h
    cases h
  · rw [if_neg he] at h
    have hlock : pc = .lock ∨ pc = .relock →
        (s.mutex.lock t).map (fun mutex => ({ s with mutex }, { pc := .test, log }))
          = some (s', w') →
        WorkerStep t s ⟨pc, log⟩ s' w' := by
      intro hpc hl
      obtain ⟨m, hm, heq⟩ := Option.map_eq_some_iff.mp hl
      obtain ⟨hfree, rfl⟩ := Mutex.lock_eq_some hm
      cases heq
      exact .lock pc log hpc hfree
    cases pc with
    | lock => exact hlock (.inl rfl) h
    | relock => exact hlock (.inr rfl) h
    | test =>
        cases hq : s.queue.isempty with
        | true =>
            simp only [hq, if_true] at h
            cases h
            exact .empty log ((Steque.isempty_iff _).mp hq)
        | false =>
            simp only [hq, Bool.false_eq_true, if_false] at h
            cases h
            exact .found log ((Steque.isempty_eq_false _).mp hq)
    | pop =>
        cases hq : s.queue.pop with
        | none =>
            simp only [hq] at h
            cases h
            exact .exit _
        | some r =>
            simp only [hq] at h
            cases h
            exact .pop log r.1 r.2 (Steque.pop_eq_some hq)
    | unlock request =>
        cases h
        exact .unlock log request
    | readFromFile request =>
        cases answer with
        | none =>
            cases h
            exact .exit _
        | some src =>
            cases h
            exact .read log request src
    | minifyViaRpc request src =>
        cases answer with
        | none =>
            cases h
            exact .exit _
        | some dst =>
            cases h
            exact .minify log request src dst
    | writeToFile request dst =>
        cases h
        exact .write log request dst _
    | leave =>
        cases h
        exact .leave log
    | returned => cases h

/-! ### The lock and the queue -/

/-- The calls between `pthread_mutex_lock` and `pthread_mutex_unlock`. -/
def Pc.Inside : Pc → Prop
  | .test | .pop | .unlock _ | .leave => True
  | _ => False

/-- The calls of `steque_isempty` and `steque_pop`. -/
def Pc.AccessesQueue : Pc → Prop
  | .test | .pop => True
  | _ => False

/-- The thread has found the queue empty. -/
def Pc.Left : Pc → Prop
  | .leave | .returned => True
  | _ => False

/-- A thread that accesses the queue next is inside the section of the lock. -/
theorem Pc.AccessesQueue.inside {pc : Pc} (h : pc.AccessesQueue) :
  pc.Inside
  := by
  cases pc with
  | test | pop => trivial
  | lock | unlock _ | readFromFile _ | minifyViaRpc _ _ | writeToFile _ _ | relock | leave
  | returned => exact h.elim

/-- Every step takes the mutex when it enters the section and gives it back when it leaves. -/
theorem WorkerStep.handover {t : τ} {s s' : Shared τ} {w w' : Worker}
    (h : WorkerStep t s w s' w') (own : s.mutex.owner = some t ↔ w.pc.Inside) :
  Handover t s.mutex.owner s'.mutex.owner w.pc.Inside w'.pc.Inside
  := by
  cases h with
  | lock pc log hpc free => exact .take free rfl trivial
  | empty | found | pop | exit => exact .keep rfl Iff.rfl
  | unlock | leave => exact .give (own.mpr trivial) rfl id
  | read | minify | write => exact .keep rfl Iff.rfl

/-- The request that a thread has popped and for which it has not yet made a call. -/
def Pc.before (k : Stage) : Pc → Multiset Request
  | .unlock r | .readFromFile r => {r}
  | .minifyViaRpc r _ => if k = .read then 0 else {r}
  | .writeToFile r _ => if k = .write then {r} else 0
  | _ => 0

/-- The requests for which a thread has made a call. -/
def Worker.handled (k : Stage) (w : Worker) : Multiset Request :=
  (w.log.filter fun e => e.stage = k).map Event.request

/-- The requests for which a thread has made a call that has succeeded. -/
def Worker.completed (k : Stage) (w : Worker) : Multiset Request :=
  ((w.log.filter fun e => e.stage = k).filter fun e => e.data ≠ none).map Event.request

/-- All calls that a thread has made have succeeded. -/
def Worker.Clean (w : Worker) : Prop :=
  ∀ e ∈ w.log, e.data ≠ none

/-- The requests that a thread has popped, with the call made for them or not. -/
def Worker.taken (k : Stage) (w : Worker) : Multiset Request :=
  w.pc.before k + w.handled k

/-- A call that returns has been made for one more request. -/
theorem Worker.handled_append (k : Stage) (pc pc' : Pc) (log : List Event) (e : Event) :
  Worker.handled k ⟨pc', log ++ [e]⟩
    = Worker.handled k ⟨pc, log⟩ + if e.stage = k then {e.request} else 0
  := by
  unfold Worker.handled
  rw [List.filter_append, List.map_append, ← Multiset.coe_add]
  by_cases h : e.stage = k
  · simp [h]
  · simp [h]

/-- A call that returns moves its request from those before the call to those handled. -/
theorem Worker.taken_call (k : Stage) (pc pc' : Pc) (log : List Event) (e : Event)
    (move : pc.before k = pc'.before k + if e.stage = k then {e.request} else 0) :
  Worker.taken k ⟨pc', log ++ [e]⟩ = Worker.taken k ⟨pc, log⟩
  := by
  unfold Worker.taken
  rw [Worker.handled_append k pc pc', move]
  ac_rfl

/-- No call succeeds more often than it is made. -/
theorem Worker.completed_le (k : Stage) (w : Worker) :
  w.completed k ≤ w.handled k
  := by
  unfold Worker.completed Worker.handled
  rw [Multiset.coe_le]
  exact (List.filter_sublist.map _).subperm

/-- Where all calls have succeeded, and only there, they have succeeded as often as they were made. -/
theorem Worker.clean_iff (w : Worker) :
  w.Clean ↔ ∀ k, w.completed k = w.handled k
  := by
  unfold Worker.completed Worker.handled
  constructor
  · intro h k
    rw [List.filter_eq_self.mpr]
    intro e he
    exact decide_eq_true (h e (List.mem_of_mem_filter he))
  · intro h e he
    have hlength := congrArg Multiset.card (h e.stage)
    simp only [Multiset.coe_card, List.length_map] at hlength
    have hall := List.length_filter_eq_length_iff.mp hlength e
      (List.mem_filter.mpr ⟨he, decide_eq_true rfl⟩)
    exact of_decide_eq_true hall

/-- Every step conserves the requests in the queue and with the thread. -/
theorem WorkerStep.conserved {t : τ} {s s' : Shared τ} {w w' : Worker}
    (h : WorkerStep t s w s' w') (k : Stage) :
  (s'.queue : Multiset Request) + w'.taken k = s.queue + w.taken k
  := by
  cases h with
  | lock pc log hpc free =>
      obtain rfl | rfl := hpc
      · rfl
      · rfl
  | empty | found | unlock | leave | exit => rfl
  | pop log request queue pop =>
      have hhandled : Worker.handled k ⟨.unlock request, log⟩ = Worker.handled k ⟨.pop, log⟩ :=
        rfl
      unfold Worker.taken
      rw [pop, hhandled, ← Multiset.cons_coe, ← Multiset.singleton_add]
      simp only [Pc.before]
      rw [zero_add]
      ac_rfl
  | read log request src =>
      rw [Worker.taken_call k (.readFromFile request)]
      cases k with
      | read | minify | write => rfl
  | minify log request src dst =>
      rw [Worker.taken_call k (.minifyViaRpc request src)]
      cases k with
      | read | minify | write => rfl
  | write log request dst data =>
      rw [Worker.taken_call k (.writeToFile request dst)]
      cases k with
      | read | minify | write => rfl

/-- Only a thread that pops changes the queue. -/
theorem WorkerStep.queue {t : τ} {s s' : Shared τ} {w w' : Worker}
    (h : WorkerStep t s w s' w') :
  s'.queue = s.queue ∨ w.pc = .pop ∧ s.queue ≠ []
  := by
  cases h with
  | pop log request queue pop =>
      right
      rw [pop]
      exact ⟨rfl, List.cons_ne_nil _ _⟩
  | lock | empty | found | unlock | read | minify | write | leave | exit => exact .inl rfl

/-- A thread comes to the pop by finding the queue non-empty. -/
theorem WorkerStep.found_queue {t : τ} {s s' : Shared τ} {w w' : Worker}
    (h : WorkerStep t s w s' w') (before : w.pc = .pop → s.queue ≠ []) (hpc : w'.pc = .pop) :
  s'.queue ≠ []
  := by
  cases h with
  | found log queue => exact queue
  | exit => exact before hpc
  | lock | empty | pop | unlock | read | minify | write | leave => cases hpc

/-- A thread leaves the loop by finding the queue empty. -/
theorem WorkerStep.left_queue {t : τ} {s s' : Shared τ} {w w' : Worker}
    (h : WorkerStep t s w s' w') (before : w.pc.Left → s.queue = []) (hpc : w'.pc.Left) :
  s'.queue = []
  := by
  cases h with
  | empty log queue => exact queue
  | leave => exact before trivial
  | exit => exact before hpc
  | lock | found | pop | unlock | read | minify | write => exact hpc.elim

/-- `write_to_file` opens the output of the request, if it is what the thread calls next. -/
def Opens (a : Σ _ : τ, Option (List UInt8)) (p : Pool (Shared τ) (fun _ : τ => Worker)) : Prop :=
  ∀ request dst, (p.threads a.1).pc = .writeToFile request dst → a.2 ≠ none

/-- Only a step that cannot open an output makes a call that does not succeed. -/
theorem workerMain_clean {t : τ} {answer : Option (List UInt8)} {s s' : Shared τ} {w w' : Worker}
    (h : workerMain t answer s w = some (s', w')) :
  w'.Clean ↔ w.Clean ∧ ∀ request dst, w.pc = .writeToFile request dst → answer ≠ none
  := by
  have happend : ∀ (pc pc' : Pc) (log : List Event) (e : Event),
      Worker.Clean ⟨pc', log ++ [e]⟩ ↔ Worker.Clean ⟨pc, log⟩ ∧ e.data ≠ none := by
    intro pc pc' log e
    unfold Worker.Clean
    rw [List.forall_mem_append, List.forall_mem_singleton]
  by_cases hwrite : ∃ request dst, w.pc = .writeToFile request dst
  · obtain ⟨request, dst, hpc⟩ := hwrite
    obtain ⟨pc, log⟩ := w
    obtain rfl : pc = .writeToFile request dst := hpc
    unfold workerMain at h
    split at h
    · cases h
    · cases h
      rw [happend (.writeToFile request dst)]
      cases answer with
      | none => simp
      | some data => simp
  · have hother : ∀ request dst, w.pc = .writeToFile request dst → answer ≠ none :=
      fun request dst hpc => absurd ⟨request, dst, hpc⟩ hwrite
    rw [and_iff_left hother]
    cases workerMain_cases h with
    | read log request src =>
        rw [happend (.readFromFile request)]
        simp
    | minify log request src dst =>
        rw [happend (.minifyViaRpc request src)]
        simp
    | write log request dst data => exact absurd ⟨request, dst, rfl⟩ hwrite
    | lock | empty | found | pop | unlock | leave | exit => exact Iff.rfl

/-! ### Runs -/

variable [Fintype τ]

/-- In every state of a run the mutex is owned by the thread inside its section, a thread that
is about to pop finds a request, a thread that has left the loop has left no request behind,
and the requests in the queue and with the threads are the loaded ones. -/
structure Invariant (loaded : List Request) (p : Pool (Shared τ) (fun _ : τ => Worker)) :
    Prop where
  owned : Owned (fun s : Shared τ => s.mutex.owner) (fun _ w => w.pc.Inside) p
  found : ∀ t, (p.threads t).pc = .pop → p.shared.queue ≠ []
  emptied : ∀ t, (p.threads t).pc.Left → p.shared.queue = []
  conserved : ∀ k, (p.shared.queue : Multiset Request) + ∑ t, (p.threads t).taken k = loaded

theorem Invariant.start (loaded : List Request) :
  Invariant loaded (start loaded : Pool (Shared τ) (fun _ : τ => Worker))
  where
  owned t := ⟨nofun, fun h => h.elim⟩
  found t h := by cases h
  emptied t h := h.elim
  conserved k := by simp [Minify.start, Worker.taken, Worker.handled, Pc.before]

variable {loaded : List Request} {a : Σ _ : τ, Option (List UInt8)}
  {p p' : Pool (Shared τ) (fun _ : τ => Worker)}

/-- No call is made for more requests than have been loaded. -/
theorem Invariant.handled_le (h : Invariant loaded p) (k : Stage) :
  ∑ t, (p.threads t).handled k ≤ (loaded : Multiset Request)
  := by
  rw [← h.conserved k]
  calc
    ∑ t, (p.threads t).handled k
      ≤ ∑ t, (p.threads t).taken k :=
        Finset.sum_le_sum fun t _ => Multiset.le_add_left _ _
    _ ≤ _ := Multiset.le_add_left _ _

/-- When all threads have returned, each call has been made for the loaded requests. -/
theorem Invariant.handled_eq [Nonempty τ] (h : Invariant loaded p)
    (hr : ∀ t, (p.threads t).pc = .returned) (k : Stage) :
  ∑ t, (p.threads t).handled k = (loaded : Multiset Request)
  := by
  obtain ⟨t⟩ := ‹Nonempty τ›
  have hq : p.shared.queue = [] := h.emptied t (by rw [hr t]; trivial)
  rw [← h.conserved k, hq, Multiset.coe_nil, zero_add]
  apply Finset.sum_congr rfl
  intro u _
  simp [Worker.taken, hr u, Pc.before]

/-- When all threads have returned, none owns the mutex. -/
theorem Invariant.free (h : Invariant loaded p) (hr : ∀ t, (p.threads t).pc = .returned) :
  p.shared.mutex.owner = none
  := by
  apply h.owned.free
  intro t ht
  rw [hr t] at ht
  exact ht

variable [DecidableEq τ]

/-- Every step of a thread keeps the invariant. -/
theorem Invariant.step (h : Invariant loaded p) (hs : Pool.step workerMain a p = some p') :
  Invariant loaded p'
  := by
  have hw := workerMain_cases (Pool.step_own hs)
  constructor
  case owned => exact h.owned.step (hw.handover (h.owned a.1)) hs
  case found =>
    apply Pool.step_forall (F := fun _ s w => w.pc = .pop → s.queue ≠ []) _ _ hs
    · exact hw.found_queue (h.found a.1)
    · intro u hu hpop
      obtain hq | ⟨hpc, -⟩ := hw.queue
      · rw [hq]
        apply h.found u hpop
      · refine absurd (h.owned.unique (t := u) ?_ ?_) hu
        · rw [hpop]
          trivial
        · rw [hpc]
          trivial
  case emptied =>
    apply Pool.step_forall (F := fun _ s w => w.pc.Left → s.queue = []) _ _ hs
    · exact hw.left_queue (h.emptied a.1)
    · intro u hu hleft
      have hempty := h.emptied u hleft
      obtain hq | ⟨-, hne⟩ := hw.queue
      · rw [hq, hempty]
      · exact absurd hempty hne
  case conserved =>
    intro k
    rw [← h.conserved k]
    exact Pool.step_conserved (fun s : Shared τ => (s.queue : Multiset Request))
      (fun _ w => w.taken k) (hw.conserved k) hs

/-- Every state that a run reaches satisfies the invariant. -/
theorem Invariant.run {as : Schedule τ}
    (h : run (Pool.step workerMain) as (Minify.start loaded) = some p) :
  Invariant loaded p
  := by
  apply run_invariant (fun _ _ _ hi hs => Invariant.step hi hs) (Invariant.start loaded) h

omit [Fintype τ] in
/-- All calls of a run have succeeded exactly when every output has been opened. -/
theorem clean_iff_along {as : Schedule τ}
    (h : run (Pool.step workerMain) as (Minify.start loaded) = some p) :
  (∀ t, (p.threads t).Clean) ↔ Along (Pool.step workerMain) Opens as (Minify.start loaded)
  := by
  refine run_invariant_iff (I := fun p => ∀ t, (p.threads t).Clean) ?_ ?_ h
  · intro a q q' hs
    have hown := workerMain_clean (Pool.step_own hs)
    constructor
    · intro hall
      obtain ⟨hclean, hopens⟩ := hown.mp (hall a.1)
      refine ⟨?_, hopens⟩
      intro t
      by_cases ht : t = a.1
      · rw [ht]
        exact hclean
      · rw [← Pool.step_other hs ht]
        exact hall t
    · rintro ⟨hall, hopens⟩ t
      by_cases ht : t = a.1
      · rw [ht]
        exact hown.mpr ⟨hall a.1, hopens⟩
      · rw [Pool.step_other hs ht]
        exact hall t
  · intro t e he
    cases he

omit [DecidableEq τ] in
/-- When all threads have returned, each call has succeeded for the loaded requests exactly when all
calls have succeeded. -/
theorem Invariant.completed_iff [Nonempty τ] (h : Invariant loaded p)
    (hr : ∀ t, (p.threads t).pc = .returned) :
  (∀ k, ∑ t, (p.threads t).completed k = (loaded : Multiset Request)) ↔
    ∀ t, (p.threads t).Clean
  := by
  have hle : ∀ k, (∑ t, (p.threads t).completed k = ∑ t, (p.threads t).handled k ↔
      ∀ t ∈ Finset.univ, (p.threads t).completed k = (p.threads t).handled k) :=
    fun k => Finset.sum_eq_sum_iff_of_le fun t _ => (p.threads t).completed_le k
  constructor
  · intro hall t
    rw [Worker.clean_iff]
    intro k
    exact (hle k).mp ((hall k).trans (h.handled_eq hr k).symm) t (Finset.mem_univ t)
  · intro hclean k
    rw [← h.handled_eq hr k]
    exact (hle k).mpr fun t _ => (p.threads t).clean_iff.mp (hclean t) k

/-- For every loaded queue and every schedule of the threads, a thread that accesses the queue
owns the mutex and pops only what is there, and no call is made for a request more often than it
was loaded. Once all threads have returned the mutex is free, and each request has been read,
minified and written as often as it was loaded if and only if every output has been opened. -/
theorem workers_exactly_once {nthreads : ℕ} (hn : 1 ≤ nthreads) {loaded : List Request}
    {as : Schedule (Fin nthreads)} {p : Pool (Shared (Fin nthreads)) (fun _ => Worker)}
    (h : run (Pool.step workerMain) as (start loaded) = some p) :
  (∀ t, (p.threads t).pc.AccessesQueue → p.shared.mutex.owner = some t) ∧
  (∀ t, (p.threads t).pc = .pop → p.shared.queue ≠ []) ∧
  (∀ k, ∑ t, (p.threads t).handled k ≤ (loaded : Multiset Request)) ∧
  ((∀ t, (p.threads t).pc = .returned) →
    p.shared.mutex.owner = none ∧
    ((∀ k, ∑ t, (p.threads t).completed k = (loaded : Multiset Request)) ↔
      Along (Pool.step workerMain) Opens as (start loaded)))
  := by
  have hi := Invariant.run h
  have : Nonempty (Fin nthreads) := ⟨⟨0, hn⟩⟩
  constructor
  · intro t ht
    apply (hi.owned t).mpr ht.inside
  constructor
  · exact hi.found
  constructor
  · exact hi.handled_le
  · intro hr
    exact ⟨hi.free hr, (hi.completed_iff hr).trans (clean_iff_along h)⟩

/-- One thread that reads, minifies and writes the one request of the queue and returns. -/
theorem workers_exactly_once_one :
  ∃ (as : Schedule (Fin 1)) (p : Pool (Shared (Fin 1)) (fun _ => Worker)),
    run (Pool.step workerMain) as (start [⟨[97], [98]⟩]) = some p ∧
    p.shared.mutex.owner = none ∧
    ((∀ k, ∑ t, (p.threads t).completed k = (([⟨[97], [98]⟩] : List Request) : Multiset Request)) ↔
      Along (Pool.step workerMain) Opens as (start [⟨[97], [98]⟩]))
  := by
  have hrun : ∃ (as : Schedule (Fin 1)) (p : Pool (Shared (Fin 1)) (fun _ => Worker)),
      run (Pool.step workerMain) as (start [⟨[97], [98]⟩]) = some p ∧
      ∀ t, (p.threads t).pc = .returned :=
    ⟨List.replicate 10 ⟨0, some [5]⟩, _, rfl, by decide⟩
  obtain ⟨as, p, hp, hr⟩ := hrun
  exact ⟨as, p, hp, (workers_exactly_once (by decide) hp).2.2.2 hr⟩

/-- One thread that cannot open the output of its request returns all the same, and the request has
not been written. -/
theorem not_workers_exactly_once :
  ∃ (as : Schedule (Fin 1)) (p : Pool (Shared (Fin 1)) (fun _ => Worker)),
    run (Pool.step workerMain) as (start [⟨[97], [98]⟩]) = some p ∧
    (∀ t, (p.threads t).pc = .returned) ∧
    ∑ t, (p.threads t).completed .write ≠ (([⟨[97], [98]⟩] : List Request) : Multiset Request)
  := by
  obtain ⟨as, p, hp, hr, hnone⟩ : ∃ (as : Schedule (Fin 1))
      (p : Pool (Shared (Fin 1)) (fun _ => Worker)),
      run (Pool.step workerMain) as (start [⟨[97], [98]⟩]) = some p ∧
      (∀ t, (p.threads t).pc = .returned) ∧ ∀ t, (p.threads t).completed .write = 0 :=
    ⟨[⟨0, none⟩, ⟨0, none⟩, ⟨0, none⟩, ⟨0, none⟩, ⟨0, some [5]⟩, ⟨0, some [5]⟩, ⟨0, none⟩, ⟨0, none⟩,
      ⟨0, none⟩, ⟨0, none⟩], _, rfl, by decide, by decide⟩
  refine ⟨as, p, hp, hr, ?_⟩
  rw [Finset.sum_eq_zero fun t _ => hnone t]
  exact (Multiset.cons_ne_zero (m := 0)).symm

end GetFile.Minify
