import GetFile.Cache.HandleRequest
import GetFile.Cache.PerformTask
import GetFile.Steque.Items
import GetFile.Transition.Monitor
import GetFile.Transition.Threads

/-!
# The proxy and the cache with all their threads

Any number of proxy threads run `handle_with_cache` one call after the other, and any number
of workers of the cache run `perform_task`. The proxy threads share the queue of the segments
that are free, with its mutex and condition variable; all threads share the message queues and
the memory of the segments.
-/

namespace GetFile.Cache

open CString Transition

variable {n size threads workers : ℕ}

/-- The next call of a proxy thread in `handle_with_cache`, with its segment: `lock` to `unlock`
are those of `acquire_segment`, and `lockRelease` to `unlockRelease` those of
`release_segment`. A thread is at `out` between two calls of `handle_with_cache`, and
`pthread_cond_wait` is called at `wait` and returns at `blocked`. -/
inductive ProxyPc (n : ℕ) where
  | out
  | lock
  | test
  | wait
  | blocked
  | pop
  | unlock (seg : Fin n)
  | request (seg : Fin n)
  | lockRelease (seg : Fin n)
  | push (seg : Fin n)
  | signal
  | unlockRelease
  deriving DecidableEq

/-- A call of `handle_with_cache` that has returned: its path, what `gfs_sendheader` was given,
the bytes given to `gfs_send`, and the result. -/
structure Call where
  path : List UInt8
  header : Option (Status × ℕ)
  sent : List UInt8
  retValue : Option ℤ

/-- A proxy thread, with the path of its call, the local variables of `handle_request`, and the
calls that have returned. -/
structure Proxy (n : ℕ) where
  pc : ProxyPc n
  path : List UInt8
  request : HandleRequest
  calls : List Call

/-- The thread identifiers: the proxy threads and the workers of the cache. -/
abbrev ThreadId (threads workers : ℕ) := Fin threads ⊕ Fin workers

/-- What the threads share: the message queues and segments, the mutex, the condition variable
and the queue of the free segments in the proxy, and whether `steque_pop` has ended the
proxy. -/
structure Shared (n size threads workers : ℕ) where
  channels : Channels n size
  segMutex : Mutex (ThreadId threads workers)
  segCond : Condition (ThreadId threads workers)
  segQueue : Steque (Fin n)
  exited : Bool

/-- What a step of a proxy thread gets from outside: the path of a call, the memory behind it, a
packet that is not initialized, what `gfs_sendheader` returns, and whether the thread wakes up
without a signal. -/
structure ProxyAct where
  path : List UInt8
  behind : List UInt8
  pkt : Packet
  answer : ℤ
  spurious : Bool

/-- The local states of the threads. -/
abbrev ThreadLocal (n threads workers : ℕ) : ThreadId threads workers → Type
  | .inl _ => Proxy n
  | .inr _ => Task n

/-- What the steps of the threads get from outside; the workers the result of `pread`. -/
abbrev ThreadAct (threads workers : ℕ) : ThreadId threads workers → Type
  | .inl _ => ProxyAct
  | .inr _ => ℕ

/-- `acquire_segment` and `release_segment` around `handle_request`: one step of thread `t` in
`handle_with_cache`. -/
def handleWithCache (t : ThreadId threads workers) (a : ProxyAct)
    (s : Shared n size threads workers) (x : Proxy n) :
    Option (Shared n size threads workers × Proxy n) :=
  if s.exited then none else
  match x.pc with
  | .out =>
    some (s, { x with pc := .lock, path := a.path.takeWhile fun c => c != 0 })
  | .lock =>
    (s.segMutex.lock t).map fun segMutex => ({ s with segMutex }, { x with pc := .test })
  | .test =>
    some (s, { x with pc := if s.segQueue.isempty then .wait else .pop })
  | .wait =>
    some ({ s with segMutex := s.segMutex.unlock, segCond := s.segCond.wait t },
      { x with pc := .blocked })
  | .blocked =>
    if a.spurious then some ({ s with segCond := s.segCond.spurious t }, x)
    else (s.segCond.awake s.segMutex t).map fun segMutex =>
      ({ s with segMutex }, { x with pc := .test })
  | .pop =>
    match s.segQueue.pop with
    | none => some ({ s with exited := true }, x)
    | some (seg, segQueue) => some ({ s with segQueue }, { x with pc := .unlock seg })
  | .unlock seg =>
    some ({ s with segMutex := s.segMutex.unlock },
      { x with
        pc := .request seg
        request := HandleRequest.start (initThreadPkt a.pkt x.path a.behind seg) })
  | .request seg =>
    if x.request.pc = .done then some (s, { x with pc := .lockRelease seg })
    else (handleRequest seg a.answer s.channels x.request).map fun y =>
      ({ s with channels := y.1 }, { x with request := y.2 })
  | .lockRelease seg =>
    (s.segMutex.lock t).map fun segMutex => ({ s with segMutex }, { x with pc := .push seg })
  | .push seg =>
    some ({ s with segQueue := s.segQueue.push seg }, { x with pc := .signal })
  | .signal =>
    some ({ s with segCond := s.segCond.signal }, { x with pc := .unlockRelease })
  | .unlockRelease =>
    some ({ s with segMutex := s.segMutex.unlock },
      { x with
        pc := .out
        calls := x.calls ++ [⟨x.path, x.request.header, x.request.sent, x.request.retValue⟩] })

/-- The code of the threads, for a cache that gives the bytes of the file of a name. -/
def code (get : List UInt8 → Option (List UInt8)) :
    Code (ThreadAct threads workers) (Shared n size threads workers)
      (ThreadLocal n threads workers)
  | .inl t => handleWithCache (.inl t)
  | .inr j => fun k s w =>
    (performTask get j k s.channels w).map fun y => ({ s with channels := y.1 }, y.2)

/-- The queue of the segments that `shm_create_segments` makes. -/
def shmCreateSegments (n : ℕ) : Steque (Fin n) :=
  (List.finRange n).foldl Steque.push Steque.init

/-- The threads when the segments have been created, with variables that are not
initialized. -/
def start (request : HandleRequest) (pkt : Packet) :
    Pool (Shared n size threads workers) (ThreadLocal n threads workers) where
  shared :=
    { channels := Channels.init, segMutex := Mutex.free, segCond := Condition.init,
      segQueue := shmCreateSegments n, exited := false }
  threads
    | .inl _ => { pc := .out, path := [], request, calls := [] }
    | .inr _ => Task.start pkt

/-- The schedules. -/
abbrev Schedule (threads workers : ℕ) :=
  List (Σ t : ThreadId threads workers, ThreadAct threads workers t)

/-! ### What a step does -/

/-- The steps of `handle_with_cache`. -/
inductive ProxyStep (t : ThreadId threads workers) (a : ProxyAct)
    (s : Shared n size threads workers) (x : Proxy n) :
    Shared n size threads workers → Proxy n → Prop where
  | out (pc : x.pc = .out) :
      ProxyStep t a s x s { x with pc := .lock, path := a.path.takeWhile fun c => c != 0 }
  | lock (pc : x.pc = .lock) (free : s.segMutex.owner = none) :
      ProxyStep t a s x { s with segMutex := { owner := some t } } { x with pc := .test }
  | empty (pc : x.pc = .test) :
      ProxyStep t a s x s { x with pc := .wait }
  | found (pc : x.pc = .test) (queue : s.segQueue ≠ []) :
      ProxyStep t a s x s { x with pc := .pop }
  | wait (pc : x.pc = .wait) (segCond : Condition (ThreadId threads workers)) :
      ProxyStep t a s x { s with segMutex := Mutex.free, segCond } { x with pc := .blocked }
  | spurious (pc : x.pc = .blocked) (segCond : Condition (ThreadId threads workers)) :
      ProxyStep t a s x { s with segCond } x
  | awake (pc : x.pc = .blocked) (free : s.segMutex.owner = none) :
      ProxyStep t a s x { s with segMutex := { owner := some t } } { x with pc := .test }
  | pop (seg : Fin n) (segQueue : Steque (Fin n)) (pc : x.pc = .pop)
      (pop : s.segQueue = seg :: segQueue) :
      ProxyStep t a s x { s with segQueue } { x with pc := .unlock seg }
  | underflow (pc : x.pc = .pop) (queue : s.segQueue = []) :
      ProxyStep t a s x { s with exited := true } x
  | unlock (seg : Fin n) (pc : x.pc = .unlock seg) :
      ProxyStep t a s x { s with segMutex := Mutex.free }
        { x with
          pc := .request seg
          request := HandleRequest.start (initThreadPkt a.pkt x.path a.behind seg) }
  | done (seg : Fin n) (pc : x.pc = .request seg) (done : x.request.pc = .done) :
      ProxyStep t a s x s { x with pc := .lockRelease seg }
  | request (seg : Fin n) (channels : Channels n size) (request : HandleRequest)
      (pc : x.pc = .request seg) (busy : x.request.pc ≠ .done)
      (step : handleRequest seg a.answer s.channels x.request = some (channels, request)) :
      ProxyStep t a s x { s with channels } { x with pc := .request seg, request }
  | lockRelease (seg : Fin n) (pc : x.pc = .lockRelease seg) (free : s.segMutex.owner = none) :
      ProxyStep t a s x { s with segMutex := { owner := some t } } { x with pc := .push seg }
  | push (seg : Fin n) (pc : x.pc = .push seg) :
      ProxyStep t a s x { s with segQueue := seg :: s.segQueue } { x with pc := .signal }
  | signal (pc : x.pc = .signal) (segCond : Condition (ThreadId threads workers)) :
      ProxyStep t a s x { s with segCond } { x with pc := .unlockRelease }
  | unlockRelease (pc : x.pc = .unlockRelease) :
      ProxyStep t a s x { s with segMutex := Mutex.free }
        { x with
          pc := .out
          calls := x.calls ++ [⟨x.path, x.request.header, x.request.sent, x.request.retValue⟩] }

/-- Every step of `handle_with_cache` is one of the listed ones. -/
theorem handleWithCache_cases {t : ThreadId threads workers} {a : ProxyAct}
    {s s' : Shared n size threads workers} {x x' : Proxy n}
    (h : handleWithCache t a s x = some (s', x')) :
  ProxyStep t a s x s' x'
  := by
  unfold handleWithCache at h
  by_cases he : s.exited = true
  · rw [if_pos he] at h
    cases h
  · rw [if_neg he] at h
    cases hpc : x.pc with
    | out =>
        simp only [hpc] at h
        cases h
        exact .out hpc
    | lock =>
        simp only [hpc] at h
        obtain ⟨m, hm, heq⟩ := Option.map_eq_some_iff.mp h
        obtain ⟨hfree, rfl⟩ := Mutex.lock_eq_some hm
        cases heq
        exact .lock hpc hfree
    | test =>
        cases hq : s.segQueue.isempty with
        | true =>
            simp only [hpc, hq, if_true] at h
            cases h
            exact .empty hpc
        | false =>
            simp only [hpc, hq, Bool.false_eq_true, if_false] at h
            cases h
            exact .found hpc ((Steque.isempty_eq_false _).mp hq)
    | wait =>
        simp only [hpc] at h
        cases h
        exact .wait hpc _
    | blocked =>
        simp only [hpc] at h
        by_cases hs : a.spurious = true
        · rw [if_pos hs] at h
          cases h
          exact .spurious hpc _
        · rw [if_neg hs] at h
          obtain ⟨m, hm, heq⟩ := Option.map_eq_some_iff.mp h
          obtain ⟨hfree, rfl⟩ := Condition.awake_eq_some hm
          cases heq
          exact .awake hpc hfree
    | pop =>
        cases hq : s.segQueue.pop with
        | none =>
            simp only [hpc, hq] at h
            cases h
            exact .underflow hpc (Steque.pop_eq_none.mp hq)
        | some r =>
            simp only [hpc, hq] at h
            cases h
            exact .pop r.1 r.2 hpc (Steque.pop_eq_some hq)
    | unlock seg =>
        simp only [hpc] at h
        cases h
        exact .unlock seg hpc
    | request seg =>
        simp only [hpc] at h
        by_cases hdone : x.request.pc = .done
        · rw [if_pos hdone] at h
          cases h
          exact .done seg hpc hdone
        · rw [if_neg hdone] at h
          obtain ⟨⟨channels, request⟩, hstep, heq⟩ := Option.map_eq_some_iff.mp h
          cases heq
          exact .request seg channels request hpc hdone hstep
    | lockRelease seg =>
        simp only [hpc] at h
        obtain ⟨m, hm, heq⟩ := Option.map_eq_some_iff.mp h
        obtain ⟨hfree, rfl⟩ := Mutex.lock_eq_some hm
        cases heq
        exact .lockRelease seg hpc hfree
    | push seg =>
        simp only [hpc] at h
        cases h
        exact .push seg hpc
    | signal =>
        simp only [hpc] at h
        cases h
        exact .signal hpc _
    | unlockRelease =>
        simp only [hpc] at h
        cases h
        exact .unlockRelease hpc

/-- A step of a worker leaves the pool of segments alone. -/
theorem code_worker {get : List UInt8 → Option (List UInt8)} {j : Fin workers} {k : ℕ}
    {s s' : Shared n size threads workers} {w w' : Task n}
    (h : code get (.inr j) k s w = some (s', w')) :
  performTask get j k s.channels w = some (s'.channels, w') ∧
    s' = { s with channels := s'.channels }
  := by
  obtain ⟨⟨channels, task⟩, hstep, heq⟩ := Option.map_eq_some_iff.mp h
  cases heq
  exact ⟨hstep, rfl⟩

end GetFile.Cache
