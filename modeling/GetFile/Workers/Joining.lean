import GetFile.Transition.Progress
import GetFile.Workers.Download

/-!
# The boss joins all workers

When `pthread_create` succeeds, no call of `perform_work` ends the process and the paths are short
enough, the download client comes to its end under every schedule: some thread can take a step until
the boss has joined all workers, and there are boundedly many steps. What carries this is that the
mutex is owned by the thread inside its section, and that a worker that is about to pop finds a
request.
-/

namespace GetFile.Download

open Transition

variable {n : ℕ} {i : Fin n} {s s' : Shared n} {w w' : Worker} {b b' : Boss}

/-! ### What a step does to the mutex -/

/-- The calls of a worker between `pthread_mutex_lock` and `pthread_mutex_unlock`. -/
def Pc.Inside : Pc → Prop
  | .test | .leave | .pop | .unlock _ => True
  | _ => False

/-- The calls of the boss between `pthread_mutex_lock` and `pthread_mutex_unlock`. -/
def BossPc.Inside : BossPc → Prop
  | .enqueue _ | .unlock => True
  | _ => False

/-- The threads inside the section of the mutex. -/
def Inside : ∀ t : Option (Fin n), Local n t → Prop
  | none => fun b => b.pc.Inside
  | some _ => fun w => w.pc.Inside

/-- A step of a worker with what it finds: the process runs, the worker has been created, it hands
the mutex over properly, and it pops from an empty queue only if it has not tested it. -/
structure WorkerMoves (i : Fin n) (returns : Bool) (s : Shared n) (w : Worker) (s' : Shared n)
    (w' : Worker) : Prop where
  step : WorkerStep i s w s' w'
  running : s.exited = false
  born : i.1 < s.created
  handover : (s.reqMutex.owner = some (some i) ↔ w.pc.Inside) →
    Handover (some i) s.reqMutex.owner s'.reqMutex.owner w.pc.Inside w'.pc.Inside
  found : w.pc = .test → w'.pc = .pop → s.requestQueue ≠ []
  exits : s'.exited = true → w.pc = .pop ∧ s.requestQueue = [] ∨ returns = false

theorem threadMain_moves {returns : Bool} (h : threadMain i returns s w = some (s', w')) :
  WorkerMoves i returns s w s' w'
  := by
  have hstep := threadMain_cases h
  obtain ⟨pc, performed⟩ := w
  unfold threadMain at h
  by_cases he : s.exited = true ∨ s.created ≤ i
  · rw [if_pos he] at h
    cases h
  · rw [if_neg he] at h
    push Not at he
    obtain ⟨hrunning, hborn⟩ := he
    have hrunning : s.exited = false := by simpa using hrunning
    refine ⟨hstep, hrunning, hborn, ?_, ?_, ?_⟩
    · intro hown
      cases pc with
      | lock =>
          obtain ⟨m, hm, heq⟩ := Option.map_eq_some_iff.mp h
          cases heq
          obtain ⟨hfree, rfl⟩ := Mutex.lock_eq_some hm
          exact .take hfree rfl trivial
      | test =>
          simp only [Option.some.injEq] at h
          cases h
          apply Handover.keep rfl
          cases s.requestQueue.isempty with
          | true => exact Iff.rfl
          | false => exact Iff.rfl
      | leave =>
          cases h
          exact .give (hown.mpr trivial) rfl not_false
      | pop =>
          cases hq : s.requestQueue.pop with
          | none =>
              simp only [hq] at h
              cases h
              exact .keep rfl Iff.rfl
          | some r =>
              simp only [hq] at h
              cases h
              exact .keep rfl Iff.rfl
      | unlock req =>
          cases h
          exact .give (hown.mpr trivial) rfl not_false
      | perform req =>
          cases returns with
          | true =>
              cases h
              exact .keep rfl Iff.rfl
          | false =>
              cases h
              exact .keep rfl Iff.rfl
      | exit =>
          cases h
          exact .keep rfl Iff.rfl
      | returned => cases h
    · rintro hpc hpop hempty
      cases hpc
      have hq := (Steque.isempty_iff s.requestQueue).mpr hempty
      simp only [hq, if_true] at h
      cases h
      cases hpop
    · intro hexited
      cases pc with
      | pop =>
          cases hq : s.requestQueue.pop with
          | none =>
              refine Or.inl ⟨rfl, ?_⟩
              cases hqueue : s.requestQueue with
              | nil => rfl
              | cons req queue =>
                  rw [hqueue] at hq
                  cases hq
          | some r =>
              simp only [hq] at h
              cases h
              rw [hrunning] at hexited
              cases hexited
      | lock =>
          obtain ⟨m, hm, heq⟩ := Option.map_eq_some_iff.mp h
          cases heq
          rw [hrunning] at hexited
          cases hexited
      | perform req =>
          cases returns with
          | true =>
              cases h
              rw [hrunning] at hexited
              cases hexited
          | false => exact Or.inr rfl
      | test | leave | unlock | exit =>
          cases h
          rw [hrunning] at hexited
          cases hexited
      | returned => cases h

/-- A step of the boss with what it finds. -/
structure BossMoves (success : Bool) (s : Shared n) (b : Boss) (s' : Shared n) (b' : Boss) :
    Prop where
  step : BossStep s b s' b'
  running : s.exited = false
  handover : (s.reqMutex.owner = some none ↔ b.pc.Inside) →
    Handover none s.reqMutex.owner s'.reqMutex.owner b.pc.Inside b'.pc.Inside
  creates : b.pc = .create → success = true →
    s.created < n ∧ s' = { s with created := s.created + 1 } ∧ b' = b ∨
      n ≤ s.created ∧ s' = s ∧ b' = { b with pc := .init }
  exits : s'.exited = true → success = false ∨ ∃ path ∈ b.paths, 256 < path.length

theorem main_moves {success : Bool} (h : main success s b = some (s', b')) :
  BossMoves success s b s' b'
  := by
  have hstep := main_cases h
  obtain ⟨pc, paths⟩ := b
  unfold main at h
  by_cases he : s.exited = true
  · rw [if_pos he] at h
    cases h
  · rw [if_neg he] at h
    have hrunning : s.exited = false := by simpa using he
    have hkeep : s'.exited = s.exited → s'.exited ≠ true := by
      intro heq
      rw [heq, hrunning]
      decide
    refine ⟨hstep, hrunning, ?_, ?_, ?_⟩
    · intro hown
      cases hstep with
      | create | created | init | last | long | next | join | joined => exact .keep rfl Iff.rfl
      | lock path paths m =>
          obtain ⟨m, hm, heq⟩ := Option.map_eq_some_iff.mp h
          cases heq
          obtain ⟨hfree, rfl⟩ := Mutex.lock_eq_some hm
          exact .take hfree rfl trivial
      | enqueue => exact .keep rfl Iff.rfl
      | unlock paths m =>
          cases h
          exact .give (hown.mpr trivial) rfl not_false
      | broadcast => exact .keep rfl Iff.rfl
    · rintro hpc rfl
      cases hpc
      by_cases hn : s.created < n
      · simp only [if_pos hn] at h
        cases h
        exact .inl ⟨hn, rfl, rfl⟩
      · simp only [if_neg hn] at h
        cases h
        exact .inr ⟨Nat.le_of_not_lt hn, rfl, rfl⟩
    · intro hexited
      cases pc with
      | create =>
          left
          by_cases hn : s.created < n
          · simp only [if_pos hn] at h
            cases success with
            | true =>
                cases h
                apply absurd hexited (hkeep rfl)
            | false => rfl
          · simp only [if_neg hn] at h
            cases h
            apply absurd hexited (hkeep rfl)
      | next =>
          cases paths with
          | nil =>
              cases h
              apply absurd hexited (hkeep rfl)
          | cons path paths =>
              by_cases hl : 256 < path.length
              · right
                exact ⟨path, List.mem_cons_self, hl⟩
              · simp only [if_neg hl] at h
                cases h
                apply absurd hexited (hkeep rfl)
      | lock path =>
          obtain ⟨m, hm, heq⟩ := Option.map_eq_some_iff.mp h
          cases heq
          apply absurd hexited (hkeep rfl)
      | init | enqueue | unlock | broadcast =>
          cases h
          apply absurd hexited (hkeep rfl)
      | join i =>
          cases hstep with
          | join | joined => apply absurd hexited (hkeep rfl)
      | joined => cases h

/-! ### The number of steps -/

/-- How many steps a worker takes at most that does not pop: a request in the queue counts five. -/
def Pc.left : Pc → ℕ
  | .lock => 4
  | .test => 3
  | .leave => 2
  | .pop => 2
  | .unlock _ => 6
  | .perform _ => 5
  | .exit => 1
  | .returned => 0

/-- How many steps the boss takes, where each path counts nine, and each of the `n` workers one. -/
def Boss.left (n : ℕ) (b : Boss) : ℕ :=
  match b.pc with
  | .create => 9 * b.paths.length + n + 5
  | .init => 9 * b.paths.length + n + 4
  | .next => 9 * b.paths.length + n + 3
  | .lock _ => 9 * b.paths.length + n + 11
  | .enqueue _ => 9 * b.paths.length + n + 10
  | .unlock => 9 * b.paths.length + n + 4
  | .broadcast => n + 2
  | .join i => n - i + 1
  | .joined => 0

/-- How many steps a thread takes. -/
def left : ∀ t : Option (Fin n), Local n t → ℕ
  | none => Boss.left n
  | some _ => fun w => w.pc.left

/-- The workers still to be created and the requests in the queue. -/
def Shared.left (s : Shared n) : ℕ :=
  (n - s.created) + 5 * s.requestQueue.length

/-- An upper bound for the number of steps. -/
def stepsLeft (p : Pool (Shared n) (Local n)) : ℕ :=
  p.shared.left + ∑ t, left t (p.threads t)

/-- Every step of a worker that does not end the process makes the bound smaller. -/
theorem WorkerMoves.less {returns : Bool} (h : WorkerMoves i returns s w s' w')
    (hrunning : s'.exited = false) :
  s'.left + w'.pc.left < s.left + w.pc.left
  := by
  cases h.step with
  | lock | empty | found | leave | unlock | perform | exit =>
      simp only [Shared.left, Pc.left]
      omega
  | pop performed req requestQueue pop =>
      simp only [Shared.left, Pc.left, pop, List.length_cons]
      omega
  | underflow | fail => cases hrunning

/-- Every step of the boss that does not end the process makes the bound smaller. -/
theorem BossMoves.less (h : BossMoves true s b s' b') (hrunning : s'.exited = false) :
  s'.left + b'.left n < s.left + b.left n
  := by
  cases h.step with
  | create paths created exited =>
      obtain ⟨hn, hs, -⟩ | ⟨-, -, hb⟩ := h.creates rfl rfl
      · rw [hs]
        simp only [Shared.left]
        omega
      · cases hb
  | created | last | lock | unlock | broadcast =>
      simp only [Shared.left, Boss.left, List.length_nil]
      omega
  | init =>
      simp only [Shared.left, Boss.left, List.length_nil]
      omega
  | long => cases hrunning
  | next path paths =>
      simp only [Shared.left, Boss.left, List.length_cons]
      omega
  | enqueue path paths =>
      simp only [Shared.left, Boss.left, List.length_append, List.length_singleton]
      omega
  | join paths j finished =>
      have hj := j.2
      simp only [Shared.left, Boss.left]
      omega
  | joined paths j all =>
      simp only [Shared.left, Boss.left]
      omega

/-! ### Every state of a run -/

/-- The calls in which `pthread_create` succeeds, or `perform_work` returns. -/
def Succeeds (a : Σ _ : Option (Fin n), Bool) (_ : Pool (Shared n) (Local n)) : Prop :=
  a.2 = true

/-- What holds in every state of a run in which `pthread_create` succeeds, `perform_work` returns and
the paths are short enough: the process runs, the mutex is owned by the thread inside its section,
the boss goes on only when it has created all workers, a worker starts only when it has been created,
it pops only what is there, and when it has returned it can be joined. -/
structure Alive (paths : List Path) (p : Pool (Shared n) (Local n)) : Prop where
  invariant : Invariant paths p
  running : p.shared.exited = false
  short : ∀ path ∈ (p.threads none).paths, path.length ≤ 256
  owned : Owned (fun s : Shared n => s.reqMutex.owner) Inside p
  born : (p.threads none).pc ≠ .create → n ≤ p.shared.created
  found : ∀ i, (p.threads (some i)).pc = .pop → p.shared.requestQueue ≠ []
  unborn : ∀ i : Fin n, p.shared.created ≤ i → (p.threads (some i)).pc = .lock
  ended : ∀ i, (p.threads (some i)).pc = .returned → i ∈ p.shared.finished

variable {paths : List Path} {p p' : Pool (Shared n) (Local n)}
  {a : Σ _ : Option (Fin n), Bool}

theorem Alive.start (hshort : ∀ path ∈ paths, path.length ≤ 256) :
  Alive paths (start paths : Pool (Shared n) (Local n))
  where
  invariant := Invariant.start paths
  running := rfl
  short := hshort
  owned t := by
    cases t with
    | none => simp [Download.start, Mutex.free, Inside, BossPc.Inside]
    | some i => simp [Download.start, Mutex.free, Inside, Pc.Inside]
  born h := absurd rfl h
  found _ h := by cases h
  unborn _ _ := rfl
  ended _ h := by cases h

/-- The boss does not come back to `pthread_create`, and it keeps what its workers find. -/
theorem BossMoves.keeps (h : BossMoves true s b s' b') (hrunning : s'.exited = false) :
  s.created ≤ s'.created ∧ (b'.pc ≠ .create → b.pc = .create → n ≤ s'.created) ∧
    (∀ path ∈ b'.paths, path ∈ b.paths) ∧
    (s.requestQueue ≠ [] → b.pc ≠ .init → s'.requestQueue ≠ [])
  := by
  cases h.step with
  | create paths created exited =>
      obtain ⟨-, hs, -⟩ | ⟨-, -, hb⟩ := h.creates rfl rfl
      · rw [hs]
        exact ⟨Nat.le_succ _, fun hne => absurd rfl hne, fun _ hp => hp, fun hq _ => hq⟩
      · cases hb
  | created paths =>
      obtain ⟨-, -, hb⟩ | ⟨hn, -, -⟩ := h.creates rfl rfl
      · cases hb
      · exact ⟨Nat.le_refl _, fun _ _ => hn, fun _ hp => hp, fun hq _ => hq⟩
  | init paths =>
      exact ⟨Nat.le_refl _, by simp, fun _ hp => hp, fun _ hne => absurd rfl hne⟩
  | long => cases hrunning
  | next path paths =>
      exact ⟨Nat.le_refl _, by simp, fun _ hp => List.mem_cons_of_mem _ hp, fun hq _ => hq⟩
  | enqueue path paths => exact ⟨Nat.le_refl _, by simp, fun _ hp => hp, by simp⟩
  | last | lock | unlock | broadcast | join | joined =>
      exact ⟨Nat.le_refl _, by simp, fun _ hp => hp, fun hq _ => hq⟩

/-- A worker creates no workers, and it can be joined when it has returned. -/
theorem WorkerStep.keeps (h : WorkerStep i s w s' w') :
  s'.created = s.created ∧ (∀ j ∈ s.finished, j ∈ s'.finished) ∧
    (w'.pc = .returned → i ∈ s'.finished)
  := by
  cases h with
  | lock | empty | found | leave | pop | underflow | unlock | perform | fail =>
      exact ⟨rfl, fun _ hj => hj, by simp⟩
  | exit => exact ⟨rfl, fun _ hj => List.mem_cons_of_mem _ hj, fun _ => List.mem_cons_self⟩

/-- A worker comes to the pop by finding the queue non-empty. -/
theorem WorkerMoves.found_queue {returns : Bool} (h : WorkerMoves i returns s w s' w')
    (hrunning : s'.exited = false)
    (hpc : w'.pc = .pop) :
  s'.requestQueue ≠ []
  := by
  have hfound := h.found
  cases h.step with
  | found => exact hfound rfl rfl
  | underflow | fail => cases hrunning
  | lock | empty | leave | pop | unlock | perform | exit => cases hpc

/-- Every step of the boss in which `pthread_create` succeeds keeps the state alive. -/
theorem Alive.main_step (h : Alive paths p) (hs : Pool.step code ⟨none, true⟩ p = some p') :
  Alive paths p'
  := by
  have hmoves := main_moves (Pool.step_own hs)
  have hother : ∀ i, p'.threads (some i) = p.threads (some i) :=
    fun i => Pool.step_other hs (Option.some_ne_none i)
  have hrunning : p'.shared.exited = false := by
    cases hexited : p'.shared.exited with
    | false => rfl
    | true =>
        obtain hfalse | ⟨path, hmem, hlong⟩ := hmoves.exits hexited
        · cases hfalse
        · have hle := h.short path hmem
          omega
  obtain ⟨hcreated, hborn, hpaths, hqueue⟩ := hmoves.keeps hrunning
  constructor
  case invariant => exact h.invariant.step hs
  case running => exact hrunning
  case short => exact fun path hpath => h.short path (hpaths path hpath)
  case owned => exact h.owned.step (hmoves.handover (h.owned none)) hs
  case born =>
    intro hpc
    by_cases hcreate : (p.threads none).pc = .create
    · exact hborn hpc hcreate
    · exact (h.born hcreate).trans hcreated
  case found =>
    intro i hpc
    rw [hother i] at hpc
    have hne := h.found i hpc
    apply hqueue hne
    intro hinit
    exact hne (h.invariant.young (.inr hinit))
  case unborn =>
    intro i hi
    rw [hother i]
    exact h.unborn i (hcreated.trans hi)
  case ended =>
    intro i hpc
    rw [hother i] at hpc
    rw [hmoves.step.finished]
    exact h.ended i hpc

/-- Every step of a worker in which `perform_work` returns keeps the state alive. -/
theorem Alive.worker_step (h : Alive paths p) (hs : Pool.step code ⟨some i, true⟩ p = some p') :
  Alive paths p'
  := by
  have hmoves := threadMain_moves (Pool.step_own hs)
  have hboss : p'.threads none = p.threads none :=
    Pool.step_other hs (Option.some_ne_none i).symm
  have hother : ∀ j, j ≠ i → p'.threads (some j) = p.threads (some j) :=
    fun j hj => Pool.step_other hs (fun heq => hj (Option.some.inj heq))
  have hrunning : p'.shared.exited = false := by
    cases hexited : p'.shared.exited with
    | false => rfl
    | true =>
        obtain ⟨hpc, hempty⟩ | hfalse := hmoves.exits hexited
        · apply absurd hempty (h.found i hpc)
        · cases hfalse
  obtain ⟨hcreated, hfinished, hreturned⟩ := hmoves.step.keeps
  constructor
  case invariant => exact h.invariant.step hs
  case running => exact hrunning
  case short =>
    rw [hboss]
    exact h.short
  case owned => exact h.owned.step (hmoves.handover (h.owned (some i))) hs
  case born =>
    rw [hboss, hcreated]
    exact h.born
  case found =>
    intro j hpc
    by_cases hj : j = i
    · rw [hj] at hpc
      exact hmoves.found_queue hrunning hpc
    · rw [hother j hj] at hpc
      obtain hq | ⟨hpop, -⟩ := hmoves.step.queue
      · rw [hq]
        exact h.found j hpc
      · -- two workers are not in the section at once
        have hin : ∀ k : Fin n, (p.threads (some k)).pc = .pop →
            Inside (some k) (p.threads (some k)) := by
          intro k hk
          simp [Inside, hk, Pc.Inside]
        have heq := h.owned.unique (hin j hpc) (hin i hpop)
        exact absurd (Option.some.inj heq) hj
  case unborn =>
    intro j hj
    rw [hcreated] at hj
    have hne : j ≠ i := by
      rintro rfl
      have hborn := hmoves.born
      omega
    rw [hother j hne]
    exact h.unborn j hj
  case ended =>
    intro j hpc
    by_cases hj : j = i
    · rw [hj] at hpc ⊢
      exact hreturned hpc
    · rw [hother j hj] at hpc
      exact hfinished j (h.ended j hpc)

/-- Every step that succeeds keeps the state alive. -/
theorem Alive.step (h : Alive paths p) (ha : Succeeds a p) (hs : Pool.step code a p = some p') :
  Alive paths p'
  := by
  obtain ⟨t, ok⟩ := a
  obtain rfl : ok = true := ha
  cases t with
  | none => exact h.main_step hs
  | some i => exact h.worker_step hs

/-- Every step that succeeds makes the bound smaller. -/
theorem Alive.less (h : Alive paths p) (ha : Succeeds a p) (hs : Pool.step code a p = some p') :
  stepsLeft p' < stepsLeft p
  := by
  have hrunning := (h.step ha hs).running
  have hsum := Pool.step_sum left hs
  obtain ⟨t, ok⟩ := a
  obtain rfl : ok = true := ha
  have hmove : p'.shared.left + left t (p'.threads t) < p.shared.left + left t (p.threads t) := by
    cases t with
    | none => exact (main_moves (Pool.step_own hs)).less hrunning
    | some i => exact (threadMain_moves (Pool.step_own hs)).less hrunning
  simp only at hsum
  rw [stepsLeft, stepsLeft]
  omega

/-! ### Some thread can take a step -/

/-- A worker that has been created can take a step, unless it has returned or waits for the
mutex. -/
theorem threadMain_isSome (hrunning : s.exited = false) (hborn : i.1 < s.created)
    (hlock : w.pc = .lock → s.reqMutex.owner = none) (hreturned : w.pc ≠ .returned) :
  (threadMain i true s w).isSome = true
  := by
  have hrun : ¬ (s.exited = true ∨ s.created ≤ i.1) := by
    rw [hrunning]
    simpa using hborn
  obtain ⟨pc, performed⟩ := w
  unfold threadMain
  rw [if_neg hrun]
  cases pc with
  | lock => simp [Mutex.lock, hlock rfl]
  | pop =>
      dsimp only
      cases s.requestQueue.pop with
      | none => rfl
      | some r => rfl
  | test | leave | unlock | perform | exit => rfl
  | returned => exact absurd rfl hreturned

/-- The boss can take a step, unless it waits for the mutex or for a worker. -/
theorem main_isSome (hrunning : s.exited = false)
    (hlock : ∀ path, b.pc = .lock path → s.reqMutex.owner = none)
    (hjoin : ∀ j, b.pc = .join j → ∀ h : j < n, ⟨j, h⟩ ∈ s.finished) (hjoined : b.pc ≠ .joined) :
  (main true s b).isSome = true
  := by
  have hrun : ¬ s.exited = true := by simp [hrunning]
  obtain ⟨pc, paths⟩ := b
  unfold main
  rw [if_neg hrun]
  cases pc with
  | create =>
      by_cases hn : s.created < n
      · simp [hn]
      · simp [hn]
  | next =>
      cases paths with
      | nil => rfl
      | cons path paths =>
          by_cases hl : 256 < path.length
          · simp [hl]
          · simp [hl]
  | lock path => simp [Mutex.lock, hlock path rfl]
  | join j =>
      by_cases hj : j < n
      · have hmem := hjoin j rfl hj
        simp [hj, hmem]
      · simp [hj]
  | init | enqueue | unlock | broadcast => rfl
  | joined => exact absurd rfl hjoined

/-- As long as the boss has not joined all workers, some thread can take a step: the one inside
the section of the mutex, or else the boss, or else the worker that it waits for. -/
theorem Alive.enabled (h : Alive paths p) (hjoined : (p.threads none).pc ≠ .joined) :
  ∃ a, Succeeds a p ∧ (Pool.step code a p).isSome = true
  := by
  have hboss : (main true p.shared (p.threads none)).isSome = true →
      ∃ a, Succeeds a p ∧ (Pool.step code a p).isSome = true := by
    intro hsome
    have hstep : (Pool.step code ⟨none, true⟩ p).isSome = true := Pool.step_isSome hsome
    exact ⟨⟨none, true⟩, rfl, hstep⟩
  have hworker : ∀ i, (threadMain i true p.shared (p.threads (some i))).isSome = true →
      ∃ a, Succeeds a p ∧ (Pool.step code a p).isSome = true := by
    intro i hsome
    have hstep : (Pool.step code ⟨some i, true⟩ p).isSome = true := Pool.step_isSome hsome
    exact ⟨⟨some i, true⟩, rfl, hstep⟩
  cases howner : p.shared.reqMutex.owner with
  | some t =>
      have hinside := (h.owned t).mp howner
      cases t with
      | none =>
          apply hboss
          apply main_isSome h.running _ _ hjoined
          · intro path hpc
            simp [Inside, hpc, BossPc.Inside] at hinside
          · intro j hpc
            simp [Inside, hpc, BossPc.Inside] at hinside
      | some i =>
          apply hworker i
          have hlock : (p.threads (some i)).pc ≠ .lock := by
            intro hpc
            simp [Inside, hpc, Pc.Inside] at hinside
          apply threadMain_isSome h.running
          · by_contra hborn
            exact hlock (h.unborn i (Nat.le_of_not_lt hborn))
          · exact fun hpc => absurd hpc hlock
          · intro hpc
            simp [Inside, hpc, Pc.Inside] at hinside
  | none =>
      by_cases hwaits : ∃ j, ∃ hj : j < n, (p.threads none).pc = .join j ∧
          ⟨j, hj⟩ ∉ p.shared.finished
      · obtain ⟨j, hj, hpc, hnot⟩ := hwaits
        apply hworker ⟨j, hj⟩
        apply threadMain_isSome h.running
        · exact lt_of_lt_of_le hj (h.born (by simp [hpc]))
        · exact fun _ => howner
        · exact fun hreturned => hnot (h.ended ⟨j, hj⟩ hreturned)
      · apply hboss
        apply main_isSome h.running _ _ hjoined
        · exact fun _ _ => howner
        · intro j hpc hj
          by_contra hnot
          exact hwaits ⟨j, hj, hpc, hnot⟩

/-! ### The end of the client -/

/-- The boss has joined all workers, they have returned, and each path of the workload is in the
queue or has been handed to `perform_work` exactly once. -/
structure Ended (paths : List Path) (p : Pool (Shared n) (Local n)) : Prop where
  joined : (p.threads none).pc = .joined
  returned : ∀ i, (p.threads (some i)).pc = .returned
  performed : (p.shared.requestQueue : Multiset Path)
    + ∑ i, ((p.threads (some i)).performed : Multiset Path) = paths

/-- For every number of workers, every workload of short paths and every schedule in which
`pthread_create` succeeds and no call of `perform_work` ends the process: the client comes to its end
after boundedly many steps, and in no state before are all threads stuck. -/
theorem pool_finishes (hshort : ∀ path ∈ paths, path.length ≤ 256) :
  Finishes (Pool.step code) Succeeds (Ended paths) (start paths : Pool (Shared n) (Local n))
  := by
  apply Finishes.of_measure (I := Alive paths) stepsLeft
  · intro a p p' h ha hs
    exact h.step ha hs
  · intro a p p' h ha hs
    exact h.less ha hs
  · intro p h hnot
    apply h.enabled
    intro hjoined
    exact hnot ⟨hjoined, h.invariant.returned hjoined, h.invariant.performed hjoined⟩
  · exact Alive.start hshort

theorem pool_finishes_one :
  Finishes (Pool.step code) Succeeds (Ended [[47]]) (start [[47]] : Pool (Shared 1) (Local 1))
  := by
  apply pool_finishes
  decide

end GetFile.Download
