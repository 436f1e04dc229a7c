import GetFile.Client.OpenFile
import GetFile.Rpc.MinifyImage
import GetFile.Transition.Progress
import GetFile.Workers.Minify
import GetFile.Workers.Workload

/-!
# The files of the RPC client

The threads in `worker_main` with the calls that they make for a request: `read_from_file`,
`minify_via_rpc` and `write_to_file`. Whatever the schedule is, the program ends with the minified
image of each input in the output of its request, and changes no other file
(`minify_images`), when the outputs are different files, none of which is an input.
-/

namespace GetFile.Minify

open Client CString FileSystem Transition

/-! ### The calls for a request -/

/-- The name ends with a slash, so that it is not that of a file. -/
def EndsWithSlash (name : List UInt8) : Prop :=
  name.getLast? = some slash

instance (name : List UInt8) : Decidable (EndsWithSlash name) :=
  inferInstanceAs (Decidable (_ = _))

/-- `read_from_file`, which ends the process when it has no result. -/
def readFromFile (cwd : List (List UInt8)) (files : Files) (filename : List UInt8) :
    Option (List UInt8) :=
  if EndsWithSlash filename then none
  else
    match files.walk fits (base cwd filename) (components filename) with
    | .ok p => files.contents p
    | .error _ => none

/-- `write_to_file`: the files behind it, and none when it cannot open the file and returns `1`. -/
def writeToFile (cwd : List (List UInt8)) (files : Files) (filename data : List UInt8) :
    Option Files :=
  if EndsWithSlash filename then none
  else
    match fopen cwd files filename with
    | .ok files => some (files.append (resolve cwd filename) data)
    | .error _ => none

/-- What the threads share, and the files. -/
structure Machine (τ : Type*) where
  shared : Shared τ
  files : Files

section

variable {τ : Type*} (magickminify : List UInt8 → Option (List UInt8)) (cwd : List (List UInt8))

/-- What the next call of a thread gives it, where `none` is a failure. There is no result when the
array for the image is left. -/
def answer (delivered : Bool) (files : Files) : Pc → Option (Option (List UInt8))
  | .readFromFile request => some (readFromFile cwd files request.inputfilename)
  | .minifyViaRpc _ src =>
    match minifyViaRpc magickminify delivered src with
    | .returned dst => some (some dst)
    | .exit => some none
    | .overflow => none
  | .writeToFile request dst =>
    some ((writeToFile cwd files request.outputfilename dst).map fun _ => dst)
  | _ => some none

/-- The files behind the next call of a thread. -/
def filesAfter (files : Files) : Pc → Files
  | .writeToFile request dst => (writeToFile cwd files request.outputfilename dst).getD files
  | _ => files

/-- One step of thread `t` in `worker_main` with the calls that it makes. The network delivers the
call of `minify_via_rpc`, or it does not. -/
def workerMainFiles (t : τ) (delivered : Bool) (s : Machine τ) (w : Worker) :
    Option (Machine τ × Worker) :=
  (answer magickminify cwd delivered s.files w.pc).bind fun answer =>
    (workerMain t answer s.shared w).map fun x => (⟨x.1, filesAfter cwd s.files w.pc⟩, x.2)

end

/-- The threads when `load_requests` has filled the queue. -/
def startFiles {τ : Type*} (loaded : List Request) (files : Files) :
    Pool (Machine τ) (fun _ : τ => Worker) where
  shared := ⟨(start loaded : Pool (Shared τ) (fun _ => Worker)).shared, files⟩
  threads := (start loaded : Pool (Shared τ) (fun _ => Worker)).threads

/-! ### What the calls do to the files -/

section

variable {cwd : List (List UInt8)} {files files' : Files} {name data : List UInt8}

/-- The same directories stand in two trees. -/
def SameDirectories (files files' : Files) : Prop :=
  ∀ p, files'.node p = some .directory ↔ files.node p = some .directory

/-- A walk goes through directories only. -/
theorem SameDirectories.walk (h : SameDirectories files files')
    {p q : List (List UInt8)} {cs : List (Component (List UInt8))}
    (hwalk : files.walk fits p cs = .ok q) :
  files'.walk fits p cs = .ok q
  := by
  induction cs generalizing p with
  | nil => exact hwalk
  | cons c cs ih =>
      rw [Tree.walk] at hwalk ⊢
      split at hwalk
      · rename_i hdirectory
        rw [if_pos (Tree.isDirectory_iff.mpr ((h p).mpr (Tree.isDirectory_iff.mp hdirectory)))]
        split at hwalk
        · rename_i hfits
          rw [if_pos hfits]
          exact ih hwalk
        · cases hwalk
      · cases hwalk

theorem SameDirectories.symm (h : SameDirectories files files') :
  SameDirectories files' files
  := fun p => (h p).symm

/-- `fopen` opens the file for writing. -/
def Writable (cwd : List (List UInt8)) (files : Files) (name : List UInt8) : Prop :=
  ¬ EndsWithSlash name ∧ files.walk fits (base cwd name) (components name) = .ok (resolve cwd name) ∧
    files.node (resolve cwd name) ≠ some .directory ∧
    files.node (resolve cwd name).dropLast = some .directory

/-- Whether a file can be opened for writing depends on the directories only. -/
theorem SameDirectories.writable (h : SameDirectories files files')
    (hwritable : Writable cwd files name) :
  Writable cwd files' name
  := by
  obtain ⟨hslash, hwalk, hleaf, hparent⟩ := hwritable
  exact ⟨hslash, h.walk hwalk, fun hnode => hleaf ((h _).mp hnode), (h _).mpr hparent⟩

/-- A file that can be opened for writing is replaced, and nothing else changes. -/
theorem writeToFile_node (h : Writable cwd files name) (q : List (List UInt8)) :
  ((writeToFile cwd files name data).getD files).node q =
    if q = resolve cwd name then some (.file data) else files.node q
  := by
  obtain ⟨hslash, hwalk, hleaf, hparent⟩ := h
  obtain ⟨-, -, t, ht, hnode⟩ | ⟨hnot, -⟩ := Tree.creat_spec (t := files) (p := resolve cwd name)
  · have hempty : t.node (resolve cwd name) = some (.file []) := by rw [hnode, if_pos rfl]
    have hopen : fopen cwd files name = .ok t := by
      rw [fopen, hwalk]
      exact ht
    rw [writeToFile, if_neg hslash, hopen]
    dsimp only [Option.getD_some]
    rw [Tree.append_node hempty, hnode]
    split
    · rfl
    · rfl
  · exfalso
    obtain hdirectory | hmissing := hnot
    · exact hleaf hdirectory
    · exact hmissing hparent

/-- A file that cannot be opened for writing is not written. -/
theorem writeToFile_of_not (h : ¬ Writable cwd files name) :
  writeToFile cwd files name data = none
  := by
  by_cases hslash : EndsWithSlash name
  · rw [writeToFile, if_pos hslash]
  have hopen : ∃ e, fopen cwd files name = .error e := by
    obtain ⟨-, -, hwalk⟩ | ⟨-, e, hwalk⟩ := files.walk_spec fits (base cwd name) (components name)
    · obtain ⟨hleaf, hparent, -⟩ | ⟨-, e, he⟩ :=
        Tree.creat_spec (t := files) (p := resolve cwd name)
      · exact absurd ⟨hslash, hwalk, hleaf, hparent⟩ h
      · refine ⟨e, ?_⟩
        rw [fopen, hwalk]
        exact he
    · refine ⟨e, ?_⟩
      rw [fopen, hwalk]
      rfl
  obtain ⟨e, he⟩ := hopen
  rw [writeToFile, if_neg hslash, he]

/-- Elsewhere nothing changes. -/
theorem writeToFile_other {q : List (List UInt8)} (hq : q ≠ resolve cwd name) :
  ((writeToFile cwd files name data).getD files).node q = files.node q
  := by
  by_cases h : Writable cwd files name
  · rw [writeToFile_node h, if_neg hq]
  · rw [writeToFile_of_not h, Option.getD_none]

/-- Writing a file leaves the directories as they are. -/
theorem writeToFile_directories :
  SameDirectories files ((writeToFile cwd files name data).getD files)
  := by
  intro p
  by_cases h : Writable cwd files name
  · rw [writeToFile_node h]
    split
    · rename_i heq
      subst heq
      constructor
      · intro hfile
        cases hfile
      · intro hdirectory
        exact absurd hdirectory h.2.2.1
    · exact Iff.rfl
  · rw [writeToFile_of_not h, Option.getD_none]

/-- A file is read as it was before when the directories and the file are as they were. -/
theorem readFromFile_congr (h : SameDirectories files files')
    (hfile : files'.node (resolve cwd name) = files.node (resolve cwd name)) :
  readFromFile cwd files' name = readFromFile cwd files name
  := by
  have hother : ∀ {t t' : Files}, SameDirectories t t' → ∀ {e},
      t.walk fits (base cwd name) (components name) = .error e →
      ∃ e', t'.walk fits (base cwd name) (components name) = .error e' := by
    intro t t' hsame e he
    cases hwalk : t'.walk fits (base cwd name) (components name) with
    | error e' => exact ⟨e', rfl⟩
    | ok p =>
        rw [hsame.symm.walk hwalk] at he
        cases he
  cases hwalk : files.walk fits (base cwd name) (components name) with
  | error e =>
      obtain ⟨e', he'⟩ := hother h hwalk
      simp only [readFromFile, hwalk, he']
  | ok p =>
      have hp := Tree.walk_ok hwalk
      simp only [readFromFile, hwalk, h.walk hwalk]
      rw [hp]
      unfold Tree.contents
      rw [show follow (base cwd name) (components name) = resolve cwd name from rfl, hfile]

end

/-! ### What the threads have done -/

section

variable {τ : Type*} {magickminify : List UInt8 → Option (List UInt8)} {cwd : List (List UInt8)}
  {files : Files} {loaded : List Request} {p p' : Pool (Machine τ) (fun _ : τ => Worker)}
  {a : Σ _ : τ, Bool}

/-- The image that a request asks for, made of the input as the files are. -/
def Makes (magickminify : List UInt8 → Option (List UInt8)) (cwd : List (List UInt8))
    (files : Files) (request : Request) (dst : List UInt8) : Prop :=
  ∃ src, readFromFile cwd files request.inputfilename = some src ∧
    minifyViaRpc magickminify true src = .returned dst

/-- A request makes one image. -/
theorem Makes.unique {request : Request} {dst dst' : List UInt8}
    (h : Makes magickminify cwd files request dst) (h' : Makes magickminify cwd files request dst') :
  dst = dst'
  := by
  obtain ⟨src, hread, hminify⟩ := h
  obtain ⟨src', hread', hminify'⟩ := h'
  rw [hread] at hread'
  cases hread'
  rw [hminify] at hminify'
  cases hminify'
  rfl

/-- What a thread has in its variables is the input of its request, or the image made of it. -/
def Worker.Holds (magickminify : List UInt8 → Option (List UInt8)) (cwd : List (List UInt8))
    (files : Files) (w : Worker) : Prop :=
  match w.pc with
  | .minifyViaRpc request src => readFromFile cwd files request.inputfilename = some src
  | .writeToFile request dst => Makes magickminify cwd files request dst
  | _ => True

/-- The request has been written. -/
def Written (request : Request) (p : Pool (Machine τ) (fun _ : τ => Worker)) : Prop :=
  ∃ t, request ∈ (p.threads t).handled .write

/-- The requests have different outputs, none of which is an input. -/
structure Apart (cwd : List (List UInt8)) (loaded : List Request) : Prop where
  outputs : (loaded.map fun request => resolve cwd request.outputfilename).Nodup
  inputs : ∀ r ∈ loaded, ∀ r' ∈ loaded,
    resolve cwd r.inputfilename ≠ resolve cwd r'.outputfilename

/-- The threads without the files. -/
def threadsOf (p : Pool (Machine τ) (fun _ : τ => Worker)) :
    Pool (Shared τ) (fun _ : τ => Worker) :=
  ⟨p.shared.shared, p.threads⟩

variable {t : τ} {ans : Option (List UInt8)} {s s' : Shared τ} {w w' : Worker} {r : Request}
  {src dst : List UInt8}

/-- A thread that reads has what it is given, or it ends the process. -/
theorem workerMain_read (h : workerMain t ans s w = some (s', w')) (hpc : w.pc = .readFromFile r) :
  (ans = none ∧ s' = { s with exited := true } ∧ w' = w) ∨
    ∃ src, ans = some src ∧ s' = s ∧
      w' = ⟨.minifyViaRpc r src, w.log ++ [⟨.read, r, some src⟩]⟩
  := by
  unfold workerMain at h
  split at h
  · cases h
  · simp only [hpc] at h
    cases ans with
    | none =>
        cases h
        exact Or.inl ⟨rfl, rfl, rfl⟩
    | some src =>
        cases h
        exact Or.inr ⟨src, rfl, rfl, rfl⟩

/-- A thread that calls the server has what it is given, or it ends the process. -/
theorem workerMain_minify (h : workerMain t ans s w = some (s', w'))
    (hpc : w.pc = .minifyViaRpc r src) :
  (ans = none ∧ s' = { s with exited := true } ∧ w' = w) ∨
    ∃ dst, ans = some dst ∧ s' = s ∧
      w' = ⟨.writeToFile r dst, w.log ++ [⟨.minify, r, some dst⟩]⟩
  := by
  unfold workerMain at h
  split at h
  · cases h
  · simp only [hpc] at h
    cases ans with
    | none =>
        cases h
        exact Or.inl ⟨rfl, rfl, rfl⟩
    | some dst =>
        cases h
        exact Or.inr ⟨dst, rfl, rfl, rfl⟩

/-- A thread that writes goes on. -/
theorem workerMain_write (h : workerMain t ans s w = some (s', w'))
    (hpc : w.pc = .writeToFile r dst) :
  s' = s ∧ w' = ⟨.relock, w.log ++ [⟨.write, r, ans.map fun _ => dst⟩]⟩
  := by
  unfold workerMain at h
  split at h
  · cases h
  · simp only [hpc] at h
    cases h
    exact ⟨rfl, rfl⟩

/-- Only a thread that writes has written more. -/
theorem WorkerStep.handled_write (h : WorkerStep t s w s' w')
    (hpc : ∀ r dst, w.pc ≠ .writeToFile r dst) :
  w'.handled .write = w.handled .write
  := by
  cases h with
  | write log request dst data => exact absurd rfl (hpc request dst)
  | read log request src =>
      rw [Worker.handled_append .write (.readFromFile request)]
      simp
  | minify log request src dst =>
      rw [Worker.handled_append .write (.minifyViaRpc request src)]
      simp
  | lock | empty | found | pop | unlock | leave | exit => rfl

/-- Only a thread that reads or calls the server gets something new. -/
theorem WorkerStep.holds (h : WorkerStep t s w s' w') (hread : ∀ r, w.pc ≠ .readFromFile r)
    (hminify : ∀ r src, w.pc ≠ .minifyViaRpc r src) (hw : w.Holds magickminify cwd files) :
  w'.Holds magickminify cwd files
  := by
  cases h with
  | read log request src => exact absurd rfl (hread request)
  | minify log request src dst => exact absurd rfl (hminify request src)
  | exit => exact hw
  | lock | empty | found | pop | unlock | write | leave => trivial

/-- The steps that are left for a thread. -/
def Pc.cost : Pc → ℕ
  | .lock => 3
  | .test => 2
  | .pop => 1
  | .unlock _ => 7
  | .readFromFile _ => 6
  | .minifyViaRpc _ _ => 5
  | .writeToFile _ _ => 4
  | .relock => 3
  | .leave => 1
  | .returned => 0

/-- Every step that does not end the process leaves fewer steps. -/
theorem WorkerStep.cost (h : WorkerStep t s w s' w') (hrun : s'.exited = false) :
  7 * s'.queue.length + w'.pc.cost < 7 * s.queue.length + w.pc.cost
  := by
  cases h with
  | exit => cases hrun
  | pop log request queue pop =>
      simp only [pop, Pc.cost, List.length_cons]
      omega
  | lock pc log hpc =>
      obtain rfl | rfl := hpc
      · simp only [Pc.cost]
        omega
      · simp only [Pc.cost]
        omega
  | empty | found | unlock | read | minify | write | leave =>
      simp only [Pc.cost]
      omega

/-- The process goes on when a thread pops what is there and its calls succeed. -/
theorem workerMain_running (h : workerMain t ans s w = some (s', w'))
    (hfound : w.pc = .pop → s.queue ≠ [])
    (hread : ∀ r, w.pc = .readFromFile r → ans ≠ none)
    (hminify : ∀ r src, w.pc = .minifyViaRpc r src → ans ≠ none) :
  s'.exited = false
  := by
  unfold workerMain at h
  split at h
  · cases h
  · rename_i hrun
    have hrun : s.exited = false := by simpa using hrun
    cases hpc : w.pc with
    | lock | relock =>
        simp only [hpc] at h
        obtain ⟨m, -, heq⟩ := Option.map_eq_some_iff.mp h
        cases heq
        exact hrun
    | pop =>
        cases hq : s.queue.pop with
        | none => exact absurd (Steque.pop_eq_none.mp hq) (hfound hpc)
        | some x =>
            simp only [hpc, hq] at h
            cases h
            exact hrun
    | readFromFile r =>
        cases ans with
        | none => exact absurd rfl (hread r hpc)
        | some src =>
            simp only [hpc] at h
            cases h
            exact hrun
    | minifyViaRpc r src =>
        cases ans with
        | none => exact absurd rfl (hminify r src hpc)
        | some dst =>
            simp only [hpc] at h
            cases h
            exact hrun
    | returned => simp [hpc] at h
    | test | unlock | writeToFile | leave =>
        simp only [hpc] at h
        cases h
        exact hrun

/-- A thread that has not returned can go on when the mutex is free where it takes it. -/
theorem workerMain_isSome (hrun : s.exited = false) (hpc : w.pc ≠ .returned)
    (hfree : w.pc = .lock ∨ w.pc = .relock → s.mutex.owner = none) :
  (workerMain t ans s w).isSome = true
  := by
  have hlock : s.mutex.owner = none → (s.mutex.lock t).isSome = true := by
    intro hnone
    simp [Mutex.lock, hnone]
  unfold workerMain
  rw [if_neg (by simp [hrun])]
  cases hx : w.pc with
  | lock =>
      dsimp only
      rw [Option.isSome_map]
      exact hlock (hfree (Or.inl hx))
  | relock =>
      dsimp only
      rw [Option.isSome_map]
      exact hlock (hfree (Or.inr hx))
  | returned => exact absurd hx hpc
  | pop =>
      dsimp only
      split
      · rfl
      · rfl
  | readFromFile | minifyViaRpc =>
      dsimp only
      split
      · rfl
      · rfl
  | test | unlock | writeToFile | leave => rfl

variable [Fintype τ]

/-- What holds in every state of a run that begins with the files `files`. -/
structure Progressed (magickminify : List UInt8 → Option (List UInt8)) (cwd : List (List UInt8))
    (files : Files) (loaded : List Request)
    (p : Pool (Machine τ) (fun _ : τ => Worker)) : Prop where
  invariant : Invariant loaded (threadsOf p)
  directories : SameDirectories files p.shared.files
  holds : ∀ t, (p.threads t).Holds magickminify cwd files
  written : ∀ r ∈ loaded, Written r p → Writable cwd files r.outputfilename →
    ∃ dst, Makes magickminify cwd files r dst ∧
      p.shared.files.node (resolve cwd r.outputfilename) = some (.file dst)
  others : ∀ q, (∀ r ∈ loaded, Written r p → Writable cwd files r.outputfilename →
      q ≠ resolve cwd r.outputfilename) →
    p.shared.files.node q = files.node q

theorem Progressed.start :
  Progressed magickminify cwd files loaded (startFiles loaded files : Pool (Machine τ) _)
  where
  invariant := Invariant.start loaded
  directories p := Iff.rfl
  holds t := trivial
  written r hr h := by
    obtain ⟨t, ht⟩ := h
    cases ht
  others q _ := rfl

/-- The requests that the threads have are loaded ones. -/
theorem Invariant.mem_loaded {p : Pool (Shared τ) (fun _ : τ => Worker)} (h : Invariant loaded p)
    {t : τ} {r : Request} (hr : r ∈ (p.threads t).taken .write) :
  r ∈ loaded
  := by
  rw [← Multiset.mem_coe, ← h.conserved .write]
  apply Multiset.mem_add.mpr
  right
  exact Multiset.mem_sum.mpr ⟨t, Finset.mem_univ t, hr⟩

/-- The input of a loaded request is as it was. -/
theorem Progressed.input (h : Progressed magickminify cwd files loaded p)
    (hapart : Apart cwd loaded) {r : Request} (hr : r ∈ loaded) :
  readFromFile cwd p.shared.files r.inputfilename = readFromFile cwd files r.inputfilename
  := by
  apply readFromFile_congr h.directories
  apply h.others
  intro r' hr' _ _
  exact hapart.inputs r hr r' hr'

/-- The thread that takes a step holds what belongs to its request. -/
theorem Progressed.holds_step (h : Progressed magickminify cwd files loaded p)
    (hapart : Apart cwd loaded)
    (hans : answer magickminify cwd a.2 p.shared.files (p.threads a.1).pc = some ans)
    (hs : workerMain a.1 ans p.shared.shared (p.threads a.1) = some (s', w')) :
  w'.Holds magickminify cwd files
  := by
  have hw := h.holds a.1
  cases hpc : (p.threads a.1).pc with
  | readFromFile r =>
      obtain ⟨-, -, rfl⟩ | ⟨src, rfl, -, rfl⟩ := workerMain_read hs hpc
      · exact hw
      · have hr : r ∈ loaded := by
          apply h.invariant.mem_loaded (t := a.1)
          rw [Worker.taken, show (threadsOf p).threads a.1 = p.threads a.1 from rfl, hpc]
          simp [Pc.before]
        simp only [answer, hpc, Option.some.injEq] at hans
        rw [h.input hapart hr] at hans
        exact hans
  | minifyViaRpc r src =>
      obtain ⟨-, -, rfl⟩ | ⟨dst, rfl, -, rfl⟩ := workerMain_minify hs hpc
      · exact hw
      · simp only [Worker.Holds, hpc] at hw
        refine ⟨src, hw, ?_⟩
        simp only [answer, hpc] at hans
        cases hdelivered : a.2 with
        | false => simp [minifyViaRpc, minifyImage1, hdelivered] at hans
        | true =>
            rw [hdelivered] at hans
            cases hrpc : minifyViaRpc magickminify true src with
            | returned image =>
                simp only [hrpc, Option.some.injEq] at hans
                rw [hans]
            | exit => simp [hrpc] at hans
            | overflow => simp [hrpc] at hans
  | lock | test | pop | unlock | writeToFile | relock | leave | returned =>
      exact (workerMain_cases hs).holds (by simp [hpc]) (by simp [hpc]) hw

variable [DecidableEq τ]

omit [Fintype τ] in
/-- Every step with the files is one of `worker_main` that is answered as the files are. -/
theorem threadsOf_step (hs : Pool.step (workerMainFiles magickminify cwd) a p = some p') :
  ∃ ans, answer magickminify cwd a.2 p.shared.files (p.threads a.1).pc = some ans ∧
    Pool.step workerMain ⟨a.1, ans⟩ (threadsOf p) = some (threadsOf p') ∧
    p'.shared.files = filesAfter cwd p.shared.files (p.threads a.1).pc
  := by
  obtain ⟨ans, hans, hmap⟩ := Option.bind_eq_some_iff.mp (Pool.step_own hs)
  obtain ⟨x, hx, heq⟩ := Option.map_eq_some_iff.mp hmap
  obtain ⟨hshared, hlocal⟩ := Prod.mk.inj heq
  refine ⟨ans, hans, ?_, ?_⟩
  · unfold Pool.step
    rw [show workerMain a.1 ans (threadsOf p).shared ((threadsOf p).threads a.1) = some x from hx,
      Option.map_some, hlocal]
    have hx1 : x.1 = p'.shared.shared := by rw [← hshared]
    simp only [threadsOf, hx1, ← Pool.step_threads hs]
  · rw [← hshared]

omit [Fintype τ] in
/-- Only a thread that writes has written its request. -/
theorem written_step (hstep : Pool.step workerMain ⟨a.1, ans⟩ (threadsOf p) = some (threadsOf p')) :
  Written r p' ↔ Written r p ∨ ∃ dst, (p.threads a.1).pc = .writeToFile r dst
  := by
  have hown : workerMain a.1 ans p.shared.shared (p.threads a.1) =
      some (p'.shared.shared, p'.threads a.1) := Pool.step_own hstep
  have hother : ∀ t, t ≠ a.1 → p'.threads t = p.threads t :=
    fun t ht => Pool.step_other (u := t) hstep ht
  have hhandled : r ∈ (p'.threads a.1).handled .write ↔
      r ∈ (p.threads a.1).handled .write ∨ ∃ dst, (p.threads a.1).pc = .writeToFile r dst := by
    by_cases hpc : ∃ r' dst, (p.threads a.1).pc = .writeToFile r' dst
    · obtain ⟨r', dst, hpc⟩ := hpc
      obtain ⟨-, hw⟩ := workerMain_write hown hpc
      have hsame : Worker.handled .write ⟨.lock, (p.threads a.1).log⟩ =
          (p.threads a.1).handled .write := rfl
      rw [hw, Worker.handled_append .write .lock, hsame]
      simp [hpc, eq_comm]
    · have hnot : ∀ r' dst, (p.threads a.1).pc ≠ .writeToFile r' dst :=
        fun r' dst heq => hpc ⟨r', dst, heq⟩
      rw [(workerMain_cases hown).handled_write hnot]
      simp [hnot]
  constructor
  · rintro ⟨t, ht⟩
    by_cases hta : t = a.1
    · rw [hta] at ht
      obtain hold | hnew := hhandled.mp ht
      · exact Or.inl ⟨a.1, hold⟩
      · exact Or.inr hnew
    · rw [hother t hta] at ht
      exact Or.inl ⟨t, ht⟩
  · rintro (⟨t, ht⟩ | hnew)
    · by_cases hta : t = a.1
      · rw [hta] at ht
        exact ⟨a.1, hhandled.mpr (Or.inl ht)⟩
      · rw [← hother t hta] at ht
        exact ⟨t, ht⟩
    · exact ⟨a.1, hhandled.mpr (Or.inr hnew)⟩

/-- Every step makes progress with the files. -/
theorem Progressed.step (h : Progressed magickminify cwd files loaded p)
    (hapart : Apart cwd loaded)
    (hs : Pool.step (workerMainFiles magickminify cwd) a p = some p') :
  Progressed magickminify cwd files loaded p'
  := by
  obtain ⟨ans, hans, hstep, hfiles⟩ := threadsOf_step hs
  have hwritten : ∀ r, Written r p' ↔ _ := fun r => written_step (r := r) hstep
  have hholds : ∀ t, (p'.threads t).Holds magickminify cwd files := by
    intro t
    by_cases hta : t = a.1
    · rw [hta]
      exact h.holds_step hapart hans (Pool.step_own hstep)
    · rw [Pool.step_other hs hta]
      exact h.holds t
  have hinvariant : Invariant loaded (threadsOf p') := h.invariant.step hstep
  by_cases hpc : ∃ r dst, (p.threads a.1).pc = .writeToFile r dst
  · obtain ⟨r, dst, hpc⟩ := hpc
    have hr : r ∈ loaded := by
      apply h.invariant.mem_loaded (t := a.1)
      rw [Worker.taken, show (threadsOf p).threads a.1 = p.threads a.1 from rfl, hpc]
      simp [Pc.before]
    have hmakes : Makes magickminify cwd files r dst := by
      have hw := h.holds a.1
      simp only [Worker.Holds, hpc] at hw
      exact hw
    simp only [filesAfter, hpc] at hfiles
    constructor
    case invariant => exact hinvariant
    case directories =>
      rw [hfiles]
      intro q
      rw [writeToFile_directories q, h.directories q]
    case holds => exact hholds
    case written =>
      intro r' hr' hw' hwritable
      by_cases heq : r' = r
      · subst heq
        refine ⟨dst, hmakes, ?_⟩
        rw [hfiles, writeToFile_node (h.directories.writable hwritable), if_pos rfl]
      · have hold : Written r' p := by
          obtain hold | ⟨dst', hpc'⟩ := (hwritten r').mp hw'
          · exact hold
          · rw [hpc] at hpc'
            cases hpc'
            exact absurd rfl heq
        obtain ⟨dst', hmakes', hnode⟩ := h.written r' hr' hold hwritable
        refine ⟨dst', hmakes', ?_⟩
        rw [hfiles, writeToFile_other, hnode]
        intro hout
        exact heq (List.inj_on_of_nodup_map hapart.outputs hr' hr hout)
    case others =>
      intro q hq
      have hold : p.shared.files.node q = files.node q := by
        apply h.others
        intro r' hr' hw'
        exact hq r' hr' ((hwritten r').mpr (Or.inl hw'))
      rw [hfiles, ← hold]
      by_cases hwritable : Writable cwd files r.outputfilename
      · exact writeToFile_other (hq r hr ((hwritten r).mpr (Or.inr ⟨dst, hpc⟩)) hwritable)
      · have hnot : ¬ Writable cwd p.shared.files r.outputfilename :=
          fun hnow => hwritable (h.directories.symm.writable hnow)
        rw [writeToFile_of_not hnot, Option.getD_none]
  · have hnot : ∀ r dst, (p.threads a.1).pc ≠ .writeToFile r dst :=
      fun r dst heq => hpc ⟨r, dst, heq⟩
    have hsame : p'.shared.files = p.shared.files := by
      rw [hfiles]
      cases hx : (p.threads a.1).pc with
      | writeToFile r dst => exact absurd hx (hnot r dst)
      | lock | test | pop | unlock | readFromFile | minifyViaRpc | relock | leave | returned => rfl
    have hold : ∀ r, Written r p' ↔ Written r p := by
      intro r
      rw [hwritten r]
      simp [hnot]
    constructor
    case invariant => exact hinvariant
    case directories =>
      rw [hsame]
      exact h.directories
    case holds => exact hholds
    case written =>
      intro r hr hw hwritable
      rw [hsame]
      exact h.written r hr ((hold r).mp hw) hwritable
    case others =>
      intro q hq
      rw [hsame]
      apply h.others
      intro r hr hw
      exact hq r hr ((hold r).mpr hw)

/-! ### The whole program -/

/-- What the program leaves: the image of each input stands in its output, where this can be
written, and elsewhere nothing has changed. -/
structure Minified (magickminify : List UInt8 → Option (List UInt8)) (cwd : List (List UInt8))
    (loaded : List Request) (files files' : Files) : Prop where
  outputs : ∀ r ∈ loaded, Writable cwd files r.outputfilename →
    ∃ dst, Makes magickminify cwd files r dst ∧
      files'.node (resolve cwd r.outputfilename) = some (.file dst)
  others : ∀ q, (∀ r ∈ loaded, Writable cwd files r.outputfilename →
      q ≠ resolve cwd r.outputfilename) →
    files'.node q = files.node q

omit [DecidableEq τ] in
/-- When all threads have returned, every request has been written. -/
theorem Progressed.minified [Nonempty τ] (h : Progressed magickminify cwd files loaded p)
    (hr : ∀ t, (p.threads t).pc = .returned) :
  Minified magickminify cwd loaded files p.shared.files
  := by
  have hall : ∀ r ∈ loaded, Written r p := by
    intro r hmem
    have hhandled := h.invariant.handled_eq hr .write
    rw [← Multiset.mem_coe, ← hhandled, Multiset.mem_sum] at hmem
    obtain ⟨t, -, ht⟩ := hmem
    exact ⟨t, ht⟩
  constructor
  case outputs => exact fun r hr => h.written r hr (hall r hr)
  case others =>
    intro q hq
    apply h.others
    intro r hr _
    exact hq r hr

/-- The steps that are left in a state. -/
def stepsLeft (p : Pool (Machine τ) (fun _ : τ => Worker)) : ℕ :=
  7 * p.shared.shared.queue.length + ∑ t, (p.threads t).pc.cost

omit [DecidableEq τ] in
/-- While each request makes an image, the calls of the threads succeed when the network delivers
them. -/
theorem Progressed.answered (h : Progressed magickminify cwd files loaded p)
    (hapart : Apart cwd loaded) (hmakes : ∀ r ∈ loaded, ∃ dst, Makes magickminify cwd files r dst)
    (t : τ) :
  ∃ ans, answer magickminify cwd true p.shared.files (p.threads t).pc = some ans ∧
    ((∃ r, (p.threads t).pc = .readFromFile r) ∨
      (∃ r src, (p.threads t).pc = .minifyViaRpc r src) → ans ≠ none)
  := by
  have hthreads : (threadsOf p).threads t = p.threads t := rfl
  cases hpc : (p.threads t).pc with
  | readFromFile r =>
      have hr : r ∈ loaded := by
        apply h.invariant.mem_loaded (t := t)
        rw [Worker.taken, hthreads, hpc]
        simp [Pc.before]
      obtain ⟨dst, src, hsrc, -⟩ := hmakes r hr
      rw [← h.input hapart hr] at hsrc
      exact ⟨_, rfl, fun _ => by rw [hsrc]; exact Option.some_ne_none src⟩
  | minifyViaRpc r src =>
      have hr : r ∈ loaded := by
        apply h.invariant.mem_loaded (t := t)
        rw [Worker.taken, hthreads, hpc]
        simp [Pc.before]
      have hw := h.holds t
      simp only [Worker.Holds, hpc] at hw
      obtain ⟨dst, src', hsrc, hdst⟩ := hmakes r hr
      rw [hw] at hsrc
      cases hsrc
      refine ⟨some dst, ?_, fun _ => Option.some_ne_none dst⟩
      simp only [answer, hdst]
  | writeToFile r dst =>
      refine ⟨_, rfl, ?_⟩
      rintro (⟨r, hr⟩ | ⟨r, src, hr⟩)
      · cases hr
      · cases hr
  | lock | test | pop | unlock | relock | leave | returned =>
      refine ⟨none, rfl, ?_⟩
      rintro (⟨r, hr⟩ | ⟨r, src, hr⟩)
      · cases hr
      · cases hr

omit [DecidableEq τ] in
/-- As long as a thread has not returned, some thread can go on. -/
theorem Progressed.goes_on (h : Progressed magickminify cwd files loaded p)
    (hrun : p.shared.shared.exited = false) (hnot : ¬ ∀ t, (p.threads t).pc = .returned) :
  ∃ t, ∀ ans, (workerMain t ans p.shared.shared (p.threads t)).isSome = true
  := by
  obtain ⟨t, ht⟩ := not_forall.mp hnot
  cases howner : p.shared.shared.mutex.owner with
  | none =>
      use t
      intro ans
      exact workerMain_isSome hrun ht fun _ => howner
  | some u =>
      have hin : (p.threads u).pc.Inside := (h.invariant.owned u).mp howner
      use u
      intro ans
      apply workerMain_isSome hrun
      · intro hpc
        rw [hpc] at hin
        exact hin
      · rintro (hpc | hpc)
        · rw [hpc] at hin
          exact hin.elim
        · rw [hpc] at hin
          exact hin.elim

/-- Whenever all threads have returned, under whatever schedule, the image of each input stands in its
output and nothing else has changed. -/
theorem minified_of_run [Nonempty τ] (hapart : Apart cwd loaded) {as : List (Σ _ : τ, Bool)}
    {p : Pool (Machine τ) (fun _ : τ => Worker)}
    (hrun : run (Pool.step (workerMainFiles magickminify cwd)) as (startFiles loaded files) = some p)
    (hr : ∀ t, (p.threads t).pc = .returned) :
  Minified magickminify cwd loaded files p.shared.files
  := by
  have hp : Progressed magickminify cwd files loaded p :=
    run_invariant (fun _ _ _ h hs => h.step hapart hs) Progressed.start hrun
  exact hp.minified hr

/-- When each input can be read and minified and the network delivers the calls, all threads return
under every schedule. -/
theorem finishes_of_makes [Nonempty τ] (hapart : Apart cwd loaded)
    (hmakes : ∀ r ∈ loaded, ∃ dst, Makes magickminify cwd files r dst) :
  Finishes (Pool.step (workerMainFiles magickminify cwd)) (fun a _ => a.2 = true)
    (fun p => ∀ t, (p.threads t).pc = .returned)
    (startFiles loaded files : Pool (Machine τ) _)
  := by
  have hkeep : ∀ a (p p' : Pool (Machine τ) (fun _ : τ => Worker)),
      Progressed magickminify cwd files loaded p → a.2 = true →
      Pool.step (workerMainFiles magickminify cwd) a p = some p' →
      p'.shared.shared.exited = false := by
    intro a p p' hp ha hs
    obtain ⟨ans, hans, hstep, -⟩ := threadsOf_step hs
    obtain ⟨ans', hans', hsome⟩ := hp.answered hapart hmakes a.1
    rw [ha, hans'] at hans
    cases hans
    exact workerMain_running (Pool.step_own hstep) (hp.invariant.found a.1)
      (fun r hpc => hsome (Or.inl ⟨r, hpc⟩)) (fun r src hpc => hsome (Or.inr ⟨r, src, hpc⟩))
  refine Finishes.of_measure (I := fun p => Progressed magickminify cwd files loaded p ∧
    p.shared.shared.exited = false) stepsLeft ?_ ?_ ?_ ⟨Progressed.start, rfl⟩
  · rintro a p p' ⟨hp, -⟩ ha hs
    exact ⟨hp.step hapart hs, hkeep a p p' hp ha hs⟩
  · rintro a p p' ⟨hp, -⟩ ha hs
    obtain ⟨ans, -, hstep, -⟩ := threadsOf_step hs
    have hown : workerMain a.1 ans p.shared.shared (p.threads a.1) =
        some (p'.shared.shared, p'.threads a.1) := Pool.step_own hstep
    have hless := (workerMain_cases hown).cost (hkeep a p p' hp ha hs)
    have hsum : ∑ t, (p'.threads t).pc.cost + (p.threads a.1).pc.cost =
        ∑ t, (p.threads t).pc.cost + (p'.threads a.1).pc.cost :=
      Pool.step_sum (fun _ (w : Worker) => w.pc.cost) hs
    unfold stepsLeft
    omega
  · rintro p ⟨hp, hrun⟩ hnot
    obtain ⟨t, ht⟩ := hp.goes_on hrun hnot
    obtain ⟨ans, hans, -⟩ := hp.answered hapart hmakes t
    refine ⟨⟨t, true⟩, rfl, Pool.step_isSome ?_⟩
    rw [workerMainFiles, hans, Option.bind_some, Option.isSome_map]
    exact ht ans

/-- For every loaded queue whose outputs are different files, none of which is an input, every tree
of files, every function that minifies an image and any number of threads: whenever all threads have
returned, under whatever schedule, the image of each input stands in its output and nothing else has
changed. And when each input can be read and minified and the network delivers the calls, all threads
return under every schedule. -/
theorem minify_images [Nonempty τ] (hapart : Apart cwd loaded) :
  (∀ (as : List (Σ _ : τ, Bool)) p,
    run (Pool.step (workerMainFiles magickminify cwd)) as (startFiles loaded files) = some p →
    (∀ t, (p.threads t).pc = .returned) →
    Minified magickminify cwd loaded files p.shared.files) ∧
  ((∀ r ∈ loaded, ∃ dst, Makes magickminify cwd files r dst) →
    Finishes (Pool.step (workerMainFiles magickminify cwd)) (fun a _ => a.2 = true)
      (fun p => ∀ t, (p.threads t).pc = .returned)
      (startFiles loaded files : Pool (Machine τ) _))
  := ⟨fun _ _ hrun hr => minified_of_run hapart hrun hr, finishes_of_makes hapart⟩

variable {memory : ℕ → Block} {text : List UInt8}

/-- A file that names pairs of files is loaded as these pairs. -/
theorem exists_loadRequests (memory : ℕ → Block) (hshort : ∀ t ∈ tokens text, t.length < nameSize)
    (heven : Even (tokens text).length) (hzero : ∀ t ∈ tokens text, (0 : UInt8) ∉ t) :
  ∃ l, loadRequests memory text = some l ∧ l.requests = pairs (tokens text)
  := by
  have hfresh : Fresh memory ⟨Steque.init, 0, memory⟩ := ⟨fun _ _ => rfl, nofun⟩
  obtain ⟨l, hload, hrequests⟩ := loadLoop_spec hfresh (Nat.lt_succ_self _) hshort
  refine ⟨l, hload, ?_⟩
  rw [hrequests]
  exact (made_eq_pairs_iff memory 0 (tokens text)).mpr ⟨heven, hzero⟩

/-- From the text of the workload file to the images: when its names come in pairs, shorter than the
arrays for them, and the outputs are different files, none of which is an input, `load_requests` ends
and fills the queue so that the threads leave the image of each input in the output behind it and
change nothing else, whatever the schedule is. And when each input can be read and minified and the
network delivers the calls, all threads return under every schedule. -/
theorem workload_minified [Nonempty τ] (hshort : ∀ t ∈ tokens text, t.length < nameSize)
    (heven : Even (tokens text).length) (hzero : ∀ t ∈ tokens text, (0 : UInt8) ∉ t)
    (hapart : Apart cwd (pairs (tokens text))) :
  ∃ l, loadRequests memory text = some l ∧
    (∀ (as : List (Σ _ : τ, Bool)) p,
      run (Pool.step (workerMainFiles magickminify cwd)) as (startFiles l.requests files) = some p →
      (∀ t, (p.threads t).pc = .returned) →
      Minified magickminify cwd (pairs (tokens text)) files p.shared.files) ∧
    ((∀ r ∈ pairs (tokens text), ∃ dst, Makes magickminify cwd files r dst) →
      Finishes (Pool.step (workerMainFiles magickminify cwd)) (fun a _ => a.2 = true)
        (fun p => ∀ t, (p.threads t).pc = .returned)
        (startFiles l.requests files : Pool (Machine τ) _))
  := by
  obtain ⟨l, hload, hrequests⟩ := exists_loadRequests memory hshort heven hzero
  rw [← hrequests] at hapart
  refine ⟨l, hload, ?_⟩
  rw [← hrequests]
  exact ⟨fun _ _ hrun hr => minified_of_run hapart hrun hr, finishes_of_makes hapart⟩

end

/-! ### One request -/

/-- A directory with the file `a`. -/
def oneImage : Files :=
  match fopen [] emptyTree (CString.ascii "a") with
  | .ok t => t.append [CString.ascii "a"] [1, 2, 3]
  | .error _ => emptyTree

/-- The image `a` is minified into `b`. -/
def oneRequest : List Request :=
  [⟨CString.ascii "a", CString.ascii "b"⟩]

theorem apart_one : Apart [] oneRequest
  := by
  constructor
  · apply List.nodup_singleton
  · intro r hr r' hr'
    rw [List.mem_singleton.mp hr, List.mem_singleton.mp hr']
    decide +kernel

theorem makes_one :
  Makes (fun src => some (src.take 1)) [] oneImage ⟨ascii "a", ascii "b"⟩ [1]
  := ⟨[1, 2, 3], rfl, by decide +kernel⟩

theorem writable_one : Writable [] oneImage (ascii "b")
  := ⟨by decide +kernel, rfl, nofun, rfl⟩

/-- One thread minifies the image `a` into `b`, whatever the schedule is. -/
theorem minify_images_one :
  ∃ as p, run (Pool.step (workerMainFiles (fun src => some (src.take 1)) []))
      as (startFiles oneRequest oneImage : Pool (Machine (Fin 1)) _) = some p ∧
    p.shared.files.node [ascii "b"] = some (.file [1])
  := by
  obtain ⟨hminified, hfinishes⟩ :=
    @minify_images (Fin 1) (fun src => some (src.take 1)) [] oneImage oneRequest _ _ _ apart_one
  have hmakes : ∀ r ∈ oneRequest, ∃ dst, Makes (fun src => some (src.take 1)) [] oneImage r dst := by
    intro r hr
    rw [List.mem_singleton.mp hr]
    exact ⟨[1], makes_one⟩
  obtain ⟨as, p, -, hrun, hr⟩ := (hfinishes hmakes).reaches
  obtain ⟨dst, hdst, hnode⟩ :=
    (hminified as p hrun hr).outputs _ (List.mem_singleton_self _) writable_one
  refine ⟨as, p, hrun, ?_⟩
  rw [hdst.unique makes_one] at hnode
  exact hnode

/-- The image `a` is minified into `b` because a line of the workload file says so. -/
theorem workload_minified_one :
  ∃ l as p, loadRequests (fun _ => ⟨.zero _, .zero _⟩) (ascii "a b\n") = some l ∧
    run (Pool.step (workerMainFiles (fun src => some (src.take 1)) []))
      as (startFiles l.requests oneImage : Pool (Machine (Fin 1)) _) = some p ∧
    p.shared.files.node [ascii "b"] = some (.file [1])
  := by
  have hpairs : pairs (tokens (ascii "a b\n")) = oneRequest := by decide +kernel
  obtain ⟨l, hload, hminified, hfinishes⟩ :=
    @workload_minified (Fin 1) (fun src => some (src.take 1)) [] oneImage _ _
      (fun _ => ⟨.zero _, .zero _⟩) (ascii "a b\n") _ (by decide +kernel) (by decide +kernel)
      (by decide +kernel) (hpairs ▸ apart_one)
  have hmakes : ∀ r ∈ pairs (tokens (ascii "a b\n")),
      ∃ dst, Makes (fun src => some (src.take 1)) [] oneImage r dst := by
    intro r hr
    rw [hpairs] at hr
    rw [List.mem_singleton.mp hr]
    exact ⟨[1], makes_one⟩
  obtain ⟨as, p, -, hrun, hr⟩ := (hfinishes hmakes).reaches
  have hrequest : ⟨ascii "a", ascii "b"⟩ ∈ pairs (tokens (ascii "a b\n")) := by
    rw [hpairs]
    exact List.mem_singleton_self _
  obtain ⟨dst, hdst, hnode⟩ := (hminified as p hrun hr).outputs _ hrequest writable_one
  refine ⟨l, as, p, hload, hrun, ?_⟩
  rw [hdst.unique makes_one] at hnode
  exact hnode

end GetFile.Minify
