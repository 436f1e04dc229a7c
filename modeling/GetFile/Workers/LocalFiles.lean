import GetFile.Exchange.Download
import GetFile.Transition.Calls
import GetFile.Workers.Download

/-!
# The files of the multithreaded download client

The workers of the multithreaded client with the calls that they make in `perform_work`:
`localPath` takes the next number off a counter that all workers share, `openFile` makes the
directories and opens the file one call after the other, `gfc_perform` has the bytes of the response
written by `writecb`, and a file whose transfer has failed is removed. The client is linked with a
library whose `gfc_perform` is not part of the sources, so a transfer is whatever this call does
(`Transfer`).

The counter is read and written back without the mutex. As long as no worker reads it while another
one is about to write it back, all local files are different ones, and the workers do not disturb each
other (`downloads_left`).
-/

namespace GetFile.Download

open Client CString FileSystem Transition

variable {n : ℕ}

/-! ### The calls of a worker -/

/-- What a call of `gfc_perform` does: the data of the calls of `writecb`, the value that it returns,
and whether `gfc_get_status` is `GF_OK` behind it. -/
structure Transfer where
  writes : List (List UInt8)
  returncode : ℤ
  ok : Bool

/-- What a step meets: the result of `pthread_create`, what stands on the stack where `perform_work`
has its array, and what `gfc_perform` does. -/
structure Act where
  created : Bool
  stack : Buffer localPathSize
  transfer : Transfer

/-- The next call of a worker in `perform_work`, with its local variables: `localPath` reads the
counter and writes it back, `openFile` is in its loop behind the index `prev` or calls `fopen`,
`gfc_perform` has still to make calls of `writecb`, and then there are the two calls of `unlink`. -/
inductive Work where
  | count
  | store (counter : ℕ)
  | directory (counter : ℕ) (b : Buffer localPathSize) (prev : ℕ)
  | fopen (counter : ℕ) (b : Buffer localPathSize)
  | receive (counter : ℕ) (b : Buffer localPathSize) (transfer : Transfer)
      (rest : List (List UInt8))
  | unlink (counter : ℕ) (b : Buffer localPathSize) (transfer : Transfer)
  | status (counter : ℕ) (b : Buffer localPathSize) (transfer : Transfer)
  | returned (counter : ℕ) (transfer : Transfer)

/-- The static counter of `localPath`, the files, and whether `openFile` has ended the process. -/
structure Disk where
  counter : ℕ
  files : Files
  exited : Bool

/-- A call of `perform_work` that has returned: its number and its transfer. -/
structure Fetch where
  counter : ℕ
  transfer : Transfer

/-- One step of `perform_work`. There is no result when the counter or the array `local_path`
overflows. -/
def performWork (cwd : List (List UInt8)) (a : Act) (reqPath : Path) (s : Disk) :
    Work → Option (Disk × Work)
  | .count => some (s, .store s.counter)
  | .store counter =>
    if counter + 1 < 2 ^ 31 then
      (localPath reqPath counter a.stack).map fun b =>
        ({ s with counter := counter + 1 }, .directory counter b 0)
    else none
  | .directory counter b prev =>
    match strchr b (prev + 1) slash with
    | none => some (s, .fopen counter b)
    | some cur =>
      match makeDirectory cwd s.files ((b.terminate cur).string 0) with
      | .error _ => some ({ s with exited := true }, .directory counter b prev)
      | .ok files =>
        some ({ s with files }, .directory counter ((b.terminate cur).store cur [slash]) cur)
  | .fopen counter b =>
    match Client.fopen cwd s.files (b.string 0) with
    | .error _ => some ({ s with exited := true }, .fopen counter b)
    | .ok files => some ({ s with files }, .receive counter b a.transfer a.transfer.writes)
  | .receive counter b transfer (data :: rest) =>
    some ({ s with files := s.files.append (resolve cwd (b.string 0)) data },
      .receive counter b transfer rest)
  | .receive counter b transfer [] =>
    some (s, if transfer.returncode < 0 then .unlink counter b transfer
      else .status counter b transfer)
  | .unlink counter b transfer =>
    some ({ s with files := Exchange.unlink cwd s.files (b.string 0) }, .status counter b transfer)
  | .status counter b transfer =>
    if transfer.ok then some (s, .returned counter transfer)
    else some ({ s with files := Exchange.unlink cwd s.files (b.string 0) },
      .returned counter transfer)
  | .returned _ _ => none

/-- The path with which a thread has called `perform_work`. -/
def request : ∀ t : Option (Fin n), Local n t → Option Path
  | none => fun _ => none
  | some _ => fun w =>
    match w.pc with
    | .perform path => some path
    | _ => none

/-- The calls of `perform_work`, which end with the process. -/
def performCalls (cwd : List (List UInt8)) :
    Calls (fun _ : Option (Fin n) => Act) (Shared n) (Local n) Path Disk Work Fetch where
  call := request
  first := .count
  step _ a s path disk work := if s.exited then none else performWork cwd a path disk work
  result
    | .returned counter transfer => some ⟨counter, transfer⟩
    | _ => none
  running disk := !disk.exited

/-- The code of the boss and of the workers, where `perform_work` takes many steps. A worker whose
call has come to its end goes on. -/
def codeFiles (cwd : List (List UInt8)) :
    Code (fun _ : Option (Fin n) => Act) (Machine (Shared n) Disk)
      (fun t => Caller (Local n t) Work Path Fetch) :=
  (performCalls cwd).code fun t a => code t (t.isSome || a.created)

/-- The client when `main` calls `thread_pool_init`, with the files that are there. -/
def startFiles (cwd : List (List UInt8)) (paths : List Path) (files : Files) :
    Pool (Machine (Shared n) Disk) (fun t : Option (Fin n) => Caller (Local n t) Work Path Fetch) :=
  (performCalls cwd).start (start paths) ⟨0, files, false⟩

/-- The number that a thread has read and is about to write back. -/
def readNumber (t : Option (Fin n)) (l : Caller (Local n t) Work Path Fetch) : Option ℕ :=
  (request t l.thread).bind fun _ =>
    match l.inside with
    | .store counter => some counter
    | _ => none

/-- No other worker has written the counter between the moment where a worker reads it and the moment
where it writes it back. -/
def Counts (a : Σ _ : Option (Fin n), Act)
    (p : Pool (Machine (Shared n) Disk) (fun t => Caller (Local n t) Work Path Fetch)) : Prop :=
  ∀ counter ∈ readNumber a.1 (p.threads a.1), p.shared.surroundings.counter = counter

instance (a : Σ _ : Option (Fin n), Act)
    (p : Pool (Machine (Shared n) Disk) (fun t => Caller (Local n t) Work Path Fetch)) :
    Decidable (Counts a p) :=
  inferInstanceAs
    (Decidable (∀ counter ∈ readNumber a.1 (p.threads a.1), p.shared.surroundings.counter = counter))

/-! ### What a step does -/

/-- The steps of `perform_work`. -/
inductive WorkStep (cwd : List (List UInt8)) (path : Path) (s : Disk) :
    Work → Disk → Work → Prop where
  | count : WorkStep cwd path s .count s (.store s.counter)
  | store (counter : ℕ) (stack b : Buffer localPathSize)
      (fits : localPath path counter stack = some b) :
      WorkStep cwd path s (.store counter) { s with counter := counter + 1 }
        (.directory counter b 0)
  | scanned (counter : ℕ) (b : Buffer localPathSize) (prev : ℕ) :
      WorkStep cwd path s (.directory counter b prev) s (.fopen counter b)
  | directory (counter : ℕ) (b : Buffer localPathSize) (prev cur : ℕ) (name : List UInt8)
      (files : Files) (made : makeDirectory cwd s.files name = .ok files) :
      WorkStep cwd path s (.directory counter b prev) { s with files } (.directory counter b cur)
  | exit (work : Work) : WorkStep cwd path s work { s with exited := true } work
  | fopen (counter : ℕ) (b : Buffer localPathSize) (transfer : Transfer) (files : Files)
      (opened : Client.fopen cwd s.files (b.string 0) = .ok files) :
      WorkStep cwd path s (.fopen counter b) { s with files }
        (.receive counter b transfer transfer.writes)
  | write (counter : ℕ) (b : Buffer localPathSize) (transfer : Transfer) (data : List UInt8)
      (rest : List (List UInt8)) :
      WorkStep cwd path s (.receive counter b transfer (data :: rest))
        { s with files := s.files.append (resolve cwd (b.string 0)) data }
        (.receive counter b transfer rest)
  | failed (counter : ℕ) (b : Buffer localPathSize) (transfer : Transfer)
      (negative : transfer.returncode < 0) :
      WorkStep cwd path s (.receive counter b transfer []) s (.unlink counter b transfer)
  | closed (counter : ℕ) (b : Buffer localPathSize) (transfer : Transfer)
      (done : 0 ≤ transfer.returncode) :
      WorkStep cwd path s (.receive counter b transfer []) s (.status counter b transfer)
  | unlink (counter : ℕ) (b : Buffer localPathSize) (transfer : Transfer) :
      WorkStep cwd path s (.unlink counter b transfer)
        { s with files := Exchange.unlink cwd s.files (b.string 0) } (.status counter b transfer)
  | kept (counter : ℕ) (b : Buffer localPathSize) (transfer : Transfer)
      (ok : transfer.ok = true) :
      WorkStep cwd path s (.status counter b transfer) s (.returned counter transfer)
  | removed (counter : ℕ) (b : Buffer localPathSize) (transfer : Transfer)
      (notOk : transfer.ok = false) :
      WorkStep cwd path s (.status counter b transfer)
        { s with files := Exchange.unlink cwd s.files (b.string 0) } (.returned counter transfer)

variable {cwd : List (List UInt8)} {path : Path} {s s' : Disk} {a : Act} {work work' : Work}

/-- `strchr` finds the character in the array. -/
theorem strchr_byte {b : Buffer localPathSize} {k cur : ℕ} {c : UInt8}
    (h : strchr b k c = some cur) :
  b.byte cur = c
  := by
  rw [strchr] at h
  obtain ⟨hbyte, hcur⟩ := Option.ite_none_right_eq_some.mp h
  rw [← Option.some.inj hcur]
  exact hbyte

/-- Every step of `perform_work` is one of the listed ones. The array is as before when `openFile`
has put the slash back. -/
theorem performWork_cases (h : performWork cwd a path s work = some (s', work')) :
  WorkStep cwd path s work s' work'
  := by
  cases work with
  | count =>
      cases h
      exact .count
  | store counter =>
      obtain ⟨-, hmap⟩ := Option.ite_none_right_eq_some.mp h
      obtain ⟨b, hb, heq⟩ := Option.map_eq_some_iff.mp hmap
      cases heq
      exact .store counter a.stack b hb
  | directory counter b prev =>
      rw [performWork] at h
      cases hcur : strchr b (prev + 1) slash with
      | none =>
          rw [hcur] at h
          cases h
          exact .scanned counter b prev
      | some cur =>
          rw [hcur] at h
          dsimp only at h
          have hbyte := strchr_byte hcur
          have hlt : cur < localPathSize := by
            apply Buffer.lt_of_ne_zero (b := b)
            rw [hbyte]
            decide
          cases hmake : makeDirectory cwd s.files ((b.terminate cur).string 0) with
          | error e =>
              rw [hmake] at h
              cases h
              exact .exit _
          | ok files =>
              rw [hmake, store_terminate hlt hbyte] at h
              cases h
              exact .directory counter b prev cur _ files hmake
  | fopen counter b =>
      rw [performWork] at h
      cases hopen : Client.fopen cwd s.files (b.string 0) with
      | error e =>
          rw [hopen] at h
          cases h
          exact .exit _
      | ok files =>
          rw [hopen] at h
          cases h
          exact .fopen counter b a.transfer files hopen
  | receive counter b transfer rest =>
      cases rest with
      | nil =>
          rw [performWork] at h
          split at h
          · cases h
            exact .failed counter b transfer (by assumption)
          · cases h
            exact .closed counter b transfer (by omega)
      | cons data rest =>
          cases h
          exact .write counter b transfer data rest
  | unlink counter b transfer =>
      cases h
      exact .unlink counter b transfer
  | status counter b transfer =>
      rw [performWork] at h
      split at h
      · cases h
        exact .kept counter b transfer (by assumption)
      · cases h
        exact .removed counter b transfer (Bool.eq_false_of_not_eq_true (by assumption))
  | returned counter transfer => cases h

/-! ### The local files -/

/-- The file with this name is open for writing, and it holds `c`. -/
structure Opened (cwd : List (List UInt8)) (files : Files) (name c : List UInt8) : Prop where
  file : files.node (resolve cwd name) = some (.file c)
  through : ∀ k < (components name).length,
    files.node (follow (base cwd name) ((components name).take k)) = some .directory
  names : ∀ c ∈ components name, c.fits fits = true

/-- No file stands where the name leads. -/
def Gone (cwd : List (List UInt8)) (files : Files) (name : List UInt8) : Prop :=
  ∀ c, files.node (resolve cwd name) ≠ some (.file c)

/-- The local file when `perform_work` has returned: what has been written when the transfer has
succeeded, and no file otherwise. -/
structure Transfer.Left (transfer : Transfer) (cwd : List (List UInt8)) (files : Files)
    (name : List UInt8) : Prop where
  kept : 0 ≤ transfer.returncode → transfer.ok = true →
    files.node (resolve cwd name) = some (.file transfer.writes.flatten)
  removed : transfer.returncode < 0 ∨ transfer.ok = false → Gone cwd files name

section

variable {files files' : Files} {name c data : List UInt8} {q : List (List UInt8)}
  {transfer : Transfer}

/-- An open file is left alone by changes elsewhere. -/
theorem Opened.frame (h : Opened cwd files name c) (hchange : Tree.ChangesAt q files files')
    (hq : resolve cwd name ≠ q) :
  Opened cwd files' name c
  := by
  refine ⟨?_, fun k hk => hchange.directories _ (h.through k hk), h.names⟩
  rcases hchange.others _ hq with heq | ⟨hnone, -⟩
  · exact heq.trans h.file
  · rw [h.file] at hnone
    cases hnone

/-- A change elsewhere makes no file. -/
theorem Gone.frame (h : Gone cwd files name) (hchange : Tree.ChangesAt q files files')
    (hq : resolve cwd name ≠ q) :
  Gone cwd files' name
  := by
  intro c hfile
  rcases hchange.others _ hq with heq | ⟨-, hnew⟩
  · exact h c (heq.symm.trans hfile)
  · rw [hnew] at hfile
    cases hfile

theorem Transfer.Left.frame (h : transfer.Left cwd files name)
    (hchange : Tree.ChangesAt q files files') (hq : resolve cwd name ≠ q) :
  transfer.Left cwd files' name
  := by
  refine ⟨?_, fun hfailed => (h.removed hfailed).frame hchange hq⟩
  intro hdone hok
  have hfile := h.kept hdone hok
  rcases hchange.others _ hq with heq | ⟨hnone, -⟩
  · exact heq.trans hfile
  · rw [hfile] at hnone
    cases hnone

/-- `fopen` opens the file. -/
theorem opened_of_fopen (h : Client.fopen cwd files name = .ok files') :
  Opened cwd files' name [] ∧ Tree.ChangesAt (resolve cwd name) files files'
  := by
  obtain ⟨hthrough, hnames, hleaf, hnode⟩ := fopen_ok h
  have hchange := Tree.ChangesAt.of_node hleaf hnode
  refine ⟨⟨by rw [hnode, if_pos rfl], ?_, hnames⟩, hchange⟩
  intro k hk
  exact hchange.directories _ (hthrough k hk)

/-- `writecb` adds to the open file. -/
theorem Opened.write (h : Opened cwd files name c) (data : List UInt8) :
  Opened cwd (files.append (resolve cwd name) data) name (c ++ data)
  := by
  refine ⟨?_, ?_, h.names⟩
  · rw [Tree.append_node h.file, if_pos rfl]
  · intro k hk
    exact (Tree.ChangesAt.replace _ _ _).directories _ (h.through k hk)

/-- `unlink` removes a file that stands where the name leads. -/
theorem Opened.unlink (h : Opened cwd files name c) :
  Gone cwd (Exchange.unlink cwd files name) name
  := by
  intro c' hfile
  rw [Exchange.unlink_spec h.through h.names h.file, if_pos rfl] at hfile
  cases hfile

/-- Without a file `unlink` fails. -/
theorem unlink_gone (h : Gone cwd files name) :
  Exchange.unlink cwd files name = files
  := by
  rw [Exchange.unlink]
  cases hwalk : files.walk fits (base cwd name) (components name) with
  | error e => rfl
  | ok p =>
      obtain rfl := Tree.walk_ok hwalk
      have hnone : files.contents (resolve cwd name) = none := by
        rw [← Option.not_isSome_iff_eq_none, Option.isSome_iff_exists]
        rintro ⟨c, hc⟩
        exact h c (Tree.contents_iff.mp hc)
      have hunlink : ∃ e, files.unlink (resolve cwd name) = .error e := by
        refine ⟨_, if_neg ?_⟩
        rw [hnone]
        simp
      obtain ⟨e, he⟩ := hunlink
      rw [resolve] at he
      simp only [Except.bind, he]

/-- `unlink` changes no more than the file. -/
theorem unlink_changes (cwd : List (List UInt8)) (files : Files) (name : List UInt8) :
  Tree.ChangesAt (resolve cwd name) files (Exchange.unlink cwd files name)
  := by
  rw [Exchange.unlink]
  cases hwalk : files.walk fits (base cwd name) (components name) with
  | error e => exact Tree.ChangesAt.refl _ _
  | ok p =>
      obtain rfl := Tree.walk_ok hwalk
      simp only [Except.bind, Tree.unlink]
      split
      · rename_i t heq
        split at heq
        · cases heq
          exact Tree.ChangesAt.replace _ _ _
        · cases heq
      · exact Tree.ChangesAt.refl _ _

end

/-! ### The steps of `perform_work` -/

/-- The number that `localPath` has taken. -/
def Work.number : Work → Option ℕ
  | .count | .store _ => none
  | .directory counter _ _ | .fopen counter _ | .receive counter _ _ _ | .unlink counter _ _
  | .status counter _ _ | .returned counter _ => some counter

/-- The array holds the name of the local file, and the file holds what has been written so far, or it
is left as it should be. -/
def Work.Valid (cwd : List (List UInt8)) (files : Files) (path : Path) : Work → Prop
  | .count | .store _ => True
  | .directory counter b _ | .fopen counter b => Holds b 0 (localName path counter)
  | .receive counter b transfer rest =>
    Holds b 0 (localName path counter) ∧ ∃ done, transfer.writes = done ++ rest ∧
      Opened cwd files (localName path counter) done.flatten
  | .unlink counter b transfer =>
    Holds b 0 (localName path counter) ∧ transfer.returncode < 0 ∧
      Opened cwd files (localName path counter) transfer.writes.flatten
  | .status counter b transfer =>
    Holds b 0 (localName path counter) ∧
      (0 ≤ transfer.returncode ∧ Opened cwd files (localName path counter) transfer.writes.flatten ∨
        transfer.returncode < 0 ∧ Gone cwd files (localName path counter))
  | .returned counter transfer => transfer.Left cwd files (localName path counter)

section

variable {files files' : Files}

/-- Changes elsewhere do not concern a worker. -/
theorem Work.Valid.frame {q : List (List UInt8)} (h : work.Valid cwd files path)
    (hchange : Tree.ChangesAt q files files')
    (hq : ∀ counter, work.number = some counter → resolve cwd (localName path counter) ≠ q) :
  work.Valid cwd files' path
  := by
  cases work with
  | count | store => trivial
  | directory | fopen => exact h
  | receive counter b transfer rest =>
      obtain ⟨hholds, done, hwrites, hopened⟩ := h
      exact ⟨hholds, done, hwrites, hopened.frame hchange (hq counter rfl)⟩
  | unlink counter b transfer =>
      obtain ⟨hholds, hnegative, hopened⟩ := h
      exact ⟨hholds, hnegative, hopened.frame hchange (hq counter rfl)⟩
  | status counter b transfer =>
      obtain ⟨hholds, ⟨hdone, hopened⟩ | ⟨hnegative, hgone⟩⟩ := h
      · exact ⟨hholds, Or.inl ⟨hdone, hopened.frame hchange (hq counter rfl)⟩⟩
      · exact ⟨hholds, Or.inr ⟨hnegative, hgone.frame hchange (hq counter rfl)⟩⟩
  | returned counter transfer =>
      exact Transfer.Left.frame h hchange (hq counter rfl)

/-- A worker that writes the counter back has taken the number in front of it, and otherwise the
counter and the number of the worker stay. -/
theorem WorkStep.number (h : WorkStep cwd path s work s' work') :
  s'.counter = s.counter ∧ work'.number = work.number ∨
    ∃ counter, work = .store counter ∧ s'.counter = counter + 1 ∧ work'.number = some counter
  := by
  cases h with
  | store counter => exact Or.inr ⟨counter, rfl, rfl, rfl⟩
  | _ => exact Or.inl ⟨rfl, rfl⟩

/-- A worker changes no more than its own file. -/
theorem WorkStep.changes (h : WorkStep cwd path s work s' work')
    (hvalid : work.Valid cwd s.files path) :
  s'.files = s.files ∨ ∃ counter, work.number = some counter ∧
    Tree.ChangesAt (resolve cwd (localName path counter)) s.files s'.files
  := by
  cases h with
  | directory counter b prev cur name files made =>
      right
      exact ⟨counter, rfl, Tree.ChangesAt.of_extends (makeDirectory_extends made) _⟩
  | fopen counter b transfer files opened =>
      right
      have hholds : Holds b 0 (localName path counter) := hvalid
      rw [hholds.string_eq] at opened
      exact ⟨counter, rfl, (opened_of_fopen opened).2⟩
  | write counter b transfer data rest =>
      right
      refine ⟨counter, rfl, ?_⟩
      rw [hvalid.1.string_eq]
      exact Tree.ChangesAt.replace _ _ _
  | unlink counter b transfer | removed counter b transfer =>
      right
      refine ⟨counter, rfl, ?_⟩
      rw [hvalid.1.string_eq]
      exact unlink_changes _ _ _
  | _ => exact Or.inl rfl

/-- Every step of `perform_work` leaves the array and the file as they should be. -/
theorem WorkStep.valid (h : WorkStep cwd path s work s' work') (hzero : (0 : UInt8) ∉ path)
    (hvalid : work.Valid cwd s.files path) :
  work'.Valid cwd s'.files path
  := by
  cases h with
  | count => trivial
  | store counter stack b fits => exact localPath_holds hzero fits
  | scanned | directory | exit => exact hvalid
  | fopen counter b transfer files opened =>
      have hholds : Holds b 0 (localName path counter) := hvalid
      rw [hholds.string_eq] at opened
      exact ⟨hholds, [], rfl, (opened_of_fopen opened).1⟩
  | write counter b transfer data rest =>
      obtain ⟨hholds, done, hwrites, hopened⟩ := hvalid
      refine ⟨hholds, done ++ [data], by rw [hwrites, List.append_assoc]; rfl, ?_⟩
      rw [hholds.string_eq, List.flatten_append, List.flatten_singleton]
      exact hopened.write data
  | failed counter b transfer negative =>
      obtain ⟨hholds, done, hwrites, hopened⟩ := hvalid
      rw [List.append_nil] at hwrites
      exact ⟨hholds, negative, hwrites ▸ hopened⟩
  | closed counter b transfer done =>
      obtain ⟨hholds, written, hwrites, hopened⟩ := hvalid
      rw [List.append_nil] at hwrites
      exact ⟨hholds, Or.inl ⟨done, hwrites ▸ hopened⟩⟩
  | unlink counter b transfer =>
      obtain ⟨hholds, hnegative, hopened⟩ := hvalid
      refine ⟨hholds, Or.inr ⟨hnegative, ?_⟩⟩
      rw [hholds.string_eq]
      exact hopened.unlink
  | kept counter b transfer ok =>
      obtain ⟨-, ⟨hdone, hopened⟩ | ⟨hnegative, hgone⟩⟩ := hvalid
      · refine ⟨fun _ _ => hopened.file, ?_⟩
        rintro (hnegative | hnot)
        · omega
        · rw [ok] at hnot
          cases hnot
      · exact ⟨fun hdone => absurd hnegative (by omega), fun _ => hgone⟩
  | removed counter b transfer notOk =>
      obtain ⟨hholds, hfile⟩ := hvalid
      refine ⟨fun _ hok => absurd (notOk.symm.trans hok) (by decide), fun _ => ?_⟩
      rw [hholds.string_eq]
      rcases hfile with ⟨-, hopened⟩ | ⟨-, hgone⟩
      · exact hopened.unlink
      · rw [unlink_gone hgone]
        exact hgone

end

/-! ### The steps of a thread -/

/-- Where the local file for a path and a number stands. -/
def localFile (cwd : List (List UInt8)) (x : Path × ℕ) : List (List UInt8) :=
  resolve cwd (localName x.1 x.2)

/-- Files with different numbers stand at different places. -/
theorem localFile_ne {x y : Path × ℕ} (h : x.2 ≠ y.2) :
  localFile cwd x ≠ localFile cwd y
  := fun heq => h (eq_of_resolve heq)

/-- The path and the number of a call of `perform_work` that has returned. -/
def name (x : Path × Fetch) : Path × ℕ :=
  (x.1, x.2.counter)

variable {t : Option (Fin n)} {m m' : Machine (Shared n) Disk}
  {l l' : Caller (Local n t) Work Path Fetch}

/-- The path and the number of the call of `perform_work` that goes on. -/
def current (t : Option (Fin n)) (l : Caller (Local n t) Work Path Fetch) : Option (Path × ℕ) :=
  (request t l.thread).bind fun path => l.inside.number.map (path, ·)

/-- The paths and the numbers of all calls of `perform_work` of a thread. -/
def names (t : Option (Fin n)) (l : Caller (Local n t) Work Path Fetch) : List (Path × ℕ) :=
  l.returned.map name ++ (current t l).toList

/-- The requests that a thread has handed to `perform_work`. -/
def performed : ∀ t : Option (Fin n), Local n t → List Path
  | none => fun _ => []
  | some _ => fun w => w.performed

/-- The call of `perform_work` that goes on is as it should be, and so are the files of the calls that
have returned. -/
structure Valid (cwd : List (List UInt8)) (files : Files) (t : Option (Fin n))
    (l : Caller (Local n t) Work Path Fetch) : Prop where
  inside : ∀ path, request t l.thread = some path → l.inside.Valid cwd files path
  returned : ∀ x ∈ l.returned, x.2.transfer.Left cwd files (localName x.1 x.2.counter)

theorem mem_names_of_returned {x : Path × Fetch} (hx : x ∈ l.returned) :
  name x ∈ names t l
  := List.mem_append_left _ (List.mem_map_of_mem hx)

theorem mem_names_of_current {x : Path × ℕ} (hx : current t l = some x) :
  x ∈ names t l
  := by
  apply List.mem_append_right
  rw [hx]
  exact List.mem_singleton_self x

theorem current_eq {counter : ℕ} (hrequest : request t l.thread = some path)
    (hnumber : l.inside.number = some counter) :
  current t l = some (path, counter)
  := by
  rw [current, hrequest, Option.bind_some, hnumber]
  rfl

/-- Without a number all calls have returned. -/
theorem names_of_none (h : current t l = none) :
  names t l = l.returned.map name
  := by
  rw [names, h]
  exact List.append_nil _

/-- What a thread has outside of `perform_work`. -/
theorem names_of_count (thread : Local n t) (returned : List (Path × Fetch)) :
  names t ⟨thread, .count, returned⟩ = returned.map name
  := by
  apply names_of_none
  rw [current]
  cases request t thread with
  | none => rfl
  | some path => rfl

/-- Changes elsewhere do not concern a thread. -/
theorem Valid.frame {files files' : Files} {x : Path × ℕ} (h : Valid cwd files t l)
    (hchange : Tree.ChangesAt (localFile cwd x) files files') (hx : ∀ y ∈ names t l, y.2 ≠ x.2) :
  Valid cwd files' t l
  := by
  constructor
  · intro path hrequest
    apply (h.inside path hrequest).frame hchange
    intro counter hnumber
    apply localFile_ne (x := (path, counter))
    exact hx _ (mem_names_of_current (current_eq hrequest hnumber))
  · intro y hy
    apply (h.returned y hy).frame hchange
    exact localFile_ne (hx _ (mem_names_of_returned hy))

/-- The steps of a thread of the client. -/
abbrev FileStep (cwd : List (List UInt8)) (t : Option (Fin n)) (a : Act)
    (m : Machine (Shared n) Disk) (l : Caller (Local n t) Work Path Fetch) :
    Machine (Shared n) Disk → Caller (Local n t) Work Path Fetch → Prop :=
  CallerStep (performCalls cwd) (fun t (a : Act) => code t (t.isSome || a.created)) t a m l

/-- A step in a call is one of `perform_work`. -/
theorem performCalls_step {s : Shared n} {disk disk' : Disk}
    (h : (performCalls cwd).step t a s path disk work = some (disk', work')) :
  WorkStep cwd path disk work disk' work'
  := performWork_cases (Option.ite_none_left_eq_some.mp h).2

/-- A thread that writes the counter back has one number more, and otherwise the numbers stay. -/
theorem FileStep.names (h : FileStep cwd t a m l m' l') :
  m'.surroundings.counter = m.surroundings.counter ∧ names t l' = names t l ∨
    ∃ path counter, counter ∈ readNumber t l ∧ m'.surroundings.counter = counter + 1 ∧
      names t l' = names t l ++ [(path, counter)]
  := by
  cases h with
  | inside path disk work call step =>
      have hcall : request t l.thread = some path := call
      rcases (performCalls_step step).number with ⟨hcounter, hnumber⟩ |
        ⟨counter, hstore, hcounter, hnumber⟩
      · left
        refine ⟨hcounter, ?_⟩
        simp only [Download.names, current, hnumber]
      · right
        refine ⟨path, counter, ?_, hcounter, ?_⟩
        · rw [readNumber, hcall, hstore]
          rfl
        · have hnone : current t l = none := by
            rw [current, hcall, hstore]
            rfl
          have hsome : current t { l with inside := work } = some (path, counter) :=
            current_eq hcall hnumber
          rw [Download.names, Download.names, hnone, hsome, Option.toList_none, List.append_nil]
          rfl
  | returns path fetch shared thread call result step =>
      left
      refine ⟨rfl, (names_of_count thread _).trans ?_⟩
      have hsome : current t l = some (path, fetch.counter) := by
        apply current_eq call
        cases hinside : l.inside with
        | returned counter transfer =>
            rw [hinside] at result
            cases result
            rfl
        | _ =>
            rw [hinside] at result
            cases result
      rw [Download.names, hsome, List.map_append]
      rfl
  | outside shared thread call step =>
      left
      have hbefore : current t l = none := by
        rw [current, show request t l.thread = none from call]
        rfl
      exact ⟨rfl, (names_of_count thread _).trans (names_of_none hbefore).symm⟩

/-- A thread changes no more than its own file. -/
theorem FileStep.changes (h : FileStep cwd t a m l m' l')
    (hvalid : Valid cwd m.surroundings.files t l) :
  m'.surroundings.files = m.surroundings.files ∨
    ∃ x, current t l = some x ∧
      Tree.ChangesAt (localFile cwd x) m.surroundings.files m'.surroundings.files
  := by
  cases h with
  | inside path disk work call step =>
      rcases (performCalls_step step).changes (hvalid.inside path call) with heq |
        ⟨counter, hnumber, hchange⟩
      · exact Or.inl heq
      · exact Or.inr ⟨(path, counter), current_eq call hnumber, hchange⟩
  | returns | outside => exact Or.inl rfl

/-- A step of a thread performs the request that it is at. -/
theorem performed_step (t : Option (Fin n)) (ok : Bool) (s : Shared n) (x : Local n t)
    (s' : Shared n) (x' : Local n t) (h : code t (t.isSome || ok) s x = some (s', x')) :
  performed t x' = performed t x ++ (request t x).toList
  := by
  cases t with
  | none => rfl
  | some i =>
      have hstep : WorkerStep i s x s' x' := threadMain_cases h
      cases hstep with
      | perform performed req => rfl
      | fail performed req =>
          -- the call returns
          have hreturns : threadMain i true s ⟨.perform req, performed⟩ =
              some ({ s with exited := true }, ⟨.perform req, performed⟩) := h
          unfold threadMain at hreturns
          split at hreturns
          · cases hreturns
          · simp at hreturns
      | _ => exact (List.append_nil _).symm

/-- Every step of a thread keeps its calls of `perform_work` as they should be. -/
theorem FileStep.valid (h : FileStep cwd t a m l m' l')
    (hvalid : Valid cwd m.surroundings.files t l)
    (hzero : ∀ path, request t l.thread = some path → (0 : UInt8) ∉ path)
    (hnodup : ((Download.names t l).map Prod.snd).Nodup) :
  Valid cwd m'.surroundings.files t l'
  := by
  have hchanges := FileStep.changes h hvalid
  cases h with
  | inside path disk work call step =>
      constructor
      · intro path' hpath
        cases hpath.symm.trans call
        exact (performCalls_step step).valid (hzero path call) (hvalid.inside path call)
      · intro x hx
        have hleft := hvalid.returned x hx
        rcases hchanges with heq | ⟨y, hy, hchange⟩
        · rw [heq]
          exact hleft
        · apply hleft.frame hchange
          apply localFile_ne (x := name x)
          -- the number of the call that goes on is not that of a call that has returned
          rw [Download.names, hy, List.map_append] at hnodup
          intro heq
          apply List.disjoint_of_nodup_append hnodup
            (List.mem_map_of_mem (List.mem_map_of_mem hx))
          exact List.mem_map.mpr ⟨y, List.mem_singleton_self y, heq.symm⟩
  | returns path fetch shared thread call result step =>
      refine ⟨fun _ _ => trivial, ?_⟩
      intro x hx
      rcases List.mem_append.mp hx with hold | hnew
      · exact hvalid.returned x hold
      · obtain rfl := List.mem_singleton.mp hnew
        have hinside := hvalid.inside path call
        cases hwork : l.inside with
        | returned counter transfer =>
            rw [hwork] at result hinside
            cases result
            exact hinside
        | _ =>
            rw [hwork] at result
            cases result
  | outside shared thread call step => exact ⟨fun _ _ => trivial, hvalid.returned⟩

/-! ### Every state of a run -/

/-- What holds in every state of a run that begins with the files `files` and in which the increments
of the counter do not overlap: all numbers are different and in front of the counter, the calls of
`perform_work` are as they should be, and away from their local files nothing has changed but for new
directories. -/
structure Tidy (cwd : List (List UInt8)) (paths : List Path) (files : Files)
    (p : Pool (Machine (Shared n) Disk) (fun t => Caller (Local n t) Work Path Fetch)) :
    Prop where
  invariant : Invariant paths p.callers
  logged : ∀ t, (p.threads t).returned.map Prod.fst = performed t (p.threads t).thread
  valid : ∀ t, Valid cwd p.shared.surroundings.files t (p.threads t)
  fresh : ∀ t, ∀ x ∈ names t (p.threads t), x.2 < p.shared.surroundings.counter
  nodup : ∀ t, ((names t (p.threads t)).map Prod.snd).Nodup
  apart : ∀ t u, t ≠ u → ∀ x ∈ names t (p.threads t), ∀ y ∈ names u (p.threads u), x.2 ≠ y.2
  others : ∀ q, (∀ t, ∀ x ∈ names t (p.threads t), q ≠ localFile cwd x) →
    p.shared.surroundings.files.node q = files.node q ∨
      files.node q = none ∧ p.shared.surroundings.files.node q = some .directory

variable {paths : List Path} {files : Files}
  {p p' : Pool (Machine (Shared n) Disk) (fun t => Caller (Local n t) Work Path Fetch)}

theorem Tidy.start (cwd : List (List UInt8)) (paths : List Path) (files : Files) :
  Tidy cwd paths files (startFiles cwd paths files : Pool (Machine (Shared n) Disk) _)
  := by
  have hnames : ∀ t : Option (Fin n), names t ((startFiles cwd paths files).threads t) = [] :=
    fun t => names_of_count _ []
  constructor
  case invariant => exact Invariant.start paths
  case logged =>
    intro t
    cases t with
    | none => rfl
    | some i => rfl
  case valid => exact fun t => ⟨fun _ _ => trivial, nofun⟩
  case fresh =>
    intro t
    rw [hnames]
    exact nofun
  case nodup =>
    intro t
    rw [hnames]
    exact List.nodup_nil
  case apart =>
    intro t u _
    rw [hnames]
    exact nofun
  case others => exact fun q _ => Or.inl rfl

/-- The request of a thread is one of the workload. -/
theorem Tidy.mem_paths (h : Tidy cwd paths files p)
    (hrequest : request t (p.threads t).thread = some path) :
  path ∈ paths
  := by
  have hconserved : _ = ((paths : List Path) : Multiset Path) := h.invariant.conserved
  rw [← Multiset.mem_coe, ← hconserved]
  apply Multiset.mem_add.mpr
  right
  apply Multiset.mem_sum.mpr
  refine ⟨t, Finset.mem_univ _, ?_⟩
  cases t with
  | none => cases hrequest
  | some i =>
      apply Multiset.mem_add.mpr
      left
      cases hpc : (p.threads (some i)).thread.pc with
      | perform req =>
          simp only [request, hpc] at hrequest
          cases hrequest
          have hheld : (p.threads (some i)).thread.pc.held = {path} := by
            rw [hpc]
            rfl
          exact hheld ▸ Multiset.mem_singleton_self path
      | _ =>
          simp only [request, hpc] at hrequest
          cases hrequest

/-- Every step that does not overlap an increment of the counter keeps the files. -/
theorem Tidy.step (hzero : ∀ path ∈ paths, (0 : UInt8) ∉ path)
    {a : Σ _ : Option (Fin n), Act} (h : Tidy cwd paths files p) (hcounts : Counts a p)
    (hs : Pool.step (codeFiles cwd) a p = some p') :
  Tidy cwd paths files p'
  := by
  have hothers : ∀ u, u ≠ a.1 → p'.threads u = p.threads u := fun u hu => Pool.step_other hs hu
  have hstep : FileStep cwd a.1 a.2 p.shared (p.threads a.1) p'.shared (p'.threads a.1) :=
    Calls.step_cases hs
  have hchanges := FileStep.changes hstep (h.valid a.1)
  -- the thread has taken the number in front of the counter
  have hnames : p'.shared.surroundings.counter = p.shared.surroundings.counter ∧
        names a.1 (p'.threads a.1) = names a.1 (p.threads a.1) ∨
      ∃ path, p'.shared.surroundings.counter = p.shared.surroundings.counter + 1 ∧
        names a.1 (p'.threads a.1) =
          names a.1 (p.threads a.1) ++ [(path, p.shared.surroundings.counter)] := by
    rcases FileStep.names hstep with hkeep | ⟨path, counter, htaken, hcounter, hnames⟩
    · exact Or.inl hkeep
    · right
      rw [hcounts counter htaken]
      exact ⟨path, hcounter, hnames⟩
  have hle : p.shared.surroundings.counter ≤ p'.shared.surroundings.counter := by
    rcases hnames with ⟨heq, -⟩ | ⟨path, heq, -⟩
    · exact heq.ge
    · omega
  have hmem : ∀ x ∈ names a.1 (p'.threads a.1), x ∈ names a.1 (p.threads a.1) ∨
      x.2 = p.shared.surroundings.counter ∧
        p'.shared.surroundings.counter = p.shared.surroundings.counter + 1 := by
    intro x hx
    rcases hnames with ⟨-, heq⟩ | ⟨path, hcounter, heq⟩
    · exact Or.inl (heq ▸ hx)
    · rw [heq] at hx
      rcases List.mem_append.mp hx with hold | hnew
      · exact Or.inl hold
      · right
        rw [List.mem_singleton.mp hnew]
        exact ⟨rfl, hcounter⟩
  have hapart : ∀ u, u ≠ a.1 → ∀ x ∈ names a.1 (p'.threads a.1), ∀ y ∈ names u (p.threads u),
      x.2 ≠ y.2 := by
    intro u hu x hx y hy
    rcases hmem x hx with hold | ⟨hlast, -⟩
    · exact h.apart a.1 u (Ne.symm hu) x hold y hy
    · have hlt := h.fresh u y hy
      omega
  constructor
  case invariant =>
    refine Calls.invariant ?_ h.invariant hs
    exact fun a q q' hq hs => Invariant.step (a := ⟨a.1, a.1.isSome || a.2.created⟩) hq hs
  case logged => exact Calls.logged (fun t a => performed_step t a.created) h.logged hs
  case valid =>
    intro t
    by_cases ht : t = a.1
    · subst ht
      apply FileStep.valid hstep (h.valid a.1) _ (h.nodup a.1)
      exact fun path hrequest => hzero path (h.mem_paths hrequest)
    · rw [hothers t ht]
      rcases hchanges with heq | ⟨x, hx, hchange⟩
      · rw [heq]
        exact h.valid t
      · apply (h.valid t).frame hchange
        intro y hy
        exact h.apart t a.1 ht y hy x (mem_names_of_current hx)
  case fresh =>
    intro t x hx
    by_cases ht : t = a.1
    · subst ht
      rcases hmem x hx with hold | ⟨hlast, hcounter⟩
      · have hlt := h.fresh a.1 x hold
        omega
      · omega
    · rw [hothers t ht] at hx
      have hlt := h.fresh t x hx
      omega
  case nodup =>
    intro t
    by_cases ht : t = a.1
    · subst ht
      rcases hnames with ⟨-, heq⟩ | ⟨path, -, heq⟩
      · rw [heq]
        exact h.nodup a.1
      · rw [heq, List.map_append]
        apply List.Nodup.append (h.nodup a.1) (List.nodup_singleton _)
        rw [List.disjoint_singleton]
        intro hcounter
        obtain ⟨x, hx, hlast⟩ := List.mem_map.mp hcounter
        have hlt := h.fresh a.1 x hx
        dsimp only at hlast
        omega
    · rw [hothers t ht]
      exact h.nodup t
  case apart =>
    intro t u htu
    by_cases ht : t = a.1
    · subst ht
      rw [hothers u (Ne.symm htu)]
      exact hapart u (Ne.symm htu)
    · by_cases hu : u = a.1
      · subst hu
        rw [hothers t ht]
        exact fun x hx y hy => (hapart t ht y hy x hx).symm
      · rw [hothers t ht, hothers u hu]
        exact h.apart t u htu
  case others =>
    intro q hq
    have hbefore : ∀ t, ∀ x ∈ names t (p.threads t), q ≠ localFile cwd x := by
      intro t x hx
      apply hq t
      by_cases ht : t = a.1
      · subst ht
        rcases hnames with ⟨-, heq⟩ | ⟨path, -, heq⟩
        · rw [heq]
          exact hx
        · rw [heq]
          exact List.mem_append_left _ hx
      · rw [hothers t ht]
        exact hx
    have hold := h.others q hbefore
    rcases hchanges with heq | ⟨x, hx, hchange⟩
    · rw [heq]
      exact hold
    · rcases hchange.others q (hbefore a.1 x (mem_names_of_current hx)) with heq | ⟨hnone, hnew⟩
      · rw [heq]
        exact hold
      · right
        refine ⟨?_, hnew⟩
        rcases hold with heq | ⟨hstart, -⟩
        · exact heq ▸ hnone
        · exact hstart

/-! ### The whole client -/

/-- What the client leaves: every request has been handed to `perform_work` once or is still in the
queue, no two calls of `perform_work` have a local file in common, each file is left as its transfer
has ended, and nothing else on the disk has changed but for new directories. -/
structure Fetched (cwd : List (List UInt8)) (paths : List Path) (files : Files)
    (p : Pool (Machine (Shared n) Disk) (fun t => Caller (Local n t) Work Path Fetch)) :
    Prop where
  performed : (p.shared.shared.requestQueue : Multiset Path)
    + ∑ i, (((p.threads (some i)).returned.map Prod.fst : List Path) : Multiset Path) = paths
  pairwise : ∀ t, (p.threads t).returned.Pairwise fun x y =>
    localFile cwd (name x) ≠ localFile cwd (name y)
  apart : ∀ t u, t ≠ u → ∀ x ∈ (p.threads t).returned, ∀ y ∈ (p.threads u).returned,
    localFile cwd (name x) ≠ localFile cwd (name y)
  left : ∀ t, ∀ x ∈ (p.threads t).returned,
    x.2.transfer.Left cwd p.shared.surroundings.files (localName x.1 x.2.counter)
  others : ∀ q, (∀ t, ∀ x ∈ (p.threads t).returned, q ≠ localFile cwd (name x)) →
    p.shared.surroundings.files.node q = files.node q ∨
      files.node q = none ∧ p.shared.surroundings.files.node q = some .directory

/-- When the boss has joined the workers, no call of `perform_work` goes on. -/
theorem Tidy.names_of_joined (h : Tidy cwd paths files p)
    (hjoined : (p.threads none).thread.pc = .joined) (t : Option (Fin n)) :
  names t (p.threads t) = (p.threads t).returned.map name
  := by
  apply names_of_none
  rw [current]
  cases t with
  | none => rfl
  | some i =>
      have hreturned : (p.threads (some i)).thread.pc = .returned := h.invariant.returned hjoined i
      have hnone : request (some i) (p.threads (some i)).thread = none := by
        simp only [request, hreturned]
      rw [hnone]
      rfl

theorem Tidy.fetched (h : Tidy cwd paths files p)
    (hjoined : (p.threads none).thread.pc = .joined) :
  Fetched cwd paths files p
  := by
  constructor
  case performed =>
    rw [← h.invariant.performed hjoined]
    congr 1
    apply Finset.sum_congr rfl
    intro i _
    rw [h.logged]
    rfl
  case pairwise =>
    intro t
    have hnodup := h.nodup t
    rw [h.names_of_joined hjoined, List.map_map] at hnodup
    exact (List.pairwise_map.mp hnodup).imp fun hne => localFile_ne hne
  case apart =>
    intro t u htu x hx y hy
    apply localFile_ne
    exact h.apart t u htu _ (mem_names_of_returned hx) _ (mem_names_of_returned hy)
  case left => exact fun t => (h.valid t).returned
  case others =>
    intro q hq
    apply h.others
    intro t x hx
    rw [h.names_of_joined hjoined] at hx
    obtain ⟨y, hy, rfl⟩ := List.mem_map.mp hx
    exact hq t y hy

/-- For any number of workers, any workload, any files that are there, whatever the calls of
`gfc_perform` do, and any schedule in which the increments of the counter do not overlap: when the boss
has joined the workers, every request has been performed once or is in the queue, no two of them have
a local file in common, each local file holds exactly what has been written to it when the transfer
has succeeded and is removed otherwise, and nothing else on the disk has changed but for new
directories. -/
theorem downloads_left (hzero : ∀ path ∈ paths, (0 : UInt8) ∉ path)
    {as : List (Σ _ : Option (Fin n), Act)}
    (hcounts : Along (Pool.step (codeFiles cwd)) Counts as
      (startFiles cwd paths files : Pool (Machine (Shared n) Disk) _))
    (h : run (Pool.step (codeFiles cwd)) as (startFiles cwd paths files) = some p)
    (hjoined : (p.threads none).thread.pc = .joined) :
  Fetched cwd paths files p
  := by
  have htidy : Tidy cwd paths files p :=
    run_invariant_along (fun a q q' hq ha hs => hq.step hzero ha hs) (Tidy.start cwd paths files)
      hcounts h
  exact htidy.fetched hjoined

/-- A step of the boss. -/
def bossAct : Σ _ : Option (Fin n), Act :=
  ⟨none, ⟨true, Buffer.zero _, ⟨[], 0, true⟩⟩⟩

/-- A step of a worker whose transfers have one byte, and succeed or fail. -/
def workerAct (i : Fin n) (ok : Bool) : Σ _ : Option (Fin n), Act :=
  ⟨some i, ⟨true, Buffer.zero _, ⟨[ascii "A"], if ok then 0 else -1, ok⟩⟩⟩

/-- One worker downloads one file. -/
def oneFetch : List (Σ _ : Option (Fin 1), Act) :=
  List.replicate 9 bossAct ++ List.replicate 16 (workerAct (Fin.last 0) true) ++
    List.replicate 2 bossAct

/-- The file is left. -/
theorem downloads_left_one :
  ∃ p, run (Pool.step (codeFiles [])) oneFetch (startFiles [] [ascii "/a"] emptyTree) = some p ∧
    p.shared.surroundings.files.node [ascii "a-000000"] = some (.file (ascii "A"))
  := by
  have hrun : (run (Pool.step (codeFiles [])) oneFetch (startFiles [] [ascii "/a"] emptyTree)).map
      (fun p => (decide ((p.threads none).thread.pc = .joined ∧
          ∀ x ∈ (p.threads (some 0)).returned,
            0 ≤ x.2.transfer.returncode ∧ x.2.transfer.ok = true),
        (p.threads (some 0)).returned.map fun x => (name x, x.2.transfer.writes))) =
      some (true, [((ascii "/a", 0), [ascii "A"])]) := by decide +kernel
  obtain ⟨p, h, hdata⟩ := Option.map_eq_some_iff.mp hrun
  obtain ⟨hends, hreturned⟩ := Prod.mk.inj hdata
  obtain ⟨hjoined, hall⟩ := of_decide_eq_true hends
  have hcounts : Along (Pool.step (codeFiles [])) Counts oneFetch
      (startFiles [] [ascii "/a"] emptyTree) := by decide +kernel
  have hfetched := downloads_left (by decide) hcounts h hjoined
  obtain ⟨⟨path, counter, transfer⟩, hx, heq⟩ :=
    List.mem_map.mp (hreturned ▸ List.mem_singleton_self _)
  simp only [name, Prod.mk.injEq] at heq
  obtain ⟨⟨rfl, rfl⟩, hwrites⟩ := heq
  have hleft := (hfetched.left (some 0) _ hx).kept (hall _ hx).1 (hall _ hx).2
  rw [hwrites] at hleft
  exact ⟨p, h, hleft⟩

/-- Two workers that both read the counter before one of them writes it back download into one
file. -/
def sharedNumber : List (Σ _ : Option (Fin 2), Act) :=
  List.replicate 14 bossAct ++ List.replicate 5 (workerAct (Fin.castSucc (Fin.last 0)) true) ++
    List.replicate 5 (workerAct (Fin.last 1) false) ++
    List.replicate 11 (workerAct (Fin.castSucc (Fin.last 0)) true) ++
    List.replicate 12 (workerAct (Fin.last 1) false) ++ List.replicate 3 bossAct

/-- The transfer that has failed takes the file of the other one with it. -/
example :
  (run (Pool.step (codeFiles [])) sharedNumber
      (startFiles [] [ascii "/a", ascii "/a"] emptyTree)).map
    (fun p => (decide ((p.threads none).thread.pc = .joined),
      (p.threads (some 0)).returned.map fun x =>
        (x.2.transfer.ok, p.shared.surroundings.files.contents (localFile [] (name x))))) =
    some (true, [(true, none)])
  := by decide +kernel

end GetFile.Download
