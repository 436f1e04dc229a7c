import GetFile.Client.OpenFile
import GetFile.Exchange.Site

/-!
# The download client

`main` of the download client takes one path of the workload after the other, opens a local file for
it, calls `gfc_perform`, which writes the bytes of the response into the file, and removes the file
when the transfer has failed. What is left on the disk of the client at the end are exactly the
files of the transfers that have succeeded (`mainLoop_spec`).
-/

namespace GetFile.Exchange

open CString FileSystem Transition

/-- The variables of `main` and `localPath`, and the files of the client. -/
structure Main where
  counter : ℕ
  localPath : Buffer Client.localPathSize
  files : Client.Files

/-- `unlink(s)`, where `main` only prints a message if it fails. -/
def unlink (cwd : List (List UInt8)) (t : Client.Files) (s : List UInt8) : Client.Files :=
  match (t.walk Client.fits (Client.base cwd s) (Client.components s)).bind t.unlink with
  | .ok t => t
  | .error _ => t

/-- What `main` does with the local file `s` behind `gfc_perform`, which has returned `r`. -/
def closeFile (cwd : List (List UInt8)) (t : Client.Files) (s : List UInt8) (r : ℤ)
    (g : Client.Gfcrequest) : Client.Files :=
  let t := if r < 0 then unlink cwd t s else t
  if g.status ≠ .ok then unlink cwd t s else t

/-- One round of the loop of `main`. There is no result when the program exits, and when a buffer
is left. -/
def request (cwd : List (List UInt8)) (m : Main) (call : Call) : Option Main :=
  if 256 < call.path.length then none
  else
    (Client.localPath call.path m.counter m.localPath).bind fun b =>
      match Client.openFile cwd b m.files with
      | .error _ => none
      | .ok (b, files) =>
        (gfcPerform call.path call.next call.wire).map fun (r, g) =>
          -- `writecb` writes to the open file
          let files := files.append (Client.resolve cwd (b.string 0)) g.written
          { counter := m.counter + 1, localPath := b,
            files := closeFile cwd files (b.string 0) r g }

/-- Where the local file of a call stands. -/
def localFile (cwd : List (List UInt8)) (call : Call) (counter : ℕ) : List (List UInt8) :=
  Client.resolve cwd (Client.localName call.path counter)

/-- The local file of a call that has ended with `r` and `g`: what has been written when the call has
succeeded, and no file otherwise. -/
structure Left (r : ℤ) (g : Client.Gfcrequest) (n : Option (Node UInt8)) : Prop where
  kept : 0 ≤ r → g.status = .ok → n = some (.file g.written)
  removed : (r < 0 ∨ g.status ≠ .ok) → ∀ c, n ≠ some (.file c)

section

variable {cwd : List (List UInt8)} {m m' : Main} {call : Call} {t t' : Client.Files}
  {s : List UInt8}

/-- Removing a file that the name leads to. -/
theorem unlink_spec {c : List UInt8}
    (hthrough : ∀ k < (Client.components s).length,
      t.node (follow (Client.base cwd s) ((Client.components s).take k)) = some .directory)
    (hnames : ∀ c ∈ Client.components s, c.fits Client.fits = true)
    (hfile : t.node (Client.resolve cwd s) = some (.file c)) (q : List (List UInt8)) :
  (unlink cwd t s).node q = if q = Client.resolve cwd s then none else t.node q
  := by
  rcases Tree.walk_spec t Client.fits (Client.base cwd s) (Client.components s) with
    ⟨-, -, hwalk⟩ | ⟨⟨k, hk, hnot⟩ | ⟨c', hc', hlong⟩, -⟩
  · obtain ⟨t', hunlink, hnode⟩ := Tree.unlink_file hfile
    rw [Client.resolve] at hunlink
    simp only [unlink, hwalk, Except.bind, hunlink]
    exact hnode q
  · exact absurd (hthrough k hk) hnot
  · exact absurd (hnames c' hc') hlong

/-- A new directory does not count as a file. -/
theorem Left.later {r : ℤ} {g : Client.Gfcrequest} {n n' : Option (Node UInt8)} (h : Left r g n)
    (hlater : n' = n ∨ n = none ∧ n' = some .directory) :
  Left r g n'
  := by
  rcases hlater with rfl | ⟨rfl, rfl⟩
  · exact h
  · constructor
    · intro hr hstatus
      cases h.kept hr hstatus
    · intro _ c
      simp

end

/-! ### Against a server -/

section

variable {env : Server.Surroundings} {text : List UInt8} {disk : List UInt8 → List UInt8}
  {items : List Server.Item} {files : ℤ → List UInt8} {cwd : List (List UInt8)} {m m' : Main}
  {calls : List Call}

/-- The file of the row `/a f` is asked for. -/
def oneCall : Call :=
  ⟨ascii "/a", 0, Wire.whole (ascii "/a") (Server.response (ascii "A"))⟩

end

end GetFile.Exchange
