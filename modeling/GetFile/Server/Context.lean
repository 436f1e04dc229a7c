import GetFile.CString.Token
import GetFile.Transition.Loop
import Mathlib.Data.Nat.Notation

/-!
# Server: the context of a connection and its parsers

The `gfcontext_t` of the server library with the three parsers `parse_scheme`,
`parse_method` and `parse_path` that share the saved pointer of `strtok`, and
`process_request`, which reads at `buffer + header_pt` and runs the parsers after each
read. Behind the buffer lies padding that `memset` cleared, so a `Buffer bufSize` reads
zeros there.
-/

namespace GetFile.Server

open CString Transition

def misc : ℕ := 16

def maxScheme : ℕ := 7

def maxMethod : ℕ := 5

def maxPath : ℕ := 255

def bufSize : ℕ := maxPath + maxMethod + maxScheme + misc

/-- The method `GET` and the space behind it. -/
def getSize : ℕ := 4

@[simp]
theorem maxScheme_eq :
  maxScheme = 7
  := rfl

@[simp]
theorem maxPath_eq :
  maxPath = 255
  := rfl

@[simp]
theorem getSize_eq :
  getSize = 4
  := rfl

@[simp]
theorem bufSize_eq :
  bufSize = 283
  := rfl

/-- The status values `GF_OK`, `GF_FILE_NOT_FOUND` and `GF_ERROR`. -/
inductive Status where
  | ok
  | fileNotFound
  | error
  deriving DecidableEq, Repr

/-- The stages `SM_SCHEME`, `SM_METHOD` and `SM_PATH` of the parsers. -/
inductive StateMachine where
  | scheme
  | method
  | path
  deriving DecidableEq, Repr

/-- The fields of `gfcontext_t` that the parsers use, and the saved pointer `next` of
`strtok` as an index into `buffer`. -/
structure Gfcontext where
  path : Option (List UInt8)
  pathLength : ℤ
  status : Status
  rxBytes : ℕ
  totalRxBytes : ℕ
  buffer : Buffer bufSize
  headerPt : ℕ
  sm : StateMachine
  next : ℕ

/-- A fresh context. The saved pointer is whatever earlier calls of `strtok` left; the
first call here passes the buffer and sets it. -/
def gfcontextCreate (next : ℕ) : Gfcontext where
  path := none
  pathLength := -1
  status := .ok
  rxBytes := 0
  totalRxBytes := 0
  buffer := Buffer.zero bufSize
  headerPt := 0
  sm := .scheme
  next := next

/-! ### The parsers -/

def parseScheme (ctx : Gfcontext) : ℤ × Gfcontext :=
  if maxScheme ≤ ctx.rxBytes then
    let t := strtok ctx.buffer space 0
    let ctx := { ctx with buffer := t.buffer, next := t.next }
    match t.token with
    | none => (-1, { ctx with status := .fileNotFound })
    | some (s, e) =>
      if ctx.buffer.strncmp 0 (ascii "GETFILE") then
        (0, { ctx with headerPt := (e - s) + 1, sm := .method })
      else (-1, { ctx with status := .fileNotFound })
  else (0, ctx)

def parseMethod (ctx : Gfcontext) : ℤ × Gfcontext :=
  if getSize ≤ unsignedSub ctx.rxBytes ctx.headerPt then
    let t := strtok ctx.buffer space ctx.next
    let ctx := { ctx with buffer := t.buffer, next := t.next }
    match t.token with
    | none => (-1, { ctx with status := .fileNotFound })
    | some (s, e) =>
      if ctx.buffer.slice s (e - s) = ascii "GET" then
        (0, { ctx with headerPt := ctx.headerPt + ((e - s) + 1), sm := .path })
      else (-1, { ctx with status := .fileNotFound })
  else (0, ctx)

def parsePath (ctx : Gfcontext) : ℤ × Gfcontext :=
  let t := strtok ctx.buffer space ctx.next
  let ctx := { ctx with buffer := t.buffer, next := t.next }
  let ctx : Gfcontext :=
    match t.token with
    | some (s, e) =>
      { ctx with path := some (ctx.buffer.slice s (e - s)), pathLength := ctx.headerPt + (e - s) }
    | none =>
      let t := strtok ctx.buffer cr ctx.next
      let ctx := { ctx with buffer := t.buffer, next := t.next }
      match t.token with
      | some (s, e) =>
        let ctx :=
          { ctx with path := some (ctx.buffer.slice s (e - s)),
                     pathLength := ctx.headerPt + (e - s),
                     headerPt := ctx.headerPt + ((e - s) + 1) }
        -- `strcmp` also compares the terminator
        if ctx.buffer.strncmp ctx.headerPt (ascii "\r\n\r\n" ++ [0]) then ctx
        else { ctx with status := .fileNotFound }
      | none =>
        if maxPath + getSize + maxScheme < ctx.totalRxBytes then
          { ctx with status := .fileNotFound }
        else ctx
  if ctx.status = .fileNotFound then (-1, ctx) else (0, ctx)

/-! ### Reading the request -/

/-- What `read` returns when it returns no bytes: `0` at the end of the input, a negative
value at a timeout. -/
inductive NoBytes where
  | endOfInput
  | timeout

/-- The context after `read` has put the bytes `w` at `buffer + header_pt`. -/
def Gfcontext.receive (ctx : Gfcontext) (w : List UInt8) : Gfcontext :=
  { ctx with buffer := ctx.buffer.store ctx.headerPt w, rxBytes := ctx.rxBytes + w.length,
             totalRxBytes := ctx.totalRxBytes + w.length }

/-- The calls of the parsers in one round, with the value of `r` before and after. -/
def parse (r : ℤ) (ctx : Gfcontext) : ℤ × Gfcontext :=
  let (r, ctx) := if ctx.sm = .scheme then parseScheme ctx else (r, ctx)
  let (r, ctx) := if ctx.sm = .method then parseMethod ctx else (r, ctx)
  if ctx.sm = .path then parsePath ctx else (r, ctx)

/-- One round of `process_request` in which `read` returns bytes. A read at
`buffer + header_pt` with `header_pt > BUFSIZE` leaves the buffer; the model gives such a
run no result. -/
def round (s : ℤ × Gfcontext) (w : List UInt8) : Round (ℤ × Gfcontext) (Option (ℤ × Gfcontext)) :=
  if bufSize < s.2.headerPt then .leave none
  else
    let ctx := s.2.receive w
    if ctx.status ≠ .ok then .leave (some (-1, ctx))
    else
      let (r, ctx) := parse s.1 ctx
      if r = -1 then .leave (some (-2, ctx)) else .again (r, ctx)

/-- The last round, in which `read` returns no bytes. -/
def lastRound (e : NoBytes) (s : ℤ × Gfcontext) : Option (ℤ × Gfcontext) :=
  if bufSize < s.2.headerPt then none
  else
    match e with
    | .timeout => some (-1, { s.2 with status := .error })
    | .endOfInput => some (-1, { s.2 with status := .fileNotFound })

/-- `process_request` when `read` returns the byte strings `ws` one after the other and
then no bytes. The result is the returned code and the context, or `none` when a read
leaves the buffer. -/
def processRequest (ctx : Gfcontext) (ws : List (List UInt8)) (e : NoBytes) :
    Option (ℤ × Gfcontext) :=
  feed round (lastRound e) (0, ctx) ws

/-- The code that `process_request` returns and the path that it leaves. -/
def answer (result : Option (ℤ × Gfcontext)) : Option (ℤ × Option (List UInt8)) :=
  result.map fun x => (x.1, x.2.path)

/-- `read` may return the first of the byte strings: it is not empty and not longer than
the `BUFSIZE - header_pt` bytes asked for. -/
def Fits (s : ℤ × Gfcontext) (ws : List (List UInt8)) : Prop :=
  ∀ w ∈ ws.head?, w ≠ [] ∧ w.length ≤ unsignedSub bufSize s.2.headerPt

/-- Each read of `process_request` may return the byte string that `ws` has for it. -/
def Reads (ctx : Gfcontext) (ws : List (List UInt8)) : Prop :=
  Always round Fits (0, ctx) ws

end GetFile.Server
