import GetFile.CString.Decimal
import GetFile.CString.Token
import GetFile.Transition.Loop

/-!
# Client: a request and the parsers of its response

The `gfcrequest_t` of the client library, the parsers of the response and
`process_response`, which reads at `buffer + content_pt` and runs the parsers after each
read. Up to the stage of the content, `content_pt` is `0`, so that every read lands at the
start of the buffer.

Behind the array `buffer` lies the field `header_pt`, whose bytes `strtok` can reach and
overwrite in `parse_method` (`Gfcrequest.memory`). The other accesses behind the array
compare single bytes of `header_pt` with a digit, a space or a letter when `header_pt` is
close to `RDBUFSIZE`: its bytes are then `0x00`, `0x1f`, `0x20` or above `0xf0` in places
where they differ from what is sought, and the model reads zeros there.
-/

namespace GetFile.Client

open CString Transition

def rdBufSize : ℕ := 8192

def schemeSz : ℕ := 7

def endSeq : ℕ := 4

/-- The status `OK` and the space behind it. -/
def okSz : ℕ := 3

def errorSz : ℕ := 5

def notFoundSz : ℕ := 14

@[simp]
theorem rdBufSize_eq :
  rdBufSize = 8192
  := rfl

@[simp]
theorem schemeSz_eq :
  schemeSz = 7
  := rfl

@[simp]
theorem endSeq_eq :
  endSeq = 4
  := rfl

@[simp]
theorem okSz_eq :
  okSz = 3
  := rfl

@[simp]
theorem errorSz_eq :
  errorSz = 5
  := rfl

@[simp]
theorem notFoundSz_eq :
  notFoundSz = 14
  := rfl

/-- The status values `GF_OK`, `GF_FILE_NOT_FOUND`, `GF_ERROR` and `GF_INVALID`. -/
inductive Status where
  | ok
  | fileNotFound
  | error
  | invalid
  deriving DecidableEq, Repr

/-- The stages `SM_SCHEME` to `SM_DONE` of the parsers, in this order. -/
inductive StateMachine where
  | scheme
  | method
  | length
  | path
  | content
  | error
  | notFound
  | done
  deriving DecidableEq, Repr

/-- Whether `sm > SM_PATH`. -/
def StateMachine.afterPath : StateMachine → Bool
  | .scheme | .method | .length | .path => false
  | .content | .error | .notFound | .done => true

/-- The fields of `gfcrequest_t` that `process_response` uses. `next` is the saved pointer of
`strtok` as an index into the buffer, `writes` are the calls of `write_callback` with the
index of the first byte and the bytes, `headers` those of `header_callback`, and the two
flags say whether the callbacks are set. The three `int` fields are never negative. -/
structure Gfcrequest where
  status : Status
  fileLength : ℕ
  fileLengthValid : Bool
  rxBytes : ℕ
  totalRxBytes : ℕ
  bytesWritten : ℕ
  buffer : Buffer rdBufSize
  headerPt : ℕ
  lengthStartIdx : ℕ
  contentPt : ℕ
  sm : StateMachine
  next : ℕ
  writeCallback : Bool
  headerCallback : Bool
  writes : List (ℕ × List UInt8)
  headers : List (List UInt8)

/-- A fresh request with a write callback, and a header callback or none. The saved pointer
is whatever earlier calls of `strtok` left. -/
def gfcCreate (headerCallback : Bool) (next : ℕ) : Gfcrequest where
  status := .invalid
  fileLength := 0
  fileLengthValid := false
  rxBytes := 0
  totalRxBytes := 0
  bytesWritten := 0
  buffer := Buffer.zero rdBufSize
  headerPt := 0
  lengthStartIdx := 0
  contentPt := 0
  sm := .scheme
  next := next
  writeCallback := true
  headerCallback := headerCallback
  writes := []
  headers := []

/-- The bytes handed to `write_callback`, in order. -/
def Gfcrequest.written (g : Gfcrequest) : List UInt8 :=
  (g.writes.map Prod.snd).flatten

/-! ### The buffer and the field behind it -/

/-- The array `buffer` and the four bytes of `header_pt` behind it, the low one first. -/
def Gfcrequest.memory (g : Gfcrequest) : Buffer (rdBufSize + 4) where
  byte i :=
    if i < rdBufSize then g.buffer.byte i
    else if i < rdBufSize + 4 then (g.headerPt / 256 ^ (i - rdBufSize)).toUInt8
    else 0
  zero_of_le i hi := by
    rw [if_neg (by omega), if_neg (by omega)]

/-- Writing back the array and the field. -/
def Gfcrequest.setMemory (g : Gfcrequest) (b : Buffer (rdBufSize + 4)) : Gfcrequest :=
  { g with
    buffer :=
      { byte := fun i => if i < rdBufSize then b.byte i else 0
        zero_of_le := fun i hi => if_neg (by omega) }
    headerPt := (b.byte rdBufSize).toNat + (b.byte (rdBufSize + 1)).toNat * 256
      + (b.byte (rdBufSize + 2)).toNat * 256 ^ 2 + (b.byte (rdBufSize + 3)).toNat * 256 ^ 3 }

/-! ### The parsers -/

def parseScheme (g : Gfcrequest) : ℤ × Gfcrequest :=
  if schemeSz ≤ g.rxBytes then
    let t := strtok g.buffer space 0
    let g := { g with buffer := t.buffer, next := t.next }
    match t.token with
    | none => (-1, g)
    | some (s, e) =>
      if g.buffer.strncmp 0 (ascii "GETFILE") then
        (0, { g with headerPt := (e - s) + 1, sm := .method })
      else (-1, g)
  else (0, g)

/-- The first part of `parse_method`: the status `OK`. -/
def parseOk (g : Gfcrequest) : Gfcrequest :=
  if okSz < unsignedSub g.rxBytes g.headerPt then
    let t := strtok g.memory space g.next
    let g := { g.setMemory t.buffer with next := t.next }
    match t.token with
    | none => g
    | some (s, e) =>
      if t.buffer.slice s (e - s) = ascii "OK" then
        { g with headerPt := g.headerPt + ((e - s) + 1), sm := .length,
                 lengthStartIdx := g.headerPt + ((e - s) + 1), status := .ok }
      else g
  else g

/-- The second part of `parse_method`: the other status values. -/
def parseFailure (g : Gfcrequest) : Gfcrequest :=
  if g.sm = .method then
    let methodBytes : ℤ := ((g.rxBytes : ℤ) - g.headerPt).bmod (2 ^ 32)
    let g :=
      if errorSz < methodBytes then
        if g.buffer.strncmp g.headerPt (ascii "ERROR") then { g with sm := .error } else g
      else g
    if notFoundSz < methodBytes then
      if g.buffer.strncmp g.headerPt (ascii "FILE_NOT_FOUND") then { g with sm := .notFound }
      else { g with sm := .error }
    else g
  else g

def parseMethod (g : Gfcrequest) : Gfcrequest :=
  parseFailure (parseOk g)

def parseLength (g : Gfcrequest) : Gfcrequest :=
  -- the digits up to the first byte behind those received
  let g := { g with headerPt := scan isDigit g.buffer.byte (g.rxBytes + 1 - g.headerPt) g.headerPt }
  if g.rxBytes < g.headerPt then g else { g with sm := .path }

def parsePath (g : Gfcrequest) : ℤ × Gfcrequest :=
  let lengthPt := g.buffer.strndup g.lengthStartIdx (g.headerPt - g.lengthStartIdx)
  let g := { g with fileLength := (atoi lengthPt % 2 ^ 32).toNat, fileLengthValid := true }
  let g :=
    { g with headerPt := scan (fun c => c == space) g.buffer.byte (rdBufSize - g.headerPt)
              g.headerPt }
  if endSeq ≤ unsignedSub g.rxBytes g.headerPt then
    if g.buffer.strncmp g.headerPt (ascii "\r\n\r\n") then
      let g := { g with headerPt := g.headerPt + endSeq }
      let g :=
        if g.headerCallback then { g with headers := g.headers ++ [g.buffer.slice 0 g.headerPt] }
        else g
      (0, { g with sm := .content, totalRxBytes := unsignedSub g.totalRxBytes g.headerPt,
                   contentPt := g.headerPt })
    else (-1, { g with status := .error })
  else (0, g)

/-- The bytes that wait in the buffer to be handed to `write_callback`. -/
def Gfcrequest.waiting (g : Gfcrequest) : List UInt8 :=
  g.buffer.slice g.contentPt (g.rxBytes - g.contentPt)

/-- The call of `write_callback` and the counting behind it. -/
def Gfcrequest.handOver (g : Gfcrequest) : Gfcrequest :=
  let packetLength := g.rxBytes - g.contentPt
  { g with writes := g.writes ++ [(g.contentPt, g.waiting)],
           bytesWritten := unsignedAdd g.bytesWritten packetLength,
           contentPt := g.contentPt + packetLength }

/-- The reset of the pointer at the end of the buffer. -/
def Gfcrequest.rewind (g : Gfcrequest) : Gfcrequest :=
  if g.contentPt = rdBufSize then { g with contentPt := 0, rxBytes := 0 } else g

def parseContent (g : Gfcrequest) : Gfcrequest :=
  if g.contentPt < g.rxBytes then
    let g := g.handOver.rewind
    if g.fileLength ≤ g.bytesWritten then { g with sm := .done } else g
  else g

/-! ### Reading the response -/

/-- The number of bytes that `process_response` asks for. The comparison is one of
`unsigned` numbers, and the difference of two `unsigned` numbers is stored as an `int`. -/
def Gfcrequest.requestSize (g : Gfcrequest) : ℤ :=
  let size : ℤ := rdBufSize - g.contentPt
  if g.sm.afterPath ∧ g.fileLength < (size + g.totalRxBytes) % 2 ^ 32 then
    ((g.fileLength : ℤ) - g.totalRxBytes).bmod (2 ^ 32)
  else size

/-- The request after `read` has put the bytes `w` at `buffer + content_pt`. -/
def Gfcrequest.receive (g : Gfcrequest) (w : List UInt8) : Gfcrequest :=
  { g with buffer := g.buffer.store g.contentPt w, rxBytes := unsignedAdd g.rxBytes w.length,
           totalRxBytes := unsignedAdd g.totalRxBytes w.length }

/-- The statement `if (_gfr->sm == SM_...)` in front of a call that changes `r` and the
request. -/
def atStage (sm : StateMachine) (call : ℤ → Gfcrequest → ℤ × Gfcrequest)
    (x : ℤ × Gfcrequest) : ℤ × Gfcrequest :=
  if x.2.sm = sm then call x.1 x.2 else x

/-- The calls of the parsers of the header in one round, with the value of `r` behind them. At
the head of the loop `r` is `0`. -/
@[irreducible]
def parseHeader (g : Gfcrequest) : ℤ × Gfcrequest :=
  (0, g)
    |> atStage .scheme (fun _ g => parseScheme g)
    |> atStage .method (fun r g => (r, parseMethod g))
    |> atStage .length (fun r g => (r, parseLength g))
    |> atStage .path (fun _ g => parsePath g)

/-- The calls of the parsers in one round, with the value of `r` behind them. -/
@[irreducible]
def parse (g : Gfcrequest) : ℤ × Gfcrequest :=
  parseHeader g
    |> atStage .content (fun r g => (r, parseContent g))
    |> atStage .done (fun _ g => (1, g))
    |> atStage .error (fun _ g => (1, { g with status := .error }))
    |> atStage .notFound (fun _ g => (1, { g with status := .fileNotFound }))

/-- Whether the range that `read` is asked to fill lies in the buffer. -/
def Gfcrequest.InWindow (g : Gfcrequest) : Prop :=
  g.contentPt ≤ rdBufSize ∧ 0 ≤ g.requestSize ∧ g.requestSize ≤ rdBufSize - g.contentPt

instance (g : Gfcrequest) : Decidable g.InWindow :=
  inferInstanceAs (Decidable (_ ∧ _ ∧ _))

/-- The end of a round: `r` decides whether `process_response` returns. -/
def finish (x : ℤ × Gfcrequest) : Round Gfcrequest (Option (ℤ × Gfcrequest)) :=
  if x.1 = 1 then .leave (some (0, x.2))
  else if x.1 < 0 then .leave (some x)
  else .again x.2

/-- One round of `process_response` in which `read` returns bytes, unless it is asked for
none. A read outside the buffer has no result. -/
def round (g : Gfcrequest) (w : List UInt8) : Round Gfcrequest (Option (ℤ × Gfcrequest)) :=
  if ¬ g.InWindow then .leave none
  else if g.requestSize = 0 then .leave (some (-1, g))
  else finish (parse (g.receive w))

/-- The last round, in which `read` returns no bytes: the peer has closed, or a timeout. -/
def lastRound (g : Gfcrequest) : Option (ℤ × Gfcrequest) :=
  if ¬ g.InWindow then none else some (-1, g)

/-- `process_response` when `read` returns the byte strings `ws` one after the other and then
no bytes. The result is the returned value and the request, or `none` when a read leaves the
buffer. -/
def processResponse (g : Gfcrequest) (ws : List (List UInt8)) : Option (ℤ × Gfcrequest) :=
  if ¬ g.writeCallback then some (0, g) else feed round lastRound g ws

/-- `read` may return the first of the byte strings: it is not empty and not longer than the
number of bytes asked for. Of a read that is asked for no bytes nothing is said. -/
def Fits (g : Gfcrequest) (ws : List (List UInt8)) : Prop :=
  ∀ w ∈ ws.head?, 0 < g.requestSize → w ≠ [] ∧ w.length ≤ g.requestSize

/-- Each read of `process_response` may return the byte string that `ws` has for it. -/
def Reads (g : Gfcrequest) (ws : List (List UInt8)) : Prop :=
  Always round Fits g ws

end GetFile.Client
