import GetFile.Client.Request
import GetFile.Server.Whole

/-!
# The request on its way from the client to the server

`send_request` of the client library prints the request into a buffer on the stack and writes
it to the socket. When the server reads it in one piece, `process_request` finds the path in
it.
-/

namespace GetFile.Client

open CString

def maxPath : ℕ := 255

def maxMethod : ℕ := 5

def misc : ℕ := 16

def bufSize : ℕ := maxPath + maxMethod + schemeSz + misc

@[simp]
theorem bufSize_eq :
  bufSize = 283
  := rfl

/-- The strings of `gfcrequest_t` that `send_request` prints, each with whatever lies in memory
behind its terminator. -/
structure RequestStrings where
  scheme : List UInt8
  method : List UInt8
  path : List UInt8
  endSequence : List UInt8

/-- The strings as `gfc_create` and then `gfc_set_path` leave them. -/
def gfcSetPath (path : List UInt8) : RequestStrings where
  scheme := ascii "GETFILE"
  method := ascii "GET"
  path := path
  endSequence := ascii "\r\n\r\n"

/-- What `%s` prints: the bytes up to the first terminator. -/
def percentS (s : List UInt8) : List UInt8 :=
  s.takeWhile fun c => c != 0

/-- The text that `sprintf` makes of `"%s %s %s %s"`. -/
def requestText (g : RequestStrings) : List UInt8 :=
  percentS g.scheme ++ space :: percentS g.method ++ space :: percentS g.path ++
    space :: percentS g.endSequence

/-- `send_request`: the bytes that it writes to the socket, or `none` when `sprintf` leaves the
buffer. -/
def sendRequest (g : RequestStrings) : Option (List UInt8) :=
  let text := requestText g
  if text.length + 1 ≤ bufSize then
    let buffer := (Buffer.zero bufSize).store 0 text
    let reqLength := scan (fun c => c != 0) buffer.byte bufSize 0
    some (buffer.slice 0 reqLength)
  else none

variable {p : List UInt8}

theorem percentS_eq (h : ∀ c ∈ p, c ≠ 0) :
  percentS p = p
  := by
  rw [percentS, List.takeWhile_eq_self_iff]
  intro c hc
  simp [h c hc]

/-- The text of a request. -/
theorem requestText_eq (h : ∀ c ∈ p, c ≠ 0) :
  requestText (gfcSetPath p) = Server.request p
  := by
  simp only [requestText, gfcSetPath]
  rw [percentS_eq h]
  simp [Server.request, percentS, ascii, space]

/-- A text without a terminator is written as it is printed. -/
theorem sendRequest_eq {g : RequestStrings} (hfits : (requestText g).length + 1 ≤ bufSize)
    (h : ∀ c ∈ requestText g, c ≠ 0) :
  sendRequest g = some (requestText g)
  := by
  have hstop : scan (fun c => c != 0) ((Buffer.zero bufSize).store 0 (requestText g)).byte bufSize 0
      = (requestText g).length := by
    apply scan_eq
    constructor
    · apply Nat.zero_le
    · omega
    · intro k _ hk
      have hbyte := @Buffer.store_byte _ (Buffer.zero bufSize) 0 _ _ hk (by omega)
      rw [Nat.zero_add] at hbyte
      rw [hbyte]
      simp [h _ (List.getElem_mem hk)]
    · intro _
      rw [Buffer.store_byte_of_not_mem (by omega), Buffer.zero_byte]
      rfl
  simp only [sendRequest]
  rw [if_pos hfits, hstop, Buffer.slice_store_self (by omega)]

end GetFile.Client

namespace GetFile.Server

open CString Transition

variable {p : List UInt8}

/-- A request for a path without a terminator holds none. -/
theorem request_ne_zero (hp : ∀ c ∈ p, c ≠ 0) :
  ∀ c ∈ request p, c ≠ 0
  := by
  intro c hc
  simp only [request, List.mem_append] at hc
  obtain (hc | hc) | hc := hc
  · rintro rfl
    exact absurd hc (by decide)
  · apply hp c hc
  · rintro rfl
    exact absurd hc (by decide)

end GetFile.Server

namespace GetFile.Exchange

open CString Transition

/-- For every path of at most 256 bytes without a space or terminator: what `send_request`
prints fits into its buffer with the terminator, and when the server reads the written bytes in
one piece, whatever ends the input then, `process_request` returns `-1` with this path. -/
theorem request_roundTrip {p : List UInt8} (hne : p ≠ []) (hlen : p.length ≤ 256)
    (hp : ∀ c ∈ p, c ≠ space ∧ c ≠ 0) (next : ℕ) (e : Server.NoBytes) :
  (Client.requestText (Client.gfcSetPath p)).length + 1 ≤ Client.bufSize ∧
  ∃ w, Client.sendRequest (Client.gfcSetPath p) = some w ∧
    Server.Reads (Server.gfcontextCreate next) [w] ∧
    ∃ ctx, Server.processRequest (Server.gfcontextCreate next) [w] e = some (-1, ctx) ∧
      ctx.path = some p
  := by
  have hzero : ∀ c ∈ p, c ≠ 0 := fun c hc => (hp c hc).2
  have htext := Client.requestText_eq hzero
  have hlength := Server.length_request (p := p)
  have hfits : (Client.requestText (Client.gfcSetPath p)).length + 1 ≤ Client.bufSize := by
    rw [htext, Client.bufSize_eq]
    omega
  have hsend : Client.sendRequest (Client.gfcSetPath p) = some (Server.request p) := by
    rw [Client.sendRequest_eq hfits, htext]
    rw [htext]
    apply Server.request_ne_zero hzero
  have htotal : 12 + p.length + (ascii " \r\n\r\n").length ≤ Server.bufSize := by
    have htail : (ascii " \r\n\r\n").length = 5 := rfl
    rw [Server.bufSize_eq, htail]
    omega
  obtain ⟨ctx, hround, -, -⟩ := Server.round_whole htotal hne hp (Or.inr rfl) next
  refine ⟨hfits, _, hsend, ?_, ?_⟩
  · rw [Server.Reads, always_cons]
    constructor
    · rintro w ⟨⟩
      rw [← List.length_pos_iff, hlength]
      simp only [Server.gfcontextCreate, unsignedSub, Server.bufSize_eq]
      omega
    · rw [show Server.request p = Server.whole p (ascii " \r\n\r\n") from rfl, hround]
      rintro w ⟨⟩
  · have hanswer := Server.processRequest_whole htotal hne hp (Or.inr rfl) next e
    obtain ⟨⟨c, ctx⟩, hresult, heq⟩ := Option.map_eq_some_iff.mp hanswer
    simp only [Prod.mk.injEq] at heq
    obtain ⟨rfl, hpath⟩ := heq
    exact ⟨ctx, hresult, hpath⟩

/-- The path `/a` arrives. -/
theorem request_roundTrip_a :
  (Client.requestText (Client.gfcSetPath [47, 97])).length + 1 ≤ Client.bufSize ∧
  ∃ w, Client.sendRequest (Client.gfcSetPath [47, 97]) = some w ∧
    Server.Reads (Server.gfcontextCreate 0) [w] ∧
    ∃ ctx, Server.processRequest (Server.gfcontextCreate 0) [w] .timeout = some (-1, ctx) ∧
      ctx.path = some [47, 97]
  := request_roundTrip (by decide) (by decide) (by simp [space]) 0 .timeout

end GetFile.Exchange
