import GetFile.Client.Header
import GetFile.Server.Serve

/-!
# The response header on its way from the server to the client

`gfs_sendheader` of the server library prints a header, and the parsers of the client library
take it apart when it comes in one read with the first bytes of the body. The client stores the
length in an `unsigned` of 32 bits, so that exactly the headers with longer lengths do not
survive (`header_roundTrip_iff`).
-/

namespace GetFile.Client

open CString Transition

/-- The stream `s` begins with the scheme and the status `word`, each followed by a space, where the
end of the stream will do as well. -/
structure BeginsStatus (word s : List UInt8) : Prop where
  scheme : BeginsScheme s
  status : ∀ i < word.length, s.getD (8 + i) 0 = word.getD i 0
  stop : s.getD (8 + word.length) 0 = space ∨ s.length = 8 + word.length

variable {word s : List UInt8}

/-- A header begins with its status. -/
theorem beginsStatus (word : List UInt8) {rest : List UInt8}
    (hrest : rest = [] ∨ rest.getD 0 0 = space) :
  BeginsStatus word (ascii "GETFILE " ++ (word ++ rest))
  := by
  have hhead : (ascii "GETFILE ").length = 8 := rfl
  constructor
  · intro i hi
    apply List.getD_append
    apply hi
  · intro i hi
    rw [List.getD_append_right _ _ _ _ (by omega), hhead, Nat.add_sub_cancel_left]
    apply List.getD_append _ _ _ _ hi
  · rcases hrest with rfl | hspace
    · right
      rw [List.append_nil, List.length_append, hhead]
    · left
      rw [List.getD_append_right _ _ _ _ (by omega), hhead, Nat.add_sub_cancel_left,
        List.getD_append_right _ _ _ _ le_rfl, Nat.sub_self]
      exact hspace

/-- The stream is not shorter than its status. -/
theorem BeginsStatus.length_le (h : BeginsStatus word s) :
  8 + word.length ≤ s.length
  := by
  rcases h.stop with hspace | hlength
  · by_contra hout
    rw [List.getD_eq_default _ _ (by omega)] at hspace
    exact absurd hspace (by decide)
  · exact hlength.symm.le

/-- In front of the second part of `parse_method`, with a status in place that is not `OK`. -/
structure StatusRead (word : List UInt8) (rx : ℕ) (g : Gfcrequest) : Prop where
  sm : g.sm = .method
  headerPt : g.headerPt = 8
  rxBytes : g.rxBytes = rx
  status : g.buffer.slice 8 word.length = word

/-- A status that is in place with all of the stream, and that is not `OK`, is left to the second part
of `parse_method`. -/
theorem Placed.parseOk (hs : BeginsStatus word s) {rx : ℕ} {g : Gfcrequest}
    (h : Placed s 8 s.length rx g) (hsm : g.sm = .method) (hpt : g.headerPt = 8)
    (hnext : g.next = 8) (hne : word ≠ []) (hok : word ≠ ascii "OK")
    (hword : ∀ c ∈ word, c ≠ space ∧ c ≠ 0) (hlow : 12 ≤ s.length)
    (hshort : 8 + word.length < rdBufSize) :
  StatusRead word rx (Client.parseOk g)
  := by
  have hpos := List.length_pos_iff.mpr hne
  have hrx := h.rxBytes
  have hle := h.le
  have hsmall := h.small
  rw [rdBufSize_eq] at hsmall
  have hin := hs.length_le
  have hbyte : ∀ i (hi : i < word.length), g.memory.byte (8 + i) = word[i] := by
    intro i hi
    rw [memory_byte (by omega), h.byte _ (by omega) (by omega), hs.status i hi,
      List.getD_eq_getElem _ _ hi]
  have hrun : RunsTo g.memory space 8 (8 + word.length) := by
    constructor
    · omega
    · intro k hk hlt
      obtain ⟨j, rfl⟩ := Nat.exists_eq_add_of_le hk
      rw [hbyte j (by omega)]
      apply hword _ (List.getElem_mem _)
    · rw [memory_byte hshort]
      rcases Nat.eq_or_lt_of_le hin with heq | hlt
      · right
        exact h.clear _ heq.ge
      · left
        rw [h.byte _ (by omega) hlt]
        exact hs.stop.resolve_right (by omega)
  have htoken : ∃ t, CString.strtok g.memory space 8 = t ∧ t.token = some (8, 8 + word.length) ∧
      ∀ k, k ≠ 8 + word.length → t.buffer.byte k = g.memory.byte k := by
    have hskips : SkipsTo g.memory space 8 8 := SkipsTo.refl (hrun.run 8 le_rfl (by omega)).1
    rcases hrun.stop with hspace | hzero
    · exact ⟨_, strtok_cut space_ne_zero hskips hrun (by omega) hspace, rfl,
        fun k hk => Buffer.terminate_byte_of_ne _ hk⟩
    · exact ⟨_, strtok_last hskips hrun (by omega) (by omega) hzero, rfl, fun _ _ => rfl⟩
  obtain ⟨t, hstrtok, hrange, hkeep⟩ := htoken
  have hslice : t.buffer.slice 8 word.length = word := by
    apply Buffer.slice_eq rfl
    intro j hj
    rw [hkeep _ (by omega), hbyte j hj]
  have hsub : unsignedSub g.rxBytes g.headerPt = rx - 8 := by
    rw [hrx, hpt, unsignedSub]
    omega
  have hfield : (g.setMemory t.buffer).headerPt = 8 := by
    apply (headerPt_setMemory (by omega) _).trans hpt
    intro i _
    apply hkeep
    omega
  have hresumed : Client.parseOk g = g.resumed t := by
    rw [Client.parseOk, if_pos (by rw [hsub, okSz_eq]; omega)]
    simp only [hnext, hstrtok, hrange, Nat.add_sub_cancel_left, hslice]
    rw [if_neg hok]
    rfl
  rw [hresumed]
  refine ⟨hsm, hfield, hrx, ?_⟩
  apply Buffer.slice_eq rfl
  intro j hj
  have hinside : 8 + j < rdBufSize := by omega
  calc (g.setMemory t.buffer).buffer.byte (8 + j)
      = t.buffer.byte (8 + j) := setMemory_byte hinside
    _ = g.memory.byte (8 + j) := hkeep _ (by omega)
    _ = word[j] := hbyte j hj

/-- The beginning of a status in place is in place. -/
theorem StatusRead.of_append {word' : List UInt8} {rx : ℕ} {g : Gfcrequest}
    (h : StatusRead (word ++ word') rx g) :
  StatusRead word rx g
  := by
  refine ⟨h.sm, h.headerPt, h.rxBytes, ?_⟩
  have hstatus := h.status
  rw [List.length_append, Buffer.slice_add] at hstatus
  exact List.append_inj_left hstatus (Buffer.length_slice ..)

/-- The second part of `parse_method` counts the bytes behind the scheme. -/
theorem StatusRead.methodBytes {g : Gfcrequest} {rx : ℕ} (h : StatusRead word rx g)
    (hlow : 8 ≤ rx) (hhigh : rx ≤ rdBufSize) :
  ((g.rxBytes : ℤ) - g.headerPt).bmod (2 ^ 32) = rx - 8
  := by
  rw [rdBufSize_eq] at hhigh
  rw [h.rxBytes, h.headerPt, Int.bmod_eq_of_le (by omega) (by omega)]
  rfl

/-- The first byte of the status decides whether it can be `ERROR` or `FILE_NOT_FOUND`. -/
theorem StatusRead.strncmp_false {c c' : UInt8} {cs lit : List UInt8} {g : Gfcrequest} {rx : ℕ}
    (h : StatusRead (c :: cs) rx g) (hne : c ≠ c') :
  g.buffer.strncmp g.headerPt (c' :: lit) = false
  := by
  have hfirst : g.buffer.byte 8 = c := by
    have hbyte := congrArg (fun l => l.getD 0 0) h.status
    simpa [Buffer.slice] using hbyte
  rw [Buffer.strncmp, h.headerPt, hfirst]
  simp [hne]

/-- The status `ERROR` in place is taken for this failure. -/
theorem StatusRead.error {g : Gfcrequest} {rx : ℕ} (h : StatusRead (ascii "ERROR") rx g)
    (hlow : 14 ≤ rx) (hhigh : rx ≤ rdBufSize) :
  parseFailure g = { g with sm := .error }
  := by
  have hbytes := h.methodBytes (by omega) hhigh
  have herror : g.buffer.strncmp g.headerPt (ascii "ERROR") = true := by
    rw [Buffer.strncmp_iff_slice, h.headerPt]
    exact h.status
  have hother : g.buffer.strncmp g.headerPt (ascii "FILE_NOT_FOUND") = false :=
    @StatusRead.strncmp_false 69 70 _ _ g rx h (by decide)
  have henough : ((errorSz : ℕ) : ℤ) < rx - 8 := by
    rw [errorSz_eq]
    omega
  simp only [parseFailure, h.sm, hbytes, herror, hother, if_pos henough, ↓reduceIte,
    Bool.false_eq_true, ite_self]

/-- The status `FILE_NOT_FOUND` in place is taken for this failure. -/
theorem StatusRead.fileNotFound {g : Gfcrequest} {rx : ℕ}
    (h : StatusRead (ascii "FILE_NOT_FOUND") rx g) (hlow : 23 ≤ rx) (hhigh : rx ≤ rdBufSize) :
  parseFailure g = { g with sm := .notFound }
  := by
  have hbytes := h.methodBytes (by omega) hhigh
  have hfound : g.buffer.strncmp g.headerPt (ascii "FILE_NOT_FOUND") = true := by
    rw [Buffer.strncmp_iff_slice, h.headerPt]
    exact h.status
  have hother : g.buffer.strncmp g.headerPt (ascii "ERROR") = false :=
    @StatusRead.strncmp_false 70 69 _ _ g rx h (by decide)
  simp only [parseFailure, h.sm, hbytes, hother, errorSz_eq, notFoundSz_eq, ↓reduceIte, ite_self,
    Bool.false_eq_true]
  rw [if_pos (by omega), hfound, if_pos rfl]

/-- When a header with a failure comes wholly in the first read, the parsers find the
failure. -/
theorem parse_failure (hs : BeginsStatus word s) (hne : word ≠ []) (hok : word ≠ ascii "OK")
    (hword : ∀ c ∈ word, c ≠ space ∧ c ≠ 0) (hlow : 12 ≤ s.length)
    (hhigh : s.length ≤ rdBufSize) (hshort : 8 + word.length < rdBufSize) (headerCallback : Bool)
    (next : ℕ) :
  ∃ g, StatusRead word s.length g ∧
    (∀ sm : StateMachine, sm.afterPath = true → parseFailure g = { g with sm := sm } →
      parseHeader ((gfcCreate headerCallback next).receive s) = (0, { g with sm := sm }))
  := by
  have hplaced := placed_create (List.append_nil s).symm hhigh headerCallback next
  obtain ⟨g₁, hparse, h₁, hsm, hpt, hnext, -⟩ := hplaced.parse_scheme hs.scheme rfl (by omega)
  rw [Nat.min_eq_right (by omega)] at hnext
  refine ⟨parseOk g₁, h₁.parseOk hs hsm hpt hnext hne hok hword hlow hshort, ?_⟩
  intro sm hafter hfailure
  have hmethod : sm ≠ .method := by
    rintro rfl
    cases hafter
  rw [hparse, parseHeader_of_method hsm, parseMethod, hfailure, if_neg hmethod,
    parseHeader_of_afterPath hafter]

end GetFile.Client

namespace GetFile.Exchange

open CString Transition

/-- The status that the client gives for a status of the server. -/
def clientStatus : Server.Status → Client.Status
  | .ok => .ok
  | .fileNotFound => .fileNotFound
  | .error => .error

/-- What the parsers of the client find in the bytes received, `g`, when they begin with the
header of a file of `len` bytes: the status, and behind a header with `GF_OK` the length and the
first bytes of the body, where `content_pt` points. -/
structure HeaderFound (status : Server.Status) (len : ℕ) (body : List UInt8)
    (g : Client.Gfcrequest) : Prop where
  found : (Client.parse g).2.status = clientStatus status
  fileLength : status = .ok → (Client.parseHeader g).2.fileLength = len
  contentPt : status = .ok → (Client.parseHeader g).2.sm = .content ∧
    (Client.parseHeader g).2.contentPt = (Server.gfsSendheader status len).length ∧
    (Client.parseHeader g).2.waiting = body

/-- The header with `GF_OK` is the one that the client expects. -/
theorem gfsSendheader_ok (len : ℕ) :
  Server.gfsSendheader .ok len = Client.okHeader (decimal len) 0
  := by
  simp [Server.gfsSendheader, Server.gfsStrstatus, Client.okHeader, ascii]

/-- A header with `GF_OK` is found, with its length as a 32-bit number. -/
theorem found_ok {len : ℕ} {body : List UInt8}
    (hfits : (Server.gfsSendheader .ok len ++ body).length ≤ Client.rdBufSize)
    (headerCallback : Bool) (next : ℕ) :
  HeaderFound .ok len body ((Client.gfcCreate headerCallback next).receive
    (Server.gfsSendheader .ok len ++ body)) ↔ len < 2 ^ 32
  := by
  have hdigits : ∀ c ∈ decimal len, isDigit c = true := fun c hc => isDigit_of_mem_decimal hc
  rw [gfsSendheader_ok] at hfits ⊢
  obtain ⟨g, hparse, hbehind, -⟩ := Client.parse_header_digits (decimal_ne_nil len) hdigits hfits
    headerCallback next
  have hlength := hbehind.fileLength
  constructor
  · intro h
    have hread := h.fileLength rfl
    rw [hparse, hlength] at hread
    rw [← hread]
    omega
  · intro hsmall
    have hvalue := decimalValue_decimal len
    rw [atoi_unsigned (decimal_ne_nil len) hdigits (by omega), hvalue] at hlength
    constructor
    · rw [Client.parse_of_parseHeader hparse (by rw [hbehind.sm]; rfl),
        Client.parse_of_content hbehind.sm]
      exact (Client.parseContent_status g).trans hbehind.status
    · intro _
      rw [hparse]
      apply hlength
    · intro _
      rw [hparse, gfsSendheader_ok]
      exact ⟨hbehind.sm, hbehind.contentPt, hbehind.waiting⟩

/-- A header with a failure begins with its status. -/
theorem beginsStatus_gfsSendheader (status : Server.Status) (len : ℕ) (body : List UInt8) :
  Client.BeginsStatus (Server.gfsStrstatus status) (Server.gfsSendheader status len ++ body)
  := by
  have heq : Server.gfsSendheader status len ++ body = ascii "GETFILE " ++
      (Server.gfsStrstatus status ++ space :: (decimal len ++ (ascii "\r\n\r\n" ++ body))) := by
    simp [Server.gfsSendheader, ascii, space]
  rw [heq]
  exact Client.beginsStatus (Server.gfsStrstatus status) (Or.inr rfl)

/-- A header is longer than its status. -/
theorem length_gfsSendheader (status : Server.Status) (len : ℕ) :
  (Server.gfsStrstatus status).length + 14 ≤ (Server.gfsSendheader status len).length
  := by
  have hpos := List.length_pos_iff.mpr (decimal_ne_nil len)
  have hhead : (ascii "GETFILE ").length = 8 := rfl
  have hspace : (ascii " ").length = 1 := rfl
  have hmarker : (ascii "\r\n\r\n").length = 4 := rfl
  simp only [Server.gfsSendheader, List.length_append, hhead, hspace, hmarker]
  omega

/-- A status is one word. -/
theorem gfsStrstatus_word (status : Server.Status) :
  ∀ c ∈ Server.gfsStrstatus status, c ≠ space ∧ c ≠ 0
  := by
  have hall : (Server.gfsStrstatus status).all (fun c => c != space && c != 0) = true := by
    cases status with
    | ok => rfl
    | fileNotFound => rfl
    | error => rfl
  simpa using hall

/-- A header with a failure is found. -/
theorem found_failure {status : Server.Status} {len : ℕ} {body : List UInt8} (hne : status ≠ .ok)
    (hfits : (Server.gfsSendheader status len ++ body).length ≤ Client.rdBufSize)
    (headerCallback : Bool) (next : ℕ) :
  HeaderFound status len body ((Client.gfcCreate headerCallback next).receive
    (Server.gfsSendheader status len ++ body))
  := by
  have hlength := length_gfsSendheader status len
  have hbegins := beginsStatus_gfsSendheader status len body
  rw [List.length_append] at hfits
  refine ⟨?_, fun hok => absurd hok hne, fun hok => absurd hok hne⟩
  cases status with
  | ok => exact absurd rfl hne
  | fileNotFound =>
      have hword : (Server.gfsStrstatus .fileNotFound).length = 14 := rfl
      obtain ⟨g, hread, hparse⟩ := Client.parse_failure hbegins (by decide) (by decide)
        (gfsStrstatus_word _) (by rw [List.length_append]; omega)
        (by rw [List.length_append]; omega) (by decide) headerCallback next
      have hfailure := hread.fileNotFound (by rw [List.length_append]; omega)
        (by rw [List.length_append]; omega)
      rw [Client.parse_of_parseHeader (hparse .notFound rfl hfailure) rfl,
        Client.parse_of_notFound rfl]
      rfl
  | error =>
      have hword : (Server.gfsStrstatus .error).length = 5 := rfl
      obtain ⟨g, hread, hparse⟩ := Client.parse_failure hbegins (by decide) (by decide)
        (gfsStrstatus_word _) (by rw [List.length_append]; omega)
        (by rw [List.length_append]; omega) (by decide) headerCallback next
      have hfailure := hread.error (by rw [List.length_append]; omega)
        (by rw [List.length_append]; omega)
      rw [Client.parse_of_parseHeader (hparse .error rfl hfailure) rfl,
        Client.parse_of_error rfl]
      rfl

/-- For every status, every length and all bytes of the body that come in the same read: the
client finds what the server has sent, if and only if the status is not `GF_OK` or the length
fits into 32 bits. -/
theorem header_roundTrip_iff {status : Server.Status} {len : ℕ} {body : List UInt8}
    (hfits : (Server.gfsSendheader status len ++ body).length ≤ Client.rdBufSize)
    (headerCallback : Bool) (next : ℕ) :
  HeaderFound status len body ((Client.gfcCreate headerCallback next).receive
    (Server.gfsSendheader status len ++ body)) ↔ status ≠ .ok ∨ len < 2 ^ 32
  := by
  by_cases hok : status = .ok
  · subst hok
    rw [found_ok hfits]
    simp
  · exact ⟨fun _ => Or.inl hok, fun _ => found_failure hok hfits headerCallback next⟩

/-- The header of a file of five bytes is found. -/
theorem header_roundTrip_iff_five :
  HeaderFound .ok 5 [65] ((Client.gfcCreate false 0).receive (Server.gfsSendheader .ok 5 ++ [65])) ↔
    Server.Status.ok ≠ .ok ∨ 5 < 2 ^ 32
  := header_roundTrip_iff (by decide) false 0

/-- The header of a file of `2 ^ 32` bytes is not found. -/
theorem not_header_roundTrip :
  (Server.gfsSendheader .ok (2 ^ 32)).length ≤ Client.rdBufSize ∧
  ¬ HeaderFound .ok (2 ^ 32) [] ((Client.gfcCreate false 0).receive
    (Server.gfsSendheader .ok (2 ^ 32) ++ []))
  := by
  have hfits : (Server.gfsSendheader .ok (2 ^ 32) ++ []).length ≤ Client.rdBufSize := by
    rw [gfsSendheader_ok, List.append_nil, Client.length_okHeader, Client.rdBufSize_eq]
    have hdigits := length_decimal_of_lt (n := 2 ^ 32) (k := 10) (by decide) (by decide)
    omega
  constructor
  · rw [← List.append_nil (Server.gfsSendheader .ok (2 ^ 32))]
    apply hfits
  · rw [found_ok hfits]
    decide

end GetFile.Exchange
