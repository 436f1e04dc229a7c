import GetFile.Client.Header

/-!
# Client: which headers are accepted

A response should only be taken for a success or for one of the two failures when it begins with a
header of the protocol (`ValidHeader`). What the parsers look at is less: seven bytes of the
scheme, the beginning of a status, or that more than fourteen bytes stand where the status should,
and digits which may be missing. `Accepted` says when a read makes `process_response` return `0`,
in terms of the bytes that have been received. A stream without a valid header is rejected exactly
when no read is accepted in this sense and all reads stay inside the buffer (`rejectsInvalid_iff`).
-/

namespace GetFile.Client

open CString Transition

/-! ### The grammar -/

/-- The stream begins with a header: `OK` with a length and the end marker, or the word of one of
the two failures. -/
inductive ValidHeader (s : List UInt8) : Prop where
  | ok {ds : List UInt8} {spaces : ℕ} {body : List UInt8} (ne_nil : ds ≠ [])
      (digits : ∀ c ∈ ds, isDigit c = true) (eq : s = okHeader ds spaces ++ body)
  | failure {word rest : List UInt8} (known : word = ascii "FILE_NOT_FOUND" ∨ word = ascii "ERROR")
      (stop : ∀ c ∈ rest.head?, c = 0 ∨ isSpace c = true)
      (eq : s = ascii "GETFILE " ++ (word ++ rest))

/-- A value that is not negative is returned only for a stream with a valid header, and a negative
one for every other stream. -/
structure RejectsInvalid (s : List UInt8) (result : Option (ℤ × Gfcrequest)) : Prop where
  valid : ∀ r g, result = some (r, g) → 0 ≤ r → ValidHeader s
  invalid : ¬ ValidHeader s → ∃ r g, result = some (r, g) ∧ r < 0

/-- A valid header begins with the scheme and a space. -/
theorem ValidHeader.beginsScheme {s : List UInt8} (h : ValidHeader s) :
  BeginsScheme s
  := by
  cases h with
  | @ok ds spaces body ne_nil digits eq =>
      rw [eq]
      exact (begins_okHeader ds spaces body).scheme
  | @failure word rest known stop eq =>
      intro i hi
      rw [eq]
      exact List.getD_append _ _ _ _ hi

/-! ### What is accepted -/

/-- Bytes wait behind the header, and with them as many have come as the length says. -/
def Gfcrequest.Completed (g : Gfcrequest) : Prop :=
  g.contentPt < g.rxBytes ∧
    g.fileLength ≤ unsignedAdd g.bytesWritten (g.rxBytes - g.contentPt)

/-- Behind spaces at `header_pt` stand the end marker and a body, which is complete for the number
in front of `header_pt`. Without digits this number is `0`. -/
def Gfcrequest.PathAccepted (g : Gfcrequest) : Prop :=
  ∃ j, g.SpacesTo j ∧ 4 ≤ unsignedSub g.rxBytes j ∧
    g.buffer.strncmp j (ascii "\r\n\r\n") = true ∧ j + 4 < g.rxBytes ∧
    g.lengthRead ≤ unsignedAdd g.bytesWritten (g.rxBytes - (j + 4))

/-- The same behind the digits at `header_pt`. -/
def Gfcrequest.LengthAccepted (g : Gfcrequest) : Prop :=
  ∃ j, g.DigitsTo j ∧ j ≤ g.rxBytes ∧ ({ g with headerPt := j, sm := .path }).PathAccepted

/-- At `header_pt` stand more than fourteen bytes, whatever they are, or more than five that begin
with `ERROR`. -/
def Gfcrequest.FailureAccepted (g : Gfcrequest) : Prop :=
  let methodBytes : ℤ := ((g.rxBytes : ℤ) - g.headerPt).bmod (2 ^ 32)
  14 < methodBytes ∨ 5 < methodBytes ∧ g.buffer.strncmp g.headerPt (ascii "ERROR") = true

/-- The word that `strtok` has found. -/
def word {size : ℕ} (t : Tokenized size) : Option (List UInt8) :=
  t.token.map fun x => t.buffer.slice x.1 (x.2 - x.1)

/-- The next word is `OK` and what stands behind it is accepted, or it is another one and what
stands at `header_pt` is taken for a failure. -/
def Gfcrequest.MethodAccepted (g : Gfcrequest) : Prop :=
  if 3 < unsignedSub g.rxBytes g.headerPt then
    let t := strtok g.memory space g.next
    if word t = some (ascii "OK") then (g.resumed t).accepted.LengthAccepted
    else (g.resumed t).FailureAccepted
  else g.FailureAccepted

/-- The first word begins with `GETFILE`, and what stands behind it is accepted. -/
def Gfcrequest.SchemeAccepted (g : Gfcrequest) : Prop :=
  7 ≤ g.rxBytes ∧ g.buffer.strncmp 0 (ascii "GETFILE") = true ∧
    let t := strtok g.buffer space 0
    ∃ s e, t.token = some (s, e) ∧
      ({ g with buffer := t.buffer, next := t.next, headerPt := (e - s) + 1,
                sm := .method }).MethodAccepted

/-- The bytes that have been received in the stage of the request are accepted. -/
def Gfcrequest.Accepted (g : Gfcrequest) : Prop :=
  match g.sm with
  | .scheme => g.SchemeAccepted
  | .method => g.MethodAccepted
  | .length => g.LengthAccepted
  | .path => g.PathAccepted
  | .content => g.Completed
  | .error | .notFound | .done => True

/-- The next step does not accept the stream: the read is made inside the buffer, and the bytes
that it brings are not accepted. -/
def StepOk (g : Gfcrequest) (ws : List (List UInt8)) : Prop :=
  g.InWindow ∧ ∀ w ∈ ws.head?, g.requestSize ≠ 0 → ¬ (g.receive w).Accepted

/-! ### What the parsers return -/

/-- The parsers have found the stream accepted, or they have rejected it, or they wait. -/
inductive Verdict (accepted : Prop) : ℤ × Gfcrequest → Prop where
  | accept {g : Gfcrequest} (yes : accepted) : Verdict accepted (1, g)
  | reject {g : Gfcrequest} (no : ¬ accepted) : Verdict accepted (-1, g)
  | wait {g : Gfcrequest} (no : ¬ accepted) : Verdict accepted (0, g)

section

variable {g : Gfcrequest}

theorem Verdict.of_iff {p q : Prop} {x : ℤ × Gfcrequest} (h : Verdict p x) (hiff : p ↔ q) :
  Verdict q x
  := by
  rw [← hiff]
  exact h

/-- What the parsers of the header do decides what all parsers do. -/
theorem parse_congr {g' : Gfcrequest} (h : parseHeader g = parseHeader g') :
  parse g = parse g'
  := by rw [parse, parse, h]

theorem verdict_content (hsm : g.sm = .content) :
  Verdict g.Completed (parse g)
  := by
  rw [parse_of_content hsm, parseContent]
  by_cases hwaits : g.contentPt < g.rxBytes
  · rw [if_pos hwaits]
    have hlength : g.handOver.rewind.fileLength = g.fileLength := rewind_fileLength _
    have hwritten := rewind_bytesWritten g.handOver
    have hcontent : g.handOver.rewind.sm = .content := (rewind_sm _).trans hsm
    dsimp only
    by_cases hall : g.handOver.rewind.fileLength ≤ g.handOver.rewind.bytesWritten
    · rw [if_pos hall, if_pos rfl]
      apply Verdict.accept
      rw [hlength, hwritten] at hall
      exact ⟨hwaits, hall⟩
    · rw [if_neg hall, if_neg (by rw [hcontent]; decide)]
      apply Verdict.wait
      rintro ⟨-, hcompleted⟩
      apply hall
      rw [hlength, hwritten]
      exact hcompleted
  · rw [if_neg hwaits, if_neg (by rw [hsm]; decide)]
    apply Verdict.wait
    rintro ⟨hlt, -⟩
    exact hwaits hlt

theorem verdict_path (hsm : g.sm = .path) :
  Verdict g.PathAccepted (parse g)
  := by
  obtain ⟨j, hj, hcase⟩ := parsePath_cases g
  have hparse := parseHeader_of_path hsm
  generalize parsePath g = x at hcase hparse
  cases hcase with
  | wait short =>
      have hopen : (g.measured j).sm = .path := hsm
      rw [parse_of_header (by rw [hparse, hopen]; rfl), hparse]
      apply Verdict.wait
      rintro ⟨j', hj', henough, -⟩
      obtain rfl := hj'.unique hj
      omega
  | reject ne sm writes =>
      rw [parse_of_header (by rw [hparse, sm, hsm]; rfl), hparse]
      apply Verdict.reject
      rintro ⟨j', hj', -, hmarker, -⟩
      obtain rfl := hj'.unique hj
      rw [ne] at hmarker
      cases hmarker
  | enter enough marker =>
      rw [parse_of_parseHeader hparse rfl]
      apply (verdict_content rfl).of_iff
      constructor
      · rintro ⟨hlt, hall⟩
        exact ⟨j, hj, enough, marker, hlt, hall⟩
      · rintro ⟨j', hj', -, -, hlt, hall⟩
        obtain rfl := hj'.unique hj
        exact ⟨hlt, hall⟩

theorem verdict_length (hsm : g.sm = .length) :
  Verdict g.LengthAccepted (parse g)
  := by
  obtain ⟨j, hj, ⟨hbehind, heq⟩ | ⟨hle, heq⟩⟩ := parseLength_cases g
  · have hparse : parseHeader g = (0, { g with headerPt := j }) := by
      rw [parseHeader_of_length hsm, heq, if_pos hsm]
    have hopen : ({ g with headerPt := j } : Gfcrequest).sm = .length := hsm
    rw [parse_of_header (by rw [hparse, hopen]; rfl), hparse]
    apply Verdict.wait
    rintro ⟨j', hj', hle, -⟩
    obtain rfl := hj'.unique hj
    omega
  · have hparse : parseHeader g = parseHeader { g with headerPt := j, sm := .path } := by
      rw [parseHeader_of_length hsm, heq, if_neg (by simp), parseHeader_of_path rfl]
    rw [parse_congr hparse]
    apply (verdict_path rfl).of_iff
    constructor
    · intro hpath
      exact ⟨j, hj, hle, hpath⟩
    · rintro ⟨j', hj', -, hpath⟩
      obtain rfl := hj'.unique hj
      exact hpath

theorem parse_of_done (hsm : g.sm = .done) :
  parse g = (1, g)
  := by
  rw [parse, parseHeader_of_afterPath (by rw [hsm]; rfl)]
  simp [atStage, hsm]

/-- The second part of `parse_method` finds a failure, or it changes nothing. -/
theorem parseFailure_eq (hsm : g.sm = .method) :
  g.FailureAccepted ∧ (∃ sm, (sm = .error ∨ sm = .notFound) ∧ parseFailure g = { g with sm := sm }) ∨
    ¬ g.FailureAccepted ∧ parseFailure g = g
  := by
  rw [parseFailure, if_pos hsm, Gfcrequest.FailureAccepted]
  dsimp only
  generalize ((g.rxBytes : ℤ) - g.headerPt).bmod (2 ^ 32) = methodBytes
  have hlong : ((notFoundSz : ℕ) : ℤ) < methodBytes ↔ 14 < methodBytes := Iff.rfl
  have hshort : ((errorSz : ℕ) : ℤ) < methodBytes ↔ 5 < methodBytes := Iff.rfl
  by_cases hmany : 14 < methodBytes
  · left
    refine ⟨Or.inl hmany, ?_⟩
    rw [if_pos (hlong.mpr hmany)]
    split_ifs
    all_goals first
      | exact ⟨.notFound, Or.inr rfl, rfl⟩
      | exact ⟨.error, Or.inl rfl, rfl⟩
  · rw [if_neg (fun h => hmany (hlong.mp h))]
    by_cases herror : 5 < methodBytes ∧ g.buffer.strncmp g.headerPt (ascii "ERROR") = true
    · left
      refine ⟨Or.inr herror, .error, Or.inl rfl, ?_⟩
      rw [if_pos (hshort.mpr herror.1), if_pos herror.2]
    · right
      refine ⟨fun h => h.elim hmany herror, ?_⟩
      split_ifs with hfew hmatch
      · exact absurd ⟨hshort.mp hfew, hmatch⟩ herror
      · rfl
      · rfl

/-- What the second part of `parse_method` leads to, when the first has left `g'`. -/
theorem verdict_failure {g' : Gfcrequest} (hsm : g'.sm = .method)
    (hparse : parseHeader g = if (parseFailure g').sm = .method then (0, parseFailure g')
      else parseHeader (parseFailure g')) :
  Verdict g'.FailureAccepted (parse g)
  := by
  obtain ⟨hyes, sm, rfl | rfl, heq⟩ | ⟨hno, heq⟩ := parseFailure_eq hsm
  · rw [heq, if_neg (by simp)] at hparse
    rw [parse_congr hparse, parse_of_error rfl]
    exact .accept hyes
  · rw [heq, if_neg (by simp)] at hparse
    rw [parse_congr hparse, parse_of_notFound rfl]
    exact .accept hyes
  · rw [heq, if_pos hsm] at hparse
    rw [parse_of_header (by rw [hparse, hsm]; rfl), hparse]
    exact .wait hno

/-- The first part of `parse_method`, when enough bytes have been received. -/
theorem parseOk_eq (henough : 3 < unsignedSub g.rxBytes g.headerPt) :
  parseOk g =
    if word (strtok g.memory space g.next) = some (ascii "OK") then
      (g.resumed (strtok g.memory space g.next)).accepted
    else g.resumed (strtok g.memory space g.next)
  := by
  rw [parseOk, okSz_eq, if_pos henough]
  generalize strtok g.memory space g.next = t
  dsimp only
  cases htoken : t.token with
  | none =>
      rw [if_neg (by simp [word, htoken])]
      rfl
  | some x =>
      obtain ⟨s, e⟩ := x
      have hword : word t = some (t.buffer.slice s (e - s)) := by rw [word, htoken, Option.map_some]
      dsimp only
      by_cases hok : t.buffer.slice s (e - s) = ascii "OK"
      · have hlength := congrArg List.length hok
        rw [Buffer.length_slice] at hlength
        rw [if_pos hok, if_pos (by rw [hword, hok]), hlength]
        rfl
      · rw [if_neg hok, if_neg (by rw [hword, Option.some.injEq]; exact hok)]
        rfl

theorem verdict_method (hsm : g.sm = .method) :
  Verdict g.MethodAccepted (parse g)
  := by
  have hparse := parseHeader_of_method hsm
  rw [parseMethod] at hparse
  rw [Gfcrequest.MethodAccepted]
  by_cases henough : 3 < unsignedSub g.rxBytes g.headerPt
  · rw [if_pos henough]
    rw [parseOk_eq henough] at hparse
    generalize strtok g.memory space g.next = t at hparse
    dsimp only
    by_cases hok : word t = some (ascii "OK")
    · rw [if_pos hok]
      have hfailure : parseFailure (g.resumed t).accepted = (g.resumed t).accepted := by
        rw [parseFailure, if_neg (by simp [Gfcrequest.accepted])]
      rw [if_pos hok, hfailure, if_neg (by simp [Gfcrequest.accepted])] at hparse
      rw [parse_congr hparse]
      exact verdict_length rfl
    · rw [if_neg hok]
      rw [if_neg hok] at hparse
      exact verdict_failure hsm hparse
  · rw [if_neg henough]
    have hwait : parseOk g = g := by
      rw [parseOk, okSz_eq, if_neg henough]
    rw [hwait] at hparse
    exact verdict_failure hsm hparse

/-- What `parse_scheme` does, in terms of the call of `strtok`. -/
theorem parseScheme_eq (g : Gfcrequest) :
  g.rxBytes < 7 ∧ parseScheme g = (0, g) ∨
    (g.buffer.strncmp 0 (ascii "GETFILE") = false ∨ (strtok g.buffer space 0).token = none) ∧
      (∃ g' : Gfcrequest, g'.sm = g.sm ∧ parseScheme g = (-1, g')) ∨
    7 ≤ g.rxBytes ∧ g.buffer.strncmp 0 (ascii "GETFILE") = true ∧
      ∃ s e, (strtok g.buffer space 0).token = some (s, e) ∧
        parseScheme g = (0, { g with buffer := (strtok g.buffer space 0).buffer,
                                     next := (strtok g.buffer space 0).next,
                                     headerPt := (e - s) + 1, sm := .method })
  := by
  have hcall : StrtokCase g.buffer space 0 (strtok g.buffer space 0) :=
    strtok_cases space_ne_zero (Nat.zero_le _)
  have hcmp : (strtok g.buffer space 0).buffer.strncmp 0 (ascii "GETFILE") =
      g.buffer.strncmp 0 (ascii "GETFILE") := strncmp_strtok (by decide) (by decide) hcall
  rw [parseScheme, schemeSz_eq]
  generalize strtok g.buffer space 0 = t at hcmp
  by_cases henough : 7 ≤ g.rxBytes
  · right
    rw [if_pos henough]
    dsimp only
    cases htoken : t.token with
    | none =>
        left
        exact ⟨Or.inr rfl, { g with buffer := t.buffer, next := t.next }, rfl, rfl⟩
    | some x =>
        obtain ⟨s, e⟩ := x
        dsimp only
        cases hmatch : g.buffer.strncmp 0 (ascii "GETFILE") with
        | false =>
            left
            rw [hcmp, hmatch]
            exact ⟨Or.inl rfl, { g with buffer := t.buffer, next := t.next }, rfl, rfl⟩
        | true =>
            right
            rw [hcmp, hmatch]
            exact ⟨henough, rfl, s, e, rfl, rfl⟩
  · left
    rw [if_neg henough]
    exact ⟨by omega, rfl⟩

theorem verdict_scheme (hsm : g.sm = .scheme) :
  Verdict g.SchemeAccepted (parse g)
  := by
  have hparse := parseHeader_of_scheme hsm
  obtain ⟨hfew, heq⟩ | ⟨hno, g', hsm', heq⟩ | ⟨henough, hmatch, s, e, htoken, heq⟩ := parseScheme_eq g
  · rw [heq, if_pos hsm] at hparse
    rw [parse_of_header (by rw [hparse, hsm]; rfl), hparse]
    apply Verdict.wait
    rintro ⟨henough, -⟩
    omega
  · rw [heq, if_pos (hsm'.trans hsm)] at hparse
    rw [parse_of_header (by rw [hparse, hsm', hsm]; rfl), hparse]
    apply Verdict.reject
    rintro ⟨-, hmatch, s, e, htoken, -⟩
    obtain hfalse | hnone := hno
    · rw [hfalse] at hmatch
      cases hmatch
    · rw [hnone] at htoken
      cases htoken
  · rw [heq, if_neg (by simp)] at hparse
    rw [parse_congr hparse]
    apply (verdict_method rfl).of_iff
    constructor
    · intro hmethod
      exact ⟨henough, hmatch, s, e, htoken, hmethod⟩
    · rintro ⟨-, -, s', e', htoken', hmethod⟩
      rw [htoken] at htoken'
      cases htoken'
      exact hmethod

/-- The parsers accept exactly what is accepted. -/
theorem verdict (g : Gfcrequest) :
  Verdict g.Accepted (parse g)
  := by
  rw [Gfcrequest.Accepted]
  cases hsm : g.sm with
  | scheme => exact verdict_scheme hsm
  | method => exact verdict_method hsm
  | length => exact verdict_length hsm
  | path => exact verdict_path hsm
  | content => exact verdict_content hsm
  | error =>
      rw [parse_of_error hsm]
      exact .accept trivial
  | notFound =>
      rw [parse_of_notFound hsm]
      exact .accept trivial
  | done =>
      rw [parse_of_done hsm]
      exact .accept trivial

/-! ### The run -/

/-- A run ends with a negative value exactly when no step accepts. -/
theorem feed_rejects_iff (g : Gfcrequest) (ws : List (List UInt8)) :
  (∃ r g', feed round lastRound g ws = some (r, g') ∧ r < 0) ↔ Always round StepOk g ws
  := by
  induction ws generalizing g with
  | nil =>
      rw [feed_nil, lastRound, Always, StepOk]
      by_cases hwindow : g.InWindow
      · simp [hwindow]
      · simp [hwindow]
  | cons w ws ih =>
      rw [feed_cons, always_cons, round]
      by_cases hwindow : g.InWindow
      · by_cases hrequest : g.requestSize = 0
        · simp [StepOk, hwindow, hrequest]
        · have hstep : StepOk g (w :: ws) ↔ ¬ (g.receive w).Accepted := by
            simp [StepOk, hwindow, hrequest]
          have hverdict := verdict (g.receive w)
          rw [hstep, if_neg (not_not_intro hwindow), if_neg hrequest]
          generalize parse (g.receive w) = x at hverdict
          cases hverdict with
          | accept yes => simp [finish_done, yes]
          | reject no => simp [finish_failed, no]
          | @wait g' no =>
              rw [finish_again, Round.feed_again, Round.always_again, ih]
              exact ⟨fun h => ⟨no, h⟩, And.right⟩
      · simp [StepOk, hwindow]

/-- For every stream and all reads that deliver it: a value that is not negative is returned only
if the stream begins with a valid header, and a negative one for every other stream, if and only
if the stream begins with a valid header or no step accepts it. -/
theorem rejectsInvalid_iff (headerCallback : Bool) (next : ℕ) (ws : List (List UInt8)) :
  RejectsInvalid ws.flatten (processResponse (gfcCreate headerCallback next) ws) ↔
    ValidHeader ws.flatten ∨ Always round StepOk (gfcCreate headerCallback next) ws
  := by
  rw [processResponse_create, ← feed_rejects_iff]
  generalize feed round lastRound (gfcCreate headerCallback next) ws = result
  constructor
  · intro h
    by_cases hvalid : ValidHeader ws.flatten
    · left
      exact hvalid
    · right
      exact h.invalid hvalid
  · rintro (hvalid | ⟨r, g, hresult, hneg⟩)
    · exact ⟨fun _ _ _ _ => hvalid, fun h => absurd hvalid h⟩
    · constructor
      · intro r' g' hresult' hnonneg
        rw [hresult] at hresult'
        cases hresult'
        omega
      · intro _
        exact ⟨r, g, hresult, hneg⟩

end

/-- A longer word than the scheme is accepted, and the exchange is reported as successful. -/
theorem not_rejectsInvalid :
  Reads (gfcCreate false 0) [ascii "GETFILEX ERROR 0\r\n\r\n"] ∧
    ¬ RejectsInvalid [ascii "GETFILEX ERROR 0\r\n\r\n"].flatten
      (processResponse (gfcCreate false 0) [ascii "GETFILEX ERROR 0\r\n\r\n"])
  := by
  refine ⟨reads_create (by decide) (by decide) false 0, fun h => ?_⟩
  have hvalue : (processResponse (gfcCreate false 0) [ascii "GETFILEX ERROR 0\r\n\r\n"]).map
      Prod.fst = some 0 := by decide +kernel
  obtain ⟨⟨r, g⟩, hresult, rfl⟩ := Option.map_eq_some_iff.mp hvalue
  have hscheme := (h.valid _ _ hresult le_rfl).beginsScheme 7 (by decide)
  revert hscheme
  decide

end GetFile.Client
