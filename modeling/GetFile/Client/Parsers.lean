import GetFile.Client.Request

/-!
# Client: what the parsers can do

One round of `process_response` calls the parsers in the order of the stages. The lemmas
`parseHeader_of_scheme` to `parse_of_notFound` follow this chain from each stage, and the families
`SchemeCase`, `OkCase`, `FailureCase` and `PathCase` list everything that a parser can do.
-/

namespace GetFile.Client

open CString Transition

/-! ### The chain of the parsers -/

/-- Past the stage of the path, no parser of the header is called. -/
theorem parseHeader_of_afterPath {g : Gfcrequest} (h : g.sm.afterPath = true) :
  parseHeader g = (0, g)
  := by
  cases hsm : g.sm with
  | scheme | method | length | path =>
      rw [hsm] at h
      cases h
  | content | error | notFound | done => simp [parseHeader, atStage, hsm]

/-- While the header is not complete, the later parsers are not called. -/
theorem parse_of_header {g : Gfcrequest} (h : (parseHeader g).2.sm.afterPath = false) :
  parse g = parseHeader g
  := by
  rw [parse]
  cases hsm : (parseHeader g).2.sm with
  | scheme | method | length | path => simp [atStage, hsm]
  | content | error | notFound | done =>
      rw [hsm] at h
      cases h

/-- Past the stage of the path, the later parsers follow. -/
theorem parse_of_parseHeader {g g' : Gfcrequest} (h : parseHeader g = (0, g'))
    (hsm : g'.sm.afterPath = true) :
  parse g = parse g'
  := by
  rw [parse, parse, h, parseHeader_of_afterPath hsm]

theorem parse_of_error {g : Gfcrequest} (h : g.sm = .error) :
  parse g = (1, { g with status := .error })
  := by
  rw [parse, parseHeader_of_afterPath (by rw [h]; rfl)]
  simp [atStage, h]

theorem parse_of_notFound {g : Gfcrequest} (h : g.sm = .notFound) :
  parse g = (1, { g with status := .fileNotFound })
  := by
  rw [parse, parseHeader_of_afterPath (by rw [h]; rfl)]
  simp [atStage, h]

/-- The reset changes nothing, or the two fields that it sets. -/
theorem rewind_cases (g : Gfcrequest) :
  g.contentPt ≠ rdBufSize ∧ g.rewind = g ∨
    g.contentPt = rdBufSize ∧ g.rewind = { g with contentPt := 0, rxBytes := 0 }
  := by
  rw [Gfcrequest.rewind]
  split
  · rename_i h
    right
    exact ⟨h, rfl⟩
  · rename_i h
    left
    exact ⟨h, rfl⟩

/-- The reset sets two fields only. -/
theorem rewind_eq (g : Gfcrequest) :
  g.rewind = { g with contentPt := g.rewind.contentPt, rxBytes := g.rewind.rxBytes }
  := by
  rcases rewind_cases g with ⟨-, heq⟩ | ⟨-, heq⟩
  · rw [heq]
  · rw [heq]

@[simp]
theorem rewind_sm (g : Gfcrequest) :
  g.rewind.sm = g.sm
  := by rw [rewind_eq]

@[simp]
theorem rewind_status (g : Gfcrequest) :
  g.rewind.status = g.status
  := by rw [rewind_eq]

@[simp]
theorem rewind_fileLength (g : Gfcrequest) :
  g.rewind.fileLength = g.fileLength
  := by rw [rewind_eq]

@[simp]
theorem rewind_bytesWritten (g : Gfcrequest) :
  g.rewind.bytesWritten = g.bytesWritten
  := by rw [rewind_eq]

@[simp]
theorem rewind_totalRxBytes (g : Gfcrequest) :
  g.rewind.totalRxBytes = g.totalRxBytes
  := by rw [rewind_eq]

@[simp]
theorem rewind_writes (g : Gfcrequest) :
  g.rewind.writes = g.writes
  := by rw [rewind_eq]

@[simp]
theorem rewind_headers (g : Gfcrequest) :
  g.rewind.headers = g.headers
  := by rw [rewind_eq]

@[simp]
theorem rewind_written (g : Gfcrequest) :
  g.rewind.written = g.written
  := by rw [Gfcrequest.written, rewind_writes, Gfcrequest.written]

/-- When nothing waits, nothing waits after the reset. -/
theorem rewind_contentPt {g : Gfcrequest} (h : g.contentPt = g.rxBytes) :
  g.rewind.contentPt = g.rewind.rxBytes
  := by
  rcases rewind_cases g with ⟨-, heq⟩ | ⟨-, heq⟩
  · rw [heq]
    apply h
  · rw [heq]

/-- The reset does not move the end of the bytes received forwards. -/
theorem rewind_rxBytes_le (g : Gfcrequest) :
  g.rewind.rxBytes ≤ g.rxBytes
  := by
  rcases rewind_cases g with ⟨-, heq⟩ | ⟨-, heq⟩
  · rw [heq]
  · rw [heq]
    apply Nat.zero_le

/-- What waits is handed over behind the bytes written before. -/
theorem handOver_written (g : Gfcrequest) :
  g.handOver.written = g.written ++ g.waiting
  := by simp [Gfcrequest.written, Gfcrequest.handOver]

/-- `parse_content` stays in its stage or ends the transfer. -/
theorem parseContent_sm {g : Gfcrequest} (h : g.sm = .content) :
  (parseContent g).sm = .content ∨ (parseContent g).sm = .done
  := by
  rw [parseContent]
  split
  · dsimp only
    split
    · right
      rfl
    · left
      rw [rewind_sm]
      apply h
  · left
    apply h

/-- `parse_content` leaves the status as it is. -/
theorem parseContent_status (g : Gfcrequest) :
  (parseContent g).status = g.status
  := by
  rw [parseContent]
  split
  · dsimp only
    split
    · apply rewind_status
    · apply rewind_status
  · rfl

/-- `parse_content` does not change the length announced and the number of bytes read. -/
theorem parseContent_counts (g : Gfcrequest) :
  (parseContent g).fileLength = g.fileLength ∧ (parseContent g).totalRxBytes = g.totalRxBytes
  := by
  have hkept : g.handOver.rewind.fileLength = g.fileLength ∧
      g.handOver.rewind.totalRxBytes = g.totalRxBytes :=
    ⟨rewind_fileLength _, rewind_totalRxBytes _⟩
  rw [parseContent]
  split
  · dsimp only
    split
    · apply hkept
    · apply hkept
  · exact ⟨rfl, rfl⟩

theorem parse_of_content {g : Gfcrequest} (h : g.sm = .content) :
  parse g = (if (parseContent g).sm = .done then 1 else 0, parseContent g)
  := by
  rw [parse, parseHeader_of_afterPath (by rw [h]; rfl)]
  rcases parseContent_sm h with hsm | hsm
  · simp [atStage, h, hsm]
  · simp [atStage, h, hsm]

theorem parseHeader_of_path {g : Gfcrequest} (h : g.sm = .path) :
  parseHeader g = parsePath g
  := by simp [parseHeader, atStage, h]

/-- `parse_length` stays in its stage or enters that of the path. -/
theorem parseLength_sm {g : Gfcrequest} (h : g.sm = .length) :
  (parseLength g).sm = .length ∨ (parseLength g).sm = .path
  := by
  simp only [parseLength]
  split_ifs
  all_goals simp [h]

theorem parseHeader_of_length {g : Gfcrequest} (h : g.sm = .length) :
  parseHeader g = if (parseLength g).sm = .length then (0, parseLength g)
    else parsePath (parseLength g)
  := by
  rcases parseLength_sm h with hsm | hsm
  · rw [if_pos hsm]
    simp [parseHeader, atStage, h, hsm]
  · rw [if_neg (by rw [hsm]; decide)]
    simp [parseHeader, atStage, h, hsm]

/-- The first part of `parse_method` stays in its stage or enters that of the length. -/
theorem parseOk_sm (g : Gfcrequest) :
  (parseOk g).sm = g.sm ∨ (parseOk g).sm = .length
  := by
  rw [parseOk]
  split
  · dsimp only
    split
    · left
      rfl
    · split
      · right
        rfl
      · left
        rfl
  · left
    rfl

/-- The second part of `parse_method` keeps the stage or ends with a failure. -/
theorem parseFailure_sm (g : Gfcrequest) :
  (parseFailure g).sm = g.sm ∨ (parseFailure g).sm = .error ∨ (parseFailure g).sm = .notFound
  := by
  simp only [parseFailure]
  split_ifs
  all_goals simp

/-- `parse_method` stays in its stage, enters that of the length, or ends with a failure. -/
theorem parseMethod_sm {g : Gfcrequest} (h : g.sm = .method) :
  (parseMethod g).sm = .method ∨ (parseMethod g).sm = .length ∨
    (parseMethod g).sm = .error ∨ (parseMethod g).sm = .notFound
  := by
  rw [parseMethod]
  rcases parseOk_sm g with hok | hok
  · rcases parseFailure_sm (parseOk g) with hfail | hfail | hfail
    · left
      rw [hfail, hok, h]
    · right
      right
      left
      apply hfail
    · right
      right
      right
      apply hfail
  · right
    left
    rw [parseFailure, if_neg (by rw [hok]; decide)]
    apply hok

theorem parseHeader_of_method {g : Gfcrequest} (h : g.sm = .method) :
  parseHeader g = if (parseMethod g).sm = .method then (0, parseMethod g)
    else parseHeader (parseMethod g)
  := by
  have hcases := parseMethod_sm h
  generalize hg : parseMethod g = g' at hcases ⊢
  rcases hcases with hsm | hsm | hsm | hsm
  · rw [if_pos hsm]
    simp [parseHeader, atStage, h, hg, hsm]
  · rw [if_neg (by rw [hsm]; decide)]
    simp [parseHeader, atStage, h, hg, hsm]
  · rw [if_neg (by rw [hsm]; decide)]
    simp [parseHeader, atStage, h, hg, hsm]
  · rw [if_neg (by rw [hsm]; decide)]
    simp [parseHeader, atStage, h, hg, hsm]

/-- `parse_scheme` stays in its stage or enters that of the method. -/
theorem parseScheme_sm {g : Gfcrequest} (h : g.sm = .scheme) :
  (parseScheme g).2.sm = .scheme ∨ (parseScheme g).1 = 0 ∧ (parseScheme g).2.sm = .method
  := by
  simp only [parseScheme]
  split
  · split
    · left
      apply h
    · split
      · right
        exact ⟨rfl, rfl⟩
      · left
        apply h
  · left
    apply h

theorem parseHeader_of_scheme {g : Gfcrequest} (h : g.sm = .scheme) :
  parseHeader g = if (parseScheme g).2.sm = .scheme then parseScheme g
    else parseHeader (parseScheme g).2
  := by
  rcases parseScheme_sm h with hsm | ⟨hr, hsm⟩
  · rw [if_pos hsm]
    simp [parseHeader, atStage, h, hsm]
  · rw [if_neg (by rw [hsm]; decide)]
    simp [parseHeader, atStage, h, hsm, hr]

/-! ### The field behind the buffer -/

section

variable {g : Gfcrequest}

theorem memory_byte {i : ℕ} (h : i < rdBufSize) :
  g.memory.byte i = g.buffer.byte i
  := if_pos h

/-- The bytes of the field, the low one first. -/
theorem memory_byte_field {i : ℕ} (h : i < 4) :
  g.memory.byte (rdBufSize + i) = (g.headerPt / 256 ^ i).toUInt8
  := by
  have hlow : ¬ rdBufSize + i < rdBufSize := by omega
  have hhigh : rdBufSize + i < rdBufSize + 4 := by omega
  simp only [Gfcrequest.memory, hlow, hhigh, ↓reduceIte, Nat.add_sub_cancel_left]

theorem setMemory_byte {b : Buffer (rdBufSize + 4)} {i : ℕ} (h : i < rdBufSize) :
  (g.setMemory b).buffer.byte i = b.byte i
  := if_pos h

/-- A number below `2 ^ 32` is the sum of its bytes. -/
theorem sum_bytes {n : ℕ} (h : n < 2 ^ 32) :
  (n / 256 ^ 0).toUInt8.toNat + (n / 256 ^ 1).toUInt8.toNat * 256
    + (n / 256 ^ 2).toUInt8.toNat * 256 ^ 2 + (n / 256 ^ 3).toUInt8.toNat * 256 ^ 3 = n
  := by
  simp only [Nat.toUInt8, UInt8.toNat_ofNat']
  omega

/-- Where the four bytes behind the array have only been overwritten by terminators, the field
has not grown. -/
theorem headerPt_setMemory_le {b : Buffer (rdBufSize + 4)} (h : g.headerPt < 2 ^ 32)
    (hb : ∀ i, b.byte i = g.memory.byte i ∨ b.byte i = 0) :
  (g.setMemory b).headerPt ≤ g.headerPt
  := by
  have hle : ∀ i < 4, (b.byte (rdBufSize + i)).toNat ≤ (g.headerPt / 256 ^ i).toUInt8.toNat := by
    intro i hi
    rcases hb (rdBufSize + i) with heq | hzero
    · rw [heq, memory_byte_field hi]
    · rw [hzero]
      apply Nat.zero_le
  calc (g.setMemory b).headerPt
      = (b.byte (rdBufSize + 0)).toNat + (b.byte (rdBufSize + 1)).toNat * 256
        + (b.byte (rdBufSize + 2)).toNat * 256 ^ 2
        + (b.byte (rdBufSize + 3)).toNat * 256 ^ 3 := rfl
    _ ≤ (g.headerPt / 256 ^ 0).toUInt8.toNat + (g.headerPt / 256 ^ 1).toUInt8.toNat * 256
        + (g.headerPt / 256 ^ 2).toUInt8.toNat * 256 ^ 2
        + (g.headerPt / 256 ^ 3).toUInt8.toNat * 256 ^ 3 := by
      have h0 := hle 0 (by decide)
      have h1 := hle 1 (by decide)
      have h2 := hle 2 (by decide)
      have h3 := hle 3 (by decide)
      omega
    _ = g.headerPt := sum_bytes h

/-- Where the four bytes behind the array have not been changed, neither has the field. -/
theorem headerPt_setMemory {b : Buffer (rdBufSize + 4)} (h : g.headerPt < 2 ^ 32)
    (hb : ∀ i < 4, b.byte (rdBufSize + i) = g.memory.byte (rdBufSize + i)) :
  (g.setMemory b).headerPt = g.headerPt
  := by
  calc (g.setMemory b).headerPt
      = (b.byte (rdBufSize + 0)).toNat + (b.byte (rdBufSize + 1)).toNat * 256
        + (b.byte (rdBufSize + 2)).toNat * 256 ^ 2
        + (b.byte (rdBufSize + 3)).toNat * 256 ^ 3 := rfl
    _ = (g.headerPt / 256 ^ 0).toUInt8.toNat + (g.headerPt / 256 ^ 1).toUInt8.toNat * 256
        + (g.headerPt / 256 ^ 2).toUInt8.toNat * 256 ^ 2
        + (g.headerPt / 256 ^ 3).toUInt8.toNat * 256 ^ 3 := by
      rw [hb 0 (by decide), hb 1 (by decide), hb 2 (by decide), hb 3 (by decide),
        memory_byte_field (by decide), memory_byte_field (by decide),
        memory_byte_field (by decide), memory_byte_field (by decide)]
    _ = g.headerPt := sum_bytes h

/-- A terminator inside the buffer leaves the field behind it. -/
theorem headerPt_setMemory_terminate {e : ℕ} (h : g.headerPt < 2 ^ 32) (he : e < rdBufSize) :
  (g.setMemory (g.memory.terminate e)).headerPt = g.headerPt
  := by
  apply headerPt_setMemory h
  intro i _
  apply Buffer.terminate_byte_of_ne
  omega

/-- It is a terminator in the buffer. -/
theorem setMemory_terminate_byte (e i : ℕ) :
  (g.setMemory (g.memory.terminate e)).buffer.byte i = (g.buffer.terminate e).byte i
  := by
  by_cases hi : i < rdBufSize
  · rw [setMemory_byte hi]
    by_cases hie : i = e
    · rw [hie, Buffer.terminate_byte_self, Buffer.terminate_byte_self]
    · rw [Buffer.terminate_byte_of_ne _ hie, Buffer.terminate_byte_of_ne _ hie, memory_byte hi]
  · rw [Buffer.zero_of_le _ _ (by omega), Buffer.zero_of_le _ _ (by omega)]

end

/-! ### What each parser can do -/

/-- What `parse_scheme` can do: wait for seven bytes, reject, or accept a first word that
begins with `GETFILE`. -/
inductive SchemeCase (g : Gfcrequest) : ℤ × Gfcrequest → Prop where
  | wait (short : g.rxBytes < 7) : SchemeCase g (0, g)
  | reject {g' : Gfcrequest} (enough : 7 ≤ g.rxBytes)
      (ne : g.buffer.strncmp 0 (ascii "GETFILE") = false) (sm : g'.sm = g.sm)
      (writes : g'.writes = g.writes) : SchemeCase g (-1, g')
  | accept {t : Tokenized rdBufSize} {e : ℕ} (enough : 7 ≤ g.rxBytes)
      (eq : g.buffer.strncmp 0 (ascii "GETFILE") = true)
      (token : t.token = some (0, e)) (call : StrtokCase g.buffer space 0 t) :
      SchemeCase g
        (0, { g with buffer := t.buffer, next := t.next, headerPt := e + 1, sm := .method })

theorem parseScheme_cases (g : Gfcrequest) :
  SchemeCase g (parseScheme g)
  := by
  have hcases := strtok_cases (b := g.buffer) (i := 0) space_ne_zero (Nat.zero_le _)
  have hspace : space ∉ ascii "GETFILE" := by decide
  have hcmp := strncmp_strtok hspace (by decide) hcases
  rw [parseScheme]
  split
  · rename_i henough
    generalize strtok g.buffer space 0 = t at hcases hcmp
    -- a buffer that begins with `GETFILE` has its first token at index 0
    have hskip : g.buffer.strncmp 0 (ascii "GETFILE") = true →
        ∀ s, SkipsTo g.buffer space 0 s → s = 0 := by
      intro hmatch s hs
      have hG := Buffer.strncmp_iff.mp hmatch 0 (by decide)
      apply SkipsTo.unique hs (SkipsTo.refl _)
      rw [← Nat.zero_add 0, hG]
      decide
    dsimp only
    split
    · rename_i hnone
      refine SchemeCase.reject henough ?_ rfl rfl
      rw [Bool.eq_false_iff]
      intro hmatch
      have hG := Buffer.strncmp_iff.mp hmatch 0 (by decide)
      cases hcases with
      | none skips zero bound =>
          rw [hskip hmatch _ skips] at zero
          rw [Nat.zero_add, zero] at hG
          revert hG
          decide
      | last => cases hnone
      | cut => cases hnone
    · rename_i s e hsome
      rw [hcmp]
      split
      · rename_i hmatch
        obtain ⟨skips, -, -, -, -⟩ := hcases.range hsome
        obtain rfl := hskip hmatch s skips
        apply SchemeCase.accept henough hmatch hsome hcases
      · rename_i hmatch
        refine SchemeCase.reject henough ?_ rfl rfl
        simpa using hmatch
  · rename_i hshort
    apply SchemeCase.wait
    simpa using hshort

/-- The request after `strtok` returned `t` in `parse_method`. -/
def Gfcrequest.resumed (g : Gfcrequest) (t : Tokenized (rdBufSize + 4)) : Gfcrequest :=
  { g.setMemory t.buffer with next := t.next }

/-- The request after `parse_method` has accepted the status `OK`. -/
def Gfcrequest.accepted (g : Gfcrequest) : Gfcrequest :=
  { g with headerPt := g.headerPt + 3, sm := .length, lengthStartIdx := g.headerPt + 3,
           status := .ok }

/-- What the first part of `parse_method` can do: wait for four bytes behind `header_pt`, go
on after another word or none, or accept the word `OK`. -/
inductive OkCase (g : Gfcrequest) : Gfcrequest → Prop where
  | wait (short : unsignedSub g.rxBytes g.headerPt ≤ 3) : OkCase g g
  | other {t : Tokenized (rdBufSize + 4)} (call : StrtokCase g.memory space g.next t) :
      OkCase g (g.resumed t)
  | accept {t : Tokenized (rdBufSize + 4)} {s : ℕ}
      (enough : 3 < unsignedSub g.rxBytes g.headerPt)
      (call : StrtokCase g.memory space g.next t) (token : t.token = some (s, s + 2))
      (ok : g.memory.slice s 2 = ascii "OK") : OkCase g (g.resumed t).accepted

theorem parseOk_cases {g : Gfcrequest} (hnext : g.next ≤ rdBufSize + 4) :
  OkCase g (parseOk g)
  := by
  have hcases := strtok_cases (b := g.memory) space_ne_zero hnext
  rw [parseOk]
  split
  · rename_i henough
    generalize strtok g.memory space g.next = t at hcases
    dsimp only
    split
    · apply OkCase.other hcases
    · rename_i s e hsome
      rw [slice_strtok hcases hsome]
      split
      · rename_i hok
        have hlen := congrArg List.length hok
        rw [Buffer.length_slice] at hlen
        have hlen : e - s = 2 := hlen
        have he : e = s + 2 := by omega
        subst he
        rw [hlen] at hok ⊢
        apply OkCase.accept henough hcases hsome hok
      · apply OkCase.other hcases
  · rename_i hshort
    apply OkCase.wait
    simpa using hshort

/-- What the second part of `parse_method` can do: nothing, or end with a failure. -/
inductive FailureCase (g : Gfcrequest) : Gfcrequest → Prop where
  | wait (few : ((g.rxBytes : ℤ) - g.headerPt).bmod (2 ^ 32) ≤ 14) : FailureCase g g
  | failed {sm : StateMachine} (failure : sm = .error ∨ sm = .notFound) :
      FailureCase g { g with sm := sm }

theorem parseFailure_cases {g : Gfcrequest} (h : g.sm = .method) :
  FailureCase g (parseFailure g)
  := by
  rw [parseFailure, if_pos h]
  dsimp only
  split_ifs with herror hmatch hmany hfound
  all_goals first
    | exact FailureCase.failed (Or.inl rfl)
    | exact FailureCase.failed (Or.inr rfl)
    | exact FailureCase.wait (not_lt.mp ‹_›)

/-- Where `parse_length` stops: at the first byte that is no digit, or behind the byte at
`rx_bytes`. -/
def Gfcrequest.DigitsTo (g : Gfcrequest) (j : ℕ) : Prop :=
  Stops isDigit g.buffer.byte (g.rxBytes + 1 - g.headerPt) g.headerPt j

theorem parseLength_cases (g : Gfcrequest) :
  ∃ j, g.DigitsTo j ∧
    (g.rxBytes < j ∧ parseLength g = { g with headerPt := j } ∨
      j ≤ g.rxBytes ∧ parseLength g = { g with headerPt := j, sm := .path })
  := by
  refine ⟨_, scan_spec _ _, ?_⟩
  rw [parseLength]
  split
  · rename_i hbehind
    left
    exact ⟨hbehind, rfl⟩
  · rename_i hbehind
    right
    exact ⟨not_lt.mp hbehind, rfl⟩

/-- The number that `parse_path` reads. -/
def Gfcrequest.lengthRead (g : Gfcrequest) : ℕ :=
  (atoi (g.buffer.strndup g.lengthStartIdx (g.headerPt - g.lengthStartIdx)) % 2 ^ 32).toNat

/-- The request after `parse_path` has read the number and skipped spaces up to `j`. -/
def Gfcrequest.measured (g : Gfcrequest) (j : ℕ) : Gfcrequest :=
  { g with fileLength := g.lengthRead, fileLengthValid := true, headerPt := j }

/-- The request after `parse_path` has found the end marker at `header_pt`. -/
def Gfcrequest.entered (g : Gfcrequest) : Gfcrequest :=
  { g with headerPt := g.headerPt + endSeq, sm := .content,
           totalRxBytes := unsignedSub g.totalRxBytes (g.headerPt + endSeq),
           contentPt := g.headerPt + endSeq,
           headers :=
             if g.headerCallback then g.headers ++ [g.buffer.slice 0 (g.headerPt + endSeq)]
             else g.headers }

/-- Where `parse_path` stops skipping spaces. -/
def Gfcrequest.SpacesTo (g : Gfcrequest) (j : ℕ) : Prop :=
  Stops (fun c => c == space) g.buffer.byte (rdBufSize - g.headerPt) g.headerPt j

/-- What `parse_path` can do behind the number and the spaces: wait for four bytes, reject,
or accept the end marker. -/
inductive PathCase (g : Gfcrequest) (j : ℕ) : ℤ × Gfcrequest → Prop where
  | wait (short : unsignedSub g.rxBytes j < 4) : PathCase g j (0, g.measured j)
  | reject {g' : Gfcrequest} (ne : g.buffer.strncmp j (ascii "\r\n\r\n") = false)
      (sm : g'.sm = g.sm) (writes : g'.writes = g.writes) : PathCase g j (-1, g')
  | enter (enough : 4 ≤ unsignedSub g.rxBytes j)
      (marker : g.buffer.strncmp j (ascii "\r\n\r\n") = true) :
      PathCase g j (0, (g.measured j).entered)

theorem parsePath_cases (g : Gfcrequest) :
  ∃ j, g.SpacesTo j ∧ PathCase g j (parsePath g)
  := by
  refine ⟨_, scan_spec _ _, ?_⟩
  rw [parsePath]
  dsimp only
  generalize scan (fun c => c == space) g.buffer.byte (rdBufSize - g.headerPt) g.headerPt = j
  split
  · rename_i henough
    split
    · rename_i hmarker
      have henter := PathCase.enter henough hmarker
      cases hcallback : g.headerCallback with
      | true =>
          simpa [Gfcrequest.entered, Gfcrequest.measured, Gfcrequest.lengthRead, hcallback]
            using henter
      | false =>
          simpa [Gfcrequest.entered, Gfcrequest.measured, Gfcrequest.lengthRead, hcallback]
            using henter
    · rename_i hmarker
      refine PathCase.reject ?_ rfl rfl
      simpa using hmarker
  · rename_i hshort
    apply PathCase.wait
    simpa using hshort

/-! ### The end of a round -/

theorem finish_again {g : Gfcrequest} :
  finish (0, g) = .again g
  := rfl

theorem finish_done {g : Gfcrequest} :
  finish (1, g) = .leave (some (0, g))
  := rfl

theorem finish_failed {g : Gfcrequest} :
  finish (-1, g) = .leave (some (-1, g))
  := rfl

/-- `parse_content` turns `g` into `g'`: what waited has been handed over, and the rest of the
request stays. -/
structure Handed (g g' : Gfcrequest) : Prop where
  status : g'.status = g.status
  fileLength : g'.fileLength = g.fileLength
  headers : g'.headers = g.headers
  written : g'.written = g.written ++ g.waiting

/-- As many bytes have been handed over as waited. -/
theorem Handed.length {g g' : Gfcrequest} (h : Handed g g') :
  g'.written.length = g.written.length + (g.rxBytes - g.contentPt)
  := by
  rw [h.written, List.length_append, Gfcrequest.waiting, Buffer.length_slice]

/-- The end of a round in the stage of the content: the loop goes on with nothing waiting, or
the transfer is done. -/
theorem finish_of_content {g : Gfcrequest} (hsm : g.sm = .content) (hle : g.contentPt ≤ g.rxBytes) :
  ∃ g', Handed g g' ∧
    (finish (parse g) = .again g' ∧ g'.sm = .content ∧ g'.contentPt = g'.rxBytes ∨
      finish (parse g) = .leave (some (0, g')) ∧ g'.sm = .done ∧ g'.fileLength ≤ g'.bytesWritten)
  := by
  rw [parse_of_content hsm]
  rcases Nat.eq_or_lt_of_le hle with heq | hlt
  · have hidle : parseContent g = g := by
      rw [parseContent, if_neg (by omega)]
    rw [hidle, if_neg (by rw [hsm]; decide)]
    refine ⟨g, ⟨rfl, rfl, rfl, ?_⟩, Or.inl ⟨finish_again, hsm, heq⟩⟩
    rw [Gfcrequest.waiting, heq, Nat.sub_self]
    simp [Buffer.slice]
  · have hhanded : Handed g g.handOver.rewind := by
      refine ⟨rewind_status _, rewind_fileLength _, rewind_headers _, ?_⟩
      rw [rewind_written, handOver_written]
    have hsm' : g.handOver.rewind.sm = .content := (rewind_sm _).trans hsm
    have hpt : g.handOver.rewind.contentPt = g.handOver.rewind.rxBytes := by
      apply rewind_contentPt
      simp only [Gfcrequest.handOver]
      omega
    rw [parseContent, if_pos hlt]
    generalize g.handOver.rewind = g' at hhanded hsm' hpt
    dsimp only
    by_cases hdone : g'.fileLength ≤ g'.bytesWritten
    · rw [if_pos hdone, if_pos rfl]
      refine ⟨{ g' with sm := .done }, ?_, Or.inr ⟨finish_done, rfl, hdone⟩⟩
      exact ⟨hhanded.status, hhanded.fileLength, hhanded.headers, hhanded.written⟩
    · rw [if_neg hdone, if_neg (by rw [hsm']; decide)]
      exact ⟨g', hhanded, Or.inl ⟨finish_again, hsm', hpt⟩⟩

/-- A round whose read is asked for bytes inside the buffer. -/
theorem round_eq {g : Gfcrequest} (hwindow : g.InWindow) (hpos : 0 < g.requestSize)
    (w : List UInt8) :
  round g w = finish (parse (g.receive w))
  := by
  rw [round, if_neg (not_not_intro hwindow), if_neg (by omega)]

/-- Up to the stage of the content, each read is asked to fill the buffer. -/
theorem window_of_header {g : Gfcrequest} (hsm : g.sm.afterPath = false) (hpt : g.contentPt = 0) :
  g.requestSize = 8192 ∧ g.InWindow
  := by
  have hrequest : g.requestSize = 8192 := by
    simp only [Gfcrequest.requestSize, hsm, hpt, rdBufSize_eq]
    rfl
  refine ⟨hrequest, ?_, ?_, ?_⟩
  · omega
  · omega
  · rw [hrequest, hpt, rdBufSize_eq]
    decide

/-- A fresh request may read any bytes that fit into the buffer, and then none. -/
theorem reads_create {w : List UInt8} (hw : w ≠ []) (hlen : w.length ≤ rdBufSize)
    (headerCallback : Bool) (next : ℕ) :
  Reads (gfcCreate headerCallback next) [w]
  := by
  rw [Reads, always_cons]
  constructor
  · rintro w' ⟨⟩ -
    have hrequest : (gfcCreate headerCallback next).requestSize = 8192 :=
      (window_of_header rfl rfl).1
    rw [rdBufSize_eq] at hlen
    rw [hrequest]
    exact ⟨hw, by omega⟩
  · cases round (gfcCreate headerCallback next) w with
    | again g =>
        rw [Round.always_again]
        rintro w' ⟨⟩
    | leave b => apply Round.always_leave

/-- A fresh request has a write callback, so that `process_response` reads. -/
theorem processResponse_create (headerCallback : Bool) (next : ℕ) (ws : List (List UInt8)) :
  processResponse (gfcCreate headerCallback next) ws =
    feed round lastRound (gfcCreate headerCallback next) ws
  := by
  have hcallback : (gfcCreate headerCallback next).writeCallback = true := rfl
  rw [processResponse, if_neg (not_not_intro hcallback)]

end GetFile.Client
