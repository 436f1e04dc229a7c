import GetFile.Client.Parsers

/-!
# Client: the stages of the header

Up to the stage of the content every read lands at the start of the buffer, and `rx_bytes`
counts the bytes of all reads. `Head` lists the states in which `process_response` waits for
more of the header, and `HeaderOutcome` what a further read can lead to. In the stage of the
content, `header_pt` is at most `rx_bytes` (`Entered`).
-/

namespace GetFile.Client

open CString Transition

/-- Nothing has been handed over, every read has landed at the start of the buffer, and the
buffer is clear behind as many bytes as have been received. -/
structure Early (g : Gfcrequest) : Prop where
  contentPt : g.contentPt = 0
  total : g.totalRxBytes = g.rxBytes
  small : g.rxBytes ≤ 3 * rdBufSize
  bytesWritten : g.bytesWritten = 0
  writes : g.writes = []
  clear : ∀ i, g.rxBytes ≤ i → g.buffer.byte i = 0

/-- The states in which `process_response` waits for more of the header. -/
inductive Head (g : Gfcrequest) : Prop where
  | scheme (early : Early g) (sm : g.sm = .scheme) (few : g.rxBytes < 7)
  | method (early : Early g) (sm : g.sm = .method) (pt : g.headerPt ≤ rdBufSize + 1)
      (low : g.headerPt ≤ g.rxBytes + 1) (high : g.rxBytes ≤ g.headerPt + 14)
      (next : g.next ≤ rdBufSize + 4)
  | path (early : Early g) (sm : g.sm = .path) (pt : g.headerPt ≤ rdBufSize + 4)
      (low : g.headerPt ≤ g.rxBytes) (high : g.rxBytes ≤ g.headerPt + 3)
      (start : g.lengthStartIdx ≤ g.headerPt)

/-- The scheme had seven bytes, so that the status begins at index 8 and the length at
index 11. -/
def Anchored (g : Gfcrequest) : Prop :=
  g.sm = .method ∧ g.headerPt = 8 ∨
    (g.sm = .length ∨ g.sm = .path ∨ g.sm = .content) ∧ g.lengthStartIdx = 11

/-- The parsers turn `g` into `g'` without counting or handing over bytes, and they change the
buffer by terminators only. -/
structure Kept (g g' : Gfcrequest) : Prop where
  contentPt : g'.contentPt = g.contentPt
  total : g'.totalRxBytes = g.totalRxBytes
  rxBytes : g'.rxBytes = g.rxBytes
  bytesWritten : g'.bytesWritten = g.bytesWritten
  writes : g'.writes = g.writes
  byte : ∀ i, g'.buffer.byte i = g.buffer.byte i ∨ g'.buffer.byte i = 0
  anchored : Anchored g → Anchored g'
  path : g.sm = .path → g'.sm = .path ∧ g.headerPt ≤ g'.headerPt

/-- The parsers have taken the header apart and turned `g` into `g'`, in which the body begins
behind the end marker. -/
structure Entered (g g' : Gfcrequest) : Prop where
  sm : g'.sm = .content
  rxBytes : g'.rxBytes = g.rxBytes
  total : g'.totalRxBytes = g.rxBytes - g'.contentPt
  bytesWritten : g'.bytesWritten = 0
  writes : g'.writes = []
  low : 4 ≤ g'.contentPt
  contentPt_le : g'.contentPt ≤ g.rxBytes
  room : g'.contentPt ≤ rdBufSize
  byte : ∀ i, g'.buffer.byte i = g.buffer.byte i ∨ g'.buffer.byte i = 0
  marker : g'.buffer.byte (g'.contentPt - 1) = lf
  anchored : Anchored g → Anchored g'
  path : g.sm = .path → g.headerPt + 4 ≤ g'.contentPt
  length : ∃ l : List UInt8, g'.fileLength = (atoi l % 2 ^ 32).toNat ∧
    g'.lengthStartIdx + l.length + 4 ≤ g'.contentPt

/-- What the parsers of the header can do: wait for more bytes, reject, take the response for
a failure, or enter the stage of the content. -/
inductive HeaderOutcome (g : Gfcrequest) : ℤ × Gfcrequest → Prop where
  | wait {g' : Gfcrequest} (head : Head g') (kept : Kept g g') : HeaderOutcome g (0, g')
  | reject {g' : Gfcrequest} (sm : g'.sm.afterPath = false) (writes : g'.writes = []) :
      HeaderOutcome g (-1, g')
  | failed {g' : Gfcrequest} (sm : g'.sm = .error ∨ g'.sm = .notFound) (writes : g'.writes = []) :
      HeaderOutcome g (0, g')
  | enter {g' : Gfcrequest} (entered : Entered g g') : HeaderOutcome g (0, g')

section

variable {g g' g'' : Gfcrequest}

/-- Whether a request is early does not change in the parsers. -/
theorem Kept.early (hk : Kept g g') (h : Early g) :
  Early g'
  := by
  refine ⟨hk.contentPt.trans h.contentPt, ?_, ?_, hk.bytesWritten.trans h.bytesWritten,
    hk.writes.trans h.writes, ?_⟩
  · rw [hk.total, hk.rxBytes, h.total]
  · rw [hk.rxBytes]
    apply h.small
  · intro i hi
    rw [hk.rxBytes] at hi
    rcases hk.byte i with heq | hzero
    · rw [heq, h.clear i hi]
    · apply hzero

theorem Kept.trans (h : Kept g g') (h' : Kept g' g'') :
  Kept g g''
  := by
  refine ⟨h'.contentPt.trans h.contentPt, h'.total.trans h.total, h'.rxBytes.trans h.rxBytes,
    h'.bytesWritten.trans h.bytesWritten, h'.writes.trans h.writes, ?_,
    fun ha => h'.anchored (h.anchored ha), ?_⟩
  · intro i
    rcases h'.byte i with heq | hzero
    · rw [heq]
      apply h.byte i
    · right
      apply hzero
  · intro hpath
    have hstep := h.path hpath
    have hstep' := h'.path hstep.1
    exact ⟨hstep'.1, hstep.2.trans hstep'.2⟩

theorem Kept.entered (h : Kept g g') (h' : Entered g' g'') :
  Entered g g''
  := by
  refine ⟨h'.sm, h'.rxBytes.trans h.rxBytes, ?_, h'.bytesWritten, h'.writes, h'.low, ?_, h'.room, ?_,
    h'.marker, fun ha => h'.anchored (h.anchored ha), ?_, h'.length⟩
  · rw [h'.total, h.rxBytes]
  · rw [← h.rxBytes]
    apply h'.contentPt_le
  · intro i
    rcases h'.byte i with heq | hzero
    · rw [heq]
      apply h.byte i
    · right
      apply hzero
  · intro hpath
    have hstep := h.path hpath
    have hstep' := h'.path hstep.1
    omega

theorem Kept.outcome {x : ℤ × Gfcrequest} (h : Kept g g') (h' : HeaderOutcome g' x) :
  HeaderOutcome g x
  := by
  cases h' with
  | wait head kept => apply HeaderOutcome.wait head (h.trans kept)
  | reject sm writes => apply HeaderOutcome.reject sm writes
  | failed sm writes => apply HeaderOutcome.failed sm writes
  | enter entered => apply HeaderOutcome.enter (h.entered entered)

/-- A read in the stages of the header lands at the start of the buffer. -/
theorem Early.receive {w : List UInt8} (h : Early g) (hrx : g.rxBytes ≤ 2 * rdBufSize)
    (hw : w.length ≤ rdBufSize) :
  Early (g.receive w) ∧ (g.receive w).rxBytes = g.rxBytes + w.length
  := by
  rw [rdBufSize_eq] at hrx hw
  have hrx' : (g.receive w).rxBytes = g.rxBytes + w.length := by
    simp only [Gfcrequest.receive, unsignedAdd]
    omega
  refine ⟨⟨h.contentPt, ?_, ?_, h.bytesWritten, h.writes, ?_⟩, hrx'⟩
  · simp only [Gfcrequest.receive, h.total]
  · rw [rdBufSize_eq]
    omega
  · intro i hi
    simp only [Gfcrequest.receive, h.contentPt]
    rw [Buffer.store_byte_of_not_mem (by omega)]
    apply h.clear i (by omega)

/-! ### The path -/

/-- In front of `parse_path`. -/
structure FrontPath (g : Gfcrequest) : Prop where
  early : Early g
  sm : g.sm = .path
  pt : g.headerPt ≤ rdBufSize + 4
  low : g.headerPt ≤ g.rxBytes
  start : g.lengthStartIdx ≤ g.headerPt

theorem FrontPath.outcome (h : FrontPath g) :
  HeaderOutcome g (parsePath g)
  := by
  have hearly := h.early
  have hsmall := hearly.small
  have hlow := h.low
  have hpt := h.pt
  have hstart := h.start
  rw [rdBufSize_eq] at hsmall hpt
  obtain ⟨j, hj, hcase⟩ := parsePath_cases g
  have hle := hj.le
  -- spaces are bytes received
  have hrx : j ≤ g.rxBytes := by
    by_contra hlt
    have hspace := hj.pass (j - 1) (by omega) (by omega)
    rw [hearly.clear (j - 1) (by omega)] at hspace
    cases hspace
  have hroom : j ≤ rdBufSize + 4 := by
    have hfuel := hj.le_fuel
    rw [rdBufSize_eq] at hfuel ⊢
    omega
  have hsub : unsignedSub g.rxBytes j = g.rxBytes - j := by
    rw [unsignedSub]
    omega
  generalize parsePath g = x at hcase
  cases hcase with
  | wait short =>
      rw [hsub] at short
      have hkept : Kept g (g.measured j) :=
        ⟨rfl, rfl, rfl, rfl, rfl, fun i => Or.inl rfl, ?_, fun hsm => ⟨hsm, hle⟩⟩
      · apply HeaderOutcome.wait _ hkept
        have hrx' : (g.measured j).rxBytes = g.rxBytes := rfl
        have hj' : (g.measured j).headerPt = j := rfl
        apply Head.path (hkept.early hearly) h.sm hroom
        · omega
        · omega
        · apply le_trans hstart hle
      · rintro (⟨hsm, -⟩ | ⟨-, hstart'⟩)
        · rw [h.sm] at hsm
          cases hsm
        · right
          exact ⟨Or.inr (Or.inl h.sm), hstart'⟩
  | reject ne sm writes =>
      apply HeaderOutcome.reject
      · rw [sm, h.sm]
        rfl
      · rw [writes, hearly.writes]
  | enter enough marker =>
      rw [hsub] at enough
      have hmarker : g.buffer.byte (j + 3) = lf := Buffer.strncmp_iff.mp marker 3 (by decide)
      have hinside : j + 3 < rdBufSize := by
        apply Buffer.lt_of_ne_zero
        rw [hmarker]
        decide
      have hcontent : (g.measured j).entered.contentPt = j + 4 := rfl
      apply HeaderOutcome.enter
      refine ⟨rfl, rfl, ?_, hearly.bytesWritten, hearly.writes, ?_, ?_, ?_, fun i => Or.inl rfl, ?_,
        ?_, ?_, ?_⟩
      · simp only [Gfcrequest.entered, Gfcrequest.measured, hearly.total, endSeq_eq, unsignedSub]
        omega
      · omega
      · omega
      · omega
      · rw [hcontent]
        apply hmarker
      · rintro (⟨hsm, -⟩ | ⟨-, hstart'⟩)
        · rw [h.sm] at hsm
          cases hsm
        · right
          exact ⟨Or.inr (Or.inr rfl), hstart'⟩
      · intro _
        omega
      · refine ⟨_, rfl, ?_⟩
        have hlength : (g.buffer.strndup g.lengthStartIdx
            (g.headerPt - g.lengthStartIdx)).length ≤ g.headerPt - g.lengthStartIdx := by
          rw [Buffer.strndup]
          apply le_trans (List.takeWhile_prefix _).length_le
          rw [Buffer.length_slice]
        have hidx : (g.measured j).entered.lengthStartIdx = g.lengthStartIdx := rfl
        omega

/-! ### The length -/

/-- In front of `parse_length`. -/
structure FrontLength (g : Gfcrequest) : Prop where
  early : Early g
  sm : g.sm = .length
  pt : g.headerPt ≤ rdBufSize + 4
  low : g.headerPt ≤ g.rxBytes
  start : g.lengthStartIdx = g.headerPt

/-- The digits end among the bytes received, so that `parse_length` never waits. -/
theorem FrontLength.outcome (h : FrontLength g) :
  HeaderOutcome g
    (if (parseLength g).sm = .length then (0, parseLength g) else parsePath (parseLength g))
  := by
  have hearly := h.early
  have hlow := h.low
  have hstart := h.start
  obtain ⟨j, hj, hcases⟩ := parseLength_cases g
  have hle := hj.le
  have hdigit : g.headerPt < j → j - 1 < g.rxBytes ∧ j - 1 < rdBufSize := by
    intro hlt
    have hpass := hj.pass (j - 1) (by omega) (by omega)
    have hne := (not_isSpace_of_isDigit hpass).2.2.2
    constructor
    · by_contra hout
      apply hne
      apply hearly.clear (j - 1) (by omega)
    · apply Buffer.lt_of_ne_zero hne
  have hrx : j ≤ g.rxBytes := by
    by_contra hlt
    have hbound := hdigit (by omega)
    omega
  have hpt : j ≤ rdBufSize + 4 := by
    have hpt := h.pt
    by_contra hlt
    have hbound := hdigit (by omega)
    omega
  rcases hcases with ⟨hbehind, -⟩ | ⟨-, heq⟩
  · omega
  · have hkept : Kept g { g with headerPt := j, sm := .path } := by
      refine ⟨rfl, rfl, rfl, rfl, rfl, fun i => Or.inl rfl, ?_, fun hsm => ⟨rfl, hle⟩⟩
      rintro (⟨hsm, -⟩ | ⟨-, hstart'⟩)
      · rw [h.sm] at hsm
        cases hsm
      · right
        exact ⟨Or.inr (Or.inl rfl), hstart'⟩
    rw [heq]
    dsimp only
    rw [if_neg (by decide)]
    apply hkept.outcome
    apply FrontPath.outcome
    refine ⟨hkept.early hearly, rfl, hpt, hrx, ?_⟩
    dsimp only
    omega

/-! ### The method -/

/-- `strtok` in `parse_method` changes the bytes received by terminators only, and the field
behind the buffer does not grow. -/
theorem resumed_kept {t : Tokenized (rdBufSize + 4)} (hmethod : g.sm = .method)
    (hpt : g.headerPt ≤ rdBufSize + 1) (h : StrtokCase g.memory space g.next t) :
  Kept g (g.resumed t) ∧ (g.resumed t).headerPt ≤ g.headerPt
  := by
  rw [rdBufSize_eq] at hpt
  constructor
  · refine ⟨rfl, rfl, rfl, rfl, rfl, ?_, ?_, ?_⟩
    · intro i
      by_cases hi : i < rdBufSize
      · have hbyte : (g.setMemory t.buffer).buffer.byte i = t.buffer.byte i := setMemory_byte hi
        rw [Gfcrequest.resumed, hbyte, ← memory_byte hi]
        apply h.byte
      · right
        apply Buffer.zero_of_le _ _ (by omega)
    · rintro (⟨hsm, height⟩ | ⟨hsm, hstart⟩)
      · left
        refine ⟨hsm, ?_⟩
        rw [← height]
        apply headerPt_setMemory (by omega)
        intro i hi
        cases h with
        | none => rfl
        | last => rfl
        | @cut s e skips runs lt delim bound =>
            apply Buffer.terminate_byte_of_ne
            -- no byte of the number 8 is a space
            rintro rfl
            rw [memory_byte_field hi, height] at delim
            have hall : ∀ k < 4, (8 / 256 ^ k).toUInt8 ≠ space := by decide
            apply hall i hi delim
      · right
        exact ⟨hsm, hstart⟩
    · intro hpath
      rw [hmethod] at hpath
      cases hpath
  · apply headerPt_setMemory_le (by omega)
    apply h.byte

/-- In front of `parse_method`. When `header_pt` is behind the byte behind those received,
`strtok` goes on at this byte. -/
structure FrontMethod (g : Gfcrequest) : Prop where
  early : Early g
  sm : g.sm = .method
  pt : g.headerPt ≤ rdBufSize + 1
  low : g.headerPt ≤ g.rxBytes + 1
  next : g.next ≤ rdBufSize + 4
  wrap : g.headerPt = g.rxBytes + 1 → g.next = g.rxBytes

/-- The second part of `parse_method`, when the first has not accepted the status. -/
theorem method_outcome (hearly : Early g) (hsm : g.sm = .method)
    (hpt : g.headerPt ≤ rdBufSize + 1) (hlow : g.headerPt ≤ g.rxBytes + 1)
    (hnext : g.next ≤ rdBufSize + 4) :
  HeaderOutcome g
    (if (parseFailure g).sm = .method then (0, parseFailure g) else parseHeader (parseFailure g))
  := by
  have hsmall := hearly.small
  have hcase := parseFailure_cases hsm
  generalize parseFailure g = g' at hcase
  cases hcase with
  | wait few =>
      rw [rdBufSize_eq] at hsmall
      rw [Int.bmod_eq_of_le (by omega) (by omega)] at few
      rw [if_pos hsm]
      apply HeaderOutcome.wait
      · apply Head.method hearly hsm hpt hlow _ hnext
        omega
      · exact ⟨rfl, rfl, rfl, rfl, rfl, fun i => Or.inl rfl, id, fun hpath => ⟨hpath, le_rfl⟩⟩
  | @failed sm failure =>
      have hmethod : sm ≠ .method := by
        rintro rfl
        revert failure
        decide
      have hafter : sm.afterPath = true := by
        rcases failure with rfl | rfl
        · rfl
        · rfl
      dsimp only
      rw [if_neg hmethod, parseHeader_of_afterPath hafter]
      exact HeaderOutcome.failed failure hearly.writes

/-- The word `OK` is only accepted when its bytes have been received: where the subtraction
wraps around, `strtok` does not find it. -/
theorem FrontMethod.low_of_accept (h : FrontMethod g) {t : Tokenized (rdBufSize + 4)} {s : ℕ}
    (henough : 3 < unsignedSub g.rxBytes g.headerPt)
    (hcall : StrtokCase g.memory space g.next t) (htoken : t.token = some (s, s + 2))
    (hok : g.memory.slice s 2 = ascii "OK") :
  g.headerPt + 4 ≤ g.rxBytes
  := by
  have hsmall := h.early.small
  have hlow := h.low
  have hpt := h.pt
  rw [rdBufSize_eq] at hsmall hpt
  by_cases hwrap : g.headerPt = g.rxBytes + 1
  · exfalso
    have hnext := h.wrap hwrap
    by_cases hinside : g.rxBytes < rdBufSize
    · have hzero : g.memory.byte g.next = 0 := by
        rw [hnext, memory_byte hinside]
        apply h.early.clear _ le_rfl
      rw [hcall.token_of_zero space_ne_zero hzero] at htoken
      cases htoken
    · -- the field `header_pt` is 8193 then, and its low byte is no `O`
      have hfull : g.rxBytes = rdBufSize + 0 := by
        rw [rdBufSize_eq] at hinside ⊢
        omega
      have hfield : g.memory.byte g.next = 1 := by
        rw [hnext, hfull, memory_byte_field (by decide), hwrap, hfull]
        decide
      obtain ⟨skips, -, -, -, -⟩ := hcall.range htoken
      have hstart : s = g.next := by
        apply SkipsTo.unique skips (SkipsTo.refl _)
        rw [hfield]
        decide
      have hmatch : g.memory.strncmp s (ascii "OK") = true := Buffer.strncmp_iff_slice.mpr hok
      have hO := Buffer.strncmp_iff.mp hmatch 0 (by decide)
      rw [Nat.add_zero s, hstart, hfield] at hO
      revert hO
      decide
  · rw [unsignedSub] at henough
    omega

theorem FrontMethod.outcome (h : FrontMethod g) :
  HeaderOutcome g (parseHeader g)
  := by
  have hlow := h.low
  have hpt := h.pt
  rw [parseHeader_of_method h.sm, parseMethod]
  have hcase := parseOk_cases h.next
  generalize parseOk g = g' at hcase
  cases hcase with
  | wait short => apply method_outcome h.early h.sm h.pt h.low h.next
  | @other t call =>
      obtain ⟨hkept, hfield⟩ := resumed_kept h.sm h.pt call
      have hrx := hkept.rxBytes
      apply hkept.outcome
      apply method_outcome (hkept.early h.early) h.sm
      · omega
      · omega
      · apply call.next_le
  | @accept t s enough call token ok =>
      obtain ⟨hkept, hfield⟩ := resumed_kept h.sm h.pt call
      have henough := h.low_of_accept enough call token ok
      have hrx := hkept.rxBytes
      have hsm : (g.resumed t).sm = .method := h.sm
      generalize g.resumed t = g' at hkept hfield hrx hsm
      have hkept' : Kept g' g'.accepted := by
        refine ⟨rfl, rfl, rfl, rfl, rfl, fun i => Or.inl rfl, ?_, ?_⟩
        · rintro (⟨-, height⟩ | ⟨hlater, -⟩)
          · right
            refine ⟨Or.inl rfl, ?_⟩
            simp only [Gfcrequest.accepted, height]
          · rw [hsm] at hlater
            rcases hlater with hlater | hlater | hlater
            · cases hlater
            · cases hlater
            · cases hlater
        · intro hpath
          rw [hsm] at hpath
          cases hpath
      have hfailure : parseFailure g'.accepted = g'.accepted := by
        rw [parseFailure, if_neg]
        simp [Gfcrequest.accepted]
      rw [hfailure, if_neg (by simp [Gfcrequest.accepted]),
        parseHeader_of_length (g := g'.accepted) rfl]
      apply (hkept.trans hkept').outcome
      apply FrontLength.outcome
      have hpt' : g'.accepted.headerPt = g'.headerPt + 3 := rfl
      have hrx' : g'.accepted.rxBytes = g'.rxBytes := rfl
      refine ⟨hkept'.early (hkept.early h.early), rfl, ?_, ?_, rfl⟩
      · omega
      · omega

/-! ### One round -/

/-- In front of `parse_scheme`. -/
theorem Early.outcome_scheme (h : Early g) (hsm : g.sm = .scheme) :
  HeaderOutcome g (parseHeader g)
  := by
  have hcase := parseScheme_cases g
  rw [parseHeader_of_scheme hsm]
  generalize parseScheme g = x at hcase
  cases hcase with
  | wait short =>
      rw [if_pos hsm]
      apply HeaderOutcome.wait (Head.scheme h hsm short)
      exact ⟨rfl, rfl, rfl, rfl, rfl, fun i => Or.inl rfl, id, fun hpath => ⟨hpath, le_rfl⟩⟩
  | reject enough ne sm' writes =>
      rw [if_pos (sm'.trans hsm)]
      apply HeaderOutcome.reject
      · rw [sm', hsm]
        rfl
      · rw [writes, h.writes]
  | @accept t e enough eq token call =>
      obtain ⟨-, runs, -, hsize, hnext⟩ := call.range token
      have hend : e ≤ g.rxBytes := by
        by_contra hlt
        apply (runs.run (e - 1) (by omega) (by omega)).2
        apply h.clear (e - 1) (by omega)
      have hkept : Kept g
          { g with buffer := t.buffer, next := t.next, headerPt := e + 1, sm := .method } := by
        refine ⟨rfl, rfl, rfl, rfl, rfl, call.byte, ?_, ?_⟩
        · rintro (⟨hmethod, -⟩ | ⟨hlater, -⟩)
          · rw [hsm] at hmethod
            cases hmethod
          · rw [hsm] at hlater
            rcases hlater with hlater | hlater | hlater
            · cases hlater
            · cases hlater
            · cases hlater
        · intro hpath
          rw [hsm] at hpath
          cases hpath
      dsimp only
      rw [if_neg (by decide)]
      apply hkept.outcome
      apply FrontMethod.outcome
      refine ⟨hkept.early h, rfl, ?_, ?_, ?_, ?_⟩
      · dsimp only
        omega
      · dsimp only
        omega
      · apply le_trans call.next_le
        omega
      · -- the token ends behind the bytes received, that is, at a terminator
        dsimp only
        intro hwrap
        have he : e = g.rxBytes := by omega
        rcases call.resumes token with ⟨-, hnext⟩ | ⟨delim, -⟩
        · exact hnext.trans he
        · rw [h.clear e (by omega)] at delim
          apply absurd delim.symm space_ne_zero

/-- What a read of some bytes leads to in the stages of the header. -/
theorem Head.outcome (h : Head g) {w : List UInt8} (hw : w ≠ []) (hlen : w.length ≤ rdBufSize) :
  HeaderOutcome (g.receive w) (parseHeader (g.receive w))
  := by
  have hpos := List.length_pos_iff.mpr hw
  cases h with
  | scheme early sm few =>
      obtain ⟨hearly, -⟩ := early.receive (by rw [rdBufSize_eq]; omega) hlen
      apply hearly.outcome_scheme sm
  | method early sm pt low high next =>
      rw [rdBufSize_eq] at pt
      obtain ⟨hearly, hrx⟩ := early.receive (by rw [rdBufSize_eq]; omega) hlen
      have hpt : (g.receive w).headerPt = g.headerPt := rfl
      apply FrontMethod.outcome
      refine ⟨hearly, sm, ?_, ?_, next, ?_⟩
      · rw [hpt, rdBufSize_eq]
        omega
      · omega
      · intro hwrap
        omega
  | path early sm pt low high start =>
      rw [rdBufSize_eq] at pt
      obtain ⟨hearly, hrx⟩ := early.receive (by rw [rdBufSize_eq]; omega) hlen
      have hpt : (g.receive w).headerPt = g.headerPt := rfl
      have hsm : (g.receive w).sm = .path := sm
      rw [parseHeader_of_path hsm]
      apply FrontPath.outcome
      refine ⟨hearly, sm, ?_, ?_, start⟩
      · rw [hpt, rdBufSize_eq]
        omega
      · omega

/-- A request waits for more of the header before the stage of the content only. -/
theorem Head.sm (h : Head g) :
  g.sm.afterPath = false
  := by
  cases h with
  | scheme early sm few =>
      rw [sm]
      rfl
  | method early sm pt low high next =>
      rw [sm]
      rfl
  | path early sm pt low high start =>
      rw [sm]
      rfl

/-- A request that waits for more of the header is early. -/
theorem Head.early (h : Head g) :
  Early g
  := by
  cases h with
  | scheme early sm few => apply early
  | method early sm pt low high next => apply early
  | path early sm pt low high start => apply early

/-- The bytes received in the stages of the header are hardly more than the buffer holds. -/
theorem Head.rxBytes_le (h : Head g) :
  g.rxBytes ≤ 2 * rdBufSize
  := by
  rw [rdBufSize_eq]
  cases h with
  | scheme early sm few => omega
  | method early sm pt low high next =>
      rw [rdBufSize_eq] at pt
      omega
  | path early sm pt low high start =>
      rw [rdBufSize_eq] at pt
      omega

/-- A fresh request waits for the header. -/
theorem head_create (headerCallback : Bool) (next : ℕ) :
  Head (gfcCreate headerCallback next)
  := by
  apply Head.scheme _ rfl (Nat.zero_lt_succ 6)
  exact ⟨rfl, rfl, Nat.zero_le _, rfl, rfl, fun i _ => rfl⟩

/-- What the end of a round does that begins in the stages of the header, with `g₀` in front of
the parsers and an outcome of the header as from `g`. -/
inductive HeadRound (g₀ g : Gfcrequest) : Round Gfcrequest (Option (ℤ × Gfcrequest)) → Prop where
  | wait {g' : Gfcrequest} (header : parseHeader g₀ = (0, g')) (head : Head g') (kept : Kept g g') :
      HeadRound g₀ g (.again g')
  | leave {r : ℤ} {g' : Gfcrequest} (header : (parseHeader g₀).2.sm ≠ .content)
      (writes : g'.writes = []) (result : r = -1 ∨ g'.status ≠ .ok) :
      HeadRound g₀ g (.leave (some (r, g')))
  | enter {g' : Gfcrequest} (header : parseHeader g₀ = (0, g')) (entered : Entered g g') :
      HeadRound g₀ g (finish (parse g'))

theorem HeaderOutcome.round {g₀ : Gfcrequest} (h : HeaderOutcome g (parseHeader g₀)) :
  HeadRound g₀ g (finish (parse g₀))
  := by
  generalize hx : parseHeader g₀ = x at h
  cases h with
  | @wait g' head kept =>
      rw [parse_of_header (by rw [hx]; apply head.sm), hx, finish_again]
      apply HeadRound.wait hx head kept
  | @reject g' sm writes =>
      rw [parse_of_header (by rw [hx]; apply sm), hx, finish_failed]
      apply HeadRound.leave _ writes (Or.inl rfl)
      rw [hx]
      intro hcontent
      dsimp only at hcontent
      rw [hcontent] at sm
      cases sm
  | @failed g' sm writes =>
      rcases sm with hsm | hsm
      · rw [parse_of_parseHeader hx (by rw [hsm]; rfl), parse_of_error hsm, finish_done]
        refine HeadRound.leave ?_ writes (Or.inr (by simp))
        rw [hx, hsm]
        decide
      · rw [parse_of_parseHeader hx (by rw [hsm]; rfl), parse_of_notFound hsm, finish_done]
        refine HeadRound.leave ?_ writes (Or.inr (by simp))
        rw [hx, hsm]
        decide
  | @enter g' entered =>
      rw [parse_of_parseHeader hx (by rw [entered.sm]; rfl)]
      apply HeadRound.enter hx entered

theorem Head.round (h : Head g) {w : List UInt8} (hw : w ≠ []) (hlen : w.length ≤ rdBufSize) :
  HeadRound (g.receive w) (g.receive w) (Client.round g w)
  := by
  obtain ⟨hrequest, hwindow⟩ := window_of_header h.sm h.early.contentPt
  rw [round_eq hwindow (by omega)]
  apply (h.outcome hw hlen).round

/-- What a read may return in the stages of the header. -/
theorem Head.fits (h : Head g) {w : List UInt8} {ws : List (List UInt8)} (hfits : Fits g (w :: ws)) :
  w ≠ [] ∧ w.length ≤ rdBufSize
  := by
  have hrequest := (window_of_header h.sm h.early.contentPt).1
  obtain ⟨hne, hlen⟩ := hfits w rfl (by omega)
  rw [rdBufSize_eq]
  exact ⟨hne, by omega⟩

/-- In the stage of the scheme, fewer than seven bytes are not looked at. -/
theorem Early.round_short (h : Early g) (hsm : g.sm = .scheme) {w : List UInt8}
    (hfew : g.rxBytes + w.length < 7) :
  Client.round g w = .again (g.receive w) ∧ Early (g.receive w) ∧
    (g.receive w).rxBytes = g.rxBytes + w.length
  := by
  obtain ⟨hrequest, hwindow⟩ := window_of_header (by rw [hsm]; rfl) h.contentPt
  obtain ⟨hearly, hrx⟩ := h.receive (w := w) (by rw [rdBufSize_eq]; omega)
    (by rw [rdBufSize_eq]; omega)
  have hsm' : (g.receive w).sm = .scheme := hsm
  have hwait : parseScheme (g.receive w) = (0, g.receive w) := by
    rw [parseScheme, if_neg (by rw [hrx, schemeSz_eq]; omega)]
  have hheader : parseHeader (g.receive w) = (0, g.receive w) := by
    rw [parseHeader_of_scheme hsm', hwait, if_pos hsm']
  refine ⟨?_, hearly, hrx⟩
  rw [round_eq hwindow (by omega), parse_of_header (by rw [hheader, hsm']; rfl), hheader,
    finish_again]

end

end GetFile.Client
