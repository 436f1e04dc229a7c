import GetFile.Server.Window

/-!
# Server: the loop of a request ends

A peer that never stops sending cannot keep `process_request` in its loop as long as each
read stays in the buffer. In the stage of the scheme fewer than seven bytes may have come, in
the stage of the method fewer than four behind `header_pt`. In the stage of the path a round
without a word needs at most 266 bytes in all, and a round with a word moves the saved pointer
of `strtok` on. `Gfcontext.roundsLeft` combines the three measures.
-/

namespace GetFile.Server

open CString Transition

/-- One round of `process_request` in which `read` returns the bytes `w`; when it returns none,
the input is at its end. -/
def readRound (s : ℤ × Gfcontext) (w : List UInt8) :
    Round (ℤ × Gfcontext) (Option (ℤ × Gfcontext)) :=
  if w = [] then .leave (lastRound .endOfInput s) else round s w

/-- `read` may return `w` as long as the peer keeps sending: not more bytes than it was asked
for, and none only if it was asked for none. -/
def Keeps (ctx : Gfcontext) (w : List UInt8) : Prop :=
  w.length ≤ unsignedSub bufSize ctx.headerPt ∧ (w = [] → unsignedSub bufSize ctx.headerPt = 0)

/-- At every read of `process_request` on a fresh context, `ws` has bytes that `read` may
return. -/
def KeepsSending (next : ℕ) (ws : ℕ → List UInt8) : Prop :=
  ∀ n r ctx, afterInputs readRound (0, gfcontextCreate next) ws n = .again (r, ctx) →
    Keeps ctx (ws n)

/-- At every read of `process_request` on a fresh context, `header_pt <= BUFSIZE`. -/
def StaysInBuffer (next : ℕ) (ws : ℕ → List UInt8) : Prop :=
  ∀ n r ctx, afterInputs readRound (0, gfcontextCreate next) ws n = .again (r, ctx) →
    ctx.headerPt ≤ bufSize

/-- An upper bound for the rounds that go on, at a head of the loop. -/
def Gfcontext.roundsLeft (ctx : Gfcontext) : ℕ :=
  match ctx.sm with
  | .scheme => 554 + (7 - ctx.rxBytes)
  | .method => 550 + (ctx.headerPt + 4 - ctx.rxBytes)
  | .path => (bufSize - ctx.next) + (267 - ctx.totalRxBytes)

/-- What is known at a head of the loop that the first reads have led to. In the stage of the
method, fewer than four bytes have come behind `header_pt`. -/
inductive Head (ctx : Gfcontext) : Prop where
  | scheme (head : SchemeHead ctx)
  | method (head : MethodHead ctx) (low : ctx.headerPt ≤ ctx.rxBytes)
      (high : ctx.rxBytes < ctx.headerPt + 4)
  | path (head : PathHead ctx)

/-- At a head of the loop the status is `GF_OK`, and `header_pt` lies in the buffer. -/
theorem Head.ready {ctx : Gfcontext} (h : Head ctx) :
  ctx.Ready
  := by
  cases h with
  | scheme head => apply head.ready
  | method head => apply head.toReady
  | path head => apply head.toReady

/-- In the stage of the path at most 550 rounds go on. -/
theorem PathHead.roundsLeft_le {ctx : Gfcontext} (h : PathHead ctx) :
  ctx.roundsLeft ≤ 550
  := by
  simp only [Gfcontext.roundsLeft, h.sm, bufSize_eq]
  omega

/-! ### One round of each stage -/

/-- A call of `parse_path` that goes on found a word and moved the saved pointer on, or has at
most 266 bytes. -/
theorem PathCase.progress {ctx ctx' : Gfcontext} {r : ℤ} (hcase : PathCase ctx (r, ctx'))
    (hr : r ≠ -1) :
  ctx'.totalRxBytes = ctx.totalRxBytes ∧ ctx'.next ≤ bufSize ∧
    (ctx.next < ctx'.next ∨ ctx.next ≤ ctx'.next ∧ ctx.totalRxBytes ≤ 266)
  := by
  cases hcase with
  | @found t s e call token =>
      obtain ⟨skips, -, hlt, -, hnext⟩ := call.range token
      have hskips := skips.le
      refine ⟨rfl, call.next_le, Or.inl ?_⟩
      have hmoved : ctx.next < t.next := by omega
      apply hmoved
  | goOn skips zero bound few => exact ⟨rfl, bound, Or.inr ⟨skips.le, few⟩⟩
  | giveUp => apply absurd rfl hr

/-- `parse_path` leaves `header_pt` where it is. -/
theorem PathCase.headerPt_eq {ctx ctx' : Gfcontext} {r : ℤ} (hcase : PathCase ctx (r, ctx')) :
  ctx'.headerPt = ctx.headerPt
  := by
  cases hcase with
  | found => rfl
  | goOn => rfl
  | giveUp => rfl

/-- A round in the stage of the path that goes on makes the bound smaller. -/
theorem PathHead.progress {r r' : ℤ} {ctx ctx' : Gfcontext} {w : List UInt8} (h : PathHead ctx)
    (hw : w ≠ []) (hparse : Server.parse r (ctx.receive w) = (r', ctx')) (hr : r' ≠ -1) :
  Head ctx' ∧ ctx'.roundsLeft < ctx.roundsLeft
  := by
  have hhead := (h.receive w).parse hparse hr
  have hlen := List.length_pos_iff.mpr hw
  rw [parse_of_path (h.receive w).sm] at hparse
  have hcase := parsePath_cases (h.receive w).next_le (h.receive w).ok
  rw [hparse] at hcase
  obtain ⟨htotal, hbound, hmoved⟩ := hcase.progress hr
  constructor
  · apply Head.path hhead
  · simp only [Gfcontext.receive] at htotal hmoved
    simp only [Gfcontext.roundsLeft, h.sm, hhead.sm, htotal]
    have hnext := h.next_le
    omega

/-- Where `parse_method` waits, fewer than four bytes have come behind `header_pt`. -/
theorem waits_range {rx headerPt : ℕ} (hpt : headerPt ≤ bufSize) (hrx : rx ≤ 2 * bufSize + 7)
    (short : unsignedSub rx headerPt < 4) :
  headerPt ≤ rx ∧ rx < headerPt + 4
  := by
  rw [bufSize_eq] at hpt hrx
  rw [unsignedSub] at short
  omega

/-- A context in the stage of the method in which the parsers go on is at a head of the loop,
with at most 554 rounds left. -/
theorem MethodHead.head {r r' : ℤ} {ctx ctx' : Gfcontext} (h : MethodHead ctx)
    (hrx : ctx.rxBytes ≤ 2 * bufSize + 7) (hparse : Server.parse r ctx = (r', ctx')) (hr : r' ≠ -1) :
  Head ctx' ∧ (ctx' = ctx ∨ ctx'.roundsLeft ≤ 550) ∧ ctx'.roundsLeft ≤ 554
  := by
  rcases h.parse_cases hparse hr with ⟨rfl, short⟩ | hpath
  · obtain ⟨hlow, hhigh⟩ := waits_range h.headerPt_le hrx short
    refine ⟨Head.method h hlow hhigh, Or.inl rfl, ?_⟩
    simp only [Gfcontext.roundsLeft, h.sm]
    omega
  · have hle := hpath.roundsLeft_le
    exact ⟨Head.path hpath, Or.inr hle, by omega⟩

/-- A round in the stage of the method that goes on makes the bound smaller. -/
theorem MethodHead.progress {r r' : ℤ} {ctx ctx' : Gfcontext} {w : List UInt8}
    (h : MethodHead ctx) (low : ctx.headerPt ≤ ctx.rxBytes)
    (high : ctx.rxBytes < ctx.headerPt + 4) (hw : w ≠ []) (hlen : w.length ≤ bufSize)
    (hparse : Server.parse r (ctx.receive w) = (r', ctx')) (hr : r' ≠ -1) :
  Head ctx' ∧ ctx'.roundsLeft < ctx.roundsLeft
  := by
  have hpos := List.length_pos_iff.mpr hw
  have hpt := h.headerPt_le
  have hrx : (ctx.receive w).rxBytes ≤ 2 * bufSize + 7 := by
    simp only [Gfcontext.receive]
    omega
  obtain ⟨hhead, hwait, -⟩ := (h.receive w).head hrx hparse hr
  constructor
  · apply hhead
  · rcases hwait with rfl | hle
    · simp only [Gfcontext.roundsLeft, (h.receive w).sm, h.sm]
      simp only [Gfcontext.receive]
      omega
    · simp only [Gfcontext.roundsLeft, h.sm] at hle ⊢
      omega

/-- After a first word that ends at the end of the buffer, the parsers find no method. -/
theorem parse_of_full {r r' : ℤ} {ctx ctx' : Gfcontext} {t : Tokenized bufSize} {s : ℕ}
    (call : StrtokCase ctx.buffer space 0 t) (token : t.token = some (s, bufSize))
    (hparse : parse r (ctx.accepted t (bufSize + 1) .method) = (r', ctx')) (hr : r' ≠ -1) :
  ctx' = ctx.accepted t (bufSize + 1) .method
  := by
  have hzero := call.zero_of_full token
  rw [parse_of_method (accepted_sm _ _ _ _)] at hparse
  have hcase : MethodCase (ctx.accepted t (bufSize + 1) .method) _ :=
    parseMethod_cases call.next_le
  generalize parseMethod _ = x at hcase hparse
  cases hcase with
  | wait short =>
      rw [if_neg (by simp)] at hparse
      cases hparse
      rfl
  | reject enough call' token' sm =>
      rw [if_neg (by simp [sm])] at hparse
      cases hparse
      apply absurd rfl hr
  | accept enough call' token' get =>
      rw [call'.token_of_zero space_ne_zero hzero] at token'
      cases token'

/-- A round in the stage of the scheme that goes on with `header_pt` in the buffer makes the
bound smaller. -/
theorem SchemeHead.progress {r r' : ℤ} {ctx ctx' : Gfcontext} {w : List UInt8}
    (h : SchemeHead ctx) (hw : w ≠ []) (hlen : w.length ≤ bufSize)
    (hparse : Server.parse r (ctx.receive w) = (r', ctx')) (hr : r' ≠ -1)
    (hpt : ctx'.headerPt ≤ bufSize) :
  Head ctx' ∧ ctx'.roundsLeft < ctx.roundsLeft
  := by
  have hpos := List.length_pos_iff.mpr hw
  have hfew := h.few
  rw [parse_of_scheme (h.receive_stage w)] at hparse
  have hcase := parseScheme_cases (ctx.receive w)
  generalize parseScheme (ctx.receive w) = x at hcase hparse
  cases hcase with
  | wait short =>
      rw [if_pos (h.receive_stage w)] at hparse
      cases hparse
      constructor
      · apply Head.scheme (h.receive short)
      · simp only [Gfcontext.roundsLeft, h.receive_stage w, h.sm]
        simp only [Gfcontext.receive]
        omega
  | reject enough ne sm =>
      rw [if_pos (sm.trans (h.receive_stage w))] at hparse
      cases hparse
      apply absurd rfl hr
  | @accept t e enough eq token call =>
      rw [if_neg (by simp)] at hparse
      have hmoved : ∀ ctx'', (Head ctx'' ∧ (ctx'' = (ctx.receive w).accepted t (e + 1) .method ∨
          ctx''.roundsLeft ≤ 550) ∧ ctx''.roundsLeft ≤ 554) →
          Head ctx'' ∧ ctx''.roundsLeft < ctx.roundsLeft := by
        rintro ctx'' ⟨hhead, -, hle⟩
        constructor
        · apply hhead
        · simp only [Gfcontext.roundsLeft, h.sm] at hle ⊢
          omega
      apply hmoved
      have he : e ≠ bufSize := by
        rintro rfl
        have heq := parse_of_full call token hparse hr
        rw [heq] at hpt
        simp only [Gfcontext.accepted, bufSize_eq] at hpt
        omega
      apply (h.methodHead call token he).head _ hparse hr
      simp only [Gfcontext.accepted, Gfcontext.receive]
      omega

/-- The loop goes on exactly when bytes were read and the parsers do not return `-1`. -/
theorem readRound_again_iff {r r' : ℤ} {ctx ctx' : Gfcontext} (h : ctx.Ready) {w : List UInt8} :
  readRound (r, ctx) w = .again (r', ctx') ↔
    w ≠ [] ∧ parse r (ctx.receive w) = (r', ctx') ∧ r' ≠ -1
  := by
  rw [readRound]
  split
  · rename_i hw
    simp [hw]
  · rename_i hw
    rw [round_again_iff h, and_iff_right hw]

/-- A round that goes on to a head with `header_pt` in the buffer makes the bound smaller. -/
theorem Head.progress {r r' : ℤ} {ctx ctx' : Gfcontext} {w : List UInt8} (h : Head ctx)
    (hkeeps : Keeps ctx w) (hround : readRound (r, ctx) w = .again (r', ctx'))
    (hpt : ctx'.headerPt ≤ bufSize) :
  Head ctx' ∧ ctx'.roundsLeft < ctx.roundsLeft
  := by
  have hready := h.ready
  obtain ⟨hw, hparse, hr⟩ := (readRound_again_iff hready).mp hround
  have hlen : w.length ≤ bufSize := by
    have hle := hkeeps.1
    have hin := hready.headerPt_le
    rw [unsignedSub, bufSize_eq] at hle
    rw [bufSize_eq] at hin ⊢
    omega
  cases h with
  | scheme head => apply head.progress hw hlen hparse hr hpt
  | method head low high => apply head.progress low high hw hlen hparse hr
  | path head => apply head.progress hw hparse hr

/-! ### The whole loop -/

/-- A round at a ready context that leaves returns from `process_request`. -/
theorem readRound_leave {r : ℤ} {ctx : Gfcontext} (h : ctx.Ready) {w : List UInt8}
    {b : Option (ℤ × Gfcontext)} (hround : readRound (r, ctx) w = .leave b) :
  ∃ result, b = some result
  := by
  rw [readRound] at hround
  split at hround
  · have hpt := h.headerPt_le
    rw [lastRound, if_neg (by simp only; omega)] at hround
    cases hround
    exact ⟨_, rfl⟩
  · obtain ⟨ctx', -, rfl⟩ := (round_leave_iff h).mp hround
    exact ⟨_, rfl⟩

/-- On every endless supply of bytes on which each read stays in the buffer,
`process_request` returns within 562 reads. -/
theorem processRequest_terminates {next : ℕ} {ws : ℕ → List UInt8}
    (hsends : KeepsSending next ws) (hstays : StaysInBuffer next ws) :
  ∃ n result, n ≤ 562 ∧
    afterInputs readRound (0, gfcontextCreate next) ws n = .leave (some result)
  := by
  have hstep : ∀ n (s₁ s₂ : ℤ × Gfcontext),
      afterInputs readRound (0, gfcontextCreate next) ws n = .again s₁ →
      afterInputs readRound (0, gfcontextCreate next) ws (n + 1) = .again s₂ →
      Head s₁.2 → Head s₂.2 ∧ s₂.2.roundsLeft < s₁.2.roundsLeft := by
    rintro n ⟨r, ctx⟩ ⟨r', ctx'⟩ hn hn' hhead
    have hround := (afterInputs_again hn).symm.trans hn'
    apply hhead.progress (hsends n r ctx hn) hround (hstays (n + 1) r' ctx' hn')
  have hstart : Head (gfcontextCreate next) := Head.scheme (schemeHead_create next)
  obtain ⟨n, ⟨r, ctx⟩, b, hn, hagain, hhead, hround⟩ :=
    leaves_of_measure (I := fun s : ℤ × Gfcontext => Head s.2) hstep hstart
  obtain ⟨result, rfl⟩ := readRound_leave hhead.ready hround
  have hleft : (gfcontextCreate next).roundsLeft = 561 := rfl
  rw [hleft] at hn
  exact ⟨n + 1, result, by omega, (afterInputs_again hagain).trans hround⟩

/-- A peer that sends one request again and again. -/
def repeatedRequest (_ : ℕ) : List UInt8 :=
  ascii "GETFILE GET /x \r\n\r\n"

/-- Behind the first repetition the loop is in the stage of the path, and reads at index 12. -/
theorem repeatedRequest_head {n : ℕ} {r : ℤ} {ctx : Gfcontext}
    (h : afterInputs readRound (0, gfcontextCreate 0) repeatedRequest (n + 1) = .again (r, ctx)) :
  PathHead ctx ∧ ctx.headerPt = 12
  := by
  induction n generalizing r ctx with
  | zero =>
      have hready := (schemeHead_create 0).ready
      rw [afterInputs_again (afterInputs_zero _ _)] at h
      obtain ⟨-, hparse, -⟩ := (readRound_again_iff hready).mp h
      have hfields : (fun x : ℤ × Gfcontext => (x.2.status, x.2.sm, x.2.next, x.2.headerPt))
          (parse 0 ((gfcontextCreate 0).receive (repeatedRequest 0))) = (.ok, .path, 15, 12) := by
        decide +kernel
      rw [hparse] at hfields
      simp only [Prod.mk.injEq] at hfields
      obtain ⟨hok, hsm, hnext, hpt⟩ := hfields
      exact ⟨⟨⟨hok, by rw [hpt]; decide⟩, hsm, by rw [hnext]; decide⟩, hpt⟩
  | succ n ih =>
      cases hn : afterInputs readRound (0, gfcontextCreate 0) repeatedRequest (n + 1) with
      | leave b =>
          rw [afterInputs, hn] at h
          cases h
      | again s =>
          obtain ⟨r₁, ctx₁⟩ := s
          obtain ⟨hhead, hpt⟩ := ih hn
          rw [afterInputs_again hn] at h
          obtain ⟨-, hparse, hr⟩ := (readRound_again_iff hhead.toReady).mp h
          constructor
          · apply (hhead.receive _).parse hparse hr
          · rw [parse_of_path (hhead.receive _).sm] at hparse
            have hcase := parsePath_cases (hhead.receive (repeatedRequest (n + 1))).next_le
              (hhead.receive _).ok
            rw [hparse] at hcase
            rw [hcase.headerPt_eq]
            apply hpt

theorem processRequest_terminates_repeatedRequest :
  ∃ n result, n ≤ 562 ∧
    afterInputs readRound (0, gfcontextCreate 0) repeatedRequest n = .leave (some result)
  := by
  have hkeeps : ∀ n ctx, ctx.headerPt ≤ 12 → Keeps ctx (repeatedRequest n) := by
    intro n ctx hpt
    constructor
    · have hlength : (repeatedRequest n).length = 19 := rfl
      rw [hlength, unsignedSub, bufSize_eq]
      omega
    · rintro ⟨⟩
  apply processRequest_terminates
  · rintro (_ | n) r ctx hagain
    · cases hagain
      apply hkeeps
      decide
    · apply hkeeps
      rw [(repeatedRequest_head hagain).2]
  · rintro (_ | n) r ctx hagain
    · cases hagain
      decide
    · rw [(repeatedRequest_head hagain).2]
      decide

end GetFile.Server
