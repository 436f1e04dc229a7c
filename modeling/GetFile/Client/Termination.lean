import GetFile.Client.Window

/-!
# Client: the loop of a response ends

A server that never stops sending cannot keep `process_response` in its loop, as long as a
read that completes the header stays in the buffer and the length announced is small. Up to
the stage of the content `rx_bytes` is bounded, and in the stage of the content
`total_rx_bytes` grows up to the length announced. Both counters of the body are `unsigned`: when
the length announced and the size of the header are more than `2 ^ 32` together, a read can
pass `2 ^ 32` before the file is complete, and the loop can begin again.
-/

namespace GetFile.Client

open CString Transition

/-- At every read of `process_response` from `g`, `ws` has bytes that `read` may return. -/
def KeepsSending (g : Gfcrequest) (ws : ℕ → List UInt8) : Prop :=
  ∀ n g', afterInputs round g ws n = .again g' → Fits g' [ws n]

/-- At every read of `process_response` from `g` that completes the header, at most `RDBUFSIZE`
bytes have been received with it. -/
def EntersInBuffer (g : Gfcrequest) (ws : ℕ → List UInt8) : Prop :=
  ∀ n g', afterInputs round g ws n = .again g' → SafeEntry g' [ws n]

/-- At every read of `process_response` from `g` that completes the header, the length announced
and the index of the body in the buffer are at most `2 ^ 32` together. -/
def AnnouncesLittle (g : Gfcrequest) (ws : ℕ → List UInt8) : Prop :=
  ∀ n g', afterInputs round g ws n = .again g' → g'.sm.afterPath = false →
    CompletesHeader (g'.receive (ws n)) →
    (parseHeader (g'.receive (ws n))).2.fileLength
      + (parseHeader (g'.receive (ws n))).2.contentPt ≤ 2 ^ 32

/-- The head of the loop in the stage of the content, behind a header of `size` bytes. With no
byte of the body the pointer is at `size`, and it runs around the buffer as the body grows. -/
structure Counting (size : ℕ) (g : Gfcrequest) : Prop where
  head : ContentHead g
  pos : 0 < size
  phase : g.contentPt % rdBufSize = (size + g.totalRxBytes) % rdBufSize
  little : g.fileLength + size ≤ 2 ^ 32

/-- An upper bound for the rounds that go on, at a head of the loop. -/
def Gfcrequest.readsLeft (g : Gfcrequest) : ℕ :=
  if g.sm = .content then g.fileLength - g.totalRxBytes
  else 2 ^ 32 + (2 * rdBufSize - g.rxBytes)

section

variable {size : ℕ} {g g' : Gfcrequest} {w : List UInt8}

/-! ### The stage of the content -/

/-- `parse_content` moves the pointer to the end of the bytes received, or to the start of the
buffer. -/
theorem parseContent_contentPt (h : g.contentPt ≤ g.rxBytes) :
  (parseContent g).contentPt % rdBufSize = g.rxBytes % rdBufSize
  := by
  rw [parseContent]
  split
  · have hpt : g.handOver.contentPt = g.rxBytes := by
      simp only [Gfcrequest.handOver]
      omega
    have hrewind : g.handOver.rewind.contentPt % rdBufSize = g.rxBytes % rdBufSize := by
      rcases rewind_cases g.handOver with ⟨-, heq⟩ | ⟨hfull, heq⟩
      · rw [heq, hpt]
      · rw [heq, ← hpt, hfull, Nat.mod_self, Nat.zero_mod]
    dsimp only
    split
    · apply hrewind
    · apply hrewind
  · have heq : g.contentPt = g.rxBytes := by omega
    rw [heq]

/-- In the stage of the content the loop goes on in the request that `parse_content` leaves. -/
theorem again_of_content (hsm : g.sm = .content) (hround : finish (parse g) = .again g') :
  g' = parseContent g
  := by
  rw [parse_of_content hsm] at hround
  split at hround
  · cases hround
  · cases hround
    rfl

/-- A round that goes on in front of `parse_content` leads to a head of the loop. -/
theorem FrontContent.head (h : FrontContent g) (hround : Client.finish (parse g) = .again g') :
  ContentHead g'
  := by
  rcases h.finish with ⟨g'', hleave, -⟩ | ⟨g'', hagain, hhead⟩
  · rw [hleave] at hround
    cases hround
  · rw [hagain] at hround
    cases hround
    apply hhead

/-- No read is asked for more bytes than the file still has. -/
theorem Counting.requestSize_le (h : Counting size g) (hpos : 0 < g.requestSize) :
  g.requestSize + g.totalRxBytes ≤ g.fileLength
  := by
  have hpt := h.head.contentPt
  have hbound := h.head.rxBytes_le
  have hunfinished := h.head.unfinished
  have hstart := h.pos
  have hphase := h.phase
  have hlittle := h.little
  rw [rdBufSize_eq] at hbound hphase
  simp only [Gfcrequest.requestSize, h.head.sm, StateMachine.afterPath, rdBufSize_eq,
    true_and] at hpos ⊢
  by_cases hclip : (g.fileLength : ℤ) < (((8192 : ℕ) : ℤ) - g.contentPt + g.totalRxBytes) % 2 ^ 32
  · rw [if_pos hclip, Int.bmod_eq_of_le (by omega) (by omega)] at hpos ⊢
    omega
  · rw [if_neg hclip] at hpos ⊢
    omega

/-- A round that goes on keeps what is known, and it has read bytes of the file. -/
theorem Counting.progress (h : Counting size g) (hfits : Fits g [w])
    (hround : round g w = .again g') :
  Counting size g' ∧ g'.readsLeft < g.readsLeft
  := by
  have hwindow := h.head.inWindow
  have hnonneg := hwindow.2.1
  have hpos : 0 < g.requestSize := by
    by_contra hnot
    rw [round, if_neg (not_not_intro hwindow), if_pos (by omega)] at hround
    cases hround
  obtain ⟨hw, hlen⟩ := hfits w rfl hpos
  have hread := List.length_pos_iff.mpr hw
  have hfront := h.head.receive hw hlen
  rw [round_eq hwindow hpos] at hround
  have hhead := hfront.head hround
  have hle := h.requestSize_le hpos
  obtain ⟨hfile, htotal⟩ := parseContent_counts (g.receive w)
  have hpt := parseContent_contentPt hfront.start
  rw [← again_of_content hfront.sm hround] at hfile htotal hpt
  have hfile : g'.fileLength = g.fileLength := hfile
  have hlittle := h.little
  have hstart := h.pos
  have hphase := h.phase
  have hcontent := h.head.contentPt
  have hbound := h.head.rxBytes_le
  simp only [Gfcrequest.receive, unsignedAdd, rdBufSize_eq] at htotal hpt
  rw [rdBufSize_eq] at hphase hbound
  constructor
  · refine ⟨hhead, hstart, ?_, ?_⟩
    · rw [rdBufSize_eq]
      omega
    · omega
  · rw [Gfcrequest.readsLeft, if_pos hhead.sm, Gfcrequest.readsLeft, if_pos h.head.sm]
    omega

/-- In front of `parse_content` with the body behind the header, a round that goes on leads to
the stage of the content. -/
theorem FrontContent.counting (h : FrontContent g) (hpos : 0 < g.contentPt)
    (hsum : g.contentPt + g.totalRxBytes = g.rxBytes)
    (hlittle : g.fileLength + g.contentPt ≤ 2 ^ 32)
    (hround : Client.finish (parse g) = .again g') :
  Counting g.contentPt g'
  := by
  obtain ⟨hfile, htotal⟩ := parseContent_counts g
  have hpt := parseContent_contentPt h.start
  rw [← again_of_content h.sm hround] at hfile htotal hpt
  refine ⟨h.head hround, hpos, ?_, ?_⟩
  · rw [hpt, htotal, hsum]
  · rw [hfile]
    apply hlittle

/-- The same behind a header that the parsers have taken apart. -/
theorem Entered.counting {g₀ : Gfcrequest} (h : Entered g₀ g) (hrx : g₀.rxBytes ≤ rdBufSize)
    (hlittle : g.fileLength + g.contentPt ≤ 2 ^ 32) (hround : finish (parse g) = .again g') :
  Counting g.contentPt g'
  := by
  have hlow := h.low
  have hsum := h.total
  have hrx' := h.rxBytes
  have hle := h.contentPt_le
  apply (h.front hrx).counting _ _ hlittle hround
  · omega
  · omega

/-- The same behind a header that came in one read with the bytes `first` of the body. -/
theorem Behind.counting {len : ℕ} {first : List UInt8} (h : Behind len size first g)
    (hpos : 0 < size) (hlittle : len + size ≤ 2 ^ 32) (hround : finish (parse g) = .again g') :
  Counting size g'
  := by
  have hpt := h.contentPt
  have hrx := h.rxBytes
  have hbound := h.bound
  have htotal := h.total
  have hbytes := h.bytesWritten
  have hfile := h.fileLength
  rw [rdBufSize_eq] at hbound
  have hfront : FrontContent g := by
    refine ⟨h.sm, by omega, ?_, by omega, ?_, by omega, ?_⟩
    · rw [rdBufSize_eq]
      omega
    · rw [unsignedAdd]
      omega
    · intro x hx
      rw [h.writes] at hx
      cases hx
  rw [← hpt]
  apply hfront.counting _ _ _ hround
  · omega
  · omega
  · omega

/-! ### The stages of the header -/

/-- What is known at a head of the loop: more of the header or more of the body is missing. -/
def Waits (g : Gfcrequest) : Prop :=
  Head g ∨ ∃ size, Counting size g

/-- A round that goes on from a stage of the header makes the bound smaller. -/
theorem Head.progress (h : Head g) (hfits : Fits g [w]) (hsafe : SafeEntry g [w])
    (hlittle : CompletesHeader (g.receive w) → (parseHeader (g.receive w)).2.fileLength
      + (parseHeader (g.receive w)).2.contentPt ≤ 2 ^ 32)
    (hround : Client.round g w = .again g') :
  Waits g' ∧ g'.readsLeft < g.readsLeft
  := by
  obtain ⟨hw, hlen⟩ := h.fits hfits
  have hread := List.length_pos_iff.mpr hw
  have hbefore : g.readsLeft = 2 ^ 32 + (2 * rdBufSize - g.rxBytes) := by
    rw [Gfcrequest.readsLeft, if_neg]
    intro hsm
    have hpath := h.sm
    rw [hsm] at hpath
    cases hpath
  obtain ⟨-, hrx⟩ := h.early.receive h.rxBytes_le hlen
  have hcases := h.round hw hlen
  rw [hround] at hcases
  generalize hg₀ : g.receive w = g₀ at hcases hrx hlittle
  generalize hr : (Round.again g' : Round Gfcrequest (Option (ℤ × Gfcrequest))) = x at hcases
  cases hcases with
  | wait header head kept =>
      cases hr
      have hmax := head.rxBytes_le
      have hkept := kept.rxBytes
      constructor
      · left
        apply head
      · rw [hbefore, Gfcrequest.readsLeft, if_neg]
        · omega
        · intro hsm
          have hpath := head.sm
          rw [hsm] at hpath
          cases hpath
  | leave => cases hr
  | @enter g₁ header entered =>
      have hcomplete : CompletesHeader g₀ := by
        rw [CompletesHeader, header]
        apply entered.sm
      have hroom : g₀.rxBytes ≤ rdBufSize := by
        rw [hrx]
        apply hsafe w rfl h.sm
        rw [hg₀]
        apply hcomplete
      have hsum := hlittle hcomplete
      rw [header] at hsum
      have hcounting := entered.counting hroom hsum hr.symm
      constructor
      · right
        exact ⟨g₁.contentPt, hcounting⟩
      · have hsmall := hcounting.little
        have hpos := hcounting.pos
        rw [hbefore, Gfcrequest.readsLeft, if_pos hcounting.head.sm]
        omega

/-- A round that leaves the loop returns from `process_response`. -/
theorem Waits.leave {b : Option (ℤ × Gfcrequest)} (h : Waits g) (hround : round g w = .leave b) :
  ∃ r g', b = some (r, g')
  := by
  have hwindow : g.InWindow := by
    rcases h with h | ⟨size, h⟩
    · apply h.inWindow.1
    · apply h.head.inWindow
  rw [round, if_neg (not_not_intro hwindow)] at hround
  split at hround
  · cases hround
    exact ⟨-1, g, rfl⟩
  · rw [finish] at hround
    split at hround
    · cases hround
      exact ⟨_, _, rfl⟩
    · split at hround
      · cases hround
        exact ⟨_, _, rfl⟩
      · cases hround

/-! ### The whole loop -/

/-- In the stage of the content, `process_response` returns when no more reads have come than
bytes of the file are missing. -/
theorem Counting.ends {ws : ℕ → List UInt8} (h : Counting size g) (hsends : KeepsSending g ws) :
  ∃ n r g', n ≤ g.readsLeft + 1 ∧ afterInputs round g ws n = .leave (some (r, g'))
  := by
  have hstep : ∀ n g₁ g₂, afterInputs round g ws n = .again g₁ →
      afterInputs round g ws (n + 1) = .again g₂ → Counting size g₁ →
      Counting size g₂ ∧ g₂.readsLeft < g₁.readsLeft := by
    intro n g₁ g₂ h₁ h₂ hcounting
    apply hcounting.progress (hsends n g₁ h₁) ((afterInputs_again h₁).symm.trans h₂)
  obtain ⟨n, g₁, b, hn, hagain, hcounting, hround⟩ := leaves_of_measure hstep h
  obtain ⟨r, g', rfl⟩ := Waits.leave (Or.inr ⟨size, hcounting⟩) hround
  exact ⟨n + 1, r, g', by omega, (afterInputs_again hagain).trans hround⟩

end

/-- On every endless supply of bytes on which the reads that complete the header stay in the
buffer and announce little, `process_response` on a fresh request returns after finitely many
reads. -/
theorem processResponse_terminates {headerCallback : Bool} {next : ℕ} {ws : ℕ → List UInt8}
    (hsends : KeepsSending (gfcCreate headerCallback next) ws)
    (hsafe : EntersInBuffer (gfcCreate headerCallback next) ws)
    (hlittle : AnnouncesLittle (gfcCreate headerCallback next) ws) :
  ∃ n r g, n ≤ 2 ^ 32 + 2 * rdBufSize + 1 ∧
    afterInputs round (gfcCreate headerCallback next) ws n = .leave (some (r, g))
  := by
  have hstep : ∀ n g₁ g₂, afterInputs round (gfcCreate headerCallback next) ws n = .again g₁ →
      afterInputs round (gfcCreate headerCallback next) ws (n + 1) = .again g₂ →
      Waits g₁ → Waits g₂ ∧ g₂.readsLeft < g₁.readsLeft := by
    intro n g₁ g₂ h₁ h₂ hwaits
    have hround := (afterInputs_again h₁).symm.trans h₂
    rcases hwaits with hhead | ⟨size, hcounting⟩
    · apply hhead.progress (hsends n g₁ h₁) (hsafe n g₁ h₁) (hlittle n g₁ h₁ hhead.sm) hround
    · obtain ⟨hcounting', hlt⟩ := hcounting.progress (hsends n g₁ h₁) hround
      exact ⟨Or.inr ⟨size, hcounting'⟩, hlt⟩
  have hstart : Waits (gfcCreate headerCallback next) := Or.inl (head_create headerCallback next)
  obtain ⟨n, g, b, hn, hagain, hwaits, hround⟩ := leaves_of_measure hstep hstart
  obtain ⟨r, g', rfl⟩ := hwaits.leave hround
  have hleft : (gfcCreate headerCallback next).readsLeft = 2 ^ 32 + 2 * rdBufSize := rfl
  rw [hleft] at hn
  exact ⟨n + 1, r, g', by omega, (afterInputs_again hagain).trans hround⟩

/-! ### A header in the first read -/

/-- A fresh request on which the first read brings the header. -/
theorem round_okHeader {ds : List UInt8} {spaces : ℕ} {first : List UInt8} (hne : ds ≠ [])
    (hds : ∀ c ∈ ds, isDigit c = true) (headerCallback : Bool) (next : ℕ)
    (hbound : (okHeader ds spaces ++ first).length ≤ rdBufSize) :
  ∃ g, Behind (atoi ds % 2 ^ 32).toNat (okHeader ds spaces).length first g ∧
    round (gfcCreate headerCallback next) (okHeader ds spaces ++ first) = finish (parse g)
  := by
  obtain ⟨hrequest, hwindow⟩ :=
    window_of_header (g := gfcCreate headerCallback next) rfl rfl
  obtain ⟨g, hparse, hbehind, -⟩ :=
    parse_header_digits hne hds hbound headerCallback next
  refine ⟨g, hbehind, ?_⟩
  rw [round_eq hwindow (by omega), parse_of_parseHeader hparse (by rw [hbehind.sm]; rfl)]

theorem isDigit_one (c : UInt8) (hc : c ∈ ascii "1") :
  isDigit c = true
  := List.all_eq_true.mp (by decide : (ascii "1").all isDigit = true) c hc

/-- A server that sends a header and then one byte again and again. -/
def singleReads (header : List UInt8) : ℕ → List UInt8
  | 0 => header
  | _ + 1 => ascii "A"

/-- Behind the header of a file of one byte, the loop is in the stage of the content. -/
theorem singleReads_counting {n : ℕ} {g : Gfcrequest}
    (h : afterInputs round (gfcCreate false 0) (singleReads (okHeader (ascii "1") 0)) (n + 1)
      = .again g) :
  Counting 16 g
  := by
  induction n generalizing g with
  | zero =>
      obtain ⟨g', hbehind, hround⟩ :=
        @round_okHeader (ascii "1") 0 [] (by decide) isDigit_one false 0 (by decide)
      rw [List.append_nil] at hround
      have hparse : finish (parse g') = .again g := hround.symm.trans h
      apply hbehind.counting (by decide) (by decide) hparse
  | succ n ih =>
      cases hn : afterInputs round (gfcCreate false 0) (singleReads (okHeader (ascii "1") 0))
          (n + 1) with
      | leave b =>
          rw [afterInputs, hn] at h
          cases h
      | again g' =>
          rw [afterInputs_again hn] at h
          have hfits : Fits g' [singleReads (okHeader (ascii "1") 0) (n + 1)] := by
            have hone : (ascii "A").length = 1 := rfl
            rintro w ⟨⟩ hpos
            rw [singleReads, hone]
            constructor
            · decide
            · omega
          apply ((ih hn).progress hfits h).1

theorem processResponse_terminates_single :
  ∃ n r g, n ≤ 2 ^ 32 + 2 * rdBufSize + 1 ∧
    afterInputs round (gfcCreate false 0) (singleReads (okHeader (ascii "1") 0)) n
      = .leave (some (r, g))
  := by
  have hsm : ∀ {n g}, afterInputs round (gfcCreate false 0)
      (singleReads (okHeader (ascii "1") 0)) (n + 1) = .again g → g.sm.afterPath ≠ false := by
    intro n g h
    rw [(singleReads_counting h).head.sm]
    decide
  apply processResponse_terminates
  · rintro (_ | n) g h w ⟨⟩ hpos
    · cases h
      decide
    · have hone : (ascii "A").length = 1 := rfl
      rw [singleReads, hone]
      constructor
      · decide
      · omega
  · rintro (_ | n) g h w ⟨⟩ hpath
    · cases h
      intro _
      decide
    · apply absurd hpath (hsm h)
  · rintro (_ | n) g h hpath -
    · cases h
      obtain ⟨g, hparse, hbehind, -⟩ :=
        @parse_header_digits (ascii "1") 0 [] (by decide) isDigit_one (by decide) false 0
      rw [List.append_nil] at hparse
      rw [singleReads, hparse]
      dsimp only
      rw [hbehind.fileLength, hbehind.contentPt]
      decide
    · apply absurd hpath (hsm h)

/-- The head of the loop behind a header of `size` bytes that announces more than the counters
can hold with it, with as many bytes of the body as bring the pointer to `content_pt`. -/
structure Wrapping (size : ℕ) (g : Gfcrequest) : Prop where
  sm : g.sm = .content
  pos : 0 < size
  small : size < rdBufSize
  contentPt : g.contentPt = g.rxBytes
  counted : g.bytesWritten = g.totalRxBytes
  phase : g.contentPt = (size + g.totalRxBytes) % rdBufSize
  total : size + g.totalRxBytes ≤ 2 ^ 32
  much : 2 ^ 32 < g.fileLength + size

section

variable {size : ℕ} {g g' : Gfcrequest} {w : List UInt8}

/-- The number of bytes read when the next read has filled the buffer, from `total` on with the
pointer at `pt`. -/
theorem wrap_around {total pt : ℕ} (hpos : 0 < size) (hsmall : size < 8192)
    (hphase : pt = (size + total) % 8192) (htotal : size + total ≤ 2 ^ 32) :
  size + (total + (8192 - pt)) % 2 ^ 32 ≤ 2 ^ 32 ∧
    (size + (total + (8192 - pt)) % 2 ^ 32) % 8192 = 0
  := by
  have hparts := Nat.div_add_mod (size + total) 8192
  have hlt : pt < 8192 := by omega
  rw [← hphase] at hparts
  generalize (size + total) / 8192 = k at hparts
  rcases Nat.lt_or_eq_of_le htotal with hless | hfull
  · have hk : k + 1 ≤ 524288 := by omega
    have hsum : size + (total + (8192 - pt)) = 8192 * (k + 1) := by omega
    rw [Nat.mod_eq_of_lt (by omega), hsum]
    omega
  · have hzero : pt = 0 := by omega
    subst hzero
    omega

/-- The next read is asked to fill the rest of the buffer. -/
theorem Wrapping.requestSize (h : Wrapping size g) :
  g.requestSize = 8192 - g.contentPt
  := by
  have hphase := h.phase
  have hsmall := h.small
  have hmuch := h.much
  rw [rdBufSize_eq] at hphase hsmall
  have hnext := (wrap_around h.pos hsmall hphase h.total).1
  have hunclipped : ¬ (g.fileLength : ℤ) <
      (((8192 : ℕ) : ℤ) - g.contentPt + g.totalRxBytes) % 2 ^ 32 := by
    omega
  simp only [Gfcrequest.requestSize, h.sm, StateMachine.afterPath, rdBufSize_eq, true_and]
  rw [if_neg hunclipped]
  rfl

/-- A read that fills the rest of the buffer does not complete the file, also where the counter
passes `2 ^ 32` and begins again. -/
theorem Wrapping.fill (h : Wrapping size g) (hw : (w.length : ℤ) = 8192 - g.contentPt) :
  ∃ g', round g w = .again g' ∧ Wrapping size g' ∧ g'.contentPt = 0
  := by
  have hpos := h.pos
  have hpt := h.contentPt
  have hphase := h.phase
  have hsmall := h.small
  have hmuch := h.much
  have hcounted := h.counted
  have hrequest := h.requestSize
  rw [rdBufSize_eq] at hphase hsmall
  have hlt : g.contentPt < 8192 := by omega
  have hw : w.length = 8192 - g.contentPt := by omega
  obtain ⟨htotal, hmod⟩ := wrap_around hpos hsmall hphase h.total
  rw [← hw] at htotal hmod
  have hwindow : g.InWindow := by
    refine ⟨?_, ?_, ?_⟩
    · rw [rdBufSize_eq]
      omega
    · omega
    · rw [hrequest, rdBufSize_eq]
      rfl
  have hrx : (g.receive w).rxBytes = 8192 := by
    simp only [Gfcrequest.receive, unsignedAdd]
    omega
  have hsum : (g.receive w).totalRxBytes = (g.totalRxBytes + w.length) % 2 ^ 32 := rfl
  have hbytes : (g.receive w).bytesWritten = g.totalRxBytes := hcounted
  have hcontent : (g.receive w).contentPt = g.contentPt := rfl
  have hfile : (g.receive w).fileLength = g.fileLength := rfl
  have hsm : (g.receive w).sm = .content := h.sm
  rw [round_eq hwindow (by omega), parse_of_content hsm]
  generalize g.receive w = g₁ at hrx hsum hbytes hcontent hfile hsm
  rw [← hsum] at htotal hmod
  have hend : g₁.handOver.contentPt = rdBufSize := by
    simp only [Gfcrequest.handOver, rdBufSize_eq]
    omega
  have hwritten : g₁.handOver.bytesWritten = g₁.totalRxBytes := by
    simp only [Gfcrequest.handOver, unsignedAdd, hbytes, hrx, hcontent]
    rw [hsum, hw]
  have hparse : parseContent g₁ = { g₁.handOver with contentPt := 0, rxBytes := 0 } := by
    have hunfinished : ¬ g₁.fileLength ≤ g₁.handOver.bytesWritten := by
      omega
    rw [parseContent, if_pos (by omega), Gfcrequest.rewind, if_pos hend]
    apply if_neg hunfinished
  rw [hparse, if_neg (by simp [Gfcrequest.handOver, hsm])]
  refine ⟨_, finish_again, ⟨hsm, hpos, h.small, rfl, hwritten, ?_, htotal, ?_⟩, rfl⟩
  · rw [rdBufSize_eq]
    apply hmod.symm
  · rw [← hfile] at hmuch
    apply hmuch

end

/-- A server that sends the header, then as many bytes as fill the buffer, and then a full
buffer each time. -/
def fillingReads (header : List UInt8) : ℕ → List UInt8
  | 0 => header
  | 1 => List.replicate (rdBufSize - header.length) 65
  | _ + 2 => List.replicate rdBufSize 65

/-- When the length announced is too large, this server keeps `process_response` in the loop. -/
theorem fillingReads_again {ds : List UInt8} {spaces : ℕ} (hne : ds ≠ [])
    (hds : ∀ c ∈ ds, isDigit c = true) (hsize : (okHeader ds spaces).length < rdBufSize)
    (hmuch : 2 ^ 32 < (atoi ds % 2 ^ 32).toNat + (okHeader ds spaces).length)
    (headerCallback : Bool) (next n : ℕ) :
  ∃ g, afterInputs round (gfcCreate headerCallback next) (fillingReads (okHeader ds spaces))
      (n + 1) = .again g ∧ Wrapping (okHeader ds spaces).length g ∧
    ((fillingReads (okHeader ds spaces) (n + 1)).length : ℤ) = 8192 - g.contentPt
  := by
  rw [rdBufSize_eq] at hsize
  induction n with
  | zero =>
      have hbound : (okHeader ds spaces ++ []).length ≤ rdBufSize := by
        rw [List.append_nil, rdBufSize_eq]
        omega
      obtain ⟨g, hbehind, hround⟩ := round_okHeader hne hds headerCallback next hbound
      rw [List.append_nil] at hround
      have hpt := hbehind.contentPt
      have hrx := hbehind.rxBytes
      have htotal := hbehind.total
      have hbytes := hbehind.bytesWritten
      have hfile := hbehind.fileLength
      have hlength := length_okHeader ds spaces
      rw [List.length_nil] at hrx htotal
      have hidle : parseContent g = g := by
        rw [parseContent, if_neg (by omega)]
      rw [parse_of_content hbehind.sm, hidle, if_neg (by rw [hbehind.sm]; decide)] at hround
      refine ⟨g, hround, ⟨hbehind.sm, ?_, ?_, ?_, ?_, ?_, ?_, ?_⟩, ?_⟩
      · omega
      · rw [rdBufSize_eq]
        omega
      · omega
      · omega
      · rw [rdBufSize_eq]
        omega
      · omega
      · omega
      · rw [fillingReads, List.length_replicate, rdBufSize_eq]
        omega
  | succ n ih =>
      obtain ⟨g, hagain, hwrapping, hlength⟩ := ih
      obtain ⟨g', hround, hwrapping', hpt⟩ := hwrapping.fill hlength
      refine ⟨g', (afterInputs_again hagain).trans hround, hwrapping', ?_⟩
      rw [fillingReads, List.length_replicate, rdBufSize_eq, hpt]
      rfl

/-- Each of its reads is what `read` may return. -/
theorem fillingReads_keepsSending {ds : List UInt8} {spaces : ℕ} (hne : ds ≠ [])
    (hds : ∀ c ∈ ds, isDigit c = true) (hsize : (okHeader ds spaces).length < rdBufSize)
    (hmuch : 2 ^ 32 < (atoi ds % 2 ^ 32).toNat + (okHeader ds spaces).length)
    (headerCallback : Bool) (next : ℕ) :
  KeepsSending (gfcCreate headerCallback next) (fillingReads (okHeader ds spaces))
  := by
  rintro (_ | n) g hagain w ⟨⟩ hpos
  · cases hagain
    have hrequest := (window_of_header (g := gfcCreate headerCallback next) rfl rfl).1
    have hlength := length_okHeader ds spaces
    rw [rdBufSize_eq] at hsize
    rw [fillingReads, hrequest]
    constructor
    · apply List.ne_nil_of_length_pos
      omega
    · omega
  · obtain ⟨g', hagain', hwrapping, hlength⟩ :=
      fillingReads_again hne hds hsize hmuch headerCallback next n
    rw [hagain'] at hagain
    cases hagain
    have hrequest := hwrapping.requestSize
    constructor
    · apply List.ne_nil_of_length_pos
      omega
    · omega

/-- When the first read brings the whole header, `process_response` returns on every endless
supply exactly when the length announced and the size of the header are at most `2 ^ 32`
together. -/
theorem ends_iff {ds : List UInt8} {spaces : ℕ} (hne : ds ≠ [])
    (hds : ∀ c ∈ ds, isDigit c = true) (hsize : (okHeader ds spaces).length < rdBufSize)
    (headerCallback : Bool) (next : ℕ) :
  (∀ ws : ℕ → List UInt8, okHeader ds spaces <+: ws 0 →
      KeepsSending (gfcCreate headerCallback next) ws →
      ∃ n r g, afterInputs round (gfcCreate headerCallback next) ws n = .leave (some (r, g))) ↔
    (atoi ds % 2 ^ 32).toNat + (okHeader ds spaces).length ≤ 2 ^ 32
  := by
  constructor
  · intro hends
    by_contra hmuch
    have hmuch := Nat.lt_of_not_le hmuch
    obtain ⟨n, r, g, hleave⟩ := hends (fillingReads (okHeader ds spaces)) (List.prefix_refl _)
      (fillingReads_keepsSending hne hds hsize hmuch headerCallback next)
    cases n with
    | zero => cases hleave
    | succ n =>
        obtain ⟨g', hagain, -⟩ := fillingReads_again hne hds hsize hmuch headerCallback next n
        rw [hagain] at hleave
        cases hleave
  · rintro hlittle ws ⟨first, hfirst⟩ hsends
    have hrequest := (window_of_header (g := gfcCreate headerCallback next) rfl rfl).1
    have hfits := hsends 0 _ (afterInputs_zero _ _) (ws 0) rfl (by rw [hrequest]; decide)
    have hbound : (okHeader ds spaces ++ first).length ≤ rdBufSize := by
      have hlen := hfits.2
      rw [hrequest, ← hfirst] at hlen
      rw [rdBufSize_eq]
      omega
    obtain ⟨g, hbehind, hround⟩ := round_okHeader hne hds headerCallback next hbound
    rw [hfirst] at hround
    cases hcase : finish (parse g) with
    | leave b =>
        rw [hcase] at hround
        obtain ⟨r, g', rfl⟩ := Waits.leave (Or.inl (head_create headerCallback next)) hround
        exact ⟨1, r, g', hround⟩
    | again g' =>
        rw [hcase] at hround
        have hpos : 0 < (okHeader ds spaces).length := by
          rw [length_okHeader]
          omega
        have hsends' : KeepsSending g' (fun i => ws (i + 1)) := by
          intro n g'' hagain
          apply hsends (n + 1)
          rw [afterInputs_next hround]
          apply hagain
        obtain ⟨n, r, g'', -, hleave⟩ := (hbehind.counting hpos hlittle hcase).ends hsends'
        exact ⟨n + 1, r, g'', (afterInputs_next hround n).trans hleave⟩

theorem ends_iff_one :
  (∀ ws : ℕ → List UInt8, okHeader (ascii "1") 0 <+: ws 0 → KeepsSending (gfcCreate false 0) ws →
      ∃ n r g, afterInputs round (gfcCreate false 0) ws n = .leave (some (r, g))) ↔
    (atoi (ascii "1") % 2 ^ 32).toNat + (okHeader (ascii "1") 0).length ≤ 2 ^ 32
  := by
  apply ends_iff
  · decide
  · exact isDigit_one
  · decide

end GetFile.Client
