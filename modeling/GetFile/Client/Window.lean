import GetFile.Client.Header

/-!
# Client: the bounds of the reads and of the bytes handed over

`process_response` reads at `buffer + content_pt` and hands over what lies between
`content_pt` and `rx_bytes`. All these ranges are inside the buffer exactly when the header is
not completed by a read that brings the bytes received above `RDBUFSIZE` (`windowOk_iff`):
`rx_bytes` counts the bytes of all reads, although those of the header land on each other.
-/

namespace GetFile.Client

open CString Transition

/-- The ranges handed over lie inside the buffer. -/
def Inside (g : Gfcrequest) : Prop :=
  ∀ x ∈ g.writes, x.1 + x.2.length ≤ rdBufSize

/-- In a run from `g` on the reads `ws`, every range that `read` is asked to fill and every
range that `write_callback` gets is inside the buffer. -/
structure WindowOk (g : Gfcrequest) (ws : List (List UInt8)) : Prop where
  heads : Always round (fun g _ => g.InWindow ∧ Inside g) g ws
  result : ∀ r g', feed round lastRound g ws = some (r, g') → Inside g'

/-- The same for the rest of a run behind a round. -/
structure RestOk (x : Round Gfcrequest (Option (ℤ × Gfcrequest))) (ws : List (List UInt8)) :
    Prop where
  heads : x.Always round (fun g _ => g.InWindow ∧ Inside g) ws
  result : ∀ r g', x.feed round lastRound ws = some (r, g') → Inside g'

/-- The bytes received complete the header: `parse_path` accepts the end marker. -/
def CompletesHeader (g : Gfcrequest) : Prop :=
  (parseHeader g).2.sm = .content

/-- When the next read completes the header, at most `RDBUFSIZE` bytes have been received
with it. -/
def SafeEntry (g : Gfcrequest) (ws : List (List UInt8)) : Prop :=
  ∀ w ∈ ws.head?, g.sm.afterPath = false → CompletesHeader (g.receive w) →
    g.rxBytes + w.length ≤ rdBufSize

/-! ### One round -/

/-- Without reads, only the head of the loop is to be checked. -/
theorem windowOk_nil {g : Gfcrequest} (hwindow : g.InWindow) (hinside : Inside g) :
  WindowOk g []
  := by
  refine ⟨⟨hwindow, hinside⟩, ?_⟩
  intro r g' hresult
  rw [feed_nil, lastRound, if_neg (not_not_intro hwindow)] at hresult
  cases hresult
  apply hinside

/-- The head of the loop and then the rest of the run. -/
theorem windowOk_cons (g : Gfcrequest) (w : List UInt8) (ws : List (List UInt8)) :
  WindowOk g (w :: ws) ↔ (g.InWindow ∧ Inside g) ∧ RestOk (round g w) ws
  := by
  constructor
  · rintro ⟨heads, result⟩
    rw [always_cons] at heads
    rw [feed_cons] at result
    exact ⟨heads.1, heads.2, result⟩
  · rintro ⟨hhead, heads, result⟩
    constructor
    · rw [always_cons]
      exact ⟨hhead, heads⟩
    · rw [feed_cons]
      apply result

/-- A round that goes on leaves the run from its state. -/
theorem restOk_again (g : Gfcrequest) (ws : List (List UInt8)) :
  RestOk (.again g) ws ↔ WindowOk g ws
  := by
  constructor
  · rintro ⟨heads, result⟩
    exact ⟨heads, result⟩
  · rintro ⟨heads, result⟩
    exact ⟨heads, result⟩

/-- A round that leaves the loop leaves the result to be checked. -/
theorem restOk_leave (r : ℤ) (g : Gfcrequest) (ws : List (List UInt8)) :
  RestOk (.leave (some (r, g))) ws ↔ Inside g
  := by
  constructor
  · intro h
    apply h.result r g
    rw [Round.feed_leave]
  · intro hinside
    refine ⟨Round.always_leave _ _, ?_⟩
    intro r' g' hresult
    cases hresult
    apply hinside

/-! ### The stage of the content -/

/-- In front of `parse_content`, with the bytes received inside the buffer. -/
structure FrontContent (g : Gfcrequest) : Prop where
  sm : g.sm = .content
  start : g.contentPt ≤ g.rxBytes
  rxBytes_le : g.rxBytes ≤ rdBufSize
  small : g.bytesWritten < 2 ^ 32
  counted : unsignedAdd g.bytesWritten (g.rxBytes - g.contentPt) = g.totalRxBytes
  idle : g.contentPt = g.rxBytes → g.totalRxBytes = 0
  inside : Inside g

/-- The head of the loop in the stage of the content: bytes of the body are missing, or none
has come. -/
structure ContentHead (g : Gfcrequest) : Prop where
  sm : g.sm = .content
  contentPt : g.contentPt = g.rxBytes
  rxBytes_le : g.rxBytes ≤ rdBufSize
  small : g.totalRxBytes < 2 ^ 32
  counted : g.bytesWritten = g.totalRxBytes
  unfinished : g.totalRxBytes < g.fileLength ∨ g.totalRxBytes = 0
  inside : Inside g

theorem FrontContent.finish {g : Gfcrequest} (h : FrontContent g) :
  (∃ g', Client.finish (parse g) = .leave (some (0, g')) ∧ Inside g') ∨
    ∃ g', Client.finish (parse g) = .again g' ∧ ContentHead g'
  := by
  have hstart := h.start
  have hcounted := h.counted
  have hsmall := h.small
  rw [parse_of_content h.sm]
  rcases Nat.eq_or_lt_of_le hstart with heq | hlt
  · have hidle : parseContent g = g := by
      rw [parseContent, if_neg (by omega)]
    have hzero := h.idle heq
    right
    rw [hidle, if_neg (by rw [h.sm]; decide)]
    refine ⟨g, finish_again, h.sm, heq, h.rxBytes_le, by omega, ?_, Or.inr hzero, h.inside⟩
    rw [unsignedAdd] at hcounted
    omega
  · have hinside : Inside g.handOver := by
      intro x hx
      rcases List.mem_append.mp hx with hx | hx
      · apply h.inside x hx
      · rw [List.mem_singleton] at hx
        rw [hx, Gfcrequest.waiting, Buffer.length_slice]
        have hbound := h.rxBytes_le
        dsimp only
        omega
    have hbytes : g.handOver.bytesWritten = g.totalRxBytes := hcounted
    have hpt : g.handOver.contentPt = g.rxBytes := by
      simp only [Gfcrequest.handOver]
      omega
    have hpt' := rewind_contentPt hpt
    have hrx' : g.handOver.rewind.rxBytes ≤ rdBufSize := (rewind_rxBytes_le _).trans h.rxBytes_le
    have hinside' : Inside g.handOver.rewind := by
      rw [Inside, rewind_writes]
      apply hinside
    have hbytes' := (rewind_bytesWritten _).trans hbytes
    have hsm' : g.handOver.rewind.sm = .content := (rewind_sm _).trans h.sm
    have htotal' : g.handOver.rewind.totalRxBytes = g.totalRxBytes := rewind_totalRxBytes _
    rw [parseContent, if_pos hlt]
    generalize g.handOver.rewind = g' at hpt' hrx' hinside' hbytes' hsm' htotal'
    dsimp only
    by_cases hdone : g'.fileLength ≤ g'.bytesWritten
    · left
      rw [if_pos hdone, if_pos rfl]
      exact ⟨_, finish_done, hinside'⟩
    · right
      rw [if_neg hdone, if_neg (by rw [hsm']; decide)]
      refine ⟨g', finish_again, hsm', hpt', hrx', ?_, ?_, ?_, hinside'⟩
      · rw [htotal', ← hcounted, unsignedAdd]
        omega
      · omega
      · left
        omega

/-- The next read is inside the buffer. -/
theorem ContentHead.inWindow {g : Gfcrequest} (h : ContentHead g) :
  g.InWindow
  := by
  have hpt := h.contentPt
  have hbound := h.rxBytes_le
  have hsmall := h.small
  have hunfinished := h.unfinished
  rw [rdBufSize_eq] at hbound
  have hrequest : 0 ≤ g.requestSize ∧ g.requestSize ≤ 8192 - g.contentPt := by
    simp only [Gfcrequest.requestSize]
    by_cases hclip : g.sm.afterPath = true ∧
        (g.fileLength : ℤ) < ((rdBufSize : ℤ) - g.contentPt + g.totalRxBytes) % 2 ^ 32
    · have hlt := hclip.2
      rw [rdBufSize_eq] at hlt
      rw [if_pos hclip, Int.bmod_eq_of_le (by omega) (by omega)]
      omega
    · rw [if_neg hclip, rdBufSize_eq]
      omega
  refine ⟨?_, hrequest.1, ?_⟩
  · rw [rdBufSize_eq]
    omega
  · rw [rdBufSize_eq]
    apply hrequest.2

/-- A read leaves the request in front of `parse_content`. -/
theorem ContentHead.receive {g : Gfcrequest} {w : List UInt8} (h : ContentHead g) (hw : w ≠ [])
    (hlen : w.length ≤ g.requestSize) :
  FrontContent (g.receive w)
  := by
  have hpos := List.length_pos_iff.mpr hw
  have hpt := h.contentPt
  have hbound := h.rxBytes_le
  have hsmall := h.small
  have hcounted := h.counted
  obtain ⟨-, -, hrequest⟩ := h.inWindow
  rw [rdBufSize_eq] at hbound hrequest
  have hrx : (g.receive w).rxBytes = g.rxBytes + w.length := by
    simp only [Gfcrequest.receive, unsignedAdd]
    omega
  have hpt' : (g.receive w).contentPt = g.contentPt := rfl
  refine ⟨h.sm, by omega, ?_, ?_, ?_, by omega, h.inside⟩
  · rw [rdBufSize_eq]
    omega
  · exact lt_of_eq_of_lt hcounted hsmall
  · have hsum : (g.receive w).rxBytes - (g.receive w).contentPt = w.length := by omega
    rw [hsum]
    simp only [Gfcrequest.receive, hcounted]

/-- A round from the head of the loop in the stage of the content. -/
theorem ContentHead.round {g : Gfcrequest} {w : List UInt8} {ws : List (List UInt8)}
    (h : ContentHead g) (hfits : Fits g (w :: ws)) :
  (∃ r g', Client.round g w = .leave (some (r, g')) ∧ Inside g') ∨
    ∃ g', Client.round g w = .again g' ∧ ContentHead g'
  := by
  by_cases hzero : g.requestSize = 0
  · left
    refine ⟨-1, g, ?_, h.inside⟩
    rw [Client.round, if_neg (not_not_intro h.inWindow), if_pos hzero]
  · have hpos : 0 < g.requestSize := lt_of_le_of_ne h.inWindow.2.1 (Ne.symm hzero)
    obtain ⟨hw, hlen⟩ := hfits w rfl hpos
    rw [round_eq h.inWindow hpos]
    rcases (h.receive hw hlen).finish with ⟨g', hround, hinside⟩ | ⟨g', hround, hhead⟩
    · left
      exact ⟨0, g', hround, hinside⟩
    · right
      exact ⟨g', hround, hhead⟩

/-- From the head of the loop in the stage of the content, the run stays inside the buffer, and
the stage stays. -/
theorem ContentHead.run {g : Gfcrequest} {ws : List (List UInt8)} (h : ContentHead g)
    (hreads : Always Client.round Fits g ws) :
  WindowOk g ws ∧ Always Client.round SafeEntry g ws
  := by
  induction ws generalizing g with
  | nil =>
      constructor
      · apply windowOk_nil h.inWindow h.inside
      · rintro w ⟨⟩
  | cons w ws ih =>
      have hsafe : SafeEntry g (w :: ws) := by
        intro w' _ hsm
        rw [h.sm] at hsm
        cases hsm
      rw [windowOk_cons, always_cons]
      rcases h.round hreads.head with ⟨r, g', hround, hinside⟩ | ⟨g', hround, hhead⟩
      · rw [hround, restOk_leave]
        exact ⟨⟨⟨h.inWindow, h.inside⟩, hinside⟩, hsafe, Round.always_leave _ _⟩
      · obtain ⟨hwindow, hrest⟩ := ih hhead (hreads.next hround)
        rw [hround, restOk_again]
        exact ⟨⟨⟨h.inWindow, h.inside⟩, hwindow⟩, hsafe, hrest⟩

/-! ### Entering the stage of the content -/

/-- The stage of the content entered with the bytes received inside the buffer. -/
theorem Entered.front {g g' : Gfcrequest} (h : Entered g g') (hrx : g.rxBytes ≤ rdBufSize) :
  FrontContent g'
  := by
  have hpt := h.contentPt_le
  have hrx' := h.rxBytes
  have htotal := h.total
  have hbytes := h.bytesWritten
  rw [rdBufSize_eq] at hrx
  refine ⟨h.sm, by omega, ?_, by omega, ?_, by omega, ?_⟩
  · rw [rdBufSize_eq]
    omega
  · rw [unsignedAdd]
    omega
  · intro x hx
    rw [h.writes] at hx
    cases hx

/-- The stage of the content entered with more bytes received than the buffer holds:
`parse_content` hands over a range that ends outside the buffer. -/
theorem Entered.outside {g g' : Gfcrequest} (h : Entered g g') (hrx : rdBufSize < g.rxBytes) :
  ∃ g'', ¬ Inside g'' ∧
    (finish (parse g') = .leave (some (0, g'')) ∨ finish (parse g') = .again g'')
  := by
  have hpt := h.room
  have hrx' := h.rxBytes
  have hout : ¬ Inside g'.handOver.rewind := by
    have hmem : (g'.contentPt, g'.waiting) ∈ g'.handOver.rewind.writes := by
      rw [rewind_writes]
      simp [Gfcrequest.handOver]
    intro hinside
    have hrange := hinside _ hmem
    rw [Gfcrequest.waiting, Buffer.length_slice] at hrange
    dsimp only at hrange
    omega
  have hsm : g'.handOver.rewind.sm = .content := (rewind_sm _).trans h.sm
  have hlt : g'.contentPt < g'.rxBytes := by omega
  rw [parse_of_content h.sm, parseContent, if_pos hlt]
  generalize g'.handOver.rewind = g'' at hout hsm
  dsimp only
  by_cases hdone : g''.fileLength ≤ g''.bytesWritten
  · rw [if_pos hdone, if_pos rfl]
    refine ⟨{ g'' with sm := .done }, hout, ?_⟩
    left
    exact finish_done
  · rw [if_neg hdone, if_neg (by rw [hsm]; decide)]
    refine ⟨g'', hout, ?_⟩
    right
    exact finish_again

/-- In front of `parse_content` with the bytes received inside the buffer, the rest of the run
stays inside. -/
theorem FrontContent.run {g : Gfcrequest} {ws : List (List UInt8)} (h : FrontContent g)
    (hreads : (Client.finish (parse g)).Always round Fits ws) :
  RestOk (Client.finish (parse g)) ws ∧ (Client.finish (parse g)).Always round SafeEntry ws
  := by
  rcases h.finish with ⟨g', hround, hinside⟩ | ⟨g', hround, hhead⟩
  · rw [hround, restOk_leave]
    exact ⟨hinside, Round.always_leave _ _⟩
  · rw [hround] at hreads ⊢
    rw [restOk_again]
    apply hhead.run hreads

/-- In the stages of the header, the next read is inside the buffer, and nothing has been handed
over. -/
theorem Head.inWindow {g : Gfcrequest} (h : Head g) :
  g.InWindow ∧ Inside g
  := by
  refine ⟨(window_of_header h.sm h.early.contentPt).2, ?_⟩
  intro x hx
  rw [h.early.writes] at hx
  cases hx

/-- A round that enters the stage of the content: the run stays inside the buffer exactly when at
most `RDBUFSIZE` bytes have been received. -/
theorem Entered.restOk_iff {g g' : Gfcrequest} {ws : List (List UInt8)} (h : Entered g g')
    (hreads : (Client.finish (parse g')).Always round Fits ws) :
  RestOk (Client.finish (parse g')) ws ↔
    g.rxBytes ≤ rdBufSize ∧ (Client.finish (parse g')).Always round SafeEntry ws
  := by
  by_cases hle : g.rxBytes ≤ rdBufSize
  · obtain ⟨hok, hsafe⟩ := (h.front hle).run hreads
    constructor
    · intro _
      exact ⟨hle, hsafe⟩
    · intro _
      apply hok
  · constructor
    · intro hok
      obtain ⟨g'', hout, hleave | hagain⟩ := h.outside (by omega)
      · rw [hleave, restOk_leave] at hok
        exact absurd hok hout
      · rw [hagain, restOk_again] at hok
        exact absurd hok.heads.head.2 hout
    · rintro ⟨hrx, -⟩
      exact absurd hrx hle

/-- A run from the stages of the header. -/
theorem Head.window_iff {g : Gfcrequest} {ws : List (List UInt8)} (h : Head g)
    (hreads : Always Client.round Fits g ws) :
  WindowOk g ws ↔ Always Client.round SafeEntry g ws
  := by
  induction ws generalizing g with
  | nil =>
      constructor
      · rintro - w ⟨⟩
      · intro _
        apply windowOk_nil h.inWindow.1 h.inWindow.2
  | cons w ws ih =>
      obtain ⟨hw, hlen⟩ := h.fits hreads.head
      have hcase := h.round hw hlen
      have hrx := (h.early.receive h.rxBytes_le hlen).2
      rw [windowOk_cons, and_iff_right h.inWindow, always_cons]
      generalize hround : Client.round g w = x at hcase
      cases hcase with
      | @wait g' header head kept =>
          have hsafe : SafeEntry g (w :: ws) := by
            rintro w' ⟨⟩ - hcomplete
            rw [CompletesHeader, header] at hcomplete
            have hsm := head.sm
            rw [hcomplete] at hsm
            cases hsm
          rw [restOk_again, ih head (hreads.next hround), Round.always_again, and_iff_right hsafe]
      | @leave r g' header writes result =>
          rw [restOk_leave]
          constructor
          · intro _
            refine ⟨?_, Round.always_leave _ _⟩
            rintro w' ⟨⟩ - hcomplete
            exact absurd hcomplete header
          · rintro - x hx
            rw [writes] at hx
            cases hx
      | @enter g' header entered =>
          have hcomplete : CompletesHeader (g.receive w) := by
            rw [CompletesHeader, header]
            apply entered.sm
          have hsafe : SafeEntry g (w :: ws) ↔ (g.receive w).rxBytes ≤ rdBufSize := by
            rw [hrx]
            constructor
            · intro hsafe
              exact hsafe w rfl h.sm hcomplete
            · rintro hle w' ⟨⟩ - -
              apply hle
          have hrest := (always_cons g w ws).mp hreads
          rw [hround] at hrest
          rw [entered.restOk_iff hrest.2, hsafe]

/-- In a run on a fresh request, every range that is read or handed over is inside the buffer
exactly when, in each round, a read that completes the header leaves at most `RDBUFSIZE` bytes
received. -/
theorem windowOk_iff {headerCallback : Bool} {next : ℕ} {ws : List (List UInt8)}
    (hreads : Reads (gfcCreate headerCallback next) ws) :
  WindowOk (gfcCreate headerCallback next) ws ↔
    Always round SafeEntry (gfcCreate headerCallback next) ws
  := Head.window_iff (head_create headerCallback next) hreads

theorem windowOk_iff_header :
  WindowOk (gfcCreate false 0) [okHeader (ascii "1") 0 ++ ascii "A"] ↔
    Always round SafeEntry (gfcCreate false 0) [okHeader (ascii "1") 0 ++ ascii "A"]
  := by
  apply windowOk_iff
  apply reads_create
  · decide
  · decide

/-- A read of one byte and then one that fills the buffer with the beginning of a file. -/
def overfullReads : List (List UInt8) :=
  [ascii "G", okHeader (ascii "10000") 0 ++ List.replicate 8172 65]

/-- After these reads, the range handed over ends behind the buffer. -/
theorem not_windowOk_overfullReads :
  Reads (gfcCreate false 0) overfullReads ∧ ¬ WindowOk (gfcCreate false 0) overfullReads
  := by
  have hhead := head_create false 0
  have hrx : (gfcCreate false 0).rxBytes = 0 := rfl
  have hone : (ascii "G").length = 1 := rfl
  obtain ⟨hround, hearly, hrx'⟩ := hhead.early.round_short (w := ascii "G") rfl (by omega)
  rw [overfullReads]
  generalize hw : okHeader (ascii "10000") 0 ++ List.replicate 8172 65 = w
  have hlength : w.length = 8192 := by
    have hheader : (okHeader (ascii "10000") 0).length = 20 := rfl
    rw [← hw, List.length_append, List.length_replicate, hheader]
  have hsm : ((gfcCreate false 0).receive (ascii "G")).sm = .scheme := rfl
  generalize (gfcCreate false 0).receive (ascii "G") = g at hround hearly hrx' hsm
  have hrequest := (window_of_header (g := g) (by rw [hsm]; rfl) hearly.contentPt).1
  have hreads : Reads (gfcCreate false 0) [ascii "G", w] := by
    rw [Reads, always_again hround, always_cons]
    refine ⟨?_, ?_, ?_⟩
    · rintro w' ⟨⟩ _
      constructor
      · decide
      · decide
    · rintro w' ⟨⟩ _
      constructor
      · rintro rfl
        cases hlength
      · rw [hlength, hrequest]
        rfl
    · cases round g w with
      | again g' =>
          rw [Round.always_again]
          rintro w' ⟨⟩
      | leave b => apply Round.always_leave
  refine ⟨hreads, ?_⟩
  intro hok
  have hsafe := (always_again hround).mp ((hhead.window_iff hreads).mp hok)
  have hs := begins_okHeader (ascii "10000") 0 (List.replicate 8172 65)
  rw [hw] at hs
  have hplaced := hearly.placed (List.append_nil w).symm (by omega) (by rw [rdBufSize_eq, hlength])
  have hlen : Announces (ascii "10000") 10000 :=
    announces_of_all (by decide) (by decide) (by decide) (by decide)
  have hdigits : (ascii "10000").length = 5 := rfl
  obtain ⟨g', hparse, -⟩ := hplaced.parse_header hs hlen.ne_nil hlen.digits hsm (by omega)
  have hcomplete : CompletesHeader (g.receive w) := by
    rw [CompletesHeader, hparse]
    rfl
  have hle := hsafe.2.head w rfl (by rw [hsm]; rfl) hcomplete
  rw [hrx', hrx, hone, hlength, rdBufSize_eq] at hle
  omega

end GetFile.Client
