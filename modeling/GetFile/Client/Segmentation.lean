import GetFile.CString.Stream
import GetFile.Client.Completion
import GetFile.Client.Stages

/-!
# Client: how the response is cut into reads

A response announces the length of a file and brings its bytes. When the first read brings the
whole header, `process_response` hands over the file. When the header is cut, it never does:
every read up to the stage of the content lands at the start of the buffer (`outcome_iff`).
-/

namespace GetFile.Client

open CString Transition

/-- The response with the file `body`. -/
def response (body : List UInt8) : List UInt8 :=
  okHeader (decimal body.length) 0 ++ body

/-- The file `body` is sent as a response and read in the pieces `ws`. -/
structure CutInto (headerCallback : Bool) (next : ℕ) (body : List UInt8) (ws : List (List UInt8)) :
    Prop where
  one_le : 1 ≤ body.length
  small : body.length < 2 ^ 31
  joins : ws.flatten = response body
  reads : Reads (gfcCreate headerCallback next) ws

/-- What a caller sees of the end of `process_response`: the returned value, the status, the
length of the file and the bytes handed over. -/
def outcome (x : Option (ℤ × Gfcrequest)) : Option (ℤ × Status × ℕ × List UInt8) :=
  x.map fun (r, g) => (r, g.status, g.fileLength, g.written)

/-- The first read brings the whole header. -/
def Whole (body : List UInt8) (ws : List (List UInt8)) : Prop :=
  ∃ w ∈ ws.head?, (okHeader (decimal body.length) 0).length ≤ w.length

section

variable {body : List UInt8}

theorem length_response :
  (response body).length = (decimal body.length).length + 15 + body.length
  := by
  rw [response, List.length_append, length_okHeader]

theorem begins_response :
  Begins (decimal body.length) 0 (response body)
  := begins_okHeader (decimal body.length) 0 body

/-- The file follows the header. -/
theorem getD_response {i : ℕ} (hi : (decimal body.length).length + 15 ≤ i) :
  (response body).getD i 0 = body.getD (i - ((decimal body.length).length + 15)) 0
  := by
  rw [response, List.getD_append_right _ _ _ _ (by rw [length_okHeader]; omega), length_okHeader]

/-- The header of a response is short. -/
theorem length_header_le (h : body.length < 2 ^ 31) :
  (decimal body.length).length ≤ 10
  := by
  apply length_decimal_of_lt (by decide)
  omega

/-! ### The stage of the content -/

/-- From the end of the round that has entered the stage of the content on, the status and the
length of the file stay, what waited has been handed over first, and no more bytes are handed
over than have been read. -/
theorem content_run {g g' : Gfcrequest} {ws : List (List UInt8)} {r : ℤ} (hsm : g.sm = .content)
    (hle : g.contentPt ≤ g.rxBytes) (hreads : (finish (parse g)).Always round Fits ws)
    (hresult : (finish (parse g)).feed round lastRound ws = some (r, g')) :
  g'.status = g.status ∧ g'.fileLength = g.fileLength ∧ g.written ++ g.waiting <+: g'.written ∧
    g'.written.length ≤ g.written.length + (g.rxBytes - g.contentPt) + ws.flatten.length
  := by
  induction ws generalizing g with
  | nil =>
      obtain ⟨g₁, hhanded, hround⟩ := finish_of_content hsm hle
      have hlength := hhanded.length
      generalize finish (parse g) = x at hreads hresult hround
      obtain rfl : g' = g₁ := by
        rcases hround with ⟨rfl, -⟩ | ⟨rfl, -⟩
        · rw [Round.feed_again, feed_nil, lastRound] at hresult
          split at hresult
          · cases hresult
          · cases hresult
            rfl
        · cases hresult
          rfl
      refine ⟨hhanded.status, hhanded.fileLength, ?_, ?_⟩
      · rw [hhanded.written]
      · omega
  | cons w ws ih =>
      obtain ⟨g₁, hhanded, hround⟩ := finish_of_content hsm hle
      have hlength := hhanded.length
      generalize finish (parse g) = x at hreads hresult hround
      have hstop : g' = g₁ → g'.status = g.status ∧ g'.fileLength = g.fileLength ∧
          g.written ++ g.waiting <+: g'.written ∧ g'.written.length ≤
            g.written.length + (g.rxBytes - g.contentPt) + (w :: ws).flatten.length := by
        rintro rfl
        refine ⟨hhanded.status, hhanded.fileLength, ?_, ?_⟩
        · rw [hhanded.written]
        · omega
      rcases hround with ⟨rfl, hsm₁, hpt₁⟩ | ⟨rfl, -, -⟩
      · rw [Round.feed_again, feed_cons] at hresult
        rw [Round.always_again, always_cons] at hreads
        by_cases hwindow : g₁.InWindow
        · by_cases hzero : g₁.requestSize = 0
          · rw [round, if_neg (not_not_intro hwindow), if_pos hzero] at hresult
            cases hresult
            apply hstop rfl
          · obtain ⟨hbound, hlow, hhigh⟩ := hwindow
            have hpos : 0 < g₁.requestSize := lt_of_le_of_ne hlow (Ne.symm hzero)
            obtain ⟨-, hw⟩ := hreads.1 w rfl hpos
            rw [rdBufSize_eq] at hbound hhigh
            have hrx : (g₁.receive w).rxBytes = g₁.rxBytes + w.length := by
              simp only [Gfcrequest.receive, unsignedAdd]
              omega
            have hpt : (g₁.receive w).contentPt = g₁.contentPt := rfl
            have hwritten : (g₁.receive w).written = g₁.written := rfl
            have heq := round_eq ⟨by rw [rdBufSize_eq]; omega, hlow, by rw [rdBufSize_eq]; omega⟩ hpos w
            rw [heq] at hresult
            have hrest := hreads.2
            rw [heq] at hrest
            obtain ⟨hstatus, hfile, hprefix, hle'⟩ :=
              ih (g := g₁.receive w) hsm₁ (by omega) hrest hresult
            refine ⟨hstatus.trans hhanded.status, hfile.trans hhanded.fileLength, ?_, ?_⟩
            · rw [← hhanded.written]
              apply List.IsPrefix.trans _ hprefix
              rw [hwritten]
              apply List.prefix_append
            · rw [List.flatten_cons, List.length_append]
              rw [hwritten] at hle'
              omega
        · rw [round, if_pos hwindow] at hresult
          cases hresult
      · rw [Round.feed_leave] at hresult
        cases hresult
        apply hstop rfl

/-! ### The whole header in the first read -/

theorem outcome_of_whole {headerCallback : Bool} {next : ℕ} {ws : List (List UInt8)}
    (h : CutInto headerCallback next body ws) (hwhole : Whole body ws) :
  outcome (processResponse (gfcCreate headerCallback next) ws) =
    some (0, .ok, body.length, body)
  := by
  obtain ⟨w, hhead, hlength⟩ := hwhole
  obtain ⟨ws, rfl⟩ : ∃ ws', ws = w :: ws' := by
    cases ws with
    | nil => cases hhead
    | cons v ws' =>
        cases hhead
        exact ⟨ws', rfl⟩
  have hjoins := h.joins
  rw [List.flatten_cons, response] at hjoins
  obtain ⟨first, hw⟩ : ∃ first, w = okHeader (decimal body.length) 0 ++ first := by
    have hprefix : okHeader (decimal body.length) 0 <+: w := by
      have hwhole := List.prefix_append (okHeader (decimal body.length) 0) body
      rw [← hjoins] at hwhole
      apply List.prefix_of_prefix_length_le hwhole (List.prefix_append w ws.flatten) hlength
    obtain ⟨first, hfirst⟩ := hprefix
    exact ⟨first, hfirst.symm⟩
  subst hw
  rw [List.append_assoc] at hjoins
  have hbody : first ++ ws.flatten = body := List.append_cancel_left hjoins
  have hfirst : first.length ≤ body.length := by
    rw [← hbody, List.length_append]
    omega
  have hannounces := announces_decimal h.small
  obtain ⟨g, hbehind, hrest, hrun⟩ := processResponse_header hannounces h.reads
  have hdigits := length_header_le h.small
  have hsize : (okHeader (decimal body.length) 0).length < rdBufSize := by
    rw [length_okHeader, rdBufSize_eq]
    omega
  have henters := hbehind.entersContent hsize h.small h.one_le hfirst
  obtain ⟨-, r, g', houtcome, hstatus, hend⟩ := henters.pending.run hrest
  have hnone : g.written = [] := by
    rw [Gfcrequest.written, hbehind.writes]
    rfl
  rw [hnone, List.nil_append, hbehind.waiting, hbehind.fileLength, hbody] at hend
  have hfile := (content_run hbehind.sm (by rw [hbehind.contentPt, hbehind.rxBytes]; omega) hrest
    houtcome).2.1
  rw [hrun, houtcome]
  rcases hend.result with ⟨rfl, -⟩ | ⟨-, hshort⟩
  · simp [outcome, hstatus, hbehind.status, hfile, hbehind.fileLength, hend.written]
  · omega

/-! ### A header cut into several reads -/

/-- When the stage of the content is entered and the file is handed over as it should be, the
header has ended where the body begins, and the rest of what has been received is in place. -/
theorem Entered.exact {g g' gf : Gfcrequest} {ws : List (List UInt8)} {r : ℤ} (h : Entered g g')
    (hanchored : Anchored g) (hone : 1 ≤ body.length) (hsmall : body.length < 2 ^ 31)
    (hrest : Rest (response body) g.rxBytes ws)
    (hle : g.rxBytes ≤ (response body).length)
    (hreads : (finish (parse g')).Always round Fits ws)
    (hresult : (finish (parse g')).feed round lastRound ws = some (r, gf))
    (hfile : gf.fileLength = body.length) (hwritten : gf.written = body) :
  g'.contentPt = (decimal body.length).length + 15 ∧
    ∀ i, (decimal body.length).length + 15 ≤ i → i < g.rxBytes →
      g'.buffer.byte i = (response body).getD i 0
  := by
  have hpt := h.contentPt_le
  have hrx := h.rxBytes
  obtain ⟨-, hlength, hprefix, hcount⟩ := content_run h.sm (by omega) hreads hresult
  have hnone : g'.written = [] := by
    rw [Gfcrequest.written, h.writes]
    rfl
  have hstart : g'.lengthStartIdx = 11 := by
    rcases h.anchored hanchored with ⟨hsm, -⟩ | ⟨-, hstart⟩
    · rw [h.sm] at hsm
      cases hsm
    · apply hstart
  -- the number read has as many digits as the length at least
  have hlow : (decimal body.length).length + 15 ≤ g'.contentPt := by
    obtain ⟨l, hl, hend⟩ := h.length
    rw [← hlength, hfile] at hl
    have hdigits := length_decimal_le hone hsmall hl.symm
    omega
  -- and no byte is handed over that has not been read
  have hhigh : g'.contentPt ≤ (decimal body.length).length + 15 := by
    rw [Rest] at hrest
    have hflatten := congrArg List.length hrest
    rw [List.length_drop, length_response] at hflatten
    rw [length_response] at hle
    rw [hnone, hwritten, List.length_nil] at hcount
    omega
  have hcontent : g'.contentPt = (decimal body.length).length + 15 := by omega
  refine ⟨hcontent, ?_⟩
  intro i hi hlt
  rw [hnone, List.nil_append, hwritten] at hprefix
  have hindex : i - g'.contentPt < g'.waiting.length := by
    rw [Gfcrequest.waiting, Buffer.length_slice]
    omega
  have hbyte : g'.waiting[i - g'.contentPt] = g'.buffer.byte i := by
    simp only [Gfcrequest.waiting]
    rw [Buffer.getElem_slice, Nat.add_sub_cancel' (by omega)]
  rw [← hbyte, hprefix.getElem hindex, getD_response hi, ← hcontent,
    List.getD_eq_getElem]

/-- A read inside the header that completes it: the buffer holds the read at its start and
zeros behind it, from the byte on where the end marker is expected. -/
theorem Entered.not_exact {g g' : Gfcrequest} {w : List UInt8} {ws : List (List UInt8)} {o : ℕ}
    (h : Entered g g') (hone : 1 ≤ o) (hrx : g.rxBytes = o + w.length)
    (hrest : Rest (response body) o (w :: ws))
    (hread : ∀ i < w.length, g.buffer.byte i = w.getD i 0)
    (hclear : ∀ i, (decimal body.length).length + 14 ≤ i → w.length ≤ i → g.buffer.byte i = 0)
    (hcontent : g'.contentPt = (decimal body.length).length + 15) :
  ¬ ∀ i, (decimal body.length).length + 15 ≤ i → i < g.rxBytes →
      g'.buffer.byte i = (response body).getD i 0
  := by
  intro hplace
  generalize hsize : (decimal body.length).length = d at hclear hcontent hplace
  have hmarker := h.marker
  rw [hcontent] at hmarker
  have hlf : g.buffer.byte (d + 14) = lf := by
    rcases h.byte (d + 14) with heq | hzero
    · rw [← heq]
      apply hmarker
    · have hne : g'.buffer.byte (d + 14) = lf := hmarker
      rw [hzero] at hne
      cases hne
  have hlong : d + 14 < w.length := by
    by_contra hshort
    rw [hclear (d + 14) le_rfl (by omega)] at hlf
    cases hlf
  -- the bytes behind the header repeat at distance `o` and end in zeros
  have hzero : ∀ n i, g.rxBytes - i ≤ n → d + 15 ≤ i → i < g.rxBytes →
      (response body).getD i 0 = 0 := by
    intro n
    induction n with
    | zero =>
        intro i hn hi hlt
        omega
    | succ n ih =>
        intro i hn hi hlt
        rw [← hplace i hi hlt]
        rcases h.byte i with heq | hzero
        · rw [heq]
          by_cases hin : i < w.length
          · rw [hread i hin, hrest.getD hin]
            apply ih (o + i) (by omega) (by omega) (by omega)
          · apply hclear i (by omega) (by omega)
        · apply hzero
  have hbody := hzero (g.rxBytes - (o + (d + 14))) (o + (d + 14)) le_rfl (by omega) (by omega)
  rw [← hrest.getD hlong, ← hread _ hlong, hlf] at hbody
  cases hbody

/-- An outcome with a negative value or another status than `OK` is not that of the
response. -/
theorem outcome_ne_of_leave {r : ℤ} {g : Gfcrequest} (h : r = -1 ∨ g.status ≠ .ok) :
  outcome (some (r, g)) ≠ some (0, .ok, body.length, body)
  := by
  intro heq
  simp only [outcome, Option.map_some, Option.some.injEq, Prod.mk.injEq] at heq
  rcases h with hr | hstatus
  · omega
  · apply hstatus heq.2.1

/-- When the outcome is that of the response, it has a request with the length and the bytes
of the file. -/
theorem exists_of_outcome {x : Option (ℤ × Gfcrequest)}
    (h : outcome x = some (0, .ok, body.length, body)) :
  ∃ r g, x = some (r, g) ∧ g.fileLength = body.length ∧ g.written = body
  := by
  cases x with
  | none => cases h
  | some x =>
      simp only [outcome, Option.map_some, Option.some.injEq, Prod.mk.injEq] at h
      exact ⟨x.1, x.2, rfl, h.2.2.1, h.2.2.2⟩

/-- The request waits for more of the header, of which the first `o` bytes have been received
in reads that all land at the start of the buffer. -/
structure Torn (body : List UInt8) (o : ℕ) (g : Gfcrequest) : Prop where
  head : Head g
  anchored : Anchored g
  rxBytes : g.rxBytes = o
  late : 7 ≤ o
  clear : g.sm = .method → ∀ i, (decimal body.length).length + 14 ≤ i → g.buffer.byte i = 0

/-- With the status at index 8, at most 22 bytes have been received in the stage of the method,
and at most three bytes behind `header_pt` in the stage of the path. -/
theorem Head.anchored_cases {g : Gfcrequest} (h : Head g) (hanchored : Anchored g) :
  g.sm = .method ∧ g.rxBytes ≤ 22 ∨ g.sm = .path ∧ g.rxBytes ≤ g.headerPt + 3
  := by
  cases h with
  | scheme early sm few =>
      exfalso
      rw [Anchored, sm] at hanchored
      revert hanchored
      simp
  | method early sm pt low high next =>
      left
      rcases hanchored with ⟨-, hpt⟩ | ⟨hlater, -⟩
      · exact ⟨sm, by omega⟩
      · rw [sm] at hlater
        revert hlater
        simp
  | path early sm pt low high start =>
      right
      exact ⟨sm, high⟩

/-- A read of a header that has been cut lands at the start of the buffer. -/
theorem Torn.byte_receive {o : ℕ} {g : Gfcrequest} {w : List UInt8} (h : Torn body o g) (i : ℕ)
    (hi : w.length ≤ i) :
  (g.receive w).buffer.byte i = g.buffer.byte i
  := by
  simp only [Gfcrequest.receive, h.head.early.contentPt]
  apply Buffer.store_byte_of_not_mem
  right
  omega

/-- A round that waits leaves the header cut. -/
theorem Torn.wait {o : ℕ} {g g' : Gfcrequest} {w : List UInt8} (h : Torn body o g) (hw : w ≠ [])
    (hlen : w.length ≤ rdBufSize) (head : Head g') (kept : Kept (g.receive w) g') :
  Torn body (o + w.length) g'
  := by
  have hpos := List.length_pos_iff.mpr hw
  have hdigits := List.length_pos_iff.mpr (decimal_ne_nil body.length)
  have hlate := h.late
  obtain ⟨-, hrx⟩ := h.head.early.receive h.head.rxBytes_le hlen
  rw [h.rxBytes] at hrx
  have hanchored : Anchored g' := kept.anchored h.anchored
  have hrx' : g'.rxBytes = o + w.length := kept.rxBytes.trans hrx
  refine ⟨head, hanchored, hrx', by omega, ?_⟩
  intro hsm i hi
  have hfew : g'.rxBytes ≤ 22 := by
    rcases head.anchored_cases hanchored with ⟨-, hfew⟩ | ⟨hsm', -⟩
    · apply hfew
    · rw [hsm] at hsm'
      cases hsm'
  have hmethod : g.sm = .method := by
    rcases h.head.anchored_cases h.anchored with ⟨hsm', -⟩ | ⟨hsm', -⟩
    · apply hsm'
    · rw [(kept.path hsm').1] at hsm
      cases hsm
  rcases kept.byte i with heq | hzero
  · rw [heq, h.byte_receive i (by omega)]
    apply h.clear hmethod i hi
  · apply hzero

/-- A file read after a header that has been cut is not handed over as it should be. -/
theorem Torn.outcome_ne {o : ℕ} {g : Gfcrequest} {ws : List (List UInt8)} (h : Torn body o g)
    (hone : 1 ≤ body.length) (hsmall : body.length < 2 ^ 31) (hrest : Rest (response body) o ws)
    (hreads : Always round Fits g ws) :
  outcome (feed round lastRound g ws) ≠ some (0, .ok, body.length, body)
  := by
  induction ws generalizing o g with
  | nil =>
      obtain ⟨-, hwindow⟩ := window_of_header h.head.sm h.head.early.contentPt
      rw [feed_nil, lastRound, if_neg (not_not_intro hwindow)]
      apply outcome_ne_of_leave (Or.inl rfl)
  | cons w ws ih =>
      obtain ⟨hw, hlen⟩ := h.head.fits hreads.head
      have hpos := List.length_pos_iff.mpr hw
      have hlate := h.late
      obtain ⟨-, hrx⟩ := h.head.early.receive h.head.rxBytes_le hlen
      rw [h.rxBytes] at hrx
      have hpt := h.head.early.contentPt
      have hin : ∀ i < w.length, (g.receive w).buffer.byte i = w.getD i 0 := by
        intro i hi
        simp only [Gfcrequest.receive, hpt]
        apply Buffer.store_byte_of_mem (Nat.zero_le i) (by omega) (by omega)
      have hcase := h.head.round hw hlen
      rw [feed_cons]
      rw [always_cons] at hreads
      have hnext := hreads.2
      generalize round g w = x at hcase hnext
      cases hcase with
      | @wait g' header head kept =>
          rw [Round.feed_again]
          apply ih (h.wait hw hlen head kept) hrest.tail hnext
      | @leave r g' header writes result =>
          rw [Round.feed_leave]
          apply outcome_ne_of_leave result
      | @enter g' header entered =>
          intro houtcome
          obtain ⟨r, gf, hresult, hfile, hwritten⟩ := exists_of_outcome houtcome
          have hle := hrest.length_le hw
          have hrest' := hrest.tail
          rw [← hrx] at hrest' hle
          obtain ⟨hcontent, hplace⟩ := entered.exact h.anchored hone hsmall hrest' hle hnext hresult
            hfile hwritten
          apply entered.not_exact (by omega) hrx hrest hin _ hcontent hplace
          intro i hi hlong
          rw [h.byte_receive i hlong]
          rcases h.head.anchored_cases h.anchored with ⟨hsm, -⟩ | ⟨hsm, hhigh⟩
          · apply h.clear hsm i hi
          · have hend : (g.receive w).headerPt + 4 ≤ g'.contentPt := entered.path hsm
            have hpt' : (g.receive w).headerPt = g.headerPt := rfl
            apply h.head.early.clear i
            omega

/-- Some bytes of the scheme have been read, but not the whole scheme. -/
structure LostScheme (o : ℕ) (g : Gfcrequest) : Prop where
  early : Early g
  sm : g.sm = .scheme
  rxBytes : g.rxBytes = o
  some_read : 1 ≤ o
  few : o < 7

/-- Reading on inside the scheme, the response is rejected: the first byte of the buffer is none
that begins the scheme. -/
theorem LostScheme.outcome_ne {o : ℕ} {g : Gfcrequest} {ws : List (List UInt8)}
    (h : LostScheme o g) (hrest : Rest (response body) o ws) (hreads : Always round Fits g ws) :
  outcome (feed round lastRound g ws) ≠ some (0, .ok, body.length, body)
  := by
  induction ws generalizing o g with
  | nil =>
      obtain ⟨-, hwindow⟩ := window_of_header (by rw [h.sm]; rfl) h.early.contentPt
      rw [feed_nil, lastRound, if_neg (not_not_intro hwindow)]
      apply outcome_ne_of_leave (Or.inl rfl)
  | cons w ws ih =>
      have hrx := h.rxBytes
      have hone := h.some_read
      have hfew := h.few
      have hhead : Head g := Head.scheme h.early h.sm (by omega)
      obtain ⟨hw, hlen⟩ := hhead.fits hreads.head
      have hpos := List.length_pos_iff.mpr hw
      by_cases hshort : o + w.length < 7
      · obtain ⟨hround, hearly, hrx'⟩ := h.early.round_short h.sm (w := w) (by omega)
        rw [feed_again hround]
        apply ih _ hrest.tail (hreads.next hround)
        exact ⟨hearly, h.sm, by omega, by omega, hshort⟩
      · obtain ⟨hrequest, hwindow⟩ := window_of_header hhead.sm h.early.contentPt
        obtain ⟨hearly, hrx'⟩ := h.early.receive hhead.rxBytes_le hlen
        have hsm : (g.receive w).sm = .scheme := h.sm
        have hfirst : (g.receive w).buffer.byte 0 = (response body).getD o 0 := by
          rw [← Nat.add_zero o, ← hrest.getD hpos]
          simp only [Gfcrequest.receive, h.early.contentPt]
          apply Buffer.store_byte_of_mem le_rfl (by omega) (by rw [rdBufSize_eq]; decide)
        have hne : (g.receive w).buffer.strncmp 0 (ascii "GETFILE") = false := by
          rw [Bool.eq_false_iff]
          intro hmatch
          have hG := Buffer.strncmp_iff.mp hmatch 0 (by decide)
          rw [Nat.add_zero, hfirst, begins_response.head o (by omega)] at hG
          have hall : ∀ i < 7, 1 ≤ i → (ascii "GETFILE OK ").getD i 0 ≠ (ascii "GETFILE")[0] := by
            decide
          apply hall o hfew hone hG
        have hcase := parseScheme_cases (g.receive w)
        generalize hx : parseScheme (g.receive w) = x at hcase
        rw [feed_cons, round_eq hwindow (by omega)]
        cases hcase with
        | wait short => omega
        | @reject g' enough ne sm writes =>
            have hheader : parseHeader (g.receive w) = (-1, g') := by
              rw [parseHeader_of_scheme hsm, hx, if_pos (sm.trans hsm)]
            rw [parse_of_header (by rw [hheader, sm, hsm]; rfl), hheader, finish_failed,
              Round.feed_leave]
            apply outcome_ne_of_leave (Or.inl rfl)
        | accept enough eq token call =>
            rw [hne] at eq
            cases eq

/-- A first read that brings the scheme, but not the whole header. -/
theorem outcome_ne_of_torn {headerCallback : Bool} {next : ℕ} {w : List UInt8}
    {ws : List (List UInt8)} (h : CutInto headerCallback next body (w :: ws)) (hseven : 7 ≤ w.length)
    (hcut : w.length < (decimal body.length).length + 15) :
  outcome (processResponse (gfcCreate headerCallback next) (w :: ws)) ≠
    some (0, .ok, body.length, body)
  := by
  have hhead := head_create headerCallback next
  have hrest : Rest (response body) 0 (w :: ws) := h.joins
  have hdigits := length_header_le h.small
  have hplaced := placed_create (s := response body) h.joins.symm (by rw [rdBufSize_eq]; omega)
    headerCallback next
  obtain ⟨g, hparse, hplaced', hsm, hpt, hnext, -⟩ :=
    hplaced.parse_scheme begins_response.scheme rfl hseven
  have hearly : Early g := by
    refine ⟨hplaced'.contentPt, ?_, ?_, hplaced'.bytesWritten, hplaced'.writes, ?_⟩
    · rw [hplaced'.total, hplaced'.rxBytes]
    · rw [hplaced'.rxBytes]
      apply hplaced'.small
    · intro i hi
      rw [hplaced'.rxBytes] at hi
      apply hplaced'.clear i hi
  have hrx := hplaced'.rxBytes
  have hfront : FrontMethod g := by
    refine ⟨hearly, hsm, ?_, by omega, ?_, by omega⟩
    · rw [rdBufSize_eq]
      omega
    · rw [rdBufSize_eq]
      omega
  have houtcome := hfront.outcome
  rw [← hparse] at houtcome
  have hcase := houtcome.round
  have hanchored : Anchored g := Or.inl ⟨hsm, hpt⟩
  obtain ⟨hrequest, hwindow⟩ := window_of_header hhead.sm hhead.early.contentPt
  have hreads := h.reads
  rw [Reads, always_cons, round_eq hwindow (by omega)] at hreads
  have hlater := hreads.2
  rw [processResponse_create, feed_cons, round_eq hwindow (by omega)]
  generalize finish (parse ((gfcCreate headerCallback next).receive w)) = x at hcase hlater
  have htail := hrest.tail
  rw [Nat.zero_add] at htail
  cases hcase with
  | @wait g' header head kept =>
      rw [Round.feed_again]
      apply Torn.outcome_ne _ h.one_le h.small htail hlater
      refine ⟨head, kept.anchored hanchored, kept.rxBytes.trans hrx, hseven, ?_⟩
      intro _ i hi
      rcases kept.byte i with heq | hzero
      · rw [heq]
        apply hearly.clear i
        omega
      · apply hzero
  | @leave r g' header writes result =>
      rw [Round.feed_leave]
      apply outcome_ne_of_leave result
  | @enter g' header entered =>
      intro hright
      obtain ⟨r, gf, hresult, hfile, hwritten⟩ := exists_of_outcome hright
      have hle := hrest.length_le (by rintro rfl; cases hseven)
      rw [Nat.zero_add] at hle
      rw [← hrx] at htail hle
      have hcontent := (entered.exact hanchored h.one_le h.small htail hle hlater hresult hfile
        hwritten).1
      have hpt := entered.contentPt_le
      omega

end

/-- A response is taken for what it is exactly when the first read brings its whole header. -/
theorem CutInto.outcome_iff {body : List UInt8} {headerCallback : Bool} {next : ℕ}
    {ws : List (List UInt8)} (h : CutInto headerCallback next body ws) :
  outcome (processResponse (gfcCreate headerCallback next) ws) =
    some (0, .ok, body.length, body) ↔ Whole body ws
  := by
  constructor
  · intro hright
    cases ws with
    | nil =>
        have hjoins := congrArg List.length h.joins
        rw [length_response, List.flatten_nil, List.length_nil] at hjoins
        omega
    | cons w ws =>
        refine ⟨w, rfl, ?_⟩
        rw [length_okHeader]
        by_contra hcut
        by_cases hseven : 7 ≤ w.length
        · apply outcome_ne_of_torn h hseven (by omega) hright
        · have hhead := head_create headerCallback next
          obtain ⟨hw, hlen⟩ := hhead.fits h.reads.head
          have hpos := List.length_pos_iff.mpr hw
          have hrx : (gfcCreate headerCallback next).rxBytes = 0 := rfl
          obtain ⟨hround, hearly, hrx'⟩ := hhead.early.round_short rfl (w := w) (by omega)
          have hrest : Rest (response body) 0 (w :: ws) := h.joins
          have htail := hrest.tail
          rw [Nat.zero_add] at htail
          rw [processResponse_create, feed_again hround] at hright
          apply LostScheme.outcome_ne _ htail (h.reads.next hround) hright
          exact ⟨hearly, rfl, by omega, hpos, by omega⟩
  · apply outcome_of_whole h

/-- Two ways of cutting a response both hand over its file exactly when both bring the whole
header in the first read, and they do not agree when only one of them does. -/
theorem outcomes_agree_iff {body : List UInt8} {headerCallback headerCallback' : Bool}
    {next next' : ℕ} {ws ws' : List (List UInt8)} (hcut : CutInto headerCallback next body ws)
    (hcut' : CutInto headerCallback' next' body ws') :
  (outcome (processResponse (gfcCreate headerCallback next) ws)
      = outcome (processResponse (gfcCreate headerCallback' next') ws') ∧
    outcome (processResponse (gfcCreate headerCallback' next') ws')
      = some (0, .ok, body.length, body) ↔
      Whole body ws ∧ Whole body ws') ∧
  (outcome (processResponse (gfcCreate headerCallback next) ws)
      = outcome (processResponse (gfcCreate headerCallback' next') ws') →
    (Whole body ws ↔ Whole body ws'))
  := by
  have hiff := hcut.outcome_iff
  have hiff' := hcut'.outcome_iff
  constructor
  · constructor
    · rintro ⟨heq, hright⟩
      exact ⟨hiff.mp (heq.trans hright), hiff'.mp hright⟩
    · rintro ⟨hwhole, hwhole'⟩
      exact ⟨(hiff.mpr hwhole).trans (hiff'.mpr hwhole').symm, hiff'.mpr hwhole'⟩
  · intro heq
    rw [← hiff, ← hiff', heq]

theorem decimal_one :
  decimal 1 = ascii "1"
  := by
  rw [decimal, if_neg (by decide), Nat.digits_of_lt 10 1 (by decide) (by decide)]
  rfl

theorem response_a :
  response (ascii "A") = ascii "GETFILE OK 1\r\n\r\nA"
  := by
  have hlength : (ascii "A").length = 1 := rfl
  rw [response, hlength, decimal_one]
  rfl

/-- The response with the file `A` in one read. -/
theorem cutInto_whole :
  CutInto false 0 (ascii "A") [ascii "GETFILE OK 1\r\n\r\nA"]
  := by
  refine ⟨by decide, by decide, ?_, ?_⟩
  · rw [response_a]
    rfl
  · apply reads_create
    · decide
    · decide

/-- The response with the file `A` cut inside the scheme. -/
theorem cutInto_scheme :
  CutInto false 0 (ascii "A") [ascii "GETF", ascii "ILE OK 1\r\n\r\nA"]
  := by
  refine ⟨by decide, by decide, ?_, ?_⟩
  · rw [response_a]
    rfl
  · have hhead := head_create false 0
    have hrx : (gfcCreate false 0).rxBytes = 0 := rfl
    have hfour : (ascii "GETF").length = 4 := rfl
    obtain ⟨hround, hearly, -⟩ := hhead.early.round_short (w := ascii "GETF") rfl (by omega)
    have hrequest := (window_of_header (g := (gfcCreate false 0).receive (ascii "GETF")) rfl
      hearly.contentPt).1
    rw [Reads, always_again hround, always_cons]
    refine ⟨?_, ?_, ?_⟩
    · rintro w ⟨⟩ _
      constructor
      · decide
      · decide
    · rintro w ⟨⟩ _
      rw [hrequest]
      constructor
      · decide
      · decide
    · cases round ((gfcCreate false 0).receive (ascii "GETF")) (ascii "ILE OK 1\r\n\r\nA") with
      | again g =>
          rw [Round.always_again]
          rintro w ⟨⟩
      | leave b => apply Round.always_leave

theorem outcomes_agree_iff_scheme :
  (outcome (processResponse (gfcCreate false 0) [ascii "GETF", ascii "ILE OK 1\r\n\r\nA"])
      = outcome (processResponse (gfcCreate false 0) [ascii "GETFILE OK 1\r\n\r\nA"]) ∧
    outcome (processResponse (gfcCreate false 0) [ascii "GETFILE OK 1\r\n\r\nA"])
      = some (0, .ok, 1, ascii "A") ↔
      Whole (ascii "A") [ascii "GETF", ascii "ILE OK 1\r\n\r\nA"] ∧
      Whole (ascii "A") [ascii "GETFILE OK 1\r\n\r\nA"]) ∧
  (outcome (processResponse (gfcCreate false 0) [ascii "GETF", ascii "ILE OK 1\r\n\r\nA"])
      = outcome (processResponse (gfcCreate false 0) [ascii "GETFILE OK 1\r\n\r\nA"]) →
    (Whole (ascii "A") [ascii "GETF", ascii "ILE OK 1\r\n\r\nA"] ↔
      Whole (ascii "A") [ascii "GETFILE OK 1\r\n\r\nA"]))
  := outcomes_agree_iff cutInto_scheme cutInto_whole

/-- Cut inside the scheme, the response is rejected, and in one read its file is handed over. -/
theorem outcomes_disagree :
  CutInto false 0 (ascii "A") [ascii "GETF", ascii "ILE OK 1\r\n\r\nA"] ∧
  CutInto false 0 (ascii "A") [ascii "GETFILE OK 1\r\n\r\nA"] ∧
  outcome (processResponse (gfcCreate false 0) [ascii "GETF", ascii "ILE OK 1\r\n\r\nA"])
    ≠ outcome (processResponse (gfcCreate false 0) [ascii "GETFILE OK 1\r\n\r\nA"])
  := by
  refine ⟨cutInto_scheme, cutInto_whole, ?_⟩
  have hdecimal : (decimal (ascii "A").length).length = 1 := by
    have hlength : (ascii "A").length = 1 := rfl
    rw [hlength, decimal_one]
    rfl
  have hwhole : Whole (ascii "A") [ascii "GETFILE OK 1\r\n\r\nA"] := by
    refine ⟨_, rfl, ?_⟩
    rw [length_okHeader, hdecimal]
    decide
  have hright := cutInto_whole.outcome_iff.mpr hwhole
  intro heq
  obtain ⟨w, ⟨⟩, hlength⟩ := cutInto_scheme.outcome_iff.mp (heq.trans hright)
  rw [length_okHeader, hdecimal] at hlength
  revert hlength
  decide

end GetFile.Client
