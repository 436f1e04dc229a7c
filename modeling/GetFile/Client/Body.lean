import GetFile.Client.Parsers

/-!
# Client: the phase of the body

Once the header has been read, `process_response` hands over what the buffer holds behind
the header and then each read, as long as bytes are missing. `Pending` describes the request
between a read and `parse_content`, `BodyHead` the request at the head of the loop, and
`body_invariant` what holds at every head and at the end.
-/

namespace GetFile.Client

open CString Transition

/-- The request in front of `parse_content`: of the `len` bytes of the body, those between
`content_pt` and `rx_bytes` wait in the buffer, and no byte too many has been received. -/
structure Pending (len : ℕ) (g : Gfcrequest) : Prop where
  sm : g.sm = .content
  fileLength : g.fileLength = len
  small : len < 2 ^ 31
  start : g.contentPt ≤ g.rxBytes
  room : g.contentPt < rdBufSize
  rxBytes_le : g.rxBytes ≤ rdBufSize
  logged : g.written.length = g.bytesWritten
  counted : g.bytesWritten + (g.rxBytes - g.contentPt) = g.totalRxBytes
  unfinished : g.bytesWritten < len
  total_le : g.totalRxBytes ≤ len

/-- The head of the loop with bytes of the body missing. -/
structure BodyHead (len : ℕ) (g : Gfcrequest) : Prop where
  sm : g.sm = .content
  fileLength : g.fileLength = len
  small : len < 2 ^ 31
  contentPt : g.contentPt = g.rxBytes
  room : g.rxBytes < rdBufSize
  logged : g.written.length = g.bytesWritten
  counted : g.bytesWritten = g.totalRxBytes
  unfinished : g.bytesWritten < len

/-- `parse_content` turns `g` into `g'`: the bytes that waited have been handed over from
inside the buffer, and they are counted. -/
structure HandsOver (g g' : Gfcrequest) : Prop where
  status : g'.status = g.status
  fileLength : g'.fileLength = g.fileLength
  written : g'.written = g.written ++ g.waiting
  counted : g'.bytesWritten = g.totalRxBytes
  total : g'.totalRxBytes = g.totalRxBytes
  inside : (∀ x ∈ g.writes, x.1 + x.2.length ≤ rdBufSize) →
    ∀ x ∈ g'.writes, x.1 + x.2.length ≤ rdBufSize

/-! ### One round -/

/-- What `parse_content` does when it does not hand over too many bytes: after the last byte
the transfer is done, and otherwise the loop goes on. -/
theorem Pending.parseContent {len : ℕ} {g : Gfcrequest} (h : Pending len g) :
  HandsOver g (parseContent g) ∧
    (if g.totalRxBytes = len then (parseContent g).sm = .done
      else BodyHead len (parseContent g))
  := by
  obtain ⟨sm, fileLength, small, start, room, rxBytes_le, logged, counted, unfinished, total_le⟩ := h
  rcases Nat.eq_or_lt_of_le start with heq | hlt
  · have hidle : Client.parseContent g = g := by
      rw [Client.parseContent, if_neg (by omega)]
    rw [hidle, if_neg (by omega)]
    constructor
    · refine ⟨rfl, rfl, ?_, by omega, rfl, fun hinside => hinside⟩
      rw [Gfcrequest.waiting, heq, Nat.sub_self]
      simp [Buffer.slice]
    · exact ⟨sm, fileLength, small, heq, by omega, logged, by omega, unfinished⟩
  · have hsum : unsignedAdd g.bytesWritten (g.rxBytes - g.contentPt) = g.totalRxBytes := by
      rw [unsignedAdd]
      omega
    have hend : g.contentPt + (g.rxBytes - g.contentPt) = g.rxBytes := by omega
    have hwritten : g.handOver.written = g.written ++ g.waiting := handOver_written g
    have hinside : (∀ x ∈ g.writes, x.1 + x.2.length ≤ rdBufSize) →
        ∀ x ∈ g.writes ++ [(g.contentPt, g.waiting)], x.1 + x.2.length ≤ rdBufSize := by
      intro hall x hx
      rcases List.mem_append.mp hx with hx | hx
      · apply hall x hx
      · rw [List.mem_singleton] at hx
        rw [hx, Gfcrequest.waiting, Buffer.length_slice, hend]
        apply rxBytes_le
    have hover : HandsOver g g.handOver.rewind := by
      rw [rewind_eq]
      exact ⟨rfl, rfl, hwritten, hsum, rfl, hinside⟩
    rw [Client.parseContent, if_pos hlt]
    dsimp only
    have hfile := hover.fileLength
    have hcounted := hover.counted
    by_cases hdone : len ≤ g.totalRxBytes
    · rw [if_pos (show g.handOver.rewind.fileLength ≤ g.handOver.rewind.bytesWritten by omega),
        if_pos (by omega)]
      constructor
      · exact ⟨hover.status, hover.fileLength, hover.written, hover.counted, hover.total,
          hover.inside⟩
      · rfl
    · rw [if_neg (show ¬ g.handOver.rewind.fileLength ≤ g.handOver.rewind.bytesWritten by omega),
        if_neg (by omega)]
      constructor
      · apply hover
      · have hhead : g.handOver.contentPt = g.rxBytes := hend
        have hlength : (g.written ++ g.waiting).length = g.totalRxBytes := by
          rw [List.length_append, logged, Gfcrequest.waiting, Buffer.length_slice, counted]
        have hlog : g.handOver.written.length = g.handOver.bytesWritten := by
          rw [← hwritten] at hlength
          exact hlength.trans hsum.symm
        rcases rewind_cases g.handOver with ⟨hne, heq⟩ | ⟨-, heq⟩
        · rw [hhead] at hne
          rw [heq]
          refine ⟨sm, fileLength, small, hend, lt_of_le_of_ne rxBytes_le hne, hlog, hsum, ?_⟩
          simp only [Gfcrequest.handOver, hsum]
          omega
        · rw [heq]
          refine ⟨sm, fileLength, small, rfl, Nat.zero_lt_succ _, hlog, hsum, ?_⟩
          simp only [Gfcrequest.handOver, hsum]
          omega

/-- The end of a round in the phase of the body. -/
theorem Pending.finish {len : ℕ} {g : Gfcrequest} (h : Pending len g) :
  ∃ g', HandsOver g g' ∧
    ((g.totalRxBytes = len ∧ g'.sm = .done ∧ Client.finish (parse g) = .leave (some (0, g'))) ∨
      (g.totalRxBytes ≠ len ∧ BodyHead len g' ∧ Client.finish (parse g) = .again g'))
  := by
  obtain ⟨hover, hnext⟩ := h.parseContent
  refine ⟨Client.parseContent g, hover, ?_⟩
  rw [parse_of_content h.sm]
  split at hnext
  · rename_i htotal
    left
    rw [if_pos hnext]
    exact ⟨htotal, hnext, finish_done⟩
  · rename_i htotal
    right
    rw [if_neg (by rw [hnext.sm]; decide)]
    exact ⟨htotal, hnext, finish_again⟩

/-- At the head of the loop, `process_response` asks for what the buffer has room for or for
the bytes that are missing. -/
theorem BodyHead.requestSize {len : ℕ} {g : Gfcrequest} (h : BodyHead len g) :
  g.requestSize = min ((rdBufSize : ℤ) - g.contentPt) (len - g.totalRxBytes)
  := by
  obtain ⟨sm, fileLength, small, contentPt, room, logged, counted, unfinished⟩ := h
  rw [rdBufSize_eq] at room ⊢
  simp only [Gfcrequest.requestSize, sm, StateMachine.afterPath, fileLength, rdBufSize_eq]
  split
  · rename_i hclip
    rw [Int.bmod_eq_of_le (by omega) (by omega)]
    omega
  · rename_i hclip
    simp only [true_and, not_lt] at hclip
    omega

/-- At the head of the loop, at least one byte is asked for and there is room for it. -/
theorem BodyHead.window {len : ℕ} {g : Gfcrequest} (h : BodyHead len g) :
  0 < g.requestSize ∧ g.contentPt + g.requestSize ≤ rdBufSize
  := by
  have hcontent := h.contentPt
  have hroom := h.room
  have hcounted := h.counted
  have hunfinished := h.unfinished
  rw [h.requestSize]
  omega

/-- The read at the head of the loop is inside the buffer. -/
theorem BodyHead.inWindow {len : ℕ} {g : Gfcrequest} (h : BodyHead len g) :
  g.InWindow
  := by
  have hcontent := h.contentPt
  have hroom := h.room
  have hwindow := h.window
  refine ⟨?_, ?_, ?_⟩
  · omega
  · omega
  · omega

/-- What `read` may return at the head of the loop waits for `parse_content`. -/
theorem BodyHead.receive {len : ℕ} {g : Gfcrequest} {w : List UInt8} (h : BodyHead len g)
    (hlen : w.length ≤ g.requestSize) :
  Pending len (g.receive w) ∧ (g.receive w).waiting = w ∧
    (g.receive w).totalRxBytes = g.totalRxBytes + w.length
  := by
  have hcontent := h.contentPt
  have hroom := h.room
  have hcounted := h.counted
  have hunfinished := h.unfinished
  have hsmall := h.small
  rw [h.requestSize] at hlen
  rw [rdBufSize_eq] at hroom hlen
  have hrx : (g.receive w).rxBytes = g.rxBytes + w.length := by
    simp only [Gfcrequest.receive, unsignedAdd]
    omega
  have htotal : (g.receive w).totalRxBytes = g.totalRxBytes + w.length := by
    simp only [Gfcrequest.receive, unsignedAdd]
    omega
  have hpt : (g.receive w).contentPt = g.contentPt := rfl
  have hbytes : (g.receive w).bytesWritten = g.bytesWritten := rfl
  refine ⟨⟨h.sm, h.fileLength, hsmall, ?_, ?_, ?_, h.logged, ?_, h.unfinished, ?_⟩, ?_, htotal⟩
  · omega
  · rw [rdBufSize_eq]
    omega
  · rw [rdBufSize_eq]
    omega
  · omega
  · omega
  · have hwait : (g.receive w).rxBytes - (g.receive w).contentPt = w.length := by omega
    rw [Gfcrequest.waiting, hwait, hpt]
    apply Buffer.slice_store_self
    rw [rdBufSize_eq]
    omega

/-! ### Runs -/

/-- What holds at the head of the loop in the phase of the body, when the reads `rest` of the
bytes `body` are still to come. -/
structure BodyOk (len : ℕ) (body : List UInt8) (g : Gfcrequest) (rest : List (List UInt8)) :
    Prop where
  contentPt : g.contentPt = g.rxBytes
  room : g.rxBytes < rdBufSize
  counted : g.bytesWritten = g.totalRxBytes
  total_le : g.totalRxBytes ≤ len
  written : g.written ++ rest.flatten = body
  window : g.bytesWritten < len →
    1 ≤ g.requestSize ∧ g.contentPt + g.requestSize ≤ rdBufSize
  done_iff : g.sm = .done ↔ g.bytesWritten = len

/-- What `process_response` leaves at the end of the phase of the body, when the bytes `body`
can be read: the first `len` of them have been handed over, and the transfer is done exactly
when these are all. -/
structure BodyEnd (len : ℕ) (body : List UInt8) (r : ℤ) (g : Gfcrequest) : Prop where
  counted : g.bytesWritten = g.totalRxBytes
  total_le : g.totalRxBytes ≤ len
  written : g.written = body.take len
  done_iff : g.sm = .done ↔ g.bytesWritten = len
  result : r = 0 ∧ len ≤ body.length ∨ r = -1 ∧ body.length < len

/-- The head of the loop is as it should be. -/
theorem BodyHead.bodyOk {len : ℕ} {g : Gfcrequest} (h : BodyHead len g)
    (rest : List (List UInt8)) :
  BodyOk len (g.written ++ rest.flatten) g rest
  where
  contentPt := h.contentPt
  room := h.room
  counted := h.counted
  total_le := by
    have hcounted := h.counted
    have hunfinished := h.unfinished
    omega
  written := rfl
  window _ := h.window
  done_iff := by
    rw [h.sm]
    have hunfinished := h.unfinished
    constructor
    · intro hsm
      cases hsm
    · intro heq
      omega

/-- When the peer closes at the head of the loop, the transfer is not done. -/
theorem BodyHead.bodyEnd {len : ℕ} {g : Gfcrequest} (h : BodyHead len g) :
  BodyEnd len g.written (-1) g
  where
  counted := h.counted
  total_le := (h.bodyOk []).total_le
  written := by
    have hlogged := h.logged
    have hunfinished := h.unfinished
    rw [List.take_of_length_le (by omega)]
  done_iff := (h.bodyOk []).done_iff
  result := by
    have hlogged := h.logged
    have hunfinished := h.unfinished
    right
    exact ⟨rfl, by omega⟩

/-- After the last byte the transfer is done. -/
theorem HandsOver.bodyEnd {len : ℕ} {g g' : Gfcrequest} (h : HandsOver g g')
    (hpending : Pending len g) (htotal : g.totalRxBytes = len) (hsm : g'.sm = .done)
    (late : List UInt8) :
  BodyEnd len (g.written ++ g.waiting ++ late) 0 g'
  := by
  have hlength : (g.written ++ g.waiting).length = len := by
    rw [List.length_append, hpending.logged, Gfcrequest.waiting, Buffer.length_slice,
      hpending.counted, htotal]
  have hcounted : g'.bytesWritten = len := by
    rw [h.counted, htotal]
  refine ⟨?_, ?_, ?_, ?_, ?_⟩
  · rw [h.counted, h.total]
  · rw [h.total, htotal]
  · rw [h.written, List.take_append_of_le_length (by omega), List.take_of_length_le (by omega)]
  · constructor
    · intro _
      apply hcounted
    · intro _
      apply hsm
  · left
    rw [List.length_append]
    exact ⟨rfl, by omega⟩

/-- A run from the head of the loop in the phase of the body. -/
theorem BodyHead.run {len : ℕ} {g : Gfcrequest} {ws : List (List UInt8)} (h : BodyHead len g)
    (hreads : Always round Fits g ws) :
  Always round (BodyOk len (g.written ++ ws.flatten)) g ws ∧
    ∃ r g', feed round lastRound g ws = some (r, g') ∧ g'.status = g.status ∧
      BodyEnd len (g.written ++ ws.flatten) r g'
  := by
  induction ws generalizing g with
  | nil =>
      constructor
      · apply h.bodyOk
      · refine ⟨-1, g, ?_, rfl, ?_⟩
        · rw [feed_nil, lastRound, if_neg (not_not_intro h.inWindow)]
        · rw [List.flatten_nil, List.append_nil]
          apply h.bodyEnd
  | cons w ws ih =>
      obtain ⟨-, hlen⟩ := hreads.head w rfl h.window.1
      obtain ⟨hpending, hwaiting, -⟩ := h.receive hlen
      have hround : round g w = finish (parse (g.receive w)) := round_eq h.inWindow h.window.1 w
      obtain ⟨g', hover, hcases⟩ := hpending.finish
      generalize finish (parse (g.receive w)) = x at hround hcases
      rcases hcases with ⟨htotal, hsm, hfinish⟩ | ⟨-, hhead, hfinish⟩
      · rw [hfinish] at hround
        rw [always_leave hround, feed_leave hround]
        constructor
        · apply h.bodyOk
        · refine ⟨0, g', rfl, hover.status, ?_⟩
          have hend := hover.bodyEnd hpending htotal hsm ws.flatten
          rw [hwaiting, List.append_assoc] at hend
          apply hend
      · rw [hfinish] at hround
        rw [always_again hround, feed_again hround]
        obtain ⟨halways, r, g'', hfeed, hstatus, hend⟩ := ih hhead (hreads.next hround)
        have hbody : g'.written ++ ws.flatten = g.written ++ (w :: ws).flatten := by
          rw [hover.written, hwaiting, List.flatten_cons, ← List.append_assoc]
          rfl
        rw [hbody] at halways hend
        exact ⟨⟨h.bodyOk _, halways⟩, r, g'', hfeed, hstatus.trans hover.status, hend⟩

/-- A run from the end of the round that has entered the phase of the body. -/
theorem Pending.run {len : ℕ} {g : Gfcrequest} {ws : List (List UInt8)} (h : Pending len g)
    (hreads : (Client.finish (parse g)).Always round Fits ws) :
  (Client.finish (parse g)).Always round (BodyOk len (g.written ++ g.waiting ++ ws.flatten)) ws ∧
    ∃ r g', (Client.finish (parse g)).feed round lastRound ws = some (r, g') ∧
      g'.status = g.status ∧ BodyEnd len (g.written ++ g.waiting ++ ws.flatten) r g'
  := by
  obtain ⟨g', hover, hcases⟩ := h.finish
  generalize hround : Client.finish (parse g) = x at hreads hcases ⊢
  rcases hcases with ⟨htotal, hsm, heq⟩ | ⟨-, hhead, heq⟩
  · rw [heq, Round.feed_leave]
    constructor
    · apply Round.always_leave
    · exact ⟨0, g', rfl, hover.status, hover.bodyEnd h htotal hsm ws.flatten⟩
  · rw [heq] at hreads ⊢
    rw [Round.always_again] at hreads ⊢
    rw [Round.feed_again]
    obtain ⟨halways, r, g'', hfeed, hstatus, hend⟩ := hhead.run hreads
    rw [hover.written] at halways hend
    exact ⟨halways, r, g'', hfeed, hstatus.trans hover.status, hend⟩

/-! ### From the header -/

/-- `process_response` has just entered `SM_CONTENT` after a header that was received wholly
in one read, and nothing has been handed over. -/
structure EntersContent (g : Gfcrequest) : Prop where
  sm : g.sm = .content
  contentPt : g.contentPt = g.headerPt
  headerPt_lt : g.headerPt < rdBufSize
  headerPt_le : g.headerPt ≤ g.rxBytes
  rxBytes_le : g.rxBytes ≤ rdBufSize
  writes : g.writes = []
  bytesWritten : g.bytesWritten = 0
  total : g.totalRxBytes = g.rxBytes - g.headerPt
  total_le : g.totalRxBytes ≤ g.fileLength
  one_le : 1 ≤ g.fileLength
  fileLength_le : g.fileLength ≤ 2 ^ 31 - 1

/-- Behind the header, the bytes received wait for `parse_content`. -/
theorem EntersContent.pending {g : Gfcrequest} (h : EntersContent g) :
  Pending g.fileLength g
  := by
  have hcontent := h.contentPt
  have hlow := h.headerPt_le
  have hmax := h.fileLength_le
  have hone := h.one_le
  have hbytes := h.bytesWritten
  have htotal := h.total
  refine ⟨h.sm, rfl, by omega, by omega, ?_, h.rxBytes_le, ?_, by omega, by omega, h.total_le⟩
  · rw [hcontent]
    apply h.headerPt_lt
  · rw [Gfcrequest.written, h.writes, hbytes]
    rfl

/-- From the state in which `process_response` has just entered `SM_CONTENT`, in every run:
at every head of the loop the offsets and the counters are in step, the bytes handed over
are those of the body received so far, and the next read is inside the buffer; and at the
end the transfer is done exactly when all bytes have been handed over. -/
theorem body_invariant {g : Gfcrequest} {ws : List (List UInt8)} (h : EntersContent g)
    (hreads : (finish (parse g)).Always round Fits ws) :
  (finish (parse g)).Always round (BodyOk g.fileLength (g.waiting ++ ws.flatten)) ws ∧
    ∃ r g', (finish (parse g)).feed round lastRound ws = some (r, g') ∧
      BodyEnd g.fileLength (g.waiting ++ ws.flatten) r g'
  := by
  obtain ⟨halways, r, g', hfeed, -, hend⟩ := h.pending.run hreads
  have hwritten : g.written = [] := by
    rw [Gfcrequest.written, h.writes]
    rfl
  rw [hwritten, List.nil_append] at halways hend
  exact ⟨halways, r, g', hfeed, hend⟩

/-- The request behind the header of a file of two bytes, when the first of them has come
with the header. -/
def twoBytes : Gfcrequest :=
  let response := ascii "GETFILE OK 2\r\n\r\nA"
  { gfcCreate false 0 with
    status := .ok, fileLength := 2, fileLengthValid := true, rxBytes := 17, totalRxBytes := 1,
    buffer := (Buffer.zero rdBufSize).store 0 response, headerPt := 16, lengthStartIdx := 11,
    contentPt := 16, sm := .content }

theorem twoBytes_entersContent :
  EntersContent twoBytes
  := by
  constructor
  all_goals first | rfl | decide

theorem body_invariant_twoBytes :
  (finish (parse twoBytes)).Always round
      (BodyOk twoBytes.fileLength (twoBytes.waiting ++ [[66]].flatten)) [[66]] ∧
    ∃ r g', (finish (parse twoBytes)).feed round lastRound [[66]] = some (r, g') ∧
      BodyEnd twoBytes.fileLength (twoBytes.waiting ++ [[66]].flatten) r g'
  := by
  apply body_invariant twoBytes_entersContent
  obtain ⟨g', hover, ⟨htotal, -, -⟩ | ⟨-, hhead, hfinish⟩⟩ :=
    twoBytes_entersContent.pending.finish
  · cases htotal
  · have hcounted : g'.totalRxBytes = 1 := hover.total
    rw [hfinish, Round.always_again, always_cons]
    constructor
    · intro w hw _
      cases hw
      constructor
      · simp
      · have hlen : twoBytes.fileLength = 2 := rfl
        have hcontent := hhead.contentPt
        have hroom := hhead.room
        rw [rdBufSize_eq] at hroom
        rw [hhead.requestSize, hcounted, hlen, rdBufSize_eq, List.length_singleton]
        omega
    · cases round g' [66] with
      | again g'' =>
          intro w hw
          cases hw
      | leave b => trivial

end GetFile.Client
