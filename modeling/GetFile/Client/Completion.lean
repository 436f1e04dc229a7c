import GetFile.Client.Body
import GetFile.Client.Header

/-!
# Client: when the transfer is complete

The contract of `gfc_perform` has the value `0` for a transfer that succeeded and a negative
one for a connection closed too early. With the whole header in the first read,
`process_response` keeps to it exactly when the file is not empty and the first read brings no
byte behind the file (`completesRight_iff`): an empty file is never complete, and bytes behind
the file that come with the header are handed over.
-/

namespace GetFile.Client

open CString Transition

/-- The outcome for a file of `len` bytes when the bytes `body` follow the header: success with
status `OK` exactly when the file is complete, a negative value when it is not, and no byte
behind the file handed over. -/
def CompletesRight (len : ℕ) (body : List UInt8) (outcome : Option (ℤ × Gfcrequest)) : Prop :=
  ∃ r g, outcome = some (r, g) ∧ (r = 0 ∧ g.status = .ok ↔ len ≤ body.length) ∧
    (body.length < len → r < 0) ∧ g.written.length ≤ len

section

variable {len size : ℕ} {first : List UInt8} {g : Gfcrequest}

/-- Behind the header of a file that is not empty, with no byte too many, the phase of the
body begins as it should. -/
theorem Behind.entersContent (h : Behind len size first g) (hsize : size < rdBufSize)
    (hsmall : len < 2 ^ 31) (hone : 1 ≤ len) (hfirst : first.length ≤ len) :
  EntersContent g
  := by
  have hfile := h.fileLength
  have htotal := h.total
  have hrx := h.rxBytes
  have hpt := h.headerPt
  have hbound := h.bound
  refine ⟨h.sm, h.contentPt.trans h.headerPt.symm, ?_, ?_, ?_, h.writes, h.bytesWritten, ?_, ?_,
    ?_, ?_⟩
  · omega
  · omega
  · omega
  · omega
  · omega
  · omega
  · omega

/-- Behind the header of an empty file, the loop goes on, and the next read is asked for no
bytes. -/
theorem Behind.empty (h : Behind 0 size [] g) (hsize : size < rdBufSize) (ws : List (List UInt8)) :
  (finish (parse g)).feed round lastRound ws = some (-1, g)
  := by
  have hrx := h.rxBytes
  have hpt := h.contentPt
  have htotal := h.total
  have hidle : parseContent g = g := by
    rw [parseContent, if_neg]
    rw [hrx, hpt]
    simp
  have hparse : parse g = (0, g) := by
    rw [parse_of_content h.sm, hidle, if_neg (by rw [h.sm]; decide)]
  have hrequest : g.requestSize = 0 := by
    rw [rdBufSize_eq] at hsize
    simp only [Gfcrequest.requestSize, h.sm, StateMachine.afterPath, h.fileLength, hpt, htotal,
      rdBufSize_eq, List.length_nil]
    rw [if_pos]
    · rfl
    · refine ⟨trivial, ?_⟩
      omega
  have hwindow : g.InWindow := by
    refine ⟨?_, ?_, ?_⟩
    · omega
    · omega
    · omega
  rw [hparse, finish_again, Round.feed_again]
  cases ws with
  | nil => rw [feed_nil, lastRound, if_neg (not_not_intro hwindow)]
  | cons w ws =>
      apply feed_leave
      rw [round, if_neg (not_not_intro hwindow), if_pos hrequest]

/-- Behind the header, all bytes that came with it are handed over, also those behind the
file, and then the transfer is done. -/
theorem Behind.overfull (h : Behind len size first g) (hfirst : len < first.length) :
  ∃ g', finish (parse g) = .leave (some (0, g')) ∧ g'.written = first
  := by
  have hrx := h.rxBytes
  have hpt := h.contentPt
  have hbound := h.bound
  rw [rdBufSize_eq] at hbound
  have hbytes : g.handOver.bytesWritten = first.length := by
    have hsum : g.rxBytes - g.contentPt = first.length := by omega
    simp only [Gfcrequest.handOver, h.bytesWritten, hsum, unsignedAdd]
    omega
  have hwritten : g.handOver.written = first := by
    simp [Gfcrequest.handOver, Gfcrequest.written, h.writes, h.waiting]
  have hfile : g.handOver.fileLength = len := h.fileLength
  have hdone : parseContent g = { g.handOver.rewind with sm := .done } := by
    rw [parseContent, if_pos (by omega)]
    dsimp only
    rw [if_pos]
    rw [rewind_fileLength, rewind_bytesWritten]
    omega
  refine ⟨{ g.handOver.rewind with sm := .done }, ?_, ?_⟩
  · rw [parse_of_content h.sm, hdone, if_pos rfl, finish_done]
  · rw [← hwritten]
    apply rewind_written

end

/-- When the first read brings the whole header, the run goes on behind the header. -/
theorem processResponse_header {ds : List UInt8} {spaces len : ℕ} {first : List UInt8}
    {ws : List (List UInt8)} {headerCallback : Bool} {next : ℕ} (hlen : Announces ds len)
    (hreads : Reads (gfcCreate headerCallback next) ((okHeader ds spaces ++ first) :: ws)) :
  ∃ g, Behind len (okHeader ds spaces).length first g ∧
    (finish (parse g)).Always round Fits ws ∧
    processResponse (gfcCreate headerCallback next) ((okHeader ds spaces ++ first) :: ws) =
      (finish (parse g)).feed round lastRound ws
  := by
  generalize hg₀ : gfcCreate headerCallback next = g₀ at hreads ⊢
  obtain ⟨hrequest, hwindow⟩ : g₀.requestSize = 8192 ∧ g₀.InWindow := by
    rw [← hg₀]
    apply window_of_header rfl rfl
  have hcallback : processResponse g₀ ((okHeader ds spaces ++ first) :: ws) =
      feed round lastRound g₀ ((okHeader ds spaces ++ first) :: ws) := by
    rw [← hg₀]
    apply processResponse_create
  obtain ⟨-, hbound⟩ := hreads.head _ rfl (by omega)
  have hheader := parse_header hlen (by rw [rdBufSize_eq]; omega : (okHeader ds spaces ++
    first).length ≤ rdBufSize) headerCallback next
  rw [hg₀] at hheader
  obtain ⟨g, hparse, hbehind⟩ := hheader
  have hparse := parse_of_parseHeader hparse (by rw [hbehind.sm]; rfl)
  have hround := round_eq hwindow (by omega) (okHeader ds spaces ++ first)
  rw [hparse] at hround
  refine ⟨g, hbehind, ?_, ?_⟩
  · rw [Reads, always_cons, hround] at hreads
    apply hreads.2
  · rw [hcallback, feed_cons, hround]

/-- With the whole header in the first read, the outcome is that of the contract exactly when
the file is not empty and no byte behind the file comes with the header. -/
theorem completesRight_iff {ds : List UInt8} {spaces len : ℕ} {first : List UInt8}
    {ws : List (List UInt8)} {headerCallback : Bool} {next : ℕ} (hlen : Announces ds len)
    (hheader : (okHeader ds spaces).length < rdBufSize)
    (hreads : Reads (gfcCreate headerCallback next) ((okHeader ds spaces ++ first) :: ws)) :
  CompletesRight len (first ++ ws.flatten)
      (processResponse (gfcCreate headerCallback next) ((okHeader ds spaces ++ first) :: ws)) ↔
    1 ≤ len ∧ first.length ≤ len
  := by
  obtain ⟨g, hbehind, hrest, hrun⟩ := processResponse_header hlen hreads
  rw [hrun]
  constructor
  · rintro ⟨r, g', houtcome, hok, -, hwritten⟩
    by_contra hnot
    by_cases hfirst : first.length ≤ len
    · have hzero : len = 0 := by omega
      subst hzero
      have hnil : first = [] := List.eq_nil_of_length_eq_zero (by omega)
      subst hnil
      rw [hbehind.empty hheader] at houtcome
      cases houtcome
      have hsuccess := hok.mpr (Nat.zero_le _)
      revert hsuccess
      simp
    · obtain ⟨g'', hleave, hall⟩ := hbehind.overfull (by omega)
      rw [hleave, Round.feed_leave] at houtcome
      cases houtcome
      rw [hall] at hwritten
      omega
  · rintro ⟨hone, hfirst⟩
    have henters := hbehind.entersContent hheader hlen.small hone hfirst
    obtain ⟨-, r, g', houtcome, hstatus, hend⟩ := henters.pending.run hrest
    have hnone : g.written = [] := by
      rw [Gfcrequest.written, hbehind.writes]
      rfl
    rw [hnone, List.nil_append, hbehind.waiting, hbehind.fileLength] at hend
    refine ⟨r, g', houtcome, ?_, ?_, ?_⟩
    · rw [hstatus, hbehind.status]
      rcases hend.result with ⟨hr, hle⟩ | ⟨hr, hlt⟩
      · constructor
        · intro _
          apply hle
        · intro _
          exact ⟨hr, rfl⟩
      · constructor
        · rintro ⟨hr', -⟩
          omega
        · intro hle
          omega
    · intro hlt
      rcases hend.result with ⟨hr, hle⟩ | ⟨hr, -⟩
      · omega
      · omega
    · rw [hend.written, List.length_take]
      omega

theorem completesRight_iff_one :
  CompletesRight 1 (ascii "A" ++ [].flatten)
      (processResponse (gfcCreate false 0) [okHeader (ascii "1") 0 ++ ascii "A"]) ↔
    1 ≤ 1 ∧ (ascii "A").length ≤ 1
  := by
  apply completesRight_iff
  · apply announces_of_all (by decide) (by decide) (by decide) (by decide)
  · decide
  · apply reads_create
    · decide
    · decide

/-- The transfer of an empty file fails: after the header, no bytes are asked for, and the
read that returns none is taken for the end of the connection. -/
theorem not_completesRight_empty :
  Announces (ascii "0") 0 ∧ Reads (gfcCreate false 0) [okHeader (ascii "0") 0] ∧
    ¬ CompletesRight 0 [] (processResponse (gfcCreate false 0) [okHeader (ascii "0") 0])
  := by
  have hlen : Announces (ascii "0") 0 :=
    announces_of_all (by decide) (by decide) (by decide) (by decide)
  have hreads : Reads (gfcCreate false 0) [okHeader (ascii "0") 0 ++ []] :=
    reads_create (by decide) (by decide) false 0
  obtain ⟨g, hbehind, -, hrun⟩ := processResponse_header hlen hreads
  rw [List.append_nil] at hreads hrun
  refine ⟨hlen, hreads, ?_⟩
  rw [hrun, hbehind.empty (by decide)]
  rintro ⟨r, g', ⟨⟩, hok, -, -⟩
  have hsuccess := hok.mpr (Nat.zero_le _)
  cases hsuccess.1

end GetFile.Client
