import GetFile.Server.Segmentation

/-!
# Server: requests read in one piece

A stream that begins with the scheme and the method and is read in one piece ends with the next
word as the path (`processRequest_whole`). Where a space follows the path, that word is the path.
Where the end sequence follows it directly, the first call of `strtok` in `parse_path` takes the
end sequence as a part of the word, and the branch for the end sequence is not reached.
-/

namespace GetFile.Server

open CString Transition

variable {q rest : List UInt8}

/-- With the word in place, `parse_path` takes it as the path. -/
theorem Filled.parsePath_whole {ctx : Gfcontext}
    (h : Filled (whole q rest) 12 (12 + q.length + rest.length) ctx) (hnext : ctx.next = 12)
    (hne : q ≠ []) (hq : ∀ c ∈ q, c ≠ space ∧ c ≠ 0) (hrest : rest = [] ∨ rest.getD 0 0 = space) :
  ∃ ctx', Server.parsePath ctx = (0, ctx') ∧ ctx'.Ready ∧ ctx'.path = some q
  := by
  have hpos := List.length_pos_iff.mpr hne
  have hbyte : ∀ j (hj : j < q.length), ctx.buffer.byte (12 + j) = q[j] := by
    intro j hj
    rw [h.byte _ (by omega) (by omega), whole_word hj]
  have hrun : RunsTo ctx.buffer space 12 (12 + q.length) := by
    constructor
    · omega
    · intro k hk hlt
      obtain ⟨j, rfl⟩ := Nat.exists_eq_add_of_le hk
      rw [hbyte j (by omega)]
      apply hq _ (List.getElem_mem _)
    · by_cases hend : rest = []
      · right
        subst hend
        apply h.clear
        exact le_rfl
      · left
        have hrest := hrest.resolve_left hend
        have hlen := List.length_pos_iff.mpr hend
        rw [h.byte _ (by omega) (by omega), whole_behind, hrest]
  have hslice : ctx.buffer.slice 12 q.length = q := Buffer.slice_eq rfl hbyte
  have hword := hrun.run 12 le_rfl (by omega)
  have hcase := @parsePath_cases ctx (by rw [hnext]; decide) h.ok
  rw [← hnext] at hword
  obtain ⟨t, e, call, token, hparse⟩ := hcase.found_of_word hword.1 hword.2
  obtain ⟨-, runs, -, -, -⟩ := call.range token
  rw [hnext] at runs hparse
  obtain rfl := runs.unique hrun
  refine ⟨_, hparse, h.toReady.found _ _, ?_⟩
  simp only [Gfcontext.found, Nat.add_sub_cancel_left, hslice]

/-- The first round finds the word. -/
theorem round_whole (hlen : 12 + q.length + rest.length ≤ bufSize) (hne : q ≠ [])
    (hq : ∀ c ∈ q, c ≠ space ∧ c ≠ 0) (hrest : rest = [] ∨ rest.getD 0 0 = space) (next : ℕ) :
  ∃ ctx, round (0, gfcontextCreate next) (whole q rest) = .again (0, ctx) ∧ ctx.Ready ∧
    ctx.path = some q
  := by
  have hpos := List.length_pos_iff.mpr hne
  have hlength : (whole q rest).length = 12 + q.length + rest.length := length_whole
  have hreads : Rest (whole q rest) 0 [whole q rest] := by simp [Rest]
  have hfilled := (filled_create next).receive hreads (by omega)
  rw [Nat.zero_add, hlength] at hfilled
  obtain ⟨ctx₁, hparse₁, hfilled₁, hsm₁, hnext₁⟩ :=
    hfilled.parse_scheme (heads_whole q rest) rfl (by omega) 0
  obtain ⟨ctx₂, hparse₂, hfilled₂, -, hnext₂⟩ :=
    hfilled₁.parse_method (heads_whole q rest) hsm₁ hnext₁ (by omega) 0
  obtain ⟨ctx, hpath, hready, hfound⟩ := hfilled₂.parsePath_whole hnext₂ hne hq hrest
  refine ⟨ctx, ?_, hready, hfound⟩
  rw [round_again_iff (filled_create (s := whole q rest) next).toReady]
  exact ⟨hparse₁.trans (hparse₂.trans hpath), by decide⟩

/-- Read in one piece, a stream that begins with the scheme, the method and a word ends with the
word as the path, and the handler is called with it. -/
theorem processRequest_whole (hlen : 12 + q.length + rest.length ≤ bufSize) (hne : q ≠ [])
    (hq : ∀ c ∈ q, c ≠ space ∧ c ≠ 0) (hrest : rest = [] ∨ rest.getD 0 0 = space) (next : ℕ)
    (e : NoBytes) :
  answer (processRequest (gfcontextCreate next) [whole q rest] e) = some (-1, some q)
  := by
  obtain ⟨ctx, hround, hready, hpath⟩ := round_whole hlen hne hq hrest next
  have hpt := hready.headerPt_le
  rw [processRequest, feed_again hround, feed_nil]
  simp only [lastRound]
  rw [if_neg (by omega)]
  cases e with
  | endOfInput => simp [answer, hpath]
  | timeout => simp [answer, hpath]

/-! ### The two ends of a request -/

/-- The request for a path in which the end sequence follows the path without a space. -/
def unspacedRequest (p : List UInt8) : List UInt8 :=
  ascii "GETFILE GET " ++ p ++ ascii "\r\n\r\n"

/-- Both forms of the request for `p`, each read in one piece, end with the same code and the same
path: the handler is called with `p`. -/
def TerminatorsAgree (p : List UInt8) (next : ℕ) (e : NoBytes) : Prop :=
  answer (processRequest (gfcontextCreate next) [unspacedRequest p] e)
      = answer (processRequest (gfcontextCreate next) [request p] e) ∧
    answer (processRequest (gfcontextCreate next) [unspacedRequest p] e) = some (-1, some p)

variable {p : List UInt8}

/-- The bytes of a path are neither spaces nor terminators. -/
theorem IsPath.word_byte (hp : IsPath p) {c : UInt8} (hc : c ∈ p) :
  c ≠ space ∧ c ≠ 0
  := by
  have hblank := hp.word c hc
  rw [Blank, not_or, not_or] at hblank
  exact ⟨hblank.2.1, hblank.1⟩

/-- With a space behind it, the path is found. -/
theorem processRequest_request (hp : IsPath p) (next : ℕ) (e : NoBytes) :
  answer (processRequest (gfcontextCreate next) [request p] e) = some (-1, some p)
  := by
  have hlen := hp.length_le
  apply processRequest_whole _ hp.ne_nil (fun c hc => hp.word_byte hc) (Or.inr rfl)
  have htail : (ascii " \r\n\r\n").length = 5 := rfl
  rw [bufSize_eq, htail]
  omega

/-- Without the space, the path is found with the end sequence as its last four bytes. -/
theorem processRequest_unspacedRequest (hp : IsPath p) (next : ℕ) (e : NoBytes) :
  answer (processRequest (gfcontextCreate next) [unspacedRequest p] e)
    = some (-1, some (p ++ ascii "\r\n\r\n"))
  := by
  have heq : unspacedRequest p = whole (p ++ ascii "\r\n\r\n") [] := by
    rw [whole, unspacedRequest, List.append_nil, List.append_assoc]
  have hlen := hp.length_le
  rw [heq]
  apply processRequest_whole _ _ _ (Or.inl rfl)
  · have htail : (ascii "\r\n\r\n").length = 4 := rfl
    rw [bufSize_eq, List.length_append, htail, List.length_nil]
    omega
  · exact List.append_ne_nil_of_left_ne_nil hp.ne_nil _
  · intro c hc
    rcases List.mem_append.mp hc with hc | hc
    · exact hp.word_byte hc
    · constructor
      · rintro rfl
        exact absurd hc (by decide)
      · rintro rfl
        exact absurd hc (by decide)

/-- For no path do the two forms of the request agree. -/
theorem not_terminatorsAgree (hp : IsPath p) (next : ℕ) (e : NoBytes) :
  ¬ TerminatorsAgree p next e
  := by
  rintro ⟨-, hanswer⟩
  rw [processRequest_unspacedRequest hp] at hanswer
  have hpath : p ++ ascii "\r\n\r\n" = p := by simpa using hanswer
  have hlength := congrArg List.length hpath
  have htail : (ascii "\r\n\r\n").length = 4 := rfl
  rw [List.length_append, htail] at hlength
  omega

theorem not_terminatorsAgree_a :
  ¬ TerminatorsAgree (ascii "/a") 0 .timeout
  := not_terminatorsAgree isPath_a 0 .timeout

/-- The request for `/a` without a space calls the handler with another path. -/
theorem terminators_a :
  IsPath (ascii "/a") ∧ ¬ TerminatorsAgree (ascii "/a") 0 .endOfInput
  := by
  refine ⟨isPath_a, ?_⟩
  rintro ⟨hsame, -⟩
  rw [processRequest_unspacedRequest isPath_a, processRequest_request isPath_a] at hsame
  exact absurd hsame (by decide)

end GetFile.Server
