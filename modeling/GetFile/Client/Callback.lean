import GetFile.Client.Completion
import GetFile.Client.Consistency

/-!
# Client: what the header callback sees

When the header comes wholly in the first read, the header callback is called once, with the length
of the header. But the buffer that it is given has been taken apart by `strtok`: two of its bytes
are terminators where the header has spaces.
-/

namespace GetFile.Client

open CString Transition

/-- The run ends with one call of the header callback, which has seen the header as it was
received. -/
def SeesHeader (header : List UInt8) (outcome : Option (ℤ × Gfcrequest)) : Prop :=
  ∃ r g, outcome = some (r, g) ∧ g.headers = [header]

variable {g : Gfcrequest}

/-- In the stage of the content a round leaves the calls of the header callback as they are. -/
theorem parse_headers (hsm : g.sm = .content) :
  (parse g).2.headers = g.headers ∧
    ((parse g).1 = 1 ∨ (parse g).1 = 0 ∧ (parse g).2.sm = .content)
  := by
  have hcalls := parseContent_calls hsm
  rw [parse_of_content hsm]
  split
  · exact ⟨hcalls.headers, Or.inl rfl⟩
  · rename_i hdone
    refine ⟨hcalls.headers, Or.inr ⟨rfl, ?_⟩⟩
    rcases hcalls.sm with h | ⟨h, -⟩
    · exact h
    · exact absurd h hdone

/-- What a round in the stage of the content ends with: the calls of the header callback are as
they were, and if the loop goes on, it is in that stage. -/
inductive ContentRound (headers : List (List UInt8)) :
    Round Gfcrequest (Option (ℤ × Gfcrequest)) → Prop where
  | again {g : Gfcrequest} (sm : g.sm = .content) (eq : g.headers = headers) :
      ContentRound headers (.again g)
  | leave {b : Option (ℤ × Gfcrequest)} (eq : ∀ r g, b = some (r, g) → g.headers = headers) :
      ContentRound headers (.leave b)

theorem finish_contentRound (hsm : g.sm = .content) :
  ContentRound g.headers (finish (parse g))
  := by
  obtain ⟨hheaders, hresult⟩ := parse_headers hsm
  generalize parse g = x at hheaders hresult
  obtain ⟨r, g'⟩ := x
  rcases hresult with rfl | ⟨rfl, hsm'⟩
  · rw [finish_done]
    apply ContentRound.leave
    rintro r g'' ⟨⟩
    exact hheaders
  · rw [finish_again]
    exact ContentRound.again hsm' hheaders

theorem round_contentRound (hsm : g.sm = .content) (w : List UInt8) :
  ContentRound g.headers (round g w)
  := by
  rw [round]
  split
  · apply ContentRound.leave
    rintro r g' ⟨⟩
  · split
    · apply ContentRound.leave
      rintro r g' ⟨⟩
      rfl
    · exact finish_contentRound (g := g.receive w) hsm

/-- From a round in the stage of the content on, the calls of the header callback stay as they
are. -/
theorem ContentRound.feed {headers : List (List UInt8)}
    {x : Round Gfcrequest (Option (ℤ × Gfcrequest))} (h : ContentRound headers x)
    (ws : List (List UInt8)) {r : ℤ} {g' : Gfcrequest}
    (hresult : x.feed round lastRound ws = some (r, g')) :
  g'.headers = headers
  := by
  induction ws generalizing x with
  | nil =>
      cases h with
      | again sm eq =>
          rw [Round.feed_again, feed_nil, lastRound] at hresult
          split at hresult
          · cases hresult
          · cases hresult
            exact eq
      | leave eq => exact eq r g' hresult
  | cons w ws ih =>
      cases h with
      | @again g sm eq =>
          rw [Round.feed_again, feed_cons] at hresult
          have hround := round_contentRound sm w
          rw [eq] at hround
          exact ih hround hresult
      | leave eq => exact eq r g' hresult

variable {ds : List UInt8} {spaces : ℕ} {first : List UInt8} {ws : List (List UInt8)} {next : ℕ}

/-- With the whole header in the first read, the header callback is called once, with as many bytes
as the header has, and these are the header as the tokenizer has left it. -/
theorem headers_eq (hne : ds ≠ []) (hds : ∀ c ∈ ds, isDigit c = true)
    (hbound : (okHeader ds spaces ++ first).length ≤ rdBufSize) {r : ℤ} {g : Gfcrequest}
    (hresult : processResponse (gfcCreate true next) ((okHeader ds spaces ++ first) :: ws)
      = some (r, g)) :
  g.headers = [cutHeader ds spaces]
  := by
  obtain ⟨g₁, hparse, hbehind, hheaders⟩ :=
    parse_header_digits hne hds hbound true next
  have hparse := parse_of_parseHeader hparse (by rw [hbehind.sm]; rfl)
  obtain ⟨hrequest, hwindow⟩ : (gfcCreate true next).requestSize = 8192 ∧
      (gfcCreate true next).InWindow := window_of_header rfl rfl
  have hround := round_eq hwindow (by omega) (okHeader ds spaces ++ first)
  rw [hparse] at hround
  rw [processResponse_create, feed_cons, hround] at hresult
  have hcontent := finish_contentRound hbehind.sm
  rw [hheaders, if_pos rfl] at hcontent
  exact hcontent.feed ws hresult

/-- The tokenizer has changed the header. -/
theorem cutHeader_ne (ds : List UInt8) (spaces : ℕ) :
  cutHeader ds spaces ≠ okHeader ds spaces
  := by
  intro heq
  have hlength := length_okHeader ds spaces
  have hseven := congrArg (fun l => l.getD 7 0) heq
  have hhead := (begins_okHeader ds spaces []).head 7 (by decide)
  rw [List.append_nil] at hhead
  rw [hhead, cutHeader, List.getD_eq_getElem _ _ (by
    rw [List.length_set, List.length_set]; omega), List.getElem_set_ne (by decide),
    List.getElem_set_self] at hseven
  exact absurd hseven (by decide)

/-- For no header does the callback see the header as it was received. -/
theorem not_seesHeader (hne : ds ≠ []) (hds : ∀ c ∈ ds, isDigit c = true)
    (hbound : (okHeader ds spaces ++ first).length ≤ rdBufSize) (ws : List (List UInt8))
    (next : ℕ) :
  ¬ SeesHeader (okHeader ds spaces)
      (processResponse (gfcCreate true next) ((okHeader ds spaces ++ first) :: ws))
  := by
  rintro ⟨r, g, hresult, hsees⟩
  rw [headers_eq hne hds hbound hresult, List.cons.injEq] at hsees
  exact cutHeader_ne ds spaces hsees.1

theorem not_seesHeader_one :
  ¬ SeesHeader (okHeader (ascii "1") 2)
      (processResponse (gfcCreate true 0) [okHeader (ascii "1") 2 ++ ascii "A"])
  := by
  apply not_seesHeader
  · decide
  · exact fun c hc => List.all_eq_true.mp (by decide : (ascii "1").all isDigit = true) c hc
  · decide

/-- The callback for the header `GETFILE OK 1` sees terminators behind its first two words. -/
theorem sees_cutHeader :
  (processResponse (gfcCreate true 0) [okHeader (ascii "1") 0 ++ ascii "A"]).map
      (fun x => (x.1, x.2.headers)) = some (0, [ascii "GETFILE\x00OK\x001\r\n\r\n"]) ∧
    ¬ SeesHeader (okHeader (ascii "1") 0)
      (processResponse (gfcCreate true 0) [okHeader (ascii "1") 0 ++ ascii "A"])
  := by
  have hrun : (processResponse (gfcCreate true 0) [okHeader (ascii "1") 0 ++ ascii "A"]).map
      (fun x => (x.1, x.2.headers)) = some (0, [ascii "GETFILE\x00OK\x001\r\n\r\n"]) := by
    decide +kernel
  refine ⟨hrun, ?_⟩
  rintro ⟨r, g, hresult, hsees⟩
  rw [hresult, Option.map_some, hsees, Option.some.injEq, Prod.mk.injEq] at hrun
  exact absurd hrun.2 (by decide)

end GetFile.Client
