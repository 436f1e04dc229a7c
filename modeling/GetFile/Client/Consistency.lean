import GetFile.Client.Parsers
import GetFile.Transition.Trace

/-!
# Client: the stages, the callbacks and the result of a run

One round of `process_response` is a read and eight statements, each of which calls a parser in
its stage. In the states between these statements, over all rounds, the stage only moves
forward, the header callback is called once and before the write callback, and the result `0`
stands for a transfer that is done or for a failure that the server has reported
(`response_consistent`).
-/

namespace GetFile.Client

open CString Transition

/-! ### The states of a run -/

/-- The place of a stage in the order `SM_SCHEME` to `SM_DONE`. -/
def StateMachine.index : StateMachine → ℕ
  | .scheme => 0
  | .method => 1
  | .length => 2
  | .path => 3
  | .content => 4
  | .error => 5
  | .notFound => 6
  | .done => 7

/-- The statements of a round behind the read. -/
def parserCalls : List (ℤ × Gfcrequest → ℤ × Gfcrequest) :=
  [ atStage .scheme (fun _ g => parseScheme g),
    atStage .method (fun r g => (r, parseMethod g)),
    atStage .length (fun r g => (r, parseLength g)),
    atStage .path (fun _ g => parsePath g),
    atStage .content (fun r g => (r, parseContent g)),
    atStage .done (fun _ g => (1, g)),
    atStage .error (fun _ g => (1, { g with status := .error })),
    atStage .notFound (fun _ g => (1, { g with status := .fileNotFound })) ]

theorem parse_eq_foldl (g : Gfcrequest) :
  parse g = parserCalls.foldl (fun x call => call x) (0, g)
  := by
  rw [parse, parseHeader]
  simp only [parserCalls, List.foldl_cons, List.foldl_nil]

/-- The states between the statements of a round, if bytes are read in it. -/
def roundStates (g : Gfcrequest) (w : List UInt8) : List Gfcrequest :=
  if g.InWindow ∧ g.requestSize ≠ 0 then
    (through parserCalls (0, g.receive w)).map Prod.snd
  else []

/-- All states of a run of `process_response`. -/
def states (g : Gfcrequest) (ws : List (List UInt8)) : List Gfcrequest :=
  trace round roundStates g ws

/-- A later state: the stage has not moved backwards, and the calls of the callbacks so far have
been made in the state before or since. -/
structure Later (g g' : Gfcrequest) : Prop where
  sm : g.sm.index ≤ g'.sm.index
  headers : g.headers <+: g'.headers
  writes : g.writes <+: g'.writes

/-- The header callback has been called at most once, and when the write callback has been called
it was called once before, with the status `GF_OK` and the length known. -/
structure CallsInOrder (g : Gfcrequest) : Prop where
  once : g.headers.length ≤ 1
  order : g.writes ≠ [] → g.headers.length = 1 ∧ g.status = .ok ∧ g.fileLengthValid = true

/-- No callback has been called. -/
structure Silent (g : Gfcrequest) : Prop where
  headers : g.headers = []
  writes : g.writes = []

/-- The state in which `process_response` may return `0`: the transfer is done with all bytes
written, or the server has reported a failure and no callback has been called. -/
def Final (g : Gfcrequest) : Prop :=
  g.sm = .done ∧ g.status = .ok ∧ g.fileLength ≤ g.bytesWritten ∨
    g.sm = .error ∧ g.status = .error ∧ Silent g ∨
    g.sm = .notFound ∧ g.status = .fileNotFound ∧ Silent g

/-! ### The states between the statements -/

/-- The header has been found, and the header callback has been called. -/
structure Begun (g : Gfcrequest) : Prop where
  headers : g.headers.length = 1
  status : g.status = .ok
  valid : g.fileLengthValid = true

/-- What holds between two statements of a round, where `r` has the value of the first
component. -/
inductive Stands : ℤ × Gfcrequest → Prop where
  | early {g : Gfcrequest} (sm : g.sm = .scheme ∨ g.sm = .method) (silent : Silent g) :
      Stands (0, g)
  | accepted {g : Gfcrequest} (sm : g.sm = .length ∨ g.sm = .path) (silent : Silent g)
      (ok : g.status = .ok) : Stands (0, g)
  | rejected {g : Gfcrequest} (sm : g.sm = .scheme ∨ g.sm = .path) (silent : Silent g) :
      Stands (-1, g)
  | content {g : Gfcrequest} (sm : g.sm = .content) (begun : Begun g) : Stands (0, g)
  | done {r : ℤ} {g : Gfcrequest} (value : r = 0 ∨ r = 1) (sm : g.sm = .done) (begun : Begun g)
      (complete : g.fileLength ≤ g.bytesWritten) : Stands (r, g)
  | error {r : ℤ} {g : Gfcrequest} (value : r = 0 ∨ r = 1 ∧ g.status = .error) (sm : g.sm = .error)
      (silent : Silent g) : Stands (r, g)
  | notFound {r : ℤ} {g : Gfcrequest} (value : r = 0 ∨ r = 1 ∧ g.status = .fileNotFound)
      (sm : g.sm = .notFound) (silent : Silent g) : Stands (r, g)

theorem Later.refl (g : Gfcrequest) :
  Later g g
  := ⟨le_rfl, List.prefix_rfl, List.prefix_rfl⟩

theorem Later.trans (g g' g'' : Gfcrequest) (h : Later g g') (h' : Later g' g'') :
  Later g g''
  := ⟨h.sm.trans h'.sm, h.headers.trans h'.headers, h.writes.trans h'.writes⟩

variable {g : Gfcrequest} {r : ℤ}

/-! ### The parsers -/

/-- A parser turns `g` into `g'` without calling a callback. -/
structure Quiet (g g' : Gfcrequest) : Prop where
  headers : g'.headers = g.headers
  writes : g'.writes = g.writes
  headerCallback : g'.headerCallback = g.headerCallback

/-- No callback has been called after a quiet parser if none has been before. -/
theorem Quiet.silent {g' : Gfcrequest} (h : Quiet g g') (hs : Silent g) :
  Silent g'
  := ⟨h.headers.trans hs.headers, h.writes.trans hs.writes⟩

/-- A quiet parser that moves the stage forward leads to a later state. -/
theorem Quiet.later {g' : Gfcrequest} (h : Quiet g g') (hsm : g.sm.index ≤ g'.sm.index) :
  Later g g'
  := ⟨hsm, by rw [h.headers], by rw [h.writes]⟩

theorem parseScheme_value (g : Gfcrequest) :
  (parseScheme g).1 = 0 ∨ (parseScheme g).1 = -1
  := by
  simp only [parseScheme]
  split
  · split
    · right
      rfl
    · split
      · left
        rfl
      · right
        rfl
  · left
    rfl

theorem parseScheme_quiet (g : Gfcrequest) :
  Quiet g (parseScheme g).2
  := by
  simp only [parseScheme]
  split
  · split
    · exact ⟨rfl, rfl, rfl⟩
    · split
      · exact ⟨rfl, rfl, rfl⟩
      · exact ⟨rfl, rfl, rfl⟩
  · exact ⟨rfl, rfl, rfl⟩

theorem parseOk_quiet (g : Gfcrequest) :
  Quiet g (parseOk g)
  := by
  simp only [parseOk]
  split
  · split
    · exact ⟨rfl, rfl, rfl⟩
    · split
      · exact ⟨rfl, rfl, rfl⟩
      · exact ⟨rfl, rfl, rfl⟩
  · exact ⟨rfl, rfl, rfl⟩

theorem parseFailure_quiet (g : Gfcrequest) :
  Quiet g (parseFailure g)
  := by
  simp only [parseFailure]
  split_ifs
  all_goals exact ⟨rfl, rfl, rfl⟩

theorem parseMethod_quiet (g : Gfcrequest) :
  Quiet g (parseMethod g)
  := by
  have hok := parseOk_quiet g
  have hfailure := parseFailure_quiet (parseOk g)
  exact ⟨hfailure.headers.trans hok.headers, hfailure.writes.trans hok.writes,
    hfailure.headerCallback.trans hok.headerCallback⟩

/-- The first part of `parse_method` stays in its stage, or enters that of the length with the
status `GF_OK`. -/
theorem parseOk_status (g : Gfcrequest) :
  (parseOk g).sm = g.sm ∨ (parseOk g).sm = .length ∧ (parseOk g).status = .ok
  := by
  simp only [parseOk]
  split
  · split
    · left
      rfl
    · split
      · right
        exact ⟨rfl, rfl⟩
      · left
        rfl
  · left
    rfl

/-- The stage of the length is entered with the status `GF_OK`. -/
theorem parseMethod_status (hsm : g.sm = .method) (h : (parseMethod g).sm = .length) :
  (parseMethod g).status = .ok
  := by
  rw [parseMethod] at h ⊢
  rcases parseOk_status g with hok | ⟨hok, hstatus⟩
  · rcases parseFailure_sm (parseOk g) with hfail | hfail | hfail
    · rw [hfail, hok, hsm] at h
      cases h
    · rw [hfail] at h
      cases h
    · rw [hfail] at h
      cases h
  · have hidle : parseFailure (parseOk g) = parseOk g := by
      rw [parseFailure, if_neg (by rw [hok]; decide)]
    rw [hidle]
    apply hstatus

theorem parseLength_quiet (g : Gfcrequest) :
  Quiet g (parseLength g) ∧ (parseLength g).status = g.status
  := by
  obtain ⟨j, -, ⟨-, heq⟩ | ⟨-, heq⟩⟩ := parseLength_cases g
  · rw [heq]
    exact ⟨⟨rfl, rfl, rfl⟩, rfl⟩
  · rw [heq]
    exact ⟨⟨rfl, rfl, rfl⟩, rfl⟩

/-- What `parse_path` does to the stage and the callbacks: it waits or rejects without calling
the header callback, or calls it and enters the stage of the content with the length known. -/
inductive PathCalls (g : Gfcrequest) : ℤ × Gfcrequest → Prop where
  | wait {g' : Gfcrequest} (quiet : Quiet g g') (sm : g'.sm = .path) (status : g'.status = g.status) :
      PathCalls g (0, g')
  | reject {g' : Gfcrequest} (quiet : Quiet g g') (sm : g'.sm = .path) : PathCalls g (-1, g')
  | enter {g' : Gfcrequest} (header : List UInt8) (headers : g'.headers = g.headers ++ [header])
      (writes : g'.writes = g.writes) (headerCallback : g'.headerCallback = g.headerCallback)
      (sm : g'.sm = .content) (status : g'.status = g.status)
      (valid : g'.fileLengthValid = true) : PathCalls g (0, g')

theorem parsePath_calls (hsm : g.sm = .path) (hcallback : g.headerCallback = true) :
  PathCalls g (parsePath g)
  := by
  simp only [parsePath, hcallback, if_true]
  split
  · split
    · exact .enter _ rfl rfl hcallback.symm rfl rfl rfl
    · exact .reject ⟨rfl, rfl, hcallback.symm⟩ hsm
  · exact .wait ⟨rfl, rfl, hcallback.symm⟩ hsm rfl

/-- What `parse_content` does: nothing, or it calls the write callback, and if all bytes are
written then, the transfer is done. -/
structure ContentCalls (g g' : Gfcrequest) : Prop where
  headers : g'.headers = g.headers
  headerCallback : g'.headerCallback = g.headerCallback
  writes : g.writes <+: g'.writes
  status : g'.status = g.status
  valid : g'.fileLengthValid = g.fileLengthValid
  sm : g'.sm = .content ∨ g'.sm = .done ∧ g'.fileLength ≤ g'.bytesWritten

theorem parseContent_calls (hsm : g.sm = .content) :
  ContentCalls g (parseContent g)
  := by
  have hrewound : ContentCalls g g.handOver.rewind := by
    have hprefix : g.writes <+: g.handOver.writes := List.prefix_append _ _
    rw [rewind_eq]
    exact ⟨rfl, rfl, hprefix, rfl, rfl, Or.inl hsm⟩
  rw [parseContent]
  split
  · dsimp only
    split
    · rename_i hdone
      exact ⟨hrewound.headers, hrewound.headerCallback, hrewound.writes, hrewound.status,
        hrewound.valid, Or.inr ⟨rfl, hdone⟩⟩
    · apply hrewound
  · exact ⟨rfl, rfl, List.prefix_rfl, rfl, rfl, Or.inl hsm⟩

/-! ### The statements -/

/-- A statement leads on: what holds between two statements holds behind it, and its state is a
later one. -/
structure Leads (x x' : ℤ × Gfcrequest) : Prop where
  stands : Stands x'
  callback : x'.2.headerCallback = x.2.headerCallback
  later : Later x.2 x'.2

theorem atStage_of_ne {sm : StateMachine} {call : ℤ → Gfcrequest → ℤ × Gfcrequest}
    (h : g.sm ≠ sm) :
  atStage sm call (r, g) = (r, g)
  := if_neg h

theorem atStage_of_eq {sm : StateMachine} {call : ℤ → Gfcrequest → ℤ × Gfcrequest}
    (h : g.sm = sm) :
  atStage sm call (r, g) = call r g
  := if_pos h

/-- A statement leads on if its parser does in its stage. -/
theorem leads_atStage {sm : StateMachine} {call : ℤ → Gfcrequest → ℤ × Gfcrequest}
    (hx : Stands (r, g)) (h : g.sm = sm → Leads (r, g) (call r g)) :
  Leads (r, g) (atStage sm call (r, g))
  := by
  by_cases hsm : g.sm = sm
  · rw [atStage_of_eq hsm]
    apply h hsm
  · rw [atStage_of_ne hsm]
    exact ⟨hx, rfl, Later.refl _⟩

/-- At the stage of the scheme. -/
theorem leads_scheme (hx : Stands (0, g)) :
  Leads (0, g) (atStage .scheme (fun _ g => parseScheme g) (0, g)) ∧
    ((atStage .scheme (fun _ g => parseScheme g) (0, g)).1 = 0 ∨
      (atStage .scheme (fun _ g => parseScheme g) (0, g)).2.sm = .scheme)
  := by
  by_cases hsm : g.sm = .scheme
  · rw [atStage_of_eq hsm]
    have hstage := parseScheme_sm hsm
    have hvalue := parseScheme_value g
    have hquiet := parseScheme_quiet g
    generalize parseScheme g = y at hstage hvalue hquiet
    obtain ⟨r', g'⟩ := y
    dsimp only at hstage hvalue hquiet ⊢
    cases hx with
    | accepted sm | content sm | done value sm | error value sm | notFound value sm =>
        simp [hsm] at sm
    | early sm silent =>
        obtain hstay | ⟨rfl, hnext⟩ := hstage
        · refine ⟨⟨?_, hquiet.headerCallback, hquiet.later (by rw [hsm, hstay])⟩, Or.inr hstay⟩
          obtain rfl | rfl := hvalue
          · exact .early (.inl hstay) (hquiet.silent silent)
          · exact .rejected (.inl hstay) (hquiet.silent silent)
        · refine ⟨⟨?_, hquiet.headerCallback, hquiet.later ?_⟩, Or.inl rfl⟩
          · exact .early (.inr hnext) (hquiet.silent silent)
          · rw [hsm, hnext]
            decide
  · rw [atStage_of_ne hsm]
    exact ⟨⟨hx, rfl, Later.refl g⟩, Or.inl rfl⟩

/-- At the stage of the method. -/
theorem leads_method (hx : Stands (r, g)) :
  Leads (r, g) (atStage .method (fun r g => (r, parseMethod g)) (r, g))
  := by
  apply leads_atStage hx
  intro hsm
  cases hx with
  | accepted sm | rejected sm | content sm | done value sm | error value sm | notFound value sm =>
      simp [hsm] at sm
  | early sm silent =>
      have hquiet := parseMethod_quiet g
      have hsilent := hquiet.silent silent
      obtain hnext | hnext | hnext | hnext := parseMethod_sm hsm
      · exact ⟨.early (.inr hnext) hsilent, hquiet.headerCallback,
          hquiet.later (by rw [hsm, hnext])⟩
      · exact ⟨.accepted (.inl hnext) hsilent (parseMethod_status hsm hnext),
          hquiet.headerCallback, hquiet.later (by rw [hsm, hnext]; decide)⟩
      · exact ⟨.error (.inl rfl) hnext hsilent, hquiet.headerCallback,
          hquiet.later (by rw [hsm, hnext]; decide)⟩
      · exact ⟨.notFound (.inl rfl) hnext hsilent, hquiet.headerCallback,
          hquiet.later (by rw [hsm, hnext]; decide)⟩

/-- At the stage of the length. -/
theorem leads_length (hx : Stands (r, g)) :
  Leads (r, g) (atStage .length (fun r g => (r, parseLength g)) (r, g))
  := by
  apply leads_atStage hx
  intro hsm
  cases hx with
  | early sm | rejected sm | content sm | done value sm | error value sm | notFound value sm =>
      simp [hsm] at sm
  | accepted sm silent ok =>
      obtain ⟨hquiet, hstatus⟩ := parseLength_quiet g
      have hnext := parseLength_sm hsm
      refine ⟨.accepted hnext (hquiet.silent silent) (hstatus.trans ok), hquiet.headerCallback,
        hquiet.later ?_⟩
      obtain hnext | hnext := hnext
      · rw [hsm, hnext]
      · rw [hsm, hnext]
        decide

/-- At the stage of the path. -/
theorem leads_path (hx : Stands (r, g)) (hr : r = 0 ∨ g.sm = .scheme)
    (hcallback : g.headerCallback = true) :
  Leads (r, g) (atStage .path (fun _ g => parsePath g) (r, g))
  := by
  apply leads_atStage hx
  intro hsm
  cases hx with
  | early sm | content sm | done value sm | error value sm | notFound value sm =>
      simp [hsm] at sm
  | rejected sm silent => simp [hsm] at hr
  | accepted sm silent ok =>
      have hcalls := parsePath_calls hsm hcallback
      generalize parsePath g = y at hcalls
      cases hcalls with
      | wait quiet sm' status =>
          exact ⟨.accepted (.inr sm') (quiet.silent silent) (status.trans ok),
            quiet.headerCallback, quiet.later (by rw [hsm, sm'])⟩
      | reject quiet sm' =>
          exact ⟨.rejected (.inr sm') (quiet.silent silent), quiet.headerCallback,
            quiet.later (by rw [hsm, sm'])⟩
      | enter header headers writes headerCallback sm' status valid =>
          refine ⟨.content sm' ⟨?_, status.trans ok, valid⟩, headerCallback, ?_, ?_, ?_⟩
          · rw [headers, silent.headers]
            rfl
          · rw [hsm, sm']
            decide
          · rw [headers]
            apply List.prefix_append
          · rw [writes]

/-- At the stage of the content. -/
theorem leads_content (hx : Stands (r, g)) :
  Leads (r, g) (atStage .content (fun r g => (r, parseContent g)) (r, g))
  := by
  apply leads_atStage hx
  intro hsm
  cases hx with
  | early sm | accepted sm | rejected sm | done value sm | error value sm | notFound value sm =>
      simp [hsm] at sm
  | content sm begun =>
      have hcalls := parseContent_calls hsm
      have hbegun : Begun (parseContent g) := by
        refine ⟨?_, hcalls.status.trans begun.status, hcalls.valid.trans begun.valid⟩
        rw [hcalls.headers]
        apply begun.headers
      have hlater : (parseContent g).sm = .content ∨ (parseContent g).sm = .done →
          Later g (parseContent g) := by
        intro hnext
        refine ⟨?_, by rw [hcalls.headers], hcalls.writes⟩
        obtain hnext | hnext := hnext
        · rw [sm, hnext]
        · rw [sm, hnext]
          decide
      obtain hnext | ⟨hnext, hdone⟩ := hcalls.sm
      · exact ⟨.content hnext hbegun, hcalls.headerCallback, hlater (.inl hnext)⟩
      · exact ⟨.done (.inl rfl) hnext hbegun hdone, hcalls.headerCallback, hlater (.inr hnext)⟩

/-- At the end of a transfer. -/
theorem leads_done (hx : Stands (r, g)) :
  Leads (r, g) (atStage .done (fun _ g => (1, g)) (r, g))
  := by
  apply leads_atStage hx
  intro hsm
  cases hx with
  | early sm | accepted sm | rejected sm | content sm | error value sm | notFound value sm =>
      simp [hsm] at sm
  | done value sm begun complete =>
      exact ⟨.done (.inr rfl) sm begun complete, rfl, Later.refl _⟩

/-- At the failure `ERROR`. -/
theorem leads_error (hx : Stands (r, g)) :
  Leads (r, g) (atStage .error (fun _ g => (1, { g with status := .error })) (r, g))
  := by
  apply leads_atStage hx
  intro hsm
  cases hx with
  | early sm | accepted sm | rejected sm | content sm | done value sm | notFound value sm =>
      simp [hsm] at sm
  | error value sm silent =>
      exact ⟨.error (.inr ⟨rfl, rfl⟩) sm ⟨silent.headers, silent.writes⟩, rfl,
        ⟨le_rfl, List.prefix_rfl, List.prefix_rfl⟩⟩

/-- At the failure `FILE_NOT_FOUND`. -/
theorem leads_notFound (hx : Stands (r, g)) :
  Leads (r, g) (atStage .notFound (fun _ g => (1, { g with status := .fileNotFound })) (r, g))
  := by
  apply leads_atStage hx
  intro hsm
  cases hx with
  | early sm | accepted sm | rejected sm | content sm | done value sm | error value sm =>
      simp [hsm] at sm
  | notFound value sm silent =>
      exact ⟨.notFound (.inr ⟨rfl, rfl⟩) sm ⟨silent.headers, silent.writes⟩, rfl,
        ⟨le_rfl, List.prefix_rfl, List.prefix_rfl⟩⟩

/-- A statement of a later stage leaves a rejected scheme alone. -/
theorem atStage_rejected {sm : StateMachine} {call : Gfcrequest → Gfcrequest} (hsm : sm ≠ .scheme)
    (h : r = 0 ∨ g.sm = .scheme) :
  (atStage sm (fun r g => (r, call g)) (r, g)).1 = 0 ∨
    (atStage sm (fun r g => (r, call g)) (r, g)).2.sm = .scheme
  := by
  by_cases hstage : g.sm = sm
  · rw [atStage_of_eq hstage]
    left
    obtain hr | hscheme := h
    · exact hr
    · exact absurd (hstage.symm.trans hscheme) hsm
  · rw [atStage_of_ne hstage]
    apply h

/-! ### One round and all rounds -/

/-- What holds between two statements, with the header callback set. -/
def Between (x : ℤ × Gfcrequest) : Prop :=
  Stands x ∧ x.2.headerCallback = true

/-- A statement that leads on is passed. -/
theorem Between.cons {call : ℤ × Gfcrequest → ℤ × Gfcrequest}
    {calls : List (ℤ × Gfcrequest → ℤ × Gfcrequest)} {x : ℤ × Gfcrequest} (hx : Between x)
    (h : Leads x (call x))
    (rest : Between (call x) → Passes Between (fun x x' => Later x.2 x'.2) calls (call x)) :
  Passes Between (fun x x' => Later x.2 x'.2) (call :: calls) x
  := ⟨hx, h.later, rest ⟨h.stands, h.callback.trans hx.2⟩⟩

/-- Along the statements of a round. -/
theorem passes_parserCalls (hx : Between (0, g)) :
  Passes Between (fun x x' => Later x.2 x'.2) parserCalls (0, g)
  := by
  obtain ⟨hscheme, hr₁⟩ := leads_scheme hx.1
  apply hx.cons hscheme
  intro hx₁
  generalize atStage .scheme (fun _ g => parseScheme g) (0, g) = x₁ at hr₁ hx₁
  obtain ⟨r₁, g₁⟩ := x₁
  have hr₂ := @atStage_rejected _ _ .method parseMethod (by decide) hr₁
  apply hx₁.cons (leads_method hx₁.1)
  intro hx₂
  generalize atStage .method (fun r g => (r, parseMethod g)) (r₁, g₁) = x₂ at hr₂ hx₂
  obtain ⟨r₂, g₂⟩ := x₂
  have hr₃ := @atStage_rejected _ _ .length parseLength (by decide) hr₂
  apply hx₂.cons (leads_length hx₂.1)
  intro hx₃
  generalize atStage .length (fun r g => (r, parseLength g)) (r₂, g₂) = x₃ at hr₃ hx₃
  obtain ⟨r₃, g₃⟩ := x₃
  apply hx₃.cons (leads_path hx₃.1 hr₃ hx₃.2)
  intro hx₄
  apply hx₄.cons (leads_content hx₄.1)
  intro hx₅
  apply hx₅.cons (leads_done hx₅.1)
  intro hx₆
  apply hx₆.cons (leads_error hx₆.1)
  intro hx₇
  apply hx₇.cons (leads_notFound hx₇.1)
  intro hx₈
  exact hx₈

/-- In every state between two statements the callbacks have been called in order. -/
theorem Stands.callsInOrder (h : Stands (r, g)) :
  CallsInOrder g
  := by
  cases h with
  | early _ silent | accepted _ silent | rejected _ silent | error _ _ silent
  | notFound _ _ silent =>
      constructor
      · rw [silent.headers]
        exact Nat.zero_le 1
      · intro hne
        exact absurd silent.writes hne
  | content _ begun | done _ _ begun =>
      constructor
      · exact begun.headers.le
      · intro _
        exact ⟨begun.headers, begun.status, begun.valid⟩

/-- When `r` is `1` the run has come to a final state. -/
theorem Stands.final (h : Stands (1, g)) :
  Final g
  := by
  cases h with
  | done _ sm begun complete => exact .inl ⟨sm, begun.status, complete⟩
  | error value sm silent =>
      obtain hr | ⟨-, hstatus⟩ := value
      · cases hr
      · exact .inr (.inl ⟨sm, hstatus, silent⟩)
  | notFound value sm silent =>
      obtain hr | ⟨-, hstatus⟩ := value
      · cases hr
      · exact .inr (.inr ⟨sm, hstatus, silent⟩)

/-- The values that `r` can have. -/
theorem Stands.value (h : Stands (r, g)) :
  r = -1 ∨ r = 0 ∨ r = 1
  := by
  cases h with
  | early | accepted | content => exact .inr (.inl rfl)
  | rejected => exact .inl rfl
  | done value => exact .inr value
  | error value | notFound value =>
      obtain hr | ⟨hr, -⟩ := value
      · exact .inr (.inl hr)
      · exact .inr (.inr hr)

/-- A read changes nothing that counts between the statements. -/
theorem Between.receive (h : Between (0, g)) (w : List UInt8) :
  Between (0, g.receive w) ∧ Later g (g.receive w)
  := by
  obtain ⟨hstands, hcallback⟩ := h
  refine ⟨⟨?_, hcallback⟩, le_rfl, List.prefix_rfl, List.prefix_rfl⟩
  cases hstands with
  | early sm silent => exact .early sm ⟨silent.headers, silent.writes⟩
  | accepted sm silent ok => exact .accepted sm ⟨silent.headers, silent.writes⟩ ok
  | content sm begun => exact .content sm ⟨begun.headers, begun.status, begun.valid⟩
  | done value sm begun complete =>
      exact .done value sm ⟨begun.headers, begun.status, begun.valid⟩ complete
  | error value sm silent => exact .error value sm ⟨silent.headers, silent.writes⟩
  | notFound value sm silent => exact .notFound value sm ⟨silent.headers, silent.writes⟩

/-- The states between the statements of a round are in order and come after its head. -/
theorem roundStates_later (h : Between (0, g)) (w : List UInt8) :
  (g :: roundStates g w).Pairwise Later ∧ ∀ x ∈ roundStates g w, CallsInOrder x
  := by
  rw [roundStates]
  split
  · obtain ⟨hreceive, hlater⟩ := h.receive w
    have hpasses := passes_parserCalls hreceive
    have hhead := hpasses.head (fun x => Later.refl x.2) (fun x y z => Later.trans x.2 y.2 z.2)
    constructor
    · rw [List.pairwise_cons]
      constructor
      · intro x hx
        obtain ⟨y, hy, rfl⟩ := List.mem_map.mp hx
        exact Later.trans _ _ _ hlater (hhead y hy)
      · rw [List.pairwise_map]
        exact hpasses.pairwise (fun x => Later.refl x.2) (fun x y z => Later.trans x.2 y.2 z.2)
    · intro x hx
      obtain ⟨y, hy, rfl⟩ := List.mem_map.mp hx
      exact (hpasses.forall y hy).1.callsInOrder
  · constructor
    · exact List.pairwise_singleton _ _
    · intro x hx
      cases hx

/-- What a round does: it reads nothing or nothing inside the buffer and leaves, or it goes
through its statements and ends as `finish` says. -/
theorem round_cases (h : Between (0, g)) (w : List UInt8) :
  round g w = .leave none ∨ round g w = .leave (some (-1, g)) ∨
    ∃ x, round g w = finish x ∧ Between x ∧ ∀ y ∈ g :: roundStates g w, Later y x.2
  := by
  by_cases hwindow : g.InWindow
  · by_cases hzero : g.requestSize = 0
    · right
      left
      rw [round, if_neg (not_not_intro hwindow), if_pos hzero]
    · right
      right
      obtain ⟨hreceive, hlater⟩ := h.receive w
      have hpasses := passes_parserCalls hreceive
      have hlast := hpasses.last (fun x => Later.refl x.2) (fun x y z => Later.trans x.2 y.2 z.2)
      have hmem := foldl_mem_through parserCalls (0, g.receive w)
      have hhead := hpasses.head (fun x => Later.refl x.2) (fun x y z => Later.trans x.2 y.2 z.2)
      rw [← parse_eq_foldl] at hlast hmem
      refine ⟨parse (g.receive w), ?_, hpasses.forall _ hmem, ?_⟩
      · rw [round, if_neg (not_not_intro hwindow), if_neg hzero]
      · intro y hy
        rw [roundStates, if_pos ⟨hwindow, hzero⟩, List.mem_cons] at hy
        obtain rfl | hy := hy
        · exact Later.trans _ _ _ hlater (hhead _ hmem)
        · obtain ⟨z, hz, rfl⟩ := List.mem_map.mp hy
          apply hlast z hz
  · left
    rw [round, if_pos hwindow]

/-- A round that goes on leads to the next head of the loop. -/
theorem round_again {g' : Gfcrequest} {w : List UInt8} (h : Between (0, g))
    (hround : round g w = .again g') :
  Between (0, g') ∧ ∀ y ∈ g :: roundStates g w, Later y g'
  := by
  obtain hleave | hleave | ⟨⟨r, g''⟩, hfinish, hbetween, hlater⟩ := round_cases h w
  · rw [hround] at hleave
    cases hleave
  · rw [hround] at hleave
    cases hleave
  · rw [hround] at hfinish
    obtain rfl | rfl | rfl := hbetween.1.value
    · cases hfinish
    · cases hfinish
      exact ⟨hbetween, hlater⟩
    · cases hfinish

/-- A fresh request with a header callback. -/
theorem between_create (next : ℕ) :
  Between (0, gfcCreate true next)
  := ⟨.early (.inl rfl) ⟨rfl, rfl⟩, rfl⟩

/-- When `process_response` returns `0` it has come to a final state. -/
theorem final_of_result (h : Between (0, g)) {ws : List (List UInt8)} {g' : Gfcrequest}
    (hresult : feed round lastRound g ws = some (0, g')) :
  Final g'
  := by
  induction ws generalizing g with
  | nil =>
      rw [feed_nil, lastRound] at hresult
      split at hresult
      · cases hresult
      · cases hresult
  | cons w ws ih =>
      cases hround : round g w with
      | again g₁ =>
          rw [feed_again hround] at hresult
          apply ih (round_again h hround).1 hresult
      | leave b =>
          rw [feed_leave hround] at hresult
          rw [hresult] at hround
          obtain hleave | hleave | ⟨⟨r, g''⟩, hfinish, ⟨hstands, -⟩, -⟩ := round_cases h w
          · rw [hround] at hleave
            cases hleave
          · rw [hround] at hleave
            cases hleave
          · rw [hround] at hfinish
            obtain rfl | rfl | rfl := hstands.value
            · cases hfinish
            · cases hfinish
            · cases hfinish
              apply hstands.final

/-- For every run of `process_response` on a fresh request with both callbacks, whatever bytes
the reads bring and wherever they stop: of any two states between the statements, the stage of
the second is not before that of the first, and the calls of the callbacks are only added to; the
header callback is called at most once, and the write callback only after it, with the status
`GF_OK` and the length known; and the result `0` is returned in a final state. -/
theorem response_consistent (next : ℕ) (ws : List (List UInt8)) :
  (states (gfcCreate true next) ws).Pairwise Later ∧
  (∀ g ∈ states (gfcCreate true next) ws, CallsInOrder g) ∧
  ∀ g, processResponse (gfcCreate true next) ws = some (0, g) → Final g
  := by
  have hcreate := between_create next
  refine ⟨?_, ?_, ?_⟩
  · exact (trace_pairwise (H := fun g => Between (0, g)) Later.refl Later.trans
      (fun g w h => (roundStates_later h w).1) (fun g w g' h hround => round_again h hround)
      hcreate).1
  · exact trace_forall (H := fun g => Between (0, g)) (fun g h => h.1.callsInOrder)
      (fun g w h => (roundStates_later h w).2) (fun g w g' h hround => (round_again h hround).1)
      hcreate
  · intro g hresult
    rw [processResponse_create] at hresult
    apply final_of_result hcreate hresult

end GetFile.Client
