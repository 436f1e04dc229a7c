import GetFile.Server.Context

/-!
# Server: what the parsers can do

For each parser an inductive family lists everything a call can do, guards included:
`SchemeCase`, `MethodCase` and `PathCase`. A call that accepts a token relates the context
before and after by `StrtokCase`. The lemmas `parse_of_scheme`, `parse_of_method` and
`parse_of_path` chain them as one round of `process_request` does.
-/

namespace GetFile.Server

open CString Transition

/-- The context after `strtok` returned `t` and a parser accepted the token: `header_pt` is
moved on and the next stage is entered. -/
def Gfcontext.accepted (ctx : Gfcontext) (t : Tokenized bufSize) (headerPt : ℕ)
    (sm : StateMachine) : Gfcontext :=
  { ctx with buffer := t.buffer, next := t.next, headerPt := headerPt, sm := sm }

/-- The context after `strtok` returned `t` and `parse_path` took `p` as the path. -/
def Gfcontext.found (ctx : Gfcontext) (t : Tokenized bufSize) (p : List UInt8) : Gfcontext :=
  { ctx with buffer := t.buffer, next := t.next, path := some p,
             pathLength := ctx.headerPt + p.length }

/-! ### `parse_scheme` -/

/-- What `parse_scheme` can do: wait for seven bytes, reject, or accept a first word that
begins with `GETFILE`. -/
inductive SchemeCase (ctx : Gfcontext) : ℤ × Gfcontext → Prop where
  | wait (short : ctx.rxBytes < 7) : SchemeCase ctx (0, ctx)
  | reject {ctx' : Gfcontext} (enough : 7 ≤ ctx.rxBytes)
      (ne : ctx.buffer.strncmp 0 (ascii "GETFILE") = false) (sm : ctx'.sm = ctx.sm) :
      SchemeCase ctx (-1, ctx')
  | accept {t : Tokenized bufSize} {e : ℕ} (enough : 7 ≤ ctx.rxBytes)
      (eq : ctx.buffer.strncmp 0 (ascii "GETFILE") = true)
      (token : t.token = some (0, e)) (call : StrtokCase ctx.buffer space 0 t) :
      SchemeCase ctx (0, ctx.accepted t (e + 1) .method)

theorem parseScheme_cases (ctx : Gfcontext) :
  SchemeCase ctx (parseScheme ctx)
  := by
  have hcases := strtok_cases (b := ctx.buffer) (i := 0) space_ne_zero (Nat.zero_le _)
  have hspace : space ∉ ascii "GETFILE" := by decide
  have hcmp := strncmp_strtok hspace (by decide) hcases
  rw [parseScheme]
  split
  · rename_i henough
    rw [maxScheme_eq] at henough
    generalize hT : strtok ctx.buffer space 0 = t at hcases hcmp
    dsimp only
    split
    · rename_i hnone
      apply SchemeCase.reject henough
      · -- without a token the first byte is a space or a terminator
        rw [Bool.eq_false_iff, ne_eq, Buffer.strncmp_iff]
        intro h
        have hG := h 0 (by decide)
        cases hcases with
        | @none s skips zero bound =>
            rcases Nat.eq_zero_or_pos s with hs | hs
            · rw [hs] at zero
              simp [zero, ascii] at hG
            · have := skips.skip 0 le_rfl hs
              simp [this, ascii, space] at hG
        | last => cases hnone
        | cut => cases hnone
      · rfl
    · rename_i s e hsome
      split
      · rename_i hmatch
        rw [hcmp] at hmatch
        have hs : s = 0 := by
          have hG := Buffer.strncmp_iff.mp hmatch 0 (by decide)
          have hskip : ∀ s', SkipsTo ctx.buffer space 0 s' → s' = 0 := by
            intro s' h
            by_contra hne
            have := h.skip 0 le_rfl (by omega)
            simp [this, ascii, space] at hG
          cases hcases with
          | none => cases hsome
          | last skips runs lt zero bound =>
              cases hsome
              apply hskip _ skips
          | cut skips runs lt delim bound =>
              cases hsome
              apply hskip _ skips
        subst hs
        apply SchemeCase.accept henough hmatch hsome hcases
      · rename_i hmatch
        rw [hcmp] at hmatch
        apply SchemeCase.reject henough
        · simpa using hmatch
        · rfl
  · rename_i hshort
    apply SchemeCase.wait
    simpa using hshort

/-! ### `parse_method` -/

/-- What `parse_method` can do: wait for four bytes behind `header_pt`, reject, or accept
the word `GET`. -/
inductive MethodCase (ctx : Gfcontext) : ℤ × Gfcontext → Prop where
  | wait (short : unsignedSub ctx.rxBytes ctx.headerPt < 4) : MethodCase ctx (0, ctx)
  | reject {ctx' : Gfcontext} {t : Tokenized bufSize}
      (enough : 4 ≤ unsignedSub ctx.rxBytes ctx.headerPt)
      (call : StrtokCase ctx.buffer space ctx.next t)
      (token : ∀ s e, t.token = some (s, e) → ctx.buffer.slice s (e - s) ≠ ascii "GET")
      (sm : ctx'.sm = ctx.sm) : MethodCase ctx (-1, ctx')
  | accept {t : Tokenized bufSize} {s : ℕ} (enough : 4 ≤ unsignedSub ctx.rxBytes ctx.headerPt)
      (call : StrtokCase ctx.buffer space ctx.next t)
      (token : t.token = some (s, s + 3)) (get : ctx.buffer.slice s 3 = ascii "GET") :
      MethodCase ctx (0, ctx.accepted t (ctx.headerPt + 4) .path)

theorem parseMethod_cases {ctx : Gfcontext} (hnext : ctx.next ≤ bufSize) :
  MethodCase ctx (parseMethod ctx)
  := by
  have hcases := strtok_cases (b := ctx.buffer) space_ne_zero hnext
  rw [parseMethod]
  split
  · rename_i henough
    rw [getSize_eq] at henough
    generalize hT : strtok ctx.buffer space ctx.next = t at hcases
    dsimp only
    split
    · rename_i hnone
      apply MethodCase.reject henough hcases
      · intro s e hsome
        rw [hnone] at hsome
        cases hsome
      · rfl
    · rename_i s e hsome
      rw [slice_strtok hcases hsome]
      split
      · rename_i hget
        have hlen := congrArg List.length hget
        rw [Buffer.length_slice] at hlen
        have hlen : e - s = 3 := hlen
        have he : e = s + 3 := by omega
        subst he
        rw [hlen] at hget ⊢
        apply MethodCase.accept henough hcases hsome hget
      · rename_i hget
        apply MethodCase.reject henough hcases
        · intro s' e' hsome'
          rw [hsome] at hsome'
          cases hsome'
          apply hget
        · rfl
  · rename_i hshort
    apply MethodCase.wait
    simpa using hshort

/-! ### `parse_path` -/

/-- What `parse_path` can do on a context whose status is `GF_OK`: take the next word as
the path, go on without a word, or give up without a word after more than 266 bytes. The
second call of `strtok`, with the delimiter `\r`, never finds a token: the first one stops
at a terminator. -/
inductive PathCase (ctx : Gfcontext) : ℤ × Gfcontext → Prop where
  | found {t : Tokenized bufSize} {s e : ℕ} (call : StrtokCase ctx.buffer space ctx.next t)
      (token : t.token = some (s, e)) :
      PathCase ctx (0, ctx.found t (ctx.buffer.slice s (e - s)))
  | goOn {s : ℕ} (skips : SkipsTo ctx.buffer space ctx.next s) (zero : ctx.buffer.byte s = 0)
      (bound : s ≤ bufSize) (few : ctx.totalRxBytes ≤ 266) :
      PathCase ctx (0, { ctx with next := s })
  | giveUp {s : ℕ} (skips : SkipsTo ctx.buffer space ctx.next s) (zero : ctx.buffer.byte s = 0)
      (bound : s ≤ bufSize) (many : 266 < ctx.totalRxBytes) :
      PathCase ctx (-1, { ctx with next := s, status := .fileNotFound })

theorem parsePath_cases {ctx : Gfcontext} (hnext : ctx.next ≤ bufSize) (hok : ctx.status = .ok) :
  PathCase ctx (parsePath ctx)
  := by
  have hcases := strtok_cases (b := ctx.buffer) space_ne_zero hnext
  rw [parsePath]
  generalize hT : strtok ctx.buffer space ctx.next = t at hcases
  dsimp only
  have hfound : ∀ s e, t.token = some (s, e) →
      PathCase ctx (0, { ctx with buffer := t.buffer, next := t.next,
                                  path := some (t.buffer.slice s (e - s)),
                                  pathLength := ctx.headerPt + (e - s) }) := by
    intro s e hsome
    obtain ⟨-, -, hlt, -, -⟩ := hcases.range hsome
    have hlength : ((e - s : ℕ) : ℤ) = e - s := by omega
    have hfound := PathCase.found hcases hsome
    simp only [Gfcontext.found, Buffer.length_slice, hlength] at hfound
    rw [slice_strtok hcases hsome]
    apply hfound
  cases hcases with
  | @none s skips zero bound =>
      have hcr : strtok ctx.buffer cr s = ⟨none, ctx.buffer, s⟩ := by
        apply strtok_none bound _ zero
        constructor
        · apply le_rfl
        · intro k hk hk'
          omega
        · rw [zero]
          apply cr_ne_zero.symm
      simp only [hcr]
      by_cases hmany : maxPath + getSize + maxScheme < ctx.totalRxBytes
      · simp only [hmany, ↓reduceIte]
        apply PathCase.giveUp skips zero bound
        simpa using hmany
      · simp only [hmany, ↓reduceIte, hok, reduceCtorEq]
        rw [← hok]
        apply PathCase.goOn skips zero bound
        simpa using hmany
  | last skips runs lt zero bound =>
      simp only [hok, reduceCtorEq, ↓reduceIte]
      rw [← hok]
      apply hfound _ _ rfl
  | cut skips runs lt delim bound =>
      simp only [hok, reduceCtorEq, ↓reduceIte]
      rw [← hok]
      apply hfound _ _ rfl

/-! ### One round -/

@[simp]
theorem receive_sm (ctx : Gfcontext) (w : List UInt8) :
  (ctx.receive w).sm = ctx.sm
  := rfl

@[simp]
theorem accepted_sm (ctx : Gfcontext) (t : Tokenized bufSize) (headerPt : ℕ) (sm : StateMachine) :
  (ctx.accepted t headerPt sm).sm = sm
  := rfl

theorem parse_of_path {r : ℤ} {ctx : Gfcontext} (h : ctx.sm = .path) :
  parse r ctx = parsePath ctx
  := by simp [parse, h]

theorem parse_of_method {r : ℤ} {ctx : Gfcontext} (h : ctx.sm = .method) :
  parse r ctx = if (parseMethod ctx).2.sm = .path then parsePath (parseMethod ctx).2
    else parseMethod ctx
  := by simp [parse, h]

theorem parse_of_scheme {r : ℤ} {ctx : Gfcontext} (h : ctx.sm = .scheme) :
  parse r ctx = if (parseScheme ctx).2.sm = .scheme then parseScheme ctx
    else parse (parseScheme ctx).1 (parseScheme ctx).2
  := by
  split
  · rename_i hsm
    simp [parse, h, hsm]
  · rename_i hsm
    simp [parse, h, hsm]

/-- The context is ready for a read: its status is `GF_OK`, and `header_pt` lies in the
buffer or at its end. -/
structure Gfcontext.Ready (ctx : Gfcontext) : Prop where
  ok : ctx.status = .ok
  headerPt_le : ctx.headerPt ≤ bufSize

/-- A read leaves the fields that make a context ready. -/
theorem Gfcontext.Ready.receive {ctx : Gfcontext} (h : ctx.Ready) (w : List UInt8) :
  (ctx.receive w).Ready
  := ⟨h.ok, h.headerPt_le⟩

/-- So does taking a word as the path. -/
theorem Gfcontext.Ready.found {ctx : Gfcontext} (h : ctx.Ready) (t : Tokenized bufSize)
    (p : List UInt8) :
  (ctx.found t p).Ready
  := ⟨h.ok, h.headerPt_le⟩

theorem round_eq {r : ℤ} {ctx : Gfcontext} (h : ctx.Ready) (w : List UInt8) :
  round (r, ctx) w = if (parse r (ctx.receive w)).1 = -1
    then .leave (some (-2, (parse r (ctx.receive w)).2)) else .again (parse r (ctx.receive w))
  := by
  have hok : (ctx.receive w).status = .ok := h.ok
  have hpt := h.headerPt_le
  simp only [round, hok, ne_eq, not_true_eq_false, ↓reduceIte]
  rw [if_neg (by omega)]

/-- What `read` may return at a ready context is not empty and fits into the buffer. -/
theorem Fits.le {r : ℤ} {ctx : Gfcontext} {w : List UInt8} {ws : List (List UInt8)}
    (h : Fits (r, ctx) (w :: ws)) (hready : ctx.Ready) :
  w ≠ [] ∧ ctx.headerPt + w.length ≤ bufSize
  := by
  obtain ⟨hne, hlen⟩ := h w rfl
  have hpt := hready.headerPt_le
  rw [bufSize_eq] at hpt
  simp only [unsignedSub, bufSize_eq] at hlen ⊢
  exact ⟨hne, by omega⟩

/-- The loop goes on exactly when the parsers do not return `-1`. -/
theorem round_again_iff {r r' : ℤ} {ctx ctx' : Gfcontext} (h : ctx.Ready) {w : List UInt8} :
  round (r, ctx) w = .again (r', ctx') ↔ parse r (ctx.receive w) = (r', ctx') ∧ r' ≠ -1
  := by
  rw [round_eq h]
  generalize parse r (ctx.receive w) = x
  obtain ⟨r'', ctx''⟩ := x
  by_cases hr : r'' = -1
  · simp [hr]
    rintro rfl
    simp
  · simp [hr]
    rintro rfl _
    apply hr

/-- The loop leaves exactly when the parsers return `-1`, and `process_request` returns
`-2`. -/
theorem round_leave_iff {r : ℤ} {ctx : Gfcontext} (h : ctx.Ready) {w : List UInt8}
    {b : Option (ℤ × Gfcontext)} :
  round (r, ctx) w = .leave b ↔
    ∃ ctx', parse r (ctx.receive w) = (-1, ctx') ∧ b = some (-2, ctx')
  := by
  rw [round_eq h]
  generalize parse r (ctx.receive w) = x
  obtain ⟨r'', ctx''⟩ := x
  by_cases hr : r'' = -1
  · simp [hr, eq_comm]
  · simp [hr]

end GetFile.Server
