import GetFile.Server.Request

/-!
# Server: how a request is cut into reads

A well-formed request gives the code `-1` and its path exactly when the reads are
`InPlace`: each word that is accepted ends with a read, up to the read that brings the path
as a whole, and later reads are too short to reach the saved pointer of `strtok`. In every
other way of cutting it `process_request` loses the path, since it reads at
`buffer + header_pt`, and `header_pt` is the end of the accepted words and not of the bytes
received.
-/

namespace GetFile.Server

open CString Transition

/-- The reads `ws` bring the request in place when `r` bytes are already in place, for `r`
one of `0`, `8` and `12`: the scheme or the method ends with a read, the path comes with one
read, and the reads behind that one do not reach the saved pointer of `strtok` and keep the
number of bytes below the limit of `parse_path`. -/
inductive InPlace (p : List UInt8) : ℕ → List (List UInt8) → Prop where
  | scheme {w : List UInt8} {ws : List (List UInt8)} (length : w.length = 8)
      (rest : InPlace p 8 ws) : InPlace p 0 (w :: ws)
  | method {r : ℕ} {w : List UInt8} {ws : List (List UInt8)} (before : r < 12)
      (length : r + w.length = 12)
      (rest : InPlace p 12 ws) : InPlace p r (w :: ws)
  | path {r : ℕ} {w : List UInt8} {ws : List (List UInt8)}
      (whole : 12 + p.length ≤ r + w.length)
      (short : ws = [] ∨ p.length ≤ 249 ∧ ∃ j ≤ 1, r + w.length = 12 + p.length + j ∧
        ∀ v ∈ ws, v.length ≤ p.length + j) : InPlace p r (w :: ws)

section

variable {p : List UInt8}

/-! ### Behind the path -/

/-- A word at the saved pointer is found. -/
theorem PathCase.found_of_word {ctx : Gfcontext} {x : ℤ × Gfcontext} (h : PathCase ctx x)
    (hspace : ctx.buffer.byte ctx.next ≠ space) (hzero : ctx.buffer.byte ctx.next ≠ 0) :
  ∃ t e, StrtokCase ctx.buffer space ctx.next t ∧ t.token = some (ctx.next, e) ∧
    x = (0, ctx.found t (ctx.buffer.slice ctx.next (e - ctx.next)))
  := by
  have hstart : ∀ s, SkipsTo ctx.buffer space ctx.next s → s = ctx.next := by
    intro s hs
    by_contra hne
    apply hspace
    apply hs.skip ctx.next le_rfl
    have := hs.le
    omega
  cases h with
  | @found t s e call token =>
      obtain ⟨skips, -⟩ := call.range token
      obtain rfl := hstart s skips
      exact ⟨t, e, call, token, rfl⟩
  | goOn skips zero =>
      rw [hstart _ skips] at zero
      apply absurd zero hzero
  | giveUp skips zero =>
      rw [hstart _ skips] at zero
      apply absurd zero hzero

/-- Without a word at the saved pointer the parser goes on with the same pointer, or gives
up. -/
theorem PathCase.eq_of_zero {ctx : Gfcontext} {x : ℤ × Gfcontext} (h : PathCase ctx x)
    (hzero : ctx.buffer.byte ctx.next = 0) :
  ctx.totalRxBytes ≤ 266 ∧ x = (0, ctx) ∨ 266 < ctx.totalRxBytes ∧ x.1 = -1
  := by
  have hstart : ∀ s, SkipsTo ctx.buffer space ctx.next s → s = ctx.next := by
    intro s hs
    by_contra hne
    apply space_ne_zero
    rw [← hs.skip ctx.next le_rfl (by have := hs.le; omega)]
    apply hzero
  cases h with
  | found call token =>
      have hnone := call.token_of_zero space_ne_zero hzero
      rw [hnone] at token
      cases token
  | goOn skips zero bound few =>
      left
      rw [hstart _ skips]
      exact ⟨few, rfl⟩
  | giveUp skips zero bound many =>
      right
      exact ⟨many, rfl⟩

/-- The head of the loop in the stage of the path when no word that `strtok` can still find
is the path: from the saved pointer on, the bytes from index `11 + |p|` on are blank. -/
structure PastPath (p : List UInt8) (ctx : Gfcontext) : Prop extends ctx.Ready where
  sm : ctx.sm = .path
  headerPt : ctx.headerPt = 12
  le_next : 12 ≤ ctx.next
  next_le : ctx.next ≤ bufSize
  blank : ∀ i, 11 + p.length ≤ i → ctx.next ≤ i → Blank (ctx.buffer.byte i)

/-- A read that starts behind the first byte of the path keeps the loop past the path. -/
theorem PastPath.receive {o : ℕ} {w : List UInt8} {ws : List (List UInt8)}
    {ctx : Gfcontext} (h : PastPath p ctx) (hrest : Rest (request p) o (w :: ws)) (ho : 13 ≤ o)
    (hfits : 12 + w.length ≤ bufSize) :
  PastPath p (ctx.receive w)
  where
  ok := h.ok
  headerPt_le := h.headerPt_le
  sm := h.sm
  headerPt := h.headerPt
  le_next := h.le_next
  next_le := h.next_le
  blank i hi hnext := by
    have hpt := h.headerPt
    have hle := le_trans h.le_next hnext
    by_cases hlt : i < 12 + w.length
    · rw [byte_receive_of_rest hrest (by omega) (by omega) (by omega)]
      apply request_blank
      omega
    · rw [byte_receive_of_not_mem (by omega)]
      apply h.blank i hi hnext

/-- A round that goes on keeps the loop past the path. -/
theorem PastPath.of_case {ctx ctx' : Gfcontext} {r : ℤ} (h : PastPath p ctx)
    (hcase : PathCase ctx (r, ctx')) (hr : r ≠ -1) :
  PastPath p ctx'
  := by
  cases hcase with
  | @found t s e call token =>
      refine ⟨⟨h.ok, h.headerPt_le⟩, h.sm, h.headerPt, ?_, call.next_le, ?_⟩
      · apply le_trans h.le_next call.le_next
      · intro i hi hnext
        have hbehind : t.buffer.byte i = ctx.buffer.byte i := call.behind hnext
        simp only [Gfcontext.found]
        rw [hbehind]
        apply h.blank i hi (le_trans call.le_next hnext)
  | @goOn s skips zero bound few =>
      refine ⟨⟨h.ok, h.headerPt_le⟩, h.sm, h.headerPt, le_trans h.le_next skips.le, bound, ?_⟩
      intro i hi hnext
      apply h.blank i hi (le_trans skips.le hnext)
  | giveUp => apply absurd rfl hr

/-- Past the path, a word that is found is not the path. -/
theorem PastPath.word_ne (hp : IsPath p) {ctx : Gfcontext} {t : Tokenized bufSize} {s e : ℕ}
    (h : PastPath p ctx) (call : StrtokCase ctx.buffer space ctx.next t)
    (token : t.token = some (s, e)) :
  ctx.buffer.slice s (e - s) ≠ p
  := by
  intro hslice
  obtain ⟨skips, -, hlt, -, -⟩ := call.range token
  have hlength : e - s = p.length := by
    rw [← hslice, Buffer.length_slice]
  have hle := skips.le
  have hnext := h.le_next
  have hlast : e - s - 1 < (ctx.buffer.slice s (e - s)).length := by
    rw [Buffer.length_slice]
    omega
  have hblank := h.blank (s + (e - s - 1)) (by omega) (by omega)
  rw [← Buffer.getElem_slice ctx.buffer hlast] at hblank
  apply hp.word _ _ hblank
  rw [← hslice]
  apply List.getElem_mem hlast

/-- Past the path, the path that a round leaves was there before. -/
theorem PastPath.path_of_case (hp : IsPath p) {ctx ctx' : Gfcontext} {r : ℤ}
    (h : PastPath p ctx) (hcase : PathCase ctx (r, ctx')) (hpath : ctx'.path = some p) :
  ctx.path = some p
  := by
  cases hcase with
  | found call token =>
      apply absurd _ (h.word_ne hp call token)
      simpa [Gfcontext.found] using hpath
  | goOn => apply hpath
  | giveUp => apply hpath

/-! ### The path is lost -/

/-- The heads of the loop, after `o` bytes of the request, from which the path is not found
any more. -/
inductive Lost (p : List UInt8) (o : ℕ) (ctx : Gfcontext) : Prop where
  | scheme (head : LostScheme o ctx) : Lost p o ctx
  | method (head : LostMethod o ctx) : Lost p o ctx
  | path (past : PastPath p ctx) (ne : ctx.path ≠ some p) (late : 13 ≤ o) : Lost p o ctx

theorem Lost.ready {o : ℕ} {ctx : Gfcontext} (h : Lost p o ctx) :
  ctx.Ready
  := by
  cases h with
  | scheme head => apply head.toReady
  | method head => apply head.toReady
  | path past => apply past.toReady

theorem Lost.path_ne {o : ℕ} {ctx : Gfcontext} (h : Lost p o ctx) :
  ctx.path ≠ some p
  := by
  cases h with
  | scheme head =>
      rw [head.path]
      simp
  | method head =>
      rw [head.path]
      simp
  | path past ne late => apply ne

/-- A round in the stage of the path past the path. -/
theorem PastPath.lost (hp : IsPath p) {o : ℕ} {ctx ctx' : Gfcontext} {r : ℤ}
    (h : PastPath p ctx) (hne : ctx.path ≠ some p) (ho : 13 ≤ o)
    (hcase : PathCase ctx (r, ctx')) (hr : r ≠ -1) :
  Lost p o ctx'
  := by
  apply Lost.path (h.of_case hcase hr)
  · intro hpath
    apply hne
    apply h.path_of_case hp hcase hpath
  · apply ho

/-- Where all bytes from an index on are blank, they still are after a call of `strtok`. -/
theorem blank_strtok {b : Buffer bufSize} {d : UInt8} {i n : ℕ} {t : Tokenized bufSize}
    (h : StrtokCase b d i t) (hblank : ∀ k, n ≤ k → Blank (b.byte k)) {k : ℕ} (hk : n ≤ k) :
  Blank (t.buffer.byte k)
  := by
  cases h with
  | none => apply hblank k hk
  | last => apply hblank k hk
  | @cut s e =>
      by_cases hke : k = e
      · rw [hke, Buffer.terminate_byte_self]
        left
        rfl
      · rw [Buffer.terminate_byte_of_ne b hke]
        apply hblank k hk

/-- The shifted method leads past the path: the bytes that can hold the end of the path are
blank. -/
theorem PastPath.of_shifted (hp : IsPath p) {w : List UInt8} {ws : List (List UInt8)}
    {ctx : Gfcontext} {t : Tokenized bufSize} (h : LostMethod 11 ctx)
    (hrest : Rest (request p) 11 (w :: ws)) (hfits : 8 + w.length ≤ bufSize)
    (call : StrtokCase (ctx.receive w).buffer space 8 t) (token : t.token = some (9, 12)) :
  PastPath p ((ctx.receive w).accepted t 12 .path)
  := by
  have hpos := List.length_pos_iff.mpr hp.ne_nil
  obtain ⟨-, -, -, -, hend⟩ := call.range token
  refine ⟨⟨h.ok, ?_⟩, rfl, rfl, hend, call.next_le, ?_⟩
  · have hle : 12 ≤ bufSize := by decide
    apply hle
  · intro i hi _
    have hblank : ∀ k, 11 + p.length ≤ k → Blank ((ctx.receive w).buffer.byte k) := by
      intro k hk
      by_cases hlt : k < 8 + w.length
      · rw [h.byte_receive hrest hfits (by omega) hlt]
        apply request_blank
        omega
      · rw [h.clear_receive (by omega) (by omega)]
        left
        rfl
    apply blank_strtok call hblank hi

/-- Reading on inside the method loses the path. -/
theorem LostMethod.lost (hp : IsPath p) {o : ℕ} {w : List UInt8} {ws : List (List UInt8)}
    {ctx ctx' : Gfcontext} {r r' : ℤ} (h : LostMethod o ctx)
    (hrest : Rest (request p) o (w :: ws)) (hw : w ≠ [])
    (hparse : parse r (ctx.receive w) = (r', ctx')) (hr : r' ≠ -1) :
  Lost p (o + w.length) ctx'
  := by
  have hfits := fits_of_rest hp hrest hw (le_trans (by omega) h.some_read : 8 ≤ o)
  by_cases hshort : o + w.length < 12
  · obtain ⟨hwait, hlost⟩ := h.parse_wait hfits hshort r
    rw [hwait] at hparse
    cases hparse
    apply Lost.method hlost
  · by_cases hshift : o = 11 ∧ ShiftedMethod w
    · obtain ⟨rfl, hshift⟩ := hshift
      obtain ⟨t, call, token, heq⟩ := h.parse_shifted hfits hshift r
      have hpast := PastPath.of_shifted hp h hrest hfits call token
      have hcase := parsePath_cases hpast.next_le hpast.ok
      rw [← heq, hparse] at hcase
      have hlength : 4 ≤ w.length := by
        obtain ⟨v, rfl, -⟩ := hshift
        rw [List.length_append]
        apply Nat.le_add_right 4
      apply hpast.lost hp _ (by omega) hcase hr
      simp [Gfcontext.accepted, Gfcontext.receive, h.path]
    · have hreject := h.parse_reject (opens_request hp) hrest hw hfits (by omega) hshift r
      rw [hparse] at hreject
      apply absurd hreject hr

/-- A round that goes on does not find a lost path. -/
theorem Lost.step (hp : IsPath p) {o : ℕ} {w : List UInt8} {ws : List (List UInt8)}
    {ctx ctx' : Gfcontext} {r r' : ℤ} (h : Lost p o ctx) (hrest : Rest (request p) o (w :: ws))
    (hw : w ≠ []) (hround : round (r, ctx) w = .again (r', ctx')) :
  Lost p (o + w.length) ctx'
  := by
  obtain ⟨hparse, hr⟩ := (round_again_iff h.ready).mp hround
  cases h with
  | scheme head =>
      have hfits := fits_of_rest hp hrest hw (Nat.zero_le o)
      rw [Nat.zero_add] at hfits
      apply Lost.scheme
      apply head.step (opens_request hp) hrest hw hfits hparse hr
  | method head => apply head.lost hp hrest hw hparse hr
  | path past ne late =>
      have hfits := fits_of_rest hp hrest hw (le_trans (by omega) late : 12 ≤ o)
      have hpast := past.receive hrest late hfits
      rw [parse_of_path hpast.sm] at hparse
      have hcase := parsePath_cases hpast.next_le hpast.ok
      rw [hparse] at hcase
      apply hpast.lost hp ne (by omega) hcase hr

/-- The last round leaves the path. -/
theorem answer_lastRound {ctx : Gfcontext} (h : ctx.Ready) (e : NoBytes) (r : ℤ) :
  answer (lastRound e (r, ctx)) = some (-1, ctx.path)
  := by
  have hpt := h.headerPt_le
  simp only [lastRound]
  rw [if_neg (by omega)]
  cases e with
  | endOfInput => rfl
  | timeout => rfl

/-- A round that leaves gives another code. -/
theorem answer_of_leave {ctx : Gfcontext} {r : ℤ} (h : ctx.Ready) {w : List UInt8}
    {b : Option (ℤ × Gfcontext)} (hround : round (r, ctx) w = .leave b) :
  answer b ≠ some (-1, some p)
  := by
  obtain ⟨ctx', -, rfl⟩ := (round_leave_iff h).mp hround
  simp [answer]

/-- Once the path is lost, `process_request` does not give it. -/
theorem Lost.answer_ne (hp : IsPath p) {o : ℕ} {ws : List (List UInt8)} {ctx : Gfcontext}
    {r : ℤ} (e : NoBytes) (h : Lost p o ctx) (hrest : Rest (request p) o ws)
    (hreads : Always round Fits (r, ctx) ws) :
  answer (feed round (lastRound e) (r, ctx) ws) ≠ some (-1, some p)
  := by
  apply feed_rule (I := fun s ws => Always round Fits s ws ∧ ∃ o, Lost p o s.2 ∧ Rest (request p) o ws)
    (Q := fun b => answer b ≠ some (-1, some p))
  · rintro ⟨r, ctx⟩ ⟨-, o, h, -⟩
    rw [answer_lastRound h.ready]
    simp [h.path_ne]
  · rintro ⟨r, ctx⟩ w ws ⟨r', ctx'⟩ ⟨hreads, o, h, hrest⟩ hround
    constructor
    · apply hreads.next hround
    · obtain ⟨hw, -⟩ := hreads.head w rfl
      exact ⟨_, h.step hp hrest hw hround, hrest.tail⟩
  · rintro ⟨r, ctx⟩ w ws b ⟨-, o, h, -⟩ hround
    apply answer_of_leave h.ready hround
  · exact ⟨hreads, o, h, hrest⟩

/-! ### The path is found -/

/-- The head of the loop when the path has been found with `o` bytes read: `strtok` goes on
at `next`, where the rest of the bytes lies in place. -/
structure Found (p : List UInt8) (o : ℕ) (ctx : Gfcontext) : Prop extends PastPath p ctx where
  path : ctx.path = some p
  total : ctx.totalRxBytes = o
  whole : 12 + p.length ≤ o
  next : ctx.next = min o (13 + p.length)
  kept : ∀ i, ctx.next ≤ i → i < o → ctx.buffer.byte i = (request p).getD i 0
  clear : ∀ i, ctx.next ≤ i → o ≤ i → ctx.buffer.byte i = 0

/-- A read that puts a word at the saved pointer makes `parse_path` take it for the path. -/
theorem PastPath.answer_ne (hp : IsPath p) {o : ℕ} {w : List UInt8} {ws : List (List UInt8)}
    {ctx : Gfcontext} {r : ℤ} (e : NoBytes) (h : PastPath p ctx) (ho : 13 ≤ o)
    (hrest : Rest (request p) o (w :: ws)) (hreads : Always round Fits (r, ctx) (w :: ws))
    (hspace : (ctx.receive w).buffer.byte (ctx.receive w).next ≠ space)
    (hzero : (ctx.receive w).buffer.byte (ctx.receive w).next ≠ 0) :
  answer (feed round (lastRound e) (r, ctx) (w :: ws)) ≠ some (-1, some p)
  := by
  obtain ⟨hw, -⟩ := hreads.head w rfl
  have hfits := fits_of_rest hp hrest hw (le_trans (by omega) ho : 12 ≤ o)
  have hpast := h.receive hrest ho hfits
  have hcase := parsePath_cases hpast.next_le hpast.ok
  obtain ⟨t, e', call, token, hparse⟩ := hcase.found_of_word hspace hzero
  rw [hparse] at hcase
  have hround : round (r, ctx) w = .again _ :=
    (round_again_iff h.toReady).mpr ⟨(parse_of_path hpast.sm).trans hparse, by decide⟩
  rw [feed_again hround]
  apply Lost.answer_ne hp e _ hrest.tail (hreads.next hround)
  apply Lost.path (hpast.of_case hcase (by decide)) _ (by omega)
  simp only [Gfcontext.found, ne_eq, Option.some.injEq]
  apply hpast.word_ne hp call token

/-- The bytes behind the space after the path make a word. -/
theorem request_lineEnd_ne {i : ℕ} (hi : 13 + p.length ≤ i) (hlt : i < 17 + p.length) :
  (request p).getD i 0 ≠ space ∧ (request p).getD i 0 ≠ 0
  := by
  rcases request_lineEnd hi hlt with h | h
  · rw [h]
    decide
  · rw [h]
    decide

/-- Where the saved pointer is at the end of the bytes, the path stays exactly when the later
reads do not reach it and `parse_path` does not give up. -/
theorem Found.answer_iff_of_end (hp : IsPath p) {o j : ℕ} {ws : List (List UInt8)}
    {ctx : Gfcontext} {r : ℤ} (e : NoBytes) (h : PastPath p ctx) (hpath : ctx.path = some p)
    (htotal : ctx.totalRxBytes = o) (hnext : ctx.next = 12 + p.length + j)
    (hle : 12 + p.length + j ≤ o) (hclear : ∀ i, ctx.next ≤ i → ctx.buffer.byte i = 0)
    (hrest : Rest (request p) o ws) (hreads : Always round Fits (r, ctx) ws) :
  answer (feed round (lastRound e) (r, ctx) ws) = some (-1, some p) ↔
    ws = [] ∨ p.length ≤ 249 ∧ ∀ v ∈ ws, v.length ≤ p.length + j
  := by
  have hpos := List.length_pos_iff.mpr hp.ne_nil
  induction ws generalizing r ctx o with
  | nil =>
      rw [feed_nil, answer_lastRound h.toReady, hpath]
      simp
  | cons v ws ih =>
      obtain ⟨hv, -⟩ := hreads.head v rfl
      have hbytes := hrest.length_le hv
      rw [length_request] at hbytes
      have hvpos := List.length_pos_iff.mpr hv
      have hpt := h.headerPt
      have hfits := fits_of_rest hp hrest hv (show 12 ≤ o by omega)
      have hpast := h.receive hrest (by omega) hfits
      by_cases hshort : v.length ≤ p.length + j
      · have hclear' : ∀ i, ctx.next ≤ i → (ctx.receive v).buffer.byte i = 0 := by
          intro i hi
          rw [byte_receive_of_not_mem (by omega)]
          apply hclear i hi
        have hcase := parsePath_cases hpast.next_le hpast.ok
        rcases hcase.eq_of_zero (hclear' ctx.next le_rfl) with ⟨hfew, hparse⟩ | ⟨hmany, hparse⟩
        · have hround : round (r, ctx) v = .again _ :=
            (round_again_iff h.toReady).mpr ⟨(parse_of_path hpast.sm).trans hparse, by decide⟩
          have htotal' : (ctx.receive v).totalRxBytes = o + v.length := by
            simp only [Gfcontext.receive, htotal]
          have hafter := ih hpast hpath htotal' hnext (by omega) hclear' hrest.tail
            (hreads.next hround)
          rw [feed_again hround]
          apply hafter.trans
          constructor
          · rintro (rfl | ⟨hlimit, hall⟩)
            · have hend := hrest.tail.le_of_nil
              rw [length_request] at hend
              right
              exact ⟨by omega, by simpa using hshort⟩
            · right
              exact ⟨hlimit, by simpa using ⟨hshort, hall⟩⟩
          · rintro (hnil | ⟨hlimit, hall⟩)
            · cases hnil
            · right
              exact ⟨hlimit, fun u hu => hall u (List.mem_cons_of_mem _ hu)⟩
        · have hround : round (r, ctx) v = .leave _ :=
            (round_leave_iff h.toReady).mpr
              ⟨_, (parse_of_path hpast.sm).trans (Prod.ext hparse rfl), rfl⟩
          rw [feed_leave hround]
          have htotal' : (ctx.receive v).totalRxBytes = o + v.length := by
            simp only [Gfcontext.receive, htotal]
          constructor
          · intro hanswer
            apply absurd hanswer (answer_of_leave h.toReady hround)
          · rintro (hnil | ⟨hlimit, -⟩)
            · cases hnil
            · omega
      · have hne : (ctx.receive v).buffer.byte ctx.next ≠ space ∧
            (ctx.receive v).buffer.byte ctx.next ≠ 0 := by
          rw [byte_receive_of_rest hrest (by omega) (by omega) (by omega)]
          apply request_lineEnd_ne
          · omega
          · omega
        constructor
        · intro hanswer
          apply absurd hanswer
          apply h.answer_ne hp e (by omega) hrest hreads hne.1 hne.2
        · rintro (hnil | ⟨-, hall⟩)
          · cases hnil
          · apply absurd (hall v (List.mem_cons_self ..)) hshort

/-- From the head at which the path has been found, the path stays exactly when no read
follows, or the saved pointer is at the end of the bytes and the later reads do not reach
it. -/
theorem Found.answer_iff (hp : IsPath p) {o : ℕ} {ws : List (List UInt8)}
    {ctx : Gfcontext} {r : ℤ} (e : NoBytes) (h : Found p o ctx)
    (hrest : Rest (request p) o ws) (hreads : Always round Fits (r, ctx) ws) :
  answer (feed round (lastRound e) (r, ctx) ws) = some (-1, some p) ↔
    ws = [] ∨ p.length ≤ 249 ∧ ∃ j ≤ 1, o = 12 + p.length + j ∧
      ∀ v ∈ ws, v.length ≤ p.length + j
  := by
  have hwhole := h.whole
  have hnext := h.next
  by_cases hend : o ≤ 13 + p.length
  · obtain ⟨j, rfl⟩ := Nat.exists_eq_add_of_le hwhole
    rw [Found.answer_iff_of_end hp e h.toPastPath h.path h.total (j := j) (by omega) le_rfl
      (fun i hi => h.clear i hi (by omega)) hrest hreads]
    constructor
    · rintro (hnil | ⟨hlimit, hall⟩)
      · left
        apply hnil
      · right
        exact ⟨hlimit, j, by omega, rfl, hall⟩
    · rintro (hnil | ⟨hlimit, j', -, heq, hall⟩)
      · left
        apply hnil
      · right
        obtain rfl : j' = j := by omega
        exact ⟨hlimit, hall⟩
  · cases ws with
    | nil =>
        rw [feed_nil, answer_lastRound h.toReady, h.path]
        simp
    | cons v ws =>
        obtain ⟨hv, -⟩ := hreads.head v rfl
        have hbytes := hrest.length_le hv
        rw [length_request] at hbytes
        have hpt := h.headerPt
        have hfits := fits_of_rest hp hrest hv (show 12 ≤ o by omega)
        constructor
        · intro hanswer
          apply absurd hanswer
          have hne : (ctx.receive v).buffer.byte ctx.next ≠ space ∧
              (ctx.receive v).buffer.byte ctx.next ≠ 0 := by
            by_cases hlt : ctx.next < 12 + v.length
            · rw [byte_receive_of_rest hrest (by omega) (by omega) (by omega)]
              apply request_lineEnd_ne
              · omega
              · omega
            · rw [byte_receive_of_not_mem (by omega), h.kept _ le_rfl (by omega)]
              apply request_lineEnd_ne
              · omega
              · omega
          apply h.answer_ne hp e (by omega) hrest hreads hne.1 hne.2
        · rintro (hnil | ⟨-, j, hj, heq, -⟩)
          · cases hnil
          · omega

/-! ### Reads in place -/

/-- The heads of the loop at which a word of the request ends with the bytes read. -/
inductive Mark (p : List UInt8) : ℕ → Gfcontext → Prop where
  | scheme {ctx : Gfcontext} (filled : Filled (request p) 0 0 ctx) (sm : ctx.sm = .scheme) : Mark p 0 ctx
  | method {ctx : Gfcontext} (filled : Filled (request p) 8 8 ctx) (sm : ctx.sm = .method)
      (next : ctx.next = 8) : Mark p 8 ctx
  | path {ctx : Gfcontext} (filled : Filled (request p) 12 12 ctx) (sm : ctx.sm = .path)
      (next : ctx.next = 12) : Mark p 12 ctx

/-- Where the loop can be after a round that began at a mark and has brought the first `o`
bytes. -/
inductive Arrived (p : List UInt8) (o : ℕ) (ctx : Gfcontext) : Prop where
  | mark (mark : Mark p o ctx) (at_mark : o = 8 ∨ o = 12) : Arrived p o ctx
  | lost (lost : Lost p o ctx) (ne_method : o ≠ 8) (ne_path : o ≠ 12)
      (cut : o < 12 + p.length) : Arrived p o ctx
  | found (found : Found p o ctx) : Arrived p o ctx

/-- The word that starts with the path ends with it, or with the bytes read. -/
theorem Filled.path_end (hp : IsPath p) {o e : ℕ} {ctx : Gfcontext} (h : Filled (request p) 12 o ctx)
    (runs : RunsTo ctx.buffer space 12 e) :
  e = min o (12 + p.length)
  := by
  have hle := runs.le
  have ho := h.le
  apply Nat.le_antisymm
  · by_contra hgt
    obtain ⟨hspace, hzero⟩ := runs.run (min o (12 + p.length)) (by omega) (by omega)
    by_cases hlt : 12 + p.length < o
    · apply hspace
      rw [h.byte _ (by omega) (by omega), show min o (12 + p.length) = 12 + p.length + 0 by omega,
        request_tail]
      rfl
    · apply hzero
      apply h.clear
      omega
  · by_contra hlt
    apply request_word hp hle (by omega)
    rw [← h.byte e hle (by omega)]
    rcases runs.stop with hstop | hstop
    · right
      left
      apply hstop
    · left
      apply hstop

/-- The bytes that have been read up to the end of the path are the path. -/
theorem Filled.slice_path {o : ℕ} {ctx : Gfcontext} (h : Filled (request p) 12 o ctx)
    (ho : 12 + p.length ≤ o) :
  ctx.buffer.slice 12 p.length = p
  := by
  apply Buffer.slice_eq rfl
  intro j hj
  rw [h.byte _ (by omega) (by omega), request_path hj, List.getD_eq_getElem p 0 hj]

/-- With the whole path in place, the path is found. -/
theorem Filled.found (hp : IsPath p) {o e : ℕ} {ctx : Gfcontext} {t : Tokenized bufSize}
    (h : Filled (request p) 12 o ctx) (hsm : ctx.sm = .path) (ho : 12 + p.length ≤ o)
    (call : StrtokCase ctx.buffer space 12 t) (token : t.token = some (12, e)) :
  Found p o (ctx.found t (ctx.buffer.slice 12 (e - 12)))
  := by
  obtain ⟨-, runs, -, -, -⟩ := call.range token
  have hpos := List.length_pos_iff.mpr hp.ne_nil
  obtain rfl : e = 12 + p.length := by
    have he := h.path_end hp runs
    omega
  have hnext : t.next = min o (13 + p.length) := by
    rcases call.resumes token with ⟨zero, hnext⟩ | ⟨delim, hnext⟩
    · by_cases hlt : 12 + p.length < o
      · exfalso
        rw [h.byte _ (by omega) hlt] at zero
        have hspace := request_tail (p := p) 0
        rw [Nat.add_zero, zero] at hspace
        revert hspace
        decide
      · omega
    · have hlt : 12 + p.length < o := by
        by_contra hle
        rw [h.clear _ (by omega)] at delim
        revert delim
        decide
      omega
  have hbyte : ∀ i, t.next ≤ i → i < o → t.buffer.byte i = (request p).getD i 0 := by
    intro i hi hlt
    rw [call.behind hi]
    apply h.byte i (by omega) hlt
  have hclear : ∀ i, t.next ≤ i → o ≤ i → t.buffer.byte i = 0 := by
    intro i hi hle
    rw [call.behind hi]
    apply h.clear i hle
  refine ⟨⟨h.toReady.found t _, hsm, h.headerPt, ?_, call.next_le, ?_⟩, ?_, h.total, ho, hnext,
    hbyte, hclear⟩
  · have hle : 12 ≤ t.next := by omega
    apply hle
  · intro i hi hle
    simp only [Gfcontext.found] at hle ⊢
    by_cases hlt : i < o
    · rw [hbyte i hle hlt]
      apply request_blank
      omega
    · left
      apply hclear i hle (by omega)
  · simp only [Gfcontext.found, Nat.add_sub_cancel_left]
    rw [h.slice_path ho]

/-- In the stage of the path, the bytes in place lead to a mark, to the path, or to a part
of it. -/
theorem Filled.parsePath (hp : IsPath p) {o : ℕ} {ctx : Gfcontext} (h : Filled (request p) 12 o ctx)
    (hsm : ctx.sm = .path) (hnext : ctx.next = 12) :
  ∃ ctx', Server.parsePath ctx = (0, ctx') ∧ Arrived p o ctx'
  := by
  have hpos := List.length_pos_iff.mpr hp.ne_nil
  have hcase : PathCase ctx _ := parsePath_cases (by rw [hnext]; decide) h.ok
  rcases Nat.eq_or_lt_of_le h.le with rfl | ho
  · have hclear : ctx.buffer.byte ctx.next = 0 := by
      rw [hnext]
      apply h.clear 12 le_rfl
    rcases hcase.eq_of_zero hclear with ⟨-, hparse⟩ | ⟨hmany, -⟩
    · exact ⟨ctx, hparse, Arrived.mark (Mark.path h hsm hnext) (Or.inr rfl)⟩
    · rw [h.total] at hmany
      omega
  · have hbyte : ¬ Blank (ctx.buffer.byte ctx.next) := by
      rw [hnext, h.byte 12 le_rfl ho]
      apply request_word hp le_rfl (by omega)
    obtain ⟨t, e, call, token, hparse⟩ := hcase.found_of_word
      (fun heq => hbyte (Or.inr (Or.inl heq))) (fun heq => hbyte (Or.inl heq))
    refine ⟨_, hparse, ?_⟩
    rw [hparse] at hcase
    obtain ⟨-, runs, hlt, hbound, -⟩ := call.range token
    rw [hnext] at runs hlt call token hcase ⊢
    have he := h.path_end hp runs
    by_cases hwhole : 12 + p.length ≤ o
    · apply Arrived.found
      apply h.found hp hsm hwhole call token
    · apply Arrived.lost _ (by omega) (by omega) (by omega)
      have hpast : PastPath p ctx := by
        refine ⟨h.toReady, hsm, h.headerPt, by omega, ?_, ?_⟩
        · rw [hnext]
          decide
        · intro i hi _
          left
          apply h.clear i (by omega)
      apply Lost.path (hpast.of_case hcase (by decide)) _ ho
      intro hpath
      have hlength : e - 12 = p.length := by
        have hslice : ctx.buffer.slice 12 (e - 12) = p := by
          simpa [Gfcontext.found] using hpath
        rw [← hslice, Buffer.length_slice]
      omega

/-- In the stage of the method, the bytes in place lead to a mark, to the path, or to a part
of the method or of the path. -/
theorem Filled.parseMethod (hp : IsPath p) {o : ℕ} {ctx : Gfcontext}
    (h : Filled (request p) 8 o ctx) (hsm : ctx.sm = .method) (hnext : ctx.next = 8) (r : ℤ) :
  ∃ ctx', parse r ctx = (0, ctx') ∧ Arrived p o ctx'
  := by
  have hpos := List.length_pos_iff.mpr hp.ne_nil
  by_cases hshort : o < 12
  · refine ⟨ctx, h.parse_wait hsm hshort r, ?_⟩
    rcases Nat.eq_or_lt_of_le h.le with rfl | ho
    · apply Arrived.mark (Mark.method h hsm hnext) (Or.inl rfl)
    · apply Arrived.lost _ (by omega) (by omega) (by omega)
      apply Lost.method (h.lostMethod hsm hnext ho hshort)
  · obtain ⟨ctx', hparse, hfilled, hsm', hnext'⟩ :=
      h.parse_method (opens_request hp).head hsm hnext (by omega) r
    rw [hparse]
    apply hfilled.parsePath hp hsm' hnext'

/-- In the stage of the scheme, the bytes in place lead to a mark, to the path, or to a part
of a word, unless they are exactly the scheme without the space behind it. -/
theorem Filled.parseScheme (hp : IsPath p) {o : ℕ} {ctx : Gfcontext}
    (h : Filled (request p) 0 o ctx) (hsm : ctx.sm = .scheme) (hpos : 1 ≤ o) (hne : o ≠ 7)
    (r : ℤ) :
  ∃ ctx', parse r ctx = (0, ctx') ∧ Arrived p o ctx'
  := by
  by_cases hshort : o < 7
  · refine ⟨ctx, h.parse_short hsm hshort r, ?_⟩
    apply Arrived.lost _ (by omega) (by omega) (by omega)
    apply Lost.scheme
    exact ⟨h.toReady, hsm, h.headerPt, h.rxBytes, h.path, hpos, hshort⟩
  · obtain ⟨ctx', hparse, hfilled, hsm', hnext'⟩ :=
      h.parse_scheme (opens_request hp).head hsm (by omega) r
    rw [hparse]
    apply hfilled.parseMethod hp hsm' hnext'

/-- A read at a mark: after exactly the seven bytes of the scheme the request is rejected,
otherwise the loop arrives where the bytes lead. -/
theorem Mark.round (hp : IsPath p) {o : ℕ} {w : List UInt8} {ws : List (List UInt8)}
    {ctx : Gfcontext} (h : Mark p o ctx) (hrest : Rest (request p) o (w :: ws)) (hw : w ≠ []) (r : ℤ) :
  (o + w.length = 7 ∧ ∃ b, Server.round (r, ctx) w = .leave b) ∨
    ∃ ctx', Server.round (r, ctx) w = .again (0, ctx') ∧ Arrived p (o + w.length) ctx'
  := by
  have hpos := List.length_pos_iff.mpr hw
  have hround : ∀ {lo : ℕ}, Filled (request p) lo lo ctx →
      (∃ ctx', parse r (ctx.receive w) = (0, ctx') ∧ Arrived p (o + w.length) ctx') →
      ∃ ctx', Server.round (r, ctx) w = .again (0, ctx') ∧ Arrived p (o + w.length) ctx' := by
    rintro lo hfilled ⟨ctx', hparse, harrived⟩
    exact ⟨ctx', (round_again_iff hfilled.toReady).mpr ⟨hparse, by decide⟩, harrived⟩
  cases h with
  | scheme filled sm =>
      have hfilled := filled.receive hrest (fits_of_rest hp hrest hw le_rfl)
      by_cases hseven : 0 + w.length = 7
      · left
        rw [hseven] at hfilled
        have hparse := hfilled.parse_seven (opens_request hp).head sm r
        refine ⟨hseven, _, (round_leave_iff filled.toReady).mpr ⟨_, Prod.ext hparse rfl, rfl⟩⟩
      · right
        apply hround filled
        apply hfilled.parseScheme hp sm (by omega) hseven
  | method filled sm next =>
      right
      apply hround filled
      apply (filled.receive hrest (fits_of_rest hp hrest hw le_rfl)).parseMethod hp sm next
  | path filled sm next =>
      right
      apply hround filled
      rw [parse_of_path (show (ctx.receive w).sm = .path from sm)]
      apply (filled.receive hrest (fits_of_rest hp hrest hw le_rfl)).parsePath hp sm next

/-- `InPlace` for a list of reads, split at the first read. -/
theorem inPlace_cons {o : ℕ} {w : List UInt8} {ws : List (List UInt8)} :
  InPlace p o (w :: ws) ↔
    (o = 0 ∧ w.length = 8 ∧ InPlace p 8 ws) ∨
    (o < 12 ∧ o + w.length = 12 ∧ InPlace p 12 ws) ∨
    12 + p.length ≤ o + w.length ∧ (ws = [] ∨ p.length ≤ 249 ∧ ∃ j ≤ 1,
      o + w.length = 12 + p.length + j ∧ ∀ v ∈ ws, v.length ≤ p.length + j)
  := by
  constructor
  · intro h
    cases h with
    | scheme length rest =>
        left
        exact ⟨rfl, length, rest⟩
    | method before length rest =>
        right
        left
        exact ⟨before, length, rest⟩
    | path whole short =>
        right
        right
        exact ⟨whole, short⟩
  · rintro (⟨rfl, length, rest⟩ | ⟨before, length, rest⟩ | ⟨whole, short⟩)
    · apply InPlace.scheme length rest
    · apply InPlace.method before length rest
    · apply InPlace.path whole short

/-- From a mark, the path is found and stays exactly when the reads are in place. -/
theorem Mark.answer_iff (hp : IsPath p) {o : ℕ} {ws : List (List UInt8)} {ctx : Gfcontext}
    {r : ℤ} (e : NoBytes) (h : Mark p o ctx) (hrest : Rest (request p) o ws)
    (hreads : Always Server.round Fits (r, ctx) ws) :
  answer (feed Server.round (lastRound e) (r, ctx) ws) = some (-1, some p) ↔ InPlace p o ws
  := by
  have hpos := List.length_pos_iff.mpr hp.ne_nil
  induction ws generalizing r o ctx with
  | nil =>
      have hend := hrest.le_of_nil
      rw [length_request] at hend
      cases h with
      | scheme => omega
      | method => omega
      | path => omega
  | cons w ws ih =>
      obtain ⟨hw, -⟩ := hreads.head w rfl
      have hwpos := List.length_pos_iff.mpr hw
      rw [inPlace_cons]
      rcases h.round hp hrest hw r with ⟨hseven, b, hround⟩ | ⟨ctx', hround, harrived⟩
      · rw [feed_leave hround]
        constructor
        · intro hanswer
          apply absurd hanswer
          cases h with
          | scheme filled => apply answer_of_leave filled.toReady hround
          | method filled => apply answer_of_leave filled.toReady hround
          | path filled => apply answer_of_leave filled.toReady hround
        · rintro (⟨rfl, hlength, -⟩ | ⟨-, hlength, -⟩ | ⟨hwhole, -⟩)
          · omega
          · omega
          · omega
      · rw [feed_again hround]
        cases harrived with
        | mark mark at_mark =>
            apply (ih mark hrest.tail (hreads.next hround)).trans
            constructor
            · intro hplace
              rcases at_mark with hmark | hmark
              · rw [hmark] at hplace
                left
                refine ⟨?_, ?_, hplace⟩
                · cases h with
                  | scheme => rfl
                  | method => omega
                  | path => omega
                · cases h with
                  | scheme => omega
                  | method => omega
                  | path => omega
              · rw [hmark] at hplace
                right
                left
                exact ⟨by omega, hmark, hplace⟩
            · rintro (⟨rfl, hlength, hplace⟩ | ⟨-, hlength, hplace⟩ | ⟨hwhole, -⟩)
              · rw [Nat.zero_add, hlength]
                apply hplace
              · rw [hlength]
                apply hplace
              · omega
        | lost lost ne_method ne_path cut =>
            constructor
            · intro hanswer
              apply absurd hanswer (lost.answer_ne hp e hrest.tail (hreads.next hround))
            · rintro (⟨rfl, hlength, -⟩ | ⟨-, hlength, -⟩ | ⟨hwhole, -⟩)
              · omega
              · omega
              · omega
        | found found =>
            have hwhole := found.whole
            rw [found.answer_iff hp e hrest.tail (hreads.next hround)]
            constructor
            · intro hshort
              right
              right
              exact ⟨hwhole, hshort⟩
            · rintro (⟨rfl, hlength, -⟩ | ⟨-, hlength, -⟩ | ⟨-, hshort⟩)
              · omega
              · omega
              · apply hshort

/-! ### From a fresh context -/

/-- A fresh context is at the first mark. -/
theorem mark_create (next : ℕ) :
  Mark p 0 (gfcontextCreate next)
  := by
  apply Mark.scheme (filled_create next) rfl

end

/-- The request for `p` is cut into the reads `ws` of `process_request`. -/
structure CutInto (next : ℕ) (p : List UInt8) (ws : List (List UInt8)) : Prop where
  joins : ws.flatten = request p
  reads : Reads (gfcontextCreate next) ws

/-- `process_request` gives the code `-1` and the path of a request exactly when the request
is cut into reads that bring it in place. -/
theorem CutInto.answer_iff {next : ℕ} {p : List UInt8} {ws : List (List UInt8)} (hp : IsPath p)
    (h : CutInto next p ws) (e : NoBytes) :
  answer (processRequest (gfcontextCreate next) ws e) = some (-1, some p) ↔ InPlace p 0 ws
  := by
  apply (mark_create next).answer_iff hp e _ h.reads
  rw [Rest, h.joins, List.drop_zero]

/-- Two ways of cutting a request both give the code `-1` and its path exactly when both
bring it in place, and they do not agree when only one of them does. -/
theorem answers_agree_iff {next next' : ℕ} {p : List UInt8} {ws ws' : List (List UInt8)}
    (hp : IsPath p) (hcut : CutInto next p ws) (hcut' : CutInto next' p ws') (e e' : NoBytes) :
  (answer (processRequest (gfcontextCreate next) ws e)
      = answer (processRequest (gfcontextCreate next') ws' e') ∧
    answer (processRequest (gfcontextCreate next') ws' e') = some (-1, some p) ↔
      InPlace p 0 ws ∧ InPlace p 0 ws') ∧
  (answer (processRequest (gfcontextCreate next) ws e)
      = answer (processRequest (gfcontextCreate next') ws' e') →
    (InPlace p 0 ws ↔ InPlace p 0 ws'))
  := by
  have hiff := hcut.answer_iff hp e
  have hiff' := hcut'.answer_iff hp e'
  constructor
  · constructor
    · rintro ⟨heq, hanswer⟩
      exact ⟨hiff.mp (heq.trans hanswer), hiff'.mp hanswer⟩
    · rintro ⟨hplace, hplace'⟩
      exact ⟨(hiff.mpr hplace).trans (hiff'.mpr hplace').symm, hiff'.mpr hplace'⟩
  · intro heq
    rw [← hiff, ← hiff', heq]

/-- The request for `/a` in one read. -/
theorem cutInto_whole :
  CutInto 0 (ascii "/a") [ascii "GETFILE GET /a \r\n\r\n"]
  := by
  constructor
  · decide
  · constructor
    · rintro w ⟨⟩
      decide
    · rintro s' _ w ⟨⟩

/-- The request for `/a` cut inside the scheme. -/
theorem cutInto_scheme :
  CutInto 0 (ascii "/a") [ascii "GETF", ascii "ILE GET /a \r\n\r\n"]
  := by
  constructor
  · decide
  · constructor
    · rintro w ⟨⟩
      decide
    · intro s' hround
      have hagain : round (0, gfcontextCreate 0) (ascii "GETF")
          = .again (0, (gfcontextCreate 0).receive (ascii "GETF")) :=
        (round_again_iff ⟨rfl, Nat.zero_le _⟩).mpr ⟨rfl, by decide⟩
      rw [hagain] at hround
      cases hround
      constructor
      · rintro w ⟨⟩
        decide
      · rintro s' _ w ⟨⟩

theorem isPath_a :
  IsPath (ascii "/a")
  := ⟨by decide, by decide, by decide +kernel⟩

theorem answers_agree_iff_scheme :
  (answer (processRequest (gfcontextCreate 0) [ascii "GETF", ascii "ILE GET /a \r\n\r\n"] .timeout)
      = answer (processRequest (gfcontextCreate 0) [ascii "GETFILE GET /a \r\n\r\n"] .endOfInput) ∧
    answer (processRequest (gfcontextCreate 0) [ascii "GETFILE GET /a \r\n\r\n"] .endOfInput)
      = some (-1, some (ascii "/a")) ↔
      InPlace (ascii "/a") 0 [ascii "GETF", ascii "ILE GET /a \r\n\r\n"] ∧
      InPlace (ascii "/a") 0 [ascii "GETFILE GET /a \r\n\r\n"]) ∧
  (answer (processRequest (gfcontextCreate 0) [ascii "GETF", ascii "ILE GET /a \r\n\r\n"] .timeout)
      = answer (processRequest (gfcontextCreate 0) [ascii "GETFILE GET /a \r\n\r\n"] .endOfInput) →
    (InPlace (ascii "/a") 0 [ascii "GETF", ascii "ILE GET /a \r\n\r\n"] ↔
      InPlace (ascii "/a") 0 [ascii "GETFILE GET /a \r\n\r\n"]))
  := answers_agree_iff isPath_a cutInto_scheme cutInto_whole .timeout .endOfInput

/-- Cut inside the scheme, the request is rejected, and in one read it is answered. -/
theorem answers_disagree :
  IsPath (ascii "/a") ∧
  CutInto 0 (ascii "/a") [ascii "GETF", ascii "ILE GET /a \r\n\r\n"] ∧
  CutInto 0 (ascii "/a") [ascii "GETFILE GET /a \r\n\r\n"] ∧
  answer (processRequest (gfcontextCreate 0) [ascii "GETF", ascii "ILE GET /a \r\n\r\n"] .endOfInput)
    ≠ answer (processRequest (gfcontextCreate 0) [ascii "GETFILE GET /a \r\n\r\n"] .endOfInput)
  := ⟨isPath_a, cutInto_scheme, cutInto_whole, by decide +kernel⟩

end GetFile.Server
