import GetFile.Server.Parsers

/-!
# Server: the window of each read

`process_request` reads `BUFSIZE - header_pt` bytes at `buffer + header_pt`. The window
stays in the buffer at every read (`Always round InWindow`) unless the first word fills the
buffer after one to four earlier bytes (`Overfull`): then `header_pt` is `BUFSIZE + 1`, and
`rx_bytes - header_pt` is small enough for `parse_method` to wait for another read.
-/

namespace GetFile.Server

open CString Transition

/-- At a read, `header_pt` lies in the buffer or at its end. -/
def InWindow (s : ℤ × Gfcontext) (_ : List (List UInt8)) : Prop :=
  s.2.headerPt ≤ bufSize

/-- A read that fills the buffer with one word beginning with `GETFILE`. -/
structure FillsBuffer (w : List UInt8) : Prop where
  length : w.length = bufSize
  scheme : ascii "GETFILE" <+: w
  word : ∀ c ∈ w, c ≠ space ∧ c ≠ 0

/-- After `q` bytes, reads of one to four bytes in all, `q` included, are followed by a read
that fills the buffer with one word. -/
def Overfull (q : ℕ) (ws : List (List UInt8)) : Prop :=
  ∃ early full late, ws = early ++ full :: late ∧ 1 ≤ q + early.flatten.length ∧
    q + early.flatten.length ≤ 4 ∧ FillsBuffer full

/-! ### After the scheme -/

/-- The head of the loop in the stage of the path. -/
structure PathHead (ctx : Gfcontext) : Prop extends ctx.Ready where
  sm : ctx.sm = .path
  next_le : ctx.next ≤ bufSize

/-- The head of the loop in the stage of the method. The saved pointer is at `header_pt`,
or before it at a terminator that no later read overwrites, and the bytes before
`header_pt` have been received. -/
structure MethodHead (ctx : Gfcontext) : Prop extends ctx.Ready where
  sm : ctx.sm = .method
  next_le : ctx.next ≤ bufSize
  next : ctx.next = ctx.headerPt ∨ ctx.next + 1 = ctx.headerPt ∧ ctx.buffer.byte ctx.next = 0
  received : ctx.headerPt ≤ ctx.totalRxBytes + 1

/-- Going on in the stage of the path, the loop is again in the stage of the path. -/
theorem PathCase.pathHead {ctx ctx' : Gfcontext} {r : ℤ} (hcase : PathCase ctx (r, ctx'))
    (h : PathHead ctx) (hr : r ≠ -1) :
  PathHead ctx'
  := by
  cases hcase with
  | found call token => exact ⟨⟨h.ok, h.headerPt_le⟩, h.sm, call.next_le⟩
  | goOn skips zero bound few => exact ⟨⟨h.ok, h.headerPt_le⟩, h.sm, bound⟩
  | giveUp => apply absurd rfl hr

/-- A round in the stage of the path that goes on stays in that stage. -/
theorem PathHead.parse {r r' : ℤ} {ctx ctx' : Gfcontext} (h : PathHead ctx)
    (hparse : Server.parse r ctx = (r', ctx')) (hr : r' ≠ -1) :
  PathHead ctx'
  := by
  rw [parse_of_path h.sm] at hparse
  have hcase := parsePath_cases h.next_le h.ok
  rw [hparse] at hcase
  apply hcase.pathHead h hr

/-- A read in the stage of the path keeps what is known at the head of the loop. -/
theorem PathHead.receive {ctx : Gfcontext} (h : PathHead ctx) (w : List UInt8) :
  PathHead (ctx.receive w)
  := ⟨h.toReady.receive w, h.sm, h.next_le⟩

/-- A context with the method accepted in which `parse_path` goes on is in the stage of the
path with `header_pt` in the buffer. -/
theorem MethodHead.accept {ctx ctx' : Gfcontext} {r : ℤ} {t : Tokenized bufSize} {s : ℕ}
    (h : MethodHead ctx) (call : StrtokCase ctx.buffer space ctx.next t)
    (token : t.token = some (s, s + 3))
    (hcase : PathCase (ctx.accepted t (ctx.headerPt + 4) .path) (r, ctx'))
    (hr : r ≠ -1) :
  PathHead ctx'
  := by
  obtain ⟨skips, -, -, hbound, hnext⟩ := call.range token
  have hle : ctx.headerPt ≤ s := by
    rcases h.next with heq | ⟨-, hzero⟩
    · rw [← heq]
      apply skips.le
    · have hnone := call.token_of_zero space_ne_zero hzero
      rw [hnone] at token
      cases token
  have hsize : ctx.headerPt + 4 ≤ bufSize := by
    cases hcase with
    | found call' token' =>
        obtain ⟨skips', -, hlt, hbound', -⟩ := call'.range token'
        have hskips := skips'.le
        simp only [Gfcontext.accepted] at hskips
        -- a path behind the method starts behind the delimiter of the method
        have hcut : s + 4 ≤ t.next := by
          cases call with
          | none => cases token
          | last _ _ _ zero _ =>
              cases token
              have hnone := call'.token_of_zero space_ne_zero zero
              rw [hnone] at token'
              cases token'
          | cut =>
              cases token
              apply le_rfl
        omega
    | goOn skips zero bound few =>
        have hreceived := h.received
        simp only [Gfcontext.accepted, bufSize_eq] at few ⊢
        omega
    | giveUp => apply absurd rfl hr
  apply hcase.pathHead _ hr
  exact ⟨⟨h.ok, hsize⟩, rfl, call.next_le⟩

/-- A round in the stage of the method that goes on waits, for less than four bytes have come
behind `header_pt`, or reaches the stage of the path. -/
theorem MethodHead.parse_cases {r r' : ℤ} {ctx ctx' : Gfcontext} (h : MethodHead ctx)
    (hparse : Server.parse r ctx = (r', ctx')) (hr : r' ≠ -1) :
  (ctx' = ctx ∧ unsignedSub ctx.rxBytes ctx.headerPt < 4) ∨ PathHead ctx'
  := by
  rw [parse_of_method h.sm] at hparse
  have hcase := parseMethod_cases h.next_le
  generalize parseMethod ctx = x at hcase hparse
  cases hcase with
  | wait short =>
      rw [if_neg (by simp [h.sm])] at hparse
      cases hparse
      left
      exact ⟨rfl, short⟩
  | reject enough call token sm =>
      rw [if_neg (by simp [sm, h.sm])] at hparse
      cases hparse
      apply absurd rfl hr
  | accept enough call token get =>
      rw [if_pos (by simp)] at hparse
      have hcase' : PathCase (ctx.accepted _ (ctx.headerPt + 4) .path) _ :=
        parsePath_cases call.next_le h.ok
      right
      rw [hparse] at hcase'
      apply h.accept call token hcase' hr

/-- A round in the stage of the method that goes on stays in that stage or reaches the
stage of the path. -/
theorem MethodHead.parse {r r' : ℤ} {ctx ctx' : Gfcontext} (h : MethodHead ctx)
    (hparse : Server.parse r ctx = (r', ctx')) (hr : r' ≠ -1) :
  MethodHead ctx' ∨ PathHead ctx'
  := by
  rcases h.parse_cases hparse hr with ⟨rfl, -⟩ | hpath
  · left
    apply h
  · right
    apply hpath

/-- A read in the stage of the method keeps what is known at the head of the loop. -/
theorem MethodHead.receive {ctx : Gfcontext} (h : MethodHead ctx) (w : List UInt8) :
  MethodHead (ctx.receive w)
  where
  toReady := h.toReady.receive w
  sm := h.sm
  next_le := h.next_le
  next := by
    rcases h.next with heq | ⟨heq, hzero⟩
    · left
      apply heq
    · right
      constructor
      · apply heq
      · rw [← hzero]
        apply Buffer.store_byte_of_not_mem
        left
        have : ctx.next < ctx.headerPt := by omega
        apply this
  received := by
    have := h.received
    simp only [Gfcontext.receive]
    omega

/-- From the stages of the method and of the path on, every read is in the window. -/
theorem inWindow_of_head {r : ℤ} {ctx : Gfcontext} (h : MethodHead ctx ∨ PathHead ctx)
    (ws : List (List UInt8)) :
  Always round InWindow (r, ctx) ws
  := by
  apply always_of_step (I := fun s _ => MethodHead s.2 ∨ PathHead s.2)
  · rintro s _ (hs | hs)
    · apply hs.headerPt_le
    · apply hs.headerPt_le
  · rintro ⟨r, ctx⟩ w ws ⟨r', ctx'⟩ (hs | hs) hround
    · obtain ⟨hparse, hr⟩ := (round_again_iff hs.toReady).mp hround
      apply (hs.receive w).parse hparse hr
    · obtain ⟨hparse, hr⟩ := (round_again_iff hs.toReady).mp hround
      right
      apply (hs.receive w).parse hparse hr
  · apply h

/-! ### The first word -/

/-- The head of the loop in the stage of the scheme: all reads so far went to the start of
the buffer, and the buffer is clear behind the number of bytes they brought. -/
structure SchemeHead (ctx : Gfcontext) : Prop where
  ok : ctx.status = .ok
  sm : ctx.sm = .scheme
  headerPt : ctx.headerPt = 0
  total : ctx.totalRxBytes = ctx.rxBytes
  few : ctx.rxBytes < 7
  clear : ∀ i, ctx.rxBytes ≤ i → ctx.buffer.byte i = 0

/-- A fresh context is at the head of the loop in the stage of the scheme. -/
theorem schemeHead_create (next : ℕ) :
  SchemeHead (gfcontextCreate next)
  where
  ok := rfl
  sm := rfl
  headerPt := rfl
  total := rfl
  few := by simp [gfcontextCreate]
  clear _ _ := rfl

/-- A read leaves the stage as it is. -/
theorem SchemeHead.receive_stage {ctx : Gfcontext} (h : SchemeHead ctx) (w : List UInt8) :
  (ctx.receive w).sm = .scheme
  := h.sm

/-- The context is ready in the stage of the scheme. -/
theorem SchemeHead.ready {ctx : Gfcontext} (h : SchemeHead ctx) :
  ctx.Ready
  := ⟨h.ok, by rw [h.headerPt]; apply Nat.zero_le⟩

/-- In the stage of the scheme a read may bring as many bytes as the buffer has. -/
theorem SchemeHead.fits {r : ℤ} {ctx : Gfcontext} (h : SchemeHead ctx) {w : List UInt8}
    {ws : List (List UInt8)} (hfits : Fits (r, ctx) (w :: ws)) :
  w ≠ [] ∧ w.length ≤ bufSize
  := by
  obtain ⟨hne, hlen⟩ := hfits w rfl
  simp only [h.headerPt] at hlen
  exact ⟨hne, hlen⟩

/-- A read of the first seven bytes or fewer keeps what is known at the head of the loop. -/
theorem SchemeHead.receive {ctx : Gfcontext} (h : SchemeHead ctx) {w : List UInt8}
    (hfew : (ctx.receive w).rxBytes < 7) :
  SchemeHead (ctx.receive w)
  where
  ok := h.ok
  sm := h.sm
  headerPt := h.headerPt
  total := by
    simp only [Gfcontext.receive, h.total]
  few := hfew
  clear i hi := by
    simp only [Gfcontext.receive] at hi ⊢
    rw [h.headerPt, Buffer.store_byte_of_not_mem (by omega)]
    apply h.clear i (by omega)

/-- The buffer after a read in the stage of the scheme is clear behind all bytes received. -/
theorem SchemeHead.clear_receive {ctx : Gfcontext} (h : SchemeHead ctx) (w : List UInt8) {i : ℕ}
    (hi : (ctx.receive w).rxBytes ≤ i) :
  (ctx.receive w).buffer.byte i = 0
  := by
  simp only [Gfcontext.receive] at hi ⊢
  rw [h.headerPt, Buffer.store_byte_of_not_mem (by omega)]
  apply h.clear i (by omega)

/-- A byte of the read is found at its place at the start of the buffer. -/
theorem SchemeHead.byte_receive {ctx : Gfcontext} (h : SchemeHead ctx) {w : List UInt8}
    (hlen : w.length ≤ bufSize) {i : ℕ} (hi : i < w.length) :
  (ctx.receive w).buffer.byte i = w[i]
  := by
  have hbyte : (ctx.buffer.store 0 w).byte (0 + i) = w[i] := by
    apply Buffer.store_byte hi
    omega
  simp only [Gfcontext.receive, h.headerPt]
  rw [Nat.zero_add] at hbyte
  apply hbyte

/-- The first word ends at the end of the buffer exactly when the read fills the buffer with
one word. -/
theorem SchemeHead.fills {ctx : Gfcontext} (h : SchemeHead ctx) {w : List UInt8} {e : ℕ}
    (hlen : w.length ≤ bufSize)
    (eq : (ctx.receive w).buffer.strncmp 0 (ascii "GETFILE") = true)
    (runs : RunsTo (ctx.receive w).buffer space 0 e) (he : e ≤ bufSize) :
  e = bufSize ↔ FillsBuffer w
  := by
  constructor
  · rintro rfl
    have hfull : w.length = bufSize := by
      by_contra hne
      have hlast := (runs.run 282 (by omega) (by decide)).2
      apply hlast
      have hfew := h.few
      simp only [bufSize_eq] at hlen hne
      simp only [Gfcontext.receive, h.headerPt]
      rw [Buffer.store_byte_of_not_mem (by omega)]
      apply h.clear 282 (by omega)
    constructor
    · apply hfull
    · rw [Buffer.strncmp_iff_slice] at eq
      have hslice : (ctx.buffer.store 0 w).slice (0 + 0) (ascii "GETFILE").length
          = (w.drop 0).take (ascii "GETFILE").length := by
        apply Buffer.slice_store
        · omega
        · rw [hfull]
          decide
      simp only [Gfcontext.receive, h.headerPt] at eq
      rw [eq, List.drop_zero] at hslice
      apply List.prefix_iff_eq_take.mpr hslice
    · intro c hc
      obtain ⟨i, hi, rfl⟩ := List.getElem_of_mem hc
      rw [← h.byte_receive hlen hi]
      apply runs.run i (Nat.zero_le i) (by omega)
  · intro hfills
    by_contra hne
    have hlt : e < w.length := by
      rw [hfills.length]
      omega
    have hword := hfills.word w[e] (List.getElem_mem hlt)
    rw [← h.byte_receive hlen hlt] at hword
    rcases runs.stop with hstop | hstop
    · apply hword.1 hstop
    · apply hword.2 hstop

/-- A read that fills the buffer with one word begins with the scheme. -/
theorem SchemeHead.eq_of_fills {ctx : Gfcontext} (h : SchemeHead ctx) {w : List UInt8}
    (hlen : w.length ≤ bufSize) (hfills : FillsBuffer w) :
  (ctx.receive w).buffer.strncmp 0 (ascii "GETFILE") = true
  := by
  rw [Buffer.strncmp_iff]
  intro j hj
  have hscheme := hfills.scheme
  have hjw : j < w.length := lt_of_lt_of_le hj hscheme.length_le
  rw [Nat.zero_add, h.byte_receive hlen hjw, hscheme.getElem hj]

/-- `Overfull` for a list of reads, split at the first read. -/
theorem overfull_cons {q : ℕ} {w : List UInt8} {ws : List (List UInt8)} :
  Overfull q (w :: ws) ↔
    (1 ≤ q ∧ q ≤ 4 ∧ FillsBuffer w) ∨ Overfull (q + w.length) ws
  := by
  constructor
  · rintro ⟨early, full, late, heq, hlow, hhigh, hfills⟩
    cases early with
    | nil =>
        simp only [List.nil_append, List.cons.injEq] at heq
        obtain ⟨rfl, rfl⟩ := heq
        left
        exact ⟨by simpa using hlow, by simpa using hhigh, hfills⟩
    | cons w' early =>
        simp only [List.cons_append, List.cons.injEq] at heq
        obtain ⟨rfl, rfl⟩ := heq
        simp only [List.flatten_cons, List.length_append] at hlow hhigh
        right
        exact ⟨early, full, late, rfl, by omega, by omega, hfills⟩
  · rintro (⟨hlow, hhigh, hfills⟩ | ⟨early, full, late, rfl, hlow, hhigh, hfills⟩)
    · exact ⟨[], w, ws, rfl, by simpa using hlow, by simpa using hhigh, hfills⟩
    · use w :: early, full, late
      simp only [List.flatten_cons, List.length_append]
      exact ⟨rfl, by omega, by omega, hfills⟩

/-- After more than four bytes no list of reads is `Overfull`. -/
theorem not_overfull {q : ℕ} (hq : 4 < q) (ws : List (List UInt8)) :
  ¬ Overfull q ws
  := by
  rintro ⟨early, full, late, -, -, hhigh, -⟩
  omega

/-- A scheme that ends in the buffer leads to the stage of the method, unless its word ends
at the very end of the buffer. -/
theorem SchemeHead.methodHead {ctx : Gfcontext} (h : SchemeHead ctx) {w : List UInt8}
    {t : Tokenized bufSize} {e : ℕ} (call : StrtokCase (ctx.receive w).buffer space 0 t)
    (token : t.token = some (0, e)) (he : e ≠ bufSize) :
  MethodHead ((ctx.receive w).accepted t (e + 1) .method)
  := by
  obtain ⟨-, runs, hlt, hbound, -⟩ := call.range token
  have htotal : e ≤ (ctx.receive w).totalRxBytes := by
    by_contra hgt
    have hlast := (runs.run (e - 1) (by omega) (by omega)).2
    apply hlast
    apply h.clear_receive
    simp only [Gfcontext.receive, h.total] at hgt ⊢
    omega
  refine ⟨⟨h.ok, ?_⟩, rfl, call.next_le, ?_, ?_⟩
  · have hle : e + 1 ≤ bufSize := by omega
    apply hle
  · cases call with
    | none => cases token
    | last _ _ _ zero _ =>
        cases token
        right
        exact ⟨rfl, zero⟩
    | cut =>
        cases token
        left
        rfl
  · have hle : e + 1 ≤ (ctx.receive w).totalRxBytes + 1 := by omega
    apply hle

/-- A scheme whose word ends at the end of the buffer makes the next read leave the buffer
exactly when one to four bytes came before it. -/
theorem SchemeHead.inWindow_of_full {r : ℤ} {ctx : Gfcontext} (h : SchemeHead ctx)
    {w : List UInt8} {ws : List (List UInt8)} {t : Tokenized bufSize}
    (hlen : w.length = bufSize) (call : StrtokCase (ctx.receive w).buffer space 0 t)
    (token : t.token = some (0, bufSize))
    (hscheme : parseScheme (ctx.receive w)
      = (0, (ctx.receive w).accepted t (bufSize + 1) .method)) :
  Always round InWindow (r, ctx) (w :: ws) ↔ ¬ (1 ≤ ctx.rxBytes ∧ ctx.rxBytes ≤ 4)
  := by
  have hfew := h.few
  have hhead : InWindow (r, ctx) (w :: ws) := h.ready.headerPt_le
  have hparse : parse r (ctx.receive w) =
      parse 0 ((ctx.receive w).accepted t (bufSize + 1) .method) := by
    rw [parse_of_scheme (h.receive_stage w), hscheme, if_neg (by simp)]
  have hzero := call.zero_of_full token
  rw [parse_of_method (accepted_sm _ _ _ _)] at hparse
  have hcase : MethodCase ((ctx.receive w).accepted t (bufSize + 1) .method) _ :=
    parseMethod_cases call.next_le
  generalize parseMethod _ = x at hcase hparse
  cases hcase with
  | wait short =>
      have hq : 1 ≤ ctx.rxBytes ∧ ctx.rxBytes ≤ 4 := by
        simp only [Gfcontext.accepted, Gfcontext.receive, hlen, unsignedSub, bufSize_eq] at short
        omega
      rw [if_neg (by simp)] at hparse
      rw [always_again ((round_again_iff h.ready).mpr ⟨hparse, by decide⟩)]
      constructor
      · rintro ⟨-, halways⟩
        have hnext := halways.head
        simp [InWindow, Gfcontext.accepted] at hnext
      · intro hnot
        apply absurd hq hnot
  | @reject ctx' t' enough call' token' sm =>
      have hq : ¬ (1 ≤ ctx.rxBytes ∧ ctx.rxBytes ≤ 4) := by
        simp only [Gfcontext.accepted, Gfcontext.receive, hlen, unsignedSub, bufSize_eq] at enough
        omega
      rw [if_neg (by simp [sm])] at hparse
      rw [always_leave ((round_leave_iff h.ready).mpr ⟨ctx', hparse, rfl⟩)]
      constructor
      · intro _
        apply hq
      · intro _
        apply hhead
  | accept enough call' token' get =>
      have hnone := call'.token_of_zero space_ne_zero hzero
      rw [hnone] at token'
      cases token'

/-- A scheme found makes a later read leave the buffer exactly when one to four bytes came before
it and its read fills the buffer with one word. -/
theorem SchemeHead.inWindow_of_accept {r : ℤ} {ctx : Gfcontext} (h : SchemeHead ctx)
    {w : List UInt8} {ws : List (List UInt8)} {t : Tokenized bufSize} {e : ℕ}
    (hlen : w.length ≤ bufSize) (eq : (ctx.receive w).buffer.strncmp 0 (ascii "GETFILE") = true)
    (token : t.token = some (0, e)) (call : StrtokCase (ctx.receive w).buffer space 0 t)
    (hscheme : parseScheme (ctx.receive w) = (0, (ctx.receive w).accepted t (e + 1) .method)) :
  Always round InWindow (r, ctx) (w :: ws) ↔
    ¬ (1 ≤ ctx.rxBytes ∧ ctx.rxBytes ≤ 4 ∧ FillsBuffer w)
  := by
  obtain ⟨-, runs, -, hbound, -⟩ := call.range token
  have hfills := h.fills hlen eq runs hbound
  by_cases he : e = bufSize
  · subst he
    have hfull := hfills.mp rfl
    rw [h.inWindow_of_full hfull.length call token hscheme]
    constructor
    · rintro hq ⟨hlow, hhigh, -⟩
      exact hq ⟨hlow, hhigh⟩
    · rintro hnot ⟨hlow, hhigh⟩
      exact hnot ⟨hlow, hhigh, hfull⟩
  · have hmethod := h.methodHead call token he
    constructor
    · rintro - ⟨-, -, hfull⟩
      exact he (hfills.mpr hfull)
    · intro _
      constructor
      · apply h.ready.headerPt_le
      · rintro ⟨r', ctx'⟩ hround
        apply inWindow_of_head
        obtain ⟨hparse, hr⟩ := (round_again_iff h.ready).mp hround
        rw [parse_of_scheme (h.receive_stage w), hscheme, if_neg (by simp)] at hparse
        apply hmethod.parse hparse hr

/-- From the stage of the scheme, every read is in the window exactly when the reads are
not `Overfull`. -/
theorem SchemeHead.inWindow_iff {r : ℤ} {ctx : Gfcontext} (h : SchemeHead ctx)
    {ws : List (List UInt8)} (hreads : Always round Fits (r, ctx) ws) :
  Always round InWindow (r, ctx) ws ↔ ¬ Overfull ctx.rxBytes ws
  := by
  induction ws generalizing r ctx with
  | nil =>
      constructor
      · rintro - ⟨early, full, late, heq, -⟩
        simp at heq
      · intro _
        apply h.ready.headerPt_le
  | cons w ws ih =>
      obtain ⟨hne, hlen⟩ := h.fits hreads.head
      have hhead : InWindow (r, ctx) (w :: ws) := h.ready.headerPt_le
      have hlate : 7 ≤ (ctx.receive w).rxBytes → ¬ Overfull (ctx.rxBytes + w.length) ws := by
        intro enough
        apply not_overfull
        simp only [Gfcontext.receive] at enough
        omega
      rw [overfull_cons, not_or]
      have hcase := parseScheme_cases (ctx.receive w)
      generalize hx : parseScheme (ctx.receive w) = x at hcase
      cases hcase with
      | wait short =>
          have hparse : parse r (ctx.receive w) = (0, ctx.receive w) := by
            rw [parse_of_scheme (h.receive_stage w), hx, if_pos (by simp [h.sm])]
          have hround := (round_again_iff h.ready).mpr ⟨hparse, by decide⟩
          have hshort : ctx.rxBytes + w.length < 7 := short
          have hnot : ¬ (1 ≤ ctx.rxBytes ∧ ctx.rxBytes ≤ 4 ∧ FillsBuffer w) := by
            rintro ⟨-, -, hfills⟩
            have hlength := hfills.length
            rw [bufSize_eq] at hlength
            omega
          rw [always_again hround, ih (h.receive short) (hreads.next hround), and_iff_right hhead,
            and_iff_right hnot]
          rfl
      | @reject ctx' enough ne sm =>
          have hparse : parse r (ctx.receive w) = (-1, ctx') := by
            rw [parse_of_scheme (h.receive_stage w), hx, if_pos (sm.trans h.sm)]
          have hround := (round_leave_iff h.ready).mpr ⟨ctx', hparse, rfl⟩
          have hnot : ¬ (1 ≤ ctx.rxBytes ∧ ctx.rxBytes ≤ 4 ∧ FillsBuffer w) := by
            rintro ⟨-, -, hfills⟩
            rw [h.eq_of_fills hlen hfills] at ne
            cases ne
          rw [always_leave hround]
          constructor
          · intro _
            exact ⟨hnot, hlate enough⟩
          · intro _
            apply hhead
      | @accept t e enough eq token call =>
          rw [h.inWindow_of_accept hlen eq token call hx, and_iff_left (hlate enough)]

/-! ### From a fresh context -/

/-- On a fresh context, every read of `process_request` asks for bytes inside the buffer,
`header_pt <= BUFSIZE`, exactly when the reads do not begin with one to four bytes followed
by a read that fills the buffer with one word beginning with `GETFILE`. -/
theorem readWindow_iff (next : ℕ) {ws : List (List UInt8)}
    (hreads : Reads (gfcontextCreate next) ws) :
  Always round InWindow (0, gfcontextCreate next) ws ↔ ¬ Overfull 0 ws
  := (schemeHead_create next).inWindow_iff hreads

theorem readWindow_iff_request :
  Always round InWindow (0, gfcontextCreate 0) [ascii "GETFILE GET /x \r\n\r\n"] ↔
    ¬ Overfull 0 [ascii "GETFILE GET /x \r\n\r\n"]
  := by
  apply readWindow_iff
  constructor
  · rintro w ⟨⟩
    decide
  · rintro s' _ w ⟨⟩

/-- One byte, then a word that fills the buffer. -/
def overfullReads : List (List UInt8) :=
  [ascii "G", ascii "GETFILE" ++ List.replicate 276 120]

theorem readWindow_overfullReads :
  Reads (gfcontextCreate 0) overfullReads ∧
    ¬ Always round InWindow (0, gfcontextCreate 0) overfullReads
  := by
  have hround : round (0, gfcontextCreate 0) (ascii "G")
      = .again (0, (gfcontextCreate 0).receive (ascii "G")) := by
    apply (round_again_iff (schemeHead_create 0).ready).mpr
    exact ⟨rfl, by decide⟩
  have hreads : Reads (gfcontextCreate 0) overfullReads := by
    apply (always_again hround).mpr
    constructor
    · rintro w ⟨⟩
      decide
    · constructor
      · rintro w ⟨⟩
        decide +kernel
      · rintro s' _ w ⟨⟩
  constructor
  · apply hreads
  · rw [(schemeHead_create 0).inWindow_iff hreads, not_not]
    use [ascii "G"], ascii "GETFILE" ++ List.replicate 276 120, []
    refine ⟨rfl, by decide, by decide, ?_⟩
    constructor
    · rw [List.length_append, List.length_replicate]
      decide
    · apply List.prefix_append
    · decide +kernel

end GetFile.Server
