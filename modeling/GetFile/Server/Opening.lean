import GetFile.CString.Stream
import GetFile.Server.Parsers

/-!
# Server: the opening of a request

A stream opens a request when it begins with the scheme, the method and the first byte of a
path (`Opens`). For such a stream, this module says what the parsers of the scheme and of
the method do with its first bytes: they are accepted as long as each read is in place
(`Filled`), and a read that continues inside the scheme (`LostScheme`) or inside the method
(`LostMethod`) lands on the bytes it should continue.
-/

namespace GetFile.Server

open CString Transition

/-- A terminator or one of the characters that stand behind the path in a request. -/
def Blank (c : UInt8) : Prop :=
  c = 0 ∨ c = space ∨ c = cr ∨ c = lf

instance : DecidablePred Blank :=
  fun c => inferInstanceAs (Decidable (c = 0 ∨ c = space ∨ c = cr ∨ c = lf))

/-- The stream `s` begins with the scheme and the method. -/
def Heads (s : List UInt8) : Prop :=
  ∀ i < 12, s.getD i 0 = (ascii "GETFILE GET ").getD i 0

/-- The stream `s` begins with the scheme, the method and the first byte of a path. -/
structure Opens (s : List UInt8) : Prop where
  head : ∀ i < 12, s.getD i 0 = (ascii "GETFILE GET ").getD i 0
  word : ¬ Blank (s.getD 12 0)

section

variable {s : List UInt8}

/-! ### Reads of a stream -/

/-- A byte in the range of a read is the byte of the stream that the read brings there. -/
theorem byte_receive_of_rest {o i : ℕ} {w : List UInt8} {ws : List (List UInt8)}
    {ctx : Gfcontext} (h : Rest s o (w :: ws)) (hfits : ctx.headerPt + w.length ≤ bufSize)
    (hi : ctx.headerPt ≤ i) (hlt : i < ctx.headerPt + w.length) :
  (ctx.receive w).buffer.byte i = s.getD (o + (i - ctx.headerPt)) 0
  := by
  rw [← h.getD (by omega)]
  apply Buffer.store_byte_of_mem hi hlt (by omega)

/-- A byte outside the range of a read stays. -/
theorem byte_receive_of_not_mem {ctx : Gfcontext} {w : List UInt8} {i : ℕ}
    (h : i < ctx.headerPt ∨ ctx.headerPt + w.length ≤ i) :
  (ctx.receive w).buffer.byte i = ctx.buffer.byte i
  := Buffer.store_byte_of_not_mem h

/-! ### The words of the opening -/

/-- The bytes of the scheme belong to one word. -/
theorem Heads.scheme (hs : Heads s) {i : ℕ} (hi : i < 7) :
  s.getD i 0 ≠ space ∧ s.getD i 0 ≠ 0
  := by
  rw [hs i (by omega)]
  have hall : ∀ k < 7, (ascii "GETFILE GET ").getD k 0 ≠ space ∧
      (ascii "GETFILE GET ").getD k 0 ≠ 0 := by decide
  apply hall i hi

/-- The bytes of the method belong to one word. -/
theorem Heads.method (hs : Heads s) {i : ℕ} (hi : 8 ≤ i) (hlt : i < 11) :
  s.getD i 0 ≠ space ∧ s.getD i 0 ≠ 0
  := by
  rw [hs i (by omega)]
  have hall : ∀ k < 11, 8 ≤ k → (ascii "GETFILE GET ").getD k 0 ≠ space ∧
      (ascii "GETFILE GET ").getD k 0 ≠ 0 := by decide
  apply hall i hlt hi

/-- The scheme does not begin again inside the scheme, nor the method inside the method. -/
theorem Opens.ne_g (hs : Opens s) {i : ℕ} (hi : 1 ≤ i ∧ i < 7 ∨ 9 ≤ i ∧ i < 12) :
  s.getD i 0 ≠ 71
  := by
  rw [hs.head i (by omega)]
  have hall : ∀ i < 12, 1 ≤ i ∧ i < 7 ∨ 9 ≤ i ∧ i < 12 →
      (ascii "GETFILE GET ").getD i 0 ≠ 71 := by decide
  apply hall i (by omega) hi

/-! ### Reads in place -/

/-- The first `o` bytes of the stream have been read and no path has been found; those from
`header_pt` on lie in place, and the buffer is clear behind them. -/
structure Filled (s : List UInt8) (lo o : ℕ) (ctx : Gfcontext) : Prop
    extends ctx.Ready where
  path : ctx.path = none
  rxBytes : ctx.rxBytes = o
  total : ctx.totalRxBytes = o
  headerPt : ctx.headerPt = lo
  le : lo ≤ o
  bound : o ≤ bufSize
  byte : ∀ i, lo ≤ i → i < o → ctx.buffer.byte i = s.getD i 0
  clear : ∀ i, o ≤ i → ctx.buffer.byte i = 0

/-- In a fresh context nothing has been read. -/
theorem filled_create (next : ℕ) :
  Filled s 0 0 (gfcontextCreate next)
  := by
  refine ⟨⟨rfl, Nat.zero_le _⟩, rfl, rfl, rfl, rfl, le_rfl, Nat.zero_le _, ?_, ?_⟩
  · intro i _ hi
    omega
  · intro i _
    rfl

/-- A read behind the accepted words brings its bytes into place. -/
theorem Filled.receive {o : ℕ} {w : List UInt8} {ws : List (List UInt8)} {ctx : Gfcontext}
    (h : Filled s o o ctx) (hrest : Rest s o (w :: ws)) (hfits : o + w.length ≤ bufSize) :
  Filled s o (o + w.length) (ctx.receive w)
  where
  ok := h.ok
  headerPt_le := h.headerPt_le
  path := h.path
  rxBytes := by simp only [Gfcontext.receive, h.rxBytes]
  total := by simp only [Gfcontext.receive, h.total]
  headerPt := h.headerPt
  le := Nat.le_add_right _ _
  bound := hfits
  byte i hi hlt := by
    have hpt := h.headerPt
    rw [byte_receive_of_rest hrest (by omega) (by omega) (by omega), hpt, Nat.add_sub_cancel' hi]
  clear i hi := by
    have hpt := h.headerPt
    rw [byte_receive_of_not_mem (by omega)]
    apply h.clear i (by omega)

/-- A word of the stream that is in place from index `i` to `n` and followed by a space
there is the token that `strtok` cuts off. -/
theorem Filled.strtok {lo o i n : ℕ} {ctx : Gfcontext} (h : Filled s lo o ctx) (hi : lo ≤ i)
    (hin : i < n) (hn : n < o)
    (hword : ∀ k, i ≤ k → k < n → s.getD k 0 ≠ space ∧ s.getD k 0 ≠ 0)
    (hspace : s.getD n 0 = space) :
  CString.strtok ctx.buffer space i = ⟨some (i, n), ctx.buffer.terminate n, n + 1⟩
  := by
  have hrun : RunsTo ctx.buffer space i n := by
    constructor
    · omega
    · intro k hk hkn
      rw [h.byte k (by omega) (by omega)]
      apply hword k hk hkn
    · left
      rw [h.byte n (by omega) hn]
      apply hspace
  apply strtok_cut space_ne_zero (SkipsTo.refl (hrun.run i le_rfl hin).1) hrun hin
  rw [h.byte n (by omega) hn]
  apply hspace

/-- Accepting a word of the stream that is in place leaves the bytes behind it in place. -/
theorem Filled.accepted {lo o n : ℕ} {ctx : Gfcontext} {t : Tokenized bufSize}
    (h : Filled s lo o ctx) (hlo : lo ≤ n) (hn : n < o)
    (hbuffer : t.buffer = ctx.buffer.terminate n) (sm : StateMachine) :
  Filled s (n + 1) o (ctx.accepted t (n + 1) sm)
  where
  ok := h.ok
  headerPt_le := le_trans hn h.bound
  path := h.path
  rxBytes := h.rxBytes
  total := h.total
  headerPt := rfl
  le := hn
  bound := h.bound
  byte i hi hlt := by
    simp only [Gfcontext.accepted, hbuffer]
    rw [Buffer.terminate_byte_of_ne _ (by omega)]
    apply h.byte i (by omega) hlt
  clear i hi := by
    simp only [Gfcontext.accepted, hbuffer]
    rw [Buffer.terminate_byte_of_ne _ (by omega)]
    apply h.clear i hi

/-- In the stage of the scheme, fewer than seven bytes are not looked at. -/
theorem Filled.parse_short {lo o : ℕ} {ctx : Gfcontext} (h : Filled s lo o ctx)
    (hsm : ctx.sm = .scheme) (ho : o < 7) (r : ℤ) :
  parse r ctx = (0, ctx)
  := by
  have hwait : parseScheme ctx = (0, ctx) := by
    rw [parseScheme, if_neg]
    rw [h.rxBytes, maxScheme_eq]
    omega
  rw [parse_of_scheme hsm, hwait, if_pos hsm]

/-- Seven bytes in place or more are the scheme. -/
theorem Filled.strncmp (hs : Heads s) {o : ℕ} {ctx : Gfcontext} {b : Buffer bufSize}
    (h : Filled s 0 o ctx) (ho : 7 ≤ o) (hb : ∀ i < 7, b.byte i = ctx.buffer.byte i) :
  b.strncmp 0 (ascii "GETFILE") = true
  := by
  rw [Buffer.strncmp_iff]
  intro j hj
  have hj7 : j < 7 := hj
  rw [Nat.zero_add, hb j hj7, h.byte j (Nat.zero_le j) (by omega), hs j (by omega)]
  have hall : ∀ k (hk : k < 7), (ascii "GETFILE GET ").getD k 0 = (ascii "GETFILE")[k] := by decide
  apply hall j hj7

/-- Eight bytes in place or more are accepted as the scheme, and the parsers go on with the
method. -/
theorem Filled.parse_scheme (hs : Heads s) {o : ℕ} {ctx : Gfcontext} (h : Filled s 0 o ctx)
    (hsm : ctx.sm = .scheme) (ho : 8 ≤ o) (r : ℤ) :
  ∃ ctx', parse r ctx = parse 0 ctx' ∧ Filled s 8 o ctx' ∧ ctx'.sm = .method ∧ ctx'.next = 8
  := by
  have hstrtok := h.strtok (i := 0) le_rfl (by omega) ho (fun k _ hk => hs.scheme hk)
    (hs 7 (by omega))
  have hmatch : (ctx.buffer.terminate 7).strncmp 0 (ascii "GETFILE") = true := by
    apply h.strncmp hs (by omega)
    intro i hi
    apply Buffer.terminate_byte_of_ne _ (by omega)
  have haccept : parseScheme ctx =
      (0, ctx.accepted ⟨some (0, 7), ctx.buffer.terminate 7, 8⟩ 8 .method) := by
    rw [parseScheme, if_pos (by rw [h.rxBytes, maxScheme_eq]; omega)]
    simp only [hstrtok, hmatch, ↓reduceIte, Gfcontext.accepted]
  rw [parse_of_scheme hsm, haccept, if_neg (by rw [accepted_sm]; decide)]
  refine ⟨_, rfl, ?_, rfl, rfl⟩
  apply h.accepted (by omega) (by omega) rfl

/-- When the bytes read are exactly the scheme, `rx_bytes - header_pt` wraps around and
`parse_method` rejects the request. -/
theorem Filled.parse_seven (hs : Heads s) {ctx : Gfcontext} (h : Filled s 0 7 ctx)
    (hsm : ctx.sm = .scheme) (r : ℤ) :
  (parse r ctx).1 = -1
  := by
  have hzero : ctx.buffer.byte 7 = 0 := h.clear 7 le_rfl
  have hrun : RunsTo ctx.buffer space 0 7 := by
    constructor
    · omega
    · intro k _ hk
      rw [h.byte k (Nat.zero_le k) hk]
      apply hs.scheme hk
    · right
      apply hzero
  have hskip := SkipsTo.refl (hrun.run 0 le_rfl (by omega)).1
  have hstrtok := strtok_last hskip hrun (by omega) (by decide) hzero
  have hmatch : ctx.buffer.strncmp 0 (ascii "GETFILE") = true :=
    h.strncmp hs le_rfl (fun i _ => rfl)
  have haccept : parseScheme ctx = (0, ctx.accepted ⟨some (0, 7), ctx.buffer, 7⟩ 8 .method) := by
    rw [parseScheme, if_pos (by rw [h.rxBytes, maxScheme_eq])]
    simp only [hstrtok, hmatch, ↓reduceIte, Gfcontext.accepted]
  rw [parse_of_scheme hsm, haccept, if_neg (by rw [accepted_sm]; decide),
    parse_of_method (accepted_sm _ _ _ _)]
  have hcase : MethodCase (ctx.accepted ⟨some (0, 7), ctx.buffer, 7⟩ 8 .method) _ :=
    parseMethod_cases (by simp [Gfcontext.accepted])
  generalize parseMethod _ = x at hcase
  cases hcase with
  | wait short =>
      simp [Gfcontext.accepted, h.rxBytes, unsignedSub] at short
  | reject enough call token sm => rw [if_neg (by rw [sm, accepted_sm]; decide)]
  | accept enough call token get =>
      rw [call.token_of_zero space_ne_zero hzero] at token
      cases token

/-- The number of bytes behind `header_pt` does not wrap around when the reads are in
place. -/
theorem Filled.unsignedSub {lo o : ℕ} {ctx : Gfcontext} (h : Filled s lo o ctx) :
  CString.unsignedSub ctx.rxBytes ctx.headerPt = o - lo
  := by
  have hle := h.le
  have hbound := h.bound
  rw [bufSize_eq] at hbound
  rw [h.rxBytes, h.headerPt, CString.unsignedSub]
  omega

/-- In the stage of the method, fewer than twelve bytes are not looked at. -/
theorem Filled.parse_wait {o : ℕ} {ctx : Gfcontext} (h : Filled s 8 o ctx)
    (hsm : ctx.sm = .method) (ho : o < 12) (r : ℤ) :
  parse r ctx = (0, ctx)
  := by
  have hwait : parseMethod ctx = (0, ctx) := by
    rw [parseMethod, if_neg]
    rw [h.unsignedSub, getSize_eq]
    omega
  rw [parse_of_method hsm, hwait, hsm, if_neg (by decide)]

/-- Twelve bytes in place or more are accepted as the scheme and the method, and the parsers
go on with the path. -/
theorem Filled.parse_method (hs : Heads s) {o : ℕ} {ctx : Gfcontext} (h : Filled s 8 o ctx)
    (hsm : ctx.sm = .method) (hnext : ctx.next = 8) (ho : 12 ≤ o) (r : ℤ) :
  ∃ ctx', parse r ctx = parsePath ctx' ∧ Filled s 12 o ctx' ∧ ctx'.sm = .path ∧ ctx'.next = 12
  := by
  have hstrtok := h.strtok le_rfl (by omega) ho (fun k hk hlt => hs.method hk hlt)
    (hs 11 (by omega))
  have hslice : (ctx.buffer.terminate 11).slice 8 3 = ascii "GET" := by
    apply Buffer.slice_eq
    · rfl
    · intro j hj
      have hj : j < 3 := hj
      rw [Buffer.terminate_byte_of_ne _ (by omega), h.byte _ (by omega) (by omega),
        hs _ (by omega)]
      match j with
      | 0 => rfl
      | 1 => rfl
      | 2 => rfl
  have haccept : parseMethod ctx =
      (0, ctx.accepted ⟨some (8, 11), ctx.buffer.terminate 11, 12⟩ 12 .path) := by
    rw [parseMethod, if_pos (by rw [h.unsignedSub, getSize_eq]; omega)]
    simp only [hnext, hstrtok, hslice, h.headerPt, ↓reduceIte, Gfcontext.accepted]
  rw [parse_of_method hsm, haccept, if_pos (accepted_sm _ _ _ _)]
  refine ⟨_, rfl, ?_, rfl, rfl⟩
  apply h.accepted (by omega) (by omega) rfl

/-! ### Reads that are not in place -/

/-- Some bytes of the scheme have been read, but not the whole scheme. -/
structure LostScheme (o : ℕ) (ctx : Gfcontext) : Prop extends ctx.Ready where
  sm : ctx.sm = .scheme
  headerPt : ctx.headerPt = 0
  rxBytes : ctx.rxBytes = o
  path : ctx.path = none
  some_read : 1 ≤ o
  few : o < 7

/-- Reading on inside the scheme, the scheme is not accepted: the first byte of the buffer
is none that begins the scheme. -/
theorem LostScheme.step (hs : Opens s) {o : ℕ} {w : List UInt8} {ws : List (List UInt8)}
    {ctx ctx' : Gfcontext} {r r' : ℤ} (h : LostScheme o ctx) (hrest : Rest s o (w :: ws))
    (hw : w ≠ []) (hfits : w.length ≤ bufSize) (hparse : parse r (ctx.receive w) = (r', ctx'))
    (hr : r' ≠ -1) :
  LostScheme (o + w.length) ctx'
  := by
  have hpos := List.length_pos_iff.mpr hw
  have hone := h.some_read
  have hfew := h.few
  have hpt := h.headerPt
  have hrx : (ctx.receive w).rxBytes = o + w.length := by
    simp only [Gfcontext.receive, h.rxBytes]
  have hsm : (ctx.receive w).sm = .scheme := h.sm
  rw [parse_of_scheme hsm] at hparse
  have hcase := parseScheme_cases (ctx.receive w)
  generalize parseScheme (ctx.receive w) = x at hcase hparse
  cases hcase with
  | wait short =>
      rw [if_pos hsm] at hparse
      cases hparse
      exact ⟨h.toReady.receive w, h.sm, hpt, hrx, h.path, by omega, by omega⟩
  | reject enough ne sm =>
      rw [if_pos (sm.trans hsm)] at hparse
      cases hparse
      apply absurd rfl hr
  | accept enough eq token call =>
      exfalso
      have hG := Buffer.strncmp_iff.mp eq 0 (by decide)
      rw [Nat.zero_add, byte_receive_of_rest hrest (by omega) (by omega) (by omega), hpt] at hG
      apply hs.ne_g _ hG
      omega

/-- Some bytes of the method have been read, but not the whole method. -/
structure LostMethod (o : ℕ) (ctx : Gfcontext) : Prop extends ctx.Ready where
  sm : ctx.sm = .method
  headerPt : ctx.headerPt = 8
  next : ctx.next = 8
  rxBytes : ctx.rxBytes = o
  total : ctx.totalRxBytes = o
  path : ctx.path = none
  clear : ∀ i, 11 ≤ i → ctx.buffer.byte i = 0
  some_read : 9 ≤ o
  few : o < 12

/-- A read that begins with the space before the path and brings a path that begins with the
word `GET`. Put at the place of the method, it is taken for the method. -/
def ShiftedMethod (w : List UInt8) : Prop :=
  ∃ v, w = ascii " GET" ++ v ∧ ∀ c ∈ v.head?, c = space ∨ c = 0

/-- In place or not, some bytes of the method are not looked at. -/
theorem Filled.lostMethod {o : ℕ} {ctx : Gfcontext} (h : Filled s 8 o ctx)
    (hsm : ctx.sm = .method) (hnext : ctx.next = 8) (hlow : 8 < o) (hhigh : o < 12) :
  LostMethod o ctx
  := by
  refine ⟨h.toReady, hsm, h.headerPt, hnext, h.rxBytes, h.total, h.path, ?_, hlow, hhigh⟩
  intro i hi
  apply h.clear i (by omega)

section

variable {o : ℕ} {w : List UInt8} {ws : List (List UInt8)} {ctx : Gfcontext}

/-- The number of bytes behind `header_pt`, after a read that does not begin in place. -/
theorem LostMethod.unsignedSub (h : LostMethod o ctx) (hfits : 8 + w.length ≤ bufSize) :
  CString.unsignedSub (ctx.receive w).rxBytes (ctx.receive w).headerPt = o + w.length - 8
  := by
  have hlow := h.some_read
  have hfew := h.few
  rw [bufSize_eq] at hfits
  simp only [Gfcontext.receive, h.rxBytes, h.headerPt, CString.unsignedSub]
  omega

/-- Behind the read and behind the method the buffer is clear. -/
theorem LostMethod.clear_receive (h : LostMethod o ctx) {i : ℕ} (hi : 11 ≤ i)
    (hle : 8 + w.length ≤ i) :
  (ctx.receive w).buffer.byte i = 0
  := by
  have hpt := h.headerPt
  rw [byte_receive_of_not_mem (by omega)]
  apply h.clear i hi

/-- The read lands on the method and not behind the bytes received. -/
theorem LostMethod.byte_receive (h : LostMethod o ctx) (hrest : Rest s o (w :: ws))
    (hfits : 8 + w.length ≤ bufSize) {i : ℕ} (hi : 8 ≤ i) (hlt : i < 8 + w.length) :
  (ctx.receive w).buffer.byte i = s.getD (o + (i - 8)) 0
  := by
  have hpt := h.headerPt
  rw [byte_receive_of_rest hrest (by omega) (by omega) (by omega), hpt]

/-- Fewer than twelve bytes are not looked at, and the loop stays inside the method. -/
theorem LostMethod.parse_wait (h : LostMethod o ctx) (hfits : 8 + w.length ≤ bufSize)
    (hshort : o + w.length < 12) (r : ℤ) :
  parse r (ctx.receive w) = (0, ctx.receive w) ∧ LostMethod (o + w.length) (ctx.receive w)
  := by
  have hlow := h.some_read
  have hsm : (ctx.receive w).sm = .method := h.sm
  constructor
  · have hwait : parseMethod (ctx.receive w) = (0, ctx.receive w) := by
      rw [parseMethod, if_neg]
      rw [h.unsignedSub hfits, getSize_eq]
      omega
    rw [parse_of_method hsm, hwait, hsm, if_neg (by decide)]
  · refine ⟨h.toReady.receive w, hsm, h.headerPt, h.next, ?_, ?_, h.path, ?_, by omega, hshort⟩
    · simp only [Gfcontext.receive, h.rxBytes]
    · simp only [Gfcontext.receive, h.total]
    · intro i hi
      apply h.clear_receive hi
      omega

/-- The word that is read as the method does not begin at the place of the method. -/
theorem LostMethod.start (hs : Opens s) (h : LostMethod o ctx) (hrest : Rest s o (w :: ws))
    (hw : w ≠ []) (hfits : 8 + w.length ≤ bufSize) {i : ℕ}
    (skips : SkipsTo (ctx.receive w).buffer space 8 i)
    (get : (ctx.receive w).buffer.slice i 3 = ascii "GET") :
  9 ≤ i
  := by
  have hlow := h.some_read
  have hfew := h.few
  have hpos := List.length_pos_iff.mpr hw
  by_contra hlt
  have hle := skips.le
  obtain rfl : i = 8 := by omega
  have hG : (ctx.receive w).buffer.byte 8 = 71 := by
    have hlen : 0 < ((ctx.receive w).buffer.slice 8 3).length := by
      rw [Buffer.length_slice]
      omega
    rw [← Buffer.getElem_slice (ctx.receive w).buffer hlen, List.getElem_of_eq get]
    rfl
  rw [h.byte_receive hrest hfits le_rfl (by omega)] at hG
  apply hs.ne_g _ hG
  omega

/-- The read behind the eleven bytes `GETFILE GET` that brings the shifted method. -/
theorem LostMethod.shiftedMethod (hs : Opens s) (h : LostMethod o ctx)
    (hrest : Rest s o (w :: ws)) (hfits : 8 + w.length ≤ bufSize) {i : ℕ}
    (skips : SkipsTo (ctx.receive w).buffer space 8 i)
    (runs : RunsTo (ctx.receive w).buffer space i (i + 3))
    (get : (ctx.receive w).buffer.slice i 3 = ascii "GET") (hi : 9 ≤ i) :
  o = 11 ∧ ShiftedMethod w
  := by
  have hlow := h.some_read
  have hfew := h.few
  have hlen : 4 ≤ w.length := by
    by_contra hlt
    apply (runs.run (i + 2) (by omega) (by omega)).2
    apply h.clear_receive
    · omega
    · omega
  have ho : o = 11 := by
    by_contra hne
    have hspace := skips.skip 8 le_rfl (by omega)
    rw [h.byte_receive hrest hfits le_rfl (by omega)] at hspace
    apply (Heads.method hs.head (i := o) (by omega) (by omega)).1
    apply hspace
  subst ho
  have hnine : i = 9 := by
    by_contra hne
    have hspace := skips.skip 9 (by omega) (by omega)
    rw [h.byte_receive hrest hfits (by omega) (by omega)] at hspace
    apply hs.word
    right
    left
    apply hspace
  subst hnine
  refine ⟨rfl, w.drop 4, ?_, ?_⟩
  · have hstore : (ctx.buffer.store 8 w).slice (8 + 0) 4 = (w.drop 0).take 4 :=
      Buffer.slice_store hfits (by omega)
    have hspace := skips.skip 8 le_rfl (by omega)
    simp only [Gfcontext.receive, h.headerPt] at get hspace
    have htake : w.take 4 = ascii " GET" := by
      calc w.take 4 = (ctx.buffer.store 8 w).slice 8 (1 + 3) := hstore.symm
        _ = (ctx.buffer.store 8 w).slice 8 1 ++ (ctx.buffer.store 8 w).slice (8 + 1) 3 :=
          Buffer.slice_add _ _ _ _
        _ = [space] ++ ascii "GET" := by
          have hone : (ctx.buffer.store 8 w).slice 8 1 = [space] := by
            apply Buffer.slice_eq
            · rfl
            · intro j hj
              obtain rfl : j = 0 := by simpa using hj
              apply hspace
          rw [hone, get]
        _ = ascii " GET" := by decide
    rw [← htake, List.take_append_drop]
  · intro c hc
    obtain ⟨v, hv⟩ := List.head?_eq_some_iff.mp hc
    have hlt : 4 < w.length := by
      have hlength := congrArg List.length hv
      rw [List.length_drop, List.length_cons] at hlength
      omega
    have hbyte : (ctx.buffer.store 8 w).byte (8 + 4) = w[4] := Buffer.store_byte hlt hfits
    have hc : w[4] = c := by
      rw [List.drop_eq_getElem_cons hlt] at hv
      cases hv
      rfl
    have hstop := runs.stop
    simp only [Gfcontext.receive, h.headerPt] at hstop
    rw [← hc, ← hbyte]
    apply hstop

/-- With twelve bytes or more, a read that is not in place is rejected unless it brings the
shifted method. -/
theorem LostMethod.parse_reject (hs : Opens s) (h : LostMethod o ctx)
    (hrest : Rest s o (w :: ws)) (hw : w ≠ []) (hfits : 8 + w.length ≤ bufSize)
    (henough : 12 ≤ o + w.length) (hshift : ¬ (o = 11 ∧ ShiftedMethod w)) (r : ℤ) :
  (parse r (ctx.receive w)).1 = -1
  := by
  have hsm : (ctx.receive w).sm = .method := h.sm
  have hnext : (ctx.receive w).next = 8 := h.next
  have hcase : MethodCase (ctx.receive w) _ := parseMethod_cases (by rw [hnext]; decide)
  rw [parse_of_method hsm]
  generalize parseMethod (ctx.receive w) = x at hcase
  cases hcase with
  | wait short =>
      rw [h.unsignedSub hfits] at short
      omega
  | reject enough call token sm => rw [if_neg (by rw [sm, hsm]; decide)]
  | accept enough call token get =>
      exfalso
      obtain ⟨skips, runs, -, -, -⟩ := call.range token
      rw [hnext] at skips
      apply hshift
      apply h.shiftedMethod hs hrest hfits skips runs get
      apply h.start hs hrest hw hfits skips get

/-- The shifted method at the place of the method is a token. -/
theorem strtok_shifted {b : Buffer bufSize}
    (hget : ∀ j < 4, b.byte (8 + j) = (ascii " GET").getD j 0)
    (hend : b.byte 12 = space ∨ b.byte 12 = 0) :
  (strtok b space 8).token = some (9, 12) ∧ b.slice 9 3 = ascii "GET"
  := by
  have hskip : SkipsTo b space 8 9 := by
    constructor
    · omega
    · intro k hk hlt
      obtain rfl : k = 8 := by omega
      apply hget 0 (by omega)
    · rw [hget 1 (by omega)]
      decide
  have hrun : RunsTo b space 9 12 := by
    constructor
    · omega
    · intro k hk hlt
      obtain ⟨j, rfl⟩ := Nat.exists_eq_add_of_le (show 8 ≤ k by omega)
      rw [hget j (by omega)]
      have hall : ∀ j < 4, 1 ≤ j →
          (ascii " GET").getD j 0 ≠ space ∧ (ascii " GET").getD j 0 ≠ 0 := by decide
      apply hall j (by omega) (by omega)
    · apply hend
  constructor
  · rcases hend with hspace | hzero
    · rw [strtok_cut space_ne_zero hskip hrun (by omega) hspace]
    · rw [strtok_last hskip hrun (by omega) (by decide) hzero]
  · apply Buffer.slice_eq
    · rfl
    · intro j hj
      have hj : j < 3 := hj
      match j with
      | 0 => apply hget 1 (by omega)
      | 1 => apply hget 2 (by omega)
      | 2 => apply hget 3 (by omega)

/-- The shifted method is accepted, and the parsers go on with the path behind it. -/
theorem LostMethod.parse_shifted (h : LostMethod 11 ctx) (hfits : 8 + w.length ≤ bufSize)
    (hshift : ShiftedMethod w) (r : ℤ) :
  ∃ t, StrtokCase (ctx.receive w).buffer space 8 t ∧ t.token = some (9, 12) ∧
    parse r (ctx.receive w) = parsePath ((ctx.receive w).accepted t 12 .path)
  := by
  obtain ⟨v, rfl, hv⟩ := hshift
  have hlength : (ascii " GET" ++ v).length = v.length + 4 := by
    rw [List.length_append, Nat.add_comm]
    rfl
  generalize hw : ascii " GET" ++ v = w at hlength hfits
  have hbyte : ∀ j < w.length, (ctx.receive w).buffer.byte (8 + j) = w.getD j 0 := by
    intro j hj
    simp only [Gfcontext.receive, h.headerPt]
    rw [Buffer.store_byte_of_mem (by omega) (by omega) (by omega), Nat.add_sub_cancel_left]
  have hget : ∀ j < 4, (ctx.receive w).buffer.byte (8 + j) = (ascii " GET").getD j 0 := by
    intro j hj
    rw [hbyte j (by omega), ← hw, List.getD_append]
    apply hj
  have hend : (ctx.receive w).buffer.byte 12 = space ∨ (ctx.receive w).buffer.byte 12 = 0 := by
    cases v with
    | nil =>
        right
        rw [List.length_nil] at hlength
        apply h.clear_receive
        · omega
        · omega
    | cons c v =>
        rw [List.length_cons] at hlength
        rw [hbyte 4 (by omega), ← hw]
        apply hv c rfl
  obtain ⟨htoken, hslice⟩ := strtok_shifted hget hend
  have hcall := strtok_cases (b := (ctx.receive w).buffer) (i := 8) space_ne_zero (by decide)
  refine ⟨_, hcall, htoken, ?_⟩
  rw [← slice_strtok hcall htoken] at hslice
  have hnext : (ctx.receive w).next = 8 := h.next
  have hpt : (ctx.receive w).headerPt = 8 := h.headerPt
  have haccept : parseMethod (ctx.receive w) =
      (0, (ctx.receive w).accepted (strtok (ctx.receive w).buffer space 8) 12 .path) := by
    rw [parseMethod, if_pos]
    · simp only [hnext, htoken, hslice, hpt, ↓reduceIte, Gfcontext.accepted]
    · rw [h.unsignedSub hfits, getSize_eq]
      omega
  have hsm : (ctx.receive w).sm = .method := h.sm
  rw [parse_of_method hsm, haccept, if_pos (accepted_sm _ _ _ _)]

end

end

end GetFile.Server
