import GetFile.Client.Stages
import Mathlib.Data.List.GetD
import Mathlib.Data.List.TakeWhile

/-!
# Client: a header received wholly in one read

`okHeader ds spaces` is the header of a response with status `OK` and the length written as
the digits `ds`. When the first read brings the whole header, the parsers of one round take
it apart and enter the stage of the content (`Placed.parse_header`).
-/

namespace GetFile.Client

open CString Transition

/-- The header with the digits `ds` and with spaces before the end marker. With the digits of
a number and no spaces it is what `gfs_sendheader` writes. -/
def okHeader (ds : List UInt8) (spaces : ℕ) : List UInt8 :=
  ascii "GETFILE OK " ++ ds ++ List.replicate spaces space ++ ascii "\r\n\r\n"

/-- The header `okHeader ds spaces` is that of a file of `len` bytes. -/
structure Announces (ds : List UInt8) (len : ℕ) : Prop where
  ne_nil : ds ≠ []
  digits : ∀ c ∈ ds, isDigit c = true
  value : decimalValue ds = len
  small : len < 2 ^ 31

/-- A list that consists of digits announces the number it stands for. -/
theorem announces_of_all {ds : List UInt8} {len : ℕ} (hne : ds ≠ []) (hall : ds.all isDigit = true)
    (hvalue : decimalValue ds = len) (hsmall : len < 2 ^ 31) :
  Announces ds len
  := ⟨hne, List.all_eq_true.mp hall, hvalue, hsmall⟩

theorem length_okHeader (ds : List UInt8) (spaces : ℕ) :
  (okHeader ds spaces).length = ds.length + spaces + 15
  := by
  have hhead : (ascii "GETFILE OK ").length = 11 := rfl
  have hmarker : (ascii "\r\n\r\n").length = 4 := rfl
  simp only [okHeader, List.length_append, List.length_replicate, hhead, hmarker]
  omega

/-- What `gfs_sendheader` writes announces the length. -/
theorem announces_decimal {len : ℕ} (h : len < 2 ^ 31) :
  Announces (decimal len) len
  where
  ne_nil := decimal_ne_nil len
  digits _ hc := isDigit_of_mem_decimal hc
  value := decimalValue_decimal len
  small := h

/-- The digits of a length that is announced are read as this length. -/
theorem Announces.read {ds : List UInt8} {len : ℕ} (h : Announces ds len) :
  (atoi ds % 2 ^ 32).toNat = len
  := by
  have hvalue := h.value
  have hsmall := h.small
  rw [atoi_unsigned h.ne_nil h.digits (by omega), hvalue]

/-- The stream `s` begins with the scheme and a space. -/
def BeginsScheme (s : List UInt8) : Prop :=
  ∀ i < 8, s.getD i 0 = (ascii "GETFILE ").getD i 0

/-- The stream `s` begins with the header `okHeader ds spaces`. -/
structure Begins (ds : List UInt8) (spaces : ℕ) (s : List UInt8) : Prop where
  head : ∀ i < 11, s.getD i 0 = (ascii "GETFILE OK ").getD i 0
  digit : ∀ i < ds.length, s.getD (11 + i) 0 = ds.getD i 0
  space : ∀ i < spaces, s.getD (11 + ds.length + i) 0 = space
  marker : ∀ i < 4, s.getD (11 + ds.length + spaces + i) 0 = (ascii "\r\n\r\n").getD i 0

/-- A response begins with its header. -/
theorem begins_okHeader (ds : List UInt8) (spaces : ℕ) (body : List UInt8) :
  Begins ds spaces (okHeader ds spaces ++ body)
  := by
  have hhead : (ascii "GETFILE OK ").length = 11 := rfl
  have hmarker : (ascii "\r\n\r\n").length = 4 := rfl
  have hassoc : okHeader ds spaces ++ body = ascii "GETFILE OK " ++ (ds ++
      (List.replicate spaces CString.space ++ (ascii "\r\n\r\n" ++ body))) := by
    simp only [okHeader, List.append_assoc]
  rw [hassoc]
  constructor
  · intro i hi
    apply List.getD_append
    omega
  · intro i hi
    rw [List.getD_append_right _ _ _ _ (by omega), hhead, Nat.add_sub_cancel_left]
    apply List.getD_append _ _ _ _ hi
  · intro i hi
    rw [List.getD_append_right _ _ _ _ (by omega), List.getD_append_right _ _ _ _ (by omega),
      hhead, List.getD_append _ _ _ _ (by rw [List.length_replicate]; omega),
      List.getD_replicate]
    omega
  · intro i hi
    have hindex : 11 + ds.length + spaces + i - 11 - ds.length - spaces = i := by omega
    rw [List.getD_append_right _ _ _ _ (by omega), List.getD_append_right _ _ _ _ (by omega),
      List.getD_append_right _ _ _ _ (by rw [List.length_replicate]; omega), hhead,
      List.length_replicate, hindex]
    apply List.getD_append _ _ _ _ (by omega)

section

variable {ds : List UInt8} {spaces : ℕ} {s : List UInt8}

/-- The bytes of the scheme belong to a word. -/
theorem BeginsScheme.word (hs : BeginsScheme s) {i : ℕ} (hi : i < 7) :
  s.getD i 0 ≠ CString.space ∧ s.getD i 0 ≠ 0
  := by
  rw [hs i (by omega)]
  have hall : ∀ k < 7, (ascii "GETFILE ").getD k 0 ≠ CString.space ∧
      (ascii "GETFILE ").getD k 0 ≠ 0 := by decide
  apply hall i hi

/-- A header begins with the scheme. -/
theorem Begins.scheme (hs : Begins ds spaces s) :
  BeginsScheme s
  := by
  intro i hi
  rw [hs.head i (by omega)]
  have hall : ∀ k < 8, (ascii "GETFILE OK ").getD k 0 = (ascii "GETFILE ").getD k 0 := by decide
  apply hall i hi

/-- The bytes of the status belong to a word. -/
theorem Begins.word (hs : Begins ds spaces s) {i : ℕ} (hi : 8 ≤ i ∧ i < 10) :
  s.getD i 0 ≠ CString.space ∧ s.getD i 0 ≠ 0
  := by
  rw [hs.head i (by omega)]
  have hall : ∀ k < 10, 8 ≤ k → (ascii "GETFILE OK ").getD k 0 ≠ CString.space ∧
      (ascii "GETFILE OK ").getD k 0 ≠ 0 := by decide
  apply hall i hi.2 hi.1

/-- The byte behind the digits is no digit. -/
theorem Begins.behind_digits (hs : Begins ds spaces s) :
  isDigit (s.getD (11 + ds.length) 0) = false
  := by
  rcases Nat.eq_zero_or_pos spaces with hzero | hpos
  · have hcr := hs.marker 0 (by decide)
    rw [hzero] at hcr
    simp only [Nat.add_zero] at hcr
    rw [hcr]
    decide
  · have hspace := hs.space 0 hpos
    rw [Nat.add_zero] at hspace
    rw [hspace]
    decide

/-- The first `o` bytes of the stream have been received, those from `lo` on lie in place, and
the buffer is clear behind them. Counted with earlier reads that they have overwritten, `rx`
bytes have been received. -/
structure Placed (s : List UInt8) (lo o rx : ℕ) (g : Gfcrequest) : Prop where
  rxBytes : g.rxBytes = rx
  total : g.totalRxBytes = rx
  contentPt : g.contentPt = 0
  bytesWritten : g.bytesWritten = 0
  writes : g.writes = []
  bound : o ≤ rdBufSize
  le : o ≤ rx
  small : rx ≤ 3 * rdBufSize
  byte : ∀ i, lo ≤ i → i < o → g.buffer.byte i = s.getD i 0
  clear : ∀ i, o ≤ i → g.buffer.byte i = 0

/-- No callback has been called between `g` and `g'`, and the buffer has got terminators at the
indices `ends`. -/
structure Cuts (ends : List ℕ) (g g' : Gfcrequest) : Prop where
  headers : g'.headers = g.headers
  headerCallback : g'.headerCallback = g.headerCallback
  zero : ∀ i ∈ ends, g'.buffer.byte i = 0
  keep : ∀ i ∉ ends, g'.buffer.byte i = g.buffer.byte i

/-- Cutting words off one after the other. -/
theorem Cuts.trans {ends ends' : List ℕ} {g g' g'' : Gfcrequest} (h : Cuts ends g g')
    (h' : Cuts ends' g' g'') :
  Cuts (ends ++ ends') g g''
  where
  headers := h'.headers.trans h.headers
  headerCallback := h'.headerCallback.trans h.headerCallback
  zero i hi := by
    by_cases hi' : i ∈ ends'
    · exact h'.zero i hi'
    · rw [h'.keep i hi']
      exact h.zero i ((List.mem_append.mp hi).resolve_right hi')
  keep i hi := by
    rw [List.mem_append, not_or] at hi
    rw [h'.keep i hi.2, h.keep i hi.1]

/-- Behind the words that have been cut off, the bytes stay in place. -/
theorem Placed.of_cuts {lo lo' o rx : ℕ} {g g' : Gfcrequest} {ends : List ℕ}
    (h : Placed s lo o rx g) (hcuts : Cuts ends g g') (hlo : lo ≤ lo') (hends : ∀ i ∈ ends, i < lo')
    (hrest : g'.rxBytes = g.rxBytes ∧ g'.totalRxBytes = g.totalRxBytes ∧
      g'.contentPt = g.contentPt ∧ g'.bytesWritten = g.bytesWritten ∧ g'.writes = g.writes) :
  Placed s lo' o rx g'
  := by
  obtain ⟨hrx, htotal, hpt, hwritten, hwrites⟩ := hrest
  constructor
  case rxBytes => exact hrx.trans h.rxBytes
  case total => exact htotal.trans h.total
  case contentPt => exact hpt.trans h.contentPt
  case bytesWritten => exact hwritten.trans h.bytesWritten
  case writes => exact hwrites.trans h.writes
  case bound => exact h.bound
  case le => exact h.le
  case small => exact h.small
  case byte =>
    intro i hi hlt
    rw [hcuts.keep i (fun hmem => absurd (hends i hmem) (by omega))]
    exact h.byte i (by omega) hlt
  case clear =>
    intro i hi
    by_cases hmem : i ∈ ends
    · exact hcuts.zero i hmem
    · rw [hcuts.keep i hmem]
      exact h.clear i hi

/-- A read in the stages of the header that is longer than all bytes received so far brings its
bytes into place. -/
theorem Early.placed {g : Gfcrequest} {w rest : List UInt8} (h : Early g) (hs : s = w ++ rest)
    (hle : g.rxBytes ≤ w.length) (hw : w.length ≤ rdBufSize) :
  Placed s 0 w.length (g.rxBytes + w.length) (g.receive w)
  := by
  have hlong : g.rxBytes ≤ 2 * rdBufSize := by
    rw [rdBufSize_eq] at hw ⊢
    omega
  obtain ⟨hearly, hrx⟩ := h.receive hlong hw
  refine ⟨hrx, hearly.total.trans hrx, h.contentPt, h.bytesWritten, h.writes, hw, ?_, ?_, ?_, ?_⟩
  · omega
  · have hsmall := hearly.small
    omega
  · intro i _ hi
    rw [hs, List.getD_append _ _ _ _ hi]
    simp only [Gfcrequest.receive, h.contentPt]
    apply Buffer.store_byte_of_mem (Nat.zero_le i) (by rw [Nat.zero_add]; apply hi) (by omega)
  · intro i hi
    simp only [Gfcrequest.receive, h.contentPt]
    rw [Buffer.store_byte_of_not_mem (by omega)]
    apply h.clear i (by omega)

/-- The first read brings its bytes into place. -/
theorem placed_create {w rest : List UInt8} (hs : s = w ++ rest) (hw : w.length ≤ rdBufSize)
    (headerCallback : Bool) (next : ℕ) :
  Placed s 0 w.length w.length ((gfcCreate headerCallback next).receive w)
  := by
  have hrx : (gfcCreate headerCallback next).rxBytes = 0 := rfl
  have hplaced := (head_create headerCallback next).early.placed hs (by omega) hw
  rw [hrx, Nat.zero_add] at hplaced
  apply hplaced

/-- A read of at least seven bytes is accepted as the scheme. -/
theorem Placed.parse_scheme (hs : BeginsScheme s) {o rx : ℕ} {g : Gfcrequest}
    (h : Placed s 0 o rx g) (hsm : g.sm = .scheme) (ho : 7 ≤ o) :
  ∃ g', parseHeader g = parseHeader g' ∧ Placed s 8 o rx g' ∧ g'.sm = .method ∧ g'.headerPt = 8 ∧
    g'.next = min o 8 ∧ Cuts [7] g g'
  := by
  have hrun : RunsTo g.buffer space 0 7 := by
    constructor
    · omega
    · intro k _ hk
      rw [h.byte k (Nat.zero_le k) (by omega)]
      apply hs.word hk
    · by_cases hseven : o = 7
      · right
        apply h.clear
        omega
      · left
        rw [h.byte 7 (by omega) (by omega)]
        apply hs 7 (by decide)
  have hmatch : g.buffer.strncmp 0 (ascii "GETFILE") = true := by
    rw [Buffer.strncmp_iff]
    intro j hj
    have hj7 : j < 7 := hj
    rw [Nat.zero_add, h.byte j (Nat.zero_le j) (by omega), hs j (by omega)]
    have hall : ∀ k (hk : k < 7), (ascii "GETFILE ").getD k 0 = (ascii "GETFILE")[k] := by decide
    apply hall j hj7
  have hcase := parseScheme_cases g
  rw [parseHeader_of_scheme hsm]
  generalize parseScheme g = x at hcase ⊢
  cases hcase with
  | wait short =>
      have hrx := h.rxBytes
      have hle := h.le
      omega
  | reject enough ne sm writes =>
      rw [hmatch] at ne
      cases ne
  | @accept t e enough eq token call =>
      obtain ⟨skips, runs, -, -, -⟩ := call.range token
      obtain rfl := RunsTo.unique runs hrun
      obtain ⟨hzero, hkeep⟩ := call.ends token
      have hnext : t.next = min o 8 := by
        rcases call.resumes token with ⟨zero, hnext⟩ | ⟨delim, hnext⟩
        · by_contra hne
          rw [h.byte 7 (by omega) (by omega), hs 7 (by decide)] at zero
          revert zero
          decide
        · by_contra hne
          rw [h.clear 7 (by omega)] at delim
          apply space_ne_zero delim.symm
      dsimp only
      rw [if_neg (by decide)]
      have hcuts : Cuts [7] g
          { g with buffer := t.buffer, next := t.next, headerPt := 7 + 1, sm := .method } := by
        constructor
        case headers => rfl
        case headerCallback => rfl
        case zero =>
          intro i hi
          rw [List.mem_singleton.mp hi]
          exact hzero
        case keep =>
          intro i hi
          exact hkeep i (by simpa using hi)
      refine ⟨_, rfl, ?_, rfl, rfl, hnext, hcuts⟩
      exact h.of_cuts hcuts (by decide) (by decide) ⟨rfl, rfl, rfl, rfl, rfl⟩

/-- A word in place behind the scheme and followed by a space is the token with which `strtok` goes
on. -/
theorem Placed.strtok {o rx e : ℕ} {g : Gfcrequest} (h : Placed s 8 o rx g)
    (hword : ∀ k, 8 ≤ k → k < e → s.getD k 0 ≠ CString.space ∧ s.getD k 0 ≠ 0)
    (hspace : s.getD e 0 = CString.space) (hlow : 8 < e) (ho : e < o) :
  CString.strtok g.memory CString.space 8 = ⟨some (8, e), g.memory.terminate e, e + 1⟩
  := by
  have hbound := h.bound
  have hbyte : ∀ i, 8 ≤ i → i < o → g.memory.byte i = s.getD i 0 := by
    intro i hi hlt
    rw [memory_byte (by omega), h.byte i hi hlt]
  have hstop : g.memory.byte e = CString.space := by
    rw [hbyte e (by omega) ho, hspace]
  have hrun : RunsTo g.memory CString.space 8 e := by
    constructor
    · omega
    · intro k hk hlt
      rw [hbyte k hk (by omega)]
      exact hword k hk hlt
    · left
      exact hstop
  exact strtok_cut space_ne_zero (SkipsTo.refl (hrun.run 8 le_rfl hlow).1) hrun hlow hstop

/-- Twelve bytes in place or more are accepted as the scheme and the status `OK`. -/
theorem Placed.parse_method (hs : Begins ds spaces s) {o rx : ℕ} {g : Gfcrequest}
    (h : Placed s 8 o rx g) (hsm : g.sm = .method) (hpt : g.headerPt = 8) (hnext : g.next = 8)
    (ho : 12 ≤ o) :
  ∃ g', parseHeader g = parseHeader g' ∧ Placed s 11 o rx g' ∧ g'.sm = .length ∧ g'.headerPt = 11 ∧
    g'.lengthStartIdx = 11 ∧ g'.status = .ok ∧ Cuts [10] g g'
  := by
  have hbound := h.bound
  rw [rdBufSize_eq] at hbound
  have hrx := h.rxBytes
  have hle := h.le
  have hsmall := h.small
  rw [rdBufSize_eq] at hsmall
  have hsub : unsignedSub g.rxBytes g.headerPt = rx - 8 := by
    rw [hrx, hpt, unsignedSub]
    omega
  have htoken := h.strtok (fun k hk hlt => hs.word ⟨hk, hlt⟩) (hs.head 10 (by decide)) (by decide)
    (by omega)
  have hslice : (g.memory.terminate 10).slice 8 2 = ascii "OK" := by
    apply Buffer.slice_eq
    · rfl
    · intro j hj
      have hj : j < 2 := hj
      rw [Buffer.terminate_byte_of_ne _ (by omega), memory_byte (by rw [rdBufSize_eq]; omega),
        h.byte _ (by omega) (by omega), hs.head _ (by omega)]
      interval_cases j
      · rfl
      · rfl
  have hfield : (g.setMemory (g.memory.terminate 10)).headerPt = 8 :=
    (headerPt_setMemory_terminate (by omega) (by decide)).trans hpt
  have hok : parseOk g =
      (g.resumed ⟨some (8, 10), g.memory.terminate 10, 11⟩).accepted := by
    rw [parseOk, if_pos (by rw [hsub, okSz_eq]; omega)]
    simp only [hnext, htoken, hslice, ↓reduceIte, Gfcrequest.accepted, Gfcrequest.resumed]
  have hpt' : (g.resumed ⟨some (8, 10), g.memory.terminate 10, 11⟩).headerPt = 8 := hfield
  rw [parseHeader_of_method hsm, parseMethod, hok]
  generalize hg : g.resumed ⟨some (8, 10), g.memory.terminate 10, 11⟩ = g' at hpt'
  have hfailure : parseFailure g'.accepted = g'.accepted := by
    rw [parseFailure, if_neg (by simp [Gfcrequest.accepted])]
  rw [hfailure, if_neg (by simp [Gfcrequest.accepted])]
  have hcut : Cuts [10] g g' := by
    rw [← hg]
    constructor
    case headers => rfl
    case headerCallback => rfl
    case zero =>
      intro i hi
      rw [List.mem_singleton.mp hi]
      calc (g.setMemory (g.memory.terminate 10)).buffer.byte 10
          = (g.buffer.terminate 10).byte 10 := setMemory_terminate_byte 10 10
        _ = 0 := Buffer.terminate_byte_self _ 10
    case keep =>
      intro i hi
      calc (g.setMemory (g.memory.terminate 10)).buffer.byte i
          = (g.buffer.terminate 10).byte i := setMemory_terminate_byte 10 i
        _ = g.buffer.byte i := Buffer.terminate_byte_of_ne _ (by simpa using hi)
  have hrest : g'.rxBytes = g.rxBytes ∧ g'.totalRxBytes = g.totalRxBytes ∧
      g'.contentPt = g.contentPt ∧ g'.bytesWritten = g.bytesWritten ∧ g'.writes = g.writes := by
    rw [← hg]
    exact ⟨rfl, rfl, rfl, rfl, rfl⟩
  have hcuts : Cuts [10] g g'.accepted := ⟨hcut.headers, hcut.headerCallback, hcut.zero, hcut.keep⟩
  refine ⟨_, rfl, h.of_cuts hcuts (by decide) (by decide) hrest, rfl, ?_, ?_, rfl, hcuts⟩
  · simp only [Gfcrequest.accepted, hpt']
  · simp only [Gfcrequest.accepted, hpt']

/-- The digits in place and the byte behind them are accepted as the length. -/
theorem Placed.parse_length (hs : Begins ds spaces s) (hds : ∀ c ∈ ds, isDigit c = true) {o rx : ℕ}
    {g : Gfcrequest} (h : Placed s 11 o rx g) (hsm : g.sm = .length) (hpt : g.headerPt = 11)
    (ho : 11 + ds.length < o) :
  ∃ g', parseHeader g = parsePath g' ∧ Placed s 11 o rx g' ∧ g'.headerPt = 11 + ds.length ∧
    g'.lengthStartIdx = g.lengthStartIdx ∧ g'.status = g.status ∧ Cuts [] g g'
  := by
  have hrx := h.rxBytes
  have hle := h.le
  have hstops : g.DigitsTo (11 + ds.length) := by
    constructor
    · omega
    · omega
    · intro k hk hlt
      have hdigit := hs.digit (k - 11) (by omega)
      rw [Nat.add_sub_cancel' (by omega)] at hdigit
      rw [h.byte k (by omega) (by omega), hdigit, List.getD_eq_getElem _ _ (by omega)]
      apply hds
      apply List.getElem_mem
    · intro _
      rw [h.byte _ (by omega) ho]
      apply hs.behind_digits
  have hlength : parseLength g = { g with headerPt := 11 + ds.length, sm := .path } := by
    obtain ⟨j, hj, ⟨hbehind, -⟩ | ⟨-, heq⟩⟩ := parseLength_cases g
    · have hunique := hj.unique hstops
      omega
    · rw [heq, hj.unique hstops]
  rw [parseHeader_of_length hsm, hlength]
  dsimp only
  rw [if_neg (by decide)]
  have hcuts : Cuts [] g { g with headerPt := 11 + ds.length, sm := .path } :=
    ⟨rfl, rfl, nofun, fun _ _ => rfl⟩
  exact ⟨_, rfl, h.of_cuts hcuts le_rfl nofun ⟨rfl, rfl, rfl, rfl, rfl⟩, rfl, rfl, rfl, hcuts⟩

/-- What `parse_path` reads from the digits in place. -/
theorem Placed.lengthRead (hs : Begins ds spaces s) (hds : ∀ c ∈ ds, isDigit c = true) {o rx : ℕ}
    {g : Gfcrequest} (h : Placed s 11 o rx g) (hpt : g.headerPt = 11 + ds.length)
    (hstart : g.lengthStartIdx = 11) (ho : 11 + ds.length ≤ o) :
  g.lengthRead = (atoi ds % 2 ^ 32).toNat
  := by
  have hslice : g.buffer.slice 11 ds.length = ds := by
    apply Buffer.slice_eq rfl
    intro j hj
    rw [h.byte _ (by omega) (by omega), hs.digit j hj, List.getD_eq_getElem _ _ hj]
  have htext : g.buffer.strndup 11 ds.length = ds := by
    rw [Buffer.strndup, hslice, List.takeWhile_eq_self_iff]
    intro c hc
    have hne := (not_isSpace_of_isDigit (hds c hc)).2.2.2
    simpa using hne
  rw [Gfcrequest.lengthRead, hpt, hstart, Nat.add_sub_cancel_left, htext]

/-- The end marker in place is accepted. -/
theorem Placed.parse_path (hs : Begins ds spaces s) {o rx : ℕ} {g : Gfcrequest}
    (h : Placed s 11 o rx g) (hpt : g.headerPt = 11 + ds.length)
    (ho : ds.length + spaces + 15 ≤ o) :
  parsePath g = (0, (g.measured (11 + ds.length + spaces)).entered)
  := by
  have hrx := h.rxBytes
  have hle := h.le
  have hbound := h.bound
  have hsmall := h.small
  rw [rdBufSize_eq] at hbound hsmall
  have hstops : g.SpacesTo (11 + ds.length + spaces) := by
    constructor
    · omega
    · rw [rdBufSize_eq]
      omega
    · intro k hk hlt
      have hspace := hs.space (k - (11 + ds.length)) (by omega)
      rw [Nat.add_sub_cancel' (by omega)] at hspace
      rw [h.byte k (by omega) (by omega), hspace]
      rfl
    · intro _
      have hcr := hs.marker 0 (by decide)
      rw [Nat.add_zero] at hcr
      rw [h.byte _ (by omega) (by omega), hcr]
      rfl
  have hmarker : g.buffer.strncmp (11 + ds.length + spaces) (ascii "\r\n\r\n") = true := by
    rw [Buffer.strncmp_iff]
    intro j hj
    have hj4 : j < 4 := hj
    rw [h.byte _ (by omega) (by omega), hs.marker j hj4, List.getD_eq_getElem _ _ hj]
  have hsub : unsignedSub g.rxBytes (11 + ds.length + spaces) =
      rx - (11 + ds.length + spaces) := by
    rw [hrx, unsignedSub]
    omega
  obtain ⟨j, hj, hcase⟩ := parsePath_cases g
  obtain rfl := hj.unique hstops
  generalize parsePath g = x at hcase
  cases hcase with
  | wait short => omega
  | reject ne sm writes =>
      rw [hmarker] at ne
      cases ne
  | enter enough marker => rfl

/-- A header in place is taken apart in one round. -/
theorem Placed.parse_header (hs : Begins ds spaces s) (hne : ds ≠ [])
    (hds : ∀ c ∈ ds, isDigit c = true) {o rx : ℕ} {g : Gfcrequest} (h : Placed s 0 o rx g)
    (hsm : g.sm = .scheme) (ho : ds.length + spaces + 15 ≤ o) :
  ∃ g', parseHeader g = (0, (g'.measured (11 + ds.length + spaces)).entered) ∧
    Placed s 11 o rx g' ∧ g'.lengthRead = (atoi ds % 2 ^ 32).toNat ∧ g'.status = .ok ∧
    Cuts [7, 10] g g'
  := by
  have hpos := List.length_pos_iff.mpr hne
  obtain ⟨g₁, hparse₁, h₁, hsm₁, hpt₁, hnext₁, hcuts₁⟩ :=
    h.parse_scheme hs.scheme hsm (by omega)
  rw [Nat.min_eq_right (by omega)] at hnext₁
  obtain ⟨g₂, hparse₂, h₂, hsm₂, hpt₂, hstart₂, hstatus₂, hcuts₂⟩ :=
    h₁.parse_method hs hsm₁ hpt₁ hnext₁ (by omega)
  obtain ⟨g₃, hparse₃, h₃, hpt₃, hstart₃, hstatus₃, hcuts₃⟩ :=
    h₂.parse_length hs hds hsm₂ hpt₂ (by omega)
  refine ⟨g₃, ?_, h₃, ?_, hstatus₃.trans hstatus₂, (hcuts₁.trans hcuts₂).trans hcuts₃⟩
  · rw [hparse₁, hparse₂, hparse₃]
    apply h₃.parse_path hs hpt₃ ho
  · apply h₃.lengthRead hs hds hpt₃ (hstart₃.trans hstart₂)
    omega

/-- The parsers have taken a header of `size` bytes of a file of `len` bytes apart, and the
bytes `first` behind it wait for `parse_content`. -/
structure Behind (len size : ℕ) (first : List UInt8) (g : Gfcrequest) : Prop where
  sm : g.sm = .content
  status : g.status = .ok
  fileLength : g.fileLength = len
  headerPt : g.headerPt = size
  contentPt : g.contentPt = size
  rxBytes : g.rxBytes = size + first.length
  bound : size + first.length ≤ rdBufSize
  total : g.totalRxBytes = first.length
  bytesWritten : g.bytesWritten = 0
  writes : g.writes = []
  waiting : g.waiting = first

/-- The header with terminators instead of the two spaces in front of the length, as the
tokenizer leaves it. -/
def cutHeader (ds : List UInt8) (spaces : ℕ) : List UInt8 :=
  ((okHeader ds spaces).set 7 0).set 10 0

theorem length_cutHeader (ds : List UInt8) (spaces : ℕ) :
  (cutHeader ds spaces).length = (okHeader ds spaces).length
  := by
  rw [cutHeader, List.length_set, List.length_set]

/-- The header callback is given the header as the tokenizer has left it. -/
theorem Cuts.entered {first : List UInt8} {g g' : Gfcrequest} (h : Cuts [7, 10] g g')
    (hplaced : Placed (okHeader ds spaces ++ first) 0 (okHeader ds spaces ++ first).length
      (okHeader ds spaces ++ first).length g) (hheaders : g.headers = [])
    {headerCallback : Bool} (hcallback : g.headerCallback = headerCallback) :
  ((g'.measured (11 + ds.length + spaces)).entered).headers
    = if headerCallback then [cutHeader ds spaces] else []
  := by
  have hsize := length_okHeader ds spaces
  have hlength := length_cutHeader ds spaces
  have hend : 11 + ds.length + spaces + endSeq = (okHeader ds spaces).length := by
    rw [hsize, endSeq_eq]
    omega
  have hslice : g'.buffer.slice 0 (okHeader ds spaces).length = cutHeader ds spaces := by
    apply Buffer.slice_eq hlength
    intro j hj
    rw [hlength] at hj
    have hbyte : g.buffer.byte j = (okHeader ds spaces)[j] := by
      rw [hplaced.byte j (Nat.zero_le j) (by rw [List.length_append]; omega),
        List.getD_append _ _ _ _ hj, List.getD_eq_getElem _ _ hj]
    rw [Nat.zero_add]
    simp only [cutHeader, List.getElem_set]
    by_cases hj' : j ∈ [7, 10]
    · rw [h.zero j hj']
      simp only [List.mem_cons, List.not_mem_nil, or_false] at hj'
      rcases hj' with rfl | rfl
      · rfl
      · rfl
    · rw [h.keep j hj', hbyte]
      simp only [List.mem_cons, List.not_mem_nil, or_false, not_or] at hj'
      rw [if_neg (by omega), if_neg (by omega)]
  simp only [Gfcrequest.entered, Gfcrequest.measured, h.headerCallback, h.headers, hheaders,
    hcallback, hend, hslice, List.nil_append]

/-- When the first read brings the whole header, the parsers take it apart in the same
round. -/
theorem parse_header_digits {first : List UInt8} (hne : ds ≠ [])
    (hds : ∀ c ∈ ds, isDigit c = true)
    (hbound : (okHeader ds spaces ++ first).length ≤ rdBufSize) (headerCallback : Bool)
    (next : ℕ) :
  ∃ g, parseHeader ((gfcCreate headerCallback next).receive (okHeader ds spaces ++ first)) =
      (0, g) ∧ Behind (atoi ds % 2 ^ 32).toNat (okHeader ds spaces).length first g ∧
    g.headers = if headerCallback then [cutHeader ds spaces] else []
  := by
  have hsize := length_okHeader ds spaces
  have hlength : (okHeader ds spaces ++ first).length = (okHeader ds spaces).length + first.length :=
    List.length_append
  have hplaced := placed_create (List.append_nil _).symm hbound headerCallback next
  obtain ⟨g, hparse, h, hread, hstatus, hcuts⟩ :=
    hplaced.parse_header (begins_okHeader ds spaces first) hne hds rfl (by omega)
  refine ⟨_, hparse, ?_, hcuts.entered hplaced rfl rfl⟩
  have htotal := h.total
  have hrx := h.rxBytes
  rw [rdBufSize_eq] at hbound
  have hend : 11 + ds.length + spaces + endSeq = (okHeader ds spaces).length := by
    rw [hsize, endSeq_eq]
    omega
  constructor
  · rfl
  · apply hstatus
  · apply hread
  · apply hend
  · apply hend
  · simp only [Gfcrequest.entered, Gfcrequest.measured]
    omega
  · rw [rdBufSize_eq]
    omega
  · simp only [Gfcrequest.entered, Gfcrequest.measured, hend, htotal, unsignedSub]
    omega
  · apply h.bytesWritten
  · apply h.writes
  · simp only [Gfcrequest.waiting, Gfcrequest.entered, Gfcrequest.measured, hend]
    apply Buffer.slice_eq
    · omega
    · intro j hj
      rw [h.byte _ (by omega) (by omega),
        List.getD_append_right _ _ _ _ (Nat.le_add_right _ _), Nat.add_sub_cancel_left,
        List.getD_eq_getElem _ _ hj]

/-- The same for a header that announces a length. -/
theorem parse_header {len : ℕ} {first : List UInt8} (hlen : Announces ds len)
    (hbound : (okHeader ds spaces ++ first).length ≤ rdBufSize) (headerCallback : Bool)
    (next : ℕ) :
  ∃ g, parseHeader ((gfcCreate headerCallback next).receive (okHeader ds spaces ++ first)) =
      (0, g) ∧ Behind len (okHeader ds spaces).length first g
  := by
  obtain ⟨g, hparse, hbehind, -⟩ :=
    parse_header_digits hlen.ne_nil hlen.digits hbound headerCallback next
  rw [hlen.read] at hbehind
  exact ⟨g, hparse, hbehind⟩

end

end GetFile.Client
