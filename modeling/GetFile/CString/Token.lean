import GetFile.CString.Buffer

/-!
# `strtok`

`strtok b d i` is the tokenizer of the C library, resumed at index `i` of `b` with the
single delimiter `d`: it skips delimiters, ends the token at the next delimiter or
terminator, overwrites that delimiter by a terminator and remembers where to resume. The
lemmas `strtok_none`, `strtok_last` and `strtok_cut` compute it in its three cases, and
`strtok_cases` says that there are no others.
-/

namespace CString

variable {size : ℕ}

/-- The index of the first byte from `i` on that is not the delimiter `d`. -/
def tokenStart (b : Buffer size) (d : UInt8) (i : ℕ) : ℕ :=
  scan (fun c => c == d) b.byte (size - i) i

/-- The index of the first delimiter or terminator from `s` on. -/
def tokenStop (b : Buffer size) (d : UInt8) (s : ℕ) : ℕ :=
  scan (fun c => c != d && c != 0) b.byte (size - s) s

/-- What `strtok` returns and leaves behind: the range of the token, if there is one, the
buffer, and the index at which the next call resumes. -/
structure Tokenized (size : ℕ) where
  token : Option (ℕ × ℕ)
  buffer : Buffer size
  next : ℕ

/-- One call of `strtok` with the delimiter `d`, resumed at index `i`. -/
def strtok (b : Buffer size) (d : UInt8) (i : ℕ) : Tokenized size :=
  let s := tokenStart b d i
  let e := tokenStop b d s
  if b.byte s = 0 then ⟨none, b, s⟩
  else if b.byte e = 0 then ⟨some (s, e), b, e⟩
  else ⟨some (s, e), b.terminate e, e + 1⟩

variable {b : Buffer size} {d : UInt8} {i s e : ℕ}

/-- From `i`, the bytes before `s` are delimiters and the byte at `s` is not. -/
structure SkipsTo (b : Buffer size) (d : UInt8) (i s : ℕ) : Prop where
  le : i ≤ s
  skip : ∀ k, i ≤ k → k < s → b.byte k = d
  ne : b.byte s ≠ d

/-- From `s`, the bytes before `e` belong to the token and the byte at `e` does not. -/
structure RunsTo (b : Buffer size) (d : UInt8) (s e : ℕ) : Prop where
  le : s ≤ e
  run : ∀ k, s ≤ k → k < e → b.byte k ≠ d ∧ b.byte k ≠ 0
  stop : b.byte e = d ∨ b.byte e = 0

/-- A byte that is not the delimiter is where `strtok` starts a token. -/
theorem SkipsTo.refl (h : b.byte i ≠ d) :
  SkipsTo b d i i
  := by
  constructor
  · apply le_rfl
  · intro k hk hki
    omega
  · apply h

/-- There is only one index at which `strtok` starts a token. -/
theorem SkipsTo.unique {s' : ℕ} (h : SkipsTo b d i s) (h' : SkipsTo b d i s') :
  s = s'
  := by
  by_contra hne
  rcases Nat.lt_or_gt_of_ne hne with hlt | hlt
  · apply h.ne
    apply h'.skip s h.le hlt
  · apply h'.ne
    apply h.skip s' h'.le hlt

/-- There is only one index at which `strtok` ends a token. -/
theorem RunsTo.unique {e' : ℕ} (h : RunsTo b d s e) (h' : RunsTo b d s e') :
  e = e'
  := by
  by_contra hne
  rcases Nat.lt_or_gt_of_ne hne with hlt | hlt
  · have hrun := h'.run e h.le hlt
    rcases h.stop with hstop | hstop
    · apply hrun.1 hstop
    · apply hrun.2 hstop
  · have hrun := h.run e' h'.le hlt
    rcases h'.stop with hstop | hstop
    · apply hrun.1 hstop
    · apply hrun.2 hstop

theorem tokenStart_spec (hd : d ≠ 0) (hi : i ≤ size) :
  SkipsTo b d i (tokenStart b d i)
  := by
  have h := scan_spec (p := fun c => c == d) (m := b.byte) (size - i) i
  constructor
  · apply h.le
  · intro k hik hk
    simpa using h.pass k hik hk
  · by_cases hlt : tokenStart b d i < i + (size - i)
    · simpa [tokenStart] using h.fail hlt
    · rw [b.zero_of_le _ (by omega)]
      apply hd.symm

theorem tokenStop_spec (hs : s ≤ size) :
  RunsTo b d s (tokenStop b d s)
  := by
  have h := scan_spec (p := fun c => c != d && c != 0) (m := b.byte) (size - s) s
  constructor
  · apply h.le
  · intro k hsk hk
    simpa using h.pass k hsk hk
  · by_cases hlt : tokenStop b d s < s + (size - s)
    · have hfail := h.fail hlt
      simp only [Bool.and_eq_false_iff, bne_eq_false_iff_eq] at hfail
      apply hfail
    · right
      apply b.zero_of_le _ (by omega)

theorem tokenStart_eq (hs : s ≤ size) (h : SkipsTo b d i s) :
  tokenStart b d i = s
  := by
  apply scan_eq
  constructor
  · apply h.le
  · omega
  · intro k hik hk
    simpa using h.skip k hik hk
  · intro _
    simpa using h.ne

theorem tokenStop_eq (he : e ≤ size) (h : RunsTo b d s e) :
  tokenStop b d s = e
  := by
  apply scan_eq
  constructor
  · apply h.le
  · have := h.le
    omega
  · intro k hsk hk
    simpa using h.run k hsk hk
  · intro _
    simp only [Bool.and_eq_false_iff, bne_eq_false_iff_eq]
    apply h.stop

/-- There is no token when only delimiters stand before the next terminator. -/
theorem strtok_none (hs : s ≤ size) (h : SkipsTo b d i s) (hzero : b.byte s = 0) :
  strtok b d i = ⟨none, b, s⟩
  := by
  simp only [strtok]
  rw [tokenStart_eq hs h, if_pos hzero]

/-- The last token of a string ends at the terminator, where the next call resumes. -/
theorem strtok_last (h : SkipsTo b d i s) (h' : RunsTo b d s e) (hse : s < e)
    (he : e ≤ size) (hzero : b.byte e = 0) :
  strtok b d i = ⟨some (s, e), b, e⟩
  := by
  simp only [strtok]
  rw [tokenStart_eq (by omega) h, tokenStop_eq he h', if_neg (h'.run s le_rfl hse).2,
    if_pos hzero]

/-- A token followed by a delimiter is cut off there, and the next call resumes behind it. -/
theorem strtok_cut (hd : d ≠ 0) (h : SkipsTo b d i s) (h' : RunsTo b d s e) (hse : s < e)
    (hdelim : b.byte e = d) :
  strtok b d i = ⟨some (s, e), b.terminate e, e + 1⟩
  := by
  have he : b.byte e ≠ 0 := by
    rw [hdelim]
    apply hd
  have hlt := Buffer.lt_of_ne_zero he
  simp only [strtok]
  rw [tokenStart_eq (by omega) h, tokenStop_eq (by omega) h', if_neg (h'.run s le_rfl hse).2,
    if_neg he]

/-- The three things a call of `strtok` can do. -/
inductive StrtokCase (b : Buffer size) (d : UInt8) (i : ℕ) : Tokenized size → Prop where
  | none {s : ℕ} (skips : SkipsTo b d i s) (zero : b.byte s = 0) (bound : s ≤ size) :
      StrtokCase b d i ⟨.none, b, s⟩
  | last {s e : ℕ} (skips : SkipsTo b d i s) (runs : RunsTo b d s e) (lt : s < e)
      (zero : b.byte e = 0) (bound : e ≤ size) : StrtokCase b d i ⟨some (s, e), b, e⟩
  | cut {s e : ℕ} (skips : SkipsTo b d i s) (runs : RunsTo b d s e) (lt : s < e)
      (delim : b.byte e = d) (bound : e < size) :
      StrtokCase b d i ⟨some (s, e), b.terminate e, e + 1⟩

/-- Every call of `strtok` is in one of the three cases. -/
theorem strtok_cases (hd : d ≠ 0) (hi : i ≤ size) :
  StrtokCase b d i (strtok b d i)
  := by
  have hstart := tokenStart_spec (b := b) hd hi
  have hsize : tokenStart b d i ≤ size := by
    have h := (scan_spec (p := fun c => c == d) (m := b.byte) (size - i) i).le_fuel
    simp only [tokenStart]
    omega
  have hstop := tokenStop_spec (b := b) (d := d) hsize
  by_cases hs : b.byte (tokenStart b d i) = 0
  · rw [strtok_none hsize hstart hs]
    apply StrtokCase.none hstart hs hsize
  · have hlt : tokenStart b d i < tokenStop b d (tokenStart b d i) := by
      apply lt_of_le_of_ne hstop.le
      intro heq
      rcases hstop.stop with h | h
      · apply hstart.ne
        rw [heq, h]
      · apply hs
        rw [heq, h]
    by_cases he : b.byte (tokenStop b d (tokenStart b d i)) = 0
    · have hbound : tokenStop b d (tokenStart b d i) ≤ size := by
        have h := (hstop.run (tokenStop b d (tokenStart b d i) - 1) (by omega) (by omega)).2
        have := Buffer.lt_of_ne_zero h
        omega
      rw [strtok_last hstart hstop hlt hbound he]
      apply StrtokCase.last hstart hstop hlt he hbound
    · have hdelim := hstop.stop.resolve_right he
      rw [strtok_cut hd hstart hstop hlt hdelim]
      apply StrtokCase.cut hstart hstop hlt hdelim (Buffer.lt_of_ne_zero he)

/-- `strtok` resumes inside the array or at its end. -/
theorem StrtokCase.next_le {t : Tokenized size} (h : StrtokCase b d i t) :
  t.next ≤ size
  := by
  cases h with
  | none skips zero bound => apply bound
  | last skips runs lt zero bound => apply bound
  | cut skips runs lt delim bound => apply bound

/-- `strtok` never goes back. -/
theorem StrtokCase.le_next {t : Tokenized size} (h : StrtokCase b d i t) :
  i ≤ t.next
  := by
  cases h with
  | none skips zero bound => apply skips.le
  | last skips runs lt zero bound => apply le_trans skips.le runs.le
  | cut skips runs lt delim bound => apply le_trans skips.le (le_trans runs.le (Nat.le_succ _))

/-- Where `strtok` resumes at a terminator there is no token. -/
theorem StrtokCase.token_of_zero {t : Tokenized size} (hd : d ≠ 0) (h : StrtokCase b d i t)
    (hzero : b.byte i = 0) :
  t.token = Option.none
  := by
  have hstart : ∀ s, SkipsTo b d i s → s = i := by
    intro s hs
    by_contra hne
    have := hs.skip i le_rfl (by have := hs.le; omega)
    rw [hzero] at this
    apply hd this.symm
  cases h with
  | none skips zero bound => rfl
  | last skips runs lt zero bound =>
      obtain rfl := hstart _ skips
      apply absurd hzero (runs.run _ le_rfl lt).2
  | cut skips runs lt delim bound =>
      obtain rfl := hstart _ skips
      apply absurd hzero (runs.run _ le_rfl lt).2

/-- A token that ends at the end of the array leaves the next call at a terminator. -/
theorem StrtokCase.zero_of_full {t : Tokenized size} (h : StrtokCase b d i t) {s : ℕ}
    (htoken : t.token = some (s, size)) :
  t.buffer.byte t.next = 0
  := by
  cases h with
  | none => cases htoken
  | last _ _ _ zero _ =>
      cases htoken
      apply zero
  | cut _ _ _ _ bound =>
      cases htoken
      omega

/-- The range of a token: it starts where `strtok` resumed or later, is not empty, holds
no delimiter or terminator, lies in the array and ends at or before the next resumption. -/
theorem StrtokCase.range {t : Tokenized size} (h : StrtokCase b d i t) {s e : ℕ}
    (htoken : t.token = some (s, e)) :
  SkipsTo b d i s ∧ RunsTo b d s e ∧ s < e ∧ e ≤ size ∧ e ≤ t.next
  := by
  cases h with
  | none => cases htoken
  | last skips runs lt zero bound =>
      cases htoken
      exact ⟨skips, runs, lt, bound, le_rfl⟩
  | cut skips runs lt delim bound =>
      cases htoken
      exact ⟨skips, runs, lt, by omega, Nat.le_succ _⟩

/-- `strtok` ends the token by a terminator and changes nothing else. -/
theorem StrtokCase.ends {t : Tokenized size} (h : StrtokCase b d i t) {s e : ℕ}
    (htoken : t.token = some (s, e)) :
  t.buffer.byte e = 0 ∧ ∀ k, k ≠ e → t.buffer.byte k = b.byte k
  := by
  cases h with
  | none => cases htoken
  | last skips runs lt zero bound =>
      cases htoken
      exact ⟨zero, fun _ _ => rfl⟩
  | cut skips runs lt delim bound =>
      cases htoken
      exact ⟨Buffer.terminate_byte_self b e, fun _ hk => Buffer.terminate_byte_of_ne b hk⟩

/-- The next call resumes at the terminator behind the token or behind the delimiter. -/
theorem StrtokCase.resumes {t : Tokenized size} (h : StrtokCase b d i t) {s e : ℕ}
    (htoken : t.token = some (s, e)) :
  (b.byte e = 0 ∧ t.next = e) ∨ (b.byte e = d ∧ t.next = e + 1)
  := by
  cases h with
  | none => cases htoken
  | last skips runs lt zero bound =>
      cases htoken
      exact Or.inl ⟨zero, rfl⟩
  | cut skips runs lt delim bound =>
      cases htoken
      exact Or.inr ⟨delim, rfl⟩

/-- From where the next call resumes on nothing has changed. -/
theorem StrtokCase.behind {t : Tokenized size} (h : StrtokCase b d i t) {k : ℕ}
    (hk : t.next ≤ k) :
  t.buffer.byte k = b.byte k
  := by
  cases h with
  | none => rfl
  | last => rfl
  | cut => exact Buffer.terminate_byte_of_ne b (Nat.ne_of_gt hk)

/-- `strtok` only overwrites bytes by terminators. -/
theorem StrtokCase.byte {t : Tokenized size} (h : StrtokCase b d i t) (k : ℕ) :
  t.buffer.byte k = b.byte k ∨ t.buffer.byte k = 0
  := by
  cases h with
  | none _ _ _ => left; rfl
  | last _ _ _ _ _ => left; rfl
  | @cut s e _ _ _ _ _ =>
      by_cases h : k = e
      · right
        rw [h]
        apply Buffer.terminate_byte_self
      · left
        apply Buffer.terminate_byte_of_ne b h

/-- Whether the buffer begins with a literal without delimiter and terminator does not change
when `strtok` cuts off the first word. -/
theorem strncmp_strtok {l : List UInt8} {t : Tokenized size} (hd : d ∉ l) (h0 : 0 ∉ l)
    (h : StrtokCase b d 0 t) :
  t.buffer.strncmp 0 l = b.strncmp 0 l
  := by
  cases h with
  | none skips zero bound => rfl
  | last skips runs lt zero bound => rfl
  | @cut s e skips runs lt delim bound =>
      rw [Bool.eq_iff_iff, Buffer.strncmp_iff, Buffer.strncmp_iff]
      constructor
      · intro h j hj
        have hne : 0 + j ≠ e := by
          rintro rfl
          have hzero := h j hj
          rw [Buffer.terminate_byte_self] at hzero
          apply h0
          rw [hzero]
          apply List.getElem_mem hj
        rw [← h j hj]
        apply (Buffer.terminate_byte_of_ne b hne).symm
      · intro h j hj
        have hne : 0 + j ≠ e := by
          rintro rfl
          apply hd
          rw [← delim, h j hj]
          apply List.getElem_mem hj
        rw [← h j hj]
        apply Buffer.terminate_byte_of_ne b hne

/-- The text of a token does not change when `strtok` cuts it off. -/
theorem slice_strtok {t : Tokenized size} (h : StrtokCase b d i t)
    (htoken : t.token = some (s, e)) :
  t.buffer.slice s (e - s) = b.slice s (e - s)
  := by
  cases h with
  | none => cases htoken
  | last => rfl
  | cut skips runs lt delim bound =>
      cases htoken
      apply Buffer.slice_congr
      intro j _ hj
      apply Buffer.terminate_byte_of_ne b (by omega)

end CString
