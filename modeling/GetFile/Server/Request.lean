import GetFile.Server.Opening

/-!
# Server: requests

The streams that begin with the scheme, the method and a word, and the request that `send_request`
writes for a path, byte by byte. It opens as `Opens` says, and behind its path only blanks follow.
-/

namespace GetFile.Server

open CString Transition

/-- A stream that begins with the scheme, the method and the word `q`. -/
def whole (q rest : List UInt8) : List UInt8 :=
  ascii "GETFILE GET " ++ q ++ rest

section

variable {q rest : List UInt8}

theorem length_whole :
  (whole q rest).length = 12 + q.length + rest.length
  := by
  rw [whole, List.length_append, List.length_append]
  rfl

theorem heads_whole (q rest : List UInt8) :
  Heads (whole q rest)
  := by
  intro i hi
  rw [whole, List.append_assoc, List.getD_append _ _ _ _ hi]

/-- The bytes of the word. -/
theorem whole_word {i : ℕ} (hi : i < q.length) :
  (whole q rest).getD (12 + i) 0 = q[i]
  := by
  have hhead : (ascii "GETFILE GET ").length = 12 := rfl
  have hlength : 12 + i < (ascii "GETFILE GET " ++ q).length := by
    rw [List.length_append, hhead]
    omega
  rw [whole, List.getD_append _ _ _ _ hlength, List.getD_append_right _ _ _ _ (by omega), hhead,
    Nat.add_sub_cancel_left, List.getD_eq_getElem q 0 hi]

/-- The byte behind the word. -/
theorem whole_behind :
  (whole q rest).getD (12 + q.length) 0 = rest.getD 0 0
  := by
  have hlength : (ascii "GETFILE GET " ++ q).length = 12 + q.length := by
    rw [List.length_append]
    rfl
  rw [whole, List.getD_append_right _ _ _ _ (by omega), hlength, Nat.sub_self]

end

/-- The request that `send_request` writes for a path. -/
def request (p : List UInt8) : List UInt8 :=
  ascii "GETFILE GET " ++ p ++ ascii " \r\n\r\n"

/-- A path that a request can carry. -/
structure IsPath (p : List UInt8) : Prop where
  ne_nil : p ≠ []
  length_le : p.length ≤ 256
  word : ∀ c ∈ p, ¬ Blank c

section

variable {p : List UInt8}

/-! ### The bytes of a request -/

theorem length_request :
  (request p).length = p.length + 17
  := by
  have hlength : (request p).length = 12 + p.length + (ascii " \r\n\r\n").length := length_whole
  have htail : (ascii " \r\n\r\n").length = 5 := rfl
  omega

theorem request_head {i : ℕ} (hi : i < 12) :
  (request p).getD i 0 = (ascii "GETFILE GET ").getD i 0
  := heads_whole p _ i hi

theorem request_path {i : ℕ} (hi : i < p.length) :
  (request p).getD (12 + i) 0 = p.getD i 0
  := by
  rw [List.getD_eq_getElem p 0 hi]
  exact whole_word hi

theorem request_tail (i : ℕ) :
  (request p).getD (12 + p.length + i) 0 = (ascii " \r\n\r\n").getD i 0
  := by
  have hlength : (ascii "GETFILE GET " ++ p).length = 12 + p.length := by
    rw [List.length_append]
    rfl
  rw [request, List.getD_append_right]
  · congr 1
    omega
  · omega

/-- Behind the path there are only blanks. -/
theorem request_blank {i : ℕ} (hi : 12 + p.length ≤ i) :
  Blank ((request p).getD i 0)
  := by
  obtain ⟨j, rfl⟩ := Nat.exists_eq_add_of_le hi
  rw [request_tail]
  match j with
  | 0 => right; left; rfl
  | 1 => right; right; left; rfl
  | 2 => right; right; right; rfl
  | 3 => right; right; left; rfl
  | 4 => right; right; right; rfl
  | j + 5 => left; rfl

/-- Behind the space after the path, up to the end, there are only line ends. -/
theorem request_lineEnd {i : ℕ} (hi : 13 + p.length ≤ i) (hlt : i < 17 + p.length) :
  (request p).getD i 0 = cr ∨ (request p).getD i 0 = lf
  := by
  obtain ⟨j, rfl⟩ := Nat.exists_eq_add_of_le hi
  have heq : 13 + p.length + j = 12 + p.length + (j + 1) := by omega
  rw [heq, request_tail]
  match j with
  | 0 => left; rfl
  | 1 => right; rfl
  | 2 => left; rfl
  | 3 => right; rfl
  | j + 4 => omega

/-- The bytes of the path are not blank. -/
theorem request_word (hp : IsPath p) {i : ℕ} (hi : 12 ≤ i) (hlt : i < 12 + p.length) :
  ¬ Blank ((request p).getD i 0)
  := by
  obtain ⟨j, rfl⟩ := Nat.exists_eq_add_of_le hi
  rw [request_path (by omega)]
  have hj : j < p.length := by omega
  rw [List.getD_eq_getElem p 0 hj]
  apply hp.word _ (List.getElem_mem hj)

/-- A request opens as such. -/
theorem opens_request (hp : IsPath p) :
  Opens (request p)
  where
  head _ hi := request_head hi
  word := request_word hp le_rfl (by have := List.length_pos_iff.mpr hp.ne_nil; omega)

/-- A read of a part of the request that is put there or earlier fits into the buffer. -/
theorem fits_of_rest (hp : IsPath p) {o lo : ℕ} {w : List UInt8} {ws : List (List UInt8)}
    (h : Rest (request p) o (w :: ws)) (hw : w ≠ []) (hlo : lo ≤ o) :
  lo + w.length ≤ bufSize
  := by
  have hle := h.length_le hw
  have hpath := hp.length_le
  rw [length_request] at hle
  rw [bufSize_eq]
  omega

end

end GetFile.Server
