import GetFile.CString.Buffer

/-!
# `fgets`

`fgets n text` is a call of `fgets` with room for `n` bytes and the terminator, and `chunks` is
what the calls of a loop `while (fgets(…))` bring. A text is a list of lines (`lines`), and the
chunks are the lines exactly when each line fits (`chunks_eq_lines`, `lines_lt_chunks`).
-/

namespace CString

/-- One call of `fgets`: up to `n` bytes, none behind a line feed, and the rest of the text. -/
def fgets : ℕ → List UInt8 → List UInt8 × List UInt8
  | 0, text => ([], text)
  | _ + 1, [] => ([], [])
  | n + 1, c :: text =>
    if c = lf then ([c], text) else (c :: (fgets n text).1, (fgets n text).2)

/-- What the calls bring until nothing is left, for at most the given number of calls. A call that
brings something brings a byte, so that the length of the text is enough. -/
def chunks (n : ℕ) : ℕ → List UInt8 → List (List UInt8)
  | 0, _ => []
  | _ + 1, [] => []
  | calls + 1, c :: text =>
    (fgets n (c :: text)).1 :: chunks n calls (fgets n (c :: text)).2

/-- The lines of a text, each with its line feed; the last one may have none. -/
def lines : List UInt8 → List (List UInt8)
  | [] => []
  | c :: text =>
    if c = lf then [c] :: lines text
    else
      match lines text with
      | [] => [[c]]
      | line :: rest => (c :: line) :: rest

/-- A line and what follows it in a text: only the last line may end without a line feed. -/
inductive FirstLine : List UInt8 → List UInt8 → Prop where
  | ended {row : List UInt8} (text : List UInt8) (free : lf ∉ row) : FirstLine (row ++ [lf]) text
  | unended {row : List UInt8} (free : lf ∉ row) (ne : row ≠ []) : FirstLine row []

variable {n calls : ℕ} {row line text : List UInt8}

/-! ### The lines of a text -/

/-- Bytes in front of a line feed belong to its line. -/
theorem lines_ended (hfree : lf ∉ row) :
  lines (row ++ lf :: text) = (row ++ [lf]) :: lines text
  := by
  induction row with
  | nil => simp [lines]
  | cons c row ih =>
      rw [List.mem_cons, not_or] at hfree
      rw [List.cons_append, lines, if_neg (Ne.symm hfree.1), ih hfree.2]
      rfl

/-- Bytes without a line feed are one line. -/
theorem lines_unended (hfree : lf ∉ row) (hne : row ≠ []) :
  lines row = [row]
  := by
  induction row with
  | nil => apply absurd rfl hne
  | cons c row ih =>
      rw [List.mem_cons, not_or] at hfree
      rw [lines, if_neg (Ne.symm hfree.1)]
      cases row with
      | nil => rfl
      | cons c' row =>
          rw [ih hfree.2 (List.cons_ne_nil c' row)]

/-- The lines of a text are its first line and the lines of the rest. -/
theorem FirstLine.lines_append (h : FirstLine line text) :
  lines (line ++ text) = line :: lines text
  := by
  cases h with
  | ended text free =>
      rw [List.append_assoc, List.singleton_append]
      apply lines_ended free
  | unended free ne =>
      rw [List.append_nil]
      apply lines_unended free ne

theorem FirstLine.ne_nil (h : FirstLine line text) :
  line ≠ []
  := by
  cases h with
  | ended text free => simp
  | unended free ne => apply ne

/-- A text that is not empty has a first line. -/
theorem exists_firstLine (hne : text ≠ []) :
  ∃ line rest, text = line ++ rest ∧ FirstLine line rest
  := by
  by_cases hmem : lf ∈ text
  · obtain ⟨row, rest, rfl, hfree⟩ := List.eq_append_cons_of_mem hmem
    exact ⟨row ++ [lf], rest, by simp, .ended rest hfree⟩
  · exact ⟨text, [], by simp, .unended hmem hne⟩

/-- Induction on the lines of a text. -/
theorem line_induction {P : List UInt8 → Prop} (hnil : P [])
    (hline : ∀ line rest, FirstLine line rest → P rest → P (line ++ rest)) (text : List UInt8) :
  P text
  := by
  induction hlength : text.length using Nat.strongRecOn generalizing text with
  | ind length ih =>
      by_cases hne : text = []
      · rw [hne]
        apply hnil
      · obtain ⟨line, rest, rfl, hfirst⟩ := exists_firstLine hne
        have hpos := List.length_pos_iff.mpr hfirst.ne_nil
        rw [List.length_append] at hlength
        apply hline line rest hfirst
        apply ih rest.length (by omega) rest rfl

/-! ### The chunks that the calls bring -/

/-- A call takes bytes that are no line feed as long as there is room. -/
theorem fgets_append (text : List UInt8) (hfree : lf ∉ row) (hroom : row.length ≤ n) :
  fgets n (row ++ text) =
    (row ++ (fgets (n - row.length) text).1, (fgets (n - row.length) text).2)
  := by
  induction row generalizing n with
  | nil => rfl
  | cons c row ih =>
      rw [List.mem_cons, not_or] at hfree
      rw [List.length_cons] at hroom
      obtain ⟨m, rfl⟩ := Nat.exists_eq_add_of_lt (Nat.lt_of_lt_of_le (Nat.succ_pos _) hroom)
      rw [Nat.zero_add] at hroom ⊢
      rw [List.cons_append, fgets, if_neg (Ne.symm hfree.1), ih hfree.2 (by omega),
        List.length_cons, Nat.add_sub_add_right]
      rfl

/-- A line that fits is brought by one call. -/
theorem FirstLine.fgets_fits (h : FirstLine line text) (hfits : line.length ≤ n) :
  fgets n (line ++ text) = (line, text)
  := by
  cases h with
  | @ended row text free =>
      rw [List.length_append, List.length_singleton] at hfits
      obtain ⟨m, hm⟩ : ∃ m, n - row.length = m + 1 := ⟨n - row.length - 1, by omega⟩
      rw [List.append_assoc, fgets_append _ free (by omega), hm, List.singleton_append, fgets,
        if_pos rfl]
  | unended free ne =>
      rw [fgets_append _ free hfits]
      cases n - line.length with
      | zero => simp [fgets]
      | succ m => simp [fgets]

/-- A line that does not fit is cut, and the rest of it starts as a line where the next call
starts. -/
theorem FirstLine.fgets_cut (h : FirstLine line text) (hlong : n < line.length) :
  fgets n (line ++ text) = (line.take n, line.drop n ++ text) ∧ FirstLine (line.drop n) text
  := by
  have hcut : ∀ row : List UInt8, lf ∉ row → n ≤ row.length → ∀ text,
      fgets n (row ++ text) = (row.take n, row.drop n ++ text) := by
    intro row hfree hle text
    have hlength : (row.take n).length = n := List.length_take_of_le hle
    have htake := fgets_append (row.drop n ++ text)
      (fun hmem => hfree (List.mem_of_mem_take hmem)) (le_of_eq hlength)
    rw [hlength, Nat.sub_self, ← List.append_assoc, List.take_append_drop] at htake
    rw [htake, fgets, List.append_nil]
  cases h with
  | @ended row text free =>
      rw [List.length_append, List.length_singleton] at hlong
      have hle : n ≤ row.length := by omega
      rw [List.append_assoc, hcut row free hle, List.take_append_of_le_length hle,
        List.drop_append_of_le_length hle]
      refine ⟨by simp, .ended text fun hmem => free (List.mem_of_mem_drop hmem)⟩
  | unended free ne =>
      refine ⟨hcut line free (by omega) [], .unended ?_ ?_⟩
      · exact fun hmem => free (List.mem_of_mem_drop hmem)
      · rw [ne_eq, List.drop_eq_nil_iff]
        omega

/-- A call brings no more bytes than there is room for. -/
theorem fgets_length_le (n : ℕ) (text : List UInt8) :
  (fgets n text).1.length ≤ n
  := by
  induction n generalizing text with
  | zero => simp [fgets]
  | succ n ih =>
      cases text with
      | nil => simp [fgets]
      | cons c text =>
          rw [fgets]
          split
          · simp
          · simpa using ih text

theorem chunk_length_le :
  ∀ chunk ∈ chunks n calls text, chunk.length ≤ n
  := by
  induction calls generalizing text with
  | zero => simp [chunks]
  | succ calls ih =>
      cases text with
      | nil => simp [chunks]
      | cons c text =>
          rw [chunks]
          simp only [List.mem_cons, forall_eq_or_imp]
          exact ⟨fgets_length_le n _, ih⟩

/-- A call at the start of a text that is not empty brings its first chunk. -/
theorem chunks_succ (hne : text ≠ []) :
  chunks n (calls + 1) text = (fgets n text).1 :: chunks n calls (fgets n text).2
  := by
  cases text with
  | nil => apply absurd rfl hne
  | cons c text => rfl

/-- When every line fits, the calls bring the lines. -/
theorem chunks_eq_lines (hfits : ∀ line ∈ lines text, line.length ≤ n)
    (hcalls : text.length ≤ calls) :
  chunks n calls text = lines text
  := by
  induction text using line_induction generalizing calls with
  | hnil =>
      cases calls with
      | zero => rfl
      | succ calls => rfl
  | hline line rest hfirst ih =>
      rw [hfirst.lines_append] at hfits ⊢
      have hpos := List.length_pos_iff.mpr hfirst.ne_nil
      rw [List.length_append] at hcalls
      obtain ⟨m, rfl⟩ : ∃ m, calls = m + 1 := ⟨calls - 1, by omega⟩
      rw [chunks_succ (by simp [hfirst.ne_nil]), hfirst.fgets_fits (hfits line (by simp))]
      dsimp only
      rw [ih (fun line hline => hfits line (List.mem_cons_of_mem _ hline)) (by omega)]

/-- The calls bring at least as many chunks as there are lines, and more when a line does not
fit. -/
theorem lines_le_chunks (hn : 0 < n) (hcalls : text.length ≤ calls) :
  (lines text).length ≤ (chunks n calls text).length ∧
    ((chunks n calls text).length ≤ (lines text).length →
      ∀ line ∈ lines text, line.length ≤ n)
  := by
  induction calls generalizing text with
  | zero =>
      have hnil : text = [] := List.eq_nil_of_length_eq_zero (by omega)
      subst hnil
      simp [lines]
  | succ calls ih =>
      by_cases hne : text = []
      · subst hne
        simp [lines]
      · obtain ⟨line, rest, rfl, hfirst⟩ := exists_firstLine hne
        have hpos := List.length_pos_iff.mpr hfirst.ne_nil
        rw [chunks_succ hne, hfirst.lines_append, List.length_cons, List.length_cons]
        rw [List.length_append] at hcalls
        by_cases hfits : line.length ≤ n
        · rw [hfirst.fgets_fits hfits]
          dsimp only
          obtain ⟨hle, hall⟩ := @ih rest (by omega)
          refine ⟨by omega, fun hge => ?_⟩
          simp only [List.mem_cons, forall_eq_or_imp]
          exact ⟨hfits, hall (by omega)⟩
        · -- the rest of the line counts as a line of its own
          obtain ⟨hcut, hrest⟩ := hfirst.fgets_cut (not_le.mp hfits)
          rw [hcut]
          dsimp only
          have hlength : (line.drop n ++ rest).length ≤ calls := by
            rw [List.length_append, List.length_drop]
            omega
          obtain ⟨hle, -⟩ := ih hlength
          rw [hrest.lines_append, List.length_cons] at hle
          refine ⟨by omega, fun hge => ?_⟩
          omega

end CString
