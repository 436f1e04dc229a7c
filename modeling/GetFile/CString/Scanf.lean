import GetFile.CString.Decimal
import Mathlib.Data.List.TakeWhile

/-!
# `fscanf` with `"%s %s"`

The tokens of a text are what stands between its white space (`tokens`). `scanString` is the
conversion `%s`, and `scanPair` a call of `fscanf` with the format `"%s %s"`, which returns the
number of the tokens that it has read, or `EOF` when there is none (`scanPair_spec`).
-/

namespace CString

/-- The longest pieces of a text without white space. -/
def tokens (text : List UInt8) : List (List UInt8) :=
  (text.splitOnP isSpace).filter (!·.isEmpty)

/-- The conversion `%s`: it skips white space and reads a token, if there is one. -/
def scanString (text : List UInt8) : Option (List UInt8 × List UInt8) :=
  match text.dropWhile isSpace with
  | [] => none
  | c :: rest => some ((c :: rest).takeWhile (!isSpace ·), (c :: rest).dropWhile (!isSpace ·))

/-- `EOF`. -/
def eof : ℤ := -1

/-- What a call of `fscanf` returns, what it assigns to its two arguments, and the rest of the
text. -/
structure Scanned where
  returned : ℤ
  first : Option (List UInt8)
  second : Option (List UInt8)
  rest : List UInt8

/-- A call of `fscanf` with the format `"%s %s"`. The blank in the format skips white space, as the
second conversion does anyway. -/
def scanPair (text : List UInt8) : Scanned :=
  match scanString text with
  | none => ⟨eof, none, none, []⟩
  | some (first, rest) =>
    match scanString rest with
    | none => ⟨1, some first, none, []⟩
    | some (second, rest) => ⟨2, some first, some second, rest⟩

variable {text rest word : List UInt8} {c : UInt8}

/-! ### Tokens -/

/-- White space belongs to no token. -/
theorem tokens_cons_of_isSpace (hc : isSpace c = true) :
  tokens (c :: text) = tokens text
  := by
  rw [tokens, List.splitOnP_cons_eq_if_modifyHead, if_pos hc]
  simp [tokens]

theorem tokens_dropWhile (text : List UInt8) :
  tokens (text.dropWhile isSpace) = tokens text
  := by
  induction text with
  | nil => rfl
  | cons c text ih =>
      rw [List.dropWhile_cons]
      split
      · rename_i hc
        rw [ih, tokens_cons_of_isSpace hc]
      · rfl

/-- A text that starts with other bytes starts with a token. -/
theorem tokens_append (hne : word ≠ []) (hword : ∀ c ∈ word, isSpace c = false)
    (hrest : ∀ c, rest.head? = some c → isSpace c = true) :
  tokens (word ++ rest) = word :: tokens rest
  := by
  cases rest with
  | nil =>
      rw [List.append_nil, tokens, List.splitOnP_eq_singleton hword]
      simp [hne, tokens]
  | cons c rest =>
      have hc : isSpace c = true := hrest c rfl
      rw [tokens_cons_of_isSpace hc, tokens, List.splitOnP_append_cons_of_forall_mem hword c hc]
      simp [hne, tokens]

/-! ### Conversions -/

/-- What `%s` does: it fails when the text has no token, and otherwise takes the first one. -/
inductive ScanCase (text : List UInt8) : Option (List UInt8 × List UInt8) → Prop where
  | nothing (empty : tokens text = []) : ScanCase text none
  | token {word rest : List UInt8} (split : tokens text = word :: tokens rest)
      (shorter : rest.length < text.length) : ScanCase text (some (word, rest))

theorem scanString_spec (text : List UInt8) :
  ScanCase text (scanString text)
  := by
  rw [scanString]
  split
  · rename_i hnil
    apply ScanCase.nothing
    rw [← tokens_dropWhile, hnil]
    rfl
  · rename_i c rest hcons
    have hc : isSpace c = false := by
      have hhead := List.head_dropWhile_not (p := isSpace) (l := text) (by simp [hcons])
      simpa [hcons] using hhead
    have hne : (c :: rest).takeWhile (!isSpace ·) ≠ [] := by
      simp [hc]
    have hword : ∀ b ∈ (c :: rest).takeWhile (!isSpace ·), isSpace b = false := by
      intro b hb
      simpa using List.mem_takeWhile_imp hb
    have hrest : ∀ b, ((c :: rest).dropWhile (!isSpace ·)).head? = some b → isSpace b = true := by
      intro b hb
      have hhead := List.head?_dropWhile_not (!isSpace ·) (c :: rest)
      rw [hb] at hhead
      simpa using hhead
    apply ScanCase.token
    · rw [← tokens_append hne hword hrest, List.takeWhile_append_dropWhile, ← hcons,
        tokens_dropWhile]
    · have hdrop : ((c :: rest).dropWhile (!isSpace ·)).length ≤ rest.length := by
        rw [List.dropWhile_cons_of_pos (by simp [hc])]
        exact (List.dropWhile_suffix _).length_le
      have hskip := (List.dropWhile_suffix isSpace (l := text)).length_le
      rw [hcons, List.length_cons] at hskip
      omega

/-- What a call of `fscanf` does: it returns how many of two tokens it has read, or `EOF`. -/
inductive PairCase (text : List UInt8) : Scanned → Prop where
  | nothing (empty : tokens text = []) : PairCase text ⟨eof, none, none, []⟩
  | single {word : List UInt8} (single : tokens text = [word]) :
      PairCase text ⟨1, some word, none, []⟩
  | pair {first second rest : List UInt8} (split : tokens text = first :: second :: tokens rest)
      (shorter : rest.length < text.length) : PairCase text ⟨2, some first, some second, rest⟩

theorem scanPair_spec (text : List UInt8) :
  PairCase text (scanPair text)
  := by
  have hfirst := scanString_spec text
  rw [scanPair]
  generalize scanString text = first at hfirst ⊢
  cases hfirst with
  | nothing empty => exact .nothing empty
  | @token word rest split shorter =>
      have hsecond := scanString_spec rest
      dsimp only
      generalize scanString rest = second at hsecond ⊢
      cases hsecond with
      | nothing empty =>
          rw [empty] at split
          exact .single split
      | token split' shorter' =>
          rw [split'] at split
          exact .pair split (shorter'.trans shorter)

end CString
