import Mathlib.Data.List.Basic
import Mathlib.Data.List.GetD
import Mathlib.Data.Nat.Notation
import Mathlib.Tactic.Common

/-!
# Streams cut into reads

A peer sends a stream of bytes, and the reads of the receiver bring it piece by piece.
`Rest s o ws` says that the reads `ws` bring the stream `s` from its byte `o` on.
-/

namespace CString

/-- The reads `ws` bring the stream `s` from its byte `o` on. -/
def Rest (s : List UInt8) (o : ℕ) (ws : List (List UInt8)) : Prop :=
  ws.flatten = s.drop o

variable {s : List UInt8}

/-- The first read leaves a rest that starts behind it. -/
theorem Rest.tail {o : ℕ} {w : List UInt8} {ws : List (List UInt8)} (h : Rest s o (w :: ws)) :
  Rest s (o + w.length) ws
  := by
  rw [Rest, List.flatten_cons] at h
  rw [Rest, ← List.drop_drop, ← h, List.drop_left]

/-- A byte of the first read is a byte of the stream. -/
theorem Rest.getD {o j : ℕ} {w : List UInt8} {ws : List (List UInt8)} (h : Rest s o (w :: ws))
    (hj : j < w.length) :
  w.getD j 0 = s.getD (o + j) 0
  := by
  rw [Rest, List.flatten_cons] at h
  rw [← List.getD_append w ws.flatten 0 j hj, h]
  simp [List.getD_eq_getElem?_getD]

/-- The first read ends inside the stream. -/
theorem Rest.length_le {o : ℕ} {w : List UInt8} {ws : List (List UInt8)}
    (h : Rest s o (w :: ws)) (hw : w ≠ []) :
  o + w.length ≤ s.length
  := by
  have hlength := congrArg List.length h
  rw [List.flatten_cons, List.length_append, List.length_drop] at hlength
  have hpos := List.length_pos_iff.mpr hw
  omega

/-- When no read is left, the whole stream has been read. -/
theorem Rest.le_of_nil {o : ℕ} (h : Rest s o []) :
  s.length ≤ o
  := by
  have hlength := congrArg List.length h
  rw [List.flatten_nil, List.length_nil, List.length_drop] at hlength
  omega

end CString
