import Mathlib.Algebra.Group.Nat.Even
import Mathlib.Data.List.Basic
import Mathlib.Tactic.Common

/-!
# External data representation

A counted byte string is written as its length in four bytes, the most significant one first,
the bytes, and zeros up to a multiple of four bytes. What has been written is read back
(`getBytes_putBytes`).
-/

namespace Xdr

/-- The four bytes of a number. -/
def putUInt (n : ℕ) : List UInt8 :=
  [(n / 2 ^ 24).toUInt8, (n / 2 ^ 16).toUInt8, (n / 2 ^ 8).toUInt8, n.toUInt8]

/-- The number in the first four bytes, and the bytes behind them. -/
def getUInt : List UInt8 → Option (ℕ × List UInt8)
  | a :: b :: c :: d :: rest =>
    some (((a.toNat * 256 + b.toNat) * 256 + c.toNat) * 256 + d.toNat, rest)
  | _ => none

/-- The number of zeros behind `n` bytes. -/
def padding (n : ℕ) : ℕ :=
  (4 - n % 4) % 4

/-- A counted byte string. -/
def putBytes (data : List UInt8) : List UInt8 :=
  putUInt data.length ++ data ++ List.replicate (padding data.length) 0

/-- The bytes of a string of length `n`, and those behind it. The zeros are not looked at. -/
def getFixed (n : ℕ) (s : List UInt8) : Option (List UInt8 × List UInt8) :=
  if n + padding n ≤ s.length then some (s.take n, s.drop (n + padding n)) else none

/-- The bytes of a counted byte string, and those behind it. -/
def getBytes (s : List UInt8) : Option (List UInt8 × List UInt8) :=
  (getUInt s).bind fun x => getFixed x.1 x.2

/-- A number with no more than four bytes is read back. -/
theorem getUInt_putUInt {n : ℕ} (hn : n < 2 ^ 32) (rest : List UInt8) :
  getUInt (putUInt n ++ rest) = some (n, rest)
  := by
  have hvalue : ((n / 2 ^ 24 % 2 ^ 8 * 256 + n / 2 ^ 16 % 2 ^ 8) * 256 + n / 2 ^ 8 % 2 ^ 8) * 256
      + n % 2 ^ 8 = n := by omega
  simp only [putUInt, List.cons_append, List.nil_append, getUInt, Nat.toUInt8_eq,
    UInt8.toNat_ofNat']
  rw [hvalue]

/-- The bytes of a string are read back from in front of its zeros. -/
theorem getFixed_append (data rest : List UInt8) :
  getFixed data.length (data ++ List.replicate (padding data.length) 0 ++ rest)
    = some (data, rest)
  := by
  have hlength : (data ++ List.replicate (padding data.length) (0 : UInt8)).length =
      data.length + padding data.length := by
    rw [List.length_append, List.length_replicate]
  have hfits : data.length + padding data.length ≤
      (data ++ List.replicate (padding data.length) 0 ++ rest).length := by
    rw [List.length_append, hlength]
    omega
  rw [getFixed, if_pos hfits, List.drop_left' hlength, List.append_assoc, List.take_left' rfl]

/-- A byte string whose length fits into four bytes is read back. -/
theorem getBytes_putBytes {data : List UInt8} (hlen : data.length < 2 ^ 32) (rest : List UInt8) :
  getBytes (putBytes data ++ rest) = some (data, rest)
  := by
  rw [getBytes, putBytes, List.append_assoc, List.append_assoc, getUInt_putUInt hlen,
    Option.bind_some, ← List.append_assoc]
  apply getFixed_append

end Xdr
