import GetFile.CString.Buffer

/-!
# Server: the content table

The table of the files that the server has opened, sorted by their keys, and the binary search
of `content_get`.
-/

namespace GetFile.Server

/-- An entry of the table: the key of a file and its descriptor. -/
structure Item where
  fildes : ℤ
  key : List UInt8
  deriving DecidableEq

/-- The sign of `strcmp`, which compares bytes as `unsigned char`. -/
def strcmp : List UInt8 → List UInt8 → Ordering
  | [], [] => .eq
  | [], _ :: _ => .lt
  | _ :: _, [] => .gt
  | a :: as, b :: bs => if a < b then .lt else if b < a then .gt else strcmp as bs

/-- The loop of `content_get` between the indices `lo` and `hi`, for at most the given number of
rounds. Each round makes the range shorter, so that the number of items is enough. -/
def search (items : List Item) (key : List UInt8) : ℕ → ℤ → ℤ → ℤ
  | 0, _, _ => -1
  | rounds + 1, lo, hi =>
    if lo ≤ hi then
      let mid := lo + (hi - lo) / 2
      match items[mid.toNat]? with
      | none => -1
      | some item =>
        match strcmp key item.key with
        | .lt => search items key rounds lo (mid - 1)
        | .gt => search items key rounds (mid + 1) hi
        | .eq => item.fildes
    else -1

/-- `content_get`. With the key `NULL` there is no result when `strcmp` is called. -/
def contentGet (items : List Item) : Option (List UInt8) → Option ℤ
  | none => if items = [] then some (-1) else none
  | some key => some (search items key items.length 0 (items.length - 1))

end GetFile.Server
