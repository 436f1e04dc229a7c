import GetFile.Rpc.Xdr
import Mathlib.Data.Nat.Notation

/-!
# The call that minifies an image

`minify_via_rpc` of the client, the stub `minify_image_1` below it, and `image_prog_1` with
`minify_image_1_svc` of the server. The two lengths are kept in an `unsigned int`, and the client
has an array for the answer that is not looked at when the answer is stored in it. The function
`magickminify` is the parameter of the model; it has no result when it ends the server.
-/

namespace GetFile.Minify

/-- `MAX_JPEG_SIZE`. -/
def maxJpegSize : ℕ := 102400000

/-- A `size_t` or an `ssize_t` as the `u_int` in which a length is kept. -/
def uInt (n : ℕ) : ℕ :=
  n % 2 ^ 32

/-- A `minify_img_arg`, with the memory that its pointer leads to. -/
structure MinifyImgArg where
  srcBufLen : ℕ
  srcBufVal : List UInt8

/-- A `dest_buffer`, with the memory that its pointer leads to. -/
structure DestBuffer where
  destBufLen : ℕ
  destBufVal : List UInt8

/-- `xdr_minify_img_arg` when it encodes. -/
def xdrMinifyImgArg (arg : MinifyImgArg) : List UInt8 :=
  Xdr.putBytes (arg.srcBufVal.take arg.srcBufLen)

/-- `xdr_dest_buffer` when it encodes. -/
def xdrDestBuffer (dest : DestBuffer) : List UInt8 :=
  Xdr.putBytes (dest.destBufVal.take dest.destBufLen)

/-! ### The server -/

/-- What the server sends back: nothing but that it has been called, the results, that there is no
such procedure, or that the arguments cannot be decoded. -/
inductive Reply where
  | void
  | success (results : List UInt8)
  | noProc
  | decode
  deriving DecidableEq

/-- `minify_image_1_svc`. -/
def minifyImage1Svc (magickminify : List UInt8 → Option (List UInt8)) (arg : MinifyImgArg) :
    Option DestBuffer :=
  (magickminify (arg.srcBufVal.take arg.srcBufLen)).map fun dst => ⟨uInt dst.length, dst⟩

/-- `image_prog_1` for the procedure with the number `rqProc` and the encoded arguments. There is
no result when the server has ended. -/
def imageProg1 (magickminify : List UInt8 → Option (List UInt8)) (rqProc : ℕ)
    (args : List UInt8) : Option Reply :=
  match rqProc with
  | 0 => some .void
  | 1 =>
    match Xdr.getBytes args with
    | none => some .decode
    | some (src, _) =>
      (minifyImage1Svc magickminify ⟨src.length, src⟩).map fun res => .success (xdrDestBuffer res)
  | _ => some .noProc

/-! ### The client -/

/-- How `minify_via_rpc` ends: it returns the image, it ends the process, or it has written behind
the array for the answer. -/
inductive Outcome where
  | returned (dst : List UInt8)
  | exit
  | overflow
  deriving DecidableEq

/-- `minify_image_1` with the array `dest` for the answer, and what `minify_via_rpc` makes of its
result. The network may not deliver the call or the answer in time. -/
def minifyImage1 (magickminify : List UInt8 → Option (List UInt8)) (delivered : Bool)
    (arg : MinifyImgArg) : Outcome :=
  if delivered then
    match imageProg1 magickminify 1 (xdrMinifyImgArg arg) with
    | some (.success results) =>
      match Xdr.getBytes results with
      | none => .exit
      | some (dst, _) => if dst.length ≤ maxJpegSize then .returned dst else .overflow
    | _ => .exit
  else .exit

/-- `minify_via_rpc`. -/
def minifyViaRpc (magickminify : List UInt8 → Option (List UInt8)) (delivered : Bool)
    (src : List UInt8) : Outcome :=
  minifyImage1 magickminify delivered ⟨uInt src.length, src⟩

variable {magickminify : List UInt8 → Option (List UInt8)} {src dst : List UInt8}

/-- What is left of a byte string whose length is kept in a `u_int`. -/
def kept (s : List UInt8) : List UInt8 :=
  s.take (uInt s.length)

/-- What is left is short. -/
theorem length_kept (s : List UInt8) :
  (kept s).length = uInt s.length ∧ (kept s).length < 2 ^ 32
  := by
  have hle : uInt s.length ≤ s.length := Nat.mod_le _ _
  have hlt : uInt s.length < 2 ^ 32 := Nat.mod_lt _ (by decide)
  rw [kept, List.length_take, Nat.min_eq_left hle]
  exact ⟨rfl, hlt⟩

/-- The call comes back with what `magickminify` makes of the image, as far as the lengths are
kept. -/
theorem minifyViaRpc_eq :
  minifyViaRpc magickminify true src =
    match magickminify (kept src) with
    | none => .exit
    | some dst => if (kept dst).length ≤ maxJpegSize then .returned (kept dst) else .overflow
  := by
  have hargs : Xdr.getBytes (xdrMinifyImgArg ⟨uInt src.length, src⟩) = some (kept src, []) := by
    have hback := Xdr.getBytes_putBytes (length_kept src).2 []
    rw [List.append_nil] at hback
    exact hback
  unfold minifyViaRpc minifyImage1
  rw [if_pos rfl]
  simp only [imageProg1, hargs, minifyImage1Svc, List.take_length]
  cases magickminify (kept src) with
  | none => rfl
  | some dst =>
      have hresults : Xdr.getBytes (xdrDestBuffer ⟨uInt dst.length, dst⟩) =
          some (kept dst, []) := by
        have hback := Xdr.getBytes_putBytes (length_kept dst).2 []
        rw [List.append_nil] at hback
        exact hback
      simp only [Option.map_some, hresults]

/-- For every image and every network: the call returns an image exactly when it is delivered and
`magickminify` makes one of the image as far as its length is kept, whose length, as far as it is
kept, is at most that of the array for it; it returns this image. And the array is left exactly
when the call is delivered and the image is longer. -/
theorem minifyViaRpc_returned_iff (magickminify : List UInt8 → Option (List UInt8))
    (delivered : Bool) (src : List UInt8) :
  (∀ dst, minifyViaRpc magickminify delivered src = .returned dst ↔ delivered = true ∧
      ∃ image, magickminify (kept src) = some image ∧ kept image = dst ∧
        dst.length ≤ maxJpegSize) ∧
    (minifyViaRpc magickminify delivered src = .overflow ↔ delivered = true ∧
      ∃ image, magickminify (kept src) = some image ∧ maxJpegSize < (kept image).length)
  := by
  cases delivered with
  | false => simp [minifyViaRpc, minifyImage1]
  | true =>
      rw [minifyViaRpc_eq]
      cases magickminify (kept src) with
      | none => simp
      | some image =>
          by_cases hle : (kept image).length ≤ maxJpegSize
          · constructor
            · intro dst
              simp only [if_pos hle, Outcome.returned.injEq, Option.some.injEq, true_and]
              constructor
              · rintro rfl
                exact ⟨image, rfl, rfl, hle⟩
              · rintro ⟨_, rfl, heq, -⟩
                exact heq
            · simp [if_pos hle, Nat.not_lt.mpr hle]
          · constructor
            · intro dst
              simp only [if_neg hle, Option.some.injEq, true_and]
              constructor
              · intro h
                cases h
              · rintro ⟨_, rfl, rfl, hle'⟩
                exact absurd hle' hle
            · simp [if_neg hle, Nat.lt_of_not_le hle]

end GetFile.Minify
