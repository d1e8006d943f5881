import FitsWell.HeaderModel.TypedLookup
import FitsWell.ImageModel.Bitpix
import FitsWell.Library.Bytes
import FitsWell.Library.Chunks

/-!
# The map from stored values to physical ones

A physical value is `bzero + bscale * stored`, and an integer equal to the null is no value.
The samples of many cells gather in one block, which is scaled each time it fills.
-/

namespace FitsWell

open Bytes Chunks

/-- The word that big-endian bytes spell. -/
def beWord (width : ℕ) (bytes : List UInt8) : BitVec width := BitVec.ofNat width (ofBeBytes bytes)

/-- Reals with the arithmetic of an `f64`. -/
class PlaneReals (R : Type) extends RealWords R where
  /-- `a == b`. -/
  same : R → R → Bool
  mul : R → R → R
  /-- `a.mul_add(b, c)`. -/
  mulAdd : R → R → R → R
  /-- `value as f64`, of a `u64`. -/
  ofU64 : ℕ → R
  /-- The float of a pattern of bits. -/
  ofF32 : BitVec 32 → R
  ofF64 : BitVec 64 → R

/-- The float types a read of physical values writes. -/
class PhysicalSample (R : outParam Type) (τ : Type) where
  /-- The bytes of a value. -/
  width : ℕ
  ofF64 : R → τ
  nan : τ

/-- Whole numbers, as the reals of a pattern are its bits'. -/
instance wholePlane : PlaneReals ℤ where
  same a b := decide (a = b)
  mul a b := a * b
  mulAdd a b c := a * b + c
  ofU64 value := value
  ofF32 bits := bits.toNat
  ofF64 bits := bits.toNat

/-- Whole numbers, or no number. -/
instance wholeSample : PhysicalSample ℤ (Option ℤ) where
  width := 8
  ofF64 := some
  nan := none

/-- The linear map to physical values, and the integer that marks undefined ones. -/
structure Scaling (R : Type) where
  bscale : R
  bzero : R
  blank : Option ℤ

/-- The exact integers that a sign-bit offset stores. -/
inductive UnsignedKind
  | i8
  | u16
  | u32
  | u64
  deriving DecidableEq, Repr

/-- The bytes of a value. -/
def UnsignedKind.size : UnsignedKind → ℕ
  | .i8 => 1
  | .u16 => 2
  | .u32 => 4
  | .u64 => 8

/-- The value of a stored sample: its sign bit flipped. -/
def UnsignedKind.flip (kind : UnsignedKind) (bytes : List UInt8) : BitVec (8 * kind.size) :=
  beWord (8 * kind.size) bytes ^^^ BitVec.ofNat (8 * kind.size) (2 ^ (8 * kind.size - 1))

namespace Bitpix

/-- The integer of a sample: a byte has no sign. -/
def integer (bitpix : Bitpix) (bytes : List UInt8) : Option ℤ :=
  match bitpix with
  | .u8 => some (beWord 8 bytes).toNat
  | .i16 => some (beWord 16 bytes).toInt
  | .i32 => some (beWord 32 bytes).toInt
  | .i64 => some (beWord 64 bytes).toInt
  | .f32 | .f64 => none

/-- A sample as an `f64`. -/
def toF64 {R : Type} [PlaneReals R] (bitpix : Bitpix) (bytes : List UInt8) : R :=
  match bitpix with
  | .u8 => RealText.ofI64 (beWord 8 bytes).toNat
  | .i16 => RealText.ofI64 (beWord 16 bytes).toInt
  | .i32 => RealText.ofI64 (beWord 32 bytes).toInt
  | .i64 => RealText.ofI64 (beWord 64 bytes).toInt
  | .f32 => PlaneReals.ofF32 (beWord 32 bytes)
  | .f64 => PlaneReals.ofF64 (beWord 64 bytes)

theorem elemSize_pos (bitpix : Bitpix) : 0 < bitpix.elemSize := by
  cases bitpix <;> decide

end Bitpix

namespace Scaling

variable {R : Type} [PlaneReals R] (scaling : Scaling R)

def isIdentity : Bool :=
  PlaneReals.same scaling.bscale (RealText.ofI64 1) &&
    PlaneReals.same scaling.bzero (RealText.ofI64 0)

/-- The exact integers that the map denotes for samples of a type. -/
def unsignedKind (bitpix : Bitpix) : Option UnsignedKind :=
  if scaling.blank.isSome || !PlaneReals.same scaling.bscale (RealText.ofI64 1) then
    none
  else
    match bitpix with
    | .u8 => if PlaneReals.same scaling.bzero (RealText.ofI64 (-128)) then some .i8 else none
    | .i16 => if PlaneReals.same scaling.bzero (RealText.ofI64 (2 ^ 15)) then some .u16 else none
    | .i32 => if PlaneReals.same scaling.bzero (RealText.ofI64 (2 ^ 31)) then some .u32 else none
    | .i64 => if PlaneReals.same scaling.bzero (PlaneReals.ofU64 (2 ^ 63)) then some .u64 else none
    | .f32 | .f64 => none

variable {τ : Type} [PhysicalSample R τ]

/-- The physical value of a stored sample. A null that is no sample of the type marks
none. -/
def physical (bitpix : Bitpix) (bytes : List UInt8) : τ :=
  if scaling.blank.isSome ∧ bitpix.integer bytes = scaling.blank then
    PhysicalSample.nan
  else if scaling.isIdentity then
    PhysicalSample.ofF64 (bitpix.toF64 bytes : R)
  else
    PhysicalSample.ofF64 (PlaneReals.mulAdd scaling.bscale (bitpix.toF64 bytes) scaling.bzero)

/-- The samples of a block. -/
def blockSamples : ℕ := 256

/-- Samples that do not yet fill a block, and the values written before them. -/
structure Gather (τ : Type) where
  block : List (List UInt8)
  out : List τ
  room : block.length < blockSamples

/-- Append the physical values of samples. -/
def extendPhysical (bitpix : Bitpix) (samples : List (List UInt8)) (out : List τ) :
    Outcome (List τ) := do
  reserve (PhysicalSample.width τ) out.length samples.length
  .ok (out ++ samples.map (scaling.physical bitpix))

/-- Samples after those gathered: a block that fills is scaled. -/
def pushSamples (bitpix : Bitpix) (gather : Gather τ) (samples : List (List UInt8)) :
    Outcome (Gather τ) :=
  if hroom : (gather.block ++ samples).length < blockSamples then
    .ok { gather with block := gather.block ++ samples, room := hroom }
  else if (gather.block ++ samples).length = blockSamples then do
    let out ← scaling.extendPhysical bitpix (gather.block ++ samples) gather.out
    .ok { block := [], out := out, room := by decide }
  else
    abort .indexOutOfBounds

/-- The samples of a cell, as many at a time as the block has room for. -/
def gatherCell (bitpix : Bitpix) (gather : Gather τ) (cell : List UInt8) :
    Outcome (Gather τ) :=
  if hcell : cell = [] then
    .ok gather
  else do
    let take := min ((blockSamples - gather.block.length) * bitpix.elemSize) cell.length
    let next ← scaling.pushSamples bitpix gather
      (wholeChunks (bitpix.elemSize - 1) (cell.take take))
    gatherCell bitpix next (cell.drop take)
termination_by cell.length
decreasing_by
  have hlength : 0 < cell.length := List.length_pos_iff.mpr hcell
  have hsize := bitpix.elemSize_pos
  have hroom := gather.room
  have hblock : 0 < (blockSamples - gather.block.length) * bitpix.elemSize :=
    Nat.mul_pos (by omega) hsize
  rw [List.length_drop]
  omega

end Scaling

end FitsWell
