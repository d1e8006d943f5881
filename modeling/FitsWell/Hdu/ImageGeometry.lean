import FitsWell.Compression.Container
import FitsWell.Hdu.HduKind

/-!
# The array of an image HDU

A header's axes, sample type and map of values, of a plain image or of the image in a compressed
one's container. A compressed image's null may be its tiles'.
-/

namespace FitsWell

variable {R : Type}

/-! ## Planes -/

/-- A sample type by its plane. -/
inductive Plane
  | int (bitpix : IntBitpix)
  | float (bitpix : FloatBitpix)
  deriving DecidableEq, Repr

def Plane.of : Bitpix → Plane
  | .u8 => .int .u8
  | .i16 => .int .i16
  | .i32 => .int .i32
  | .i64 => .int .i64
  | .f32 => .float .f32
  | .f64 => .float .f64

theorem Plane.of_int (bitpix : IntBitpix) : Plane.of bitpix.bitpix = .int bitpix := by
  cases bitpix <;> rfl

theorem Plane.of_float (bitpix : FloatBitpix) : Plane.of bitpix.bitpix = .float bitpix := by
  cases bitpix <;> rfl

/-! ## The geometry -/

/-- The null of samples of a type. A float has none of its own. -/
def Scaling.readBlank [RealWords R] (header : Header R) (bitpix : Bitpix) : Outcome (Option ℤ) :=
  match Plane.of bitpix with
  | .float _ => .ok none
  | .int _ => header.getInteger .BLANK

/-- The map that a header gives samples of a type. -/
def Scaling.fromHeader [PlaneReals R] (header : Header R) (bitpix : Bitpix) :
    Outcome (Scaling R) := do
  let bscale ← header.getReal .BSCALE
  let bzero ← header.getReal .BZERO
  let blank ← readBlank header bitpix
  let scaling : Scaling R :=
    { bscale := bscale.getD (RealText.ofI64 1), bzero := bzero.getD (RealText.ofI64 0)
      blank := blank }
  scaling.validate bitpix
  .ok scaling

/-- The array that an image HDU holds, of `len` samples. -/
structure ImageGeometry (R : Type) where
  shape : List ℕ
  bitpix : Bitpix
  scaling : Scaling R
  len : ℕ
  counted : shapeProduct shape = .ok len

namespace ImageGeometry

variable [PlaneReals R]

def new (header : Header R) (shape : List ℕ) (bitpix : Bitpix) : Outcome (ImageGeometry R) :=
  match hlen : shapeProduct shape with
  | .error fault => .error fault
  | .ok len => do
    let scaling ← Scaling.fromHeader header bitpix
    .ok { shape := shape, bitpix := bitpix, scaling := scaling, len := len, counted := hlen }

/-- The null of an integer image's tiles, which is the image's where it has none. -/
def withZblank (header : Header R) (image : ImageGeometry R) : Outcome (ImageGeometry R) :=
  match Plane.of image.bitpix, image.scaling.blank with
  | .int _, none => do
    let blank ← header.getInteger .ZBLANK
    let scaling := { image.scaling with blank := blank }
    scaling.validate image.bitpix
    .ok { image with scaling := scaling }
  | _, _ => .ok image

/-- The image that a compressed image's container holds. -/
def compressed (header : Header R) : Outcome (ImageGeometry R) := do
  let code ← header.getInteger .ZBITPIX
  let code ← orMissing .ZBITPIX code
  let bitpix ← Bitpix.ofCode code
  let rank ← header.getInteger .ZNAXIS
  let rank ← orMissing .ZNAXIS rank
  if 0 ≤ rank ∧ rank ≤ 999 then do
    let shape ← (List.range rank.toNat).mapM fun axis => do
      let keyword ← Keyword.ZNAXIS.indexed (axis + 1)
      header.requireUsize keyword
    let image ← new header shape bitpix
    image.withZblank header
  else
    fail (.invalidKeywordValue Keyword.ZNAXIS.asStr .ofRange)

/-- The image of an HDU of `kind`. A plain one has no group structure. -/
def fromHeader (header : Header R) (kind : HduKind) : Outcome (ImageGeometry R) :=
  match kind with
  | .primary | .image => do
    let pcount ← header.optionalUsize .PCOUNT 0
    let gcount ← header.optionalUsize .GCOUNT 1
    if pcount ≠ 0 ∨ gcount ≠ 1 then
      fail .imageHasGroups
    else do
      let shape ← header.axes
      let bitpix ← header.bitpix
      new header shape bitpix
  | .compressedImage => compressed header
  | _ => fail (.hduKindMismatch .image kind)

end ImageGeometry

end FitsWell
