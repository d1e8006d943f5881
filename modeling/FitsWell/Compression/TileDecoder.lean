import FitsWell.Compression.ImageDecode
import FitsWell.Column.ColumnNames
import FitsWell.Hdu.ImageGeometry
import FitsWell.HeaderModel.KeywordMap

/-!
# The decoder of a compressed image's tiles

The codec that a header names, with the parameters it gives, and how one tile's cell comes back
as samples. A float image's tiles come back as floats, or as the integers they were quantized to.
-/

namespace FitsWell

open Bytes
open Gzip (Flate)

variable {R : Type}

/-! ## Widths -/

/-- The integer type of a `RICE_1` pixel width. -/
def IntBitpix.fromBytepix (bytepix : ℤ) : Option IntBitpix :=
  if bytepix = 1 then some .u8
  else if bytepix = 2 then some .i16
  else if bytepix = 4 then some .i32
  else if bytepix = 8 then some .i64
  else none

/-- The integers that a column of `kind` stores. -/
def IntBitpix.fromTform (kind : ElementKind) : Option IntBitpix :=
  match kind.bitpix.map Plane.of with
  | some (.int bitpix) => some bitpix
  | _ => none

/-! ## The codec -/

/-- The deflate level of a codec that a name alone gives. -/
def Gzip.defaultLevel : ℕ := 1

/-- The samples of a `RICE_1` block, where no keyword says. -/
def Rice.blocksize : ℕ := 32

/-- The codec for tiles of `extents`: its plane in the two axes whose extent is above 1. -/
def Hcompress.Codec.fitted (codec : Hcompress.Codec) (extents : List ℕ) :
    Outcome Hcompress.Codec :=
  match (extents.zipIdx.filter fun extent => 1 < extent.1).map Prod.snd with
  | [ny, nx] => .ok { codec with plane := (ny, nx) }
  | _ => fail (.unsupportedCompression .hcompressDimensions)

namespace TileCodec

/-- The codec that a name spells, with the parameters it has until they are read. -/
def parse (name : Text) : Outcome TileCodec :=
  if name = ascii "GZIP_1" then .ok (.gzip1 Gzip.defaultLevel)
  else if name = ascii "GZIP_2" then .ok (.gzip2 Gzip.defaultLevel)
  else if name = ascii "RICE_1" then .ok (.rice ⟨Rice.blocksize, .i32⟩)
  else if name = ascii "PLIO_1" then .ok (.plio ⟨0⟩)
  else if name = ascii "HCOMPRESS_1" then .ok (.hcompress ⟨.lossless, .off, (0, 1)⟩)
  else if name = ascii "NOCOMPRESS" then .ok .noCompress
  else fail (.unsupportedCompression (.codec name))

/-- The codec for an image of `dims` in tiles of `tiles`. An image with no pixels has no tiles
to fit. -/
def fitted (codec : TileCodec) (dims tiles : List ℕ) : Outcome TileCodec :=
  match codec with
  | .hcompress coder =>
    if dims ≠ [] ∧ 0 ∉ dims then do
      let coder ← coder.fitted (List.zipWith min dims tiles)
      .ok (.hcompress coder)
    else
      .ok codec
  | _ => .ok codec

variable [RealWords R]

/-- The codec with one of its own parameters, whose value the keyword `zval` has. -/
def withParameter (codec : TileCodec) (header : Header R) (name : Text) (zval : Keyword) :
    Outcome TileCodec :=
  let outOfRange := FitsError.invalidKeywordValue zval.asStr .ofRange
  match codec with
  | .rice coder =>
    if name = ascii "BLOCKSIZE" then do
      let value ← header.getInteger zval
      match value with
      | none => .ok codec
      | some size =>
        if size = 16 ∨ size = 32 then .ok (.rice { coder with blocksize := size.toNat })
        else fail outOfRange
    else if name = ascii "BYTEPIX" then do
      let value ← header.getInteger zval
      match value with
      | none => .ok codec
      | some bytepix =>
        match IntBitpix.fromBytepix bytepix with
        | some bytepix => .ok (.rice { coder with bytepix := bytepix })
        | none => fail outOfRange
    else
      .ok codec
  | .hcompress coder =>
    if name = ascii "SMOOTH" then do
      let value ← header.getInteger zval
      .ok (.hcompress { coder with smoothing := if value.getD 0 = 0 then .off else .on })
    else
      .ok codec
  | _ => .ok codec

/-- The codec with the parameter that a record names, where it names one. -/
def readParameter (header : Header R) (codec : TileCodec) (record : Record R) :
    Outcome TileCodec :=
  match record with
  | .valued keyword _ _ =>
    match keyword.indexAfter .ZNAME with
    | none => .ok codec
    | some i => do
      let found ← header.getText keyword
      match found with
      | none => .ok codec
      | some name => do
        let zval ← Keyword.ZVAL.indexed i
        codec.withParameter header name zval
  | _ => .ok codec

/-- The codec with its parameters from `ZNAMEi` and `ZVALi`. -/
def readParameters (header : Header R) (codec : TileCodec) : Outcome TileCodec :=
  header.records.foldlM (readParameter header) codec

end TileCodec

/-- The offset between a stream of `PLIO_1` and the stored values of an image. -/
def plioOffset [PlaneReals R] (bitpix : Bitpix) (scaling : Scaling R) : ℤ :=
  if bitpix = .i16 ∧ PlaneReals.same scaling.bzero (RealText.ofI64 32768) then 32768 else 0

/-! ## The decoder -/

/-- What every tile of an image decodes with: the codec, the integers the tiles are stored at,
and the type of a float image. -/
structure TileDecoder where
  codec : TileCodec
  intBitpix : IntBitpix
  floatBitpix : Option FloatBitpix
  deriving DecidableEq, Repr

/-- The decoder of an image. A float image's tiles are integers of the width the codec stores
them at. -/
def TileDecoder.new [PlaneReals R] (header : Header R) (image : ImageGeometry R)
    (codec : TileCodec) : Outcome TileDecoder := do
  let codec ← codec.readParameters header
  let codec := match codec with
    | .plio _ => .plio ⟨plioOffset image.bitpix image.scaling⟩
    | codec => codec
  match Plane.of image.bitpix, codec with
  | .int bitpix, _ => .ok { codec := codec, intBitpix := bitpix, floatBitpix := none }
  | .float bitpix, .rice coder =>
    .ok { codec := codec, intBitpix := coder.bytepix, floatBitpix := some bitpix }
  | .float bitpix, _ => .ok { codec := codec, intBitpix := .i32, floatBitpix := some bitpix }

end FitsWell
