import FitsWell.Compression.Container
import FitsWell.Compression.TileDecoder
import FitsWell.Library.Tiling

/-!
# What a compressed write asks for

A write names a codec, the tiles and the quantization of floats. The codec that an image's type
gives, the tile shape and the plane of `HCOMPRESS_1` are resolved from it before a tile is
encoded.
-/

namespace FitsWell

open Gzip (Flate)
open Hcompress (HcompressScale)
open Tiling

variable {R : Type}

/-! ## The codec -/

/-- Whether a gzip codec shuffles its bytes first: `GZIP_1` or `GZIP_2`. -/
inductive GzipForm
  | plain
  | shuffled
  deriving DecidableEq, Repr

/-- A choice of codec. The scale of `HCOMPRESS_1` is the one its tiles are rounded at, and
`keywordValue` the one that the header names. -/
inductive Compression (R : Type)
  | gzip (form : GzipForm) (level : ℕ)
  | rice
  | plio
  | hcompress (scale : HcompressScale) (keywordValue : R)
  | none

namespace Compression

/-- The codec of a choice for samples of the type `bytepix`, the one `RICE_1` writes, and whose
`PLIO_1` stream holds each plus `offset`. -/
def tileCodec (compression : Compression R) (bytepix : IntBitpix) (offset : ℤ) : TileCodec :=
  match compression with
  | .gzip .plain level => .gzip1 level
  | .gzip .shuffled level => .gzip2 level
  | .rice => .rice ⟨Rice.blocksize, bytepix⟩
  | .plio => .plio ⟨offset⟩
  | .hcompress scale _ => .hcompress ⟨scale, .off, (0, 1)⟩
  | .none => .noCompress

/-- The scale of `HCOMPRESS_1` that the header names. -/
def keywordScale [RealText R] : Compression R → R
  | .hcompress _ value => value
  | _ => RealText.ofI64 0

end Compression

/-! ## The tiles -/

/-- The shortest side of a tile that `HCOMPRESS_1` takes. -/
def hcompressMinTile : ℕ := 4

/-- The default height of `HCOMPRESS_1` tiles for an image of `rows`: all of them up to 30, else
the first candidate that leaves no band too short. -/
def hcompressDefaultRows (rows : ℕ) : ℕ :=
  if rows ≤ 30 then rows
  else
    ([16, 24, 20, 30, 28, 26, 22, 18, 14].find? fun height =>
      rows % height = 0 ∨ hcompressMinTile ≤ rows % height).getD 17

/-- The tiles of an image where a write gives none: a row each, or for `HCOMPRESS_1` a band of
rows. -/
def defaultTiles (dims : List ℕ) (codec : TileCodec) : List ℕ :=
  dims.mapIdx fun axis length =>
    match axis, codec with
    | 0, _ => max length 1
    | 1, .hcompress _ => max (hcompressDefaultRows length) 1
    | _, _ => 1

/-- The tiles that a write gives, one length an axis and none empty, or the default ones. -/
def givenTiles (dims tiles : List ℕ) (codec : TileCodec) : Outcome (List ℕ) :=
  if tiles = [] then .ok (defaultTiles dims codec)
  else if tiles.length = dims.length then
    match tiles.findIdx? (· = 0) with
    | some axis => fail (.invalidCompressionParameter (.emptyTile axis))
    | none => .ok tiles
  else fail (.rankMismatch .tileShape dims.length tiles.length)

/-- Refuse an axis whose shortest tile, the last one included, `HCOMPRESS_1` does not take. -/
def checkHcompressAxis (axis length tile : ℕ) : Outcome Unit :=
  let tile := min tile length
  let shortest := if length % tile = 0 then tile else length % tile
  if tile ≠ 1 ∧ shortest < hcompressMinTile then fail (.hcompressTileTooSmall axis shortest)
  else .ok ()

/-- Refuse the tiles of `HCOMPRESS_1` that are too small. An image with no samples has none. -/
def checkHcompressTiles (dims tiles : List ℕ) (codec : TileCodec) : Outcome Unit :=
  match codec with
  | .hcompress _ =>
    if 0 ∈ dims then .ok ()
    else (dims.zip tiles).zipIdx.forM fun side =>
      checkHcompressAxis side.2 side.1.1 side.1.2
  | _ => .ok ()

/-- The tile shape of an image. -/
def resolveTileShape (dims tiles : List ℕ) (codec : TileCodec) : Outcome (List ℕ) := do
  let tiles ← givenTiles dims tiles codec
  checkHcompressTiles dims tiles codec
  .ok tiles

/-- A resolved shape tiles the image: each axis has a tile length, and none is empty. -/
theorem tiles_of_resolve {dims tiles shape : List ℕ} {codec : TileCodec}
    (h : resolveTileShape dims tiles codec = .ok shape) : Tiles dims shape := by
  obtain ⟨given, hgiven, h⟩ := Loops.ok_of_bind h
  obtain ⟨_, -, h⟩ := Loops.ok_of_bind h
  obtain rfl := Except.ok.inj h
  unfold givenTiles at hgiven
  split at hgiven
  · obtain rfl := Except.ok.inj hgiven
    refine ⟨by rw [defaultTiles, List.length_mapIdx], fun tile htile => ?_⟩
    obtain ⟨axis, hlt, rfl⟩ := List.mem_mapIdx.mp htile
    split <;> omega
  split at hgiven
  · rename_i hlength
    split at hgiven
    · cases hgiven
    · rename_i hnone
      obtain rfl := Except.ok.inj hgiven
      refine ⟨hlength, fun tile htile => Nat.pos_of_ne_zero ?_⟩
      simpa using List.findIdx?_eq_none_iff.mp hnone tile htile
  · cases hgiven

/-! ## The write -/

/-- A compressed write: the codec, the tiles, none for the default, and the spacing of floats,
with whether the write asks for a quantization itself. -/
structure CompressionRequest (R : Type) where
  compression : Compression R
  tiles : List ℕ
  spacing : Spacing
  quantizes : Bool

namespace CompressionRequest

variable [PlaneReals R] (request : CompressionRequest R)

/-- The configuration for an image of `dims` with a codec. -/
def configured (codec : TileCodec) (dims : List ℕ) : Outcome (CompressionConfig R) := do
  let tiles ← resolveTileShape dims request.tiles codec
  let codec ← codec.fitted dims tiles
  .ok {
    codec := codec
    scale := request.compression.keywordScale
    tiles := tiles
    spacing := request.spacing
    quantizes := request.quantizes }

/-- The configuration for an image, whose type and spacing give the codec. -/
def resolve (image : Image R) : Outcome (CompressionConfig R) :=
  match image with
  | .int image =>
    if request.quantizes then fail (.invalidCompressionParameter .integerQuantization)
    else
      let offset := plioOffset image.bitpix.bitpix image.scaling
      request.configured (request.compression.tileCodec image.bitpix offset) image.shape
  | .float image =>
    match request.spacing with
    | .none =>
      let codec := request.compression.tileCodec image.bitpix.integerWidth 0
      if codec.storesLosslessFloats then request.configured codec image.shape
      else fail (.unsupportedCompression (.losslessFloatCodec codec.name))
    | .quantized method _ => do
      let codec ← quantizedCodec (request.compression.tileCodec .i32 0) method
      request.configured codec image.shape

/-- Encode an image as a compressed container. -/
def compressImage (flate : Flate) (quantizer : Quantizer) (image : Image R) :
    Outcome (EncodedUnit R) :=
  if 999 < image.shape.length then
    fail (.invalidKeywordValue Keyword.NAXIS.asStr .ofRange)
  else do
    let config ← request.resolve image
    FitsWell.compressImage flate quantizer config image

end CompressionRequest

end FitsWell
