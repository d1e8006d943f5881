import FitsWell.Compression.FloatQuantization

/-!
# Reading a compressed image

What a container's header says of its image, resolved once, and the decode of all its tiles. A
read opens the image from its header and its container, and decodes into a plane of the image's
samples.
-/

namespace FitsWell

open Gzip (Flate)

variable {R : Type} [PlaneReals R]

/-! ## The header -/

/-- The tile extents of an image: a whole row, and one of every higher axis, where none is
given. -/
def tileShape (header : Header R) (dims : List ℕ) : Outcome (List ℕ) :=
  dims.zipIdx.mapM fun dim => do
    let keyword ← Keyword.ZTILE.indexed (dim.2 + 1)
    let value ← header.getInteger keyword
    match value with
    | none => .ok (if dim.2 = 0 then max dim.1 1 else 1)
    | some value =>
      if 0 < value then .ok value.toNat
      else fail (.invalidKeywordValue keyword.asStr .ofRange)

/-- The codec that `keyword` names. -/
def codecNamed (header : Header R) (keyword : Keyword) : Outcome (Option TileCodec) := do
  let name ← header.getText keyword
  match name with
  | none => .ok none
  | some name => do
    let codec ← TileCodec.parse name
    .ok (some codec)

/-- The image of a container, with what its header says of the codec, the tiles, the nulls and
the quantization. -/
structure TiledImage (R : Type) where
  image : ImageGeometry R
  geometry : TileGeometry
  decoder : TileDecoder
  maskCodec : Option TileCodec
  zblank : Option ℤ
  float : Option (FloatKeywords R)

namespace TiledImage

/-- The keywords of a float image. -/
def floatKeywords (header : Header R) (bitpix : Bitpix) : Outcome (Option (FloatKeywords R)) :=
  match Plane.of bitpix with
  | .int _ => .ok none
  | .float _ => do
    let keywords ← FloatKeywords.read header
    .ok (some keywords)

def new (header : Header R) (image : ImageGeometry R) : Outcome (TiledImage R) := do
  let codec ← codecNamed header .ZCMPTYPE
  let codec ← orMissing .ZCMPTYPE codec
  let tiles ← tileShape header image.shape
  let codec ← codec.fitted image.shape tiles
  let geometry ← TileGeometry.new image.shape tiles
  let rowsKeyword ← Keyword.NAXIS.indexed 2
  let containerRows ← header.requireUsize rowsKeyword
  let ntiles ← geometry.ntiles
  if containerRows ≠ ntiles then
    fail (SizeUnit.rows.mismatch ntiles containerRows)
  else do
    let decoder ← TileDecoder.new header image codec
    let maskCodec ← codecNamed header .ZMASKCMP
    let zblank ← header.getInteger .ZBLANK
    let float ← floatKeywords header image.bitpix
    .ok { image := image, geometry := geometry, decoder := decoder, maskCodec := maskCodec
          zblank := zblank, float := float }

end TiledImage

/-! ## The decode -/

/-- What a decode reads of a container's table, beside the header. -/
structure TilePlan (R : Type) where
  sources : TileSources
  nulls : NullMask
  quantization : Option (FloatQuantization R)

namespace TiledImage

variable (tiled : TiledImage R)

/-- The null that the tiles store, and a float image's quantization. -/
def resolveNulls (index : TileIndex R) :
    Outcome (TileValue ℤ × Option (FloatQuantization R)) :=
  let zblank := TileValue.new tiled.zblank index.zblank
  match tiled.float with
  | none => .ok (zblank.or tiled.image.scaling.blank, none)
  | some keywords => do
    let quantization ← keywords.quantization zblank index tiled.decoder.codec
    .ok (.absent, some quantization)

/-- What a decode of a table reads. -/
def plan (table : NamedTable) (index : TileIndex R) : Outcome (TilePlan R) := do
  let resolved ← tiled.resolveNulls index
  let sources ← TileSources.read table
  let nulls ← NullMask.read table tiled.maskCodec
    { blank := tiled.image.scaling.blank, stored := resolved.1 }
  .ok { sources := sources, nulls := nulls, quantization := resolved.2 }

variable (flate : Flate) (capacity : ℕ) (plan : TilePlan R) (rowCount : ℕ)

/-- The decode of the tiles of an integer image. -/
def intTiles (sample : DecodeSample ℤ ℤ) : ImageDecodePlan ℕ ℤ ℤ where
  geometry := tiled.geometry
  rows := List.range rowCount
  sample := sample
  reconstruct := fun row tile scratch => do
    let source ← plan.sources.source row
    let decoded ← tiled.decoder.decodeTile flate capacity source scratch
    let elements ← scratch.nelem
    let values ← plan.nulls.applyInteger flate capacity row tile elements decoded.1
    .ok (values, decoded.2)

/-- The stored floats of a plane of floats: every value is one. -/
def floatSample : DecodeSample ℕ ℕ where
  fit := fun values _ => .ok values
  narrow := fun wide => wide
  length_fit := fun values _ fitted h => by rw [← Except.ok.inj h]

/-- The decode of the tiles of a float image. -/
def floatTiles (floats : FloatSample R) : ImageDecodePlan ℕ ℕ ℕ where
  geometry := tiled.geometry
  rows := List.range rowCount
  sample := floatSample
  reconstruct := fun row tile scratch => do
    let source ← plan.sources.source row
    match plan.quantization with
    | none => abort .expectation
    | some quantization => do
      let values ← tiled.decoder.decodeFloatTile flate capacity floats source
        (quantization.encoding tile) scratch
      let elements ← scratch.nelem
      let values ← plan.nulls.applyFloat flate capacity row elements floats.nan values
      .ok (values, .refuse)

end TiledImage

/-- The type that integers are stored as. -/
def IntBitpix.sample : IntBitpix → DecodeSample ℤ ℤ
  | .u8 => .u8
  | .i16 => .i16
  | .i32 => .i32
  | .i64 => .i64

/-- The samples of an image: integers, or the bits of floats. -/
inductive Data
  | ints (values : List ℤ)
  | floats (values : List ℕ)
  deriving DecidableEq, Repr

/-- How a read runs: its workers, the tiles of a wave, and the room of the buffers it reuses. -/
structure DecodeSettings where
  threads : ℕ
  limit : ℕ
  capacity : ℕ

/-! ## Reading -/

/-- A compressed image that a reader has opened, over its container's data unit. -/
structure CompressedReader (R : Type) where
  tiled : TiledImage R
  schema : NamedSchema R
  index : TileIndex R
  bytes : List UInt8

namespace CompressedReader

/-- The container of an image, and the rows of it that every read needs. -/
def openImage (header : Header R) [LawfulWords R] (bytes : List UInt8) :
    Outcome (CompressedReader R) := do
  let kind ← HduKind.fromHeader header .extension
  let image ← ImageGeometry.fromHeader header kind
  let tiled ← TiledImage.new header image
  let schema ← NamedSchema.parse header
  let index ← TileIndex.read schema bytes
  .ok { tiled := tiled, schema := schema, index := index, bytes := bytes }

variable (reader : CompressedReader R) (flate : Flate) (floats : FloatBitpix → FloatSample R)
  (settings : DecodeSettings)

/-- The container's table. -/
def table : Outcome NamedTable := do
  let view ← TableView.new reader.schema.toSchema reader.bytes
  .ok { view with names := reader.schema.names }

/-- The whole image. -/
def read : Outcome Data := do
  let table ← reader.table
  let tiled := reader.tiled
  let count := table.extent.rowCount
  match Plane.of tiled.image.bitpix with
  | .int bitpix =>
    if tiled.image.len = 0 then
      .ok (.ints [])
    else do
      let plan ← tiled.plan table reader.index
      let tiles := tiled.intTiles flate settings.capacity plan count bitpix.sample
      let values ← tiles.decodeInto settings.threads settings.limit none
        (List.replicate tiled.image.len 0) id
      .ok (.ints values)
  | .float bitpix =>
    if tiled.image.len = 0 then
      .ok (.floats [])
    else do
      let plan ← tiled.plan table reader.index
      let tiles := tiled.floatTiles flate settings.capacity plan count (floats bitpix)
      let values ← tiles.decodeInto settings.threads settings.limit none
        (List.replicate tiled.image.len 0) id
      .ok (.floats values)

end CompressedReader

end FitsWell
