import FitsWell.BinTable.Schema
import FitsWell.Compression.TileCodec
import FitsWell.Compression.TileGeometry
import FitsWell.Hdu.Prologue
import FitsWell.ImageModel.ScalingHeader
import FitsWell.Library.Chunks

/-!
# The container of a compressed image

The encoder compresses an image tile by tile and lays the cells out as a binary table: a row of
descriptors a tile, and the cells one after another as the heap. The codec and the tile shape are
those that the configuration came to, and the float arithmetic of a quantizer is a parameter.
-/

namespace FitsWell

open Bytes Chunks
open Gzip (Flate)

variable {R : Type}

/-! ## Descriptors -/

/-- The narrower descriptor that addresses a heap of `heapLen` bytes and cells of up to
`maxCount` elements: `Q` once either is past the signed 32-bit range. -/
def DescriptorWidth.addressing (heapLen maxCount : ℕ) : DescriptorWidth :=
  if 2 ^ 31 - 1 < heapLen ∨ 2 ^ 31 - 1 < maxCount then .Q else .P

/-- The format of a column of arrays of up to `longest` elements. -/
def arrayForm (width : DescriptorWidth) (kind : ElementKind) (longest : ℕ) : Text :=
  ascii "1" ++ [width.letter, kind.code] ++ ascii "(" ++ Decimal.numeral longest ++ ascii ")"

namespace TileCodec

/-- The `ZCMPTYPE` spelling of a codec. -/
def name : TileCodec → Text
  | .gzip1 _ => ascii "GZIP_1"
  | .gzip2 _ => ascii "GZIP_2"
  | .rice _ => ascii "RICE_1"
  | .plio _ => ascii "PLIO_1"
  | .hcompress _ => ascii "HCOMPRESS_1"
  | .noCompress => ascii "NOCOMPRESS"

/-- Whether a float image's tiles may be stored losslessly. -/
def storesLosslessFloats : TileCodec → Bool
  | .gzip1 _ | .gzip2 _ => true
  | _ => false

/-- The element type of a stream's array: the words of `PLIO_1`, or bytes. -/
def streamKind : TileCodec → ElementKind
  | .plio _ => .i16
  | _ => .u8

end TileCodec

/-! ## The layout -/

/-- A compressed container as an encoder hands it to the writer: its header, the rows of its
main table, and its heap as the encoded cells in order. -/
structure EncodedUnit (R : Type) where
  header : Header R
  rows : List UInt8
  heap : List (List UInt8)

/-- The data unit as the writer emits it. -/
def EncodedUnit.data (unit : EncodedUnit R) : List UInt8 := unit.rows ++ unit.heap.flatten

/-- The length of the heap that cells make. -/
def cellsLen (cells : List (List UInt8)) : Outcome ℕ :=
  cells.foldlM (fun len cell => orOverflow (checkedAdd len cell.length)) 0

/-- Fill the row of a cell with `write`, given the place in the heap after the cells before
it. -/
def layRow {α : Type} (write : List UInt8 → ℕ → α → Outcome (List UInt8))
    (bytes : α → List UInt8) (state : ℕ × List (List UInt8)) (slot : List UInt8 × α) :
    Outcome (ℕ × List (List UInt8)) := do
  let row ← write slot.1 state.1 slot.2
  let offset ← addUsize state.1 (bytes slot.2).length
  .ok (offset, state.2 ++ [row])

/-- The rows of a container of cells. -/
def layRows {α : Type} (write : List UInt8 → ℕ → α → Outcome (List UInt8))
    (bytes : α → List UInt8) (rowLen : ℕ) (cells : List α) : Outcome (List UInt8) := do
  let rowsLen ← orOverflow (checkedMul cells.length rowLen)
  tryReserveExact 0 rowsLen
  let rows := List.replicate rowsLen 0
  let written ← ((wholeChunks (rowLen - 1) rows).zip cells).foldlM (layRow write bytes) (0, [])
  .ok (written.2.flatten ++ rows.drop (written.2.length * rowLen))

section Header

variable [RealText R]

/-- The header of a compressed image's container, up to its columns. -/
def containerHeader (rowLen rowCount fieldCount heapLen : ℕ) : Outcome (Header R) := do
  let header ← Prologue.header {
    opening := .extension .binTable
    bitpix := .u8
    axes := [rowLen, rowCount]
    pcount := heapLen }
  let fields ← fitsI64 fieldCount
  header.setInternal .TFIELDS (.ofInt fields)

/-- Set the name and the format of column `n`. -/
def setColumn (header : Header R) (n : ℕ) (name form : Text) : Outcome (Header R) := do
  let ttype ← Keyword.TTYPE.indexed n
  let header ← header.setInternal ttype (.text name)
  let tform ← Keyword.TFORM.indexed n
  header.setInternal tform (.text form)

/-- The `ZIMAGE` records of an image of `dims` in tiles of `tiles`. -/
def setZimageAxes (header : Header R) (cmptype : Text) (zbitpix : Bitpix)
    (dims tiles : List ℕ) : Outcome (Header R) := do
  let header ← header.setCommented .ZIMAGE (.logical true)
    (ascii "this is a tiled-compressed image")
  let header ← header.setAll [(.ZCMPTYPE, .text cmptype), (.ZBITPIX, .ofInt zbitpix.code)]
  let znaxis ← fitsI64 dims.length
  let header ← header.setInternal .ZNAXIS (.ofInt znaxis)
  let header ← header.setIndexed .ZNAXIS dims
  header.setIndexed .ZTILE tiles

/-- Set the name and the value of the parameter `n` of a codec. -/
def setParameter (header : Header R) (n : ℕ) (name : Text) (value : Outcome (Value R)) :
    Outcome (Header R) := do
  let zname ← Keyword.ZNAME.indexed n
  let header ← header.setInternal zname (.text name)
  let zval ← Keyword.ZVAL.indexed n
  let value ← value
  header.setInternal zval value

/-- The parameters of a codec: the block size and the pixel width of `RICE_1`, and the scale of
`HCOMPRESS_1`, which is `scale` as a keyword holds it. -/
def setCodecParameters (header : Header R) (codec : TileCodec) (scale : R) :
    Outcome (Header R) :=
  match codec with
  | .rice coder => do
    let header ← setParameter header 1 (ascii "BLOCKSIZE") do
      let blocksize ← fitsI64 coder.blocksize
      .ok (.ofInt blocksize)
    setParameter header 2 (ascii "BYTEPIX") do
      let bytepix ← fitsI64 coder.bytepix.elemSize
      .ok (.ofInt bytepix)
  | .hcompress _ => setParameter header 1 (ascii "SCALE") (.ok (.real scale))
  | .gzip1 _ | .gzip2 _ | .plio _ | .noCompress => .ok header

end Header

/-! ## One column of cells -/

/-- The descriptor of a cell at `offset` in the heap. -/
def writeCell (element : ℕ) (width : DescriptorWidth) (slot : List UInt8) (offset : ℕ)
    (cell : List UInt8) : Outcome (List UInt8) :=
  PqDescriptor.write ⟨cell.length / element, offset⟩ width slot 0

/-- The most elements a cell holds. -/
def longestCell (element : ℕ) (cells : List (List UInt8)) : ℕ :=
  (cells.map fun cell => cell.length / element).max?.getD 0

/-- Lay out one cell a tile: a descriptor for each, its offset the length of the cells before
it, then the cells themselves as the heap. -/
def layOutCells [RealText R] (cells : List (List UInt8)) (codec : TileCodec) :
    Outcome (EncodedUnit R) := do
  let heap ← cellsLen cells
  let kind := codec.streamKind
  let longest := longestCell kind.elemSize cells
  let width := DescriptorWidth.addressing heap longest
  let rows ← layRows (writeCell kind.elemSize width) id width.bytes cells
  let header ← containerHeader width.bytes cells.length 1 heap
  let header ← setColumn header 1 (ascii "COMPRESSED_DATA") (arrayForm width kind longest)
  .ok { header := header, rows := rows, heap := cells }

/-! ## Encoding tiles -/

/-- The tiles of an image of `sampleCount` samples: none for an image of no samples. -/
def TileGeometry.tileCount (sampleCount : ℕ) (geometry : TileGeometry) : Outcome ℕ :=
  if sampleCount = 0 then .ok 0 else geometry.ntiles

/-- Run `encode` on each tile of an image, in order. -/
def mapTiles {α : Type} (dims tiles : List ℕ) (sampleCount : ℕ)
    (encode : ℕ → TileScratch → Outcome α) : Outcome (List α) := do
  let geometry ← TileGeometry.new dims tiles
  let ntiles ← TileGeometry.tileCount sampleCount geometry
  (List.range ntiles).mapM fun t => do
    let tile ← geometry.tileInto t
    encode t tile

/-- A tile's samples, row by row. -/
def gatherRows {α : Type} (values : List α) (tile : TileScratch) : Outcome (List α) := do
  let rows ← tile.rowBases.mapM fun base => subslice values base tile.rowLen
  .ok rows.flatten

/-- An integer image: its shape, its samples and their type, and their map. -/
structure IntImage (R : Type) where
  shape : List ℕ
  samples : List ℤ
  bitpix : IntBitpix
  scaling : Scaling R

/-- The cells of an integer image. -/
def IntImage.encodeCells (flate : Flate) (image : IntImage R) (codec : TileCodec)
    (tiles : List ℕ) : Outcome (List (List UInt8)) :=
  mapTiles image.shape tiles image.samples.length fun _ tile => do
    let ints ← gatherRows image.samples tile
    codec.encode flate ⟨tile.tdims, image.bitpix, image.scaling.blank⟩ (.ints ints)

/-- The least and the greatest sample of a type. -/
def IntBitpix.bounds : IntBitpix → ℤ × ℤ
  | .u8 => (0, 2 ^ 8 - 1)
  | .i16 => (-2 ^ 15, 2 ^ 15 - 1)
  | .i32 => (-2 ^ 31, 2 ^ 31 - 1)
  | .i64 => (-2 ^ 63, 2 ^ 63 - 1)

/-- Refuse the first sample whose stream value `PLIO_1` does not hold. No sample is read where
it holds each value of their type. -/
def Plio.Codec.check (codec : Plio.Codec) (bitpix : IntBitpix) (values : List ℤ) :
    Outcome Unit :=
  let streamed := fun value : ℤ => Plio.streamRange (value + codec.offset)
  if streamed bitpix.bounds.1 && streamed bitpix.bounds.2 then
    .ok ()
  else
    match values.findIdx? fun value => !streamed value with
    | none => .ok ()
    | some index => do
      let value ← load values index
      fail (.plioValueOutOfRange index value)

/-- Refuse samples that `PLIO_1` does not take. -/
def IntImage.check (image : IntImage R) (codec : TileCodec) : Outcome Unit :=
  match codec with
  | .plio coder => coder.check image.bitpix image.samples
  | _ => .ok ()

/-- Encode an integer image in tiles of `tiles`. -/
def IntImage.compress [PlaneReals R] (flate : Flate) (image : IntImage R) (codec : TileCodec)
    (scale : R) (tiles : List ℕ) : Outcome (EncodedUnit R) := do
  image.check codec
  let cells ← image.encodeCells flate codec tiles
  let unit ← layOutCells cells codec
  let header ← setZimageAxes unit.header codec.name image.bitpix.bitpix image.shape tiles
  let header ← setCodecParameters header codec scale
  let header ← image.scaling.addToHeader header image.bitpix.bitpix
  .ok { unit with header := header }

/-! ## Float images -/

/-- A float `BITPIX`. -/
inductive FloatBitpix
  | f32
  | f64
  deriving DecidableEq, Repr

def FloatBitpix.bitpix : FloatBitpix → Bitpix
  | .f32 => .f32
  | .f64 => .f64

/-- The integer type of the same width. -/
def FloatBitpix.integerWidth : FloatBitpix → IntBitpix
  | .f32 => .i32
  | .f64 => .i64

/-- A float image: its shape, the bits of its samples and their type, and their map. -/
structure FloatImage (R : Type) where
  shape : List ℕ
  samples : List ℕ
  bitpix : FloatBitpix
  scaling : Scaling R

/-- A tile's floats as their big-endian bytes. -/
def FloatImage.gatherBe (image : FloatImage R) (tile : TileScratch) : Outcome (List UInt8) := do
  let bits ← gatherRows image.samples tile
  .ok (bits.flatMap (beBytes image.bitpix.bitpix.elemSize))

/-- The cells of a float image that is stored losslessly. -/
def FloatImage.encodeCells (flate : Flate) (image : FloatImage R) (codec : TileCodec)
    (tiles : List ℕ) : Outcome (List (List UInt8)) :=
  mapTiles image.shape tiles image.samples.length fun _ tile => do
    let bytes ← image.gatherBe tile
    codec.encode flate ⟨tile.tdims, image.bitpix.integerWidth, none⟩ (.bytes bytes)

/-- Encode a float image losslessly, with a gzip codec. -/
def compressLosslessFloatImage [PlaneReals R] (flate : Flate) (image : FloatImage R)
    (codec : TileCodec) (tiles : List ℕ) : Outcome (EncodedUnit R) :=
  if codec.storesLosslessFloats then do
    let cells ← image.encodeCells flate codec tiles
    let unit ← layOutCells cells codec
    let header ← setZimageAxes unit.header codec.name image.bitpix.bitpix image.shape tiles
    let header ← header.setInternal .ZQUANTIZ (.text (ascii "NONE"))
    let header ← image.scaling.addToHeader header image.bitpix.bitpix
    .ok { unit with header := header }
  else
    fail (.unsupportedCompression (.losslessFloatCodec codec.name))

/-- How the quantized values are dithered. -/
inductive DitherMethod
  | none
  | subtractive1
  | subtractive2
  deriving DecidableEq, Repr

def DitherMethod.name : DitherMethod → Text
  | .none => ascii "NO_DITHER"
  | .subtractive1 => ascii "SUBTRACTIVE_DITHER_1"
  | .subtractive2 => ascii "SUBTRACTIVE_DITHER_2"

/-- What inverts a tile's quantization, as the bits of two doubles, and whether a pixel was
null. -/
structure Quantized where
  bscale : ℕ
  bzero : ℕ
  hasNull : Bool
  deriving DecidableEq, Repr

/-- The float arithmetic of a quantizer: the quantization of the tile `index`, whose rows are
`width` long, where its floats have one, and the integer of each of them. -/
structure Quantizer where
  levels : (values : List ℕ) → (width index : ℕ) → Option Quantized
  quantum : Quantized → (index place : ℕ) → (bits : ℕ) → ℤ

/-- Quantize a tile, one integer a float. A tile of fewer than two floats does not quantize. -/
def Quantizer.quantize (quantizer : Quantizer) (values : List ℕ) (width index : ℕ) :
    Option (Quantized × List ℤ) :=
  if values.length ≤ 1 then none
  else do
    let quantized ← quantizer.levels values width index
    some (quantized, values.mapIdx (quantizer.quantum quantized index))

/-- One encoded float tile: quantized integers with what inverts them, or the raw floats of a
tile that does not quantize. -/
inductive FloatTile
  | quantized (bytes : List UInt8) (zscale zzero : ℕ) (hasNull : Bool)
  | raw (bytes : List UInt8)
  deriving DecidableEq, Repr

namespace FloatTile

def bytes : FloatTile → List UInt8
  | .quantized bytes _ _ _ | .raw bytes => bytes

/-- The bytes of a tile's `COMPRESSED_DATA` cell. -/
def compressed : FloatTile → List UInt8
  | .quantized bytes _ _ _ => bytes
  | .raw _ => []

/-- The bytes of a tile's `GZIP_COMPRESSED_DATA` cell. -/
def gzipped : FloatTile → List UInt8
  | .quantized _ _ _ _ => []
  | .raw bytes => bytes

/-- The doubles of a tile, zeros where there is nothing to invert. -/
def scales : FloatTile → ℕ × ℕ
  | .quantized _ zscale zzero _ => (zscale, zzero)
  | .raw _ => (0, 0)

def hasNull : FloatTile → Bool
  | .quantized _ _ _ hasNull => hasNull
  | .raw _ => false

end FloatTile

/-- The codec of a quantized image's integers: any but `PLIO_1`, and `HCOMPRESS_1` not with the
dither that keeps zeros. -/
def quantizedCodec (codec : TileCodec) (method : DitherMethod) : Outcome TileCodec :=
  match codec with
  | .plio _ => fail (.unsupportedCompression (.quantizedFloatCodec codec.name))
  | .hcompress _ =>
    if method = .subtractive2 then fail (.invalidCompressionParameter .hcompressDither2)
    else .ok codec
  | _ => .ok codec

/-- The codec of a tile that does not quantize, at the level of the image's codec. -/
def rawCodec : TileCodec → TileCodec
  | .gzip1 level | .gzip2 level => .gzip1 level
  | _ => .gzip1 1

/-- The reserved integer of a quantized null. -/
def nullValue : ℤ := -2147483647

/-- A quantized image's encoded tiles, with what its container's header records. -/
structure QuantizedFloatImage (R : Type) where
  tiles : List FloatTile
  codec : TileCodec
  scale : R
  zbitpix : FloatBitpix
  shape : List ℕ
  tileShape : List ℕ
  method : DitherMethod
  zdither0 : Option ℤ
  scaling : Scaling R

namespace QuantizedFloatImage

/-- Encode a tile: its quantized integers, or its floats where they have none. -/
def encodeTile (flate : Flate) (quantizer : Quantizer) (image : FloatImage R)
    (codec : TileCodec) (t : ℕ) (tile : TileScratch) : Outcome FloatTile := do
  let floats ← gatherRows image.samples tile
  let width ← load tile.tdims 0
  match quantizer.quantize floats width t with
  | none => do
    let raw ← image.gatherBe tile
    let bytes ← (rawCodec codec).encode flate
      ⟨tile.tdims, image.bitpix.integerWidth, none⟩ (.bytes raw)
    .ok (.raw bytes)
  | some (q, ints) => do
    let bytes ← codec.encode flate
      ⟨tile.tdims, .i32, if q.hasNull then some nullValue else none⟩ (.ints ints)
    .ok (.quantized bytes q.bscale q.bzero q.hasNull)

/-- Quantize each tile, and compress its integers. -/
def encode (flate : Flate) (quantizer : Quantizer) (image : FloatImage R) (codec : TileCodec)
    (scale : R) (tileShape : List ℕ) (method : DitherMethod) (zdither0 : Option ℤ) :
    Outcome (QuantizedFloatImage R) := do
  let codec ← quantizedCodec codec method
  let tiles ← mapTiles image.shape tileShape image.samples.length
    (encodeTile flate quantizer image codec)
  .ok {
    tiles := tiles
    codec := codec
    scale := scale
    zbitpix := image.bitpix
    shape := image.shape
    tileShape := tileShape
    method := method
    zdither0 := zdither0
    scaling := image.scaling }

variable (encoded : QuantizedFloatImage R)

def heapLen : Outcome ℕ := cellsLen (encoded.tiles.map FloatTile.bytes)

/-- The longest cell of the quantized tiles, and of the raw ones. -/
def longestCells : ℕ × ℕ :=
  encoded.tiles.foldl (fun longest tile =>
    match tile with
    | .quantized bytes _ _ _ => (max longest.1 bytes.length, longest.2)
    | .raw bytes => (longest.1, max longest.2 bytes.length)) (0, 0)

/-- The narrowest descriptors that address the heap. -/
def addressing : Outcome DescriptorWidth := do
  let heap ← encoded.heapLen
  .ok (.addressing heap (max encoded.longestCells.1 encoded.longestCells.2))

/-- A tile's row: the descriptors of both its cells, and its doubles. -/
def writeTile (width : DescriptorWidth) (row : List UInt8) (offset : ℕ) (tile : FloatTile) :
    Outcome (List UInt8) := do
  let row ← PqDescriptor.write ⟨tile.compressed.length, offset⟩ width row 0
  let row ← PqDescriptor.write ⟨tile.gzipped.length, offset⟩ width row width.bytes
  let row ← copySlice row (2 * width.bytes) (beBytes 8 tile.scales.1) 0 8
  copySlice row (2 * width.bytes + 8) (beBytes 8 tile.scales.2) 0 8

/-- Lay out the container: for each tile the descriptors of both cells and the doubles, then
the tiles as the heap. -/
def layOut [PlaneReals R] (width : DescriptorWidth) : Outcome (EncodedUnit R) := do
  let heap ← encoded.heapLen
  let longest := encoded.longestCells
  let rowLen := 2 * width.bytes + 16
  let rows ← layRows (writeTile width) FloatTile.bytes rowLen encoded.tiles
  let header ← containerHeader rowLen encoded.tiles.length 4 heap
  let header ← setColumn header 1 (ascii "COMPRESSED_DATA") (arrayForm width .u8 longest.1)
  let header ← setColumn header 2 (ascii "GZIP_COMPRESSED_DATA") (arrayForm width .u8 longest.2)
  let header ← setColumn header 3 (ascii "ZSCALE") (ascii "1D")
  let header ← setColumn header 4 (ascii "ZZERO") (ascii "1D")
  let header ← setZimageAxes header encoded.codec.name encoded.zbitpix.bitpix encoded.shape
    encoded.tileShape
  let header ← setCodecParameters header encoded.codec encoded.scale
  let header ← header.setInternal .ZQUANTIZ (.text encoded.method.name)
  let header ← header.setAll ((encoded.zdither0.map fun seed => (.ZDITHER0, .ofInt seed)).toList ++
    if encoded.tiles.any FloatTile.hasNull then [(.ZBLANK, .ofInt nullValue)] else [])
  let header ← encoded.scaling.addToHeader header encoded.zbitpix.bitpix
  .ok { header := header, rows := rows, heap := encoded.tiles.map FloatTile.bytes }

end QuantizedFloatImage

/-! ## An image -/

/-- How a float image's values are spaced: as they are, or quantized with a dither, whose start
in the random sequence is `zdither0`. -/
inductive Spacing
  | none
  | quantized (method : DitherMethod) (zdither0 : Option ℤ)
  deriving DecidableEq, Repr

/-- What a configuration comes to for an image: the codec fitted to its tiles, the scale of
`HCOMPRESS_1` as a keyword holds it, the tile shape, the spacing of floats, and whether the
configuration itself asks for a quantization. -/
structure CompressionConfig (R : Type) where
  codec : TileCodec
  scale : R
  tiles : List ℕ
  spacing : Spacing
  quantizes : Bool

/-- An image to compress. -/
inductive Image (R : Type)
  | int (image : IntImage R)
  | float (image : FloatImage R)

def Image.shape : Image R → List ℕ
  | .int image => image.shape
  | .float image => image.shape

section Images

variable [PlaneReals R] (flate : Flate) (quantizer : Quantizer) (config : CompressionConfig R)

/-- Encode a float image, losslessly or quantized, with descriptors as wide as its heap
needs. -/
def compressFloatImage (image : FloatImage R) : Outcome (EncodedUnit R) :=
  match config.spacing with
  | .none => compressLosslessFloatImage flate image config.codec config.tiles
  | .quantized method zdither0 => do
    let encoded ← QuantizedFloatImage.encode flate quantizer image config.codec config.scale
      config.tiles method zdither0
    let width ← encoded.addressing
    encoded.layOut width

/-- Encode an image as a compressed container. -/
def compressImage (image : Image R) : Outcome (EncodedUnit R) :=
  if 999 < image.shape.length then
    fail (.invalidKeywordValue Keyword.NAXIS.asStr .ofRange)
  else
    match image with
    | .float image => compressFloatImage flate quantizer config image
    | .int image =>
      if config.quantizes then fail (.invalidCompressionParameter .integerQuantization)
      else image.compress flate config.codec config.scale config.tiles

end Images

end FitsWell
