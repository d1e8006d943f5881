import FitsWell.Compression.TileSources

/-!
# The quantization of a float image's tiles

A float image's tiles hold its floats, or the integers they were quantized to, with the scale, the
zero and the dither that give the floats back. The arithmetic of floats is a parameter.
-/

namespace FitsWell

open Bytes
open Gzip (Flate)

variable {R : Type}

/-! ## Keywords -/

def Keyword.ZSCALE : Keyword := ⟨ascii "ZSCALE", by decide⟩
def Keyword.ZZERO : Keyword := ⟨ascii "ZZERO", by decide⟩

/-- The method that a `ZQUANTIZ` names. -/
def DitherMethod.parse (name : Text) : Option DitherMethod :=
  if name = ascii "NO_DITHER" then some .none
  else if name = ascii "SUBTRACTIVE_DITHER_1" then some .subtractive1
  else if name = ascii "SUBTRACTIVE_DITHER_2" then some .subtractive2
  else none

/-- Whether a method dithers. -/
def DitherMethod.dithered (method : DitherMethod) : Bool := method != .none

/-- A `ZQUANTIZ`: lossless, a method, or another name, which only a quantized image is refused
for. -/
inductive Quantiz
  | none
  | method (method : DitherMethod)
  | unknown (name : Text)
  deriving DecidableEq, Repr

/-- The quantization that a name spells. -/
def Quantiz.parse (name : Text) : Quantiz :=
  if name = ascii "NONE" then .none
  else
    match DitherMethod.parse name with
    | some found => .method found
    | Option.none => .unknown name

/-- What a float image's header says of its quantization. -/
structure FloatKeywords (R : Type) where
  quantiz : Quantiz
  zdither0 : ℤ
  zscale : Option R
  zzero : Option R

/-- Refuse the seed of a dither that is out of range. -/
def FloatKeywords.checkSeed (quantiz : Quantiz) (zdither0 : ℤ) : Outcome Unit :=
  match quantiz with
  | .method dither =>
    if dither.dithered ∧ ¬(1 ≤ zdither0 ∧ zdither0 ≤ 10000) then
      fail (.invalidKeywordValue Keyword.ZDITHER0.asStr .ofRange)
    else
      .ok ()
  | _ => .ok ()

def FloatKeywords.read [PlaneReals R] (header : Header R) : Outcome (FloatKeywords R) := do
  let name ← header.getText .ZQUANTIZ
  let quantiz := Quantiz.parse (name.getD (ascii "NO_DITHER"))
  let zdither0 ← header.getInteger .ZDITHER0
  let zdither0 := zdither0.getD 1
  FloatKeywords.checkSeed quantiz zdither0
  let zscale ← header.getReal .ZSCALE
  let zzero ← header.getReal .ZZERO
  .ok { quantiz := quantiz, zdither0 := zdither0, zscale := zscale, zzero := zzero }

/-! ## Tiles -/

/-- What gives the floats of one tile back: a scale and a zero, the method and the start of its
dither, and the null. -/
structure Dequant (R : Type) where
  scale : R
  zero : R
  method : DitherMethod
  irow : ℤ
  zblank : Option ℤ

/-- What gives the floats of every tile back. -/
structure Dequantization (R : Type) where
  method : DitherMethod
  zdither0 : ℤ
  zscale : TileValue R
  zzero : TileValue R
  zblank : TileValue ℤ

/-- How a float image's tiles hold their values. -/
inductive FloatQuantization (R : Type)
  | lossless (codec : TileCodec)
  | quantized (quantized : Dequantization R)

/-- How one tile holds its values. -/
inductive FloatEncoding (R : Type)
  | lossless (codec : TileCodec)
  | quantized (dequant : Dequant R)

variable [PlaneReals R]

/-- The parameters of a tile: a scale of 1 and a zero of 0 where none is given. -/
def Dequantization.dequant (quantized : Dequantization R) (tile : ℕ) : Dequant R where
  scale := (quantized.zscale.atTile tile).getD (RealText.ofI64 1)
  zero := (quantized.zzero.atTile tile).getD (RealText.ofI64 0)
  method := quantized.method
  irow := tile + quantized.zdither0
  zblank := quantized.zblank.atTile tile

def FloatQuantization.encoding (quantization : FloatQuantization R) (tile : ℕ) :
    FloatEncoding R :=
  match quantization with
  | .lossless codec => .lossless codec
  | .quantized tiles => .quantized (tiles.dequant tile)

/-- The quantization that an image declares, by its keywords, by the null its tiles store and by
its container. Without a scale and a zero its tiles hold their floats, whatever it names. -/
def FloatKeywords.quantization (keywords : FloatKeywords R) (zblank : TileValue ℤ)
    (index : TileIndex R) (codec : TileCodec) : Outcome (FloatQuantization R) :=
  let zscale := TileValue.new keywords.zscale index.zscale
  let zzero := TileValue.new keywords.zzero index.zzero
  let lossless : Outcome (FloatQuantization R) :=
    if codec.storesLosslessFloats then .ok (.lossless codec)
    else fail (.unsupportedCompression (.losslessFloatCodec codec.name))
  match keywords.quantiz, zscale, zzero with
  | .none, _, _ => lossless
  | _, .absent, .absent => lossless
  | .unknown name, _, _ => fail (.unsupportedCompression (.quantization name))
  | .method dither, _, _ =>
    .ok (.quantized { method := dither, zdither0 := keywords.zdither0, zscale := zscale
                      zzero := zzero, zblank := zblank })

/-! ## Floats -/

/-- The float arithmetic of a decode into one type: the bits of a value from an integer of a
tile, by its place in the tile, and from the bytes of a float of the other width. -/
structure FloatSample (R : Type) where
  bitpix : FloatBitpix
  nan : ℕ
  value : Dequant R → (place : ℕ) → (quantum : ℤ) → ℕ
  ofOther : List UInt8 → ℕ

/-- The integer that a dither keeps for a float of zero. -/
def zeroValue : ℤ := -2147483646

namespace FloatSample

variable (floats : FloatSample R)

/-- The bits of the floats of bytes. -/
def decodeBe (bytes : List UInt8) : Outcome (List ℕ) := do
  let size := floats.bitpix.bitpix.elemSize
  debugAssert (bytes.length % size = 0)
  .ok ((List.range (bytes.length / size)).map fun j => ofBeBytes (Chunks.chunk bytes size j))

/-- The bits of the floats of bytes of the other width. -/
def decodeOtherBe (bytes : List UInt8) : Outcome (List ℕ) := do
  let size := 12 - floats.bitpix.bitpix.elemSize
  debugAssert (bytes.length % size = 0)
  .ok ((List.range (bytes.length / size)).map fun j =>
    floats.ofOther (Chunks.chunk bytes size j))

/-- The element type of a cell that holds the floats as they are. -/
def kind : ElementKind :=
  match floats.bitpix with
  | .f32 => .f32
  | .f64 => .f64

/-- The float of an integer: none of the null, and zero of the integer kept for it. -/
def quantum (dequant : Dequant R) (item : ℤ × ℕ) : ℕ :=
  if dequant.zblank = some item.1 then floats.nan
  else if dequant.method = .subtractive2 ∧ item.1 = zeroValue then 0
  else floats.value dequant item.2 item.1

end FloatSample

/-- The floats of a tile's integers. -/
def Dequant.apply (dequant : Dequant R) (floats : FloatSample R) (ints : List ℤ) : List ℕ :=
  ints.zipIdx.map (floats.quantum dequant)

/-! ## The decode of a tile -/

namespace TileDecoder

variable (decoder : TileDecoder) (flate : Flate) (capacity : ℕ)

/-- The codec of a fallback's gzip stream. -/
def fallbackGzip : TileCodec := .gzip1 Gzip.defaultLevel

/-- What a value outside the image's range means: only a lossy codec overshoots. -/
def overshoot (source : TileSource) : Overshoot :=
  match source, decoder.codec with
  | .compressed _, .hcompress _ => .clamp
  | _, _ => .refuse

/-- A tile as the codec of its integers sees it. -/
def tile (scratch : TileScratch) : Tile := ⟨scratch.tdims, decoder.intBitpix, none⟩

/-- The integers of a compressed cell. -/
def decodeCell (cell : VlaCell) (scratch : TileScratch) : Outcome (List ℤ) := do
  let stream ← streamCell cell decoder.codec.streamKind
  decoder.codec.decodeInts flate (decoder.tile scratch) stream capacity

/-- The samples of an integer image's cell. -/
def decodeTile (source : TileSource) (scratch : TileScratch) : Outcome (List ℤ × Overshoot) := do
  let values ← match source with
    | .compressed cell => decoder.decodeCell flate capacity cell scratch
    | .gzip cell => do
      let stream ← streamCell cell .u8
      fallbackGzip.decodeInts flate (decoder.tile scratch) stream capacity
    | .uncompressed cell =>
      match IntBitpix.fromTform cell.elementType with
      | some bitpix => beToI64 cell.bytes bitpix
      | none => fail (.corruptCompressedData (.cellElement .uncompressed cell.elementType.code))
  .ok (values, decoder.overshoot source)

/-- The bits of a float image's cell. -/
def decodeFloatTile (floats : FloatSample R) (source : TileSource) (encoding : FloatEncoding R)
    (scratch : TileScratch) : Outcome (List ℕ) :=
  let own : Tile := ⟨scratch.tdims, floats.bitpix.integerWidth, none⟩
  match source with
  | .compressed cell =>
    match encoding with
    | .quantized dequant => do
      let ints ← decoder.decodeCell flate capacity cell scratch
      .ok (dequant.apply floats ints)
    | .lossless codec => do
      let stream ← streamCell cell .u8
      let bytes ← codec.decodeBytes flate own stream capacity
      floats.decodeBe bytes
  | .gzip cell => do
    let stream ← streamCell cell .u8
    let bytes ← fallbackGzip.decodeBytes flate own stream capacity
    floats.decodeBe bytes
  | .uncompressed cell =>
    if cell.elementType = floats.kind then
      floats.decodeBe cell.bytes
    else if cell.elementType = .f32 ∨ cell.elementType = .f64 then
      floats.decodeOtherBe cell.bytes
    else if cell.elementType = .u8 then do
      let elements ← scratch.nelem
      let expected := min (elements * floats.bitpix.bitpix.elemSize) usizeMax
      if cell.bytes.length ≠ expected then
        fail (SizeUnit.bytes.mismatch expected cell.bytes.length)
      else
        floats.decodeBe cell.bytes
    else
      fail (.corruptCompressedData (.cellElement .uncompressed cell.elementType.code))

end TileDecoder

end FitsWell
