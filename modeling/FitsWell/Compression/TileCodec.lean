import FitsWell.Compression.Convert
import FitsWell.Compression.Gzip
import FitsWell.Compression.Hcompress
import FitsWell.Compression.Plio
import FitsWell.Compression.RiceRoundTrip

/-!
# Tile codecs

The one dispatch between a tile's samples and its compressed stream. A tile that a lossless
integer codec encodes decodes to its samples, and to their bytes.
-/

namespace FitsWell

open Gzip (Flate)

/-- A tile codec with the parameters its streams take. -/
inductive TileCodec
  | gzip1 (level : ℕ)
  | gzip2 (level : ℕ)
  | rice (codec : Rice.Codec)
  | plio (codec : Plio.Codec)
  | hcompress (codec : Hcompress.Codec)
  | noCompress
  deriving DecidableEq, Repr

/-- A tile's samples, in the form the caller holds them. -/
inductive TileSamples
  | ints (values : List ℤ)
  | bytes (bytes : List UInt8)
  deriving DecidableEq, Repr

/-- What a codec needs of a tile besides its samples: its shape, the integer type of its
samples' width, and the value a null sample takes. -/
structure Tile where
  shape : List ℕ
  width : IntBitpix
  blank : Option ℤ
  deriving DecidableEq, Repr

namespace Tile

/-- The samples of a tile. -/
def count (tile : Tile) : Outcome ℕ := productUsize tile.shape

/-- The bytes of a tile's samples. -/
def byteLen (tile : Tile) : Outcome ℕ := do
  let count ← tile.count
  orOverflow (checkedMul count tile.width.elemSize)

end Tile

/-- The samples as integers. -/
def TileSamples.toInts (samples : TileSamples) (width : IntBitpix) : Outcome (List ℤ) :=
  match samples with
  | .ints values => .ok values
  | .bytes raw => beToI64 raw width

/-- The samples as big-endian bytes. -/
def TileSamples.toBytes (samples : TileSamples) (width : IntBitpix) : List UInt8 :=
  match samples with
  | .bytes raw => raw
  | .ints values => i64ToBe values width

namespace TileCodec

/-- The shuffle width of a tile's samples, 1 but for `GZIP_2`. -/
def shuffle (codec : TileCodec) (tile : Tile) : ℕ :=
  match codec with
  | .gzip2 _ => tile.width.elemSize
  | _ => 1

variable (flate : Flate)

/-- The stream of a tile's samples. -/
def encode (codec : TileCodec) (tile : Tile) (samples : TileSamples) : Outcome (List UInt8) :=
  match codec with
  | .gzip1 level | .gzip2 level =>
    .ok (Gzip.Codec.encode flate ⟨level, codec.shuffle tile⟩ (samples.toBytes tile.width))
  | .rice coder => do
    let values ← samples.toInts tile.width
    coder.encode values
  | .plio coder => do
    let values ← samples.toInts tile.width
    coder.encode values
  | .hcompress coder => do
    let values ← samples.toInts tile.width
    coder.encode values tile.shape tile.blank
  | .noCompress => .ok (samples.toBytes tile.width)

/-- The bytes of a stored tile, whose size is that of its samples. -/
def storedBytes (stream : List UInt8) (expected : ℕ) : Outcome (List UInt8) :=
  if stream.length ≠ expected then fail (SizeUnit.bytes.mismatch expected stream.length)
  else .ok stream

/-- The integer samples of a stream. A gzip stream inflates into a buffer that holds
`capacity` bytes before it is grown. -/
def decodeInts (codec : TileCodec) (tile : Tile) (stream : List UInt8) (capacity : ℕ) :
    Outcome (List ℤ) := do
  let count ← tile.count
  match codec with
  | .rice coder => coder.decode stream count
  | .plio coder => coder.decode stream count
  | .hcompress coder => coder.decode stream tile.shape
  | .gzip1 level | .gzip2 level => do
    let expected ← tile.byteLen
    let bytes ← Gzip.Codec.decode flate ⟨level, codec.shuffle tile⟩ stream expected capacity
    beToI64 bytes tile.width
  | .noCompress => do
    let expected ← tile.byteLen
    let bytes ← storedBytes stream expected
    beToI64 bytes tile.width

/-- The big-endian bytes of a stream's samples. -/
def decodeBytes (codec : TileCodec) (tile : Tile) (stream : List UInt8) (capacity : ℕ) :
    Outcome (List UInt8) := do
  let expected ← tile.byteLen
  match codec with
  | .gzip1 level | .gzip2 level =>
    Gzip.Codec.decode flate ⟨level, codec.shuffle tile⟩ stream expected capacity
  | .noCompress => storedBytes stream expected
  | .rice _ | .plio _ | .hcompress _ => do
    let ints ← codec.decodeInts flate tile stream capacity
    .ok (i64ToBe ints tile.width)

/-! ## Round trips -/

/-- A codec that keeps every integer of a width: gzip, stored, or Rice with pixels no
narrower than it. -/
def KeepsInts (codec : TileCodec) (width : IntBitpix) : Prop :=
  match codec with
  | .gzip1 _ | .gzip2 _ | .noCompress => True
  | .rice coder => 1 ≤ coder.blocksize ∧ width.elemSize ≤ coder.bytepix.elemSize
  | .plio _ | .hcompress _ => False

/-- A wider type holds the samples of a narrower one. -/
theorem holds_of_elemSize_le {width wider : IntBitpix} (h : width.elemSize ≤ wider.elemSize)
    {value : ℤ} (hvalue : width.Holds value) : wider.Holds value := by
  cases width <;> cases wider <;> first
    | exact hvalue
    | exact absurd h (by decide)
    | (simp only [IntBitpix.Holds] at hvalue ⊢; omega)

variable {flate} {codec : TileCodec} {tile : Tile} {n : ℕ}

theorem byteLen_of_count (hcount : tile.count = .ok n) (h : n * tile.width.elemSize ≤ isizeMax) :
    tile.byteLen = .ok (n * tile.width.elemSize) := by
  have hisize : isizeMax ≤ usizeMax := by decide
  rw [Tile.byteLen, hcount, Loops.bind_ok rfl, checkedMul, if_pos (by omega), orOverflow]

section RoundTrip

variable (hinverse : flate.Inverse) (hkeeps : codec.KeepsInts tile.width)
  (hcount : tile.count = .ok n)
include hinverse hkeeps hcount

/-- The samples that a codec keeps, of any form, read back as integers and as bytes. -/
theorem decode_encode (samples : TileSamples) {values : List ℤ} {bytes : List UInt8}
    (hvalues : ∀ value ∈ values, tile.width.Holds value) (hlength : values.length = n)
    (hbytes : bytes.length < isizeMax) (hinverseBytes : i64ToBe values tile.width = bytes)
    (hints : samples.toInts tile.width = .ok values) (hraw : samples.toBytes tile.width = bytes)
    (capacity : ℕ) : ∃ stream, codec.encode flate tile samples = .ok stream ∧
      codec.decodeInts flate tile stream capacity = .ok values ∧
      codec.decodeBytes flate tile stream capacity = .ok bytes := by
  have hsize : bytes.length = n * tile.width.elemSize := by
    rw [← hinverseBytes, length_i64ToBe, hlength, Nat.mul_comm]
  have hexpected : tile.byteLen = .ok bytes.length := by
    rw [hsize]
    exact byteLen_of_count hcount (by omega)
  have hback : beToI64 bytes tile.width = .ok values := by
    rw [← hinverseBytes]
    exact beToI64_i64ToBe hvalues
  have hwidth : tile.width.elemSize ∈ [1, 2, 4, 8] := by cases tile.width <;> decide
  have hgzip : ∀ level shuffle, shuffle ∈ [1, 2, 4, 8] → (∃ k, bytes.length = k * shuffle) →
      Gzip.Codec.decode flate ⟨level, shuffle⟩ (Gzip.Codec.encode flate ⟨level, shuffle⟩ bytes)
        bytes.length capacity = .ok bytes := by
    rintro level shuffle hshuffle ⟨k, hk⟩
    exact Gzip.Codec.decode_encode hinverse hshuffle hk hbytes capacity
  cases codec with
  | gzip1 level =>
    have hdecode := hgzip level 1 (by decide) ⟨bytes.length, (Nat.mul_one _).symm⟩
    refine ⟨_, rfl, ?_, ?_⟩
    · rw [decodeInts, hcount, Loops.bind_ok rfl, hexpected, Loops.bind_ok rfl, hraw]
      exact (Loops.bind_ok hdecode).trans hback
    · rw [decodeBytes, hexpected, Loops.bind_ok rfl, hraw]
      exact hdecode
  | gzip2 level =>
    have hdecode := hgzip level tile.width.elemSize hwidth ⟨n, hsize⟩
    refine ⟨_, rfl, ?_, ?_⟩
    · rw [decodeInts, hcount, Loops.bind_ok rfl, hexpected, Loops.bind_ok rfl, hraw]
      exact (Loops.bind_ok hdecode).trans hback
    · rw [decodeBytes, hexpected, Loops.bind_ok rfl, hraw]
      exact hdecode
  | rice coder =>
    obtain ⟨stream, hencode, hdecode⟩ := coder.decode_encode hkeeps.1 values
      (fun value hvalue => holds_of_elemSize_le hkeeps.2 (hvalues value hvalue))
    rw [hlength] at hdecode
    have hdecodeInts : decodeInts flate (.rice coder) tile stream capacity = .ok values := by
      rw [decodeInts, hcount, Loops.bind_ok rfl]
      exact hdecode
    refine ⟨stream, (Loops.bind_ok hints).trans hencode, hdecodeInts, ?_⟩
    rw [decodeBytes, hexpected, Loops.bind_ok rfl]
    exact (Loops.bind_ok hdecodeInts).trans (congrArg _ hinverseBytes)
  | noCompress =>
    have hstored : storedBytes bytes bytes.length = .ok bytes := if_neg (not_not.mpr rfl)
    refine ⟨_, rfl, ?_, ?_⟩
    · rw [decodeInts, hcount, Loops.bind_ok rfl, hexpected, Loops.bind_ok rfl, hraw]
      exact (Loops.bind_ok hstored).trans hback
    · rw [decodeBytes, hexpected, Loops.bind_ok rfl, hraw]
      exact hstored
  | plio coder => exact hkeeps.elim
  | hcompress coder => exact hkeeps.elim

/-- Every list of integers of the tile's width decodes to itself, and so does every string
of whole elements. The lists are slices of a memory that pointers of 64 bits address. -/
theorem tile_codec_round_trip (capacity : ℕ) :
    (∀ values : List ℤ, values.length = n → 8 * n ≤ isizeMax →
      (∀ value ∈ values, tile.width.Holds value) → ∃ stream,
        codec.encode flate tile (.ints values) = .ok stream ∧
        codec.decodeInts flate tile stream capacity = .ok values) ∧
    (∀ bytes : List UInt8, bytes.length = n * tile.width.elemSize → bytes.length < isizeMax →
      ∃ stream, codec.encode flate tile (.bytes bytes) = .ok stream ∧
        codec.decodeBytes flate tile stream capacity = .ok bytes) := by
  constructor
  · intro values hlength hroom hvalues
    have hbytes : (i64ToBe values tile.width).length < isizeMax := by
      have hsize := Nat.mul_le_mul_right n tile.width.elemSize_le
      have hisize : isizeMax = 2 ^ 63 - 1 := rfl
      rw [length_i64ToBe, hlength]
      omega
    obtain ⟨stream, hencode, hdecode, -⟩ := decode_encode hinverse hkeeps hcount (.ints values) hvalues
      hlength hbytes rfl rfl rfl capacity
    exact ⟨stream, hencode, hdecode⟩
  · intro bytes hlength hroom
    obtain ⟨values, hvalues, hcountValues, hholds, hback⟩ := beToI64_of_length hlength
    obtain ⟨stream, hencode, -, hdecode⟩ := decode_encode hinverse hkeeps hcount (.bytes bytes) hholds
      hcountValues hroom hback hvalues rfl capacity
    exact ⟨stream, hencode, hdecode⟩

end RoundTrip

/-- Three shuffled samples of 32 bits, one of them negative. -/
theorem tile_codec_round_trip_shuffled : ∃ stream,
    encode Gzip.stored (.gzip2 0) ⟨[3], .i32, none⟩ (.ints [-1, 258, 7]) = .ok stream ∧
      decodeInts Gzip.stored (.gzip2 0) ⟨[3], .i32, none⟩ stream 0 = .ok [-1, 258, 7] :=
  (@tile_codec_round_trip Gzip.stored (.gzip2 0) ⟨[3], .i32, none⟩ 3 Gzip.stored_inverse trivial rfl
    0).1 [-1, 258, 7] rfl (by decide) (by decide)

end TileCodec

end FitsWell
