import FitsWell.FitsError
import FitsWell.ImageModel.Bitpix
import FitsWell.Library.Bits

/-!
# The RICE_1 tile codec

Each sample is coded as its difference from the one before it, taken modulo the pixel
width and zigzag mapped. A block of differences shares one split: the bits above it are
written in unary, those below it as they are. A block of zero differences has a code of
its own, and a block too noisy to gain by a split is escaped.
-/

namespace FitsWell.Rice

open Bytes Bits

/-- A `u64` of the source. -/
abbrev U64 := BitVec 64

/-- The width of a block's split field and the split that marks an escaped block. -/
structure SplitField where
  bits : ℕ
  max : ℕ
  deriving DecidableEq, Repr

/-- The split field of a pixel width. -/
def splitField : IntBitpix → SplitField
  | .u8 => ⟨3, 6⟩
  | .i16 => ⟨4, 14⟩
  | .i32 => ⟨5, 25⟩
  | .i64 => ⟨6, 57⟩

/-- A `RICE_1` stream's parameters: `blocksize` samples a block, each `bytepix` wide. -/
structure Codec where
  blocksize : ℕ
  bytepix : IntBitpix
  deriving DecidableEq, Repr

/-- The bits of a pixel. -/
def Codec.nbits (codec : Codec) : ℕ := 8 * codec.bytepix.elemSize

/-- The low `nbits` bits set. -/
def pixelMask (nbits : ℕ) : U64 := if 64 ≤ nbits then BitVec.allOnes 64 else 1#64 <<< nbits - 1

/-- The low `n ≤ 64` bits set. -/
def lowBits (n : ℕ) : U64 := if n = 64 then BitVec.allOnes 64 else 1#64 <<< n - 1

/-- The low `nbits` bits of `v` as a two's-complement value. -/
def signExtend (v : U64) (nbits : ℕ) : ℤ :=
  ((v <<< (64 - nbits)).sshiftRight (64 - nbits)).toInt

/-! ## Writing bits -/

/-- A bit writer: the pending bits sit at the top of `acc`, fewer than 32 of them between
calls, and leave 32 at a time. -/
structure BitOutput where
  out : List UInt8
  acc : U64
  pending : ℕ

/-- Append `bits`, which hold `n ≤ 32` bits. -/
def BitOutput.put (bo : BitOutput) (bits : U64) (n : ℕ) : Outcome BitOutput :=
  if n ≤ 32 ∧ bo.pending < 32 ∧ bits >>> n = 0 then
    if n = 0 then
      .ok bo
    else
      let acc := bo.acc ||| bits <<< (64 - bo.pending - n)
      let pending := bo.pending + n
      if 32 ≤ pending then
        .ok ⟨bo.out ++ beBytes 4 (acc >>> 32).toNat, acc <<< 32, pending - 32⟩
      else
        .ok ⟨bo.out, acc, pending⟩
  else
    abort .debugAssertion

/-- Append the low `n ≤ 64` bits of `bits`, the most significant first. -/
def BitOutput.outputNbits (bo : BitOutput) (bits : U64) (n : ℕ) : Outcome BitOutput :=
  if 32 < n then do
    let bo ← bo.put (bits >>> 32 &&& lowBits (n - 32)) (n - 32)
    bo.put (bits &&& lowBits 32) 32
  else
    bo.put (bits &&& lowBits n) n

/-- Append `n` zeros, at most 32 a time. -/
def BitOutput.outputZeros (bo : BitOutput) (n : ℕ) : Outcome BitOutput :=
  if 0 < n then do
    let chunk := min n 32
    let bo ← bo.put 0 chunk
    bo.outputZeros (n - chunk)
  else
    .ok bo
termination_by n

/-- Append one Rice-coded value: as many zeros as `v` has above its low `fs` bits, a one,
and those low bits, in one put where they fit 32 bits. -/
def BitOutput.outputRiceValue (bo : BitOutput) (v : U64) (fs : ℕ) (fsmask : U64) :
    Outcome BitOutput :=
  let top := (v >>> fs).toNat
  if top + 1 + fs ≤ 32 then
    bo.put (1#64 <<< fs ||| v &&& fsmask) (top + 1 + fs)
  else do
    let bo ← bo.outputZeros top
    let bo ← bo.put 1 1
    bo.outputNbits (v &&& fsmask) fs

/-- Flush the last bits, the unused low bits of the last byte zero. -/
def BitOutput.finish (bo : BitOutput) : List UInt8 :=
  bo.out ++ (beBytes 8 bo.acc.toNat).take ((bo.pending + 7) / 8)

/-! ## Encoding -/

/-- The difference of two pixels modulo the pixel width, zigzag mapped: the sign moves to
the lowest bit. -/
def zigzag (nbits : ℕ) (lastpix next : U64) : U64 :=
  let raw := (next - lastpix) &&& pixelMask nbits
  let s := signExtend raw nbits
  if 0 ≤ s then BitVec.ofNat 64 s.natAbs <<< 1 else (BitVec.ofNat 64 s.natAbs <<< 1) - 1

/-- The mapped differences of a block after the pixel `lastpix`, and its last pixel. -/
def blockDiffs (nbits : ℕ) (lastpix : U64) : List ℤ → List U64 × U64
  | [] => ([], lastpix)
  | value :: values =>
    let next := BitVec.ofInt 64 value &&& pixelMask nbits
    let (diffs, last) := blockDiffs nbits next values
    (zigzag nbits lastpix next :: diffs, last)

/-- A block's mean difference, less one unless the remainder is past half the block. -/
def meanLessOne (pixelsum block : ℕ) : ℕ :=
  if 0 < pixelsum / block ∧ pixelsum % block < block / 2 + 1 then
    pixelsum / block - 1
  else
    pixelsum / block

/-- The split of a block whose differences sum to `pixelsum`. -/
def splitOf (pixelsum block : ℕ) : ℕ := bitLength (meanLessOne pixelsum block / 2)

/-- Append each of `diffs` by `output`. -/
def outputDiffs (output : BitOutput → U64 → Outcome BitOutput) :
    BitOutput → List U64 → Outcome BitOutput
  | bo, [] => .ok bo
  | bo, diff :: diffs => do
    let bo ← output bo diff
    outputDiffs output bo diffs

/-- Append the block of the differences `diffs`. -/
def Codec.encodeBlock (codec : Codec) (bo : BitOutput) (diffs : List U64) : Outcome BitOutput :=
  let field := splitField codec.bytepix
  let pixelsum := (diffs.map BitVec.toNat).sum
  let fs := splitOf pixelsum diffs.length
  if field.max ≤ fs then do
    let bo ← bo.outputNbits (BitVec.ofNat 64 (field.max + 1)) field.bits
    outputDiffs (fun bo diff => bo.outputNbits diff codec.nbits) bo diffs
  else if fs = 0 ∧ pixelsum = 0 then
    bo.outputNbits 0 field.bits
  else do
    let bo ← bo.outputNbits (BitVec.ofNat 64 (fs + 1)) field.bits
    outputDiffs (fun bo diff => bo.outputRiceValue diff fs (1#64 <<< fs - 1)) bo diffs

/-- Append the blocks of `values`, the first after the pixel `lastpix`. A block size of
zero divides a block's sum by zero. -/
def Codec.encodeBlocks (codec : Codec) (bo : BitOutput) (lastpix : U64) (values : List ℤ) :
    Outcome BitOutput :=
  if _hvalues : values.length = 0 then
    .ok bo
  else if _hsize : codec.blocksize = 0 then
    abort .divisionByZero
  else do
    let (diffs, last) := blockDiffs codec.nbits lastpix (values.take codec.blocksize)
    let bo ← codec.encodeBlock bo diffs
    codec.encodeBlocks bo last (values.drop codec.blocksize)
termination_by values.length
decreasing_by
  rw [List.length_drop]
  omega

/-- Encode `values` as a tile: the first pixel as it is, then the blocks. -/
def Codec.encode (codec : Codec) (values : List ℤ) : Outcome (List UInt8) := do
  let first := BitVec.ofInt 64 (values.headD 0) &&& pixelMask codec.nbits
  let bo ← BitOutput.outputNbits ⟨[], 0, 0⟩ first codec.nbits
  let bo ← codec.encodeBlocks bo first values
  .ok bo.finish

/-! ## Reading bits -/

/-- A bit reader: the next bit is the top bit of `acc`, which holds `nbits` of them. The
bits below those are zeros or the stream's next bits, which the next refill writes again.
`pos` is the byte the next refill loads from. -/
structure BitReader where
  bytes : List UInt8
  pos : ℕ
  acc : U64
  nbits : ℕ

/-- Top up the accumulator byte by byte, near the end of the stream. -/
def BitReader.refillBytes (br : BitReader) : BitReader :=
  if _hroom : br.nbits ≤ 56 then
    match br.bytes[br.pos]? with
    | none => br
    | some byte =>
      refillBytes { br with
        acc := br.acc ||| BitVec.ofNat 64 byte.toNat <<< (56 - br.nbits)
        pos := br.pos + 1
        nbits := br.nbits + 8 }
  else
    br
termination_by 64 - br.nbits

/-- Top up the accumulator to at least 56 bits, or to every bit the stream has left: one
load where 8 bytes remain. -/
def BitReader.refill (br : BitReader) : Outcome BitReader :=
  if br.nbits < 64 then
    if br.pos + 8 ≤ br.bytes.length then
      let word := BitVec.ofNat 64 (ofBeBytes ((br.bytes.drop br.pos).take 8))
      let added := (63 - br.nbits) / 8
      .ok { br with
        acc := br.acc ||| word >>> br.nbits
        pos := br.pos + added
        nbits := br.nbits + 8 * added }
    else
      .ok br.refillBytes
  else
    abort .debugAssertion

/-- Refill an accumulator that holds fewer than `n` bits. -/
def BitReader.topUp (br : BitReader) (n : ℕ) : Outcome BitReader :=
  if br.nbits < n then br.refill else .ok br

/-- A word shifted left, by less than its width. -/
def shl (word : U64) (n : ℕ) : Outcome U64 :=
  if n < 64 then .ok (word <<< n) else abort .shiftOverflow

/-- Drop the top `n` bits of the accumulator. -/
def BitReader.consume (br : BitReader) (n : ℕ) : Outcome BitReader := do
  let acc ← shl br.acc n
  .ok { br with acc := acc, nbits := br.nbits - n }

/-- Read `n ≤ 56` bits, which one refill holds. -/
def BitReader.readShort (br : BitReader) (n : ℕ) : Outcome (U64 × BitReader) := do
  let br ← br.topUp n
  if br.nbits < n then
    fail .unexpectedEof
  else do
    let value := br.acc >>> 1 >>> (63 - n)
    let br ← br.consume n
    .ok (value, br)

/-- Read `n` bits past 56, as two reads; past 64, the stream is malformed. -/
def BitReader.readWide (br : BitReader) (n : ℕ) : Outcome (U64 × BitReader) :=
  if 64 < n then
    fail (.corruptCompressedData (.riceBitField n))
  else do
    let (high, br) ← br.readShort (n - 32)
    let (low, br) ← br.readShort 32
    .ok (high <<< 32 ||| low, br)

/-- Read `n ≤ 64` bits, the most significant first. -/
def BitReader.read (br : BitReader) (n : ℕ) : Outcome (U64 × BitReader) :=
  if n ≤ 56 then br.readShort n else br.readWide n

/-- The count of zeros above the highest one of a word. -/
def leadingZeros (acc : U64) : ℕ :=
  ((List.range 64).takeWhile fun i => !acc.getMsbD i).length

/-- The bits a reader has left. -/
def BitReader.left (br : BitReader) : ℕ := 8 * (br.bytes.length - br.pos) + br.nbits

theorem BitReader.left_refillBytes (br : BitReader) : br.refillBytes.left = br.left := by
  induction br using BitReader.refillBytes.induct with
  | case1 br hroom hnone => rw [refillBytes, dif_pos hroom, hnone]
  | case2 br hroom byte hbyte ih =>
    rw [refillBytes, dif_pos hroom, hbyte]
    dsimp only
    rw [ih]
    have hpos := (List.getElem?_eq_some_iff.mp hbyte).1
    simp only [left]
    omega
  | case3 br hroom => rw [refillBytes, dif_neg hroom]

/-- A refill moves bits to the accumulator and loses none. -/
theorem BitReader.left_refill {br br' : BitReader} (h : br.refill = .ok br') :
    br'.left = br.left := by
  unfold refill at h
  split at h
  · split at h
    · obtain rfl := Except.ok.inj h
      simp only [left]
      omega
    · obtain rfl := Except.ok.inj h
      exact br.left_refillBytes
  · cases h

theorem BitReader.left_topUp {br br' : BitReader} {n : ℕ} (h : br.topUp n = .ok br') :
    br'.left = br.left := by
  unfold topUp at h
  split at h
  · exact left_refill h
  · rw [Except.ok.inj h]

/-- Count and take the zeros up to the next one, and the one, a whole accumulator at a
time, after `z` zeros. -/
def BitReader.readZeros (br : BitReader) (z : ℕ) : Outcome (ℕ × BitReader) :=
  match _htop : br.topUp 1 with
  | .error fault => .error fault
  | .ok br' =>
    if _hempty : br'.nbits = 0 then
      fail .unexpectedEof
    else
      let run := leadingZeros br'.acc
      if run < br'.nbits then do
        let br ← br'.consume (run + 1)
        .ok (z + run, br)
      else
        readZeros { br' with acc := 0, nbits := 0 } (z + br'.nbits)
termination_by br.left
decreasing_by
  rw [← left_topUp _htop]
  simp only [left]
  omega

/-! ## Decoding -/

/-- Undo the zigzag mapping, then the differencing, modulo the pixel width. -/
def nextPixel (nbits : ℕ) (lastpix diff : U64) : U64 :=
  let d := if diff &&& 1 = 1 then ~~~(diff >>> 1) else diff >>> 1
  (lastpix + d) &&& pixelMask nbits

/-- The sample of a pixel: a byte is unsigned, the wider ones two's complement. -/
def Codec.output (codec : Codec) (pixel : U64) : ℤ :=
  if codec.bytepix ≠ .u8 then signExtend pixel codec.nbits else pixel.toInt

/-- Decode `count` samples after the pixel `lastpix`, each difference read by `read`. -/
def Codec.decodeDiffs (codec : Codec) (read : BitReader → Outcome (U64 × BitReader)) :
    ℕ → BitReader → U64 → Outcome (List ℤ × U64 × BitReader)
  | 0, br, lastpix => .ok ([], lastpix, br)
  | count + 1, br, lastpix => do
    let (diff, br) ← read br
    let lastpix := nextPixel codec.nbits lastpix diff
    let (samples, last, br) ← codec.decodeDiffs read count br lastpix
    .ok (codec.output lastpix :: samples, last, br)

/-- Read the Rice-coded difference of a block split at `fs`. -/
def BitReader.readRiceValue (fs : ℕ) (br : BitReader) : Outcome (U64 × BitReader) := do
  let (top, br) ← br.readZeros 0
  let high ← shl (BitVec.ofNat 64 top) fs
  let (low, br) ← br.read fs
  .ok (high ||| low, br)

/-- Decode a block of `count` samples: its code is its split plus one, so that zero marks
a block of zero differences. -/
def Codec.decodeBlock (codec : Codec) (br : BitReader) (lastpix : U64) (count : ℕ) :
    Outcome (List ℤ × U64 × BitReader) := do
  let field := splitField codec.bytepix
  let (code, br) ← br.read field.bits
  if code.toNat = 0 then
    .ok (List.replicate count (codec.output lastpix), lastpix, br)
  else
    let fs := code.toNat - 1
    if fs = field.max then
      codec.decodeDiffs (·.read codec.nbits) count br lastpix
    else
      codec.decodeDiffs (·.readRiceValue fs) count br lastpix

/-- Decode `count` samples a block at a time, the first after the pixel `lastpix`. -/
def Codec.decodeBlocks (codec : Codec) (br : BitReader) (lastpix : U64) (count : ℕ) :
    Outcome (List ℤ) :=
  if _hcount : count = 0 then
    .ok []
  else if _hsize : codec.blocksize = 0 then
    abort .zeroChunkSize
  else do
    let (block, last, br) ← codec.decodeBlock br lastpix (min codec.blocksize count)
    let samples ← codec.decodeBlocks br last (count - codec.blocksize)
    .ok (block ++ samples)
termination_by count

/-- Decode a tile of `count` samples. -/
def Codec.decode (codec : Codec) (bytes : List UInt8) (count : ℕ) : Outcome (List ℤ) :=
  if count = 0 then
    .ok []
  else do
    let (lastpix, br) ← BitReader.read ⟨bytes, 0, 0, 0⟩ codec.nbits
    codec.decodeBlocks br lastpix count

end FitsWell.Rice
