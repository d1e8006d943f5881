import FitsWell.Compression.HcompressTransform
import FitsWell.Library.Bits

/-!
# The HCOMPRESS_1 tile codec

The H-transform of a tile is coded by bit planes, in four quadrants. A plane's 2×2 blocks
give codes of four bits, and blocks of codes are reduced to codes again until one is left;
the codes that are not zero are written in a fixed Huffman code, from the last to the
first. A plane that gains nothing by it is written as its codes. The signs follow.
-/

namespace FitsWell.Hcompress

open Bytes Bits

/-- The bytes a stream starts with. -/
def magic : List UInt8 := [0xDD, 0x99]

/-- The Huffman code of each 4-bit symbol. -/
def code : List ℕ :=
  [0x3e, 0x00, 0x01, 0x08, 0x02, 0x09, 0x1a, 0x1b, 0x03, 0x1c, 0x0a, 0x1d, 0x0b, 0x1e, 0x3f, 0x0c]

/-- The length of each symbol's code. -/
def ncode : List ℕ := [6, 3, 3, 4, 3, 4, 5, 5, 3, 5, 4, 5, 4, 5, 6, 4]

/-- The low eight bits of a bit buffer. -/
def lowByte (value : BitVec 32) : UInt8 := UInt8.ofNat value.toNat

/-- A quadrant of the plane: where its first row starts, the stride of the whole plane, and
its own extent. -/
structure Quadrant where
  base : ℕ
  n : ℕ
  nqx : ℕ
  nqy : ℕ
  deriving DecidableEq, Repr

/-- The quadrants of a plane that have values, each with the place of its plane count. -/
def quadrants (nx ny : ℕ) : List (Quadrant × ℕ) :=
  let nx2 := (nx + 1) / 2
  let ny2 := (ny + 1) / 2
  [(⟨0, ny, nx2, ny2⟩, 0)] ++
    (if 0 < ny / 2 then [(⟨ny2, ny, nx2, ny / 2⟩, 1)] else []) ++
    (if 0 < nx / 2 then [(⟨ny * nx2, ny, nx / 2, ny2⟩, 1)] else []) ++
    if 0 < nx / 2 ∧ 0 < ny / 2 then [(⟨ny * nx2 + ny2, ny, nx / 2, ny / 2⟩, 2)] else []

/-- The cells of a quadrant's 2×2 blocks. -/
def Quadrant.cells (quadrant : Quadrant) : ℕ :=
  (quadrant.nqx + 1) / 2 * ((quadrant.nqy + 1) / 2)

/-- The levels of a quadrant's quadtree. -/
def Quadrant.log2n (quadrant : Quadrant) : ℕ := log2Ceil (max quadrant.nqx quadrant.nqy)

/-! ## Writing bits -/

/-- A bit writer: the bytes written, the bits held back at the low end of `buffer2`, and
the bits its byte still has room for. -/
structure BitOutput where
  out : List UInt8
  buffer2 : BitVec 32
  bitsToGo2 : ℤ

/-- Append bytes between bit strings. -/
def BitOutput.writeBytes (bo : BitOutput) (bytes : List UInt8) : BitOutput :=
  { bo with out := bo.out ++ bytes }

/-- Start a bit string. -/
def BitOutput.startOutputingBits (bo : BitOutput) : BitOutput :=
  { bo with buffer2 := 0, bitsToGo2 := 8 }

/-- Append `bits`, which hold `n` bits, and write the byte they complete. -/
def BitOutput.put (bo : BitOutput) (bits n : ℕ) : BitOutput :=
  let buffer2 := bo.buffer2 <<< n ||| BitVec.ofNat 32 bits
  let bitsToGo2 := bo.bitsToGo2 - n
  if bitsToGo2 ≤ 0 then
    ⟨bo.out ++ [lowByte (buffer2.sshiftRight (-bitsToGo2).toNat)], buffer2, bitsToGo2 + 8⟩
  else
    ⟨bo.out, buffer2, bitsToGo2⟩

/-- The masks of up to eight bits. -/
def bitMask : List ℕ := [0, 1, 3, 7, 15, 31, 63, 127, 255]

/-- Append the low `n ≤ 8` bits of `bits`, the most significant first. -/
def BitOutput.outputNbits (bo : BitOutput) (bits n : ℕ) : Outcome BitOutput := do
  let mask ← load bitMask n
  .ok (bo.put (bits &&& mask) n)

/-- Append the low four bits of `bits`. -/
def BitOutput.outputNybble (bo : BitOutput) (bits : ℕ) : BitOutput := bo.put (bits &&& 15) 4

/-- Append a pair of nybbles as a whole byte: `shift` bits stay held back. -/
def BitOutput.outputPair (bo : BitOutput) (high low : ℕ) : BitOutput :=
  let pair := (high &&& 15) <<< 4 ||| low &&& 15
  if bo.bitsToGo2 = 8 then
    { bo with out := bo.out ++ [UInt8.ofNat pair], buffer2 := 0 }
  else
    let shift := (8 - bo.bitsToGo2).toNat
    let buffer2 := bo.buffer2 <<< 8 ||| BitVec.ofNat 32 pair
    { bo with out := bo.out ++ [lowByte (buffer2.sshiftRight shift)], buffer2 := buffer2 }

/-- Append `jj` pairs of nybbles of `array` from `kk` on. -/
def BitOutput.outputPairs (bo : BitOutput) (array : List ℕ) (kk jj : ℕ) : Outcome BitOutput :=
  (List.range jj).foldlM (fun (bo : BitOutput) t => do
    let high ← load array (kk + 2 * t)
    let low ← load array (kk + 2 * t + 1)
    .ok (bo.outputPair high low)) bo

/-- Append the pairs of nybbles of `array` from `kk` on, and the last one of an odd count. -/
def BitOutput.outputRest (bo : BitOutput) (n : ℕ) (array : List ℕ) (kk : ℕ) :
    Outcome BitOutput := do
  let jj := (n - kk) / 2
  let bo ← bo.outputPairs array kk jj
  if kk + 2 * jj ≠ n then do
    let last ← load array (n - 1)
    .ok (bo.outputNybble last)
  else
    .ok bo

/-- Append the first `n` nybbles of `array`, whole bytes at a time. -/
def BitOutput.outputNnybble (bo : BitOutput) (n : ℕ) (array : List ℕ) : Outcome BitOutput :=
  if n = 1 then do
    let first ← load array 0
    .ok (bo.outputNybble first)
  else if bo.bitsToGo2 ≤ 4 then do
    let first ← load array 0
    let bo := bo.outputNybble first
    if n = 2 then do
      let second ← load array 1
      .ok (bo.outputNybble second)
    else
      bo.outputRest n array 1
  else
    bo.outputRest n array 0

/-- End a bit string: the last byte's unused bits are zero. -/
def BitOutput.doneOutputingBits (bo : BitOutput) : BitOutput :=
  if bo.bitsToGo2 < 8 then
    bo.writeBytes [lowByte (bo.buffer2 <<< bo.bitsToGo2.toNat)]
  else
    bo

/-! ## Encoding a bit plane -/

/-- The code of a block in the plane `bit`: the plane's bits of its four values, each
shifted to its place above the plane. The shifts of the topmost planes run off the word. -/
def onebitCode (bit : ℕ) (q : Quad ℤ) : ℕ :=
  let b0 := 1#64 <<< bit
  let b1 := b0 <<< 1
  let b2 := b0 <<< 2
  let b3 := b0 <<< 3
  let word := BitVec.ofInt 64 q.s11 &&& b0 ||| BitVec.ofInt 64 q.s10 <<< 1 &&& b1 |||
    BitVec.ofInt 64 q.s01 <<< 2 &&& b2 ||| BitVec.ofInt 64 q.s00 <<< 3 &&& b3
  (word.sshiftRight bit).toNat % 256

/-- The codes of a quadrant's blocks in the plane `bit`, in the cells of `b`. -/
def qtreeOnebit (a : List ℤ) (quadrant : Quadrant) (b : List ℕ) (bit : ℕ) : Outcome (List ℕ) :=
  (blocks quadrant.nqx quadrant.nqy).foldlM (fun b block => do
    let q ← block.load a quadrant.base quadrant.n 0
    store b block.index (onebitCode bit q)) b

/-- The code of a block of codes: which of them are not zero. -/
def reduceCode (q : Quad ℕ) : ℕ :=
  (q.s11 != 0).toNat ||| (q.s10 != 0).toNat <<< 1 ||| (q.s01 != 0).toNat <<< 2 |||
    (q.s00 != 0).toNat <<< 3

/-- Reduce `nx` rows of `ny` codes to the codes of their blocks, in place. -/
def qtreeReduce (a : List ℕ) (nx ny : ℕ) : Outcome (List ℕ) :=
  (blocks nx ny).foldlM (fun a block => do
    let q ← block.load a 0 ny 0
    store a block.index (reduceCode q)) a

/-- The Huffman codes of a plane: whole bytes, the low ones first, and the bits above
them. -/
structure CodeBuffer where
  buffer : List UInt8
  b : ℕ
  bitbuffer : ℕ
  bitsToGo3 : ℕ

/-- Append the codes of the cells that are not zero. It is `true` once `bmax` bytes are
full: the codes expand the plane. -/
def CodeBuffer.bufcopy (bmax : ℕ) : CodeBuffer → List ℕ → Outcome (CodeBuffer × Bool)
  | s, [] => .ok (s, false)
  | s, cell :: cells =>
    if cell = 0 then
      s.bufcopy bmax cells
    else do
      let value ← load code cell
      let bits ← load ncode cell
      let bitbuffer := s.bitbuffer ||| value <<< s.bitsToGo3
      let bitsToGo3 := s.bitsToGo3 + bits
      if 8 ≤ bitsToGo3 then do
        let buffer ← store s.buffer s.b (UInt8.ofNat bitbuffer)
        let b := s.b + 1
        if bmax ≤ b then
          .ok (⟨buffer, b, bitbuffer, bitsToGo3⟩, true)
        else
          CodeBuffer.bufcopy bmax ⟨buffer, b, bitbuffer >>> 8, bitsToGo3 - 8⟩ cells
      else
        CodeBuffer.bufcopy bmax ⟨s.buffer, s.b, bitbuffer, bitsToGo3⟩ cells

/-- Append the codes of a quadtree's levels from `nx` rows of `ny` cells on, over `count`
reductions, until the buffer is full. -/
def CodeBuffer.levels (bmax : ℕ) :
    ℕ → CodeBuffer → List ℕ → ℕ → ℕ → Outcome (CodeBuffer × Bool)
  | count, s, scratch, nx, ny => do
    let (s, overflow) ← s.bufcopy bmax (scratch.take (nx * ny))
    if overflow then
      .ok (s, true)
    else
      match count with
      | 0 => .ok (s, false)
      | count + 1 => do
        let scratch ← qtreeReduce scratch nx ny
        CodeBuffer.levels bmax count s scratch ((nx + 1) / 2) ((ny + 1) / 2)

/-- Write a plane as its codes, behind a zero. -/
def BitOutput.writeBdirect (bo : BitOutput) (a : List ℤ) (quadrant : Quadrant)
    (scratch : List ℕ) (bit : ℕ) : Outcome BitOutput := do
  let bo := bo.outputNybble 0
  let scratch ← qtreeOnebit a quadrant scratch bit
  bo.outputNnybble quadrant.cells scratch

/-- Write the buffered codes of a plane, the last first. A plane of zeros has one code. -/
def BitOutput.writeCodes (bo : BitOutput) (s : CodeBuffer) : Outcome BitOutput := do
  let bo := bo.outputNybble 15
  let leftover := s.bitbuffer &&& (1 <<< s.bitsToGo3 - 1)
  if s.b = 0 then
    if 0 < s.bitsToGo3 then
      bo.outputNbits leftover s.bitsToGo3
    else do
      let value ← load code 0
      let bits ← load ncode 0
      bo.outputNbits value bits
  else do
    let bo ← if 0 < s.bitsToGo3 then bo.outputNbits leftover s.bitsToGo3 else .ok bo
    (List.range s.b).foldlM (fun (bo : BitOutput) k => do
      let byte ← load s.buffer (s.b - 1 - k)
      bo.outputNbits byte.toNat 8) bo

/-- Write the plane `bit` of a quadrant. The workspaces are sized for it, and no step
reads what an earlier plane left in them. -/
def BitOutput.qtreePlane (bo : BitOutput) (a : List ℤ) (quadrant : Quadrant) (bit : ℕ) :
    Outcome BitOutput := do
  let bmax := (quadrant.cells + 1) / 2
  let scratch := List.replicate (max quadrant.cells 1) 0
  let buffer : List UInt8 := List.replicate (max bmax 1) 0
  let scratch ← qtreeOnebit a quadrant scratch bit
  let (s, overflow) ← CodeBuffer.levels bmax (quadrant.log2n - 1) ⟨buffer, 0, 0, 0⟩ scratch
    ((quadrant.nqx + 1) / 2) ((quadrant.nqy + 1) / 2)
  if overflow then bo.writeBdirect a quadrant scratch bit else bo.writeCodes s

/-- Write the planes of a quadrant below `nbitplanes`, the top one first. -/
def BitOutput.qtreeEncode (a : List ℤ) (quadrant : Quadrant) :
    ℕ → BitOutput → Outcome BitOutput
  | 0, bo => .ok bo
  | bit + 1, bo => do
    let bo ← bo.qtreePlane a quadrant bit
    BitOutput.qtreeEncode a quadrant bit bo

/-- Write the quadrants and the zero that ends them. -/
def BitOutput.doencode (bo : BitOutput) (a : List ℤ) (nx ny : ℕ) (nbitplanes : List ℕ) :
    Outcome BitOutput := do
  let bo ← (quadrants nx ny).foldlM (fun bo (quadrant, place) => do
    let planes ← load nbitplanes place
    BitOutput.qtreeEncode a quadrant planes bo) bo.startOutputingBits
  .ok (bo.outputNybble 0).doneOutputingBits

/-! ## Encoding a tile -/

/-- The sign bits so far: the bytes, the one being filled, and the bits it has room for. -/
structure SignBits where
  signbits : List UInt8
  nsign : ℕ
  bitsToGo : ℕ

/-- Append a sign bit. -/
def SignBits.push (s : SignBits) (bit : UInt8) : Outcome SignBits := do
  let byte ← load s.signbits s.nsign
  let signbits ← store s.signbits s.nsign (byte <<< 1 ||| bit)
  let bitsToGo := s.bitsToGo - 1
  .ok (if bitsToGo = 0 then ⟨signbits, s.nsign + 1, 8⟩ else ⟨signbits, s.nsign, bitsToGo⟩)

/-- The magnitudes of `values`, and their signs where they are not zero. -/
def extractSigns : SignBits → List ℤ → Outcome (SignBits × List ℤ)
  | s, [] => .ok (s, [])
  | s, v :: values =>
    if 0 < v then do
      let s ← s.push 0
      let (s, magnitudes) ← extractSigns s values
      .ok (s, v :: magnitudes)
    else if v < 0 then do
      let s ← s.push 1
      if FitsI64 (-v) then do
        let (s, magnitudes) ← extractSigns s values
        .ok (s, -v :: magnitudes)
      else
        fail transformOverflow
    else do
      let (s, magnitudes) ← extractSigns s values
      .ok (s, v :: magnitudes)

/-- The bytes of the sign bits, the last one's unused bits zero. -/
def SignBits.finish (s : SignBits) : Outcome (List UInt8) :=
  if s.bitsToGo ≠ 8 then do
    let byte ← load s.signbits s.nsign
    let signbits ← store s.signbits s.nsign (byte <<< UInt8.ofNat s.bitsToGo)
    .ok (signbits.take (s.nsign + 1))
  else
    .ok (s.signbits.take s.nsign)

/-- The quadrant of the place `index` of a plane, the two off the diagonal as one. -/
def quadrantOf (nx ny index : ℕ) : ℕ :=
  (decide ((ny + 1) / 2 ≤ index % ny)).toNat + (decide ((nx + 1) / 2 ≤ index / ny)).toNat

/-- The greatest magnitude of a quadrant. -/
def vmax (a : List ℤ) (nx ny q : ℕ) : ℤ :=
  a.zipIdx.foldl (fun vmax (v, index) =>
    if quadrantOf nx ny index = q ∧ vmax < v then v else vmax) 0

/-- The bit planes of each quadrant: the bits of its greatest magnitude. -/
def bitPlanes (a : List ℤ) (nx ny : ℕ) : List ℕ :=
  (List.range 3).map fun q => bitLength (vmax a nx ny q).toNat

/-- A tile dimension as the stream's 32-bit field. -/
def tileDimension (length : ℕ) : Outcome (List UInt8) :=
  if length < 2 ^ 31 then .ok (beBytes 4 length)
  else fail (.unsupportedCompression (.hcompressTileSide length))

/-- The big-endian bytes of a signed value. -/
def intBytes (count : ℕ) (value : ℤ) : List UInt8 :=
  beBytes count (value % 256 ^ count).toNat

/-- The stream of a transformed plane: the header, the coded planes and the signs. -/
def encodePlane (a : List ℤ) (nx ny : ℕ) (scale : ℤ) : Outcome (List UInt8) := do
  let nel := nx * ny
  let nxField ← tileDimension nx
  let nyField ← tileDimension ny
  let a0 ← load a 0
  let a ← store a 0 0
  let (signs, a) ← extractSigns ⟨List.replicate ((nel + 7) / 8) 0, 0, 8⟩ a
  let signbits ← signs.finish
  let nbitplanes := bitPlanes a nx ny
  let header := magic ++ nxField ++ nyField ++ intBytes 4 scale ++ intBytes 8 a0 ++
    nbitplanes.map UInt8.ofNat
  let bo ← BitOutput.doencode ⟨header, 0, 8⟩ a nx ny nbitplanes
  .ok (bo.out ++ signbits)

/-- The scale a tile is compressed at: lossless, or the integer step that a relative or an
absolute scale comes to for the tile. -/
inductive HcompressScale
  | lossless
  | step (scale : ℤ)
  deriving DecidableEq, Repr

/-- An `HCOMPRESS_1` stream's parameters: the scale it is written at, the smoothing it is
read back with, and the two tile axes its plane lies in. -/
structure Codec where
  scale : HcompressScale
  smoothing : Smoothing
  plane : ℕ × ℕ
  deriving DecidableEq, Repr

/-- The extents of a tile of `shape` in the codec's plane: `ny`, then `nx`. -/
def Codec.extents (codec : Codec) (shape : List ℕ) : Outcome (ℕ × ℕ) := do
  let ny ← load shape codec.plane.1
  let nx ← load shape codec.plane.2
  .ok (ny, nx)

/-- The integer scale a tile is compressed at. -/
def Codec.tileScale (codec : Codec) : Outcome ℤ :=
  match codec.scale with
  | .lossless => .ok 0
  | .step scale =>
    if 2 ^ 31 - 1 < scale then fail (.unsupportedCompression .hcompressScale) else .ok scale

/-- Encode the tile `values` of `shape`. A lossy scale refuses a tile that holds its blank. -/
def Codec.encode (codec : Codec) (values : List ℤ) (shape : List ℕ) (blank : Option ℤ) :
    Outcome (List UInt8) := do
  let (ny, nx) ← codec.extents shape
  let scale ← codec.tileScale
  if 1 < scale ∧ ∃ value ∈ blank, value ∈ values then
    fail (.unsupportedCompression .lossyHcompressNulls)
  else if nx * ny ≠ values.length then
    abort .debugAssertion
  else do
    let plane ← htrans values nx ny
    let plane ← digitize plane scale
    encodePlane plane nx ny scale

/-! ## Reading bits -/

/-- The symbol and the length of the code that six bits start with. -/
def huffmanDecode (p : ℕ) : ℕ × ℕ :=
  if p >>> 3 < 4 then (1 <<< (p >>> 3), 3)
  else if p >>> 2 < 13 then
    ((match p >>> 2 with
      | 8 => 3
      | 9 => 5
      | 10 => 10
      | 11 => 12
      | _ => 15), 4)
  else if p >>> 1 < 31 then
    ((match p >>> 1 with
      | 26 => 6
      | 27 => 7
      | 28 => 9
      | 29 => 11
      | _ => 13), 5)
  else if p = 62 then (0, 6)
  else (14, 6)

/-- A bit reader: the bits not yet taken are at the low end of `buffer`. -/
structure BitInput where
  data : List UInt8
  pos : ℕ
  buffer : BitVec 32
  bitsToGo : ℕ

/-- The next byte. -/
def BitInput.byte (bi : BitInput) : Outcome (UInt8 × BitInput) :=
  match bi.data[bi.pos]? with
  | some byte => .ok (byte, { bi with pos := bi.pos + 1 })
  | none => fail .unexpectedEof

/-- The next `n` bytes. -/
def BitInput.readBytes (bi : BitInput) (n : ℕ) : Outcome (List UInt8 × BitInput) :=
  if bi.pos + n ≤ bi.data.length then
    .ok ((bi.data.drop bi.pos).take n, { bi with pos := bi.pos + n })
  else
    fail .unexpectedEof

/-- The signed value of big-endian bytes. -/
def ofIntBytes (bytes : List UInt8) : ℤ := (BitVec.ofNat (8 * bytes.length) (ofBeBytes bytes)).toInt

/-- The next `count` bytes as a signed value. -/
def BitInput.readInt (bi : BitInput) (count : ℕ) : Outcome (ℤ × BitInput) := do
  let (bytes, bi) ← bi.readBytes count
  .ok (ofIntBytes bytes, bi)

/-- Start a bit string at the next byte. -/
def BitInput.startInputingBits (bi : BitInput) : BitInput := { bi with bitsToGo := 0 }

/-- Take the next byte into the buffer. -/
def BitInput.refill (bi : BitInput) : Outcome BitInput := do
  let (byte, bi) ← bi.byte
  .ok { bi with buffer := bi.buffer <<< 8 ||| BitVec.ofNat 32 byte.toNat, bitsToGo := bi.bitsToGo + 8 }

/-- Take the next byte where fewer than `n` bits are held. -/
def BitInput.fill (bi : BitInput) (n : ℕ) : Outcome BitInput :=
  if bi.bitsToGo < n then bi.refill else .ok bi

/-- The buffer moved down by `n` places, fewer than the word's 32. -/
def shiftBuffer (buffer : BitVec 32) (n : ℕ) : Outcome (BitVec 32) :=
  if n < 32 then .ok (buffer.sshiftRight n) else abort .shiftOverflow

/-- The buffer with the `n` bits to take at its low end. -/
def BitInput.top (bi : BitInput) (n : ℕ) : Outcome (BitVec 32) :=
  if n ≤ bi.bitsToGo then shiftBuffer bi.buffer (bi.bitsToGo - n) else abort .shiftOverflow

/-- The next bit. -/
def BitInput.inputBit (bi : BitInput) : Outcome (ℕ × BitInput) := do
  let bi ←
    if bi.bitsToGo = 0 then do
      let (byte, bi) ← bi.byte
      .ok { bi with buffer := BitVec.ofNat 32 byte.toNat, bitsToGo := 8 }
    else .ok bi
  let top ← bi.top 1
  .ok ((top &&& 1).toNat, { bi with bitsToGo := bi.bitsToGo - 1 })

/-- The next `n` bits. -/
def BitInput.inputNbits (bi : BitInput) (n : ℕ) : Outcome (ℕ × BitInput) := do
  let bi ← bi.fill n
  let top ← bi.top n
  .ok ((top &&& (1#32 <<< n - 1)).toNat, { bi with bitsToGo := bi.bitsToGo - n })

/-- The next four bits. -/
def BitInput.inputNybble (bi : BitInput) : Outcome (ℕ × BitInput) := bi.inputNbits 4

/-- The next `pairs` bytes of nybbles, into `array`: `bitsToGo` bits stay held back. -/
def BitInput.inputPairs (bi : BitInput) (array : List ℕ) (pairs : ℕ) :
    Outcome (List ℕ × BitInput) :=
  let shift1 := bi.bitsToGo + 4
  let shift2 := bi.bitsToGo
  (List.range pairs).foldlM (fun (s : List ℕ × BitInput) t => do
    let (byte, bi) ← s.2.byte
    let buffer := bi.buffer <<< 8 ||| BitVec.ofNat 32 byte.toNat
    let high ← shiftBuffer buffer shift1
    let array ← store s.1 (2 * t) (high.toNat % 256 &&& 15)
    let low ← shiftBuffer buffer shift2
    let array ← store array (2 * t + 1) (low.toNat % 256 &&& 15)
    .ok (array, { bi with buffer := buffer })) (array, bi)

/-- The next `n` nybbles, into `array`: a byte held whole is given back first. -/
def BitInput.inputNnybble (bi : BitInput) (n : ℕ) (array : List ℕ) :
    Outcome (List ℕ × BitInput) :=
  if n = 1 then do
    let (nybble, bi) ← bi.inputNybble
    let array ← store array 0 nybble
    .ok (array, bi)
  else do
    let bi ←
      if bi.bitsToGo = 8 then do
        let pos ← subUsize bi.pos 1
        .ok { bi with pos := pos, bitsToGo := 0 }
      else .ok bi
    let pairs := n / 2
    let (array, bi) ← bi.inputPairs array pairs
    if pairs * 2 ≠ n then do
      let (nybble, bi) ← bi.inputNybble
      let array ← store array (n - 1) nybble
      .ok (array, bi)
    else
      .ok (array, bi)

/-- The symbol of the next code: six bits are looked at, and its own are taken. -/
def BitInput.inputHuffman (bi : BitInput) : Outcome (ℕ × BitInput) := do
  let bi ← bi.fill 6
  let top ← bi.top 6
  let peek := top.toNat % 256 &&& 63
  let (value, len) := huffmanDecode peek
  .ok (value, { bi with bitsToGo := bi.bitsToGo - len })

/-! ## Decoding a bit plane -/

/-- The four bits of a code as a block. -/
def expandCode (v : ℕ) : Quad ℕ := ⟨v >>> 3 &&& 1, v >>> 2 &&& 1, v >>> 1 &&& 1, v &&& 1⟩

/-- Spread the codes of the blocks of `nx` rows of `ny` cells to the first cells of their
blocks, from the last, and expand each to its block. -/
def qtreeCopy (a : List ℕ) (nx ny : ℕ) : Outcome (List ℕ) := do
  let nx2 := (nx + 1) / 2
  let ny2 := (ny + 1) / 2
  let rows ← subUsize nx2 1
  let last ← subUsize (ny2 * rows + ny2) 1
  let a ← (List.range (nx2 * ny2)).foldlM (fun a t => do
    let k := last - t
    let v ← load a k
    store a (2 * (ny * (k / ny2) + k % ny2)) v) a
  updateBlocks (fun _ q => .ok (expandCode q.s00)) 0 ny nx ny 0 a

/-- Read a code for each of the first `count` cells that is not zero, from the last. -/
def readCells : ℕ → BitInput → List ℕ → Outcome (List ℕ × BitInput)
  | 0, bi, a => .ok (a, bi)
  | i + 1, bi, a => do
    let cell ← load a i
    if cell ≠ 0 then do
      let (value, bi) ← bi.inputHuffman
      let a ← store a i value
      readCells i bi a
    else
      readCells i bi a

/-- Expand the codes to `nx` rows of `ny` cells and read those that are not zero. -/
def qtreeExpand (bi : BitInput) (a : List ℕ) (nx ny : ℕ) : Outcome (List ℕ × BitInput) := do
  let a ← qtreeCopy a nx ny
  readCells (nx * ny) bi a

/-- A code's bits in the plane `bit` of a block. -/
def insertCode (bit v : ℕ) (q : Quad ℤ) : Quad ℤ :=
  let bits := expandCode v
  ⟨or64 q.s00 (bits.s00 * 2 ^ bit), or64 q.s01 (bits.s01 * 2 ^ bit),
    or64 q.s10 (bits.s10 * 2 ^ bit), or64 q.s11 (bits.s11 * 2 ^ bit)⟩

/-- Insert the codes of a quadrant's blocks in its plane `bit`, a place of a 64-bit word. -/
def qtreeBitins (codes : List ℕ) (quadrant : Quadrant) (b : List ℤ) (bit : ℕ) :
    Outcome (List ℤ) :=
  updateBlocks (fun block q => do
    let v ← load codes block.index
    if bit < 64 then .ok (insertCode bit v q) else abort .shiftOverflow) quadrant.base quadrant.n quadrant.nqx quadrant.nqy 0 b

/-- Read the levels of a quadtree below the one whose steps are `c`. -/
def decodeLevels : ℕ → BitInput → List ℕ → ℕ → Axis → Axis → Outcome (List ℕ × BitInput)
  | 0, bi, scratch, _, _, _ => .ok (scratch, bi)
  | count + 1, bi, scratch, c, x, y => do
    let c := c / 2
    let x := x.grow c
    let y := y.grow c
    let (scratch, bi) ← qtreeExpand bi scratch x.top y.top
    decodeLevels count bi scratch c x y

/-- Read the codes of a plane of a quadrant. The workspace is sized for it, and no step
reads what an earlier plane left in it. -/
def qtreeCodes (bi : BitInput) (quadrant : Quadrant) : Outcome (List ℕ × BitInput) := do
  let scratch := List.replicate (max quadrant.cells 1) 0
  let (format, bi) ← bi.inputNybble
  if format = 0 then
    bi.inputNnybble quadrant.cells scratch
  else if format ≠ 15 then
    fail HcompressDefect.formatCode.error
  else do
    let (root, bi) ← bi.inputHuffman
    let scratch ← store scratch 0 root
    let c ← onePlace quadrant.log2n
    decodeLevels (quadrant.log2n - 1) bi scratch c ⟨1, quadrant.nqx⟩
      ⟨1, quadrant.nqy⟩

/-- Read the planes of a quadrant below `nbitplanes`, the top one first. -/
def qtreeDecode (quadrant : Quadrant) :
    ℕ → BitInput → List ℤ → Outcome (List ℤ × BitInput)
  | 0, bi, a => .ok (a, bi)
  | bit + 1, bi, a => do
    let (codes, bi) ← qtreeCodes bi quadrant
    let a ← qtreeBitins codes quadrant a bit
    qtreeDecode quadrant bit bi a

/-! ## Decoding a tile -/

/-- A value with the sign that a bit tells. -/
def withSign (bit : ℕ) (v : ℤ) : Outcome ℤ := if bit ≠ 0 then checkI64 (-v) else .ok v

/-- Negate the values whose sign bit is set: each that is not zero has one. -/
def readSigns : BitInput → List ℤ → Outcome (List ℤ)
  | _, [] => .ok []
  | bi, v :: values =>
    if v ≠ 0 then do
      let (bit, bi) ← bi.inputBit
      let v ← withSign bit v
      let rest ← readSigns bi values
      .ok (v :: rest)
    else do
      let rest ← readSigns bi values
      .ok (v :: rest)

/-- Read the quadrants, the zero that ends them and the signs. -/
def dodecode (bi : BitInput) (a : List ℤ) (nx ny : ℕ) (nbitplanes : List ℕ) :
    Outcome (List ℤ) := do
  let (a, bi) ← (quadrants nx ny).foldlM (fun (s : List ℤ × BitInput) (quadrant, place) => do
    let planes ← load nbitplanes place
    qtreeDecode quadrant planes s.2 s.1) (a, bi.startInputingBits)
  let (last, bi) ← bi.inputNybble
  if last ≠ 0 then
    fail HcompressDefect.bitPlaneEnd.error
  else
    readSigns bi.startInputingBits a

/-- A dimension of a stream, which is not negative. -/
def streamDimension (value : ℤ) : Outcome ℕ :=
  if 0 ≤ value then .ok value.toNat else fail HcompressDefect.negativeDimension.error

/-- Decode a stream of a tile of `tileNx` rows of `tileNy` values. -/
def Codec.hdecompress (codec : Codec) (input : List UInt8) (tileNy tileNx : ℕ) :
    Outcome (List ℤ) := do
  let (start, bi) ← BitInput.readBytes ⟨input, 0, 0, 0⟩ 2
  if start ≠ magic then
    fail HcompressDefect.magic.error
  else do
    let (nxField, bi) ← bi.readInt 4
    let nx ← streamDimension nxField
    let (nyField, bi) ← bi.readInt 4
    let ny ← streamDimension nyField
    let cells ← mulUsize tileNx tileNy
    if cells = 0 ∨ (nx, ny) ≠ (tileNx, tileNy) then
      fail HcompressDefect.tileDimensions.error
    else do
      let (scale, bi) ← bi.readInt 4
      let (sumall, bi) ← bi.readInt 8
      let (planes, bi) ← bi.readBytes 3
      let nbitplanes := planes.map UInt8.toNat
      if nbitplanes.any (63 < ·) then
        fail HcompressDefect.bitPlaneCount.error
      else do
        let a ← dodecode bi (List.replicate (nx * ny) 0) nx ny nbitplanes
        let a ← store a 0 sumall
        let a ← undigitize a scale
        hinv a nx ny scale codec.smoothing

/-- Decode a tile of `shape`. -/
def Codec.decode (codec : Codec) (bytes : List UInt8) (shape : List ℕ) : Outcome (List ℤ) := do
  let (ny, nx) ← codec.extents shape
  codec.hdecompress bytes ny nx

end FitsWell.Hcompress
