import FitsWell.FitsError
import FitsWell.Library.Bytes
import FitsWell.Library.Chunks

/-!
# The PLIO_1 tile codec

The IRAF PLIO line list: a list of 16-bit instructions, opcode in the top four bits and
twelve bits of data below, that program a run-length mask while tracking a current
high value. Positions are 1-based as in the source.
-/

namespace FitsWell.Plio

open Bytes

/-- A word of a line list, an `i16` of the source. -/
abbrev Word := BitVec 16

/-- A `PLIO_1` stream's parameter: the `offset` its stream adds to each sample. -/
structure Codec where
  offset : ℤ
  deriving DecidableEq, Repr

/-- The values a PLIO stream holds: unsigned, in 24 bits. -/
def streamRange (value : ℤ) : Bool := decide (0 ≤ value ∧ value ≤ 0xFFFFFF)

/-- The big-endian bytes of a word. -/
def Word.beBytes (word : Word) : List UInt8 := Bytes.beBytes 2 word.toNat

/-- Replace the last word of a list by what `update` makes of it. -/
def updateLast (update : Word → Word) : List Word → List Word
  | [] => []
  | [last] => [update last]
  | word :: next :: words => word :: updateLast update (next :: words)

/-- The count of leading `values` equal to `value`, compared in chunks of sixteen. -/
def runLen (values : List ℤ) (value : ℤ) : ℕ :=
  Chunks.leadingCount 15 (fun v => decide (v = value)) values

/-- A list length as the two 15-bit header words that hold it, low first; a list of
2³⁰ words or more has no such form. -/
def lengthWords (total : ℕ) : Outcome (Word × Word) :=
  if total % 32768 < 32768 ∧ total / 32768 < 32768 then
    .ok (BitVec.ofNat 16 (total % 32768), BitVec.ofNat 16 (total / 32768))
  else
    fail (.unsupportedCompression (.plioListLength total))

/-! ## Encoding -/

/-- The loop variables of the encoder: the list written so far, the value of the current
run, where its high pixels start, where its leading zeros start, the high value the list
last set, and the next pixel's value. -/
structure EncodeState where
  ll : List Word
  pv : ℤ
  x1 : ℤ
  iz : ℤ
  hi : ℤ
  nv : ℤ

/-- Push a run of `n` pixels in words of at most 4095, each with `tag` added. -/
def pushRun (tag : ℤ) (ll : List Word) (n : ℤ) : List Word :=
  if 0 < n then pushRun tag (ll ++ [BitVec.ofInt 16 (min n 4095 + tag)]) (n - 4095) else ll
termination_by n.toNat

/-- The words that move the high value from `s.hi` to `s.pv`, and whether they set the
segment's lone pixel too. -/
def EncodeState.pushHigh (s : EncodeState) (np nz : ℤ) : EncodeState × Bool :=
  let dv := s.pv - s.hi
  if 0 < s.pv ∧ dv ≠ 0 then
    if 4095 < dv.natAbs then
      -- two-word absolute set: low 12 bits (opcode 1), then the high bits
      ({ s with
          hi := s.pv
          ll := s.ll ++ [BitVec.ofInt 16 (s.pv % 4096 + 4096), BitVec.ofInt 16 (s.pv / 4096)] },
        false)
    else
      -- one-word relative adjust: opcode 2 (up) or 3 (down)
      let ll := s.ll ++
        [if dv < 0 then BitVec.ofInt 16 (-dv + 12288) else BitVec.ofInt 16 (dv + 8192)]
      if np = 1 ∧ nz = 0 then
        ({ s with hi := s.pv, ll := updateLast (· ||| 16384) ll }, true)
      else
        ({ s with hi := s.pv, ll := ll }, false)
  else
    (s, false)

/-- The words of the segment that ends at pixel `ip`: its leading zeros, then its run of
the high value. -/
def EncodeState.flush (s : EncodeState) (ip : ℕ) : EncodeState :=
  let np := (ip : ℤ) - s.x1 + 1
  let nz := s.x1 - s.iz
  let (s, done) := s.pushHigh np nz
  let (ll, done) :=
    if !done ∧ 0 < nz then
      let ll := pushRun 0 s.ll nz
      -- a lone high pixel after the zeros folds into the last zero word as opcode 5
      if np = 1 ∧ 0 < s.pv then
        (updateLast (fun last => BitVec.ofInt 16 (last.toInt + 20481)) ll, true)
      else
        (ll, done)
    else
      (s.ll, done)
  let ll := if !done then pushRun 16384 ll np else ll
  { s with ll := ll, x1 := ip + 1, iz := ip + 1, pv := s.nv }

/-- The loop body at `last`, the last pixel of the run that starts or goes on at the
current one, before the pixel `next`: a run of zeros waits for the high pixels after it,
and any other run is flushed. -/
def EncodeState.advance (s : EncodeState) (xe last : ℕ) (next : ℤ) : EncodeState :=
  if last < xe then
    let s := { s with nv := next }
    if s.nv = s.pv then s
    else if s.pv = 0 then { s with pv := s.nv, x1 := last + 1 }
    else s.flush last
  else if s.pv = 0 then { s with x1 := xe + 1 : EncodeState }.flush last
  else s.flush last

/-- The encoder's loop from pixel `ip` on: a pixel equal to the one before it only
extends the run, so a run is passed whole. -/
def encodeLoop (offset : ℤ) (values : List ℤ) (s : EncodeState) (ip : ℕ) : List Word :=
  let xe := values.length
  let pix := fun i1 => values.getD (i1 - 1) 0 + offset
  if ip ≤ xe then
    let last := ip + runLen (values.drop ip) (s.pv - offset)
    encodeLoop offset values (s.advance xe last (pix (last + 1))) (last + 1)
  else
    s.ll
termination_by values.length + 1 - ip

/-- The header words a list starts with: the `-100` at index 2 selects the 30-bit length
form, and index 1 is the header's own length. -/
def headerWords : List Word := [0, 7, -100, 0, 0, 0, 0].map (BitVec.ofInt 16)

/-- The line list of `values`, before its length is written into its header. -/
def Codec.lineList (codec : Codec) (values : List ℤ) : List Word :=
  let pv := values.getD 0 0 + codec.offset
  encodeLoop codec.offset values ⟨headerWords, pv, 1, 1, 1, 0⟩ 1

/-- Encode `values` plus the offset as a line list: the bytes appended to the caller's
buffer. The values are within the format's range, as the check before the tiles made
sure. -/
def Codec.encode (codec : Codec) (values : List ℤ) : Outcome (List UInt8) :=
  if values.all (fun value => streamRange (value + codec.offset)) then
    if values.length = 0 then
      .ok (headerWords.flatMap Word.beBytes)
    else do
      let ll := codec.lineList values
      let (low, high) ← lengthWords ll.length
      .ok (((ll.set 3 low).set 4 high).flatMap Word.beBytes)
  else
    abort .debugAssertion

/-! ## Decoding -/

/-- The word at `index` of the big-endian words `bytes`, or the end of the stream. -/
def beWord (bytes : List UInt8) (index : ℕ) : Outcome Word :=
  match bytes.drop (2 * index) with
  | high :: low :: _ => .ok (BitVec.ofNat 16 (ofBeBytes [high, low]))
  | _ => fail .unexpectedEof

/-- The word at `index` as a header value, which is not negative. -/
def nonnegativeWord (bytes : List UInt8) (index : ℕ) : Outcome ℕ := do
  let value ← beWord bytes index
  if 0 ≤ value.toInt then .ok value.toInt.toNat else fail PlioDefect.negativeHeader.error

/-- The loop variables of the decoder: whether the next word is data, the next output
position, the current pixel coordinate, the current high value, and the pixels. -/
structure DecodeState where
  skipWord : Bool
  op : ℤ
  x1 : ℤ
  pv : ℤ
  px : List ℤ

/-- Set the `count` pixels from index `start` on to `value`. -/
def fill (px : List ℤ) (start count : ℕ) (value : ℤ) : List ℤ :=
  (List.range count).foldl (fun px i => px.set (start + i) value) px

/-- A run of `data` pixels: opcode 4 sets each to the high value, opcodes 0 and 5 leave
zeros, and opcode 5 sets the last to the high value. -/
def DecodeState.run (s : DecodeState) (xe : ℤ) (opcode data : ℕ) : DecodeState :=
  let x2 := s.x1 + data - 1
  let i2 := min x2 xe
  let np := i2 - s.x1 + 1
  let s :=
    if 0 < np then
      let otop := s.op + np - 1
      let px :=
        if opcode = 4 then fill s.px (s.op - 1).toNat np.toNat s.pv
        else if opcode = 5 ∧ i2 = x2 then s.px.set (otop - 1).toNat s.pv
        else s.px
      { s with px := px, op := otop + 1 }
    else s
  { s with x1 := x2 + 1 }

/-- A single high pixel, once the high value is adjusted. -/
def DecodeState.single (s : DecodeState) (xe : ℤ) (pv : ℤ) : DecodeState :=
  let s := { s with pv := pv }
  let s :=
    if s.x1 ≤ xe then { s with px := s.px.set (s.op - 1).toNat s.pv, op := s.op + 1 } else s
  { s with x1 := s.x1 + 1 }

/-- One instruction, the word `word` before the word `next`. -/
def DecodeState.step (s : DecodeState) (xe : ℤ) (word : Word) (next : Outcome Word) :
    Outcome DecodeState :=
  let opcode := word.toNat / 4096
  let data := word.toNat % 4096
  match opcode with
  | 0 | 4 | 5 => .ok (s.run xe opcode data)
  | 1 => do
    let next ← next
    .ok { s with pv := next.toNat * 4096 + data, skipWord := true }
  | 2 => .ok { s with pv := s.pv + data }
  | 3 => .ok { s with pv := s.pv - data }
  | 6 => .ok (s.single xe (s.pv + data))
  | 7 => .ok (s.single xe (s.pv - data))
  | _ => fail PlioDefect.opcode.error

/-- The decoder's loop from the word `ip` on, of a list of `lllen` words. -/
def decodeLoop (bytes : List UInt8) (lllen : ℕ) (xe : ℤ) (s : DecodeState) (ip : ℕ) :
    Outcome (List ℤ) :=
  if ip ≤ lllen then
    if s.skipWord then
      decodeLoop bytes lllen xe { s with skipWord := false } (ip + 1)
    else do
      let word ← beWord bytes (ip - 1)
      let s ← s.step xe word (if lllen ≤ ip then fail .unexpectedEof else beWord bytes ip)
      if xe < s.x1 then .ok s.px else decodeLoop bytes lllen xe s (ip + 1)
  else
    .ok s.px
termination_by lllen + 1 - ip

/-- The length of the list and the 1-based place of its first instruction: a positive
third word gives the length directly (the older form), else it is a 30-bit value in the
fourth and fifth words. -/
def listBounds (bytes : List UInt8) : Outcome (ℕ × ℕ) := do
  let v3 ← beWord bytes 2
  if 0 < v3.toInt then
    .ok (v3.toInt.toNat, 4)
  else do
    let lo ← nonnegativeWord bytes 3
    let hi ← nonnegativeWord bytes 4
    let start ← nonnegativeWord bytes 1
    .ok (hi * 32768 + lo, start + 1)

/-- Decode the line list `bytes` into `npix` stream values. -/
def decodeWords (bytes : List UInt8) (npix : ℕ) : Outcome (List ℤ) :=
  let px := List.replicate npix 0
  if npix = 0 then
    .ok px
  else do
    let (lllen, llfirst) ← listBounds bytes
    if bytes.length / 2 < lllen then
      fail .unexpectedEof
    else if lllen = 0 ∨ lllen + 1 < llfirst then
      fail PlioDefect.listBounds.error
    else
      decodeLoop bytes lllen npix ⟨false, 1, 1, 1, px⟩ llfirst

/-- Decode the line list `bytes` into `count` values, less the offset. -/
def Codec.decode (codec : Codec) (bytes : List UInt8) (count : ℕ) : Outcome (List ℤ) :=
  if bytes.length % 2 ≠ 0 then
    fail .unexpectedEof
  else do
    let px ← decodeWords bytes count
    .ok (if codec.offset ≠ 0 then px.map (· - codec.offset) else px)

end FitsWell.Plio
