import FitsWell.Hdu.Hdus
import FitsWell.ImageModel.Region

/-!
# Reads of a plain image

The stored bytes of a plain image are read by runs, from bytes resident in memory or from a
stream a chunk at a time. A section of the image reads as the crop of the whole.
-/

namespace FitsWell

open Chunks (chunk)
open MixedRadix Tiling

/-! ## Samples -/

/-- A stored sample type: plain data of `size` bytes, every pattern of which is a value. -/
structure Sample (τ : Type) where
  size : ℕ
  size_mem : size ∈ [1, 2, 4, 8]
  /-- `T::default()`. -/
  zero : τ
  fromBeBytes : List UInt8 → τ
  fromNeBytes : List UInt8 → τ
  toNeBytes : τ → List UInt8
  toNeBytes_fromNeBytes : ∀ bytes, bytes.length = size → toNeBytes (fromNeBytes bytes) = bytes

namespace Sample

variable {τ : Type} (sample : Sample τ)

/-- The big-endian samples `src`, host-endian. -/
def ofBe (src : List UInt8) : List τ :=
  (List.range (src.length / sample.size)).map fun j => sample.fromBeBytes (chunk src sample.size j)

/-- The samples whose memory holds `bytes`. -/
def ofNe (bytes : List UInt8) : List τ :=
  (List.range (bytes.length / sample.size)).map fun j =>
    sample.fromNeBytes (chunk bytes sample.size j)

/-- Decode the big-endian `src` into `dst`. -/
def decodeBe (src : List UInt8) (dst : List τ) : Outcome (List τ) := do
  debugAssert (dst.length = src.length / sample.size)
  .ok (sample.ofBe src)

/-- Turn `values`, which hold stored big-endian samples, host-endian. -/
def swapBeInPlace (values : List τ) : List τ :=
  values.map fun value => sample.fromBeBytes (sample.toNeBytes value)

/-- Append the big-endian samples `src` to `out`, host-endian. -/
def extendFromBe (src : List UInt8) (out : List τ) : Outcome (List τ) := do
  debugAssert (src.length % sample.size = 0)
  .ok (out ++ sample.ofBe src)

end Sample

/-! ## Sources -/

/-- `base + delta`, where it addresses a byte of a source. -/
def offsetAt (base delta : ℕ) : Outcome ℕ := orOverflow (checkedAdd base delta)

/-- A source of bytes, resident in memory or read as a stream. -/
structure DataSource where
  source : Source
  resident : Bool

namespace DataSource

/-- The bytes at `offset` of a resident source. -/
def residentRange (data : DataSource) (offset len : ℕ) : Outcome (List UInt8) := do
  Source.checkRange offset len data.source.size
  subslice data.source.bytes offset len

/-- Fill a buffer of `len` bytes from a stream. -/
def readInto (data : DataSource) (offset len : ℕ) : Outcome (List UInt8) := do
  Source.checkRange offset len data.source.size
  match data.source.fault offset with
  | some error => fail error
  | none => .ok ((data.source.bytes.drop offset).take len)

end DataSource

/-! ## Reads by runs -/

/-- Where the stored bytes of a region of a plain image lie in its data unit. -/
inductive StoredRuns
  | all (len : ℕ)
  | part (runs : SectionRuns) (len : ℕ)
  deriving DecidableEq, Repr

namespace StoredRuns

/-- The runs of the stored bytes of the section `ranges` selects. -/
def ofSection (shape : List ℕ) (ranges : List AxisRange) (elementSize : ℕ) :
    Outcome StoredRuns := do
  let selectedShape ← validateImageRegion ranges shape
  let count ← shapeProduct selectedShape
  let len ← orOverflow (checkedMul count elementSize)
  .ok (.part ⟨shape, ranges, selectedShape, elementSize⟩ len)

/-- The stored bytes of the region. -/
def len : StoredRuns → ℕ
  | all len | part _ len => len

/-- Give `each` the runs, in order. -/
def visit (runs : StoredRuns) : Producer Fault Run Unit :=
  match runs with
  | all len => fun _ each => each ⟨0, len⟩
  | part runs _ => runs.visit

end StoredRuns

/-- The bytes a stream read swaps at a time. -/
def swapChunk : ℕ := 256 * 1024

/-- The lengths of the chunks of `limit` elements, the last one shorter. -/
def chunkLens (limit count : ℕ) : Outcome (List ℕ) :=
  if limit = 0 then
    abort .zeroChunkSize
  else
    .ok (List.replicate (count / limit) limit ++
      if count % limit = 0 then [] else [count % limit])

/-- A plain image's data unit, read by runs. -/
structure PlainRead where
  data : DataSource
  dataOffset : ℕ

namespace PlainRead

variable {τ : Type} (read : PlainRead) (sample : Sample τ)

/-- Put samples at the place a buffer is filled to. -/
def put (values : List τ) : Stateful Fault (List τ × ℕ) Unit := fun s =>
  (.ok (), (s.1.take s.2 ++ values ++ s.1.drop (s.2 + values.length), s.2 + values.length))

/-- Read a chunk of `count` samples from `offset` of a stream, swapped where it lands, with
where the next one starts. -/
def fillChunk (offset count : ℕ) : Stateful Fault (List τ × ℕ) ℕ := do
  let bytes ← Stateful.lift (read.data.readInto offset (count * sample.size))
  put (sample.swapBeInPlace (sample.ofNe bytes))
  Stateful.lift (offsetAt offset bytes.length)

/-- Fill the buffer with the samples of a run. -/
def fillRun (run : Run) : Stateful Fault (List τ × ℕ) Unit := do
  let offset ← Stateful.lift (offsetAt read.dataOffset run.offset)
  let s ← Stateful.get
  let samples ← Stateful.lift (subslice s.1 s.2 (run.len / sample.size))
  if read.data.resident then do
    let bytes ← Stateful.lift (read.data.residentRange offset run.len)
    let values ← Stateful.lift (sample.decodeBe bytes samples)
    put values
  else do
    let lens ← Stateful.lift (chunkLens (swapChunk / sample.size) samples.length)
    let _ ← lens.foldlM (read.fillChunk sample) offset
    pure ()

/-- Fill `out` with the samples of `runs`. -/
def fill (runs : StoredRuns) (out : List τ) : Outcome (List τ) := do
  debugAssert (out.length * sample.size = runs.len)
  let filled := (runs.visit (List τ × ℕ) (read.fillRun sample)).run (out, 0)
  filled.1
  .ok filled.2.1

/-- Append the samples of a run of a resident source. -/
def extendRun (run : Run) : Stateful Fault (List τ) Unit := do
  let offset ← Stateful.lift (offsetAt read.dataOffset run.offset)
  let bytes ← Stateful.lift (read.data.residentRange offset run.len)
  let out ← Stateful.get
  let values ← Stateful.lift (sample.extendFromBe bytes out)
  Stateful.set values

/-- The samples of `runs`, owned. -/
def filled (runs : StoredRuns) (count : ℕ) : Outcome (List τ) :=
  if read.data.resident then do
    let extended := (runs.visit (List τ) (read.extendRun sample)).run []
    extended.1
    .ok extended.2
  else
    read.fill sample runs (List.replicate count sample.zero)

end PlainRead

end FitsWell
