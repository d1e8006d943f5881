import FitsWell.Library.Stateful
import FitsWell.Writer.Builder

/-!
# Encoding a table

A table's rows are encoded a band at a time: each fixed-width column is scattered over the
band's zeroed bytes, then each array's descriptor is written where the columns have arrays.
The heap follows, gathered to the size of a chunk.
-/

namespace FitsWell

open Bits Bytes Chunks

/-! ## Cells -/

/-- Where a column's cells lie in a main table: `rowCount` rows of `rowLen` bytes, each cell at
`offset` in its row, and `repeatCount` values long. -/
structure Cells where
  rowLen : ℕ
  offset : ℕ
  rowCount : ℕ
  repeatCount : ℕ
  deriving DecidableEq, Repr

/-- The bytes of `values.chunks_exact_mut(size)` and what `write` leaves of each chunk that an
item goes with. -/
def writeChunks {ι : Type} (size : ℕ) (items : List ι)
    (write : List UInt8 → ι → Outcome (List UInt8)) (out : List UInt8) : Outcome (List UInt8) :=
  if size = 0 then
    abort .zeroChunkSize
  else do
    let written ← ((wholeChunks (size - 1) out).zip items).mapM fun part => write part.1 part.2
    .ok (written.flatten ++ out.drop (written.length * size))

namespace Cells

variable (cells : Cells) {τ : Type}

/-- Write values of `size` bytes each, a cell a row. -/
def scatterWith (values : List τ) (size : ℕ) (encode : τ → List UInt8) (out : List UInt8) :
    Outcome (List UInt8) := do
  let cellLen ← mulUsize cells.repeatCount size
  if cellLen = 0 then
    .ok out
  else do
    let count ← mulUsize cells.rowCount cells.repeatCount
    debugAssert (values.length = count)
    writeChunks cells.rowLen (wholeChunks (cells.repeatCount - 1) values)
      (fun row cell => copySlice row cells.offset (cell.flatMap encode) 0 cellLen) out

/-- Write bits most significant first, a cell a row, and leave a cell's other bits. -/
def scatterBits (bits : List Bool) (out : List UInt8) : Outcome (List UInt8) :=
  if cells.repeatCount = 0 then
    .ok out
  else do
    let count ← mulUsize cells.rowCount cells.repeatCount
    debugAssert (bits.length = count)
    let cellLen := (cells.repeatCount + 7) / 8
    writeChunks cells.rowLen (wholeChunks (cells.repeatCount - 1) bits)
      (fun row cell => do
        let slot ← subslice row cells.offset cellLen
        let kept := (byteBits slot).drop cell.length
        copySlice row cells.offset (packBits (cell ++ kept)) 0 cellLen) out

/-- Write the values of a range, a cell a row. -/
def scatterRange (values : List τ) (range : Span) (size : ℕ) (encode : τ → List UInt8)
    (out : List UInt8) : Outcome (List UInt8) := do
  let values ← subslice values range.start range.len
  cells.scatterWith values size encode out

/-- The byte of a logical value: a null one is zero. -/
def logicalByte : Option Bool → List UInt8
  | some true => [0x54]
  | some false => [0x46]
  | none => [0]

/-- The bytes of a pair of words. -/
def pairBytes {width : ℕ} (size : ℕ) (pair : BitVec width × BitVec width) : List UInt8 :=
  beBytes size pair.1.toNat ++ beBytes size pair.2.toNat

/-- Write a run of a column's values as stored big-endian bytes, a cell a row. -/
def scatter (data : ColumnData) (range : Span) (out : List UInt8) : Outcome (List UInt8) :=
  match data with
  | .bit bits => do
    let bits ← subslice bits range.start range.len
    cells.scatterBits bits out
  | .logical values => cells.scatterRange values range 1 logicalByte out
  | .u8 values => cells.scatterRange values range 1 (fun byte => [byte]) out
  | .character values => cells.scatterRange values range 1 (fun byte => [byte]) out
  | .i16 values => cells.scatterRange values range 2 (fun word => beBytes 2 word.toNat) out
  | .i32 values => cells.scatterRange values range 4 (fun word => beBytes 4 word.toNat) out
  | .i64 values => cells.scatterRange values range 8 (fun word => beBytes 8 word.toNat) out
  | .f32 values => cells.scatterRange values range 4 (fun word => beBytes 4 word.toNat) out
  | .f64 values => cells.scatterRange values range 8 (fun word => beBytes 8 word.toNat) out
  | .complexF32 values => cells.scatterRange values range 8 (pairBytes 4) out
  | .complexF64 values => cells.scatterRange values range 16 (pairBytes 8) out

end Cells

/-- `out` with a run of a column's values after it, in cells of `repeatCount` values padded to
whole bytes. -/
def appendCells (out : List UInt8) (data : ColumnData) (range : Span) (repeatCount : ℕ) :
    Outcome (List UInt8) :=
  if repeatCount = 0 then
    .ok out
  else do
    let cellLen ← data.elementKind.expectPayload repeatCount
    let rowCount ← divUsize range.len repeatCount
    let added ← mulUsize rowCount cellLen
    let _ ← addUsize out.length added
    let cells ← Cells.scatter ⟨cellLen, 0, rowCount, repeatCount⟩ data range
      (List.replicate added 0)
    .ok (out ++ cells)

/-- `out` with a heap array after it: one cell of all its values. -/
def appendArray (out : List UInt8) (data : ColumnData) (range : Span) : Outcome (List UInt8) :=
  appendCells out data range range.len

/-! ## The main table -/

variable {R : Type}

/-- The columns of a row passed so far: where the next cell starts, where the heap's next array
does, and the row's bytes. -/
structure DescriptorPass where
  place : ℕ
  heapAt : ℕ
  cells : List UInt8
  deriving DecidableEq

/-- Write a column's descriptor into row `row`, where the column has arrays. -/
def writeDescriptor (row : ℕ) (pass : DescriptorPass) (column : WriteColumn R × ColumnLayout) :
    Outcome DescriptorPass := do
  let stop ← addUsize pass.place column.2.rowWidth
  let found ← column.1.arrayLen row
  match found with
  | none => .ok { pass with place := stop }
  | some array => do
    let slot ← subslice pass.cells pass.place column.2.rowWidth
    debugAssert (slot.length = array.width.bytes)
    let cells ← PqDescriptor.write ⟨array.count, pass.heapAt⟩ array.width pass.cells pass.place
    let heapAt ← addUsize pass.heapAt array.bytes
    .ok { place := stop, heapAt := heapAt, cells := cells }

/-- A band being encoded: where the next column's cells start, and the bytes. -/
structure BandPass where
  offset : ℕ
  chunk : List UInt8
  deriving DecidableEq

/-- Scatter a fixed-width column over the rows from `start` to `stop`. -/
def scatterColumn (rowLen start stop : ℕ) (pass : BandPass)
    (column : WriteColumn R × ColumnLayout) : Outcome BandPass := do
  let chunk ← match column.1.values with
    | .vla _ _ => .ok pass.chunk
    | .fixed data repeatCount => do
      let cells : Cells := ⟨rowLen, pass.offset, stop - start, repeatCount⟩
      let first ← mulUsize start repeatCount
      let last ← mulUsize stop repeatCount
      cells.scatter data ⟨first, last⟩ pass.chunk
  let offset ← addUsize pass.offset column.2.rowWidth
  .ok { offset := offset, chunk := chunk }

namespace Builder

variable (builder : Builder R) (layout : TableLayout)

/-- The columns, each with its layout. -/
def laidColumns : List (WriteColumn R × ColumnLayout) := builder.columns.zip layout.columns

/-- Write the descriptors of row `row` into its bytes, the heap's next array at `heapAt`. -/
def writeRow (state : ℕ × List (List UInt8)) (row : ℕ × List UInt8) :
    Outcome (ℕ × List (List UInt8)) := do
  let pass ← (builder.laidColumns layout).foldlM (writeDescriptor row.1) ⟨0, state.1, row.2⟩
  .ok (pass.heapAt, state.2 ++ [pass.cells])

/-- The descriptors of the rows from `start` to `stop`, in the band's bytes. -/
def writeDescriptors (start stop heapAt : ℕ) (chunk : List UInt8) :
    Outcome (ℕ × List UInt8) :=
  if layout.rowLen = 0 then
    abort .zeroChunkSize
  else do
    let rows := (List.range' start (stop - start)).zip (wholeChunks (layout.rowLen - 1) chunk)
    let written ← rows.foldlM (builder.writeRow layout) (heapAt, [])
    .ok (written.1, written.2.flatten ++ chunk.drop (written.2.length * layout.rowLen))

/-- The bytes of the rows from `start` to `stop`, and where the heap's next array starts. -/
def encodeBand (heapAt start stop : ℕ) : Outcome (ℕ × List UInt8) := do
  let chunkLen ← mulUsize (stop - start) layout.rowLen
  let scattered ← (builder.laidColumns layout).foldlM (scatterColumn layout.rowLen start stop)
    ⟨0, List.replicate chunkLen 0⟩
  if 0 < builder.heapRows layout.rowCount then
    builder.writeDescriptors layout start stop heapAt scattered.chunk
  else
    .ok (heapAt, scattered.chunk)

/-- Encode the rows from `start` on, `band` of them at most, and hand them over. -/
def handBand (band heapAt start : ℕ) : Producer Fault (List UInt8) ℕ := fun _ each => do
  let last ← Stateful.lift (addUsize start band)
  let encoded ← Stateful.lift (builder.encodeBand layout heapAt start (min last layout.rowCount))
  each encoded.2
  pure encoded.1

/-! ## The heap -/

/-- The heap's bytes gathered so far with a cell's array after them, handed over once they are
`chunkBytes`. -/
def gatherArray (chunkBytes : ℕ) (chunk : List UInt8) (cell : ℕ × WriteColumn R) :
    Producer Fault (List UInt8) (List UInt8) := fun _ each =>
  match cell.2.values with
  | .fixed _ _ => pure chunk
  | .vla rows _ => do
    let range ← Stateful.lift (rows.range cell.1)
    let chunk ← Stateful.lift (appendArray chunk rows.values range)
    if chunkBytes ≤ chunk.length then do
      each chunk
      pure []
    else
      pure chunk

/-- `(0..n).step_by(step)`. -/
def stepBy (n step : ℕ) : List ℕ := (List.range ((n + step - 1) / step)).map (· * step)

/-- Encode the table laid out as `layout` and hand over its bytes: the rows in bands of up to
`chunkBytes`, then the heap gathered to `chunkBytes`. -/
def encodeChunks (chunkBytes : ℕ) : Producer Fault (List UInt8) Unit := fun σ each => do
  let band := max (chunkBytes / max layout.rowLen 1) 1
  let heapAt ← (stepBy layout.rowCount band).foldlM
    (fun heapAt start => builder.handBand layout band heapAt start σ each) 0
  Stateful.lift (debugAssert (heapAt = layout.heapLen))
  let chunk ← (builder.heapCells layout.rowCount).foldlM
    (fun chunk cell => gatherArray chunkBytes chunk cell σ each) []
  if chunk.isEmpty then pure () else each chunk

end Builder

end FitsWell
