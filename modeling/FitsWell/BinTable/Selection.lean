import FitsWell.BinTable.Schema

/-!
# Selecting rows and columns of a table

A selection copies the chosen rows of a table and the heap arrays of the chosen columns
into a data unit of its own. It fetches the bytes it needs in ranges, and joins a range
that starts where the last one ends to it.
-/

namespace FitsWell

/-! ## Fetching -/

/-- Where a selection reads the bytes of a data unit from. What it appends for a range is
that range's bytes. -/
structure Fetch (data : List UInt8) where
  append : Span → Outcome (List UInt8)
  exact : ∀ span bytes, append span = .ok bytes → bytes = sliceOf data span

/-- A fetch from bytes in memory. -/
def Fetch.ofSlice (data : List UInt8) : Fetch data where
  append := fun span =>
    if span.start ≤ span.stop ∧ span.stop ≤ data.length then
      .ok (sliceOf data span)
    else
      fail .unexpectedEof
  exact := by
    intro span bytes h
    split at h
    · exact (Except.ok.inj h).symm
    · cases h

/-- The bytes appended so far, and a range held back. -/
structure Merged where
  out : List UInt8
  pending : Option Span
  deriving DecidableEq, Repr

variable {data : List UInt8}

/-- Append the range held back. -/
def Merged.flush (fetch : Fetch data) (reads : Merged) : Outcome Merged :=
  match reads.pending with
  | some pending => do
    let bytes ← fetch.append pending
    .ok { out := reads.out ++ bytes, pending := none }
  | none => .ok reads

/-- Append a range, now or with the ranges it joins. -/
def Merged.push (fetch : Fetch data) (reads : Merged) (range : Span) : Outcome Merged :=
  if range.stop ≤ range.start then
    .ok reads
  else
    match reads.pending with
    | some pending =>
      if pending.stop = range.start then
        .ok { reads with pending := some ⟨pending.start, range.stop⟩ }
      else do
        let reads ← reads.flush fetch
        .ok { reads with pending := some range }
    | none => do
      let reads ← reads.flush fetch
      .ok { reads with pending := some range }

/-- The length the output has once the range held back lands. -/
def Merged.nextOffset (reads : Merged) : ℕ :=
  reads.out.length + (reads.pending.map Span.len).getD 0

/-! ## The selection -/

/-- The rows a selection copies, in the order of its output. -/
inductive TableRows
  | range (rows : Span)
  | picked (rows : List ℕ)
  deriving DecidableEq, Repr

/-- The number of rows selected. -/
def TableRows.len : TableRows → ℕ
  | .range rows => rows.len
  | .picked rows => rows.length

/-- The table row that is row `index` of the selection. -/
def TableRows.get (rows : TableRows) (index : ℕ) : Outcome ℕ :=
  match rows with
  | .range rows => addUsize rows.start index
  | .picked rows => load rows index

/-- The rows and columns of a table that a selection copies; every column when `columns`
is none. -/
structure TableSelection where
  schema : Schema
  rows : TableRows
  columns : Option (List Bool)

/-- Refuse a row past a table of `len` rows. -/
def validateRow (row len : ℕ) : Outcome Unit :=
  if row ≥ len then
    fail (.rowRangeOutOfBounds row (min (row + 1) usizeMax) len)
  else
    .ok ()

/-- Refuse rows that run backwards or past a table of `len` rows. -/
def validateRowRange (rows : Span) (len : ℕ) : Outcome Unit :=
  if rows.start > rows.stop ∨ rows.stop > len then
    fail (.rowRangeOutOfBounds rows.start rows.stop len)
  else
    .ok ()

/-- Whether the column at `index` is selected. -/
def selected (columns : Option (List Bool)) (index : ℕ) : Outcome Bool :=
  match columns with
  | none => .ok true
  | some columns => load columns index

/-- Where an array's descriptor points: its count of elements, and its bytes in the data
unit. -/
structure VlaCellSpan where
  count : ℕ
  heapRange : Span
  deriving DecidableEq, Repr

/-- The span that the descriptor in `bytes` gives, of the array column `column` in row
`row`. -/
def VlaCellSpan.new (schema : Schema) (column : Column) (width : DescriptorWidth) (row : ℕ)
    (bytes : List UInt8) : Outcome VlaCellSpan := do
  let descriptor ← PqDescriptor.decode bytes width
  match descriptor.heapRange column.tform.element schema.extent.heapOffset
      schema.extent.heapEnd with
  | none => fail (.descriptorPastHeap (column.number - 1) row)
  | some range => .ok { count := descriptor.count, heapRange := range }

/-- Count the heap bytes of one cell of a row: those of its array, where its column holds
arrays and is selected. -/
def heapLenCell (schema : Schema) (columns : Option (List Bool)) (tableRow : ℕ)
    (row : List UInt8) (len : ℕ) (column : Column × ℕ) : Outcome ℕ :=
  match column.1.tform.descriptorWidth with
  | none => .ok len
  | some width =>
    if column.1.tform.repeatCount = 0 then
      .ok len
    else do
      let wanted ← selected columns column.2
      if wanted then do
        let bytes ← subslice row column.1.byteOffset column.1.tform.byteWidth
        let span ← VlaCellSpan.new schema column.1 width tableRow bytes
        orOverflow (checkedAdd len span.heapRange.len)
      else
        .ok len

/-- The bytes of the heap arrays that the selected columns of `rows` address, each row its
number in the table and its bytes. -/
def heapLen (schema : Schema) (columns : Option (List Bool))
    (rows : List (Outcome (ℕ × List UInt8))) : Outcome ℕ :=
  rows.foldlM (fun len row => do
    let row ← row
    schema.columns.zipIdx.foldlM (heapLenCell schema columns row.1 row.2) len) 0

/-- The bytes of row `row` of a main table. -/
def mainRow (main : List UInt8) (rowLen row : ℕ) : Outcome (ℕ × List UInt8) := do
  let start ← mulUsize row rowLen
  let stop ← mulUsize (row + 1) rowLen
  let bytes ← subslice main start (stop - start)
  .ok (row, bytes)

/-- The heap bytes that the selected rows of a main table address. -/
def TableSelection.mainHeapLen (selection : TableSelection) (main : List UInt8) : Outcome ℕ :=
  match selection.rows with
  | .range rows => do
    validateRowRange rows selection.schema.extent.rowCount
    heapLen selection.schema selection.columns
      ((List.range' rows.start rows.len).map (mainRow main selection.schema.extent.rowLen))
  | .picked rows => do
    rows.forM fun picked => validateRow picked selection.schema.extent.rowCount
    heapLen selection.schema selection.columns
      (rows.map (mainRow main selection.schema.extent.rowLen))

/-- The bytes `copyInto` writes, from the table's main table. -/
def TableSelection.copiedLen (selection : TableSelection) (main : List UInt8) : Outcome ℕ := do
  let mainLen ← orOverflow (checkedMul selection.rows.len selection.schema.extent.rowLen)
  let heap ← selection.mainHeapLen main
  orOverflow (checkedAdd mainLen heap)

/-- Push row `row` of a table of `extent`. -/
def pushRow (fetch : Fetch data) (extent : TableExtent) (reads : Merged) (row : ℕ) :
    Outcome Merged := do
  validateRow row extent.rowCount
  let start ← mulUsize row extent.rowLen
  let stop ← mulUsize (row + 1) extent.rowLen
  reads.push fetch ⟨start, stop⟩

/-- Push the selected rows. -/
def TableSelection.pushRows (selection : TableSelection) (fetch : Fetch data) :
    Outcome Merged :=
  match selection.rows with
  | .range rows => do
    validateRowRange rows selection.schema.extent.rowCount
    let start ← mulUsize rows.start selection.schema.extent.rowLen
    let stop ← mulUsize rows.stop selection.schema.extent.rowLen
    Merged.push fetch ⟨[], none⟩ ⟨start, stop⟩
  | .picked rows => rows.foldlM (pushRow fetch selection.schema.extent) ⟨[], none⟩

/-- Fetch the selected rows. -/
def TableSelection.copyRows (selection : TableSelection) (fetch : Fetch data) :
    Outcome Merged := do
  let reads ← selection.pushRows fetch
  reads.flush fetch

/-- The rows of the output, each its number in the table and its bytes. -/
def copiedRows (rows : TableRows) (rowLen : ℕ) (out : List UInt8) :
    List (Outcome (ℕ × List UInt8)) :=
  (List.range (out.length / rowLen)).map fun index => do
    let row ← rows.get index
    .ok (row, (out.drop (index * rowLen)).take rowLen)

/-- The heap bytes that the rows copied address. -/
def TableSelection.copiedHeapLen (selection : TableSelection) (out : List UInt8) : Outcome ℕ :=
  if selection.schema.extent.rowLen = 0 then
    .ok 0
  else
    heapLen selection.schema selection.columns
      (copiedRows selection.rows selection.schema.extent.rowLen out)

/-- Copy the array of one cell of output row `row`, and give its descriptor the array's new
place. The cell of an array column that is not selected becomes empty. -/
def TableSelection.copyCell (selection : TableSelection) (fetch : Fetch data) (mainLen row : ℕ)
    (reads : Merged) (column : Column × ℕ) : Outcome Merged :=
  match column.1.tform.descriptorWidth with
  | none => .ok reads
  | some width =>
    if column.1.tform.repeatCount = 0 then
      .ok reads
    else do
      let rowStart ← mulUsize row selection.schema.extent.rowLen
      let slot ← addUsize rowStart column.1.byteOffset
      let wanted ← selected selection.columns column.2
      if wanted then do
        let tableRow ← selection.rows.get row
        let bytes ← subslice reads.out slot column.1.tform.byteWidth
        let span ← VlaCellSpan.new selection.schema column.1 width tableRow bytes
        let heapOffset ← subUsize reads.nextOffset mainLen
        let reads ← reads.push fetch span.heapRange
        let out ← PqDescriptor.write ⟨span.count, heapOffset⟩ width reads.out slot
        .ok { reads with out := out }
      else do
        let out ← PqDescriptor.empty.write width reads.out slot
        .ok { reads with out := out }

/-- The selected rows, followed by the heap arrays they address, packed in row order: the
data unit of a table that holds just those rows. -/
def TableSelection.copyInto (selection : TableSelection) (fetch : Fetch data) :
    Outcome (List UInt8) := do
  debugAssert (∀ columns ∈ selection.columns, columns.length = selection.schema.columns.length)
  let mainLen ← orOverflow (checkedMul selection.rows.len selection.schema.extent.rowLen)
  let reads ← selection.copyRows fetch
  debugAssert (reads.out.length = mainLen)
  let heap ← selection.copiedHeapLen reads.out
  tryReserveExact reads.out.length heap
  let reads ← (List.range selection.rows.len).foldlM (fun reads row =>
    selection.schema.columns.zipIdx.foldlM (selection.copyCell fetch mainLen row) reads) reads
  let reads ← reads.flush fetch
  .ok reads.out

end FitsWell
