import FitsWell.BinTable.ColumnDecode
import FitsWell.BinTable.SchemaParse

/-!
# Reading a column

A handle to one column of a table, and the reads of it: a fixed column's cells lie in the
rows, and an array column's in the heap, where its descriptors lead. An array column is read
twice, first for the count of all its elements and then for their values.
-/

namespace FitsWell

open Bits

/-! ## Rows of varying length -/

/-- Rows in one run of values, and where each ends. -/
structure Ragged (V : Type) where
  values : V
  ends : List ℕ

/-- Rows over `values`, of which there are `count`: the ends rise to it. -/
def Ragged.new {V : Type} (values : V) (count : ℕ) (ends : List ℕ) : Outcome (Ragged V) := do
  debugAssert (ends.Pairwise (· ≤ ·) ∧ ends.getLast?.getD 0 = count)
  .ok { values := values, ends := ends }

/-! ## Array columns -/

/-- A handle to an array column. -/
structure VlaColumn where
  table : TableView
  index : ℕ
  column : Column
  width : DescriptorWidth

namespace VlaColumn

variable (vla : VlaColumn)

def elementType : ElementKind := vla.column.tform.element

/-- The heap array of a row. -/
def cell (row : ℕ) : Outcome VlaCell := do
  debugAssert (row < vla.table.extent.rowCount)
  vla.table.vlaCell vla.column vla.width vla.index row

/-- The elements of all rows, from their descriptors. -/
def elementTotal : Outcome ℕ :=
  (List.range vla.table.extent.rowCount).foldlM (fun total row => do
    let cell ← vla.cell row
    orOverflow (checkedAdd total cell.elementCount)) 0

/-- The rows read so far: where the last ends, and where each does. -/
structure Cells where
  stop : ℕ
  ends : List ℕ

/-- No row yet, with room for every row's end. -/
def cells : Outcome Cells := do
  reserve 8 0 vla.table.extent.rowCount
  .ok { stop := 0, ends := [] }

/-- The next row's heap array. -/
def next : CellSource Cells := fun state row => do
  let cell ← vla.cell row
  let stop ← addUsize state.stop cell.elementCount
  .ok ({ stop := stop, ends := state.ends ++ [stop] },
    { bytes := cell.bytes, count := cell.elementCount })

end VlaColumn

/-! ## Bit columns -/

/-- A bit column's rows, read on demand. -/
structure BitColumn where
  table : TableView
  column : Column

namespace BitColumn

variable (bits : BitColumn)

/-- The bits of row `r`. The handle was made where every heap array is in the heap. -/
def row (r : ℕ) : Outcome (List Bool) :=
  if r < bits.table.extent.rowCount then
    match bits.column.tform.storage with
    | .fixed => do
      let cell ← bits.table.cell bits.column r
      subslice (byteBits cell) 0 bits.column.tform.repeatCount
    | .array width => do
      let descriptor ← expectOk (bits.table.pqDescriptor bits.column width r)
      if descriptor.count = 0 then
        .ok []
      else
        let payload ← bits.table.pqPayload descriptor .bit
        match payload with
        | none => abort .expectation
        | some cell => subslice (byteBits cell) 0 descriptor.count
  else
    abort .indexOutOfBounds

/-- The bit of a cell, where there is one. -/
def get (r c : ℕ) : Outcome (Option Bool) :=
  if r < bits.table.extent.rowCount then do
    let row ← bits.row r
    .ok row[c]?
  else
    .ok none

end BitColumn

/-! ## Columns -/

/-- A handle to one column of a table. -/
structure ColumnReader (R : Type) where
  table : TableView
  index : ℕ
  descriptor : Column
  keywords : ColumnKeywords R
  own : table.columns[index]? = some descriptor

namespace ColumnReader

variable {R : Type} (reader : ColumnReader R)

/-- The error of a read that the column's format does not take. -/
def mismatch (expected : ExpectedColumn) : FitsError :=
  .columnKindMismatch reader.index expected

/-- The column, where its cells hold values. -/
def fixedDescriptor : Outcome Column :=
  match reader.descriptor.tform.storage with
  | .fixed => .ok reader.descriptor
  | .array _ => fail (reader.mismatch .fixed)

/-- The column, where its cells hold descriptors. -/
def vlaColumn : Outcome VlaColumn :=
  match reader.descriptor.tform.storage with
  | .fixed => fail (reader.mismatch .array)
  | .array width =>
    .ok { table := reader.table, index := reader.index, column := reader.descriptor
          width := width }

/-- A row's fixed cell. -/
def fixedCell (column : Column) : CellSource Unit := fun state row => do
  let bytes ← reader.table.cell column row
  .ok (state, { bytes := bytes, count := column.tform.repeatCount })

def rows : List ℕ := List.range reader.table.extent.rowCount

/-- A keyword's value, or its defect. -/
def keyed {α : Type} (value : Keyed α) : Outcome α :=
  match value with
  | .ok value => .ok value
  | .error error => fail error

/-- The scaling and the null that the column's keywords mean. -/
def scaling : Outcome (Scaling R) := do
  let tscale ← keyed reader.keywords.tscale
  let tzero ← keyed reader.keywords.tzero
  let tnull ← keyed reader.keywords.tnull
  .ok { bscale := tscale, bzero := tzero, blank := tnull }

/-! ### Fixed columns -/

/-- The typed values of a fixed column. -/
def rawInto : Outcome ColumnData := do
  let column ← reader.fixedDescriptor
  debugAssert (column.tform.storage = .fixed)
  let capacity ← mulUsize reader.table.extent.rowCount column.tform.repeatCount
  let decoded ← column.tform.element.decodeCells (reader.fixedCell column) () reader.rows capacity
  .ok decoded.2

variable {τ : Type} [PlaneReals R] [PhysicalSample R τ]

/-- The physical values of a numeric column, after those of `out`. -/
def physicalInto (out : List τ) : Outcome (List τ) := do
  let column ← reader.fixedDescriptor
  if column.tform.element.bitpix.isNone then
    fail (reader.mismatch .numeric)
  else
    let capacity ← mulUsize reader.table.extent.rowCount column.tform.repeatCount
    let scaling ← reader.scaling
    let decoded ← column.tform.element.decodePhysical scaling (reader.fixedCell column) ()
      reader.rows capacity out
    .ok decoded.2

/-- The sign-bit offset of a column's values, where it has one. -/
def unsignedKind (kind : ElementKind) (scaling : Scaling R) : Option UnsignedKind :=
  kind.bitpix.bind scaling.unsignedKind

/-- The exact integers of a column that stores them by a sign-bit offset. -/
def unsignedInto : Outcome (Option UnsignedData) := do
  let column ← reader.fixedDescriptor
  let scaling ← reader.scaling
  match unsignedKind column.tform.element scaling with
  | none => .ok none
  | some kind => do
    let capacity ← mulUsize reader.table.extent.rowCount column.tform.repeatCount
    let decoded ← UnsignedData.fromBeCells kind (reader.fixedCell column) () reader.rows capacity
    .ok (some decoded.2)

/-- The scaled values of a complex column. -/
def complex : Outcome (List (R × R)) := do
  let column ← reader.fixedDescriptor
  if column.tform.element.isComplex then
    let capacity ← mulUsize reader.table.extent.rowCount column.tform.repeatCount
    let tscale ← keyed reader.keywords.tscale
    let tzero ← keyed reader.keywords.tzero
    let decoded ← column.tform.element.decodeComplex tscale tzero (reader.fixedCell column) ()
      reader.rows capacity
    .ok decoded.2
  else
    fail (reader.mismatch .complex)

omit [PlaneReals R] in
/-- The bits of a fixed column. -/
def bits : Outcome BitColumn :=
  if reader.descriptor.tform.storage ≠ .fixed ∨ reader.descriptor.tform.element ≠ .bit then
    fail (reader.mismatch .bits)
  else
    .ok { table := reader.table, column := reader.descriptor }

/-! ### Array columns -/

omit [PlaneReals R] in
/-- The typed values of an array column. -/
def vlaInto : Outcome (Ragged ColumnData) := do
  let vla ← reader.vlaColumn
  let total ← vla.elementTotal
  let start ← vla.cells
  let decoded ← vla.elementType.decodeCells vla.next start reader.rows total
  Ragged.new decoded.2 decoded.2.len decoded.1.ends

/-- The physical values of a numeric array column. -/
def vlaPhysicalInto (τ : Type) [PhysicalSample R τ] : Outcome (Ragged (List τ)) := do
  let vla ← reader.vlaColumn
  if vla.elementType.bitpix.isNone then
    fail (reader.mismatch .numeric)
  else
    let scaling ← reader.scaling
    let total ← vla.elementTotal
    let start ← vla.cells
    let decoded ← vla.elementType.decodePhysical scaling vla.next start reader.rows total
      ([] : List τ)
    Ragged.new decoded.2 decoded.2.length decoded.1.ends

/-- The exact integers of an array column that stores them by a sign-bit offset. -/
def vlaUnsigned : Outcome (Option (Ragged UnsignedData)) := do
  let vla ← reader.vlaColumn
  let scaling ← reader.scaling
  match unsignedKind vla.elementType scaling with
  | none => .ok none
  | some kind => do
    let total ← vla.elementTotal
    let start ← vla.cells
    let decoded ← UnsignedData.fromBeCells kind vla.next start reader.rows total
    let ragged ← Ragged.new decoded.2 decoded.2.values.length decoded.1.ends
    .ok (some ragged)

/-- The scaled values of a complex array column. -/
def vlaComplex : Outcome (Ragged (List (R × R))) := do
  let vla ← reader.vlaColumn
  if vla.elementType.isComplex then
    let tscale ← keyed reader.keywords.tscale
    let tzero ← keyed reader.keywords.tzero
    let total ← vla.elementTotal
    let start ← vla.cells
    let decoded ← vla.elementType.decodeComplex tscale tzero vla.next start reader.rows total
    Ragged.new decoded.2 decoded.2.length decoded.1.ends
  else
    fail (reader.mismatch .complex)

omit [PlaneReals R] in
/-- The bits of an array column, once every row's heap array is in the heap. -/
def vlaBits : Outcome BitColumn :=
  if reader.descriptor.tform.storage = .fixed ∨ reader.descriptor.tform.element ≠ .bit then
    fail (reader.mismatch .bits)
  else do
    let vla ← reader.vlaColumn
    reader.rows.forM fun row => do
      let _ ← vla.cell row
      .ok ()
    .ok { table := reader.table, column := reader.descriptor }

end ColumnReader

/-- A handle to column `index` of the table that `schema` describes over its data unit. -/
def TableSchema.column {R : Type} (schema : TableSchema R) (bytes : List UInt8) (index : ℕ) :
    Outcome (ColumnReader R) := do
  let view ← TableView.new schema.toSchema bytes
  if hindex : index < schema.columns.length then
    .ok
      { table := { view with columns := schema.columns }
        index := index
        descriptor := schema.columns[index]
        keywords := schema.keywords.get ⟨index, schema.described ▸ hindex⟩
        own := List.getElem?_eq_getElem hindex }
  else
    fail (.indexOutOfBounds .column index schema.columns.length)

end FitsWell
