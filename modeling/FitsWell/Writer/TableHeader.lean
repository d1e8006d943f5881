import FitsWell.Hdu.Prologue
import FitsWell.ImageModel.Scaling
import FitsWell.Writer.TableChunks

/-!
# The header of a table to write

The records that declare the columns of a table, in their order, after those of its structure.
-/

namespace FitsWell

variable {R : Type} [PlaneReals R]

/-- Set the record of a root and a column's number. -/
def Header.setForColumn (header : Header R) (root : Keyword) (n : ℕ) (value : Value R) :
    Outcome (Header R) := do
  let keyword ← root.indexed n
  header.setInternal keyword value

/-- A shape as a header spells it. -/
def Tdim.display (shape : List ℕ) : Text :=
  [0x28] ++ [0x2c].intercalate (shape.map Decimal.numeral) ++ [0x29]

/-- The `TZERO` of a column: that of unsigned words is exact as an integer. -/
def WriteColumn.tzeroValue (col : WriteColumn R) (scaling : ColumnScaling R) : Value R :=
  if col.values.data.elementKind = .i64 ∧
      PlaneReals.same scaling.tscale (RealText.ofI64 1) = true ∧
      PlaneReals.same scaling.tzero (PlaneReals.ofU64 (2 ^ 63)) = true then
    .ofInt (2 ^ 63)
  else
    .real scaling.tzero

/-- Declare the column at `entry`. -/
def Builder.declareColumn (header : Header R) (entry : (WriteColumn R × ColumnLayout) × ℕ) :
    Outcome (Header R) := do
  let col := entry.1.1
  let n := entry.2 + 1
  let header ← header.setForColumn .TFORM n (.text entry.1.2.tform)
  let header ← header.setForColumn .TTYPE n (.text col.name)
  let header ← match col.unit with
    | none => .ok header
    | some unit => header.setForColumn .TUNIT n (.text unit)
  let header ← match col.tdim with
    | none => .ok header
    | some shape => header.setForColumn .TDIM n (.text (Tdim.display shape))
  let header ← match col.scaling with
    | none => .ok header
    | some scaling => do
      let header ← header.setForColumn .TSCAL n (.real scaling.tscale)
      header.setForColumn .TZERO n (col.tzeroValue scaling)
  match col.tnull with
  | none => .ok header
  | some tnull => header.setForColumn .TNULL n (.ofInt tnull)

/-- The header of the table laid out as `layout`. -/
def Builder.header (builder : Builder R) (layout : TableLayout) : Outcome (Header R) := do
  let prologue : Prologue :=
    { opening := .extension .binTable, bitpix := .u8, axes := [layout.rowLen, layout.rowCount]
      pcount := layout.heapLen }
  let header ← prologue.header
  let width ← Keyword.NAXIS.indexed 1
  let header ← header.setCommentInternal width (ascii "width of table in bytes")
  let rows ← Keyword.NAXIS.indexed 2
  let header ← header.setCommentInternal rows (ascii "number of rows")
  let fields ← fitsI64 builder.columns.length
  let header ← header.setCommented .TFIELDS (.ofInt fields) (ascii "number of columns")
  (builder.columns.zip layout.columns).zipIdx.foldlM Builder.declareColumn header

/-- A table with the layout that its checks gave. -/
structure LaidTable (R : Type) [RealText R] where
  builder : Builder R
  layout : TableLayout
  laid : builder.layout = .ok layout

/-- The header of a table, and its layout. -/
def Builder.laidOut (builder : Builder R) : Outcome (Header R × LaidTable R) :=
  match laid : builder.layout with
  | .error fault => .error fault
  | .ok layout => do
    let header ← builder.header layout
    .ok (header, ⟨builder, layout, laid⟩)

end FitsWell
