import FitsWell.BinTable.ColumnReader
import FitsWell.Library.Decimal

/-!
# A table to write

A builder holds the columns of a table as values. Its layout checks them, and gives the
width of each column's cell and the length of the heap before any byte is written.
-/

namespace FitsWell

open Chunks

variable {R : Type}

/-! ## Columns -/

/-- Where row `r` lies in the values. -/
def Ragged.range {V : Type} (rows : Ragged V) (r : ℕ) : Outcome Span := do
  let start ← if r = 0 then .ok 0 else load rows.ends (r - 1)
  let stop ← load rows.ends r
  .ok ⟨start, stop⟩

/-- Values that memory holds: a vector's bytes are at most `isize::MAX`. -/
def ColumnData.Held (data : ColumnData) : Prop := data.len * data.elementKind.elemSize ≤ isizeMax

instance (data : ColumnData) : Decidable data.Held := inferInstanceAs (Decidable (_ ≤ _))

/-- The arrays of a column, a row each: their ends rise to the count of the values. -/
structure ColumnRows extends Ragged ColumnData where
  rising : ends.Pairwise (· ≤ ·)
  filled : ends.getLast?.getD 0 = values.len

/-- The values of a column to write, in its cells or in the heap. -/
inductive WriteColumnData
  | fixed (data : ColumnData) (repeatCount : ℕ)
  | vla (rows : ColumnRows) (width : DescriptorWidth)

/-- A column's values, all rows in one run. -/
def WriteColumnData.data : WriteColumnData → ColumnData
  | .fixed data _ => data
  | .vla rows _ => rows.values

/-- The scaling that a written column declares. -/
structure ColumnScaling (R : Type) where
  tscale : R
  tzero : R

/-- One column to write into a binary table. -/
structure WriteColumn (R : Type) where
  name : Text
  unit : Option Text
  values : WriteColumnData
  tdim : Option (List ℕ)
  scaling : Option (ColumnScaling R)
  tnull : Option ℤ
  held : values.data.Held

namespace WriteColumn

def isArray (col : WriteColumn R) : Bool :=
  match col.values with
  | .fixed _ _ => false
  | .vla _ _ => true

end WriteColumn

/-- A table to write. -/
structure Builder (R : Type) where
  rowCount : Option ℕ
  columns : List (WriteColumn R)

/-- The descriptor width of one array, its count of elements, and its bytes in the heap. -/
structure ArrayLen where
  width : DescriptorWidth
  count : ℕ
  bytes : ℕ
  deriving DecidableEq, Repr

/-- `kind.payload_len(count).expect(..)`. -/
def ElementKind.expectPayload (kind : ElementKind) (count : ℕ) : Outcome ℕ :=
  match kind.payloadLen count with
  | some byteLen => .ok byteLen
  | none => abort .expectation

/-- The array of a column in row `row`; none of a fixed-width column. -/
def WriteColumn.arrayLen (col : WriteColumn R) (row : ℕ) : Outcome (Option ArrayLen) :=
  match col.values with
  | .fixed _ _ => .ok none
  | .vla rows width => do
    let range ← rows.range row
    let byteLen ← rows.values.elementKind.expectPayload range.len
    .ok (some { width := width, count := range.len, bytes := byteLen })

/-! ## Checks of a column -/

/-- Whether a column's values take a scaling. -/
inductive Scalable
  | numeric
  | unscaled
  deriving DecidableEq, Repr

/-- Errors when a value of the scaling of column `n` cannot be declared. -/
def ColumnScaling.validate [RealText R] (scaling : ColumnScaling R) (scalable : Scalable)
    (n : ℕ) : Outcome Unit :=
  [(scaling.tscale, Keyword.TSCAL), (scaling.tzero, Keyword.TZERO)].forM fun declared =>
    if scalable = .unscaled then do
      let keyword ← declared.2.indexed n
      fail (.invalidKeywordValue keyword.asStr .ofStructure)
    else if !RealText.isFinite declared.1 then do
      let keyword ← declared.2.indexed n
      fail (.invalidKeywordValue keyword.asStr .ofRange)
    else
      .ok ()

/-- Whether a sample of the type holds an integer: a float holds none. -/
def Bitpix.holdsInteger (bitpix : Bitpix) (value : ℤ) : Bool :=
  match bitpix with
  | .u8 => IntBitpix.u8.Holds value
  | .i16 => IntBitpix.i16.Holds value
  | .i32 => IntBitpix.i32.Holds value
  | .i64 => true
  | .f32 | .f64 => false

/-- Whether values of a type take a scaling: numbers do. -/
def ElementKind.scalable : ElementKind → Scalable
  | .character | .logical | .bit => .unscaled
  | .u8 | .i16 | .i32 | .i64 | .f32 | .f64 | .complexF32 | .complexF64 => .numeric

/-- Errors when column `n`, stored as `kind`, has a scaling or a null that its values cannot
take. -/
def validateBinaryMetadata [RealText R] (col : WriteColumn R) (kind : ElementKind) (n : ℕ) :
    Outcome Unit := do
  col.scaling.forM fun scaling => scaling.validate kind.scalable n
  match col.tnull with
  | none => .ok ()
  | some tnull =>
    if kind.bitpix.any (·.holdsInteger tnull) then
      .ok ()
    else do
      let keyword ← Keyword.TNULL.indexed n
      fail (.invalidKeywordValue keyword.asStr .ofRange)

/-- The defined characters of a field: those before its first NUL. -/
def characterMembers (field : List UInt8) : List UInt8 := field.takeWhile (· != 0)

/-- Errors when a field has a member outside restricted ASCII. -/
def validateCharacter (field : List UInt8) : Outcome Unit :=
  if (characterMembers field).all isPrintable then .ok () else fail (.invalidAscii .cell)

/-- Errors when a field of `repeatCount` characters has a member outside restricted ASCII. -/
def ColumnData.validateFields (data : ColumnData) (repeatCount : ℕ) : Outcome Unit :=
  match data with
  | .character bytes =>
    if 0 < repeatCount then
      (List.range ((bytes.length + repeatCount - 1) / repeatCount)).forM fun j =>
        validateCharacter (chunk bytes repeatCount j)
    else
      .ok ()
  | _ => .ok ()

/-- Errors when a character array has a member outside restricted ASCII. -/
def ColumnData.validateArray (data : ColumnData) (range : Span) : Outcome Unit :=
  match data with
  | .character bytes => do
    let field ← subslice bytes range.start range.len
    validateCharacter field
  | _ => .ok ()

/-- Errors when a shape given for a fixed-width cell is no shape of its elements. -/
def Tdim.validateDeclared (shape : Option (List ℕ)) (elementCount : ℕ) (keyword : Keyword) :
    Outcome Unit :=
  match shape with
  | none => .ok ()
  | some shape => do
    Tdim.validateShape shape keyword
    Tdim.validateExtent shape elementCount keyword

/-- Errors when a shape given for an array column is no shape of an array that has
elements. -/
def Tdim.validateDeclaredVla (shape : Option (List ℕ)) (elementCount : ℕ) (keyword : Keyword) :
    Outcome Unit :=
  match shape with
  | none => .ok ()
  | some shape => do
    Tdim.validateShape shape keyword
    if elementCount = 0 then .ok () else Tdim.validateExtent shape elementCount keyword

/-! ## The layout -/

/-- The text of a format. -/
def Tform.display (tform : Tform) : Text :=
  match tform.storage with
  | .fixed => Decimal.numeral tform.repeatCount ++ [tform.element.code]
  | .array width => Decimal.numeral tform.repeatCount ++ [width.letter, tform.element.code]

/-- The width of a column's cell, and its format's text. -/
structure ColumnLayout where
  rowWidth : ℕ
  tform : Text
  deriving DecidableEq

/-- The format of a fixed-width column. -/
def Tform.ofFixed (kind : ElementKind) (repeatCount : ℕ) : Tform :=
  { repeatCount := repeatCount, element := kind, storage := .fixed
    descriptors := Storage.no_descriptors }

/-- The format of an array column. -/
def Tform.ofArray (kind : ElementKind) (width : DescriptorWidth) : Tform :=
  { repeatCount := 1, element := kind, storage := .array width, descriptors := Storage.one_descriptor le_rfl }

/-- The most elements that an array of the column has, once each is checked. -/
def ColumnRows.maxElements (rows : ColumnRows) (tdim : Option (List ℕ)) (tdimKeyword : Keyword) :
    Outcome ℕ :=
  (List.range rows.ends.length).foldlM (fun most r => do
    let range ← rows.range r
    rows.values.validateArray range
    Tdim.validateDeclaredVla tdim range.len tdimKeyword
    .ok (max most range.len)) 0

/-- The layout of `col`, the table's column `n`, after checking it. -/
def validateColumn [RealText R] (col : WriteColumn R) (rowCount n : ℕ) : Outcome ColumnLayout := do
  let tdimKeyword ← Keyword.TDIM.indexed n
  validateAscii col.name .columnName
  col.unit.forM fun unit => validateAscii unit .columnUnit
  match col.values with
  | .fixed data repeatCount => do
    let kind := data.elementKind
    validateBinaryMetadata col kind n
    let count ← mulUsize rowCount repeatCount
    require (data.len = count)
    data.validateFields repeatCount
    Tdim.validateDeclared col.tdim repeatCount tdimKeyword
    let rowWidth ← orOverflow (kind.payloadLen repeatCount)
    .ok { rowWidth := rowWidth, tform := (Tform.ofFixed kind repeatCount).display }
  | .vla rows width => do
    let kind := rows.values.elementKind
    validateBinaryMetadata col kind n
    require (rows.ends.length = rowCount)
    let most ← rows.maxElements col.tdim tdimKeyword
    .ok { rowWidth := width.bytes
          tform := (Tform.ofArray kind width).display ++ [0x28] ++ Decimal.numeral most ++ [0x29] }

/-- The extent of the table a builder writes. -/
structure TableLayout where
  rowCount : ℕ
  rowLen : ℕ
  heapLen : ℕ
  columns : List ColumnLayout
  deriving DecidableEq

/-- The bytes of the data unit: the rows, then the heap. -/
def TableLayout.dataLen (layout : TableLayout) : Outcome ℕ := do
  let main ← mulUsize layout.rowCount layout.rowLen
  addUsize main layout.heapLen

/-- The heap's length after `array`, which its descriptor addresses at `heapLen`. -/
def nextVlaHeapLen (heapLen : ℕ) (array : ArrayLen) : Outcome ℕ := do
  let _ ← PqDescriptor.encode ⟨array.count, heapLen⟩ array.width
  orOverflow (checkedAdd heapLen array.bytes)

/-- Errors when a table has more columns than it may. -/
def validateTableFieldCount (count : ℕ) : Outcome Unit :=
  if count > maxTableFields then
    fail (.invalidKeywordValue Keyword.TFIELDS.asStr .ofRange)
  else
    .ok ()

namespace Builder

/-- The rows of `rowCount` that put an array in the heap: all where a column has arrays. -/
def heapRows (builder : Builder R) (rowCount : ℕ) : ℕ :=
  if builder.columns.any WriteColumn.isArray then rowCount else 0

/-- The cells of `rowCount` rows in the order the heap holds their arrays: row by row, each
column in turn. -/
def heapCells (builder : Builder R) (rowCount : ℕ) : List (ℕ × WriteColumn R) :=
  (List.range (builder.heapRows rowCount)).flatMap fun r => builder.columns.map fun col => (r, col)

/-- The heap's length after a cell's array, where it has one. -/
def addArray (heapLen : ℕ) (cell : ℕ × WriteColumn R) : Outcome ℕ := do
  let found ← cell.2.arrayLen cell.1
  match found with
  | none => .ok heapLen
  | some array => nextVlaHeapLen heapLen array

/-- The length of a row and the layouts of the columns so far, with the one of the column at
`entry` after them. -/
def addColumn [RealText R] (rowCount : ℕ) (laid : ℕ × List ColumnLayout)
    (entry : WriteColumn R × ℕ) : Outcome (ℕ × List ColumnLayout) := do
  let column ← validateColumn entry.1 rowCount (entry.2 + 1)
  let rowLen ← orOverflow (checkedAdd laid.1 column.rowWidth)
  .ok (rowLen, laid.2 ++ [column])

/-- The extent of the table, checked before any byte is written. -/
def layout [RealText R] (builder : Builder R) : Outcome TableLayout := do
  let rowCount := builder.rowCount.getD 0
  validateTableFieldCount builder.columns.length
  let _ ← fitsI64 rowCount
  let laid ← builder.columns.zipIdx.foldlM (addColumn rowCount) (0, [])
  let _ ← fitsI64 laid.1
  let heapLen ← (builder.heapCells rowCount).foldlM addArray 0
  let _ ← fitsI64 heapLen
  .ok { rowCount := rowCount, rowLen := laid.1, heapLen := heapLen, columns := laid.2 }

end Builder

end FitsWell
