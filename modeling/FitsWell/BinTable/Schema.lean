import FitsWell.Library.Bytes
import FitsWell.Slices
import FitsWell.Usize

/-!
# The schema of a binary table

A table is rows of cells of fixed widths and a heap. The cell of an array column is a
descriptor, the count of an array's elements and its place in the heap.
-/

namespace FitsWell

open Bytes

/-! ## Formats -/

/-- The bytes of a descriptor. -/
def DescriptorWidth.bytes : DescriptorWidth → ℕ
  | .P => 8
  | .Q => 16

/-- The bytes of one of a descriptor's two integers. -/
def DescriptorWidth.half : DescriptorWidth → ℕ
  | .P => 4
  | .Q => 8

/-- The letter of a descriptor width. -/
def DescriptorWidth.letter : DescriptorWidth → UInt8
  | .P => 0x50
  | .Q => 0x51

/-- The type of a column's elements. -/
inductive ElementKind
  | logical
  | bit
  | u8
  | i16
  | i32
  | i64
  | character
  | f32
  | f64
  | complexF32
  | complexF64
  deriving DecidableEq, Repr

/-- The bytes of an element. -/
def ElementKind.elemSize : ElementKind → ℕ
  | .logical | .bit | .u8 | .character => 1
  | .i16 => 2
  | .i32 | .f32 => 4
  | .i64 | .f64 | .complexF32 => 8
  | .complexF64 => 16

/-- The letter of an element type. -/
def ElementKind.code : ElementKind → UInt8
  | .logical => 0x4c
  | .bit => 0x58
  | .u8 => 0x42
  | .i16 => 0x49
  | .i32 => 0x4a
  | .i64 => 0x4b
  | .character => 0x41
  | .f32 => 0x45
  | .f64 => 0x44
  | .complexF32 => 0x43
  | .complexF64 => 0x4d

/-- The bytes that `count` elements take, packed: bits share their bytes. -/
def ElementKind.payloadLen (kind : ElementKind) (count : ℕ) : Option ℕ :=
  match kind with
  | .bit => some ((count + 7) / 8)
  | _ => checkedMul count kind.elemSize

/-- Where a column's elements are stored: in each row's cell, or in a heap array for each
row. -/
inductive Storage
  | fixed
  | array (width : DescriptorWidth)
  deriving DecidableEq, Repr

/-- A column that is stored in its cells has no descriptors to count. -/
theorem Storage.no_descriptors {repeatCount : ℕ} (h : Storage.fixed ≠ .fixed) :
    repeatCount ≤ 1 := absurd rfl h

theorem Storage.one_descriptor {repeatCount : ℕ} {width : DescriptorWidth} (h : repeatCount ≤ 1)
    (_ : Storage.array width ≠ .fixed) : repeatCount ≤ 1 := h

/-- A column's format. An array column has one descriptor a row, or none. -/
structure Tform where
  repeatCount : ℕ
  element : ElementKind
  storage : Storage
  descriptors : storage ≠ .fixed → repeatCount ≤ 1

/-- The descriptor width of an array column. -/
def Tform.descriptorWidth (tform : Tform) : Option DescriptorWidth :=
  match tform.storage with
  | .fixed => none
  | .array width => some width

/-- The bytes of a column's cell. A count of elements past a word saturates. -/
def Tform.byteWidth (tform : Tform) : ℕ :=
  match tform.storage with
  | .fixed => (tform.element.payloadLen tform.repeatCount).getD usizeMax
  | .array width => tform.repeatCount * width.bytes

/-- A column of a binary table: its format, its array shape where that reads, its number
from one on, and the place of its cell in a row. -/
structure Column where
  tform : Tform
  tdim : Except FitsError (Option (List ℕ))
  number : ℕ
  byteOffset : ℕ

/-- Where a table's rows and heap lie in its data unit. -/
structure TableExtent where
  rowCount : ℕ
  rowLen : ℕ
  heapOffset : ℕ
  heapEnd : ℕ
  deriving DecidableEq, Repr

/-- The extent of a compacted selection of `rowCount` rows, whose heap follows its rows
and ends at `dataLen`. -/
def TableExtent.compacted (extent : TableExtent) (rowCount dataLen : ℕ) :
    Outcome TableExtent := do
  let heapOffset ← mulUsize rowCount extent.rowLen
  debugAssert (heapOffset ≤ dataLen)
  .ok { rowCount := rowCount, rowLen := extent.rowLen, heapOffset := heapOffset
        heapEnd := dataLen }

/-- The cells of `columns` lie one after another from `offset` to `stop`. -/
def Laid : ℕ → List Column → ℕ → Prop
  | offset, [], stop => offset = stop
  | offset, column :: columns, stop =>
    column.byteOffset = offset ∧ Laid (offset + column.tform.byteWidth) columns stop

/-- A binary table's structure, as its header gives it: the columns' cells fill a row, and
the heap follows the rows. -/
structure Schema where
  extent : TableExtent
  columns : List Column
  laid : Laid 0 columns extent.rowLen
  main : extent.rowCount * extent.rowLen ≤ extent.heapOffset
  heap : extent.heapOffset ≤ extent.heapEnd
  words : extent.heapEnd ≤ usizeMax ∧ extent.rowCount ≤ usizeMax

/-! ## Descriptors -/

/-- An array's count of elements, and its place in the heap. -/
structure PqDescriptor where
  count : ℕ
  offset : ℕ
  deriving DecidableEq, Repr

/-- The descriptor of no elements. -/
def PqDescriptor.empty : PqDescriptor := ⟨0, 0⟩

/-- The signed big-endian integer that `bytes` spell. -/
def signedBe (bytes : List UInt8) : ℤ := (ofBeBytes bytes : ℤ).bmod (256 ^ bytes.length)

/-- A descriptor's field that is not negative. -/
def nonnegativeField (field : DescriptorField) (value : ℤ) : Outcome ℕ :=
  if value < 0 then fail (.invalidPqDescriptor field value) else .ok value.toNat

/-- The descriptor of a cell's bytes. The offset of no elements is not read. -/
def PqDescriptor.decode (bytes : List UInt8) (width : DescriptorWidth) : Outcome PqDescriptor :=
  if bytes.length ≠ width.bytes then
    fail (SizeUnit.bytes.mismatch width.bytes bytes.length)
  else do
    let count ← nonnegativeField .count (signedBe (bytes.take width.half))
    if count = 0 then
      .ok { count := count, offset := 0 }
    else do
      let offset ← nonnegativeField .offset (signedBe (bytes.drop width.half))
      .ok { count := count, offset := offset }

/-- The greatest integer of a descriptor. -/
def DescriptorWidth.max (width : DescriptorWidth) : ℕ := 2 ^ (8 * width.half - 1) - 1

/-- A descriptor's bytes, where the integers of its width hold it. -/
def PqDescriptor.encode (descriptor : PqDescriptor) (width : DescriptorWidth) :
    Outcome (List UInt8) :=
  if descriptor.count ≤ width.max ∧ descriptor.offset ≤ width.max then
    .ok (beBytes width.half descriptor.count ++ beBytes width.half descriptor.offset)
  else
    fail (.descriptorOutOfRange width descriptor.count descriptor.offset)

/-- Write a descriptor into a table's bytes at `slot`. -/
def PqDescriptor.write (descriptor : PqDescriptor) (width : DescriptorWidth)
    (out : List UInt8) (slot : ℕ) : Outcome (List UInt8) := do
  let bytes ← descriptor.encode width
  copySlice out slot bytes 0 width.bytes

/-- The bytes of a descriptor's array of `kind`, in a heap from `heapStart` to `heapEnd`. -/
def PqDescriptor.heapRange (descriptor : PqDescriptor) (kind : ElementKind)
    (heapStart heapEnd : ℕ) : Option Span := do
  let byteLen ← kind.payloadLen descriptor.count
  if byteLen = 0 then
    some ⟨heapStart, heapStart⟩
  else do
    let start ← checkedAdd heapStart descriptor.offset
    let stop ← checkedAdd start byteLen
    if stop ≤ heapEnd then some ⟨start, stop⟩ else none

/-! ## Reading a table -/

/-- A table over the bytes of its data unit. -/
structure TableView where
  columns : List Column
  extent : TableExtent
  bytes : List UInt8

/-- The table `schema` describes, over its data unit. -/
def TableView.new (schema : Schema) (bytes : List UInt8) : Outcome TableView :=
  if bytes.length < schema.extent.heapEnd then
    fail .unexpectedEof
  else
    .ok { columns := schema.columns, extent := schema.extent, bytes := bytes }

/-- A compacted selection of `rowCount` rows of the table `schema` describes, then a heap
to the end of `bytes`. -/
def TableView.compact (schema : Schema) (rowCount : ℕ) (bytes : List UInt8) :
    Outcome TableView := do
  let extent ← schema.extent.compacted rowCount bytes.length
  .ok { columns := schema.columns, extent := extent, bytes := bytes }

/-- The bytes of `column`'s cell in row `row`. -/
def TableView.cell (view : TableView) (column : Column) (row : ℕ) : Outcome (List UInt8) := do
  let rowStart ← mulUsize row view.extent.rowLen
  let start ← addUsize rowStart column.byteOffset
  subslice view.bytes start column.tform.byteWidth

/-- The descriptor of array column `column` in row `row`. -/
def TableView.pqDescriptor (view : TableView) (column : Column) (width : DescriptorWidth)
    (row : ℕ) : Outcome PqDescriptor :=
  if column.tform.repeatCount = 0 then
    .ok .empty
  else do
    let bytes ← view.cell column row
    PqDescriptor.decode bytes width

/-- The heap bytes of a descriptor's array, where they lie in the heap. -/
def TableView.pqPayload (view : TableView) (descriptor : PqDescriptor) (kind : ElementKind) :
    Outcome (Option (List UInt8)) :=
  match descriptor.heapRange kind view.extent.heapOffset view.extent.heapEnd with
  | none => .ok none
  | some range => do
    let payload ← subslice view.bytes range.start range.len
    .ok (some payload)

/-- Whether a heap array of `count` elements fills the column's shape. -/
def Column.validateVlaTdim (column : Column) (count : ℕ) : Outcome Unit :=
  match column.tdim with
  | .error error => fail error
  | .ok none => .ok ()
  | .ok (some dims) =>
    if count = 0 then
      .ok ()
    else
      let misfit := FitsError.invalidKeywordValue ("TDIM" ++ toString column.number) .ofStructure
      match dims.foldlM checkedMul 1 with
      | none => fail misfit
      | some product => if product > count then fail misfit else .ok ()

/-- One row's heap array: its bytes, its count of elements, and their type. -/
structure VlaCell where
  bytes : List UInt8
  elementCount : ℕ
  elementType : ElementKind
  deriving DecidableEq, Repr

/-- The heap array of array column `column`, the one at `index`, in row `row`. -/
def TableView.vlaCell (view : TableView) (column : Column) (width : DescriptorWidth)
    (index row : ℕ) : Outcome VlaCell := do
  let descriptor ← view.pqDescriptor column width row
  column.validateVlaTdim descriptor.count
  let payload ← view.pqPayload descriptor column.tform.element
  match payload with
  | none => fail (.descriptorPastHeap index row)
  | some bytes =>
    .ok { bytes := bytes, elementCount := descriptor.count, elementType := column.tform.element }

end FitsWell
