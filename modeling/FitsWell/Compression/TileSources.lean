import FitsWell.Compression.TileDecoder

/-!
# The tiles in a container

A container holds a row a tile: the tile's cells, of which the first that is not empty holds its
samples, and the parameters that no keyword fixes for every tile. A null mask marks the samples
that are undefined.
-/

namespace FitsWell

open Bytes Chunks
open Gzip (Flate)

variable {R : Type}

/-! ## Cells -/

/-- The cell that holds a tile: its compressed stream, a gzip stream where that does not keep the
samples, or the samples themselves. -/
inductive TileSource
  | compressed (cell : VlaCell)
  | gzip (cell : VlaCell)
  | uncompressed (cell : VlaCell)

/-- The columns that tiles are stored in, of which a container may have any. -/
structure TileSources where
  primary : Option VlaColumn
  gzipFallback : Option VlaColumn
  uncompressed : Option VlaColumn

namespace TileSources

def read (table : NamedTable) : Outcome TileSources := do
  let primary ← table.optionalVlaColumn (ascii "COMPRESSED_DATA")
  let gzipFallback ← table.optionalVlaColumn (ascii "GZIP_COMPRESSED_DATA")
  let uncompressed ← table.optionalVlaColumn (ascii "UNCOMPRESSED_DATA")
  .ok { primary := primary, gzipFallback := gzipFallback, uncompressed := uncompressed }

/-- A row's cell of a column, where it is not empty. -/
def cell (column : Option VlaColumn) (row : ℕ) : Outcome (Option VlaCell) :=
  match column with
  | none => .ok none
  | some column => do
    let cell ← column.cell row
    .ok (if 0 < cell.elementCount then some cell else none)

/-- The cell of the tile in a row. A column is read only where those before it are empty. -/
def source (sources : TileSources) (row : ℕ) : Outcome TileSource := do
  let primary ← cell sources.primary row
  match primary with
  | some cell => .ok (.compressed cell)
  | none => do
    let fallback ← cell sources.gzipFallback row
    match fallback with
    | some cell => .ok (.gzip cell)
    | none => do
      let uncompressed ← cell sources.uncompressed row
      match uncompressed with
      | some cell => .ok (.uncompressed cell)
      | none => fail (.corruptCompressedData .emptyTile)

end TileSources

/-- The bytes of a stream's cell, which holds elements of `kind`. -/
def streamCell (cell : VlaCell) (kind : ElementKind) : Outcome (List UInt8) :=
  if cell.elementType = kind then .ok cell.bytes
  else fail (.corruptCompressedData (.cellElement .compressed cell.elementType.code))

/-! ## Parameters of tiles -/

/-- A parameter of the tiles: fixed for all of them, given for each, or neither. -/
inductive TileValue (α : Type)
  | absent
  | fixed (value : α)
  | perTile (values : List α)
  deriving DecidableEq, Repr

namespace TileValue

variable {α : Type}

/-- The parameter that a keyword and a column give. -/
def new (keyword : Option α) (column : Option (List α)) : TileValue α :=
  match keyword, column with
  | some value, _ => .fixed value
  | none, some values => .perTile values
  | none, none => .absent

/-- The parameter, or one for all tiles where there is none. -/
def or (parameter : TileValue α) (fallback : Option α) : TileValue α :=
  match parameter, fallback with
  | .absent, some value => .fixed value
  | resolved, _ => resolved

/-- The parameter of a tile. -/
def atTile (parameter : TileValue α) (tile : ℕ) : Option α :=
  match parameter with
  | .absent => none
  | .fixed value => some value
  | .perTile values => values[tile]?

end TileValue

/-- The element sizes that a parameter's column may have. -/
def parameterSize (kind : ElementKind) : Option ℕ := kind.bitpix.map Bitpix.elemSize

/-- The values of a cell, after those of `values`. -/
def readParameter {α : Type} (refused : FitsError) (value : List UInt8 → Option α)
    (values : List α) (element : List UInt8) : Outcome (List α) :=
  match value element with
  | none => fail refused
  | some decoded => .ok (values ++ [decoded])

/-- The values of a parameter's column in row order, where the container has it. A cell of more
values than one holds no tile's. -/
def readTileColumn {α : Type} (table : NamedTable) (name : Text) (expected : ExpectedColumn)
    (value : ElementKind → List UInt8 → Option α) : Outcome (Option (List α)) := do
  let found ← table.columnIndex name
  match found with
  | none => .ok none
  | some index => do
    let column ← load table.columns index
    let refused := FitsError.columnKindMismatch index expected
    if column.tform.repeatCount ≠ 1 then
      fail refused
    else
      match parameterSize column.tform.element with
      | none => fail refused
      | some size => do
        let values ← (List.range table.extent.rowCount).foldlM (fun values row => do
          let cell ← table.cell column row
          (wholeChunks (size - 1) cell).foldlM (readParameter refused (value column.tform.element))
            values) []
        .ok (some values)

/-- A number of any type, as a real. -/
def realElement [PlaneReals R] (kind : ElementKind) (bytes : List UInt8) : Option R :=
  kind.bitpix.map fun bitpix => bitpix.toF64 bytes

/-- An integer of any type. -/
def integerElement (kind : ElementKind) (bytes : List UInt8) : Option ℤ :=
  kind.bitpix.bind fun bitpix => bitpix.integer bytes

/-- A container's rows, and the parameters they give. -/
structure TileIndex (R : Type) where
  rows : List UInt8
  zscale : Option (List R)
  zzero : Option (List R)
  zblank : Option (List ℤ)

/-- The index of the container that a schema describes, read from its data unit. -/
def TileIndex.read [PlaneReals R] (schema : NamedSchema R) (bytes : List UInt8) :
    Outcome (TileIndex R) := do
  let len ← orOverflow (checkedMul schema.extent.rowCount schema.extent.rowLen)
  tryReserveExact 0 len
  if bytes.length < len then
    fail .unexpectedEof
  else do
    let rows := bytes.take len
    let view ← TableView.compact schema.toSchema schema.extent.rowCount rows
    let table : NamedTable := { view with names := schema.names }
    let zscale ← readTileColumn table (ascii "ZSCALE") .numeric realElement
    let zzero ← readTileColumn table (ascii "ZZERO") .numeric realElement
    let zblank ← readTileColumn table (ascii "ZBLANK") .integer integerElement
    .ok { rows := rows, zscale := zscale, zzero := zzero, zblank := zblank }

/-! ## Nulls -/

/-- The null of an image, and the value its tiles store it as. -/
structure NullValues where
  blank : Option ℤ
  stored : TileValue ℤ

/-- The nulls of an image: the column of the tiles' masks, the codec of the masks, and the
values. -/
structure NullMask where
  column : Option VlaColumn
  codec : Option TileCodec
  values : NullValues

/-- The first of some names that the table has an array column of. -/
def firstColumn (table : NamedTable) : List Text → Outcome (Option VlaColumn)
  | [] => .ok none
  | name :: names => do
    let found ← table.optionalVlaColumn name
    match found with
    | some column => .ok (some column)
    | none => firstColumn table names

namespace NullMask

/-- The masks' codec, whose `RICE_1` samples are bytes. -/
def bytewise : TileCodec → TileCodec
  | .rice coder => .rice { coder with bytepix := .u8 }
  | codec => codec

def read (table : NamedTable) (codec : Option TileCodec) (values : NullValues) :
    Outcome NullMask := do
  let column ← firstColumn table
    [ascii "NULL_PIXEL_MASK", ascii "NULL_PIXEL_MASK_COLUMN", ascii "NULL PIXEL MASK"]
  match column, codec with
  | some _, some (.hcompress _) => fail (.unsupportedCompression .hcompressNullMask)
  | _, _ => .ok { column := column, codec := codec.map bytewise, values := values }

variable (mask : NullMask) (flate : Flate) (capacity : ℕ)

/-- The mask of the tile in a row, where it has one. -/
def decode (row elements : ℕ) : Outcome (Option (List ℤ)) :=
  match mask.column with
  | none => .ok none
  | some column => do
    let cell ← column.cell row
    if cell.elementCount = 0 then
      .ok none
    else
      match mask.codec with
      | none => fail (.missingKeyword (.keyword .ZMASKCMP))
      | some codec => do
        let stream ← streamCell cell codec.streamKind
        let marks ← codec.decodeInts flate ⟨[elements], .u8, none⟩ stream capacity
        ensureTileSize elements marks.length
        if ∀ mark ∈ marks, mark = 0 ∨ mark = 1 then .ok (some marks)
        else fail (.corruptCompressedData .nullMask)

/-- The values with `fill` for each that the mask marks. -/
def fillMasked {α : Type} (values : List α) (marks : List ℤ) (fill : α) : List α :=
  List.zipWith (fun value mark => if mark = 1 then fill else value) values marks ++
    values.drop marks.length

/-- The null that a tile's nulls come back as. -/
def blank : Outcome ℤ := orMissing .BLANK mask.values.blank

/-- The samples of a tile, with the image's null for each that the tile stores as a null. -/
def replaceStored (tile : ℕ) (values : List ℤ) : Outcome (List ℤ) :=
  match mask.values.stored.atTile tile with
  | none => .ok values
  | some stored =>
    if some stored ≠ mask.values.blank ∧ stored ∈ values then do
      let blank ← mask.blank
      .ok (values.map fun value => if value = stored then blank else value)
    else
      .ok values

/-- The samples of an integer tile, with the image's null for each that the tile stores as a
null, and for each that the mask marks. -/
def applyInteger (row tile elements : ℕ) (values : List ℤ) : Outcome (List ℤ) := do
  let values ← mask.replaceStored tile values
  let marks ← mask.decode flate capacity row elements
  match marks with
  | none => .ok values
  | some marks => do
    let blank ← mask.blank
    .ok (fillMasked values marks blank)

/-- The samples of a float tile, with `nan` for each that the mask marks. -/
def applyFloat (row elements : ℕ) (nan : ℕ) (values : List ℕ) : Outcome (List ℕ) := do
  let marks ← mask.decode flate capacity row elements
  match marks with
  | none => .ok values
  | some marks => .ok (fillMasked values marks nan)

variable {mask}

/-- Tiles that store the image's own null, and have no mask, keep their integers. -/
theorem applyInteger_unmasked (hcolumn : mask.column = none)
    (hstored : mask.values.stored = TileValue.or .absent mask.values.blank) (row tile elements : ℕ)
    (values : List ℤ) : mask.applyInteger flate capacity row tile elements values = .ok values := by
  have hkept : mask.replaceStored tile values = .ok values := by
    rw [replaceStored, hstored]
    cases mask.values.blank with
    | none => rfl
    | some blank => exact if_neg fun hother => hother.1 rfl
  rw [applyInteger, Loops.bind_ok hkept, decode, hcolumn, Loops.bind_ok rfl]

/-- Tiles that have no mask keep their floats. -/
theorem applyFloat_unmasked (hcolumn : mask.column = none) (row elements nan : ℕ)
    (values : List ℕ) : mask.applyFloat flate capacity row elements nan values = .ok values := by
  rw [applyFloat, decode, hcolumn, Loops.bind_ok rfl]

end NullMask

end FitsWell
