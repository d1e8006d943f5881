import FitsWell.BinTable.Schema
import FitsWell.Column.ColumnKeywords

/-!
# Reading a schema from a header

The columns' cells lie one after another from the start of a row and fill it, the rows
end where the heap may start, and the heap ends with the data unit. The offsets saturate,
so that widths past a word cannot add to a row length that an `i64` holds.
-/

namespace FitsWell

variable {R : Type}

/-! ## Formats -/

/-- Whether a byte is a letter. -/
def isAsciiAlphabetic (byte : UInt8) : Bool := isAsciiUppercase byte || isAsciiLowercase byte

/-- `token.parse::<usize>()`. -/
def parseUsize (token : Text) : Option ℕ :=
  let digits := if token.head? = some 0x2b then token.tail else token
  if isDigits digits then
    if Decimal.value digits ≤ usizeMax then some (Decimal.value digits) else none
  else
    none

/-- The element type of a letter. -/
def ElementKind.fromCode (code : UInt8) : Option ElementKind :=
  if code = 0x4c then some .logical
  else if code = 0x58 then some .bit
  else if code = 0x42 then some .u8
  else if code = 0x49 then some .i16
  else if code = 0x4a then some .i32
  else if code = 0x4b then some .i64
  else if code = 0x41 then some .character
  else if code = 0x45 then some .f32
  else if code = 0x44 then some .f64
  else if code = 0x43 then some .complexF32
  else if code = 0x4d then some .complexF64
  else none

/-- The descriptor width of a letter. -/
def DescriptorWidth.ofLetter (letter : UInt8) : Option DescriptorWidth :=
  if letter = 0x50 then some .P else if letter = 0x51 then some .Q else none

/-- A part of a format, where it reads. -/
def Tform.part {α : Type} (value : Text) (part : Option α) : Outcome α :=
  match part with
  | some part => .ok part
  | none => fail (.invalidTform value)

/-- The repeat count that the bytes before a letter spell, one where there are none. -/
def Tform.leadingCount (digits : Text) : Option ℕ :=
  if digits.length = 0 then some 1 else parseUsize digits

/-- The format that `value` spells. The bytes after the letters are not read. -/
def Tform.parse (value : Text) : Outcome Tform := do
  let s := trim value
  let pos ← Tform.part value (s.findIdx? isAsciiAlphabetic)
  let repeatCount ← Tform.part value (Tform.leadingCount (s.take pos))
  let letter ← load s pos
  match DescriptorWidth.ofLetter letter with
  | some width =>
    if hrepeat : repeatCount ≤ 1 then
      let code ← Tform.part value s[pos + 1]?
      let element ← Tform.part value (ElementKind.fromCode code)
      .ok { repeatCount := repeatCount, element := element, storage := .array width
            descriptors := Storage.one_descriptor hrepeat }
    else
      fail (.invalidTform value)
  | none => do
    let element ← Tform.part value (ElementKind.fromCode letter)
    .ok { repeatCount := repeatCount, element := element, storage := .fixed
          descriptors := Storage.no_descriptors }

/-! ## Array shapes -/

namespace Tdim

/-- Errors when a shape has no axis, or an empty one. -/
def validateShape (dims : List ℕ) (keyword : Keyword) : Outcome Unit :=
  if dims.isEmpty || dims.contains 0 then
    fail (.invalidKeywordValue keyword.asStr .ofRange)
  else
    .ok ()

/-- Errors when a shape has more elements than its cell. -/
def validateExtent (dims : List ℕ) (elementCount : ℕ) (keyword : Keyword) : Outcome Unit :=
  match dims.foldlM checkedMul 1 with
  | none => fail (.invalidKeywordValue keyword.asStr .ofStructure)
  | some product =>
    if product > elementCount then
      fail (.invalidKeywordValue keyword.asStr .ofStructure)
    else
      .ok ()

/-- An axis length of a shape. -/
def parseLength (keyword : Keyword) (text : Text) : Outcome ℕ :=
  match parseUsize (trim text) with
  | some length => .ok length
  | none => fail (.invalidKeywordValue keyword.asStr .ofSyntax)

/-- The axis lengths that `(d1,d2,...)` spells. -/
def parse (value : Text) (keyword : Keyword) : Outcome (List ℕ) :=
  let spelled := trim value
  if spelled.head? = some 0x28 ∧ spelled.tail.getLast? = some 0x29 then do
    let dims ← (spelled.tail.dropLast.splitOn 0x2c).mapM (parseLength keyword)
    validateShape dims keyword
    .ok dims
  else
    fail (.invalidKeywordValue keyword.asStr .ofSyntax)

end Tdim

/-! ## Columns -/

/-- Whether a schema reads the keywords that describe a column's values. -/
inductive ValueKeywords
  | read
  | skip
  deriving DecidableEq, Repr

/-- The shape that `keyword` gives a column's cells. A fixed cell holds its elements, and an
array's count is checked as each row is read. -/
def Tdim.ofColumn (header : Header R) (keyword : Keyword) (tform : Tform) :
    Outcome (Option (List ℕ)) := do
  let found ← header.getText keyword
  match found with
  | none => .ok none
  | some value => do
    let shape ← Tdim.parse value keyword
    if tform.storage = .fixed then
      Tdim.validateExtent shape tform.repeatCount keyword
      .ok (some shape)
    else
      .ok (some shape)

/-- A column with the keywords of its values. -/
abbrev KeyedColumn (R : Type) : Type := Column × ColumnKeywords R

variable [RealWords R] [LawfulWords R]

/-- The shape and the value keywords of column `n`. -/
def ValueKeywords.ofColumn (values : ValueKeywords) (header : Header R) (n : ℕ)
    (tdimKeyword : Keyword) (tform : Tform) :
    Outcome (Keyed (Option (List ℕ)) × ColumnKeywords R) :=
  match values with
  | .read => do
    let tdim ← keyed tdimKeyword (Tdim.ofColumn header tdimKeyword tform)
    let keywords ← ColumnKeywords.read header n
    .ok (tdim, keywords)
  | .skip => .ok (.ok none, ColumnKeywords.labels)

/-- Column `n`, whose cell starts at `offset`. -/
def Column.parse (header : Header R) (values : ValueKeywords) (n offset : ℕ) :
    Outcome {column : KeyedColumn R // column.1.byteOffset = offset} := do
  let tformKeyword ← Keyword.TFORM.indexed n
  let tformValue ← header.requireText tformKeyword
  let tform ← Tform.parse tformValue
  let tdimKeyword ← Keyword.TDIM.indexed n
  let found ← values.ofColumn header n tdimKeyword tform
  .ok ⟨({ tform := tform, tdim := found.1, number := n, byteOffset := offset }, found.2), rfl⟩

/-- `a.saturating_add(b)`. -/
def saturatingAdd (a b : ℕ) : ℕ := min (a + b) usizeMax

theorem Laid.concat {columns : List Column} {offset stop : ℕ} (h : Laid offset columns stop)
    {column : Column} (hcolumn : column.byteOffset = stop) :
    Laid offset (columns ++ [column]) (stop + column.tform.byteWidth) := by
  induction columns generalizing offset with
  | nil =>
    obtain rfl : offset = stop := h
    exact ⟨hcolumn, rfl⟩
  | cons first columns ih => exact ⟨h.1, ih h.2⟩

/-- The columns read so far, and where the next one's cell starts. -/
structure Layout (R : Type) where
  columns : List (KeyedColumn R)
  offset : ℕ
  laid : offset < usizeMax → Laid 0 (columns.map Prod.fst) offset

/-- No column. -/
def Layout.empty : Layout R := ⟨[], 0, fun _ => rfl⟩

/-- The columns with one more after them. -/
def Layout.push (layout : Layout R) (column : KeyedColumn R)
    (hcolumn : column.1.byteOffset = layout.offset) : Layout R where
  columns := layout.columns ++ [column]
  offset := saturatingAdd layout.offset column.1.tform.byteWidth
  laid := by
    intro hstop
    have hsum : saturatingAdd layout.offset column.1.tform.byteWidth =
        layout.offset + column.1.tform.byteWidth := by
      unfold saturatingAdd at hstop ⊢
      omega
    rw [hsum] at hstop ⊢
    rw [List.map_append]
    exact (layout.laid (by omega)).concat hcolumn

/-- Read column `index + 1` after the columns of `layout`. -/
def Layout.add (header : Header R) (values : ValueKeywords) (layout : Layout R) (index : ℕ) :
    Outcome (Layout R) := do
  let column ← Column.parse header values (index + 1) layout.offset
  .ok (layout.push column.1 column.2)

/-! ## The schema -/

/-- A schema with the keywords of its columns' values. -/
structure TableSchema (R : Type) extends Schema where
  keywords : List (ColumnKeywords R)
  described : keywords.length = columns.length

/-- The error of a heap that does not lie between the rows and the end of the data. -/
def heapMisplaced : FitsError := .invalidKeywordValue Keyword.THEAP.asStr .ofStructure

/-- The schema of columns that fill a row, with the rows' count and the heap's place. -/
def Layout.schema (layout : Layout R) (header : Header R) (shape : TableShape) :
    Outcome (TableSchema R) :=
  if hwidth : layout.offset = shape.rowLen.1 then
    match hmain : checkedMul shape.rowCount.1 shape.rowLen.1 with
    | none => fail .dataUnitOverflow
    | some mainTable => do
      let heapOffset ← header.optionalUsize .THEAP mainTable
      if hrows : mainTable ≤ heapOffset then
        let pcount ← header.optionalUsize .PCOUNT 0
        match hend : checkedAdd mainTable pcount with
        | none => fail .dataUnitOverflow
        | some heapEnd =>
          if hheap : heapOffset ≤ heapEnd then
            .ok
              { extent :=
                  { rowCount := shape.rowCount.1, rowLen := shape.rowLen.1
                    heapOffset := heapOffset, heapEnd := heapEnd }
                columns := layout.columns.map Prod.fst
                laid := by
                  have hlen := shape.rowLen.2
                  have hword : usizeMax = 2 ^ 64 - 1 := rfl
                  exact hwidth ▸ layout.laid (by omega)
                main := (checkedMul_eq_some_iff.mp hmain).2 ▸ hrows
                heap := hheap
                words := by
                  have hcount := shape.rowCount.2
                  have hword : usizeMax = 2 ^ 64 - 1 := rfl
                  obtain ⟨hstop, rfl⟩ := checkedAdd_eq_some_iff.mp hend
                  exact ⟨hstop, by show shape.rowCount.1 ≤ usizeMax; omega⟩
                keywords := layout.columns.map Prod.snd
                described := by simp }
          else
            fail heapMisplaced
      else
        fail heapMisplaced
  else
    fail (.rowWidthMismatch layout.offset shape.rowLen.1)

/-- The schema of the table that `header` describes. -/
def Schema.parseColumns (header : Header R) (values : ValueKeywords) :
    Outcome (TableSchema R) := do
  let shape ← TableShape.read header
  let layout ← (List.range shape.fieldCount).foldlM (Layout.add header values) Layout.empty
  layout.schema header shape

/-- The schema of the table that `header` describes, with its columns' value keywords. -/
def Schema.parse (header : Header R) : Outcome (TableSchema R) :=
  Schema.parseColumns header .read

/-- The schema of a compressed table's container. -/
def Schema.parseContainer (header : Header R) : Outcome (TableSchema R) :=
  Schema.parseColumns header .skip

/-! ## No panic -/

omit [RealWords R] [LawfulWords R] in
theorem Tform.noPanic_part {α : Type} (value : Text) (part : Option α) :
    NoPanic (Tform.part value part) := by
  cases part with
  | some part => exact NoPanic.ok _
  | none => exact NoPanic.fail _

theorem Tform.noPanic_parse (value : Text) : NoPanic (Tform.parse value) := by
  apply NoPanic.bind (Tform.noPanic_part _ _)
  intro pos hpos
  apply NoPanic.bind (Tform.noPanic_part _ _)
  intro repeatCount _
  have hlt : pos < (trim value).length := by
    cases hfind : (trim value).findIdx? isAsciiAlphabetic with
    | none =>
      rw [hfind] at hpos
      cases hpos
    | some found =>
      rw [hfind] at hpos
      rw [← Except.ok.inj hpos]
      exact (List.findIdx?_eq_some_iff_getElem.mp hfind).1
  apply NoPanic.bind (NoPanic.of_ok (load_of_getElem? (List.getElem?_eq_getElem hlt)))
  intro letter _
  cases DescriptorWidth.ofLetter letter with
  | none => exact NoPanic.bind (Tform.noPanic_part _ _) (fun _ _ => NoPanic.ok _)
  | some width =>
    dsimp only
    split
    · apply NoPanic.bind (Tform.noPanic_part _ _)
      intro code _
      exact NoPanic.bind (Tform.noPanic_part _ _) (fun _ _ => NoPanic.ok _)
    · exact NoPanic.fail _

theorem Tdim.noPanic_validateExtent (dims : List ℕ) (count : ℕ) (keyword : Keyword) :
    NoPanic (Tdim.validateExtent dims count keyword) := by
  unfold Tdim.validateExtent
  split
  · exact NoPanic.fail _
  · exact NoPanic.ite (fun _ => NoPanic.fail _) (fun _ => NoPanic.ok _)

theorem Tdim.noPanic_parse (value : Text) (keyword : Keyword) :
    NoPanic (Tdim.parse value keyword) := by
  apply NoPanic.ite
  · intro _
    apply NoPanic.bind
    · apply NoPanic.mapM
      intro text _
      unfold Tdim.parseLength
      split
      · exact NoPanic.ok _
      · exact NoPanic.fail _
    · intro dims _
      exact NoPanic.bind (NoPanic.ite (fun _ => NoPanic.fail _) (fun _ => NoPanic.ok _))
        (fun _ _ => NoPanic.ok _)
  · exact fun _ => NoPanic.fail _

omit [RealWords R] [LawfulWords R] in
theorem Tdim.noPanic_ofColumn (header : Header R) (keyword : Keyword) (tform : Tform) :
    NoPanic (Tdim.ofColumn header keyword tform) := by
  apply NoPanic.bind (header.noPanic_getText keyword)
  intro found _
  cases found with
  | none => exact NoPanic.ok _
  | some value =>
    apply NoPanic.bind (Tdim.noPanic_parse value keyword)
    intro shape _
    apply NoPanic.ite
    · exact fun _ => NoPanic.bind (Tdim.noPanic_validateExtent _ _ _) (fun _ _ => NoPanic.ok _)
    · exact fun _ => NoPanic.ok _

omit [LawfulWords R] in
theorem ColumnKeywords.noPanic_real (header : Header R) (root : Keyword) (n : ℕ) (absent : R) :
    NoPanic (ColumnKeywords.real header root n absent) := by
  apply NoPanic.bind (root.noPanic_indexed n)
  intro keyword _
  exact noPanic_keyed keyword
    (NoPanic.bind (header.noPanic_getReal keyword) (fun _ _ => NoPanic.ok _))

omit [LawfulWords R] in
theorem ColumnKeywords.noPanic_read (header : Header R) (n : ℕ) :
    NoPanic (ColumnKeywords.read header n) := by
  apply NoPanic.bind (Keyword.TNULL.noPanic_indexed n)
  intro keyword _
  apply NoPanic.bind (ColumnKeywords.noPanic_real header _ n _)
  intro tscale _
  apply NoPanic.bind (ColumnKeywords.noPanic_real header _ n _)
  intro tzero _
  exact NoPanic.bind (noPanic_keyed keyword (header.noPanic_getInteger keyword))
    (fun _ _ => NoPanic.ok _)

omit [LawfulWords R] in
theorem Column.noPanic_parse (header : Header R) (values : ValueKeywords) (n offset : ℕ) :
    NoPanic (Column.parse header values n offset) := by
  apply NoPanic.bind (Keyword.TFORM.noPanic_indexed n)
  intro tformKeyword _
  apply NoPanic.bind (header.noPanic_requireText tformKeyword)
  intro tformValue _
  apply NoPanic.bind (Tform.noPanic_parse tformValue)
  intro tform _
  apply NoPanic.bind (Keyword.TDIM.noPanic_indexed n)
  intro tdimKeyword _
  refine NoPanic.bind ?_ (fun _ _ => NoPanic.ok _)
  cases values with
  | skip => exact NoPanic.ok _
  | read =>
    apply NoPanic.bind (noPanic_keyed tdimKeyword (Tdim.noPanic_ofColumn header _ tform))
    intro tdim _
    exact NoPanic.bind (ColumnKeywords.noPanic_read header n) (fun _ _ => NoPanic.ok _)

theorem TableShape.noPanic_read (header : Header R) : NoPanic (TableShape.read header) := by
  have hstructure : ∀ (keyword : Keyword) (required : ℤ),
      NoPanic (TableShape.requireStructure header keyword required) := fun keyword _ =>
    NoPanic.bind (header.noPanic_requireInteger keyword)
      (fun _ _ => NoPanic.ite (fun _ => NoPanic.fail _) (fun _ => NoPanic.ok _))
  apply NoPanic.bind (hstructure _ _)
  intro _ _
  apply NoPanic.bind (hstructure _ _)
  intro _ _
  apply NoPanic.bind (hstructure _ _)
  intro _ _
  apply NoPanic.bind (header.noPanic_requireUsize _)
  intro fieldCount _
  split
  · apply NoPanic.bind (Keyword.NAXIS.noPanic_indexed 1)
    intro first _
    apply NoPanic.bind (header.noPanic_requireWord first)
    intro rowLen _
    apply NoPanic.bind (Keyword.NAXIS.noPanic_indexed 2)
    intro second _
    exact NoPanic.bind (header.noPanic_requireWord second) (fun _ _ => NoPanic.ok _)
  · exact NoPanic.fail _

omit [LawfulWords R] in
theorem Layout.noPanic_schema (layout : Layout R) (header : Header R) (shape : TableShape) :
    NoPanic (layout.schema header shape) := by
  unfold Layout.schema
  split
  · split
    · exact NoPanic.fail _
    · apply NoPanic.bind (header.noPanic_optionalUsize _ _)
      intro heapOffset _
      split
      · apply NoPanic.bind (header.noPanic_optionalUsize _ _)
        intro pcount _
        split
        · exact NoPanic.fail _
        · split
          · exact NoPanic.ok _
          · exact NoPanic.fail _
      · exact NoPanic.fail _
  · exact NoPanic.fail _

/-- Reading a schema ends in one or in an error. -/
theorem Schema.noPanic_parseColumns (header : Header R) (values : ValueKeywords) :
    NoPanic (Schema.parseColumns header values) := by
  apply NoPanic.bind (TableShape.noPanic_read header)
  intro shape _
  apply NoPanic.bind
  · have hcolumns : Returns (fun _ => True)
        ((List.range shape.fieldCount).foldlM (Layout.add header values) Layout.empty) := by
      apply Loops.Ends.foldlM trivial
      intro n _ layout _
      have hcolumn := Column.noPanic_parse header values (n + 1) layout.offset
      unfold Layout.add
      cases hread : Column.parse header values (n + 1) layout.offset with
      | error fault => exact hcolumn.exists_err hread
      | ok column => trivial
    exact hcolumns.noPanic
  · exact fun layout _ => layout.noPanic_schema header shape

end FitsWell
