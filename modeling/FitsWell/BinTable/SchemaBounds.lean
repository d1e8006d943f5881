import FitsWell.BinTable.ReaderSafe

/-!
# A schema bounds every access

The checks of a schema are those its reads rest on: every cell of every row and every heap
array lies where the schema puts it, whatever the data unit holds. Two products are left
unchecked: the bits of a fixed column's rows, eight to a byte of the data unit, and the bytes
that the ends of an array column's rows take.
-/

namespace FitsWell

open Bits

variable {R τ : Type} [PlaneReals R] [PhysicalSample R τ]

/-! ## Bit columns -/

theorem BitColumn.row_fixed {bits : BitColumn} {r : ℕ} (hr : r < bits.table.extent.rowCount)
    (hstorage : bits.column.tform.storage = .fixed) :
    bits.row r = bits.table.cell bits.column r >>= fun cell =>
      subslice (byteBits cell) 0 bits.column.tform.repeatCount := by
  rw [row, if_pos hr, hstorage]

namespace DataUnit

variable {schema : Schema} (unit : DataUnit schema) {index : ℕ} {column : Column}
  {keywords : ColumnKeywords R}

/-- A bit column over the data unit. -/
def bitColumn (column : Column) : BitColumn where
  table := unit.view
  column := column

omit [PlaneReals R] in
theorem noPanic_bits (hcolumn : schema.columns[index]? = some column) :
    NoPanic (unit.handle hcolumn keywords).bits :=
  NoPanic.ite (fun _ => NoPanic.fail _) (fun _ => NoPanic.ok _)

omit [PlaneReals R] in
theorem noPanic_bits_row (hcolumn : schema.columns[index]? = some column) {bits : BitColumn}
    (hbits : (unit.handle hcolumn keywords).bits = .ok bits) {r : ℕ}
    (hr : r < schema.extent.rowCount) : NoPanic (bits.row r) := by
  unfold ColumnReader.bits at hbits
  split at hbits
  · cases hbits
  · rename_i hkind
    obtain rfl : unit.bitColumn column = bits := Except.ok.inj hbits
    obtain ⟨hstorage, hbit⟩ := not_or.mp hkind
    have hstorage : column.tform.storage = .fixed := not_not.mp hstorage
    have hbit : column.tform.element = .bit := not_not.mp hbit
    have hmem := List.mem_of_getElem? hcolumn
    have hlength := unit.length_place hmem hr
    have hpacked := unit.payloadLen_fixed hmem hstorage hr
    rw [hbit] at hpacked
    have hwidth : (column.tform.repeatCount + 7) / 8 = column.tform.byteWidth :=
      Option.some.inj hpacked
    rw [BitColumn.row_fixed hr hstorage]
    apply NoPanic.of_ok
    dsimp only [bitColumn]
    rw [unit.cell_read hmem hr, Loops.bind_ok rfl]
    apply subslice_of_le
    rw [byteBits_length, hlength]
    omega

/-- A row whose array reads has its bits. -/
theorem noPanic_array_row {width : DescriptorWidth} {r : ℕ} (hr : r < schema.extent.rowCount)
    (hstorage : column.tform.storage = .array width) (hbit : column.tform.element = .bit)
    {cell : VlaCell} (hcell : (unit.vla index column width).cell r = .ok cell) :
    NoPanic ((unit.bitColumn column).row r) := by
  obtain ⟨-, -, hcell⟩ := Loops.ok_of_bind hcell
  obtain ⟨descriptor, hdescriptor, hcell⟩ := Loops.ok_of_bind hcell
  obtain ⟨-, -, hcell⟩ := Loops.ok_of_bind hcell
  obtain ⟨payload, hpayload, hcell⟩ := Loops.ok_of_bind hcell
  cases payload with
  | none => cases hcell
  | some bytes =>
    rw [show (unit.vla index column width).column.tform.element = .bit from hbit] at hpayload
    have hlen : (descriptor.count + 7) / 8 = bytes.length :=
      Option.some.inj (unit.payloadLen_read hpayload)
    unfold BitColumn.row
    rw [if_pos (show r < (unit.bitColumn column).table.extent.rowCount from hr),
      show (unit.bitColumn column).column.tform.storage = .array width from hstorage]
    dsimp only
    rw [show (unit.bitColumn column).table.pqDescriptor (unit.bitColumn column).column width r =
      .ok descriptor from hdescriptor]
    apply NoPanic.ite
    · exact fun _ => NoPanic.ok _
    · intro _
      rw [show (unit.bitColumn column).table.pqPayload descriptor .bit = .ok (some bytes)
        from hpayload]
      apply NoPanic.of_ok (subslice_of_le _)
      rw [byteBits_length]
      omega

omit [PlaneReals R] in
/-- A handle to an array column's bits is made once every row's array reads. -/
theorem vlaBits_returns (hcolumn : schema.columns[index]? = some column) :
    Returns (fun bits => ∀ r < schema.extent.rowCount, NoPanic (bits.row r))
      (unit.handle hcolumn keywords).vlaBits := by
  apply Loops.Ends.ite
  · exact fun _ => Returns.fail _
  · intro hkind
    obtain ⟨hstorage, hbit⟩ := not_or.mp hkind
    have hbit : column.tform.element = .bit := not_not.mp hbit
    cases harray : column.tform.storage with
    | fixed => exact absurd harray hstorage
    | array width =>
      rw [unit.vlaColumn_eq hcolumn harray, Loops.bind_ok rfl]
      have hcells : Returns (fun _ => ∀ row ∈ unit.rows, ∃ cell,
          (unit.vla index column width).cell row = .ok cell)
          (unit.rows.forM fun row => do
            let _ ← (unit.vla index column width).cell row
            .ok ()) := by
        apply Loops.Ends.forM
        intro row hrow
        have hcell := unit.noPanic_cell index width
          (List.mem_of_getElem? hcolumn) (List.mem_range.mp hrow)
        cases hread : (unit.vla index column width).cell row with
        | error fault => exact hcell.exists_err hread
        | ok cell => exact ⟨cell, rfl⟩
      apply hcells.bind
      intro _ hread r hr
      obtain ⟨cell, hcell⟩ := hread r (List.mem_range.mpr hr)
      exact unit.noPanic_array_row hr harray hbit hcell

/-! ## What is not checked -/

omit [PlaneReals R] in
theorem rawInto_overflows (hcolumn : schema.columns[index]? = some column)
    (hstorage : column.tform.storage = .fixed)
    (hcount : ¬schema.extent.rowCount * column.tform.repeatCount ≤ usizeMax) :
    (unit.handle hcolumn keywords).rawInto = abort .arithmeticOverflow := by
  unfold ColumnReader.rawInto
  rw [unit.fixedDescriptor_eq hcolumn hstorage, Loops.bind_ok rfl, debugAssert, if_pos hstorage,
    Loops.bind_ok rfl, show (unit.handle hcolumn keywords).table = unit.view from rfl,
    show unit.view.extent = schema.extent from rfl, mulUsize, if_neg hcount]
  rfl

/-- An array column with no descriptor has empty rows. -/
theorem elementTotal_absent {width : DescriptorWidth} (hrepeat : column.tform.repeatCount = 0)
    {shape : Option (List ℕ)} (htdim : column.tdim = .ok shape) :
    (unit.vla index column width).elementTotal = .ok 0 := by
  have hheap : unit.view.extent.heapOffset ≤ unit.view.bytes.length :=
    le_trans schema.heap unit.whole
  have hcell : ∀ row < schema.extent.rowCount, (unit.vla index column width).cell row =
      .ok { bytes := [], elementCount := 0, elementType := column.tform.element } := by
    intro row hrow
    have hdescriptor : unit.view.pqDescriptor column width row = .ok .empty := if_pos hrepeat
    have hshape : column.validateVlaTdim 0 = .ok () := by
      unfold Column.validateVlaTdim
      rw [htdim]
      cases shape with
      | none => rfl
      | some dims => exact if_pos rfl
    unfold VlaColumn.cell debugAssert
    rw [if_pos (show row < (unit.vla index column width).table.extent.rowCount from hrow),
      Loops.bind_ok rfl]
    exact (vlaCell_eq hdescriptor (pqPayload_empty unit.view _ hheap)).trans
      (by rw [show PqDescriptor.empty.count = 0 from rfl, hshape]; rfl)
  have hrun : ∃ total, (unit.vla index column width).elementTotal = .ok total ∧ total = 0 := by
    apply Loops.range_total (P := fun _ total => total = 0) rfl
    rintro row hrow total rfl
    exact ⟨0, by rw [hcell row hrow]; rfl, rfl⟩
  obtain ⟨total, htotal, rfl⟩ := hrun
  exact htotal

/-- A row of an array column has room for its descriptor in the data unit. -/
theorem ends_of_descriptors (unit : DataUnit schema) (hcolumn : column ∈ schema.columns)
    {width : DescriptorWidth} (hstorage : column.tform.storage = .array width)
    (hrepeat : column.tform.repeatCount ≠ 0) : 8 * schema.extent.rowCount ≤ isizeMax := by
  have hdescriptor : column.tform.descriptorWidth = some width := by
    rw [Tform.descriptorWidth, hstorage]
  have hwidth := byteWidth_array hdescriptor hrepeat
  have hbytes : 8 ≤ width.bytes := by cases width <;> decide
  have hle := column_le hcolumn
  have hmul : schema.extent.rowCount * 8 ≤ schema.extent.rowCount * schema.extent.rowLen :=
    Nat.mul_le_mul_left _ (by omega)
  have hrows := unit.rows_le
  have hslice := unit.slice
  omega

omit [PlaneReals R] in
theorem vlaInto_overflows (hcolumn : schema.columns[index]? = some column)
    {width : DescriptorWidth} (hstorage : column.tform.storage = .array width)
    {shape : Option (List ℕ)} (htdim : column.tdim = .ok shape)
    (hends : ¬8 * schema.extent.rowCount ≤ isizeMax) :
    (unit.handle hcolumn keywords).vlaInto = abort .capacityOverflow := by
  have hrepeat : column.tform.repeatCount = 0 := by
    by_contra hrepeat
    exact hends (unit.ends_of_descriptors (List.mem_of_getElem? hcolumn) hstorage hrepeat)
  have hcells : (unit.vla index column width).cells = abort .capacityOverflow := by
    have hlarge : ¬(0 + (unit.vla index column width).table.extent.rowCount) * 8 ≤ isizeMax := by
      rw [Nat.zero_add, Nat.mul_comm]
      exact hends
    rw [VlaColumn.cells, reserve, if_neg hlarge]
    rfl
  unfold ColumnReader.vlaInto
  rw [unit.vlaColumn_eq hcolumn hstorage, Loops.bind_ok rfl, unit.elementTotal_absent hrepeat htdim,
    Loops.bind_ok rfl, hcells]
  rfl

end DataUnit

/-! ## Every access -/

/-- The bits of a fixed column's rows are counted in a word, and the ends of an array
column's rows fit the memory. -/
structure CountsFit (schema : Schema) : Prop where
  bits : ∀ column ∈ schema.columns, column.tform.storage = .fixed →
    column.tform.element = .bit → schema.extent.rowCount * column.tform.repeatCount ≤ usizeMax
  ends : ∀ column ∈ schema.columns, column.tform.storage ≠ .fixed →
    (∃ shape, column.tdim = .ok shape) → 8 * schema.extent.rowCount ≤ isizeMax

/-- No read of a column panics. -/
structure ReadsSafely (τ : Type) [PhysicalSample R τ] (rowCount : ℕ) (reader : ColumnReader R) :
    Prop where
  rawInto : NoPanic reader.rawInto
  physicalInto : ∀ out : List τ, NoPanic (reader.physicalInto out)
  unsignedInto : NoPanic reader.unsignedInto
  complex : NoPanic reader.complex
  bits : NoPanic reader.bits
  bitsRow : ∀ bits, reader.bits = .ok bits → ∀ r < rowCount, NoPanic (bits.row r)
  vlaInto : NoPanic reader.vlaInto
  vlaPhysicalInto : NoPanic (reader.vlaPhysicalInto τ)
  vlaUnsigned : NoPanic reader.vlaUnsigned
  vlaComplex : NoPanic reader.vlaComplex
  vlaBits : NoPanic reader.vlaBits
  vlaBitsRow : ∀ bits, reader.vlaBits = .ok bits → ∀ r < rowCount, NoPanic (bits.row r)

/-- What a schema promises of the accesses to a data unit. -/
structure BoundsEveryAccess (τ : Type) [PhysicalSample R τ] (schema : TableSchema R)
    (unit : DataUnit schema.toSchema) : Prop where
  /-- The cell of a column in a row lies in the rows, and its slice is read. -/
  cells : ∀ column ∈ schema.columns, ∀ row < schema.extent.rowCount,
    (column.place schema.extent.rowLen row).stop ≤
        schema.extent.rowCount * schema.extent.rowLen ∧
      unit.view.cell column row =
        .ok (sliceOf unit.bytes (column.place schema.extent.rowLen row))
  /-- Every byte of a row lies in one column's cell. -/
  covered : ∀ byte < schema.extent.rowLen, ∃! p, p ∈ schema.columns.zipIdx ∧
    p.1.byteOffset ≤ byte ∧ byte < p.1.byteOffset + p.1.tform.byteWidth
  /-- A descriptor's bytes decode to a descriptor or to an error. -/
  descriptors : ∀ bytes width, NoPanic (PqDescriptor.decode bytes width)
  /-- A heap array lies between the heap's offset and its end, and its slice is read. -/
  payloads : ∀ descriptor kind, NoPanic (unit.view.pqPayload descriptor kind) ∧
    ∀ range, PqDescriptor.heapRange descriptor kind schema.extent.heapOffset
        schema.extent.heapEnd = some range →
      schema.extent.heapOffset ≤ range.start ∧ range.start ≤ range.stop ∧
        range.stop ≤ schema.extent.heapEnd ∧
        unit.view.pqPayload descriptor kind = .ok (some (sliceOf unit.bytes range))
  /-- A handle to a column is made, or the index is refused. -/
  columns : ∀ index, NoPanic (schema.column unit.bytes index)
  reads : ∀ index reader, schema.column unit.bytes index = .ok reader →
    ReadsSafely τ schema.extent.rowCount reader

section Bounds

variable {schema : TableSchema R} (unit : DataUnit schema.toSchema)

omit [PlaneReals R] in
/-- A column's handle reads the data unit. -/
theorem column_eq (index : ℕ) :
    (∃ column keywords, ∃ hcolumn : schema.columns[index]? = some column,
      schema.column unit.bytes index = .ok (unit.handle hcolumn keywords)) ∨
    ∃ error, schema.column unit.bytes index = fail error := by
  unfold TableSchema.column
  rw [unit.view_eq, Loops.bind_ok rfl]
  by_cases hindex : index < schema.columns.length
  · exact Or.inl ⟨schema.columns[index], _, List.getElem?_eq_getElem hindex, dif_pos hindex⟩
  · exact Or.inr ⟨_, dif_neg hindex⟩

omit [PlaneReals R] in
theorem column_of_mem {index : ℕ} {column : Column}
    (hcolumn : schema.columns[index]? = some column) : ∃ keywords,
    schema.column unit.bytes index = .ok (unit.handle hcolumn keywords) := by
  obtain ⟨hindex, rfl⟩ := List.getElem?_eq_some_iff.mp hcolumn
  unfold TableSchema.column
  rw [unit.view_eq, Loops.bind_ok rfl]
  exact ⟨_, dif_pos hindex⟩

/-- A table of no more rows than their ends fit has its arrays' ends. -/
theorem endsFit_of_counts {schema : Schema} {unit : DataUnit schema} (h : CountsFit schema)
    {index : ℕ} {column : Column} (hcolumn : column ∈ schema.columns) :
    unit.EndsFit index column := by
  intro width total hstorage htotal
  rcases Nat.eq_zero_or_pos schema.extent.rowCount with hzero | hpos
  · rw [hzero]
    exact Nat.zero_le _
  · obtain ⟨cell, hcell⟩ := (unit.elementTotal_ok htotal).1 0 (List.mem_range.mpr hpos)
    apply h.ends column hcolumn (by rw [hstorage]; exact Storage.noConfusion)
    -- The first row's array reads only where the column's shape does.
    obtain ⟨-, -, hcell⟩ := Loops.ok_of_bind hcell
    obtain ⟨descriptor, -, hcell⟩ := Loops.ok_of_bind hcell
    obtain ⟨_, hshape, -⟩ := Loops.ok_of_bind hcell
    unfold Column.validateVlaTdim at hshape
    cases htdim : column.tdim with
    | ok shape => exact ⟨shape, rfl⟩
    | error error =>
      rw [show (unit.vla index column width).column = column from rfl, htdim] at hshape
      cases hshape

variable {unit}

theorem readsSafely_of_counts (h : CountsFit schema.toSchema) {index : ℕ} {column : Column}
    (hcolumn : schema.columns[index]? = some column) (keywords : ColumnKeywords R) :
    ReadsSafely τ schema.extent.rowCount (unit.handle hcolumn keywords) := by
  have hmem := List.mem_of_getElem? hcolumn
  have hends : unit.EndsFit index column := endsFit_of_counts h hmem
  exact
    { rawInto := unit.noPanic_rawInto hcolumn (h.bits column hmem)
      physicalInto := unit.noPanic_physicalInto hcolumn
      unsignedInto := unit.noPanic_unsignedInto hcolumn
      complex := unit.noPanic_complex hcolumn
      bits := unit.noPanic_bits hcolumn
      bitsRow := fun _ hbits _ hr => unit.noPanic_bits_row hcolumn hbits hr
      vlaInto := unit.noPanic_vlaInto hcolumn hends
      vlaPhysicalInto := unit.noPanic_vlaPhysicalInto hcolumn hends
      vlaUnsigned := unit.noPanic_vlaUnsigned hcolumn hends
      vlaComplex := unit.noPanic_vlaComplex hcolumn hends
      vlaBits := (unit.vlaBits_returns hcolumn).noPanic
      vlaBitsRow := fun _ hbits => (unit.vlaBits_returns hcolumn).value hbits }

/-- What holds of any data unit as long as the schema's heap end. -/
theorem bounds_of_counts (h : CountsFit schema.toSchema) : BoundsEveryAccess τ schema unit where
  cells column hcolumn row hrow :=
    ⟨DataUnit.place_stop_le hcolumn hrow, unit.cell_read hcolumn hrow⟩
  covered byte hbyte := by
    obtain ⟨p, hp, hcell⟩ := schema.laid.cover (k := 0) (Nat.zero_le byte) hbyte
    refine ⟨p, ⟨hp, hcell⟩, ?_⟩
    rintro p' ⟨hp', hcell'⟩
    by_contra hne
    have hapart := schema.laid.apart hp' hp hne
    omega
  descriptors := DataUnit.noPanic_decode
  payloads descriptor kind := by
    refine ⟨unit.noPanic_pqPayload descriptor kind, ?_⟩
    intro range hrange
    obtain ⟨-, -, hle, hend, -⟩ := heapRange_within schema.heap hrange
    exact ⟨DataUnit.heapRange_start hrange, hle, hend, (unit.payload_read hrange).1⟩
  columns index := by
    rcases column_eq unit index with ⟨column, keywords, hcolumn, heq⟩ | ⟨error, heq⟩
    · exact NoPanic.of_ok heq
    · rw [heq]
      exact NoPanic.fail error
  reads index reader hreader := by
    rcases column_eq unit index with ⟨column, keywords, hcolumn, heq⟩ | ⟨error, heq⟩
    · rw [heq] at hreader
      rw [← Except.ok.inj hreader]
      exact readsSafely_of_counts h hcolumn keywords
    · rw [heq] at hreader
      cases hreader

/-- A read that is safe has counted its elements. -/
theorem counts_of_bounds (h : BoundsEveryAccess τ schema unit) : CountsFit schema.toSchema where
  bits column hmem hstorage _ := by
    obtain ⟨index, hcolumn⟩ := List.mem_iff_getElem?.mp hmem
    obtain ⟨keywords, heq⟩ := column_of_mem unit hcolumn
    by_contra hcount
    exact (h.reads index _ heq).rawInto _ (unit.rawInto_overflows hcolumn hstorage hcount)
  ends column hmem hstorage hshape := by
    obtain ⟨index, hcolumn⟩ := List.mem_iff_getElem?.mp hmem
    obtain ⟨keywords, heq⟩ := column_of_mem unit hcolumn
    obtain ⟨shape, htdim⟩ := hshape
    by_contra hends
    cases harray : column.tform.storage with
    | fixed => exact hstorage harray
    | array width =>
      exact (h.reads index _ heq).vlaInto _
        (unit.vlaInto_overflows hcolumn harray htdim hends)

end Bounds

/-- The schema that a header gives bounds every access to a data unit that reaches its heap
end, where the bits of its fixed columns and the ends of its arrays' rows can be counted, and
only there. -/
theorem schema_bounds_every_access [LawfulWords R] {header : Header R} {schema : TableSchema R}
    (_ : Schema.parse header = .ok schema) (unit : DataUnit schema.toSchema) :
    BoundsEveryAccess τ schema unit ↔ CountsFit schema.toSchema :=
  ⟨counts_of_bounds, bounds_of_counts⟩

/-! ## Tables of a few columns -/

/-- A record of a count. -/
def countRecord (name : Text) (count : ℕ) : Option (Record ℤ) := do
  let keyword ← Keyword.checked name
  if h : -2 ^ 63 ≤ (count : ℤ) ∧ (count : ℤ) < 2 ^ 63 then
    some (.valued keyword (.integer ⟨.i64 count, h⟩) none)
  else
    none

/-- A record of text. -/
def textRecord (name text : Text) : Option (Record ℤ) :=
  (Keyword.checked name).map fun keyword => .valued keyword (.text text) none

/-- The header of a table of `rowCount` rows whose columns have the formats `tforms`. -/
def tableHeader (rowLen rowCount : ℕ) (tforms : List Text) : Header ℤ :=
  Header.ofRecords (([countRecord (ascii "BITPIX") 8, countRecord (ascii "NAXIS") 2,
    countRecord (ascii "NAXIS1") rowLen, countRecord (ascii "NAXIS2") rowCount,
    countRecord (ascii "GCOUNT") 1, countRecord (ascii "TFIELDS") tforms.length] ++
    tforms.mapIdx fun i tform =>
      textRecord (ascii "TFORM" ++ Decimal.numeral (i + 1)) tform).reduceOption)

/-- A column's format, and whether its shape reads. -/
structure ColumnOutline where
  repeatCount : ℕ
  element : ElementKind
  storage : Storage
  shaped : Bool
  deriving DecidableEq

/-- A schema's extent, and its columns' formats. -/
structure SchemaOutline where
  extent : TableExtent
  columns : List ColumnOutline
  deriving DecidableEq

def TableSchema.outline {R : Type} (schema : TableSchema R) : SchemaOutline where
  extent := schema.extent
  columns := schema.columns.map fun column =>
    { repeatCount := column.tform.repeatCount, element := column.tform.element
      storage := column.tform.storage, shaped := column.tdim.toOption.isSome }

/-- A schema whose outline is known. -/
theorem exists_of_outline (header : Header ℤ) (outline : SchemaOutline)
    (h : (Schema.parse header).toOption.map TableSchema.outline = some outline) :
    ∃ schema : TableSchema ℤ, Schema.parse header = .ok schema ∧ schema.outline = outline := by
  cases hparse : Schema.parse header with
  | error fault =>
    rw [hparse] at h
    cases h
  | ok schema =>
    rw [hparse] at h
    exact ⟨schema, rfl, Option.some.inj h⟩

/-- The counts of a table are those of its outline. -/
theorem countsFit_of_outline {schema : TableSchema ℤ} {outline : SchemaOutline}
    (houtline : schema.outline = outline)
    (hbits : ∀ column ∈ outline.columns, column.storage = .fixed → column.element = .bit →
      outline.extent.rowCount * column.repeatCount ≤ usizeMax)
    (hends : 8 * outline.extent.rowCount ≤ isizeMax) : CountsFit schema.toSchema := by
  subst houtline
  refine ⟨?_, fun _ _ _ _ => hends⟩
  intro column hcolumn
  exact hbits _ (List.mem_map_of_mem hcolumn)

/-- A table of an array column and three bits. -/
theorem schema_bounds_every_access_arrays : ∃ schema : TableSchema ℤ,
    Schema.parse (tableHeader 9 2 [ascii "1PE", ascii "3X"]) = .ok schema ∧
      ∃ unit : DataUnit schema.toSchema, unit.bytes = List.replicate 18 0xff ∧
        BoundsEveryAccess (Option ℤ) schema unit := by
  obtain ⟨schema, hparse, houtline⟩ := exists_of_outline
    (tableHeader 9 2 [ascii "1PE", ascii "3X"])
    (⟨⟨2, 9, 18, 18⟩, [⟨1, .f32, .array .P, true⟩, ⟨3, .bit, .fixed, true⟩]⟩)
    (by decide +kernel)
  have hextent : schema.extent = ⟨2, 9, 18, 18⟩ := congrArg SchemaOutline.extent houtline
  have hcounts := countsFit_of_outline houtline (by decide) (by decide)
  refine ⟨schema, hparse, ⟨List.replicate 18 0xff, ?_, by decide⟩, rfl, ?_⟩
  · rw [hextent]
    decide
  · exact (schema_bounds_every_access hparse _).mpr hcounts

/-- A table whose one column breaks a count has an unsafe read. -/
theorem not_bounds_of_outline {schema : TableSchema ℤ} {extent : TableExtent}
    {format : ColumnOutline} (houtline : schema.outline = ⟨extent, [format]⟩)
    (hbroken : (format.storage = .fixed ∧ format.element = .bit ∧
        ¬extent.rowCount * format.repeatCount ≤ usizeMax) ∨
      (format.storage ≠ .fixed ∧ format.shaped = true ∧ ¬8 * extent.rowCount ≤ isizeMax))
    (unit : DataUnit schema.toSchema) : ¬BoundsEveryAccess (Option ℤ) schema unit := by
  intro hbounds
  have hcounts := counts_of_bounds hbounds
  have hextent : schema.extent = extent := congrArg SchemaOutline.extent houtline
  have hcolumns : schema.outline.columns = [format] := congrArg SchemaOutline.columns houtline
  obtain ⟨column, hcolumn, rfl⟩ := List.mem_map.mp
    (show format ∈ schema.outline.columns by rw [hcolumns]; exact List.mem_singleton.mpr rfl)
  rcases hbroken with ⟨hstorage, hbit, hcount⟩ | ⟨hstorage, hshaped, hends⟩
  · apply hcount
    rw [← hextent]
    exact hcounts.bits column hcolumn hstorage hbit
  · apply hends
    rw [← hextent]
    apply hcounts.ends column hcolumn hstorage
    cases htdim : column.tdim with
    | ok shape => exact ⟨shape, rfl⟩
    | error error =>
      dsimp only at hshaped
      rw [htdim] at hshaped
      cases hshaped

/-- Rows of no bytes, so many that their ends do not fit the memory. -/
theorem emptyRows_panic : ∃ schema : TableSchema ℤ,
    Schema.parse (tableHeader 0 (2 ^ 60) [ascii "0PE"]) = .ok schema ∧
      ∃ unit : DataUnit schema.toSchema, unit.bytes = [] ∧
        ¬BoundsEveryAccess (Option ℤ) schema unit := by
  obtain ⟨schema, hparse, houtline⟩ := exists_of_outline
    (tableHeader 0 (2 ^ 60) [ascii "0PE"])
    (⟨⟨2 ^ 60, 0, 0, 0⟩, [⟨0, .f32, .array .P, true⟩]⟩) (by decide +kernel)
  have hextent : schema.extent = ⟨2 ^ 60, 0, 0, 0⟩ := congrArg SchemaOutline.extent houtline
  refine ⟨schema, hparse, ⟨[], ?_, Nat.zero_le _⟩, rfl, ?_⟩
  · rw [hextent]
    exact Nat.le_refl _
  · exact not_bounds_of_outline houtline (Or.inr ⟨Storage.noConfusion, rfl, by decide⟩) _

/-- Four rows of a quarter of a word's bits each. -/
theorem manyBits_panic : ∃ schema : TableSchema ℤ,
    Schema.parse (tableHeader (2 ^ 59) 4 [ascii "4611686018427387904X"]) = .ok schema ∧
      ∃ unit : DataUnit schema.toSchema, unit.bytes = List.replicate (2 ^ 61) 0 ∧
        ¬BoundsEveryAccess (Option ℤ) schema unit := by
  obtain ⟨schema, hparse, houtline⟩ := exists_of_outline
    (tableHeader (2 ^ 59) 4 [ascii "4611686018427387904X"])
    (⟨⟨4, 2 ^ 59, 2 ^ 61, 2 ^ 61⟩, [⟨2 ^ 62, .bit, .fixed, true⟩]⟩) (by decide +kernel)
  have hextent : schema.extent = ⟨4, 2 ^ 59, 2 ^ 61, 2 ^ 61⟩ :=
    congrArg SchemaOutline.extent houtline
  refine ⟨schema, hparse, ⟨List.replicate (2 ^ 61) 0, ?_, ?_⟩, rfl, ?_⟩
  · rw [hextent, List.length_replicate]
  · rw [List.length_replicate]
    decide
  · exact not_bounds_of_outline houtline (Or.inl ⟨rfl, rfl, by decide⟩) _

/-- A read panics over a data unit of no bytes, and over one of many. -/
theorem schema_bounds_every_access_overflows :
    (∃ schema : TableSchema ℤ,
      Schema.parse (tableHeader 0 (2 ^ 60) [ascii "0PE"]) = .ok schema ∧
        ∃ unit : DataUnit schema.toSchema, unit.bytes = [] ∧
          ¬BoundsEveryAccess (Option ℤ) schema unit) ∧
    (∃ schema : TableSchema ℤ,
      Schema.parse (tableHeader (2 ^ 59) 4 [ascii "4611686018427387904X"]) = .ok schema ∧
        ∃ unit : DataUnit schema.toSchema, unit.bytes = List.replicate (2 ^ 61) 0 ∧
          ¬BoundsEveryAccess (Option ℤ) schema unit) :=
  ⟨emptyRows_panic, manyBits_panic⟩

end FitsWell
