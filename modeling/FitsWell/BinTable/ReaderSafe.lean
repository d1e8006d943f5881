import FitsWell.BinTable.ArrayReads

/-!
# No read of a column panics

A read of a fixed column multiplies the rows by the elements of a cell, and one of an array
column reserves the rows' ends; nothing else in a read can leave its bounds.
-/

namespace FitsWell

open Bits

variable {R τ : Type} [PlaneReals R] [PhysicalSample R τ] {schema : Schema}
  (unit : DataUnit schema) {index : ℕ} {column : Column} {keywords : ColumnKeywords R}

namespace DataUnit

/-- The handle to column `index`. -/
def handle (unit : DataUnit schema) {index : ℕ} {column : Column}
    (hcolumn : schema.columns[index]? = some column) (keywords : ColumnKeywords R) :
    ColumnReader R where
  table := unit.view
  index := index
  descriptor := column
  keywords := keywords
  own := hcolumn

/-! ## Conversions -/

theorem elemSize_bitpix {kind : ElementKind} {bitpix : Bitpix} (h : kind.bitpix = some bitpix) :
    kind.elemSize = bitpix.elemSize ∧ kind ≠ .bit := by
  cases kind <;> cases h <;> exact ⟨rfl, by decide⟩

theorem size_unsignedKind {kind : ElementKind} {scaling : Scaling R} {unsigned : UnsignedKind}
    (h : ColumnReader.unsignedKind kind scaling = some unsigned) :
    kind.elemSize = unsigned.size ∧ kind ≠ .bit := by
  obtain ⟨bitpix, hbitpix, h⟩ := Option.bind_eq_some_iff.mp h
  obtain ⟨hsize, hbit⟩ := elemSize_bitpix hbitpix
  refine ⟨hsize.trans ?_, hbit⟩
  unfold Scaling.unsignedKind at h
  split at h
  · cases h
  · cases bitpix with
    | f32 => cases h
    | f64 => cases h
    | _ =>
      dsimp only at h
      split at h
      · rw [← Option.some.inj h]
        rfl
      · cases h

section Decode

variable {σ : Type} {next : CellSource σ} {rows : List ℕ} {cellOf : ℕ → Cell}
  {I : List ℕ → σ → Prop} {start : σ} {kind : ElementKind}

theorem decodeUnsigned_returns (h : Gives next rows cellOf I start)
    (hpacked : Packed kind cellOf rows) {scaling : Scaling R} {unsigned : UnsignedKind}
    (hkind : ColumnReader.unsignedKind kind scaling = some unsigned) (capacity : ℕ) :
    Returns (fun decoded => decoded.2.values.length = countSum cellOf rows ∧ I rows decoded.1)
      (UnsignedData.fromBeCells unsigned next start rows capacity) := by
  obtain ⟨hsize, hbit⟩ := size_unsignedKind hkind
  have hwhole := hpacked.whole hbit
  rw [hsize] at hwhole
  apply Loops.Ends.bind (decodeBeCells_returns h hwhole unsigned.size capacity unsigned.flip)
  rintro ⟨s', values⟩ ⟨rfl, hI⟩
  refine ⟨?_, hI⟩
  have hpos : 0 < unsigned.size := by cases unsigned <;> decide
  exact (List.length_map _).trans (length_cellElements hpos hwhole)

theorem decodeComplex_returns (h : Gives next rows cellOf I start)
    (hpacked : Packed kind cellOf rows) (hkind : kind.isComplex = true) (tscale tzero : R)
    (capacity : ℕ) :
    Returns (fun decoded => decoded.2.length = countSum cellOf rows ∧ I rows decoded.1)
      (kind.decodeComplex tscale tzero next start rows capacity) := by
  have hdecode : ∀ {size : ℕ} (_ : 0 < size) (_ : WholeElements size cellOf rows)
      (conv : List UInt8 → R × R),
      Returns (fun decoded => decoded.2.length = countSum cellOf rows ∧ I rows decoded.1)
        (decodeBeCells size 16 conv next start rows capacity) := by
    intro size hsize hwhole conv
    apply (decodeBeCells_returns h hwhole 16 capacity conv).mono
    rintro ⟨s', values⟩ ⟨rfl, hI⟩
    exact ⟨(List.length_map _).trans (length_cellElements hsize hwhole), hI⟩
  cases kind with
  | complexF32 => exact hdecode (by decide) (hpacked.whole (by decide)) _
  | complexF64 => exact hdecode (by decide) (hpacked.whole (by decide)) _
  | _ => cases hkind

theorem decodeNumeric_returns (h : Gives next rows cellOf I start)
    (hpacked : Packed kind cellOf rows) {bitpix : Bitpix} (hkind : kind.bitpix = some bitpix)
    (scaling : Scaling R) {capacity : ℕ} (hcapacity : countSum cellOf rows = capacity)
    (out : List τ) :
    Returns (fun decoded => decoded.2.length = out.length + countSum cellOf rows ∧
      I rows decoded.1) (kind.decodePhysical scaling next start rows capacity out) := by
  obtain ⟨hsize, hbit⟩ := elemSize_bitpix hkind
  have hwhole := hpacked.whole hbit
  rw [hsize] at hwhole
  have hlength := length_cellElements bitpix.elemSize_pos hwhole
  apply (decodePhysical_returns h hkind hwhole (hlength.trans hcapacity) out).mono
  rintro ⟨s', values⟩ ⟨rfl, hI⟩
  exact ⟨by rw [List.length_append, List.length_map, hlength], hI⟩

end Decode

/-! ## Fixed columns -/

/-- The cell of a row of a fixed column. -/
def fixedCellOf (column : Column) (row : ℕ) : Cell where
  bytes := sliceOf unit.bytes (column.place schema.extent.rowLen row)
  count := column.tform.repeatCount

section Fixed

omit [PlaneReals R] in
theorem gives_fixed (hcolumn : schema.columns[index]? = some column) :
    Gives ((unit.handle hcolumn keywords).fixedCell column) unit.rows (unit.fixedCellOf column)
      (fun _ _ => True) () := by
  refine ⟨trivial, ?_⟩
  intro done row todo hrows state _
  have hrow := List.mem_range.mp (mem_of_split hrows)
  refine ⟨state, ?_, trivial⟩
  unfold ColumnReader.fixedCell
  rw [show (unit.handle hcolumn keywords).table = unit.view from rfl,
    unit.cell_read (List.mem_of_getElem? hcolumn) hrow]
  rfl

theorem packed_fixed (hcolumn : schema.columns[index]? = some column)
    (hstorage : column.tform.storage = .fixed) :
    Packed column.tform.element (unit.fixedCellOf column) unit.rows := by
  intro row hrow
  have hmem := List.mem_of_getElem? hcolumn
  have hrow := List.mem_range.mp hrow
  dsimp only [fixedCellOf]
  rw [unit.length_place hmem hrow]
  exact unit.payloadLen_fixed hmem hstorage hrow

theorem countSum_fixed : countSum (unit.fixedCellOf column) unit.rows =
    schema.extent.rowCount * column.tform.repeatCount := by
  unfold countSum fixedCellOf rows
  rw [List.map_const', List.sum_replicate_nat, List.length_range]

omit [PlaneReals R] in
theorem fixedDescriptor_eq (hcolumn : schema.columns[index]? = some column)
    (hstorage : column.tform.storage = .fixed) :
    (unit.handle hcolumn keywords).fixedDescriptor = .ok column := by
  unfold ColumnReader.fixedDescriptor
  rw [show (unit.handle hcolumn keywords).descriptor = column from rfl, hstorage]

omit [PlaneReals R] in
/-- A fixed read of an array column is refused. -/
theorem noPanic_fixed {α : Type} (hcolumn : schema.columns[index]? = some column)
    {rest : Column → Outcome α}
    (hrest : column.tform.storage = .fixed → NoPanic (rest column)) :
    NoPanic ((unit.handle hcolumn keywords).fixedDescriptor >>= rest) := by
  cases hstorage : column.tform.storage with
  | fixed =>
    rw [unit.fixedDescriptor_eq hcolumn hstorage, Loops.bind_ok rfl]
    exact hrest hstorage
  | array width =>
    unfold ColumnReader.fixedDescriptor
    rw [show (unit.handle hcolumn keywords).descriptor = column from rfl, hstorage]
    exact NoPanic.fail _

/-- The elements of all rows are a word: the product that a fixed read starts from. -/
theorem noPanic_capacity {α : Type} {rest : ℕ → Outcome α}
    (hcount : schema.extent.rowCount * column.tform.repeatCount ≤ usizeMax)
    (hrest : NoPanic (rest (schema.extent.rowCount * column.tform.repeatCount))) :
    NoPanic (mulUsize unit.view.extent.rowCount column.tform.repeatCount >>= rest) := by
  rw [show unit.view.extent = schema.extent from rfl, mulUsize_of_le hcount, Loops.bind_ok rfl]
  exact hrest

omit [PlaneReals R] in
/-- The values of a fixed column are those of its cells. -/
theorem rawInto_returns (hcolumn : schema.columns[index]? = some column)
    (hstorage : column.tform.storage = .fixed)
    (hcount : schema.extent.rowCount * column.tform.repeatCount ≤ usizeMax) :
    Returns (fun data => data = column.tform.element.values (unit.fixedCellOf column) unit.rows)
      (unit.handle hcolumn keywords).rawInto := by
  unfold ColumnReader.rawInto
  rw [unit.fixedDescriptor_eq hcolumn hstorage, Loops.bind_ok rfl, debugAssert, if_pos hstorage,
    Loops.bind_ok rfl, show (unit.handle hcolumn keywords).table = unit.view from rfl,
    show unit.view.extent = schema.extent from rfl, mulUsize_of_le hcount, Loops.bind_ok rfl]
  apply Loops.Ends.bind (decodeCells_returns (unit.gives_fixed hcolumn)
    (unit.packed_fixed hcolumn hstorage) _)
  rintro ⟨_, data⟩ ⟨rfl, -⟩
  exact rfl

omit [PlaneReals R] in
theorem noPanic_rawInto (hcolumn : schema.columns[index]? = some column)
    (hbits : column.tform.storage = .fixed → column.tform.element = .bit →
      schema.extent.rowCount * column.tform.repeatCount ≤ usizeMax) :
    NoPanic (unit.handle hcolumn keywords).rawInto := by
  cases hstorage : column.tform.storage with
  | fixed =>
    apply Returns.noPanic (unit.rawInto_returns hcolumn hstorage ?_)
    by_cases hbit : column.tform.element = .bit
    · exact hbits hstorage hbit
    · exact unit.count_le (List.mem_of_getElem? hcolumn) hstorage hbit
  | array width =>
    apply unit.noPanic_fixed hcolumn
    intro hfixed
    rw [hstorage] at hfixed
    cases hfixed

omit [PlaneReals R] in
theorem noPanic_keyed_read {α : Type} (value : Keyed α) : NoPanic (ColumnReader.keyed value) := by
  cases value with
  | ok value => exact NoPanic.ok _
  | error error => exact NoPanic.fail _

omit [PlaneReals R] in
theorem noPanic_scaling (reader : ColumnReader R) : NoPanic reader.scaling := by
  apply NoPanic.bind (noPanic_keyed_read _)
  intro tscale _
  apply NoPanic.bind (noPanic_keyed_read _)
  intro tzero _
  exact NoPanic.bind (noPanic_keyed_read _) (fun _ _ => NoPanic.ok _)

theorem noPanic_physicalInto (hcolumn : schema.columns[index]? = some column) (out : List τ) :
    NoPanic ((unit.handle hcolumn keywords).physicalInto out) := by
  apply unit.noPanic_fixed hcolumn
  intro hstorage
  cases hbitpix : column.tform.element.bitpix with
  | none => exact NoPanic.fail _
  | some bitpix =>
    rw [if_neg (by simp)]
    apply unit.noPanic_capacity
    · exact unit.count_le (List.mem_of_getElem? hcolumn) hstorage (elemSize_bitpix hbitpix).2
    · apply NoPanic.bind (noPanic_scaling _)
      intro scaling _
      exact NoPanic.bind (decodeNumeric_returns (unit.gives_fixed hcolumn)
        (unit.packed_fixed hcolumn hstorage) hbitpix scaling unit.countSum_fixed out).noPanic
        (fun _ _ => NoPanic.ok _)

theorem noPanic_unsignedInto (hcolumn : schema.columns[index]? = some column) :
    NoPanic (unit.handle hcolumn keywords).unsignedInto := by
  apply unit.noPanic_fixed hcolumn
  intro hstorage
  apply NoPanic.bind (noPanic_scaling _)
  intro scaling _
  cases hkind : ColumnReader.unsignedKind column.tform.element scaling with
  | none => exact NoPanic.ok _
  | some kind =>
    apply unit.noPanic_capacity
    · exact unit.count_le (List.mem_of_getElem? hcolumn) hstorage (size_unsignedKind hkind).2
    · exact NoPanic.bind (decodeUnsigned_returns (unit.gives_fixed hcolumn)
        (unit.packed_fixed hcolumn hstorage) hkind _).noPanic (fun _ _ => NoPanic.ok _)

theorem noPanic_complex (hcolumn : schema.columns[index]? = some column) :
    NoPanic (unit.handle hcolumn keywords).complex := by
  apply unit.noPanic_fixed hcolumn
  intro hstorage
  apply NoPanic.ite
  · intro hcomplex
    apply unit.noPanic_capacity
    · apply unit.count_le (List.mem_of_getElem? hcolumn) hstorage
      intro hbit
      rw [hbit] at hcomplex
      cases hcomplex
    · apply NoPanic.bind (noPanic_keyed_read _)
      intro tscale _
      apply NoPanic.bind (noPanic_keyed_read _)
      intro tzero _
      exact NoPanic.bind (decodeComplex_returns (unit.gives_fixed hcolumn)
        (unit.packed_fixed hcolumn hstorage) hcomplex tscale tzero _).noPanic
        (fun _ _ => NoPanic.ok _)
  · exact fun _ => NoPanic.fail _

end Fixed

/-! ## Array columns -/

section Arrays

omit [PlaneReals R] in
theorem vlaColumn_eq (hcolumn : schema.columns[index]? = some column) {width : DescriptorWidth}
    (hstorage : column.tform.storage = .array width) :
    (unit.handle hcolumn keywords).vlaColumn = .ok (unit.vla index column width) := by
  unfold ColumnReader.vlaColumn
  rw [show (unit.handle hcolumn keywords).descriptor = column from rfl, hstorage]
  rfl

omit [PlaneReals R] in
/-- An array read of a fixed column is refused. -/
theorem noPanic_array {α : Type} (hcolumn : schema.columns[index]? = some column)
    {rest : VlaColumn → Outcome α}
    (hrest : ∀ width, column.tform.storage = .array width →
      NoPanic (rest (unit.vla index column width))) :
    NoPanic ((unit.handle hcolumn keywords).vlaColumn >>= rest) := by
  cases hstorage : column.tform.storage with
  | fixed =>
    unfold ColumnReader.vlaColumn
    rw [show (unit.handle hcolumn keywords).descriptor = column from rfl, hstorage]
    exact NoPanic.fail _
  | array width =>
    rw [unit.vlaColumn_eq hcolumn hstorage, Loops.bind_ok rfl]
    exact hrest width hstorage

/-- Once every row's array is counted, the rows' ends fit the memory. -/
def EndsFit (unit : DataUnit schema) (index : ℕ) (column : Column) : Prop :=
  ∀ width total, column.tform.storage = .array width →
    (unit.vla index column width).elementTotal = .ok total →
      8 * schema.extent.rowCount ≤ isizeMax

omit [PlaneReals R] in
/-- The pass over the rows starts where the count ends well. -/
theorem noPanic_pass {α : Type} (hcolumn : schema.columns[index]? = some column)
    {width : DescriptorWidth} (hstorage : column.tform.storage = .array width)
    (hends : unit.EndsFit index column) {rest : ℕ → VlaColumn.Cells → Outcome α}
    (hrest : ∀ total, (unit.vla index column width).elementTotal = .ok total →
      NoPanic (rest total { stop := 0, ends := [] })) :
    NoPanic ((unit.vla index column width).elementTotal >>= fun total =>
      (unit.vla index column width).cells >>= rest total) := by
  apply NoPanic.bind (unit.noPanic_elementTotal (List.mem_of_getElem? hcolumn))
  intro total htotal
  have hfits : (0 + (unit.vla index column width).table.extent.rowCount) * 8 ≤ isizeMax := by
    have := hends width total hstorage htotal
    rw [Nat.zero_add, Nat.mul_comm]
    exact this
  have hcells : (unit.vla index column width).cells = .ok { stop := 0, ends := [] } := by
    rw [VlaColumn.cells, reserve, if_pos hfits]
    rfl
  rw [hcells, Loops.bind_ok rfl]
  exact hrest total htotal

omit [PlaneReals R] in
/-- The values of an array column are those of its rows' arrays, and the rows end where
their counts add up to. -/
theorem noPanic_vlaInto (hcolumn : schema.columns[index]? = some column)
    (hends : unit.EndsFit index column) : NoPanic (unit.handle hcolumn keywords).vlaInto := by
  apply unit.noPanic_array hcolumn
  intro width hstorage
  apply unit.noPanic_pass hcolumn hstorage hends
  intro total htotal
  have hpacked := unit.packed_cells htotal
  have hdecode := decodeCells_returns (unit.gives_next htotal) hpacked total
  apply NoPanic.bind hdecode.noPanic
  rintro ⟨cells, data⟩ hdecoded
  obtain ⟨rfl, hended⟩ := hdecode.value hdecoded
  exact NoPanic.of_ok (ragged_new hended _ (len_values hpacked))

theorem noPanic_vlaPhysicalInto (hcolumn : schema.columns[index]? = some column)
    (hends : unit.EndsFit index column) :
    NoPanic ((unit.handle hcolumn keywords).vlaPhysicalInto τ) := by
  apply unit.noPanic_array hcolumn
  intro width hstorage
  cases hbitpix : column.tform.element.bitpix with
  | none =>
    rw [if_pos (by simp [VlaColumn.elementType, vla, hbitpix])]
    exact NoPanic.fail _
  | some bitpix =>
    rw [if_neg (by simp [VlaColumn.elementType, vla, hbitpix])]
    apply NoPanic.bind (noPanic_scaling _)
    intro scaling _
    apply unit.noPanic_pass hcolumn hstorage hends
    intro total htotal
    have hdecode := decodeNumeric_returns (unit.gives_next htotal) (unit.packed_cells htotal)
      hbitpix scaling (unit.elementTotal_ok htotal).2.1.symm ([] : List τ)
    apply NoPanic.bind hdecode.noPanic
    rintro ⟨cells, values⟩ hdecoded
    obtain ⟨hlength, hended⟩ := hdecode.value hdecoded
    exact NoPanic.of_ok (ragged_new hended _ (by simpa using hlength))

theorem noPanic_vlaUnsigned (hcolumn : schema.columns[index]? = some column)
    (hends : unit.EndsFit index column) : NoPanic (unit.handle hcolumn keywords).vlaUnsigned := by
  apply unit.noPanic_array hcolumn
  intro width hstorage
  apply NoPanic.bind (noPanic_scaling _)
  intro scaling _
  cases hkind : ColumnReader.unsignedKind (unit.vla index column width).elementType scaling with
  | none => exact NoPanic.ok _
  | some kind =>
    apply unit.noPanic_pass hcolumn hstorage hends
    intro total htotal
    have hdecode := decodeUnsigned_returns (unit.gives_next htotal) (unit.packed_cells htotal)
      hkind total
    apply NoPanic.bind hdecode.noPanic
    rintro ⟨cells, data⟩ hdecoded
    obtain ⟨hlength, hended⟩ := hdecode.value hdecoded
    exact NoPanic.bind (NoPanic.of_ok (ragged_new hended _ hlength)) (fun _ _ => NoPanic.ok _)

theorem noPanic_vlaComplex (hcolumn : schema.columns[index]? = some column)
    (hends : unit.EndsFit index column) : NoPanic (unit.handle hcolumn keywords).vlaComplex := by
  apply unit.noPanic_array hcolumn
  intro width hstorage
  apply NoPanic.ite
  · intro hcomplex
    apply NoPanic.bind (noPanic_keyed_read _)
    intro tscale _
    apply NoPanic.bind (noPanic_keyed_read _)
    intro tzero _
    apply unit.noPanic_pass hcolumn hstorage hends
    intro total htotal
    have hdecode := decodeComplex_returns (unit.gives_next htotal) (unit.packed_cells htotal)
      hcomplex tscale tzero total
    apply NoPanic.bind hdecode.noPanic
    rintro ⟨cells, data⟩ hdecoded
    obtain ⟨hlength, hended⟩ := hdecode.value hdecoded
    exact NoPanic.of_ok (ragged_new hended _ hlength)
  · exact fun _ => NoPanic.fail _

end Arrays

end DataUnit

end FitsWell
