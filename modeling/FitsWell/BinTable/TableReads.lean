import FitsWell.BinTable.Cells
import FitsWell.BinTable.PhysicalReads

/-!
# Reads of a table's columns

A data unit that reaches the schema's heap end holds every cell of every row, and every heap
array that a descriptor of it gives.
-/

namespace FitsWell

variable {R : Type}

/-- A data unit that holds the table of a schema, in a slice of memory. -/
structure DataUnit (schema : Schema) where
  bytes : List UInt8
  whole : schema.extent.heapEnd ≤ bytes.length
  slice : bytes.length ≤ isizeMax

namespace DataUnit

variable {schema : Schema} (unit : DataUnit schema)

/-- The table that the data unit holds. -/
def view : TableView where
  columns := schema.columns
  extent := schema.extent
  bytes := unit.bytes

theorem view_eq : TableView.new schema unit.bytes = .ok unit.view :=
  if_neg (Nat.not_lt.mpr unit.whole)

/-! ## Cells -/

theorem rows_le : schema.extent.rowCount * schema.extent.rowLen ≤ unit.bytes.length :=
  le_trans schema.main (le_trans schema.heap unit.whole)

include unit in
theorem rowLen_lt {row : ℕ} (hrow : row < schema.extent.rowCount) :
    schema.extent.rowLen < usizeMax := by
  have hone : schema.extent.rowLen ≤ schema.extent.rowCount * schema.extent.rowLen :=
    Nat.le_mul_of_pos_left _ (by omega)
  have hrows := unit.rows_le
  have hslice := unit.slice
  have hsize : isizeMax < usizeMax := by decide
  omega

variable {column : Column}

theorem column_le (hcolumn : column ∈ schema.columns) :
    column.byteOffset + column.tform.byteWidth ≤ schema.extent.rowLen := by
  obtain ⟨i, hi, rfl⟩ := List.mem_iff_getElem.mp hcolumn
  exact (schema.laid.mem (p := (schema.columns[i], i))
    (List.mem_zipIdx_iff_getElem?.mpr (List.getElem?_eq_getElem hi))).2

/-- A cell lies in the rows. -/
theorem place_stop_le (hcolumn : column ∈ schema.columns) {row : ℕ}
    (hrow : row < schema.extent.rowCount) :
    (column.place schema.extent.rowLen row).stop ≤
      schema.extent.rowCount * schema.extent.rowLen :=
  place_le hrow (column_le hcolumn)

/-- A cell's slice and its offset are in bounds. -/
theorem cell_read (hcolumn : column ∈ schema.columns) {row : ℕ}
    (hrow : row < schema.extent.rowCount) :
    unit.view.cell column row =
      .ok (sliceOf unit.bytes (column.place schema.extent.rowLen row)) := by
  have hplace := place_stop_le hcolumn hrow
  apply cell_eq unit.view column row
  · exact le_trans hplace (le_trans schema.main (le_trans schema.heap schema.words.1))
  · exact le_trans hplace unit.rows_le

theorem length_place (hcolumn : column ∈ schema.columns) {row : ℕ}
    (hrow : row < schema.extent.rowCount) :
    (sliceOf unit.bytes (column.place schema.extent.rowLen row)).length =
      column.tform.byteWidth := by
  rw [length_sliceOf (le_trans (place_stop_le hcolumn hrow) unit.rows_le)]
  exact Nat.add_sub_cancel_left _ _

include unit in
/-- A fixed cell that a row has room for is as wide as its elements. -/
theorem payloadLen_fixed (hcolumn : column ∈ schema.columns)
    (hstorage : column.tform.storage = .fixed) {row : ℕ} (hrow : row < schema.extent.rowCount) :
    column.tform.element.payloadLen column.tform.repeatCount = some column.tform.byteWidth := by
  have hle := column_le hcolumn
  have hlt := unit.rowLen_lt hrow
  unfold Tform.byteWidth at hle ⊢
  rw [hstorage] at hle ⊢
  dsimp only at hle ⊢
  cases hlen : column.tform.element.payloadLen column.tform.repeatCount with
  | none =>
    rw [hlen, Option.getD_none] at hle
    omega
  | some len => rfl

include unit in
/-- The elements of a column of whole bytes are no more than the rows' bytes. -/
theorem count_le (hcolumn : column ∈ schema.columns) (hstorage : column.tform.storage = .fixed)
    (hbit : column.tform.element ≠ .bit) :
    schema.extent.rowCount * column.tform.repeatCount ≤ usizeMax := by
  rcases Nat.eq_zero_or_pos schema.extent.rowCount with hzero | hpos
  · rw [hzero, Nat.zero_mul]
    exact Nat.zero_le _
  · have hlen := unit.payloadLen_fixed hcolumn hstorage hpos
    have hsize : 0 < column.tform.element.elemSize := by
      cases column.tform.element <;> decide
    unfold ElementKind.payloadLen at hlen
    split at hlen
    · exact absurd ‹_› hbit
    · obtain ⟨-, hwidth⟩ := checkedMul_eq_some_iff.mp hlen
      have hrepeat : column.tform.repeatCount ≤ schema.extent.rowLen := by
        have := column_le hcolumn
        have := Nat.le_mul_of_pos_right column.tform.repeatCount hsize
        omega
      exact le_trans (Nat.mul_le_mul_left _ hrepeat)
        (le_trans schema.main (le_trans schema.heap schema.words.1))

/-! ## Descriptors -/

theorem noPanic_decode (bytes : List UInt8) (width : DescriptorWidth) :
    NoPanic (PqDescriptor.decode bytes width) := by
  have hfield : ∀ (field : DescriptorField) (value : ℤ), NoPanic (nonnegativeField field value) :=
    fun _ _ => NoPanic.ite (fun _ => NoPanic.fail _) (fun _ => NoPanic.ok _)
  apply NoPanic.ite
  · exact fun _ => NoPanic.fail _
  · intro _
    apply NoPanic.bind (hfield _ _)
    intro count _
    apply NoPanic.ite
    · exact fun _ => NoPanic.ok _
    · exact fun _ => NoPanic.bind (hfield _ _) (fun _ _ => NoPanic.ok _)

theorem noPanic_pqDescriptor (hcolumn : column ∈ schema.columns) (width : DescriptorWidth)
    {row : ℕ} (hrow : row < schema.extent.rowCount) :
    NoPanic (unit.view.pqDescriptor column width row) := by
  apply NoPanic.ite
  · exact fun _ => NoPanic.ok _
  · intro _
    rw [unit.cell_read hcolumn hrow, Loops.bind_ok rfl]
    exact noPanic_decode _ width

/-! ## Heap arrays -/

theorem heapRange_start {descriptor : PqDescriptor} {kind : ElementKind} {heapStart heapEnd : ℕ}
    {range : Span} (h : descriptor.heapRange kind heapStart heapEnd = some range) :
    heapStart ≤ range.start := by
  unfold PqDescriptor.heapRange at h
  obtain ⟨byteLen, -, h⟩ := Option.bind_eq_some_iff.mp h
  split at h
  · rw [← Option.some.inj h]
  · obtain ⟨start, hstart, h⟩ := Option.bind_eq_some_iff.mp h
    obtain ⟨stop, -, h⟩ := Option.bind_eq_some_iff.mp h
    obtain ⟨-, rfl⟩ := checkedAdd_eq_some_iff.mp hstart
    split at h
    · rw [← Option.some.inj h]
      exact Nat.le_add_right _ _
    · cases h

/-- A heap array's slice is in bounds, and as long as its elements. -/
theorem payload_read {descriptor : PqDescriptor} {kind : ElementKind} {range : Span}
    (h : descriptor.heapRange kind schema.extent.heapOffset schema.extent.heapEnd = some range) :
    unit.view.pqPayload descriptor kind = .ok (some (sliceOf unit.bytes range)) ∧
      kind.payloadLen descriptor.count = some (sliceOf unit.bytes range).length := by
  obtain ⟨byteLen, hlen, hle, hend, hspan⟩ := heapRange_within schema.heap h
  have hbytes := le_trans hend unit.whole
  exact ⟨pqPayload_eq unit.view h hle hbytes, by rw [length_sliceOf hbytes, hspan, hlen]⟩

/-- A payload that is read spans what its descriptor counts. -/
theorem payloadLen_read {descriptor : PqDescriptor} {kind : ElementKind} {payload : List UInt8}
    (h : unit.view.pqPayload descriptor kind = .ok (some payload)) :
    kind.payloadLen descriptor.count = some payload.length := by
  cases hrange : descriptor.heapRange kind schema.extent.heapOffset schema.extent.heapEnd with
  | none =>
    have hnone : unit.view.pqPayload descriptor kind = .ok none := by
      unfold TableView.pqPayload
      rw [show unit.view.extent = schema.extent from rfl, hrange]
    rw [hnone] at h
    cases h
  | some range =>
    obtain ⟨hread, hlen⟩ := unit.payload_read hrange
    rw [hread] at h
    rw [hlen, Option.some.inj (Except.ok.inj h)]

theorem noPanic_pqPayload (descriptor : PqDescriptor) (kind : ElementKind) :
    NoPanic (unit.view.pqPayload descriptor kind) := by
  cases hrange : descriptor.heapRange kind schema.extent.heapOffset schema.extent.heapEnd with
  | none =>
    unfold TableView.pqPayload
    rw [show unit.view.extent = schema.extent from rfl, hrange]
    exact NoPanic.ok _
  | some range => exact NoPanic.of_ok (unit.payload_read hrange).1

theorem noPanic_validateVlaTdim (column : Column) (count : ℕ) :
    NoPanic (column.validateVlaTdim count) := by
  unfold Column.validateVlaTdim
  split
  · exact NoPanic.fail _
  · exact NoPanic.ok _
  · apply NoPanic.ite
    · exact fun _ => NoPanic.ok _
    · intro _
      dsimp only
      split
      · exact NoPanic.fail _
      · exact NoPanic.ite (fun _ => NoPanic.fail _) (fun _ => NoPanic.ok _)

theorem noPanic_vlaCell (hcolumn : column ∈ schema.columns) (width : DescriptorWidth)
    (index : ℕ) {row : ℕ} (hrow : row < schema.extent.rowCount) :
    NoPanic (unit.view.vlaCell column width index row) := by
  apply NoPanic.bind (unit.noPanic_pqDescriptor hcolumn width hrow)
  intro descriptor _
  apply NoPanic.bind (noPanic_validateVlaTdim column descriptor.count)
  intro _ _
  apply NoPanic.bind (unit.noPanic_pqPayload descriptor column.tform.element)
  intro payload _
  cases payload with
  | none => exact NoPanic.fail _
  | some bytes => exact NoPanic.ok _

end DataUnit

end FitsWell
