import FitsWell.BinTable.Cells
import FitsWell.Writer.TableEncode

/-!
# The bytes of a table

What a table to write is, as bytes: rows of cells, where an array's cell holds its count and
its place among the arrays of the rows and columns before it, and then those arrays.
-/

namespace FitsWell

open Bits Bytes Chunks

variable {R : Type}

/-! ## Cells and arrays -/

/-- Bits and zeros after them to whole bytes, packed. -/
def packCell (bits : List Bool) : List UInt8 :=
  packBits (bits ++ List.replicate (8 * ((bits.length + 7) / 8) - bits.length) false)

/-- The bytes of `count` values from `start` on, as one cell. -/
def ColumnData.packed (data : ColumnData) (start count : ℕ) : List UInt8 :=
  match data with
  | .bit bits => packCell ((bits.drop start).take count)
  | .logical values => ((values.drop start).take count).flatMap Cells.logicalByte
  | .u8 values => ((values.drop start).take count).flatMap (fun byte => [byte])
  | .character values => ((values.drop start).take count).flatMap (fun byte => [byte])
  | .i16 values => ((values.drop start).take count).flatMap (fun word => beBytes 2 word.toNat)
  | .i32 values => ((values.drop start).take count).flatMap (fun word => beBytes 4 word.toNat)
  | .i64 values => ((values.drop start).take count).flatMap (fun word => beBytes 8 word.toNat)
  | .f32 values => ((values.drop start).take count).flatMap (fun word => beBytes 4 word.toNat)
  | .f64 values => ((values.drop start).take count).flatMap (fun word => beBytes 8 word.toNat)
  | .complexF32 values => ((values.drop start).take count).flatMap (Cells.pairBytes 4)
  | .complexF64 values => ((values.drop start).take count).flatMap (Cells.pairBytes 8)

/-- Where row `r` lies in the values. -/
def Ragged.span {V : Type} (rows : Ragged V) (r : ℕ) : Span :=
  ⟨if r = 0 then 0 else rows.ends[r - 1]?.getD 0, rows.ends[r]?.getD 0⟩

namespace WriteColumn

/-- The bytes of a column's array in row `row`; none of a fixed-width column. -/
def heapArray (row : ℕ) (col : WriteColumn R) : List UInt8 :=
  match col.values with
  | .fixed _ _ => []
  | .vla rows _ => rows.values.packed (rows.span row).start (rows.span row).len

/-- The bytes of a column's cell in row `row`, where its array lies at `heapAt`. -/
def cellBytes (col : WriteColumn R) (row heapAt : ℕ) : List UInt8 :=
  match col.values with
  | .fixed data repeatCount => data.packed (row * repeatCount) repeatCount
  | .vla rows width => descriptorBytes width (rows.span row).len heapAt

/-- The width of a column's cell. -/
def cellWidth (col : WriteColumn R) : ℕ :=
  match col.values with
  | .fixed data repeatCount => (data.elementKind.payloadLen repeatCount).getD 0
  | .vla _ width => width.bytes

end WriteColumn

/-! ## Rows and the heap -/

/-- The bytes of row `row`, whose arrays lie from `heapAt` on. -/
def rowBytes (row : ℕ) : ℕ → List (WriteColumn R) → List UInt8
  | _, [] => []
  | heapAt, col :: columns =>
    col.cellBytes row heapAt ++ rowBytes row (heapAt + (col.heapArray row).length) columns

/-- The arrays of row `row`. -/
def rowArrays (columns : List (WriteColumn R)) (row : ℕ) : List UInt8 :=
  columns.flatMap (WriteColumn.heapArray row)

/-- The arrays of the first `n` rows. -/
def heapBytes (columns : List (WriteColumn R)) (n : ℕ) : List UInt8 :=
  (List.range n).flatMap (rowArrays columns)

/-- The first `n` rows. -/
def mainBytes (columns : List (WriteColumn R)) (n : ℕ) : List UInt8 :=
  (List.range n).flatMap fun row => rowBytes row (heapBytes columns row).length columns

/-- The bytes of a table of `n` rows. -/
def tableBytes (columns : List (WriteColumn R)) (n : ℕ) : List UInt8 :=
  mainBytes columns n ++ heapBytes columns n

theorem heapBytes_succ (columns : List (WriteColumn R)) (n : ℕ) :
    heapBytes columns (n + 1) = heapBytes columns n ++ rowArrays columns n := by
  rw [heapBytes, heapBytes, List.range_succ, List.flatMap_append, List.flatMap_singleton]

/-- The cells of more columns follow those of the first ones. -/
theorem rowBytes_append (row heapAt : ℕ) (front back : List (WriteColumn R)) :
    rowBytes row heapAt (front ++ back) =
      rowBytes row heapAt front ++ rowBytes row (heapAt + (rowArrays front row).length) back := by
  induction front generalizing heapAt with
  | nil => rfl
  | cons col front ih =>
    rw [List.cons_append, rowBytes, rowBytes, ih, List.append_assoc, rowArrays, rowArrays,
      List.flatMap_cons, List.length_append, Nat.add_assoc]

/-! ## Lengths -/

theorem length_packCell (bits : List Bool) : (packCell bits).length = (bits.length + 7) / 8 := by
  rw [packCell, packBits_length, List.length_append, List.length_replicate]
  omega

theorem length_singleByte (byte : UInt8) : [byte].length = 1 := rfl

theorem length_logicalByte (value : Option Bool) : (Cells.logicalByte value).length = 1 := by
  rcases value with _ | _ | _ <;> rfl

theorem length_pairBytes {width : ℕ} (size : ℕ) (pair : BitVec width × BitVec width) :
    (Cells.pairBytes size pair).length = 2 * size := by
  rw [Cells.pairBytes, List.length_append, beBytes_length, beBytes_length, Nat.two_mul]

/-- Values of one size, as one cell. -/
theorem length_packed_width {τ : Type} {encode : τ → List UInt8} {size start count : ℕ}
    {values : List τ} (hsize : ∀ value, (encode value).length = size)
    (h : start + count ≤ values.length) :
    (((values.drop start).take count).flatMap encode).length = count * size := by
  have hleft : count ≤ values.length - start := by omega
  rw [length_flatMap_width hsize, List.length_take, List.length_drop, Nat.min_eq_left hleft,
    Nat.mul_comm]

/-- A cell has the bytes that its elements take. -/
theorem ColumnData.length_packed {data : ColumnData} {start count byteLen : ℕ}
    (h : start + count ≤ data.len) (hlen : data.elementKind.payloadLen count = some byteLen) :
    (data.packed start count).length = byteLen := by
  have hwidth : ∀ {size : ℕ}, checkedMul count size = some byteLen → count * size = byteLen :=
    fun hmul => (checkedMul_eq_some_iff.mp hmul).2
  cases data with
  | bit bits =>
    have hbits : ((bits.drop start).take count).length = count := by
      rw [List.length_take, List.length_drop]
      unfold len at h
      dsimp only at h
      omega
    rw [packed, length_packCell, hbits]
    exact Option.some.inj hlen
  | logical values => exact (length_packed_width length_logicalByte h).trans (hwidth hlen)
  | u8 values => exact (length_packed_width length_singleByte h).trans (hwidth hlen)
  | character values => exact (length_packed_width length_singleByte h).trans (hwidth hlen)
  | i16 values => exact (length_packed_width (fun _ => beBytes_length _ _) h).trans (hwidth hlen)
  | i32 values => exact (length_packed_width (fun _ => beBytes_length _ _) h).trans (hwidth hlen)
  | i64 values => exact (length_packed_width (fun _ => beBytes_length _ _) h).trans (hwidth hlen)
  | f32 values => exact (length_packed_width (fun _ => beBytes_length _ _) h).trans (hwidth hlen)
  | f64 values => exact (length_packed_width (fun _ => beBytes_length _ _) h).trans (hwidth hlen)
  | complexF32 values =>
    exact (length_packed_width (length_pairBytes 4) h).trans (hwidth hlen)
  | complexF64 values =>
    exact (length_packed_width (length_pairBytes 8) h).trans (hwidth hlen)

/-! ## What a layout checks -/

/-- Values in memory are counted by a word. -/
theorem ColumnData.Held.len_le {data : ColumnData} (h : data.Held) : data.len ≤ usizeMax := by
  have hword : isizeMax ≤ usizeMax := by decide
  have hsize : 0 < data.elementKind.elemSize := by cases data.elementKind <;> decide
  exact (Nat.le_mul_of_pos_right data.len hsize).trans (le_trans h hword)

/-- Elements that memory holds have a count of bytes. -/
theorem ColumnData.Held.payloadLen {data : ColumnData} (h : data.Held) {count : ℕ}
    (hcount : count ≤ data.len) : ∃ byteLen, data.elementKind.payloadLen count = some byteLen := by
  have hword : isizeMax ≤ usizeMax := by decide
  have hfits : count * data.elementKind.elemSize ≤ usizeMax :=
    (Nat.mul_le_mul_right _ hcount).trans (h.trans hword)
  unfold ElementKind.payloadLen
  split
  · exact ⟨_, rfl⟩
  · exact ⟨_, checkedMul_eq_some_iff.mpr ⟨hfits, rfl⟩⟩

namespace ColumnRows

/-- An array's end is an end. -/
theorem exists_range {rows : ColumnRows} {r : ℕ} (hr : r < rows.ends.length) :
    rows.range r = .ok (rows.span r) ∧ (rows.span r).start ≤ (rows.span r).stop ∧
      (rows.span r).stop ≤ rows.values.len := by
  have hstop : rows.ends[r]? = some rows.ends[r] := List.getElem?_eq_getElem hr
  have hlast : rows.ends[r] ≤ rows.values.len := by
    rw [← rows.filled]
    have hlast : rows.ends.getLast? = some rows.ends[rows.ends.length - 1] := by
      rw [List.getLast?_eq_getElem?, List.getElem?_eq_getElem]
    rw [hlast, Option.getD_some]
    rcases Nat.lt_or_ge r (rows.ends.length - 1) with hlt | hge
    · exact List.pairwise_iff_getElem.mp rows.rising r _ hr (by omega) hlt
    · have heq : r = rows.ends.length - 1 := by omega
      subst heq
      exact le_rfl
  unfold Ragged.range Ragged.span
  rw [load_of_getElem? hstop, hstop, Option.getD_some]
  by_cases hzero : r = 0
  · rw [if_pos hzero, if_pos hzero]
    exact ⟨rfl, Nat.zero_le _, hlast⟩
  · have hstart : rows.ends[r - 1]? = some rows.ends[r - 1] :=
      List.getElem?_eq_getElem (by omega)
    rw [if_neg hzero, if_neg hzero, load_of_getElem? hstart, hstart, Option.getD_some]
    exact ⟨rfl, List.pairwise_iff_getElem.mp rows.rising (r - 1) r (by omega) hr (by omega),
      hlast⟩

end ColumnRows

namespace WriteColumn

/-- A column that a table of `rowCount` rows takes, with cells of `rowWidth` bytes. -/
def Fits (col : WriteColumn R) (rowCount rowWidth : ℕ) : Prop :=
  match col.values with
  | .fixed data repeatCount => data.len = rowCount * repeatCount ∧ rowCount * repeatCount ≤ usizeMax ∧
      data.elementKind.payloadLen repeatCount = some rowWidth
  | .vla rows width => rows.ends.length = rowCount ∧ rowWidth = width.bytes

theorem arrayLen_of_fixed {col : WriteColumn R} {data : ColumnData} {repeatCount : ℕ}
    (h : col.values = .fixed data repeatCount) (row : ℕ) : col.arrayLen row = .ok none := by
  rw [arrayLen, h]

theorem heapArray_of_fixed {col : WriteColumn R} {data : ColumnData} {repeatCount : ℕ}
    (h : col.values = .fixed data repeatCount) (row : ℕ) : col.heapArray row = [] := by
  rw [heapArray, h]

theorem heapArray_of_vla {col : WriteColumn R} {rows : ColumnRows} {width : DescriptorWidth}
    (h : col.values = .vla rows width) (row : ℕ) :
    col.heapArray row = rows.values.packed (rows.span row).start (rows.span row).len := by
  rw [heapArray, h]

/-- An array's bytes are those its values take in memory. -/
theorem length_heapArray {col : WriteColumn R} {rows : ColumnRows} {width : DescriptorWidth}
    (h : col.values = .vla rows width) {row : ℕ} (hrow : row < rows.ends.length) :
    rows.values.elementKind.payloadLen (rows.span row).len =
      some (col.heapArray row).length := by
  obtain ⟨-, hrange, hstop⟩ := ColumnRows.exists_range hrow
  have hspan : (rows.span row).start + (rows.span row).len ≤ rows.values.len := by
    unfold Span.len
    omega
  have hheld : rows.values.Held := by
    have hheld := col.held
    rwa [h] at hheld
  have hcount : (rows.span row).len ≤ rows.values.len := by omega
  obtain ⟨byteLen, hpayload⟩ := hheld.payloadLen hcount
  rw [heapArray_of_vla h, ColumnData.length_packed hspan hpayload, hpayload]

theorem arrayLen_of_vla {col : WriteColumn R} {rows : ColumnRows} {width : DescriptorWidth}
    (h : col.values = .vla rows width) {row : ℕ} (hrow : row < rows.ends.length) :
    col.arrayLen row =
      .ok (some ⟨width, (rows.span row).len, (col.heapArray row).length⟩) := by
  have hpayload := length_heapArray h hrow
  unfold arrayLen
  rw [h]
  dsimp only
  rw [(ColumnRows.exists_range hrow).1]
  dsimp only [bind, Except.bind]
  rw [ElementKind.expectPayload, hpayload]

end WriteColumn

end FitsWell
