import FitsWell.Writer.TableLayout

/-!
# Scattering a column

A column scattered over a band's rows replaces its own cell in each of them.
-/

namespace FitsWell

open Bits Bytes Chunks

/-! ## Chunks -/

/-- A write to each of a band's rows. -/
theorem writeChunks_rows {ι : Type} {size n : ℕ} (hsize : 0 < size) {old new : ℕ → List UInt8}
    {item : ℕ → ι} {write : List UInt8 → ι → Outcome (List UInt8)}
    (hold : ∀ i < n, (old i).length = size)
    (hwrite : ∀ i < n, write (old i) (item i) = .ok (new i)) :
    writeChunks size ((List.range n).map item) write ((List.range n).flatMap old) =
      .ok ((List.range n).flatMap new) := by
  have hparts : (((List.range n).map fun i => (old i, item i)).mapM
      fun part => write part.1 part.2) = .ok ((List.range n).map new) := by
    rw [List.mapM_map]
    exact Loops.mapM_eq_map fun i hi => hwrite i (List.mem_range.mp hi)
  rw [writeChunks, if_neg (by omega), wholeChunks_flatMap hsize hold, List.zip_map', hparts]
  change Except.ok _ = _
  rw [List.length_map, List.length_range, ← length_flatMap_range hold, List.drop_length, List.append_nil,
    ← List.flatMap_def]

/-- The chunks of a run of a list. -/
theorem wholeChunks_run {α : Type} {values : List α} {first n size : ℕ} (hsize : 0 < size)
    (h : first + n * size ≤ values.length) :
    wholeChunks (size - 1) ((values.drop first).take (n * size)) =
      (List.range n).map fun i => (values.drop (first + i * size)).take size := by
  have hlength : ((values.drop first).take (n * size)).length = n * size := by
    rw [List.length_take, List.length_drop]
    omega
  rw [wholeChunks_eq_map hsize hlength]
  apply List.map_congr_left
  intro i hi
  have hend : i * size + size ≤ n * size := by
    rw [← Nat.succ_mul]
    exact Nat.mul_le_mul_right size (List.mem_range.mp hi)
  have hmin : min size (n * size - i * size) = size := by omega
  rw [chunk, List.drop_take, List.drop_drop, List.take_take, hmin]

/-! ## A column's cells -/

/-- Rows of a band: in each, `width` zeros at the cell's place. -/
structure BandRows (cells : Cells) (width : ℕ) (front back : ℕ → List UInt8) : Prop where
  front_length : ∀ i < cells.rowCount, (front i).length = cells.offset
  back_length : ∀ i < cells.rowCount, cells.offset + width + (back i).length = cells.rowLen
  fits : cells.offset + width ≤ cells.rowLen
  count : cells.rowCount * cells.repeatCount ≤ usizeMax

namespace BandRows

variable {cells : Cells} {width : ℕ} {front back : ℕ → List UInt8}

theorem row_length (h : BandRows cells width front back) {i : ℕ} (hi : i < cells.rowCount) :
    (front i ++ List.replicate width 0 ++ back i).length = cells.rowLen := by
  have hfront := h.front_length i hi
  have hback := h.back_length i hi
  rw [List.length_append, List.length_append, List.length_replicate]
  omega

/-- Values written to the rows, a cell a row. -/
theorem writeCells_rows {τ : Type} {values : List τ} {first : ℕ} {write : List UInt8 → List τ →
      Outcome (List UInt8)} {encode : List τ → List UInt8}
    (h : BandRows cells width front back) (hwidth : 0 < width) (hrepeat : 0 < cells.repeatCount)
    (hvalues : first + cells.rowCount * cells.repeatCount ≤ values.length)
    (hwrite : ∀ i < cells.rowCount, ∀ cell : List τ, cell.length = cells.repeatCount →
      write (front i ++ List.replicate width 0 ++ back i) cell =
        .ok (front i ++ encode cell ++ back i)) :
    writeChunks cells.rowLen (wholeChunks (cells.repeatCount - 1)
        ((values.drop first).take (cells.rowCount * cells.repeatCount))) write
        ((List.range cells.rowCount).flatMap fun i =>
          front i ++ List.replicate width 0 ++ back i) =
      .ok ((List.range cells.rowCount).flatMap fun i =>
        front i ++ encode ((values.drop (first + i * cells.repeatCount)).take
          cells.repeatCount) ++ back i) := by
  rw [wholeChunks_run hrepeat hvalues]
  have hfits := h.fits
  apply writeChunks_rows (by omega) (fun i hi => h.row_length hi)
  intro i hi
  apply hwrite i hi
  have hend : first + i * cells.repeatCount + cells.repeatCount ≤ values.length := by
    have hrow : i * cells.repeatCount + cells.repeatCount ≤
        cells.rowCount * cells.repeatCount := by
      rw [← Nat.succ_mul]
      exact Nat.mul_le_mul_right cells.repeatCount hi
    omega
  rw [List.length_take, List.length_drop]
  omega

theorem span_len {first count : ℕ} : Span.len ⟨first, first + count⟩ = count :=
  Nat.add_sub_cancel_left _ _

/-- Values of one size, scattered over the rows. -/
theorem scatterRange_rows {τ : Type} {values : List τ} {first size : ℕ} {encode : τ → List UInt8}
    (h : BandRows cells width front back) (hwidth : checkedMul cells.repeatCount size = some width)
    (hsize : 0 < size) (hencode : ∀ value, (encode value).length = size)
    (hvalues : first + cells.rowCount * cells.repeatCount ≤ values.length) :
    cells.scatterRange values
        ⟨first, first + cells.rowCount * cells.repeatCount⟩ size encode
        ((List.range cells.rowCount).flatMap fun i =>
          front i ++ List.replicate width 0 ++ back i) =
      .ok ((List.range cells.rowCount).flatMap fun i =>
        front i ++ ((values.drop (first + i * cells.repeatCount)).take
          cells.repeatCount).flatMap encode ++ back i) := by
  obtain ⟨hword, hmul⟩ := checkedMul_eq_some_iff.mp hwidth
  rw [Cells.scatterRange, span_len, subslice_of_le hvalues, Loops.bind_ok rfl, Cells.scatterWith,
    mulUsize_of_le hword, Loops.bind_ok rfl]
  by_cases hrepeat : cells.repeatCount = 0
  · have hzero : cells.repeatCount * size = 0 := by rw [hrepeat, Nat.zero_mul]
    rw [if_pos hzero, ← hmul, hzero]
    simp [hrepeat]
  · have hpos : 0 < cells.repeatCount * size := Nat.mul_pos (Nat.pos_of_ne_zero hrepeat) hsize
    have hlength : ((values.drop first).take
        (cells.rowCount * cells.repeatCount)).length = cells.rowCount * cells.repeatCount := by
      rw [List.length_take, List.length_drop]
      omega
    rw [if_neg (by omega), mulUsize_of_le h.count, Loops.bind_ok rfl, debugAssert, if_pos hlength,
      Loops.bind_ok rfl]
    apply h.writeCells_rows (by omega) (by omega) hvalues
    intro i hi cell hcell
    rw [hmul]
    apply copySlice_part (h.front_length i hi) List.length_replicate
    rw [length_flatMap_width hencode, hcell, Nat.mul_comm, hmul]

/-- Bits, scattered over the rows. -/
theorem scatterBits_rows {bits : List Bool} {first : ℕ} (h : BandRows cells width front back)
    (hwidth : (cells.repeatCount + 7) / 8 = width)
    (hbits : first + cells.rowCount * cells.repeatCount ≤ bits.length) :
    cells.scatterBits ((bits.drop first).take
        (cells.rowCount * cells.repeatCount))
        ((List.range cells.rowCount).flatMap fun i =>
          front i ++ List.replicate width 0 ++ back i) =
      .ok ((List.range cells.rowCount).flatMap fun i =>
        front i ++ packCell ((bits.drop (first + i * cells.repeatCount)).take
          cells.repeatCount) ++ back i) := by
  unfold Cells.scatterBits
  by_cases hrepeat : cells.repeatCount = 0
  · have hzero : width = 0 := by omega
    rw [if_pos hrepeat, hrepeat, hzero]
    simp [packCell, packBits, beBytes]
  · have hlength : ((bits.drop first).take
        (cells.rowCount * cells.repeatCount)).length = cells.rowCount * cells.repeatCount := by
      rw [List.length_take, List.length_drop]
      omega
    rw [if_neg hrepeat, mulUsize_of_le h.count, Loops.bind_ok rfl, debugAssert, if_pos hlength,
      Loops.bind_ok rfl]
    apply h.writeCells_rows (by omega) (by omega) hbits
    intro i hi cell hcell
    have hfront := h.front_length i hi
    have hslot : subslice (front i ++ List.replicate width 0 ++ back i) cells.offset width =
        .ok (List.replicate width 0) := by
      rw [subslice_of_le (by rw [h.row_length hi]; exact h.fits), ← hfront, List.append_assoc,
        List.drop_left, List.take_left' List.length_replicate]
    have hkept : cell ++ (byteBits (List.replicate width 0)).drop cell.length =
        cell ++ List.replicate (8 * ((cell.length + 7) / 8) - cell.length) false := by
      rw [byteBits_replicate_zero, List.drop_replicate, hcell, hwidth]
    dsimp only
    rw [hwidth, hslot, Loops.bind_ok rfl, hkept]
    apply copySlice_part hfront List.length_replicate
    exact (length_packCell cell).trans (by rw [hcell, hwidth])

/-- A column's cells, scattered over the rows. -/
theorem scatter_rows {data : ColumnData} {first : ℕ} (h : BandRows cells width front back)
    (hwidth : data.elementKind.payloadLen cells.repeatCount = some width)
    (hvalues : first + cells.rowCount * cells.repeatCount ≤ data.len) :
    cells.scatter data
        ⟨first, first + cells.rowCount * cells.repeatCount⟩
        ((List.range cells.rowCount).flatMap fun i =>
          front i ++ List.replicate width 0 ++ back i) =
      .ok ((List.range cells.rowCount).flatMap fun i =>
        front i ++ data.packed (first + i * cells.repeatCount) cells.repeatCount ++ back i) := by
  cases data with
  | bit bits =>
    rw [Cells.scatter, span_len, subslice_of_le hvalues, Loops.bind_ok rfl]
    exact h.scatterBits_rows (Option.some.inj hwidth) hvalues
  | logical values =>
    exact h.scatterRange_rows hwidth Nat.one_pos length_logicalByte hvalues
  | u8 values => exact h.scatterRange_rows hwidth Nat.one_pos length_singleByte hvalues
  | character values => exact h.scatterRange_rows hwidth Nat.one_pos length_singleByte hvalues
  | i16 values =>
    exact h.scatterRange_rows hwidth (by decide) (fun _ => beBytes_length _ _) hvalues
  | i32 values =>
    exact h.scatterRange_rows hwidth (by decide) (fun _ => beBytes_length _ _) hvalues
  | i64 values =>
    exact h.scatterRange_rows hwidth (by decide) (fun _ => beBytes_length _ _) hvalues
  | f32 values =>
    exact h.scatterRange_rows hwidth (by decide) (fun _ => beBytes_length _ _) hvalues
  | f64 values =>
    exact h.scatterRange_rows hwidth (by decide) (fun _ => beBytes_length _ _) hvalues
  | complexF32 values =>
    exact h.scatterRange_rows hwidth (by decide) (length_pairBytes 4) hvalues
  | complexF64 values =>
    exact h.scatterRange_rows hwidth (by decide) (length_pairBytes 8) hvalues

end BandRows

end FitsWell
