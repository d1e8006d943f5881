import FitsWell.Writer.TableRows

/-!
# The rows of a band

A band is encoded in two passes: the fixed-width columns are scattered over its rows, and the
descriptors are then written into each row in turn. Where the heap's next array lies is carried
from row to row and from band to band.
-/

namespace FitsWell

open Bits Bytes Chunks

variable {R : Type} {builder : Builder R} {layout : TableLayout}

/-! ## The columns passed -/

/-- A column with its layout. -/
abbrev LaidColumn (R : Type) : Type := WriteColumn R × ColumnLayout

/-- The width of a row's cells up to the columns passed. -/
def passedWidth (done : List (LaidColumn R)) : ℕ := (done.map fun column => column.2.rowWidth).sum

/-- A column's cell once the fixed-width columns are scattered: an array's holds zeros yet. -/
def scatteredCell (row : ℕ) (column : LaidColumn R) : List UInt8 :=
  match column.1.values with
  | .fixed data repeatCount => data.packed (row * repeatCount) repeatCount
  | .vla _ _ => List.replicate column.2.rowWidth 0

theorem passedWidth_concat (done : List (LaidColumn R)) (column : LaidColumn R) :
    passedWidth (done ++ [column]) = passedWidth done + column.2.rowWidth := by
  simp [passedWidth]

theorem length_scatteredCell {row n : ℕ} {column : LaidColumn R}
    (hfits : column.1.Fits n column.2.rowWidth) (hrow : row < n) :
    (scatteredCell row column).length = column.2.rowWidth := by
  unfold WriteColumn.Fits at hfits
  unfold scatteredCell
  cases hvalues : column.1.values with
  | vla rows width => exact List.length_replicate
  | fixed data repeatCount =>
    rw [hvalues] at hfits
    obtain ⟨hlen, -, hwidth⟩ := hfits
    apply ColumnData.length_packed _ hwidth
    rw [hlen, ← Nat.succ_mul]
    exact Nat.mul_le_mul_right repeatCount hrow

theorem length_scattered {row n : ℕ} {columns : List (LaidColumn R)}
    (hfits : ∀ column ∈ columns, column.1.Fits n column.2.rowWidth) (hrow : row < n) :
    (columns.flatMap (scatteredCell row)).length = passedWidth columns := by
  induction columns with
  | nil => rfl
  | cons column columns ih =>
    rw [List.flatMap_cons, List.length_append,
      length_scatteredCell (hfits column List.mem_cons_self) hrow,
      ih fun other hother => hfits other (List.mem_cons_of_mem column hother), passedWidth,
      passedWidth, List.map_cons, List.sum_cons]

namespace TableLayout.Describes

variable (h : layout.Describes builder)

include h

theorem map_fst : (builder.laidColumns layout).map Prod.fst = builder.columns :=
  List.map_fst_zip h.columns.ge

theorem passedWidth_eq : passedWidth (builder.laidColumns layout) = layout.rowLen := by
  have hsnd : (builder.laidColumns layout).map Prod.snd = layout.columns :=
    List.map_snd_zip h.columns.le
  rw [h.rowLen, ← hsnd, List.map_map]
  rfl

/-- The columns passed are no wider than a row. -/
theorem passedWidth_le {done todo : List (LaidColumn R)}
    (hsplit : builder.laidColumns layout = done ++ todo) : passedWidth done ≤ layout.rowLen := by
  rw [← h.passedWidth_eq, hsplit, passedWidth, passedWidth, List.map_append, List.sum_append]
  exact Nat.le_add_right _ _

theorem fits_of_split {done todo : List (LaidColumn R)} {column : LaidColumn R}
    (hsplit : builder.laidColumns layout = done ++ column :: todo) :
    column.1.Fits layout.rowCount column.2.rowWidth :=
  h.fits column (hsplit ▸ List.mem_append_right done List.mem_cons_self)

end TableLayout.Describes

/-! ## Scattering -/

/-- The band of `n` rows from `start` on once the columns of `done` are passed. -/
def scatteredBand (rowLen start n : ℕ) (done : List (LaidColumn R)) : BandPass where
  offset := passedWidth done
  chunk := (List.range n).flatMap fun i =>
    done.flatMap (scatteredCell (start + i)) ++ List.replicate (rowLen - passedWidth done) 0

theorem replicate_rows (n rowLen : ℕ) :
    List.replicate (n * rowLen) (0 : UInt8) =
      (List.range n).flatMap fun _ => List.replicate rowLen 0 := by
  induction n with
  | zero => rw [Nat.zero_mul, List.range_zero, List.flatMap_nil, List.replicate_zero]
  | succ n ih =>
    rw [List.range_succ, List.flatMap_append, List.flatMap_singleton, ← ih,
      List.replicate_append_replicate, Nat.succ_mul]

/-- A column passed is scattered over the rows, or leaves zeros for its descriptors. -/
theorem scatterColumn_eq {rowLen start n rowCount : ℕ} {done : List (LaidColumn R)}
    {column : LaidColumn R} (hdone : ∀ other ∈ done, other.1.Fits rowCount other.2.rowWidth)
    (hfits : column.1.Fits rowCount column.2.rowWidth) (hrows : start + n ≤ rowCount)
    (hwidth : passedWidth done + column.2.rowWidth ≤ rowLen) (hword : rowLen ≤ usizeMax) :
    scatterColumn rowLen start (start + n) (scatteredBand rowLen start n done) column =
      .ok (scatteredBand rowLen start n (done ++ [column])) := by
  have hrest : rowLen - passedWidth done =
      column.2.rowWidth + (rowLen - (passedWidth done + column.2.rowWidth)) := by omega
  have hoffset : (scatteredBand rowLen start n done).offset = passedWidth done := rfl
  have hstop : addUsize (passedWidth done) column.2.rowWidth =
      .ok (passedWidth done + column.2.rowWidth) := addUsize_of_le (hwidth.trans hword)
  have hband : (scatteredBand rowLen start n done).chunk =
      (List.range n).flatMap fun i => done.flatMap (scatteredCell (start + i)) ++
        List.replicate column.2.rowWidth 0 ++
        List.replicate (rowLen - (passedWidth done + column.2.rowWidth)) 0 := by
    rw [scatteredBand, hrest]
    simp only [List.append_assoc, List.replicate_append_replicate]
  have hnew : (scatteredBand rowLen start n (done ++ [column])) =
      ⟨passedWidth done + column.2.rowWidth,
        (List.range n).flatMap fun i => done.flatMap (scatteredCell (start + i)) ++
          scatteredCell (start + i) column ++
          List.replicate (rowLen - (passedWidth done + column.2.rowWidth)) 0⟩ := by
    rw [scatteredBand, passedWidth_concat]
    simp only [List.flatMap_append, List.flatMap_singleton]
  rw [scatterColumn, hnew, hoffset]
  have hfits' := hfits
  unfold WriteColumn.Fits at hfits'
  cases hvalues : column.1.values with
  | vla rows width =>
    simp only [scatteredCell, hvalues]
    rw [← hband]
    exact Loops.bind_ok hstop
  | fixed data repeatCount =>
    rw [hvalues] at hfits'
    obtain ⟨hlen, hcount, hpayload⟩ := hfits'
    have hlast : (start + n) * repeatCount ≤ rowCount * repeatCount :=
      Nat.mul_le_mul_right repeatCount hrows
    have hfirst : start * repeatCount ≤ (start + n) * repeatCount :=
      Nat.mul_le_mul_right repeatCount (Nat.le_add_right start n)
    have hcells : n * repeatCount ≤ (start + n) * repeatCount :=
      Nat.mul_le_mul_right repeatCount (Nat.le_add_left n start)
    have hrows' : BandRows ⟨rowLen, passedWidth done, n, repeatCount⟩ column.2.rowWidth
        (fun i => done.flatMap (scatteredCell (start + i)))
        (fun _ => List.replicate (rowLen - (passedWidth done + column.2.rowWidth)) 0) :=
      { front_length := fun i hi => length_scattered hdone (by dsimp only at hi; omega)
        back_length := fun i _ => by
          rw [List.length_replicate]
          dsimp only
          omega
        fits := hwidth
        count := by dsimp only; omega }
    have hrun : start * repeatCount + n * repeatCount = (start + n) * repeatCount :=
      (Nat.add_mul start n repeatCount).symm
    have hscatter := hrows'.scatter_rows hpayload (hrun.trans_le (hlast.trans hlen.ge))
    dsimp only at hscatter ⊢
    simp only [← Nat.add_mul] at hscatter
    rw [Nat.add_sub_cancel_left, mulUsize_of_le (by omega), Loops.bind_ok rfl,
      mulUsize_of_le (by omega), Loops.bind_ok rfl, hband, Loops.bind_ok hscatter]
    simp only [scatteredCell, hvalues]
    exact Loops.bind_ok hstop

namespace TableLayout.Describes

variable (h : layout.Describes builder)

include h

/-- Each of the band's rows holds every column's cell. -/
theorem scatterColumns_eq {start n : ℕ} (hrows : start + n ≤ layout.rowCount) :
    (builder.laidColumns layout).foldlM (scatterColumn layout.rowLen start (start + n))
        ⟨0, List.replicate (n * layout.rowLen) 0⟩ =
      .ok ⟨layout.rowLen, (List.range n).flatMap fun i =>
        (builder.laidColumns layout).flatMap (scatteredCell (start + i))⟩ := by
  have hword : layout.rowLen ≤ usizeMax := by
    have hrowWord := h.rowWord
    unfold usizeMax
    omega
  have hstart : (⟨0, List.replicate (n * layout.rowLen) 0⟩ : BandPass) =
      scatteredBand layout.rowLen start n ([] : List (LaidColumn R)) := by
    rw [replicate_rows]
    rfl
  have hrun : ∃ pass, (builder.laidColumns layout).foldlM
      (scatterColumn layout.rowLen start (start + n)) ⟨0, List.replicate (n * layout.rowLen) 0⟩ =
        .ok pass ∧ pass = scatteredBand layout.rowLen start n (builder.laidColumns layout) := by
    apply Loops.foldlM_total (P := fun (done : List (LaidColumn R)) (pass : BandPass) =>
      pass = scatteredBand layout.rowLen start n done) hstart
    rintro done column todo hsplit pass rfl
    refine ⟨_, ?_, rfl⟩
    apply scatterColumn_eq _ (h.fits_of_split hsplit) hrows _ hword
    · intro other hother
      exact h.fits other (hsplit ▸ List.mem_append_left _ hother)
    · rw [← passedWidth_concat]
      rw [List.append_cons] at hsplit
      exact h.passedWidth_le hsplit
  obtain ⟨pass, hok, rfl⟩ := hrun
  rw [hok, scatteredBand, h.passedWidth_eq, Nat.sub_self]
  simp only [List.replicate_zero, List.append_nil]

omit h in
/-- A cell of the rows passed so far is of a column passed. -/
theorem columns_split (h : layout.Describes builder) {done todo : List (LaidColumn R)}
    {column : LaidColumn R} (hsplit : builder.laidColumns layout = done ++ column :: todo) :
    builder.columns = done.map Prod.fst ++ column.1 :: todo.map Prod.fst := by
  rw [← h.map_fst, hsplit, List.map_append, List.map_cons]

/-- An array's descriptor holds its count and its place, and the array ends inside the heap. -/
theorem array {row : ℕ} (hrow : row < layout.rowCount) {front back : List (WriteColumn R)}
    {col : WriteColumn R} (hcolumns : builder.columns = front ++ col :: back)
    {rows : ColumnRows} {width : DescriptorWidth} (hvalues : col.values = .vla rows width)
    {heapAt : ℕ} (hheapAt : heapAt = (heapBytes builder.columns row).length +
      (rowArrays front row).length) :
    ((rows.span row).len ≤ width.max ∧ heapAt ≤ width.max) ∧
      heapAt + (col.heapArray row).length ≤ layout.heapLen := by
  obtain ⟨before, after, hcells, hbefore⟩ :=
    Builder.heapCells_split (n := layout.rowCount) hrow hcolumns hvalues
  obtain ⟨hlen, haddressed⟩ := h.heap
  have hplace : heapAt = (before.flatMap cellArray).length := by
    rw [hbefore, List.length_append, hheapAt]
  have hcell := haddressed before (row, col) after hcells rows width hvalues
  rw [← hplace] at hcell
  refine ⟨hcell, ?_⟩
  rw [hlen, hcells, List.flatMap_append, List.flatMap_cons, List.length_append,
    List.length_append, hplace, cellArray]
  dsimp only
  omega

end TableLayout.Describes

/-! ## Descriptors -/

/-- Row `row` once the descriptors of the columns of `done` are written: those after them hold
zeros yet. -/
def descriptorRow (row heapAt : ℕ) (done todo : List (LaidColumn R)) : DescriptorPass where
  place := passedWidth done
  heapAt := heapAt + (rowArrays (done.map Prod.fst) row).length
  cells := rowBytes row heapAt (done.map Prod.fst) ++ todo.flatMap (scatteredCell row)

/-- The row with one more column's cell written. -/
theorem descriptorRow_concat (row heapAt : ℕ) (done todo : List (LaidColumn R))
    (column : LaidColumn R) :
    descriptorRow row heapAt (done ++ [column]) todo =
      { place := passedWidth done + column.2.rowWidth
        heapAt := heapAt + (rowArrays (done.map Prod.fst) row).length +
          (column.1.heapArray row).length
        cells := rowBytes row heapAt (done.map Prod.fst) ++
          column.1.cellBytes row (heapAt + (rowArrays (done.map Prod.fst) row).length) ++
          todo.flatMap (scatteredCell row) } := by
  have harrays : rowArrays ((done ++ [column]).map Prod.fst) row =
      rowArrays (done.map Prod.fst) row ++ column.1.heapArray row := by
    simp [rowArrays]
  rw [descriptorRow, passedWidth_concat, harrays, List.map_append, List.map_singleton,
    rowBytes_append, rowBytes, rowBytes, List.append_nil, List.length_append, Nat.add_assoc]

theorem length_cellBytes {row n heapAt rowWidth : ℕ} {col : WriteColumn R}
    (hfits : col.Fits n rowWidth) (hrow : row < n) :
    (col.cellBytes row heapAt).length = rowWidth := by
  unfold WriteColumn.Fits at hfits
  unfold WriteColumn.cellBytes
  cases hvalues : col.values with
  | vla rows width =>
    rw [hvalues] at hfits
    exact (length_descriptorBytes _ _ _).trans hfits.2.symm
  | fixed data repeatCount =>
    rw [hvalues] at hfits
    obtain ⟨hlen, -, hwidth⟩ := hfits
    apply ColumnData.length_packed _ hwidth
    rw [hlen, ← Nat.succ_mul]
    exact Nat.mul_le_mul_right repeatCount hrow

theorem length_rowBytes {row n heapAt : ℕ} {columns : List (LaidColumn R)}
    (hfits : ∀ column ∈ columns, column.1.Fits n column.2.rowWidth) (hrow : row < n) :
    (rowBytes row heapAt (columns.map Prod.fst)).length = passedWidth columns := by
  induction columns generalizing heapAt with
  | nil => rfl
  | cons column columns ih =>
    rw [List.map_cons, rowBytes, List.length_append,
      length_cellBytes (hfits column List.mem_cons_self) hrow,
      ih fun other hother => hfits other (List.mem_cons_of_mem column hother), passedWidth,
      passedWidth, List.map_cons, List.sum_cons]

namespace TableLayout.Describes

variable (h : layout.Describes builder)

include h

/-- A column's descriptor is written where it has arrays. -/
theorem writeDescriptor_eq {row : ℕ} (hrow : row < layout.rowCount)
    {done todo : List (LaidColumn R)} {column : LaidColumn R}
    (hsplit : builder.laidColumns layout = done ++ column :: todo) :
    writeDescriptor row
        (descriptorRow row (heapBytes builder.columns row).length done (column :: todo)) column =
      .ok (descriptorRow row (heapBytes builder.columns row).length (done ++ [column]) todo) := by
  have hfits := h.fits_of_split hsplit
  have hdone : ∀ other ∈ done, other.1.Fits layout.rowCount other.2.rowWidth :=
    fun other hother => h.fits other (hsplit ▸ List.mem_append_left _ hother)
  have hpassed : passedWidth done + column.2.rowWidth ≤ layout.rowLen := by
    rw [← passedWidth_concat]
    exact h.passedWidth_le ((List.append_cons done column todo) ▸ hsplit)
  have hstop : addUsize (passedWidth done) column.2.rowWidth =
      .ok (passedWidth done + column.2.rowWidth) := by
    have hrowWord := h.rowWord
    apply addUsize_of_le
    unfold usizeMax
    omega
  have hfits' := hfits
  unfold WriteColumn.Fits at hfits'
  unfold writeDescriptor
  have hpass : descriptorRow row (heapBytes builder.columns row).length done (column :: todo) =
      { place := passedWidth done
        heapAt := (heapBytes builder.columns row).length +
          (rowArrays (done.map Prod.fst) row).length
        cells := rowBytes row (heapBytes builder.columns row).length (done.map Prod.fst) ++
          scatteredCell row column ++ todo.flatMap (scatteredCell row) } := by
    rw [descriptorRow, List.flatMap_cons, List.append_assoc]
  rw [descriptorRow_concat, hpass, hstop, Loops.bind_ok rfl]
  cases hvalues : column.1.values with
  | fixed data repeatCount =>
    rw [WriteColumn.arrayLen_of_fixed hvalues, Loops.bind_ok rfl,
      WriteColumn.heapArray_of_fixed hvalues]
    dsimp only
    rw [scatteredCell, WriteColumn.cellBytes, hvalues]
    rfl
  | vla rows width =>
    rw [hvalues] at hfits'
    obtain ⟨hrows, hwidth⟩ := hfits'
    obtain ⟨haddressed, hend⟩ := h.array hrow (h.columns_split hsplit) hvalues rfl
    have hscattered : scatteredCell row column = List.replicate width.bytes 0 := by
      rw [scatteredCell, hvalues, hwidth]
    have hfront : (rowBytes row (heapBytes builder.columns row).length
        (done.map Prod.fst)).length = passedWidth done := length_rowBytes hdone hrow
    have hslot : subslice (rowBytes row (heapBytes builder.columns row).length
        (done.map Prod.fst) ++ List.replicate width.bytes 0 ++ todo.flatMap (scatteredCell row))
        (passedWidth done) width.bytes = .ok (List.replicate width.bytes 0) := by
      rw [subslice_of_le, ← hfront, List.append_assoc, List.drop_left,
        List.take_left' List.length_replicate]
      rw [List.length_append, List.length_append, hfront, List.length_replicate]
      omega
    have hheap : addUsize ((heapBytes builder.columns row).length +
        (rowArrays (done.map Prod.fst) row).length) (column.1.heapArray row).length =
          .ok ((heapBytes builder.columns row).length +
            (rowArrays (done.map Prod.fst) row).length + (column.1.heapArray row).length) := by
      have hheapWord := h.heapWord
      apply addUsize_of_le
      unfold usizeMax
      omega
    rw [WriteColumn.arrayLen_of_vla hvalues (hrows.symm ▸ hrow), Loops.bind_ok rfl, hscattered]
    dsimp only
    rw [hwidth, hslot, Loops.bind_ok rfl, debugAssert, if_pos List.length_replicate,
      Loops.bind_ok rfl, PqDescriptor.write, encode_descriptor haddressed, Loops.bind_ok rfl,
      copySlice_part hfront List.length_replicate
        (length_descriptorBytes width _ _), Loops.bind_ok rfl, hheap, Loops.bind_ok rfl,
      WriteColumn.cellBytes, hvalues]

/-- A row's descriptors are written, and the heap's next array is the next row's first. -/
theorem writeRow_eq {row : ℕ} (hrow : row < layout.rowCount) (done : List (List UInt8)) :
    builder.writeRow layout ((heapBytes builder.columns row).length, done)
        (row, (builder.laidColumns layout).flatMap (scatteredCell row)) =
      .ok ((heapBytes builder.columns (row + 1)).length,
        done ++ [rowBytes row (heapBytes builder.columns row).length builder.columns]) := by
  have hrun : ∃ pass, (builder.laidColumns layout).foldlM (writeDescriptor row)
      ⟨0, (heapBytes builder.columns row).length,
        (builder.laidColumns layout).flatMap (scatteredCell row)⟩ = .ok pass ∧
      pass = descriptorRow row (heapBytes builder.columns row).length
        (builder.laidColumns layout) [] := by
    have hdrop : (builder.laidColumns layout).drop (builder.laidColumns layout).length = [] :=
      List.drop_length
    rw [← hdrop]
    apply Loops.foldlM_total (P := fun (done : List (LaidColumn R)) (pass : DescriptorPass) =>
      pass = descriptorRow row (heapBytes builder.columns row).length done
        ((builder.laidColumns layout).drop done.length))
    · rfl
    · rintro done column todo hsplit pass rfl
      have hnow : (builder.laidColumns layout).drop done.length = column :: todo := by
        rw [hsplit, List.drop_left]
      have hnext : (builder.laidColumns layout).drop (done ++ [column]).length = todo := by
        rw [hsplit, List.append_cons done column todo, List.drop_left]
      rw [hnow, hnext]
      exact ⟨_, h.writeDescriptor_eq hrow hsplit, rfl⟩
  obtain ⟨pass, hok, rfl⟩ := hrun
  rw [Builder.writeRow, hok, Loops.bind_ok rfl, descriptorRow, h.map_fst, List.flatMap_nil,
    List.append_nil, heapBytes_succ, List.length_append]

/-- The rows of a band, each with the place of its arrays in the heap. -/
theorem writeDescriptors_eq {start n : ℕ} (hrows : start + n ≤ layout.rowCount)
    (hlen : 0 < layout.rowLen) :
    builder.writeDescriptors layout start (start + n) (heapBytes builder.columns start).length
        ((List.range n).flatMap fun i =>
          (builder.laidColumns layout).flatMap (scatteredCell (start + i))) =
      .ok ((heapBytes builder.columns (start + n)).length, (List.range n).flatMap fun i =>
        rowBytes (start + i) (heapBytes builder.columns (start + i)).length builder.columns) := by
  have hlength : ∀ i < n, ((builder.laidColumns layout).flatMap
      (scatteredCell (start + i))).length = layout.rowLen := by
    intro i hi
    rw [length_scattered h.fits (show start + i < layout.rowCount by omega), h.passedWidth_eq]
  have hrun : ∃ state, (List.range n).foldlM (fun state i => builder.writeRow layout state
      (start + i, (builder.laidColumns layout).flatMap (scatteredCell (start + i))))
        ((heapBytes builder.columns start).length, []) = .ok state ∧
      state = ((heapBytes builder.columns (start + n)).length, (List.range n).map fun i =>
        rowBytes (start + i) (heapBytes builder.columns (start + i)).length builder.columns) := by
    apply Loops.range_total (P := fun k (state : ℕ × List (List UInt8)) =>
      state = ((heapBytes builder.columns (start + k)).length, (List.range k).map fun i =>
        rowBytes (start + i) (heapBytes builder.columns (start + i)).length builder.columns)) rfl
    rintro k hk state rfl
    refine ⟨_, h.writeRow_eq (by omega) _, ?_⟩
    rw [List.range_succ, List.map_append, List.map_singleton, Nat.add_assoc]
  obtain ⟨state, hok, rfl⟩ := hrun
  have hrows' : (List.range' start n).zip (wholeChunks (layout.rowLen - 1)
      ((List.range n).flatMap fun i =>
        (builder.laidColumns layout).flatMap (scatteredCell (start + i)))) =
      (List.range n).map fun i =>
        (start + i, (builder.laidColumns layout).flatMap (scatteredCell (start + i))) := by
    rw [wholeChunks_flatMap hlen hlength, List.range'_eq_map_range, List.zip_map']
  rw [Builder.writeDescriptors, if_neg (by omega), Nat.add_sub_cancel_left, hrows']
  dsimp only
  rw [List.foldlM_map, hok, Loops.bind_ok rfl]
  dsimp only
  rw [List.length_map, List.length_range, ← length_flatMap_range hlength, List.drop_length,
    List.append_nil, ← List.flatMap_def]

/-- A row with a descriptor has bytes. -/
theorem rowLen_pos (harrays : builder.columns.any WriteColumn.isArray = true) :
    0 < layout.rowLen := by
  obtain ⟨col, hcol, harray⟩ := List.any_eq_true.mp harrays
  rw [← h.map_fst] at hcol
  obtain ⟨column, hcolumn, rfl⟩ := List.mem_map.mp hcol
  have hfits := h.fits column hcolumn
  obtain ⟨done, todo, hsplit⟩ := List.append_of_mem hcolumn
  have hpassed := h.passedWidth_le ((List.append_cons done column todo) ▸ hsplit)
  rw [passedWidth_concat] at hpassed
  unfold WriteColumn.isArray at harray
  unfold WriteColumn.Fits at hfits
  cases hvalues : column.1.values with
  | fixed data repeatCount =>
    rw [hvalues] at harray
    cases harray
  | vla rows width =>
    rw [hvalues] at hfits
    have hbytes : 0 < width.bytes := by cases width <;> decide
    omega

end TableLayout.Describes

/-- Without an array column the cells are those that were scattered. -/
theorem rowBytes_of_none {columns : List (LaidColumn R)}
    (h : (columns.map Prod.fst).any WriteColumn.isArray = false) (row heapAt : ℕ) :
    rowBytes row heapAt (columns.map Prod.fst) = columns.flatMap (scatteredCell row) := by
  induction columns generalizing heapAt with
  | nil => rfl
  | cons column columns ih =>
    rw [List.map_cons, List.any_cons, Bool.or_eq_false_iff] at h
    have hcell : column.1.cellBytes row heapAt = scatteredCell row column := by
      have hfixed := h.1
      unfold WriteColumn.isArray at hfixed
      unfold WriteColumn.cellBytes scatteredCell
      cases hvalues : column.1.values with
      | fixed data repeatCount => rfl
      | vla rows width =>
        rw [hvalues] at hfixed
        cases hfixed
    rw [List.map_cons, rowBytes, List.flatMap_cons, hcell, ih h.2]

theorem heapBytes_of_none (h : builder.columns.any WriteColumn.isArray = false) (n : ℕ) :
    heapBytes builder.columns n = [] :=
  List.flatMap_eq_nil_iff.mpr fun row _ => Builder.rowArrays_of_none h row

namespace TableLayout.Describes

variable (h : layout.Describes builder)

include h

/-- A band's bytes are its rows, and the heap's next array is the next row's first. -/
theorem encodeBand_eq {start n : ℕ} (hrows : start + n ≤ layout.rowCount) (hn : 0 < n)
    (hword : n * layout.rowLen ≤ usizeMax) :
    builder.encodeBand layout (heapBytes builder.columns start).length start (start + n) =
      .ok ((heapBytes builder.columns (start + n)).length, (List.range n).flatMap fun i =>
        rowBytes (start + i) (heapBytes builder.columns (start + i)).length builder.columns) := by
  rw [Builder.encodeBand, Nat.add_sub_cancel_left, mulUsize_of_le hword, Loops.bind_ok rfl,
    h.scatterColumns_eq hrows, Loops.bind_ok rfl, Builder.heapRows]
  cases harrays : builder.columns.any WriteColumn.isArray with
  | true =>
    rw [if_pos rfl, if_pos (by omega)]
    exact h.writeDescriptors_eq hrows (h.rowLen_pos harrays)
  | false =>
    rw [if_neg Bool.false_ne_true, if_neg (Nat.lt_irrefl 0), heapBytes_of_none harrays,
      heapBytes_of_none harrays]
    have hcells : ∀ row, (builder.laidColumns layout).flatMap (scatteredCell row) =
        rowBytes row (heapBytes builder.columns row).length builder.columns := by
      intro row
      have hnone : ((builder.laidColumns layout).map Prod.fst).any WriteColumn.isArray = false := by
        rw [h.map_fst, harrays]
      rw [← rowBytes_of_none hnone row (heapBytes builder.columns row).length, h.map_fst]
    simp only [hcells]

end TableLayout.Describes

end FitsWell
