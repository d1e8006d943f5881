import FitsWell.Writer.TableBytes

/-!
# What a layout promises

A layout that is returned describes its table: the columns fit the row count and fill a row,
the heap has the length of all the arrays, and each descriptor holds the place of its own
array among them.
-/

namespace FitsWell

open Bytes

variable {R : Type}

theorem require_ok {condition : Prop} [Decidable condition] {found : Unit}
    (h : require condition = .ok found) : condition := by
  unfold require at h
  split at h
  · assumption
  · cases h

/-- A column that passes its checks fits the table. -/
theorem validateColumn_fits [RealText R] {col : WriteColumn R} {rowCount n : ℕ}
    {layout : ColumnLayout} (h : validateColumn col rowCount n = .ok layout) :
    col.Fits rowCount layout.rowWidth := by
  unfold validateColumn at h
  obtain ⟨tdimKeyword, -, h⟩ := Loops.ok_of_bind h
  obtain ⟨-, -, h⟩ := Loops.ok_of_bind h
  obtain ⟨-, -, h⟩ := Loops.ok_of_bind h
  unfold WriteColumn.Fits
  cases hvalues : col.values with
  | fixed data repeatCount =>
    rw [hvalues] at h
    dsimp only at h ⊢
    obtain ⟨_, -, h⟩ := Loops.ok_of_bind h
    obtain ⟨count, hcount, h⟩ := Loops.ok_of_bind h
    obtain ⟨_, hlen, h⟩ := Loops.ok_of_bind h
    obtain ⟨_, -, h⟩ := Loops.ok_of_bind h
    obtain ⟨_, -, h⟩ := Loops.ok_of_bind h
    obtain ⟨rowWidth, hwidth, h⟩ := Loops.ok_of_bind h
    rw [← Except.ok.inj h]
    obtain ⟨hword, rfl⟩ := mulUsize_eq_ok_iff.mp hcount
    exact ⟨require_ok hlen, hword, orOverflow_eq_ok_iff.mp hwidth⟩
  | vla rows width =>
    rw [hvalues] at h
    dsimp only at h ⊢
    obtain ⟨_, -, h⟩ := Loops.ok_of_bind h
    obtain ⟨_, hlen, h⟩ := Loops.ok_of_bind h
    obtain ⟨most, -, h⟩ := Loops.ok_of_bind h
    rw [← Except.ok.inj h]
    exact ⟨require_ok hlen, rfl⟩

/-! ## The heap -/

/-- The bytes of a cell's array. -/
def cellArray (cell : ℕ × WriteColumn R) : List UInt8 := cell.2.heapArray cell.1

/-- The descriptor of a cell whose array lies at `heapAt` holds its integers. -/
def Addressed (heapAt : ℕ) (cell : ℕ × WriteColumn R) : Prop :=
  ∀ rows width, cell.2.values = .vla rows width →
    (rows.span cell.1).len ≤ width.max ∧ heapAt ≤ width.max

/-- The arrays of `cells` fill `heapLen` bytes, and each descriptor holds its array's place. -/
def HeapLaid (cells : List (ℕ × WriteColumn R)) (heapLen : ℕ) : Prop :=
  heapLen = (cells.flatMap cellArray).length ∧
    ∀ before cell after, cells = before ++ cell :: after →
      Addressed (before.flatMap cellArray).length cell

/-- A heap that is laid, with the array of one more cell after it. -/
theorem HeapLaid.concat {cells : List (ℕ × WriteColumn R)} {heapLen : ℕ}
    (h : HeapLaid cells heapLen) {cell : ℕ × WriteColumn R} (hcell : Addressed heapLen cell) :
    HeapLaid (cells ++ [cell]) (heapLen + (cellArray cell).length) := by
  obtain ⟨rfl, haddressed⟩ := h
  refine ⟨by rw [List.flatMap_append, List.flatMap_singleton, List.length_append], ?_⟩
  intro before other after hsplit
  rcases List.eq_nil_or_concat after with rfl | ⟨front, last, rfl⟩
  · obtain ⟨rfl, hlast⟩ := List.append_inj' hsplit rfl
    rw [← (List.cons.inj hlast).1]
    exact hcell
  · rw [List.concat_eq_append, ← List.cons_append, ← List.append_assoc] at hsplit
    exact haddressed before other front (List.append_inj' hsplit rfl).1

namespace Builder

variable {builder : Builder R} {n : ℕ}

theorem heapRows_of_array {col : WriteColumn R} (hcol : col ∈ builder.columns)
    {rows : ColumnRows} {width : DescriptorWidth} (h : col.values = .vla rows width) (n : ℕ) :
    builder.heapRows n = n := by
  rw [heapRows, if_pos]
  rw [List.any_eq_true]
  exact ⟨col, hcol, by rw [WriteColumn.isArray, h]⟩

/-- Without an array column no row has an array. -/
theorem rowArrays_of_none (h : builder.columns.any WriteColumn.isArray = false) (row : ℕ) :
    rowArrays builder.columns row = [] := by
  rw [rowArrays, List.flatMap_eq_nil_iff]
  intro col hcol
  have hfixed := List.any_eq_false.mp h col hcol
  unfold WriteColumn.isArray at hfixed
  unfold WriteColumn.heapArray
  cases hvalues : col.values with
  | fixed data repeatCount => rfl
  | vla rows width =>
    rw [hvalues] at hfixed
    exact absurd rfl hfixed

/-- The arrays in heap order are the heap. -/
theorem flatMap_heapCells (n : ℕ) :
    (builder.heapCells n).flatMap cellArray = heapBytes builder.columns n := by
  rw [heapCells, heapRows, heapBytes, List.flatMap_assoc]
  split
  · congr 1
    funext row
    rw [List.flatMap_map]
    rfl
  · rename_i hnone
    have hempty : ∀ row ∈ List.range n, rowArrays builder.columns row = [] :=
      fun row _ => rowArrays_of_none (Bool.eq_false_iff.mpr hnone) row
    rw [List.flatMap_eq_nil_iff.mpr hempty]
    rfl

/-- The cells before one, in heap order. -/
theorem heapCells_split {row : ℕ} (hrow : row < n) {front back : List (WriteColumn R)}
    {col : WriteColumn R} (hcolumns : builder.columns = front ++ col :: back)
    {rows : ColumnRows} {width : DescriptorWidth} (h : col.values = .vla rows width) :
    ∃ before after, builder.heapCells n = before ++ (row, col) :: after ∧
      before.flatMap cellArray = heapBytes builder.columns row ++ rowArrays front row := by
  have hcol : col ∈ builder.columns := hcolumns ▸ List.mem_append_right _ List.mem_cons_self
  have hrange : List.range n =
      List.range row ++ row :: (List.range (n - row - 1)).map (fun k => row + (k + 1)) := by
    have hn : n = row + (n - row - 1 + 1) := by omega
    conv_lhs => rw [hn, List.range_add, List.range_succ_eq_map, List.map_cons, List.map_map]
    rfl
  refine ⟨(List.range row).flatMap (fun r => builder.columns.map fun col => (r, col)) ++
    front.map (fun col => (row, col)), back.map (fun col => (row, col)) ++
      ((List.range (n - row - 1)).map fun k => row + (k + 1)).flatMap
        (fun r => builder.columns.map fun col => (r, col)), ?_, ?_⟩
  · rw [heapCells, heapRows_of_array hcol h, hrange, List.flatMap_append, List.flatMap_cons]
    have hcells : (builder.columns.map fun col => (row, col)) =
        front.map (fun col => (row, col)) ++ (row, col) :: back.map fun col => (row, col) := by
      rw [hcolumns, List.map_append, List.map_cons]
    rw [hcells]
    simp only [List.append_assoc, List.cons_append]
  · rw [List.flatMap_append, List.flatMap_assoc, List.flatMap_map, heapBytes]
    congr 1
    congr 1
    funext r
    rw [List.flatMap_map]
    rfl

theorem mem_heapCells {cell : ℕ × WriteColumn R} (h : cell ∈ builder.heapCells n) :
    cell.1 < n ∧ cell.2 ∈ builder.columns := by
  obtain ⟨row, hrow, hcell⟩ := List.mem_flatMap.mp h
  obtain ⟨col, hcol, rfl⟩ := List.mem_map.mp hcell
  refine ⟨?_, hcol⟩
  unfold heapRows at hrow
  split at hrow
  · exact List.mem_range.mp hrow
  · exact absurd hrow (by simp)

/-- The heap grows by a cell's array, which its descriptor addresses. -/
theorem addArray_eq_ok {heapLen heapLen' rowWidth : ℕ} {cell : ℕ × WriteColumn R}
    (hfits : cell.2.Fits n rowWidth) (hrow : cell.1 < n)
    (h : addArray heapLen cell = .ok heapLen') :
    heapLen' = heapLen + (cellArray cell).length ∧ Addressed heapLen cell := by
  obtain ⟨found, hfound, h⟩ := Loops.ok_of_bind h
  unfold WriteColumn.Fits at hfits
  cases hvalues : cell.2.values with
  | fixed data repeatCount =>
    obtain rfl := Except.ok.inj ((WriteColumn.arrayLen_of_fixed hvalues cell.1).symm.trans hfound)
    rw [cellArray, WriteColumn.heapArray_of_fixed hvalues]
    refine ⟨(Except.ok.inj h).symm, fun rows width harray => ?_⟩
    rw [hvalues] at harray
    cases harray
  | vla rows width =>
    rw [hvalues] at hfits
    have harray := WriteColumn.arrayLen_of_vla hvalues (hfits.1.symm ▸ hrow)
    obtain rfl := Except.ok.inj (harray.symm.trans hfound)
    obtain ⟨_, hencode, hadd⟩ := Loops.ok_of_bind h
    refine ⟨(checkedAdd_eq_some_iff.mp (orOverflow_eq_ok_iff.mp hadd)).2.symm, ?_⟩
    intro rows' width' harray'
    obtain ⟨rfl, rfl⟩ := WriteColumnData.vla.inj (hvalues.symm.trans harray')
    unfold PqDescriptor.encode at hencode
    split at hencode
    · assumption
    · cases hencode

/-- The walk over the arrays lays the heap. -/
theorem foldlM_addArray {heapLen : ℕ}
    (hfits : ∀ col ∈ builder.columns, ∃ rowWidth, col.Fits n rowWidth)
    (h : (builder.heapCells n).foldlM addArray 0 = .ok heapLen) :
    HeapLaid (builder.heapCells n) heapLen := by
  apply Loops.foldlM_partial (P := HeapLaid) ⟨rfl, by simp⟩ ?_ h
  intro done cell todo hcells s s' hdone hstep
  have hcell := mem_heapCells (hcells ▸ List.mem_append_right done List.mem_cons_self)
  obtain ⟨rowWidth, hcol⟩ := hfits cell.2 hcell.2
  obtain ⟨rfl, haddressed⟩ := addArray_eq_ok hcol hcell.1 hstep
  exact hdone.concat haddressed

/-! ## The layout -/

/-- A column that passes its checks goes after those before it. -/
theorem foldlM_addColumn [RealText R] {columns : List (WriteColumn R)} {laid : ℕ × List ColumnLayout}
    (h : columns.zipIdx.foldlM (addColumn n) (0, []) = .ok laid) :
    laid.2.length = columns.length ∧ laid.1 = (laid.2.map ColumnLayout.rowWidth).sum ∧
      ∀ column ∈ columns.zip laid.2, column.1.Fits n column.2.rowWidth := by
  have hrun : laid.2.length = columns.zipIdx.length ∧
      laid.1 = (laid.2.map ColumnLayout.rowWidth).sum ∧
      ∀ column ∈ (columns.zipIdx.map Prod.fst).zip laid.2,
        column.1.Fits n column.2.rowWidth := by
    apply Loops.foldlM_partial (P := fun (done : List (WriteColumn R × ℕ))
      (s : ℕ × List ColumnLayout) => s.2.length = done.length ∧
        s.1 = (s.2.map ColumnLayout.rowWidth).sum ∧
        ∀ column ∈ (done.map Prod.fst).zip s.2, column.1.Fits n column.2.rowWidth)
      ⟨rfl, rfl, by simp⟩ ?_ h
    rintro done entry todo - s s' ⟨hlength, hsum, hfits⟩ hstep
    obtain ⟨column, hcolumn, hstep⟩ := Loops.ok_of_bind hstep
    obtain ⟨rowLen, hrowLen, hstep⟩ := Loops.ok_of_bind hstep
    rw [← Except.ok.inj hstep]
    refine ⟨by simp [hlength], ?_, ?_⟩
    · rw [← (checkedAdd_eq_some_iff.mp (orOverflow_eq_ok_iff.mp hrowLen)).2, hsum]
      simp
    · rw [List.map_append, List.zip_append (by rw [List.length_map, hlength])]
      intro other hother
      rcases List.mem_append.mp hother with hbefore | hlast
      · exact hfits other hbefore
      · rw [List.map_singleton, List.zip_cons_cons, List.zip_nil_left,
          List.mem_singleton] at hlast
        rw [hlast]
        exact validateColumn_fits hcolumn
  rw [List.zipIdx_map_fst, List.length_zipIdx] at hrun
  exact hrun

end Builder

/-- A layout that describes the table of a builder. -/
structure TableLayout.Describes (layout : TableLayout) (builder : Builder R) : Prop where
  rows : layout.rowCount < 2 ^ 63
  columns : layout.columns.length = builder.columns.length
  fits : ∀ column ∈ builder.laidColumns layout, column.1.Fits layout.rowCount column.2.rowWidth
  rowLen : layout.rowLen = (layout.columns.map ColumnLayout.rowWidth).sum
  rowWord : layout.rowLen < 2 ^ 63
  heapWord : layout.heapLen < 2 ^ 63
  heap : HeapLaid (builder.heapCells layout.rowCount) layout.heapLen

theorem fitsI64_lt {value : ℕ} {found : ℤ} (h : fitsI64 value = .ok found) : value < 2 ^ 63 := by
  unfold fitsI64 at h
  split at h
  · assumption
  · cases h

/-- A builder's layout describes its table. -/
theorem Builder.layout_describes [RealText R] {builder : Builder R} {layout : TableLayout}
    (h : builder.layout = .ok layout) : layout.Describes builder := by
  obtain ⟨_, -, h⟩ := Loops.ok_of_bind h
  obtain ⟨_, hrows, h⟩ := Loops.ok_of_bind h
  obtain ⟨laid, hlaid, h⟩ := Loops.ok_of_bind h
  obtain ⟨_, hrowWord, h⟩ := Loops.ok_of_bind h
  obtain ⟨heapLen, hheap, h⟩ := Loops.ok_of_bind h
  obtain ⟨_, hheapWord, h⟩ := Loops.ok_of_bind h
  obtain ⟨hlength, hsum, hfits⟩ := Builder.foldlM_addColumn hlaid
  rw [← Except.ok.inj h]
  refine ⟨fitsI64_lt hrows, hlength, hfits, hsum, fitsI64_lt hrowWord, fitsI64_lt hheapWord, ?_⟩
  apply Builder.foldlM_addArray _ hheap
  intro col hcol
  obtain ⟨i, hi, rfl⟩ := List.getElem_of_mem hcol
  have hi' : i < laid.2.length := hlength ▸ hi
  refine ⟨laid.2[i].rowWidth, hfits (builder.columns[i], laid.2[i]) ?_⟩
  rw [← List.getElem_zip (h := by simp [hlength, hi])]
  exact List.getElem_mem _

end FitsWell
