import FitsWell.Writer.TableBands

/-!
# The chunks of a table

The pieces that an encoding hands over are the table's bytes cut at places that the chunk size
chooses: the bands are the rows in order, and the heap's pieces its arrays in order. Each
descriptor leads to its own array.
-/

namespace FitsWell

open Bits Bytes Chunks

variable {R : Type} {builder : Builder R} {layout : TableLayout}

/-! ## Arrays -/

theorem ColumnData.packed_zero (data : ColumnData) (start : ℕ) : data.packed start 0 = [] := by
  cases data <;> simp [packed, packCell, packBits, beBytes]

/-- A heap array goes after the arrays gathered before it. -/
theorem appendArray_eq {data : ColumnData} {range : Span} {out : List UInt8} {byteLen : ℕ}
    (hrange : range.start ≤ range.stop ∧ range.stop ≤ data.len)
    (hlen : data.elementKind.payloadLen range.len = some byteLen)
    (hword : range.len ≤ usizeMax) (hroom : out.length + byteLen ≤ usizeMax) :
    appendArray out data range = .ok (out ++ data.packed range.start range.len) := by
  unfold appendArray appendCells
  by_cases hzero : range.len = 0
  · rw [if_pos hzero, hzero, data.packed_zero, List.append_nil]
  · have hspan : range = ⟨range.start, range.start + 1 * range.len⟩ := by
      unfold Span.len
      rw [Nat.one_mul, Nat.add_sub_cancel' hrange.1]
    have hrows : BandRows ⟨byteLen, 0, 1, range.len⟩ byteLen (fun _ => []) (fun _ => []) :=
      { front_length := fun _ _ => rfl
        back_length := fun _ _ => Nat.zero_add byteLen
        fits := (Nat.zero_add byteLen).le
        count := (Nat.one_mul range.len).trans_le hword }
    have hvalues : range.start + 1 * range.len ≤ data.len := by
      unfold Span.len
      omega
    have hscatter := hrows.scatter_rows hlen hvalues
    dsimp only at hscatter
    rw [← hspan] at hscatter
    simp only [List.nil_append, List.append_nil, List.range_one, List.flatMap_singleton,
      Nat.zero_mul, Nat.add_zero] at hscatter
    rw [if_neg hzero, ElementKind.expectPayload, hlen]
    dsimp only
    rw [Loops.bind_ok rfl, divUsize_of_pos (Nat.pos_of_ne_zero hzero), Loops.bind_ok rfl,
      Nat.div_self (Nat.pos_of_ne_zero hzero), mulUsize_of_le (by omega), Loops.bind_ok rfl,
      Nat.one_mul, addUsize_of_le hroom, Loops.bind_ok rfl, hscatter, Loops.bind_ok rfl]

/-! ## The rows -/

theorem mainBytes_add (start n : ℕ) :
    mainBytes builder.columns (start + n) = mainBytes builder.columns start ++
      (List.range n).flatMap fun i =>
        rowBytes (start + i) (heapBytes builder.columns (start + i)).length builder.columns := by
  rw [mainBytes, mainBytes, List.range_add, List.flatMap_append, List.flatMap_map]

namespace TableLayout.Describes

variable (h : layout.Describes builder)

include h

/-- A band is handed over in one piece. -/
theorem handBand_hands {band start n : ℕ} (hn : 0 < n) (hrows : start + n ≤ layout.rowCount)
    (hlast : min (start + band) layout.rowCount = start + n) (hband : start + band ≤ usizeMax)
    (hword : n * layout.rowLen ≤ usizeMax) :
    Hands (builder.handBand layout band (heapBytes builder.columns start).length start)
      [(List.range n).flatMap fun i =>
        rowBytes (start + i) (heapBytes builder.columns (start + i)).length builder.columns]
      (.ok (heapBytes builder.columns (start + n)).length) := by
  have hencode := h.encodeBand_eq hrows hn hword
  unfold Builder.handBand
  rw [addUsize_of_le hband]
  refine (Hands.lift (.ok (start + band))).bind ?_
  rw [hlast, hencode]
  exact (Hands.lift (.ok _)).bind ((Hands.each _).bind (Hands.lift (.ok _)))

omit h in
/-- A band of more than one row is no larger than a chunk. -/
theorem band_mul_le (chunkBytes rowLen : ℕ) :
    max (chunkBytes / max rowLen 1) 1 * rowLen ≤ max chunkBytes rowLen := by
  rcases Nat.le_total (chunkBytes / max rowLen 1) 1 with hone | hmany
  · rw [Nat.max_eq_right hone, Nat.one_mul]
    exact Nat.le_max_right chunkBytes rowLen
  · rw [Nat.max_eq_left hmany]
    calc chunkBytes / max rowLen 1 * rowLen
        ≤ chunkBytes / max rowLen 1 * max rowLen 1 :=
          Nat.mul_le_mul_left _ (Nat.le_max_left rowLen 1)
      _ ≤ chunkBytes := Nat.div_mul_le_self _ _
      _ ≤ max chunkBytes rowLen := Nat.le_max_left chunkBytes rowLen

/-- The bands are the rows in order. -/
theorem handBands_hands {band : ℕ} (hpos : 0 < band) (hband : band ≤ usizeMax)
    (hword : band * layout.rowLen ≤ usizeMax) :
    ∃ pieces, Hands (fun σ each => (Builder.stepBy layout.rowCount band).foldlM
        (fun heapAt start => builder.handBand layout band heapAt start σ each) 0) pieces
        (.ok (heapBytes builder.columns layout.rowCount).length) ∧
      pieces.flatten = mainBytes builder.columns layout.rowCount := by
  have hlast : ∀ {bands : ℕ}, bands = (layout.rowCount + band - 1) / band →
      min (bands * band) layout.rowCount = layout.rowCount := by
    rintro bands rfl
    have hdiv := Nat.lt_div_mul_add hpos (a := layout.rowCount + band - 1)
    exact Nat.min_eq_right (by omega)
  have hrun : ∃ pieces heapAt, Hands (fun σ each =>
      (List.range ((layout.rowCount + band - 1) / band)).foldlM (fun heapAt k =>
        builder.handBand layout band heapAt (k * band) σ each) 0) pieces (.ok heapAt) ∧
      pieces.flatten = mainBytes builder.columns (min ((List.range
        ((layout.rowCount + band - 1) / band)).length * band) layout.rowCount) ∧
      heapAt = (heapBytes builder.columns (min ((List.range
        ((layout.rowCount + band - 1) / band)).length * band) layout.rowCount)).length := by
    apply Hands.foldlM_total (P := fun (done : List ℕ) (pieces : List (List UInt8)) (heapAt : ℕ) =>
      pieces.flatten = mainBytes builder.columns (min (done.length * band) layout.rowCount) ∧
        heapAt = (heapBytes builder.columns (min (done.length * band) layout.rowCount)).length)
    · simp [mainBytes, heapBytes]
    · rintro done k todo pieces heapAt hitems ⟨hpieces, rfl⟩
      obtain ⟨hlength, hk⟩ := Loops.range_split hitems
      have hrow : k * band + band ≤ layout.rowCount + band - 1 := by
        rw [← Nat.succ_mul]
        exact (Nat.mul_le_mul_right band hk).trans (Nat.div_mul_le_self _ _)
      obtain ⟨n, hn⟩ : ∃ n, n = min band (layout.rowCount - k * band) := ⟨_, rfl⟩
      have hstart : min (k * band) layout.rowCount = k * band := by omega
      have hstop : min (k * band + band) layout.rowCount = k * band + n := by omega
      have hplace : k * band + band ≤ usizeMax := by
        have hrows := h.rows
        rcases Nat.eq_zero_or_pos k with rfl | hpos'
        · rw [Nat.zero_mul, Nat.zero_add]
          exact hband
        · have hone : band ≤ k * band := Nat.le_mul_of_pos_left band hpos'
          unfold usizeMax
          omega
      have hbytes : n * layout.rowLen ≤ usizeMax :=
        (Nat.mul_le_mul_right layout.rowLen (by omega)).trans hword
      rw [hlength, hstart] at hpieces ⊢
      rw [List.length_append, List.length_singleton, hlength, Nat.succ_mul, hstop]
      refine ⟨_, _, h.handBand_hands (by omega) (by omega) hstop hplace hbytes, ?_, rfl⟩
      rw [List.flatten_append, hpieces, mainBytes_add, List.flatten_singleton]
  obtain ⟨pieces, heapAt, hhands, hflatten, rfl⟩ := hrun
  rw [List.length_range, hlast rfl] at hflatten hhands
  refine ⟨pieces, ?_, hflatten⟩
  simpa only [Builder.stepBy, List.foldlM_map] using hhands

/-! ## The heap -/

theorem exists_fits {col : WriteColumn R} (hcol : col ∈ builder.columns) :
    ∃ rowWidth, col.Fits layout.rowCount rowWidth := by
  rw [← h.map_fst] at hcol
  obtain ⟨column, hcolumn, rfl⟩ := List.mem_map.mp hcol
  exact ⟨column.2.rowWidth, h.fits column hcolumn⟩

/-- A cell's array is gathered, and what was gathered is handed over or kept. -/
theorem gatherArray_hands {done todo : List (ℕ × WriteColumn R)} {cell : ℕ × WriteColumn R}
    (hcells : builder.heapCells layout.rowCount = done ++ cell :: todo) {chunk : List UInt8}
    (hchunk : chunk.length ≤ (done.flatMap cellArray).length) (chunkBytes : ℕ) :
    ∃ pieces kept, Hands (Builder.gatherArray chunkBytes chunk cell) pieces (.ok kept) ∧
      pieces.flatten ++ kept = chunk ++ cellArray cell := by
  obtain ⟨hrow, hcol⟩ := Builder.mem_heapCells (hcells ▸ List.mem_append_right done
    List.mem_cons_self)
  obtain ⟨rowWidth, hfits⟩ := h.exists_fits hcol
  unfold WriteColumn.Fits at hfits
  unfold Builder.gatherArray
  cases hvalues : cell.2.values with
  | fixed data repeatCount =>
    rw [cellArray, WriteColumn.heapArray_of_fixed hvalues]
    exact ⟨[], chunk, Hands.lift (.ok chunk), (List.append_nil chunk).symm⟩
  | vla rows width =>
    rw [hvalues] at hfits
    have hrow' : cell.1 < rows.ends.length := hfits.1.symm ▸ hrow
    obtain ⟨hrange, hspan⟩ := ColumnRows.exists_range hrow'
    have hlen := WriteColumn.length_heapArray hvalues hrow'
    have htotal : (done.flatMap cellArray).length + (cellArray cell).length ≤ layout.heapLen := by
      rw [h.heap.1, hcells, List.flatMap_append, List.flatMap_cons, List.length_append,
        List.length_append]
      omega
    have hroom : chunk.length + (cell.2.heapArray cell.1).length ≤ usizeMax := by
      have hheapWord := h.heapWord
      have hsame : cellArray cell = cell.2.heapArray cell.1 := rfl
      rw [hsame] at htotal
      unfold usizeMax
      omega
    have hheld : rows.values.Held := by
      have hheld := cell.2.held
      rwa [hvalues] at hheld
    have hcount : (rows.span cell.1).len ≤ usizeMax := by
      have hvalues := hheld.len_le
      unfold Span.len
      omega
    have happend := appendArray_eq hspan hlen hcount hroom
    rw [← WriteColumn.heapArray_of_vla hvalues] at happend
    dsimp only
    rw [hrange]
    by_cases hfull : chunkBytes ≤ (chunk ++ cell.2.heapArray cell.1).length
    · refine ⟨[chunk ++ cell.2.heapArray cell.1], [], ?_, by simp [cellArray]⟩
      refine (Hands.lift (.ok (rows.span cell.1))).bind ?_
      rw [happend]
      refine (Hands.lift (.ok _)).bind ?_
      simp only [if_pos hfull]
      exact (Hands.each _).bind (Hands.lift (.ok []))
    · refine ⟨[], chunk ++ cell.2.heapArray cell.1, ?_, rfl⟩
      refine (Hands.lift (.ok (rows.span cell.1))).bind ?_
      rw [happend]
      refine (Hands.lift (.ok _)).bind ?_
      simp only [if_neg hfull]
      exact Hands.lift (.ok _)

/-- The pieces of the heap are its arrays in order. -/
theorem gatherArrays_hands (chunkBytes : ℕ) :
    ∃ pieces kept, Hands (fun σ each => (builder.heapCells layout.rowCount).foldlM
        (fun chunk cell => Builder.gatherArray chunkBytes chunk cell σ each) []) pieces (.ok kept) ∧
      pieces.flatten ++ kept = heapBytes builder.columns layout.rowCount := by
  rw [← Builder.flatMap_heapCells]
  apply Hands.foldlM_total (P := fun (done : List (ℕ × WriteColumn R)) (pieces : List (List UInt8))
    (kept : List UInt8) => pieces.flatten ++ kept = done.flatMap cellArray) rfl
  intro done cell todo pieces kept hcells hdone
  have hkept : kept.length ≤ (done.flatMap cellArray).length := by
    rw [← hdone, List.length_append]
    exact Nat.le_add_left _ _
  obtain ⟨others, kept', hhands, hnext⟩ := h.gatherArray_hands hcells hkept chunkBytes
  refine ⟨others, kept', hhands, ?_⟩
  rw [List.flatten_append, List.append_assoc, hnext, ← List.append_assoc, hdone,
    List.flatMap_append, List.flatMap_singleton]

/-! ## The table -/

/-- The pieces of an encoding are the table's bytes in order, whatever the chunk size. -/
theorem encodeChunks_hands {chunkBytes : ℕ} (hword : chunkBytes ≤ usizeMax) :
    ∃ pieces, Hands (builder.encodeChunks layout chunkBytes) pieces (.ok ()) ∧
      pieces.flatten = tableBytes builder.columns layout.rowCount := by
  have hrowLen : layout.rowLen ≤ usizeMax := by
    have hrowWord := h.rowWord
    unfold usizeMax
    omega
  have hband : max (chunkBytes / max layout.rowLen 1) 1 ≤ usizeMax :=
    max_le ((Nat.div_le_self _ _).trans hword) (by decide)
  have hbytes := (band_mul_le chunkBytes layout.rowLen).trans (max_le hword hrowLen)
  obtain ⟨rows, hrows, hmain⟩ := h.handBands_hands (by omega) hband hbytes
  obtain ⟨arrays, kept, harrays, hheap⟩ := h.gatherArrays_hands chunkBytes
  have hlen : (heapBytes builder.columns layout.rowCount).length = layout.heapLen := by
    rw [h.heap.1, Builder.flatMap_heapCells]
  have hassert : debugAssert ((heapBytes builder.columns layout.rowCount).length =
      layout.heapLen) = .ok () := if_pos hlen
  obtain ⟨last, hlast, hkept⟩ := Hands.rest kept
  refine ⟨rows ++ ([] ++ (arrays ++ last)), ?_, ?_⟩
  · refine hrows.bind ?_
    rw [hassert]
    exact (Hands.lift (.ok ())).bind (harrays.bind hlast)
  · rw [List.flatten_append, hmain, List.nil_append, List.flatten_append, hkept, hheap, tableBytes]

/-! ## Descriptors -/

theorem length_row {row heapAt : ℕ} (hrow : row < layout.rowCount) :
    (rowBytes row heapAt builder.columns).length = layout.rowLen := by
  rw [← h.map_fst, length_rowBytes h.fits hrow, h.passedWidth_eq]

theorem length_mainBytes {n : ℕ} (hn : n ≤ layout.rowCount) :
    (mainBytes builder.columns n).length = n * layout.rowLen :=
  length_flatMap_range fun row hrow => h.length_row (by omega)

theorem length_heapBytes :
    (heapBytes builder.columns layout.rowCount).length = layout.heapLen := by
  rw [h.heap.1, Builder.flatMap_heapCells]

/-- The table is as long as its layout says. -/
theorem length_tableBytes : (tableBytes builder.columns layout.rowCount).length =
    layout.rowCount * layout.rowLen + layout.heapLen := by
  rw [tableBytes, List.length_append, h.length_mainBytes le_rfl, h.length_heapBytes]

/-- The bytes before a column's cell in its row. -/
theorem length_rowBytes_take {row heapAt index : ℕ} (hrow : row < layout.rowCount) :
    (rowBytes row heapAt (builder.columns.take index)).length =
      ((layout.columns.take index).map ColumnLayout.rowWidth).sum := by
  have hfst : builder.columns.take index =
      ((builder.laidColumns layout).take index).map Prod.fst := by
    rw [List.map_take, h.map_fst]
  have hsnd : layout.columns.take index =
      ((builder.laidColumns layout).take index).map Prod.snd := by
    rw [List.map_take, Builder.laidColumns, List.map_snd_zip h.columns.le]
  rw [hfst, length_rowBytes (fun column hcolumn => h.fits column (List.mem_of_mem_take hcolumn))
    hrow, hsnd, List.map_map]
  rfl

omit h in
/-- A column's cell, in the table's bytes. -/
theorem cell_in_table {row index : ℕ} {col : WriteColumn R} (hrow : row < layout.rowCount)
    (hcol : builder.columns[index]? = some col) {heapAt : ℕ}
    (hheapAt : heapAt = (heapBytes builder.columns row).length +
      (rowArrays (builder.columns.take index) row).length) :
    ∃ after, tableBytes builder.columns layout.rowCount =
      mainBytes builder.columns row ++ rowBytes row (heapBytes builder.columns row).length
        (builder.columns.take index) ++ col.cellBytes row heapAt ++ after := by
  have hcolumns : builder.columns =
      builder.columns.take index ++ col :: builder.columns.drop (index + 1) := by
    obtain ⟨hlt, rfl⟩ := List.getElem?_eq_some_iff.mp hcol
    rw [List.getElem_cons_drop, List.take_append_drop]
  have hrest : mainBytes builder.columns layout.rowCount = mainBytes builder.columns row ++
      (rowBytes row (heapBytes builder.columns row).length builder.columns ++
        (List.range (layout.rowCount - row - 1)).flatMap fun i =>
          rowBytes (row + 1 + i) (heapBytes builder.columns (row + 1 + i)).length
            builder.columns) := by
    have hn : layout.rowCount = row + 1 + (layout.rowCount - row - 1) := by omega
    conv_lhs => rw [hn, mainBytes_add, mainBytes_add]
    simp
  have hcells : ∀ heapAt, rowBytes row heapAt builder.columns =
      rowBytes row heapAt (builder.columns.take index) ++
        (col.cellBytes row (heapAt + (rowArrays (builder.columns.take index) row).length) ++
          rowBytes row (heapAt + (rowArrays (builder.columns.take index) row).length +
            (col.heapArray row).length) (builder.columns.drop (index + 1))) := by
    intro heapAt
    conv_lhs => rw [hcolumns, rowBytes_append, rowBytes]
  rw [tableBytes, hrest, hcells, ← hheapAt]
  exact ⟨rowBytes row (heapAt + (col.heapArray row).length) (builder.columns.drop (index + 1)) ++
    ((List.range (layout.rowCount - row - 1)).flatMap (fun i => rowBytes (row + 1 + i)
      (heapBytes builder.columns (row + 1 + i)).length builder.columns) ++
        heapBytes builder.columns layout.rowCount), by simp only [List.append_assoc]⟩

omit h in
/-- The arrays before a column's array in the heap, and those after it. -/
theorem array_in_heap {row index : ℕ} {col : WriteColumn R} (hrow : row < layout.rowCount)
    (hcol : builder.columns[index]? = some col) {rows : ColumnRows} {width : DescriptorWidth}
    (hvalues : col.values = .vla rows width) :
    ∃ after, heapBytes builder.columns layout.rowCount = (heapBytes builder.columns row ++
      rowArrays (builder.columns.take index) row) ++ col.heapArray row ++ after := by
  have hcolumns : builder.columns =
      builder.columns.take index ++ col :: builder.columns.drop (index + 1) := by
    obtain ⟨hlt, rfl⟩ := List.getElem?_eq_some_iff.mp hcol
    rw [List.getElem_cons_drop, List.take_append_drop]
  obtain ⟨before, after, hcells, hbefore⟩ :=
    Builder.heapCells_split (n := layout.rowCount) hrow hcolumns hvalues
  refine ⟨after.flatMap cellArray, ?_⟩
  rw [← Builder.flatMap_heapCells, hcells, List.flatMap_append, List.flatMap_cons, hbefore,
    List.append_assoc _ (col.heapArray row)]
  rfl

/-- A descriptor leads from the table's bytes to its own array. -/
theorem descriptor_in_table {row index : ℕ} {col : WriteColumn R} (hrow : row < layout.rowCount)
    (hcol : builder.columns[index]? = some col) {rows : ColumnRows} {width : DescriptorWidth}
    (hvalues : col.values = .vla rows width) :
    ∃ descriptor : PqDescriptor,
      PqDescriptor.decode (((tableBytes builder.columns layout.rowCount).drop
        (row * layout.rowLen + ((layout.columns.take index).map ColumnLayout.rowWidth).sum)).take
          width.bytes) width = .ok descriptor ∧
      rows.range row = .ok (rows.span row) ∧ descriptor.count = (rows.span row).len ∧
      (descriptor.count ≠ 0 → descriptor.offset = (heapBytes builder.columns row).length +
        (rowArrays (builder.columns.take index) row).length) ∧
      ((tableBytes builder.columns layout.rowCount).drop
        (layout.rowCount * layout.rowLen + descriptor.offset)).take
          (col.heapArray row).length = col.heapArray row := by
  have hcolumns : builder.columns =
      builder.columns.take index ++ col :: builder.columns.drop (index + 1) := by
    obtain ⟨hlt, rfl⟩ := List.getElem?_eq_some_iff.mp hcol
    rw [List.getElem_cons_drop, List.take_append_drop]
  have hmem : col ∈ builder.columns := List.mem_of_getElem? hcol
  obtain ⟨rowWidth, hfits⟩ := h.exists_fits hmem
  have hrow' : row < rows.ends.length := by
    unfold WriteColumn.Fits at hfits
    rw [hvalues] at hfits
    exact hfits.1.symm ▸ hrow
  obtain ⟨hrange, -⟩ := ColumnRows.exists_range hrow'
  obtain ⟨haddressed, -⟩ := h.array hrow hcolumns hvalues rfl
  obtain ⟨afterCell, hcell⟩ := cell_in_table hrow hcol rfl
  obtain ⟨afterArray, harray⟩ := array_in_heap hrow hcol hvalues
  have hdecode := (decode_encode (encode_descriptor haddressed)).2
  have hfront : (mainBytes builder.columns row ++
      rowBytes row (heapBytes builder.columns row).length (builder.columns.take index)).length =
        row * layout.rowLen + ((layout.columns.take index).map ColumnLayout.rowWidth).sum := by
    rw [List.length_append, h.length_mainBytes hrow.le, h.length_rowBytes_take hrow]
  refine ⟨⟨(rows.span row).len, if (rows.span row).len = 0 then 0 else
      (heapBytes builder.columns row).length + (rowArrays (builder.columns.take index) row).length⟩,
    ?_, hrange, rfl, fun hcount => if_neg hcount, ?_⟩
  · rw [hcell, ← hfront, List.append_assoc _ (col.cellBytes row _), List.drop_left,
      WriteColumn.cellBytes, hvalues]
    dsimp only
    rw [List.take_left' (length_descriptorBytes width _ _)]
    exact hdecode
  · by_cases hzero : (rows.span row).len = 0
    · rw [WriteColumn.heapArray_of_vla hvalues, hzero, ColumnData.packed_zero]
      rfl
    · dsimp only
      rw [if_neg hzero, tableBytes, ← h.length_mainBytes le_rfl, ← List.drop_drop, List.drop_left,
        harray, ← List.length_append, List.append_assoc _ (col.heapArray row), List.drop_left,
        List.take_left]

end TableLayout.Describes

/-- Where a builder lays out, its table is encoded without an error into the same bytes for
every chunk size, as many as the layout says, and each array's descriptor holds the array's
count and leads to its bytes, which lie after those of the arrays before it. -/
theorem Builder.encode_chunks_any_size [RealText R] (hlayout : builder.layout = .ok layout) :
    (∀ chunkBytes, 1 ≤ chunkBytes → chunkBytes ≤ usizeMax → ∃ pieces,
      Hands (builder.encodeChunks layout chunkBytes) pieces (.ok ()) ∧
        pieces.flatten = tableBytes builder.columns layout.rowCount ∧
        ∀ (σ : Type) (each : List UInt8 → Stateful Fault σ Unit),
          (∀ piece s, ∃ s', (each piece).run s = (.ok (), s')) →
            ∀ s, ∃ s', (builder.encodeChunks layout chunkBytes σ each).run s = (.ok (), s')) ∧
    (tableBytes builder.columns layout.rowCount).length =
      layout.rowCount * layout.rowLen + layout.heapLen ∧
    (∀ total, layout.dataLen = .ok total →
      (tableBytes builder.columns layout.rowCount).length = total) ∧
    ∀ row < layout.rowCount, ∀ index col rows width, builder.columns[index]? = some col →
      col.values = .vla rows width → ∃ (range : Span) (descriptor : PqDescriptor),
        rows.range row = .ok range ∧
        PqDescriptor.decode (((tableBytes builder.columns layout.rowCount).drop
          (row * layout.rowLen + ((layout.columns.take index).map ColumnLayout.rowWidth).sum)).take
            width.bytes) width = .ok descriptor ∧
        descriptor.count = range.len ∧
        (descriptor.count ≠ 0 → descriptor.offset = (heapBytes builder.columns row).length +
          (rowArrays (builder.columns.take index) row).length) ∧
        ∃ byteLen, rows.values.elementKind.payloadLen descriptor.count = some byteLen ∧
          appendArray [] rows.values range =
            .ok (((tableBytes builder.columns layout.rowCount).drop
              (layout.rowCount * layout.rowLen + descriptor.offset)).take byteLen) := by
  have h := layout_describes hlayout
  refine ⟨?_, h.length_tableBytes, ?_, ?_⟩
  · intro chunkBytes _ hword
    obtain ⟨pieces, hhands, hflatten⟩ := h.encodeChunks_hands hword
    exact ⟨pieces, hhands, hflatten, fun σ each heach s => hhands.run_ok heach s⟩
  · intro total htotal
    obtain ⟨main, hmain, hadd⟩ := Loops.ok_of_bind htotal
    rw [h.length_tableBytes, ← (addUsize_eq_ok_iff.mp hadd).2, ← (mulUsize_eq_ok_iff.mp hmain).2]
  · intro row hrow index col rows width hcol hvalues
    obtain ⟨descriptor, hdecode, hrange, hcount, hoffset, hslice⟩ :=
      h.descriptor_in_table hrow hcol hvalues
    obtain ⟨rowWidth, hfits⟩ := h.exists_fits (List.mem_of_getElem? hcol)
    have hrow' : row < rows.ends.length := by
      unfold WriteColumn.Fits at hfits
      rw [hvalues] at hfits
      exact hfits.1.symm ▸ hrow
    obtain ⟨-, hspan⟩ := ColumnRows.exists_range hrow'
    have hlen := WriteColumn.length_heapArray hvalues hrow'
    have hheld : rows.values.Held := by
      have hheld := col.held
      rwa [hvalues] at hheld
    have hword : (rows.span row).len ≤ usizeMax := by
      have hvalues' := hheld.len_le
      unfold Span.len
      omega
    have hroom : ([] : List UInt8).length + (col.heapArray row).length ≤ usizeMax := by
      obtain ⟨after, harray⟩ := TableLayout.Describes.array_in_heap hrow hcol hvalues
      have htotal := h.length_heapBytes
      have hheapWord := h.heapWord
      rw [harray] at htotal
      simp only [List.length_append] at htotal
      rw [List.length_nil]
      unfold usizeMax
      omega
    refine ⟨rows.span row, descriptor, hrange, hdecode, hcount, hoffset,
      (col.heapArray row).length, hcount ▸ hlen, ?_⟩
    rw [hslice, appendArray_eq hspan hlen hword hroom, List.nil_append,
      WriteColumn.heapArray_of_vla hvalues]

/-- Two rows of three bits and an array of words, the first one empty. -/
def bitsAndArrays : Builder ℤ where
  rowCount := some 2
  columns :=
    [{ name := ascii "FLAGS", unit := none
       values := .fixed (.bit [true, false, true, true, true, false]) 3
       tdim := none, scaling := none, tnull := none, held := by decide },
     { name := ascii "WORDS", unit := none
       values := .vla ⟨⟨.i16 [1, 0xfffe], [0, 2]⟩, by decide, rfl⟩ .P
       tdim := none, scaling := none, tnull := none, held := by decide }]

/-- The bits share a byte, and the second array follows the empty one. -/
theorem Builder.encode_chunks_any_size_arrays :
    ∃ layout, bitsAndArrays.layout = .ok layout ∧
      ∀ chunkBytes, 1 ≤ chunkBytes → chunkBytes ≤ usizeMax → ∃ pieces,
        Hands (bitsAndArrays.encodeChunks layout chunkBytes) pieces (.ok ()) ∧
          pieces.flatten = [0xa0, 0, 0, 0, 0, 0, 0, 0, 0, 0xc0, 0, 0, 0, 2, 0, 0, 0, 0,
            0, 1, 0xff, 0xfe] := by
  have hlayout : bitsAndArrays.layout =
      .ok ⟨2, 9, 4, [⟨1, ascii "3X"⟩, ⟨8, ascii "1PI(2)"⟩]⟩ := by decide +kernel
  refine ⟨_, hlayout, fun chunkBytes hone hword => ?_⟩
  obtain ⟨pieces, hhands, hflatten, -⟩ :=
    (Builder.encode_chunks_any_size hlayout).1 chunkBytes hone hword
  exact ⟨pieces, hhands, hflatten.trans (by decide +kernel)⟩

end FitsWell
