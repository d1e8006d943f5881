import FitsWell.Compression.ContainerReads

/-!
# The layout of a container

What the container of an image is to hold, by column, and that the container of every image holds
it.
-/

namespace FitsWell

open Bytes Chunks
open Gzip (Flate)

/-! ## The rows of cells -/

/-- The length of a heap is that of its cells. -/
theorem cellsLen_eq {cells : List (List UInt8)} {len : ℕ} (h : cellsLen cells = .ok len) :
    len = cells.flatten.length ∧ len ≤ usizeMax := by
  have hloop : ∀ cells : List (List UInt8), ∀ start len, start ≤ usizeMax →
      cells.foldlM (fun len cell => orOverflow (checkedAdd len cell.length)) start = .ok len →
        len = start + cells.flatten.length ∧ len ≤ usizeMax := by
    intro cells
    induction cells with
    | nil =>
      intro start len hstart h
      obtain rfl := Except.ok.inj h
      exact ⟨rfl, hstart⟩
    | cons cell cells ih =>
      intro start len hstart h
      rw [List.foldlM_cons] at h
      obtain ⟨next, hnext, h⟩ := Loops.ok_of_bind h
      obtain ⟨hle, rfl⟩ := checkedAdd_eq_some_iff.mp (orOverflow_eq_ok_iff.mp hnext)
      obtain ⟨hlen, hword⟩ := ih _ _ hle h
      rw [List.flatten_cons, List.length_append]
      exact ⟨by omega, hword⟩
  have hall := hloop cells 0 len (Nat.zero_le _) h
  rwa [Nat.zero_add] at hall

/-- A descriptor is written over the part of a row that is as long. -/
theorem write_part {width : DescriptorWidth} {count offset place : ℕ}
    (front part back : List UInt8) (hfits : count ≤ width.max ∧ offset ≤ width.max)
    (hfront : front.length = place) (hpart : part.length = width.bytes) :
    PqDescriptor.write ⟨count, offset⟩ width (front ++ part ++ back) place =
      .ok (front ++ descriptorBytes width count offset ++ back) := by
  rw [PqDescriptor.write, Loops.bind_ok (encode_descriptor hfits)]
  exact copySlice_part hfront hpart (length_descriptorBytes _ _ _)

/-- The row of a cell is its descriptor. -/
theorem writeCell_eq {element offset : ℕ} {width : DescriptorWidth} {cell : List UInt8}
    (hfits : cell.length / element ≤ width.max ∧ offset ≤ width.max) :
    writeCell element width (List.replicate width.bytes 0) offset cell =
      .ok (descriptorBytes width (cell.length / element) offset) := by
  have hwrite := write_part [] (List.replicate width.bytes 0) [] hfits rfl List.length_replicate
  rwa [List.nil_append, List.append_nil, List.nil_append, List.append_nil] at hwrite

/-- The row of a tile of a quantized image. -/
def tileRow (width : DescriptorWidth) (offset : ℕ) (tile : FloatTile) : List UInt8 :=
  descriptorBytes width tile.compressed.length offset ++
    (descriptorBytes width tile.gzipped.length offset ++
      (beBytes 8 tile.scales.1 ++ beBytes 8 tile.scales.2))

theorem length_tileRow (width : DescriptorWidth) (offset : ℕ) (tile : FloatTile) :
    (tileRow width offset tile).length = 2 * width.bytes + 16 := by
  simp only [tileRow, List.length_append, length_descriptorBytes, beBytes_length]
  omega

theorem writeTile_eq {offset : ℕ} {width : DescriptorWidth} {tile : FloatTile}
    (hcompressed : tile.compressed.length ≤ width.max) (hgzipped : tile.gzipped.length ≤ width.max)
    (hoffset : offset ≤ width.max) :
    QuantizedFloatImage.writeTile width (List.replicate (2 * width.bytes + 16) 0) offset tile =
      .ok (tileRow width offset tile) := by
  let zeros : List UInt8 := List.replicate width.bytes 0
  let doubles : List UInt8 := List.replicate 8 0
  let own := descriptorBytes width tile.compressed.length offset
  let other := descriptorBytes width tile.gzipped.length offset
  have hown : own.length = width.bytes := length_descriptorBytes _ _ _
  have hother : other.length = width.bytes := length_descriptorBytes _ _ _
  have hzeros : List.replicate (2 * width.bytes + 16) 0 =
      [] ++ zeros ++ (zeros ++ (doubles ++ doubles)) := by
    simp only [zeros, doubles, List.nil_append, List.replicate_append_replicate]
    congr 1
    omega
  have hfirst := write_part [] zeros (zeros ++ (doubles ++ doubles)) ⟨hcompressed, hoffset⟩ rfl
    List.length_replicate
  have hsecond := write_part own zeros (doubles ++ doubles) ⟨hgzipped, hoffset⟩ hown
    List.length_replicate
  have hdouble : doubles.length = 8 := List.length_replicate
  have hscale := @copySlice_part UInt8 (own ++ other) doubles doubles (beBytes 8 tile.scales.1)
    (2 * width.bytes) 8 (by rw [List.length_append]; omega) hdouble (beBytes_length _ _)
  have hzero := @copySlice_part UInt8 (own ++ other ++ beBytes 8 tile.scales.1) doubles []
    (beBytes 8 tile.scales.2) (2 * width.bytes + 8) 8
    (by rw [List.length_append, List.length_append, beBytes_length]; omega) hdouble
    (beBytes_length _ _)
  simp only [List.append_assoc, List.append_nil, List.nil_append,
    List.length_nil] at hfirst hsecond hscale hzero
  rw [QuantizedFloatImage.writeTile, hzeros, List.nil_append, Loops.bind_ok hfirst,
    Loops.bind_ok hsecond, Loops.bind_ok hscale, hzero]
  rfl

/-! ## The longest cell -/

/-- `longest` is the count of elements of the longest cell, and zero where there is none. -/
def IsLongest (element : ℕ) (cells : List (List UInt8)) (longest : ℕ) : Prop :=
  (∀ cell ∈ cells, cell.length / element ≤ longest) ∧
    (longest = 0 ∨ ∃ cell ∈ cells, cell.length / element = longest)

theorem isLongest_longestCell (element : ℕ) (cells : List (List UInt8)) :
    IsLongest element cells (longestCell element cells) := by
  unfold longestCell
  cases hmax : (cells.map fun cell => cell.length / element).max? with
  | none =>
    have hnil := List.map_eq_nil_iff.mp (List.max?_eq_none_iff.mp hmax)
    exact ⟨fun cell hcell => absurd hcell (hnil ▸ List.not_mem_nil), Or.inl rfl⟩
  | some longest =>
    obtain ⟨hmem, hle⟩ := List.max?_eq_some_iff.mp hmax
    obtain ⟨cell, hcell, hlength⟩ := List.mem_map.mp hmem
    exact ⟨fun other hother => hle _ (List.mem_map_of_mem hother), Or.inr ⟨cell, hcell, hlength⟩⟩

theorem longestCell_le {element total : ℕ} {cells : List (List UInt8)}
    (h : ∀ cell ∈ cells, cell.length ≤ total) : longestCell element cells ≤ total := by
  rcases (isLongest_longestCell element cells).2 with hzero | ⟨cell, hcell, hlongest⟩
  · omega
  · exact hlongest ▸ (Nat.div_le_self _ _).trans (h cell hcell)

theorem foldl_max (lengths : List ℕ) : lengths.foldl max 0 = lengths.max?.getD 0 := by
  cases lengths with
  | nil => rfl
  | cons length lengths => rw [List.foldl_cons, Nat.zero_max, List.max?_cons', Option.getD_some]

namespace QuantizedFloatImage

variable {R : Type} (encoded : QuantizedFloatImage R)

/-- The maxima are those of either column. -/
theorem longestCells_eq : encoded.longestCells =
    (longestCell 1 (encoded.tiles.map FloatTile.compressed),
      longestCell 1 (encoded.tiles.map FloatTile.gzipped)) := by
  have hcell : ∀ cells : FloatTile → List UInt8, longestCell 1 (encoded.tiles.map cells) =
      encoded.tiles.foldl (fun longest tile => max longest (cells tile).length) 0 := by
    intro cells
    simp only [longestCell, ← foldl_max, List.foldl_map, Nat.div_one]
  rw [hcell, hcell]
  apply Prod.ext
  · refine (List.foldl_hom Prod.fst fun longest tile => ?_).symm
    cases tile <;> simp [FloatTile.compressed]
  · refine (List.foldl_hom Prod.snd fun longest tile => ?_).symm
    cases tile <;> simp [FloatTile.gzipped]

end QuantizedFloatImage

/-! ## Plans -/

/-- A column of descriptors: its number, its place in a row, and the cell of each tile. -/
structure CellColumn where
  number : ℕ
  place : ℕ
  cells : List (List UInt8)

/-- What a container is to hold: the heap, and the columns of descriptors into it. Each tile has
its part of the heap, and a cell of the tile is that part or empty. -/
structure ContainerPlan where
  heap : List (List UInt8)
  width : DescriptorWidth
  kind : ElementKind
  rowLen : ℕ
  columns : List CellColumn
  room : ∀ column ∈ columns, column.place + width.bytes ≤ rowLen
  tiles : ∀ column ∈ columns, column.cells.length = heap.length
  parts : ∀ column ∈ columns, ∀ (t : ℕ) (cell : List UInt8),
    column.cells[t]? = some cell → cell = [] ∨ heap[t]? = some cell

namespace ContainerPlan

/-- A container of one column, whose cells hold elements of a codec's stream. -/
def ofCells (codec : TileCodec) (cells : List (List UInt8)) : ContainerPlan where
  heap := cells
  width := .addressing cells.flatten.length (longestCell codec.streamKind.elemSize cells)
  kind := codec.streamKind
  rowLen := (DescriptorWidth.addressing cells.flatten.length
    (longestCell codec.streamKind.elemSize cells)).bytes
  columns := [⟨1, 0, cells⟩]
  room := by
    intro column hcolumn
    obtain rfl := List.mem_singleton.mp hcolumn
    exact (Nat.zero_add _).le
  tiles := by
    intro column hcolumn
    obtain rfl := List.mem_singleton.mp hcolumn
    rfl
  parts := by
    intro column hcolumn t cell hcell
    obtain rfl := List.mem_singleton.mp hcolumn
    exact Or.inr hcell

/-- The width of the descriptors of float tiles. -/
def widthOf (tiles : List FloatTile) : DescriptorWidth :=
  .addressing (tiles.map FloatTile.bytes).flatten.length
    (max (longestCell 1 (tiles.map FloatTile.compressed))
      (longestCell 1 (tiles.map FloatTile.gzipped)))

theorem part_of_tile {tiles : List FloatTile} {cells : FloatTile → List UInt8}
    (hcells : ∀ tile : FloatTile, cells tile = [] ∨ cells tile = tile.bytes) {t : ℕ}
    {cell : List UInt8} (h : (tiles.map cells)[t]? = some cell) :
    cell = [] ∨ (tiles.map FloatTile.bytes)[t]? = some cell := by
  rw [List.getElem?_map, Option.map_eq_some_iff] at h
  obtain ⟨tile, htile, rfl⟩ := h
  rcases hcells tile with h | h
  · exact Or.inl h
  · rw [List.getElem?_map, htile, Option.map_some, h]
    exact Or.inr rfl

/-- A container of two columns: the quantized tiles, and those that are raw. -/
def ofTiles (tiles : List FloatTile) : ContainerPlan where
  heap := tiles.map FloatTile.bytes
  width := widthOf tiles
  kind := .u8
  rowLen := 2 * (widthOf tiles).bytes + 16
  columns := [⟨1, 0, tiles.map FloatTile.compressed⟩,
    ⟨2, (widthOf tiles).bytes, tiles.map FloatTile.gzipped⟩]
  room := by
    intro column hcolumn
    rcases List.mem_pair.mp hcolumn with rfl | rfl
    · dsimp only
      omega
    · dsimp only
      omega
  tiles := by
    intro column hcolumn
    rcases List.mem_pair.mp hcolumn with rfl | rfl <;>
      rw [List.length_map, List.length_map]
  parts := by
    intro column hcolumn t cell hcell
    rcases List.mem_pair.mp hcolumn with rfl | rfl
    · exact part_of_tile (fun tile => by cases tile <;> simp [FloatTile.compressed, FloatTile.bytes])
        hcell
    · exact part_of_tile (fun tile => by cases tile <;> simp [FloatTile.gzipped, FloatTile.bytes])
        hcell

variable (plan : ContainerPlan)

/-- Each descriptor of a container is written, in every row of its length. -/
def Addressed : Prop :=
  ∀ column ∈ plan.columns, ∀ (t : ℕ) (cell : List UInt8), column.cells[t]? = some cell →
    ∀ row : List UInt8, row.length = plan.rowLen → ∃ written,
      PqDescriptor.write ⟨cell.length / plan.kind.elemSize, (plan.heap.take t).flatten.length⟩
        plan.width row column.place = .ok written

/-- The cells are of whole elements. -/
def Whole : Prop :=
  ∀ column ∈ plan.columns, ∀ cell ∈ column.cells, plan.kind.elemSize ∣ cell.length

/-- The width holds each cell, and each place of the heap. -/
def Fits : Prop :=
  ∀ column ∈ plan.columns, ∀ cell ∈ column.cells, ∀ offset ≤ plan.heap.flatten.length,
    cell.length / plan.kind.elemSize ≤ plan.width.max ∧ offset ≤ plan.width.max

variable {plan}

/-- The descriptor of a tile's cell fits. -/
theorem Fits.descriptor (h : plan.Fits) {column : CellColumn} {t : ℕ} {cell : List UInt8}
    (hcolumn : column ∈ plan.columns) (hcell : column.cells[t]? = some cell) :
    cell.length / plan.kind.elemSize ≤ plan.width.max ∧
      (plan.heap.take t).flatten.length ≤ plan.width.max := by
  have hroom := heap_room (plan.parts column hcolumn t cell hcell)
  exact h column hcolumn cell (List.mem_of_getElem? hcell) _ (by omega)

/-- A descriptor that fits is written over its part of a row. -/
theorem Fits.addressed (h : plan.Fits) : plan.Addressed := by
  intro column hcolumn t cell hcell row hrow
  have hroom := plan.room column hcolumn
  have hbytes := length_descriptorBytes plan.width (cell.length / plan.kind.elemSize)
    (plan.heap.take t).flatten.length
  obtain ⟨written, hwritten, -⟩ := @copySlice_of_le _ row _ column.place 0 plan.width.bytes
    (by omega) ((Nat.zero_add _).trans_le hbytes.ge)
  refine ⟨written, ?_⟩
  rw [PqDescriptor.write, Loops.bind_ok (encode_descriptor (h.descriptor hcolumn hcell))]
  exact hwritten

theorem length_le_heap {column : CellColumn} {cell : List UInt8} (hcolumn : column ∈ plan.columns)
    (hcell : cell ∈ column.cells) : cell.length ≤ plan.heap.flatten.length := by
  obtain ⟨t, ht⟩ := List.mem_iff_getElem?.mp hcell
  have hroom := heap_room (plan.parts column hcolumn t cell ht)
  omega

/-- The width of a container of `longest` elements at most in a cell. -/
theorem fits_of_addressing {longest : ℕ}
    (hwidth : plan.width = .addressing plan.heap.flatten.length longest)
    (hheap : plan.heap.flatten.length ≤ isizeMax) (hlongest : longest ≤ plan.heap.flatten.length)
    (hcells : ∀ column ∈ plan.columns, ∀ cell ∈ column.cells,
      cell.length / plan.kind.elemSize ≤ longest) : plan.Fits := by
  intro column hcolumn cell hcell offset hoffset
  rw [hwidth]
  exact addressing_holds hheap (hlongest.trans hheap) (hcells column hcolumn cell hcell) hoffset

theorem fits_ofCells {codec : TileCodec} {cells : List (List UInt8)}
    (hheap : cells.flatten.length ≤ isizeMax) : (ofCells codec cells).Fits := by
  have hcolumn : (⟨1, 0, cells⟩ : CellColumn) ∈ (ofCells codec cells).columns :=
    List.mem_singleton_self _
  refine fits_of_addressing rfl hheap
    (longestCell_le fun cell hcell => length_le_heap hcolumn hcell) fun column hmem => ?_
  obtain rfl := List.mem_singleton.mp hmem
  exact (isLongest_longestCell _ cells).1

theorem fits_ofTiles {tiles : List FloatTile}
    (hheap : (tiles.map FloatTile.bytes).flatten.length ≤ isizeMax) : (ofTiles tiles).Fits := by
  have hcolumns : ∀ column ∈ (ofTiles tiles).columns,
      longestCell 1 column.cells ≤ (tiles.map FloatTile.bytes).flatten.length :=
    fun column hcolumn => longestCell_le fun cell hcell => length_le_heap hcolumn hcell
  refine fits_of_addressing rfl hheap
    (Nat.max_le.mpr ⟨hcolumns _ List.mem_cons_self, hcolumns _ (List.mem_cons_of_mem _
      (List.mem_singleton_self _))⟩) fun column hmem cell hcell => ?_
  have hlongest := (isLongest_longestCell 1 column.cells).1 cell hcell
  rcases List.mem_pair.mp hmem with rfl | rfl
  · exact hlongest.trans (Nat.le_max_left _ _)
  · exact hlongest.trans (Nat.le_max_right _ _)

end ContainerPlan

/-! ## A container that is laid out -/

/-- The elements of a cell that is whole take its bytes. -/
theorem payloadLen_whole {kind : ElementKind} {n : ℕ} (hkind : kind ≠ .bit)
    (hwhole : kind.elemSize ∣ n) (hword : n ≤ usizeMax) :
    kind.payloadLen (n / kind.elemSize) = some n := by
  have hmul : n / kind.elemSize * kind.elemSize = n := Nat.div_mul_cancel hwhole
  have hchecked : checkedMul (n / kind.elemSize) kind.elemSize = some n := by
    rw [checkedMul, hmul, if_pos hword]
  cases kind <;> first | exact hchecked | exact absurd rfl hkind

section Units

variable {R : Type} {unit : EncodedUnit R} {plan : ContainerPlan}

/-- The rows of a container hold the descriptors of its plan. -/
def EncodedUnit.Describes (unit : EncodedUnit R) (plan : ContainerPlan) : Prop :=
  ∀ column ∈ plan.columns, ∀ (t : ℕ) (cell : List UInt8), column.cells[t]? = some cell →
    sliceOf unit.rows ⟨t * plan.rowLen + column.place,
      t * plan.rowLen + column.place + plan.width.bytes⟩ =
      descriptorBytes plan.width (cell.length / plan.kind.elemSize)
        (plan.heap.take t).flatten.length

/-- The rows of items hold the descriptors, where the row of each item does. -/
theorem describes_laidRows {α : Type} {row : ℕ → α → List UInt8} {bytes : α → List UInt8}
    {items : List α} (hrows : unit.rows = (laidRows row bytes 0 items).flatten)
    (hheap : plan.heap = items.map bytes)
    (hlength : ∀ offset, ∀ item ∈ items, (row offset item).length = plan.rowLen)
    (hrow : ∀ column ∈ plan.columns, ∀ (t : ℕ) (item : α) (cell : List UInt8),
      items[t]? = some item → column.cells[t]? = some cell → ∀ offset,
      sliceOf (row offset item) ⟨column.place, column.place + plan.width.bytes⟩ =
        descriptorBytes plan.width (cell.length / plan.kind.elemSize) offset) :
    unit.rows.length = plan.heap.length * plan.rowLen ∧ unit.Describes plan := by
  refine ⟨?_, fun column hcolumn t cell hcell => ?_⟩
  · rw [hrows, length_flatten_laidRows hlength, hheap, List.length_map]
  · have ht : t < items.length := by
      have hlt := (List.getElem?_eq_some_iff.mp hcell).1
      rwa [plan.tiles column hcolumn, hheap, List.length_map] at hlt
    have hitem : items[t]? = some items[t] := List.getElem?_eq_getElem ht
    rw [hrows, slice_laidRows hitem hlength (plan.room column hcolumn),
      hrow column hcolumn t _ cell hitem hcell, hheap, List.map_take]

/-- Each cell of a plan is read through its descriptor. -/
theorem reads_of_describes (hunit : unit.heap = plan.heap)
    (hrows : unit.rows.length = plan.heap.length * plan.rowLen) (hdescribes : unit.Describes plan)
    (hfits : plan.Fits) (hwhole : plan.Whole) (hkind : plan.kind ≠ .bit)
    (hword : unit.rows.length + plan.heap.flatten.length ≤ usizeMax) :
    ∀ column ∈ plan.columns, ∀ (t : ℕ) (cell : List UInt8), column.cells[t]? = some cell →
      unit.Reads plan.width plan.kind plan.rowLen column.place t cell := by
  intro column hcolumn t cell hcell
  have ht := (List.getElem?_eq_some_iff.mp hcell).1
  rw [plan.tiles column hcolumn] at ht
  have hmem := List.mem_of_getElem? hcell
  have hroom := plan.room column hcolumn
  have hend := Nat.mul_le_mul_right plan.rowLen (Nat.succ_le_of_lt ht)
  rw [Nat.succ_mul] at hend
  have hlen := ContainerPlan.length_le_heap hcolumn hmem
  refine reads_of_descriptor (by rw [hunit]; exact hdescribes column hcolumn t cell hcell)
    (by omega) (by rw [hunit]; exact hfits.descriptor hcolumn hcell)
    (payloadLen_whole hkind (hwhole column hcolumn cell hmem) (by omega))
    (by rw [hunit]; exact plan.parts column hcolumn t cell hcell) (by rw [hunit]; exact hword)

theorem DescriptorWidth.bytes_pos (width : DescriptorWidth) : 0 < width.bytes := by
  cases width <;> decide

/-- The rows of a container of one column. -/
theorem rows_ofCells {codec : TileCodec} {cells : List (List UInt8)}
    (hfits : (ContainerPlan.ofCells codec cells).Fits) (hword : cells.flatten.length ≤ usizeMax)
    (h : layRows (writeCell codec.streamKind.elemSize (ContainerPlan.ofCells codec cells).width) id
      (ContainerPlan.ofCells codec cells).rowLen cells = .ok unit.rows) :
    unit.rows.length = cells.length * (ContainerPlan.ofCells codec cells).rowLen ∧
      unit.Describes (.ofCells codec cells) := by
  let plan := ContainerPlan.ofCells codec cells
  have hwrites : Writes (writeCell codec.streamKind.elemSize plan.width)
      (fun offset cell => descriptorBytes plan.width (cell.length / codec.streamKind.elemSize)
        offset) id plan.rowLen cells.flatten.length cells := by
    intro cell hcell offset hoffset
    exact writeCell_eq (hfits _ (List.mem_singleton_self _) cell hcell offset
      (Nat.le_of_add_right_le hoffset))
  have hown := Except.ok.inj (h.symm.trans (layRows_eq (DescriptorWidth.bytes_pos _) hword
    (by rw [List.map_id]) hwrites (layRows_room h)))
  refine @describes_laidRows R unit plan _ _ _ cells hown (List.map_id cells).symm
    (fun _ _ _ => length_descriptorBytes _ _ _) fun column hcolumn t item cell hitem hcell offset => ?_
  obtain rfl := List.mem_singleton.mp hcolumn
  obtain rfl := Option.some.inj (hitem.symm.trans hcell)
  have hbytes := length_descriptorBytes plan.width (item.length / codec.streamKind.elemSize) offset
  have hpart := sliceOf_part [] _ [] (Eq.refl 0) (congrArg (0 + ·) hbytes)
  rwa [List.nil_append, List.append_nil] at hpart

/-- The rows of a container of float tiles. -/
theorem rows_ofTiles {tiles : List FloatTile} (hfits : (ContainerPlan.ofTiles tiles).Fits)
    (hword : (tiles.map FloatTile.bytes).flatten.length ≤ usizeMax)
    (h : layRows (QuantizedFloatImage.writeTile (ContainerPlan.ofTiles tiles).width)
      FloatTile.bytes (ContainerPlan.ofTiles tiles).rowLen tiles = .ok unit.rows) :
    unit.rows.length = (tiles.map FloatTile.bytes).length * (ContainerPlan.ofTiles tiles).rowLen ∧
      unit.Describes (.ofTiles tiles) := by
  let plan := ContainerPlan.ofTiles tiles
  have hwrites : Writes (QuantizedFloatImage.writeTile plan.width) (tileRow plan.width)
      FloatTile.bytes plan.rowLen plan.heap.flatten.length tiles := by
    intro tile htile offset hoffset
    have hoffset := Nat.le_of_add_right_le hoffset
    have hcompressed := hfits _ List.mem_cons_self _ (List.mem_map_of_mem htile) offset hoffset
    have hgzipped := hfits _ (List.mem_cons_of_mem _ (List.mem_singleton_self _)) _
      (List.mem_map_of_mem htile) offset hoffset
    rw [show (ContainerPlan.ofTiles tiles).kind.elemSize = 1 from rfl, Nat.div_one]
      at hcompressed hgzipped
    exact writeTile_eq hcompressed.1 hgzipped.1 hcompressed.2
  have hown := Except.ok.inj (h.symm.trans (layRows_eq (Nat.succ_pos _) hword le_rfl hwrites
    (layRows_room h)))
  refine @describes_laidRows R unit plan _ _ _ tiles hown rfl
    (fun _ _ _ => length_tileRow _ _ _) fun column hcolumn t tile cell htile hcell offset => ?_
  have hfirst := length_descriptorBytes plan.width tile.compressed.length offset
  have hsecond := length_descriptorBytes plan.width tile.gzipped.length offset
  rcases List.mem_pair.mp hcolumn with rfl | rfl
  · rw [List.getElem?_map, htile] at hcell
    obtain rfl := Option.some.inj hcell
    rw [show plan.kind.elemSize = 1 from rfl, Nat.div_one]
    exact sliceOf_part [] _ _ (Eq.refl 0) (congrArg (0 + ·) hfirst)
  · rw [List.getElem?_map, htile] at hcell
    obtain rfl := Option.some.inj hcell
    rw [show plan.kind.elemSize = 1 from rfl, Nat.div_one, tileRow, ← List.append_assoc]
    exact sliceOf_part _ _ _ hfirst (congrArg (plan.width.bytes + ·) hsecond)

end Units

section Headers

variable {R : Type} {header next : Header R} {rowLen rowCount heapLen : ℕ}
  {forms : List (ℕ × Text)}

/-- What a header holds of a container: the length of its heap, its axes, and the formats of the
columns set so far. -/
structure Header.Holds (header : Header R) (rowLen rowCount heapLen : ℕ)
    (forms : List (ℕ × Text)) : Prop where
  pcount : header.value (.keyword .PCOUNT) = .ok (some (.ofInt heapLen))
  axes : ∀ (i length : ℕ), [rowLen, rowCount][i]? = some length → ∃ keyword,
    Keyword.NAXIS.indexed (i + 1) = .ok keyword ∧ length < 2 ^ 63 ∧
    header.value (.keyword keyword) = .ok (some (.ofInt length))
  forms : ∀ entry ∈ forms, ∃ keyword, Keyword.TFORM.indexed entry.1 = .ok keyword ∧
    header.value (.keyword keyword) = .ok (some (.text entry.2))

theorem Header.Holds.frames (h : header.Holds rowLen rowCount heapLen forms)
    (hframes : header.Frames next) : next.Holds rowLen rowCount heapLen forms := by
  have hroot : ∀ (root keyword : Keyword) (n : ℕ), root.indexed n = .ok keyword →
      ¬root.ofImage → next.value (.keyword keyword) = header.value (.keyword keyword) := by
    intro root keyword n hkeyword himage
    refine hframes keyword fun hown => himage ?_
    unfold Keyword.ofImage at hown ⊢
    rwa [← Header.head?_indexed hkeyword]
  refine ⟨(hframes _ (by unfold Keyword.ofImage; decide)).trans h.pcount, ?_, ?_⟩
  · intro i length hlength
    obtain ⟨keyword, hkeyword, hlt, hvalue⟩ := h.axes i length hlength
    refine ⟨keyword, hkeyword, hlt, (hroot _ _ _ hkeyword ?_).trans hvalue⟩
    unfold Keyword.ofImage
    decide
  · intro entry hentry
    obtain ⟨keyword, hkeyword, hvalue⟩ := h.forms entry hentry
    refine ⟨keyword, hkeyword, (hroot _ _ _ hkeyword ?_).trans hvalue⟩
    unfold Keyword.ofImage
    decide

/-- Keywords of two roots that are as long differ. -/
theorem indexed_ne {root other keyword keyword' : Keyword} {m n : ℕ}
    (hlength : root.name.length = other.name.length) (hne : root.name ≠ other.name)
    (h : root.indexed m = .ok keyword) (h' : other.indexed n = .ok keyword') :
    keyword ≠ keyword' := by
  rintro rfl
  exact hne (List.append_inj ((Header.name_indexed h).symm.trans (Header.name_indexed h'))
    hlength).1

variable [RealText R]

/-- The header of a container holds no format before its columns are set. -/
theorem Header.Holds.opened {fieldCount : ℕ}
    (h : containerHeader rowLen rowCount fieldCount heapLen = .ok header) :
    header.Holds rowLen rowCount heapLen [] := by
  obtain ⟨-, hpcount, haxes⟩ := reads_containerHeader h
  exact ⟨hpcount, haxes, fun entry hentry => absurd hentry List.not_mem_nil⟩

/-- A column that is set leaves what the header holds. -/
theorem Header.Holds.column (h : header.Holds rowLen rowCount heapLen forms) {n : ℕ}
    {name form : Text} (hset : setColumn header n name form = .ok next)
    (hn : n ∉ forms.map Prod.fst) : next.Holds rowLen rowCount heapLen ((n, form) :: forms) := by
  obtain ⟨ttype, tform, httype, htform, hvalue, hother⟩ := reads_setColumn hset
  have hhead : ∀ keyword : Keyword, keyword.name.head? ≠ some 0x54 →
      next.value (.keyword keyword) = header.value (.keyword keyword) := by
    intro keyword hkeyword
    refine hother keyword ?_ ?_
    · rintro rfl
      exact hkeyword (Header.head?_indexed httype)
    · rintro rfl
      exact hkeyword (Header.head?_indexed htform)
  refine ⟨(hhead _ (by decide)).trans h.pcount, fun i length hlength => ?_, fun entry hentry => ?_⟩
  · obtain ⟨keyword, hkeyword, hlt, haxis⟩ := h.axes i length hlength
    refine ⟨keyword, hkeyword, hlt, (hhead _ ?_).trans haxis⟩
    rw [Header.head?_indexed hkeyword]
    decide
  · rcases List.mem_cons.mp hentry with rfl | hentry
    · exact ⟨tform, htform, hvalue⟩
    · obtain ⟨keyword, hkeyword, hform⟩ := h.forms entry hentry
      refine ⟨keyword, hkeyword, (hother _ ?_ ?_).trans hform⟩
      · exact indexed_ne (by decide) (by decide) hkeyword httype
      · rintro rfl
        exact hn (Header.indexed_inj hkeyword htform ▸ List.mem_map_of_mem hentry)

end Headers

section Layouts

variable {R : Type} [PlaneReals R] {unit : EncodedUnit R} {plan : ContainerPlan}
  {header : Header R}

/-- The container is that of the plan: its heap and the counts of its header, the format of each
column, whose maximum is the longest of its cells, and each cell where its descriptor says. -/
structure EncodedUnit.LaidOut (unit : EncodedUnit R) (plan : ContainerPlan) : Prop where
  heap : unit.heap = plan.heap
  rows : unit.rows.length = plan.heap.length * plan.rowLen
  pcount : unit.header.getInteger .PCOUNT = .ok (some (plan.heap.flatten.length : ℤ))
  axes : ∀ (i length : ℕ), [plan.rowLen, plan.heap.length][i]? = some length → ∃ keyword,
    Keyword.NAXIS.indexed (i + 1) = .ok keyword ∧
    unit.header.getInteger keyword = .ok (some (length : ℤ))
  forms : ∀ column ∈ plan.columns, ∃ keyword form tform longest,
    Keyword.TFORM.indexed column.number = .ok keyword ∧
    unit.header.getText keyword = .ok (some form) ∧
    form = arrayForm plan.width plan.kind longest ∧
    Tform.parse form = .ok tform ∧ tform.repeatCount = 1 ∧ tform.element = plan.kind ∧
    tform.descriptorWidth = some plan.width ∧
    IsLongest plan.kind.elemSize column.cells longest
  cells : ∀ column ∈ plan.columns, ∀ (t : ℕ) (cell : List UInt8), column.cells[t]? = some cell →
    unit.Reads plan.width plan.kind plan.rowLen column.place t cell

/-- A container whose rows describe the cells of a plan, and whose header holds its counts. -/
theorem laidOut_of_holds {forms : List (ℕ × Text)} (hheap : unit.heap = plan.heap)
    (hrows : unit.rows.length = plan.heap.length * plan.rowLen) (hroom : unit.rows.length ≤ isizeMax)
    (hdescribes : unit.Describes plan) (hfits : plan.Fits) (hwhole : plan.Whole)
    (hkind : plan.kind ≠ .bit) (hlen : plan.heap.flatten.length < 2 ^ 63)
    (hheader : unit.header.Holds plan.rowLen plan.heap.length plan.heap.flatten.length forms)
    (hforms : ∀ column ∈ plan.columns, ∃ longest,
      (column.number, arrayForm plan.width plan.kind longest) ∈ forms ∧
      IsLongest plan.kind.elemSize column.cells longest) : unit.LaidOut plan where
  heap := hheap
  rows := hrows
  pcount := Header.getInteger_of_value (by omega) hheader.pcount
  axes := by
    intro i length hlength
    obtain ⟨keyword, hkeyword, hlt, hvalue⟩ := hheader.axes i length hlength
    exact ⟨keyword, hkeyword, Header.getInteger_of_value (by omega) hvalue⟩
  forms := by
    intro column hcolumn
    obtain ⟨longest, hmem, hlongest⟩ := hforms column hcolumn
    obtain ⟨keyword, hkeyword, hvalue⟩ := hheader.forms _ hmem
    obtain ⟨tform, hparse, hrepeat, helement, hwidth⟩ :=
      parse_arrayForm plan.width plan.kind longest
    exact ⟨keyword, _, tform, longest, hkeyword, Header.getText_of_value hvalue, rfl, hparse,
      hrepeat, helement, hwidth, hlongest⟩
  cells := by
    have hword : isizeMax = 2 ^ 63 - 1 ∧ usizeMax = 2 ^ 64 - 1 := ⟨rfl, rfl⟩
    exact reads_of_describes hheap hrows hdescribes hfits hwhole hkind (by omega)

theorem streamKind_ne_bit (codec : TileCodec) : codec.streamKind ≠ .bit := by
  cases codec <;> exact fun h => ElementKind.noConfusion h

/-- The container of cells of one column, under a header with the image's records added. -/
theorem laidOut_layOutCells {codec : TileCodec} {cells : List (List UInt8)}
    (hwhole : (ContainerPlan.ofCells codec cells).Whole)
    (h : layOutCells cells codec = .ok unit) (hframes : unit.header.Frames header) :
    EncodedUnit.LaidOut { unit with header := header } (.ofCells codec cells) := by
  obtain ⟨heap, hheap, h⟩ := Loops.ok_of_bind h
  obtain ⟨rows, hrows, h⟩ := Loops.ok_of_bind h
  obtain ⟨opened, hopened, h⟩ := Loops.ok_of_bind h
  obtain ⟨set, hset, h⟩ := Loops.ok_of_bind h
  obtain rfl := Except.ok.inj h
  obtain ⟨rfl, hword⟩ := cellsLen_eq hheap
  have hlen := (reads_containerHeader hopened).1
  have hfits := @ContainerPlan.fits_ofCells codec cells (Nat.le_of_lt_succ hlen)
  obtain ⟨hcount, hdescribes⟩ := @rows_ofCells R
    { header := header, rows := rows, heap := cells } codec cells hfits hword hrows
  have hholds := ((Header.Holds.opened hopened).column hset List.not_mem_nil).frames hframes
  refine laidOut_of_holds rfl hcount (hcount.trans_le (layRows_room hrows)) hdescribes hfits hwhole
    (streamKind_ne_bit codec) hlen hholds fun column hcolumn => ?_
  obtain rfl := List.mem_singleton.mp hcolumn
  exact ⟨_, List.mem_singleton_self _, isLongest_longestCell _ _⟩

/-- The container of the tiles of a quantized image. -/
theorem laidOut_layOut {encoded : QuantizedFloatImage R} {width : DescriptorWidth}
    (hwidth : encoded.addressing = .ok width) (h : encoded.layOut width = .ok unit) :
    unit.LaidOut (.ofTiles encoded.tiles) := by
  obtain ⟨len, hlen, hwidth⟩ := Loops.ok_of_bind hwidth
  obtain ⟨heap, hheap, h⟩ := Loops.ok_of_bind h
  obtain ⟨rows, hrows, h⟩ := Loops.ok_of_bind h
  obtain ⟨opened, hopened, h⟩ := Loops.ok_of_bind h
  obtain ⟨first, hfirst, h⟩ := Loops.ok_of_bind h
  obtain ⟨second, hsecond, h⟩ := Loops.ok_of_bind h
  obtain ⟨third, hthird, h⟩ := Loops.ok_of_bind h
  obtain ⟨fourth, hfourth, h⟩ := Loops.ok_of_bind h
  obtain ⟨imaged, himaged, h⟩ := Loops.ok_of_bind h
  obtain ⟨coded, hcoded, h⟩ := Loops.ok_of_bind h
  obtain ⟨quantized, hquantized, h⟩ := Loops.ok_of_bind h
  obtain ⟨dithered, hdithered, h⟩ := Loops.ok_of_bind h
  obtain ⟨scaled, hscaled, h⟩ := Loops.ok_of_bind h
  obtain rfl := Except.ok.inj h
  obtain ⟨rfl, hword⟩ := cellsLen_eq hheap
  obtain ⟨rfl, -⟩ := cellsLen_eq hlen
  rw [encoded.longestCells_eq] at hwidth hfirst hsecond
  obtain rfl := Except.ok.inj hwidth
  have htiles : encoded.tiles.length = (encoded.tiles.map FloatTile.bytes).length :=
    (List.length_map _).symm
  rw [htiles] at hopened
  have hfull := (reads_containerHeader hopened).1
  have hfits := @ContainerPlan.fits_ofTiles encoded.tiles (Nat.le_of_lt_succ hfull)
  obtain ⟨hcount, hdescribes⟩ := @rows_ofTiles R
    { header := scaled, rows := rows, heap := encoded.tiles.map FloatTile.bytes } encoded.tiles
    hfits hword hrows
  have hpair := ((Header.Holds.opened hopened).column hfirst List.not_mem_nil).column hsecond
    (by decide : 2 ∉ [1])
  have hcolumns := (hpair.column hthird (by decide : 3 ∉ [2, 1])).column hfourth
    (by decide : 4 ∉ [3, 2, 1])
  have hframes : fourth.Frames scaled := by
    refine (frames_setZimageAxes himaged).trans ((frames_setCodecParameters hcoded).trans ?_)
    refine (frames_setInternal hquantized (Or.inl rfl)).trans (Header.Frames.trans ?_
      (frames_addToHeader hscaled))
    refine frames_setAll hdithered fun entry hentry => Or.inl ?_
    rcases List.mem_append.mp hentry with hseed | hnull
    · obtain ⟨seed, -, rfl⟩ := Option.map_eq_some_iff.mp (Option.mem_toList.mp hseed)
      rfl
    · split at hnull
      · obtain rfl := List.mem_singleton.mp hnull
        rfl
      · exact absurd hnull List.not_mem_nil
  refine laidOut_of_holds rfl hcount (hcount.trans_le ?_) hdescribes hfits ?_
    (fun h => ElementKind.noConfusion h) hfull (hcolumns.frames hframes) fun column hcolumn => ?_
  · exact htiles ▸ layRows_room hrows
  · exact fun _ _ cell _ => Nat.one_dvd _
  · rcases List.mem_pair.mp hcolumn with rfl | rfl
    · exact ⟨_, List.mem_cons_of_mem _ (List.mem_cons_of_mem _ (List.mem_cons_of_mem _
        List.mem_cons_self)), isLongest_longestCell _ _⟩
    · exact ⟨_, List.mem_cons_of_mem _ (List.mem_cons_of_mem _ List.mem_cons_self),
        isLongest_longestCell _ _⟩

end Layouts

end FitsWell
