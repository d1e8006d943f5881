import FitsWell.BinTable.Cells
import FitsWell.BinTable.SchemaParse
import FitsWell.Compression.Container
import FitsWell.Compression.StreamLength
import FitsWell.HeaderModel.ValueFields
import FitsWell.Library.Ends

/-!
# Reading a container's cells

The descriptor of a row gives the bytes of its cell, the width chosen for them holds every
descriptor, and the header counts the heap and the longest cell. A tile of a quantized image has
one cell that is not empty.
-/

namespace FitsWell

open Bytes Chunks
open Gzip (Flate)

/-! ## Rows -/

section Rows

variable {α : Type} {write : List UInt8 → ℕ → α → Outcome (List UInt8)}
  {row : ℕ → α → List UInt8} {bytes : α → List UInt8} {rowLen : ℕ}

/-- The rows of cells, the first of which lies at `offset` in the heap. -/
def laidRows (row : ℕ → α → List UInt8) (bytes : α → List UInt8) :
    ℕ → List α → List (List UInt8)
  | _, [] => []
  | offset, cell :: cells =>
    row offset cell :: laidRows row bytes (offset + (bytes cell).length) cells

theorem length_laidRows (offset : ℕ) (cells : List α) :
    (laidRows row bytes offset cells).length = cells.length := by
  induction cells generalizing offset with
  | nil => rfl
  | cons cell cells ih => rw [laidRows, List.length_cons, ih, List.length_cons]

/-- The row of a cell is given the place after the cells before it. -/
theorem getElem?_laidRows (offset : ℕ) (cells : List α) (t : ℕ) :
    (laidRows row bytes offset cells)[t]? =
      cells[t]?.map (row (offset + ((cells.take t).map bytes).flatten.length)) := by
  induction cells generalizing offset t with
  | nil => rfl
  | cons cell cells ih =>
    cases t with
    | zero => rfl
    | succ t =>
      rw [laidRows, List.getElem?_cons_succ, List.getElem?_cons_succ, ih, List.take_succ_cons,
        List.map_cons, List.flatten_cons, List.length_append, Nat.add_assoc]

/-- Rows of one length are read at their multiples. -/
theorem length_take_flatten {rows : List (List UInt8)} (hrows : ∀ row ∈ rows, row.length = rowLen)
    {t : ℕ} (ht : t ≤ rows.length) : (rows.take t).flatten.length = t * rowLen := by
  induction rows generalizing t with
  | nil =>
    obtain rfl := Nat.le_zero.mp ht
    simp
  | cons row rows ih =>
    cases t with
    | zero => simp
    | succ t =>
      rw [List.take_succ_cons, List.flatten_cons, List.length_append,
        hrows row List.mem_cons_self, ih (fun other h => hrows other (List.mem_cons_of_mem _ h))
          (Nat.le_of_succ_le_succ ht), Nat.succ_mul, Nat.add_comm]

/-- What a write gives each of `cells`, in a heap of `total` bytes: a row of its own. -/
def Writes (write : List UInt8 → ℕ → α → Outcome (List UInt8)) (row : ℕ → α → List UInt8)
    (bytes : α → List UInt8) (rowLen total : ℕ) (cells : List α) : Prop :=
  ∀ cell ∈ cells, ∀ offset, offset + (bytes cell).length ≤ total →
    write (List.replicate rowLen 0) offset cell = .ok (row offset cell)

theorem layRow_run {total : ℕ} (htotal : total ≤ usizeMax) {cells : List α}
    (h : Writes write row bytes rowLen total cells) (offset : ℕ) (done : List (List UInt8))
    (hroom : offset + (cells.map bytes).flatten.length ≤ total) :
    (cells.map fun cell => (List.replicate rowLen 0, cell)).foldlM (layRow write bytes)
      (offset, done) = .ok (offset + (cells.map bytes).flatten.length,
        done ++ laidRows row bytes offset cells) := by
  induction cells generalizing offset done with
  | nil => simp [laidRows, pure, Except.pure]
  | cons cell cells ih =>
    rw [List.map_cons, List.flatten_cons, List.length_append] at hroom
    have hstep : layRow write bytes (offset, done) (List.replicate rowLen 0, cell) =
        .ok (offset + (bytes cell).length, done ++ [row offset cell]) := by
      rw [layRow, Loops.bind_ok (h cell List.mem_cons_self offset (by omega)),
        Loops.bind_ok (addUsize_of_le (by dsimp only; omega))]
    have hrest := ih (fun other hother => h other (List.mem_cons_of_mem _ hother))
      (offset + (bytes cell).length) (done ++ [row offset cell]) (by omega)
    rw [List.map_cons, List.foldlM_cons, Loops.bind_ok hstep, hrest, List.map_cons,
      List.flatten_cons, List.length_append, Nat.add_assoc, List.append_assoc]
    rfl

/-- Zeros in chunks are rows of zeros. -/
theorem wholeChunks_zeros (hrowLen : 0 < rowLen) (count : ℕ) :
    wholeChunks (rowLen - 1) (List.replicate (count * rowLen) (0 : UInt8)) =
      List.replicate count (List.replicate rowLen 0) := by
  have hflat : (List.replicate count (List.replicate rowLen (0 : UInt8))).flatten =
      List.replicate (count * rowLen) 0 := List.flatten_replicate_replicate
  rw [← hflat]
  exact wholeChunks_flatten hrowLen fun row hrow => by
    rw [List.eq_of_mem_replicate hrow, List.length_replicate]

/-- Rows that are laid lie in memory. -/
theorem layRows_room {cells : List α} {rows : List UInt8}
    (h : layRows write bytes rowLen cells = .ok rows) : cells.length * rowLen ≤ isizeMax := by
  obtain ⟨rowsLen, hrowsLen, h⟩ := Loops.ok_of_bind h
  obtain ⟨_, hreserve, -⟩ := Loops.ok_of_bind h
  obtain ⟨-, rfl⟩ := checkedMul_eq_some_iff.mp (orOverflow_eq_ok_iff.mp hrowsLen)
  have hroom := tryReserveExact_ok hreserve
  omega

/-- A part of a row is read in its place of the rows. -/
theorem slice_laidRows {cells : List α} {t place n : ℕ} {cell : α} (hcell : cells[t]? = some cell)
    (hlength : ∀ offset, ∀ cell ∈ cells, (row offset cell).length = rowLen)
    (hplace : place + n ≤ rowLen) :
    sliceOf (laidRows row bytes 0 cells).flatten ⟨t * rowLen + place, t * rowLen + place + n⟩ =
      sliceOf (row ((cells.take t).map bytes).flatten.length cell) ⟨place, place + n⟩ := by
  have hrow : (laidRows row bytes 0 cells)[t]? =
      some (row ((cells.take t).map bytes).flatten.length cell) := by
    rw [getElem?_laidRows, hcell, Nat.zero_add, Option.map_some]
  have hrows : ∀ own ∈ laidRows row bytes 0 cells, own.length = rowLen := by
    intro own hown
    obtain ⟨k, hk⟩ := List.mem_iff_getElem?.mp hown
    rw [getElem?_laidRows] at hk
    obtain ⟨cell, hcell, rfl⟩ := Option.map_eq_some_iff.mp hk
    exact hlength _ cell (List.mem_of_getElem? hcell)
  have ht := (List.getElem?_eq_some_iff.mp hrow).1
  have hslice := sliceOf_flatten hrow
  rw [length_take_flatten hrows ht.le, hlength _ cell (List.mem_of_getElem? hcell)] at hslice
  rw [← hslice, sliceOf_sliceOf _ (by omega)]

theorem length_flatten_laidRows {cells : List α}
    (hlength : ∀ offset, ∀ cell ∈ cells, (row offset cell).length = rowLen) :
    (laidRows row bytes 0 cells).flatten.length = cells.length * rowLen := by
  have hrows : ∀ own ∈ laidRows row bytes 0 cells, own.length = rowLen := by
    intro own hown
    obtain ⟨k, hk⟩ := List.mem_iff_getElem?.mp hown
    rw [getElem?_laidRows] at hk
    obtain ⟨cell, hcell, rfl⟩ := Option.map_eq_some_iff.mp hk
    exact hlength _ cell (List.mem_of_getElem? hcell)
  have hall := length_take_flatten hrows le_rfl
  rwa [List.take_length, length_laidRows] at hall

theorem zip_replicate (slot : List UInt8) (cells : List α) :
    (List.replicate cells.length slot).zip cells = cells.map fun cell => (slot, cell) := by
  induction cells with
  | nil => rfl
  | cons cell cells ih =>
    rw [List.length_cons, List.replicate_succ, List.zip_cons_cons, ih, List.map_cons]

/-- The rows are those of the cells, where memory holds them. -/
theorem layRows_eq (hrowLen : 0 < rowLen) {cells : List α} {total : ℕ} (htotal : total ≤ usizeMax)
    (hheap : (cells.map bytes).flatten.length ≤ total)
    (h : Writes write row bytes rowLen total cells)
    (hroom : cells.length * rowLen ≤ isizeMax) :
    layRows write bytes rowLen cells = .ok (laidRows row bytes 0 cells).flatten := by
  have hisize : isizeMax ≤ usizeMax := by decide
  have hreserve : tryReserveExact 0 (cells.length * rowLen) = .ok () := by
    rw [tryReserveExact, checkedAdd, if_pos (by omega), orOverflow, Loops.bind_ok rfl,
      if_pos (by omega)]
  have hrun := layRow_run htotal h 0 [] (by omega)
  rw [layRows, checkedMul, if_pos (by omega), orOverflow, Loops.bind_ok rfl,
    Loops.bind_ok hreserve]
  dsimp only
  rw [wholeChunks_zeros hrowLen, zip_replicate, Loops.bind_ok hrun, List.nil_append,
    length_laidRows, List.drop_eq_nil_of_le (by rw [List.length_replicate]), List.append_nil]

end Rows

/-! ## Descriptors -/

/-- The width chosen holds the descriptor of every cell of a heap in memory. -/
theorem addressing_holds {heap longest count offset : ℕ} (hheap : heap ≤ isizeMax)
    (hlongest : longest ≤ isizeMax) (hcount : count ≤ longest) (hoffset : offset ≤ heap) :
    count ≤ (DescriptorWidth.addressing heap longest).max ∧
      offset ≤ (DescriptorWidth.addressing heap longest).max := by
  have hisize : isizeMax = 2 ^ 63 - 1 := rfl
  unfold DescriptorWidth.addressing
  split
  · have hmax : DescriptorWidth.Q.max = 2 ^ 63 - 1 := rfl
    omega
  · have hmax : DescriptorWidth.P.max = 2 ^ 31 - 1 := rfl
    omega

section Units

variable {R : Type} {unit : EncodedUnit R} {width : DescriptorWidth} {kind : ElementKind}
  {rowLen place t count : ℕ} {cell : List UInt8}

/-- The descriptor at `place` of row `t` is of the bytes `cell` of the heap. -/
def EncodedUnit.Reads (unit : EncodedUnit R) (width : DescriptorWidth) (kind : ElementKind)
    (rowLen place t : ℕ) (cell : List UInt8) : Prop :=
  ∃ descriptor span,
    PqDescriptor.decode
      (sliceOf unit.data ⟨t * rowLen + place, t * rowLen + place + width.bytes⟩) width =
        .ok descriptor ∧
    descriptor.heapRange kind unit.rows.length (unit.rows.length + unit.heap.flatten.length) =
      some span ∧
    sliceOf unit.data span = cell

/-- A cell ends in the heap. -/
theorem heap_room {cells : List (List UInt8)} (h : cell = [] ∨ cells[t]? = some cell) :
    (cells.take t).flatten.length + cell.length ≤ cells.flatten.length := by
  have hsplit := congrArg (fun parts => parts.flatten.length) (List.take_append_drop t cells)
  rw [List.flatten_append, List.length_append] at hsplit
  rcases h with rfl | hcell
  · rw [List.length_nil]
    omega
  · obtain ⟨ht, rfl⟩ := List.getElem?_eq_some_iff.mp hcell
    rw [List.drop_eq_getElem_cons ht, List.flatten_cons, List.length_append] at hsplit
    omega

/-- A descriptor that a row holds reads as the cell in its place of the heap. -/
theorem reads_of_descriptor
    (hrow : sliceOf unit.rows ⟨t * rowLen + place, t * rowLen + place + width.bytes⟩ =
      descriptorBytes width count (unit.heap.take t).flatten.length)
    (hplace : t * rowLen + place + width.bytes ≤ unit.rows.length)
    (hfits : count ≤ width.max ∧ (unit.heap.take t).flatten.length ≤ width.max)
    (hlen : kind.payloadLen count = some cell.length)
    (hcell : cell = [] ∨ unit.heap[t]? = some cell)
    (hword : unit.rows.length + unit.heap.flatten.length ≤ usizeMax) :
    unit.Reads width kind rowLen place t cell := by
  have hdecode := (decode_encode (encode_descriptor hfits)).2
  have hslice : sliceOf unit.data ⟨t * rowLen + place, t * rowLen + place + width.bytes⟩ =
      descriptorBytes width count (unit.heap.take t).flatten.length := by
    rw [EncodedUnit.data, sliceOf_append_left _ hplace, hrow]
  have hroom := heap_room hcell
  have hrange := heapRange_written hlen
    (by omega : unit.rows.length + (unit.heap.take t).flatten.length + cell.length ≤
      unit.rows.length + unit.heap.flatten.length) hword
  refine ⟨_, _, (congrArg (PqDescriptor.decode · width) hslice).trans hdecode, hrange, ?_⟩
  rw [EncodedUnit.data]
  rcases hcell with rfl | hheap
  · rw [List.length_nil, if_pos rfl, sliceOf_of_le _ le_rfl]
  · split
    · rename_i hempty
      rw [sliceOf_of_le _ le_rfl, List.eq_nil_of_length_eq_zero hempty]
    · rw [Nat.add_assoc, sliceOf_append_right, sliceOf_flatten hheap]

end Units

/-! ## Headers -/

section Headers

variable {R : Type} [RealText R] {header middle next : Header R} {keyword : Keyword}

/-- A keyword of the image that a container holds: one with a `Z` or a `B` first. -/
def Keyword.ofImage (keyword : Keyword) : Prop :=
  keyword.name.head? = some 0x5a ∨ keyword.name.head? = some 0x42

/-- Every keyword but those of the image reads the same. -/
def Header.Frames (header next : Header R) : Prop :=
  ∀ other : Keyword, ¬other.ofImage →
    next.value (.keyword other) = header.value (.keyword other)

omit [RealText R] in
theorem Header.Frames.trans (h : header.Frames middle) (h' : middle.Frames next) :
    header.Frames next := fun other hother => (h' other hother).trans (h other hother)

theorem frames_setInternal {value : Value R} (h : header.setInternal keyword value = .ok next)
    (hkeyword : keyword.ofImage) : header.Frames next := fun _ hother =>
  Header.value_set_of_ne (Header.ok_of_expectOk h) fun hsame => hother (hsame ▸ hkeyword)

theorem frames_setCommented {value : Value R} {comment : Text}
    (h : header.setCommented keyword value comment = .ok next) (hkeyword : keyword.ofImage) :
    header.Frames next := fun _ hother =>
  (Header.value_setCommented h).2 _ fun hsame => hother (hsame ▸ hkeyword)

theorem frames_setAll {entries : List (Keyword × Value R)} (h : header.setAll entries = .ok next)
    (hkeywords : ∀ entry ∈ entries, entry.1.ofImage) : header.Frames next := by
  intro other hother
  refine (Header.value_setAll h).1 other fun hmem => ?_
  obtain ⟨entry, hentry, rfl⟩ := List.mem_map.mp hmem
  exact hother (hkeywords entry hentry)

theorem ofImage_indexed {root : Keyword} {n : ℕ} (h : root.indexed n = .ok keyword)
    (hroot : root.ofImage) : keyword.ofImage := by
  unfold Keyword.ofImage at hroot ⊢
  rwa [Header.head?_indexed h]

theorem frames_setIndexed {root : Keyword} {lengths : List ℕ}
    (h : header.setIndexed root lengths = .ok next) (hroot : root.ofImage) :
    header.Frames next := fun other hother =>
  (Header.value_setIndexed h).1 other fun _ hn => hother (ofImage_indexed hn hroot)

theorem frames_setZimageAxes {cmptype : Text} {zbitpix : Bitpix} {dims tiles : List ℕ}
    (h : setZimageAxes header cmptype zbitpix dims tiles = .ok next) : header.Frames next := by
  obtain ⟨_, hzimage, h⟩ := Loops.ok_of_bind h
  obtain ⟨_, htypes, h⟩ := Loops.ok_of_bind h
  obtain ⟨_, -, h⟩ := Loops.ok_of_bind h
  obtain ⟨_, hznaxis, h⟩ := Loops.ok_of_bind h
  obtain ⟨_, haxes, h⟩ := Loops.ok_of_bind h
  refine (frames_setCommented hzimage (Or.inl rfl)).trans ?_
  refine (frames_setAll htypes ?_).trans ?_
  · intro entry hentry
    rcases List.mem_pair.mp hentry with rfl | rfl <;> exact Or.inl rfl
  refine (frames_setInternal hznaxis (Or.inl rfl)).trans ?_
  exact (frames_setIndexed haxes (Or.inl rfl)).trans (frames_setIndexed h (Or.inl rfl))

theorem frames_setParameter {n : ℕ} {name : Text} {value : Outcome (Value R)}
    (h : setParameter header n name value = .ok next) : header.Frames next := by
  obtain ⟨_, hzname, h⟩ := Loops.ok_of_bind h
  obtain ⟨_, hnamed, h⟩ := Loops.ok_of_bind h
  obtain ⟨_, hzval, h⟩ := Loops.ok_of_bind h
  obtain ⟨_, -, h⟩ := Loops.ok_of_bind h
  exact (frames_setInternal hnamed (ofImage_indexed hzname (Or.inl rfl))).trans
    (frames_setInternal h (ofImage_indexed hzval (Or.inl rfl)))

theorem frames_setCodecParameters {codec : TileCodec} {scale : R}
    (h : setCodecParameters header codec scale = .ok next) : header.Frames next := by
  cases codec with
  | rice coder =>
    obtain ⟨_, hblocksize, h⟩ := Loops.ok_of_bind h
    exact (frames_setParameter hblocksize).trans (frames_setParameter h)
  | hcompress coder => exact frames_setParameter h
  | gzip1 level => exact Except.ok.inj h ▸ fun _ _ => rfl
  | gzip2 level => exact Except.ok.inj h ▸ fun _ _ => rfl
  | plio coder => exact Except.ok.inj h ▸ fun _ _ => rfl
  | noCompress => exact Except.ok.inj h ▸ fun _ _ => rfl

/-- A column that is set has its format, and the other keywords read the same. -/
theorem reads_setColumn {n : ℕ} {name form : Text} (h : setColumn header n name form = .ok next) :
    ∃ ttype tform, Keyword.TTYPE.indexed n = .ok ttype ∧ Keyword.TFORM.indexed n = .ok tform ∧
      next.value (.keyword tform) = .ok (some (.text form)) ∧
      ∀ other, other ≠ ttype → other ≠ tform →
        next.value (.keyword other) = header.value (.keyword other) := by
  obtain ⟨ttype, httype, h⟩ := Loops.ok_of_bind h
  obtain ⟨named, hnamed, h⟩ := Loops.ok_of_bind h
  obtain ⟨tform, htform, h⟩ := Loops.ok_of_bind h
  refine ⟨ttype, tform, httype, htform, Header.value_set (Header.ok_of_expectOk h), ?_⟩
  intro other hname hform
  rw [Header.value_set_of_ne (Header.ok_of_expectOk h) hform,
    Header.value_set_of_ne (Header.ok_of_expectOk hnamed) hname]

/-- The header of a container holds its heap's length, its row's and the count of its rows. -/
theorem reads_containerHeader {rowLen rowCount fieldCount heapLen : ℕ}
    (h : containerHeader rowLen rowCount fieldCount heapLen = .ok header) :
    heapLen < 2 ^ 63 ∧
    header.value (.keyword .PCOUNT) = .ok (some (.ofInt heapLen)) ∧
    ∀ (i length : ℕ), [rowLen, rowCount][i]? = some length → ∃ keyword,
      Keyword.NAXIS.indexed (i + 1) = .ok keyword ∧ length < 2 ^ 63 ∧
      header.value (.keyword keyword) = .ok (some (.ofInt length)) := by
  obtain ⟨opened, hopened, h⟩ := Loops.ok_of_bind h
  obtain ⟨fields, -, h⟩ := Loops.ok_of_bind h
  have hset := Header.ok_of_expectOk h
  obtain ⟨hfits, hpcount, haxes⟩ := Prologue.reads_header rfl hopened
  refine ⟨hfits, (Header.value_set_of_ne hset (by decide)).trans hpcount, fun i length hlength => ?_⟩
  obtain ⟨keyword, hkeyword, hlt, hvalue⟩ := haxes i length hlength
  refine ⟨keyword, hkeyword, hlt, (Header.value_set_of_ne hset ?_).trans hvalue⟩
  rintro rfl
  have hhead := Header.head?_indexed hkeyword
  exact absurd hhead (by decide)

end Headers

theorem frames_addToHeader {R : Type} [PlaneReals R] {scaling : Scaling R} {bitpix : Bitpix}
    {header next : Header R} (h : scaling.addToHeader header bitpix = .ok next) :
    header.Frames next := by
  obtain ⟨_, -, h⟩ := Loops.ok_of_bind h
  obtain ⟨mapped, hmap, h⟩ := Loops.ok_of_bind h
  have hmapped : header.Frames mapped := by
    unfold Scaling.addMap at hmap
    split at hmap
    · exact Except.ok.inj hmap ▸ fun _ _ => rfl
    · refine frames_setAll hmap fun entry hentry => ?_
      rcases List.mem_pair.mp hentry with rfl | rfl <;> exact Or.inr rfl
  refine hmapped.trans ?_
  unfold Scaling.addBlank at h
  split at h
  · exact Except.ok.inj h ▸ fun _ _ => rfl
  · exact frames_setInternal h (Or.inr rfl)

/-! ## Formats -/

theorem parse_arrayForm (width : DescriptorWidth) (kind : ElementKind) (longest : ℕ) :
    ∃ tform, Tform.parse (arrayForm width kind longest) = .ok tform ∧ tform.repeatCount = 1 ∧
      tform.element = kind ∧ tform.descriptorWidth = some width := by
  have hform : arrayForm width kind longest = 0x31 :: width.letter :: kind.code ::
      (ascii "(" ++ Decimal.numeral longest) ++ [0x29] := by
    rw [arrayForm, List.append_assoc (ascii "1" ++ _)]
    rfl
  have htrim : trim (arrayForm width kind longest) = arrayForm width kind longest := by
    rw [hform]
    exact trim_eq_self (by decide) (by decide)
  have hletter : isAsciiAlphabetic 0x31 = false ∧ isAsciiAlphabetic width.letter = true := by
    cases width <;> decide
  have hpos : (arrayForm width kind longest).findIdx? isAsciiAlphabetic = some 1 := by
    rw [hform]
    simp only [List.cons_append, List.findIdx?_cons, hletter, Bool.false_eq_true, if_false, if_true,
      Option.map_some, Nat.zero_add]
  have hcount : Tform.leadingCount ((arrayForm width kind longest).take 1) = some 1 := by
    rw [hform]
    exact (by decide : Tform.leadingCount [0x31] = some 1)
  have hload : load (arrayForm width kind longest) 1 = .ok width.letter := by
    rw [hform]
    rfl
  have hcode : (arrayForm width kind longest)[1 + 1]? = some kind.code := by
    rw [hform]
    rfl
  have hwidth : DescriptorWidth.ofLetter width.letter = some width := by
    cases width <;> decide
  have hkind : ElementKind.fromCode kind.code = some kind := by
    cases kind <;> decide
  refine ⟨⟨1, kind, .array width, fun _ => le_rfl⟩, ?_, rfl, rfl, rfl⟩
  rw [Tform.parse, htrim]
  rw [hpos, Tform.part, Loops.bind_ok rfl, hcount, Tform.part, Loops.bind_ok rfl,
    Loops.bind_ok hload, hwidth]
  dsimp only
  rw [dif_pos le_rfl, hcode, Tform.part, Loops.bind_ok rfl, hkind, Tform.part, Loops.bind_ok rfl]

end FitsWell
