import FitsWell.BinTable.Cells
import FitsWell.BinTable.Selection
import FitsWell.Library.Lockstep

/-!
# A selection's copy is faithful

The copy holds the chosen rows in order, and each chosen array's new descriptor leads to
the bytes the old one did.
-/

namespace FitsWell

open Bytes

/-! ## Fetched ranges -/

variable {data : List UInt8}

/-- The output once the range held back lands. -/
def Merged.content (data : List UInt8) (reads : Merged) : List UInt8 :=
  reads.out ++ (reads.pending.map (sliceOf data)).getD []

/-- The range held back lies in the data unit. -/
def Merged.Within (data : List UInt8) (reads : Merged) : Prop :=
  ∀ pending ∈ reads.pending, pending.start ≤ pending.stop ∧ pending.stop ≤ data.length

/-- The length announced is the one the output has. -/
theorem nextOffset_eq {reads : Merged} (h : reads.Within data) :
    reads.nextOffset = (reads.content data).length := by
  rcases reads with ⟨out, _ | pending⟩
  · simp [Merged.nextOffset, Merged.content]
  · have hpending := (h pending rfl).2
    simp only [Merged.nextOffset, Merged.content, Option.map_some, Option.getD_some,
      List.length_append, length_sliceOf hpending]

theorem flush_content {fetch : Fetch data} {reads next : Merged}
    (h : reads.flush fetch = .ok next) : next = ⟨reads.content data, none⟩ := by
  rcases reads with ⟨out, _ | pending⟩
  · rw [← Except.ok.inj h, Merged.content]
    simp
  · obtain ⟨bytes, hbytes, h⟩ := Loops.ok_of_bind h
    rw [← Except.ok.inj h, fetch.exact pending bytes hbytes]
    rfl

/-- A range pushed lands after the ranges before it, at once or later. -/
theorem push_content {fetch : Fetch data} {reads next : Merged} {range : Span}
    (hrange : range.start ≤ range.stop ∧ range.stop ≤ data.length) (hwithin : reads.Within data)
    (h : reads.push fetch range = .ok next) :
    next.content data = reads.content data ++ sliceOf data range ∧ next.Within data ∧
      reads.out <+: next.out := by
  unfold Merged.push at h
  split at h
  · rename_i hempty
    obtain rfl := Except.ok.inj h
    rw [sliceOf_of_le data hempty, List.append_nil]
    exact ⟨rfl, hwithin, List.prefix_rfl⟩
  · split at h
    · rename_i pending hpending
      have hbefore := hwithin pending hpending
      split at h
      · rename_i hjoin
        obtain rfl := Except.ok.inj h
        obtain ⟨start, stop⟩ := range
        obtain rfl := hjoin
        refine ⟨?_, ?_, List.prefix_rfl⟩
        · rw [Merged.content, Merged.content, hpending]
          simp only [Option.map_some, Option.getD_some, List.append_assoc]
          rw [← sliceOf_append data hbefore.1 hrange.1]
        · rintro _ ⟨⟩
          exact ⟨le_trans hbefore.1 hrange.1, hrange.2⟩
      · obtain ⟨flushed, hflush, h⟩ := Loops.ok_of_bind h
        obtain rfl := flush_content hflush
        obtain rfl := Except.ok.inj h
        refine ⟨rfl, ?_, List.prefix_append _ _⟩
        rintro _ ⟨⟩
        exact hrange
    · obtain ⟨flushed, hflush, h⟩ := Loops.ok_of_bind h
      obtain rfl := flush_content hflush
      obtain rfl := Except.ok.inj h
      refine ⟨rfl, ?_, List.prefix_append _ _⟩
      rintro _ ⟨⟩
      exact hrange

/-- A change of the bytes landed is one of the output. -/
theorem content_set {reads : Merged} {out : List UInt8} {slot width : ℕ}
    (hlength : out.length = reads.out.length)
    (h : AgreeOutside reads.out out ⟨slot, slot + width⟩) :
    AgreeOutside (reads.content data) (Merged.content data { reads with out := out })
      ⟨slot, slot + width⟩ := by
  refine ⟨by simp only [Merged.content, List.length_append, hlength, le_refl], ?_⟩
  intro k hk hout
  simp only [Merged.content]
  rcases Nat.lt_or_ge k reads.out.length with hlt | hge
  · rw [List.getElem?_append_left hlt, List.getElem?_append_left (hlength ▸ hlt)]
    exact h.same k hlt hout
  · rw [List.getElem?_append_right hge, List.getElem?_append_right (hlength ▸ hge), hlength]

/-! ## The rows -/

variable {selection : TableSelection} {fetch : Fetch data}

/-- The bytes of row `row` of a table whose rows are `rowLen` long. -/
def rowSpan (rowLen row : ℕ) : Span := ⟨row * rowLen, row * rowLen + rowLen⟩

/-- The rows chosen are the table's, of `count` rows. -/
def TableRows.Valid (rows : TableRows) (count : ℕ) : Prop :=
  match rows with
  | .range rows => rows.start ≤ rows.stop ∧ rows.stop ≤ count
  | .picked rows => ∀ row ∈ rows, row < count

/-- The rows of the output are those chosen. -/
structure RowsCopied (selection : TableSelection) (data out : List UInt8) : Prop where
  valid : selection.rows.Valid selection.schema.extent.rowCount
  length : out.length = selection.rows.len * selection.schema.extent.rowLen
  rows : ∀ i < selection.rows.len, ∃ row, selection.rows.get i = .ok row ∧
    row < selection.schema.extent.rowCount ∧
    sliceOf out (rowSpan selection.schema.extent.rowLen i) =
      sliceOf data (rowSpan selection.schema.extent.rowLen row)

theorem validateRow_ok {row len : ℕ} (h : validateRow row len = .ok ()) : row < len := by
  unfold validateRow at h
  split at h
  · cases h
  · omega

theorem validateRowRange_ok {rows : Span} {len : ℕ} (h : validateRowRange rows len = .ok ()) :
    rows.start ≤ rows.stop ∧ rows.stop ≤ len := by
  unfold validateRowRange at h
  split at h
  · cases h
  · omega

theorem rowSpan_le (rowLen : ℕ) {row count : ℕ} (h : row < count) :
    (rowSpan rowLen row).stop ≤ count * rowLen := by
  have hmul := Nat.mul_le_mul_right rowLen (Nat.succ_le_of_lt h)
  rwa [Nat.succ_mul] at hmul

/-- The rows fetched are those chosen, in order. -/
theorem copyRows_ok {reads : Merged} (hdata : selection.schema.extent.heapEnd ≤ data.length)
    (h : selection.copyRows fetch = .ok reads) :
    reads.pending = none ∧ RowsCopied selection data reads.out := by
  have hmain := le_trans selection.schema.main (le_trans selection.schema.heap hdata)
  unfold TableSelection.copyRows at h
  obtain ⟨before, hrows, h⟩ := Loops.ok_of_bind h
  obtain rfl := flush_content h
  refine ⟨rfl, ?_⟩
  obtain ⟨L, hL⟩ : ∃ L, selection.schema.extent.rowLen = L := ⟨_, rfl⟩
  rw [hL] at hmain
  have hempty : Merged.Within data ⟨[], none⟩ := by
    rintro _ ⟨⟩
  cases hcases : selection.rows with
  | range rows =>
    rw [TableSelection.pushRows, hcases] at hrows
    dsimp only at hrows
    rw [hL] at hrows
    obtain ⟨_, hvalid, hrows⟩ := Loops.ok_of_bind hrows
    obtain ⟨start, hstart, hrows⟩ := Loops.ok_of_bind hrows
    obtain ⟨stop, hstop, hrows⟩ := Loops.ok_of_bind hrows
    obtain ⟨hle, hcount⟩ := validateRowRange_ok hvalid
    obtain ⟨-, rfl⟩ := mulUsize_eq_ok_iff.mp hstart
    obtain ⟨-, rfl⟩ := mulUsize_eq_ok_iff.mp hstop
    have hspan : rows.start * L ≤ rows.stop * L ∧ rows.stop * L ≤ data.length :=
      ⟨Nat.mul_le_mul_right L hle, le_trans (Nat.mul_le_mul_right L hcount) hmain⟩
    obtain ⟨hcontent, -⟩ := push_content hspan hempty hrows
    have hlen : rows.len * L = rows.stop * L - rows.start * L := Nat.sub_mul ..
    refine ⟨by rw [hcases]; exact ⟨hle, hcount⟩, ?_, ?_⟩
    · rw [hcontent, hcases, hL, List.length_append, length_sliceOf hspan.2]
      simp only [Merged.content, TableRows.len, Span.len, List.length_append, List.length_nil,
        Option.map_none, Option.getD_none, Nat.zero_add]
      exact hlen.symm
    · intro i hi
      rw [hcases] at hi ⊢
      simp only [TableRows.len, Span.len] at hi
      have hword := selection.schema.words.2
      refine ⟨rows.start + i, addUsize_of_le (by omega), by omega, ?_⟩
      have hrow := rowSpan_le L (by omega : rows.start + i < rows.stop)
      rw [hcontent, hL]
      simp only [rowSpan, Nat.add_mul] at hrow ⊢
      rw [Merged.content]
      simp only [Option.map_none, Option.getD_none, List.append_nil, List.nil_append]
      rw [sliceOf_sliceOf data hrow]
  | picked rows =>
    rw [TableSelection.pushRows, hcases] at hrows
    have hpushed : (Merged.Within data before ∧
        (before.content data).length = rows.length * L) ∧ ∀ i row, rows[i]? = some row →
          row < selection.schema.extent.rowCount ∧
          sliceOf (before.content data) (rowSpan L i) = sliceOf data (rowSpan L row) := by
      refine Loops.foldlM_partial (P := fun done reads => (Merged.Within data reads ∧
        (reads.content data).length = done.length * L) ∧ ∀ i row, done[i]? = some row →
          row < selection.schema.extent.rowCount ∧
          sliceOf (reads.content data) (rowSpan L i) = sliceOf data (rowSpan L row))
        ⟨⟨hempty, by simp [Merged.content]⟩, by simp⟩ ?_ hrows
      rintro done row todo - reads next ⟨⟨hwithin, hlength⟩, hdone⟩ hpush
      obtain ⟨_, hvalid, hpush⟩ := Loops.ok_of_bind hpush
      obtain ⟨start, hstart, hpush⟩ := Loops.ok_of_bind hpush
      obtain ⟨stop, hstop, hpush⟩ := Loops.ok_of_bind hpush
      have hrow := validateRow_ok hvalid
      obtain ⟨-, rfl⟩ := mulUsize_eq_ok_iff.mp hstart
      obtain ⟨-, rfl⟩ := mulUsize_eq_ok_iff.mp hstop
      rw [hL, Nat.succ_mul] at hpush
      have hspan := rowSpan_le L hrow
      obtain ⟨hcontent, hnext, -⟩ := push_content ⟨Nat.le_add_right _ _, le_trans hspan hmain⟩
        hwithin hpush
      have hbytes : (sliceOf data (rowSpan L row)).length = L := by
        rw [length_sliceOf (le_trans hspan hmain), rowSpan, Span.len, Nat.add_sub_cancel_left]
      refine ⟨⟨hnext, ?_⟩, fun i other hother => ?_⟩
      · rw [hcontent, List.length_append, hlength, hbytes, List.length_append,
          List.length_singleton, Nat.succ_mul]
      · rw [hcontent]
        rcases Nat.lt_or_ge i done.length with hlt | hge
        · rw [List.getElem?_append_left hlt] at hother
          obtain ⟨hcount, hslice⟩ := hdone i other hother
          have hplace := rowSpan_le L hlt
          rw [← hlength] at hplace
          exact ⟨hcount, by rw [(AgreeOutside.append _ _ ⟨0, 0⟩).sliceOf_eq hplace
            (Or.inr (Nat.zero_le _)), hslice]⟩
        · rw [List.getElem?_append_right hge, List.getElem?_singleton] at hother
          split at hother
          · rename_i hzero
            obtain rfl := Option.some.inj hother
            obtain rfl : i = done.length := by omega
            have hplace : rowSpan L done.length =
                ⟨(reads.content data).length, (reads.content data).length + L⟩ := by
              rw [hlength, rowSpan]
            exact ⟨hrow, by rw [hplace]; exact sliceOf_append_self _ _ (by rw [hbytes])⟩
          · cases hother
    obtain ⟨⟨-, hlength⟩, hdone⟩ := hpushed
    refine ⟨?_, ?_, ?_⟩
    · rw [hcases]
      intro row hrow
      obtain ⟨i, hi⟩ := List.mem_iff_getElem?.mp hrow
      exact (hdone i row hi).1
    · rw [hcases, hL]
      exact hlength
    · intro i hi
      rw [hcases] at hi ⊢
      have hget : rows[i]? = some rows[i] := List.getElem?_eq_getElem hi
      obtain ⟨hrow, hslice⟩ := hdone i _ hget
      exact ⟨rows[i], load_of_getElem? hget, hrow, by rw [hL]; exact hslice⟩

/-! ## The arrays -/

/-- What the copy of a cell says, of column `p` in row `row` of the output, which is row
`tableRow` of the table. -/
inductive CellCopied (selection : TableSelection) (data out : List UInt8) (row tableRow : ℕ)
    (p : Column × ℕ) : Prop
  /-- A fixed cell is the table's. -/
  | fixed (hstorage : p.1.tform.descriptorWidth = none)
      (hbytes : sliceOf out (p.1.place selection.schema.extent.rowLen row) =
        sliceOf data (p.1.place selection.schema.extent.rowLen tableRow))
  /-- A column of no descriptors has no cell. -/
  | absent {width : DescriptorWidth} (hstorage : p.1.tform.descriptorWidth = some width)
      (hrepeat : p.1.tform.repeatCount = 0)
  /-- A selected array's bytes are the table's, where its descriptor says. -/
  | array {width : DescriptorWidth} {span : VlaCellSpan} (offset : ℕ)
      (hstorage : p.1.tform.descriptorWidth = some width)
      (hrepeat : p.1.tform.repeatCount ≠ 0)
      (hselected : selected selection.columns p.2 = .ok true)
      (hspan : VlaCellSpan.new selection.schema p.1 width tableRow
        (sliceOf data (p.1.place selection.schema.extent.rowLen tableRow)) = .ok span)
      (hcell : PqDescriptor.encode ⟨span.count, offset⟩ width =
        .ok (sliceOf out (p.1.place selection.schema.extent.rowLen row)))
      (hroom : selection.rows.len * selection.schema.extent.rowLen + offset +
        span.heapRange.len ≤ out.length)
      (hbytes : sliceOf out ⟨selection.rows.len * selection.schema.extent.rowLen + offset,
          selection.rows.len * selection.schema.extent.rowLen + offset + span.heapRange.len⟩ =
        sliceOf data span.heapRange)
  /-- The cell of an array column left out is empty. -/
  | leftOut {width : DescriptorWidth} (hstorage : p.1.tform.descriptorWidth = some width)
      (hrepeat : p.1.tform.repeatCount ≠ 0)
      (hselected : selected selection.columns p.2 = .ok false)
      (hcell : PqDescriptor.empty.encode width =
        .ok (sliceOf out (p.1.place selection.schema.extent.rowLen row)))

/-- A change of another cell, or past the output's end, keeps a copied cell. -/
theorem CellCopied.keep {out out' : List UInt8} {row tableRow : ℕ} {p : Column × ℕ}
    {changed : Span} (h : CellCopied selection data out row tableRow p)
    (hchange : AgreeOutside out out' changed)
    (hmain : selection.rows.len * selection.schema.extent.rowLen ≤ out.length)
    (hchanged : changed.stop ≤ selection.rows.len * selection.schema.extent.rowLen)
    (hplace : (p.1.place selection.schema.extent.rowLen row).stop ≤
      selection.rows.len * selection.schema.extent.rowLen)
    (hapart : (p.1.place selection.schema.extent.rowLen row).stop ≤ changed.start ∨
      changed.stop ≤ (p.1.place selection.schema.extent.rowLen row).start) :
    CellCopied selection data out' row tableRow p := by
  have hcell := hchange.sliceOf_eq (le_trans hplace hmain) hapart
  cases h with
  | fixed hstorage hbytes => exact .fixed hstorage (hcell.trans hbytes)
  | absent hstorage hrepeat => exact .absent hstorage hrepeat
  | array offset hstorage hrepeat hselected hspan hencode hroom hbytes =>
    refine .array offset hstorage hrepeat hselected hspan (by rw [hcell, hencode])
      (le_trans hroom hchange.length) ?_
    rw [hchange.sliceOf_eq hroom (Or.inr (le_trans hchanged (Nat.le_add_right _ _))), hbytes]
  | leftOut hstorage hrepeat hselected hencode =>
    exact .leftOut hstorage hrepeat hselected (by rw [hcell, hencode])

/-- The span of a cell lies in the heap. -/
theorem span_within {schema : Schema} {column : Column} {width : DescriptorWidth} {row : ℕ}
    {bytes : List UInt8} {span : VlaCellSpan}
    (h : VlaCellSpan.new schema column width row bytes = .ok span) :
    span.heapRange.start ≤ span.heapRange.stop ∧
      span.heapRange.stop ≤ schema.extent.heapEnd := by
  obtain ⟨descriptor, -, h⟩ := Loops.ok_of_bind h
  split at h
  · cases h
  · rename_i range hrange
    obtain rfl := Except.ok.inj h
    obtain ⟨-, -, hle, hend, -⟩ := heapRange_within schema.heap hrange
    exact ⟨hle, hend⟩

/-- A descriptor written into the landed output, and nothing else changed. -/
theorem write_ok (data : List UInt8) {reads : Merged} {descriptor : PqDescriptor}
    {width : DescriptorWidth} {out : List UInt8} {slot : ℕ}
    (h : descriptor.write width reads.out slot = .ok out) :
    (Merged.content data { reads with out := out }).length = (reads.content data).length ∧
      out.length = reads.out.length ∧
      AgreeOutside (reads.content data) (Merged.content data { reads with out := out })
        ⟨slot, slot + width.bytes⟩ ∧
      descriptor.encode width = .ok (sliceOf (Merged.content data { reads with out := out })
        ⟨slot, slot + width.bytes⟩) := by
  obtain ⟨bytes, hbytes, h⟩ := Loops.ok_of_bind h
  obtain ⟨hroom, hlength, hagree, hslice⟩ := copySlice_agree (decode_encode hbytes).1 h
  refine ⟨by simp only [Merged.content, List.length_append, hlength], hlength,
    content_set hlength hagree, ?_⟩
  rw [hbytes, Merged.content, sliceOf_append_left _ (by rw [hlength]; exact hroom), hslice]

/-- The cell of a column in the bytes of its row. -/
theorem subslice_row {tableRow : ℕ} {p : Column × ℕ}
    (hdata : selection.schema.extent.heapEnd ≤ data.length)
    (htable : tableRow < selection.schema.extent.rowCount)
    (hp : p ∈ selection.schema.columns.zipIdx) :
    subslice (sliceOf data (rowSpan selection.schema.extent.rowLen tableRow)) p.1.byteOffset
        p.1.tform.byteWidth =
      .ok (sliceOf data (p.1.place selection.schema.extent.rowLen tableRow)) := by
  have hcell := (selection.schema.laid.mem hp).2
  have hrow := le_trans (rowSpan_le selection.schema.extent.rowLen htable)
    (le_trans selection.schema.main (le_trans selection.schema.heap hdata))
  rw [subslice_eq, rowSpan, sliceOf_sliceOf data (by omega)]
  · rfl
  · rw [length_sliceOf hrow, rowSpan, Span.len, Nat.add_sub_cancel_left]
    exact hcell

/-- The cell of one column is copied, the cells and arrays before it kept. -/
theorem copyCell_ok {reads next : Merged} {row tableRow : ℕ} {p : Column × ℕ}
    (hdata : selection.schema.extent.heapEnd ≤ data.length)
    (hwithin : reads.Within data)
    (hout : selection.rows.len * selection.schema.extent.rowLen ≤ reads.out.length)
    (hrow : row < selection.rows.len) (hget : selection.rows.get row = .ok tableRow)
    (htable : tableRow < selection.schema.extent.rowCount)
    (hp : p ∈ selection.schema.columns.zipIdx)
    (hsource : sliceOf (reads.content data) (p.1.place selection.schema.extent.rowLen row) =
      sliceOf data (p.1.place selection.schema.extent.rowLen tableRow))
    (h : selection.copyCell fetch (selection.rows.len * selection.schema.extent.rowLen) row
      reads p = .ok next) :
    next.Within data ∧
      selection.rows.len * selection.schema.extent.rowLen ≤ next.out.length ∧
      AgreeOutside (reads.content data) (next.content data)
        (p.1.place selection.schema.extent.rowLen row) ∧
      CellCopied selection data (next.content data) row tableRow p ∧
      ∀ len len', heapLenCell selection.schema selection.columns tableRow
          (sliceOf data (rowSpan selection.schema.extent.rowLen tableRow)) len p = .ok len' →
        (next.content data).length + len = (reads.content data).length + len' := by
  have hplace := place_le hrow (selection.schema.laid.mem hp).2
  have hsubslice := subslice_row hdata htable hp
  unfold TableSelection.copyCell at h
  unfold heapLenCell
  split at h
  · rename_i hstorage
    obtain rfl := Except.ok.inj h
    refine ⟨hwithin, hout, .refl _ _, .fixed hstorage hsource, fun len len' hlen => ?_⟩
    rw [Except.ok.inj hlen]
  · rename_i width hstorage
    split at h
    · rename_i hrepeat
      obtain rfl := Except.ok.inj h
      refine ⟨hwithin, hout, .refl _ _, .absent hstorage hrepeat, fun len len' hlen => ?_⟩
      rw [if_pos hrepeat] at hlen
      rw [Except.ok.inj hlen]
    · rename_i hrepeat
      obtain ⟨rowStart, hrowStart, h⟩ := Loops.ok_of_bind h
      obtain ⟨slot, hslot, h⟩ := Loops.ok_of_bind h
      obtain ⟨-, rfl⟩ := mulUsize_eq_ok_iff.mp hrowStart
      obtain ⟨-, rfl⟩ := addUsize_eq_ok_iff.mp hslot
      obtain ⟨wanted, hwanted, h⟩ := Loops.ok_of_bind h
      have hwidth := byteWidth_array hstorage hrepeat
      rw [Column.place] at hsource hplace
      rw [hwidth] at hsource hplace h
      dsimp only at hplace
      split at h
      · rename_i htrue
        obtain ⟨tableRow', hget', h⟩ := Loops.ok_of_bind h
        obtain rfl := Except.ok.inj (hget'.symm.trans hget)
        obtain ⟨bytes, hbytes, h⟩ := Loops.ok_of_bind h
        obtain ⟨span, hspan, h⟩ := Loops.ok_of_bind h
        obtain ⟨heapOffset, hoffset, h⟩ := Loops.ok_of_bind h
        obtain ⟨pushed, hpush, h⟩ := Loops.ok_of_bind h
        obtain ⟨out, hwrite, h⟩ := Loops.ok_of_bind h
        obtain rfl := Except.ok.inj h
        have hcontentLen : reads.out.length ≤ (reads.content data).length := by
          rw [Merged.content, List.length_append]
          exact Nat.le_add_right _ _
        -- the cell still holds the table's descriptor
        have hplaceOut := le_trans hplace hout
        rw [subslice_eq hplaceOut] at hbytes
        have hcell :
            sliceOf data (p.1.place selection.schema.extent.rowLen tableRow') = bytes := by
          rw [← hsource, Merged.content, sliceOf_append_left _ hplaceOut]
          exact Except.ok.inj hbytes
        rw [← hcell] at hspan
        rw [nextOffset_eq hwithin] at hoffset
        obtain ⟨-, rfl⟩ := subUsize_eq_ok_iff.mp hoffset
        obtain ⟨hstart, hstop⟩ := span_within hspan
        have hstop := le_trans hstop hdata
        obtain ⟨hcontent, hpushedWithin, hlanded⟩ := push_content ⟨hstart, hstop⟩ hwithin hpush
        obtain ⟨hcontentLength, hlength, hagree, hencode⟩ := write_ok data hwrite
        have hspanLen := length_sliceOf hstop
        have hpushedLen : (pushed.content data).length =
            (reads.content data).length + span.heapRange.len := by
          rw [hcontent, List.length_append, hspanLen]
        have hheap : selection.rows.len * selection.schema.extent.rowLen +
            ((reads.content data).length -
              selection.rows.len * selection.schema.extent.rowLen) =
            (reads.content data).length := by omega
        have hencode' := hencode
        rw [← hwidth] at hencode'
        refine ⟨hpushedWithin, ?_, ?_, .array _ hstorage hrepeat (by rw [hwanted, htrue]) hspan
          hencode' ?_ ?_, fun len len' hlen => ?_⟩
        · rw [hlength]
          exact le_trans hout hlanded.length_le
        · rw [Column.place, hwidth]
          exact (hcontent ▸ AgreeOutside.append _ _ _ : AgreeOutside _ (pushed.content data) _).trans
            hagree
        · rw [hheap, ← hpushedLen]
          exact hagree.length
        · rw [hheap, hagree.sliceOf_eq hpushedLen.ge (Or.inr (by dsimp only; omega)), hcontent]
          exact sliceOf_append_self _ _ (by rw [hspanLen])
        · rw [if_neg hrepeat, hwanted, Loops.bind_ok rfl, if_pos htrue, hsubslice,
            Loops.bind_ok rfl, hspan, Loops.bind_ok rfl] at hlen
          obtain ⟨-, rfl⟩ := checkedAdd_eq_some_iff.mp (orOverflow_eq_ok_iff.mp hlen)
          rw [hcontentLength, hpushedLen]
          omega
      · rename_i hfalse
        obtain ⟨out, hwrite, h⟩ := Loops.ok_of_bind h
        obtain rfl := Except.ok.inj h
        obtain ⟨hcontentLength, hlength, hagree, hencode⟩ := write_ok data hwrite
        refine ⟨hwithin, hlength ▸ hout, ?_, .leftOut hstorage hrepeat ?_ ?_,
          fun len len' hlen => ?_⟩
        · rwa [Column.place, hwidth]
        · rw [hwanted, Bool.eq_false_of_not_eq_true hfalse]
        · rwa [Column.place, hwidth]
        · rw [if_neg hrepeat, hwanted, Loops.bind_ok rfl, if_neg hfalse] at hlen
          rw [Except.ok.inj hlen, hcontentLength]

/-! ## The whole copy -/

/-- A column's cell in a row has been copied: an earlier row's, or one of the columns
`done` of row `row`. -/
def CellDone (row : ℕ) (done : List (Column × ℕ)) (i : ℕ) (p : Column × ℕ) : Prop :=
  i < row ∨ i = row ∧ p ∈ done

/-- The copy has passed the columns `done` of row `row`, with `len` bytes of arrays. -/
structure Copying (selection : TableSelection) (data : List UInt8) (row : ℕ)
    (done : List (Column × ℕ)) (reads : Merged) (len : ℕ) : Prop where
  within : reads.Within data
  main : selection.rows.len * selection.schema.extent.rowLen ≤ reads.out.length
  length : (reads.content data).length =
    selection.rows.len * selection.schema.extent.rowLen + len
  copied : ∀ i < selection.rows.len, ∀ tableRow, selection.rows.get i = .ok tableRow →
    ∀ p ∈ selection.schema.columns.zipIdx, CellDone row done i p →
      CellCopied selection data (reads.content data) i tableRow p
  source : ∀ i < selection.rows.len, ∀ tableRow, selection.rows.get i = .ok tableRow →
    ∀ p ∈ selection.schema.columns.zipIdx, ¬CellDone row done i p →
      sliceOf (reads.content data) (p.1.place selection.schema.extent.rowLen i) =
        sliceOf data (p.1.place selection.schema.extent.rowLen tableRow)

/-- The columns of a schema are apart as pairs with their indices. -/
theorem zipIdx_nodup (columns : List Column) : columns.zipIdx.Nodup := by
  refine List.Nodup.of_map Prod.snd ?_
  rw [List.zipIdx_map_snd]
  exact List.nodup_range'

/-- Copying one more cell. -/
theorem Copying.step {row tableRow len len' : ℕ} {done : List (Column × ℕ)} {p : Column × ℕ}
    {reads next : Merged} (h : Copying selection data row done reads len)
    (hdata : selection.schema.extent.heapEnd ≤ data.length) (hrow : row < selection.rows.len)
    (hget : selection.rows.get row = .ok tableRow)
    (htable : tableRow < selection.schema.extent.rowCount)
    (hp : p ∈ selection.schema.columns.zipIdx) (hnew : p ∉ done)
    (hcopy : selection.copyCell fetch
      (selection.rows.len * selection.schema.extent.rowLen) row reads p = .ok next)
    (hlen : heapLenCell selection.schema selection.columns tableRow
      (sliceOf data (rowSpan selection.schema.extent.rowLen tableRow)) len p = .ok len') :
    Copying selection data row (done ++ [p]) next len' := by
  have hnotDone : ¬CellDone row done row p := by
    rintro (hlt | ⟨-, hmem⟩)
    · exact lt_irrefl row hlt
    · exact hnew hmem
  obtain ⟨hwithin, hmain, hagree, hcopied, hlength⟩ := copyCell_ok hdata h.within h.main hrow hget
    htable hp (h.source row hrow tableRow hget p hp hnotDone) hcopy
  have hcontent : selection.rows.len * selection.schema.extent.rowLen ≤
      (reads.content data).length := by
    rw [h.length]
    exact Nat.le_add_right _ _
  have hplace := place_le hrow (selection.schema.laid.mem hp).2
  have hother : ∀ i < selection.rows.len, ∀ q ∈ selection.schema.columns.zipIdx,
      ¬(i = row ∧ q = p) →
      (q.1.place selection.schema.extent.rowLen i).stop ≤
          selection.rows.len * selection.schema.extent.rowLen ∧
        ((q.1.place selection.schema.extent.rowLen i).stop ≤
            (p.1.place selection.schema.extent.rowLen row).start ∨
          (p.1.place selection.schema.extent.rowLen row).stop ≤
            (q.1.place selection.schema.extent.rowLen i).start) := by
    intro i hi q hq hne
    exact ⟨place_le hi (selection.schema.laid.mem hq).2,
      place_apart selection.schema.laid hq hp (not_and_or.mp hne)⟩
  refine ⟨hwithin, hmain, ?_, fun i hi other hget' q hq hdone => ?_,
    fun i hi other hget' q hq hdone => ?_⟩
  · have := hlength len len' hlen
    have := h.length
    omega
  · by_cases hthis : i = row ∧ q = p
    · obtain ⟨rfl, rfl⟩ := hthis
      obtain rfl := Except.ok.inj (hget.symm.trans hget')
      exact hcopied
    · obtain ⟨hqplace, hapart⟩ := hother i hi q hq hthis
      refine (h.copied i hi other hget' q hq ?_).keep hagree hcontent hplace hqplace hapart
      rcases hdone with hlt | ⟨rfl, hmem⟩
      · exact Or.inl hlt
      · rcases List.mem_append.mp hmem with hmem | hmem
        · exact Or.inr ⟨rfl, hmem⟩
        · exact absurd ⟨rfl, List.mem_singleton.mp hmem⟩ hthis
  · have hthis : ¬(i = row ∧ q = p) := by
      rintro ⟨rfl, rfl⟩
      exact hdone (Or.inr ⟨rfl, List.mem_append_right _ List.mem_cons_self⟩)
    obtain ⟨hqplace, hapart⟩ := hother i hi q hq hthis
    rw [hagree.sliceOf_eq (le_trans hqplace hcontent) hapart]
    refine h.source i hi other hget' q hq (fun hbefore => hdone ?_)
    exact hbefore.imp_right (fun hmem => ⟨hmem.1, List.mem_append_left _ hmem.2⟩)

/-- Copying one more row. -/
theorem Copying.row {row tableRow len len' : ℕ} {reads next : Merged}
    (h : Copying selection data row [] reads len)
    (hdata : selection.schema.extent.heapEnd ≤ data.length) (hrow : row < selection.rows.len)
    (hget : selection.rows.get row = .ok tableRow)
    (htable : tableRow < selection.schema.extent.rowCount)
    (hcopy : selection.schema.columns.zipIdx.foldlM (selection.copyCell fetch
      (selection.rows.len * selection.schema.extent.rowLen) row) reads = .ok next)
    (hlen : selection.schema.columns.zipIdx.foldlM (heapLenCell selection.schema
      selection.columns tableRow
      (sliceOf data (rowSpan selection.schema.extent.rowLen tableRow))) len = .ok len') :
    Copying selection data (row + 1) [] next len' := by
  have hrun := foldlM_both (R := Copying selection data row) h
    (fun done p todo hitems reads len next len' hcopying hcopy hlen => by
      have hnodup := zipIdx_nodup selection.schema.columns
      rw [hitems, List.nodup_append] at hnodup
      have hnew : p ∉ done := fun hmem => hnodup.2.2 p hmem p List.mem_cons_self rfl
      exact hcopying.step hdata hrow hget htable (by simp [hitems]) hnew hcopy hlen) hcopy hlen
  refine ⟨hrun.within, hrun.main, hrun.length, fun i hi other hother p hp hdone => ?_,
    fun i hi other hother p hp hdone => ?_⟩
  · refine hrun.copied i hi other hother p hp ?_
    rcases hdone with hlt | ⟨-, hmem⟩
    · rcases Nat.lt_succ_iff_lt_or_eq.mp hlt with hlt | rfl
      · exact Or.inl hlt
      · exact Or.inr ⟨rfl, hp⟩
    · cases hmem
  · refine hrun.source i hi other hother p hp (fun hbefore => hdone (Or.inl ?_))
    rcases hbefore with hlt | ⟨rfl, -⟩
    · exact Nat.lt_succ_of_lt hlt
    · exact Nat.lt_succ_self _

/-- A chosen row: its number in the table, and its bytes there. -/
def tableRow (selection : TableSelection) (data : List UInt8) (i : ℕ) :
    Outcome (ℕ × List UInt8) := do
  let row ← selection.rows.get i
  .ok (row, sliceOf data (rowSpan selection.schema.extent.rowLen row))

/-- The heap bytes that the chosen rows address. -/
def tableHeapLen (selection : TableSelection) (data : List UInt8) : Outcome ℕ :=
  heapLen selection.schema selection.columns
    ((List.range selection.rows.len).map (tableRow selection data))

/-- The copy of the arrays, after the rows. -/
theorem copyArrays_ok {out : List UInt8} {reads : Merged} {heap : ℕ}
    (hdata : selection.schema.extent.heapEnd ≤ data.length)
    (hrows : RowsCopied selection data out) (hheap : tableHeapLen selection data = .ok heap)
    (h : (List.range selection.rows.len).foldlM (fun reads row =>
      selection.schema.columns.zipIdx.foldlM (selection.copyCell fetch
        (selection.rows.len * selection.schema.extent.rowLen) row) reads) ⟨out, none⟩ =
          .ok reads) :
    Copying selection data selection.rows.len [] reads heap := by
  have hstart : Copying selection data 0 [] ⟨out, none⟩ 0 := by
    have hcontent : Merged.content data ⟨out, none⟩ = out := by simp [Merged.content]
    refine ⟨by rintro _ ⟨⟩, hrows.length.ge, by rw [hcontent, hrows.length, Nat.add_zero], ?_, ?_⟩
    · rintro i - row - p - (hlt | ⟨-, hmem⟩)
      · exact absurd hlt (Nat.not_lt_zero _)
      · cases hmem
    · rintro i hi row hget p hp -
      obtain ⟨row', hget', -, hslice⟩ := hrows.rows i hi
      obtain rfl := Except.ok.inj (hget'.symm.trans hget)
      have hcell := (selection.schema.laid.mem hp).2
      have hplace : ∀ r, p.1.place selection.schema.extent.rowLen r =
          ⟨r * selection.schema.extent.rowLen + p.1.byteOffset,
            r * selection.schema.extent.rowLen + p.1.byteOffset + p.1.tform.byteWidth⟩ :=
        fun _ => rfl
      have hsub := congrArg
        (fun bytes => sliceOf bytes ⟨p.1.byteOffset, p.1.byteOffset + p.1.tform.byteWidth⟩) hslice
      simp only [rowSpan] at hsub
      rw [sliceOf_sliceOf _ (by omega), sliceOf_sliceOf _ (by omega)] at hsub
      rw [hcontent, hplace, hplace, hsub]
  rw [tableHeapLen, heapLen, List.foldlM_map] at hheap
  have hrun := foldlM_both (R := fun done => Copying selection data done.length []) hstart
    (fun done row todo hitems reads len next len' hcopying hcopy hlen => by
      obtain ⟨hlength, hrow⟩ := Loops.range_split hitems
      obtain ⟨r, hget, htable, -⟩ := hrows.rows row hrow
      rw [tableRow, hget] at hlen
      rw [hlength] at hcopying
      rw [List.length_append, List.length_singleton, hlength]
      exact hcopying.row hdata hrow hget htable hcopy hlen) h hheap
  rwa [List.length_range] at hrun

/-! ## The length announced -/

/-- The bytes of a row of the main table. -/
theorem mainRow_eq (hdata : selection.schema.extent.heapEnd ≤ data.length) {row : ℕ}
    (hrow : row < selection.schema.extent.rowCount) :
    mainRow (data.take (selection.schema.extent.rowCount * selection.schema.extent.rowLen))
        selection.schema.extent.rowLen row =
      .ok (row, sliceOf data (rowSpan selection.schema.extent.rowLen row)) := by
  have hmain := selection.schema.main
  have hheap := selection.schema.heap
  have hwords := selection.schema.words.1
  have hspan := rowSpan_le selection.schema.extent.rowLen hrow
  generalize selection.schema.extent.rowCount * selection.schema.extent.rowLen = size at *
  dsimp only [rowSpan] at hspan
  have hstop : (row + 1) * selection.schema.extent.rowLen =
      row * selection.schema.extent.rowLen + selection.schema.extent.rowLen := Nat.succ_mul _ _
  have hlength : (data.take size).length = size := by
    rw [List.length_take]
    omega
  rw [mainRow, mulUsize_of_le (by omega), Loops.bind_ok rfl, mulUsize_of_le (by omega),
    Loops.bind_ok rfl, hstop, Nat.add_sub_cancel_left, subslice_eq (by omega), Loops.bind_ok rfl]
  congr 2
  exact sliceOf_congr (fun k hlow hhigh => List.getElem?_take_of_lt (by dsimp only at *; omega))

/-- The heap bytes the main table's rows address are those the chosen rows do. -/
theorem mainHeapLen_eq (hdata : selection.schema.extent.heapEnd ≤ data.length)
    (hvalid : selection.rows.Valid selection.schema.extent.rowCount) :
    selection.mainHeapLen
        (data.take (selection.schema.extent.rowCount * selection.schema.extent.rowLen)) =
      tableHeapLen selection data := by
  unfold TableSelection.mainHeapLen
  cases hcases : selection.rows with
  | range rows =>
    rw [hcases] at hvalid
    obtain ⟨hle, hcount⟩ := hvalid
    have hwords := selection.schema.words.2
    dsimp only
    rw [validateRowRange, if_neg (by omega), Loops.bind_ok rfl, tableHeapLen, hcases]
    congr 1
    rw [List.range'_eq_map_range, List.map_map]
    refine List.map_congr_left (fun i hi => ?_)
    have hi : i < rows.len := List.mem_range.mp hi
    unfold Span.len at hi
    have hget : selection.rows.get i = .ok (rows.start + i) := by
      rw [hcases]
      exact addUsize_of_le (by omega)
    have hrow : rows.start + i < selection.schema.extent.rowCount := by omega
    rw [tableRow, hget, Loops.bind_ok rfl]
    exact mainRow_eq hdata hrow
  | picked rows =>
    rw [hcases] at hvalid
    dsimp only
    have hvalidate : (rows.forM fun picked => validateRow picked selection.schema.extent.rowCount) =
        .ok () := by
      clear hcases
      induction rows with
      | nil => rfl
      | cons row rows ih =>
        rw [List.forM_eq_forM, List.forM_cons, validateRow,
          if_neg (not_le.mpr (hvalid row List.mem_cons_self)), Loops.bind_ok rfl]
        exact ih (fun r hr => hvalid r (List.mem_cons_of_mem row hr))
    rw [hvalidate, Loops.bind_ok rfl, tableHeapLen, hcases]
    congr 1
    apply List.ext_getElem
    · simp [TableRows.len]
    · intro i hi hi'
      rw [List.length_map] at hi
      have hget : selection.rows.get i = .ok rows[i] := by
        rw [hcases]
        exact load_of_getElem? (List.getElem?_eq_getElem hi)
      rw [List.getElem_map, List.getElem_map, List.getElem_range, tableRow, hget,
        Loops.bind_ok rfl]
      exact mainRow_eq hdata (hvalid _ (List.getElem_mem hi))

/-- The heap bytes the copied rows address are those the chosen rows do. -/
theorem copiedHeapLen_eq {out : List UInt8} (hrows : RowsCopied selection data out)
    (hlen : selection.schema.extent.rowLen ≠ 0) :
    selection.copiedHeapLen out = tableHeapLen selection data := by
  rw [TableSelection.copiedHeapLen, if_neg hlen, tableHeapLen]
  congr 1
  rw [copiedRows, hrows.length, Nat.mul_div_cancel _ (Nat.pos_of_ne_zero hlen)]
  refine List.map_congr_left (fun i hi => ?_)
  obtain ⟨row, hget, -, hslice⟩ := hrows.rows i (List.mem_range.mp hi)
  rw [tableRow, hget, Loops.bind_ok rfl, Loops.bind_ok rfl, ← hslice]
  rw [rowSpan, sliceOf, Span.len, Nat.add_sub_cancel_left]

/-- Rows of no bytes hold no arrays. -/
theorem tableHeapLen_empty {out : List UInt8} (hrows : RowsCopied selection data out)
    (hlen : selection.schema.extent.rowLen = 0) : tableHeapLen selection data = .ok 0 := by
  have hcell : ∀ row bytes, ∀ p ∈ selection.schema.columns.zipIdx, ∀ len,
      heapLenCell selection.schema selection.columns row bytes len p = .ok len := by
    intro row bytes p hp len
    unfold heapLenCell
    split
    · rfl
    · rename_i width hstorage
      split
      · rfl
      · rename_i hrepeat
        have hcell := (selection.schema.laid.mem hp).2
        rw [byteWidth_array hstorage hrepeat, hlen] at hcell
        cases width <;> simp [DescriptorWidth.bytes] at hcell
  rw [tableHeapLen, heapLen, List.foldlM_map]
  have hrow : ∀ row bytes, selection.schema.columns.zipIdx.foldlM
      (heapLenCell selection.schema selection.columns row bytes) 0 = .ok 0 := by
    intro row bytes
    generalize selection.schema.columns.zipIdx = columns at hcell
    induction columns with
    | nil => rfl
    | cons p columns ih =>
      rw [List.foldlM_cons, hcell row bytes p List.mem_cons_self, Loops.bind_ok rfl]
      exact ih (fun row bytes q hq => hcell row bytes q (List.mem_cons_of_mem p hq))
  have hrun : ∃ len, (List.range selection.rows.len).foldlM (fun len i => do
      let row ← tableRow selection data i
      selection.schema.columns.zipIdx.foldlM
        (heapLenCell selection.schema selection.columns row.1 row.2) len) 0 = .ok len ∧
      len = 0 := by
    refine Loops.range_total (P := fun _ len => len = 0) rfl ?_
    rintro i hi len rfl
    obtain ⟨row, hget, -⟩ := hrows.rows i hi
    refine ⟨0, ?_, rfl⟩
    rw [tableRow, hget]
    exact hrow _ _
  obtain ⟨len, hrun, rfl⟩ := hrun
  exact hrun

/-! ## Reading the copy -/

/-- What the copy of a cell reads, in row `row` of the copy `view`, which is row `tableRow`
of the table `source`. -/
structure CellReads (selection : TableSelection) (source view : TableView) (row tableRow : ℕ)
    (p : Column × ℕ) : Prop where
  /-- A fixed cell has the bytes of the table's. -/
  fixed : p.1.tform.descriptorWidth = none →
    ∃ bytes, source.cell p.1 tableRow = .ok bytes ∧ view.cell p.1 row = .ok bytes
  /-- A selected array has the bytes and the count of the table's. -/
  array : ∀ width, p.1.tform.descriptorWidth = some width →
    selected selection.columns p.2 = .ok true →
    ∃ descriptor descriptor' bytes,
      source.pqDescriptor p.1 width tableRow = .ok descriptor ∧
      source.pqPayload descriptor p.1.tform.element = .ok (some bytes) ∧
      view.pqDescriptor p.1 width row = .ok descriptor' ∧
      descriptor'.count = descriptor.count ∧
      view.pqPayload descriptor' p.1.tform.element = .ok (some bytes) ∧
      view.vlaCell p.1 width p.2 row = source.vlaCell p.1 width p.2 tableRow
  /-- An array left out is empty. -/
  leftOut : ∀ width, p.1.tform.descriptorWidth = some width →
    selected selection.columns p.2 = .ok false →
    view.pqDescriptor p.1 width row = .ok .empty ∧
      view.pqPayload .empty p.1.tform.element = .ok (some [])

/-- What a selection's copy says: it has the length announced, and is a table of the schema
with the chosen rows in order. -/
structure FaithfulCopy (selection : TableSelection) (source : TableView) (out : List UInt8) :
    Prop where
  announced : selection.copiedLen (source.bytes.take
    (selection.schema.extent.rowCount * selection.schema.extent.rowLen)) = .ok out.length
  reads : ∃ view, TableView.compact selection.schema selection.rows.len out = .ok view ∧
    ∀ i < selection.rows.len, ∃ row, selection.rows.get i = .ok row ∧
      row < selection.schema.extent.rowCount ∧
      ∀ p ∈ selection.schema.columns.zipIdx, CellReads selection source view i row p

/-- The table a selection reads, over its data unit. -/
def TableSelection.table (selection : TableSelection) (data : List UInt8) : TableView :=
  ⟨selection.schema.columns, selection.schema.extent, data⟩

/-- The table a selection's copy is. -/
def TableSelection.copy (selection : TableSelection) (out : List UInt8) : TableView where
  columns := selection.schema.columns
  extent := ⟨selection.rows.len, selection.schema.extent.rowLen,
    selection.rows.len * selection.schema.extent.rowLen, out.length⟩
  bytes := out

/-- The copy of an array reads as the table's. -/
theorem array_reads {out : List UInt8} {row tableRow offset : ℕ} {p : Column × ℕ}
    {width : DescriptorWidth} {span : VlaCellSpan} {cell sourceCell : List UInt8}
    (hrepeat : p.1.tform.repeatCount ≠ 0)
    (hcell : (selection.copy out).cell p.1 row = .ok cell)
    (hsourceCell : (selection.table data).cell p.1 tableRow = .ok sourceCell)
    (hdata : selection.schema.extent.heapEnd ≤ data.length) (hword : out.length ≤ usizeMax)
    (hspan : VlaCellSpan.new selection.schema p.1 width tableRow sourceCell = .ok span)
    (hencode : PqDescriptor.encode ⟨span.count, offset⟩ width = .ok cell)
    (hroom : selection.rows.len * selection.schema.extent.rowLen + offset +
      span.heapRange.len ≤ out.length)
    (hbytes : sliceOf out ⟨selection.rows.len * selection.schema.extent.rowLen + offset,
        selection.rows.len * selection.schema.extent.rowLen + offset + span.heapRange.len⟩ =
      sliceOf data span.heapRange) :
    ∃ descriptor descriptor' bytes,
      (selection.table data).pqDescriptor p.1 width tableRow = .ok descriptor ∧
      (selection.table data).pqPayload descriptor p.1.tform.element = .ok (some bytes) ∧
      (selection.copy out).pqDescriptor p.1 width row = .ok descriptor' ∧
      descriptor'.count = descriptor.count ∧
      (selection.copy out).pqPayload descriptor' p.1.tform.element = .ok (some bytes) ∧
      (selection.copy out).vlaCell p.1 width p.2 row =
        (selection.table data).vlaCell p.1 width p.2 tableRow := by
  obtain ⟨descriptor, hdescriptor, hspan⟩ := Loops.ok_of_bind hspan
  split at hspan
  · cases hspan
  rename_i range hrange
  obtain rfl := Except.ok.inj hspan
  dsimp only at hencode hroom hbytes
  obtain ⟨byteLen, hlen, hle, hend, hrangeLen⟩ := heapRange_within selection.schema.heap hrange
  have hsource : (selection.table data).pqDescriptor p.1 width tableRow = .ok descriptor := by
    rw [TableView.pqDescriptor, if_neg hrepeat, hsourceCell]
    exact hdescriptor
  have hsourcePayload := pqPayload_eq (selection.table data) hrange hle (le_trans hend hdata)
  have hcopied : (selection.copy out).pqDescriptor p.1 width row =
      .ok ⟨descriptor.count, if descriptor.count = 0 then 0 else offset⟩ := by
    rw [TableView.pqDescriptor, if_neg hrepeat, hcell]
    exact (decode_encode hencode).2
  rw [hrangeLen] at hroom hbytes
  have hwritten := heapRange_written hlen hroom hword
  -- an array of no bytes lies at the heap's start, another where it was appended
  have hpayload : (selection.copy out).pqPayload
      ⟨descriptor.count, if descriptor.count = 0 then 0 else offset⟩ p.1.tform.element =
        .ok (some (sliceOf data range)) := by
    by_cases hzero : byteLen = 0
    · rw [if_pos hzero] at hwritten
      have hmain : selection.rows.len * selection.schema.extent.rowLen ≤ out.length := by omega
      have hempty : range.stop ≤ range.start := by
        unfold Span.len at hrangeLen
        omega
      rw [pqPayload_eq (selection.copy out) hwritten le_rfl hmain, sliceOf_of_le _ le_rfl,
        sliceOf_of_le _ hempty]
    · rw [if_neg hzero] at hwritten
      rw [pqPayload_eq (selection.copy out) hwritten (Nat.le_add_right _ _) hroom, ← hbytes]
      rfl
  exact ⟨descriptor, _, sliceOf data range, hsource, hsourcePayload, hcopied, rfl, hpayload,
    by rw [vlaCell_eq hcopied hpayload, vlaCell_eq hsource hsourcePayload]; rfl⟩

/-- A copied cell reads as the table's. -/
theorem CellCopied.reads {out : List UInt8} {row tableRow : ℕ} {p : Column × ℕ}
    (h : CellCopied selection data out row tableRow p)
    (hdata : selection.schema.extent.heapEnd ≤ data.length) (hword : out.length ≤ usizeMax)
    (hmain : selection.rows.len * selection.schema.extent.rowLen ≤ out.length)
    (hrow : row < selection.rows.len) (htable : tableRow < selection.schema.extent.rowCount)
    (hp : p ∈ selection.schema.columns.zipIdx) :
    CellReads selection (selection.table data) (selection.copy out) row tableRow p := by
  have hcolumn := (selection.schema.laid.mem hp).2
  have hplace := le_trans (place_le hrow hcolumn) hmain
  have hsourcePlace := le_trans (place_le htable hcolumn)
    (le_trans selection.schema.main selection.schema.heap)
  have hcell := cell_eq (selection.copy out) p.1 row (le_trans hplace hword) hplace
  have hsourceCell := cell_eq (selection.table data) p.1 tableRow
    (le_trans hsourcePlace selection.schema.words.1) (le_trans hsourcePlace hdata)
  have hempty := pqPayload_empty (selection.copy out) p.1.tform.element hmain
  cases h with
  | fixed hstorage hbytes =>
    refine ⟨fun _ => ⟨_, hsourceCell, hcell.trans (congrArg _ hbytes)⟩, fun width hwidth => ?_,
      fun width hwidth => ?_⟩ <;> rw [hstorage] at hwidth <;> cases hwidth
  | absent hstorage hrepeat =>
    have hcopied : ∀ width, (selection.copy out).pqDescriptor p.1 width row = .ok .empty :=
      fun _ => if_pos hrepeat
    have hsource : ∀ width, (selection.table data).pqDescriptor p.1 width tableRow = .ok .empty :=
      fun _ => if_pos hrepeat
    have hsourceEmpty := pqPayload_empty (selection.table data) p.1.tform.element
      (le_trans selection.schema.heap hdata)
    refine ⟨fun hwidth => ?_, fun width _ _ => ?_, fun width _ _ => ⟨hcopied width, hempty⟩⟩
    · rw [hstorage] at hwidth
      cases hwidth
    · exact ⟨.empty, .empty, [], hsource width, hsourceEmpty, hcopied width, rfl, hempty,
        by rw [vlaCell_eq (hcopied width) hempty, vlaCell_eq (hsource width) hsourceEmpty]⟩
  | @array width span offset hstorage hrepeat hselected hspan hencode hroom hbytes =>
    refine ⟨fun hwidth => ?_, fun width' hwidth _ => ?_, fun width' _ hwanted => ?_⟩
    · rw [hstorage] at hwidth
      cases hwidth
    · obtain rfl := Option.some.inj (hstorage.symm.trans hwidth)
      exact array_reads hrepeat hcell hsourceCell hdata hword hspan hencode hroom hbytes
    · rw [hselected] at hwanted
      cases hwanted
  | @leftOut width hstorage hrepeat hselected hencode =>
    refine ⟨fun hwidth => ?_, fun width' _ hwanted => ?_, fun width' hwidth _ => ⟨?_, hempty⟩⟩
    · rw [hstorage] at hwidth
      cases hwidth
    · rw [hselected] at hwanted
      cases hwanted
    · obtain rfl := Option.some.inj (hstorage.symm.trans hwidth)
      rw [TableView.pqDescriptor, if_neg hrepeat, hcell]
      exact (decode_encode hencode).2

/-- A selection's copy is faithful: a table of its schema with the chosen rows in order, of
the length announced. -/
theorem copyInto_faithful {source : TableView} {out : List UInt8}
    (hsource : TableView.new selection.schema data = .ok source)
    (hcopy : selection.copyInto fetch = .ok out) :
    FaithfulCopy selection source out := by
  unfold TableView.new at hsource
  split at hsource
  · cases hsource
  rename_i hdata
  obtain rfl : selection.table data = source := Except.ok.inj hsource
  have hdata : selection.schema.extent.heapEnd ≤ data.length := not_lt.mp hdata
  obtain ⟨-, -, h⟩ := Loops.ok_of_bind hcopy
  obtain ⟨mainLen, hmainLen, h⟩ := Loops.ok_of_bind h
  obtain ⟨hmainWord, rfl⟩ := checkedMul_eq_some_iff.mp (orOverflow_eq_ok_iff.mp hmainLen)
  obtain ⟨⟨rows, pending⟩, hrows, h⟩ := Loops.ok_of_bind h
  obtain ⟨hpending, hcopied⟩ := copyRows_ok hdata hrows
  obtain rfl : none = pending := hpending.symm
  obtain ⟨-, -, h⟩ := Loops.ok_of_bind h
  obtain ⟨heap, hheap, h⟩ := Loops.ok_of_bind h
  obtain ⟨_, hreserve, h⟩ := Loops.ok_of_bind h
  obtain ⟨reads, hreads, h⟩ := Loops.ok_of_bind h
  obtain ⟨flushed, hflush, h⟩ := Loops.ok_of_bind h
  obtain rfl := flush_content hflush
  obtain rfl := Except.ok.inj h
  have htableHeap : tableHeapLen selection data = .ok heap := by
    by_cases hlen : selection.schema.extent.rowLen = 0
    · rw [TableSelection.copiedHeapLen, if_pos hlen] at hheap
      rw [tableHeapLen_empty hcopied hlen, ← hheap]
    · rw [← copiedHeapLen_eq hcopied hlen, hheap]
  have hcopying := copyArrays_ok hdata hcopied htableHeap hreads
  have hreserve := tryReserveExact_ok hreserve
  have hlength := hcopying.length
  have hword : (reads.content data).length ≤ usizeMax := by
    rw [hcopied.length] at hreserve
    exact le_trans hlength.le (le_trans hreserve (by decide))
  have hmain : selection.rows.len * selection.schema.extent.rowLen ≤
      (reads.content data).length := hlength ▸ Nat.le_add_right _ _
  refine ⟨?_, selection.copy (reads.content data), ?_, fun i hi => ?_⟩
  · rw [TableSelection.copiedLen, hmainLen, Loops.bind_ok rfl]
    dsimp only [TableSelection.table]
    rw [mainHeapLen_eq hdata hcopied.valid, htableHeap, Loops.bind_ok rfl, checkedAdd,
      if_pos (hlength ▸ hword), hlength]
    rfl
  · rw [TableView.compact, TableExtent.compacted, mulUsize_of_le hmainWord, Loops.bind_ok rfl,
      debugAssert, if_pos hmain]
    rfl
  · obtain ⟨row, hget, htable, -⟩ := hcopied.rows i hi
    exact ⟨row, hget, htable, fun p hp =>
      (hcopying.copied i hi row hget p hp (Or.inl hi)).reads hdata hword hmain hi htable hp⟩

/-- A table of two rows whose arrays overlap in the heap. -/
def sharedArrays : Schema where
  extent := ⟨2, 17, 34, 40⟩
  columns := [⟨⟨1, .u8, .fixed, by decide⟩, .ok none, 1, 0⟩,
    ⟨⟨1, .u8, .array .P, by decide⟩, .ok none, 2, 1⟩,
    ⟨⟨1, .u8, .array .P, by decide⟩, .ok none, 3, 9⟩]
  laid := ⟨rfl, rfl, rfl, rfl⟩
  main := by decide
  heap := by decide
  words := by decide

def sharedArraysData : List UInt8 :=
  [7, 0, 0, 0, 3, 0, 0, 0, 1, 0, 0, 0, 1, 0, 0, 0, 0,
    8, 0, 0, 0, 2, 0, 0, 0, 2, 0, 0, 0, 0, 0, 0, 0, 9,
    10, 11, 12, 13, 14, 15]

theorem copyInto_faithful_picked_twice :
    ∃ source out,
      TableView.new sharedArrays sharedArraysData = .ok source ∧
      TableSelection.copyInto ⟨sharedArrays, .picked [1, 0, 1], some [true, true, false]⟩
        (Fetch.ofSlice sharedArraysData) = .ok out ∧
      FaithfulCopy ⟨sharedArrays, .picked [1, 0, 1], some [true, true, false]⟩ source out := by
  have hcopy : TableSelection.copyInto ⟨sharedArrays, .picked [1, 0, 1],
      some [true, true, false]⟩ (Fetch.ofSlice sharedArraysData) =
        .ok [8, 0, 0, 0, 2, 0, 0, 0, 0, 0, 0, 0, 0, 0, 0, 0, 0,
          7, 0, 0, 0, 3, 0, 0, 0, 2, 0, 0, 0, 0, 0, 0, 0, 0,
          8, 0, 0, 0, 2, 0, 0, 0, 5, 0, 0, 0, 0, 0, 0, 0, 0,
          12, 13, 11, 12, 13, 12, 13] := by decide +kernel
  exact ⟨_, _, rfl, hcopy, copyInto_faithful rfl hcopy⟩

end FitsWell
