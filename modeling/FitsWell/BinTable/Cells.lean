import FitsWell.BinTable.Schema
import FitsWell.Library.Loops

/-!
# The cells of a table

A row's cells lie in it and apart from one another, and a heap array that its descriptor
gives lies in the heap.
-/

namespace FitsWell

open Bytes

/-! ## Places -/

theorem Laid.le {columns : List Column} {offset stop : ℕ} (h : Laid offset columns stop) :
    offset ≤ stop := by
  induction columns generalizing offset with
  | nil => exact Nat.le_of_eq h
  | cons column columns ih => exact le_trans (Nat.le_add_right _ _) (ih h.2)

/-- A column's cell lies in its row. -/
theorem Laid.mem {columns : List Column} {offset stop k : ℕ} (h : Laid offset columns stop)
    {p : Column × ℕ} (hp : p ∈ columns.zipIdx k) :
    offset ≤ p.1.byteOffset ∧ p.1.byteOffset + p.1.tform.byteWidth ≤ stop := by
  induction columns generalizing offset k with
  | nil => cases hp
  | cons column columns ih =>
    obtain ⟨hoffset, hrest⟩ := h
    rw [List.zipIdx_cons] at hp
    rcases List.mem_cons.mp hp with rfl | hp
    · exact ⟨hoffset.ge, hoffset ▸ hrest.le⟩
    · have := ih hrest hp
      omega

/-- The cells of two columns are apart. -/
theorem Laid.apart {columns : List Column} {offset stop k : ℕ} (h : Laid offset columns stop)
    {p p' : Column × ℕ} (hp : p ∈ columns.zipIdx k) (hp' : p' ∈ columns.zipIdx k)
    (hne : p ≠ p') :
    p.1.byteOffset + p.1.tform.byteWidth ≤ p'.1.byteOffset ∨
      p'.1.byteOffset + p'.1.tform.byteWidth ≤ p.1.byteOffset := by
  induction columns generalizing offset k with
  | nil => cases hp
  | cons column columns ih =>
    obtain ⟨hoffset, hrest⟩ := h
    rw [List.zipIdx_cons] at hp hp'
    rcases List.mem_cons.mp hp with rfl | hp <;> rcases List.mem_cons.mp hp' with rfl | hp'
    · exact absurd rfl hne
    · exact Or.inl (hoffset ▸ (hrest.mem hp').1)
    · exact Or.inr (hoffset ▸ (hrest.mem hp).1)
    · exact ih hrest hp hp'

/-- Every byte of a row lies in a column's cell. -/
theorem Laid.cover {columns : List Column} {offset stop k : ℕ} (h : Laid offset columns stop)
    {byte : ℕ} (hstart : offset ≤ byte) (hstop : byte < stop) :
    ∃ p ∈ columns.zipIdx k,
      p.1.byteOffset ≤ byte ∧ byte < p.1.byteOffset + p.1.tform.byteWidth := by
  induction columns generalizing offset k with
  | nil =>
    have hempty : offset = stop := h
    omega
  | cons column columns ih =>
    obtain ⟨hoffset, hrest⟩ := h
    rw [List.zipIdx_cons]
    by_cases hcell : byte < offset + column.tform.byteWidth
    · exact ⟨(column, k), List.mem_cons_self, by rw [hoffset]; exact ⟨hstart, hcell⟩⟩
    · obtain ⟨p, hp, hbyte⟩ := ih (k := k + 1) hrest (by omega)
      exact ⟨p, List.mem_cons_of_mem _ hp, hbyte⟩

/-- The place of a column's cell in row `row` of a table whose rows are `rowLen` long. -/
def Column.place (column : Column) (rowLen row : ℕ) : Span :=
  ⟨row * rowLen + column.byteOffset, row * rowLen + column.byteOffset + column.tform.byteWidth⟩

/-- A row's cells lie in the table's rows. -/
theorem place_le {rowLen row count : ℕ} {column : Column} (hrow : row < count)
    (hcolumn : column.byteOffset + column.tform.byteWidth ≤ rowLen) :
    (column.place rowLen row).stop ≤ count * rowLen := by
  have hmul := Nat.mul_le_mul_right rowLen (Nat.succ_le_of_lt hrow)
  rw [Nat.succ_mul] at hmul
  dsimp only [Column.place]
  omega

/-- Two cells of a table are apart. -/
theorem place_apart {columns : List Column} {rowLen row row' : ℕ} {p p' : Column × ℕ}
    (h : Laid 0 columns rowLen) (hp : p ∈ columns.zipIdx) (hp' : p' ∈ columns.zipIdx)
    (hne : row ≠ row' ∨ p ≠ p') :
    (p.1.place rowLen row).stop ≤ (p'.1.place rowLen row').start ∨
      (p'.1.place rowLen row').stop ≤ (p.1.place rowLen row).start := by
  have hstop := (h.mem hp).2
  have hstop' := (h.mem hp').2
  dsimp only [Column.place]
  rcases Nat.lt_trichotomy row row' with hlt | rfl | hlt
  · have hmul := Nat.mul_le_mul_right rowLen (Nat.succ_le_of_lt hlt)
    rw [Nat.succ_mul] at hmul
    omega
  · have := h.apart hp hp' (hne.resolve_left (fun hrow => hrow rfl))
    omega
  · have hmul := Nat.mul_le_mul_right rowLen (Nat.succ_le_of_lt hlt)
    rw [Nat.succ_mul] at hmul
    omega

theorem cell_eq (view : TableView) (column : Column) (row : ℕ)
    (hword : (column.place view.extent.rowLen row).stop ≤ usizeMax)
    (hbytes : (column.place view.extent.rowLen row).stop ≤ view.bytes.length) :
    view.cell column row = .ok (sliceOf view.bytes (column.place view.extent.rowLen row)) := by
  dsimp only [Column.place] at hword hbytes
  rw [TableView.cell, mulUsize_of_le (by omega), Loops.bind_ok rfl, addUsize_of_le (by omega),
    Loops.bind_ok rfl, subslice_eq hbytes]
  rfl

/-! ## Descriptors -/

theorem DescriptorWidth.bytes_eq (width : DescriptorWidth) :
    width.bytes = width.half + width.half := by
  cases width <;> rfl

/-- The bytes of an array's descriptor. -/
def descriptorBytes (width : DescriptorWidth) (count heapAt : ℕ) : List UInt8 :=
  beBytes width.half count ++ beBytes width.half heapAt

theorem length_descriptorBytes (width : DescriptorWidth) (count heapAt : ℕ) :
    (descriptorBytes width count heapAt).length = width.bytes := by
  rw [descriptorBytes, List.length_append, beBytes_length, beBytes_length,
    width.bytes_eq]

/-- A descriptor that its integers hold. -/
theorem encode_descriptor {width : DescriptorWidth} {count heapAt : ℕ}
    (h : count ≤ width.max ∧ heapAt ≤ width.max) :
    PqDescriptor.encode ⟨count, heapAt⟩ width = .ok (descriptorBytes width count heapAt) := if_pos h

/-- The cell of an array column is one descriptor. -/
theorem byteWidth_array {tform : Tform} {width : DescriptorWidth}
    (hstorage : tform.descriptorWidth = some width) (hrepeat : tform.repeatCount ≠ 0) :
    tform.byteWidth = width.bytes := by
  have hone := tform.descriptors
  unfold Tform.descriptorWidth at hstorage
  unfold Tform.byteWidth
  split at hstorage
  · cases hstorage
  · rename_i array harray
    obtain rfl := Option.some.inj hstorage
    rw [harray] at hone
    have hrepeatOne : tform.repeatCount = 1 := by
      have := hone (by simp)
      omega
    rw [hrepeatOne, Nat.one_mul]

/-- The bytes of an integer that a descriptor holds spell it. -/
theorem signedBe_beBytes {width : DescriptorWidth} {value : ℕ} (h : value ≤ width.max) :
    signedBe (beBytes width.half value) = value := by
  have hlt : value < 256 ^ width.half := by
    cases width <;> exact lt_of_le_of_lt h (by decide)
  rw [signedBe, ofBeBytes_beBytes_of_lt hlt, beBytes_length]
  cases width
  · have hmax : value ≤ 2147483647 := h
    have hbase : 256 ^ DescriptorWidth.P.half = 4294967296 := rfl
    rw [hbase]
    exact Int.bmod_eq_of_le (by omega) (by omega)
  · have hmax : value ≤ 9223372036854775807 := h
    have hbase : 256 ^ DescriptorWidth.Q.half = 18446744073709551616 := rfl
    rw [hbase]
    exact Int.bmod_eq_of_le (by omega) (by omega)

/-- A descriptor written reads back, save the offset of no elements. -/
theorem decode_encode {descriptor : PqDescriptor} {width : DescriptorWidth} {bytes : List UInt8}
    (h : descriptor.encode width = .ok bytes) :
    bytes.length = width.bytes ∧ PqDescriptor.decode bytes width =
      .ok ⟨descriptor.count, if descriptor.count = 0 then 0 else descriptor.offset⟩ := by
  unfold PqDescriptor.encode at h
  split at h
  · rename_i hfits
    obtain rfl := Except.ok.inj h
    have hlength : (beBytes width.half descriptor.count ++
        beBytes width.half descriptor.offset).length = width.bytes := by
      rw [List.length_append, beBytes_length, beBytes_length, width.bytes_eq]
    refine ⟨hlength, ?_⟩
    have htake : (beBytes width.half descriptor.count ++
        beBytes width.half descriptor.offset).take width.half =
          beBytes width.half descriptor.count := List.take_left' (beBytes_length _ _)
    have hdrop : (beBytes width.half descriptor.count ++
        beBytes width.half descriptor.offset).drop width.half =
          beBytes width.half descriptor.offset := List.drop_left' (beBytes_length _ _)
    rw [PqDescriptor.decode, if_neg (not_not.mpr hlength), htake, hdrop,
      signedBe_beBytes hfits.1, signedBe_beBytes hfits.2, nonnegativeField, nonnegativeField,
      if_neg (by omega), if_neg (by omega), Loops.bind_ok rfl, Loops.bind_ok rfl]
    simp only [Int.toNat_natCast]
    split <;> rfl
  · cases h

/-! ## Heap arrays -/

/-- A descriptor's range lies in the heap. -/
theorem heapRange_within {descriptor : PqDescriptor} {kind : ElementKind}
    {heapStart heapEnd : ℕ} {span : Span} (hheap : heapStart ≤ heapEnd)
    (h : descriptor.heapRange kind heapStart heapEnd = some span) :
    ∃ byteLen, kind.payloadLen descriptor.count = some byteLen ∧ span.start ≤ span.stop ∧
      span.stop ≤ heapEnd ∧ span.len = byteLen := by
  unfold PqDescriptor.heapRange at h
  obtain ⟨byteLen, hlen, h⟩ := Option.bind_eq_some_iff.mp h
  refine ⟨byteLen, hlen, ?_⟩
  split at h
  · rename_i hzero
    obtain rfl := Option.some.inj h
    exact ⟨le_rfl, hheap, by rw [hzero]; exact Nat.sub_self _⟩
  · obtain ⟨start, hstart, h⟩ := Option.bind_eq_some_iff.mp h
    obtain ⟨stop, hstop, h⟩ := Option.bind_eq_some_iff.mp h
    obtain ⟨-, rfl⟩ := checkedAdd_eq_some_iff.mp hstart
    obtain ⟨-, rfl⟩ := checkedAdd_eq_some_iff.mp hstop
    split at h
    · rename_i hend
      obtain rfl := Option.some.inj h
      exact ⟨Nat.le_add_right _ _, hend, Nat.add_sub_cancel_left _ _⟩
    · cases h

/-- The heap bytes of an array that lies in the heap. -/
theorem pqPayload_eq (view : TableView) {descriptor : PqDescriptor} {kind : ElementKind}
    {range : Span}
    (hrange : descriptor.heapRange kind view.extent.heapOffset view.extent.heapEnd = some range)
    (hle : range.start ≤ range.stop) (hbytes : range.stop ≤ view.bytes.length) :
    view.pqPayload descriptor kind = .ok (some (sliceOf view.bytes range)) := by
  have hstop : range.start + range.len = range.stop := by
    unfold Span.len
    omega
  rw [TableView.pqPayload, hrange]
  dsimp only
  rw [subslice_eq (by omega), Loops.bind_ok rfl, hstop]

theorem payloadLen_zero (kind : ElementKind) : kind.payloadLen 0 = some 0 := by
  cases kind <;> rfl

/-- The range of no elements is empty, at the heap's start. -/
theorem heapRange_empty (kind : ElementKind) (heapStart heapEnd offset : ℕ) :
    PqDescriptor.heapRange ⟨0, offset⟩ kind heapStart heapEnd = some ⟨heapStart, heapStart⟩ := by
  rw [PqDescriptor.heapRange, payloadLen_zero]
  rfl

theorem pqPayload_empty (view : TableView) (kind : ElementKind)
    (hheap : view.extent.heapOffset ≤ view.bytes.length) :
    view.pqPayload .empty kind = .ok (some []) := by
  have hrange : PqDescriptor.empty.heapRange kind view.extent.heapOffset view.extent.heapEnd =
      some ⟨view.extent.heapOffset, view.extent.heapOffset⟩ := heapRange_empty kind _ _ 0
  rw [pqPayload_eq view hrange le_rfl hheap, sliceOf_of_le _ le_rfl]

/-- Reading a heap array through its descriptor and its payload. -/
theorem vlaCell_eq {view : TableView} {column : Column} {width : DescriptorWidth}
    {index row : ℕ} {descriptor : PqDescriptor} {bytes : List UInt8}
    (hdescriptor : view.pqDescriptor column width row = .ok descriptor)
    (hpayload : view.pqPayload descriptor column.tform.element = .ok (some bytes)) :
    view.vlaCell column width index row = (do
      column.validateVlaTdim descriptor.count
      .ok { bytes := bytes, elementCount := descriptor.count
            elementType := column.tform.element }) := by
  rw [TableView.vlaCell, hdescriptor, Loops.bind_ok rfl, hpayload]
  rfl

/-- The range that a descriptor of a count and an offset reads back as. -/
theorem heapRange_written {kind : ElementKind} {count offset byteLen heapStart heapEnd : ℕ}
    (hlen : kind.payloadLen count = some byteLen) (hroom : heapStart + offset + byteLen ≤ heapEnd)
    (hword : heapEnd ≤ usizeMax) :
    PqDescriptor.heapRange ⟨count, if count = 0 then 0 else offset⟩ kind heapStart heapEnd =
      some (if byteLen = 0 then ⟨heapStart, heapStart⟩ else
        ⟨heapStart + offset, heapStart + offset + byteLen⟩) := by
  rw [PqDescriptor.heapRange, hlen, Option.bind_eq_bind, Option.bind_some]
  by_cases hzero : byteLen = 0
  · rw [if_pos hzero, if_pos hzero]
  · have hcount : count ≠ 0 := by
      rintro rfl
      rw [payloadLen_zero] at hlen
      exact hzero (Option.some.inj hlen).symm
    rw [if_neg hzero, if_neg hzero]
    dsimp only
    rw [if_neg hcount, checkedAdd, if_pos (by omega), Option.bind_some, checkedAdd,
      if_pos (by omega), Option.bind_some, if_pos hroom]

end FitsWell
