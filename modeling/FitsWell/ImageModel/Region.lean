import FitsWell.Compression.SectionScatter
import FitsWell.Library.JoinedRuns
import FitsWell.Library.Stateful

/-!
# The stored runs of a section

The stored bytes of a section of an image, a run for each of its rows, with the runs that
follow one another joined.
-/

namespace FitsWell

open MixedRadix Tiling

/-- The section `ranges` selects of an image of `shape`, of `selectedShape`, stored
`elementSize` bytes a sample. -/
structure SectionRuns where
  shape : List ℕ
  ranges : List AxisRange
  selectedShape : List ℕ
  elementSize : ℕ
  deriving DecidableEq, Repr

/-- The stride of the axis after one of `len`, where `rest` has one. -/
def nextStride (stride len : ℕ) (rest : List ℕ) : Outcome ℕ :=
  if rest = [] then .ok stride else orOverflow (checkedMul stride len)

/-- Where a row starts: its place so far, and that of its coordinates along the axes left. -/
def rowOffset : ℕ → ℕ → ℕ → List AxisRange → List ℕ → List ℕ → Outcome ℕ
  | remainder, offset, stride, range :: ranges, selected :: selectedShape, len :: shape => do
    let within ← remUsize remainder selected
    let coordinate ← addUsize range.start within
    let remainder ← divUsize remainder selected
    let offset ← orOverflow ((checkedMul coordinate stride).bind (checkedAdd offset))
    let stride ← nextStride stride len shape
    rowOffset remainder offset stride ranges selectedShape shape
  | _, offset, _, _, _, _ => .ok offset

namespace SectionRuns

/-- The run of a row of the section. -/
def rowRun (runs : SectionRuns) (rowBytes row : ℕ) : Outcome Run :=
  match runs.ranges, runs.selectedShape, runs.shape with
  | range :: ranges, _ :: selectedShape, len :: shape => do
    let element ← rowOffset row range.start len ranges selectedShape shape
    let offset ← orOverflow (checkedMul element runs.elementSize)
    .ok ⟨offset, rowBytes⟩
  | _, _, _ => abort .indexOutOfBounds

variable {σ : Type}

/-- Join `next` to the pending run where it follows it, else visit that. -/
def joinOrVisit (each : Run → Stateful Fault σ Unit) (previous next : Run) :
    Stateful Fault σ (Option Run) := do
  let stop ← Stateful.lift (orOverflow (checkedAdd previous.offset previous.len))
  if stop = next.offset then do
    let len ← Stateful.lift (orOverflow (checkedAdd previous.len next.len))
    pure (some ⟨previous.offset, len⟩)
  else do
    each previous
    pure (some next)

/-- Take the run of a row after the pending one. -/
def visitRow (runs : SectionRuns) (rowBytes : ℕ) (each : Run → Stateful Fault σ Unit)
    (pending : Option Run) (row : ℕ) : Stateful Fault σ (Option Run) := do
  let next ← Stateful.lift (runs.rowRun rowBytes row)
  match pending with
  | none => pure (some next)
  | some previous => joinOrVisit each previous next

/-- Visit the run left pending. -/
def visitLast (each : Run → Stateful Fault σ Unit) (pending : Option Run) :
    Stateful Fault σ Unit :=
  match pending with
  | none => pure ()
  | some run => each run

/-- Give `each` the runs of the section's stored bytes, in order, those that follow one
another joined. -/
def visit (runs : SectionRuns) : Producer Fault Run Unit := fun _ each => do
  Stateful.lift (debugAssert (runs.shape.length = runs.ranges.length))
  Stateful.lift (debugAssert (runs.shape.length = runs.selectedShape.length))
  if runs.selectedShape = [] ∨ 0 ∈ runs.selectedShape then pure ()
  else do
    let rowCount ← Stateful.lift (orOverflow (runs.selectedShape.tail.foldlM checkedMul 1))
    let rowBytes ←
      Stateful.lift (orOverflow (checkedMul (runs.selectedShape.headD 0) runs.elementSize))
    let pending ← (List.range rowCount).foldlM (runs.visitRow rowBytes each) none
    visitLast each pending

end SectionRuns

/-! ## The rows -/

/-- A region none of whose ranges is empty. -/
structure Stored (ranges : List AxisRange) (shape : List ℕ) : Prop where
  region : Region ranges shape
  filled : ∀ range ∈ ranges, range.start < range.stop

theorem Stored.tail {range : AxisRange} {ranges : List AxisRange} {d : ℕ} {shape : List ℕ}
    (h : Stored (range :: ranges) (d :: shape)) : Stored ranges shape :=
  ⟨(List.forall₂_cons.mp h.region).2, fun r hr => h.filled r (List.mem_cons_of_mem range hr)⟩

theorem Stored.pos {ranges : List AxisRange} {shape : List ℕ} (h : Stored ranges shape) :
    ∀ d ∈ shape, 0 < d := by
  obtain ⟨hregion, hfilled⟩ := h
  induction hregion with
  | nil => exact fun d hd => absurd hd List.not_mem_nil
  | @cons range d ranges shape hrange _ ih =>
    intro e he
    rcases List.mem_cons.mp he with rfl | he
    · have := hfilled range List.mem_cons_self
      omega
    · exact ih (fun r hr => hfilled r (List.mem_cons_of_mem range hr)) e he

theorem sectionCell_cons (range : AxisRange) (ranges : List AxisRange) (d : ℕ) (shape : List ℕ)
    (place : ℕ) : sectionCell (range :: ranges) (d :: shape) place =
      range.start + place % (range.stop - range.start) +
        d * sectionCell ranges shape (place / (range.stop - range.start)) := rfl

/-- A row starts at the cell of its coordinates. -/
theorem rowOffset_eq {ranges : List AxisRange} {shape : List ℕ} (h : Stored ranges shape)
    (row : ℕ) {offset stride : ℕ} (hoffset : offset < stride)
    (hmax : stride * shape.prod ≤ usizeMax) :
    rowOffset row offset stride ranges (regionShape ranges) shape =
      .ok (offset + stride * sectionCell ranges shape row) := by
  induction ranges generalizing shape row offset stride with
  | nil =>
    obtain rfl := List.forall₂_nil_left_iff.mp h.region
    rfl
  | cons range ranges ih =>
    obtain ⟨d, shape, hrange, -, rfl⟩ := List.forall₂_cons_left_iff.mp h.region
    have hfilled := h.filled range List.mem_cons_self
    have hlen : 0 < range.stop - range.start := by omega
    have hmod := Nat.mod_lt row hlen
    have hprod := List.prod_pos_iff_forall_pos_nat.mpr h.tail.pos
    rw [List.prod_cons, ← Nat.mul_assoc] at hmax
    have hstride : stride * d ≤ usizeMax := le_trans (Nat.le_mul_of_pos_right _ hprod) hmax
    have hcoordinate : range.start + row % (range.stop - range.start) + 1 ≤ d := by omega
    have hplace : offset + (range.start + row % (range.stop - range.start)) * stride <
        stride * d := by
      have hnext := Nat.mul_le_mul_left stride hcoordinate
      rw [Nat.mul_succ, Nat.mul_comm stride] at hnext
      omega
    have hword : d ≤ stride * d := Nat.le_mul_of_pos_left d (by omega)
    have hmul : checkedMul (range.start + row % (range.stop - range.start)) stride =
        some ((range.start + row % (range.stop - range.start)) * stride) :=
      checkedMul_eq_some_iff.mpr ⟨by omega, rfl⟩
    have hadd : checkedAdd offset ((range.start + row % (range.stop - range.start)) * stride) =
        some (offset + (range.start + row % (range.stop - range.start)) * stride) :=
      checkedAdd_eq_some_iff.mpr ⟨by omega, rfl⟩
    rw [regionShape_cons, rowOffset, remUsize_of_pos hlen, Loops.bind_ok rfl,
      addUsize_of_le (by omega), Loops.bind_ok rfl, divUsize_of_pos hlen, Loops.bind_ok rfl,
      hmul, Option.bind_some, hadd, Loops.bind_ok (rfl : orOverflow (some _) = .ok _), nextStride]
    have hcell := sectionCell_cons range ranges d shape row
    cases shape with
    | nil =>
      obtain rfl := List.forall₂_nil_right_iff.mp h.tail.region
      rw [if_pos rfl, Loops.bind_ok rfl, hcell]
      have hzero : sectionCell [] [] (row / (range.stop - range.start)) = 0 := rfl
      rw [hzero, Nat.mul_zero, Nat.add_zero, Nat.mul_comm stride]
      rfl
    | cons e shape =>
      have hnext : orOverflow (checkedMul stride d) = .ok (stride * d) :=
        orOverflow_eq_ok_iff.mpr (checkedMul_eq_some_iff.mpr ⟨hstride, rfl⟩)
      rw [if_neg (List.cons_ne_nil _ _), hnext, Loops.bind_ok rfl, ih h.tail _ hplace hmax, hcell]
      congr 1
      ring

/-- A later place of a section is a later cell of the image. -/
theorem sectionCell_lt {ranges : List AxisRange} {shape : List ℕ} (h : Stored ranges shape)
    {p q : ℕ} (hpq : p < q) (hq : q < (regionShape ranges).prod) :
    sectionCell ranges shape p < sectionCell ranges shape q := by
  induction ranges generalizing shape p q with
  | nil =>
    have hone : (regionShape []).prod = 1 := rfl
    omega
  | cons range ranges ih =>
    obtain ⟨d, shape, hrange, -, rfl⟩ := List.forall₂_cons_left_iff.mp h.region
    have hfilled := h.filled range List.mem_cons_self
    have hlen : 0 < range.stop - range.start := by omega
    have hp := Nat.mod_lt p hlen
    have hq' := Nat.mod_lt q hlen
    have hpsplit := Nat.div_add_mod p (range.stop - range.start)
    have hqsplit := Nat.div_add_mod q (range.stop - range.start)
    rw [sectionCell_cons, sectionCell_cons]
    rw [regionShape_cons, List.prod_cons] at hq
    have hdiv : p / (range.stop - range.start) ≤ q / (range.stop - range.start) :=
      Nat.div_le_div_right hpq.le
    rcases Nat.lt_or_eq_of_le hdiv with hlt | heq
    · have hrest := ih h.tail hlt (Nat.div_lt_of_lt_mul hq)
      have hnext := Nat.mul_le_mul_left d (Nat.succ_le_of_lt hrest)
      rw [Nat.succ_eq_add_one, Nat.mul_add_one] at hnext
      omega
    · rw [heq] at hpsplit ⊢
      omega

theorem sectionCell_lt_prod {ranges : List AxisRange} {shape : List ℕ} (h : Stored ranges shape)
    {p : ℕ} (hp : p < (regionShape ranges).prod) : sectionCell ranges shape p < shape.prod :=
  value_lt ((shift_starts (digits_below hp)).1.below h.region)

/-- The run of row `row` of a section. -/
def sectionRow (ranges : List AxisRange) (shape : List ℕ) (size row : ℕ) : Run where
  offset := sectionCell ranges shape (row * (regionShape ranges).headD 0) * size
  len := (regionShape ranges).headD 0 * size

/-- The runs of the rows of a section. -/
def sectionRows (ranges : List AxisRange) (shape : List ℕ) (size : ℕ) : List Run :=
  (List.range (regionShape ranges).tail.prod).map (sectionRow ranges shape size)

section Rows

variable {ranges : List AxisRange} {shape : List ℕ} (h : Stored ranges shape) (hne : ranges ≠ [])
include h hne

/-- The rows of a section and the places of a row. -/
theorem regionShape_split :
    0 < (regionShape ranges).headD 0 ∧ 0 < (regionShape ranges).tail.prod ∧
      (regionShape ranges).tail.prod * (regionShape ranges).headD 0 =
        (regionShape ranges).prod := by
  have hpos := regionShape_pos h.filled
  cases ranges with
  | nil => exact absurd rfl hne
  | cons range ranges =>
    refine ⟨hpos _ List.mem_cons_self, List.prod_pos_iff_forall_pos_nat.mpr fun l hl =>
      hpos l (List.mem_cons_of_mem _ hl), ?_⟩
    rw [regionShape_cons, List.prod_cons, Nat.mul_comm]
    rfl

/-- The places of a row are cells of the image next to one another. -/
theorem sectionCell_add (row : ℕ) {x : ℕ} (hx : x < (regionShape ranges).headD 0) :
    sectionCell ranges shape (row * (regionShape ranges).headD 0 + x) =
      sectionCell ranges shape (row * (regionShape ranges).headD 0) + x := by
  cases ranges with
  | nil => exact absurd rfl hne
  | cons range ranges =>
    obtain ⟨d, shape, hrange, -, rfl⟩ := List.forall₂_cons_left_iff.mp h.region
    have hx : x < range.stop - range.start := hx
    have hzero := @sectionCell_row range d 0 row ranges shape (by omega)
    have hrow := @sectionCell_row range d x row ranges shape hx
    rw [Nat.add_zero, Nat.add_zero, Nat.mul_comm] at hzero
    rw [Nat.mul_comm] at hrow
    have hhead : (regionShape (range :: ranges)).headD 0 = range.stop - range.start := rfl
    rw [hhead, hrow, hzero]
    omega

/-- A row ends where a later one starts, or before. -/
theorem sectionRow_le (size : ℕ) {p q : ℕ} (hpq : p < q)
    (hq : q < (regionShape ranges).tail.prod) :
    (sectionRow ranges shape size p).stop ≤ (sectionRow ranges shape size q).offset := by
  obtain ⟨hlen, -, hprod⟩ := regionShape_split h hne
  obtain ⟨l, hl⟩ : ∃ l, l = (regionShape ranges).headD 0 := ⟨_, rfl⟩
  have hadd := @sectionCell_add _ _ h hne p (l - 1) (by omega)
  rw [Run.stop, sectionRow, sectionRow, ← Nat.add_mul]
  rw [← hl] at hlen hprod hadd ⊢
  have hrow : (p + 1) * l ≤ q * l := Nat.mul_le_mul_right l hpq
  have hlast : q * l + l ≤ (regionShape ranges).tail.prod * l := by
    rw [← Nat.succ_mul]
    exact Nat.mul_le_mul_right l hq
  rw [Nat.succ_mul] at hrow
  have hlt := @sectionCell_lt _ _ h (p * l + (l - 1)) (q * l) (by omega) (by omega)
  exact Nat.mul_le_mul_right size (by omega)

/-- The rows of a section in order. -/
theorem isChain_sectionRows (size : ℕ) :
    (sectionRows ranges shape size).IsChain (fun a b => a.stop ≤ b.offset) := by
  refine List.Pairwise.isChain (List.pairwise_map.mpr ?_)
  have hmem : ∀ q ∈ List.range (regionShape ranges).tail.prod,
      q < (regionShape ranges).tail.prod := fun q => List.mem_range.mp
  refine List.Pairwise.imp_of_mem ?_ List.pairwise_lt_range
  intro p q _ hq hpq
  exact sectionRow_le h hne size hpq (hmem q hq)

/-- A row of a section lies inside the image. -/
theorem sectionRow_stop_le (size : ℕ) {row : ℕ} (hrow : row < (regionShape ranges).tail.prod) :
    (sectionRow ranges shape size row).stop ≤ shape.prod * size := by
  obtain ⟨hlen, -, hprod⟩ := regionShape_split h hne
  obtain ⟨l, hl⟩ : ∃ l, l = (regionShape ranges).headD 0 := ⟨_, rfl⟩
  have hadd := @sectionCell_add _ _ h hne row (l - 1) (by omega)
  rw [Run.stop, sectionRow, ← Nat.add_mul]
  rw [← hl] at hlen hprod hadd ⊢
  have hlast : row * l + l ≤ (regionShape ranges).tail.prod * l := by
    rw [← Nat.succ_mul]
    exact Nat.mul_le_mul_right l hrow
  have hlt := @sectionCell_lt_prod _ _ h (row * l + (l - 1)) (by omega)
  exact Nat.mul_le_mul_right size (by omega)

/-- The run of a row, computed. -/
theorem rowRun_eq {size row : ℕ} (hrow : row < (regionShape ranges).tail.prod)
    (hmax : shape.prod ≤ usizeMax) (hbytes : shape.prod * size ≤ usizeMax) :
    (SectionRuns.mk shape ranges (regionShape ranges) size).rowRun
      ((regionShape ranges).headD 0 * size) row = .ok (sectionRow ranges shape size row) := by
  have hstop := sectionRow_stop_le h hne size hrow
  have hoffset : (sectionRow ranges shape size row).offset ≤ usizeMax := by
    unfold Run.stop at hstop
    omega
  cases ranges with
  | nil => exact absurd rfl hne
  | cons range ranges =>
    obtain ⟨d, shape, hrange, -, rfl⟩ := List.forall₂_cons_left_iff.mp h.region
    have hfilled := h.filled range List.mem_cons_self
    have hcell : sectionCell (range :: ranges) (d :: shape)
        (row * (regionShape (range :: ranges)).headD 0) =
          range.start + d * sectionCell ranges shape row := by
      have hzero := @sectionCell_row range d 0 row ranges shape (by omega)
      rw [Nat.add_zero, Nat.add_zero, Nat.mul_comm] at hzero
      exact hzero
    have helement := rowOffset_eq h.tail row (by omega : range.start < d)
      (by rwa [List.prod_cons] at hmax)
    rw [sectionRow, hcell] at hoffset ⊢
    have hmul := orOverflow_eq_ok_iff.mpr (checkedMul_eq_some_iff.mpr ⟨hoffset, rfl⟩)
    rw [SectionRuns.rowRun]
    dsimp only
    rw [regionShape_cons]
    dsimp only
    rw [helement, Loops.bind_ok rfl, hmul, Loops.bind_ok rfl]

end Rows

/-! ## The visit -/

namespace SectionRuns

variable {runs : SectionRuns} {rowBytes : ℕ} {rowAt : ℕ → Run} {σ : Type}

/-- A visit of rows after a pending run hands over that run and theirs, joined. -/
theorem visitRows_eq {each : Run → Stateful Fault σ Unit} {rows : List ℕ} {pending : Run}
    (hrows : ∀ row ∈ rows, runs.rowRun rowBytes row = .ok (rowAt row))
    (hpending : pending.stop ≤ usizeMax) (hstop : ∀ row ∈ rows, (rowAt row).stop ≤ usizeMax) :
    (rows.foldlM (runs.visitRow rowBytes each) (some pending) >>= visitLast each) =
      (Run.joinFrom pending (rows.map rowAt)).forM each := by
  have hlift : ∀ {α : Type} (value : α),
      (Stateful.lift (.ok value) : Stateful Fault σ α) = pure value := fun _ => rfl
  have hword : ∀ {a b : ℕ}, a + b ≤ usizeMax → orOverflow (checkedAdd a b) = .ok (a + b) :=
    fun hle => orOverflow_eq_ok_iff.mpr (checkedAdd_eq_some_iff.mpr ⟨hle, rfl⟩)
  induction rows generalizing pending with
  | nil =>
    show (pure (some pending) >>= visitLast each) = (each pending >>= fun _ => pure ())
    rw [pure_bind, bind_pure_unit]
    rfl
  | cons row rows ih =>
    have hrow := hrows row List.mem_cons_self
    have hrowStop := hstop row List.mem_cons_self
    have hrest : ∀ other ∈ rows, runs.rowRun rowBytes other = .ok (rowAt other) :=
      fun other hother => hrows other (List.mem_cons_of_mem row hother)
    have hrestStop : ∀ other ∈ rows, (rowAt other).stop ≤ usizeMax :=
      fun other hother => hstop other (List.mem_cons_of_mem row hother)
    rw [List.foldlM_cons, visitRow, hrow, hlift, pure_bind, bind_assoc, List.map_cons, Run.joinFrom]
    dsimp only
    rw [joinOrVisit, hword hpending, hlift, pure_bind]
    by_cases hjoin : pending.stop = (rowAt row).offset
    · have hjoined : (Run.mk pending.offset (pending.len + (rowAt row).len)).stop ≤ usizeMax := by
        unfold Run.stop at hjoin hrowStop ⊢
        dsimp only
        omega
      have hwhole : pending.offset + (pending.len + (rowAt row).len) ≤ usizeMax := hjoined
      have hlen := @hword pending.len (rowAt row).len (by omega)
      have hstopEq : pending.offset + pending.len = (rowAt row).offset := hjoin
      rw [if_pos hstopEq, if_pos hjoin, hlen, hlift, pure_bind, pure_bind,
        ih hrest hjoined hrestStop]
    · have hstopEq : ¬pending.offset + pending.len = (rowAt row).offset := hjoin
      rw [if_neg hstopEq, if_neg hjoin, bind_assoc]
      simp only [pure_bind]
      exact congrArg (each pending >>= ·) (funext fun _ => ih hrest hrowStop hrestStop)

end SectionRuns

/-- A section with an empty range, or of no axes, hands over no run. -/
theorem visit_empty {ranges : List AxisRange} {shape : List ℕ} (hregion : Region ranges shape)
    (size : ℕ) (hempty : ranges = [] ∨ ∃ range ∈ ranges, range.stop ≤ range.start) :
    Hands (SectionRuns.mk shape ranges (regionShape ranges) size).visit [] (.ok ()) := by
  intro σ each
  have hlength : shape.length = ranges.length := hregion.length_eq.symm
  have hselected : shape.length = (regionShape ranges).length := by
    rw [regionShape, List.length_map, hlength]
  have hzero : regionShape ranges = [] ∨ 0 ∈ regionShape ranges := by
    rcases hempty with rfl | ⟨range, hrange, hstop⟩
    · exact Or.inl rfl
    · exact Or.inr (List.mem_map.mpr ⟨range, hrange, Nat.sub_eq_zero_of_le hstop⟩)
  rw [SectionRuns.visit, debugAssert, debugAssert, if_pos hlength, if_pos hselected, if_pos hzero]
  rfl

/-- A section hands over the runs of its rows, joined. -/
theorem visit_hands {ranges : List AxisRange} {shape : List ℕ} {size : ℕ} (h : Stored ranges shape)
    (hne : ranges ≠ []) (hsize : 0 < size) (hbytes : shape.prod * size ≤ usizeMax) :
    Hands (SectionRuns.mk shape ranges (regionShape ranges) size).visit
      (Run.join (sectionRows ranges shape size)) (.ok ()) := by
  intro σ each
  obtain ⟨hlen, hrows, hprod⟩ := regionShape_split h hne
  have hmax : shape.prod ≤ usizeMax := le_trans (Nat.le_mul_of_pos_right _ hsize) hbytes
  have hlift : ∀ {α : Type} (value : α),
      (Stateful.lift (.ok value) : Stateful Fault σ α) = pure value := fun _ => rfl
  have hlength : shape.length = ranges.length := h.region.length_eq.symm
  have hselected : shape.length = (regionShape ranges).length := by
    rw [regionShape, List.length_map, hlength]
  have hpos := regionShape_pos h.filled
  have hfull : ¬(regionShape ranges = [] ∨ 0 ∈ regionShape ranges) := by
    rintro (hnil | hzero)
    · rw [hnil] at hlen
      exact lt_irrefl 0 hlen
    · exact lt_irrefl 0 (hpos 0 hzero)
  have hshape := regionShape_prod_le h.region
  have hcount : orOverflow ((regionShape ranges).tail.foldlM checkedMul 1) =
      .ok (regionShape ranges).tail.prod := by
    have hword : (regionShape ranges).tail.prod ≤ usizeMax := by
      have := Nat.le_mul_of_pos_right (regionShape ranges).tail.prod hlen
      omega
    rw [foldlM_checkedMul_eq 1 (fun d hd => hpos d (List.mem_of_mem_tail hd)) (by rwa [Nat.one_mul]),
      Nat.one_mul]
    rfl
  have hstops : ∀ row ∈ List.range (regionShape ranges).tail.prod,
      (sectionRow ranges shape size row).stop ≤ usizeMax := fun row hrow =>
    le_trans (sectionRow_stop_le h hne size (List.mem_range.mp hrow)) hbytes
  have hrowBytes : orOverflow (checkedMul ((regionShape ranges).headD 0) size) =
      .ok ((regionShape ranges).headD 0 * size) := by
    refine orOverflow_eq_ok_iff.mpr (checkedMul_eq_some_iff.mpr ⟨?_, rfl⟩)
    have hfirst := hstops 0 (List.mem_range.mpr hrows)
    rw [Run.stop, sectionRow] at hfirst
    exact le_trans (Nat.le_add_left _ _) hfirst
  rw [SectionRuns.visit, debugAssert, debugAssert, if_pos hlength, if_pos hselected, if_neg hfull,
    hcount, hrowBytes, hlift, hlift, hlift, pure_bind, pure_bind, pure_bind, pure_bind,
    sectionRows]
  have hruns : ∀ row ∈ List.range (regionShape ranges).tail.prod,
      (SectionRuns.mk shape ranges (regionShape ranges) size).rowRun
        ((regionShape ranges).headD 0 * size) row = .ok (sectionRow ranges shape size row) :=
    fun row hrow => rowRun_eq h hne (List.mem_range.mp hrow) hmax hbytes
  rw [bind_pure_unit]
  generalize List.range (regionShape ranges).tail.prod = rows at *
  cases rows with
  | nil => rfl
  | cons row rows =>
    rw [List.foldlM_cons, SectionRuns.visitRow, hruns row List.mem_cons_self, hlift, pure_bind,
      bind_assoc, pure_bind, List.map_cons, Run.join]
    exact SectionRuns.visitRows_eq (fun other hother => hruns other (List.mem_cons_of_mem row hother))
      (hstops row List.mem_cons_self)
      (fun other hother => hstops other (List.mem_cons_of_mem row hother))

end FitsWell
