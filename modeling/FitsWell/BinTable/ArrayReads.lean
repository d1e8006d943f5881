import FitsWell.BinTable.TableReads

/-!
# Reads of an array column

The elements of all rows are counted before any is decoded, with an addition that is
checked. Where the count ends well, each row's array reads again in the decode, and the ends
of the rows rise to the count.
-/

namespace FitsWell

variable {schema : Schema} (unit : DataUnit schema)

/-- The handle to array column `index`, of descriptors of `width`. -/
def DataUnit.vla (index : ℕ) (column : Column) (width : DescriptorWidth) : VlaColumn where
  table := unit.view
  index := index
  column := column
  width := width

/-- The heap array of a row, where it reads. -/
def VlaColumn.cellOf (vla : VlaColumn) (row : ℕ) : Cell :=
  match vla.cell row with
  | .ok cell => { bytes := cell.bytes, count := cell.elementCount }
  | .error _ => { bytes := [], count := 0 }

theorem VlaColumn.cellOf_eq {vla : VlaColumn} {row : ℕ} {cell : VlaCell}
    (h : vla.cell row = .ok cell) :
    vla.cellOf row = { bytes := cell.bytes, count := cell.elementCount } := by
  rw [cellOf, h]

theorem countSum_concat (cellOf : ℕ → Cell) (rows : List ℕ) (row : ℕ) :
    countSum cellOf (rows ++ [row]) = countSum cellOf rows + (cellOf row).count := by
  simp [countSum]

theorem countSum_split (cellOf : ℕ → Cell) {rows done todo : List ℕ} {row : ℕ}
    (h : rows = done ++ row :: todo) :
    countSum cellOf (done ++ [row]) ≤ countSum cellOf rows := by
  have hsplit : countSum cellOf rows = countSum cellOf (done ++ [row]) + countSum cellOf todo := by
    rw [h.trans (List.append_cons done row todo)]
    simp only [countSum, List.map_append, List.sum_append]
  omega

namespace DataUnit

variable {column : Column} {width : DescriptorWidth} {index : ℕ}

theorem noPanic_cell (index : ℕ) (width : DescriptorWidth) (hcolumn : column ∈ schema.columns)
    {row : ℕ} (hrow : row < schema.extent.rowCount) : NoPanic ((unit.vla index column width).cell row) := by
  unfold VlaColumn.cell debugAssert
  rw [if_pos (show row < (unit.vla index column width).table.extent.rowCount from hrow),
    Loops.bind_ok rfl]
  exact unit.noPanic_vlaCell hcolumn width index hrow

/-- The array of a row is as long as its elements. -/
theorem payloadLen_cell {row : ℕ} {cell : VlaCell}
    (h : (unit.vla index column width).cell row = .ok cell) :
    column.tform.element.payloadLen cell.elementCount = some cell.bytes.length := by
  obtain ⟨-, -, h⟩ := Loops.ok_of_bind h
  obtain ⟨descriptor, -, h⟩ := Loops.ok_of_bind h
  obtain ⟨-, -, h⟩ := Loops.ok_of_bind h
  obtain ⟨payload, hpayload, h⟩ := Loops.ok_of_bind h
  cases payload with
  | none => cases h
  | some bytes =>
    obtain rfl := Except.ok.inj h
    exact unit.payloadLen_read hpayload

/-- The rows of the table. -/
def rows (_ : DataUnit schema) : List ℕ := List.range schema.extent.rowCount

theorem noPanic_elementTotal (hcolumn : column ∈ schema.columns) :
    NoPanic (unit.vla index column width).elementTotal := by
  have hsum : Returns (fun _ => True) (unit.vla index column width).elementTotal := by
    apply Loops.Ends.foldlM trivial
    intro row hrow total _
    have hcell := unit.noPanic_cell index width hcolumn (List.mem_range.mp hrow)
    cases hread : (unit.vla index column width).cell row with
    | error fault => exact hcell.exists_err hread
    | ok cell =>
      rw [Loops.bind_ok rfl]
      cases checkedAdd total cell.elementCount with
      | none => exact Returns.fail _
      | some sum => trivial
  exact hsum.noPanic

/-- A count that ends well has read every row. -/
theorem elementTotal_ok {total : ℕ} (h : (unit.vla index column width).elementTotal = .ok total) :
    (∀ row ∈ unit.rows, ∃ cell, (unit.vla index column width).cell row = .ok cell) ∧
      total = countSum (unit.vla index column width).cellOf unit.rows ∧ total ≤ usizeMax := by
  have hrun : unit.rows.foldlM (fun total row => do
      let cell ← (unit.vla index column width).cell row
      orOverflow (checkedAdd total cell.elementCount)) 0 = .ok total := h
  apply Loops.foldlM_partial
    (P := fun done total => (∀ row ∈ done, ∃ cell,
      (unit.vla index column width).cell row = .ok cell) ∧
      total = countSum (unit.vla index column width).cellOf done ∧ total ≤ usizeMax) _ _ hrun
  · exact ⟨by simp, rfl, Nat.zero_le _⟩
  · rintro done row todo - total total' ⟨hread, rfl, -⟩ hstep
    obtain ⟨cell, hcell, hstep⟩ := Loops.ok_of_bind hstep
    obtain ⟨hle, rfl⟩ := checkedAdd_eq_some_iff.mp (orOverflow_eq_ok_iff.mp hstep)
    refine ⟨?_, ?_, hle⟩
    · intro other hother
      rcases List.mem_append.mp hother with hother | hother
      · exact hread other hother
      · obtain rfl := List.mem_singleton.mp hother
        exact ⟨cell, hcell⟩
    · rw [countSum_concat, VlaColumn.cellOf_eq hcell]

/-- What the pass over the rows holds after the rows `done`. -/
structure Ended (vla : VlaColumn) (done : List ℕ) (cells : VlaColumn.Cells) : Prop where
  stop : cells.stop = countSum vla.cellOf done
  rising : cells.ends.Pairwise (· ≤ ·)
  below : ∀ stop ∈ cells.ends, stop ≤ cells.stop
  last : cells.ends.getLast?.getD 0 = cells.stop

/-- Each row's array reads again in the decode. -/
theorem gives_next {total : ℕ} (h : (unit.vla index column width).elementTotal = .ok total) :
    Gives (unit.vla index column width).next unit.rows (unit.vla index column width).cellOf
      (Ended (unit.vla index column width)) { stop := 0, ends := [] } := by
  obtain ⟨hread, htotal, hword⟩ := unit.elementTotal_ok h
  refine ⟨⟨rfl, List.Pairwise.nil, by simp, rfl⟩, ?_⟩
  intro done row todo hrows state hstate
  obtain ⟨cell, hcell⟩ := hread row (mem_of_split hrows)
  have hcellOf := VlaColumn.cellOf_eq hcell
  have hsum := countSum_split (unit.vla index column width).cellOf hrows
  have hconcat := countSum_concat (unit.vla index column width).cellOf done row
  rw [hcellOf] at hconcat
  dsimp only at hconcat
  have hadd : addUsize state.stop cell.elementCount = .ok (state.stop + cell.elementCount) := by
    apply addUsize_of_le
    rw [hstate.stop]
    omega
  refine ⟨{ stop := state.stop + cell.elementCount
            ends := state.ends ++ [state.stop + cell.elementCount] }, ?_, ?_, ?_, ?_, ?_⟩
  · rw [VlaColumn.next, hcell, Loops.bind_ok rfl, hadd, hcellOf]
    rfl
  · dsimp only
    rw [hconcat, hstate.stop]
  · apply List.pairwise_append.mpr
    refine ⟨hstate.rising, List.pairwise_singleton _ _, ?_⟩
    intro stop hstop last hlast
    obtain rfl := List.mem_singleton.mp hlast
    exact le_trans (hstate.below stop hstop) (Nat.le_add_right _ _)
  · intro stop hstop
    rcases List.mem_append.mp hstop with hstop | hstop
    · exact le_trans (hstate.below stop hstop) (Nat.le_add_right _ _)
    · exact Nat.le_of_eq (List.mem_singleton.mp hstop)
  · simp

/-- The arrays that the decode reads are packed elements. -/
theorem packed_cells {total : ℕ} (h : (unit.vla index column width).elementTotal = .ok total) :
    Packed column.tform.element (unit.vla index column width).cellOf unit.rows := by
  intro row hrow
  obtain ⟨cell, hcell⟩ := (unit.elementTotal_ok h).1 row hrow
  rw [VlaColumn.cellOf_eq hcell]
  exact unit.payloadLen_cell hcell

/-- The rows' ends rise to the count of the values. -/
theorem ragged_new {V : Type} {vla : VlaColumn} {rows : List ℕ} {cells : VlaColumn.Cells}
    (h : Ended vla rows cells) (values : V) {count : ℕ} (hcount : count = countSum vla.cellOf rows) :
    Ragged.new values count cells.ends = .ok { values := values, ends := cells.ends } := by
  unfold Ragged.new debugAssert
  rw [if_pos ⟨h.rising, by rw [h.last, h.stop, hcount]⟩]
  rfl

end DataUnit

end FitsWell
