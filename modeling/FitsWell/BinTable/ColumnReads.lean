import FitsWell.BinTable.ColumnReader
import FitsWell.Library.Loops

/-!
# What a column's cells decode to

Where every cell of a column reads, in whole elements, its values are those of the cells in
row order: neither the blocks that physical values are scaled by nor the run they are
reserved in has a bound that the cells pass.
-/

namespace FitsWell

open Bits Bytes Chunks

/-! ## Chunks -/

theorem length_wholeChunks {α : Type} {size : ℕ} (hsize : 0 < size) (values : List α) :
    (wholeChunks (size - 1) values).length = values.length / size := by
  induction hlength : values.length using Nat.strong_induction_on generalizing values with
  | _ length ih =>
    rw [wholeChunks]
    have hone : size - 1 + 1 = size := by omega
    by_cases hlt : size - 1 < values.length
    · have hless : length - size < length := by omega
      have hrest : (values.drop size).length = length - size := by rw [List.length_drop, hlength]
      rw [if_pos hlt, hone, List.length_cons, ih (length - size) hless _ hrest]
      exact (Nat.div_eq_sub_div hsize (by omega)).symm
    · rw [if_neg hlt, List.length_nil, Nat.div_eq_of_lt (by omega)]

/-- Whole chunks on both sides of a whole number of them. -/
theorem wholeChunks_take_drop {α : Type} {size k : ℕ} (values : List α) (hsize : 0 < size)
    (hk : k * size ≤ values.length) :
    wholeChunks (size - 1) values =
      wholeChunks (size - 1) (values.take (k * size)) ++
        wholeChunks (size - 1) (values.drop (k * size)) := by
  have hone : size - 1 + 1 = size := by omega
  induction k generalizing values with
  | zero =>
    have hnil : wholeChunks (size - 1) ([] : List α) = [] := by
      rw [wholeChunks]
      exact if_neg (by simp)
    simp [hnil]
  | succ k ih =>
    rw [Nat.succ_mul] at hk ⊢
    have hfirst : size - 1 < values.length := by omega
    have htake : (values.take (k * size + size)).take size = values.take size := by
      rw [List.take_take, Nat.min_eq_left (by omega)]
    have hdrop : (values.take (k * size + size)).drop size =
        (values.drop size).take (k * size) := by
      rw [List.drop_take, Nat.add_sub_cancel]
    have hlength : size - 1 < (values.take (k * size + size)).length := by
      rw [List.length_take]
      omega
    conv_lhs => rw [wholeChunks, if_pos hfirst, hone]
    rw [ih (values.drop size) (by rw [List.length_drop]; omega)]
    conv_rhs => rw [wholeChunks, if_pos hlength, hone, htake, hdrop]
    rw [List.drop_drop, List.cons_append, Nat.add_comm size (k * size)]

/-! ## Cells -/

variable {σ τ : Type}

/-- A run over cells: on each row's turn the source gives the row's cell, and keeps what it
holds after the rows before. -/
structure Gives (next : CellSource σ) (rows : List ℕ) (cellOf : ℕ → Cell)
    (I : List ℕ → σ → Prop) (start : σ) : Prop where
  starts : I [] start
  gives : ∀ done row todo, rows = done ++ row :: todo → ∀ s, I done s →
    ∃ s', next s row = .ok (s', cellOf row) ∧ I (done ++ [row]) s'

/-- The elements of `size` bytes in the cells of `rows`. -/
def cellElements (size : ℕ) (cellOf : ℕ → Cell) (rows : List ℕ) : List (List UInt8) :=
  rows.flatMap fun row => wholeChunks (size - 1) (cellOf row).bytes

/-- The bits of the cells of `rows`. -/
def cellBits (cellOf : ℕ → Cell) (rows : List ℕ) : List Bool :=
  rows.flatMap fun row => (byteBits (cellOf row).bytes).take (cellOf row).count

theorem cellElements_concat (size : ℕ) (cellOf : ℕ → Cell) (rows : List ℕ) (row : ℕ) :
    cellElements size cellOf (rows ++ [row]) =
      cellElements size cellOf rows ++ wholeChunks (size - 1) (cellOf row).bytes := by
  simp [cellElements]

variable {next : CellSource σ} {rows : List ℕ} {cellOf : ℕ → Cell} {I : List ℕ → σ → Prop}
  {start : σ}

/-- Every row's bytes are whole elements. -/
def WholeElements (size : ℕ) (cellOf : ℕ → Cell) (rows : List ℕ) : Prop :=
  ∀ row ∈ rows, (cellOf row).bytes.length = (cellOf row).count * size

theorem mem_of_split {α : Type} {rows done todo : List α} {row : α}
    (h : rows = done ++ row :: todo) : row ∈ rows := by
  rw [h]
  exact List.mem_append_right done List.mem_cons_self

theorem extendBeCells_run (h : Gives next rows cellOf I start) {size : ℕ}
    (hwhole : WholeElements size cellOf rows) (conv : List UInt8 → τ) :
    ∃ s', rows.foldlM (extendBeCells size conv next) (start, []) =
      .ok (s', (cellElements size cellOf rows).map conv) ∧ I rows s' := by
  have hrun : ∃ s', rows.foldlM (extendBeCells size conv next) (start, []) = .ok s' ∧
      I rows s'.1 ∧ s'.2 = (cellElements size cellOf rows).map conv := by
    apply Loops.foldlM_total (P := fun (done : List ℕ) (s : σ × List τ) =>
      I done s.1 ∧ s.2 = (cellElements size cellOf done).map conv) ⟨h.starts, rfl⟩
    rintro done row todo hrows s ⟨hI, hvalues⟩
    obtain ⟨s', hnext, hI'⟩ := h.gives done row todo hrows s.1 hI
    have hmod : (cellOf row).bytes.length % size = 0 := by
      rw [hwhole row (mem_of_split hrows), Nat.mul_mod_left]
    refine ⟨(s', s.2 ++ (wholeChunks (size - 1) (cellOf row).bytes).map conv), ?_, hI', ?_⟩
    · rw [extendBeCells, hnext, Loops.bind_ok rfl, debugAssert, if_pos hmod]
      rfl
    · dsimp only
      rw [hvalues, cellElements_concat, List.map_append]
  obtain ⟨s', hrun, hI, hvalues⟩ := hrun
  exact ⟨s'.1, by rw [hrun, ← hvalues], hI⟩

theorem extendBits_run (h : Gives next rows cellOf I start)
    (hwhole : ∀ row ∈ rows, (cellOf row).count ≤ 8 * (cellOf row).bytes.length) :
    ∃ s', rows.foldlM (extendBits next) (start, []) = .ok (s', cellBits cellOf rows) ∧
      I rows s' := by
  have hrun : ∃ s', rows.foldlM (extendBits next) (start, []) = .ok s' ∧
      I rows s'.1 ∧ s'.2 = cellBits cellOf rows := by
    apply Loops.foldlM_total (P := fun (done : List ℕ) (s : σ × List Bool) =>
      I done s.1 ∧ s.2 = cellBits cellOf done) ⟨h.starts, rfl⟩
    rintro done row todo hrows s ⟨hI, hvalues⟩
    obtain ⟨s', hnext, hI'⟩ := h.gives done row todo hrows s.1 hI
    have hcount := hwhole row (mem_of_split hrows)
    refine ⟨(s', s.2 ++ (byteBits (cellOf row).bytes).take (cellOf row).count), ?_, hI', ?_⟩
    · rw [extendBits, hnext, Loops.bind_ok rfl,
        subslice_of_le (by rw [Nat.zero_add, byteBits_length]; exact hcount)]
      rfl
    · simp [hvalues, cellBits]
  obtain ⟨s', hrun, hI, hvalues⟩ := hrun
  exact ⟨s'.1, by rw [hrun, ← hvalues], hI⟩

/-! ## Reserved runs -/

/-- A run that is reserved fits the memory. -/
theorem returns_tryReserve (width len additional : ℕ) :
    Returns (fun _ => (len + additional) * width ≤ isizeMax)
      (tryReserve width len additional) := by
  unfold tryReserve
  cases hsum : checkedAdd len additional with
  | none => exact Returns.fail _
  | some requested =>
    obtain ⟨-, rfl⟩ := checkedAdd_eq_some_iff.mp hsum
    exact Loops.Ends.ite (fun h => h) (fun _ => Returns.fail _)

theorem decodeBeCells_returns (h : Gives next rows cellOf I start) {size : ℕ}
    (hwhole : WholeElements size cellOf rows) (width capacity : ℕ) (conv : List UInt8 → τ) :
    Returns (fun decoded => decoded.2 = (cellElements size cellOf rows).map conv ∧
      I rows decoded.1) (decodeBeCells size width conv next start rows capacity) := by
  apply Loops.Ends.bind (returns_tryReserve width 0 capacity)
  intro _ _
  obtain ⟨s', hrun, hI⟩ := extendBeCells_run h hwhole conv
  exact Loops.Ends.of_ok hrun ⟨rfl, hI⟩

/-- The values of the cells of `rows`, in row order. -/
def ElementKind.values (kind : ElementKind) (cellOf : ℕ → Cell) (rows : List ℕ) : ColumnData :=
  match kind with
  | .bit => .bit (cellBits cellOf rows)
  | .logical => .logical ((cellElements 1 cellOf rows).map logicalFromByte)
  | .u8 => .u8 ((cellElements 1 cellOf rows).map fun bytes => bytes.headD 0)
  | .character => .character ((cellElements 1 cellOf rows).map fun bytes => bytes.headD 0)
  | .i16 => .i16 ((cellElements 2 cellOf rows).map (beWord 16))
  | .i32 => .i32 ((cellElements 4 cellOf rows).map (beWord 32))
  | .i64 => .i64 ((cellElements 8 cellOf rows).map (beWord 64))
  | .f32 => .f32 ((cellElements 4 cellOf rows).map (beWord 32))
  | .f64 => .f64 ((cellElements 8 cellOf rows).map (beWord 64))
  | .complexF32 => .complexF32 ((cellElements 8 cellOf rows).map (bePair 32))
  | .complexF64 => .complexF64 ((cellElements 16 cellOf rows).map (bePair 64))

/-- Each row's bytes are those of its count of elements. -/
def Packed (kind : ElementKind) (cellOf : ℕ → Cell) (rows : List ℕ) : Prop :=
  ∀ row ∈ rows, kind.payloadLen (cellOf row).count = some (cellOf row).bytes.length

/-- Elements of whole bytes are packed one after another. -/
theorem Packed.whole {kind : ElementKind} (h : Packed kind cellOf rows) (hkind : kind ≠ .bit) :
    WholeElements kind.elemSize cellOf rows := by
  intro row hrow
  have hlen := h row hrow
  unfold ElementKind.payloadLen at hlen
  split at hlen
  · exact absurd rfl hkind
  · exact (checkedMul_eq_some_iff.mp hlen).2.symm

/-- Eight bits share a byte. -/
theorem Packed.bits (h : Packed .bit cellOf rows) :
    ∀ row ∈ rows, (cellOf row).count ≤ 8 * (cellOf row).bytes.length := by
  intro row hrow
  have hlen : (cellOf row).bytes.length = ((cellOf row).count + 7) / 8 :=
    (Option.some.inj (h row hrow)).symm
  omega

theorem refill_returns (h : Gives next rows cellOf I start) {size : ℕ}
    (hwhole : WholeElements size cellOf rows) (capacity : ℕ) (conv : List UInt8 → τ)
    (wrap : List τ → ColumnData) :
    Returns (fun decoded => decoded.2 = wrap ((cellElements size cellOf rows).map conv) ∧
      I rows decoded.1) (refill size conv wrap next start rows capacity) := by
  apply Loops.Ends.bind (decodeBeCells_returns h hwhole size capacity conv)
  rintro ⟨s', values⟩ ⟨hvalues, hI⟩
  exact ⟨congrArg wrap hvalues, hI⟩

/-- A column's cells decode to their values. -/
theorem decodeCells_returns (h : Gives next rows cellOf I start) {kind : ElementKind}
    (hpacked : Packed kind cellOf rows) (capacity : ℕ) :
    Returns (fun decoded => decoded.2 = kind.values cellOf rows ∧ I rows decoded.1)
      (kind.decodeCells next start rows capacity) := by
  cases kind with
  | bit =>
    apply Loops.Ends.bind (returns_tryReserve 1 0 _)
    intro _ _
    obtain ⟨s', hrun, hI⟩ := extendBits_run h hpacked.bits
    rw [hrun, Loops.bind_ok rfl]
    exact ⟨rfl, hI⟩
  | logical => exact refill_returns h (hpacked.whole (by decide)) capacity _ _
  | u8 => exact refill_returns h (hpacked.whole (by decide)) capacity _ _
  | i16 => exact refill_returns h (hpacked.whole (by decide)) capacity _ _
  | i32 => exact refill_returns h (hpacked.whole (by decide)) capacity _ _
  | i64 => exact refill_returns h (hpacked.whole (by decide)) capacity _ _
  | character => exact refill_returns h (hpacked.whole (by decide)) capacity _ _
  | f32 => exact refill_returns h (hpacked.whole (by decide)) capacity _ _
  | f64 => exact refill_returns h (hpacked.whole (by decide)) capacity _ _
  | complexF32 => exact refill_returns h (hpacked.whole (by decide)) capacity _ _
  | complexF64 => exact refill_returns h (hpacked.whole (by decide)) capacity _ _

/-! ## Counts -/

/-- The elements of the cells of `rows`. -/
def countSum (cellOf : ℕ → Cell) (rows : List ℕ) : ℕ := (rows.map fun row => (cellOf row).count).sum

theorem length_cellElements {size : ℕ} (hsize : 0 < size)
    (hwhole : WholeElements size cellOf rows) :
    (cellElements size cellOf rows).length = countSum cellOf rows := by
  rw [cellElements, List.length_flatMap, countSum]
  congr 1
  apply List.map_congr_left
  intro row hrow
  rw [length_wholeChunks hsize, hwhole row hrow, Nat.mul_div_cancel _ hsize]

theorem length_cellBits (hwhole : ∀ row ∈ rows, (cellOf row).count ≤ 8 * (cellOf row).bytes.length) :
    (cellBits cellOf rows).length = countSum cellOf rows := by
  rw [cellBits, List.length_flatMap, countSum]
  congr 1
  apply List.map_congr_left
  intro row hrow
  rw [List.length_take, byteBits_length]
  exact Nat.min_eq_left (hwhole row hrow)

theorem len_values {kind : ElementKind} (h : Packed kind cellOf rows) :
    (kind.values cellOf rows).len = countSum cellOf rows := by
  cases kind with
  | bit => exact length_cellBits h.bits
  | logical => exact (List.length_map _).trans (length_cellElements (by decide) (h.whole (by decide)))
  | u8 => exact (List.length_map _).trans (length_cellElements (by decide) (h.whole (by decide)))
  | i16 => exact (List.length_map _).trans (length_cellElements (by decide) (h.whole (by decide)))
  | i32 => exact (List.length_map _).trans (length_cellElements (by decide) (h.whole (by decide)))
  | i64 => exact (List.length_map _).trans (length_cellElements (by decide) (h.whole (by decide)))
  | character =>
    exact (List.length_map _).trans (length_cellElements (by decide) (h.whole (by decide)))
  | f32 => exact (List.length_map _).trans (length_cellElements (by decide) (h.whole (by decide)))
  | f64 => exact (List.length_map _).trans (length_cellElements (by decide) (h.whole (by decide)))
  | complexF32 =>
    exact (List.length_map _).trans (length_cellElements (by decide) (h.whole (by decide)))
  | complexF64 =>
    exact (List.length_map _).trans (length_cellElements (by decide) (h.whole (by decide)))

end FitsWell
