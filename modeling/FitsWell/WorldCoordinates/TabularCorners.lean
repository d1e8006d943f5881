import FitsWell.WorldCoordinates.TabularTable

/-!
# Visiting the corners of a cell

The nodes of a coordinate array are numbered in mixed radix. A visit moves from one corner of a
cell to the next by the bits that change between their numbers, passes over those of weight zero,
and ends with the first one of weight one.
-/

namespace FitsWell

open scoped Halves

variable {n : ℕ} {K : Type}

namespace TabularTable

section Nodes

variable [LinearOrder K] (table : TabularTable n K)

/-- The number of a node, the first axis fastest. -/
def point (node : Fin n → ℕ) : ℕ :=
  MixedRadix.value ((List.finRange n).map table.lengths) ((List.finRange n).map node)

/-- Whether a node is in the array. -/
def InArray (node : Fin n → ℕ) : Prop := ∀ axis, node axis < table.lengths axis

/-- Whether every corner of the cell at a node is in the array. -/
def CellInArray (base : Fin n → ℕ) : Prop :=
  table.InArray base ∧ ∀ axis, 1 < table.lengths axis → base axis + 1 < table.lengths axis

/-- A corner of the cell at a node, by its number. -/
def cornerAt (base : Fin n → ℕ) (vertex : ℕ) : Fin n → ℕ :=
  Multilinear.corner table.variableAxes vertex.testBit base

variable {table}

theorem variableAxes_nodup : table.variableAxes.Nodup := (List.nodup_finRange n).filter _

theorem mem_variableAxes {axis : Fin n} : axis ∈ table.variableAxes ↔ 1 < table.lengths axis := by
  simp [variableAxes]

theorem point_lt {node : Fin n → ℕ} (h : table.InArray node) :
    table.point node < ((List.finRange n).map table.lengths).prod :=
  MixedRadix.value_lt (List.forall₂_map_left_iff.mpr (List.forall₂_map_right_iff.mpr
    (List.forall₂_same.mpr fun axis _ => h axis)))

/-- The coordinates of a node are in the array. -/
theorem place_lt {node : Fin n → ℕ} (h : table.InArray node) (axis : Fin n) :
    n * table.point node + axis < table.coordinates.length := by
  have hpoint := point_lt h
  rw [table.length_coordinates]
  calc n * table.point node + axis < n * table.point node + n := Nat.add_lt_add_left axis.isLt _
    _ = n * (table.point node + 1) := (Nat.mul_succ _ _).symm
    _ ≤ n * ((List.finRange n).map table.lengths).prod := Nat.mul_le_mul_left n hpoint

theorem coordinates_le : n * ((List.finRange n).map table.lengths).prod ≤ usizeMax := by
  have hslice := table.slice
  rw [table.length_coordinates] at hslice
  unfold isizeMax at hslice
  unfold usizeMax
  omega

/-- An axis is not longer than the array. -/
theorem lengths_le (axis : Fin n) : table.lengths axis ≤ usizeMax := by
  have hpos : 0 < ((List.finRange n).map table.lengths).prod :=
    List.prod_pos_iff_forall_pos_nat.mpr fun length hlength => by
      obtain ⟨other, -, rfl⟩ := List.mem_map.mp hlength
      exact table.lengths_pos other
  have hdvd : table.lengths axis ∣ ((List.finRange n).map table.lengths).prod :=
    List.dvd_prod (List.mem_map_of_mem (List.mem_finRange axis))
  exact (Nat.le_of_dvd hpos hdvd).trans
    ((Nat.le_mul_of_pos_left _ (Fin.pos axis)).trans coordinates_le)

/-- The place of the coordinates of a node. -/
theorem coordinateOffset_eq (hn : 0 < n) {node : Fin n → ℕ} (h : table.InArray node) :
    table.coordinateOffset node = .ok (n * table.point node) := by
  have hbound := @coordinates_le n K _ table
  have hloop : ∀ axes : List (Fin n), (axes.map table.lengths).prod ≤ usizeMax →
      axes.reverse.foldlM (fun point axis => do
        let row ← mulUsize point (table.lengths axis)
        addUsize row (node axis)) 0 =
        Except.ok (MixedRadix.value (axes.map table.lengths) (axes.map node)) := by
    intro axes
    induction axes with
    | nil => exact fun _ => rfl
    | cons axis axes ih =>
      intro hprod
      rw [List.map_cons, List.prod_cons] at hprod
      have hpos := table.lengths_pos axis
      have hrest : (axes.map table.lengths).prod ≤ usizeMax :=
        (Nat.le_mul_of_pos_left _ hpos).trans hprod
      have hbelow : MixedRadix.value (axes.map table.lengths) (axes.map node) + 1 ≤
          (axes.map table.lengths).prod :=
        MixedRadix.value_lt (List.forall₂_map_left_iff.mpr (List.forall₂_map_right_iff.mpr
          (List.forall₂_same.mpr fun axis _ => h axis)))
      have hrow := (Nat.mul_le_mul_left (table.lengths axis) hbelow).trans hprod
      rw [Nat.mul_succ] at hrow
      have hnode := h axis
      rw [List.reverse_cons, List.foldlM_append, ih hrest, Loops.bind_ok rfl, List.foldlM_cons,
        mulUsize_of_le (by rw [Nat.mul_comm]; omega), Loops.bind_ok rfl,
        addUsize_of_le (by rw [Nat.mul_comm]; omega), Loops.bind_ok rfl, List.map_cons,
        List.map_cons, MixedRadix.value_cons, Nat.add_comm, Nat.mul_comm]
      rfl
  have hlt := point_lt h
  have hwhole := Nat.mul_le_mul_left n hlt.le
  unfold coordinateOffset
  rw [hloop _ ((Nat.le_mul_of_pos_left _ hn).trans hbound), Loops.bind_ok rfl,
    mulUsize_of_le (by rw [Nat.mul_comm]; exact hwhole.trans hbound), Nat.mul_comm]
  rfl

/-- The corners of a cell in the array are in it. -/
theorem inArray_cornerAt {base : Fin n → ℕ} (h : table.CellInArray base) (vertex : ℕ) :
    table.InArray (table.cornerAt base vertex) := by
  intro axis
  unfold cornerAt
  by_cases hmem : axis ∈ table.variableAxes
  · have hle := Multilinear.corner_le table.variableAxes_nodup vertex.testBit base axis
    have hroom := h.2 axis (mem_variableAxes.mp hmem)
    omega
  · rw [Multilinear.corner_of_not_mem hmem]
    exact h.1 axis

/-- A bit that changes moves the corner along its axis, and leaves it on the others. -/
theorem corner_step {axes : List (Fin n)} {axis : Fin n} (hnot : axis ∉ axes) {base : Fin n → ℕ}
    (hroom : base axis + 1 ≤ usizeMax) (upper upper' : Bool) (bits : ℕ → Bool) :
    (if (upper != upper') = true then do
      let next ←
        if upper = true then
          addUsize (Multilinear.corner axes bits
            (if upper' = true then Multilinear.bump axis base else base) axis) 1
        else
          subUsize (Multilinear.corner axes bits
            (if upper' = true then Multilinear.bump axis base else base) axis) 1
      Except.ok (Function.update (Multilinear.corner axes bits
        (if upper' = true then Multilinear.bump axis base else base)) axis next)
    else
      Except.ok (Multilinear.corner axes bits
        (if upper' = true then Multilinear.bump axis base else base))) =
      (.ok (Multilinear.corner axes bits
        (if upper = true then Multilinear.bump axis base else base)) : Outcome _) := by
  have hbump : Multilinear.bump axis base axis = base axis + 1 := Function.update_self _ _ _
  cases upper with
  | true =>
    cases upper' with
    | true => rfl
    | false =>
      simp only [Bool.true_bne, Bool.not_false, Bool.false_eq_true, if_true, if_false]
      rw [Multilinear.corner_of_not_mem hnot, addUsize_of_le hroom, Loops.bind_ok rfl,
        ← Multilinear.corner_update hnot]
      rfl
  | false =>
    cases upper' with
    | true =>
      simp only [Bool.false_bne, Bool.false_eq_true, if_true, if_false]
      rw [Multilinear.corner_of_not_mem hnot, hbump, subUsize_of_le (Nat.le_add_left 1 _),
        Loops.bind_ok rfl, Nat.add_sub_cancel, ← Multilinear.corner_update hnot, Multilinear.bump,
        Function.update_idem, Function.update_eq_self]
    | false => rfl

/-- A move from one corner to the next goes there. -/
theorem moveVertex_eq {base : Fin n → ℕ} (h : table.CellInArray base) (vertex : ℕ) :
    table.moveVertex vertex (table.cornerAt base (vertex - 1)) = .ok (table.cornerAt base vertex) := by
  have hshift : ∀ (number : ℕ) start, (fun bit => number.testBit (bit + 1 + start)) =
      fun bit => number.testBit (bit + (start + 1)) := fun number start =>
    funext fun bit => congrArg number.testBit (Nat.add_right_comm bit 1 start)
  have hloop : ∀ (axes : List (Fin n)) start base, axes.Nodup →
      (∀ axis ∈ axes, base axis + 1 ≤ usizeMax) →
      (axes.zipIdx start).foldlM (fun indices item =>
        if (vertex ^^^ (vertex - 1)).testBit item.2 then do
          let next ← if vertex.testBit item.2 then addUsize (indices item.1) 1
            else subUsize (indices item.1) 1
          .ok (Function.update indices item.1 next)
        else
          .ok indices)
        (Multilinear.corner axes (fun bit => (vertex - 1).testBit (bit + start)) base) =
      (.ok (Multilinear.corner axes (fun bit => vertex.testBit (bit + start)) base) : Outcome _) := by
    intro axes
    induction axes with
    | nil => exact fun _ _ _ _ => rfl
    | cons axis axes ih =>
      intro start base hnodup hroom
      obtain ⟨hnot, hnodup⟩ := List.nodup_cons.mp hnodup
      have hstep := corner_step hnot (hroom axis List.mem_cons_self) (vertex.testBit start)
        ((vertex - 1).testBit start) fun bit => (vertex - 1).testBit (bit + (start + 1))
      rw [List.zipIdx_cons, List.foldlM_cons, Multilinear.corner, Multilinear.corner, hshift, hshift,
        Nat.zero_add]
      dsimp only
      rw [Nat.testBit_xor, hstep, Loops.bind_ok rfl]
      refine ih (start + 1) _ hnodup fun other hother => ?_
      have hne : other ≠ axis := fun heq => hnot (heq ▸ hother)
      have hother := hroom other (List.mem_cons_of_mem _ hother)
      split
      · rwa [Multilinear.bump, Function.update_of_ne hne]
      · exact hother
  refine hloop table.variableAxes 0 base variableAxes_nodup fun axis haxis => ?_
  have hnode := h.2 axis (mem_variableAxes.mp haxis)
  have hlength := table.lengths_le axis
  omega

end Nodes

section Weights

variable [Field K] [LinearOrder K] (table : TabularTable n K)

/-- The corners of `vertices` that a visit shows. -/
def visited (delta : Fin n → K) : List ℕ → List ℕ
  | [] => []
  | vertex :: vertices =>
    if table.vertexWeight delta vertex = 0 then visited delta vertices
    else if table.vertexWeight delta vertex = 1 then [vertex]
    else vertex :: visited delta vertices

/-- The corners of `vertices` after the first one of weight one. -/
def passedOver (delta : Fin n → K) : List ℕ → List ℕ
  | [] => []
  | vertex :: vertices =>
    if table.vertexWeight delta vertex = 1 then vertices else passedOver delta vertices

variable {table} {delta : Fin n → K}

theorem vertexWeight_eq (delta : Fin n → K) (vertex : ℕ) :
    table.vertexWeight delta vertex =
      Multilinear.weight delta table.variableAxes vertex.testBit := by
  have hshift : ∀ start, (fun bit => vertex.testBit (bit + 1 + start)) =
      fun bit => vertex.testBit (bit + (start + 1)) := fun start =>
    funext fun bit => congrArg vertex.testBit (Nat.add_right_comm bit 1 start)
  have hloop : ∀ (axes : List (Fin n)) start (weight : K),
      (axes.zipIdx start).foldl (fun weight item =>
        if vertex.testBit item.2 then weight * delta item.1 else weight * (1 - delta item.1)) weight =
      weight * Multilinear.weight delta axes fun bit => vertex.testBit (bit + start) := by
    intro axes
    induction axes with
    | nil => exact fun _ weight => (mul_one weight).symm
    | cons axis axes ih =>
      intro start weight
      rw [List.zipIdx_cons, List.foldl_cons, ih, Multilinear.weight, hshift, Nat.zero_add,
        ← mul_assoc]
      dsimp only
      split <;> rfl
  rw [← one_mul (Multilinear.weight _ _ _)]
  exact hloop table.variableAxes 0 1

/-- What the visit shows and what it passes over are all that counts. -/
theorem sum_visited (f : ℕ → K) (vertices : List ℕ) :
    ((table.visited delta vertices).map fun v => table.vertexWeight delta v * f v).sum +
        ((table.passedOver delta vertices).map fun v => table.vertexWeight delta v * f v).sum =
      (vertices.map fun v => table.vertexWeight delta v * f v).sum := by
  induction vertices with
  | nil => exact add_zero 0
  | cons vertex vertices ih =>
    rw [visited, passedOver, List.map_cons, List.sum_cons, ← ih]
    by_cases hzero : table.vertexWeight delta vertex = 0
    · rw [if_pos hzero, hzero, if_neg zero_ne_one, zero_mul, zero_add]
    · rw [if_neg hzero]
      by_cases hone : table.vertexWeight delta vertex = 1
      · rw [if_pos hone, if_pos hone, ih, List.map_singleton, List.sum_singleton]
      · rw [if_neg hone, if_neg hone, List.map_cons, List.sum_cons, add_assoc]

/-- A visit is a loop over the corners that it shows, each at the place of its coordinates. -/
theorem visitVertices_eq {σ : Type} (hn : 0 < n) {base : Fin n → ℕ} (h : table.CellInArray base)
    (visit : σ → ℕ → K → Outcome σ) (count first : ℕ) (s : σ) :
    table.visitVertices delta visit (List.range' first count) (table.cornerAt base (first - 1)) s =
      (table.visited delta (List.range' first count)).foldlM (fun s vertex =>
        visit s (n * table.point (table.cornerAt base vertex)) (table.vertexWeight delta vertex)) s := by
  induction count generalizing first s with
  | zero => rfl
  | succ count ih =>
    have hmove : ∀ next : (Fin n → ℕ) → Outcome σ,
        (if first ≠ 0 then table.moveVertex first (table.cornerAt base (first - 1)) >>= next
        else Except.ok (table.cornerAt base (first - 1)) >>= next) =
        next (table.cornerAt base first) := by
      intro next
      by_cases hfirst : first = 0
      · rw [if_neg (not_not.mpr hfirst), hfirst]
        rfl
      · rw [if_pos hfirst, moveVertex_eq h, Loops.bind_ok rfl]
    rw [List.range'_succ, visitVertices, hmove, visited]
    dsimp only
    by_cases hzero : table.vertexWeight delta first = 0
    · rw [if_pos hzero, if_pos hzero]
      exact ih (first + 1) s
    · rw [if_neg hzero, if_neg hzero, coordinateOffset_eq hn (inArray_cornerAt h first),
        Loops.bind_ok rfl]
      by_cases hone : table.vertexWeight delta first = 1
      · rw [if_pos hone, List.foldlM_cons]
        refine bind_congr fun s' => ?_
        rw [if_pos hone]
        rfl
      · rw [if_neg hone, List.foldlM_cons]
        refine bind_congr fun s' => ?_
        rw [if_neg hone]
        exact ih (first + 1) s'

end Weights

end TabularTable

end FitsWell
