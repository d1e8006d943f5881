import FitsWell.WorldCoordinates.TabularCorners
import FitsWell.WorldCoordinates.TabularRoundTrip

/-!
# Interpolation in a table

The world coordinates of a point are the multilinear interpolation of the corners of its cell, but
for what the corners after the first one of weight one would add.
-/

namespace FitsWell

open scoped Halves

open Finset (powerset univ)

variable {n : ℕ} {K : Type}

namespace TabularTable

section Interpolation

variable [Field K] [LinearOrder K] (table : TabularTable n K)

/-- The coordinate of a node along an axis. -/
def nodeCoordinate (node : Fin n → ℕ) (axis : Fin n) : K :=
  table.coordinates.getD (n * table.point node + axis) 0

/-- The axes that have an interval. -/
def varying : Finset (Fin n) := univ.filter fun axis => 1 < table.lengths axis

/-- The corner of a cell on the upper side of some axes. -/
def cornerOf (base : Fin n → ℕ) (upper : Finset (Fin n)) : Fin n → ℕ :=
  fun axis => base axis + if axis ∈ upper then 1 else 0

/-- The multilinear interpolation at a place in the table. -/
def interpolation (location : TabularLocation n K) (axis : Fin n) : K :=
  ∑ upper ∈ table.varying.powerset,
    (∏ other ∈ table.varying, if other ∈ upper then location.delta other else 1 - location.delta other) *
      table.nodeCoordinate (cornerOf location.base upper) axis

/-- What some corners add to an interpolation. -/
def sumOver (location : TabularLocation n K) (vertices : List ℕ) (axis : Fin n) : K :=
  (vertices.map fun vertex => table.vertexWeight location.delta vertex *
    table.nodeCoordinate (table.cornerAt location.base vertex) axis).sum

/-- What the corners after the first one of weight one would add. -/
def leftOut (location : TabularLocation n K) (axis : Fin n) : K :=
  table.sumOver location (table.passedOver location.delta (List.range table.vertexCount)) axis

/-- What the corners that a visit shows add. -/
def shownSum (location : TabularLocation n K) (axis : Fin n) : K :=
  table.sumOver location (table.visited location.delta (List.range table.vertexCount)) axis

variable {table} {location : TabularLocation n K}

omit [Field K] in
theorem toFinset_variableAxes : table.variableAxes.toFinset = table.varying := by
  ext axis
  rw [List.mem_toFinset, mem_variableAxes, varying, Finset.mem_filter]
  exact (and_iff_right (Finset.mem_univ axis)).symm

theorem sumOver_range (axis : Fin n) :
    table.sumOver location (List.range table.vertexCount) axis =
      table.interpolation location axis := by
  have hvalue := (Multilinear.value_eq_sum location.delta (table.nodeCoordinate · axis)
    table.variableAxes location.base).symm
  rw [Multilinear.value_eq_sum_powerset _ _ variableAxes_nodup, toFinset_variableAxes] at hvalue
  refine Eq.trans ?_ hvalue
  unfold sumOver vertexCount
  simp only [vertexWeight_eq]
  rfl

/-- The interpolation is what the visit shows and what it leaves out. -/
theorem shownSum_add_leftOut (axis : Fin n) :
    table.shownSum location axis + table.leftOut location axis =
      table.interpolation location axis := by
  rw [← sumOver_range]
  exact sum_visited _ _

theorem load_nodeCoordinate {node : Fin n → ℕ} (h : table.InArray node) (axis : Fin n) :
    load table.coordinates (n * table.point node + axis) = .ok (table.nodeCoordinate node axis) := by
  refine load_of_getElem? ?_
  unfold nodeCoordinate
  rw [List.getD_eq_getElem?_getD, List.getElem?_eq_getElem (place_lt h axis)]
  rfl

theorem sumOver_append (done : List ℕ) (vertex : ℕ) (axis : Fin n) :
    table.sumOver location (done ++ [vertex]) axis = table.sumOver location done axis +
      table.nodeCoordinate (table.cornerAt location.base vertex) axis *
        table.vertexWeight location.delta vertex := by
  unfold sumOver
  rw [List.map_append, List.sum_append, List.map_singleton, List.sum_singleton,
    mul_comm (table.vertexWeight _ _)]

/-- The visit of the corners that are shown. -/
theorem forEachInterpolationVertex_eq {σ : Type} (hn : 0 < n) (h : table.CellInArray location.base)
    (visit : σ → ℕ → K → Outcome σ) (s : σ) :
    table.forEachInterpolationVertex location visit s =
      (table.visited location.delta (List.range table.vertexCount)).foldlM (fun s vertex =>
        visit s (n * table.point (table.cornerAt location.base vertex))
          (table.vertexWeight location.delta vertex)) s := by
  have hbase : table.cornerAt location.base (0 - 1) = location.base :=
    Multilinear.corner_of_not_set _ _ fun bit => Nat.zero_testBit bit
  have hvisit := @visitVertices_eq n K _ _ table location.delta σ hn location.base h visit
    table.vertexCount 0 s
  rw [hbase, ← List.range_eq_range'] at hvisit
  exact hvisit

/-- The world coordinate of one axis is the sum over the corners that are shown. -/
theorem axisSum_eq (hn : 0 < n) (h : table.CellInArray location.base) (axis : Fin n) :
    table.forEachInterpolationVertex location (fun result offset weight => do
      let corner ← load table.coordinates (offset + axis)
      .ok (result + corner * weight)) 0 = .ok (table.shownSum location axis) := by
  rw [forEachInterpolationVertex_eq hn h]
  obtain ⟨result, hresult, hsum⟩ := @Loops.foldlM_total _ _ _
    (fun (result : K) vertex => do
      let corner ← load table.coordinates
        (n * table.point (table.cornerAt location.base vertex) + axis)
      Except.ok (result + corner * table.vertexWeight location.delta vertex))
    (fun done result => result = table.sumOver location done axis)
    (table.visited location.delta (List.range table.vertexCount)) 0 rfl
    fun done vertex todo _ result hdone => by
      rw [load_nodeCoordinate (inArray_cornerAt h vertex), Loops.bind_ok rfl, hdone]
      exact ⟨_, rfl, (sumOver_append done vertex axis).symm⟩
  rw [hresult, hsum]
  rfl

/-! ## Storing along each axis -/

omit [Field K] in
/-- A loop that stores along each axis what it finds there changes each axis once. -/
theorem store_each {step : List K → Fin n → Outcome (List K)} {g : Fin n → K → K}
    {coordinates out : List K}
    (hstep : ∀ current axis next, step current axis = .ok next →
      ∃ v, current[table.axes axis]? = some v ∧ next = current.set (table.axes axis) (g axis v))
    (h : (List.finRange n).foldlM step coordinates = .ok out) :
    out.length = coordinates.length ∧
      (∀ i, (∀ axis, table.axes axis ≠ i) → out[i]? = coordinates[i]?) ∧
      ∀ axis, ∃ v, coordinates[table.axes axis]? = some v ∧
        out[table.axes axis]? = some (g axis v) := by
  have hloop := @Loops.foldlM_partial _ _ _ step (fun done current => current.length = coordinates.length ∧
      (∀ i, (∀ axis ∈ done, table.axes axis ≠ i) → current[i]? = coordinates[i]?) ∧
      ∀ axis ∈ done, ∃ v, coordinates[table.axes axis]? = some v ∧
        current[table.axes axis]? = some (g axis v)) (List.finRange n) coordinates out
    ⟨rfl, fun _ _ => rfl, fun _ haxis => absurd haxis List.not_mem_nil⟩ ?_ h
  · obtain ⟨hlength, hother, heach⟩ := hloop
    exact ⟨hlength, fun i hi => hother i fun axis _ => hi axis,
      fun axis => heach axis (List.mem_finRange axis)⟩
  intro done axis todo hsplit current next hdone hc'
  obtain ⟨hlength, hother, heach⟩ := hdone
  obtain ⟨v, hv, rfl⟩ := hstep current axis next hc'
  have hnodup := List.nodup_finRange n
  rw [hsplit] at hnodup
  have hnew : ∀ earlier ∈ done, table.axes earlier ≠ table.axes axis := fun earlier hearlier heq =>
    (List.nodup_append.mp hnodup).2.2 earlier hearlier axis List.mem_cons_self
      (table.axes_injective heq)
  refine ⟨by rw [List.length_set, hlength], fun i hi => ?_, fun other hmem => ?_⟩
  · have hne := hi axis (List.mem_append_right done List.mem_cons_self)
    rw [List.getElem?_set_ne hne]
    exact hother i fun earlier hearlier => hi earlier (List.mem_append_left _ hearlier)
  · rcases List.mem_append.mp hmem with hearlier | hlast
    · obtain ⟨found, hfound, hset⟩ := heach other hearlier
      refine ⟨found, hfound, ?_⟩
      rw [List.getElem?_set_ne (hnew other hearlier).symm, hset]
    · obtain rfl := List.mem_singleton.mp hlast
      obtain ⟨hlt, -⟩ := List.getElem?_eq_some_iff.mp hv
      refine ⟨v, ?_, List.getElem?_set_self hlt⟩
      rw [← hother _ hnew, hv]

/-- The visit that `toWorld` makes adds, along each axis, the sum over the corners shown. -/
theorem worldSums {coordinates out : List K} (hn : 0 < n) (h : table.CellInArray location.base)
    (hzeros : ∀ axis, coordinates[table.axes axis]? = some 0)
    (hok : table.forEachInterpolationVertex location (fun coordinates offset weight =>
      (List.finRange n).foldlM (fun coordinates axis => do
        let sum ← load coordinates (table.axes axis)
        let corner ← load table.coordinates (offset + axis)
        store coordinates (table.axes axis) (sum + corner * weight)) coordinates) coordinates =
      .ok out) :
    out.length = coordinates.length ∧
      (∀ i, (∀ axis, table.axes axis ≠ i) → out[i]? = coordinates[i]?) ∧
      ∀ axis, out[table.axes axis]? = some (table.shownSum location axis) := by
  rw [forEachInterpolationVertex_eq hn h] at hok
  refine @Loops.foldlM_partial _ _ _ _ (fun done current => current.length = coordinates.length ∧
      (∀ i, (∀ axis, table.axes axis ≠ i) → current[i]? = coordinates[i]?) ∧
      ∀ axis, current[table.axes axis]? = some (table.sumOver location done axis)) _ _ _
    ⟨rfl, fun _ _ => rfl, hzeros⟩ (fun done vertex todo _ current next hdone hc' => ?_) hok
  obtain ⟨hlength, hother, heach⟩ := hdone
  obtain ⟨hlength', hother', heach'⟩ := @store_each n K _ table _ (fun axis sum =>
    sum + table.nodeCoordinate (table.cornerAt location.base vertex) axis *
      table.vertexWeight location.delta vertex) current next (fun current axis next hstep => by
      obtain ⟨sum, hsum, hstep⟩ := Loops.ok_of_bind hstep
      rw [load_nodeCoordinate (inArray_cornerAt h vertex), Loops.bind_ok rfl] at hstep
      have hsum := getElem?_of_load hsum
      obtain ⟨hlt, -⟩ := List.getElem?_eq_some_iff.mp hsum
      rw [store_of_lt _ hlt] at hstep
      exact ⟨sum, hsum, (Except.ok.inj hstep).symm⟩) hc'
  refine ⟨hlength'.trans hlength, fun i hi => (hother' i hi).trans (hother i hi), fun axis => ?_⟩
  obtain ⟨sum, hsum, hset⟩ := heach' axis
  rw [heach axis] at hsum
  rw [hset, ← Option.some.inj hsum, sumOver_append]

variable [IsStrictOrderedRing K] [FloorRing K]

/-- The cell of a point is in the array. -/
theorem cellInArray {intermediate : ℕ → Outcome K}
    (h : table.interpolationLocation intermediate = .ok location) :
    table.CellInArray location.base := by
  unfold interpolationLocation at h
  obtain ⟨intervals, hintervals, h⟩ := Loops.ok_of_bind h
  obtain rfl := Except.ok.inj h
  have hplace : ∀ axis, (table.lengths axis = 1 → (intervals axis).position = 0) ∧
      (1 < table.lengths axis → (intervals axis).position + 1 < table.lengths axis) := by
    intro axis
    obtain ⟨coordinate, -, hinterval⟩ := Loops.ok_of_bind (Loops.traverseFin_ok hintervals axis)
    obtain ⟨upsilon, -, -, -, hone, hcovers⟩ := axisInterval_spec hinterval
    exact ⟨hone, fun hlong => (hcovers hlong).lt⟩
  refine ⟨fun axis => ?_, fun axis => (hplace axis).2⟩
  have hpos := table.lengths_pos axis
  obtain ⟨hone, hlong⟩ := hplace axis
  dsimp only
  omega

/-- The lookup of a table of more axes stores the sums over the corners shown. -/
theorem toWorld_many {coordinates out : List K} (hn : n ≠ 1) (hpos : 0 < n)
    (h : table.toWorld coordinates = .ok out) :
    ∃ location, table.interpolationLocation (load coordinates) = .ok location ∧
      out.length = coordinates.length ∧
      (∀ i, (∀ axis, table.axes axis ≠ i) → out[i]? = coordinates[i]?) ∧
      ∀ axis, out[table.axes axis]? = some (table.shownSum location axis) := by
  unfold toWorld at h
  rw [dif_neg hn] at h
  obtain ⟨location, hlocation, h⟩ := Loops.ok_of_bind h
  obtain ⟨zeroed, hzeroed, h⟩ := Loops.ok_of_bind h
  obtain ⟨hlength, hother, heach⟩ := @store_each n K _ table _ (fun _ _ => 0) coordinates zeroed
    (fun current axis next hstep => by
      unfold store at hstep
      split at hstep
      · next hlt => exact ⟨_, List.getElem?_eq_getElem hlt, (Except.ok.inj hstep).symm⟩
      · cases hstep) hzeroed
  obtain ⟨hlength', hother', hsums⟩ := worldSums hpos (cellInArray hlocation)
    (fun axis => (heach axis).choose_spec.2) h
  exact ⟨location, hlocation, hlength'.trans hlength,
    fun i hi => (hother' i hi).trans (hother i hi), hsums⟩

/-- The lookup of one axis of them gives the same sum. -/
theorem toWorldAxis_many {intermediate : ℕ → Outcome K} (hn : n ≠ 1)
    (h : table.interpolationLocation intermediate = .ok location) (axis : Fin n) :
    table.toWorldAxis (table.axes axis) intermediate = .ok (table.shownSum location axis) := by
  have hfind : (List.finRange n).find? (fun other => decide (table.axes other = table.axes axis)) =
      some axis := by
    cases hfound : (List.finRange n).find? fun other =>
        decide (table.axes other = table.axes axis) with
    | none =>
      have hnot := List.find?_eq_none.mp hfound axis (List.mem_finRange axis)
      exact absurd (decide_eq_true rfl) hnot
    | some other =>
      have hsame := List.find?_some hfound
      rw [table.axes_injective (of_decide_eq_true hsame)]
  unfold toWorldAxis
  rw [dif_neg hn, hfind]
  dsimp only
  rw [Loops.bind_ok h]
  exact axisSum_eq (Fin.pos axis) (cellInArray h) axis

end Interpolation

end TabularTable

/-! ## Tables of one axis -/

namespace TabularTable

section One

variable [Field K] [LinearOrder K] {table : TabularTable 1 K} {position : ℕ} {fraction : K}

theorem nodeCoordinate_one (place : Fin 1 → ℕ) :
    table.nodeCoordinate place 0 = table.node (place 0) := by
  unfold nodeCoordinate point TabularTable.node
  simp [List.finRange_succ]

omit [Field K] in
theorem variableAxes_one :
    table.variableAxes = if 1 < table.lengths 0 then [0] else [] := by
  unfold variableAxes
  split <;> simp_all [List.finRange_succ]

theorem vertexWeight_one (delta : Fin 1 → K) (hlong : 1 < table.lengths 0) :
    table.vertexWeight delta 0 = 1 - delta 0 ∧ table.vertexWeight delta 1 = delta 0 := by
  simp [vertexWeight_eq, variableAxes_one, hlong, Multilinear.weight]

/-- A one-axis cell leaves nothing out: its corner of weight one leaves the other weight zero. -/
theorem leftOut_one (location : TabularLocation 1 K) : table.leftOut location 0 = 0 := by
  unfold leftOut vertexCount
  rw [variableAxes_one]
  by_cases hlong : 1 < table.lengths 0
  · obtain ⟨hzero, hone⟩ := table.vertexWeight_one location.delta hlong
    have hrange : List.range (2 ^ [(0 : Fin 1)].length) = [0, 1] := rfl
    rw [if_pos hlong, hrange, passedOver, hzero]
    by_cases hfirst : 1 - location.delta 0 = 1
    · have hfraction : location.delta 0 = 0 := sub_eq_self.mp hfirst
      rw [if_pos hfirst, sumOver, List.map_singleton, List.sum_singleton, hone, hfraction, zero_mul]
    · rw [if_neg hfirst, passedOver, passedOver]
      split <;> rfl
  · have hrange : List.range (2 ^ ([] : List (Fin 1)).length) = [0] := rfl
    rw [if_neg hlong, hrange, passedOver, passedOver]
    split <;> rfl

/-- The lookup of a table of one axis stores the sum over the corners shown. -/
theorem shownSum_one (location : TabularLocation 1 K) :
    table.shownSum location 0 =
      if 1 < table.lengths 0 then
        table.node (location.base 0) * (1 - location.delta 0) +
          table.node (location.base 0 + 1) * location.delta 0
      else table.node (location.base 0) := by
  have hsum := @shownSum_add_leftOut 1 K _ _ table location 0
  rw [leftOut_one, add_zero, ← sumOver_range] at hsum
  rw [hsum]
  unfold sumOver vertexCount cornerAt
  rw [variableAxes_one]
  by_cases hlong : 1 < table.lengths 0
  · obtain ⟨hzero, hone⟩ := table.vertexWeight_one location.delta hlong
    have hrange : List.range (2 ^ [(0 : Fin 1)].length) = [0, 1] := rfl
    rw [if_pos hlong, if_pos hlong, hrange, List.map_cons, List.map_singleton, List.sum_cons,
      List.sum_singleton, hzero, hone, nodeCoordinate_one, nodeCoordinate_one]
    simp [Multilinear.corner, Multilinear.bump, mul_comm]
  · have hrange : List.range (2 ^ ([] : List (Fin 1)).length) = [0] := rfl
    have hweight : table.vertexWeight location.delta 0 = 1 := by
      rw [vertexWeight_eq, variableAxes_one, if_neg hlong]
      rfl
    rw [if_neg hlong, if_neg hlong, hrange, List.map_singleton, List.sum_singleton, hweight, one_mul,
      nodeCoordinate_one]
    rfl

variable [IsStrictOrderedRing K] [FloorRing K]

theorem worldOneDimensional_eq {intermediate : ℕ → Outcome K} {location : TabularLocation 1 K}
    (h : table.interpolationLocation intermediate = .ok location) :
    (intermediate (table.axes 0) >>= table.worldOneDimensional 0) =
      .ok (table.shownSum location 0) := by
  have hcell := cellInArray h
  unfold interpolationLocation at h
  obtain ⟨intervals, hintervals, h⟩ := Loops.ok_of_bind h
  obtain ⟨coordinate, hcoordinate, hinterval⟩ :=
    Loops.ok_of_bind (Loops.traverseFin_ok hintervals 0)
  obtain rfl := Except.ok.inj h
  rw [Loops.bind_ok hcoordinate]
  unfold worldOneDimensional
  rw [Loops.bind_ok hinterval, shownSum_one]
  have hbase := hcell.1 0
  by_cases hlong : 1 < table.lengths 0
  · rw [if_neg (by omega), if_pos hlong, Loops.bind_ok (load_node hbase),
      Loops.bind_ok (load_node (hcell.2 0 hlong))]
  · have hpos := table.lengths_pos 0
    dsimp only at hbase ⊢
    rw [if_pos (by omega), if_neg hlong, show (intervals 0).position = 0 by omega, load_node hpos]

theorem toWorld_one {coordinates out : List K} (h : table.toWorld coordinates = .ok out) :
    ∃ location, table.interpolationLocation (load coordinates) = .ok location ∧
      out.length = coordinates.length ∧
      (∀ i, (∀ axis, table.axes axis ≠ i) → out[i]? = coordinates[i]?) ∧
      ∀ axis, out[table.axes axis]? = some (table.shownSum location axis) := by
  rw [toWorld_eq, replace_iff] at h
  obtain ⟨coordinate, world, hget, hworld, rfl⟩ := h
  obtain ⟨hlt, -⟩ := List.getElem?_eq_some_iff.mp hget
  have hload := load_of_getElem? hget
  have hinterval := hworld
  unfold worldOneDimensional at hinterval
  obtain ⟨interval, hinterval, -⟩ := Loops.ok_of_bind hinterval
  have hlocation : table.interpolationLocation (load coordinates) =
      .ok ⟨fun _ => interval.position, fun _ => interval.fraction⟩ := by
    unfold interpolationLocation
    have hcall : ∀ axis : Fin 1, (do
        let coordinate ← load coordinates (table.axes axis)
        table.axisInterval axis coordinate) = Except.ok interval := by
      intro axis
      obtain rfl := Subsingleton.elim axis 0
      rw [Loops.bind_ok hload, hinterval]
    rw [Loops.bind_ok (Loops.traverseFin_of_ok hcall)]
  refine ⟨_, hlocation, List.length_set, fun i hi => List.getElem?_set_ne (hi 0), fun axis => ?_⟩
  obtain rfl := Subsingleton.elim axis 0
  have hsum := worldOneDimensional_eq hlocation
  rw [Loops.bind_ok hload] at hsum
  rw [List.getElem?_set_self hlt, ← Except.ok.inj (hsum.symm.trans hworld)]

end One

end TabularTable

/-! ## The lookup of a point -/

section Lookup

variable [Field K] [LinearOrder K]

theorem TabularTable.interpolationLocation_congr [FloorRing K] {table : TabularTable n K}
    {first second : ℕ → Outcome K}
    (h : ∀ axis, first (table.axes axis) = second (table.axes axis)) :
    table.interpolationLocation first = table.interpolationLocation second := by
  unfold TabularTable.interpolationLocation
  simp only [h]

theorem TabularTransform.fromArrays_pos {descriptor : TabularDescriptor n K}
    {arrays : TabularArrays n K} {transform : TabularTransform n K}
    (h : TabularTransform.fromArrays descriptor arrays = .ok transform) : 0 < n := by
  by_contra hzero
  obtain ⟨table, htable, -⟩ := Loops.ok_of_bind h
  unfold readTable at htable
  split at htable
  · cases htable
  · simp only [dif_neg hzero] at htable
    generalize (if n = 1 ∧ arrays.coordinates.shape.length = 1 then 1 :: arrays.coordinates.shape
      else arrays.coordinates.shape) = shape at htable
    split at htable
    · cases htable
    · split at htable
      · split at htable
        · cases htable
        · split at htable
          · cases htable
          · cases htable
      · cases htable

theorem TabularTransform.fromArrays_of_read {descriptor : TabularDescriptor n K}
    {arrays : TabularArrays n K} {table : TabularTable n K}
    (h : readTable descriptor arrays = .ok table) (hinverse : table.inverseIndex.isOk = true) :
    ∃ transform, TabularTransform.fromArrays descriptor arrays = .ok transform ∧
      transform.toTabularTable = table := by
  cases hindex : table.inverseIndex with
  | error fault =>
    rw [hindex] at hinverse
    cases hinverse
  | ok inverse =>
    refine ⟨⟨table, inverse⟩, ?_, rfl⟩
    unfold TabularTransform.fromArrays
    rw [Loops.bind_ok h, Loops.bind_ok hindex]

variable [IsStrictOrderedRing K] {table : TabularTable n K} {location : TabularLocation n K}

/-- Inside its cell a point leaves nothing out. -/
theorem TabularTable.leftOut_of_inside
    (h : ∀ axis ∈ table.varying, 0 ≤ location.delta axis ∧ location.delta axis ≤ 1)
    (axis : Fin n) : table.leftOut location axis = 0 := by
  have hnonneg : ∀ vertex, 0 ≤ table.vertexWeight location.delta vertex := by
    intro vertex
    rw [TabularTable.vertexWeight_eq]
    refine Multilinear.weight_nonneg (fun other hother => h other ?_) _
    rwa [← TabularTable.toFinset_variableAxes, List.mem_toFinset]
  have hsum : ((List.range table.vertexCount).map (table.vertexWeight location.delta)).sum = 1 := by
    have hvalue := Multilinear.value_eq_sum location.delta (fun _ => (1 : K)) table.variableAxes
      location.base
    rw [Multilinear.value_const] at hvalue
    simp only [mul_one, ← TabularTable.vertexWeight_eq] at hvalue
    exact hvalue.symm
  have hzero : ∀ vertices : List ℕ,
      (vertices.map (table.vertexWeight location.delta)).sum ≤ 1 →
      ∀ vertex ∈ table.passedOver location.delta vertices,
        table.vertexWeight location.delta vertex = 0 := by
    intro vertices
    induction vertices with
    | nil => exact fun _ => nofun
    | cons first vertices ih =>
      intro hle vertex hvertex
      rw [List.map_cons, List.sum_cons] at hle
      rw [TabularTable.passedOver] at hvertex
      split at hvertex
      · next hone =>
        have hmem := List.single_le_sum (fun weight hweight => by
          obtain ⟨vertex, -, rfl⟩ := List.mem_map.mp hweight
          exact hnonneg vertex) _ (List.mem_map_of_mem hvertex)
        have hvertex := hnonneg vertex
        linarith
      · have hfirst := hnonneg first
        exact ih (by linarith) vertex hvertex
  unfold TabularTable.leftOut TabularTable.sumOver
  refine List.sum_eq_zero fun term hterm => ?_
  obtain ⟨vertex, hvertex, rfl⟩ := List.mem_map.mp hterm
  rw [hzero _ hsum.le vertex hvertex, zero_mul]

variable [FloorRing K]

end Lookup

end FitsWell
