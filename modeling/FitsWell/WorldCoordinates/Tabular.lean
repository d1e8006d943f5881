import FitsWell.WorldCoordinates.SubvoxelSearch

/-!
# Transforms through lookup tables

A transform is a table that its descriptor and its arrays agree on, with what its inverse searches:
the monotonic runs of one axis, or the bounds of each cell of more.
-/

namespace FitsWell

open scoped Halves

variable {n : ℕ} {K : Type}

/-- One axis of a table: the image axis it maps, its reference index and the scale of its world
unit. -/
structure TableAxis (K : Type) where
  imageAxis : ℕ
  referenceIndex : K
  worldScale : K
  deriving DecidableEq, Repr

/-- The axes of a table. A header axis is one of them at most. -/
structure TabularDescriptor (n : ℕ) (K : Type) where
  axes : Fin n → TableAxis K
  axes_injective : Function.Injective fun axis => (axes axis).imageAxis

/-- One array of a table's first row. -/
structure TableArray (K : Type) where
  shape : List ℕ
  values : List K
  slice : 8 * values.length ≤ isizeMax

/-- The arrays of a table's first row. -/
structure TabularArrays (n : ℕ) (K : Type) where
  coordinates : TableArray K
  indices : Fin n → Option (TableArray K)

/-- Nodes of a one-axis array that rise or fall strictly, with index values that differ. -/
structure MonotonicRun where
  start : ℕ
  stop : ℕ
  direction : IndexDirection
  deriving DecidableEq, Repr

/-- What the inverse searches. -/
inductive InverseIndex (n : ℕ) (K : Type)
  | runs (runs : List MonotonicRun)
  | cells (cellLengths : Fin n → ℕ) (bounds : List (Fin n → CellBound K))

structure TabularTransform (n : ℕ) (K : Type) [LinearOrder K] extends TabularTable n K where
  inverse : InverseIndex n K

variable [Field K] [LinearOrder K]

namespace TabularTable

variable (table : TabularTable n K)

/-! ## Runs -/

/-- A node of a one-axis array. -/
def node (position : ℕ) : K := table.coordinates.getD position 0

/-- Whether the interval after a node has two coordinates and two index values. -/
def usable (first : Fin n) (position : ℕ) : Bool :=
  table.node position ≠ table.node (position + 1) &&
    (table.indices first).all fun index => index.value position ≠ index.value (position + 1)

/-- Whether the interval after a node rises. -/
def rising (position : ℕ) : Bool := table.node position < table.node (position + 1)

/-- The end of the run that `position` continues. -/
def runEnd (first : Fin n) (direction : Bool) (position : ℕ) : ℕ :=
  if _h : position + 1 < table.coordinates.length then
    if table.usable first position && table.rising position == direction then
      runEnd first direction (position + 1)
    else
      position
  else
    position
termination_by table.coordinates.length - position

/-- The end of a run is not before the place it continues. -/
theorem le_runEnd (first : Fin n) (direction : Bool) (position : ℕ) :
    position ≤ table.runEnd first direction position := by
  rw [runEnd]
  split
  · split
    · exact (Nat.le_succ position).trans (le_runEnd first direction (position + 1))
    · exact le_rfl
  · exact le_rfl
termination_by table.coordinates.length - position

/-- A usable interval is a run's first one. -/
theorem lt_runEnd {first : Fin n} {position : ℕ}
    (hposition : position + 1 < table.coordinates.length)
    (husable : table.usable first position = true) :
    position < table.runEnd first (table.rising position) position := by
  rw [runEnd, dif_pos hposition, husable, Bool.true_and, if_pos (beq_self_eq_true _)]
  exact table.le_runEnd first _ (position + 1)

/-- The maximal strictly monotonic runs of a one-axis array from `position` on. -/
def monotonicRuns (first : Fin n) (position : ℕ) : List MonotonicRun :=
  if _h : position + 1 < table.coordinates.length then
    if _husable : table.usable first position = true then
      let stop := table.runEnd first (table.rising position) position
      ⟨position, stop, if table.rising position then .increasing else .decreasing⟩ ::
        monotonicRuns first stop
    else
      monotonicRuns first (position + 1)
  else
    []
termination_by table.coordinates.length - position
decreasing_by
  · have hlt := table.lt_runEnd _h _husable
    omega
  · omega

end TabularTable

/-! ## Reading a table -/

/-- The length of each axis of a coordinate array of a shape. -/
def tableLengths (shape : List ℕ) (axis : Fin n) : ℕ := shape.getD (axis + 1) 0

/-- The coordinates of a table in its world units. -/
def scaleCoordinates (descriptor : TabularDescriptor n K) (hn : 0 < n) (values : List K) : List K :=
  values.mapIdx fun j value =>
    value * (descriptor.axes ⟨j % n, Nat.mod_lt j hn⟩).worldScale

/-- The index vector of an axis, if it declares one. -/
def readIndex (length : ℕ) (index : Option (TableArray K)) : Outcome (Option (IndexVector length K)) :=
  match index with
  | none => .ok none
  | some index =>
    if hlength : index.shape.length ≤ 1 ∧ index.values.length = length then
      match hdirection : validateIndex index.values with
      | .error fault => .error fault
      | .ok direction => .ok (some ⟨index.values, direction, hlength.2, hdirection⟩)
    else
      tabularDefect .indexLength

omit [LinearOrder K] in
theorem length_scaleCoordinates (descriptor : TabularDescriptor n K) (hn : 0 < n) (values : List K) :
    (scaleCoordinates descriptor hn values).length = values.length := List.length_mapIdx

omit [LinearOrder K] in
theorem slice_scaleCoordinates (descriptor : TabularDescriptor n K) (hn : 0 < n)
    (array : TableArray K) :
    8 * (scaleCoordinates descriptor hn array.values).length ≤ isizeMax := by
  rw [length_scaleCoordinates]
  exact array.slice

/-- The number of coordinates of a table. -/
def coordinateCount (lengths : Fin n → ℕ) : Option ℕ :=
  ((List.finRange n).map lengths).foldlM checkedMul n

theorem coordinateCount_eq {lengths : Fin n → ℕ} {count : ℕ} (h : coordinateCount lengths = some count) :
    count = n * ((List.finRange n).map lengths).prod := by
  have hfold : ∀ (factors : List ℕ) start, factors.foldlM checkedMul start = some count →
      count = start * factors.prod := by
    intro factors
    induction factors with
    | nil => exact fun start h => by simpa using (Option.some.inj h).symm
    | cons factor factors ih =>
      intro start h
      rw [List.foldlM_cons] at h
      obtain ⟨next, hnext, h⟩ := Option.bind_eq_some_iff.mp h
      unfold checkedMul at hnext
      split at hnext
      · rw [ih next h, List.prod_cons, ← Nat.mul_assoc, Option.some.inj hnext]
      · cases hnext
  exact hfold _ n h

/-- The table that a descriptor declares over its arrays. -/
def readTable (descriptor : TabularDescriptor n K) (arrays : TabularArrays n K) :
    Outcome (TabularTable n K) :=
  if maxTableAxes < n then
    tabularDefect .tooManyAxes
  else
    let shape := if n = 1 ∧ arrays.coordinates.shape.length = 1 then 1 :: arrays.coordinates.shape
      else arrays.coordinates.shape
    if shape.length ≠ n + 1 ∨ shape.head? ≠ some n then
      tabularDefect .coordinateShape
    else
      let lengths : Fin n → ℕ := tableLengths shape
      if hlengths : ∀ axis, 0 < lengths axis then
        match hcount : coordinateCount lengths with
        | none => tabularDefect .coordinateArrayTooLarge
        | some count =>
          if hvalues : arrays.coordinates.values.length = count then
            if hn : 0 < n then do
              let indices ← Loops.traverseFin fun axis =>
                readIndex (lengths axis) (arrays.indices axis)
              .ok {
                axes := fun axis => (descriptor.axes axis).imageAxis
                referenceIndices := fun axis => (descriptor.axes axis).referenceIndex
                lengths, indices
                coordinates := scaleCoordinates descriptor hn arrays.coordinates.values
                axes_injective := descriptor.axes_injective
                lengths_pos := hlengths
                length_coordinates := (length_scaleCoordinates descriptor hn _).trans
                  (hvalues.trans (coordinateCount_eq hcount))
                slice := slice_scaleCoordinates descriptor hn arrays.coordinates }
            else
              abort .zeroChunkSize
          else
            tabularDefect .coordinateCount
      else
        tabularDefect .emptyAxis

namespace TabularTable

variable (table : TabularTable n K)

/-- The cells along each axis of a table. -/
def cellLengths (axis : Fin n) : ℕ := max (table.lengths axis - 1) 1

/-- What the inverse of a table searches. -/
def inverseIndex : Outcome (InverseIndex n K) :=
  if h : n = 1 then
    .ok (.runs (table.monotonicRuns ⟨0, zero_lt_of_eq_one h⟩ 0))
  else
    match ((List.finRange n).map table.cellLengths).foldlM checkedMul 1 with
    | none => tabularDefect .coordinateArrayTooLarge
    | some cellCount => do
      tryReserve 8 0 (min (cellCount * (3 * n)) usizeMax)
      let bounds ← SubvoxelSearch.cellBounds table table.cellLengths cellCount
      .ok (.cells table.cellLengths bounds)

end TabularTable

namespace TabularTransform

/-- The transform that a descriptor declares over its arrays. -/
def fromArrays (descriptor : TabularDescriptor n K) (arrays : TabularArrays n K) :
    Outcome (TabularTransform n K) := do
  let table ← readTable descriptor arrays
  let inverse ← table.inverseIndex
  .ok { table with inverse }

/-! ## The inverse -/

variable [FloorRing K] (transform : TabularTransform n K)

/-- The interval of a run that holds a target, the lower of two at a node. -/
def runInterval (run : MonotonicRun) (target : K) : Option (Interval K) :=
  let nodes := (transform.coordinates.drop run.start).take (run.stop + 1 - run.start)
  let first := transform.node run.start
  let last := transform.node run.stop
  let below :=
    match run.direction with
    | .increasing =>
      if first ≤ target ∧ target ≤ last then
        some (PartitionPoint.partitionPoint (fun value => decide (value < target)) nodes)
      else none
    | .decreasing =>
      if last ≤ target ∧ target ≤ first then
        some (PartitionPoint.partitionPoint (fun value => decide (target < value)) nodes)
      else none
  below.map fun below =>
    let position := run.start + (below - 1)
    let first := transform.node position
    let second := transform.node (position + 1)
    ⟨position, (target - first) / (second - first)⟩

/-- The half interval past an end that holds a target. -/
def endInterval (target : K) (position : ℕ) : Option (Interval K) :=
  let first := transform.node position
  let second := transform.node (position + 1)
  if first = second then none
  else
    let fraction := (target - first) / (second - first)
    let allowed : Bool :=
      if position = 0 then -(1 / 2) ≤ fraction && fraction ≤ 0 else 1 ≤ fraction && fraction ≤ 3 / 2
    if allowed then some ⟨position, fraction⟩ else none

/-- The interval of a one-axis array that holds a target: the first one in array order, or else
the half interval past an end. -/
def locateOneDimensional (first : Fin n) (runs : List MonotonicRun) (target : K) :
    Outcome (Interval K) :=
  if target = transform.node 0 then
    .ok ⟨0, 0⟩
  else
    match runs.findSome? (transform.runInterval · target) with
    | some interval => .ok interval
    | none =>
      let length := transform.lengths first
      if 1 < length then
        match [0, length - 2].findSome? (transform.endInterval target) with
        | some interval => .ok interval
        | none => tabularDomain (transform.axes first)
      else
        tabularDomain (transform.axes first)

/-- Whether the first level of the search of a cell would find no corner at the target, and none
on its other side. -/
def outside (bound : Fin n → CellBound K) (target : Fin n → K) : Bool :=
  (List.finRange n).any fun axis =>
    (bound axis).greatest - target axis < -(bound axis).tolerance ||
      (bound axis).tolerance < (bound axis).least - target axis

/-- Search the cells in turn, past each whose bounds cannot hold the target. -/
def searchCells (nodeWork : ℕ) (cellLengths : Fin n → ℕ) :
    List (ℕ × (Fin n → CellBound K)) → SubvoxelSearch n K → Outcome (Option (SubvoxelSearch n K))
  | [], _ => .ok none
  | (cell, bound) :: cells, s =>
    if outside bound s.target then
      searchCells nodeWork cellLengths cells s
    else do
      let entered := SubvoxelSearch.enterCell transform.toTabularTable s cellLengths cell
      let (found, s) ← SubvoxelSearch.locate transform.toTabularTable nodeWork lastLevel entered
      if found then .ok (some s) else searchCells nodeWork cellLengths cells s

/-- Replace the world coordinates of the table's axes with their intermediate coordinates, by the
first cell whose search holds them. -/
def invertMultidimensional (cellLengths : Fin n → ℕ) (bounds : List (Fin n → CellBound K))
    (coordinates : List K) : Outcome (List K) := do
  let nodeWork := n * n * transform.vertexCount
  let target ← Loops.traverseFin fun axis => load coordinates (transform.axes axis)
  let cells := (List.range bounds.length).zip bounds
  match ← transform.searchCells nodeWork cellLengths cells { SubvoxelSearch.fresh with target } with
  | none => do
    let axis ← load ((List.finRange n).map transform.axes) 0
    tabularDomain axis
  | some s =>
    (List.finRange n).foldlM (fun coordinates axis => do
      let intermediate ← transform.intermediate axis ⟨s.base axis, s.solution axis⟩
      store coordinates (transform.axes axis) intermediate) coordinates

/-- Replace the world coordinates of the table's axes with their intermediate coordinates. -/
def toIntermediate (coordinates : List K) : Outcome (List K) :=
  match transform.inverse with
  | .runs runs =>
    if h : 0 < n then do
      let first : Fin n := ⟨0, h⟩
      let world ← load coordinates (transform.axes first)
      let interval ← transform.locateOneDimensional first runs world
      let intermediate ← transform.intermediate first interval
      store coordinates (transform.axes first) intermediate
    else
      abort .indexOutOfBounds
  | .cells cellLengths bounds => transform.invertMultidimensional cellLengths bounds coordinates

end TabularTransform

end FitsWell
