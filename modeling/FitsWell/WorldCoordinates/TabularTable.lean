import FitsWell.Library.MixedRadix
import FitsWell.Library.Multilinear
import FitsWell.Library.PartitionPoint
import FitsWell.Slices
import FitsWell.Usize
import Mathlib.Algebra.Order.Floor.Ring

/-!
# Lookup tables of coordinates

A coordinate array of one or more axes, with an index vector for some of them. An intermediate
coordinate is looked up along each axis, and the corners of the cell it falls in are interpolated.
Arithmetic is exact.
-/

namespace FitsWell

open PartitionPoint (partitionPoint)

namespace Halves

/-- The numerals two and three, of any field. -/
scoped instance two : Nat.AtLeastTwo 2 := inferInstance

scoped instance three : Nat.AtLeastTwo 3 := inferInstance

end Halves

open scoped Halves

variable {n : ℕ} {K : Type}

theorem zero_lt_of_eq_one (h : n = 1) : 0 < n := h ▸ Nat.zero_lt_one

/-! ## Index vectors -/

inductive IndexDirection
  | increasing
  | decreasing
  deriving DecidableEq, Repr

/-- What a table that is refused is refused for. -/
def tabularDefect {α : Type} (defect : TabularDefect) : Outcome α :=
  fail (.invalidWcs (.tabular defect))

/-- What a point outside the table along an image axis meets. -/
def tabularDomain {α : Type} (axis : ℕ) : Outcome α :=
  fail (.wcsCoordinateOutOfDomain axis (ascii "TAB"))

section Index

variable [LinearOrder K]

/-- How two neighbours compare: one to rise, minus one to fall. -/
def comparison (first second : K) : ℤ := if first < second then 1 else if second < first then -1 else 0

/-- The direction of an index vector, which neither turns nor stays constant. -/
def validateIndex (index : List K) : Outcome IndexDirection :=
  if index.length < 2 then
    .ok .increasing
  else do
    let direction ← (index.zip index.tail).foldlM (fun (direction : ℤ) pair =>
      if comparison pair.1 pair.2 = 0 then
        .ok direction
      else if direction ≠ 0 ∧ direction ≠ comparison pair.1 pair.2 then
        tabularDefect .nonMonotonicIndex
      else
        .ok (comparison pair.1 pair.2)) 0
    if direction = 0 then tabularDefect .constantIndex
    else .ok (if 0 < direction then .increasing else .decreasing)

/-- The index vector of a table axis. -/
structure IndexVector (length : ℕ) (K : Type) [LinearOrder K] where
  values : List K
  direction : IndexDirection
  length_values : values.length = length
  validated : validateIndex values = .ok direction

end Index

/-! ## Tables -/

/-- A coordinate array with the index vectors of its axes. -/
structure TabularTable (n : ℕ) (K : Type) [LinearOrder K] where
  /-- The image axis of each table axis. -/
  axes : Fin n → ℕ
  referenceIndices : Fin n → K
  lengths : Fin n → ℕ
  indices : (axis : Fin n) → Option (IndexVector (lengths axis) K)
  /-- The coordinates of each node, the first axis varying fastest. -/
  coordinates : List K
  axes_injective : Function.Injective axes
  lengths_pos : ∀ axis, 0 < lengths axis
  length_coordinates : coordinates.length = n * ((List.finRange n).map lengths).prod
  slice : 8 * coordinates.length ≤ isizeMax

/-- Where a point lies along one table axis: the node below it, and the fraction of the interval
past that node. -/
structure Interval (K : Type) where
  position : ℕ
  fraction : K
  deriving DecidableEq, Repr

/-- Where a point lies in the table. -/
structure TabularLocation (n : ℕ) (K : Type) where
  base : Fin n → ℕ
  delta : Fin n → K

/-! ## Lookups along an axis -/

section Lookup

variable [Field K] [LinearOrder K]

namespace IndexVector

variable {length : ℕ} (index : IndexVector length K)

/-- The index value of a node. -/
def value (node : ℕ) : K := index.values.getD node 0

/-- Whether an index value lies more than half an interval past the first node or the last. -/
def outside (psi : K) : Bool :=
  let firstStep := |index.value 1 - index.value 0|
  let last := index.values.length - 1
  let lastStep := |index.value last - index.value (last - 1)|
  match index.direction with
  | .increasing =>
    psi < index.value 0 - 1 / 2 * firstStep || index.value last + 1 / 2 * lastStep < psi
  | .decreasing =>
    index.value 0 + 1 / 2 * firstStep < psi || psi < index.value last - 1 / 2 * lastStep

/-- The interval of an index value, the lower of two at a node. -/
def segment (psi : K) : ℕ :=
  let last := index.values.length - 1
  match index.direction with
  | .increasing =>
    if psi < index.value 0 then 0
    else if index.value last < psi then last - 1
    else
      let lower := partitionPoint (fun value => decide (value < psi)) index.values
      if lower ≠ 0 then lower - 1
      else partitionPoint (fun value => decide (value ≤ psi)) index.values - 1
  | .decreasing =>
    if index.value 0 < psi then 0
    else if psi < index.value last then last - 1
    else
      let lower := partitionPoint (fun value => decide (psi < value)) index.values
      if lower ≠ 0 then lower - 1
      else partitionPoint (fun value => decide (psi ≤ value)) index.values - 1

end IndexVector

namespace TabularTable

variable (table : TabularTable n K)

/-- The array coordinate of an index value: a whole number at each node, counted from one. -/
def indexToArray (axis : Fin n) (psi : K) : Outcome K :=
  match table.indices axis with
  | none => .ok psi
  | some index =>
    if index.values.length = 1 then
      if index.value 0 - 1 / 2 ≤ psi ∧ psi ≤ index.value 0 + 1 / 2 then
        .ok (psi - index.value 0 + 1)
      else
        tabularDomain (table.axes axis)
    else if index.outside psi then
      tabularDomain (table.axes axis)
    else
      let segment := index.segment psi
      if index.value segment = index.value (segment + 1) then
        tabularDomain (table.axes axis)
      else
        .ok (segment + 1 +
          (psi - index.value segment) / (index.value (segment + 1) - index.value segment))

variable [FloorRing K]

/-- The index value of an array coordinate. -/
def arrayToIndex (axis : Fin n) (upsilon : K) : K :=
  match table.indices axis with
  | none => upsilon
  | some index =>
    if index.values.length = 1 then
      upsilon + index.value 0 - 1
    else
      let position := ⌊upsilon⌋₊
      let lower := min (position - 1) (index.values.length - 2)
      index.value lower + (upsilon - lower - 1) * (index.value (lower + 1) - index.value lower)

/-- `usize::try_from(value).expect(..)`. -/
def expectUsize (value : ℤ) : Outcome ℕ := if value < 0 then abort .expectation else .ok value.toNat

/-- Where an intermediate coordinate lies along a table axis: the interval below its array
coordinate, the first or the last one past an end. -/
def axisInterval (axis : Fin n) (intermediate : K) : Outcome (Interval K) := do
  let psi := intermediate + table.referenceIndices axis
  let upsilon ← table.indexToArray axis psi
  let length := table.lengths axis
  if ¬(1 / 2 ≤ upsilon ∧ upsilon ≤ length + 1 / 2) then
    tabularDomain (table.axes axis)
  else do
    let oneRelative := ⌊upsilon⌋
    let fraction := upsilon - oneRelative
    if oneRelative = 0 then do
      let position ← expectUsize (oneRelative - 1 + 1)
      .ok ⟨position, fraction - 1⟩
    else if isizeMax < length then
      abort .expectation
    else if oneRelative = length ∧ 1 < length then do
      let position ← expectUsize (oneRelative - 1 - 1)
      .ok ⟨position, fraction + 1⟩
    else do
      let position ← expectUsize (oneRelative - 1)
      .ok ⟨position, fraction⟩

/-- Where a point lies along each table axis, from its coordinate on each image axis. -/
def interpolationLocation (intermediate : ℕ → Outcome K) : Outcome (TabularLocation n K) := do
  let intervals ← Loops.traverseFin fun axis => do
    let coordinate ← intermediate (table.axes axis)
    table.axisInterval axis coordinate
  .ok ⟨fun axis => (intervals axis).position, fun axis => (intervals axis).fraction⟩

/-- The intermediate coordinate of an interval along a table axis. -/
def intermediate (axis : Fin n) (interval : Interval K) : Outcome K :=
  let upsilon := interval.position + 1 + interval.fraction
  if ¬(1 / 2 ≤ upsilon ∧ upsilon ≤ table.lengths axis + 1 / 2) then
    tabularDomain (table.axes axis)
  else
    .ok (table.arrayToIndex axis upsilon - table.referenceIndices axis)

end TabularTable

end Lookup

/-! ## The corners of a cell -/

namespace TabularTable

section Order

variable [LinearOrder K] (table : TabularTable n K)

/-- The table axes that have an interval. -/
def variableAxes : List (Fin n) := (List.finRange n).filter fun axis => 1 < table.lengths axis

def vertexCount : ℕ := 2 ^ table.variableAxes.length

/-- The place of the coordinates of a node. -/
def coordinateOffset (indices : Fin n → ℕ) : Outcome ℕ := do
  let point ← (List.finRange n).reverse.foldlM (fun point axis => do
    let row ← mulUsize point (table.lengths axis)
    addUsize row (indices axis)) 0
  mulUsize point n

/-- Move the corner `vertex - 1` to the corner `vertex`, by the bits that change. -/
def moveVertex (vertex : ℕ) (indices : Fin n → ℕ) : Outcome (Fin n → ℕ) :=
  let changed := vertex ^^^ (vertex - 1)
  table.variableAxes.zipIdx.foldlM (fun indices (axis, bit) =>
    if changed.testBit bit then do
      let next ← if vertex.testBit bit then addUsize (indices axis) 1 else subUsize (indices axis) 1
      .ok (Function.update indices axis next)
    else
      .ok indices) indices

end Order

variable [Field K] [LinearOrder K] (table : TabularTable n K) {σ : Type}

/-- The weight of a corner. -/
def vertexWeight (delta : Fin n → K) (vertex : ℕ) : K :=
  table.variableAxes.zipIdx.foldl (fun weight (axis, bit) =>
    if vertex.testBit bit then weight * delta axis else weight * (1 - delta axis)) 1

/-- Visit the corners in turn, those of weight zero passed over, to one of weight one. -/
def visitVertices (delta : Fin n → K) (visit : σ → ℕ → K → Outcome σ) :
    List ℕ → (Fin n → ℕ) → σ → Outcome σ
  | [], _, s => .ok s
  | vertex :: vertices, indices, s => do
    let indices ← if vertex ≠ 0 then table.moveVertex vertex indices else .ok indices
    let weight := table.vertexWeight delta vertex
    if weight = 0 then
      visitVertices delta visit vertices indices s
    else do
      let offset ← table.coordinateOffset indices
      let s ← visit s offset weight
      if weight = 1 then .ok s else visitVertices delta visit vertices indices s

def forEachInterpolationVertex (location : TabularLocation n K)
    (visit : σ → ℕ → K → Outcome σ) (s : σ) : Outcome σ :=
  table.visitVertices location.delta visit (List.range table.vertexCount) location.base s

/-! ## World coordinates -/

variable [FloorRing K]

/-- The world coordinate of a table of the one axis `first`. -/
def worldOneDimensional (first : Fin n) (intermediate : K) : Outcome K := do
  let interval ← table.axisInterval first intermediate
  if table.lengths first = 1 then
    load table.coordinates 0
  else do
    let lower ← load table.coordinates interval.position
    let upper ← load table.coordinates (interval.position + 1)
    .ok (lower * (1 - interval.fraction) + upper * interval.fraction)

/-- Replace the intermediate coordinates of the table's axes with their world coordinates. -/
def toWorld (coordinates : List K) : Outcome (List K) :=
  if h : n = 1 then do
    let first : Fin n := ⟨0, zero_lt_of_eq_one h⟩
    let intermediate ← load coordinates (table.axes first)
    let world ← table.worldOneDimensional first intermediate
    store coordinates (table.axes first) world
  else do
    let location ← table.interpolationLocation (load coordinates)
    let coordinates ← (List.finRange n).foldlM (fun coordinates axis =>
      store coordinates (table.axes axis) 0) coordinates
    table.forEachInterpolationVertex location (fun coordinates offset weight =>
      (List.finRange n).foldlM (fun coordinates axis => do
        let sum ← load coordinates (table.axes axis)
        let corner ← load table.coordinates (offset + axis)
        store coordinates (table.axes axis) (sum + corner * weight)) coordinates) coordinates

/-- The world coordinate of one image axis. -/
def toWorldAxis (imageAxis : ℕ) (intermediate : ℕ → Outcome K) : Outcome K :=
  if h : n = 1 then do
    let first : Fin n := ⟨0, zero_lt_of_eq_one h⟩
    let intermediate ← intermediate (table.axes first)
    table.worldOneDimensional first intermediate
  else
    match (List.finRange n).find? fun axis => table.axes axis = imageAxis with
    | none => abort .expectation
    | some axis => do
      let location ← table.interpolationLocation intermediate
      table.forEachInterpolationVertex location (fun result offset weight => do
        let corner ← load table.coordinates (offset + axis)
        .ok (result + corner * weight)) 0

end TabularTable

end FitsWell
