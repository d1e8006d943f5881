import FitsWell.WorldCoordinates.TabularTable

/-!
# The search of a table of many axes

A cell of the table is halved along its axes, over and over, to find where the interpolation has a
target value. A box whose corners all lie on one side of the target is passed over.
-/

namespace FitsWell

open scoped Halves

variable {n : ℕ} {K : Type}

/-- The most table axes a transform takes. -/
def maxTableAxes : ℕ := 7

/-- The work of one point's search. -/
def maxInverseWork : ℕ := 2 ^ 22

/-- The level whose boxes are not halved. -/
def lastLevel : ℕ := 31

/-- The least and the greatest of a cell's corners along a coordinate axis, and how far rounding
may take them. -/
structure CellBound (K : Type) where
  least : K
  greatest : K
  tolerance : K
  deriving DecidableEq, Repr

/-- The state of one point's search: the point, the cell's box and the voxel of it that is being
searched, and the voxel's corners. -/
structure SubvoxelSearch (n : ℕ) (K : Type) where
  target : Fin n → K
  start : Fin n → K
  extent : Fin n → K
  solution : Fin n → K
  delta : Fin n → K
  tolerance : Fin n → K
  corners : ℕ → Fin n → K
  base : Fin n → ℕ
  voxel : Fin n → ℕ
  remainingWork : ℕ

namespace SubvoxelSearch

variable [Field K]

/-- `f64::EPSILON`. -/
def epsilon : K := 1 / 2 ^ 52

/-- The side of a voxel at a level. -/
def subvoxelSize (level : ℕ) : K := 1 / 2 ^ level

/-- A search that has not begun. -/
def fresh : SubvoxelSearch n K where
  target := 0
  start := 0
  extent := 0
  solution := 0
  delta := 0
  tolerance := 0
  corners := 0
  base := 0
  voxel := 0
  remainingWork := maxInverseWork

variable [LinearOrder K] (table : TabularTable n K) (s : SubvoxelSearch n K)

/-- Start on a cell of the grid of `cellLengths`: the box it searches reaches half a cell past
each end of the array. -/
def enterCell (cellLengths : Fin n → ℕ) (cell : ℕ) : SubvoxelSearch n K :=
  let entered := (List.finRange n).foldl (fun (remainder, s) axis =>
    let position := remainder % cellLengths axis
    let length := table.lengths axis
    let first : K := if position = 0 then -(1 / 2) else 0
    let last : K := if length = 1 ∨ position = length - 2 then 3 / 2 else 1
    (remainder / cellLengths axis,
      { s with
        base := Function.update s.base axis position
        start := Function.update s.start axis first
        extent := Function.update s.extent axis (if length = 1 then 1 else last - first) }))
    (cell, s)
  { entered.2 with voxel := 0 }

/-- The node of a corner of the cell. -/
def cornerIndices (vertex : ℕ) : Fin n → ℕ :=
  table.variableAxes.zipIdx.foldl (fun indices (axis, bit) =>
    if vertex.testBit bit then Function.update indices axis (indices axis + 1) else indices) s.base

/-- Interpolate between two corners, to `lower` in the place of the first and to `upper` in that
of the second. -/
def mixCorners (lower upper : K) (corners : ℕ → Fin n → K) (lowerVertex upperVertex : ℕ) :
    ℕ → Fin n → K :=
  let first := corners lowerVertex
  let second := corners upperVertex
  Function.update
    (Function.update corners lowerVertex fun axis => first axis * (1 - lower) + second axis * lower)
    upperVertex fun axis => first axis * (1 - upper) + second axis * upper

/-- Interpolate along the axis of a bit. -/
def mixAxis (lower upper : K) (bit : ℕ) (corners : ℕ → Fin n → K) : ℕ → Fin n → K :=
  let stride := 2 ^ bit
  let block := 2 * stride
  (List.range ((table.vertexCount + block - 1) / block)).foldl (fun corners j =>
    (List.range stride).foldl (fun corners offset =>
      mixCorners lower upper corners (j * block + offset) (j * block + offset + stride)) corners)
    corners

/-- The corners of the current voxel, of side `size` of the cell's box, and their tolerance. -/
def fillCorners (level : ℕ) (size : K) : Outcome (SubvoxelSearch n K) := do
  let delta := fun axis =>
    if level = 0 then s.start axis else s.start axis + size * s.extent axis * s.voxel axis
  let nodes ← (List.range table.vertexCount).foldlM (fun corners vertex => do
    let source ← table.coordinateOffset (s.cornerIndices table vertex)
    let node ← subslice table.coordinates source n
    .ok (Function.update corners vertex fun axis : Fin n => node.getD axis 0)) s.corners
  let passes : K := table.variableAxes.length
  let rounding := 3 * passes * table.vertexCount * epsilon
  let tolerance := fun axis : Fin n => rounding * (List.range table.vertexCount).foldl
    (fun largest vertex => max largest |nodes vertex axis|) 0
  let corners := table.variableAxes.zipIdx.foldl (fun corners (axis, bit) =>
    let lower := delta axis
    let upper := lower + size * s.extent axis
    mixAxis table lower upper bit corners) nodes
  .ok { s with delta, tolerance, corners }

/-- Whether a corner is the target along an axis. -/
def equalAt (vertex : ℕ) (axis : Fin n) : Bool :=
  |s.corners vertex axis - s.target axis| ≤ s.tolerance axis

/-- Whether a corner is below the target along an axis. -/
def lowerAt (vertex : ℕ) (axis : Fin n) : Bool :=
  !s.equalAt vertex axis && decide (s.corners vertex axis - s.target axis < 0)

/-- Whether a corner is above the target along an axis. -/
def upperAt (vertex : ℕ) (axis : Fin n) : Bool :=
  !s.equalAt vertex axis && !decide (s.corners vertex axis - s.target axis < 0)

/-- The first corner that is the target along every axis. -/
def exactVertex : Option ℕ :=
  (List.range table.vertexCount).find? fun vertex => (List.finRange n).all (s.equalAt vertex)

/-- Whether the corners surround the target along every axis. -/
def possible : Bool :=
  (List.finRange n).all fun axis =>
    (List.range table.vertexCount).any (s.equalAt · axis) ||
      ((List.range table.vertexCount).any (s.lowerAt · axis) &&
        (List.range table.vertexCount).any (s.upperAt · axis))

/-- The place of a corner of the voxel. -/
def cornerSolution (size : K) (vertex : ℕ) : Fin n → K :=
  table.variableAxes.zipIdx.foldl (fun solution (axis, bit) =>
    if vertex.testBit bit then
      Function.update solution axis (solution axis + size * s.extent axis)
    else
      solution) s.delta

/-- The voxel of a subdivision of the current one. -/
def enterVoxel (level subdivision : ℕ) : SubvoxelSearch n K :=
  { s with voxel := table.variableAxes.zipIdx.foldl (fun voxel (axis, bit) =>
      let parent := if level = 0 then 0 else 2 * voxel axis
      Function.update voxel axis (parent + if subdivision.testBit bit then 1 else 0)) s.voxel }

/-- The voxel that was subdivided. -/
def leaveVoxel (level : ℕ) : SubvoxelSearch n K :=
  { s with voxel := table.variableAxes.foldl (fun voxel axis =>
      Function.update voxel axis (if level = 0 then 0 else voxel axis / 2)) s.voxel }

/-- Search the subdivisions in turn. -/
def locateIn (level : ℕ) (locate : SubvoxelSearch n K → Outcome (Bool × SubvoxelSearch n K)) :
    List ℕ → SubvoxelSearch n K → Outcome (Bool × SubvoxelSearch n K)
  | [], s => .ok (false, s)
  | subdivision :: subdivisions, s => do
    let (found, s) ← locate (s.enterVoxel table level subdivision)
    if found then .ok (true, s) else locateIn level locate subdivisions (s.leaveVoxel table level)

/-- Search the current voxel, `left` levels before the last. -/
def locate (nodeWork : ℕ) : ℕ → SubvoxelSearch n K → Outcome (Bool × SubvoxelSearch n K)
  | left, s => do
    let level := lastLevel - left
    let size : K := subvoxelSize level
    if s.remainingWork < nodeWork then
      fail (.wcsNoConvergence (ascii "TAB"))
    else do
      let s ← { s with remainingWork := s.remainingWork - nodeWork }.fillCorners table level size
      match s.exactVertex table with
      | some vertex => .ok (true, { s with solution := s.cornerSolution table size vertex })
      | none =>
        if !s.possible table then
          .ok (false, s)
        else
          match left with
          | 0 =>
            let half := size / 2
            .ok (true, { s with
              solution := fun axis => s.start axis + half * s.extent axis * (2 * s.voxel axis + 1) })
          | left + 1 =>
            locateIn table level (locate nodeWork left) (List.range table.vertexCount) s

/-- The bounds of each cell's corners at the first level. -/
def cellBounds (cellLengths : Fin n → ℕ) (cellCount : ℕ) : Outcome (List (Fin n → CellBound K)) := do
  let bounds ← (List.range cellCount).foldlM (fun (bounds, s) cell => do
    let s ← (enterCell table s cellLengths cell).fillCorners table 0 1
    let corners := fun axis => (List.range table.vertexCount).map (s.corners · axis)
    let bound : Fin n → CellBound K := fun axis =>
      ⟨(corners axis).foldl min (s.corners 0 axis), (corners axis).foldl max (s.corners 0 axis),
        s.tolerance axis⟩
    .ok (bounds ++ [bound], s)) (([] : List (Fin n → CellBound K)), (fresh : SubvoxelSearch n K))
  .ok bounds.1

end SubvoxelSearch

end FitsWell
