import FitsWell.Compression.ImageDecode

/-!
# The tiles of a section

Which tiles of an image a section meets: an odometer over their indices along each axis,
which gives the grid row of each.
-/

namespace FitsWell

/-- Refuse an axis of a region that is reversed or leaves the image; `axis` is its
number. -/
def checkAxes : ℕ → List AxisRange → List ℕ → Outcome Unit
  | axis, range :: ranges, len :: shape =>
    if range.start > range.stop ∨ range.stop > len then
      fail (.imageRegionOutOfBounds axis range.start range.stop len)
    else
      checkAxes (axis + 1) ranges shape
  | _, _, _ => .ok ()

/-- Refuse `ranges` unless it is a region of an image of `shape`. -/
def checkImageRegion (ranges : List AxisRange) (shape : List ℕ) : Outcome Unit :=
  if ranges.length ≠ shape.length then
    fail (.rankMismatch .imageRegion shape.length ranges.length)
  else
    checkAxes 0 ranges shape

/-- The shape a region selects. -/
def validateImageRegion (ranges : List AxisRange) (shape : List ℕ) : Outcome (List ℕ) := do
  checkImageRegion ranges shape
  ranges.mapM fun range => subUsize range.stop range.start

/-- The index of the first tile along an axis past a non-empty range. -/
def firstPastTile (range : AxisRange) (tile : ℕ) : Outcome ℕ := do
  let last ← subUsize range.stop 1
  let index ← divUsize last tile
  addUsize index 1

/-- The tiles along an axis that a non-empty range meets. -/
def tilesMet (range : AxisRange) (tile : ℕ) : Outcome ℕ := do
  let past ← firstPastTile range tile
  let first ← divUsize range.start tile
  subUsize past first

/-- Count the tiles met along the axes left, where the count is a word. -/
def countTiles : ℕ → List (AxisRange × ℕ) → Outcome ℕ
  | count, [] => .ok count
  | count, axis :: axes => do
    let met ← tilesMet axis.1 axis.2
    match checkedMul count met with
    | some count => countTiles count axes
    | none => fail .dataUnitOverflow

/-- The tiles a valid section meets. -/
def tileCount (tiles : List ℕ) (ranges : List AxisRange) : Outcome ℕ :=
  if (ranges.any fun range => decide (range.stop ≤ range.start)) = true ∨ ranges = [] then
    .ok 0
  else
    countTiles 1 (ranges.zip tiles)

/-- The grid row of the tile with the indices `coordinates` along the axes left, whose
row so far is `index` and whose neighbours along the next axis are `stride` apart. -/
def gridRow : ℕ → ℕ → List ℕ → List ℕ → List ℕ → Outcome ℕ
  | index, _, [], _, _ => .ok index
  | index, stride, coordinate :: coordinates, dim :: dims, tile :: tiles =>
    match checkedMul coordinate stride with
    | none => fail .dataUnitOverflow
    | some offset =>
      if index + offset ≤ usizeMax then do
        let along ← divCeil dim tile
        match checkedMul stride along with
        | none => fail .dataUnitOverflow
        | some stride => gridRow (index + offset) stride coordinates dims tiles
      else
        fail .dataUnitOverflow
  | _, _, _, _, _ => abort .indexOutOfBounds

/-- Step the odometer over the indices of the tiles met. An index past its axis's last
one goes back to its first and carries. -/
def stepTile : List ℕ → List AxisRange → List ℕ → Outcome (List ℕ)
  | coordinate :: coordinates, range :: ranges, tile :: tiles => do
    let coordinate ← addUsize coordinate 1
    let past ← firstPastTile range tile
    if coordinate < past then
      .ok (coordinate :: coordinates)
    else do
      let first ← divUsize range.start tile
      let rest ← stepTile coordinates ranges tiles
      .ok (first :: rest)
  | [], _, _ => .ok []
  | _, _, _ => abort .indexOutOfBounds

/-- List the next tile and step past it. -/
def selectTile (dims tiles : List ℕ) (ranges : List AxisRange) (state : List ℕ × List ℕ) :
    Outcome (List ℕ × List ℕ) := do
  let row ← gridRow 0 1 state.2 dims tiles
  let coordinates ← stepTile state.2 ranges tiles
  .ok (state.1 ++ [row], coordinates)

/-- The section `ranges` of an image: its shape, and the grid rows of the tiles it
meets. -/
def select (dims tiles : List ℕ) (ranges : List AxisRange) : Outcome TileSection := do
  let shape ← validateImageRegion ranges dims
  let count ← tileCount tiles ranges
  if count = 0 then
    .ok { ranges := ranges, shape := shape, rows := [] }
  else do
    let coordinates ← (ranges.zip tiles).mapM fun axis => divUsize axis.1.start axis.2
    let state ← (List.range count).foldlM (fun state _ => selectTile dims tiles ranges state)
      ([], coordinates)
    .ok { ranges := ranges, shape := shape, rows := state.1 }

end FitsWell
