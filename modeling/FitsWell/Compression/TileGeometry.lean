import FitsWell.Slices
import FitsWell.Usize

/-!
# The tile geometry of an image

The grid of tiles an image of any number of axes is cut into, the first axis the fastest
in memory. Axis 0 has stride 1, so a tile is rows of consecutive samples; an odometer
over the higher axes gives the start of each.
-/

namespace FitsWell

/-- The element count of an image of `shape`: no axes hold no data. -/
def shapeProduct (shape : List ℕ) : Outcome ℕ :=
  if shape = [] ∨ 0 ∈ shape then
    .ok 0
  else
    match shape.foldlM checkedMul 1 with
    | some count => .ok count
    | none => fail .dataUnitOverflow

/-- The tiling of an image: its axis lengths, the tile lengths, and what follows from
them. -/
structure TileGeometry where
  /-- The length of each axis. -/
  dims : List ℕ
  /-- The length of a tile along each axis. -/
  tiles : List ℕ
  /-- The samples between neighbours along each axis, zero for an image without pixels. -/
  stride : List ℕ
  /-- The tiles along each axis. -/
  ntilesAxis : List ℕ
  /-- The extent of the largest tile: the tile's, clipped to the image. -/
  maxTile : List ℕ
  deriving DecidableEq, Repr

/-- The runs of an image that the tiles at each index along its slowest axis write:
`count` bands of `len` samples, the last one shorter, each written by `tiles`
consecutive tiles. -/
structure Bands where
  count : ℕ
  len : ℕ
  tiles : ℕ
  deriving DecidableEq, Repr

/-- What a tile covers of the image. -/
structure TileScratch where
  /-- The first coordinate of the tile along each axis. -/
  origin : List ℕ
  /-- The extent of the tile along each axis, clipped to the image. -/
  tdims : List ℕ
  /-- The flat start of each row of the tile. -/
  rowBases : List ℕ
  /-- The elements of a row. -/
  rowLen : ℕ
  deriving DecidableEq, Repr

/-- The pixels of the tile. -/
def TileScratch.nelem (s : TileScratch) : Outcome ℕ := mulUsize s.rowLen s.rowBases.length

/-- The flat indices of the tile's pixels, run by run. -/
def TileScratch.pixels (s : TileScratch) : List ℕ :=
  s.rowBases.flatMap fun base => List.range' base s.rowLen

/-- A tile has its rows' pixels. -/
theorem TileScratch.length_pixels (s : TileScratch) :
    s.pixels.length = s.rowLen * s.rowBases.length := by
  unfold TileScratch.pixels
  induction s.rowBases with
  | nil => rfl
  | cons base rest ih =>
    rw [List.flatMap_cons, List.length_append, ih, List.length_range', List.length_cons,
      Nat.mul_succ, Nat.add_comm]

/-! ## The grid -/

/-- The stride of each axis, the first one's being `acc`. -/
def strides (acc : ℕ) : List ℕ → Outcome (List ℕ)
  | [] => .ok []
  | [_] => .ok [acc]
  | d :: ds => do
    let next ← mulUsize acc d
    let rest ← strides next ds
    .ok (acc :: rest)

/-- The strides of an image of `dims`, left at zero when it has no pixels. -/
def imageStrides (dims : List ℕ) : Outcome (List ℕ) :=
  if 0 ∈ dims then .ok (List.replicate dims.length 0) else strides 1 dims

/-- The geometry of an image of `dims` in tiles of `tiles`. -/
def TileGeometry.new (dims tiles : List ℕ) : Outcome TileGeometry := do
  let ntilesAxis ← (dims.zip tiles).mapM fun axis => divCeil axis.1 axis.2
  let stride ← imageStrides dims
  .ok {
    dims := dims
    tiles := tiles
    stride := stride
    ntilesAxis := ntilesAxis
    maxTile := List.zipWith min dims tiles
  }

/-- The tiles of the grid: none for an image with no pixels, one without axes too. -/
def TileGeometry.ntiles (g : TileGeometry) : Outcome ℕ :=
  if g.ntilesAxis = [] ∨ 0 ∈ g.ntilesAxis then .ok 0 else productUsize g.ntilesAxis

/-- The elements of the largest tile. -/
def TileGeometry.maxTileElements (g : TileGeometry) : Outcome ℕ := productUsize g.maxTile

/-- The bands of the slowest axis. -/
def TileGeometry.bands (g : TileGeometry) : Outcome Bands :=
  match g.dims.length with
  | 0 => .ok ⟨1, 1, 1⟩
  | last + 1 => do
    let count ← load g.ntilesAxis last
    let tile ← load g.tiles last
    let dim ← load g.dims last
    let stride ← load g.stride last
    let len ← mulUsize (min tile dim) stride
    let tiles ← productUsize (g.ntilesAxis.take last)
    .ok ⟨count, len, tiles⟩

/-! ## A tile -/

/-- The origin and the extent, along the axes left, of the tile whose index among them is
`rem`. -/
def locate : List ℕ → List ℕ → List ℕ → ℕ → Outcome (List ℕ × List ℕ)
  | [], _, _, _ => .ok ([], [])
  | dim :: dims, tile :: tiles, ntiles :: ntilesAxis, rem => do
    let ti ← remUsize rem ntiles
    let rem ← divUsize rem ntiles
    let origin ← mulUsize ti tile
    let room ← subUsize dim origin
    let rest ← locate dims tiles ntilesAxis rem
    .ok (origin :: rest.1, min tile room :: rest.2)
  | _, _, _, _ => abort .indexOutOfBounds

/-- The flat index of the coordinates `origin`. -/
def flatIndex (origin stride : List ℕ) : Outcome ℕ := do
  let offsets ← (origin.zip stride).mapM fun axis => mulUsize axis.1 axis.2
  sumUsize offsets

/-- One step of the odometer over the axes left: the coordinates `coord` and the flat
index `flat` of the next row. An axis past its end goes back to its start and carries. -/
def advance : List ℕ → List ℕ → List ℕ → ℕ → Outcome (List ℕ × ℕ)
  | c :: coord, tdim :: tdims, stride :: strides, flat => do
    let c ← addUsize c 1
    let flat ← addUsize flat stride
    if c < tdim then
      .ok (c :: coord, flat)
    else do
      let span ← mulUsize tdim stride
      let flat ← subUsize flat span
      let rest ← advance coord tdims strides flat
      .ok (0 :: rest.1, rest.2)
  | _, _, _, flat => .ok ([], flat)

/-- The state of the loop over a tile's rows: the rows emitted, and the coordinates along
the higher axes and the flat index of the next one. -/
structure RowWalk where
  rowBases : List ℕ
  coord : List ℕ
  flat : ℕ

/-- Emit a row and step the odometer. -/
def RowWalk.step (tdims stride : List ℕ) (walk : RowWalk) : Outcome RowWalk := do
  let next ← advance walk.coord tdims stride walk.flat
  .ok { rowBases := walk.rowBases ++ [walk.flat], coord := next.1, flat := next.2 }

/-- What tile `t` covers of the image. The rows run over the higher axes; a tile of at
most one axis is one row. -/
def TileGeometry.tileInto (g : TileGeometry) (t : ℕ) : Outcome TileScratch := do
  let place ← locate g.dims g.tiles g.ntilesAxis t
  let rowCount ← productUsize place.2.tail
  let flat ← flatIndex place.1 g.stride
  let walk ← (List.range rowCount).foldlM
    (fun walk _ => RowWalk.step place.2.tail g.stride.tail walk)
    { rowBases := [], coord := place.2.tail.map fun _ => 0, flat := flat }
  .ok {
    origin := place.1
    tdims := place.2
    rowBases := walk.rowBases
    rowLen := place.2.headD 1
  }

end FitsWell
