import FitsWell.Compression.TileGeometry
import FitsWell.Library.Chunks

/-!
# Decoding a tiled image

A whole image decodes band by band, each band of tiles into its own run of the plane, or
in waves of tiles that share one buffer. A section decodes the tiles it meets, in waves,
and scatters the part of each it covers. How one tile is reconstructed from its row of
the container is a field of the plan.
-/

namespace FitsWell

/-! ## Slices of a plane -/

/-- `values.chunks_mut(size)`: runs of `size` elements, the last one the remainder. -/
def chunksMut {α : Type} (values : List α) (size : ℕ) : Outcome (List (List α)) :=
  if size = 0 then
    abort .zeroChunkSize
  else
    .ok ((List.range ((values.length + size - 1) / size)).map (Chunks.chunk values size))

/-! ## Scattering a tile -/

/-- Write the row at `base` of a tile from the `values` at the offset reached, into the
part of the plane from `start` on. -/
def scatterRow {δ : Type} (start rowLen : ℕ) (values : List δ) (state : ℕ × List δ) (base : ℕ) :
    Outcome (ℕ × List δ) := do
  let base ← subUsize base start
  let out ← copySlice state.2 base values state.1 rowLen
  .ok (state.1 + rowLen, out)

/-- Write a tile's `values` into `out`, the part of the plane from `start` on, converting
each. -/
def TileScratch.scatterRowsInto {σ δ : Type} (s : TileScratch) (start : ℕ) (out : List δ)
    (values : List σ) (convert : σ → δ) : Outcome (List δ) := do
  let done ← s.rowBases.foldlM (scatterRow start s.rowLen (values.map convert)) (0, out)
  .ok done.2

/-- A range of coordinates along an axis: `start..stop`. -/
structure AxisRange where
  start : ℕ
  stop : ℕ
  deriving DecidableEq, Repr

/-- Where in a section a row of a tile goes, along the axes left: its place so far plus
that of its coordinates, or nothing when one of them is outside the section. -/
def sectionBase : List ℕ → List ℕ → List AxisRange → List ℕ → ℕ → ℕ → ℕ → Outcome (Option ℕ)
  | [], _, _, _, _, base, _ => .ok (some base)
  | tdim :: tdims, origin :: origins, range :: ranges, length :: shape, remainder, base, stride =>
    do
    let place ← remUsize remainder tdim
    let remainder ← divUsize remainder tdim
    let coordinate ← addUsize origin place
    if range.start ≤ coordinate ∧ coordinate < range.stop then do
      let offset ← mulUsize (coordinate - range.start) stride
      let base ← addUsize base offset
      let stride ← mulUsize stride length
      sectionBase tdims origins ranges shape remainder base stride
    else
      .ok none
  | _, _, _, _, _, _, _ => abort .indexOutOfBounds

/-- A run of a tile's samples and where it goes in a section. -/
structure SectionRun where
  source : ℕ
  destination : ℕ
  width : ℕ
  deriving DecidableEq, Repr

/-- The part of row `row` of a tile that the section takes, clipped on the first axis to
`xStart..xEnd`. -/
def TileScratch.sectionRun (s : TileScratch) (ranges : List AxisRange) (shape : List ℕ)
    (xStart xEnd row : ℕ) : Outcome (Option SectionRun) := do
  let origin ← load s.origin 0
  let range ← load ranges 0
  let stride ← load shape 0
  let base ← sectionBase s.tdims.tail s.origin.tail ranges.tail shape.tail row 0 stride
  match base with
  | none => .ok none
  | some base => do
    let offset ← subUsize xStart origin
    let rowStart ← mulUsize row s.rowLen
    let source ← addUsize rowStart offset
    let shift ← subUsize xStart range.start
    let destination ← addUsize base shift
    .ok (some { source := source, destination := destination, width := xEnd - xStart })

/-- Copy a run of a tile into the section. -/
def copyRun {δ : Type} (values out : List δ) : Option SectionRun → Outcome (List δ)
  | none => .ok out
  | some run => copySlice out run.destination values run.source run.width

/-- The part of the first axis a tile and the section share. -/
def TileScratch.sectionWidth (s : TileScratch) (ranges : List AxisRange) : Outcome (ℕ × ℕ) := do
  let origin ← load s.origin 0
  let tdim ← load s.tdims 0
  let range ← load ranges 0
  let stop ← addUsize origin tdim
  .ok (max origin range.start, min stop range.stop)

/-- Write the part of a tile's `values` in the section `ranges` into `out`, the plane of
the section's `shape`, converting each. A row outside the section is skipped. -/
def TileScratch.scatterSectionInto {σ δ : Type} (s : TileScratch) (ranges : List AxisRange)
    (shape : List ℕ) (values : List σ) (out : List δ) (convert : σ → δ) : Outcome (List δ) := do
  let x ← s.sectionWidth ranges
  if x.1 ≥ x.2 then
    .ok out
  else
    (List.range s.rowBases.length).foldlM (fun out row => do
      let run ← s.sectionRun ranges shape x.1 x.2 row
      copyRun (values.map convert) out run) out

/-- The places of the section that a run writes. -/
def runPlaces : Option SectionRun → List ℕ
  | none => []
  | some run => List.range' run.destination run.width

/-- The places of the section that a tile's scatter writes, in the order it writes them. -/
def TileScratch.sectionWrites (s : TileScratch) (ranges : List AxisRange) (shape : List ℕ) :
    Outcome (List ℕ) := do
  let x ← s.sectionWidth ranges
  if x.1 ≥ x.2 then
    .ok []
  else
    (List.range s.rowBases.length).foldlM (fun written row => do
      let run ← s.sectionRun ranges shape x.1 x.2 row
      .ok (written ++ runPlaces run)) []

/-! ## The plan of a decode -/

/-- What a decoded value outside the image's range means. -/
inductive Overshoot
  | clamp
  | refuse
  deriving DecidableEq, Repr

/-- A stored sample type `δ` whose tiles decode in the plane `ω`. -/
structure DecodeSample (ω δ : Type) where
  /-- Fit a decoded tile into the type's range. -/
  fit : List ω → Overshoot → Outcome (List ω)
  /-- The stored value of a fitted one. -/
  narrow : ω → δ
  /-- A tile is fitted in place. -/
  length_fit : ∀ values overshoot fitted, fit values overshoot = .ok fitted →
    fitted.length = values.length

/-- Integers fitted into `low..=high`: a lossy codec's are clamped, another value outside
the range is corrupt data. -/
def fitIntegers (low high : ℤ) (values : List ℤ) : Overshoot → Outcome (List ℤ)
  | .clamp => .ok (values.map fun value => max low (min value high))
  | .refuse =>
    if ∀ value ∈ values, low ≤ value ∧ value ≤ high then
      .ok values
    else
      fail (.corruptCompressedData .valueOutOfRange)

theorem length_fitIntegers {low high : ℤ} (values : List ℤ) (overshoot : Overshoot)
    (fitted : List ℤ) (h : fitIntegers low high values overshoot = .ok fitted) :
    fitted.length = values.length := by
  cases overshoot with
  | clamp => rw [← Except.ok.inj h, List.length_map]
  | refuse =>
    rw [fitIntegers] at h
    split at h
    · rw [← Except.ok.inj h]
    · cases h

/-- The stored type `u8`. -/
def DecodeSample.u8 : DecodeSample ℤ ℤ where
  fit := fitIntegers 0 255
  narrow := fun wide => wide % 2 ^ 8
  length_fit := length_fitIntegers

/-- The stored type `i16`. -/
def DecodeSample.i16 : DecodeSample ℤ ℤ where
  fit := fitIntegers (-2 ^ 15) (2 ^ 15 - 1)
  narrow := fun wide => wide.bmod (2 ^ 16)
  length_fit := length_fitIntegers

/-- The stored type `i32`. -/
def DecodeSample.i32 : DecodeSample ℤ ℤ where
  fit := fitIntegers (-2 ^ 31) (2 ^ 31 - 1)
  narrow := fun wide => wide.bmod (2 ^ 32)
  length_fit := length_fitIntegers

/-- The stored type `i64`, the type of the plane. -/
def DecodeSample.i64 : DecodeSample ℤ ℤ where
  fit := fun values _ => .ok values
  narrow := fun wide => wide
  length_fit := fun values _ fitted h => by rw [← Except.ok.inj h]

/-- Where a tile lies: its row of the container, and its row of the image's tile grid. -/
structure TileRows where
  table : ℕ
  grid : ℕ
  deriving DecidableEq, Repr

/-- What a decode of an image resolves before its first tile. -/
structure ImageDecodePlan (ρ ω δ : Type) where
  geometry : TileGeometry
  /-- The container's rows: a tile's source cells, its null mask. -/
  rows : List ρ
  /-- Decode the tile of a container row, given its grid row and what it covers, and say
  what a value outside the stored type's range means. -/
  reconstruct : ρ → ℕ → TileScratch → Outcome (List ω × Overshoot)
  sample : DecodeSample ω δ

/-- A decoded tile has the samples its geometry says. -/
def ensureTileSize (expected got : ℕ) : Outcome Unit :=
  if got ≠ expected then fail (SizeUnit.samples.mismatch expected got) else .ok ()

section Decode

variable {ρ ω δ β : Type}

/-- The tile at `rows`, decoded and fitted to the stored type. -/
def ImageDecodePlan.decodeTile (plan : ImageDecodePlan ρ ω δ) (rows : TileRows) :
    Outcome (TileScratch × List ω) := do
  let tile ← plan.geometry.tileInto rows.grid
  let row ← load plan.rows rows.table
  let decoded ← plan.reconstruct row rows.grid tile
  let expected ← tile.nelem
  ensureTileSize expected decoded.1.length
  let values ← plan.sample.fit decoded.1 decoded.2
  .ok (tile, values)

/-- The buffer of a wave, a slot a tile, and the samples in each slot. -/
structure WaveBuffers (δ : Type) where
  wave : List δ
  lengths : List ℕ

/-- Decode tile `offset` of the wave from `waveStart` on into its slot. -/
def ImageDecodePlan.decodeSlot (plan : ImageDecodePlan ρ ω δ) (rows : ℕ → Outcome TileRows)
    (slot waveStart : ℕ) (buffers : WaveBuffers δ) (offset : ℕ) : Outcome (WaveBuffers δ) := do
  let place ← rows (waveStart + offset)
  let decoded ← plan.decodeTile place
  let lengths ← store buffers.lengths offset decoded.2.length
  let wave ← copySlice buffers.wave (offset * slot) (decoded.2.map plan.sample.narrow) 0
    (min slot decoded.2.length)
  .ok { wave := wave, lengths := lengths }

/-- Hand the samples in slot `offset` of a wave to `scatter`. -/
def scatterSlot (rows : ℕ → Outcome TileRows) (slot waveStart : ℕ)
    (scatter : β → ℕ → List δ → Outcome β) (buffers : WaveBuffers δ) (out : β) (offset : ℕ) :
    Outcome β := do
  let length ← load buffers.lengths offset
  let values ← subslice buffers.wave (offset * slot) length
  let place ← rows (waveStart + offset)
  scatter out place.grid values

/-- Decode one wave, then scatter it in order. -/
def ImageDecodePlan.decodeWave (plan : ImageDecodePlan ρ ω δ) (rows : ℕ → Outcome TileRows)
    (slot waveLen count : ℕ) (scatter : β → ℕ → List δ → Outcome β)
    (state : WaveBuffers δ × β) (wave : ℕ) : Outcome (WaveBuffers δ × β) := do
  let waveStart := wave * max waveLen 1
  let tiles := min waveLen (count - waveStart)
  let buffers ← (List.range tiles).foldlM (plan.decodeSlot rows slot waveStart) state.1
  let out ← (List.range tiles).foldlM (scatterSlot rows slot waveStart scatter buffers) state.2
  .ok (buffers, out)

/-- Decode `count` tiles, the rows of each given by `rows`, and hand each to `scatter` in
order: in waves of at most `limit` tiles, a slot of the largest tile's samples each. -/
def ImageDecodePlan.decodeWaves [Inhabited δ] (plan : ImageDecodePlan ρ ω δ) (limit count : ℕ)
    (rows : ℕ → Outcome TileRows) (scatter : β → ℕ → List δ → Outcome β) (out : β) :
    Outcome β := do
  let slot ← plan.geometry.maxTileElements
  let waveLen := min limit count
  let state ← (List.range ((count + max waveLen 1 - 1) / max waveLen 1)).foldlM
    (plan.decodeWave rows slot waveLen count scatter)
    ({ wave := List.replicate (waveLen * slot) default
       lengths := List.replicate waveLen 0 }, out)
  .ok state.2

variable {ο : Type}

/-- The rows of tile `tile` in a whole image's decode. -/
def wholeRows (tile : ℕ) : Outcome TileRows := .ok { table := tile, grid := tile }

/-- Write the samples of tile `tile` into the whole image. -/
def TileGeometry.scatterWhole (g : TileGeometry) (convert : δ → ο) (out : List ο) (tile : ℕ)
    (values : List δ) : Outcome (List ο) := do
  let s ← g.tileInto tile
  s.scatterRowsInto 0 out values convert

/-- Decode every tile in waves. -/
def ImageDecodePlan.decodeImageWaves [Inhabited δ] (plan : ImageDecodePlan ρ ω δ) (limit : ℕ)
    (out : List ο) (convert : δ → ο) : Outcome (List ο) := do
  let ntiles ← plan.geometry.ntiles
  plan.decodeWaves limit ntiles wholeRows (plan.geometry.scatterWhole convert) out

/-- Decode the tile at index `offset` of a band straight into the band's part of the
plane. -/
def ImageDecodePlan.decodeBandTile (plan : ImageDecodePlan ρ ω δ) (convert : δ → ο)
    (first start : ℕ) (part : List ο) (offset : ℕ) : Outcome (List ο) := do
  let place ← wholeRows (first + offset)
  let decoded ← plan.decodeTile place
  decoded.1.scatterRowsInto start part decoded.2 (fun wide => convert (plan.sample.narrow wide))

/-- Decode the tiles of band `band` into its part of the plane. -/
def ImageDecodePlan.decodeBand (plan : ImageDecodePlan ρ ω δ) (bands : Bands)
    (convert : δ → ο) (parts : List (List ο)) (band : ℕ) : Outcome (List (List ο)) := do
  let part ← load parts band
  let part ← (List.range bands.tiles).foldlM
    (plan.decodeBandTile convert (band * bands.tiles) (band * bands.len)) part
  store parts band part

/-- Decode every band into its own part of the plane. -/
def ImageDecodePlan.decodeImageBands (plan : ImageDecodePlan ρ ω δ) (out : List ο)
    (convert : δ → ο) : Outcome (List ο) := do
  let bands ← plan.geometry.bands
  let parts ← chunksMut out bands.len
  let parts ← (List.range parts.length).foldlM (plan.decodeBand bands convert) parts
  .ok parts.flatten

/-- Decode every tile into the whole plane: by bands where there is one for each of the
`threads`, in waves otherwise. -/
def ImageDecodePlan.decodeImageInto [Inhabited δ] (plan : ImageDecodePlan ρ ω δ)
    (threads limit : ℕ) (out : List ο) (convert : δ → ο) : Outcome (List ο) := do
  let bands ← plan.geometry.bands
  let ntiles ← plan.geometry.ntiles
  if bands.count < min threads ntiles then
    plan.decodeImageWaves limit out convert
  else
    plan.decodeImageBands out convert

/-- The part of an image a section decode covers: its ranges, its shape, and the grid
rows of the tiles it meets, which are the rows of the section's table. -/
structure TileSection where
  ranges : List AxisRange
  shape : List ℕ
  rows : List ℕ
  deriving DecidableEq, Repr

/-- The rows of tile `row` in a section's decode. -/
def TileSection.tileRows (tiles : TileSection) (row : ℕ) : Outcome TileRows := do
  let grid ← load tiles.rows row
  .ok { table := row, grid := grid }

/-- Write the part of a tile in the section. -/
def TileGeometry.scatterSection (g : TileGeometry) (tiles : TileSection) (convert : δ → ο)
    (out : List ο) (tile : ℕ) (values : List δ) : Outcome (List ο) := do
  let s ← g.tileInto tile
  s.scatterSectionInto tiles.ranges tiles.shape values out convert

/-- Decode only the tiles that meet the section. -/
def ImageDecodePlan.decodeSectionInto [Inhabited δ] (plan : ImageDecodePlan ρ ω δ) (limit : ℕ)
    (tiles : TileSection) (out : List ο) (convert : δ → ο) : Outcome (List ο) :=
  plan.decodeWaves limit tiles.rows.length tiles.tileRows
    (plan.geometry.scatterSection tiles convert) out

/-- The plan of a section's decode, whose table holds only the container rows of the tiles
the section meets. -/
def ImageDecodePlan.ofRows (plan : ImageDecodePlan ρ ω δ) (rows : List ℕ) :
    Outcome (ImageDecodePlan ρ ω δ) := do
  let rows ← rows.mapM (load plan.rows)
  .ok { plan with rows := rows }

/-- Decode the tiles of a section, or of the whole image for `none`, into `out`. -/
def ImageDecodePlan.decodeInto [Inhabited δ] (plan : ImageDecodePlan ρ ω δ)
    (threads limit : ℕ) (tiles : Option TileSection) (out : List ο) (convert : δ → ο) :
    Outcome (List ο) :=
  if out.isEmpty then
    .ok out
  else
    match tiles with
    | some tiles => plan.decodeSectionInto limit tiles out convert
    | none => plan.decodeImageInto threads limit out convert

end Decode

/-- The places of a section that the scatter of its tiles writes, in the order it writes
them. -/
def TileGeometry.sectionWrites (g : TileGeometry) (tiles : TileSection) : Outcome (List ℕ) :=
  tiles.rows.foldlM (fun written tile => do
    let s ← g.tileInto tile
    let places ← s.sectionWrites tiles.ranges tiles.shape
    .ok (written ++ places)) []

end FitsWell
