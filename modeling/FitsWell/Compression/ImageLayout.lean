import FitsWell.Compression.ContainerLayout

/-!
# The container of an image

The cells that an image is encoded to are laid out as a container: each is read through its
descriptor. A tile of a quantized image has one cell that is not empty.
-/

namespace FitsWell

open Bytes
open Gzip (Flate)

/-! ## The cells of an image -/

/-- A stream is of whole elements. -/
theorem TileCodec.whole_encode {flate : Flate} {codec : TileCodec} {tile : Tile}
    {samples : TileSamples} {stream : List UInt8}
    (h : codec.encode flate tile samples = .ok stream) :
    codec.streamKind.elemSize ∣ stream.length := by
  cases codec with
  | plio coder =>
    obtain ⟨values, -, h⟩ := Loops.ok_of_bind h
    obtain ⟨words, hwords⟩ := coder.length_encode h
    exact ⟨words.length, hwords⟩
  | gzip1 level => exact Nat.one_dvd _
  | gzip2 level => exact Nat.one_dvd _
  | rice coder => exact Nat.one_dvd _
  | hcompress coder => exact Nat.one_dvd _
  | noCompress => exact Nat.one_dvd _

/-- What tiles are mapped to is what the call of one gives. -/
theorem mem_mapTiles {α : Type} {dims tiles : List ℕ} {sampleCount : ℕ}
    {encode : ℕ → TileScratch → Outcome α} {items : List α} {item : α}
    (h : mapTiles dims tiles sampleCount encode = .ok items) (hitem : item ∈ items) :
    ∃ t tile, encode t tile = .ok item := by
  obtain ⟨geometry, -, h⟩ := Loops.ok_of_bind h
  obtain ⟨ntiles, -, h⟩ := Loops.ok_of_bind h
  obtain ⟨t, -, hcall⟩ := Loops.mem_mapM h hitem
  obtain ⟨tile, -, hcall⟩ := Loops.ok_of_bind hcall
  exact ⟨t, tile, hcall⟩

section Images

variable {R : Type}

theorem whole_ofCells {codec : TileCodec} {cells : List (List UInt8)}
    (h : ∀ cell ∈ cells, codec.streamKind.elemSize ∣ cell.length) :
    (ContainerPlan.ofCells codec cells).Whole := by
  intro column hcolumn
  obtain rfl := List.mem_singleton.mp hcolumn
  exact h

theorem IntImage.whole_cells {flate : Flate} {image : IntImage R} {codec : TileCodec}
    {tiles : List ℕ} {cells : List (List UInt8)}
    (h : image.encodeCells flate codec tiles = .ok cells) :
    (ContainerPlan.ofCells codec cells).Whole := by
  refine whole_ofCells fun cell hcell => ?_
  obtain ⟨t, tile, hencode⟩ := mem_mapTiles h hcell
  obtain ⟨ints, -, hencode⟩ := Loops.ok_of_bind hencode
  exact TileCodec.whole_encode hencode

theorem FloatImage.whole_cells {flate : Flate} {image : FloatImage R} {codec : TileCodec}
    {tiles : List ℕ} {cells : List (List UInt8)}
    (h : image.encodeCells flate codec tiles = .ok cells) :
    (ContainerPlan.ofCells codec cells).Whole := by
  refine whole_ofCells fun cell hcell => ?_
  obtain ⟨t, tile, hencode⟩ := mem_mapTiles h hcell
  obtain ⟨bytes, -, hencode⟩ := Loops.ok_of_bind hencode
  exact TileCodec.whole_encode hencode

/-- A tile's float that quantize are more than one. -/
theorem Quantizer.length_quantize {quantizer : Quantizer} {values : List ℕ} {width index : ℕ}
    {quantized : Quantized} {ints : List ℤ}
    (h : quantizer.quantize values width index = some (quantized, ints)) :
    1 < ints.length := by
  unfold quantize at h
  split at h
  · cases h
  · rename_i hsome
    obtain ⟨own, -, hown⟩ := Option.bind_eq_some_iff.mp h
    obtain ⟨-, rfl⟩ := Prod.ext_iff.mp (Option.some.inj hown)
    rw [List.length_mapIdx]
    omega

/-- One of a tile's cells is empty. -/
theorem FloatTile.one_cell {tile : FloatTile} (h : tile.bytes ≠ []) :
    (tile.compressed = [] ∧ tile.gzipped ≠ []) ∨ (tile.compressed ≠ [] ∧ tile.gzipped = []) := by
  cases tile with
  | quantized bytes zscale zzero hasNull => exact Or.inr ⟨h, rfl⟩
  | raw bytes => exact Or.inl ⟨rfl, h⟩

theorem i64ToBe_ne_nil {values : List ℤ} (width : IntBitpix) (h : 0 < values.length) :
    i64ToBe values width ≠ [] := by
  have hlength := length_i64ToBe values width
  have hpos := Nat.mul_pos width.elemSize_pos h
  rintro hnil
  rw [hnil, List.length_nil] at hlength
  omega

/-- A float tile is encoded to bytes. -/
theorem QuantizedFloatImage.bytes_ne_nil {flate : Flate} {quantizer : Quantizer}
    {image : FloatImage R} {codec : TileCodec} {t : ℕ} {tile : TileScratch} {encoded : FloatTile}
    (hcodec : ∀ coder, codec ≠ .plio coder)
    (h : encodeTile flate quantizer image codec t tile = .ok encoded) : encoded.bytes ≠ [] := by
  obtain ⟨floats, -, h⟩ := Loops.ok_of_bind h
  obtain ⟨width, -, h⟩ := Loops.ok_of_bind h
  split at h
  · obtain ⟨raw, -, h⟩ := Loops.ok_of_bind h
    obtain ⟨bytes, hbytes, h⟩ := Loops.ok_of_bind h
    obtain rfl := Except.ok.inj h
    refine TileCodec.encode_ne_nil hbytes (fun coder => ?_) fun hstored => ?_
    · cases codec <;> simp [rawCodec]
    · cases codec <;> simp [rawCodec] at hstored
  · rename_i q ints hquantize
    obtain ⟨bytes, hbytes, h⟩ := Loops.ok_of_bind h
    obtain rfl := Except.ok.inj h
    refine TileCodec.encode_ne_nil hbytes hcodec fun _ => ?_
    exact i64ToBe_ne_nil _ (Nat.lt_of_succ_lt (Quantizer.length_quantize hquantize))

/-- The cells that an image is encoded to, as its container is to hold them. -/
def containerPlan (flate : Flate) (quantizer : Quantizer) (config : CompressionConfig R)
    (image : Image R) : Outcome ContainerPlan :=
  match image with
  | .int image => do
    let cells ← image.encodeCells flate config.codec config.tiles
    .ok (.ofCells config.codec cells)
  | .float image =>
    match config.spacing with
    | .none => do
      let cells ← image.encodeCells flate config.codec config.tiles
      .ok (.ofCells config.codec cells)
    | .quantized method zdither0 => do
      let encoded ← QuantizedFloatImage.encode flate quantizer image config.codec config.scale
        config.tiles method zdither0
      .ok (.ofTiles encoded.tiles)

/-- A plan has two columns, and one of the two cells of each tile is empty. -/
def ContainerPlan.OneCell (plan : ContainerPlan) : Prop :=
  ∃ first second, plan.columns = [first, second] ∧ ∀ (t : ℕ) (cell other : List UInt8),
    first.cells[t]? = some cell → second.cells[t]? = some other →
    (cell = [] ∧ other ≠ []) ∨ (cell ≠ [] ∧ other = [])

theorem QuantizedFloatImage.one_cell {flate : Flate} {quantizer : Quantizer}
    {image : FloatImage R} {codec : TileCodec} {scale : R} {tileShape : List ℕ}
    {method : DitherMethod} {zdither0 : Option ℤ} {encoded : QuantizedFloatImage R}
    (h : encode flate quantizer image codec scale tileShape method zdither0 = .ok encoded) :
    (ContainerPlan.ofTiles encoded.tiles).OneCell := by
  obtain ⟨own, hown, h⟩ := Loops.ok_of_bind h
  obtain ⟨tiles, htiles, h⟩ := Loops.ok_of_bind h
  obtain rfl := Except.ok.inj h
  have hcodec : ∀ coder, own ≠ .plio coder := by
    rintro coder rfl
    cases codec with
    | plio other => cases hown
    | hcompress other =>
      unfold quantizedCodec at hown
      dsimp only at hown
      split at hown <;> cases hown
    | gzip1 level => cases hown
    | gzip2 level => cases hown
    | rice other => cases hown
    | noCompress => cases hown
  refine ⟨_, _, rfl, fun t cell other hcell hother => ?_⟩
  rw [List.getElem?_map, Option.map_eq_some_iff] at hcell hother
  obtain ⟨tile, htile, rfl⟩ := hcell
  obtain ⟨same, hsame, rfl⟩ := hother
  obtain rfl := Option.some.inj (htile.symm.trans hsame)
  obtain ⟨index, scratch, hencode⟩ := mem_mapTiles htiles (List.mem_of_getElem? htile)
  exact FloatTile.one_cell (bytes_ne_nil hcodec hencode)

end Images

section Layout

variable {R : Type} [PlaneReals R] {flate : Flate} {quantizer : Quantizer}
  {config : CompressionConfig R}

theorem IntImage.laidOut {image : IntImage R} {codec : TileCodec} {scale : R} {tiles : List ℕ}
    {unit : EncodedUnit R} (h : image.compress flate codec scale tiles = .ok unit) :
    ∃ cells, image.encodeCells flate codec tiles = .ok cells ∧
      unit.LaidOut (.ofCells codec cells) := by
  obtain ⟨_, -, h⟩ := Loops.ok_of_bind h
  obtain ⟨cells, hcells, h⟩ := Loops.ok_of_bind h
  obtain ⟨laid, hlaid, h⟩ := Loops.ok_of_bind h
  obtain ⟨imaged, himaged, h⟩ := Loops.ok_of_bind h
  obtain ⟨coded, hcoded, h⟩ := Loops.ok_of_bind h
  obtain ⟨scaled, hscaled, h⟩ := Loops.ok_of_bind h
  obtain rfl := Except.ok.inj h
  exact ⟨cells, hcells, laidOut_layOutCells (image.whole_cells hcells) hlaid
    ((frames_setZimageAxes himaged).trans ((frames_setCodecParameters hcoded).trans
      (frames_addToHeader hscaled)))⟩

theorem FloatImage.laidOut {image : FloatImage R} {codec : TileCodec} {tiles : List ℕ}
    {unit : EncodedUnit R} (h : compressLosslessFloatImage flate image codec tiles = .ok unit) :
    ∃ cells, image.encodeCells flate codec tiles = .ok cells ∧
      unit.LaidOut (.ofCells codec cells) := by
  unfold compressLosslessFloatImage at h
  split at h
  · obtain ⟨cells, hcells, h⟩ := Loops.ok_of_bind h
    obtain ⟨laid, hlaid, h⟩ := Loops.ok_of_bind h
    obtain ⟨imaged, himaged, h⟩ := Loops.ok_of_bind h
    obtain ⟨quantized, hquantized, h⟩ := Loops.ok_of_bind h
    obtain ⟨scaled, hscaled, h⟩ := Loops.ok_of_bind h
    obtain rfl := Except.ok.inj h
    exact ⟨cells, hcells, laidOut_layOutCells (image.whole_cells hcells) hlaid
      ((frames_setZimageAxes himaged).trans ((frames_setInternal hquantized (Or.inl rfl)).trans
        (frames_addToHeader hscaled)))⟩
  · cases h

/-- The container of an image is that of the cells it is encoded to. -/
theorem laidOut_compressImage {image : Image R} {unit : EncodedUnit R}
    (h : compressImage flate quantizer config image = .ok unit) :
    ∃ plan, containerPlan flate quantizer config image = .ok plan ∧ unit.LaidOut plan := by
  unfold compressImage at h
  split at h
  · cases h
  cases image with
  | int image =>
    dsimp only at h
    split at h
    · cases h
    · obtain ⟨cells, hcells, hlaid⟩ := image.laidOut h
      exact ⟨_, Loops.bind_ok hcells, hlaid⟩
  | float image =>
    dsimp only at h
    unfold compressFloatImage at h
    unfold containerPlan
    cases hspacing : config.spacing with
    | none =>
      rw [hspacing] at h
      obtain ⟨cells, hcells, hlaid⟩ := image.laidOut h
      exact ⟨_, Loops.bind_ok hcells, hlaid⟩
    | quantized method zdither0 =>
      rw [hspacing] at h
      obtain ⟨encoded, hencoded, h⟩ := Loops.ok_of_bind h
      obtain ⟨width, hwidth, h⟩ := Loops.ok_of_bind h
      exact ⟨_, Loops.bind_ok hencoded, laidOut_layOut hwidth h⟩

omit [PlaneReals R] in
/-- The width chosen for the cells of an image holds each descriptor of a heap in memory. -/
theorem addressed_containerPlan {image : Image R} {plan : ContainerPlan}
    (h : containerPlan flate quantizer config image = .ok plan)
    (hheap : plan.heap.flatten.length ≤ isizeMax) : plan.Addressed := by
  unfold containerPlan at h
  split at h
  · obtain ⟨cells, -, h⟩ := Loops.ok_of_bind h
    obtain rfl := Except.ok.inj h
    exact (ContainerPlan.fits_ofCells hheap).addressed
  split at h
  · obtain ⟨cells, -, h⟩ := Loops.ok_of_bind h
    obtain rfl := Except.ok.inj h
    exact (ContainerPlan.fits_ofCells hheap).addressed
  · obtain ⟨encoded, -, h⟩ := Loops.ok_of_bind h
    obtain rfl := Except.ok.inj h
    exact (ContainerPlan.fits_ofTiles hheap).addressed

end Layout

/-- The container of an image: the width chosen holds every descriptor of a heap in memory, the
container holds the cells of the image where its descriptors say, and a tile that may be
quantized has one cell that is not empty. -/
theorem container_layout {R : Type} [PlaneReals R] (flate : Flate) (quantizer : Quantizer)
    (config : CompressionConfig R) (image : Image R) :
    (∀ plan, containerPlan flate quantizer config image = .ok plan →
      plan.heap.flatten.length ≤ isizeMax → plan.Addressed) ∧
    (∀ unit, compressImage flate quantizer config image = .ok unit →
      ∃ plan, containerPlan flate quantizer config image = .ok plan ∧ unit.LaidOut plan) ∧
    (∀ floats method zdither0 plan, image = .float floats →
      config.spacing = .quantized method zdither0 →
      containerPlan flate quantizer config image = .ok plan → plan.OneCell) := by
  refine ⟨fun plan => addressed_containerPlan, fun unit => laidOut_compressImage, ?_⟩
  rintro floats method zdither0 plan rfl hspacing hplan
  unfold containerPlan at hplan
  rw [hspacing] at hplan
  obtain ⟨encoded, hencoded, hplan⟩ := Loops.ok_of_bind hplan
  obtain rfl := Except.ok.inj hplan
  exact QuantizedFloatImage.one_cell hencoded

/-- Three floats in tiles of two: the first tile quantizes, and the last is raw. -/
theorem container_layout_small : ∃ unit plan,
    compressImage Gzip.stored ⟨fun _ _ _ => some ⟨0, 0, false⟩, fun _ _ _ _ => 7⟩
      ⟨.noCompress, 0, [2], .quantized .none none, true⟩
      (.float (⟨[3], [1, 2, 3], .f32, ⟨1, 0, none⟩⟩ : FloatImage ℤ)) = .ok unit ∧
    plan.Addressed ∧ unit.LaidOut plan ∧ plan.OneCell := by
  let quantizer : Quantizer := ⟨fun _ _ _ => some ⟨0, 0, false⟩, fun _ _ _ _ => 7⟩
  let config : CompressionConfig ℤ := ⟨.noCompress, 0, [2], .quantized .none none, true⟩
  let floats : FloatImage ℤ := ⟨[3], [1, 2, 3], .f32, ⟨1, 0, none⟩⟩
  have hok : (compressImage Gzip.stored quantizer config (.float floats)).isOk = true := by
    decide +kernel
  have hheap : (containerPlan Gzip.stored quantizer config (.float floats)).toOption.map
      (·.heap.flatten.length) = some 35 := by
    decide +kernel
  obtain ⟨haddressed, hlaid, hone⟩ :=
    container_layout Gzip.stored quantizer config (.float floats)
  cases hunit : compressImage Gzip.stored quantizer config (.float floats) with
  | error e =>
    rw [hunit] at hok
    cases hok
  | ok unit =>
    obtain ⟨plan, hplan, hlayout⟩ := hlaid unit hunit
    rw [hplan] at hheap
    have hlength : plan.heap.flatten.length = 35 := Option.some.inj hheap
    exact ⟨unit, plan, rfl, haddressed plan hplan (hlength ▸ by decide), hlayout,
      hone floats _ _ plan rfl rfl hplan⟩

end FitsWell
