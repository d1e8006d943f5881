import FitsWell.Compression.CompressionRequest
import FitsWell.Compression.ContainerOpens
import FitsWell.Compression.GatherScatter
import FitsWell.Compression.TilePartition
import FitsWell.Compression.TiledImage

/-!
# The tiles in a container

A container has a cell for each tile of its image's grid, in order. A reader that opens it finds
each tile's cell, and what the codec of the cell gives is what it was given.
-/

namespace FitsWell

open Gzip (Flate)
open MixedRadix Tiling

/-! ## The image -/

section Headers

variable {R : Type} [PlaneReals R] {header : Header R} {keys : ContainerKeys R}

namespace TileCodec

/-- A codec that a write of samples of `width` chooses, and that keeps them: gzip, stored, or Rice
with pixels of that width. -/
def KeepsOwn (codec : TileCodec) (width : IntBitpix) : Prop :=
  match codec with
  | .gzip1 _ | .gzip2 _ | .noCompress => True
  | .rice coder => coder = ⟨Rice.blocksize, width⟩
  | .plio _ | .hcompress _ => False

/-- The codec that a container's header gives. It does not say the level of a deflate stream. -/
def reopened : TileCodec → TileCodec
  | .rice coder => .rice coder
  | codec => codec.named

variable {codec : TileCodec} {width : IntBitpix}

theorem KeepsOwn.keepsInts (h : codec.KeepsOwn width) : codec.KeepsInts width := by
  cases codec with
  | rice coder =>
    obtain rfl : coder = ⟨Rice.blocksize, width⟩ := h
    exact ⟨(by decide : 1 ≤ Rice.blocksize), le_rfl⟩
  | _ => exact h

theorem KeepsOwn.reopened (h : codec.KeepsOwn width) : codec.reopened.KeepsOwn width := by
  cases codec <;> exact h

theorem KeepsOwn.streamKind (h : codec.KeepsOwn width) : codec.streamKind = .u8 := by
  cases codec with
  | plio coder => exact h.elim
  | _ => rfl

/-- The tiles of `HCOMPRESS_1` alone are fitted to a codec. -/
theorem KeepsOwn.fitted (h : codec.KeepsOwn width) (dims tiles : List ℕ) :
    codec.fitted dims tiles = .ok codec ∧ codec.named.fitted dims tiles = .ok codec.named := by
  cases codec with
  | hcompress coder => exact h.elim
  | _ => exact ⟨rfl, rfl⟩

end TileCodec

namespace Header.Describes

variable (h : header.Describes keys) {codec : TileCodec} {width : IntBitpix}

include h

/-- The codec that the header names, with the parameters it gives. -/
theorem readParameters (hkept : codec.KeepsOwn width) {scale : R}
    (hparameters : keys.parameters = codec.parameters scale) :
    codec.named.readParameters header = .ok codec.reopened := by
  cases codec with
  | rice coder =>
    obtain rfl : coder = ⟨Rice.blocksize, width⟩ := hkept
    exact h.readParameters_rice hparameters
  | gzip1 level => exact h.readParameters_none (by simp [hparameters, TileCodec.parameters]) _
  | gzip2 level => exact h.readParameters_none (by simp [hparameters, TileCodec.parameters]) _
  | noCompress => exact h.readParameters_none (by simp [hparameters, TileCodec.parameters]) _
  | plio coder => exact hkept.elim
  | hcompress coder => exact hkept.elim

/-! ## The tiles -/

/-- The image is opened with the grid of its tiles, and no null mask and no null of its own. -/
theorem tiled (hkept : codec.KeepsOwn width) (hname : keys.name = codec.name)
    (htiles : Tiles keys.dims keys.tiles) (hfits : 0 ∉ keys.dims → keys.dims.prod ≤ usizeMax)
    (hrows : keys.rowCount = if keys.dims = [] then 0 else (counts keys.dims keys.tiles).prod)
    {image : ImageGeometry R} (hshape : image.shape = keys.dims) {decoder : TileDecoder}
    (hdecoder : TileDecoder.new header image codec.named = .ok decoder)
    {float : Option (FloatKeywords R)}
    (hfloat : TiledImage.floatKeywords header image.bitpix = .ok float) :
    TiledImage.new header image =
      .ok ⟨image, grid keys.dims keys.tiles, decoder, none, none, float⟩ := by
  have hcmptype : header.value (.keyword .ZCMPTYPE) = .ok (some (.text keys.name)) :=
    h.imaged _ rfl (by decide) (by decide)
  have hmask : header.value (.keyword .ZMASKCMP) = .ok none :=
    h.imaged _ rfl (by decide) (by decide)
  have hblank : header.value (.keyword .ZBLANK) = .ok none :=
    h.imaged _ rfl (by decide) (by decide)
  have hcount : header.value (.keyword .NAXIS2) = .ok (some (.ofInt keys.rowCount)) :=
    h.structural _ rfl (by decide) (by decide)
  have hcodec : codecNamed header .ZCMPTYPE = .ok (some codec.named) := by
    rw [codecNamed, Loops.bind_ok (getText_of_value hcmptype), hname]
    dsimp only
    rw [Loops.bind_ok codec.parse_name]
  have hmaskCodec : codecNamed header .ZMASKCMP = .ok none := by
    rw [codecNamed, Loops.bind_ok (getText_of_none hmask)]
  have hkeyword : Keyword.NAXIS.indexed 2 = .ok .NAXIS2 := rfl
  rw [TiledImage.new, Loops.bind_ok hcodec, orMissing, Loops.bind_ok rfl, hshape,
    Loops.bind_ok (h.tileShape htiles.length htiles.pos), Loops.bind_ok (hkept.fitted _ _).2,
    Loops.bind_ok (new_eq htiles hfits), Loops.bind_ok hkeyword,
    Loops.bind_ok (requireUsize_of_value h.counted.rowCount hcount),
    Loops.bind_ok (ntiles_eq htiles hfits), if_neg (by rw [hrows]; simp), Loops.bind_ok hdecoder,
    Loops.bind_ok hmaskCodec, Loops.bind_ok (getInteger_of_none hblank), Loops.bind_ok hfloat]

end Header.Describes

end Headers

/-! ## The cells of an image -/

section Tiles

variable {dims tiles : List ℕ} (h : Tiles dims tiles) {len : ℕ}
  (hcount : shapeProduct dims = .ok len)

include h hcount

/-- An image's tiles are mapped in order, each of them as the grid has it. -/
theorem mapTiles_cells {α : Type} {encode : ℕ → TileScratch → Outcome α} {items : List α}
    (hok : mapTiles dims tiles len encode = .ok items) :
    items.length = (if dims = [] then 0 else (counts dims tiles).prod) ∧
    ∀ (t : ℕ) (item : α), items[t]? = some item → t < (counts dims tiles).prod ∧
      (grid dims tiles).tileInto t = .ok (tileAt dims tiles t) ∧
      encode t (tileAt dims tiles t) = .ok item := by
  obtain ⟨hlen, hnil, hprod⟩ := shapeProduct_eq_ok hcount
  obtain ⟨geometry, hgeometry, hok⟩ := Loops.ok_of_bind hok
  obtain ⟨ntiles, hntiles, hok⟩ := Loops.ok_of_bind hok
  obtain rfl := Except.ok.inj ((new_eq h hprod).symm.trans hgeometry)
  obtain ⟨hlength, hplaces⟩ := Loops.getElem_mapM hok
  rw [List.length_range] at hlength
  have htiles : ntiles = if dims = [] then 0 else (counts dims tiles).prod := by
    unfold TileGeometry.tileCount at hntiles
    split at hntiles
    · rename_i hzero
      obtain rfl := Except.ok.inj hntiles
      split
      · rfl
      · rename_i hne
        have hle := (counts_prod h).2
        rw [← hlen hne, hzero] at hle
        omega
    · exact Except.ok.inj (hntiles.symm.trans (ntiles_eq h hprod))
  refine ⟨hlength.trans htiles, fun t item hitem => ?_⟩
  obtain ⟨place, hplace, hcall⟩ := hplaces t item hitem
  obtain ⟨hlt, rfl⟩ := List.getElem?_eq_some_iff.mp hplace
  rw [List.length_range] at hlt
  rw [List.getElem_range] at hcall
  obtain ⟨tile, htile, hcall⟩ := Loops.ok_of_bind hcall
  have hdims : dims ≠ [] := by
    rintro rfl
    rw [if_pos rfl] at htiles
    omega
  rw [htiles, if_neg hdims] at hlt
  have hpos : 0 ∉ dims := fun hmem => (dims_pos h hlt 0 hmem).false
  obtain rfl := tileInto_of_ok h hlt (hprod hpos) htile
  exact ⟨hlt, htile, hcall⟩

end Tiles

/-- The samples of a tile are as many as its extents say. -/
theorem count_tileAt {dims tiles : List ℕ} (h : Tiles dims tiles) (hdims : dims ≠ []) {t : ℕ}
    (ht : t < (counts dims tiles).prod) (hprod : dims.prod ≤ usizeMax) :
    (extentsOf dims tiles t).prod ≤ dims.prod ∧
    (tileAt dims tiles t).nelem = .ok (extentsOf dims tiles t).prod ∧
    ∀ width blank, Tile.count ⟨(tileAt dims tiles t).tdims, width, blank⟩ =
      .ok (extentsOf dims tiles t).prod := by
  obtain ⟨hinside, hpos⟩ := inside_tile h ht
  have hle : (extentsOf dims tiles t).prod ≤ dims.prod :=
    (extentsOf_prod_le h t).trans (maxTile_pos h (dims_pos h ht)).2
  refine ⟨hle, ?_, fun width blank => productUsize_of_le hpos (hle.trans hprod)⟩
  obtain ⟨rfl, -⟩ | ⟨d, ds, tile, ts, rfl, rfl⟩ := h.cases
  · exact absurd rfl hdims
  rw [TileScratch.nelem, mulUsize_of_le]
  · simp [tileAt]
  · simpa [tileAt] using hle.trans hprod

/-! ## The codec of a tile -/

namespace TileCodec

variable {flate : Flate} {codec : TileCodec} {own width : IntBitpix} (hkept : codec.KeepsOwn own)

include hkept

/-- The streams of a codec that keeps every sample do not depend on the null. -/
theorem KeepsOwn.encode_blank (shape : List ℕ) (blank : Option ℤ) (samples : TileSamples) :
    codec.encode flate ⟨shape, width, blank⟩ samples =
      codec.encode flate ⟨shape, width, none⟩ samples := by
  cases codec with
  | hcompress coder => exact hkept.elim
  | _ => rfl

/-- The codec that a header gives decodes as the one that encoded. -/
theorem KeepsOwn.decode_reopened (flate : Flate) (tile : Tile) (stream : List UInt8) (capacity : ℕ) :
    codec.reopened.decodeInts flate tile stream capacity =
      codec.decodeInts flate tile stream capacity ∧
    codec.reopened.decodeBytes flate tile stream capacity =
      codec.decodeBytes flate tile stream capacity := by
  cases codec with
  | plio coder => exact hkept.elim
  | hcompress coder => exact hkept.elim
  | _ => exact ⟨rfl, rfl⟩

end TileCodec

/-! ## Opening -/

section Opening

variable {R : Type} [PlaneReals R] [LawfulWords R] {unit : EncodedUnit R} {codec : TileCodec}
  {cells : List (List UInt8)} {bitpix : Bitpix} {dims tiles : List ℕ}
  {parameters : List (Keyword × Value R)} {scaling : Scaling R}
  {owned : ∀ entry ∈ parameters, entry.1 ∈ parameterKeywords}
  (h : unit.header.Describes (cellKeys codec cells bitpix dims tiles parameters scaling owned))
  (hlaid : unit.LaidOut (.ofCells codec cells)) (fill : List UInt8)

include h hlaid

omit [LawfulWords R] in
/-- The container's table and heap lie in memory. -/
theorem length_data : unit.rows.length = cells.length * (ContainerPlan.ofCells codec cells).rowLen ∧
    unit.data.length = unit.rows.length + cells.flatten.length ∧ unit.data.length ≤ usizeMax := by
  have hword : isizeMax = 2 ^ 63 - 1 ∧ usizeMax = 2 ^ 64 - 1 := ⟨rfl, rfl⟩
  have hheap : cells.flatten.length < 2 ^ 63 := h.counted.heapLen
  have hroom : cells.length * (ContainerPlan.ofCells codec cells).rowLen ≤ isizeMax := h.counted.room
  have hrows : unit.rows.length = cells.length * (ContainerPlan.ofCells codec cells).rowLen :=
    hlaid.rows
  have hdata : unit.data.length = unit.rows.length + cells.flatten.length := by
    rw [EncodedUnit.data, List.length_append, hlaid.heap]
    rfl
  exact ⟨hrows, hdata, by omega⟩

omit [LawfulWords R] in
/-- A container's table has a row a tile, whose cell is the tile's source. -/
theorem table_eq (reader : CompressedReader R)
    (hbytes : reader.bytes = unit.data ++ fill)
    (hschema : ContainerSchema reader.schema
      (cellKeys codec cells bitpix dims tiles parameters scaling owned)
      (ContainerPlan.ofCells codec cells).width codec.streamKind) : ∃ table sources,
    reader.table = .ok table ∧ table.extent.rowCount = cells.length ∧
    TileSources.read table = .ok sources ∧
    (∀ codec values, NullMask.read table codec values =
      .ok ⟨none, codec.map NullMask.bytewise, values⟩) ∧
    ∀ (t : ℕ) (cell : List UInt8), cells[t]? = some cell → cell ≠ [] → ∃ count,
      sources.source t = .ok (.compressed ⟨cell, count, codec.streamKind⟩) := by
  obtain ⟨hrows, hdata, hroom⟩ := length_data h hlaid
  have hextent : reader.schema.extent = ⟨cells.length, (ContainerPlan.ofCells codec cells).rowLen,
      unit.rows.length, unit.rows.length + unit.heap.flatten.length⟩ := by
    rw [hschema.extent, hrows, hlaid.heap]
    rfl
  let view : TableView := ⟨reader.schema.columns, reader.schema.extent, reader.bytes⟩
  have hview : TableView.new reader.schema.toSchema reader.bytes = .ok view := by
    refine if_neg ?_
    rw [hextent, hbytes, List.length_append, EncodedUnit.data, List.length_append]
    exact Nat.not_lt.mpr (Nat.le_add_right _ _)
  obtain ⟨column, hcolumn, hsources, hmask⟩ := hschema.readSources view rfl
  refine ⟨_, _, Loops.bind_ok hview, ?_, hsources, hmask, fun t cell hcell hne => ?_⟩
  · exact congrArg TableExtent.rowCount hextent
  · exact source_of_laidOut hlaid hcolumn hextent hbytes hroom hcell hne

variable [LawfulPlane R] {width : IntBitpix} (hkept : codec.KeepsOwn width) (htiles : Tiles dims tiles)
  {len : ℕ} (hcount : shapeProduct dims = .ok len)
  (hcells : cells.length = if dims = [] then 0 else (counts dims tiles).prod)
  (hwords : ∀ blank, scaling.blank = some blank → FitsI64 blank) {decoder : TileDecoder}
  (hdecoder : ∀ image : ImageGeometry R, image.bitpix = bitpix →
    TileDecoder.new unit.header image codec.named = .ok decoder)
  {float : Option (FloatKeywords R)}
  (hfloat : TiledImage.floatKeywords unit.header bitpix = .ok float)

include hkept htiles hcount hcells hwords hdecoder hfloat

/-- A container opens as the image that its header describes. -/
theorem openImage_eq : ∃ image schema rows,
    CompressedReader.openImage unit.header (unit.data ++ fill) =
      .ok ⟨⟨image, grid dims tiles, decoder, none, none, float⟩, schema, ⟨rows, none, none, none⟩,
        unit.data ++ fill⟩ ∧
    image.shape = dims ∧ image.bitpix = bitpix ∧ image.len = len ∧ scaling.Same image.scaling ∧
    ContainerSchema schema (cellKeys codec cells bitpix dims tiles parameters scaling owned)
      (ContainerPlan.ofCells codec cells).width codec.streamKind := by
  obtain ⟨hrows, hdata, -⟩ := length_data h hlaid
  obtain ⟨image, himage, hshape, hbitpix, hlen, hsame⟩ := h.geometry hcount hwords
  obtain ⟨schema, hschema, hcontainer⟩ := h.schema
    (ContainerPlan.ofCells codec cells).width codec.streamKind rfl rfl
  have htiled := h.tiled hkept rfl htiles (shapeProduct_eq_ok hcount).2.2 hcells hshape
    (hdecoder image hbitpix) (by rw [hbitpix]; exact hfloat)
  have hindex := hcontainer.readIndex (unit.data ++ fill) h.counted.room (by
    change cells.length * (ContainerPlan.ofCells codec cells).rowLen ≤ _
    rw [List.length_append]
    omega)
  refine ⟨image, schema,
    (unit.data ++ fill).take (cells.length * (ContainerPlan.ofCells codec cells).rowLen), ?_, hshape,
    hbitpix, hlen, hsame, hcontainer⟩
  rw [CompressedReader.openImage, Loops.bind_ok h.kind, Loops.bind_ok himage, Loops.bind_ok htiled,
    Loops.bind_ok hschema, Loops.bind_ok hindex]
  rfl

end Opening

end FitsWell
