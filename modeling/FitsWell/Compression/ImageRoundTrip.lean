import FitsWell.Compression.ContainerTiles

/-!
# A compressed image reads back

An image of integers that a write compresses with a codec that keeps them, or of floats that it
stores without a quantization, is read back from its container: its shape, its type, its map and
its samples.
-/

namespace FitsWell

open Bytes
open Gzip (Flate)
open MixedRadix Tiling

/-! ## Samples -/

/-- Samples of a type are stored as they are. -/
theorem IntBitpix.sample_holds {bitpix : IntBitpix} {values : List ℤ}
    (h : ∀ value ∈ values, bitpix.Holds value) :
    bitpix.sample.fit values .refuse = .ok values ∧
    (values.map bitpix.sample.narrow).map id = values := by
  have hnarrow : ∀ value ∈ values, bitpix.sample.narrow value = value := by
    intro value hvalue
    have hholds := h value hvalue
    cases bitpix with
    | u8 => exact Int.emod_eq_of_lt hholds.1 hholds.2
    | i16 => exact Int.bmod_eq_of_le (by have := hholds.1; omega) (by have := hholds.2; omega)
    | i32 => exact Int.bmod_eq_of_le (by have := hholds.1; omega) (by have := hholds.2; omega)
    | i64 => rfl
  refine ⟨?_, ?_⟩
  · cases bitpix with
    | i64 => rfl
    | u8 => exact if_pos fun value hvalue => ⟨(h value hvalue).1, by have := (h value hvalue).2; omega⟩
    | i16 => exact if_pos fun value hvalue => ⟨(h value hvalue).1, by have := (h value hvalue).2; omega⟩
    | i32 => exact if_pos fun value hvalue => ⟨(h value hvalue).1, by have := (h value hvalue).2; omega⟩
  · rw [List.map_id, List.map_congr_left hnarrow, List.map_id']

/-- A tile's samples are some of the image's. -/
theorem mem_gatherRows {α : Type} {values gathered : List α} {tile : TileScratch}
    (h : gatherRows values tile = .ok gathered) : ∀ value ∈ gathered, value ∈ values := by
  intro value hvalue
  have hmem := List.mem_map_of_mem (f := some) hvalue
  rw [gatherRows_pixels h] at hmem
  obtain ⟨p, -, hp⟩ := List.mem_map.mp hmem
  exact List.mem_of_getElem? hp

/-- What a decode of a container reads of it, in tiles of the grid: each tile's cell, and no
mask. -/
structure ReadsCells {R : Type} (tiled : TiledImage R) (plan : TilePlan R) (codec : TileCodec)
    (dims tiles : List ℕ) (cells : List (List UInt8)) : Prop where
  geometry : tiled.geometry = grid dims tiles
  source : ∀ (t : ℕ) (cell : List UInt8), cells[t]? = some cell → cell ≠ [] → ∃ count,
    plan.sources.source t = .ok (.compressed ⟨cell, count, codec.streamKind⟩)
  column : plan.nulls.column = none

/-! ## Integers -/

section Integers

variable {R : Type} [PlaneReals R] {flate : Flate} (hinverse : flate.Inverse) {image : IntImage R}
  {codec : TileCodec} {tiles : List ℕ} {cells : List (List UInt8)}
  (hkept : codec.KeepsOwn image.bitpix) (htiles : Tiles image.shape tiles)
  (hcount : shapeProduct image.shape = .ok image.samples.length)
  (hholds : ∀ value ∈ image.samples, image.bitpix.Holds value)
  (hroom : image.samples.length * image.bitpix.elemSize < isizeMax)
  (hcells : image.encodeCells flate codec tiles = .ok cells)

include hinverse hkept htiles hcount hholds hroom hcells

omit [PlaneReals R] in
/-- Each tile of the container decodes to the samples that it was encoded from. -/
theorem ReadsCells.decodesTiles {tiled : TiledImage R} {plan : TilePlan R}
    (h : ReadsCells tiled plan codec image.shape tiles cells)
    (hdecoder : tiled.decoder = ⟨codec.reopened, image.bitpix, none⟩)
    (hstored : plan.nulls.values.stored = TileValue.or .absent plan.nulls.values.blank)
    (hlen : image.samples.length ≠ 0) (capacity : ℕ) : DecodesTiles
      (tiled.intTiles flate capacity plan cells.length image.bitpix.sample) image.shape tiles id
      image.samples := by
  intro t ht
  have hdims : image.shape ≠ [] := fun hnil => hlen ((shapeProduct_eq_ok hcount).2.1 hnil)
  have hpos : 0 ∉ image.shape := fun hmem => (dims_pos htiles ht 0 hmem).false
  have hprod := (shapeProduct_eq_ok hcount).2.2 hpos
  obtain ⟨hlength, hplaces⟩ := mapTiles_cells htiles hcount hcells
  rw [if_neg hdims] at hlength
  obtain ⟨cell, hcell⟩ : ∃ cell, cells[t]? = some cell :=
    ⟨_, List.getElem?_eq_getElem (hlength ▸ ht)⟩
  obtain ⟨-, hinto, hencode⟩ := hplaces t _ hcell
  obtain ⟨ints, hgather, hencode⟩ := Loops.ok_of_bind hencode
  obtain ⟨hle, hnelem, htile⟩ := count_tileAt htiles hdims ht hprod
  obtain ⟨hintsLength, -⟩ := gatherRows_cells htiles ht hgather
  have hintsHold : ∀ value ∈ ints, image.bitpix.Holds value :=
    fun value hvalue => hholds value (mem_gatherRows hgather value hvalue)
  obtain ⟨hfit, hnarrow⟩ := IntBitpix.sample_holds hintsHold
  rw [hkept.encode_blank] at hencode
  have hbytes : (i64ToBe ints image.bitpix).length < isizeMax := by
    rw [length_i64ToBe, hintsLength, Nat.mul_comm]
    refine lt_of_le_of_lt (Nat.mul_le_mul_right _ ?_) hroom
    rw [(shapeProduct_eq_ok hcount).1 hdims]
    exact hle
  obtain ⟨stream, hstream, hdecode, -⟩ := TileCodec.decode_encode hinverse hkept.keepsInts
    (htile image.bitpix none) (.ints ints) hintsHold hintsLength hbytes rfl rfl rfl capacity
  obtain rfl := Except.ok.inj (hencode.symm.trans hstream)
  have hne : cell ≠ [] := by
    refine TileCodec.encode_ne_nil hencode (fun coder hplio => ?_) fun _ => ?_
    · rw [hplio] at hkept
      exact hkept
    · refine i64ToBe_ne_nil _ (hintsLength ▸ ?_)
      exact List.prod_pos_iff_forall_pos_nat.mpr (inside_tile htiles ht).2
  obtain ⟨count, hsource⟩ := h.source t cell hcell hne
  have hreopened := (hkept.decode_reopened flate
    ⟨(tileAt image.shape tiles t).tdims, image.bitpix, none⟩ cell capacity).1
  have hdecoded : tiled.decoder.decodeTile flate capacity (.compressed ⟨cell, count, codec.streamKind⟩)
      (tileAt image.shape tiles t) = .ok (ints, .refuse) := by
    have hstreamCell : streamCell ⟨cell, count, codec.streamKind⟩ codec.reopened.streamKind =
        .ok cell := if_pos (hkept.streamKind.trans hkept.reopened.streamKind.symm)
    have hovershoot : ∀ source, TileDecoder.overshoot ⟨codec.reopened, image.bitpix, none⟩ source =
        .refuse := by
      intro source
      unfold TileDecoder.overshoot
      split
      · rename_i coder hcoder
        have := hkept.reopened
        rw [show codec.reopened = .hcompress coder from hcoder] at this
        exact this.elim
      · rfl
    rw [hdecoder, TileDecoder.decodeTile]
    dsimp only
    rw [TileDecoder.decodeCell, Loops.bind_ok hstreamCell, TileDecoder.tile,
      Loops.bind_ok (hreopened.trans hdecode), hovershoot]
  have happly := NullMask.applyInteger_unmasked flate capacity h.column hstored t t ints.length ints
  refine ⟨ints, ?_, hgather.trans (congrArg _ hnarrow.symm)⟩
  have hrow : load (List.range cells.length) t = .ok t :=
    load_of_getElem? (List.getElem?_range (hlength ▸ ht))
  have hsize : ensureTileSize (extentsOf image.shape tiles t).prod ints.length = .ok () :=
    if_neg (not_not.mpr hintsLength)
  have hreconstruct : (tiled.intTiles flate capacity plan cells.length image.bitpix.sample).reconstruct
      t t (tileAt image.shape tiles t) = .ok (ints, .refuse) := by
    rw [TiledImage.intTiles]
    dsimp only
    rw [Loops.bind_ok hsource, Loops.bind_ok hdecoded, Loops.bind_ok hnelem, ← hintsLength,
      Loops.bind_ok happly]
  rw [ImageDecodePlan.decodeTile, TiledImage.intTiles]
  dsimp only
  rw [h.geometry, Loops.bind_ok hinto, Loops.bind_ok hrow]
  rw [TiledImage.intTiles] at hreconstruct
  rw [Loops.bind_ok hreconstruct, Loops.bind_ok hnelem, Loops.bind_ok hsize, Loops.bind_ok hfit]

/-- The tiles that an opened container is read to are the image. -/
theorem CompressedReader.read_eq {reader : CompressedReader R} {schema : NamedSchema R}
    {rows fill : List UInt8} {unit : EncodedUnit R} {geometry : ImageGeometry R}
    {parameters : List (Keyword × Value R)}
    {owned : ∀ entry ∈ parameters, entry.1 ∈ parameterKeywords}
    (hreader : reader = ⟨⟨geometry, grid image.shape tiles, ⟨codec.reopened, image.bitpix, none⟩, none,
      none, none⟩, schema, ⟨rows, none, none, none⟩, unit.data ++ fill⟩)
    (hdescribes : unit.header.Describes (cellKeys codec cells image.bitpix.bitpix image.shape tiles
      parameters image.scaling owned))
    (hlaid : unit.LaidOut (.ofCells codec cells))
    (hschema : ContainerSchema schema (cellKeys codec cells image.bitpix.bitpix image.shape tiles
      parameters image.scaling owned) (ContainerPlan.ofCells codec cells).width codec.streamKind)
    (hbitpix : geometry.bitpix = image.bitpix.bitpix) (hlen : geometry.len = image.samples.length)
    (floats : FloatBitpix → FloatSample R) {settings : DecodeSettings} (hlimit : 0 < settings.limit) :
    reader.read flate floats settings = .ok (.ints image.samples) := by
  obtain ⟨table, sources, htable, hrowCount, hsources, hnulls, hsource⟩ :=
    table_eq hdescribes hlaid fill reader (by rw [hreader]) (by rw [hreader]; exact hschema)
  subst hreader
  rw [CompressedReader.read, Loops.bind_ok htable]
  dsimp only
  rw [hbitpix, Plane.of_int, hlen]
  dsimp only
  by_cases hempty : image.samples.length = 0
  · rw [if_pos hempty, List.length_eq_zero_iff.mp hempty]
  have hdims : image.shape ≠ [] := fun hnil => hempty ((shapeProduct_eq_ok hcount).2.1 hnil)
  have hlength := (shapeProduct_eq_ok hcount).1 hdims
  have hpos : ∀ d ∈ image.shape, 0 < d := fun d hd =>
    Nat.pos_of_ne_zero fun hzero => hempty (hlength.trans (List.prod_eq_zero (hzero ▸ hd)))
  have hprod := (shapeProduct_eq_ok hcount).2.2 fun hmem => (hpos 0 hmem).false
  let tiled : TiledImage R := ⟨geometry, grid image.shape tiles, ⟨codec.reopened, image.bitpix, none⟩,
    none, none, none⟩
  let plan : TilePlan R := ⟨sources, ⟨none, none, ⟨geometry.scaling.blank,
    TileValue.or .absent geometry.scaling.blank⟩⟩, none⟩
  have hplan : tiled.plan table ⟨rows, none, none, none⟩ = .ok plan := by
    rw [TiledImage.plan, TiledImage.resolveNulls]
    dsimp only
    rw [Loops.bind_ok rfl, Loops.bind_ok hsources, Loops.bind_ok (hnulls _ _)]
    rfl
  have hreads : ReadsCells tiled plan codec image.shape tiles cells := ⟨rfl, hsource, rfl⟩
  have hdecode : (tiled.intTiles flate settings.capacity plan cells.length
      image.bitpix.sample).decodeInto settings.threads settings.limit none
        (List.replicate image.samples.length 0) id = .ok image.samples :=
    decodeInto_samples htiles hdims hpos hprod rfl id hlimit hlength
      (hreads.decodesTiles hinverse hkept htiles hcount hholds hroom hcells rfl rfl hempty
        settings.capacity)
      (List.length_replicate.trans hlength)
  rw [if_neg hempty, Loops.bind_ok hplan, hrowCount, Loops.bind_ok hdecode]

end Integers

section Images

variable {R : Type} [PlaneReals R] {flate : Flate}

/-- The decoder of the tiles of an integer image. -/
theorem TileDecoder.new_int {header : Header R} {image : ImageGeometry R} {codec : TileCodec}
    {bitpix : IntBitpix} (hkept : codec.KeepsOwn bitpix)
    (hread : codec.named.readParameters header = .ok codec.reopened)
    (hbitpix : image.bitpix = bitpix.bitpix) :
    TileDecoder.new header image codec.named = .ok ⟨codec.reopened, bitpix, none⟩ := by
  rw [TileDecoder.new, Loops.bind_ok hread, hbitpix, Plane.of_int]
  cases codec with
  | plio coder => exact hkept.elim
  | _ => rfl

variable [LawfulWords R] [LawfulPlane R]

/-- A container of an integer image opens, and reads back as the image. -/
theorem IntImage.opens {image : IntImage R} {codec : TileCodec} {scale : R} {tiles : List ℕ}
    {unit : EncodedUnit R} (hinverse : flate.Inverse) (hkept : codec.KeepsOwn image.bitpix)
    (htiles : Tiles image.shape tiles)
    (hcount : shapeProduct image.shape = .ok image.samples.length)
    (hholds : ∀ value ∈ image.samples, image.bitpix.Holds value)
    (hroom : image.samples.length * image.bitpix.elemSize < isizeMax)
    (hwords : ∀ blank, image.scaling.blank = some blank → FitsI64 blank)
    (hrank : image.shape.length ≤ 999)
    (h : image.compress flate codec scale tiles = .ok unit) (fill : List UInt8) : ∃ reader,
    CompressedReader.openImage unit.header (unit.data ++ fill) = .ok reader ∧
    reader.tiled.image.shape = image.shape ∧
    reader.tiled.image.bitpix = image.bitpix.bitpix ∧
    image.scaling.Same reader.tiled.image.scaling ∧
    ∀ (floats : FloatBitpix → FloatSample R) (settings : DecodeSettings), 0 < settings.limit →
      reader.read flate floats settings = .ok (.ints image.samples) := by
  obtain ⟨cells, hcells, hdescribes⟩ := image.describes hrank h
  obtain ⟨other, hother, hlaid⟩ := image.laidOut h
  obtain rfl := Except.ok.inj (hcells.symm.trans hother)
  obtain ⟨hlength, -⟩ := mapTiles_cells htiles hcount hcells
  have hread := hdescribes.readParameters hkept rfl
  have hfloat : TiledImage.floatKeywords unit.header image.bitpix.bitpix = .ok none := by
    rw [TiledImage.floatKeywords, Plane.of_int]
  obtain ⟨geometry, schema, rows, hopen, hshape, hbitpix, hlen, hsame, hschema⟩ :=
    openImage_eq hdescribes hlaid fill hkept htiles hcount hlength hwords
      (fun _ => TileDecoder.new_int hkept hread) hfloat
  refine ⟨_, hopen, hshape, hbitpix, hsame, fun floats settings hlimit => ?_⟩
  exact CompressedReader.read_eq hinverse hkept htiles hcount hholds hroom hcells rfl hdescribes hlaid
    hschema hbitpix hlen floats hlimit

/-- A choice of codec that keeps integers: gzip, `RICE_1`, or none. -/
def Compression.KeepsIntegers (compression : Compression R) : Prop :=
  match compression with
  | .gzip _ _ | .rice | .none => True
  | .plio | .hcompress _ _ => False

omit [PlaneReals R] [LawfulWords R] [LawfulPlane R] in
theorem Compression.keepsOwn {compression : Compression R} (h : compression.KeepsIntegers)
    (bitpix : IntBitpix) (offset : ℤ) : (compression.tileCodec bitpix offset).KeepsOwn bitpix := by
  cases compression with
  | gzip form level => cases form <;> trivial
  | rice => rfl
  | none => trivial
  | plio => exact h.elim
  | hcompress scale value => exact h.elim

/-- An image of integers that a write compresses with a codec that keeps them reads back from its
container, whatever the tiles that the write asks for or is given, whatever fills the data unit
up, and however the read is run: its shape, its type and its samples are the image's, and its map
compares equal. -/
theorem compressed_image_reads_back (hinverse : flate.Inverse) (quantizer : Quantizer)
    (request : CompressionRequest R) (hkeeps : request.compression.KeepsIntegers)
    (image : IntImage R) (hcount : shapeProduct image.shape = .ok image.samples.length)
    (hholds : ∀ value ∈ image.samples, image.bitpix.Holds value)
    (hroom : image.samples.length * image.bitpix.elemSize < isizeMax)
    (hwords : ∀ blank, image.scaling.blank = some blank → FitsI64 blank) (unit : EncodedUnit R)
    (h : request.compressImage flate quantizer (.int image) = .ok unit) (fill : List UInt8) :
    ∃ reader, CompressedReader.openImage unit.header (unit.data ++ fill) = .ok reader ∧
    reader.tiled.image.shape = image.shape ∧
    reader.tiled.image.bitpix = image.bitpix.bitpix ∧
    image.scaling.Same reader.tiled.image.scaling ∧
    ∀ (floats : FloatBitpix → FloatSample R) (settings : DecodeSettings), 0 < settings.limit →
      reader.read flate floats settings = .ok (.ints image.samples) := by
  unfold CompressionRequest.compressImage at h
  split at h
  · cases h
  rename_i hrank
  obtain ⟨config, hconfig, h⟩ := Loops.ok_of_bind h
  unfold CompressionRequest.resolve at hconfig
  dsimp only at hconfig
  split at hconfig
  · cases hconfig
  have hkept := Compression.keepsOwn hkeeps image.bitpix
    (plioOffset image.bitpix.bitpix image.scaling)
  obtain ⟨tiles, htiles, hconfig⟩ := Loops.ok_of_bind hconfig
  rw [Loops.bind_ok (hkept.fitted _ _).1] at hconfig
  obtain rfl := Except.ok.inj hconfig
  unfold FitsWell.compressImage at h
  rw [if_neg hrank] at h
  dsimp only at h
  split at h
  · cases h
  exact IntImage.opens hinverse hkept (tiles_of_resolve htiles) hcount hholds hroom hwords
    (Nat.not_lt.mp hrank) h fill

/-- Six samples of 16 bits in tiles of two columns, byte-shuffled and with a null. -/
theorem compressed_image_reads_back_shuffled : ∃ unit reader,
    CompressionRequest.compressImage ⟨.gzip .shuffled 0, [2, 1], .none, false⟩ Gzip.stored
      ⟨fun _ _ _ => none, fun _ _ _ _ => 0⟩
      (.int (⟨[3, 2], [1, -2, 3, -32768, 5, 6], .i16, ⟨1, 0, some (-32768)⟩⟩ : IntImage ℤ)) =
        .ok unit ∧
    CompressedReader.openImage unit.header (unit.data ++ [0]) = .ok reader ∧
    reader.read Gzip.stored (fun bitpix => ⟨bitpix, 0, fun _ _ _ => 0, fun _ => 0⟩) ⟨2, 3, 0⟩ =
      .ok (.ints [1, -2, 3, -32768, 5, 6]) := by
  let request : CompressionRequest ℤ := ⟨.gzip .shuffled 0, [2, 1], .none, false⟩
  let quantizer : Quantizer := ⟨fun _ _ _ => none, fun _ _ _ _ => 0⟩
  let image : IntImage ℤ := ⟨[3, 2], [1, -2, 3, -32768, 5, 6], .i16, ⟨1, 0, some (-32768)⟩⟩
  have hok : (request.compressImage Gzip.stored quantizer (.int image)).isOk = true := by
    decide +kernel
  cases hunit : request.compressImage Gzip.stored quantizer (.int image) with
  | error e =>
    rw [hunit] at hok
    cases hok
  | ok unit =>
    obtain ⟨reader, hopen, -, -, -, hread⟩ := compressed_image_reads_back Gzip.stored_inverse quantizer
      request trivial image rfl (by decide) (by decide)
      (fun blank hblank => by obtain rfl := Option.some.inj hblank; decide) unit hunit [0]
    exact ⟨unit, reader, rfl, hopen, hread _ ⟨2, 3, 0⟩ (by decide)⟩

end Images

/-! ## Floats -/

/-- The floats of bytes are those that were put there. -/
theorem FloatSample.decodeBe_beBytes {R : Type} (floats : FloatSample R) (bits : List ℕ)
    (h : ∀ value ∈ bits, value < 256 ^ floats.bitpix.bitpix.elemSize) :
    floats.decodeBe (bits.flatMap (beBytes floats.bitpix.bitpix.elemSize)) = .ok bits := by
  have hsize : 0 < floats.bitpix.bitpix.elemSize := by cases floats.bitpix <;> decide
  have hlength : (bits.flatMap (beBytes floats.bitpix.bitpix.elemSize)).length =
      floats.bitpix.bitpix.elemSize * bits.length :=
    length_flatMap_width (fun value => beBytes_length _ value) bits
  have hcount : (bits.flatMap (beBytes floats.bitpix.bitpix.elemSize)).length /
      floats.bitpix.bitpix.elemSize = bits.length := by
    rw [hlength, Nat.mul_div_cancel_left _ hsize]
  rw [decodeBe, debugAssert, if_pos (by rw [hlength, Nat.mul_mod_right]), Loops.bind_ok rfl, hcount]
  congr 1
  refine List.ext_getElem (by simp) fun j hj hj' => ?_
  have hvalue := List.getElem?_eq_getElem hj'
  have hchunk : Chunks.chunk (bits.flatMap (beBytes floats.bitpix.bitpix.elemSize))
      floats.bitpix.bitpix.elemSize j = beBytes floats.bitpix.bitpix.elemSize bits[j] := by
    rw [Chunks.chunk, Nat.mul_comm]
    exact take_drop_flatMap_width (fun value => beBytes_length _ value) hvalue
  rw [List.getElem_map, List.getElem_range, hchunk,
    ofBeBytes_beBytes_of_lt (h _ (List.getElem_mem hj'))]

/-- The keywords of an image that is stored without a quantization. -/
theorem FloatKeywords.read_lossless {R : Type} [PlaneReals R] {header : Header R}
    {keys : ContainerKeys R} (h : header.Describes keys)
    (hparameters : keys.parameters = losslessRecords) :
    FloatKeywords.read header = .ok ⟨.none, 1, none, none⟩ := by
  have hquantiz : header.value (.keyword .ZQUANTIZ) = .ok (some (.text (ascii "NONE"))) :=
    h.parameter (by decide) (by rw [hparameters]; rfl)
  have hseed : header.value (.keyword .ZDITHER0) = .ok none := h.imaged _ rfl (by decide) (by decide)
  have hscale : header.value (.keyword .ZSCALE) = .ok none := h.imaged _ rfl (by decide) (by decide)
  have hzero : header.value (.keyword .ZZERO) = .ok none := h.imaged _ rfl (by decide) (by decide)
  have hnone : Quantiz.parse (ascii "NONE") = .none := if_pos rfl
  have hcheck : checkSeed .none ((none : Option ℤ).getD 1) = .ok () := rfl
  rw [FloatKeywords.read, Loops.bind_ok (Header.getText_of_value hquantiz),
    Loops.bind_ok (Header.getInteger_of_none hseed)]
  dsimp only
  rw [Option.getD_some, hnone, Loops.bind_ok hcheck,
    Loops.bind_ok (Header.getReal_of_none hscale), Loops.bind_ok (Header.getReal_of_none hzero)]
  rfl

section Floats

variable {R : Type} [PlaneReals R] {flate : Flate} (hinverse : flate.Inverse) {image : FloatImage R}
  {codec : TileCodec} {tiles : List ℕ} {cells : List (List UInt8)}
  (hlossless : codec.storesLosslessFloats = true) (htiles : Tiles image.shape tiles)
  (hcount : shapeProduct image.shape = .ok image.samples.length)
  (hbits : ∀ value ∈ image.samples, value < 256 ^ image.bitpix.bitpix.elemSize)
  (hroom : image.samples.length * image.bitpix.bitpix.elemSize < isizeMax)
  (hcells : image.encodeCells flate codec tiles = .ok cells)

omit [PlaneReals R] in
theorem TileCodec.keepsOwn_of_lossless (h : codec.storesLosslessFloats = true) (width : IntBitpix) :
    codec.KeepsOwn width ∧ codec.reopened.storesLosslessFloats = true ∧
      codec.reopened = codec.named := by
  cases codec with
  | gzip1 level => exact ⟨trivial, rfl, rfl⟩
  | gzip2 level => exact ⟨trivial, rfl, rfl⟩
  | _ => cases h

include hinverse hlossless htiles hcount hbits hroom hcells

/-- Each tile of the container decodes to the floats that it was encoded from. -/
theorem ReadsCells.decodesFloats {tiled : TiledImage R} {plan : TilePlan R}
    (h : ReadsCells tiled plan codec image.shape tiles cells)
    (hquantization : plan.quantization = some (.lossless codec.reopened)) {floats : FloatSample R}
    (hfloats : floats.bitpix = image.bitpix) (hlen : image.samples.length ≠ 0) (capacity : ℕ) :
    DecodesTiles (tiled.floatTiles flate capacity plan cells.length floats) image.shape tiles id
      image.samples := by
  intro t ht
  have hdims : image.shape ≠ [] := fun hnil => hlen ((shapeProduct_eq_ok hcount).2.1 hnil)
  have hpos : 0 ∉ image.shape := fun hmem => (dims_pos htiles ht 0 hmem).false
  have hprod := (shapeProduct_eq_ok hcount).2.2 hpos
  obtain ⟨hkept, -, -⟩ := TileCodec.keepsOwn_of_lossless hlossless image.bitpix.integerWidth
  obtain ⟨hlength, hplaces⟩ := mapTiles_cells htiles hcount hcells
  rw [if_neg hdims] at hlength
  obtain ⟨cell, hcell⟩ : ∃ cell, cells[t]? = some cell :=
    ⟨_, List.getElem?_eq_getElem (hlength ▸ ht)⟩
  obtain ⟨-, hinto, hencode⟩ := hplaces t _ hcell
  obtain ⟨bytes, hbytes, hencode⟩ := Loops.ok_of_bind hencode
  obtain ⟨bits, hgather, hbytes⟩ := Loops.ok_of_bind hbytes
  obtain rfl := Except.ok.inj hbytes
  obtain ⟨hle, hnelem, htile⟩ := count_tileAt htiles hdims ht hprod
  obtain ⟨hbitsLength, -⟩ := gatherRows_cells htiles ht hgather
  have hbitsLt : ∀ value ∈ bits, value < 256 ^ image.bitpix.bitpix.elemSize :=
    fun value hvalue => hbits value (mem_gatherRows hgather value hvalue)
  have hwidth : image.bitpix.integerWidth.elemSize = image.bitpix.bitpix.elemSize := by
    cases image.bitpix <;> rfl
  have hsize : (bits.flatMap (beBytes image.bitpix.bitpix.elemSize)).length =
      (extentsOf image.shape tiles t).prod * image.bitpix.integerWidth.elemSize := by
    rw [length_flatMap_width (fun value => beBytes_length _ value) bits, hbitsLength, hwidth,
      Nat.mul_comm]
  have hfits : (bits.flatMap (beBytes image.bitpix.bitpix.elemSize)).length < isizeMax := by
    rw [hsize, hwidth]
    refine lt_of_le_of_lt (Nat.mul_le_mul_right _ ?_) hroom
    rw [(shapeProduct_eq_ok hcount).1 hdims]
    exact hle
  obtain ⟨values, hvalues, hvaluesLength, hholds, hback⟩ := beToI64_of_length hsize
  obtain ⟨stream, hstream, -, hdecode⟩ := TileCodec.decode_encode hinverse
    hkept.keepsInts (htile image.bitpix.integerWidth none)
    (.bytes (bits.flatMap (beBytes image.bitpix.bitpix.elemSize))) hholds hvaluesLength hfits hback
    hvalues rfl capacity
  obtain rfl := Except.ok.inj (hencode.symm.trans hstream)
  have hne : cell ≠ [] := by
    refine TileCodec.encode_ne_nil hencode (fun coder hplio => ?_) fun hstored => ?_
    · rw [hplio] at hkept
      exact hkept
    · rw [hstored] at hlossless
      cases hlossless
  obtain ⟨count, hsource⟩ := h.source t cell hcell hne
  have hreopened := (hkept.decode_reopened flate
    ⟨(tileAt image.shape tiles t).tdims, image.bitpix.integerWidth, none⟩ cell capacity).2
  have hback := floats.decodeBe_beBytes bits (by rw [hfloats]; exact hbitsLt)
  rw [hfloats] at hback
  have hdecoded : tiled.decoder.decodeFloatTile flate capacity floats
      (.compressed ⟨cell, count, codec.streamKind⟩) (.lossless codec.reopened)
      (tileAt image.shape tiles t) = .ok bits := by
    have hstreamCell : streamCell ⟨cell, count, codec.streamKind⟩ .u8 = .ok cell :=
      if_pos hkept.streamKind
    rw [TileDecoder.decodeFloatTile, hfloats]
    rw [Loops.bind_ok hstreamCell, Loops.bind_ok (hreopened.trans hdecode), hback]
  have happly := NullMask.applyFloat_unmasked flate capacity h.column t bits.length floats.nan bits
  refine ⟨bits, ?_, ?_⟩
  · have hrow : load (List.range cells.length) t = .ok t :=
      load_of_getElem? (List.getElem?_range (hlength ▸ ht))
    have hcounted : ensureTileSize (extentsOf image.shape tiles t).prod bits.length = .ok () :=
      if_neg (not_not.mpr hbitsLength)
    rw [ImageDecodePlan.decodeTile, TiledImage.floatTiles]
    dsimp only
    rw [h.geometry, Loops.bind_ok hinto, Loops.bind_ok hrow, Loops.bind_ok hsource, hquantization]
    dsimp only
    rw [FloatQuantization.encoding]
    rw [Loops.bind_ok hdecoded, Loops.bind_ok hnelem, ← hbitsLength, Loops.bind_ok happly,
      Loops.bind_ok rfl, Loops.bind_ok hnelem, Loops.bind_ok hcounted]
    rfl
  · rw [hgather]
    congr 1
    exact ((List.map_id _).trans (List.map_id _)).symm

/-- The tiles that an opened container is read to are the floats. -/
theorem CompressedReader.read_floats {reader : CompressedReader R} [LawfulWords R]
    {schema : NamedSchema R} {rows fill : List UInt8} {unit : EncodedUnit R}
    {geometry : ImageGeometry R} {parameters : List (Keyword × Value R)}
    {owned : ∀ entry ∈ parameters, entry.1 ∈ parameterKeywords}
    (hreader : reader = ⟨⟨geometry, grid image.shape tiles, ⟨codec.reopened, .i32, some image.bitpix⟩,
      none, none, some ⟨.none, 1, none, none⟩⟩, schema, ⟨rows, none, none, none⟩, unit.data ++ fill⟩)
    (hdescribes : unit.header.Describes (cellKeys codec cells image.bitpix.bitpix image.shape tiles
      parameters image.scaling owned))
    (hlaid : unit.LaidOut (.ofCells codec cells))
    (hschema : ContainerSchema schema (cellKeys codec cells image.bitpix.bitpix image.shape tiles
      parameters image.scaling owned) (ContainerPlan.ofCells codec cells).width codec.streamKind)
    (hbitpix : geometry.bitpix = image.bitpix.bitpix) (hlen : geometry.len = image.samples.length)
    {floats : FloatBitpix → FloatSample R} (hfloats : (floats image.bitpix).bitpix = image.bitpix)
    {settings : DecodeSettings} (hlimit : 0 < settings.limit) :
    reader.read flate floats settings = .ok (.floats image.samples) := by
  obtain ⟨table, sources, htable, hrowCount, hsources, hnulls, hsource⟩ :=
    table_eq hdescribes hlaid fill reader (by rw [hreader]) (by rw [hreader]; exact hschema)
  subst hreader
  rw [CompressedReader.read, Loops.bind_ok htable]
  dsimp only
  rw [hbitpix, Plane.of_float, hlen]
  dsimp only
  by_cases hempty : image.samples.length = 0
  · rw [if_pos hempty, List.length_eq_zero_iff.mp hempty]
  have hdims : image.shape ≠ [] := fun hnil => hempty ((shapeProduct_eq_ok hcount).2.1 hnil)
  have hlength := (shapeProduct_eq_ok hcount).1 hdims
  have hpos : ∀ d ∈ image.shape, 0 < d := fun d hd =>
    Nat.pos_of_ne_zero fun hzero => hempty (hlength.trans (List.prod_eq_zero (hzero ▸ hd)))
  have hprod := (shapeProduct_eq_ok hcount).2.2 fun hmem => (hpos 0 hmem).false
  let tiled : TiledImage R := ⟨geometry, grid image.shape tiles,
    ⟨codec.reopened, .i32, some image.bitpix⟩, none, none, some ⟨.none, 1, none, none⟩⟩
  let plan : TilePlan R := ⟨sources, ⟨none, none, ⟨geometry.scaling.blank, .absent⟩⟩,
    some (.lossless codec.reopened)⟩
  have hplan : tiled.plan table ⟨rows, none, none, none⟩ = .ok plan := by
    have hstores := (TileCodec.keepsOwn_of_lossless hlossless image.bitpix.integerWidth).2.1
    have hresolved : tiled.resolveNulls ⟨rows, none, none, none⟩ =
        .ok (.absent, some (.lossless codec.reopened)) := by
      have hquantization : FloatKeywords.quantization (⟨.none, 1, none, none⟩ : FloatKeywords R) .absent
          ⟨rows, none, none, none⟩ codec.reopened = .ok (.lossless codec.reopened) := if_pos hstores
      exact Loops.bind_ok hquantization
    rw [TiledImage.plan, Loops.bind_ok hresolved, Loops.bind_ok hsources, Loops.bind_ok (hnulls _ _)]
    rfl
  have hreads : ReadsCells tiled plan codec image.shape tiles cells := ⟨rfl, hsource, rfl⟩
  have hdecode : (tiled.floatTiles flate settings.capacity plan cells.length
      (floats image.bitpix)).decodeInto settings.threads settings.limit none
        (List.replicate image.samples.length 0) id = .ok image.samples :=
    decodeInto_samples htiles hdims hpos hprod rfl id hlimit hlength
      (hreads.decodesFloats hinverse hlossless htiles hcount hbits hroom hcells rfl hfloats hempty
        settings.capacity)
      (List.length_replicate.trans hlength)
  rw [if_neg hempty, Loops.bind_ok hplan, hrowCount, Loops.bind_ok hdecode]

end Floats

section FloatImages

variable {R : Type} [PlaneReals R] {flate : Flate}

/-- The decoder of the tiles of a float image that is stored losslessly. -/
theorem TileDecoder.new_float {header : Header R} {image : ImageGeometry R} {codec : TileCodec}
    {bitpix : FloatBitpix} (hlossless : codec.storesLosslessFloats = true)
    (hread : codec.named.readParameters header = .ok codec.reopened)
    (hbitpix : image.bitpix = bitpix.bitpix) :
    TileDecoder.new header image codec.named = .ok ⟨codec.reopened, .i32, some bitpix⟩ := by
  rw [TileDecoder.new, Loops.bind_ok hread, hbitpix, Plane.of_float]
  cases codec with
  | gzip1 level => rfl
  | gzip2 level => rfl
  | _ => cases hlossless

/-- A float has no null of its own. -/
theorem Scaling.blank_of_float {scaling : Scaling R} {bitpix : FloatBitpix}
    (h : scaling.validate bitpix.bitpix = .ok ()) : scaling.blank = none := by
  cases hblank : scaling.blank with
  | none => rfl
  | some blank =>
    have hholds := (finite_of_validate h).2.2 blank hblank
    cases bitpix <;> cases hholds

variable [LawfulWords R] [LawfulPlane R]

/-- A container of a float image that is stored losslessly opens, and reads back as the image. -/
theorem FloatImage.opens {image : FloatImage R} {codec : TileCodec} {tiles : List ℕ}
    {unit : EncodedUnit R} (hinverse : flate.Inverse) (htiles : Tiles image.shape tiles)
    (hcount : shapeProduct image.shape = .ok image.samples.length)
    (hbits : ∀ value ∈ image.samples, value < 256 ^ image.bitpix.bitpix.elemSize)
    (hroom : image.samples.length * image.bitpix.bitpix.elemSize < isizeMax)
    (hrank : image.shape.length ≤ 999)
    (h : compressLosslessFloatImage flate image codec tiles = .ok unit) (fill : List UInt8) :
    ∃ reader, CompressedReader.openImage unit.header (unit.data ++ fill) = .ok reader ∧
    reader.tiled.image.shape = image.shape ∧
    reader.tiled.image.bitpix = image.bitpix.bitpix ∧
    image.scaling.Same reader.tiled.image.scaling ∧
    ∀ (floats : FloatBitpix → FloatSample R) (settings : DecodeSettings),
      (floats image.bitpix).bitpix = image.bitpix → 0 < settings.limit →
        reader.read flate floats settings = .ok (.floats image.samples) := by
  obtain ⟨cells, hcells, hlossless, hdescribes⟩ := image.describes hrank h
  obtain ⟨other, hother, hlaid⟩ := image.laidOut h
  obtain rfl := Except.ok.inj (hcells.symm.trans hother)
  obtain ⟨hkept, -, hnamed⟩ :=
    TileCodec.keepsOwn_of_lossless hlossless image.bitpix.integerWidth
  obtain ⟨hlength, -⟩ := mapTiles_cells htiles hcount hcells
  have hread : codec.named.readParameters unit.header = .ok codec.reopened := by
    rw [hnamed]
    exact hdescribes.readParameters_none (by simp [cellKeys, losslessRecords]; decide) _
  have hfloat : TiledImage.floatKeywords unit.header image.bitpix.bitpix =
      .ok (some ⟨.none, 1, none, none⟩) := by
    rw [TiledImage.floatKeywords, Plane.of_float]
    exact Loops.bind_ok (FloatKeywords.read_lossless hdescribes rfl)
  have hblank := Scaling.blank_of_float hdescribes.valid
  obtain ⟨geometry, schema, rows, hopen, hshape, hbitpix, hlen, hsame, hschema⟩ :=
    openImage_eq hdescribes hlaid fill hkept htiles hcount hlength
      (fun blank hsome => by cases hblank.symm.trans hsome)
      (fun _ => TileDecoder.new_float hlossless hread) hfloat
  refine ⟨_, hopen, hshape, hbitpix, hsame, fun floats settings hfloats hlimit => ?_⟩
  exact CompressedReader.read_floats hinverse hlossless htiles hcount hbits hroom hcells rfl hdescribes
    hlaid hschema hbitpix hlen hfloats hlimit

/-- An image of floats that a write stores without a quantization reads back bit for bit from its
container, whatever the tiles that the write asks for or is given, whatever fills the data unit up,
and however the read is run. -/
theorem lossless_floats_read_back (hinverse : flate.Inverse) (quantizer : Quantizer)
    (request : CompressionRequest R) (hspacing : request.spacing = .none) (image : FloatImage R)
    (hcount : shapeProduct image.shape = .ok image.samples.length)
    (hbits : ∀ value ∈ image.samples, value < 256 ^ image.bitpix.bitpix.elemSize)
    (hroom : image.samples.length * image.bitpix.bitpix.elemSize < isizeMax) (unit : EncodedUnit R)
    (h : request.compressImage flate quantizer (.float image) = .ok unit) (fill : List UInt8) :
    ∃ reader, CompressedReader.openImage unit.header (unit.data ++ fill) = .ok reader ∧
    reader.tiled.image.shape = image.shape ∧
    reader.tiled.image.bitpix = image.bitpix.bitpix ∧
    image.scaling.Same reader.tiled.image.scaling ∧
    ∀ (floats : FloatBitpix → FloatSample R) (settings : DecodeSettings),
      (floats image.bitpix).bitpix = image.bitpix → 0 < settings.limit →
        reader.read flate floats settings = .ok (.floats image.samples) := by
  unfold CompressionRequest.compressImage at h
  split at h
  · cases h
  rename_i hrank
  obtain ⟨config, hconfig, h⟩ := Loops.ok_of_bind h
  unfold CompressionRequest.resolve at hconfig
  rw [hspacing] at hconfig
  dsimp only at hconfig
  split at hconfig
  swap
  · cases hconfig
  rename_i hlossless
  obtain ⟨hkept, -, -⟩ := TileCodec.keepsOwn_of_lossless hlossless image.bitpix.integerWidth
  obtain ⟨tiles, htiles, hconfig⟩ := Loops.ok_of_bind hconfig
  rw [Loops.bind_ok (hkept.fitted _ _).1] at hconfig
  obtain rfl := Except.ok.inj hconfig
  unfold FitsWell.compressImage compressFloatImage at h
  rw [if_neg hrank] at h
  dsimp only at h
  rw [hspacing] at h
  exact FloatImage.opens hinverse (tiles_of_resolve htiles) hcount hbits hroom (Nat.not_lt.mp hrank) h
    fill

/-- Three floats of 32 bits, one of them no number, in tiles of two. -/
theorem lossless_floats_read_back_nan : ∃ unit reader,
    CompressionRequest.compressImage ⟨.gzip .plain 6, [2], .none, false⟩ Gzip.stored
      ⟨fun _ _ _ => none, fun _ _ _ _ => 0⟩
      (.float (⟨[3], [0x3f800000, 0x7fc00001, 0x80000000], .f32, ⟨1, 0, none⟩⟩ : FloatImage ℤ)) =
        .ok unit ∧
    CompressedReader.openImage unit.header (unit.data ++ [0]) = .ok reader ∧
    reader.read Gzip.stored (fun bitpix => ⟨bitpix, 0, fun _ _ _ => 0, fun _ => 0⟩) ⟨2, 3, 0⟩ =
      .ok (.floats [0x3f800000, 0x7fc00001, 0x80000000]) := by
  let request : CompressionRequest ℤ := ⟨.gzip .plain 6, [2], .none, false⟩
  let quantizer : Quantizer := ⟨fun _ _ _ => none, fun _ _ _ _ => 0⟩
  let image : FloatImage ℤ := ⟨[3], [0x3f800000, 0x7fc00001, 0x80000000], .f32, ⟨1, 0, none⟩⟩
  have hok : (request.compressImage Gzip.stored quantizer (.float image)).isOk = true := by
    decide +kernel
  cases hunit : request.compressImage Gzip.stored quantizer (.float image) with
  | error e =>
    rw [hunit] at hok
    cases hok
  | ok unit =>
    obtain ⟨reader, hopen, -, -, -, hread⟩ := lossless_floats_read_back Gzip.stored_inverse quantizer
      request rfl image rfl (by decide) (by decide) unit hunit [0]
    exact ⟨unit, reader, rfl, hopen, hread _ ⟨2, 3, 0⟩ rfl (by decide)⟩

end FloatImages

end FitsWell
