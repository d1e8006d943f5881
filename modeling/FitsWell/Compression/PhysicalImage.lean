import FitsWell.Compression.CompressionRequest
import FitsWell.Compression.GatherScatter
import FitsWell.Compression.TiledImage
import FitsWell.ImageModel.Scaling

/-!
# Physical values of a compressed image

A read of physical values converts each tile's samples as the tile is decoded, and holds no plane
of stored samples. It appends the physical values of the samples that a read of the image gives,
or fails as that read does.
-/

namespace FitsWell

open Bytes (beBytes)
open Gzip (Flate)
open MixedRadix Tiling

/-! ## The read -/

/-- A plane goes after the values of a buffer: where its read fails, the buffer stays as it was. -/
def appendPlane {β : Type} (out : List β) (plane : Outcome (List β)) : Outcome Unit × List β :=
  (plane.map fun _ => (), out ++ plane.toOption.getD [])

section Reading

variable {R β : Type} [PlaneReals R] [PhysicalSample R β]

namespace ImageGeometry

variable (image : ImageGeometry R)

/-- The physical value of a stored integer. -/
def physicalInt (bitpix : IntBitpix) (value : ℤ) : β :=
  image.scaling.physical bitpix.bitpix (bitpix.toBeBytes value)

/-- The physical value of a stored float. -/
def physicalFloat (bitpix : FloatBitpix) (bits : ℕ) : β :=
  image.scaling.physical bitpix.bitpix (beBytes bitpix.bitpix.elemSize bits)

/-- The physical values of an image's samples. -/
def physical (data : Data) : List β :=
  match Plane.of image.bitpix, data with
  | .int bitpix, .ints values => values.map (image.physicalInt bitpix)
  | .float bitpix, .floats values => values.map (image.physicalFloat bitpix)
  | _, _ => []

end ImageGeometry

namespace CompressedReader

variable (reader : CompressedReader R) (flate : Flate) (floats : FloatBitpix → FloatSample R)
  (settings : DecodeSettings)

/-- The physical values of the whole image, each tile converted as it is decoded. -/
def physicalPlane (out : List β) : Outcome (List β) := do
  let table ← reader.table
  let tiled := reader.tiled
  let count := table.extent.rowCount
  if tiled.image.len = 0 then
    .ok []
  else do
    let len ← addUsize out.length tiled.image.len
    tryReserve (PhysicalSample.width β) out.length (len - out.length)
    let plane := List.replicate tiled.image.len (PhysicalSample.ofF64 (RealText.ofI64 0))
    let plan ← tiled.plan table reader.index
    match Plane.of tiled.image.bitpix with
    | .int bitpix =>
      (tiled.intTiles flate settings.capacity plan count bitpix.sample).decodeInto
        settings.threads settings.limit none plane (tiled.image.physicalInt bitpix)
    | .float bitpix =>
      (tiled.floatTiles flate settings.capacity plan count (floats bitpix)).decodeInto
        settings.threads settings.limit none plane (tiled.image.physicalFloat bitpix)

/-- Append the physical values of the whole image to `out`. -/
def physicalInto (out : List β) : Outcome Unit × List β :=
  appendPlane out (reader.physicalPlane flate floats settings out)

end CompressedReader

end Reading

/-! ## The tiles -/

section Tiles

variable {R : Type} [PlaneReals R] {header : Header R}

/-- A header gives each axis a tile of some length. -/
theorem tiles_of_tileShape {dims tiles : List ℕ} (h : tileShape header dims = .ok tiles) :
    Tiles dims tiles := by
  obtain ⟨hlength, hplaces⟩ := Loops.getElem_mapM h
  refine ⟨hlength.trans List.length_zipIdx, fun tile hmem => ?_⟩
  obtain ⟨i, hi⟩ := List.mem_iff_getElem?.mp hmem
  obtain ⟨dim, -, hdim⟩ := hplaces i tile hi
  obtain ⟨keyword, -, hdim⟩ := Loops.ok_of_bind hdim
  obtain ⟨value, -, hdim⟩ := Loops.ok_of_bind hdim
  cases value with
  | none =>
    obtain rfl := Except.ok.inj hdim
    split
    · exact lt_of_lt_of_le Nat.one_pos (Nat.le_max_right _ _)
    · exact Nat.one_pos
  | some value =>
    dsimp only at hdim
    split at hdim
    · obtain rfl := Except.ok.inj hdim
      omega
    · cases hdim

/-- An image in a container has the grid of its tiles. -/
theorem TiledImage.geometry_of_new {image : ImageGeometry R} {tiled : TiledImage R}
    (h : TiledImage.new header image = .ok tiled) :
    tiled.image = image ∧ ∃ tiles, Tiles image.shape tiles ∧
      tiled.geometry = grid image.shape tiles := by
  obtain ⟨_, -, h⟩ := Loops.ok_of_bind h
  obtain ⟨_, -, h⟩ := Loops.ok_of_bind h
  obtain ⟨tiles, htiles, h⟩ := Loops.ok_of_bind h
  obtain ⟨_, -, h⟩ := Loops.ok_of_bind h
  obtain ⟨geometry, hgeometry, h⟩ := Loops.ok_of_bind h
  obtain ⟨_, -, h⟩ := Loops.ok_of_bind h
  obtain ⟨_, -, h⟩ := Loops.ok_of_bind h
  obtain ⟨ntiles, -, h⟩ := Loops.ok_of_bind h
  split at h
  · cases h
  obtain ⟨_, -, h⟩ := Loops.ok_of_bind h
  obtain ⟨_, -, h⟩ := Loops.ok_of_bind h
  obtain ⟨_, -, h⟩ := Loops.ok_of_bind h
  obtain ⟨_, -, h⟩ := Loops.ok_of_bind h
  obtain rfl := Except.ok.inj h
  have hgrid := tiles_of_tileShape htiles
  rw [new_eq hgrid (shapeProduct_eq_ok image.counted).2.2] at hgeometry
  exact ⟨rfl, tiles, hgrid, (Except.ok.inj hgeometry).symm⟩

end Tiles

/-! ## The values -/

section Values

variable {R β : Type} [PlaneReals R] [LawfulWords R] [PhysicalSample R β] {flate : Flate}
  {floats : FloatBitpix → FloatSample R} {reader : CompressedReader R}

omit [LawfulWords R] in
theorem ImageGeometry.physical_ints {image : ImageGeometry R} {bitpix : IntBitpix}
    (h : Plane.of image.bitpix = .int bitpix) (values : List ℤ) :
    image.physical (.ints values) = (values.map (image.physicalInt bitpix) : List β) := by
  unfold physical
  rw [h]

omit [LawfulWords R] in
theorem ImageGeometry.physical_floats {image : ImageGeometry R} {bitpix : FloatBitpix}
    (h : Plane.of image.bitpix = .float bitpix) (values : List ℕ) :
    image.physical (.floats values) = (values.map (image.physicalFloat bitpix) : List β) := by
  unfold physical
  rw [h]

/-- Samples that convert go into the data of a read before that converts. -/
theorem map_through_data {δ : Type} {call : Outcome (List δ)} {wrap : List δ → Data}
    {convert : δ → β} {physical : Data → List β} (h : ∀ values, physical (wrap values) = values.map convert) :
    (call >>= fun values => .ok (values.map convert)) =
      (call >>= fun values => .ok (wrap values)) >>= fun data => .ok (physical data) := by
  cases call with
  | error fault => rfl
  | ok values => exact congrArg Except.ok (h values).symm

/-- The tiles of an opened image that is not empty cover its plane. -/
theorem CompressedReader.tiles_of_openImage {header : Header R} {bytes : List UInt8}
    (h : CompressedReader.openImage header bytes = .ok reader)
    (hlen : reader.tiled.image.len ≠ 0) : ∃ dims tiles, Tiles dims tiles ∧ dims ≠ [] ∧
      (∀ d ∈ dims, 0 < d) ∧ dims.prod ≤ usizeMax ∧ reader.tiled.image.len = dims.prod ∧
      reader.tiled.geometry = grid dims tiles := by
  obtain ⟨_, -, h⟩ := Loops.ok_of_bind h
  obtain ⟨image, -, h⟩ := Loops.ok_of_bind h
  obtain ⟨tiled, htiled, h⟩ := Loops.ok_of_bind h
  obtain ⟨_, -, h⟩ := Loops.ok_of_bind h
  obtain ⟨_, -, h⟩ := Loops.ok_of_bind h
  obtain rfl := Except.ok.inj h
  obtain ⟨rfl, tiles, htiles, hgeometry⟩ := TiledImage.geometry_of_new htiled
  obtain ⟨hprod, hnil, hfits⟩ := shapeProduct_eq_ok tiled.image.counted
  have hdims : tiled.image.shape ≠ [] := fun heq => hlen (hnil heq)
  have hpos : ∀ d ∈ tiled.image.shape, 0 < d := fun d hd =>
    Nat.pos_of_ne_zero fun hzero =>
      hlen ((hprod hdims).trans (List.prod_eq_zero (hzero ▸ hd)))
  exact ⟨_, tiles, htiles, hdims, hpos, hfits fun hmem => (hpos 0 hmem).false, hprod hdims,
    hgeometry⟩

/-- A read of physical values of a compressed image gives those of the samples that a read of it
gives, or the fault it fails with, however the two run: in one case they go after the values of the
buffer, and in the other it stays as it was. -/
theorem physical_values_are_of_samples {header : Header R} {bytes : List UInt8}
    (h : CompressedReader.openImage header bytes = .ok reader) {settings other : DecodeSettings}
    (hlimit : 0 < settings.limit) (hother : 0 < other.limit)
    (hcapacity : other.capacity = settings.capacity) {out : List β}
    (hroom : tryReserve (PhysicalSample.width β) out.length reader.tiled.image.len = .ok ()) :
    reader.physicalInto flate floats settings out =
      appendPlane out (reader.read flate floats other >>= fun data =>
        .ok (reader.tiled.image.physical data)) := by
  refine congrArg (appendPlane out) ?_
  rw [CompressedReader.physicalPlane, CompressedReader.read]
  cases htable : reader.table with
  | error fault => rfl
  | ok table =>
    rw [Loops.bind_ok rfl, Loops.bind_ok rfl, hcapacity]
    dsimp only
    by_cases hempty : reader.tiled.image.len = 0
    · rw [if_pos hempty]
      cases hplane : Plane.of reader.tiled.image.bitpix with
      | int bitpix =>
        dsimp only
        rw [if_pos hempty, Loops.bind_ok rfl, ImageGeometry.physical_ints hplane, List.map_nil]
      | float bitpix =>
        dsimp only
        rw [if_pos hempty, Loops.bind_ok rfl, ImageGeometry.physical_floats hplane, List.map_nil]
    obtain ⟨dims, tiles, htiles, hdims, hpos, hprod, hlen, hgeometry⟩ :=
      CompressedReader.tiles_of_openImage h hempty
    have hlength : ∀ {α : Type} (fill : α),
        (List.replicate reader.tiled.image.len fill).length = dims.prod :=
      fun _ => List.length_replicate.trans hlen
    have hsum : addUsize out.length reader.tiled.image.len =
        .ok (out.length + reader.tiled.image.len) := by
      obtain ⟨_, hsum, -⟩ := Loops.ok_of_bind hroom
      unfold checkedAdd at hsum
      split at hsum
      · exact if_pos ‹_›
      · cases hsum
    rw [if_neg hempty, Loops.bind_ok hsum, Nat.add_sub_cancel_left, Loops.bind_ok hroom]
    cases hplane : Plane.of reader.tiled.image.bitpix with
    | int bitpix =>
      dsimp only
      rw [if_neg hempty]
      cases hplan : reader.tiled.plan table reader.index with
      | error fault => rfl
      | ok plan =>
        rw [Loops.bind_ok rfl, Loops.bind_ok rfl, decodeInto_convert htiles hdims hpos hprod
          hgeometry _ hother hlimit (hlength 0) (hlength _)]
        exact map_through_data (ImageGeometry.physical_ints hplane)
    | float bitpix =>
      dsimp only
      rw [if_neg hempty]
      cases hplan : reader.tiled.plan table reader.index with
      | error fault => rfl
      | ok plan =>
        rw [Loops.bind_ok rfl, Loops.bind_ok rfl, decodeInto_convert htiles hdims hpos hprod
          hgeometry _ hother hlimit (hlength 0) (hlength _)]
        exact map_through_data (ImageGeometry.physical_floats hplane)

end Values

/-- Three samples of 16 bits with a null among them, in tiles of two, after one value. -/
theorem physical_values_are_of_samples_null : ∃ unit reader,
    CompressionRequest.compressImage ⟨.gzip .plain 6, [2], .none, false⟩ Gzip.stored
      ⟨fun _ _ _ => none, fun _ _ _ _ => 0⟩
      (.int (⟨[3], [1, -32768, 3], .i16, ⟨2, 1, some (-32768)⟩⟩ : IntImage ℤ)) = .ok unit ∧
    CompressedReader.openImage unit.header unit.data = .ok reader ∧
    reader.physicalInto Gzip.stored (fun bitpix => ⟨bitpix, 0, fun _ _ _ => 0, fun _ => 0⟩)
      ⟨2, 3, 0⟩ [some (9 : ℤ)] = (.ok (), [some 9, some 3, none, some 7]) := by
  let request : CompressionRequest ℤ := ⟨.gzip .plain 6, [2], .none, false⟩
  let image : IntImage ℤ := ⟨[3], [1, -32768, 3], .i16, ⟨2, 1, some (-32768)⟩⟩
  let quantizer : Quantizer := ⟨fun _ _ _ => none, fun _ _ _ _ => 0⟩
  let floats : FloatBitpix → FloatSample ℤ := fun bitpix => ⟨bitpix, 0, fun _ _ _ => 0, fun _ => 0⟩
  have hrun : (do
      let unit ← request.compressImage Gzip.stored quantizer (.int image)
      let reader ← CompressedReader.openImage unit.header unit.data
      tryReserve 8 1 reader.tiled.image.len
      let data ← reader.read Gzip.stored floats ⟨1, 5, 0⟩
      .ok (reader.tiled.image.physical data) : Outcome (List (Option ℤ))) =
        .ok [some 3, none, some 7] := by
    decide +kernel
  obtain ⟨unit, hunit, hrun⟩ := Loops.ok_of_bind hrun
  obtain ⟨reader, hopen, hrun⟩ := Loops.ok_of_bind hrun
  obtain ⟨⟨⟩, hroom, hrun⟩ := Loops.ok_of_bind hrun
  have hlimits : 0 < (⟨2, 3, 0⟩ : DecodeSettings).limit ∧
      0 < (⟨1, 5, 0⟩ : DecodeSettings).limit := by decide
  exact ⟨unit, reader, hunit, hopen,
    (physical_values_are_of_samples hopen hlimits.1 hlimits.2 rfl hroom).trans
      (congrArg (appendPlane [some 9]) hrun)⟩

end FitsWell
