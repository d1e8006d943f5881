import FitsWell.Compression.ContainerLayout
import FitsWell.Compression.TiledImage
import FitsWell.ImageModel.ScalingReads

/-!
# What a container's header reads as

The records that an encoder sets, one after another, as the map that the header reads as.
-/

namespace FitsWell

variable {R : Type}

namespace Keyword

def TTYPE1 : Keyword := ⟨ascii "TTYPE1", by decide⟩
def TFORM1 : Keyword := ⟨ascii "TFORM1", by decide⟩
def ZNAME1 : Keyword := ⟨ascii "ZNAME1", by decide⟩
def ZVAL1 : Keyword := ⟨ascii "ZVAL1", by decide⟩
def ZNAME2 : Keyword := ⟨ascii "ZNAME2", by decide⟩
def ZVAL2 : Keyword := ⟨ascii "ZVAL2", by decide⟩

end Keyword

/-! ## Records -/

/-- The keywords that a codec's parameters are set under, and a quantization's. -/
def parameterKeywords : List Keyword := [.ZNAME1, .ZVAL1, .ZNAME2, .ZVAL2, .ZQUANTIZ]

/-- The records of a codec's parameters. -/
def TileCodec.parameters (codec : TileCodec) (scale : R) : List (Keyword × Value R) :=
  match codec with
  | .rice coder =>
    [(.ZNAME1, .text (ascii "BLOCKSIZE")), (.ZVAL1, .ofInt coder.blocksize),
      (.ZNAME2, .text (ascii "BYTEPIX")), (.ZVAL2, .ofInt coder.bytepix.elemSize)]
  | .hcompress _ => [(.ZNAME1, .text (ascii "SCALE")), (.ZVAL1, .real scale)]
  | .gzip1 _ | .gzip2 _ | .plio _ | .noCompress => []

theorem TileCodec.mem_parameters {codec : TileCodec} {scale : R} {entry : Keyword × Value R}
    (h : entry ∈ codec.parameters scale) : entry.1 ∈ parameterKeywords := by
  unfold parameters at h
  split at h
  · simp only [List.mem_cons, List.not_mem_nil, or_false] at h
    rcases h with rfl | rfl | rfl | rfl <;> simp [parameterKeywords]
  · rcases List.mem_pair.mp h with rfl | rfl <;> simp [parameterKeywords]
  · exact absurd h List.not_mem_nil
  · exact absurd h List.not_mem_nil
  · exact absurd h List.not_mem_nil
  · exact absurd h List.not_mem_nil

/-! ## The map -/

/-- What the header of a compressed image's container holds: the lengths of a row and of the
heap, the count of the rows and the format of the cells, and of the image its codec's name, its
type, its axes, its tiles, the parameters and the map of its values. -/
structure ContainerKeys (R : Type) where
  rowLen : ℕ
  rowCount : ℕ
  heapLen : ℕ
  form : Text
  name : Text
  bitpix : Bitpix
  dims : List ℕ
  tiles : List ℕ
  parameters : List (Keyword × Value R)
  scaling : Scaling R
  owned : ∀ entry ∈ parameters, entry.1 ∈ parameterKeywords

namespace ContainerKeys

variable (keys : ContainerKeys R)

/-- The keywords of the table. -/
def structural : KeywordMap R :=
  (((((KeywordMap.empty.set .XTENSION (.text (ascii "BINTABLE"))).set .BITPIX (.ofInt 8)).set
      .NAXIS (.ofInt 2)).setNumbered .NAXIS 0 [keys.rowLen, keys.rowCount]).setAll
        [(.PCOUNT, .ofInt keys.heapLen), (.GCOUNT, .ofInt 1)]).setAll
          [(.TFIELDS, .ofInt 1), (.TTYPE1, .text (ascii "COMPRESSED_DATA")),
            (.TFORM1, .text keys.form)]

/-- The keywords of the image that are always set. -/
def imaged : KeywordMap R :=
  (((((keys.structural.set .ZIMAGE (.logical true)).setAll
    [(.ZCMPTYPE, .text keys.name), (.ZBITPIX, .ofInt keys.bitpix.code)]).set .ZNAXIS
      (.ofInt keys.dims.length)).setNumbered .ZNAXIS 0 keys.dims).setNumbered .ZTILE 0 keys.tiles)

/-- What the header reads as. -/
def map [PlaneReals R] : KeywordMap R :=
  (keys.imaged.setAll keys.parameters).setAll (keys.scaling.records keys.bitpix)

/-- The lengths and the counts are words, the rows lie in memory, and the axes are no more than a
header has. -/
structure Counted : Prop where
  rowLen : keys.rowLen < 2 ^ 63
  rowCount : keys.rowCount < 2 ^ 63
  heapLen : keys.heapLen < 2 ^ 63
  room : keys.rowCount * keys.rowLen ≤ isizeMax
  rank : keys.dims.length ≤ 999
  dims : Header.Numbers .ZNAXIS 0 keys.dims
  tiles : Header.Numbers .ZTILE 0 keys.tiles

end ContainerKeys

/-! ## Setting the records -/

section Sets

variable [RealText R] {header next : Header R} {map : KeywordMap R}

theorem Header.ReadsAs.setColumn {name form : Text} (h : header.ReadsAs map)
    (hset : FitsWell.setColumn header 1 name form = .ok next) :
    next.ReadsAs (map.setAll [(.TTYPE1, .text name), (.TFORM1, .text form)]) := by
  obtain ⟨ttype, httype, hset⟩ := Loops.ok_of_bind hset
  obtain ⟨named, hnamed, hset⟩ := Loops.ok_of_bind hset
  obtain ⟨tform, htform, hset⟩ := Loops.ok_of_bind hset
  obtain rfl : Keyword.TTYPE1 = ttype := Except.ok.inj httype
  obtain rfl : Keyword.TFORM1 = tform := Except.ok.inj htform
  exact (h.setInternal hnamed).setInternal hset

theorem Header.ReadsAs.setZimageAxes {name : Text} {bitpix : Bitpix} {dims tiles : List ℕ}
    (h : header.ReadsAs map)
    (hset : FitsWell.setZimageAxes header name bitpix dims tiles = .ok next) :
    next.ReadsAs (((((map.set .ZIMAGE (.logical true)).setAll
      [(.ZCMPTYPE, .text name), (.ZBITPIX, .ofInt bitpix.code)]).set .ZNAXIS
        (.ofInt dims.length)).setNumbered .ZNAXIS 0 dims).setNumbered .ZTILE 0 tiles) ∧
    Header.Numbers .ZNAXIS 0 dims ∧ Header.Numbers .ZTILE 0 tiles := by
  obtain ⟨image, himage, hset⟩ := Loops.ok_of_bind hset
  obtain ⟨typed, htyped, hset⟩ := Loops.ok_of_bind hset
  obtain ⟨rank, hrank, hset⟩ := Loops.ok_of_bind hset
  obtain ⟨rfl, -⟩ := fitsI64_eq hrank
  obtain ⟨ranked, hranked, hset⟩ := Loops.ok_of_bind hset
  obtain ⟨sized, hsized, hset⟩ := Loops.ok_of_bind hset
  obtain ⟨hdims, hlengths⟩ :=
    (((h.setCommented himage).setAll htyped).setInternal hranked).setIndexed hsized
  obtain ⟨htiles, htileLengths⟩ := hdims.setIndexed hset
  exact ⟨htiles, hlengths, htileLengths⟩

theorem Header.ReadsAs.setCodecParameters {codec : TileCodec} {scale : R} (h : header.ReadsAs map)
    (hset : FitsWell.setCodecParameters header codec scale = .ok next) :
    next.ReadsAs (map.setAll (codec.parameters scale)) := by
  have hparameter : ∀ {header next : Header R} {map : KeywordMap R} {n : ℕ} {zname zval : Keyword}
      {name : Text} {call : Outcome (Value R)} {value : Value R}, header.ReadsAs map →
      Keyword.ZNAME.indexed n = .ok zname → Keyword.ZVAL.indexed n = .ok zval →
      (∀ found, call = .ok found → found = value) →
      setParameter header n name call = .ok next →
      next.ReadsAs ((map.set zname (.text name)).set zval value) := by
    intro header next map n zname zval name call value hreads hzname hzval hcall hset
    obtain ⟨own, hown, hset⟩ := Loops.ok_of_bind hset
    obtain ⟨named, hnamed, hset⟩ := Loops.ok_of_bind hset
    obtain ⟨ownVal, hownVal, hset⟩ := Loops.ok_of_bind hset
    obtain ⟨found, hfound, hset⟩ := Loops.ok_of_bind hset
    obtain rfl := Except.ok.inj (hown.symm.trans hzname)
    obtain rfl := Except.ok.inj (hownVal.symm.trans hzval)
    obtain rfl := hcall found hfound
    exact (hreads.setInternal hnamed).setInternal hset
  have hcount : ∀ (count : ℕ) (found : Value R),
      (do let value ← fitsI64 count; .ok (.ofInt value) : Outcome (Value R)) = .ok found →
      found = .ofInt count := by
    intro count found hfound
    obtain ⟨value, hvalue, hfound⟩ := Loops.ok_of_bind hfound
    obtain ⟨rfl, -⟩ := fitsI64_eq hvalue
    exact (Except.ok.inj hfound).symm
  cases codec with
  | rice coder =>
    obtain ⟨sized, hsized, hset⟩ := Loops.ok_of_bind hset
    exact hparameter (hparameter h rfl rfl (hcount _) hsized) rfl rfl (hcount _) hset
  | hcompress coder =>
    exact hparameter h rfl rfl (fun found hfound => (Except.ok.inj hfound).symm) hset
  | gzip1 level => exact Except.ok.inj hset ▸ h
  | gzip2 level => exact Except.ok.inj hset ▸ h
  | plio coder => exact Except.ok.inj hset ▸ h
  | noCompress => exact Except.ok.inj hset ▸ h

end Sets

/-! ## The header of an image -/

section Headers

variable [PlaneReals R] {unit : EncodedUnit R}

/-- The keys of the container of cells. -/
def cellKeys (codec : TileCodec) (cells : List (List UInt8)) (bitpix : Bitpix)
    (dims tiles : List ℕ) (parameters : List (Keyword × Value R)) (scaling : Scaling R)
    (owned : ∀ entry ∈ parameters, entry.1 ∈ parameterKeywords) : ContainerKeys R :=
  let plan := ContainerPlan.ofCells codec cells
  { rowLen := plan.rowLen, rowCount := cells.length, heapLen := cells.flatten.length
    form := arrayForm plan.width plan.kind (longestCell plan.kind.elemSize cells)
    name := codec.name, bitpix := bitpix, dims := dims, tiles := tiles
    parameters := parameters, scaling := scaling, owned := owned }

variable {codec : TileCodec} {cells : List (List UInt8)} {bitpix : Bitpix} {dims tiles : List ℕ}
  {parameters : List (Keyword × Value R)} {scaling : Scaling R}
  {owned : ∀ entry ∈ parameters, entry.1 ∈ parameterKeywords}

/-- The header of a container of cells, before the image's records. -/
theorem readsAs_layOutCells (h : layOutCells cells codec = .ok unit) :
    unit.header.ReadsAs
      (cellKeys codec cells bitpix dims tiles parameters scaling owned).structural ∧
    (ContainerPlan.ofCells codec cells).rowLen < 2 ^ 63 ∧ cells.length < 2 ^ 63 ∧
    cells.flatten.length < 2 ^ 63 ∧
    cells.length * (ContainerPlan.ofCells codec cells).rowLen ≤ isizeMax := by
  obtain ⟨heap, hheap, h⟩ := Loops.ok_of_bind h
  obtain ⟨rows, hrows, h⟩ := Loops.ok_of_bind h
  obtain ⟨opened, hopened, h⟩ := Loops.ok_of_bind h
  obtain ⟨set, hset, h⟩ := Loops.ok_of_bind h
  obtain rfl := Except.ok.inj h
  obtain ⟨rfl, -⟩ := cellsLen_eq hheap
  obtain ⟨prologue, hprologue, hfields⟩ := Loops.ok_of_bind hopened
  obtain ⟨fields, hcount, hfields⟩ := Loops.ok_of_bind hfields
  obtain ⟨rfl, -⟩ := fitsI64_eq hcount
  unfold Prologue.header at hprologue
  rw [if_neg (by simp)] at hprologue
  obtain ⟨start, hstart, hprologue⟩ := Loops.ok_of_bind hprologue
  obtain ⟨typed, htyped, hprologue⟩ := Loops.ok_of_bind hprologue
  obtain ⟨rank, hrank, hprologue⟩ := Loops.ok_of_bind hprologue
  obtain ⟨rfl, -⟩ := fitsI64_eq hrank
  obtain ⟨counted, hcounted, hprologue⟩ := Loops.ok_of_bind hprologue
  obtain ⟨sized, hsized, hprologue⟩ := Loops.ok_of_bind hprologue
  obtain ⟨pcount, hpcount, hprologue⟩ := Loops.ok_of_bind hprologue
  obtain ⟨rfl, hheapFits⟩ := fitsI64_eq hpcount
  obtain ⟨haxes, hlengths⟩ :=
    (((Header.readsAs_new.setCommented hstart).setCommented htyped).setCommented
      hcounted).setIndexed hsized
  exact ⟨((haxes.setAll hprologue).setInternal hfields).setColumn hset, (hlengths 0 _ rfl).1,
    (hlengths 1 _ rfl).1, hheapFits, layRows_room hrows⟩

/-- A header that holds these keys, of which every length and the map of the values are such
that the keywords hold them. -/
structure Header.Describes (header : Header R) (keys : ContainerKeys R) : Prop where
  reads : header.ReadsAs keys.map
  counted : keys.Counted
  valid : keys.scaling.validate keys.bitpix = .ok ()

/-- The records of an image in a container of cells. -/
theorem describes_of_sets {imaged described next : Header R}
    (hlaid : layOutCells cells codec = .ok unit) (hrank : dims.length ≤ 999)
    (himage : setZimageAxes unit.header codec.name bitpix dims tiles = .ok imaged)
    (hparameters : ∀ {map}, imaged.ReadsAs map → described.ReadsAs (map.setAll parameters))
    (hscaling : scaling.addToHeader described bitpix = .ok next) :
    next.Describes (cellKeys codec cells bitpix dims tiles parameters scaling owned) := by
  obtain ⟨hstructural, hrowLen, hrowCount, hheapLen, hroom⟩ := readsAs_layOutCells hlaid
  obtain ⟨himaged, hdims, htiles⟩ := hstructural.setZimageAxes himage
  obtain ⟨hreads, hvalid⟩ := (hparameters himaged).addToHeader hscaling
  exact ⟨hreads, ⟨hrowLen, hrowCount, hheapLen, hroom, hrank, hdims, htiles⟩, hvalid⟩

/-- The header of an integer image's container. -/
theorem IntImage.describes {flate : Gzip.Flate} {image : IntImage R} {scale : R}
    (hrank : image.shape.length ≤ 999)
    (h : image.compress flate codec scale tiles = .ok unit) : ∃ cells,
    image.encodeCells flate codec tiles = .ok cells ∧
    unit.header.Describes (cellKeys codec cells image.bitpix.bitpix image.shape tiles
      (codec.parameters scale) image.scaling fun _ => TileCodec.mem_parameters) := by
  obtain ⟨_, -, h⟩ := Loops.ok_of_bind h
  obtain ⟨cells, hcells, h⟩ := Loops.ok_of_bind h
  obtain ⟨laid, hlaid, h⟩ := Loops.ok_of_bind h
  obtain ⟨imaged, himaged, h⟩ := Loops.ok_of_bind h
  obtain ⟨coded, hcoded, h⟩ := Loops.ok_of_bind h
  obtain ⟨scaled, hscaled, h⟩ := Loops.ok_of_bind h
  obtain rfl := Except.ok.inj h
  exact ⟨cells, hcells, describes_of_sets hlaid hrank himaged
    (fun hreads => hreads.setCodecParameters hcoded) hscaled⟩

/-- The record of a quantization that keeps the floats. -/
def losslessRecords : List (Keyword × Value R) := [(.ZQUANTIZ, .text (ascii "NONE"))]

/-- The header of the container of a float image that is stored losslessly. -/
theorem FloatImage.describes {flate : Gzip.Flate} {image : FloatImage R}
    (hrank : image.shape.length ≤ 999)
    (h : compressLosslessFloatImage flate image codec tiles = .ok unit) : ∃ cells,
    image.encodeCells flate codec tiles = .ok cells ∧ codec.storesLosslessFloats = true ∧
    unit.header.Describes (cellKeys codec cells image.bitpix.bitpix image.shape tiles
      losslessRecords image.scaling (by simp [losslessRecords, parameterKeywords])) := by
  unfold compressLosslessFloatImage at h
  split at h
  · obtain ⟨cells, hcells, h⟩ := Loops.ok_of_bind h
    obtain ⟨laid, hlaid, h⟩ := Loops.ok_of_bind h
    obtain ⟨imaged, himaged, h⟩ := Loops.ok_of_bind h
    obtain ⟨quantized, hquantized, h⟩ := Loops.ok_of_bind h
    obtain ⟨scaled, hscaled, h⟩ := Loops.ok_of_bind h
    obtain rfl := Except.ok.inj h
    exact ⟨cells, hcells, ‹_›, describes_of_sets hlaid hrank himaged
      (fun hreads => hreads.setInternal hquantized) hscaled⟩
  · cases h

end Headers

end FitsWell
