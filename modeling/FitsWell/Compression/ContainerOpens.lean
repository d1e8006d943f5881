import FitsWell.Compression.ContainerHeader
import FitsWell.Compression.ImageLayout

/-!
# Opening a container

A reader finds in a container's header the image, the tiles and the codec that the encoder put
there, and a table of one column of cells, each of which is read back whole.
-/

namespace FitsWell

open Bytes

variable {R : Type}

/-! ## Lookups -/

namespace ContainerKeys

variable [PlaneReals R] (keys : ContainerKeys R) {keyword : Keyword}

omit [PlaneReals R] in
theorem head_of_parameter {entry : Keyword × Value R} (h : entry ∈ keys.parameters) :
    entry.1.name.head? = some 0x5a := by
  have howned := keys.owned entry h
  simp only [parameterKeywords, List.mem_cons, List.not_mem_nil, or_false] at howned
  rcases howned with heq | heq | heq | heq | heq <;> rw [heq] <;> rfl

/-- The records of the scaling and of the parameters leave a keyword that is none of theirs. -/
theorem map_imaged (hscaling : keyword ∉ scalingKeywords) (hparameter : keyword ∉ parameterKeywords) :
    keys.map keyword = keys.imaged keyword := by
  rw [map, KeywordMap.setAll_of_ne _ fun entry hentry => ?_,
    KeywordMap.setAll_of_ne _ fun entry hentry => ?_]
  · rintro rfl
    exact hparameter (keys.owned entry hentry)
  · rintro rfl
    exact hscaling (Scaling.mem_records hentry)

/-- The image's records leave a keyword of the table. -/
theorem map_structural (hhead : keyword.name.head? ≠ some 0x5a)
    (hscaling : keyword ∉ scalingKeywords) : keys.map keyword = keys.structural keyword := by
  have hne : ∀ other : Keyword, other.name.head? = some 0x5a → keyword ≠ other := by
    rintro other hother rfl
    exact hhead hother
  rw [keys.map_imaged hscaling, imaged,
    KeywordMap.setNumbered_of_none _ (Keyword.indexAfter_of_head (by decide) hhead),
    KeywordMap.setNumbered_of_none _ (Keyword.indexAfter_of_head (by decide) hhead),
    KeywordMap.set_of_ne _ _ (hne _ rfl), KeywordMap.setAll_of_ne _ fun entry hentry => ?_,
    KeywordMap.set_of_ne _ _ (hne _ rfl)]
  · rcases List.mem_pair.mp hentry with rfl | rfl <;> exact hne _ rfl
  · intro hmem
    simp only [parameterKeywords, List.mem_cons, List.not_mem_nil, or_false] at hmem
    rcases hmem with rfl | rfl | rfl | rfl | rfl <;> exact hhead rfl

omit [PlaneReals R] in
/-- The records before the scaling's are of other keywords. -/
theorem base_scaling (h : keyword ∈ scalingKeywords) :
    keys.imaged.setAll keys.parameters keyword = none := by
  rw [KeywordMap.setAll_of_ne _ fun entry hentry => ?_]
  · simp only [scalingKeywords, List.mem_cons, List.not_mem_nil, or_false] at h
    rcases h with rfl | rfl | rfl <;> rfl
  · rintro rfl
    have hhead := keys.head_of_parameter hentry
    simp only [scalingKeywords, List.mem_cons, List.not_mem_nil, or_false] at h
    rcases h with heq | heq | heq <;> rw [heq] at hhead <;> cases hhead

/-- A number of a family that no parameter is of. -/
theorem not_mem_of_indexed {root : Keyword} {n : ℕ} (h : root.indexed n = .ok keyword)
    (hroot : ∀ other ∈ scalingKeywords ++ parameterKeywords, ¬root.name <+: other.name) :
    keyword ∉ scalingKeywords ∧ keyword ∉ parameterKeywords := by
  constructor
  · intro hmem
    exact Keyword.ne_of_indexed h (.inr (hroot _ (List.mem_append_left _ hmem))) rfl
  · intro hmem
    exact Keyword.ne_of_indexed h (.inr (hroot _ (List.mem_append_right _ hmem))) rfl

/-- The keyword of a tile length. -/
theorem map_ztile {i length : ℕ} (h : Keyword.ZTILE.indexed (i + 1) = .ok keyword)
    (hlength : keys.tiles[i]? = some length) : keys.map keyword = some (.ofInt length) := by
  obtain ⟨hscaling, hparameter⟩ := not_mem_of_indexed h (by decide)
  rw [keys.map_imaged hscaling hparameter]
  exact KeywordMap.setNumbered_indexed _ h hlength

/-- The keyword of an axis length. -/
theorem map_znaxis {i length : ℕ} (h : Keyword.ZNAXIS.indexed (i + 1) = .ok keyword)
    (hlength : keys.dims[i]? = some length) : keys.map keyword = some (.ofInt length) := by
  obtain ⟨hscaling, hparameter⟩ := not_mem_of_indexed h (by decide)
  rw [keys.map_imaged hscaling hparameter, imaged, KeywordMap.setNumbered_of_none _
    (Keyword.indexAfter_of_indexed h (by decide) (by decide))]
  exact KeywordMap.setNumbered_indexed _ h hlength

end ContainerKeys

/-! ## The image -/

namespace Header.Describes

variable [PlaneReals R] {header : Header R} {keys : ContainerKeys R} (h : header.Describes keys)
  {keyword : Keyword} {found : Option (Value R)}

include h

/-- A keyword of the table reads as the table's map says. -/
theorem structural (keyword : Keyword) (hstructural : keys.structural keyword = found)
    (hhead : keyword.name.head? ≠ some 0x5a) (hscaling : keyword ∉ scalingKeywords) :
    header.value (.keyword keyword) = .ok found :=
  h.reads.gives ((keys.map_structural hhead hscaling).trans hstructural)

/-- A keyword of the image reads as the image's map says. -/
theorem imaged (keyword : Keyword) (himaged : keys.imaged keyword = found) (hscaling : keyword ∉ scalingKeywords)
    (hparameter : keyword ∉ parameterKeywords) : header.value (.keyword keyword) = .ok found :=
  h.reads.gives ((keys.map_imaged hscaling hparameter).trans himaged)

/-- The header is that of a compressed image. -/
theorem kind : HduKind.fromHeader header .extension = .ok .compressedImage := by
  have hxtension := Header.getText_of_value
    (h.structural .XTENSION rfl (by decide) (by decide))
  have himage := Header.getLogical_of_value (h.imaged .ZIMAGE rfl (by decide) (by decide))
  rw [HduKind.fromHeader, HduKind.ofExtension, Loops.bind_ok hxtension, orMissing,
    Loops.bind_ok rfl, if_neg (by decide), if_neg (by decide), if_pos rfl, HduKind.ofBinTable,
    Loops.bind_ok himage, if_pos rfl]

variable [LawfulPlane R]

/-- The image is that of the keys, with a map that compares equal. -/
theorem geometry {len : ℕ} (hlen : shapeProduct keys.dims = .ok len)
    (hwords : ∀ blank, keys.scaling.blank = some blank → FitsI64 blank) : ∃ image,
    ImageGeometry.fromHeader header .compressedImage = .ok image ∧ image.shape = keys.dims ∧
      image.bitpix = keys.bitpix ∧ image.len = len ∧ keys.scaling.Same image.scaling := by
  obtain ⟨read, hread, hsame, hvalid⟩ := Scaling.fromHeader_records h.reads
    (fun keyword => keys.base_scaling) h.valid hwords
  have hcode : -2 ^ 63 ≤ keys.bitpix.code ∧ keys.bitpix.code < 2 ^ 63 := by
    cases keys.bitpix <;> decide
  have hzbitpix := Header.getInteger_of_value hcode
    (h.imaged .ZBITPIX rfl (by decide) (by decide))
  have hrank := h.counted.rank
  have hznaxis := Header.getInteger_of_value (by omega)
    (h.imaged .ZNAXIS rfl (by decide) (by decide))
  have hbitpix : Bitpix.ofCode keys.bitpix.code = .ok keys.bitpix := by
    cases keys.bitpix <;> rfl
  have hshape : (List.range keys.dims.length).mapM (fun axis => do
      let keyword ← Keyword.ZNAXIS.indexed (axis + 1)
      header.requireUsize keyword) = .ok keys.dims := by
    refine Header.mapM_lengths fun i length hlength => ?_
    obtain ⟨hfits, keyword, hkeyword⟩ := h.counted.dims i length hlength
    rw [Nat.zero_add] at hkeyword
    rw [Loops.bind_ok hkeyword]
    exact Header.requireUsize_of_value hfits (h.reads.gives (keys.map_znaxis hkeyword hlength))
  have hnew := ImageGeometry.new_of_scaling hlen hread
  have hzblank : (⟨keys.dims, keys.bitpix, read, len, hlen⟩ : ImageGeometry R).withZblank header =
      .ok ⟨keys.dims, keys.bitpix, read, len, hlen⟩ := by
    have hnone : header.getInteger .ZBLANK = .ok none := Header.getInteger_of_none
      (h.imaged .ZBLANK rfl (by decide) (by decide))
    unfold ImageGeometry.withZblank
    split
    · rename_i hblank
      have hread : { read with blank := none } = read := by rw [← hblank]
      rw [Loops.bind_ok hnone]
      dsimp only
      rw [hread, Loops.bind_ok hvalid]
    · rfl
  refine ⟨⟨keys.dims, keys.bitpix, read, len, hlen⟩, ?_, rfl, rfl, rfl, hsame⟩
  rw [ImageGeometry.fromHeader, ImageGeometry.compressed, Loops.bind_ok hzbitpix, orMissing,
    Loops.bind_ok rfl, Loops.bind_ok hbitpix, Loops.bind_ok hznaxis, orMissing, Loops.bind_ok rfl,
    if_pos (by omega), Int.toNat_natCast, Loops.bind_ok hshape, Loops.bind_ok hnew, hzblank]

omit [LawfulPlane R] in
/-- The tiles are those of the keys. -/
theorem tileShape (hlength : keys.tiles.length = keys.dims.length)
    (hpos : ∀ tile ∈ keys.tiles, 0 < tile) : tileShape header keys.dims = .ok keys.tiles := by
  have hzip : keys.dims.zipIdx.map (fun dim => keys.tiles.getD dim.2 0) = keys.tiles := by
    refine List.ext_getElem (by simp [hlength]) fun i hi hi' => ?_
    rw [List.getElem_map, List.getElem_zipIdx, Nat.zero_add, List.getD_eq_getElem _ _ hi']
  unfold FitsWell.tileShape
  rw [← hzip]
  refine Loops.mapM_eq_map fun dim hdim => ?_
  have hlt : dim.2 < keys.tiles.length := by
    rw [hlength]
    exact List.snd_lt_of_mem_zipIdx hdim
  obtain ⟨hfits, keyword, hkeyword⟩ := h.counted.tiles dim.2 _ (List.getElem?_eq_getElem hlt)
  rw [Nat.zero_add] at hkeyword
  have htile := hpos _ (List.getElem_mem hlt)
  have hvalue := Header.getInteger_of_value (by omega)
    (h.reads.gives (keys.map_ztile hkeyword (List.getElem?_eq_getElem hlt)))
  rw [Loops.bind_ok hkeyword, Loops.bind_ok hvalue]
  dsimp only
  rw [if_pos (by omega), Int.toNat_natCast, List.getD_eq_getElem _ _ hlt]

end Header.Describes

/-! ## The codec -/

namespace ContainerKeys

variable (keys : ContainerKeys R) {keyword : Keyword} {i : ℕ}

/-- No number of `ZNAME` is a keyword of the table or of the image. -/
theorem imaged_zname (h : Keyword.ZNAME.indexed i = .ok keyword) : keys.imaged keyword = none := by
  have hhead : keyword.name.head? = some 0x5a := Header.head?_indexed h
  have hne : ∀ other : Keyword, ¬Keyword.ZNAME.name <+: other.name → keyword ≠ other :=
    fun other hother => Keyword.ne_of_indexed h (.inr hother)
  have hentries : ∀ entries : List (Keyword × Value R),
      (∀ entry ∈ entries, ¬Keyword.ZNAME.name <+: entry.1.name) →
      ∀ entry ∈ entries, keyword ≠ entry.1 :=
    fun entries hentries entry hentry => hne _ (hentries entry hentry)
  rw [imaged, KeywordMap.setNumbered_of_none _ (Keyword.indexAfter_of_indexed h (by decide) (by decide)),
    KeywordMap.setNumbered_of_none _ (Keyword.indexAfter_of_indexed h (by decide) (by decide)),
    KeywordMap.set_of_ne _ _ (hne _ (by decide)),
    KeywordMap.setAll_of_ne _ (hentries _ (by simp; decide)), KeywordMap.set_of_ne _ _ (hne _ (by decide)),
    structural, KeywordMap.setAll_of_ne _ (hentries _ (by simp; decide)),
    KeywordMap.setAll_of_ne _ (hentries _ (by simp; decide)),
    KeywordMap.setNumbered_of_none _ (Keyword.indexAfter_of_head (by decide) (by rw [hhead]; decide)),
    KeywordMap.set_of_ne _ _ (hne _ (by decide)), KeywordMap.set_of_ne _ _ (hne _ (by decide)),
    KeywordMap.set_of_ne _ _ (hne _ (by decide))]
  rfl

/-- A record of a parameter's name is one of the parameters. -/
theorem exists_parameter [PlaneReals R] (h : Keyword.ZNAME.indexed i = .ok keyword)
    (hmap : keys.map keyword ≠ none) : ∃ entry ∈ keys.parameters, entry.1 = keyword := by
  by_contra hnone
  push Not at hnone
  refine hmap ?_
  rw [map, KeywordMap.setAll_of_ne _ fun entry hentry => ?_,
    KeywordMap.setAll_of_ne _ fun entry hentry => (hnone entry hentry).symm]
  · exact keys.imaged_zname h
  · intro heq
    have hroot : ∀ other ∈ scalingKeywords, ¬Keyword.ZNAME.name <+: other.name := by decide
    exact Keyword.ne_of_indexed h (.inr (hroot _ (Scaling.mem_records hentry))) heq

end ContainerKeys

namespace TileCodec

/-- The codec that its name alone gives. -/
def named : TileCodec → TileCodec
  | .gzip1 _ => .gzip1 Gzip.defaultLevel
  | .gzip2 _ => .gzip2 Gzip.defaultLevel
  | .rice _ => .rice ⟨Rice.blocksize, .i32⟩
  | .plio _ => .plio ⟨0⟩
  | .hcompress _ => .hcompress ⟨.lossless, .off, (0, 1)⟩
  | .noCompress => .noCompress

theorem parse_name (codec : TileCodec) : parse codec.name = .ok codec.named := by
  cases codec <;> rfl

end TileCodec

namespace Header.Describes

variable [PlaneReals R] {header : Header R} {keys : ContainerKeys R} (h : header.Describes keys)
  {keyword : Keyword} {i : ℕ}

include h

/-- A record of a parameter's name in the header is one of the parameters. -/
theorem exists_parameter {record : Record R} (hmem : record ∈ header.records)
    (hkeyword : record.keyword = some keyword) (hindex : keyword.indexAfter .ZNAME = some i) :
    ∃ entry ∈ keys.parameters, entry.1 = keyword :=
  keys.exists_parameter (Keyword.indexed_of_indexAfter hindex).2 (h.reads.of_record hmem hkeyword)

/-- A codec whose name says all of it has no parameter to read. -/
theorem readParameters_none (hnone : ∀ entry ∈ keys.parameters, entry.1.indexAfter .ZNAME = none)
    (codec : TileCodec) : codec.readParameters header = .ok codec := by
  have hrun : ∃ found, header.records.foldlM (TileCodec.readParameter header) codec = .ok found ∧
      found = codec := by
    refine Loops.foldlM_total (P := fun _ found => found = codec) rfl ?_
    rintro done record todo hsplit _ rfl
    refine ⟨_, ?_, rfl⟩
    have hmem : record ∈ header.records := hsplit ▸ List.mem_append_right _ List.mem_cons_self
    cases record with
    | valued keyword value comment =>
      rw [TileCodec.readParameter]
      cases hindex : keyword.indexAfter .ZNAME with
      | none => rfl
      | some i =>
        obtain ⟨entry, hentry, rfl⟩ := h.exists_parameter hmem rfl hindex
        rw [hnone entry hentry] at hindex
        cases hindex
    | _ => rfl
  obtain ⟨found, hfound, rfl⟩ := hrun
  exact hfound

/-- A keyword of a parameter reads as the parameters' records say. -/
theorem parameter {found : Option (Value R)} (hscaling : keyword ∉ scalingKeywords)
    (hfound : keys.imaged.setAll keys.parameters keyword = found) :
    header.value (.keyword keyword) = .ok found := by
  refine h.reads.gives ?_
  rw [ContainerKeys.map, KeywordMap.setAll_of_ne _ fun entry hentry => ?_, hfound]
  rintro rfl
  exact hscaling (Scaling.mem_records hentry)

section Rice

variable {width bytepix : IntBitpix} {scale : R} (hparameters : keys.parameters =
  (TileCodec.rice ⟨Rice.blocksize, bytepix⟩).parameters scale)

include hparameters

/-- A record of the header leaves the block size, and the one of the pixel width gives it. -/
theorem readParameter_rice (width : IntBitpix) {record : Record R} (hmem : record ∈ header.records) : ∃ read,
    TileCodec.readParameter header (.rice ⟨Rice.blocksize, width⟩) record =
      .ok (.rice ⟨Rice.blocksize, read⟩) ∧
    (width = bytepix → read = bytepix) ∧
    ∀ value comment, record = .valued .ZNAME2 value comment → read = bytepix := by
  have hgives : ∀ (keyword : Keyword) {found : Option (Value R)}, keyword ∉ scalingKeywords →
      keys.imaged.setAll ((TileCodec.rice ⟨Rice.blocksize, bytepix⟩).parameters scale) keyword =
        found → header.value (.keyword keyword) = .ok found :=
    fun _ _ hscaling hfound => h.parameter hscaling (by rw [hparameters, hfound])
  have hfirst : Keyword.ZNAME1.indexAfter .ZNAME = some 1 := by decide
  have hsecond : Keyword.ZNAME2.indexAfter .ZNAME = some 2 := by decide
  by_cases hnamed : ∃ keyword value comment i, record = .valued keyword value comment ∧
      keyword.indexAfter .ZNAME = some i
  · obtain ⟨keyword, value, comment, i, rfl, hindex⟩ := hnamed
    obtain ⟨entry, hentry, rfl⟩ := h.exists_parameter hmem rfl hindex
    rw [hparameters] at hentry
    simp only [TileCodec.parameters, List.mem_cons, List.not_mem_nil, or_false] at hentry
    rw [TileCodec.readParameter, hindex]
    rcases hentry with rfl | rfl | rfl | rfl
    · obtain rfl := Option.some.inj (hindex.symm.trans hfirst)
      have hname := Header.getText_of_value (hgives .ZNAME1 (by decide) rfl)
      have hzval : Keyword.ZVAL.indexed 1 = .ok .ZVAL1 := rfl
      have hsize : header.getInteger .ZVAL1 = .ok (some 32) :=
        Header.getInteger_of_value (by decide) (hgives _ (by decide) rfl)
      refine ⟨width, ?_, id, fun _ _ hrecord => by cases hrecord⟩
      dsimp only
      rw [Loops.bind_ok hname]
      dsimp only
      rw [Loops.bind_ok hzval, TileCodec.withParameter]
      dsimp only
      rw [if_pos rfl, Loops.bind_ok hsize]
      rfl
    · cases hindex.symm.trans (by decide : Keyword.ZVAL1.indexAfter .ZNAME = none)
    · obtain rfl := Option.some.inj (hindex.symm.trans hsecond)
      have hname := Header.getText_of_value (hgives .ZNAME2 (by decide) rfl)
      have hzval : Keyword.ZVAL.indexed 2 = .ok .ZVAL2 := rfl
      have hwidth : header.getInteger .ZVAL2 = .ok (some bytepix.elemSize) :=
        Header.getInteger_of_value (by cases bytepix <;> decide) (hgives _ (by decide) rfl)
      refine ⟨bytepix, ?_, fun _ => rfl, fun _ _ _ => rfl⟩
      dsimp only
      rw [Loops.bind_ok hname]
      dsimp only
      rw [Loops.bind_ok hzval, TileCodec.withParameter]
      dsimp only
      rw [if_neg (by decide), if_pos rfl, Loops.bind_ok hwidth]
      cases bytepix <;> rfl
    · cases hindex.symm.trans (by decide : Keyword.ZVAL2.indexAfter .ZNAME = none)
  · refine ⟨width, ?_, id, fun value comment hrecord =>
      absurd ⟨.ZNAME2, value, comment, 2, hrecord, hsecond⟩ hnamed⟩
    cases record with
    | valued keyword value comment =>
      rw [TileCodec.readParameter]
      cases hindex : keyword.indexAfter .ZNAME with
      | none => rfl
      | some i => exact absurd ⟨keyword, value, comment, i, rfl, hindex⟩ hnamed
    | _ => rfl

/-- The parameters of `RICE_1` read back. -/
theorem readParameters_rice : (TileCodec.rice ⟨Rice.blocksize, .i32⟩).readParameters header =
    .ok (.rice ⟨Rice.blocksize, bytepix⟩) := by
  have hrun : ∃ found, header.records.foldlM (TileCodec.readParameter header)
      (.rice ⟨Rice.blocksize, .i32⟩) = .ok found ∧ ∃ width, found = .rice ⟨Rice.blocksize, width⟩ ∧
        ∀ value comment, Record.valued .ZNAME2 value comment ∈ header.records →
          width = bytepix := by
    refine Loops.foldlM_total (P := fun (done : List (Record R)) found => ∃ width,
      found = TileCodec.rice ⟨Rice.blocksize, width⟩ ∧
        ∀ value comment, Record.valued .ZNAME2 value comment ∈ done → width = bytepix)
      ⟨.i32, rfl, fun _ _ hmem => absurd hmem List.not_mem_nil⟩ ?_
    rintro done record todo hsplit _ ⟨width, rfl, hdone⟩
    have hmem : record ∈ header.records := hsplit ▸ List.mem_append_right _ List.mem_cons_self
    obtain ⟨read, hread, hkept, hgiven⟩ := h.readParameter_rice hparameters width hmem
    refine ⟨_, hread, read, rfl, fun value comment hother => ?_⟩
    rcases List.mem_append.mp hother with hbefore | hlast
    · exact hkept (hdone value comment hbefore)
    · exact hgiven value comment (List.mem_singleton.mp hlast).symm
  obtain ⟨found, hfound, width, rfl, hwidth⟩ := hrun
  have hmap : keys.map .ZNAME2 = some (.text (ascii "BYTEPIX")) := by
    rw [ContainerKeys.map, KeywordMap.setAll_of_ne _ fun entry hentry => ?_, hparameters]
    · rfl
    · rintro heq
      exact absurd (Scaling.mem_records hentry) (by rw [← heq]; decide)
  obtain ⟨comment, hmem⟩ := h.reads.exists_record hmap
  rw [hwidth _ comment hmem] at hfound
  exact hfound

end Rice

end Header.Describes

namespace Keyword

def NAXIS1 : Keyword := ⟨ascii "NAXIS1", by decide⟩
def NAXIS2 : Keyword := ⟨ascii "NAXIS2", by decide⟩
def TDIM1 : Keyword := ⟨ascii "TDIM1", by decide⟩
def TSCAL1 : Keyword := ⟨ascii "TSCAL1", by decide⟩
def TZERO1 : Keyword := ⟨ascii "TZERO1", by decide⟩
def TNULL1 : Keyword := ⟨ascii "TNULL1", by decide⟩

end Keyword

/-! ## The schema -/

/-- A column of arrays of `kind`, a descriptor a row at the row's start. -/
structure Column.CellsOf (column : Column) (width : DescriptorWidth) (kind : ElementKind) :
    Prop where
  repeatCount : column.tform.repeatCount = 1
  element : column.tform.element = kind
  storage : column.tform.storage = .array width
  tdim : column.tdim = .ok none
  place : column.byteOffset = 0

theorem Column.CellsOf.byteWidth {column : Column} {width : DescriptorWidth} {kind : ElementKind}
    (h : column.CellsOf width kind) : column.tform.byteWidth = width.bytes := by
  rw [Tform.byteWidth, h.storage]
  dsimp only
  rw [h.repeatCount, Nat.one_mul]

/-- The schema of a container of cells: rows of one descriptor each, and the heap after them. -/
structure ContainerSchema (schema : NamedSchema R) (keys : ContainerKeys R)
    (width : DescriptorWidth) (kind : ElementKind) : Prop where
  extent : schema.extent = ⟨keys.rowCount, keys.rowLen, keys.rowCount * keys.rowLen,
    keys.rowCount * keys.rowLen + keys.heapLen⟩
  column : ∃ column, schema.columns = [column] ∧ column.CellsOf width kind
  names : schema.names = [.ok (some (ascii "COMPRESSED_DATA"))]

namespace Header

variable [PlaneReals R] [LawfulWords R] {header : Header R} {keys : ContainerKeys R}

theorem requireWord_of_value {keyword : Keyword} {size : ℕ} (hfits : size < 2 ^ 63)
    (h : header.value (.keyword keyword) = .ok (some (.ofInt size))) :
    header.requireWord keyword = .ok ⟨size, hfits⟩ := by
  have hsize := requireUsize_of_value hfits h
  unfold requireWord
  split
  · rename_i found hfound
    exact congrArg Except.ok (Subtype.ext (Except.ok.inj (hfound.symm.trans hsize)))
  · rename_i fault hfault
    cases hfault.symm.trans hsize

theorem keyed_ok {α : Type} {keyword : Keyword} {call : Outcome α} {value : α}
    (h : call = .ok value) : keyed keyword call = .ok (.ok value) := by
  rw [h, keyed]

/-- A header's shape is that of the keys' table. -/
theorem Describes.shape (h : header.Describes keys) : TableShape.read header =
    .ok ⟨⟨keys.rowLen, h.counted.rowLen⟩, ⟨keys.rowCount, h.counted.rowCount⟩, 1, by decide⟩ := by
  have hstructure : ∀ (keyword : Keyword) (required : ℤ), FitsI64 required →
      header.value (.keyword keyword) = .ok (some (.ofInt required)) →
      TableShape.requireStructure header keyword required = .ok () := by
    intro keyword required hfits hvalue
    rw [TableShape.requireStructure, Loops.bind_ok (requireInteger_of_value hfits hvalue),
      if_neg (by simp)]
  have hfields : header.requireUsize .TFIELDS = .ok 1 := requireUsize_of_value (by decide)
    (h.structural .TFIELDS rfl (by decide) (by decide))
  have hfirst : Keyword.NAXIS.indexed 1 = .ok .NAXIS1 := rfl
  have hsecond : Keyword.NAXIS.indexed 2 = .ok .NAXIS2 := rfl
  have hrowLen := requireWord_of_value h.counted.rowLen
    (h.structural .NAXIS1 rfl (by decide) (by decide))
  have hrowCount := requireWord_of_value h.counted.rowCount
    (h.structural .NAXIS2 rfl (by decide) (by decide))
  rw [TableShape.read,
    Loops.bind_ok (hstructure .BITPIX 8 (by decide) (h.structural _ rfl (by decide) (by decide))),
    Loops.bind_ok (hstructure .NAXIS 2 (by decide) (h.structural _ rfl (by decide) (by decide))),
    Loops.bind_ok (hstructure .GCOUNT 1 (by decide) (h.structural _ rfl (by decide) (by decide))),
    Loops.bind_ok hfields, dif_pos (by decide), Loops.bind_ok hfirst, Loops.bind_ok hrowLen,
    Loops.bind_ok hsecond, Loops.bind_ok hrowCount]

omit [LawfulWords R] in
/-- The one column of the table, at the start of a row. -/
theorem Describes.column (h : header.Describes keys) {width : DescriptorWidth} {kind : ElementKind}
    {longest : ℕ} (hform : keys.form = arrayForm width kind longest) :
    ∃ (column : KeyedColumn R) (hoffset : column.1.byteOffset = 0),
      Column.parse header .read 1 0 = .ok ⟨column, hoffset⟩ ∧ column.1.number = 1 ∧
        column.1.CellsOf width kind := by
  obtain ⟨tform, hparse, hrepeat, helement, hwidth⟩ := parse_arrayForm width kind longest
  have hstorage : tform.storage = .array width := by
    unfold Tform.descriptorWidth at hwidth
    split at hwidth
    · cases hwidth
    · rename_i hstorage
      rw [hstorage, Option.some.inj hwidth]
  have htform : header.requireText .TFORM1 = .ok keys.form := by
    have hfound : header.typedOptional (.keyword .TFORM1) .text (fun value => .ok value.asText) =
        .ok (some keys.form) := Header.getText_of_value
      (h.structural .TFORM1 rfl (by decide) (by decide))
    rw [requireText, typedRequired, Loops.bind_ok hfound]
  have htdim : Tdim.ofColumn header .TDIM1 tform = .ok none := by
    rw [Tdim.ofColumn, Loops.bind_ok (getText_of_none
      (h.structural .TDIM1 rfl (by decide) (by decide)))]
  have hreal : ∀ {root : Keyword} (keyword : Keyword) {absent : R}, root.indexed 1 = .ok keyword →
      header.value (.keyword keyword) = .ok none →
      ColumnKeywords.real header root 1 absent = .ok (.ok absent) := by
    intro root keyword absent hkeyword hnone
    rw [ColumnKeywords.real, Loops.bind_ok hkeyword]
    exact keyed_ok (by rw [Loops.bind_ok (getReal_of_none hnone)]; rfl)
  have hread : ColumnKeywords.read header 1 = .ok ⟨.ok (RealText.ofI64 1), .ok (RealText.ofI64 0),
      .ok none⟩ := by
    have htnull : Keyword.TNULL.indexed 1 = .ok .TNULL1 := rfl
    rw [ColumnKeywords.read, Loops.bind_ok htnull,
      Loops.bind_ok (hreal .TSCAL1 rfl
        (h.structural _ rfl (by decide) (by decide))),
      Loops.bind_ok (hreal .TZERO1 rfl
        (h.structural _ rfl (by decide) (by decide))),
      Loops.bind_ok (keyed_ok (getInteger_of_none
        (h.structural .TNULL1 rfl (by decide) (by decide))))]
  have htformKeyword : Keyword.TFORM.indexed 1 = .ok .TFORM1 := rfl
  have htdimKeyword : Keyword.TDIM.indexed 1 = .ok .TDIM1 := rfl
  rw [← hform] at hparse
  refine ⟨⟨⟨tform, .ok none, 1, 0⟩, ⟨.ok (RealText.ofI64 1), .ok (RealText.ofI64 0), .ok none⟩⟩, rfl, ?_,
    rfl, ⟨hrepeat, helement, hstorage, rfl, rfl⟩⟩
  rw [Column.parse, Loops.bind_ok htformKeyword, Loops.bind_ok htform, Loops.bind_ok hparse,
    Loops.bind_ok htdimKeyword, ValueKeywords.ofColumn, Loops.bind_ok (keyed_ok htdim),
    Loops.bind_ok hread]
  rfl

omit [LawfulWords R] in
/-- The name of the one column. -/
theorem Describes.name (h : header.Describes keys) :
    ColumnKeywords.name header 1 = .ok (.ok (some (ascii "COMPRESSED_DATA"))) := by
  have hkeyword : Keyword.TTYPE.indexed 1 = .ok .TTYPE1 := rfl
  have hname := getText_of_value (h.structural .TTYPE1 rfl (by decide) (by decide))
  rw [ColumnKeywords.name, Loops.bind_ok hkeyword]
  exact keyed_ok (by rw [Loops.bind_ok hname]; rfl)

/-- The schema of the container. -/
theorem Describes.schema (h : header.Describes keys) (width : DescriptorWidth) (kind : ElementKind)
    {longest : ℕ} (hform : keys.form = arrayForm width kind longest)
    (hrowLen : keys.rowLen = width.bytes) :
    ∃ schema, NamedSchema.parse header = .ok schema ∧ ContainerSchema schema keys width kind := by
  obtain ⟨column, hoffset, hcolumn, hnumber, hcells⟩ := h.column hform
  have hword : isizeMax = 2 ^ 63 - 1 ∧ usizeMax = 2 ^ 64 - 1 := ⟨rfl, rfl⟩
  have hheap := h.counted.heapLen
  have hroom := h.counted.room
  have hlayout : (List.range 1).foldlM (Layout.add header .read) Layout.empty =
      .ok ((Layout.empty : Layout R).push column hoffset) := by
    rw [List.range_one, List.foldlM_cons]
    have hadd : Layout.add header .read Layout.empty 0 =
        .ok ((Layout.empty : Layout R).push column hoffset) := by
      rw [Layout.add]
      exact Loops.bind_ok hcolumn
    rw [Loops.bind_ok hadd]
    rfl
  have hthe : header.optionalUsize .THEAP (keys.rowCount * keys.rowLen) =
      .ok (keys.rowCount * keys.rowLen) :=
    optionalUsize_of_none (h.structural _ rfl (by decide) (by decide))
  have hpcount : header.optionalUsize .PCOUNT 0 = .ok keys.heapLen :=
    optionalUsize_of_value hheap (h.structural _ rfl (by decide) (by decide))
  have hfilled : ((Layout.empty : Layout R).push column hoffset).offset = keys.rowLen := by
    have hwidth : width.bytes ≤ 16 := by cases width <;> decide
    change saturatingAdd 0 column.1.tform.byteWidth = keys.rowLen
    rw [saturatingAdd, hcells.byteWidth, hrowLen]
    omega
  have hschema : ∃ schema, (((Layout.empty : Layout R).push column hoffset).schema header
      ⟨⟨keys.rowLen, h.counted.rowLen⟩, ⟨keys.rowCount, h.counted.rowCount⟩, 1, by decide⟩) =
        .ok schema ∧ schema.extent = ⟨keys.rowCount, keys.rowLen, keys.rowCount * keys.rowLen,
          keys.rowCount * keys.rowLen + keys.heapLen⟩ ∧ schema.columns = [column.1] := by
    unfold Layout.schema
    rw [dif_pos hfilled]
    split
    · rename_i hnone
      rw [checkedMul, if_pos (by dsimp only; omega)] at hnone
      cases hnone
    rename_i mainTable hmain
    obtain ⟨-, rfl⟩ := checkedMul_eq_some_iff.mp hmain
    rw [Loops.bind_ok hthe, dif_pos le_rfl, Loops.bind_ok hpcount]
    split
    · rename_i hnone
      rw [checkedAdd, if_pos (by dsimp only; omega)] at hnone
      cases hnone
    rename_i heapEnd hend
    obtain ⟨-, rfl⟩ := checkedAdd_eq_some_iff.mp hend
    rw [dif_pos (Nat.le_add_right _ _)]
    exact ⟨_, rfl, rfl, rfl⟩
  obtain ⟨schema, hschema, hextent, hcolumns⟩ := hschema
  have hparse : Schema.parse header = .ok schema := by
    rw [Schema.parse, Schema.parseColumns, Loops.bind_ok h.shape, Loops.bind_ok hlayout, hschema]
  have hnames : schema.columns.mapM (fun column => ColumnKeywords.name header column.number) =
      .ok [.ok (some (ascii "COMPRESSED_DATA"))] := by
    rw [hcolumns, List.mapM_cons, hnumber, Loops.bind_ok h.name]
    rfl
  refine ⟨{ schema with names := [.ok (some (ascii "COMPRESSED_DATA"))] }, ?_, hextent,
    ⟨column.1, hcolumns, hcells⟩, rfl⟩
  rw [NamedSchema.parse, Loops.bind_ok hparse, Loops.bind_ok hnames]

end Header

/-! ## The table -/

namespace ContainerSchema

variable {schema : NamedSchema R} {keys : ContainerKeys R} {width : DescriptorWidth}
  {kind : ElementKind} (h : ContainerSchema schema keys width kind)

include h

/-- The table has no column of another name. -/
theorem columnIndex_other (view : TableView) {name : Text}
    (hname : eqIgnoreAsciiCase (ascii "COMPRESSED_DATA") name = false) :
    NamedTable.columnIndex { view with names := schema.names } name = .ok none := by
  rw [NamedTable.columnIndex, h.names, indexOf, ColumnReader.keyed, Loops.bind_ok rfl,
    Option.any_some, hname, if_neg Bool.false_ne_true]
  rfl

theorem optionalVlaColumn_other (view : TableView) {name : Text}
    (hname : eqIgnoreAsciiCase (ascii "COMPRESSED_DATA") name = false) :
    NamedTable.optionalVlaColumn { view with names := schema.names } name = .ok none := by
  rw [NamedTable.optionalVlaColumn, Loops.bind_ok (h.columnIndex_other view hname)]

/-- No tile has parameters of its own. -/
theorem readIndex [PlaneReals R] (bytes : List UInt8) (hroom : keys.rowCount * keys.rowLen ≤ isizeMax)
    (hbytes : keys.rowCount * keys.rowLen ≤ bytes.length) :
    TileIndex.read schema bytes =
      .ok ⟨bytes.take (keys.rowCount * keys.rowLen), none, none, none⟩ := by
  have hisize : isizeMax ≤ usizeMax := by decide
  have hcount : schema.extent.rowCount = keys.rowCount := by rw [h.extent]
  have hlen : schema.extent.rowLen = keys.rowLen := by rw [h.extent]
  have hreserve : tryReserveExact 0 (keys.rowCount * keys.rowLen) = .ok () := by
    rw [tryReserveExact, checkedAdd, if_pos (by omega), orOverflow, Loops.bind_ok rfl,
      if_pos (by omega)]
  have hcompact : ∃ view, TableView.compact schema.toSchema keys.rowCount
      (bytes.take (keys.rowCount * keys.rowLen)) = .ok view := by
    rw [TableView.compact, TableExtent.compacted, hlen, mulUsize_of_le (by omega),
      Loops.bind_ok rfl, debugAssert, if_pos (by rw [List.length_take]; omega), Loops.bind_ok rfl,
      Loops.bind_ok rfl]
    exact ⟨_, rfl⟩
  obtain ⟨view, hview⟩ := hcompact
  have hnone : ∀ {α : Type} (name : Text) (expected : ExpectedColumn)
      (value : ElementKind → List UInt8 → Option α),
      eqIgnoreAsciiCase (ascii "COMPRESSED_DATA") name = false →
      readTileColumn { view with names := schema.names } name expected value = .ok none := by
    intro α name expected value hname
    rw [readTileColumn, Loops.bind_ok (h.columnIndex_other view hname)]
  rw [TileIndex.read, hcount, hlen, checkedMul, if_pos (by omega), orOverflow, Loops.bind_ok rfl,
    Loops.bind_ok hreserve, if_neg (by omega), Loops.bind_ok hview,
    Loops.bind_ok (hnone _ _ _ (by decide)), Loops.bind_ok (hnone _ _ _ (by decide)),
    Loops.bind_ok (hnone _ _ _ (by decide))]

/-- The one column of cells is the primary one, and no mask marks a sample. -/
theorem readSources (view : TableView) (hcolumns : view.columns = schema.columns) :
    ∃ column, column.CellsOf width kind ∧
      TileSources.read { view with names := schema.names } =
        .ok ⟨some ⟨view, 0, column, width⟩, none, none⟩ ∧
      ∀ (codec : Option TileCodec) (values : NullValues),
        NullMask.read { view with names := schema.names } codec values =
          .ok ⟨none, codec.map NullMask.bytewise, values⟩ := by
  obtain ⟨column, hcolumn, hcells⟩ := h.column
  have hindex : NamedTable.columnIndex { view with names := schema.names }
      (ascii "COMPRESSED_DATA") = .ok (some 0) := by
    rw [NamedTable.columnIndex, h.names]
    rfl
  have hvla : NamedTable.vlaColumn { view with names := schema.names } 0 =
      .ok ⟨view, 0, column, width⟩ := by
    rw [NamedTable.vlaColumn]
    dsimp only
    rw [hcolumns, hcolumn, List.getElem?_cons_zero]
    dsimp only
    rw [hcells.storage]
  have hprimary : NamedTable.optionalVlaColumn { view with names := schema.names }
      (ascii "COMPRESSED_DATA") = .ok (some ⟨view, 0, column, width⟩) := by
    rw [NamedTable.optionalVlaColumn, Loops.bind_ok hindex]
    dsimp only
    rw [Loops.bind_ok hvla]
  refine ⟨column, hcells, ?_, fun codec values => ?_⟩
  · rw [TileSources.read, Loops.bind_ok hprimary,
      Loops.bind_ok (h.optionalVlaColumn_other view (by decide)),
      Loops.bind_ok (h.optionalVlaColumn_other view (by decide))]
  · have hnone : firstColumn { view with names := schema.names }
        [ascii "NULL_PIXEL_MASK", ascii "NULL_PIXEL_MASK_COLUMN", ascii "NULL PIXEL MASK"] =
          .ok none := by
      rw [firstColumn, Loops.bind_ok (h.optionalVlaColumn_other view (by decide)), firstColumn,
        Loops.bind_ok (h.optionalVlaColumn_other view (by decide)), firstColumn,
        Loops.bind_ok (h.optionalVlaColumn_other view (by decide)), firstColumn]
    rw [NullMask.read, Loops.bind_ok hnone]

end ContainerSchema

/-! ## The cells -/

section Cells

variable {unit : EncodedUnit R} {codec : TileCodec} {cells : List (List UInt8)} {view : TableView}
  {column : Column} {fill : List UInt8} {t : ℕ} {cell : List UInt8}

/-- A cell that an encoder laid, and is not empty, is read back as the source of its tile. -/
theorem source_of_laidOut [PlaneReals R] (hlaid : unit.LaidOut (.ofCells codec cells))
    (hcolumn : column.CellsOf (ContainerPlan.ofCells codec cells).width codec.streamKind)
    (hextent : view.extent = ⟨cells.length, (ContainerPlan.ofCells codec cells).rowLen,
      unit.rows.length, unit.rows.length + unit.heap.flatten.length⟩)
    (hbytes : view.bytes = unit.data ++ fill) (hroom : unit.data.length ≤ usizeMax)
    (hcell : cells[t]? = some cell) (hne : cell ≠ []) : ∃ count,
    TileSources.source ⟨some ⟨view, 0, column, (ContainerPlan.ofCells codec cells).width⟩, none, none⟩
      t = .ok (.compressed ⟨cell, count, codec.streamKind⟩) := by
  obtain ⟨descriptor, span, hdecode, hrange, hslice⟩ :=
    hlaid.cells _ (List.mem_singleton_self _) t cell hcell
  have ht := (List.getElem?_eq_some_iff.mp hcell).1
  have hplace : t * (ContainerPlan.ofCells codec cells).rowLen +
      (ContainerPlan.ofCells codec cells).width.bytes ≤ unit.rows.length := by
    have hrow := Nat.mul_le_mul_right (ContainerPlan.ofCells codec cells).rowLen ht
    rw [Nat.succ_mul] at hrow
    exact hlaid.rows ▸ hrow
  have hdata : unit.data.length = unit.rows.length + unit.heap.flatten.length := by
    rw [EncodedUnit.data, List.length_append]
  have hlength : view.bytes.length = unit.data.length + fill.length := by
    rw [hbytes, List.length_append]
  have hread : view.cell column t = .ok (sliceOf unit.data
      ⟨t * (ContainerPlan.ofCells codec cells).rowLen,
        t * (ContainerPlan.ofCells codec cells).rowLen +
          (ContainerPlan.ofCells codec cells).width.bytes⟩) := by
    rw [TableView.cell, hextent, mulUsize_of_le (by dsimp only; omega), Loops.bind_ok rfl,
      hcolumn.place, addUsize_of_le (by dsimp only; omega), Loops.bind_ok rfl, hcolumn.byteWidth,
      Nat.add_zero, subslice_eq (by dsimp only; omega), hbytes, sliceOf_append_left _ (by
        dsimp only
        omega)]
  have hdescriptor : view.pqDescriptor column (ContainerPlan.ofCells codec cells).width t =
      .ok descriptor := by
    rw [TableView.pqDescriptor, if_neg (by rw [hcolumn.repeatCount]; decide), Loops.bind_ok hread]
    exact hdecode
  obtain ⟨byteLen, hlen, hle, hstop, hspan⟩ := heapRange_within (Nat.le_add_right _ _) hrange
  have hpayload : view.pqPayload descriptor column.tform.element = .ok (some cell) := by
    rw [pqPayload_eq view (by rw [hextent, hcolumn.element]; exact hrange) hle (by omega), hbytes,
      sliceOf_append_left _ (by omega), hslice]
  have hcount : 0 < descriptor.count := by
    refine Nat.pos_of_ne_zero fun hzero => hne ?_
    rw [hzero, payloadLen_zero] at hlen
    rw [← hslice, sliceOf, hspan, ← Option.some.inj hlen, List.take_zero]
  have hvla : VlaColumn.cell ⟨view, 0, column, (ContainerPlan.ofCells codec cells).width⟩ t =
      .ok ⟨cell, descriptor.count, codec.streamKind⟩ := by
    rw [VlaColumn.cell, debugAssert, if_pos (by rw [hextent]; exact ht), Loops.bind_ok rfl,
      vlaCell_eq hdescriptor hpayload, Column.validateVlaTdim, hcolumn.tdim, Loops.bind_ok rfl,
      hcolumn.element]
  have hfound : TileSources.cell (some ⟨view, 0, column, (ContainerPlan.ofCells codec cells).width⟩)
      t = .ok (some ⟨cell, descriptor.count, codec.streamKind⟩) := by
    rw [TileSources.cell, Loops.bind_ok hvla, if_pos hcount]
  exact ⟨descriptor.count, Loops.bind_ok hfound⟩

end Cells

end FitsWell
