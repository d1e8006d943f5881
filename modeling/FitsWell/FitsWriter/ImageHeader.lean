import FitsWell.Compression.TileOdometer
import FitsWell.FitsWriter.Writes
import FitsWell.HeaderModel.ValueReads

/-!
# What the header of an image says

Its position, its kind and the length of its data unit are those of the image, whatever template it
takes records of.
-/

namespace FitsWell

open Checksum (accumulate)

variable {R : Type} [PlaneReals R]

namespace Header

variable {header : Header R} {keyword : Keyword}

theorem requiredCount_of_value {size : ℕ} (hfits : size < 2 ^ 63)
    (h : header.value (.keyword keyword) = .ok (some (.ofInt size))) :
    requiredCount header keyword = .ok size := by
  have hnonneg : ¬(size : ℤ) < 0 := by omega
  rw [requiredCount, Loops.bind_ok (getInteger_of_value (by omega) h), orMissing, Loops.bind_ok rfl,
    if_neg hnonneg, Int.toNat_natCast]

end Header

/-- The kind of an image at a position. -/
def imageKind : HduPosition → HduKind
  | .primary => .primary
  | .extension => .image

/-- A header places and measures an HDU as the image of this layout. -/
structure DescribesImage (header : Header R) (layout : Metadata R) (position : HduPosition) :
    Prop where
  goes : placed header position = .ok position
  kind : HduKind.fromHeader header position = .ok (imageKind position)
  bitpix : header.bitpix = .ok layout.bitpix
  axes : header.axes = .ok layout.shape
  counts : position = .extension →
    requiredCount header .PCOUNT = .ok 0 ∧ requiredCount header .GCOUNT = .ok 1
  noSum : header.value (.keyword .DATASUM) = .ok none

omit [PlaneReals R] in
/-- What the writer generates is not taken from a template. -/
theorem Header.value_withTemplate {header : Header R} {template : Option (Header R)}
    {keyword : Keyword} (h : ReservedKeywords.isGenerated keyword = true) :
    (header.withTemplate template).value (.keyword keyword) = header.value (.keyword keyword) := by
  cases template with
  | none => rfl
  | some template => exact Header.value_mergeHeaderTemplate h

/-- The keywords of the prologue read through the scaling and the template. -/
theorem value_imageHeader {layout : Metadata R} {position : HduPosition} {base : Header R}
    (h : imageHeader layout position = .ok base) : ∃ start,
    (imagePrologue layout position).header = .ok start ∧
      ∀ (template : Option (Header R)) (keyword : Keyword),
        ReservedKeywords.isGenerated keyword = true →
        keyword ≠ .BZERO ∧ keyword ≠ .BSCALE ∧ keyword ≠ .BLANK →
        (base.withTemplate template).value (.keyword keyword) = start.value (.keyword keyword) := by
  obtain ⟨start, hstart, hscaling⟩ := Loops.ok_of_bind h
  refine ⟨start, hstart, fun template keyword hgenerated hother => ?_⟩
  rw [← Scaling.value_addToHeader hscaling hother]
  exact Header.value_withTemplate hgenerated

/-- A header whose structural keywords read as the prologue of an image does describes it. -/
theorem describes_of_values {layout : Metadata R} {position : HduPosition} {start header : Header R}
    (h : (imagePrologue layout position).header = .ok start)
    (hvalues : ∀ keyword : Keyword, ReservedKeywords.isGenerated keyword = true →
      keyword ≠ .BZERO ∧ keyword ≠ .BSCALE ∧ keyword ≠ .BLANK →
      header.value (.keyword keyword) = start.value (.keyword keyword)) :
    DescribesImage header layout position := by
  have hreads := Prologue.reads h
  have hsame : ∀ keyword ∈ ReservedKeywords.STRUCTURE,
      keyword ≠ .BZERO ∧ keyword ≠ .BSCALE ∧ keyword ≠ .BLANK →
      header.value (.keyword keyword) = start.value (.keyword keyword) :=
    fun keyword hmem => hvalues keyword (ReservedKeywords.isGenerated_of_mem hmem)
  have hopens := hreads.opening
  refine ⟨?_, ?_, ?_, ?_, ?_, ?_⟩
  · cases position with
    | primary =>
      rw [placed, if_pos rfl, hsame _ (by decide) (by decide), hopens.2]
      rfl
    | extension => rfl
  · cases position with
    | primary =>
      have hsimple := Header.getLogical_of_value ((hsame .SIMPLE (by decide) (by decide)).trans hopens.1)
      have hgroups := Header.getLogical_of_none ((hsame .GROUPS (by decide) (by decide)).trans
        (hreads.others _ (by decide) (by decide)))
      rw [HduKind.fromHeader, HduKind.ofPrimary, Loops.bind_ok hsimple, orMissing, Loops.bind_ok rfl,
        Loops.bind_ok hgroups]
      rfl
    | extension =>
      have hxtension := Header.getText_of_value ((hsame .XTENSION (by decide) (by decide)).trans hopens)
      rw [HduKind.fromHeader, HduKind.ofExtension, Loops.bind_ok hxtension, orMissing,
        Loops.bind_ok rfl]
      rfl
  · refine Header.bitpix_of_value ?_
    rw [hsame _ (by decide) (by decide)]
    exact hreads.bitpix
  · refine Header.axes_of_values hreads.naxis.1 ?_ fun i length hlength => ?_
    · rw [hsame _ (by decide) (by decide)]
      exact hreads.naxis.2
    · obtain ⟨keyword, hkeyword, hfits, hvalue⟩ := hreads.axes i length hlength
      refine ⟨keyword, hkeyword, hfits, (hvalues keyword ?_ ?_).trans hvalue⟩
      · have hcount := hreads.naxis.1
        have hi := (List.getElem?_eq_some_iff.mp hlength).1
        have hword : usizeMax = 18446744073709551615 := rfl
        have haxis : i < (imagePrologue layout position).axes.length := hi
        exact ReservedKeywords.isGenerated_axis (Nat.succ_pos i) (by omega) hkeyword
      · have hhead : keyword.name.head? = some 0x4e := Header.head?_indexed hkeyword
        refine ⟨?_, ?_, ?_⟩ <;> rintro rfl <;> exact absurd hhead (by decide)
  · rintro rfl
    obtain ⟨-, hpcount, hgcount⟩ := hreads.counts .image rfl
    exact ⟨Header.requiredCount_of_value (by decide)
        ((hsame .PCOUNT (by decide) (by decide)).trans hpcount),
      Header.requiredCount_of_value (by decide)
        ((hsame .GCOUNT (by decide) (by decide)).trans hgcount)⟩
  · exact (hsame .DATASUM (by decide) (by decide)).trans (hreads.others _ (by decide) (by decide))

/-- An image's header describes it, whatever its template. -/
theorem describes_imageHeader {layout : Metadata R} {position : HduPosition} {base : Header R}
    (h : imageHeader layout position = .ok base) (template : Option (Header R)) :
    DescribesImage (base.withTemplate template) layout position := by
  obtain ⟨start, hstart, hvalues⟩ := value_imageHeader h
  exact describes_of_values hstart (hvalues template)

theorem axisProduct_zero (axes : List ℕ) : axisProduct axes 0 = shapeProduct axes := by
  unfold axisProduct shapeProduct
  by_cases hzero : 0 ∈ axes
  · rw [if_pos hzero, if_pos (Or.inr hzero)]
  cases axes with
  | nil => rfl
  | cons first rest =>
    rw [if_neg hzero, if_neg (not_or.mpr ⟨List.cons_ne_nil _ _, hzero⟩)]
    show orOverflow ((first :: rest).foldlM checkedMul 1) = _
    cases (first :: rest).foldlM checkedMul 1 <;> rfl

/-- The data unit of an image has its samples' bytes, where they round up to whole blocks. -/
theorem DescribesImage.dataBytes_of_padded {header : Header R} {layout : Metadata R}
    {position : HduPosition} {samples padded : ℕ} (h : DescribesImage header layout position)
    (hsamples : shapeProduct layout.shape = .ok samples)
    (hpadded : paddedLen (samples * layout.bitpix.elemSize) = some padded) :
    (imageKind position).dataBytes header = .ok (samples * layout.bitpix.elemSize) := by
  have hword : usizeMax = 18446744073709551615 := rfl
  have hbytes : samples * layout.bitpix.elemSize ≤ usizeMax := by
    obtain ⟨hmax, hvalue⟩ := checkedMul_eq_some_iff.mp hpadded
    exact (paddedLen_eq_some hpadded).1.trans (hvalue ▸ hmax)
  have hunit : (imageKind position).unitBytes layout.bitpix.elemSize layout.shape header =
      .ok (samples * layout.bitpix.elemSize) := by
    have hsize := layout.bitpix.elemSize_pos
    have hcount := (Nat.le_mul_of_pos_right samples hsize).trans hbytes
    have hproduct : axisProduct layout.shape 0 = .ok samples := by rw [axisProduct_zero, hsamples]
    rw [Nat.mul_comm] at hbytes
    cases position with
    | primary =>
      rw [imageKind, HduKind.unitBytes, Loops.bind_ok hproduct, Nat.mul_comm samples]
      rw [checkedMul, if_pos hbytes]
      rfl
    | extension =>
      obtain ⟨hpcount, hgcount⟩ := h.counts rfl
      have helem : layout.bitpix.elemSize ≤ 8 := by cases layout.bitpix <;> decide
      have hgroup : orOverflow (checkedAdd 0 samples) = .ok samples := by
        rw [checkedAdd, if_pos (by omega), Nat.zero_add]
        rfl
      show (axisProduct layout.shape 0 >>= fun elements =>
        groupedDataBytes layout.bitpix.elemSize elements header) = _
      rw [Loops.bind_ok hproduct, groupedDataBytes, Loops.bind_ok hpcount,
        Loops.bind_ok hgcount, Loops.bind_ok hgroup, checkedMul, Nat.mul_one, if_pos (by omega),
        Option.bind_some, checkedMul, Nat.mul_comm samples, if_pos hbytes]
      rfl
  rw [HduKind.dataBytes, Loops.bind_ok h.bitpix, Loops.bind_ok h.axes, Loops.bind_ok hunit, hpadded]
  rfl

/-- Samples that an image holds have a data unit of their bytes. -/
theorem DescribesImage.dataBytes {header : Header R} {layout : Metadata R} {position : HduPosition}
    {samples : ℕ} (h : DescribesImage header layout position)
    (hsamples : shapeProduct layout.shape = .ok samples)
    (hbytes : samples * layout.bitpix.elemSize ≤ isizeMax) :
    (imageKind position).dataBytes header = .ok (samples * layout.bitpix.elemSize) := by
  have hword : usizeMax = 18446744073709551615 := rfl
  have hmax : isizeMax = 9223372036854775807 := rfl
  refine @DescribesImage.dataBytes_of_padded R _ header layout position samples
    (blocksFor (samples * layout.bitpix.elemSize) * blockSize) h hsamples (if_pos ?_)
  unfold blocksFor blockSize
  omega

/-! ## The write of an image -/

/-- The fill of an image is zeros. -/
theorem fill_imageKind (position : HduPosition) (len : ℕ) :
    (imageKind position).fill len = zeroFill len := by
  cases position <;> rfl

/-- An image has the bytes that its header declares. -/
theorem checkLength_image {image : Borrowed R} {header : Header R} {position : HduPosition}
    (h : DescribesImage header image.metadata position) :
    (Body.samples image.samples : Body R).checkLength (imageKind position) header =
      .ok image.samples.encode.length := by
  have hheld : image.samples.len * image.samples.bitpix.elemSize ≤ isizeMax := image.samples.held
  have hbytes := h.dataBytes image.counted hheld
  have hword : isizeMax ≤ usizeMax := by decide
  have hlen : (Body.samples image.samples : Body R).byteLen =
      .ok (image.samples.len * image.samples.bitpix.elemSize) := by
    rw [Body.byteLen, checkedMul, if_pos (hheld.trans hword)]
    rfl
  rw [Body.checkLength, Loops.bind_ok hbytes, Loops.bind_ok hlen, View.length_encode]
  exact if_pos rfl

namespace FitsWriter

/-- An image whose header renders is ready to be written. -/
theorem prepared_image {writer : FitsWriter} {image : Borrowed R} {template : Option (Header R)}
    {next : HduPosition} {base : Header R} {signing : Signing} {head : Text}
    (husable : writer.nextPosition = .ok next)
    (hopened : imageHeader image.metadata next = .ok base)
    (hsigning : writer.form.signing (accumulate (image.samples.encode ++
      zeroFill image.samples.encode.length) 0) = .ok signing)
    (hrendered : (base.withTemplate template).renderInto signing writer.form.space = .ok head) :
    writer.prepared (.image image template) =
      .ok (⟨base, template, .samples image.samples⟩,
        ⟨none, head, zeroFill image.samples.encode.length⟩) := by
  have hdescribes := describes_imageHeader hopened template
  have hcommit : (HduWrite.image image template).commit next =
      .ok ⟨base, template, .samples image.samples⟩ := Loops.bind_ok hopened
  have hfill : (zeroFill image.samples.encode.length).length =
      padding (Body.samples image.samples : Body R).data.length := List.length_replicate
  have hprimary : writer.leadingPrimary R next next = .ok none := by
    rw [leadingPrimary, if_neg]
    rintro ⟨rfl, hextension⟩
    cases hextension
  have hsigned : writer.form.signing (accumulate ((Body.samples image.samples : Body R).data ++
      zeroFill image.samples.encode.length) 0) = .ok signing := hsigning
  rw [prepared, Loops.bind_ok husable, Loops.bind_ok hcommit, readied, rendered,
    Loops.bind_ok husable]
  dsimp only
  rw [Loops.bind_ok hdescribes.goes, Loops.bind_ok hdescribes.kind,
    Loops.bind_ok (checkLength_image hdescribes), fill_imageKind, Body.dataSum_eq _ hfill,
    Loops.bind_ok hsigned, Loops.bind_ok hprimary, Loops.bind_ok hrendered]
  rfl

end FitsWriter

/-- An image whose one axis is empty. -/
def emptyRow : Borrowed ℤ where
  shape := [0]
  scaling := ⟨1, 0, none⟩
  samples := ⟨.u8, [], by decide⟩
  counted := rfl

end FitsWell
