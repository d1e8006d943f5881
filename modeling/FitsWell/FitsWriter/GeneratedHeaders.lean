import FitsWell.FitsWriter.ImageHeader
import FitsWell.Hdu.WrittenUnit
import FitsWell.ImageModel.ScalingReads

/-!
# Headers that a writer generates

What the writer sets in a header of its own comes after what is there or takes the place of a record
of the same keyword, and reads back. So the header of an image, and of a primary without data, opens
as its position asks and reads back where the template does. The header of an image gives its shape,
its type and a map that compares equal.
-/

namespace FitsWell

variable {R : Type}

section Growing

variable [RealText R]

/-! ## Headers that grow -/

/-- A header that a writer went on with: the keywords of its records stay the first ones, and its
records read back where the others' did. -/
structure Header.Grows (header next : Header R) : Prop where
  keywords : header.records.map Record.keyword <+: next.records.map Record.keyword
  readable : (∀ record ∈ header.records, record.Readable) → ∀ record ∈ next.records, record.Readable

namespace Header

variable {header next last : Header R}

theorem Grows.refl (header : Header R) : header.Grows header := ⟨List.prefix_rfl, id⟩

theorem Grows.trans (h : header.Grows next) (hlast : next.Grows last) : header.Grows last :=
  ⟨h.keywords.trans hlast.keywords, hlast.readable ∘ h.readable⟩

/-- A header that grows opens as it did. -/
theorem Grows.opensWith {keyword : Keyword} (h : header.Grows next)
    (hopens : header.opensWith = some keyword) : next.opensWith = some keyword := by
  have hhead : ∀ header : Header R,
      header.opensWith = (header.records.map Record.keyword).head?.bind id := by
    intro header
    rw [Header.opensWith, List.head?_map, Option.bind_map]
    rfl
  obtain ⟨others, hothers⟩ := h.keywords
  rw [hhead] at hopens ⊢
  rw [← hothers]
  cases hkeywords : header.records.map Record.keyword with
  | nil =>
    rw [hkeywords] at hopens
    cases hopens
  | cons first rest =>
    rw [hkeywords] at hopens
    exact hopens

/-- Steps that each grow a header grow it. -/
theorem grows_foldlM {α : Type} {step : Header R → α → Outcome (Header R)} {items : List α}
    (hstep : ∀ item ∈ items, ∀ {header next : Header R}, step header item = .ok next →
      header.Grows next)
    (h : items.foldlM step header = .ok next) : header.Grows next := by
  induction items generalizing header with
  | nil =>
    obtain rfl := Except.ok.inj h
    exact .refl _
  | cons item items ih =>
    rw [List.foldlM_cons] at h
    obtain ⟨mid, hmid, h⟩ := Loops.ok_of_bind h
    exact (hstep item List.mem_cons_self hmid).trans
      (ih (fun other hother => hstep other (List.mem_cons_of_mem _ hother)) h)

/-- A record that is added at the end. -/
theorem Follows.grows_add {record : Record R} (hrecord : record.Readable)
    (h : header.Follows next (.add header.records.length record)) : header.Grows next := by
  have hrecords : next.records = header.records ++ [record] := by
    rw [h.records, RecordChange.apply, List.take_length, List.drop_length]
  refine ⟨?_, fun hreadable other hmem => ?_⟩
  · rw [hrecords, List.map_append]
    exact List.prefix_append _ _
  · rw [hrecords] at hmem
    rcases List.mem_append.mp hmem with hmem | hmem
    · exact hreadable other hmem
    · rw [List.mem_singleton.mp hmem]
      exact hrecord

/-- A record that takes the place of another of its keyword. -/
theorem Follows.grows_replace {i : ℕ} {old record : Record R} (hold : header.records[i]? = some old)
    (hkeyword : record.keyword = old.keyword) (hrecord : old.Readable → record.Readable)
    (h : header.Follows next (.replace i record)) : header.Grows next := by
  refine ⟨?_, fun hreadable other hmem => ?_⟩
  · obtain ⟨hi, rfl⟩ := List.getElem?_eq_some_iff.mp hold
    have hi' : i < (header.records.map Record.keyword).length := by rwa [List.length_map]
    have hsame : (header.records.map Record.keyword).set i header.records[i].keyword =
        header.records.map Record.keyword := by
      conv_rhs => rw [← List.set_getElem_self hi']
      rw [List.getElem_map]
    rw [h.records, RecordChange.apply, List.map_set, hkeyword, hsame]
  · rw [h.records] at hmem
    rcases List.mem_or_eq_of_mem_set hmem with hmem | rfl
    · exact hreadable other hmem
    · exact hrecord (hreadable old (List.mem_of_getElem? hold))

/-! ## Records of the writer's own -/

section Sets

variable {keyword : Keyword} {value : Value R}

/-- A record that takes another value reads back where it did. -/
theorem readable_withValue {old record : Record R} (hvalue : value.Canonical) (hold : old.Readable)
    (h : old.withValue value = .ok record) : record.Readable := by
  unfold Record.withValue at h
  split at h
  · rw [← Except.ok.inj h]
    exact ⟨hvalue, hold.2⟩
  · rw [← Except.ok.inj h]
    exact ⟨hvalue, hold.2⟩
  · rw [← Except.ok.inj h]
    exact ⟨hvalue, nofun⟩
  · rw [← Except.ok.inj h]
    exact ⟨hvalue, nofun⟩
  · cases h
  · cases h

theorem readable_ofName {name : RecordName} {record : Record R} (hvalue : value.Canonical)
    (h : Record.ofName name value = .ok record) : record.Readable := by
  obtain ⟨_, -, h⟩ := Loops.ok_of_bind h
  cases name with
  | keyword keyword =>
    rw [← Except.ok.inj h]
    exact ⟨hvalue, nofun⟩
  | hierarch name =>
    rw [← Except.ok.inj h]
    exact ⟨hvalue, nofun⟩
  | commentary name => cases h

theorem grows_setInternal (h : header.setInternal keyword value = .ok next)
    (hvalue : value.Canonical) : header.Grows next := by
  obtain ⟨change, record, hsets, -, -, hfollows⟩ := follows_set (ok_of_expectOk h)
  rcases hsets with ⟨added, -, hadded, rfl⟩ | ⟨i, old, added, -, hold, hadded, rfl⟩
  · exact hfollows.grows_add (readable_ofName hvalue hadded)
  · exact hfollows.grows_replace hold (Record.keys_withValue hadded).1
      fun hread => readable_withValue hvalue hread hadded

theorem grows_setCommentInternal {text : Text}
    (h : header.setCommentInternal keyword text = .ok next) (hempty : text ≠ [])
    (htrim : trim text = text) : header.Grows next := by
  obtain ⟨i, old, record, -, hold, hrecord, -, hfollows⟩ := follows_setComment (ok_of_expectOk h)
  refine hfollows.grows_replace hold (Record.keys_withComment hrecord).1 fun hread => ?_
  have htrimmed : TrimmedComment (some text) := by
    intro other hother
    rw [← Option.some.inj hother]
    exact ⟨hempty, htrim⟩
  cases old with
  | valued own value comment =>
    rw [← Except.ok.inj hrecord]
    exact ⟨hread.1, htrimmed⟩
  | hierarch name value comment =>
    rw [← Except.ok.inj hrecord]
    exact ⟨hread.1, htrimmed⟩
  | malformed name raw defect => cases hrecord
  | commentary name own => cases hrecord

theorem grows_setCommented {comment : Text}
    (h : header.setCommented keyword value comment = .ok next) (hvalue : value.Canonical)
    (hempty : comment ≠ []) (htrim : trim comment = comment) : header.Grows next := by
  obtain ⟨mid, hmid, h⟩ := Loops.ok_of_bind h
  exact (grows_setInternal hmid hvalue).trans (grows_setCommentInternal h hempty htrim)

theorem grows_setAll {entries : List (Keyword × Value R)} (h : header.setAll entries = .ok next)
    (hvalues : ∀ entry ∈ entries, entry.2.Canonical) : header.Grows next :=
  grows_foldlM (fun entry hentry _ _ hset => grows_setInternal hset (hvalues entry hentry)) h

theorem grows_setIndexed {root : Keyword} {lengths : List ℕ}
    (h : header.setIndexed root lengths = .ok next) : header.Grows next := by
  refine grows_foldlM (fun length _ header next hset => ?_) h
  obtain ⟨keyword, -, hset⟩ := Loops.ok_of_bind hset
  obtain ⟨count, -, hset⟩ := Loops.ok_of_bind hset
  exact grows_setInternal hset trivial

/-- The record that a writer opens a new header with. -/
theorem opens_setCommented {comment : Text}
    (h : (Header.new : Header R).setCommented keyword value comment = .ok next) :
    next.opensWith = some keyword := by
  obtain ⟨mid, hmid, h⟩ := Loops.ok_of_bind h
  obtain ⟨change, record, hsets, -, -, hfollows⟩ := follows_set (ok_of_expectOk hmid)
  rcases hsets with ⟨added, -, hadded, rfl⟩ | ⟨i, old, added, -, hold, hadded, rfl⟩
  · obtain ⟨_, -, hadded⟩ := Loops.ok_of_bind hadded
    obtain rfl := Except.ok.inj hadded
    obtain ⟨i, own, record, -, hown, hrecord, -, hnext⟩ := follows_setComment (ok_of_expectOk h)
    have hmidRecords : mid.records = [.valued keyword value none] := hfollows.records
    rw [hmidRecords] at hown
    have hi := (List.getElem?_eq_some_iff.mp hown).1
    obtain rfl : i = 0 := by
      rw [List.length_singleton] at hi
      omega
    obtain rfl := Option.some.inj hown
    obtain rfl := Except.ok.inj hrecord
    rw [opensWith, hnext.records, hmidRecords]
    rfl
  · cases hold

end Sets

/-! ## Templates -/

/-- What a template gives comes after the header's own records. -/
theorem grows_withTemplate {template : Option (Header R)}
    (htemplate : ∀ own, template = some own → ∀ record ∈ own.records, record.Readable) :
    header.Grows (header.withTemplate template) := by
  cases template with
  | none => exact .refl header
  | some template =>
    have hrecords : (header.withTemplate (some template)).records = header.records ++
        template.records.filter fun record =>
          record.keyword.all fun own => !ReservedKeywords.isGenerated own := rfl
    refine ⟨?_, fun hold record hmem => ?_⟩
    · rw [hrecords, List.map_append]
      exact List.prefix_append _ _
    · rw [hrecords] at hmem
      rcases List.mem_append.mp hmem with hmem | hmem
      · exact hold record hmem
      · exact htemplate template rfl record (List.mem_filter.mp hmem).1

end Header

end Growing

/-! ## Structural headers -/

section Generated

variable [PlaneReals R]

/-- A header that grows is found where it was. -/
theorem Header.Scannable.grows {header next : Header R} {position : HduPosition}
    (h : header.Scannable position) (hgrows : header.Grows next) : next.Scannable position :=
  ⟨hgrows.readable h.readable, hgrows.opensWith h.opens⟩

/-- Where an HDU that opens so goes. -/
def Opening.position : Opening → HduPosition
  | .primary => .primary
  | .extension _ => .extension

theorem Prologue.scannable {prologue : Prologue} {header : Header R}
    (h : prologue.header = .ok header) : header.Scannable prologue.opening.position := by
  unfold Prologue.header at h
  split at h
  · cases h
  obtain ⟨start, hstart, h⟩ := Loops.ok_of_bind h
  obtain ⟨typed, htyped, h⟩ := Loops.ok_of_bind h
  obtain ⟨naxis, -, h⟩ := Loops.ok_of_bind h
  obtain ⟨counted, hcounted, h⟩ := Loops.ok_of_bind h
  obtain ⟨sized, hsized, h⟩ := Loops.ok_of_bind h
  have hnew : ∀ record ∈ (Header.new : Header R).records, record.Readable := by
    intro record hmem
    cases hmem
  have hstarts : start.Scannable prologue.opening.position := by
    unfold opened at hstart
    cases hopening : prologue.opening with
    | primary =>
      rw [hopening] at hstart
      exact ⟨(Header.grows_setCommented hstart trivial (by decide) (by decide)).readable hnew,
        Header.opens_setCommented hstart⟩
    | extension kind =>
      rw [hopening] at hstart
      have hgrows : (Header.new : Header R).Grows start := by
        have htext : dropInsignificant kind.record.1 = kind.record.1 := by cases kind <;> decide
        cases kind <;> exact Header.grows_setCommented hstart htext (by decide) (by decide)
      exact ⟨hgrows.readable hnew, Header.opens_setCommented hstart⟩
  have hclosed : sized.Grows header := by
    unfold closed at h
    split at h
    · obtain ⟨_, -, h⟩ := Loops.ok_of_bind h
      exact Header.grows_setCommented h trivial (by decide) (by decide)
    · obtain ⟨pcount, -, h⟩ := Loops.ok_of_bind h
      refine Header.grows_setAll h fun entry hentry => ?_
      simp only [List.mem_cons, List.not_mem_nil, or_false] at hentry
      rcases hentry with rfl | rfl <;> trivial
  exact hstarts.grows <| (Header.grows_setCommented htyped trivial (by decide) (by decide)).trans <|
    (Header.grows_setCommented hcounted trivial (by decide) (by decide)).trans <|
      (Header.grows_setIndexed hsized).trans hclosed

theorem Scaling.grows_addToHeader {scaling : Scaling R} {bitpix : Bitpix} {header next : Header R}
    (h : scaling.addToHeader header bitpix = .ok next) : header.Grows next := by
  obtain ⟨_, -, h⟩ := Loops.ok_of_bind h
  obtain ⟨mapped, hmap, h⟩ := Loops.ok_of_bind h
  have hmapped : header.Grows mapped := by
    unfold addMap at hmap
    split at hmap
    · rw [Except.ok.inj hmap]
      exact .refl _
    · refine Header.grows_setAll hmap fun entry hentry => ?_
      simp only [List.mem_cons, List.not_mem_nil, or_false] at hentry
      rcases hentry with rfl | rfl
      · unfold zeroValue
        dsimp only
        split <;> trivial
      · trivial
  refine hmapped.trans ?_
  unfold addBlank at h
  split at h
  · rw [Except.ok.inj h]
    exact .refl _
  · exact Header.grows_setInternal h trivial

/-- The header of an image opens as its position asks, and reads back. -/
theorem scannable_imageHeader {layout : Metadata R} {position : HduPosition} {base : Header R}
    (h : imageHeader layout position = .ok base) : base.Scannable position := by
  obtain ⟨start, hstart, hscaling⟩ := Loops.ok_of_bind h
  have hstarts := Prologue.scannable hstart
  have hposition : (imagePrologue layout position).opening.position = position := by
    cases position <;> rfl
  rw [hposition] at hstarts
  exact hstarts.grows (Scaling.grows_addToHeader hscaling)

/-- So does the header of a primary without data. -/
theorem scannable_emptyPrimaryHeader {header : Header R}
    (h : (emptyPrimaryHeader : Outcome (Header R)) = .ok header) : header.Scannable .primary :=
  Prologue.scannable h

end Generated

/-! ## The image of a header -/

section ImageHeaders

variable [PlaneReals R]

/-- The header of a primary has no counts of groups. -/
theorem Prologue.noCounts {prologue : Prologue} {header : Header R} {keyword : Keyword}
    (hopening : prologue.opening = .primary) (hkeyword : keyword ∈ [Keyword.PCOUNT, .GCOUNT])
    (h : prologue.header = .ok header) : header.value (.keyword keyword) = .ok none := by
  unfold Prologue.header at h
  split at h
  · cases h
  obtain ⟨start, hstart, h⟩ := Loops.ok_of_bind h
  obtain ⟨typed, htyped, h⟩ := Loops.ok_of_bind h
  obtain ⟨naxis, -, h⟩ := Loops.ok_of_bind h
  obtain ⟨counted, hcounted, h⟩ := Loops.ok_of_bind h
  obtain ⟨sized, hsized, h⟩ := Loops.ok_of_bind h
  obtain ⟨-, hblank⟩ := value_opened hstart
  obtain ⟨-, htyped⟩ := Header.value_setCommented htyped
  obtain ⟨-, hcounted⟩ := Header.value_setCommented hcounted
  obtain ⟨hsized, -⟩ := Header.value_setIndexed hsized
  unfold closed at h
  rw [hopening] at h
  obtain ⟨_, -, h⟩ := Loops.ok_of_bind h
  obtain ⟨-, hclosed⟩ := Header.value_setCommented h
  have hne : keyword ≠ .EXTEND ∧ keyword ≠ .NAXIS ∧ keyword ≠ .BITPIX ∧ keyword ≠ .SIMPLE ∧
      keyword ≠ .XTENSION ∧ keyword.name.head? ≠ some 0x4e := by
    simp only [List.mem_cons, List.not_mem_nil, or_false] at hkeyword
    rcases hkeyword with rfl | rfl <;> decide
  rw [hclosed _ hne.1, hsized _ fun n hn => hne.2.2.2.2.2 (Header.head?_indexed hn),
    hcounted _ hne.2.1, htyped _ hne.2.2.1, hblank _ hne.2.2.2.1 hne.2.2.2.2.1]

/-- A plain image has no groups. -/
theorem optionalCounts_imageHeader {layout : Metadata R} {position : HduPosition} {base : Header R}
    (h : imageHeader layout position = .ok base) (template : Option (Header R)) :
    (base.withTemplate template).optionalUsize .PCOUNT 0 = .ok 0 ∧
      (base.withTemplate template).optionalUsize .GCOUNT 1 = .ok 1 := by
  obtain ⟨start, hstart, hvalues⟩ := value_imageHeader h
  have hpcount := hvalues template .PCOUNT (by decide) (by decide)
  have hgcount := hvalues template .GCOUNT (by decide) (by decide)
  cases position with
  | primary =>
    exact ⟨Header.optionalUsize_of_none (hpcount.trans (Prologue.noCounts rfl (by decide) hstart)),
      Header.optionalUsize_of_none (hgcount.trans (Prologue.noCounts rfl (by decide) hstart))⟩
  | extension =>
    obtain ⟨-, hown, hgroups⟩ := (Prologue.reads hstart).counts .image rfl
    exact ⟨Header.optionalUsize_of_value (by decide) (hpcount.trans hown),
      Header.optionalUsize_of_value (by decide) (hgcount.trans hgroups)⟩

/-- The header of an image gives its shape, its type and its map. -/
theorem geometry_imageHeader [LawfulPlane R] {layout : Metadata R} {position : HduPosition}
    {base : Header R} {len : ℕ} (h : imageHeader layout position = .ok base)
    (template : Option (Header R)) (hlen : shapeProduct layout.shape = .ok len)
    (hwords : ∀ blank, layout.scaling.blank = some blank → FitsI64 blank) : ∃ read,
    ImageGeometry.fromHeader (base.withTemplate template) (imageKind position) =
      .ok ⟨layout.shape, layout.bitpix, read, len, hlen⟩ ∧ layout.scaling.Same read := by
  have hdescribes := describes_imageHeader h template
  obtain ⟨hpcount, hgcount⟩ := optionalCounts_imageHeader h template
  obtain ⟨start, hstart, hscaling⟩ := Loops.ok_of_bind h
  have hothers := (Prologue.reads hstart).others
  obtain ⟨hown, hvalid⟩ := Scaling.readsIn_addToHeader hscaling fun keyword hmem => by
    simp only [scalingKeywords, List.mem_cons, List.not_mem_nil, or_false] at hmem
    rcases hmem with rfl | rfl | rfl <;> exact hothers _ (by decide) (by decide)
  have hreads : layout.scaling.ReadsIn layout.bitpix (base.withTemplate template) :=
    ⟨(Header.value_withTemplate (by decide)).trans hown.bscale,
      (Header.value_withTemplate (by decide)).trans hown.bzero,
      (Header.value_withTemplate (by decide)).trans hown.blank⟩
  obtain ⟨read, hread, hsame, -⟩ := hreads.fromHeader hvalid hwords
  refine ⟨read, ?_, hsame⟩
  have hnew := ImageGeometry.new_of_scaling hlen hread
  cases position with
  | primary =>
    rw [imageKind, ImageGeometry.fromHeader, Loops.bind_ok hpcount, Loops.bind_ok hgcount,
      if_neg (by decide), Loops.bind_ok hdescribes.axes, Loops.bind_ok hdescribes.bitpix, hnew]
  | extension =>
    rw [imageKind, ImageGeometry.fromHeader, Loops.bind_ok hpcount, Loops.bind_ok hgcount,
      if_neg (by decide), Loops.bind_ok hdescribes.axes, Loops.bind_ok hdescribes.bitpix, hnew]

end ImageHeaders

section Same

variable [PlaneReals R] {one other : Header R} (h : one.Agrees other)

include h

theorem Header.Agrees.getReal {keyword : Keyword} (hplain : ¬IsChecksumKeyword keyword) :
    one.getReal keyword = other.getReal keyword := h.typedOptional hplain _ _

theorem Header.Agrees.optionalUsize {keyword : Keyword} (hplain : ¬IsChecksumKeyword keyword)
    (default : ℕ) : one.optionalUsize keyword default = other.optionalUsize keyword default := by
  rw [Header.optionalUsize, Header.optionalUsize, h.getInteger hplain]

theorem Header.Agrees.scaling (bitpix : Bitpix) :
    Scaling.fromHeader one bitpix = Scaling.fromHeader other bitpix := by
  have hblank : Scaling.readBlank one bitpix = Scaling.readBlank other bitpix := by
    unfold Scaling.readBlank
    rw [h.getInteger (by decide)]
  rw [Scaling.fromHeader, Scaling.fromHeader, h.getReal (by decide), h.getReal (by decide), hblank]

/-- Headers that agree give a plain image alike. -/
theorem Header.Agrees.geometry (position : HduPosition) :
    ImageGeometry.fromHeader one (imageKind position) =
      ImageGeometry.fromHeader other (imageKind position) := by
  have hnew : ∀ (shape : List ℕ) (bitpix : Bitpix),
      ImageGeometry.new one shape bitpix = ImageGeometry.new other shape bitpix := by
    intro shape bitpix
    unfold ImageGeometry.new
    rw [h.scaling]
  cases position with
  | primary =>
    rw [imageKind, ImageGeometry.fromHeader, ImageGeometry.fromHeader, h.optionalUsize (by decide),
      h.optionalUsize (by decide), h.axes, h.bitpix]
    simp only [hnew]
  | extension =>
    rw [imageKind, ImageGeometry.fromHeader, ImageGeometry.fromHeader, h.optionalUsize (by decide),
      h.optionalUsize (by decide), h.axes, h.bitpix]
    simp only [hnew]

end Same

end FitsWell
