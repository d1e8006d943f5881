import FitsWell.HeaderModel.SetReads

/-!
# The prologue of a header

The structural records that an HDU's header opens with, in their order: the opening record,
`BITPIX`, `NAXIS`, the axes, then `EXTEND` of a primary, or `PCOUNT` and `GCOUNT` of an extension.
-/

namespace FitsWell

variable {R : Type} [RealText R]

/-- The kind an `XTENSION` names, of those that are written. -/
inductive Xtension
  | image
  | table
  | binTable
  deriving DecidableEq, Repr

/-- The name and the comment of an `XTENSION`. -/
def Xtension.record : Xtension → Text × Text
  | .image => (ascii "IMAGE", ascii "image extension")
  | .table => (ascii "TABLE", ascii "ASCII table extension")
  | .binTable => (ascii "BINTABLE", ascii "binary table extension")

/-- What a header opens with. -/
inductive Opening
  | primary
  | extension (kind : Xtension)
  deriving DecidableEq, Repr

/-- What the opening record of a header reads as. -/
def Header.Opens {R : Type} (header : Header R) : Opening → Prop
  | .primary => header.value (.keyword .SIMPLE) = .ok (some (.logical true)) ∧
    header.value (.keyword .XTENSION) = .ok none
  | .extension kind => header.value (.keyword .XTENSION) = .ok (some (.text kind.record.1))

/-- The structural records of a header. A primary has no heap. -/
structure Prologue where
  opening : Opening
  bitpix : Bitpix
  axes : List ℕ
  pcount : ℕ

namespace Prologue

/-- The header before its `BITPIX`. -/
def opened (prologue : Prologue) : Outcome (Header R) :=
  match prologue.opening with
  | .primary =>
    Header.new.setCommented .SIMPLE (.logical true) (ascii "file conforms to FITS standard")
  | .extension kind => Header.new.setCommented .XTENSION (.text kind.record.1) kind.record.2

/-- The records after the axes. -/
def closed (prologue : Prologue) (header : Header R) : Outcome (Header R) :=
  match prologue.opening with
  | .primary => do
    debugAssert (prologue.pcount = 0)
    header.setCommented .EXTEND (.logical true) (ascii "extensions may follow")
  | .extension _ => do
    let pcount ← fitsI64 prologue.pcount
    header.setAll [(.PCOUNT, .ofInt pcount), (.GCOUNT, .ofInt 1)]

/-- A header that holds these records. -/
def header (prologue : Prologue) : Outcome (Header R) :=
  if 999 < prologue.axes.length then
    fail (.invalidKeywordValue Keyword.NAXIS.asStr .ofRange)
  else do
    let header ← prologue.opened
    let header ← header.setCommented .BITPIX (.ofInt prologue.bitpix.code)
      (ascii "number of bits per data value")
    let naxis ← fitsI64 prologue.axes.length
    let header ← header.setCommented .NAXIS (.ofInt naxis) (ascii "number of data axes")
    let header ← header.setIndexed .NAXIS prologue.axes
    prologue.closed header

/-- What the keywords of a header that holds these records read as. -/
structure Reads (prologue : Prologue) (header : Header R) : Prop where
  opening : header.Opens prologue.opening
  counts : ∀ kind, prologue.opening = .extension kind → prologue.pcount < 2 ^ 63 ∧
    header.value (.keyword .PCOUNT) = .ok (some (.ofInt prologue.pcount)) ∧
    header.value (.keyword .GCOUNT) = .ok (some (.ofInt 1))
  bitpix : header.value (.keyword .BITPIX) = .ok (some (.ofInt prologue.bitpix.code))
  naxis : prologue.axes.length ≤ 999 ∧
    header.value (.keyword .NAXIS) = .ok (some (.ofInt prologue.axes.length))
  axes : ∀ (i length : ℕ), prologue.axes[i]? = some length → ∃ keyword,
    Keyword.NAXIS.indexed (i + 1) = .ok keyword ∧ length < 2 ^ 63 ∧
      header.value (.keyword keyword) = .ok (some (.ofInt length))
  others : ∀ keyword : Keyword, keyword.name.head? ≠ some 0x4e →
    keyword ∉ [Keyword.SIMPLE, .XTENSION, .BITPIX, .EXTEND, .PCOUNT, .GCOUNT] →
      header.value (.keyword keyword) = .ok none

omit [RealText R] in
theorem value_new (name : RecordName) : (Header.new : Header R).value name = .ok none := by
  rw [Header.value_eq]
  rfl

/-- The records before `BITPIX`. -/
theorem value_opened {prologue : Prologue} {header : Header R} (h : prologue.opened = .ok header) :
    header.Opens prologue.opening ∧ ∀ keyword : Keyword, keyword ≠ .SIMPLE → keyword ≠ .XTENSION →
      header.value (.keyword keyword) = .ok none := by
  unfold opened at h
  cases hopening : prologue.opening with
  | primary =>
    rw [hopening] at h
    obtain ⟨hvalue, hkept⟩ := Header.value_setCommented h
    exact ⟨⟨hvalue, (hkept _ (by decide)).trans (value_new _)⟩,
      fun keyword hne _ => (hkept keyword hne).trans (value_new _)⟩
  | extension kind =>
    rw [hopening] at h
    obtain ⟨hvalue, hkept⟩ := Header.value_setCommented h
    exact ⟨hvalue, fun keyword _ hne => (hkept keyword hne).trans (value_new _)⟩

/-- The records after the axes. -/
theorem value_closed {prologue : Prologue} {header next : Header R}
    (h : prologue.closed header = .ok next) :
    (∀ kind, prologue.opening = .extension kind → prologue.pcount < 2 ^ 63 ∧
      next.value (.keyword .PCOUNT) = .ok (some (.ofInt prologue.pcount)) ∧
      next.value (.keyword .GCOUNT) = .ok (some (.ofInt 1))) ∧
    ∀ keyword : Keyword, keyword ∉ [Keyword.EXTEND, .PCOUNT, .GCOUNT] →
      next.value (.keyword keyword) = header.value (.keyword keyword) := by
  unfold closed at h
  cases hopening : prologue.opening with
  | primary =>
    rw [hopening] at h
    obtain ⟨_, -, h⟩ := Loops.ok_of_bind h
    obtain ⟨-, hkept⟩ := Header.value_setCommented h
    exact ⟨nofun, fun keyword hother => hkept keyword (List.ne_of_not_mem_cons hother)⟩
  | extension kind =>
    rw [hopening] at h
    obtain ⟨pcount, hpcount, h⟩ := Loops.ok_of_bind h
    unfold fitsI64 at hpcount
    split at hpcount
    · rename_i hfits
      obtain rfl := Except.ok.inj hpcount
      obtain ⟨hkept, hgiven⟩ := Header.value_setAll h
      have hnodup : [Keyword.PCOUNT, Keyword.GCOUNT].Nodup := by decide
      refine ⟨fun _ _ => ⟨hfits, hgiven hnodup _ List.mem_cons_self,
        hgiven hnodup _ (List.mem_cons_of_mem _ List.mem_cons_self)⟩, fun keyword hother => ?_⟩
      exact hkept keyword fun hmem => hother (List.mem_cons_of_mem _ hmem)
    · cases hpcount

/-- A header that is made of these records reads as they do. -/
theorem reads {prologue : Prologue} {header : Header R} (h : prologue.header = .ok header) :
    prologue.Reads header := by
  unfold Prologue.header at h
  split at h
  · cases h
  rename_i hcount
  obtain ⟨start, hstart, h⟩ := Loops.ok_of_bind h
  obtain ⟨typed, htyped, h⟩ := Loops.ok_of_bind h
  obtain ⟨naxis, hnaxis, h⟩ := Loops.ok_of_bind h
  obtain ⟨counted, hcounted, h⟩ := Loops.ok_of_bind h
  obtain ⟨sized, hsized, h⟩ := Loops.ok_of_bind h
  obtain ⟨hopens, hblank⟩ := value_opened hstart
  obtain ⟨hbitpix, htyped⟩ := Header.value_setCommented htyped
  obtain ⟨hnaxisValue, hcounted⟩ := Header.value_setCommented hcounted
  obtain ⟨hsizedKept, haxes⟩ := Header.value_setIndexed hsized
  obtain ⟨hends, hclosed⟩ := value_closed h
  -- no axis is one of the other keywords
  have hplain : ∀ keyword : Keyword, keyword.name.head? ≠ some 0x4e ∨ keyword = .NAXIS →
      sized.value (.keyword keyword) = counted.value (.keyword keyword) := by
    refine fun keyword hkeyword => hsizedKept keyword fun n hn => ?_
    rcases hkeyword with hkeyword | rfl
    · exact hkeyword (Header.head?_indexed hn)
    · have hname := congrArg List.length (Header.name_indexed hn)
      have hpos := List.length_pos_iff.mpr (Decimal.numeral_ne_nil n)
      rw [List.length_append] at hname
      omega
  have hkept : ∀ keyword : Keyword, keyword.name.head? ≠ some 0x4e → keyword ≠ .BITPIX →
      keyword ∉ [Keyword.EXTEND, .PCOUNT, .GCOUNT] →
        header.value (.keyword keyword) = start.value (.keyword keyword) := by
    intro keyword hhead hne hother
    have hnaxis : keyword ≠ .NAXIS := by
      rintro rfl
      exact hhead rfl
    rw [hclosed keyword hother, hplain keyword (.inl hhead), hcounted keyword hnaxis,
      htyped keyword hne]
  have hnaxisFits : naxis = prologue.axes.length := by
    unfold fitsI64 at hnaxis
    split at hnaxis
    · exact (Except.ok.inj hnaxis).symm
    · cases hnaxis
  refine ⟨?_, hends, ?_, ⟨by omega, ?_⟩, fun i length hlength => ?_, fun keyword hhead hother => ?_⟩
  · cases hopening : prologue.opening with
    | primary =>
      rw [hopening] at hopens
      exact ⟨(hkept _ (by decide) (by decide) (by decide)).trans hopens.1,
        (hkept _ (by decide) (by decide) (by decide)).trans hopens.2⟩
    | extension kind =>
      rw [hopening] at hopens
      exact (hkept _ (by decide) (by decide) (by decide)).trans hopens
  · rw [hclosed _ (by decide), hplain _ (.inl (by decide)), hcounted _ (by decide), hbitpix]
  · rw [hclosed _ (by decide), hplain _ (.inr rfl), hnaxisValue, hnaxisFits]
  · obtain ⟨keyword, hkeyword, hlt, hvalue⟩ := haxes i length hlength
    refine ⟨keyword, hkeyword, hlt, (hclosed keyword ?_).trans hvalue⟩
    have hhead : keyword.name.head? = some 0x4e := Header.head?_indexed hkeyword
    intro hmem
    simp only [List.mem_cons, List.not_mem_nil, or_false] at hmem
    rcases hmem with rfl | rfl | rfl <;> exact absurd hhead (by decide)
  · simp only [List.mem_cons, List.not_mem_nil, or_false, not_or] at hother
    rw [hkept keyword hhead hother.2.2.1 (by simp [hother]), hblank keyword hother.1 hother.2.1]

/-- The header of an extension holds its heap's length and its axes'. -/
theorem reads_header {prologue : Prologue} {kind : Xtension} {header : Header R}
    (hopening : prologue.opening = .extension kind) (h : prologue.header = .ok header) :
    prologue.pcount < 2 ^ 63 ∧
    header.value (.keyword .PCOUNT) = .ok (some (.ofInt prologue.pcount)) ∧
    ∀ (i length : ℕ), prologue.axes[i]? = some length → ∃ keyword,
      Keyword.NAXIS.indexed (i + 1) = .ok keyword ∧ length < 2 ^ 63 ∧
      header.value (.keyword keyword) = .ok (some (.ofInt length)) := by
  obtain ⟨hfits, hpcount, -⟩ := (reads h).counts kind hopening
  exact ⟨hfits, hpcount, (reads h).axes⟩

end Prologue

end FitsWell
