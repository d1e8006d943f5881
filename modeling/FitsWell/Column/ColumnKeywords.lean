import FitsWell.HeaderModel.TypedLookup

/-!
# The keywords of a table's columns

Both table forms start from the same shape: `NAXIS1` and `NAXIS2`, which an `i64` bounds,
and `TFIELDS`. A column's keyword whose value does not read is kept as its defect, and only
the reads that need it fail.
-/

namespace FitsWell

variable {R : Type}

/-- Whole reals convert to integers of 64 bits. -/
class LawfulWords (R : Type) [RealWords R] : Prop where
  asI64_fits : ∀ {real : R} {value : ℤ}, RealWords.asI64 real = some value → FitsI64 value

instance : LawfulWords ℤ where
  asI64_fits {real value} h := by
    unfold RealWords.asI64 wholeWords at h
    dsimp only at h
    split at h
    · rwa [← Option.some.inj h]
    · cases h

/-! ## Sizes -/

/-- A size that an `i64` holds. -/
abbrev WordSize : Type := {size : ℕ // size < 2 ^ 63}

theorem FitsInteger.fits_of_toI64 {integer : FitsInteger} {value : ℤ}
    (h : integer.toI64 = .ok value) : FitsI64 value := by
  unfold toI64 at h
  split at h
  · rename_i word hrepr
    have hword := integer.canonical
    rw [hrepr] at hword
    rwa [← Except.ok.inj h]
  · split at h
    · rename_i parsed hparse
      rw [← Except.ok.inj h]
      unfold parseI64 at hparse
      split at hparse
      dsimp only at hparse
      split at hparse
      · split at hparse
        · rw [← Option.some.inj hparse]
          assumption
        · cases hparse
      · cases hparse
    · cases h

theorem Value.fits_of_asInteger [RealWords R] [LawfulWords R] {value : Value R} {integer : ℤ}
    (h : value.asInteger = .ok (some integer)) : FitsI64 integer := by
  cases value with
  | integer exact =>
    obtain ⟨word, hword, hend⟩ := Loops.ok_of_bind h
    obtain rfl := Option.some.inj (Except.ok.inj hend)
    exact exact.fits_of_toI64 hword
  | real whole =>
    simp only [asInteger] at h
    split at h
    · split at h
      · rename_i word hword
        obtain rfl := Option.some.inj (Except.ok.inj h)
        exact LawfulWords.asI64_fits hword
      · cases h
    · cases h
  | logical => cases h
  | text => cases h
  | complexInteger => cases h
  | complexReal => cases h
  | undefined => cases h

namespace Header

/-- A typed lookup gives what its conversion gives of a value. -/
theorem exists_of_typedOptional {α : Type} {header : Header R} {name : RecordName}
    {expected : ValueKind} {convert : Value R → Outcome (Option α)} {found : α}
    (h : header.typedOptional name expected convert = .ok (some found)) :
    ∃ value, convert value = .ok (some found) := by
  obtain ⟨held, -, hend⟩ := Loops.ok_of_bind h
  cases held with
  | none => cases hend
  | some value =>
    refine ⟨value, ?_⟩
    dsimp only at hend
    split at hend
    · rename_i converted hconvert
      rw [hconvert, ← Option.some.inj (Except.ok.inj hend)]
    · cases hend
    · cases hend
    · cases hend

variable [RealWords R] [LawfulWords R]

theorem requireUsize_lt {header : Header R} {keyword : Keyword} {size : ℕ}
    (h : header.requireUsize keyword = .ok size) : size < 2 ^ 63 := by
  obtain ⟨value, hvalue, hend⟩ := Loops.ok_of_bind h
  obtain ⟨found, hfound, hrequired⟩ := Loops.ok_of_bind hvalue
  cases found with
  | none => cases hrequired
  | some integer =>
    obtain rfl := Except.ok.inj hrequired
    obtain ⟨held, hheld⟩ := exists_of_typedOptional hfound
    have hfits := Value.fits_of_asInteger hheld
    unfold FitsI64 at hfits
    split at hend
    · have hsize := Except.ok.inj hend
      omega
    · cases hend

/-- A mandatory size, with the bound of the integer it is read from. -/
def requireWord (header : Header R) (keyword : Keyword) : Outcome WordSize :=
  match h : header.requireUsize keyword with
  | .ok size => .ok ⟨size, requireUsize_lt h⟩
  | .error fault => .error fault

theorem noPanic_requireWord (header : Header R) (keyword : Keyword) :
    NoPanic (header.requireWord keyword) := by
  unfold requireWord
  split
  · exact NoPanic.ok _
  · exact (header.noPanic_requireUsize keyword).error ‹_›

end Header

/-! ## The shape of a table -/

/-- The most columns a table holds. -/
def maxTableFields : ℕ := 999

/-- A table's row length, row count and column count. -/
structure TableShape where
  rowLen : WordSize
  rowCount : WordSize
  fieldCount : ℕ
  fields : fieldCount ≤ maxTableFields

/-- Whether a keyword has the one value that a table's has. -/
def TableShape.requireStructure [RealWords R] (header : Header R) (keyword : Keyword)
    (required : ℤ) : Outcome Unit := do
  let value ← header.requireInteger keyword
  if value ≠ required then fail (.invalidKeywordValue keyword.asStr .ofStructure) else .ok ()

/-- The shape of the table that `header` describes: bytes in two axes, one group of them. -/
def TableShape.read [RealWords R] [LawfulWords R] (header : Header R) : Outcome TableShape := do
  TableShape.requireStructure header .BITPIX 8
  TableShape.requireStructure header .NAXIS 2
  TableShape.requireStructure header .GCOUNT 1
  let fieldCount ← header.requireUsize .TFIELDS
  if hfields : fieldCount ≤ maxTableFields then
    let first ← Keyword.NAXIS.indexed 1
    let rowLen ← header.requireWord first
    let second ← Keyword.NAXIS.indexed 2
    let rowCount ← header.requireWord second
    .ok { rowLen := rowLen, rowCount := rowCount, fieldCount := fieldCount, fields := hfields }
  else
    fail (.invalidKeywordValue Keyword.TFIELDS.asStr .ofRange)

/-! ## Keywords that may not read -/

/-- The value of a keyword, or the error that a read which needs it gives. -/
abbrev Keyed (α : Type) : Type := Except FitsError α

/-- The value `read` gives for `keyword`, or its defect. -/
def keyed {α : Type} (keyword : Keyword) (read : Outcome α) : Outcome (Keyed α) :=
  match read with
  | .ok value => .ok (.ok value)
  | .error (.err error) => .ok (.error (.invalidColumnKeyword keyword error))
  | .error (.panic panic) => .error (.panic panic)

/-- A column's scaling and null. -/
structure ColumnKeywords (R : Type) where
  tscale : Keyed R
  tzero : Keyed R
  tnull : Keyed (Option ℤ)

/-- A real keyword of column `n`, `absent` where it has none. -/
def ColumnKeywords.real [RealText R] (header : Header R) (root : Keyword) (n : ℕ) (absent : R) :
    Outcome (Keyed R) := do
  let keyword ← root.indexed n
  keyed keyword do
    let found ← header.getReal keyword
    .ok (found.getD absent)

/-- The keywords of column `n` that describe its values. -/
def ColumnKeywords.read [RealWords R] (header : Header R) (n : ℕ) :
    Outcome (ColumnKeywords R) := do
  let tnullKeyword ← Keyword.TNULL.indexed n
  let tscale ← ColumnKeywords.real header .TSCAL n (RealText.ofI64 1)
  let tzero ← ColumnKeywords.real header .TZERO n (RealText.ofI64 0)
  let tnull ← keyed tnullKeyword (header.getInteger tnullKeyword)
  .ok { tscale := tscale, tzero := tzero, tnull := tnull }

/-- No scaling and no null: a container's value keywords describe another column. -/
def ColumnKeywords.labels [RealText R] : ColumnKeywords R where
  tscale := .ok (RealText.ofI64 1)
  tzero := .ok (RealText.ofI64 0)
  tnull := .ok none

theorem noPanic_keyed {α : Type} (keyword : Keyword) {read : Outcome α} (h : NoPanic read) :
    NoPanic (keyed keyword read) := by
  unfold keyed
  split
  · exact NoPanic.ok _
  · exact NoPanic.ok _
  · exact (h _ rfl).elim

end FitsWell
