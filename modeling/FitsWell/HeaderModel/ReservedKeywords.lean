import FitsWell.HeaderModel.SetReads
import FitsWell.Usize

/-!
# Keywords that the format owns

A writer generates these from what it writes, so it drops them from a header that serves as a
template.
-/

namespace FitsWell

variable {R : Type}

/-- The index of a keyword in the family of `root`: digits after it, the first no zero. -/
def Keyword.indexAfter (keyword root : Keyword) : Option ℕ :=
  if root.name.isPrefixOf keyword.name then
    let suffix := keyword.name.drop root.name.length
    if suffix.isEmpty || suffix.head? == some 0x30 || !suffix.all isAsciiDigit then
      none
    else if Decimal.value suffix ≤ usizeMax then
      some (Decimal.value suffix)
    else
      none
  else
    none

namespace ReservedKeywords

/-- The structure of an HDU, the scaling of an array, the checksums and the heap of a table. -/
def STRUCTURE : List Keyword :=
  [.SIMPLE, .XTENSION, .BITPIX, .NAXIS, .PCOUNT, .GCOUNT, .EXTEND, .GROUPS, .BLOCKED, .BSCALE,
    .BZERO, .BLANK, .CHECKSUM, .DATASUM, .THEAP, .TFIELDS]

/-- The roots of array axes and of table columns. -/
def STRUCTURE_INDEXED : List Keyword :=
  [.NAXIS, .TFORM, .TTYPE, .TUNIT, .TDIM, .TSCAL, .TZERO, .TNULL, .TBCOL]

/-- Tiled image compression. -/
def IMAGE_COMPRESSION : List Keyword :=
  [.ZIMAGE, .ZCMPTYPE, .ZBITPIX, .ZNAXIS, .ZQUANTIZ, .ZDITHER0, .ZBLANK, .ZMASKCMP, .ZSIMPLE,
    .ZTENSION, .ZEXTEND, .ZBLOCKED, .ZGCOUNT, .ZHEAPPTR]

def IMAGE_COMPRESSION_INDEXED : List Keyword := [.ZNAXIS, .ZTILE, .ZNAME, .ZVAL]

/-- What the header of a compressed table adds. -/
def TABLE_COMPRESSION : List Keyword := [.ZTABLE, .ZTILELEN, .ZNAXIS1, .ZNAXIS2, .ZPCOUNT]

def TABLE_COMPRESSION_INDEXED : List Keyword := [.ZFORM, .ZCTYP]

/-- The keywords that table compression keeps under another name, with that name. -/
def TABLE_PRESERVED : List (Keyword × Keyword) :=
  [(.THEAP, .ZTHEAP), (.CHECKSUM, .ZHECKSUM), (.DATASUM, .ZDATASUM)]

/-- Whether a writer generates a keyword. -/
def isGenerated (keyword : Keyword) : Bool :=
  let indexed (root : Keyword) : Bool := (keyword.indexAfter root).isSome
  STRUCTURE.contains keyword || IMAGE_COMPRESSION.contains keyword ||
    TABLE_COMPRESSION.contains keyword ||
    TABLE_PRESERVED.any (fun preserved => preserved.2 == keyword) ||
    STRUCTURE_INDEXED.any indexed || IMAGE_COMPRESSION_INDEXED.any indexed ||
    TABLE_COMPRESSION_INDEXED.any indexed

theorem isGenerated_of_mem {keyword : Keyword} (h : keyword ∈ STRUCTURE) :
    isGenerated keyword = true := by
  simp [isGenerated, h]

/-- The numbered axes are generated. -/
theorem isGenerated_axis {n : ℕ} {keyword : Keyword} (hn : 0 < n) (hword : n ≤ usizeMax)
    (h : Keyword.NAXIS.indexed n = .ok keyword) : isGenerated keyword = true := by
  have hname := Header.name_indexed h
  have hindex : (keyword.indexAfter .NAXIS).isSome = true := by
    have hdigits := isDigits_numeral n
    rw [isDigits, Bool.and_eq_true, Bool.not_eq_true'] at hdigits
    have hsome : ((Decimal.numeral n).isEmpty || (Decimal.numeral n).head? == some 0x30 ||
        !(Decimal.numeral n).all isAsciiDigit) = false := by
      rw [hdigits.1, hdigits.2]
      simpa using Decimal.head?_numeral hn
    unfold Keyword.indexAfter
    rw [hname, if_pos (by simp), List.drop_left]
    dsimp only
    rw [hsome, if_neg (by simp), Decimal.value_numeral, if_pos hword]
    rfl
  simp [isGenerated, STRUCTURE_INDEXED, hindex]

end ReservedKeywords

/-- Append the records of a template that the writer does not generate. -/
def mergeHeaderTemplate (header template : Header R) : Header R :=
  header.appendFilteredFrom template fun keyword => !ReservedKeywords.isGenerated keyword

namespace Header

/-- A template leaves what the writer generates. -/
theorem value_mergeHeaderTemplate {header template : Header R} {keyword : Keyword}
    (h : ReservedKeywords.isGenerated keyword = true) :
    (mergeHeaderTemplate header template).value (.keyword keyword) =
      header.value (.keyword keyword) := by
  apply value_congr
  have hnone : (template.records.filter fun record =>
      record.keyword.all fun own => !ReservedKeywords.isGenerated own).find?
        (·.carries (.keyword keyword)) = none := by
    rw [List.find?_eq_none]
    intro record hrecord hcarries
    have hkeyword : record.keyword = some keyword := of_decide_eq_true hcarries
    have hkept := (List.mem_filter.mp hrecord).2
    rw [hkeyword, Option.all_some, h] at hkept
    cases hkept
  have hrecords : (mergeHeaderTemplate header template).records = header.records ++
      template.records.filter fun record =>
        record.keyword.all fun own => !ReservedKeywords.isGenerated own := rfl
  rw [hrecords, List.find?_append, hnone, Option.or_none]

end Header

end FitsWell
