import FitsWell.Hdu.HduKind
import FitsWell.HeaderModel.HeaderRoundTrip
import FitsWell.HeaderModel.SetReads

/-!
# Headers of one structure

What a header says of its HDU does not depend on its checksum records, nor on the blank records at
its end: a header says the same when it is read back.
-/

namespace FitsWell

variable {R : Type}

instance (keyword : Keyword) : Decidable (Header.IsChecksumKeyword keyword) :=
  inferInstanceAs (Decidable (_ ∨ _))

namespace Header

/-! ## The same records -/

/-- Two headers read the same, but for the checksum records. -/
def Agrees (one other : Header R) : Prop :=
  ∀ keyword, ¬IsChecksumKeyword keyword → one.value (.keyword keyword) = other.value (.keyword keyword)

theorem find?_rdropWhile {p : Record R → Bool} (hp : ∀ record, isBlankRecord record = true → p record = false)
    (records : List (Record R)) : (records.rdropWhile isBlankRecord).find? p = records.find? p := by
  induction records using List.reverseRecOn with
  | nil => rfl
  | append_singleton records record ih =>
    by_cases hblank : isBlankRecord record = true
    · rw [List.rdropWhile_concat_pos _ _ _ hblank, ih, List.find?_append, List.find?_singleton,
        hp record hblank, if_neg Bool.false_ne_true, Option.or_none]
    · rw [List.rdropWhile_concat_neg _ _ _ hblank]

/-- A header reads the same without the blank records at its end. -/
theorem agrees_rdropWhile (header : Header R) :
    (ofRecords (header.records.rdropWhile isBlankRecord)).Agrees header := by
  intro keyword _
  refine value_congr (find?_rdropWhile (fun record hblank => ?_) _)
  have hkey := (keys_of_isBlankRecord hblank).1
  exact decide_eq_false (by rw [hkey]; simp)

/-- The record of a plain keyword is written as it is. -/
theorem markedRecord_of_plain {header : Header R} {signing : Signing} {item : Record R × ℕ}
    {keyword : Keyword} (hkeyword : item.1.keyword = some keyword)
    (hplain : ¬IsChecksumKeyword keyword) : header.markedRecord signing item = (false, item.1) := by
  have hsigns : header.signs signing keyword item.2 = false := by
    have hnot : (keyword == Keyword.DATASUM || keyword == Keyword.CHECKSUM) = false := by
      rw [Bool.or_eq_false_iff, beq_eq_false_iff_ne, beq_eq_false_iff_ne]
      exact not_or.mp hplain
    rw [signs, hnot]
    rfl
  rw [markedRecord, hkeyword]
  dsimp only
  rw [hsigns]
  rfl

theorem keyword_withText_markedRecord (header : Header R) (signing : Signing) (value : Text)
    (item : Record R × ℕ) :
    (withText value (header.markedRecord signing item)).keyword = item.1.keyword := by
  refine (withText_keyword (fun hmarked => ?_)).trans (header.keyword_markedRecord signing item)
  unfold markedRecord at hmarked ⊢
  split at hmarked
  · rename_i keyword hkeyword
    split at hmarked
    · rename_i hsigns
      rw [if_pos hsigns]
      exact congrArg some (beq_iff_eq.mp hmarked)
    · cases hmarked
  · cases hmarked

/-- A signed header reads the same, but for its checksum records. -/
theorem agrees_carrying (header : Header R) (sum : UInt32) (value : Text) :
    (header.carrying sum value).Agrees header := by
  intro keyword hplain
  obtain ⟨signing, hsame⟩ : ∃ signing, signing = Signing.withDataSum sum := ⟨_, rfl⟩
  have hsigning : signing ≠ .unsigned := by rw [hsame]; simp
  have hkeyword : ∀ item ∈ header.markedRecords signing,
      (withText value item).keyword = item.2.keyword :=
    fun item hitem => withText_keyword (keyword_of_marked hitem)
  refine value_congr ?_
  have hrecords : (header.carrying sum value).records =
      (header.markedRecords signing).map (withText value) := by
    rw [carrying, hsame]
    rfl
  have hmissing : ((header.missingRecords signing).map (withText value)).find?
      (·.carries (.keyword keyword)) = none := by
    rw [List.find?_eq_none]
    intro record hmem hcarries
    obtain ⟨item, hitem, rfl⟩ := List.mem_map.mp hmem
    have hkey := (hkeyword item (List.mem_append_right _ hitem)).symm.trans (of_decide_eq_true hcarries)
    rw [missingRecords, if_neg hsigning] at hitem
    obtain ⟨own, hown, rfl⟩ := List.mem_map.mp hitem
    obtain rfl := Option.some.inj hkey
    refine hplain ?_
    simpa [IsChecksumKeyword] using (List.mem_filter.mp hown).1
  rw [hrecords, markedRecords, List.map_append, List.find?_append, hmissing, Option.or_none,
    List.map_map]
  have hfst := congrArg (List.find? (·.carries (.keyword keyword)))
    (List.zipIdx_map_fst 0 header.records)
  rw [← hfst, List.find?_map, List.find?_map]
  have hpred : (·.carries (.keyword keyword)) ∘ (withText value ∘ header.markedRecord signing) =
      (·.carries (.keyword keyword)) ∘ Prod.fst := by
    funext item
    exact congrArg (fun key => decide (key = some keyword))
      (header.keyword_withText_markedRecord signing value item)
  rw [hpred]
  cases hfind : header.records.zipIdx.find? ((·.carries (.keyword keyword)) ∘ Prod.fst) with
  | none => rfl
  | some item =>
    have hfound := List.find?_some hfind
    have hcarries : item.1.keyword = some keyword := of_decide_eq_true hfound
    rw [Option.map_some, Option.map_some, Function.comp_apply, markedRecord_of_plain hcarries hplain]
    rfl

theorem Agrees.trans {one other third : Header R} (h : one.Agrees other) (h' : other.Agrees third) :
    one.Agrees third :=
  fun keyword hplain => (h keyword hplain).trans (h' keyword hplain)

/-! ## The same lookups -/

section Lookups

variable {one other : Header R} (h : one.Agrees other) {keyword : Keyword}
  (hplain : ¬IsChecksumKeyword keyword)
include h hplain

theorem Agrees.typedOptional {α : Type} (expected : ValueKind)
    (convert : Value R → Outcome (Option α)) :
    one.typedOptional (.keyword keyword) expected convert =
      other.typedOptional (.keyword keyword) expected convert := by
  rw [Header.typedOptional, Header.typedOptional, h keyword hplain]

theorem Agrees.getLogical : one.getLogical keyword = other.getLogical keyword :=
  h.typedOptional hplain _ _

theorem Agrees.getText : one.getText keyword = other.getText keyword := h.typedOptional hplain _ _

variable [RealWords R]

theorem Agrees.getInteger : one.getInteger keyword = other.getInteger keyword :=
  h.typedOptional hplain _ _

theorem Agrees.requireInteger : one.requireInteger keyword = other.requireInteger keyword := by
  rw [Header.requireInteger, Header.requireInteger, Header.typedRequired, Header.typedRequired,
    h.typedOptional hplain]

theorem Agrees.requireUsize : one.requireUsize keyword = other.requireUsize keyword := by
  rw [Header.requireUsize, Header.requireUsize, h.requireInteger hplain]

theorem Agrees.requiredCount : requiredCount one keyword = requiredCount other keyword := by
  rw [FitsWell.requiredCount, FitsWell.requiredCount, h.getInteger hplain]

end Lookups

/-! ## The same HDU -/

variable [RealWords R] {one other : Header R}

theorem plain_indexed {n : ℕ} {keyword : Keyword} (h : Keyword.NAXIS.indexed n = .ok keyword) :
    ¬IsChecksumKeyword keyword := by
  have hname : keyword.name = Keyword.NAXIS.name ++ Decimal.numeral n := by
    unfold Keyword.indexed Keyword.checked at h
    split at h
    · rename_i found hfound
      split at hfound
      · rw [← Except.ok.inj h, ← Option.some.inj hfound]
      · cases hfound
    · cases h
  have htake : keyword.name.take 5 = ascii "NAXIS" := by
    rw [hname]
    rfl
  rintro (rfl | rfl)
  · exact absurd htake (by decide)
  · exact absurd htake (by decide)

variable (h : one.Agrees other)
include h

theorem Agrees.bitpix : one.bitpix = other.bitpix := by
  rw [Header.bitpix, Header.bitpix, h.requireInteger (by decide)]

theorem Agrees.axes : one.axes = other.axes := by
  have hnaxis : one.naxis = other.naxis := by
    rw [Header.naxis, Header.naxis, h.requireUsize (by decide)]
  rw [Header.axes, Header.axes, hnaxis]
  refine bind_congr fun count => ?_
  refine congrArg (fun body => (List.range count).mapM body) (funext fun n => ?_)
  cases hkeyword : Keyword.NAXIS.indexed (n + 1) with
  | error fault => rfl
  | ok keyword =>
    rw [Loops.bind_ok rfl, Loops.bind_ok rfl, h.requireUsize (plain_indexed hkeyword)]

theorem Agrees.fromHeader (position : HduPosition) :
    HduKind.fromHeader one position = HduKind.fromHeader other position := by
  cases position with
  | primary =>
    rw [HduKind.fromHeader, HduKind.fromHeader, HduKind.ofPrimary, HduKind.ofPrimary,
      h.getLogical (by decide), h.getLogical (by decide), h.axes]
  | extension =>
    rw [HduKind.fromHeader, HduKind.fromHeader, HduKind.ofExtension, HduKind.ofExtension,
      h.getText (by decide), HduKind.ofBinTable, HduKind.ofBinTable, h.getLogical (by decide),
      h.getLogical (by decide)]

theorem Agrees.dataBytes (kind : HduKind) : kind.dataBytes one = kind.dataBytes other := by
  have hgrouped : ∀ elem elements, groupedDataBytes elem elements one =
      groupedDataBytes elem elements other := by
    intro elem elements
    rw [groupedDataBytes, groupedDataBytes, h.requiredCount (by decide), h.requiredCount (by decide)]
  rw [HduKind.dataBytes, HduKind.dataBytes, h.bitpix, h.axes]
  refine bind_congr fun bitpix => bind_congr fun axes => ?_
  have hunit : kind.unitBytes bitpix.elemSize axes one = kind.unitBytes bitpix.elemSize axes other := by
    unfold HduKind.unitBytes
    simp only [hgrouped]
  rw [hunit]

end Header

end FitsWell
