import FitsWell.Hdu.ImageGeometry
import FitsWell.HeaderModel.KeywordMap

/-!
# The scaling of an image, read back

The records of a map and a null read back as a map that compares equal to it.
-/

namespace FitsWell

variable {R : Type}

/-- The keywords of a map and a null. -/
def scalingKeywords : List Keyword := [.BZERO, .BSCALE, .BLANK]

section Records

variable [PlaneReals R]

/-- The records of a map that is not the identity, and of a null. -/
def Scaling.records (scaling : Scaling R) (bitpix : Bitpix) :
    List (Keyword × Value R) :=
  (if scaling.isIdentity then []
    else [(.BZERO, scaling.zeroValue bitpix), (.BSCALE, .real scaling.bscale)]) ++
  match scaling.blank with
  | none => []
  | some blank => [(.BLANK, .ofInt blank)]

theorem Scaling.mem_records {scaling : Scaling R} {bitpix : Bitpix}
    {entry : Keyword × Value R} (h : entry ∈ scaling.records bitpix) :
    entry.1 ∈ scalingKeywords := by
  rcases List.mem_append.mp h with h | h
  · split at h
    · exact absurd h List.not_mem_nil
    · rcases List.mem_pair.mp h with rfl | rfl <;> simp [scalingKeywords]
  · split at h
    · exact absurd h List.not_mem_nil
    · obtain rfl := List.mem_singleton.mp h
      simp [scalingKeywords]

theorem Header.ReadsAs.addToHeader {header next : Header R} {map : KeywordMap R}
    {scaling : Scaling R} {bitpix : Bitpix} (h : header.ReadsAs map)
    (hadd : scaling.addToHeader header bitpix = .ok next) :
    next.ReadsAs (map.setAll (scaling.records bitpix)) ∧ scaling.validate bitpix = .ok () := by
  obtain ⟨_, hvalid, hadd⟩ := Loops.ok_of_bind hadd
  obtain ⟨mapped, hmap, hadd⟩ := Loops.ok_of_bind hadd
  refine ⟨?_, hvalid⟩
  rw [Scaling.records, KeywordMap.setAll, List.foldl_append]
  have hmapped : mapped.ReadsAs (map.setAll (if scaling.isIdentity then []
      else [(.BZERO, scaling.zeroValue bitpix), (.BSCALE, .real scaling.bscale)])) := by
    unfold Scaling.addMap at hmap
    split at hmap
    · rw [if_pos ‹_›]
      exact Except.ok.inj hmap ▸ h
    · rw [if_neg ‹_›]
      exact h.setAll hmap
  unfold Scaling.addBlank at hadd
  cases hblank : scaling.blank with
  | none =>
    rw [hblank] at hadd
    exact Except.ok.inj hadd ▸ hmapped
  | some blank =>
    rw [hblank] at hadd
    exact hmapped.setInternal hadd

end Records

/-! ## The map that is read -/

/-- Reals that compare as doubles do: a finite one equals itself, an integer is finite, and one
of 64 bits converts as its numeral parses. -/
class LawfulPlane (R : Type) [PlaneReals R] : Prop where
  same_self : ∀ {real : R}, RealText.isFinite real = true → PlaneReals.same real real = true
  finite_ofI64 : ∀ {value : ℤ}, FitsI64 value → RealText.isFinite (RealText.ofI64 value : R) = true
  finite_ofU64 : ∀ {value : ℕ}, value < 2 ^ 64 →
    RealText.isFinite (PlaneReals.ofU64 value : R) = true
  parse_numeral : ∀ {value : ℕ}, value < 2 ^ 64 →
    RealText.parse (Decimal.numeral value) = some (PlaneReals.ofU64 value : R)

instance : LawfulPlane ℤ where
  same_self _ := decide_eq_true rfl
  finite_ofI64 _ := rfl
  finite_ofU64 _ := rfl
  parse_numeral {value} _ := by
    have hdigits := isDigits_numeral value
    have hpart := wholePart_digits hdigits false
    have hsign := splitSign_digits hdigits false
    rw [if_neg Bool.false_ne_true, List.nil_append] at hpart hsign
    change parseWhole (wholePart (Decimal.numeral value)) = some (value : ℤ)
    rw [hpart, parseWhole, hsign]
    dsimp only
    rw [if_pos hdigits, Decimal.value_numeral]
    rfl

namespace Scaling

variable [PlaneReals R]

/-- The maps compare equal: `scaling == other`. -/
structure Same (scaling other : Scaling R) : Prop where
  bscale : PlaneReals.same scaling.bscale other.bscale = true
  bzero : PlaneReals.same scaling.bzero other.bzero = true
  blank : scaling.blank = other.blank

variable {scaling : Scaling R} {bitpix : Bitpix}

theorem finite_of_validate (h : scaling.validate bitpix = .ok ()) :
    RealText.isFinite scaling.bscale = true ∧ RealText.isFinite scaling.bzero = true ∧
    ∀ blank, scaling.blank = some blank → holdsInteger bitpix blank = true := by
  unfold validate at h
  split at h
  · cases h
  rename_i hscale
  split at h
  · cases h
  rename_i hzero
  rw [Bool.not_eq_true', Bool.not_eq_false] at hscale hzero
  refine ⟨hscale, hzero, fun blank hblank => ?_⟩
  rw [hblank] at h
  dsimp only at h
  split at h
  · assumption
  · cases h

theorem validate_of_finite (hscale : RealText.isFinite scaling.bscale = true)
    (hzero : RealText.isFinite scaling.bzero = true)
    (hblank : ∀ blank, scaling.blank = some blank → holdsInteger bitpix blank = true) :
    scaling.validate bitpix = .ok () := by
  unfold validate
  rw [if_neg (by simp [hscale]), if_neg (by simp [hzero])]
  cases hown : scaling.blank with
  | none => rfl
  | some blank =>
    dsimp only
    rw [if_pos (hblank blank hown)]

/-- What the keywords of a map and a null read as where a header holds these. -/
structure ReadsIn (scaling : Scaling R) (bitpix : Bitpix) (header : Header R) : Prop where
  bscale : header.value (.keyword .BSCALE) =
    .ok (if scaling.isIdentity then none else some (.real scaling.bscale))
  bzero : header.value (.keyword .BZERO) =
    .ok (if scaling.isIdentity then none else some (scaling.zeroValue bitpix))
  blank : header.value (.keyword .BLANK) = .ok (scaling.blank.map .ofInt)

/-- The records of a map and a null read as these in a header that had none. -/
theorem readsIn_addToHeader {header next : Header R}
    (h : scaling.addToHeader header bitpix = .ok next)
    (hbase : ∀ keyword ∈ scalingKeywords, header.value (.keyword keyword) = .ok none) :
    scaling.ReadsIn bitpix next ∧ scaling.validate bitpix = .ok () := by
  obtain ⟨_, hvalid, h⟩ := Loops.ok_of_bind h
  obtain ⟨mapped, hmap, h⟩ := Loops.ok_of_bind h
  have hbscale := hbase .BSCALE (by decide)
  have hbzero := hbase .BZERO (by decide)
  have hblank := hbase .BLANK (by decide)
  have hmapped : mapped.value (.keyword .BSCALE) =
        .ok (if scaling.isIdentity then none else some (.real scaling.bscale)) ∧
      mapped.value (.keyword .BZERO) =
        .ok (if scaling.isIdentity then none else some (scaling.zeroValue bitpix)) ∧
      mapped.value (.keyword .BLANK) = .ok none := by
    unfold addMap at hmap
    split at hmap
    · obtain rfl := Except.ok.inj hmap
      rw [if_pos ‹_›, if_pos ‹_›]
      exact ⟨hbscale, hbzero, hblank⟩
    · rw [if_neg ‹_›, if_neg ‹_›]
      obtain ⟨hkept, hgiven⟩ := Header.value_setAll hmap
      have hnodup : [Keyword.BZERO, Keyword.BSCALE].Nodup := by decide
      exact ⟨hgiven hnodup _ (List.mem_cons_of_mem _ List.mem_cons_self),
        hgiven hnodup _ List.mem_cons_self, (hkept _ (by simp; decide)).trans hblank⟩
  refine ⟨?_, hvalid⟩
  unfold addBlank at h
  cases hown : scaling.blank with
  | none =>
    rw [hown] at h
    obtain rfl := Except.ok.inj h
    exact ⟨hmapped.1, hmapped.2.1, by rw [hown]; exact hmapped.2.2⟩
  | some blank =>
    rw [hown] at h
    have hset := Header.ok_of_expectOk h
    exact ⟨(Header.value_set_of_ne hset (by decide)).trans hmapped.1,
      (Header.value_set_of_ne hset (by decide)).trans hmapped.2.1,
      by rw [hown]; exact Header.value_set hset⟩

variable [LawfulPlane R]

theorem asReal_zeroValue (bitpix : Bitpix) (hzero : RealText.isFinite scaling.bzero = true) : ∃ read : R,
    (scaling.zeroValue bitpix).asReal = .ok (some read) ∧
      PlaneReals.same scaling.bzero read = true ∧ RealText.isFinite read = true := by
  unfold zeroValue
  split
  · rename_i hwords
    have hfinite := LawfulPlane.finite_ofU64 (R := R) (by decide : 2 ^ 63 < 2 ^ 64)
    have hparse := LawfulPlane.parse_numeral (R := R) (by decide : 2 ^ 63 < 2 ^ 64)
    refine ⟨PlaneReals.ofU64 (2 ^ 63), ?_, hwords.2.2, hfinite⟩
    have hreal : (FitsInteger.ofInt (2 ^ 63)).toF64 = .ok (PlaneReals.ofU64 (2 ^ 63) : R) := by
      have hrepr : (FitsInteger.ofInt (2 ^ 63)).repr =
          .decimal false (Decimal.numeral (2 ^ 63)) := by
        rw [FitsInteger.ofInt, dif_neg (by decide)]
        rfl
      rw [FitsInteger.toF64, FitsInteger.display, hrepr]
      dsimp only
      rw [if_neg Bool.false_ne_true, List.nil_append, hparse, Option.filter_some, if_pos hfinite]
    rw [Value.ofInt, Value.asReal, Loops.bind_ok hreal]
  · exact ⟨scaling.bzero, rfl, LawfulPlane.same_self hzero, hzero⟩

omit [LawfulPlane R] in
/-- What the records of a map and a null read as. -/
theorem map_records {base : KeywordMap R} (scaling : Scaling R) (bitpix : Bitpix)
    (hbase : ∀ keyword ∈ scalingKeywords, base keyword = none) :
    base.setAll (scaling.records bitpix) .BSCALE =
      (if scaling.isIdentity then none else some (.real scaling.bscale)) ∧
    base.setAll (scaling.records bitpix) .BZERO =
      (if scaling.isIdentity then none else some (scaling.zeroValue bitpix)) ∧
    base.setAll (scaling.records bitpix) .BLANK = scaling.blank.map .ofInt := by
  have hscale := hbase .BSCALE (by decide)
  have hzero := hbase .BZERO (by decide)
  have hblank := hbase .BLANK (by decide)
  unfold records
  cases scaling.isIdentity with
  | true => cases scaling.blank <;> exact ⟨hscale, hzero, by first | exact hblank | rfl⟩
  | false => cases scaling.blank <;> exact ⟨rfl, rfl, by first | exact hblank | rfl⟩

/-- The records of a map that a header holds read back as a map that compares equal. -/
theorem ReadsIn.fromHeader {header : Header R} (h : scaling.ReadsIn bitpix header)
    (hvalid : scaling.validate bitpix = .ok ())
    (hwords : ∀ blank, scaling.blank = some blank → FitsI64 blank) : ∃ read,
    Scaling.fromHeader header bitpix = .ok read ∧ scaling.Same read ∧
      read.validate bitpix = .ok () := by
  obtain ⟨hscale, hzero, hnull⟩ := finite_of_validate hvalid
  obtain ⟨hscaleMap, hzeroMap, hblankMap⟩ := h
  have hreals : ∃ bscale bzero, header.getReal .BSCALE = .ok bscale ∧
      header.getReal .BZERO = .ok bzero ∧
      PlaneReals.same scaling.bscale (bscale.getD (RealText.ofI64 1)) = true ∧
      PlaneReals.same scaling.bzero (bzero.getD (RealText.ofI64 0)) = true ∧
      RealText.isFinite (bscale.getD (RealText.ofI64 1)) = true ∧
      RealText.isFinite (bzero.getD (RealText.ofI64 0)) = true := by
    cases hidentity : scaling.isIdentity with
    | true =>
      rw [hidentity] at hscaleMap hzeroMap
      obtain ⟨hone, hnone⟩ := Bool.and_eq_true_iff.mp hidentity
      exact ⟨none, none, Header.getReal_of_none hscaleMap,
        Header.getReal_of_none hzeroMap, hone, hnone,
        LawfulPlane.finite_ofI64 (by decide), LawfulPlane.finite_ofI64 (by decide)⟩
    | false =>
      rw [hidentity] at hscaleMap hzeroMap
      obtain ⟨read, hread, hsame, hfinite⟩ := asReal_zeroValue bitpix hzero
      have hzeroReal : header.getReal .BZERO = .ok (some read) := by
        rw [if_neg Bool.false_ne_true] at hzeroMap
        rw [Header.getReal, Header.typedOptional, Loops.bind_ok hzeroMap]
        dsimp only
        rw [hread]
      exact ⟨some scaling.bscale, some read, Header.getReal_of_value hscaleMap, hzeroReal,
        LawfulPlane.same_self hscale, hsame, hscale, hfinite⟩
  obtain ⟨bscale, bzero, hbscale, hbzero, hsameScale, hsameZero, hfiniteScale, hfiniteZero⟩ := hreals
  have hblank : readBlank header bitpix = .ok scaling.blank := by
    unfold readBlank
    cases hown : scaling.blank with
    | none =>
      rw [hown] at hblankMap
      cases Plane.of bitpix with
      | int bitpix => exact Header.getInteger_of_none hblankMap
      | float bitpix => rfl
    | some blank =>
      rw [hown] at hblankMap
      have hholds := hnull blank hown
      cases bitpix with
      | u8 => exact Header.getInteger_of_value (hwords blank hown) hblankMap
      | i16 => exact Header.getInteger_of_value (hwords blank hown) hblankMap
      | i32 => exact Header.getInteger_of_value (hwords blank hown) hblankMap
      | i64 => exact Header.getInteger_of_value (hwords blank hown) hblankMap
      | f32 => cases hholds
      | f64 => cases hholds
  let read : Scaling R :=
    ⟨bscale.getD (RealText.ofI64 1), bzero.getD (RealText.ofI64 0), scaling.blank⟩
  have hread : read.validate bitpix = .ok () := validate_of_finite hfiniteScale hfiniteZero hnull
  refine ⟨read, ?_, ⟨hsameScale, hsameZero, rfl⟩, hread⟩
  rw [Scaling.fromHeader, Loops.bind_ok hbscale, Loops.bind_ok hbzero, Loops.bind_ok hblank,
    Loops.bind_ok hread]

/-- The records of a map in the keywords of a header read back as a map that compares equal. -/
theorem fromHeader_records {base : KeywordMap R} {header : Header R}
    (h : header.ReadsAs (base.setAll (scaling.records bitpix)))
    (hbase : ∀ keyword ∈ scalingKeywords, base keyword = none)
    (hvalid : scaling.validate bitpix = .ok ())
    (hwords : ∀ blank, scaling.blank = some blank → FitsI64 blank) : ∃ read,
    Scaling.fromHeader header bitpix = .ok read ∧ scaling.Same read ∧
      read.validate bitpix = .ok () := by
  obtain ⟨hscale, hzero, hblank⟩ := map_records scaling bitpix hbase
  have hreads : scaling.ReadsIn bitpix header := ⟨h.gives hscale, h.gives hzero, h.gives hblank⟩
  exact hreads.fromHeader hvalid hwords

end Scaling

/-- An image of so many samples with a map that a header gives. -/
theorem ImageGeometry.new_of_scaling [PlaneReals R] {header : Header R} {shape : List ℕ}
    {bitpix : Bitpix} {scaling : Scaling R} {len : ℕ} (hlen : shapeProduct shape = .ok len)
    (hscaling : Scaling.fromHeader header bitpix = .ok scaling) :
    ImageGeometry.new header shape bitpix = .ok ⟨shape, bitpix, scaling, len, hlen⟩ := by
  unfold ImageGeometry.new
  split
  · rename_i hfault
    cases hlen.symm.trans hfault
  · rename_i own hown
    obtain rfl := Except.ok.inj (hlen.symm.trans hown)
    rw [Loops.bind_ok hscaling]

end FitsWell
