import FitsWell.HeaderModel.SetReads

/-!
# Typed lookups of values

What a typed lookup gives of the value that a keyword has, where it is of the type, or of none.
-/

namespace FitsWell.Header

variable {R : Type} {header : Header R} {keyword : Keyword}

theorem typedOptional_of_none {α : Type} {name : RecordName} {expected : ValueKind}
    {convert : Value R → Outcome (Option α)} (h : header.value name = .ok none) :
    header.typedOptional name expected convert = .ok none := by
  rw [typedOptional, Loops.bind_ok h]

theorem getLogical_of_value {value : Bool}
    (h : header.value (.keyword keyword) = .ok (some (.logical value))) :
    header.getLogical keyword = .ok (some value) := by
  rw [getLogical, typedOptional, Loops.bind_ok h]
  rfl

theorem getLogical_of_none (h : header.value (.keyword keyword) = .ok none) :
    header.getLogical keyword = .ok none := typedOptional_of_none h

theorem getText_of_none (h : header.value (.keyword keyword) = .ok none) :
    header.getText keyword = .ok none := typedOptional_of_none h

theorem getReal_of_none [RealText R] (h : header.value (.keyword keyword) = .ok none) :
    header.getReal keyword = .ok none := typedOptional_of_none h

theorem getInteger_of_none [RealWords R] (h : header.value (.keyword keyword) = .ok none) :
    header.getInteger keyword = .ok none := typedOptional_of_none h

theorem getReal_of_value [RealText R] {value : R}
    (h : header.value (.keyword keyword) = .ok (some (.real value))) :
    header.getReal keyword = .ok (some value) := by
  rw [getReal, typedOptional, Loops.bind_ok h]
  rfl

section Words

variable [RealWords R]

theorem requireInteger_of_value {value : ℤ} (hfits : -2 ^ 63 ≤ value ∧ value < 2 ^ 63)
    (h : header.value (.keyword keyword) = .ok (some (.ofInt value))) :
    header.requireInteger keyword = .ok value := by
  have hfound : header.typedOptional (.keyword keyword) .integer Value.asInteger = .ok (some value) :=
    getInteger_of_value hfits h
  rw [requireInteger, typedRequired, Loops.bind_ok hfound]

theorem requireUsize_of_value {size : ℕ} (hfits : size < 2 ^ 63)
    (h : header.value (.keyword keyword) = .ok (some (.ofInt size))) :
    header.requireUsize keyword = .ok size := by
  rw [requireUsize, Loops.bind_ok (requireInteger_of_value (by omega) h),
    if_pos (Int.natCast_nonneg size), Int.toNat_natCast]

theorem optionalUsize_of_value {size default : ℕ} (hfits : size < 2 ^ 63)
    (h : header.value (.keyword keyword) = .ok (some (.ofInt size))) :
    header.optionalUsize keyword default = .ok size := by
  rw [optionalUsize, Loops.bind_ok (getInteger_of_value (by omega) h)]
  dsimp only
  rw [if_pos (Int.natCast_nonneg size), Int.toNat_natCast]

theorem optionalUsize_of_none {default : ℕ} (h : header.value (.keyword keyword) = .ok none) :
    header.optionalUsize keyword default = .ok default := by
  rw [optionalUsize, Loops.bind_ok (getInteger_of_none h)]

theorem bitpix_of_value {bitpix : Bitpix}
    (h : header.value (.keyword .BITPIX) = .ok (some (.ofInt bitpix.code))) :
    header.bitpix = .ok bitpix := by
  have hfits : -2 ^ 63 ≤ bitpix.code ∧ bitpix.code < 2 ^ 63 := by cases bitpix <;> decide
  rw [Header.bitpix, Loops.bind_ok (requireInteger_of_value hfits h)]
  cases bitpix <;> rfl

/-- A read of one length after another gives all of them. -/
theorem mapM_lengths {read : ℕ → Outcome ℕ} {lengths : List ℕ}
    (h : ∀ (i length : ℕ), lengths[i]? = some length → read i = .ok length) :
    (List.range lengths.length).mapM read = .ok lengths := by
  rw [@Loops.mapM_eq_map _ _ _ _ (fun n => lengths.getD n 0)]
  · congr 1
    refine List.ext_getElem? fun i => ?_
    rw [List.getElem?_map]
    by_cases hi : i < lengths.length
    · rw [List.getElem?_range hi, Option.map_some, List.getD_eq_getElem?_getD,
        List.getElem?_eq_getElem hi, Option.getD_some]
    · rw [List.getElem?_eq_none (by rw [List.length_range]; omega), List.getElem?_eq_none (by omega)]
      rfl
  · intro n hn
    have hlt := List.mem_range.mp hn
    rw [h n _ (List.getElem?_eq_getElem hlt), List.getD_eq_getElem?_getD,
      List.getElem?_eq_getElem hlt]
    rfl

/-- The axes of a header that holds their number and each length. -/
theorem axes_of_values {lengths : List ℕ} (hcount : lengths.length ≤ 999)
    (hnaxis : header.value (.keyword .NAXIS) = .ok (some (.ofInt lengths.length)))
    (haxes : ∀ (i length : ℕ), lengths[i]? = some length → ∃ keyword,
      Keyword.NAXIS.indexed (i + 1) = .ok keyword ∧ length < 2 ^ 63 ∧
        header.value (.keyword keyword) = .ok (some (.ofInt length))) :
    header.axes = .ok lengths := by
  have hcounted : header.naxis = .ok lengths.length := by
    rw [naxis, Loops.bind_ok (requireUsize_of_value (by omega) hnaxis), if_neg (by omega)]
  rw [axes, Loops.bind_ok hcounted]
  refine mapM_lengths fun i length hlength => ?_
  obtain ⟨keyword, hkeyword, hfits, hvalue⟩ := haxes i length hlength
  rw [Loops.bind_ok hkeyword, requireUsize_of_value hfits hvalue]

end Words

end FitsWell.Header
