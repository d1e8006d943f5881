import FitsWell.HeaderModel.SetReads
import FitsWell.ImageModel.Scaling

/-!
# The scaling of an image in its header

A scaling is checked against the type of the samples before its records are set.
-/

namespace FitsWell

variable {R : Type}

namespace Scaling

variable [PlaneReals R] (scaling : Scaling R)

/-- Whether a null is a sample of the type. -/
def holdsInteger (bitpix : Bitpix) (value : ℤ) : Bool :=
  match bitpix with
  | .u8 => decide (0 ≤ value ∧ value < 2 ^ 8)
  | .i16 => decide (-2 ^ 15 ≤ value ∧ value < 2 ^ 15)
  | .i32 => decide (-2 ^ 31 ≤ value ∧ value < 2 ^ 31)
  | .i64 => true
  | .f32 | .f64 => false

/-- Refuse a map that a header cannot hold for samples of a type. -/
def validate (bitpix : Bitpix) : Outcome Unit :=
  if !RealText.isFinite scaling.bscale then
    fail (.invalidKeywordValue Keyword.BSCALE.asStr .ofRange)
  else if !RealText.isFinite scaling.bzero then
    fail (.invalidKeywordValue Keyword.BZERO.asStr .ofRange)
  else
    match scaling.blank with
    | none => .ok ()
    | some blank =>
      if holdsInteger bitpix blank then .ok ()
      else fail (.invalidKeywordValue Keyword.BLANK.asStr .ofRange)

/-- The value of the zero: the offset of unsigned words is an integer. -/
def zeroValue (bitpix : Bitpix) : Value R :=
  if bitpix = .i64 ∧ PlaneReals.same scaling.bscale (RealText.ofI64 1) ∧
      PlaneReals.same scaling.bzero (PlaneReals.ofU64 (2 ^ 63)) then
    .ofInt (2 ^ 63)
  else
    .real scaling.bzero

/-- Set the records of a map that is not the identity. -/
def addMap (header : Header R) (bitpix : Bitpix) : Outcome (Header R) :=
  if scaling.isIdentity then .ok header
  else header.setAll [(.BZERO, scaling.zeroValue bitpix), (.BSCALE, .real scaling.bscale)]

/-- Set the record of the null. -/
def addBlank (header : Header R) : Outcome (Header R) :=
  match scaling.blank with
  | none => .ok header
  | some blank => header.setInternal .BLANK (.ofInt blank)

/-- Set the records of the map and of the null. -/
def addToHeader (header : Header R) (bitpix : Bitpix) : Outcome (Header R) := do
  scaling.validate bitpix
  let header ← scaling.addMap header bitpix
  scaling.addBlank header

/-- Every keyword but the scaling's reads as it did. -/
theorem value_addToHeader {scaling : Scaling R} {bitpix : Bitpix} {header next : Header R}
    (h : scaling.addToHeader header bitpix = .ok next) {keyword : Keyword}
    (hother : keyword ≠ .BZERO ∧ keyword ≠ .BSCALE ∧ keyword ≠ .BLANK) :
    next.value (.keyword keyword) = header.value (.keyword keyword) := by
  obtain ⟨_, -, h⟩ := Loops.ok_of_bind h
  obtain ⟨mapped, hmap, h⟩ := Loops.ok_of_bind h
  have hmapped : mapped.value (.keyword keyword) = header.value (.keyword keyword) := by
    unfold addMap at hmap
    split at hmap
    · rw [Except.ok.inj hmap]
    · refine (Header.value_setAll hmap).1 keyword ?_
      simp [hother]
  rw [← hmapped]
  unfold addBlank at h
  split at h
  · rw [Except.ok.inj h]
  · exact Header.value_set_of_ne (Header.ok_of_expectOk h) hother.2.2

end Scaling

end FitsWell
