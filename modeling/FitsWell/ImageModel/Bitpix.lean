import Mathlib.Algebra.Ring.Int.Defs
import Mathlib.Data.Nat.Notation

/-!
# Sample types

The element type an array's `BITPIX` names, and the integer ones among them, in which
the lossless codecs work.
-/

namespace FitsWell

/-- The physical element type of an array. -/
inductive Bitpix
  | u8
  | i16
  | i32
  | i64
  | f32
  | f64
  deriving DecidableEq, Repr

/-- The integer `BITPIX` value of a type: a float's is negative. -/
def Bitpix.code : Bitpix → ℤ
  | .u8 => 8
  | .i16 => 16
  | .i32 => 32
  | .i64 => 64
  | .f32 => -32
  | .f64 => -64

/-- The size of an element in bytes, `|BITPIX| / 8`. -/
def Bitpix.elemSize (bitpix : Bitpix) : ℕ := bitpix.code.natAbs / 8

/-- An integer `BITPIX`: the plane the lossless codecs work in. -/
inductive IntBitpix
  | u8
  | i16
  | i32
  | i64
  deriving DecidableEq, Repr

/-- The sample type of an integer plane. -/
def IntBitpix.bitpix : IntBitpix → Bitpix
  | .u8 => .u8
  | .i16 => .i16
  | .i32 => .i32
  | .i64 => .i64

/-- The size of a sample in bytes. -/
def IntBitpix.elemSize (bitpix : IntBitpix) : ℕ := bitpix.bitpix.elemSize

/-- Whether an integer is a sample of the plane: `BITPIX = 8` is the one unsigned width. -/
def IntBitpix.Holds (bitpix : IntBitpix) (value : ℤ) : Prop :=
  match bitpix with
  | .u8 => 0 ≤ value ∧ value < 2 ^ 8
  | .i16 => -2 ^ 15 ≤ value ∧ value < 2 ^ 15
  | .i32 => -2 ^ 31 ≤ value ∧ value < 2 ^ 31
  | .i64 => -2 ^ 63 ≤ value ∧ value < 2 ^ 63

instance (bitpix : IntBitpix) (value : ℤ) : Decidable (bitpix.Holds value) := by
  cases bitpix <;> exact inferInstanceAs (Decidable (_ ∧ _))

end FitsWell
