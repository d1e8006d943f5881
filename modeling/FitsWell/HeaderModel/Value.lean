import FitsWell.Library.Decimal
import FitsWell.Slices

/-!
# Header values

An integer is kept exactly, whatever its size. Reals are any type that reads and spells
its values as the standard library does `f64`.
-/

namespace FitsWell

/-! ## Integers -/

/-- An integer's digits after its sign. -/
def splitSign (token : Text) : Bool × Text :=
  match token with
  | [] => (false, [])
  | first :: rest =>
    if first = 0x2b then (false, rest) else if first = 0x2d then (true, rest) else (false, token)

/-- Whether text is one or more digits. -/
def isDigits (digits : Text) : Bool := !digits.isEmpty && digits.all isAsciiDigit

/-- The integer of a sign and a magnitude. -/
def signed (negative : Bool) (magnitude : ℕ) : ℤ :=
  if negative then -(magnitude : ℤ) else magnitude

/-- `token.parse::<i64>()`. -/
def parseI64 (token : Text) : Option ℤ :=
  let (negative, digits) := splitSign token
  if isDigits digits then
    let value := signed negative (Decimal.value digits)
    if -2 ^ 63 ≤ value ∧ value < 2 ^ 63 then some value else none
  else
    none

/-- A word, or the decimal of an integer past it: its sign, and its digits with no zero
first. -/
inductive IntegerRepr
  | i64 (value : ℤ)
  | decimal (negative : Bool) (digits : Text)
  deriving DecidableEq, Repr

/-- The word fits, and the decimal does not. -/
def IntegerRepr.Canonical : IntegerRepr → Prop
  | .i64 value => -2 ^ 63 ≤ value ∧ value < 2 ^ 63
  | .decimal negative digits =>
    isDigits digits = true ∧ digits.head? ≠ some 0x30 ∧
      ¬(-2 ^ 63 ≤ signed negative (Decimal.value digits) ∧
        signed negative (Decimal.value digits) < 2 ^ 63)

/-- A signed decimal integer of any size. -/
structure FitsInteger where
  repr : IntegerRepr
  canonical : repr.Canonical
  deriving DecidableEq

/-- An integer as a record spells it. -/
def FitsInteger.display (integer : FitsInteger) : Text :=
  match integer.repr with
  | .i64 value =>
    (if value < 0 then [0x2d] else []) ++ Decimal.numeral value.natAbs
  | .decimal negative digits => (if negative then [0x2d] else []) ++ digits

/-! ## Values -/

/-- A type of reals, with the standard library's conversions to and from text. -/
class RealText (R : Type) where
  /-- `text.parse::<f64>()`. -/
  parse : Text → Option R
  isFinite : R → Bool
  /-- `real.fract() == 0.0`. -/
  isWhole : R → Bool
  /-- The plain decimal. -/
  display : R → Text
  /-- The decimal with an exponent after an `E`. -/
  upperExp : R → Text
  /-- `value as f64`. -/
  ofI64 : ℤ → R

/-- A whole number that a token spells, of any size. -/
def parseWhole (token : Text) : Option ℤ :=
  let (negative, digits) := splitSign token
  if isDigits digits then some (signed negative (Decimal.value digits)) else none

/-- A token without the `.0` or the `E0` that it may end with. -/
def wholePart (token : Text) : Text :=
  if (ascii ".0").isSuffixOf token || (ascii "E0").isSuffixOf token then token.dropLast.dropLast
  else token

/-- A whole number in decimal. -/
def wholeText (value : ℤ) : Text :=
  (if value < 0 then [0x2d] else []) ++ Decimal.numeral value.natAbs

/-- Whole numbers as reals. -/
instance wholeReals : RealText ℤ where
  parse token := parseWhole (wholePart token)
  isFinite _ := true
  isWhole _ := true
  display := wholeText
  upperExp value := wholeText value ++ ascii "E0"
  ofI64 value := value

/-- The value of a header record. -/
inductive Value (R : Type)
  | logical (value : Bool)
  | integer (integer : FitsInteger)
  | real (real : R)
  | text (text : Text)
  | complexInteger (re im : FitsInteger)
  | complexReal (re im : R)
  | undefined
  deriving DecidableEq

variable {R : Type}

/-- Text with each quote doubled. -/
def escaped (text : Text) : Text :=
  text.flatMap fun byte => if byte = quote then [quote, quote] else [byte]

/-- The length of text once each quote is doubled. -/
def escapedLen (text : Text) : ℕ := text.length + text.count quote

/-- A real as a record spells it, never as a bare integer. -/
def writeReal [RealText R] (real : R) : Text :=
  let plain := RealText.display real
  if 20 < plain.length ∧ (RealText.upperExp real).length < plain.length then
    RealText.upperExp real
  else
    plain ++ if RealText.isWhole real then ascii ".0" else []

/-- A value as a record spells it. A string is padded to eight characters, save the null
string. -/
def writeValue [RealText R] : Value R → Text
  | .logical true => ascii "T"
  | .logical false => ascii "F"
  | .integer integer => integer.display
  | .real real => writeReal real
  | .text text =>
    if text.isEmpty then
      [quote, quote]
    else
      [quote] ++ escaped text ++ List.replicate (8 - escapedLen text) space ++ [quote]
  | .complexInteger re im => ascii "(" ++ re.display ++ ascii ", " ++ im.display ++ ascii ")"
  | .complexReal re im => ascii "(" ++ writeReal re ++ ascii ", " ++ writeReal im ++ ascii ")"
  | .undefined => []

/-- The length of a value as a record spells it. -/
def renderedLen [RealText R] (value : Value R) : ℕ := (writeValue value).length

theorem length_escaped (text : Text) : (escaped text).length = escapedLen text := by
  induction text with
  | nil => rfl
  | cons byte text ih =>
    unfold escaped escapedLen at ih ⊢
    rw [List.flatMap_cons, List.length_append, ih, List.length_cons, List.count_cons]
    split <;> simp_all <;> omega

end FitsWell
