import FitsWell.Column.FormatText
import FitsWell.HeaderModel.Integers

/-!
# Datetimes

A datetime is a date of the proleptic Gregorian calendar and a time of day, valid by construction.
Seconds are any type that computes, reads and prints as the standard library's `f64`.
-/

namespace FitsWell

open Utf8

/-! ## The calendar -/

/-- Whether `year` is a leap year in the proleptic Gregorian calendar. -/
def isLeapYear (year : ℤ) : Bool :=
  year.tmod 4 == 0 && (year.tmod 100 != 0 || year.tmod 400 == 0)

/-- Number of days in `month` (1–12) of `year`; `0` for an out-of-range month. -/
def daysInMonth (year : ℤ) (month : ℕ) : ℕ :=
  if month ∈ [1, 3, 5, 7, 8, 10, 12] then 31
  else if month ∈ [4, 6, 9, 11] then 30
  else if month = 2 then if isLeapYear year then 29 else 28
  else 0

/-- The date `year`-`month`-`day` exists. -/
structure DateExists (year : ℤ) (month day : ℕ) : Prop where
  year_range : -99999 ≤ year ∧ year ≤ 99999
  month_range : 1 ≤ month ∧ month ≤ 12
  day_range : 1 ≤ day ∧ day ≤ daysInMonth year month

/-- The time `hour`:`minute`:`second` exists: a second of 60 at 23:59 alone. -/
structure TimeExists (hour minute second : ℕ) : Prop where
  hour_lt : hour < 24
  minute_lt : minute < 60
  second_lt : second < 60 ∨ (second = 60 ∧ hour = 23 ∧ minute = 59)

instance (year : ℤ) (month day : ℕ) : Decidable (DateExists year month day) :=
  decidable_of_iff ((-99999 ≤ year ∧ year ≤ 99999) ∧ (1 ≤ month ∧ month ≤ 12) ∧
      1 ≤ day ∧ day ≤ daysInMonth year month)
    ⟨fun h => ⟨h.1, h.2.1, h.2.2⟩, fun h => ⟨h.year_range, h.month_range, h.day_range⟩⟩

instance (hour minute second : ℕ) : Decidable (TimeExists hour minute second) :=
  decidable_of_iff (hour < 24 ∧ minute < 60 ∧
      (second < 60 ∨ (second = 60 ∧ hour = 23 ∧ minute = 59)))
    ⟨fun h => ⟨h.1, h.2.1, h.2.2⟩, fun h => ⟨h.hour_lt, h.minute_lt, h.second_lt⟩⟩

theorem midnight_exists : TimeExists 0 0 0 := ⟨by omega, by omega, by omega⟩

/-! ## Seconds -/

/-- The operations of `f64` on seconds. -/
class SecondReal (R : Type) extends RealText R where
  zero : R
  /-- `1.0 - f64::EPSILON / 2.0`, the largest below one. -/
  belowOne : R
  /-- `(0.0..end).contains(&value)`. -/
  within : ℕ → R → Bool
  /-- `value > 0.0`. -/
  isPositive : R → Bool
  /-- `a == b`. -/
  eq : R → R → Bool
  min : R → R → R
  floor : R → R
  sub : R → R → R
  /-- `value as u32`. -/
  toU32 : R → ℕ
  zero_within : within 1 zero = true

/-- The digits of a fraction read as one that is not above one, a fraction prints as digits that
read back as it, and what is left of a second below 61 without its whole seconds is a fraction. -/
class ReadsFractions (R : Type) [SecondReal R] : Prop where
  parse_fraction : ∀ digits : Text, isDigits digits = true → ∃ value : R,
    RealText.parse (ascii "0." ++ digits) = some value ∧
      SecondReal.within 1 (SecondReal.min value SecondReal.belowOne) = true
  display_fraction : ∀ fraction : R, SecondReal.within 1 fraction = true →
    SecondReal.isPositive fraction = true → ∃ digits : Text, isDigits digits = true ∧
      RealText.display fraction = ascii "0." ++ digits ∧
      RealText.parse (RealText.display fraction) = some fraction
  min_belowOne : ∀ fraction : R, SecondReal.within 1 fraction = true →
    SecondReal.min fraction SecondReal.belowOne = fraction
  eq_self : ∀ fraction : R, SecondReal.within 1 fraction = true →
    SecondReal.eq fraction fraction = true
  eq_zero : ∀ fraction : R, SecondReal.within 1 fraction = true →
    SecondReal.isPositive fraction = false → SecondReal.eq SecondReal.zero fraction = true
  sub_floor : ∀ second : R, SecondReal.within 61 second = true →
    SecondReal.within 1 (SecondReal.sub second (SecondReal.floor second)) = true

/-- A calendar datetime. -/
structure Datetime (R : Type) [SecondReal R] where
  year : ℤ
  month : ℕ
  day : ℕ
  hour : ℕ
  minute : ℕ
  /-- The whole second, 0 to 60. -/
  second : ℕ
  /-- The fraction of the second, in `[0, 1)`. -/
  fraction : R
  date_exists : DateExists year month day
  time_exists : TimeExists hour minute second
  fraction_within : SecondReal.within 1 fraction = true

/-- The error of a datetime that no keyword holds. -/
def invalidDatetime {α : Type} : Outcome α := fail (.invalidDatetime none)

/-- A value, or an error where there is none. -/
def orInvalid {α : Type} (value : Option α) : Outcome α :=
  match value with
  | some value => .ok value
  | none => invalidDatetime

namespace Datetime

variable {R : Type} [SecondReal R]

/-- `a == b`, field by field. -/
def beq (a b : Datetime R) : Bool :=
  a.year == b.year && a.month == b.month && a.day == b.day && a.hour == b.hour &&
    a.minute == b.minute && a.second == b.second && SecondReal.eq a.fraction b.fraction

/-- Midnight of the date `year`-`month`-`day`. -/
def date (year : ℤ) (month day : ℕ) : Outcome (Datetime R) :=
  if h : DateExists year month day then
    .ok { year, month, day, hour := 0, minute := 0, second := 0, fraction := SecondReal.zero
          date_exists := h, time_exists := midnight_exists
          fraction_within := SecondReal.zero_within }
  else
    invalidDatetime

/-- A date at a time of day, its second in whole seconds and a fraction. -/
def atSplit (datetime : Datetime R) (hour minute second : ℕ) (fraction : R) :
    Outcome (Datetime R) :=
  if hfraction : SecondReal.within 1 fraction = true then
    if htime : TimeExists hour minute second then
      .ok { datetime with hour, minute, second, fraction
                          time_exists := htime, fraction_within := hfraction }
    else
      invalidDatetime
  else
    abort .debugAssertion

/-- A date at `hour`:`minute`:`second`. -/
def atTime (datetime : Datetime R) (hour minute : ℕ) (second : R) : Outcome (Datetime R) :=
  if SecondReal.within 61 second = true then
    let whole := SecondReal.floor second
    datetime.atSplit hour minute (SecondReal.toU32 whole) (SecondReal.sub second whole)
  else
    invalidDatetime

/-! ## Reads -/

/-- Parse a field of all digits and of `width` bytes. -/
def parseFixed (s : List Char) (width : ℕ) : Option ℕ :=
  if (encode s).length ≠ width ∨ isDigits (encode s) = false then none else parseU32 (encode s)

/-- The number of two digits. -/
def field (a b : UInt8) : Option ℕ :=
  if isAsciiDigit a && isAsciiDigit b then some ((a - 0x30).toNat * 10 + (b - 0x30).toNat)
  else none

/-- The date of a string after the sign of its year, the year of `yearWidth` digits. -/
def readFields (sign : ℤ) (yearWidth : ℕ) (rest : List Char) : Outcome (Datetime R) :=
  match rest.splitOn '-' with
  | [y, m, d] =>
    if (encode y).length ≠ yearWidth ∨ isDigits (encode y) = false then
      invalidDatetime
    else do
      let year ← orInvalid (parseI64 (encode y))
      let month ← orInvalid (parseFixed m 2)
      let day ← orInvalid (parseFixed d 2)
      date (sign * year) month day
  | _ => invalidDatetime

/-- The date of a string: a sign selects the five-digit year. -/
def readDate (text : List Char) : Outcome (Datetime R) :=
  match text with
  | '-' :: rest => readFields (-1) 5 rest
  | '+' :: rest => readFields 1 5 rest
  | _ => readFields 1 4 text

/-- The fraction after a point, where there is one. -/
def readFraction (fraction : Option (List Char)) : Outcome R :=
  match fraction with
  | some digits =>
    if isDigits (encode digits) = true then do
      let value ← orInvalid (RealText.parse (ascii "0." ++ encode digits))
      .ok (SecondReal.min value SecondReal.belowOne)
    else
      invalidDatetime
  | none => .ok SecondReal.zero

/-- A date at the time of day of a string. -/
def readTime (datetime : Datetime R) (time : List Char) : Outcome (Datetime R) :=
  match time.splitOn ':' with
  | [h, m, seconds] => do
    let hour ← orInvalid (parseFixed h 2)
    let minute ← orInvalid (parseFixed m 2)
    let (whole, digits) := match splitOnce seconds '.' with
      | some (whole, digits) => (whole, some digits)
      | none => (seconds, none)
    let second ← orInvalid (parseFixed whole 2)
    let fraction ← readFraction digits
    datetime.atSplit hour minute second fraction
  | _ => invalidDatetime

/-- The datetime of a string that is not of the old form. -/
def readIso (s : List Char) : Outcome (Datetime R) :=
  if s.contains 'Z' || s.contains 'z' then
    invalidDatetime
  else
    match splitOnce s 'T' with
    | some (date, time) => do
      let datetime ← readDate date
      datetime.readTime time
    | none => readDate s

/-- The datetime that a string spells. -/
def fromStr (value : List Char) : Outcome (Datetime R) :=
  let s := trimStr value
  match encode s with
  | [d1, d2, 0x2f, m1, m2, 0x2f, y1, y2] => do
    let day ← orInvalid (field d1 d2)
    let month ← orInvalid (field m1 m2)
    let year ← orInvalid (field y1 y2)
    date (1900 + year) month day
  | _ => readIso s

/-! ## Prints -/

/-- A year: four digits, or a sign and five outside 0 to 9999. -/
def yearText (year : ℤ) : Text :=
  if 0 ≤ year ∧ year ≤ 9999 then Decimal.padded 4 year.natAbs
  else (if year < 0 then 0x2d else 0x2b) :: Decimal.padded 5 year.natAbs

/-- The point and the digits of a fraction that is not zero. -/
def fractionText (fraction : R) : Outcome Text :=
  if SecondReal.isPositive fraction = true then
    match RealText.display fraction with
    | 0x30 :: rest => .ok rest
    | _ => abort .expectation
  else
    .ok []

/-- The text of a datetime. -/
def display (datetime : Datetime R) : Outcome Text := do
  let fraction ← fractionText datetime.fraction
  .ok (yearText datetime.year ++ 0x2d :: Decimal.padded 2 datetime.month ++
    0x2d :: Decimal.padded 2 datetime.day ++ 0x54 :: Decimal.padded 2 datetime.hour ++
    0x3a :: Decimal.padded 2 datetime.minute ++ 0x3a :: Decimal.padded 2 datetime.second ++
    fraction)

end Datetime

end FitsWell
