import FitsWell.TimeCoordinates.Datetime

/-!
# Datetimes as text

The form of a datetime is given apart from the code that reads and prints it. What is read is of the
form, save the dates of the old one, and what is printed is of it and reads back.
-/

namespace FitsWell

open Utf8

/-! ## The form -/

/-- Two digits. -/
def IsPair (digits : Text) : Prop := isDigits digits = true ∧ digits.length = 2

/-- A year: four digits, or a sign and five. -/
inductive SpellsYear : Text → ℤ → Prop
  | plain {digits : Text} (h : isDigits digits = true) (hlength : digits.length = 4) :
      SpellsYear digits (Decimal.value digits)
  | plus {digits : Text} (h : isDigits digits = true) (hlength : digits.length = 5) :
      SpellsYear (0x2b :: digits) (Decimal.value digits)
  | minus {digits : Text} (h : isDigits digits = true) (hlength : digits.length = 5) :
      SpellsYear (0x2d :: digits) (-(Decimal.value digits : ℤ))

/-- A date: the year, the month and the day with dashes between. -/
inductive SpellsDate : Text → ℤ → ℕ → ℕ → Prop
  | mk {y m d : Text} {year : ℤ} (hyear : SpellsYear y year) (hmonth : IsPair m) (hday : IsPair d) :
      SpellsDate (y ++ 0x2d :: (m ++ 0x2d :: d)) year (Decimal.value m) (Decimal.value d)

/-- What follows a whole second: nothing, or a point and digits. -/
inductive SpellsFraction : Text → Option Text → Prop
  | whole : SpellsFraction [] none
  | point {digits : Text} (h : isDigits digits = true) : SpellsFraction (0x2e :: digits) (some digits)

/-- A time of day: the hour, the minute and the second with colons between, and the fraction. -/
inductive SpellsTime : Text → ℕ → ℕ → ℕ → Option Text → Prop
  | mk {h m s rest : Text} {fraction : Option Text} (hhour : IsPair h) (hminute : IsPair m)
      (hsecond : IsPair s) (hfraction : SpellsFraction rest fraction) :
      SpellsTime (h ++ 0x3a :: (m ++ 0x3a :: (s ++ rest))) (Decimal.value h) (Decimal.value m)
        (Decimal.value s) fraction

/-- A date and a time to the whole second. -/
structure Stamp where
  year : ℤ
  month : ℕ
  day : ℕ
  hour : ℕ
  minute : ℕ
  second : ℕ
  deriving DecidableEq, Repr

/-- A date, which is its midnight, or a date and a time with a `T` between. -/
inductive Spells : Text → Stamp → Prop
  | date {text : Text} {year : ℤ} {month day : ℕ} (h : SpellsDate text year month day) :
      Spells text ⟨year, month, day, 0, 0, 0⟩
  | moment {date time : Text} {year : ℤ} {month day hour minute second : ℕ}
      {fraction : Option Text} (hdate : SpellsDate date year month day)
      (htime : SpellsTime time hour minute second fraction) :
      Spells (date ++ 0x54 :: time) ⟨year, month, day, hour, minute, second⟩

/-- The date and the time of a datetime to the whole second. -/
def Datetime.stamp {R : Type} [SecondReal R] (datetime : Datetime R) : Stamp :=
  ⟨datetime.year, datetime.month, datetime.day, datetime.hour, datetime.minute, datetime.second⟩

/-- The form `DD/MM/YY` of a date before 2000. -/
def IsSlashForm (bytes : Text) : Prop :=
  ∃ d1 d2 m1 m2 y1 y2, bytes = [d1, d2, 0x2f, m1, m2, 0x2f, y1, y2]

/-! ## The form is of one datetime -/

theorem SpellsYear.denotes {y : Text} {year : ℤ} (h : SpellsYear y year) : Denotes y year := by
  cases h with
  | plain h _ => exact .unsigned h
  | plus h _ => exact .plus h
  | minus h _ => exact .minus h

/-- A year's first byte says how long it is. -/
theorem SpellsYear.length_eq {y : Text} {year : ℤ} (h : SpellsYear y year) :
    y.length = if y.head?.any isAsciiDigit then 4 else 6 := by
  cases h with
  | plain h hlength =>
    obtain ⟨first, rest, rfl⟩ := List.exists_cons_of_length_eq_add_one hlength
    rw [isDigits, Bool.and_eq_true, List.all_eq_true] at h
    rw [List.head?_cons, Option.any_some, if_pos (h.2 first List.mem_cons_self), hlength]
  | plus h hlength => exact congrArg (· + 1) hlength
  | minus h hlength => exact congrArg (· + 1) hlength

theorem SpellsYear.unique {y y' rest rest' : Text} {year year' : ℤ} (h : SpellsYear y year)
    (h' : SpellsYear y' year') (heq : y ++ rest = y' ++ rest') :
    y = y' ∧ rest = rest' ∧ year = year' := by
  have hhead : y.head? = y'.head? := by
    have hne : ∀ {z : Text} {value : ℤ}, SpellsYear z value → z ≠ [] := by
      rintro z value hz rfl
      cases hz.length_eq
    have hfirst := congrArg List.head? heq
    rwa [List.head?_append_of_ne_nil _ (hne h), List.head?_append_of_ne_nil _ (hne h')] at hfirst
  have hlength : y.length = y'.length := by rw [h.length_eq, h'.length_eq, hhead]
  obtain ⟨rfl, rfl⟩ := List.append_inj heq hlength
  have hvalue := parseWhole_eq_some_iff.mpr h.denotes
  rw [parseWhole_eq_some_iff.mpr h'.denotes] at hvalue
  exact ⟨rfl, rfl, (Option.some.inj hvalue).symm⟩

theorem IsPair.unique {pair pair' rest rest' : Text} (h : IsPair pair) (h' : IsPair pair')
    (heq : pair ++ rest = pair' ++ rest') : pair = pair' ∧ rest = rest' :=
  List.append_inj heq (h.2.trans h'.2.symm)

theorem SpellsDate.unique {text text' : Text} (rest rest' : Text) {year year' : ℤ} {month month' day day' : ℕ}
    (h : SpellsDate text year month day) (h' : SpellsDate text' year' month' day')
    (heq : text ++ rest = text' ++ rest') :
    rest = rest' ∧ year = year' ∧ month = month' ∧ day = day' := by
  obtain ⟨hyear, hmonth, hday⟩ := h
  obtain ⟨hyear', hmonth', hday'⟩ := h'
  simp only [List.append_assoc, List.cons_append] at heq
  obtain ⟨-, hdashed, hy⟩ := hyear.unique hyear' heq
  obtain ⟨rfl, hdashed'⟩ := hmonth.unique hmonth' (List.cons.inj hdashed).2
  obtain ⟨rfl, hrest⟩ := hday.unique hday' (List.cons.inj hdashed').2
  exact ⟨hrest, hy, rfl, rfl⟩

theorem SpellsTime.unique {text : Text} {hour hour' minute minute' second second' : ℕ}
    {fraction fraction' : Option Text} (h : SpellsTime text hour minute second fraction)
    (h' : SpellsTime text hour' minute' second' fraction') :
    hour = hour' ∧ minute = minute' ∧ second = second' := by
  generalize heq : text = text' at h'
  obtain ⟨hhour, hminute, hsecond, -⟩ := h
  obtain ⟨hhour', hminute', hsecond', -⟩ := h'
  obtain ⟨rfl, hcolon⟩ := hhour.unique hhour' heq
  obtain ⟨rfl, hcolon'⟩ := hminute.unique hminute' (List.cons.inj hcolon).2
  obtain ⟨rfl, -⟩ := hsecond.unique hsecond' (List.cons.inj hcolon').2
  exact ⟨rfl, rfl, rfl⟩

/-- Text spells one date and one time at most. -/
theorem Spells.unique {text : Text} {stamp stamp' : Stamp} (h : Spells text stamp)
    (h' : Spells text stamp') : stamp = stamp' := by
  generalize heq : text = text' at h'
  cases h with
  | date hdate =>
    cases h' with
    | date hdate' =>
      subst heq
      obtain ⟨-, rfl, rfl, rfl⟩ := hdate.unique [] [] hdate' rfl
      rfl
    | moment hdate' _ =>
      rw [← List.append_nil text] at heq
      obtain ⟨hnil, -⟩ := hdate.unique _ _ hdate' heq
      cases hnil
  | moment hdate htime =>
    cases h' with
    | date hdate' =>
      rw [← List.append_nil text'] at heq
      obtain ⟨hnil, -⟩ := hdate.unique _ _ hdate' heq
      cases hnil
    | moment hdate' htime' =>
      obtain ⟨hrest, rfl, rfl, rfl⟩ := hdate.unique _ _ hdate' heq
      obtain ⟨-, rfl⟩ := List.cons.inj hrest
      obtain ⟨rfl, rfl, rfl⟩ := htime.unique htime'
      rfl

/-! ## Fields -/

theorem isDigit_of_isDigits {digits : Text} (h : isDigits digits = true) :
    ∀ byte ∈ digits, Decimal.IsDigit byte := by
  rw [isDigits, Bool.and_eq_true, List.all_eq_true] at h
  exact fun byte hbyte => FitsInteger.isDigit_of_isAsciiDigit (h.2 byte hbyte)

theorem isAscii_of_isDigits {digits : Text} (h : isDigits digits = true) :
    ∀ byte ∈ digits, byte.toNat < 0x80 := fun byte hbyte =>
  lt_of_le_of_lt (isDigit_of_isDigits h byte hbyte).2 (by decide)

theorem isDigits_padded (width n : ℕ) : isDigits (Decimal.padded width n) = true := by
  rw [isDigits, Bool.and_eq_true, List.all_eq_true]
  refine ⟨?_, fun byte hbyte => isAsciiDigit_of_isDigit (Decimal.isDigit_padded hbyte)⟩
  simpa [Decimal.padded] using fun _ => Decimal.numeral_ne_nil n

/-- The characters of digits hold no separator. -/
theorem not_mem_ofAscii {digits : Text} (h : isDigits digits = true) {separator : Char}
    (hseparator : separator.toNat < 0x30 ∨ 0x39 < separator.toNat) :
    separator ∉ ofAscii digits := by
  intro hmem
  obtain ⟨byte, hbyte, rfl⟩ := List.mem_map.mp hmem
  obtain ⟨hlow, hhigh⟩ := isDigit_of_isDigits h byte hbyte
  rw [toNat_ofNat_byte] at hseparator
  omega

namespace Datetime

theorem parseU32_digits {digits : Text} (h : isDigits digits = true)
    (hrange : Decimal.value digits < 2 ^ 32) : parseU32 digits = some (Decimal.value digits) := by
  unfold parseU32
  dsimp only
  rw [if_neg (FitsInteger.head_ne_of_isDigits h (by decide)), if_pos ⟨h, hrange⟩]

/-- A field of two bytes reads exactly where they are digits. -/
theorem parseFixed_eq_some_iff {s : List Char} {n : ℕ} :
    parseFixed s 2 = some n ↔ IsPair (encode s) ∧ n = Decimal.value (encode s) := by
  unfold parseFixed
  by_cases hpair : IsPair (encode s)
  · have hlt := Decimal.value_lt (isDigit_of_isDigits hpair.1)
    rw [hpair.2] at hlt
    rw [if_neg (by rw [hpair.1, hpair.2]; simp), parseU32_digits hpair.1 (by omega)]
    exact ⟨fun h => ⟨hpair, (Option.some.inj h).symm⟩, fun h => congrArg some h.2.symm⟩
  · rw [if_pos]
    · exact ⟨nofun, fun h => absurd h.1 hpair⟩
    · by_contra hnot
      rw [not_or, not_not, Bool.not_eq_false] at hnot
      exact hpair ⟨hnot.2, hnot.1⟩

theorem parseI64_year {digits : Text} (h : isDigits digits = true) (hlength : digits.length ≤ 5) :
    parseI64 digits = some (Decimal.value digits : ℤ) := by
  have hlt : Decimal.value digits < 10 ^ 5 :=
    lt_of_lt_of_le (Decimal.value_lt (isDigit_of_isDigits h)) (Nat.pow_le_pow_right (by omega) hlength)
  rw [parseI64_eq, parseWhole_eq_some_iff.mpr (.unsigned h), Option.filter_some, if_pos]
  rw [decide_eq_true_iff]
  omega

theorem orInvalid_eq_ok {α : Type} {value : Option α} {found : α} :
    orInvalid value = .ok found ↔ value = some found := by
  cases value with
  | none => exact ⟨nofun, nofun⟩
  | some value =>
    exact ⟨fun h => congrArg some (Except.ok.inj h), fun h => congrArg Except.ok (Option.some.inj h)⟩

end Datetime

/-! ## Separators -/

theorem eq_of_splitOn {s a b d : List Char} {separator : Char}
    (h : s.splitOn separator = [a, b, d]) : s = a ++ separator :: (b ++ separator :: d) := by
  have hjoin : [separator].intercalate (s.splitOn separator) = s := List.intercalate_splitOn separator
  rw [← hjoin, h]
  simp [List.intercalate]

theorem splitOn_three {a b d : List Char} {separator : Char} (ha : separator ∉ a)
    (hb : separator ∉ b) (hd : separator ∉ d) :
    (a ++ separator :: (b ++ separator :: d)).splitOn separator = [a, b, d] := by
  rw [List.splitOn_append_cons_self_of_not_mem ha, List.splitOn_append_cons_self_of_not_mem hb,
    List.splitOn_eq_singleton hd]

theorem encode_append_cons {separator : Char} (h : IsAscii separator) (front back : List Char) :
    encode (front ++ separator :: back) =
      encode front ++ UInt8.ofNat separator.toNat :: encode back := by
  rw [encode_append, encode_cons, utf8EncodeChar_ascii h]
  rfl

theorem ofAscii_append_cons (front : Text) (byte : UInt8) (back : Text) :
    ofAscii (front ++ byte :: back) = ofAscii front ++ Char.ofNat byte.toNat :: ofAscii back := by
  rw [ofAscii, List.map_append, List.map_cons]
  rfl

/-! ## What is read is of the form -/

namespace Datetime

variable {R : Type} [SecondReal R]

theorem date_fields {year : ℤ} {month day : ℕ} {datetime : Datetime R}
    (h : date year month day = .ok datetime) : datetime.stamp = ⟨year, month, day, 0, 0, 0⟩ := by
  unfold date at h
  split at h
  · rw [← Except.ok.inj h]
    rfl
  · cases h

theorem readFields_spec {sign : ℤ} {yearWidth : ℕ} {rest : List Char} {datetime : Datetime R}
    (hwidth : yearWidth ≤ 5) (h : readFields sign yearWidth rest = .ok datetime) :
    ∃ y m d : Text, encode rest = y ++ 0x2d :: (m ++ 0x2d :: d) ∧ isDigits y = true ∧
      y.length = yearWidth ∧ IsPair m ∧ IsPair d ∧
      datetime.stamp = ⟨sign * Decimal.value y, Decimal.value m, Decimal.value d, 0, 0, 0⟩ := by
  unfold readFields at h
  split at h
  · rename_i y m d hsplit
    split at h
    · cases h
    · rename_i hyear
      rw [not_or, not_not, Bool.not_eq_false] at hyear
      obtain ⟨hlength, hdigits⟩ := hyear
      rw [parseI64_year hdigits (hlength.trans_le hwidth), orInvalid, Loops.bind_ok rfl] at h
      obtain ⟨month, hmonth, h⟩ := Loops.ok_of_bind h
      obtain ⟨day, hday, h⟩ := Loops.ok_of_bind h
      obtain ⟨hm, rfl⟩ := parseFixed_eq_some_iff.mp (orInvalid_eq_ok.mp hmonth)
      obtain ⟨hd, rfl⟩ := parseFixed_eq_some_iff.mp (orInvalid_eq_ok.mp hday)
      refine ⟨encode y, encode m, encode d, ?_, hdigits, hlength, hm, hd, date_fields h⟩
      rw [eq_of_splitOn hsplit, encode_append_cons (by decide), encode_append_cons (by decide)]
      rfl
  · cases h

/-- A date that is read is of the form. -/
theorem readDate_spec {text : List Char} {datetime : Datetime R} (h : readDate text = .ok datetime) :
    ∃ year month day, SpellsDate (encode text) year month day ∧
      datetime.stamp = ⟨year, month, day, 0, 0, 0⟩ := by
  have hsign : ∀ (sign : Char) (rest : List Char), IsAscii sign →
      encode (sign :: rest) = UInt8.ofNat sign.toNat :: encode rest := fun sign rest hsign => by
    rw [encode_cons, utf8EncodeChar_ascii hsign]
    rfl
  unfold readDate at h
  split at h
  · obtain ⟨y, m, d, hrest, hdigits, hlength, hm, hd, hstamp⟩ := readFields_spec le_rfl h
    rw [hsign _ _ (by decide), hrest, hstamp, neg_one_mul]
    exact ⟨_, _, _, .mk (.minus hdigits hlength) hm hd, rfl⟩
  · obtain ⟨y, m, d, hrest, hdigits, hlength, hm, hd, hstamp⟩ := readFields_spec le_rfl h
    rw [hsign _ _ (by decide), hrest, hstamp, one_mul]
    exact ⟨_, _, _, .mk (.plus hdigits hlength) hm hd, rfl⟩
  · obtain ⟨y, m, d, hrest, hdigits, hlength, hm, hd, hstamp⟩ := readFields_spec (by omega) h
    rw [hrest, hstamp, one_mul]
    exact ⟨_, _, _, .mk (.plain hdigits hlength) hm hd, rfl⟩

theorem atSplit_fields {datetime timed : Datetime R} {hour minute second : ℕ} {fraction : R}
    (h : datetime.atSplit hour minute second fraction = .ok timed) :
    timed.stamp = ⟨datetime.year, datetime.month, datetime.day, hour, minute, second⟩ := by
  unfold atSplit at h
  split at h
  · split at h
    · rw [← Except.ok.inj h]
      rfl
    · cases h
  · cases h

/-- A time of day that is read is of the form. -/
theorem readTime_spec {datetime timed : Datetime R} {time : List Char}
    (h : datetime.readTime time = .ok timed) :
    ∃ hour minute second fraction, SpellsTime (encode time) hour minute second fraction ∧
      timed.stamp = ⟨datetime.year, datetime.month, datetime.day, hour, minute, second⟩ := by
  unfold readTime at h
  split at h
  · rename_i hh mm seconds hsplit
    obtain ⟨hour, hhour, h⟩ := Loops.ok_of_bind h
    obtain ⟨minute, hminute, h⟩ := Loops.ok_of_bind h
    obtain ⟨hh2, rfl⟩ := parseFixed_eq_some_iff.mp (orInvalid_eq_ok.mp hhour)
    obtain ⟨hm2, rfl⟩ := parseFixed_eq_some_iff.mp (orInvalid_eq_ok.mp hminute)
    have htime : encode time = encode hh ++ 0x3a :: (encode mm ++ 0x3a :: encode seconds) := by
      rw [eq_of_splitOn hsplit, encode_append_cons (by decide), encode_append_cons (by decide)]
      rfl
    rw [htime]
    cases hpoint : splitOnce seconds '.' with
    | none =>
      rw [hpoint] at h
      obtain ⟨second, hsecond, h⟩ := Loops.ok_of_bind h
      obtain ⟨fraction, -, h⟩ := Loops.ok_of_bind h
      obtain ⟨hs2, rfl⟩ := parseFixed_eq_some_iff.mp (orInvalid_eq_ok.mp hsecond)
      have hspells := SpellsTime.mk hh2 hm2 hs2 .whole
      rw [List.append_nil] at hspells
      exact ⟨_, _, _, _, hspells, atSplit_fields h⟩
    | some parts =>
      obtain ⟨whole, digits⟩ := parts
      rw [hpoint] at h
      obtain ⟨second, hsecond, h⟩ := Loops.ok_of_bind h
      obtain ⟨fraction, hfraction, h⟩ := Loops.ok_of_bind h
      obtain ⟨hs2, rfl⟩ := parseFixed_eq_some_iff.mp (orInvalid_eq_ok.mp hsecond)
      have hdigits : isDigits (encode digits) = true := by
        by_contra hnot
        rw [readFraction, if_neg hnot] at hfraction
        cases hfraction
      have hseconds : encode seconds = encode whole ++ 0x2e :: encode digits := by
        rw [eq_append_of_splitOnce hpoint, encode_append_cons (by decide)]
        rfl
      rw [hseconds]
      exact ⟨_, _, _, _, .mk hh2 hm2 hs2 (.point hdigits), atSplit_fields h⟩
  · cases h

/-- A datetime that is read is of the form. -/
theorem readIso_spec {s : List Char} {datetime : Datetime R} (h : readIso s = .ok datetime) :
    Spells (encode s) datetime.stamp := by
  unfold readIso at h
  split at h
  · cases h
  · split at h
    · rename_i date time hsplit
      obtain ⟨dated, hdate, htime⟩ := Loops.ok_of_bind h
      obtain ⟨year, month, day, hspells, hstamp⟩ := readDate_spec hdate
      obtain ⟨hour, minute, second, fraction, hspells', hstamp'⟩ := readTime_spec htime
      obtain ⟨hyear, hmonth, hday, -⟩ := Stamp.mk.inj hstamp
      rw [eq_append_of_splitOnce hsplit, encode_append_cons (by decide), hstamp', hyear, hmonth, hday]
      exact .moment hspells hspells'
    · obtain ⟨year, month, day, hspells, hstamp⟩ := readDate_spec h
      rw [hstamp]
      exact .date hspells

/-- A string that is not of the old form, once trimmed, is read as a datetime. -/
theorem fromStr_of_not_slash {value : List Char} (h : ¬IsSlashForm (encode (trimStr value))) :
    (fromStr value : Outcome (Datetime R)) = readIso (trimStr value) := by
  unfold fromStr
  dsimp only
  split
  · rename_i d1 d2 m1 m2 y1 y2 hslash
    exact absurd ⟨d1, d2, m1, m2, y1, y2, hslash⟩ h
  · rfl

/-! ## What is of the form is read -/

theorem parseFixed_ofAscii {pair : Text} (h : IsPair pair) :
    parseFixed (ofAscii pair) 2 = some (Decimal.value pair) := by
  rw [parseFixed_eq_some_iff, encode_ofAscii (isAscii_of_isDigits h.1)]
  exact ⟨h, rfl⟩

theorem readFields_ofAscii (sign : ℤ) {yearWidth : ℕ} {y m d : Text} (hwidth : yearWidth ≤ 5)
    (hdigits : isDigits y = true) (hlength : y.length = yearWidth) (hm : IsPair m) (hd : IsPair d) :
    (readFields sign yearWidth (ofAscii (y ++ 0x2d :: (m ++ 0x2d :: d))) : Outcome (Datetime R)) =
      date (sign * Decimal.value y) (Decimal.value m) (Decimal.value d) := by
  have hsplit : (ofAscii (y ++ 0x2d :: (m ++ 0x2d :: d))).splitOn '-' =
      [ofAscii y, ofAscii m, ofAscii d] := by
    rw [ofAscii_append_cons, ofAscii_append_cons]
    exact splitOn_three (not_mem_ofAscii hdigits (by decide)) (not_mem_ofAscii hm.1 (by decide))
      (not_mem_ofAscii hd.1 (by decide))
  unfold readFields
  rw [hsplit]
  dsimp only
  rw [encode_ofAscii (isAscii_of_isDigits hdigits), if_neg (by rw [hdigits, hlength]; simp),
    parseI64_year hdigits (hlength.trans_le hwidth), parseFixed_ofAscii hm, parseFixed_ofAscii hd]
  rfl

/-- A date of the form reads as its fields. -/
theorem readDate_ofAscii {text : Text} {year : ℤ} {month day : ℕ}
    (h : SpellsDate text year month day) :
    (readDate (ofAscii text) : Outcome (Datetime R)) = date year month day := by
  obtain ⟨hyear, hm, hd⟩ := h
  cases hyear with
  | @plain y hdigits hlength =>
    have hfields := readFields_ofAscii (R := R) 1 (by omega) hdigits hlength hm hd
    rw [one_mul] at hfields
    rw [← hfields]
    obtain ⟨first, rest, rfl⟩ := List.exists_cons_of_length_eq_add_one hlength
    have hfirst : ∀ {sign : Char}, sign.toNat < 0x30 → Char.ofNat first.toNat ≠ sign := by
      rintro sign hsign rfl
      exact not_mem_ofAscii hdigits (.inl hsign) List.mem_cons_self
    unfold readDate
    split
    · next heq => exact absurd (List.cons.inj heq).1 (hfirst (by decide))
    · next heq => exact absurd (List.cons.inj heq).1 (hfirst (by decide))
    · rfl
  | plus hdigits hlength =>
    have hfields := readFields_ofAscii (R := R) 1 le_rfl hdigits hlength hm hd
    rw [one_mul] at hfields
    exact hfields
  | minus hdigits hlength =>
    have hfields := readFields_ofAscii (R := R) (-1) le_rfl hdigits hlength hm hd
    rw [neg_one_mul] at hfields
    exact hfields

/-- A time of day of the form reads as its fields. -/
theorem readTime_ofAscii {datetime : Datetime R} {text : Text} {hour minute second : ℕ}
    {fraction : Option Text} (h : SpellsTime text hour minute second fraction) :
    datetime.readTime (ofAscii text) = readFraction (fraction.map ofAscii) >>=
      datetime.atSplit hour minute second := by
  obtain ⟨hh, hm, hs, hfraction⟩ := h
  rename_i h m s rest
  have hcolon : ':' ∉ ofAscii (s ++ rest) := by
    intro hmem
    rw [ofAscii, List.map_append] at hmem
    rcases List.mem_append.mp hmem with hmem | hmem
    · exact not_mem_ofAscii hs.1 (by decide) hmem
    · cases hfraction with
      | whole => cases hmem
      | point hdigits =>
        rcases List.mem_cons.mp hmem with hpoint | hmem
        · exact absurd hpoint (by decide)
        · exact not_mem_ofAscii hdigits (by decide) hmem
  have hsplit : (ofAscii (h ++ 0x3a :: (m ++ 0x3a :: (s ++ rest)))).splitOn ':' =
      [ofAscii h, ofAscii m, ofAscii (s ++ rest)] := by
    rw [ofAscii_append_cons, ofAscii_append_cons]
    exact splitOn_three (not_mem_ofAscii hh.1 (by decide)) (not_mem_ofAscii hm.1 (by decide)) hcolon
  have hpoint : '.' ∉ ofAscii s := not_mem_ofAscii hs.1 (by decide)
  unfold readTime
  rw [hsplit]
  dsimp only
  rw [parseFixed_ofAscii hh, parseFixed_ofAscii hm]
  cases hfraction with
  | whole =>
    rw [List.append_nil, splitOnce_of_not_mem hpoint]
    dsimp only
    rw [parseFixed_ofAscii hs]
    rfl
  | @point digits hdigits =>
    have hsecond : splitOnce (ofAscii (s ++ 0x2e :: digits)) '.' =
        some (ofAscii s, ofAscii digits) := by
      rw [ofAscii_append_cons]
      exact splitOnce_append hpoint _
    rw [hsecond]
    dsimp only
    rw [parseFixed_ofAscii hs]
    rfl

end Datetime

/-! ## What is printed is of the form -/

/-- A digit, a sign, a point or a colon. -/
def IsStampByte (byte : UInt8) : Prop := 0x2b ≤ byte.toNat ∧ byte.toNat ≤ 0x3a

instance (byte : UInt8) : Decidable (IsStampByte byte) :=
  inferInstanceAs (Decidable (0x2b ≤ byte.toNat ∧ byte.toNat ≤ 0x3a))

theorem isStampByte_of_isDigits {digits : Text} (h : isDigits digits = true) :
    ∀ byte ∈ digits, IsStampByte byte := fun byte hbyte =>
  have hdigit := isDigit_of_isDigits h byte hbyte
  ⟨le_trans (by decide) hdigit.1, le_trans hdigit.2 (by decide)⟩

theorem SpellsYear.bytes {y : Text} {year : ℤ} (h : SpellsYear y year) :
    ∀ byte ∈ y, IsStampByte byte := by
  cases h with
  | plain h _ => exact isStampByte_of_isDigits h
  | plus h _ => exact List.forall_mem_cons.mpr ⟨by decide, isStampByte_of_isDigits h⟩
  | minus h _ => exact List.forall_mem_cons.mpr ⟨by decide, isStampByte_of_isDigits h⟩

theorem SpellsDate.bytes {text : Text} {year : ℤ} {month day : ℕ}
    (h : SpellsDate text year month day) : ∀ byte ∈ text, IsStampByte byte := by
  obtain ⟨hyear, hm, hd⟩ := h
  refine List.forall_mem_append.mpr ⟨hyear.bytes, List.forall_mem_cons.mpr ⟨by decide, ?_⟩⟩
  refine List.forall_mem_append.mpr ⟨isStampByte_of_isDigits hm.1, ?_⟩
  exact List.forall_mem_cons.mpr ⟨by decide, isStampByte_of_isDigits hd.1⟩

theorem SpellsTime.bytes {text : Text} {hour minute second : ℕ} {fraction : Option Text}
    (h : SpellsTime text hour minute second fraction) : ∀ byte ∈ text, IsStampByte byte := by
  obtain ⟨hh, hm, hs, hfraction⟩ := h
  refine List.forall_mem_append.mpr ⟨isStampByte_of_isDigits hh.1, ?_⟩
  refine List.forall_mem_cons.mpr ⟨by decide, ?_⟩
  refine List.forall_mem_append.mpr ⟨isStampByte_of_isDigits hm.1, ?_⟩
  refine List.forall_mem_cons.mpr ⟨by decide, ?_⟩
  refine List.forall_mem_append.mpr ⟨isStampByte_of_isDigits hs.1, ?_⟩
  cases hfraction with
  | whole => nofun
  | point hdigits => exact List.forall_mem_cons.mpr ⟨by decide, isStampByte_of_isDigits hdigits⟩

/-- A byte of a datetime is no blank and is ASCII. -/
theorem not_blank_of_stamp {byte : UInt8} (h : IsStampByte byte ∨ byte = 0x54) :
    isBlank byte = false ∧ byte.toNat < 0x80 := by
  rcases h with h | rfl
  · exact ⟨isBlank_of_le (le_trans (by decide) h.1), lt_of_le_of_lt h.2 (by decide)⟩
  · decide

/-- The characters of a date or of a time hold no letter. -/
theorem letter_not_mem {text : Text} (h : ∀ byte ∈ text, IsStampByte byte) {letter : Char}
    (hletter : 0x3a < letter.toNat) : letter ∉ ofAscii text := by
  intro hmem
  obtain ⟨byte, hbyte, rfl⟩ := List.mem_map.mp hmem
  rw [toNat_ofNat_byte] at hletter
  exact absurd hletter (Nat.not_lt.mpr (h byte hbyte).2)

theorem SpellsDate.length_le {text : Text} {year : ℤ} {month day : ℕ}
    (h : SpellsDate text year month day) : 10 ≤ text.length := by
  obtain ⟨hyear, hm, hd⟩ := h
  have hlength := hyear.length_eq
  have hmonth := hm.2
  have hday := hd.2
  simp only [List.length_append, List.length_cons]
  split at hlength
  · omega
  · omega

theorem isPair_padded {n : ℕ} (h : n < 100) : IsPair (Decimal.padded 2 n) := by
  have hlength : (Decimal.padded 2 n).length = 2 := Decimal.length_padded (by omega) h
  exact ⟨isDigits_padded 2 n, hlength⟩

namespace Datetime

variable {R : Type} [SecondReal R]

/-- What a year prints is of the form. -/
theorem spellsYear_yearText {year : ℤ} (h : -99999 ≤ year ∧ year ≤ 99999) :
    SpellsYear (yearText year) year := by
  unfold yearText
  split
  · have hspells := SpellsYear.plain (isDigits_padded 4 year.natAbs)
      (Decimal.length_padded (by omega) (by omega))
    rw [Decimal.value_padded] at hspells
    convert hspells using 1
    omega
  · have hlength : (Decimal.padded 5 year.natAbs).length = 5 :=
      Decimal.length_padded (by omega) (by omega)
    split
    · have hspells := SpellsYear.minus (isDigits_padded 5 year.natAbs) hlength
      rw [Decimal.value_padded] at hspells
      convert hspells using 1
      omega
    · have hspells := SpellsYear.plus (isDigits_padded 5 year.natAbs) hlength
      rw [Decimal.value_padded] at hspells
      convert hspells using 1
      omega

theorem daysInMonth_le (year : ℤ) (month : ℕ) : daysInMonth year month ≤ 31 := by
  unfold daysInMonth
  repeat' split
  all_goals omega

theorem spellsDate_display (datetime : Datetime R) :
    SpellsDate (yearText datetime.year ++ 0x2d :: (Decimal.padded 2 datetime.month ++
      0x2d :: Decimal.padded 2 datetime.day)) datetime.year datetime.month datetime.day := by
  obtain ⟨hyear, hmonth, hday⟩ := datetime.date_exists
  have hdays := daysInMonth_le datetime.year datetime.month
  have hspells := SpellsDate.mk (spellsYear_yearText hyear)
    (isPair_padded (n := datetime.month) (by omega)) (isPair_padded (n := datetime.day) (by omega))
  rwa [Decimal.value_padded, Decimal.value_padded] at hspells

theorem spellsTime_display (datetime : Datetime R) {rest : Text} {fraction : Option Text}
    (h : SpellsFraction rest fraction) :
    SpellsTime (Decimal.padded 2 datetime.hour ++ 0x3a :: (Decimal.padded 2 datetime.minute ++
      0x3a :: (Decimal.padded 2 datetime.second ++ rest)))
      datetime.hour datetime.minute datetime.second fraction := by
  obtain ⟨hhour, hminute, hsecond⟩ := datetime.time_exists
  have hspells := SpellsTime.mk (isPair_padded (n := datetime.hour) (by omega))
    (isPair_padded (n := datetime.minute) (by omega))
    (isPair_padded (n := datetime.second) (by omega)) h
  rwa [Decimal.value_padded, Decimal.value_padded, Decimal.value_padded] at hspells

/-- A fraction prints as what reads back as it. -/
theorem fractionText_spec [ReadsFractions R] {fraction : R}
    (h : SecondReal.within 1 fraction = true) : ∃ rest digits back,
      fractionText fraction = .ok rest ∧ SpellsFraction rest digits ∧
      readFraction (digits.map ofAscii) = .ok back ∧ SecondReal.within 1 back = true ∧
      SecondReal.eq back fraction = true := by
  unfold fractionText
  by_cases hpositive : SecondReal.isPositive fraction = true
  · obtain ⟨digits, hdigits, hdisplay, hparse⟩ :=
      ReadsFractions.display_fraction fraction h hpositive
    refine ⟨0x2e :: digits, some digits, fraction, ?_, .point hdigits, ?_, h,
      ReadsFractions.eq_self fraction h⟩
    · rw [if_pos hpositive, hdisplay]
      rfl
    · rw [hdisplay] at hparse
      unfold readFraction
      dsimp only [Option.map_some]
      rw [encode_ofAscii (isAscii_of_isDigits hdigits), if_pos hdigits, hparse, orInvalid,
        Loops.bind_ok rfl, ReadsFractions.min_belowOne fraction h]
  · rw [if_neg hpositive]
    exact ⟨[], none, SecondReal.zero, rfl, .whole, rfl, SecondReal.zero_within,
      ReadsFractions.eq_zero fraction h (Bool.not_eq_true _ ▸ hpositive)⟩

theorem date_of_exists {year : ℤ} {month day : ℕ} (h : DateExists year month day) :
    ∃ midnight : Datetime R, date year month day = .ok midnight ∧
      midnight.stamp = ⟨year, month, day, 0, 0, 0⟩ := by
  unfold date
  rw [dif_pos h]
  exact ⟨_, rfl, rfl⟩

theorem atSplit_of_exists (datetime : Datetime R) {hour minute second : ℕ} {fraction : R}
    (htime : TimeExists hour minute second) (hfraction : SecondReal.within 1 fraction = true) :
    ∃ timed, datetime.atSplit hour minute second fraction = .ok timed ∧
      timed.stamp = ⟨datetime.year, datetime.month, datetime.day, hour, minute, second⟩ ∧
      timed.fraction = fraction := by
  unfold atSplit
  rw [dif_pos hfraction, dif_pos htime]
  exact ⟨_, rfl, rfl, rfl⟩

theorem beq_of_stamp {a b : Datetime R} (hstamp : a.stamp = b.stamp)
    (hfraction : SecondReal.eq a.fraction b.fraction = true) : a.beq b = true := by
  obtain ⟨hyear, hmonth, hday, hhour, hminute, hsecond⟩ := Stamp.mk.inj hstamp
  rw [beq, hyear, hmonth, hday, hhour, hminute, hsecond, hfraction]
  simp

/-- A date and a time of the form read as their fields. -/
theorem readIso_ofAscii {dateText timeText : Text} {year : ℤ}
    {month day hour minute second : ℕ} {digits : Option Text}
    (hdate : SpellsDate dateText year month day)
    (htime : SpellsTime timeText hour minute second digits) :
    (readIso (ofAscii (dateText ++ 0x54 :: timeText)) : Outcome (Datetime R)) =
      date year month day >>= fun datetime =>
        readFraction (digits.map ofAscii) >>= datetime.atSplit hour minute second := by
  have hletter : ∀ letter : Char, 0x54 < letter.toNat →
      letter ∉ ofAscii (dateText ++ 0x54 :: timeText) := by
    intro letter hletter hmem
    rw [ofAscii_append_cons] at hmem
    rcases List.mem_append.mp hmem with hmem | hmem
    · exact letter_not_mem hdate.bytes (by omega) hmem
    · rcases List.mem_cons.mp hmem with rfl | hmem
      · exact absurd hletter (by decide)
      · exact letter_not_mem htime.bytes (by omega) hmem
  have hsplit : splitOnce (ofAscii (dateText ++ 0x54 :: timeText)) 'T' =
      some (ofAscii dateText, ofAscii timeText) := by
    rw [ofAscii_append_cons]
    exact splitOnce_append (letter_not_mem hdate.bytes (by decide)) _
  have hzone : ((ofAscii (dateText ++ 0x54 :: timeText)).contains 'Z' ||
      (ofAscii (dateText ++ 0x54 :: timeText)).contains 'z') = false := by
    rw [Bool.or_eq_false_iff]
    exact ⟨by simpa using hletter 'Z' (by decide),
      by simpa using hletter 'z' (by decide)⟩
  unfold readIso
  rw [hzone, if_neg Bool.false_ne_true, hsplit]
  dsimp only
  rw [readDate_ofAscii hdate]
  exact congrArg (date year month day >>= ·) (funext fun datetime => readTime_ofAscii htime)

/-- What a datetime prints is of the form and reads back as it. -/
theorem display_spec [ReadsFractions R] (datetime : Datetime R) :
    ∃ printed back, datetime.display = .ok printed ∧ Spells printed datetime.stamp ∧
      fromStr (ofAscii printed) = .ok back ∧ back.beq datetime = true := by
  obtain ⟨rest, digits, fraction, hrest, hfraction, hread, hwithin, heq⟩ :=
    fractionText_spec datetime.fraction_within
  have hdate := datetime.spellsDate_display
  have htime := datetime.spellsTime_display hfraction
  generalize hdatetext : yearText datetime.year ++ 0x2d :: (Decimal.padded 2 datetime.month ++
    0x2d :: Decimal.padded 2 datetime.day) = dateText at hdate
  generalize htimetext : Decimal.padded 2 datetime.hour ++ 0x3a :: (Decimal.padded 2 datetime.minute ++
    0x3a :: (Decimal.padded 2 datetime.second ++ rest)) = timeText at htime
  have hprinted : datetime.display = .ok (dateText ++ 0x54 :: timeText) := by
    rw [display, hrest, Loops.bind_ok rfl, ← hdatetext, ← htimetext]
    simp only [List.append_assoc, List.cons_append]
  have hbytes : ∀ byte ∈ dateText ++ 0x54 :: timeText, isBlank byte = false ∧ byte.toNat < 0x80 := by
    refine List.forall_mem_append.mpr ⟨?_, List.forall_mem_cons.mpr ⟨by decide, ?_⟩⟩
    · exact fun byte hbyte => not_blank_of_stamp (.inl (hdate.bytes byte hbyte))
    · exact fun byte hbyte => not_blank_of_stamp (.inl (htime.bytes byte hbyte))
  have htrim : trimStr (ofAscii (dateText ++ 0x54 :: timeText)) =
      ofAscii (dateText ++ 0x54 :: timeText) := by
    rw [trimStr_ofAscii fun byte hbyte => (hbytes byte hbyte).2,
      trim_of_no_blank fun byte hbyte => (hbytes byte hbyte).1]
  have hslash : ¬IsSlashForm (encode (ofAscii (dateText ++ 0x54 :: timeText))) := by
    rw [encode_ofAscii fun byte hbyte => (hbytes byte hbyte).2]
    rintro ⟨d1, d2, m1, m2, y1, y2, hslash⟩
    have hlength := congrArg List.length hslash
    have hdatelength := hdate.length_le
    rw [List.length_append] at hlength
    simp only [List.length_cons, List.length_nil] at hlength
    omega
  obtain ⟨midnight, hmidnight, hstamp⟩ := date_of_exists (R := R) datetime.date_exists
  obtain ⟨back, hback, hbackstamp, hbackfraction⟩ :=
    atSplit_of_exists midnight datetime.time_exists hwithin
  refine ⟨_, back, hprinted, .moment hdate htime, ?_, beq_of_stamp ?_ (by rwa [hbackfraction])⟩
  · rw [fromStr_of_not_slash (by rwa [htrim]), htrim, readIso_ofAscii hdate htime, hmidnight,
      Loops.bind_ok rfl, hread, Loops.bind_ok rfl, hback]
  · obtain ⟨hyear, hmonth, hday, -⟩ := Stamp.mk.inj hstamp
    rw [hbackstamp, hyear, hmonth, hday]
    rfl

/-! ## No panic -/

theorem noPanic_orInvalid {α : Type} (value : Option α) : NoPanic (orInvalid value) := by
  cases value with
  | none => exact NoPanic.fail _
  | some value => exact NoPanic.ok value

theorem noPanic_date (year : ℤ) (month day : ℕ) :
    NoPanic (date year month day : Outcome (Datetime R)) := by
  unfold date
  split
  · exact NoPanic.ok _
  · exact NoPanic.fail _

theorem noPanic_atSplit {datetime : Datetime R} {hour minute second : ℕ} {fraction : R}
    (h : SecondReal.within 1 fraction = true) :
    NoPanic (datetime.atSplit hour minute second fraction) := by
  unfold atSplit
  rw [dif_pos h]
  split
  · exact NoPanic.ok _
  · exact NoPanic.fail _

theorem noPanic_readFields (sign : ℤ) (yearWidth : ℕ) (rest : List Char) :
    NoPanic (readFields sign yearWidth rest : Outcome (Datetime R)) := by
  unfold readFields
  split
  · refine NoPanic.ite (fun _ => NoPanic.fail _) fun _ => ?_
    refine NoPanic.bind (noPanic_orInvalid _) fun _ _ => ?_
    refine NoPanic.bind (noPanic_orInvalid _) fun _ _ => ?_
    exact NoPanic.bind (noPanic_orInvalid _) fun _ _ => noPanic_date _ _ _
  · exact NoPanic.fail _

theorem noPanic_readDate (text : List Char) :
    NoPanic (readDate text : Outcome (Datetime R)) := by
  unfold readDate
  split
  · exact noPanic_readFields _ _ _
  · exact noPanic_readFields _ _ _
  · exact noPanic_readFields _ _ _

/-- A fraction that is read is below one, however many nines it has. -/
theorem readFraction_returns [ReadsFractions R] (digits : Option (List Char)) :
    NoPanic (readFraction digits : Outcome R) ∧
      ∀ fraction : R, readFraction digits = .ok fraction → SecondReal.within 1 fraction = true := by
  unfold readFraction
  cases digits with
  | none => exact ⟨NoPanic.ok _, fun fraction h => Except.ok.inj h ▸ SecondReal.zero_within⟩
  | some digits =>
    dsimp only
    by_cases hdigits : isDigits (encode digits) = true
    · obtain ⟨value, hparse, hwithin⟩ := ReadsFractions.parse_fraction (R := R) _ hdigits
      rw [if_pos hdigits, hparse, orInvalid, Loops.bind_ok rfl]
      exact ⟨NoPanic.ok _, fun fraction h => Except.ok.inj h ▸ hwithin⟩
    · rw [if_neg hdigits]
      exact ⟨NoPanic.fail _, nofun⟩

theorem noPanic_readTime [ReadsFractions R] (datetime : Datetime R) (time : List Char) :
    NoPanic (datetime.readTime time) := by
  unfold readTime
  split
  · refine NoPanic.bind (noPanic_orInvalid _) fun _ _ => ?_
    refine NoPanic.bind (noPanic_orInvalid _) fun _ _ => ?_
    refine NoPanic.bind (noPanic_orInvalid _) fun _ _ => ?_
    refine NoPanic.bind (readFraction_returns _).1 fun fraction hfraction => ?_
    exact noPanic_atSplit ((readFraction_returns _).2 fraction hfraction)
  · exact NoPanic.fail _

/-- A date that exists, at any time of day, is a datetime or an error. -/
theorem noPanic_atTime [ReadsFractions R] (datetime : Datetime R) (hour minute : ℕ) (second : R) :
    NoPanic (datetime.atTime hour minute second) := by
  unfold atTime
  split
  · exact noPanic_atSplit (ReadsFractions.sub_floor second ‹_›)
  · exact NoPanic.fail _

theorem noPanic_fromStr [ReadsFractions R] (value : List Char) :
    NoPanic (fromStr value : Outcome (Datetime R)) := by
  unfold fromStr
  dsimp only
  split
  · refine NoPanic.bind (noPanic_orInvalid _) fun _ _ => ?_
    refine NoPanic.bind (noPanic_orInvalid _) fun _ _ => ?_
    exact NoPanic.bind (noPanic_orInvalid _) fun _ _ => noPanic_date _ _ _
  · unfold readIso
    refine NoPanic.ite (fun _ => NoPanic.fail _) fun _ => ?_
    split
    · exact NoPanic.bind (noPanic_readDate _) fun datetime _ => noPanic_readTime datetime _
    · exact noPanic_readDate _

end Datetime

/-! ## The round trip -/

/-- Tenths of a second, as seconds of a type that prints one digit. -/
structure Tenths where
  count : ℕ
  deriving DecidableEq, Repr

namespace Tenths

/-- The tenths of `0.` and a digit, the digits after it left out. -/
def parse : Text → Option Tenths
  | 0x30 :: 0x2e :: digit :: _ => some ⟨Decimal.digitValue digit⟩
  | _ => none

def display (seconds : Tenths) : Text :=
  Decimal.numeral (seconds.count / 10) ++
    if seconds.count % 10 = 0 then [] else [0x2e, Decimal.digitByte (seconds.count % 10)]

instance : SecondReal Tenths where
  parse := parse
  isFinite _ := true
  isWhole seconds := seconds.count % 10 == 0
  display := display
  upperExp seconds := display seconds ++ ascii "E0"
  ofI64 value := ⟨10 * value.toNat⟩
  zero := ⟨0⟩
  belowOne := ⟨9⟩
  within limit seconds := seconds.count < 10 * limit
  isPositive seconds := 0 < seconds.count
  eq a b := a.count == b.count
  min a b := ⟨min a.count b.count⟩
  floor seconds := ⟨seconds.count / 10 * 10⟩
  sub a b := ⟨a.count - b.count⟩
  toU32 seconds := seconds.count / 10
  zero_within := rfl

theorem within_one {seconds : Tenths} :
    SecondReal.within 1 seconds = true ↔ seconds.count < 10 := decide_eq_true_iff

instance : ReadsFractions Tenths where
  parse_fraction digits hdigits := by
    cases digits with
    | nil => cases hdigits
    | cons digit digits =>
      refine ⟨⟨Decimal.digitValue digit⟩, rfl, within_one.mpr ?_⟩
      exact lt_of_le_of_lt (min_le_right _ 9) (by omega)
  display_fraction fraction hwithin hpositive := by
    have hlt := within_one.mp hwithin
    have hpos : 0 < fraction.count := of_decide_eq_true hpositive
    have hdigit : Decimal.IsDigit (Decimal.digitByte fraction.count) :=
      Decimal.isDigit_digitByte hlt
    have hdisplay : RealText.display fraction = ascii "0." ++ [Decimal.digitByte fraction.count] := by
      change display fraction = _
      rw [display, Nat.div_eq_of_lt hlt, Nat.mod_eq_of_lt hlt, if_neg (by omega)]
      rfl
    refine ⟨[Decimal.digitByte fraction.count], ?_, hdisplay, ?_⟩
    · simpa [isDigits] using isAsciiDigit_of_isDigit hdigit
    · rw [hdisplay]
      exact congrArg (fun count => some (Tenths.mk count)) (Decimal.digitValue_digitByte hlt)
  min_belowOne fraction hwithin := by
    have hlt := within_one.mp hwithin
    change Tenths.mk (min fraction.count 9) = fraction
    rw [min_eq_left (by omega)]
  eq_self fraction _ := beq_self_eq_true fraction.count
  eq_zero fraction _ hpositive := by
    have hzero : ¬0 < fraction.count := of_decide_eq_false hpositive
    exact beq_iff_eq.mpr (by change 0 = _; omega)
  sub_floor second _ := by
    refine within_one.mpr ?_
    change second.count - second.count / 10 * 10 < 10
    omega

end Tenths

/-- Every datetime reads back from what it prints. A string that reads as a datetime, and is not of
the old form, spells its date and its time to the whole second, as what the datetime prints does.
No string makes the read panic. -/
theorem datetime_text_round_trip {R : Type} [SecondReal R] [ReadsFractions R] :
    (∀ datetime : Datetime R, ∃ printed back, datetime.display = .ok printed ∧
      Datetime.fromStr (ofAscii printed) = .ok back ∧ back.beq datetime = true) ∧
    (∀ (value : List Char) (datetime : Datetime R), Datetime.fromStr value = .ok datetime →
      ¬IsSlashForm (encode (trimStr value)) → ∃ printed, datetime.display = .ok printed ∧
        ∀ stamp, (Spells (encode (trimStr value)) stamp ↔ stamp = datetime.stamp) ∧
          (Spells printed stamp ↔ stamp = datetime.stamp)) ∧
    ∀ value : List Char, NoPanic (Datetime.fromStr value : Outcome (Datetime R)) := by
  refine ⟨fun datetime => ?_, fun value datetime h hslash => ?_, Datetime.noPanic_fromStr⟩
  · obtain ⟨printed, back, hprinted, -, hback, heq⟩ := datetime.display_spec
    exact ⟨printed, back, hprinted, hback, heq⟩
  · obtain ⟨printed, -, hprinted, hspells, -⟩ := datetime.display_spec
    rw [Datetime.fromStr_of_not_slash hslash] at h
    have hvalue := Datetime.readIso_spec h
    refine ⟨printed, hprinted, fun stamp => ⟨⟨fun h => h.unique hvalue, ?_⟩, ?_, ?_⟩⟩
    · rintro rfl
      exact hvalue
    · exact fun h => h.unique hspells
    · rintro rfl
      exact hspells

/-- The middle of the leap second that ends 2016. -/
def leapSecond : Datetime Tenths where
  year := 2016
  month := 12
  day := 31
  hour := 23
  minute := 59
  second := 60
  fraction := ⟨5⟩
  date_exists := by decide
  time_exists := by decide
  fraction_within := rfl

/-- A leap second, from the form of a signed year, prints its four digits. -/
theorem datetime_text_round_trip_leap :
    ∃ printed, leapSecond.display = .ok printed ∧ Spells printed ⟨2016, 12, 31, 23, 59, 60⟩ := by
  have hread : Datetime.fromStr " +02016-12-31T23:59:60.5 ".toList = .ok leapSecond := by
    rfl
  have hslash : ¬IsSlashForm (encode (trimStr " +02016-12-31T23:59:60.5 ".toList)) := by
    have hlong : (encode (trimStr " +02016-12-31T23:59:60.5 ".toList)).length ≠ 8 := by
      decide +kernel
    rintro ⟨d1, d2, m1, m2, y1, y2, hslash⟩
    exact hlong (congrArg List.length hslash)
  obtain ⟨printed, hprinted, hspells⟩ :=
    (datetime_text_round_trip (R := Tenths)).2.1 _ _ hread hslash
  exact ⟨printed, hprinted, (hspells _).2.mpr rfl⟩

end FitsWell
