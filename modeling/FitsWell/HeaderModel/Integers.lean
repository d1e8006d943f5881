import FitsWell.HeaderModel.TypedLookup
import FitsWell.HeaderModel.ValueRoundTrip

/-!
# Integers of any size

A token is a sign, if it has one, and digits. The word or the decimal it parses to is the only one
of its integer, so that values are equal exactly where their integers are.
-/

namespace FitsWell

/-- A token of a sign, if it has one, and digits, and the integer that it denotes. -/
inductive Denotes : Text → ℤ → Prop
  | unsigned {digits : Text} (h : isDigits digits = true) : Denotes digits (Decimal.value digits)
  | plus {digits : Text} (h : isDigits digits = true) :
      Denotes (0x2b :: digits) (Decimal.value digits)
  | minus {digits : Text} (h : isDigits digits = true) :
      Denotes (0x2d :: digits) (-(Decimal.value digits : ℤ))

/-- `token.parse::<u32>()`. -/
def parseU32 (token : Text) : Option ℕ :=
  let digits := if token.head? = some 0x2b then token.tail else token
  if isDigits digits ∧ Decimal.value digits < 2 ^ 32 then some (Decimal.value digits) else none

/-- `token.parse::<u64>()`. -/
def parseU64 (token : Text) : Option ℤ :=
  let digits := if token.head? = some 0x2b then token.tail else token
  if isDigits digits ∧ Decimal.value digits < 2 ^ 64 then some (Decimal.value digits) else none

/-- `token.parse::<i128>()`. -/
def parseI128 (token : Text) : Option ℤ :=
  (parseWhole token).filter fun value => decide (-2 ^ 127 ≤ value ∧ value < 2 ^ 127)

namespace FitsInteger

/-- The integer of a value. -/
def number (integer : FitsInteger) : ℤ :=
  match integer.repr with
  | .i64 value => value
  | .decimal negative digits => signed negative (Decimal.value digits)

/-- The integer as a `u64`. -/
def toU64 (integer : FitsInteger) : Outcome ℤ :=
  match integer.repr with
  | .i64 value =>
    if 0 ≤ value then .ok value else fail (.integerOutOfRange none integer.display .u64)
  | .decimal _ _ =>
    match parseU64 integer.display with
    | some value => .ok value
    | none => fail (.integerOutOfRange none integer.display .u64)

/-- The integer as an `i128`. -/
def toI128 (integer : FitsInteger) : Outcome ℤ :=
  match integer.repr with
  | .i64 value => .ok value
  | .decimal _ _ =>
    match parseI128 integer.display with
    | some value => .ok value
    | none => fail (.integerOutOfRange none integer.display .i128)

end FitsInteger

/-! ## What a token denotes -/

theorem denotes_iff {token : Text} {value : ℤ} :
    Denotes token value ↔ isDigits (splitSign token).2 = true ∧
      value = signed (splitSign token).1 (Decimal.value (splitSign token).2) := by
  constructor
  · rintro (⟨hdigits⟩ | ⟨hdigits⟩ | ⟨hdigits⟩)
    · have hsplit : splitSign token = (false, token) := splitSign_digits hdigits false
      rw [hsplit]
      exact ⟨hdigits, rfl⟩
    · exact ⟨hdigits, rfl⟩
    · exact ⟨hdigits, rfl⟩
  · rintro ⟨hdigits, rfl⟩
    unfold splitSign at hdigits ⊢
    cases token with
    | nil => cases hdigits
    | cons first rest =>
      dsimp only at hdigits ⊢
      by_cases hplus : first = 0x2b
      · rw [if_pos hplus] at hdigits ⊢
        rw [hplus]
        exact .plus hdigits
      · rw [if_neg hplus] at hdigits ⊢
        by_cases hminus : first = 0x2d
        · rw [if_pos hminus] at hdigits ⊢
          rw [hminus]
          exact .minus hdigits
        · rw [if_neg hminus] at hdigits ⊢
          exact .unsigned hdigits

theorem parseWhole_eq_some_iff {token : Text} {value : ℤ} :
    parseWhole token = some value ↔ Denotes token value := by
  unfold parseWhole
  rw [denotes_iff]
  dsimp only
  split
  · next hdigits => exact ⟨fun h => ⟨hdigits, (Option.some.inj h).symm⟩, fun h => by rw [h.2]⟩
  · next hdigits => exact ⟨nofun, fun h => absurd h.1 hdigits⟩

/-- A parse as a word gives the integer that a token denotes, where a word holds it. -/
theorem parseI64_eq {token : Text} :
    parseI64 token =
      (parseWhole token).filter fun value => decide (-2 ^ 63 ≤ value ∧ value < 2 ^ 63) := by
  unfold parseI64 parseWhole
  dsimp only
  split
  · rw [Option.filter_some]
    simp only [decide_eq_true_eq]
  · rfl

namespace FitsInteger

/-- A token that denotes an integer parses to a value of it. -/
theorem parse_of_denotes {token : Text} {value : ℤ} (h : Denotes token value) :
    ∃ integer, parse token = some integer ∧ integer.number = value := by
  obtain ⟨hdigits, hvalue⟩ := denotes_iff.mp h
  unfold parse
  split
  · rename_i found hfound
    rw [parseI64_eq, parseWhole_eq_some_iff.mpr h] at hfound
    exact ⟨_, rfl, (Option.some.inj (Option.filter_eq_some_iff.mp hfound).1).symm⟩
  · dsimp only
    rw [dif_pos hdigits]
    split
    · rename_i hempty
      refine ⟨_, rfl, ?_⟩
      rw [hvalue, ← value_trimStartZeros, hempty]
      unfold signed
      split <;> rfl
    · refine ⟨_, rfl, ?_⟩
      rw [hvalue, ← value_trimStartZeros]
      rfl

theorem denotes_of_parse {token : Text} {integer : FitsInteger} (h : parse token = some integer) :
    Denotes token integer.number := by
  by_cases hdigits : isDigits (splitSign token).2 = true
  · have hdenotes := denotes_iff.mpr ⟨hdigits, rfl⟩
    obtain ⟨found, hfound, hnumber⟩ := parse_of_denotes hdenotes
    rw [Option.some.inj (h.symm.trans hfound), hnumber]
    exact hdenotes
  · unfold parse at h
    split at h
    · rename_i found hfound
      unfold parseI64 at hfound
      dsimp only at hfound
      rw [if_neg hdigits] at hfound
      cases hfound
    · dsimp only at h
      rw [dif_neg hdigits] at h
      cases h

theorem isDigit_of_isAsciiDigit {byte : UInt8} (h : isAsciiDigit byte = true) :
    Decimal.IsDigit byte := by
  rw [isAsciiDigit, Bool.and_eq_true, decide_eq_true_iff, decide_eq_true_iff, UInt8.le_iff_toNat_le,
    UInt8.le_iff_toNat_le] at h
  exact h

theorem signed_natAbs (negative : Bool) (magnitude : ℕ) :
    (signed negative magnitude).natAbs = magnitude := by
  unfold signed
  split
  · rw [Int.natAbs_neg, Int.natAbs_natCast]
  · rw [Int.natAbs_natCast]

/-- The sign and the digits of a decimal are those of its integer. -/
theorem decimal_eq {negative : Bool} {digits : Text}
    (h : (IntegerRepr.decimal negative digits).Canonical) :
    negative = decide (signed negative (Decimal.value digits) < 0) ∧
      digits = Decimal.numeral (signed negative (Decimal.value digits)).natAbs := by
  obtain ⟨hdigits, hhead, hrange⟩ := h
  refine ⟨?_, ?_⟩
  · unfold signed at hrange ⊢
    cases negative with
    | true =>
      rw [if_pos rfl] at hrange ⊢
      rw [eq_comm, decide_eq_true_iff]
      omega
    | false =>
      rw [if_neg Bool.false_ne_true]
      exact (decide_eq_false (by omega)).symm
  · rw [isDigits, Bool.and_eq_true, List.all_eq_true] at hdigits
    rw [signed_natAbs, Decimal.numeral_value (fun byte hbyte => isDigit_of_isAsciiDigit
      (hdigits.2 byte hbyte)) hhead (by simpa using hdigits.1)]

/-- An integer has one value. -/
theorem number_injective : Function.Injective number := by
  intro first second h
  obtain ⟨repr, hcanonical⟩ := first
  obtain ⟨repr', hcanonical'⟩ := second
  have hrange : ∀ {value : ℤ} {negative digits}, (IntegerRepr.i64 value).Canonical →
      (IntegerRepr.decimal negative digits).Canonical →
      value ≠ signed negative (Decimal.value digits) := fun hword hdecimal heq =>
    hdecimal.2.2 (heq ▸ hword)
  cases repr with
  | i64 value =>
    cases repr' with
    | i64 value' =>
      have hvalue : value = value' := h
      subst hvalue
      rfl
    | decimal negative' digits' => exact absurd h (hrange hcanonical hcanonical')
  | decimal negative digits =>
    cases repr' with
    | i64 value' => exact absurd h.symm (hrange hcanonical' hcanonical)
    | decimal negative' digits' =>
      have hvalue : signed negative (Decimal.value digits) =
        signed negative' (Decimal.value digits') := h
      obtain ⟨hnegative, hdigits⟩ := decimal_eq hcanonical
      obtain ⟨hnegative', hdigits'⟩ := decimal_eq hcanonical'
      have hsign : negative = negative' := by rw [hnegative, hvalue, ← hnegative']
      have htext : digits = digits' := by rw [hdigits, hvalue, ← hdigits']
      subst hsign htext
      rfl

/-! ## Conversions -/

/-- A decimal is a token of its integer. -/
theorem denotes_display (integer : FitsInteger) : Denotes integer.display integer.number :=
  denotes_of_parse integer.parse_display

/-- A parse of a decimal as a whole number gives its integer. -/
theorem parseWhole_display (integer : FitsInteger) :
    parseWhole integer.display = some integer.number :=
  parseWhole_eq_some_iff.mpr integer.denotes_display

theorem head_ne_of_isDigits {digits : Text} (h : isDigits digits = true) {byte : UInt8}
    (hbyte : isAsciiDigit byte = false) : digits.head? ≠ some byte := by
  intro hhead
  rw [isDigits, Bool.and_eq_true, List.all_eq_true] at h
  rw [h.2 byte (List.mem_of_head? hhead)] at hbyte
  cases hbyte

/-- The range of a word holds no decimal's integer. -/
theorem number_range {negative : Bool} {digits : Text}
    (h : (IntegerRepr.decimal negative digits).Canonical) :
    (negative = true → signed negative (Decimal.value digits) < -2 ^ 63) ∧
      (negative = false → 2 ^ 63 ≤ signed negative (Decimal.value digits)) := by
  have hrange := h.2.2
  unfold signed at hrange ⊢
  refine ⟨?_, ?_⟩
  · rintro rfl
    rw [if_pos rfl] at hrange ⊢
    omega
  · rintro rfl
    rw [if_neg Bool.false_ne_true] at hrange ⊢
    omega

theorem toI64_eq_ok_iff {integer : FitsInteger} {value : ℤ} :
    integer.toI64 = .ok value ↔
      value = integer.number ∧ -2 ^ 63 ≤ integer.number ∧ integer.number < 2 ^ 63 := by
  obtain ⟨repr, hcanonical⟩ := integer
  cases repr with
  | i64 word =>
    exact ⟨fun h => ⟨(Except.ok.inj h).symm, hcanonical⟩, fun h => congrArg Except.ok h.1.symm⟩
  | decimal negative digits =>
    have hnone : parseI64 (display ⟨.decimal negative digits, hcanonical⟩) = none := by
      rw [parseI64_eq, parseWhole_display, Option.filter_some,
        if_neg (by rw [decide_eq_true_iff]; exact hcanonical.2.2)]
    refine ⟨fun h => ?_, fun h => absurd h.2 hcanonical.2.2⟩
    unfold toI64 at h
    dsimp only at h
    rw [hnone] at h
    cases h

theorem toI128_eq_ok_iff {integer : FitsInteger} {value : ℤ} :
    integer.toI128 = .ok value ↔
      value = integer.number ∧ -2 ^ 127 ≤ integer.number ∧ integer.number < 2 ^ 127 := by
  obtain ⟨repr, hcanonical⟩ := integer
  cases repr with
  | i64 word =>
    refine ⟨fun h => ?_, fun h => congrArg Except.ok h.1.symm⟩
    obtain ⟨hlow, hhigh⟩ := hcanonical
    exact ⟨(Except.ok.inj h).symm, hlow.trans' (by norm_num), hhigh.trans (by norm_num)⟩
  | decimal negative digits =>
    have hparse : parseI128 (display ⟨.decimal negative digits, hcanonical⟩) =
        if -2 ^ 127 ≤ number ⟨.decimal negative digits, hcanonical⟩ ∧
          number ⟨.decimal negative digits, hcanonical⟩ < 2 ^ 127 then
          some (number ⟨.decimal negative digits, hcanonical⟩) else none := by
      rw [parseI128, parseWhole_display, Option.filter_some]
      simp only [decide_eq_true_eq]
    unfold toI128
    dsimp only
    rw [hparse]
    by_cases hrange : -2 ^ 127 ≤ number ⟨.decimal negative digits, hcanonical⟩ ∧
        number ⟨.decimal negative digits, hcanonical⟩ < 2 ^ 127
    · rw [if_pos hrange]
      exact ⟨fun h => ⟨(Except.ok.inj h).symm, hrange⟩, fun h => congrArg Except.ok h.1.symm⟩
    · rw [if_neg hrange]
      refine ⟨fun h => ?_, fun h => absurd h.2 hrange⟩
      cases h

theorem toU64_eq_ok_iff {integer : FitsInteger} {value : ℤ} :
    integer.toU64 = .ok value ↔
      value = integer.number ∧ 0 ≤ integer.number ∧ integer.number < 2 ^ 64 := by
  obtain ⟨repr, hcanonical⟩ := integer
  cases repr with
  | i64 word =>
    unfold toU64
    dsimp only
    by_cases hsign : 0 ≤ word
    · rw [if_pos hsign]
      exact ⟨fun h => ⟨(Except.ok.inj h).symm, hsign, hcanonical.2.trans (by norm_num)⟩,
        fun h => congrArg Except.ok h.1.symm⟩
    · rw [if_neg hsign]
      exact ⟨nofun, fun h => absurd h.2.1 hsign⟩
  | decimal negative digits =>
    obtain ⟨hbelow, -⟩ := number_range hcanonical
    have hdigits := hcanonical.1
    unfold toU64
    dsimp only
    cases negative with
    | true =>
      -- a minus sign is no digit of a `u64`
      have hnone : parseU64 (display ⟨.decimal true digits, hcanonical⟩) = none := rfl
      rw [hnone]
      refine ⟨nofun, fun h => ?_⟩
      have hnegative : number ⟨.decimal true digits, hcanonical⟩ < -2 ^ 63 := hbelow rfl
      omega
    | false =>
      have hvalue : number ⟨.decimal false digits, hcanonical⟩ = Decimal.value digits := rfl
      have hhead : digits.head? ≠ some 0x2b := head_ne_of_isDigits hdigits (by decide)
      have hparse : parseU64 (display ⟨.decimal false digits, hcanonical⟩) =
          if Decimal.value digits < 2 ^ 64 then some (Decimal.value digits : ℤ) else none := by
        change parseU64 digits = _
        unfold parseU64
        dsimp only
        rw [if_neg hhead]
        simp only [hdigits, true_and]
      rw [hparse, hvalue]
      by_cases hrange : Decimal.value digits < 2 ^ 64
      · rw [if_pos hrange]
        refine ⟨fun h => ⟨(Except.ok.inj h).symm, by omega, by exact_mod_cast hrange⟩,
          fun h => congrArg Except.ok h.1.symm⟩
      · rw [if_neg hrange]
        refine ⟨nofun, fun h => absurd ?_ hrange⟩
        exact_mod_cast h.2.2

end FitsInteger

/-- A token parses exactly where it is a sign, if it has one, and digits; two tokens parse to one
value exactly where they denote one integer; a value prints as a token that parses to it; and a
value converts exactly to the types whose range holds its integer. -/
theorem integers_are_canonical :
    (∀ token : Text,
      (∃ integer, FitsInteger.parse token = some integer) ↔ ∃ value, Denotes token value) ∧
    (∀ (token token' : Text) (integer integer' : FitsInteger) (value value' : ℤ),
      FitsInteger.parse token = some integer → FitsInteger.parse token' = some integer' →
      Denotes token value → Denotes token' value' → (integer = integer' ↔ value = value')) ∧
    ∀ (token : Text) (integer : FitsInteger) (value : ℤ),
      FitsInteger.parse token = some integer → Denotes token value →
      FitsInteger.parse integer.display = some integer ∧
      (∀ word, integer.toI64 = .ok word ↔ word = value ∧ -2 ^ 63 ≤ value ∧ value < 2 ^ 63) ∧
      (∀ word, integer.toU64 = .ok word ↔ word = value ∧ 0 ≤ value ∧ value < 2 ^ 64) ∧
      ∀ word, integer.toI128 = .ok word ↔ word = value ∧ -2 ^ 127 ≤ value ∧ value < 2 ^ 127 := by
  have hnumber : ∀ {token : Text} {integer : FitsInteger} {value : ℤ},
      FitsInteger.parse token = some integer → Denotes token value → integer.number = value := by
    intro token integer value hparse hvalue
    obtain ⟨found, hfound, hnumber⟩ := FitsInteger.parse_of_denotes hvalue
    rw [Option.some.inj (hparse.symm.trans hfound), hnumber]
  refine ⟨fun token => ⟨?_, ?_⟩, ?_, ?_⟩
  · rintro ⟨integer, hparse⟩
    exact ⟨_, FitsInteger.denotes_of_parse hparse⟩
  · rintro ⟨value, hvalue⟩
    obtain ⟨integer, hparse, -⟩ := FitsInteger.parse_of_denotes hvalue
    exact ⟨integer, hparse⟩
  · intro token token' integer integer' value value' hparse hparse' hvalue hvalue'
    rw [← hnumber hparse hvalue, ← hnumber hparse' hvalue', FitsInteger.number_injective.eq_iff]
  · intro token integer value hparse hvalue
    have hinteger := hnumber hparse hvalue
    subst hinteger
    exact ⟨integer.parse_display, fun word => FitsInteger.toI64_eq_ok_iff,
      fun word => FitsInteger.toU64_eq_ok_iff, fun word => FitsInteger.toI128_eq_ok_iff⟩

/-- `-0` and `+000` are one value, the word zero. -/
theorem integers_are_canonical_zero :
    ∃ integer integer', FitsInteger.parse (ascii "-0") = some integer ∧
      FitsInteger.parse (ascii "+000") = some integer' ∧ integer = integer' ∧
      integer.toU64 = .ok 0 := by
  have hminus : Denotes (ascii "-0") 0 := .minus (by decide)
  have hplus : Denotes (ascii "+000") 0 := .plus (by decide)
  obtain ⟨integer, hparse⟩ := (integers_are_canonical.1 _).mpr ⟨_, hminus⟩
  obtain ⟨integer', hparse'⟩ := (integers_are_canonical.1 _).mpr ⟨_, hplus⟩
  have hequal := integers_are_canonical.2.1 _ _ _ _ _ _ hparse hparse' hminus hplus
  obtain ⟨-, -, hword, -⟩ := integers_are_canonical.2.2 _ _ _ hparse hminus
  exact ⟨integer, integer', hparse, hparse', hequal.mpr rfl, (hword 0).mpr ⟨rfl, by decide⟩⟩

end FitsWell
