import FitsWell.HeaderModel.ValueFields

/-!
# Values read back

A value reads back from its text. Integers do so whatever their size, text where its
trailing spaces are significant, reals where the decimal of a real reads back as it.
-/

namespace FitsWell

/-! ## Numbers -/

/-- A byte of a number's text. -/
def isNumberByte (byte : UInt8) : Bool :=
  isAsciiDigit byte || byte == 0x2d || byte == 0x2e || byte == 0x45

/-- What a byte of a number is not. -/
theorem isNumberByte_spec {byte : UInt8} (h : isNumberByte byte = true) :
    isBlank byte = false ∧ byte ≠ quote ∧ byte ≠ slash ∧ byte ≠ 0x28 ∧ byte ≠ 0x2c ∧ byte ≠ 0x54 ∧
      byte ≠ 0x46 ∧ byte ≠ 0x64 ∧ byte ≠ 0x44 ∧ isAscii byte = true := by
  revert h
  have hall : ∀ n : Fin 256, isNumberByte (UInt8.ofNat n) = true →
      isBlank (UInt8.ofNat n) = false ∧ UInt8.ofNat n ≠ quote ∧ UInt8.ofNat n ≠ slash ∧
        UInt8.ofNat n ≠ 0x28 ∧ UInt8.ofNat n ≠ 0x2c ∧ UInt8.ofNat n ≠ 0x54 ∧ UInt8.ofNat n ≠ 0x46 ∧
        UInt8.ofNat n ≠ 0x64 ∧ UInt8.ofNat n ≠ 0x44 ∧ isAscii (UInt8.ofNat n) = true := by
    decide +kernel
  have hbyte := hall ⟨byte.toNat, byte.toNat_lt⟩
  rwa [UInt8.ofNat_toNat] at hbyte

/-- Text of a number: one byte or more. -/
structure NumberText (token : Text) : Prop where
  ne : token ≠ []
  bytes : ∀ byte ∈ token, isNumberByte byte = true

theorem NumberText.slashFree {token : Text} (h : NumberText token) : SlashFree token :=
  slashFree_of_plain (fun byte hbyte =>
    ⟨(isNumberByte_spec (h.bytes byte hbyte)).2.1, (isNumberByte_spec (h.bytes byte hbyte)).2.2.1⟩)

theorem NumberText.trim_eq {token : Text} (h : NumberText token) : trim token = token :=
  trim_of_no_blank (fun byte hbyte => (isNumberByte_spec (h.bytes byte hbyte)).1)

theorem NumberText.ascii {token : Text} (h : NumberText token) : token.all isAscii = true :=
  List.all_eq_true.mpr (fun byte hbyte => (isNumberByte_spec (h.bytes byte hbyte)).2.2.2.2.2.2.2.2.2)

theorem NumberText.head?_ne {token : Text} (h : NumberText token) {byte : UInt8}
    (hbyte : isNumberByte byte = false) : token.head? ≠ some byte := by
  intro hhead
  have hmem := h.bytes byte (List.mem_of_head? hhead)
  rw [hbyte] at hmem
  cases hmem

/-! ## Integers -/

theorem isAsciiDigit_of_isDigit {byte : UInt8} (h : Decimal.IsDigit byte) :
    isAsciiDigit byte = true := by
  obtain ⟨hlow, hhigh⟩ := h
  rw [isAsciiDigit, Bool.and_eq_true, decide_eq_true_iff, decide_eq_true_iff, UInt8.le_iff_toNat_le,
    UInt8.le_iff_toNat_le]
  exact ⟨hlow, hhigh⟩

theorem isDigits_numeral (n : ℕ) : isDigits (Decimal.numeral n) = true := by
  rw [isDigits, Bool.and_eq_true, List.all_eq_true]
  exact ⟨by simpa using Decimal.numeral_ne_nil n,
    fun byte hbyte => isAsciiDigit_of_isDigit (Decimal.isDigit_numeral hbyte)⟩

/-- The digits and the sign of an integer's text. -/
theorem FitsInteger.display_eq (integer : FitsInteger) : ∃ (negative : Bool) (digits : Text),
    integer.display = (if negative then [0x2d] else []) ++ digits ∧ isDigits digits = true := by
  obtain ⟨repr, hcanonical⟩ := integer
  cases repr with
  | i64 value =>
    refine ⟨decide (value < 0), Decimal.numeral value.natAbs, ?_, isDigits_numeral _⟩
    by_cases hneg : value < 0 <;> simp [display, hneg]
  | decimal negative digits => exact ⟨negative, digits, rfl, hcanonical.1⟩

theorem numberText_signed {digits : Text} (h : isDigits digits = true) (negative : Bool) :
    NumberText ((if negative then [0x2d] else []) ++ digits) := by
  rw [isDigits, Bool.and_eq_true] at h
  constructor
  · intro hnil
    rw [(List.append_eq_nil_iff.mp hnil).2] at h
    cases h.1
  · intro byte hbyte
    rcases List.mem_append.mp hbyte with hsign | hdigit
    · cases negative with
      | true => rw [List.mem_singleton.mp hsign]; decide
      | false => cases hsign
    · rw [isNumberByte, List.all_eq_true.mp h.2 byte hdigit]
      rfl

theorem FitsInteger.numberText (integer : FitsInteger) : NumberText integer.display := by
  obtain ⟨negative, digits, hdisplay, hdigits⟩ := integer.display_eq
  rw [hdisplay]
  exact numberText_signed hdigits negative

/-- An integer has no point and no exponent. -/
theorem FitsInteger.looksReal_display (integer : FitsInteger) :
    looksReal integer.display = false := by
  obtain ⟨negative, digits, hdisplay, hdigits⟩ := integer.display_eq
  rw [isDigits, Bool.and_eq_true] at hdigits
  rw [looksReal, List.any_eq_false]
  intro byte hbyte
  rw [hdisplay] at hbyte
  rcases List.mem_append.mp hbyte with hsign | hdigit
  · cases negative with
    | true => rw [List.mem_singleton.mp hsign]; decide
    | false => cases hsign
  · have hdigit := List.all_eq_true.mp hdigits.2 byte hdigit
    rintro hreal
    simp only [Bool.or_eq_true, beq_iff_eq] at hreal
    rcases hreal with (((rfl | rfl) | rfl) | rfl) | rfl <;> cases hdigit

theorem splitSign_wholeText (value : ℤ) :
    splitSign (wholeText value) = (decide (value < 0), Decimal.numeral value.natAbs) := by
  have hsplit := splitSign_digits (isDigits_numeral value.natAbs) (decide (value < 0))
  simp only [decide_eq_true_eq] at hsplit
  exact hsplit

theorem signed_wholeText (value : ℤ) :
    signed (decide (value < 0)) (Decimal.value (Decimal.numeral value.natAbs)) = value := by
  rw [Decimal.value_numeral, signed]
  by_cases hneg : value < 0
  · rw [if_pos (by simpa using hneg)]
    omega
  · rw [if_neg (by simpa using hneg)]
    omega

theorem parseI64_display {value : ℤ} (h : -2 ^ 63 ≤ value ∧ value < 2 ^ 63) :
    parseI64 (wholeText value) = some value := by
  rw [parseI64, splitSign_wholeText]
  dsimp only
  rw [if_pos (isDigits_numeral _), signed_wholeText, if_pos h]

/-- An integer reads back from its text, whatever its size. -/
theorem FitsInteger.parse_display (integer : FitsInteger) :
    FitsInteger.parse integer.display = some integer := by
  obtain ⟨repr, hcanonical⟩ := integer
  cases repr with
  | i64 value =>
    have hword : parseI64 (FitsInteger.display ⟨.i64 value, hcanonical⟩) = some value :=
      parseI64_display hcanonical
    unfold FitsInteger.parse
    split
    · rename_i found hfound
      obtain rfl := Option.some.inj (hfound.symm.trans hword)
      rfl
    · rename_i hnone
      rw [hword] at hnone
      cases hnone
  | decimal negative digits =>
    obtain ⟨hdigits, hhead, hrange⟩ := hcanonical
    have hsplit : splitSign (FitsInteger.display ⟨.decimal negative digits, ⟨hdigits, hhead, hrange⟩⟩) =
        (negative, digits) := splitSign_digits hdigits negative
    have hzeros : trimStartZeros digits = digits := by
      cases digits with
      | nil => rfl
      | cons first rest =>
        refine List.dropWhile_cons_of_neg ?_
        rw [beq_iff_eq]
        rintro rfl
        exact hhead rfl
    unfold FitsInteger.parse
    split
    · rename_i found hfound
      rw [parseI64, hsplit] at hfound
      dsimp only at hfound
      rw [if_pos hdigits, if_neg hrange] at hfound
      cases hfound
    · dsimp only
      rw [dif_pos (by rw [hsplit]; exact hdigits), dif_neg]
      · simp only [hsplit, hzeros]
      · rw [hsplit, hzeros]
        rintro rfl
        cases hdigits

/-! ## Reals -/

/-- Reals whose finite values read back from the text that a record gives them, as the
standard library's do. -/
class RealsReadBack (R : Type) [RealText R] : Prop where
  display_bytes : ∀ {real : R}, RealText.isFinite real = true →
    NumberText (RealText.display real)
  upperExp_bytes : ∀ {real : R}, RealText.isFinite real = true →
    NumberText (RealText.upperExp real) ∧ 0x45 ∈ RealText.upperExp real
  parse_upperExp : ∀ {real : R}, RealText.isFinite real = true →
    RealText.parse (RealText.upperExp real) = some real
  parse_fraction : ∀ {real : R}, RealText.isFinite real = true → RealText.isWhole real = false →
    0x2e ∈ RealText.display real ∧ RealText.parse (RealText.display real) = some real
  parse_whole : ∀ {real : R}, RealText.isFinite real = true → RealText.isWhole real = true →
    RealText.parse (RealText.display real ++ ascii ".0") = some real

theorem numberText_wholeText (value : ℤ) : NumberText (wholeText value) := by
  have htext := numberText_signed (isDigits_numeral value.natAbs) (decide (value < 0))
  simp only [decide_eq_true_eq] at htext
  exact htext

theorem parse_wholeText {value : ℤ} {tail : Text} (h : tail = ascii ".0" ∨ tail = ascii "E0") :
    (RealText.parse (wholeText value ++ tail) : Option ℤ) = some value := by
  have hpart : wholePart (wholeText value ++ tail) = wholeText value := by
    have hdrop : tail.length = 2 := by rcases h with rfl | rfl <;> rfl
    rw [wholePart, if_pos, List.dropLast_eq_take, List.dropLast_eq_take, List.take_take,
      List.length_take, List.length_append, hdrop, List.take_append_of_le_length (by omega),
      List.take_of_length_le (by omega)]
    rw [Bool.or_eq_true, List.isSuffixOf_iff_suffix, List.isSuffixOf_iff_suffix]
    rcases h with rfl | rfl
    · exact Or.inl (List.suffix_append _ _)
    · exact Or.inr (List.suffix_append _ _)
  change parseWhole (wholePart _) = _
  rw [hpart, parseWhole, splitSign_wholeText]
  dsimp only
  rw [if_pos (isDigits_numeral _), signed_wholeText]

instance : RealsReadBack ℤ where
  display_bytes _ := numberText_wholeText _
  upperExp_bytes _ := by
    refine ⟨⟨by simp [RealText.upperExp, ascii], fun byte hbyte => ?_⟩,
      List.mem_append_right _ (by decide)⟩
    rcases List.mem_append.mp hbyte with hmem | hmem
    · exact (numberText_wholeText _).bytes byte hmem
    · exact (by decide +kernel : ∀ byte ∈ ascii "E0", isNumberByte byte = true) byte hmem
  parse_upperExp _ := parse_wholeText (Or.inr rfl)
  parse_fraction _ hwhole := by cases hwhole
  parse_whole _ _ := parse_wholeText (Or.inl rfl)

section Reals

variable {R : Type} [RealText R] [RealsReadBack R]

/-- The text of a real, which reads back and has a point or an exponent. -/
theorem writeReal_spec {real : R} (h : RealText.isFinite real = true) :
    NumberText (writeReal real) ∧ looksReal (writeReal real) = true ∧
      RealText.parse (writeReal real) = some real := by
  have hlooks : ∀ {token : Text} {byte : UInt8}, byte ∈ token → byte = 0x2e ∨ byte = 0x45 →
      looksReal token = true := by
    intro token byte hmem hbyte
    rw [looksReal, List.any_eq_true]
    refine ⟨byte, hmem, ?_⟩
    rcases hbyte with rfl | rfl <;> decide
  unfold writeReal
  dsimp only
  split
  · obtain ⟨htext, hexponent⟩ := RealsReadBack.upperExp_bytes h
    exact ⟨htext, hlooks hexponent (Or.inr rfl), RealsReadBack.parse_upperExp h⟩
  · have htext := RealsReadBack.display_bytes h
    cases hwhole : RealText.isWhole real with
    | true =>
      rw [if_pos rfl]
      refine ⟨⟨fun hnil => htext.ne (List.append_eq_nil_iff.mp hnil).1, fun byte hbyte => ?_⟩,
        hlooks (List.mem_append_right _ (by decide : (0x2e : UInt8) ∈ ascii ".0")) (Or.inl rfl),
        RealsReadBack.parse_whole h hwhole⟩
      rcases List.mem_append.mp hbyte with hmem | hmem
      · exact htext.bytes byte hmem
      · exact (by decide +kernel : ∀ byte ∈ ascii ".0", isNumberByte byte = true) byte hmem
    | false =>
      obtain ⟨hpoint, hparse⟩ := RealsReadBack.parse_fraction h hwhole
      rw [if_neg Bool.false_ne_true, List.append_nil]
      exact ⟨htext, hlooks hpoint (Or.inl rfl), hparse⟩

theorem parseScalar_writeReal {real : R} (h : RealText.isFinite real = true) :
    parseScalar (writeReal real) = some (.real real) := by
  obtain ⟨htext, hlooks, hparse⟩ := writeReal_spec h
  have hexponent : withExponent (writeReal real) = writeReal real := by
    rw [withExponent, if_neg]
    rw [List.any_eq_true]
    rintro ⟨byte, hbyte, hd⟩
    obtain ⟨-, -, -, -, -, -, -, hlower, hupper, -⟩ := isNumberByte_spec (htext.bytes byte hbyte)
    rw [Bool.or_eq_true, beq_iff_eq, beq_iff_eq] at hd
    exact hd.elim hlower hupper
  rw [parseScalar, if_pos hlooks, parseReal, hexponent, hparse, Option.filter_some, if_pos h]
  rfl

omit [RealsReadBack R] in
theorem parseScalar_display (integer : FitsInteger) :
    parseScalar integer.display = some (.integer integer : Value R) := by
  rw [parseScalar, if_neg (by rw [integer.looksReal_display]; exact Bool.false_ne_true),
    integer.parse_display]
  rfl

end Reals

/-! ## Values -/

/-- Text with its trailing spaces significant; any other value. -/
def Value.Canonical {R : Type} : Value R → Prop
  | .text content => dropInsignificant content = content
  | _ => True

/-- The text of a value, which a record's field gives back. -/
structure FieldToken (token : Text) : Prop where
  slashFree : SlashFree token
  trim_eq : trim token = token
  ascii : token.all isAscii = true

theorem NumberText.fieldToken {token : Text} (h : NumberText token) : FieldToken token :=
  ⟨h.slashFree, h.trim_eq, h.ascii⟩

theorem isAscii_of_isPrintable {byte : UInt8} (h : isPrintable byte = true) :
    isAscii byte = true := by
  rw [isPrintable, Bool.and_eq_true, decide_eq_true_iff, decide_eq_true_iff,
    UInt8.le_iff_toNat_le, UInt8.le_iff_toNat_le] at h
  rw [isAscii, decide_eq_true_iff, UInt8.lt_iff_toNat_lt]
  have hbound : (0x7e : UInt8).toNat = 126 := rfl
  have hlimit : (0x80 : UInt8).toNat = 128 := rfl
  omega

theorem mem_escaped {text : Text} {byte : UInt8} (h : byte ∈ escaped text) : byte ∈ text := by
  obtain ⟨source, hsource, hbyte⟩ := List.mem_flatMap.mp h
  split at hbyte
  · rename_i hquote
    have hbyte : byte = quote := by simpa using hbyte
    exact hbyte ▸ hquote ▸ hsource
  · rw [List.mem_singleton.mp hbyte]
    exact hsource

theorem fieldToken_quoted {text : Text} (h : text.all isAscii = true) :
    FieldToken ([quote] ++ escaped text ++ [quote]) := by
  refine ⟨slashFree_quoted text, trim_quoted text, List.all_eq_true.mpr (fun byte hbyte => ?_)⟩
  rcases List.mem_append.mp hbyte with hbyte | hlast
  · rcases List.mem_append.mp hbyte with hfirst | hmem
    · rw [List.mem_singleton.mp hfirst]
      rfl
    · exact List.all_eq_true.mp h byte (mem_escaped hmem)
  · rw [List.mem_singleton.mp hlast]
    rfl

section Values

variable {R : Type} [RealText R]

/-- The text of a string, with the spaces that pad it. -/
theorem writeValue_text (content : Text) : ∃ n, (content = [] → n = 0) ∧
    writeValue (.text content : Value R) = [quote] ++ escaped (content ++ spaces n) ++ [quote] := by
  cases content with
  | nil => exact ⟨0, fun _ => rfl, rfl⟩
  | cons byte rest =>
    refine ⟨8 - escapedLen (byte :: rest), fun h => (List.cons_ne_nil _ _ h).elim, ?_⟩
    rw [writeValue, if_neg (by simp), escaped_append, escaped_spaces, List.append_assoc [quote]]
    rfl

/-- The two numbers of a complex value. -/
def complexText (re im : Text) : Text := ascii "(" ++ re ++ ascii ", " ++ im ++ ascii ")"

theorem complexText_eq (re im : Text) :
    complexText re im = 0x28 :: (re ++ 0x2c :: space :: im) ++ [0x29] := by
  have hopen : ascii "(" = [0x28] := rfl
  have hcomma : ascii ", " = [0x2c, space] := rfl
  have hclose : ascii ")" = [0x29] := rfl
  rw [complexText, hopen, hcomma, hclose]
  simp only [List.append_assoc, List.cons_append, List.nil_append]

theorem mem_complexText {re im : Text} (hre : NumberText re) (him : NumberText im) {byte : UInt8}
    (h : byte ∈ complexText re im) : byte ≠ quote ∧ byte ≠ slash ∧ isAscii byte = true := by
  have hnumber : isNumberByte byte = true → byte ≠ quote ∧ byte ≠ slash ∧ isAscii byte = true := by
    intro hbyte
    obtain ⟨-, hquote, hslash, -, -, -, -, -, -, hascii⟩ := isNumberByte_spec hbyte
    exact ⟨hquote, hslash, hascii⟩
  rw [complexText_eq] at h
  simp only [List.cons_append, List.mem_cons, List.mem_append, List.not_mem_nil, or_false] at h
  rcases h with rfl | (hmem | rfl | rfl | hmem) | rfl
  · decide
  · exact hnumber (hre.bytes byte hmem)
  · decide
  · decide
  · exact hnumber (him.bytes byte hmem)
  · decide

theorem fieldToken_complex {re im : Text} (hre : NumberText re) (him : NumberText im) :
    FieldToken (complexText re im) where
  slashFree := slashFree_of_plain (fun _ hbyte =>
    ⟨(mem_complexText hre him hbyte).1, (mem_complexText hre him hbyte).2.1⟩)
  trim_eq := by
    rw [complexText_eq]
    exact trim_eq_self (by decide) (by decide)
  ascii := List.all_eq_true.mpr (fun _ hbyte => (mem_complexText hre him hbyte).2.2)

/-- A complex value reads back from its two numbers. -/
theorem parseComplex_complexText {re im : Text} {reValue imValue value : Value R}
    (hre : NumberText re) (him : NumberText im) (hreValue : parseScalar re = some reValue)
    (himValue : parseScalar im = some imValue) (hvalue : complexOf reValue imValue = .ok value) :
    parseValue (complexText re im) = .ok (some value) := by
  have hinner : stripParens (complexText re im) = some (re ++ 0x2c :: space :: im) := by
    rw [complexText_eq, List.cons_append, stripParens, if_pos ⟨rfl, List.getLast?_concat⟩,
      List.dropLast_concat]
  have hre' : ∀ byte ∈ re, (byte != 0x2c) = true := by
    intro byte hbyte
    rw [bne_iff_ne]
    exact (isNumberByte_spec (hre.bytes byte hbyte)).2.2.2.2.1
  have hsplit : splitOnceComma (re ++ 0x2c :: space :: im) = some (re, space :: im) := by
    rw [splitOnceComma, if_pos (by simp), List.takeWhile_append_of_pos hre',
      List.dropWhile_append_of_pos hre', List.takeWhile_cons_of_neg (by decide),
      List.dropWhile_cons_of_neg (by decide), List.append_nil]
    rfl
  have himAscii : (space :: im).all isAscii = true := by
    rw [List.all_cons, him.ascii]
    rfl
  have himTrim : trim (space :: im) = im := by
    have hspaces := trim_spaces 1 0 im
    rw [him.trim_eq] at hspaces
    exact (congrArg trim (List.append_nil _).symm).trans hspaces
  have hhead : (complexText re im).head? = some 0x28 := by
    rw [complexText_eq]
    rfl
  have hword : ∀ byte, byte ≠ 0x28 → complexText re im ≠ [byte] := by
    intro byte hbyte hword
    rw [hword] at hhead
    exact hbyte (Option.some.inj hhead)
  have hempty : (complexText re im).isEmpty = false := by
    rw [complexText_eq]
    rfl
  have hT : ascii "T" = [0x54] := rfl
  have hF : ascii "F" = [0x46] := rfl
  rw [parseValue, hempty, if_neg Bool.false_ne_true, hhead, if_neg (by decide), hT, hF,
    if_neg (hword 0x54 (by decide)), if_neg (hword 0x46 (by decide)), if_pos rfl, parseComplex, hinner,
    Option.bind_some, hsplit]
  dsimp only
  rw [blankTrim_of_ascii hre.ascii, Loops.bind_ok rfl, hre.trim_eq, hreValue]
  dsimp only
  rw [blankTrim_of_ascii himAscii, Loops.bind_ok rfl, himTrim, himValue]
  dsimp only
  rw [hvalue]
  rfl

/-- A number reads back as the scalar that it is. -/
theorem parseValue_number {token : Text} {value : Value R} (h : NumberText token)
    (hvalue : parseScalar token = some value) : parseValue token = .ok (some value) := by
  have hempty : token.isEmpty = false := by simpa using h.ne
  have hword : ∀ byte, isNumberByte byte = false → token ≠ [byte] := by
    rintro byte hbyte rfl
    exact h.head?_ne hbyte rfl
  have hT : ascii "T" = [0x54] := rfl
  have hF : ascii "F" = [0x46] := rfl
  rw [parseValue, hempty, if_neg Bool.false_ne_true, if_neg (h.head?_ne (by decide)), hT, hF,
    if_neg (hword 0x54 (by decide)), if_neg (hword 0x46 (by decide)),
    if_neg (h.head?_ne (by decide)), hvalue]

theorem finite_of_validateValue {name : RecordName} {real : R}
    (h : validateValue name (.real real) = .ok ()) : RealText.isFinite real = true := by
  by_contra hinfinite
  rw [validateValue, if_neg hinfinite] at h
  cases h

theorem finites_of_validateValue {name : RecordName} {re im : R}
    (h : validateValue name (.complexReal re im) = .ok ()) :
    RealText.isFinite re = true ∧ RealText.isFinite im = true := by
  by_contra hinfinite
  rw [validateValue, if_neg (by rwa [Bool.and_eq_true])] at h
  cases h

theorem printable_of_validateAscii {text : Text} {origin : TextOrigin}
    (h : validateAscii text origin = .ok ()) : text.all isPrintable = true := by
  by_contra hother
  rw [validateAscii, if_neg hother] at h
  cases h

theorem all_isAscii_of_printable {text : Text} (h : text.all isPrintable = true) :
    text.all isAscii = true :=
  List.all_eq_true.mpr (fun byte hbyte => isAscii_of_isPrintable (List.all_eq_true.mp h byte hbyte))

variable [RealsReadBack R]

/-- The text of a value is a token of a field. -/
theorem fieldToken_writeValue {name : RecordName} {value : Value R}
    (h : validateValue name value = .ok ()) : FieldToken (writeValue value) := by
  cases value with
  | logical value =>
    have htrue : FieldToken (ascii "T") := ⟨slashFree_of_plain (by decide +kernel), by decide, by decide⟩
    have hfalse : FieldToken (ascii "F") := ⟨slashFree_of_plain (by decide +kernel), by decide, by decide⟩
    cases value with
    | true => exact htrue
    | false => exact hfalse
  | integer integer => exact integer.numberText.fieldToken
  | real real => exact (writeReal_spec (finite_of_validateValue h)).1.fieldToken
  | text content =>
    obtain ⟨n, -, htext⟩ := writeValue_text (R := R) content
    rw [htext]
    refine fieldToken_quoted (List.all_eq_true.mpr (fun byte hbyte => ?_))
    rcases List.mem_append.mp hbyte with hmem | hspace
    · exact List.all_eq_true.mp (all_isAscii_of_printable (printable_of_validateAscii h)) byte hmem
    · rw [List.eq_of_mem_replicate hspace]
      rfl
  | complexInteger re im => exact fieldToken_complex re.numberText im.numberText
  | complexReal re im =>
    obtain ⟨hre, him⟩ := finites_of_validateValue h
    exact fieldToken_complex (writeReal_spec hre).1 (writeReal_spec him).1
  | undefined =>
    have hempty : FieldToken [] := ⟨slashFree_of_plain (by decide +kernel), by decide, by decide⟩
    exact hempty

/-- A value reads back from its text. -/
theorem parseValue_writeValue {name : RecordName} {value : Value R}
    (h : validateValue name value = .ok ()) (hcanonical : value.Canonical) :
    parseValue (writeValue value) = .ok (some value) := by
  cases value with
  | logical value => cases value <;> rfl
  | integer integer => exact parseValue_number integer.numberText (parseScalar_display integer)
  | real real =>
    have hfinite := finite_of_validateValue h
    exact parseValue_number (writeReal_spec hfinite).1 (parseScalar_writeReal hfinite)
  | text content =>
    obtain ⟨n, hn, htext⟩ := writeValue_text (R := R) content
    have hsignificant : dropInsignificant (content ++ spaces n) = content := by
      by_cases hempty : content = []
      · rw [hn hempty, hempty]
        rfl
      · exact (dropInsignificant_spaces hempty n).trans hcanonical
    rw [htext, parseValue, if_neg (by simp), if_pos (by simp), parseString_quoted, hsignificant]
    rfl
  | complexInteger re im =>
    exact parseComplex_complexText re.numberText im.numberText (parseScalar_display re)
      (parseScalar_display im) rfl
  | complexReal re im =>
    obtain ⟨hre, him⟩ := finites_of_validateValue h
    exact parseComplex_complexText (writeReal_spec hre).1 (writeReal_spec him).1
      (parseScalar_writeReal hre) (parseScalar_writeReal him) rfl
  | undefined => rfl

end Values

end FitsWell
