import FitsWell.BinTable.SchemaParse
import FitsWell.HeaderModel.ValueRoundTrip
import FitsWell.Library.Utf8
import FitsWell.Writer.Builder

/-!
# Formats as text

The format of a column is read from any string, and what it prints reads back. A string is
cut at the places of its bytes: the format of a binary column before a letter, which starts a
character, and that of an ASCII column after the first byte, which may end inside one.
-/

namespace FitsWell

open Utf8

/-! ## Strings -/

/-- A character that a trim of a string drops. -/
def isWhiteSpace (c : Char) : Bool :=
  (0x09 ≤ c.toNat && c.toNat ≤ 0x0d) || (0x2000 ≤ c.toNat && c.toNat ≤ 0x200a) ||
    [0x20, 0x85, 0xa0, 0x1680, 0x2028, 0x2029, 0x202f, 0x205f, 0x3000].contains c.toNat

/-- `s.trim()`. -/
def trimStr (s : List Char) : List Char := (s.dropWhile isWhiteSpace).rdropWhile isWhiteSpace

/-- `s[..pos]`, which panics inside a character. -/
def sliceTo (s : List Char) (pos : ℕ) : Outcome (List Char) :=
  match takeBytes s pos with
  | some part => .ok part
  | none => abort .indexOutOfBounds

/-- `s[pos..]`, which panics inside a character. -/
def sliceFrom (s : List Char) (pos : ℕ) : Outcome (List Char) :=
  match dropBytes s pos with
  | some part => .ok part
  | none => abort .indexOutOfBounds

/-- `s.split_once(separator)`. -/
def splitOnce (s : List Char) (separator : Char) : Option (List Char × List Char) :=
  if s.contains separator then
    some (s.takeWhile (· != separator), (s.dropWhile (· != separator)).tail)
  else
    none

/-! ## Binary columns -/

namespace Tform

/-- The repeat count before the letter at `pos`, one where there is none. -/
def countBefore (value : Text) (s : List Char) (pos : ℕ) : Outcome ℕ :=
  if pos = 0 then
    .ok 1
  else do
    let digits ← sliceTo s pos
    Tform.part value (parseUsize (encode digits))

/-- The format that a string spells. What follows the letters is not read. -/
def fromStr (value : List Char) : Outcome Tform := do
  let s := trimStr value
  let text := encode value
  let pos ← Tform.part text ((encode s).findIdx? isAsciiAlphabetic)
  let repeatCount ← countBefore text s pos
  let letter ← load (encode s) pos
  match DescriptorWidth.ofLetter letter with
  | some width =>
    if hrepeat : repeatCount ≤ 1 then
      let code ← Tform.part text (encode s)[pos + 1]?
      let element ← Tform.part text (ElementKind.fromCode code)
      .ok { repeatCount := repeatCount, element := element, storage := .array width
            descriptors := Storage.one_descriptor hrepeat }
    else
      fail (.invalidTform text)
  | none => do
    let element ← Tform.part text (ElementKind.fromCode letter)
    .ok { repeatCount := repeatCount, element := element, storage := .fixed
          descriptors := Storage.no_descriptors }

end Tform

/-! ## ASCII columns -/

/-- The form of a float column: the width of its fields, and the digits after the point. -/
inductive AsciiFloatFormat
  | F (width decimals : ℕ)
  | E (width decimals : ℕ)
  | D (width decimals : ℕ)
  deriving DecidableEq, Repr

namespace AsciiFloatFormat

def width : AsciiFloatFormat → ℕ
  | F width _ | E width _ | D width _ => width

def decimals : AsciiFloatFormat → ℕ
  | F _ decimals | E _ decimals | D _ decimals => decimals

/-- The letter of a form. -/
def letter : AsciiFloatFormat → UInt8
  | F _ _ => 0x46
  | E _ _ => 0x45
  | D _ _ => 0x44

end AsciiFloatFormat

/-- The format of a column of an ASCII table. -/
inductive AsciiTform
  | text (width : ℕ)
  | integer (width : ℕ)
  | float (format : AsciiFloatFormat)
  deriving DecidableEq, Repr

namespace AsciiTform

/-- The width and the decimals that follow the letter of a format. -/
def widthAndDecimals (value : Text) (rest : List Char) : Outcome (ℕ × ℕ) :=
  match splitOnce rest '.' with
  | some parts => do
    let width ← Tform.part value (parseUsize (encode (trimStr parts.1)))
    let decimals ← Tform.part value (parseUsize (encode (trimStr parts.2)))
    .ok (width, decimals)
  | none => do
    let width ← Tform.part value (parseUsize (encode (trimStr rest)))
    .ok (width, 0)

/-- The format of a letter. -/
def ofLetter (letter : UInt8) (width decimals : ℕ) : Option AsciiTform :=
  if letter = 0x41 then some (.text width)
  else if letter = 0x49 then some (.integer width)
  else if letter = 0x46 then some (.float (.F width decimals))
  else if letter = 0x45 then some (.float (.E width decimals))
  else if letter = 0x44 then some (.float (.D width decimals))
  else none

/-- The format that a string spells. -/
def fromStr (value : List Char) : Outcome AsciiTform := do
  let s := trimStr value
  let letter ← Tform.part (encode value) (encode s).head?
  -- the first byte of a character of more bytes is no place to cut
  let rest ← sliceFrom s 1
  let fields ← widthAndDecimals (encode value) rest
  Tform.part (encode value) (ofLetter letter fields.1 fields.2)

/-- The text of a format. -/
def display : AsciiTform → Text
  | .text width => 0x41 :: Decimal.numeral width
  | .integer width => 0x49 :: Decimal.numeral width
  | .float format =>
    format.letter :: (Decimal.numeral format.width ++ 0x2e :: Decimal.numeral format.decimals)

/-- The width and the decimals of a format are words. -/
def Fits : AsciiTform → Prop
  | .text width | .integer width => width ≤ usizeMax
  | .float format => format.width ≤ usizeMax ∧ format.decimals ≤ usizeMax

end AsciiTform

/-! ## Cuts -/

theorem isAscii_of_alphabetic {byte : UInt8} (h : isAsciiAlphabetic byte = true) :
    byte.toNat < 0x80 := by
  simp only [isAsciiAlphabetic, isAsciiUppercase, isAsciiLowercase, Bool.or_eq_true,
    Bool.and_eq_true, decide_eq_true_eq, UInt8.le_iff_toNat_le] at h
  rcases h with ⟨-, h⟩ | ⟨-, h⟩
  · exact lt_of_le_of_lt h (by decide)
  · exact lt_of_le_of_lt h (by decide)

/-- A string is cut before its first letter. -/
theorem sliceTo_of_letter {s : List Char} {pos : ℕ}
    (h : (encode s).findIdx? isAsciiAlphabetic = some pos) :
    ∃ digits rest, s = digits ++ rest ∧ (encode digits).length = pos ∧
      sliceTo s pos = .ok digits := by
  obtain ⟨hlt, hletter, -⟩ := List.findIdx?_eq_some_iff_getElem.mp h
  obtain ⟨front, c, back, rfl, hlength, -⟩ :=
    split_of_ascii (List.getElem?_eq_getElem hlt) (isAscii_of_alphabetic hletter)
  refine ⟨front, c :: back, rfl, hlength, ?_⟩
  rw [sliceTo, ← hlength, takeBytes_append]

/-- A string is cut after its first byte where its first character is ASCII. -/
theorem sliceFrom_one (c : Char) (rest : List Char) :
    sliceFrom (c :: rest) 1 = if IsAscii c then .ok rest else abort .indexOutOfBounds := by
  rw [sliceFrom, dropBytes_one]
  by_cases hc : IsAscii c
  · rw [if_pos hc, if_pos hc]
  · rw [if_neg hc, if_neg hc]

theorem splitOnce_of_not_mem {s : List Char} {separator : Char} (h : separator ∉ s) :
    splitOnce s separator = none := by
  rw [splitOnce, if_neg (by rwa [List.contains_iff_mem])]

/-- A string is split at the first separator. -/
theorem splitOnce_append {front : List Char} {separator : Char} (h : separator ∉ front)
    (back : List Char) : splitOnce (front ++ separator :: back) separator = some (front, back) := by
  have hpass : ∀ c ∈ front, (c != separator) = true := by
    intro c hc
    rw [bne_iff_ne]
    rintro rfl
    exact h hc
  rw [splitOnce, if_pos (by simp), List.takeWhile_append_of_pos hpass,
    List.dropWhile_append_of_pos hpass]
  simp

theorem eq_append_of_splitOnce {s front back : List Char} {separator : Char}
    (h : splitOnce s separator = some (front, back)) : s = front ++ separator :: back := by
  unfold splitOnce at h
  split at h
  · rename_i hmem
    obtain ⟨rfl, rfl⟩ := Prod.mk.inj (Option.some.inj h)
    have hne : s.dropWhile (· != separator) ≠ [] := by
      intro hnil
      have hall := List.dropWhile_eq_nil_iff.mp hnil separator (List.contains_iff_mem.mp hmem)
      simp at hall
    have hhead : (s.dropWhile (· != separator)).head hne = separator := by
      simpa using List.head_dropWhile_not (· != separator) hne
    nth_rewrite 1 [← List.takeWhile_append_dropWhile (p := (· != separator)) (l := s)]
    rw [← List.cons_head_tail hne, hhead]
    simp
  · cases h

/-! ## No panic -/

namespace Tform

theorem noPanic_countBefore {value : Text} {s : List Char} {pos : ℕ}
    (h : (encode s).findIdx? isAsciiAlphabetic = some pos) : NoPanic (countBefore value s pos) := by
  obtain ⟨digits, rest, -, -, hslice⟩ := sliceTo_of_letter h
  refine NoPanic.ite (fun _ => NoPanic.ok _) fun _ => ?_
  exact NoPanic.bind (NoPanic.of_ok hslice) fun _ _ => noPanic_part _ _

theorem noPanic_fromStr (value : List Char) : NoPanic (fromStr value) := by
  refine NoPanic.bind (noPanic_part _ _) fun pos hpos => ?_
  have hfind : (encode (trimStr value)).findIdx? isAsciiAlphabetic = some pos := by
    cases hfound : (encode (trimStr value)).findIdx? isAsciiAlphabetic with
    | none =>
      rw [hfound] at hpos
      cases hpos
    | some found =>
      rw [hfound] at hpos
      rw [Except.ok.inj hpos]
  refine NoPanic.bind (noPanic_countBefore hfind) fun repeatCount _ => ?_
  have hlt := (List.findIdx?_eq_some_iff_getElem.mp hfind).1
  refine NoPanic.bind (NoPanic.of_ok (load_of_getElem? (List.getElem?_eq_getElem hlt))) ?_
  intro letter _
  cases DescriptorWidth.ofLetter letter with
  | none => exact NoPanic.bind (noPanic_part _ _) fun _ _ => NoPanic.ok _
  | some width =>
    dsimp only
    split
    · refine NoPanic.bind (noPanic_part _ _) fun code _ => ?_
      exact NoPanic.bind (noPanic_part _ _) fun _ _ => NoPanic.ok _
    · exact NoPanic.fail _

end Tform

namespace AsciiTform

theorem noPanic_widthAndDecimals (value : Text) (rest : List Char) :
    NoPanic (widthAndDecimals value rest) := by
  unfold widthAndDecimals
  split
  · refine NoPanic.bind (Tform.noPanic_part _ _) fun _ _ => ?_
    exact NoPanic.bind (Tform.noPanic_part _ _) fun _ _ => NoPanic.ok _
  · exact NoPanic.bind (Tform.noPanic_part _ _) fun _ _ => NoPanic.ok _

/-- The format of an ASCII column reads or errs exactly where the string, trimmed, does not
start with a character of more than one byte. -/
theorem noPanic_fromStr_iff (value : List Char) :
    NoPanic (fromStr value) ↔ ∀ c, (trimStr value).head? = some c → IsAscii c := by
  unfold fromStr
  cases htrim : trimStr value with
  | nil =>
    refine iff_of_true (NoPanic.bind (Tform.noPanic_part _ _) fun letter hletter => ?_) ?_
    · cases hletter
    · intro c hc
      cases hc
  | cons c rest =>
    obtain ⟨letter, hletter⟩ : ∃ letter, (encode (c :: rest)).head? = some letter := by
      have hne : encode (c :: rest) ≠ [] := by
        rw [encode_cons]
        exact List.append_ne_nil_of_left_ne_nil String.utf8EncodeChar_ne_nil _
      exact ⟨_, List.head?_eq_some_head hne⟩
    dsimp only
    rw [hletter, Tform.part, Loops.bind_ok rfl, sliceFrom_one]
    constructor
    · intro hcalm d hd
      obtain rfl := Option.some.inj hd
      by_contra hascii
      rw [if_neg hascii] at hcalm
      exact hcalm _ rfl
    · intro hascii
      rw [if_pos (hascii c rfl), Loops.bind_ok rfl]
      exact NoPanic.bind (noPanic_widthAndDecimals _ _) fun _ _ => Tform.noPanic_part _ _

end AsciiTform

/-! ## ASCII text -/

theorem isWhiteSpace_ofNat {byte : UInt8} (h : byte.toNat < 0x80) :
    isWhiteSpace (Char.ofNat byte.toNat) = isBlank byte := by
  have hall : ∀ n < 0x80, isWhiteSpace (Char.ofNat n) = isBlank (UInt8.ofNat n) := by decide
  rw [hall _ h, UInt8.ofNat_toNat]

theorem dropWhile_ofAscii {text : Text} (h : ∀ byte ∈ text, byte.toNat < 0x80) :
    (ofAscii text).dropWhile isWhiteSpace = ofAscii (text.dropWhile isBlank) := by
  induction text with
  | nil => rfl
  | cons byte text ih =>
    have hbyte := isWhiteSpace_ofNat (h byte List.mem_cons_self)
    have hrest := ih fun other hother => h other (List.mem_cons_of_mem byte hother)
    rw [ofAscii, List.map_cons, List.dropWhile_cons, List.dropWhile_cons, hbyte]
    split
    · exact hrest
    · rfl

/-- A trim of ASCII characters is that of their bytes. -/
theorem trimStr_ofAscii {text : Text} (h : ∀ byte ∈ text, byte.toNat < 0x80) :
    trimStr (ofAscii text) = ofAscii (trim text) := by
  have hdrop : ∀ byte ∈ (text.dropWhile isBlank).reverse, byte.toNat < 0x80 := fun byte hbyte =>
    h byte ((List.dropWhile_sublist isBlank).mem (List.mem_reverse.mp hbyte))
  have hreverse : (ofAscii (text.dropWhile isBlank)).reverse =
      ofAscii (text.dropWhile isBlank).reverse := List.map_reverse.symm
  rw [trimStr, dropWhile_ofAscii h, trim, List.rdropWhile, List.rdropWhile, hreverse,
    dropWhile_ofAscii hdrop]
  exact List.map_reverse.symm

theorem isAscii_of_mem_trim {text : Text} (h : ∀ byte ∈ text, byte.toNat < 0x80) :
    ∀ byte ∈ trim text, byte.toNat < 0x80 := fun byte hbyte => h byte ((trim_sublist text).mem hbyte)

/-- A format of ASCII text reads as that of its bytes. -/
theorem Tform.fromStr_ofAscii {value : Text} (h : ∀ byte ∈ value, byte.toNat < 0x80) :
    Tform.fromStr (ofAscii value) = Tform.parse value := by
  have htrim := isAscii_of_mem_trim h
  unfold Tform.fromStr Tform.parse
  dsimp only
  rw [trimStr_ofAscii h, encode_ofAscii htrim, encode_ofAscii h]
  cases hfind : (trim value).findIdx? isAsciiAlphabetic with
  | none => rfl
  | some pos =>
    have hlt := (List.findIdx?_eq_some_iff_getElem.mp hfind).1
    have hcount : countBefore value (ofAscii (trim value)) pos =
        Tform.part value (leadingCount ((trim value).take pos)) := by
      have htake : ∀ byte ∈ (trim value).take pos, byte.toNat < 0x80 := fun byte hbyte =>
        htrim byte (List.mem_of_mem_take hbyte)
      have hlength : ((trim value).take pos).length = pos := by
        rw [List.length_take, Nat.min_eq_left (Nat.le_of_lt hlt)]
      have hsplit : ofAscii (trim value) =
          ofAscii ((trim value).take pos) ++ ofAscii ((trim value).drop pos) := by
        rw [ofAscii, ofAscii, ofAscii, ← List.map_append, List.take_append_drop]
      have hplace : (encode (ofAscii ((trim value).take pos))).length = pos := by
        rw [encode_ofAscii htake, hlength]
      have hslice : sliceTo (ofAscii (trim value)) pos = .ok (ofAscii ((trim value).take pos)) := by
        have hcut := takeBytes_append (ofAscii ((trim value).take pos)) (ofAscii ((trim value).drop pos))
        rw [hplace] at hcut
        rw [sliceTo, hsplit, hcut]
      rw [countBefore, leadingCount, hlength]
      split
      · rfl
      · rw [hslice, Loops.bind_ok rfl, encode_ofAscii htake]
    rw [Tform.part, Loops.bind_ok rfl, Loops.bind_ok rfl]
    exact congrArg (fun count => count >>= _) hcount

/-! ## Round trips -/

theorem parseUsize_numeral {n : ℕ} (h : n ≤ usizeMax) : parseUsize (Decimal.numeral n) = some n := by
  have hsign : (Decimal.numeral n).head? ≠ some 0x2b := by
    intro hhead
    have hdigit := Decimal.isDigit_numeral (List.mem_of_mem_head? hhead)
    exact absurd hdigit.1 (by decide)
  rw [parseUsize, if_neg hsign, if_pos (isDigits_numeral n), Decimal.value_numeral, if_pos h]

theorem isBlank_of_le {byte : UInt8} (h : 0x21 ≤ byte.toNat) : isBlank byte = false := by
  by_contra hblank
  simp only [isBlank, Bool.not_eq_false, Bool.or_eq_true, beq_iff_eq, Bool.and_eq_true,
    decide_eq_true_eq, UInt8.le_iff_toNat_le] at hblank
  rcases hblank with rfl | ⟨-, hle⟩
  · exact absurd h (by decide)
  · exact absurd (le_trans h hle) (by decide)

theorem isBlank_of_isDigit {byte : UInt8} (h : Decimal.IsDigit byte) : isBlank byte = false :=
  isBlank_of_le (le_trans (by decide) h.1)

theorem isBlank_of_alphabetic {byte : UInt8} (h : isAsciiAlphabetic byte = true) :
    isBlank byte = false := by
  simp only [isAsciiAlphabetic, isAsciiUppercase, isAsciiLowercase, Bool.or_eq_true,
    Bool.and_eq_true, decide_eq_true_eq, UInt8.le_iff_toNat_le] at h
  rcases h with ⟨h, -⟩ | ⟨h, -⟩
  · exact isBlank_of_le (le_trans (by decide) h)
  · exact isBlank_of_le (le_trans (by decide) h)

theorem isAsciiAlphabetic_of_isDigit {byte : UInt8} (h : Decimal.IsDigit byte) :
    isAsciiAlphabetic byte = false := by
  obtain ⟨hlow, hhigh⟩ := h
  have hall : ∀ n < 0x3a, isAsciiAlphabetic (UInt8.ofNat n) = false := by decide
  have hdigit := hall byte.toNat (Nat.lt_succ_of_le hhigh)
  rwa [UInt8.ofNat_toNat] at hdigit

theorem trim_numeral (n : ℕ) : trim (Decimal.numeral n) = Decimal.numeral n :=
  trim_of_no_blank fun _ hbyte => isBlank_of_isDigit (Decimal.isDigit_numeral hbyte)

theorem isAscii_numeral {n : ℕ} : ∀ byte ∈ Decimal.numeral n, byte.toNat < 0x80 :=
  fun _ hbyte => lt_of_le_of_lt (Decimal.isDigit_numeral hbyte).2 (by decide)

namespace Tform

/-- The letters after a repeat count are found where it ends. -/
theorem findIdx?_letter (n : ℕ) {letter : UInt8} (h : isAsciiAlphabetic letter = true)
    (rest : Text) :
    (Decimal.numeral n ++ letter :: rest).findIdx? isAsciiAlphabetic =
      some (Decimal.numeral n).length := by
  have hdigits : (Decimal.numeral n).findIdx? isAsciiAlphabetic = none :=
    List.findIdx?_eq_none_iff.mpr fun _ hbyte =>
      isAsciiAlphabetic_of_isDigit (Decimal.isDigit_numeral hbyte)
  rw [List.findIdx?_append, hdigits, List.findIdx?_cons, if_pos h]
  simp

theorem leadingCount_numeral {n : ℕ} (h : n ≤ usizeMax) :
    leadingCount (Decimal.numeral n) = some n := by
  have hlength : (Decimal.numeral n).length ≠ 0 := by
    simpa using Decimal.numeral_ne_nil n
  rw [leadingCount, if_neg hlength, parseUsize_numeral h]

theorem letter_code (kind : ElementKind) : isAsciiAlphabetic kind.code = true ∧
    DescriptorWidth.ofLetter kind.code = none ∧ ElementKind.fromCode kind.code = some kind ∧
    isBlank kind.code = false ∧ kind.code.toNat < 0x80 := by
  cases kind <;> decide

theorem letter_width (width : DescriptorWidth) : isAsciiAlphabetic width.letter = true ∧
    DescriptorWidth.ofLetter width.letter = some width ∧ isBlank width.letter = false ∧
    width.letter.toNat < 0x80 := by
  cases width <;> decide

/-- What a format prints is ASCII with no blank. -/
theorem display_bytes (tform : Tform) :
    ∀ byte ∈ tform.display, isBlank byte = false ∧ byte.toNat < 0x80 := by
  have hdigits : ∀ byte ∈ Decimal.numeral tform.repeatCount,
      isBlank byte = false ∧ byte.toNat < 0x80 := fun byte hbyte =>
    ⟨isBlank_of_isDigit (Decimal.isDigit_numeral hbyte), isAscii_numeral byte hbyte⟩
  obtain ⟨-, -, -, hcode⟩ := letter_code tform.element
  intro byte hbyte
  unfold display at hbyte
  split at hbyte
  · rcases List.mem_append.mp hbyte with hdigit | hletter
    · exact hdigits byte hdigit
    · rw [List.mem_singleton.mp hletter]
      exact hcode
  · rename_i width _
    rcases List.mem_append.mp hbyte with hdigit | hletters
    · exact hdigits byte hdigit
    · rcases List.mem_cons.mp hletters with rfl | hletter
      · exact (letter_width width).2.2
      · rw [List.mem_singleton.mp hletter]
        exact hcode

/-- A format of a binary column reads back from what it prints. -/
theorem parse_display {tform : Tform} (h : tform.repeatCount ≤ usizeMax) :
    Tform.parse tform.display = .ok tform := by
  have htrim := trim_of_no_blank fun byte hbyte => (tform.display_bytes byte hbyte).1
  obtain ⟨halphabetic, hnarrow, hkind, -⟩ := letter_code tform.element
  obtain ⟨count, element, storage, hdescriptors⟩ := tform
  dsimp only at h halphabetic hnarrow hkind
  unfold Tform.parse
  rw [htrim]
  cases storage with
  | fixed =>
    dsimp only [display]
    have hload : load (Decimal.numeral count ++ [element.code]) (Decimal.numeral count).length =
        .ok element.code := load_of_getElem? (by simp)
    rw [findIdx?_letter count halphabetic, Tform.part, Loops.bind_ok rfl, List.take_left,
      leadingCount_numeral h, Tform.part, Loops.bind_ok rfl, hload, Loops.bind_ok rfl, hnarrow]
    dsimp only
    rw [hkind]
    rfl
  | array width =>
    have hcount : count ≤ 1 := hdescriptors (by simp)
    obtain ⟨hletter, hwidth, -⟩ := letter_width width
    dsimp only [display]
    have hload : load (Decimal.numeral count ++ [width.letter, element.code])
        (Decimal.numeral count).length = .ok width.letter := load_of_getElem? (by simp)
    have hcode : (Decimal.numeral count ++ [width.letter, element.code])[
        (Decimal.numeral count).length + 1]? = some element.code := by simp
    rw [findIdx?_letter count hletter, Tform.part, Loops.bind_ok rfl, List.take_left,
      leadingCount_numeral h, Tform.part, Loops.bind_ok rfl, hload, Loops.bind_ok rfl, hwidth]
    dsimp only
    rw [dif_pos hcount, hcode, Tform.part, Loops.bind_ok rfl, hkind]
    rfl

end Tform

namespace AsciiTform

theorem ofNat_ne_point {byte : UInt8} (h : Decimal.IsDigit byte) :
    Char.ofNat byte.toNat ≠ '.' := by
  intro hpoint
  have hvalue := congrArg Char.toNat hpoint
  rw [toNat_ofNat_byte] at hvalue
  have hlow := h.1
  rw [hvalue] at hlow
  exact absurd hlow (by decide)

theorem point_not_mem (n : ℕ) : '.' ∉ ofAscii (Decimal.numeral n) := by
  intro hmem
  obtain ⟨byte, hbyte, hpoint⟩ := List.mem_map.mp hmem
  exact ofNat_ne_point (Decimal.isDigit_numeral hbyte) hpoint

/-- A count reads back from its numeral. -/
theorem part_numeral (value : Text) {n : ℕ} (h : n ≤ usizeMax) :
    Tform.part value (parseUsize (encode (trimStr (ofAscii (Decimal.numeral n))))) = .ok n := by
  rw [trimStr_ofAscii isAscii_numeral, trim_numeral, encode_ofAscii isAscii_numeral,
    parseUsize_numeral h]
  rfl

/-- The fields of a format with no point. -/
theorem widthAndDecimals_numeral (value : Text) {width : ℕ} (h : width ≤ usizeMax) :
    widthAndDecimals value (ofAscii (Decimal.numeral width)) = .ok (width, 0) := by
  rw [widthAndDecimals, splitOnce_of_not_mem (point_not_mem width)]
  dsimp only
  rw [part_numeral value h, Loops.bind_ok rfl]

/-- The fields of a format with a point. -/
theorem widthAndDecimals_point (value : Text) {width decimals : ℕ} (hwidth : width ≤ usizeMax)
    (hdecimals : decimals ≤ usizeMax) :
    widthAndDecimals value
      (ofAscii (Decimal.numeral width ++ 0x2e :: Decimal.numeral decimals)) =
      .ok (width, decimals) := by
  have hchars : ofAscii (Decimal.numeral width ++ 0x2e :: Decimal.numeral decimals) =
      ofAscii (Decimal.numeral width) ++ '.' :: ofAscii (Decimal.numeral decimals) := by
    rw [ofAscii, List.map_append, List.map_cons]
    rfl
  rw [hchars, widthAndDecimals, splitOnce_append (point_not_mem width)]
  dsimp only
  rw [part_numeral value hwidth, Loops.bind_ok rfl, part_numeral value hdecimals,
    Loops.bind_ok rfl]

/-- A letter of a format, before fields that end in a digit. -/
theorem fromStr_letter {letter : UInt8} {fields : Text} {width decimals : ℕ} {tform : AsciiTform}
    (hletter : isAsciiAlphabetic letter = true) (hfields : ∀ byte ∈ fields, isBlank byte = false)
    (hascii : ∀ byte ∈ fields, byte.toNat < 0x80)
    (hread : ∀ value, widthAndDecimals value (ofAscii fields) = .ok (width, decimals))
    (hform : ofLetter letter width decimals = some tform) :
    fromStr (ofAscii (letter :: fields)) = .ok tform := by
  have hall : ∀ byte ∈ letter :: fields, byte.toNat < 0x80 :=
    List.forall_mem_cons.mpr ⟨isAscii_of_alphabetic hletter, hascii⟩
  have htrim := trim_of_no_blank
    (List.forall_mem_cons.mpr ⟨isBlank_of_alphabetic hletter, hfields⟩)
  have hfirst : IsAscii (Char.ofNat letter.toNat) := by
    rw [IsAscii, toNat_ofNat_byte]
    exact hall letter List.mem_cons_self
  have hcons : ofAscii (letter :: fields) = Char.ofNat letter.toNat :: ofAscii fields := rfl
  unfold fromStr
  dsimp only
  rw [trimStr_ofAscii hall, htrim, encode_ofAscii hall, List.head?_cons, Tform.part,
    Loops.bind_ok rfl, hcons, sliceFrom_one, if_pos hfirst, Loops.bind_ok rfl, hread,
    Loops.bind_ok rfl]
  dsimp only
  rw [hform]
  rfl

/-- A format of an ASCII column reads back from what it prints. -/
theorem fromStr_display {tform : AsciiTform} (h : tform.Fits) :
    fromStr (ofAscii tform.display) = .ok tform := by
  have hdigits : ∀ n, ∀ byte ∈ Decimal.numeral n, isBlank byte = false := fun _ byte hbyte =>
    isBlank_of_isDigit (Decimal.isDigit_numeral hbyte)
  cases tform with
  | text width =>
    exact fromStr_letter rfl (hdigits width) isAscii_numeral
      (fun value => widthAndDecimals_numeral value h) rfl
  | integer width =>
    exact fromStr_letter rfl (hdigits width) isAscii_numeral
      (fun value => widthAndDecimals_numeral value h) rfl
  | float format =>
    have hfields : ∀ byte ∈ Decimal.numeral format.width ++ 0x2e :: Decimal.numeral format.decimals,
        isBlank byte = false ∧ byte.toNat < 0x80 := by
      intro byte hbyte
      rcases List.mem_append.mp hbyte with hwidth | hrest
      · exact ⟨hdigits _ byte hwidth, isAscii_numeral byte hwidth⟩
      · rcases List.mem_cons.mp hrest with rfl | hdecimals
        · decide
        · exact ⟨hdigits _ byte hdecimals, isAscii_numeral byte hdecimals⟩
    refine fromStr_letter ?_ (fun byte hbyte => (hfields byte hbyte).1)
      (fun byte hbyte => (hfields byte hbyte).2)
      (fun value => widthAndDecimals_point value h.1 h.2) ?_
    · cases format <;> rfl
    · cases format <;> rfl

end AsciiTform

/-- No string makes the read of a binary column's format panic, and one makes that of an ASCII
column's format panic exactly where, trimmed, it starts with a character of more than one byte.
What a format of either kind prints reads back as it. -/
theorem formats_read_iff (value : List Char) :
    (NoPanic (AsciiTform.fromStr value) ∧ NoPanic (Tform.fromStr value) ↔
      ∀ c, (trimStr value).head? = some c → IsAscii c) ∧
    (∀ tform : AsciiTform, tform.Fits →
      AsciiTform.fromStr (ofAscii tform.display) = .ok tform) ∧
    ∀ tform : Tform, tform.repeatCount ≤ usizeMax →
      Tform.fromStr (ofAscii tform.display) = .ok tform := by
  refine ⟨?_, fun tform h => AsciiTform.fromStr_display h, fun tform h => ?_⟩
  · rw [← AsciiTform.noPanic_fromStr_iff]
    exact and_iff_left (Tform.noPanic_fromStr value)
  · rw [Tform.fromStr_ofAscii fun byte hbyte => (tform.display_bytes byte hbyte).2,
      Tform.parse_display h]

/-- A float form, printed and read. -/
theorem formats_read_iff_float :
    AsciiTform.fromStr (ofAscii (AsciiTform.float (.F 8 3)).display) = .ok (.float (.F 8 3)) :=
  (formats_read_iff []).2.1 _ ⟨by decide, by decide⟩

/-- A letter past ASCII, before a width. -/
theorem format_read_panics : AsciiTform.fromStr ['é', '5'] = abort .indexOutOfBounds := by
  decide

end FitsWell
