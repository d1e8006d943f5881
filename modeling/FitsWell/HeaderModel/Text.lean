import Mathlib.Data.List.DropRight
import Mathlib.Data.Nat.Notation

/-!
# Header text

Text is its bytes. The blanks of header text are ASCII: a trim of the free fields drops
tabs to carriage returns too, a trim of a name or of commentary drops spaces only.
-/

namespace FitsWell

/-- A string, as its bytes. -/
abbrev Text := List UInt8

/-- The bytes of a literal of ASCII characters. -/
def ascii (literal : String) : Text := literal.toList.map Char.toUInt8

/-! ## Characters -/

/-- `' '`. -/
def space : UInt8 := 0x20

/-- `'\''`. -/
def quote : UInt8 := 0x27

/-- `'/'`. -/
def slash : UInt8 := 0x2f

/-- `'='`. -/
def equals : UInt8 := 0x3d

/-- `'&'`. -/
def ampersand : UInt8 := 0x26

def isAscii (byte : UInt8) : Bool := byte < 0x80

/-- A byte of FITS restricted ASCII. -/
def isPrintable (byte : UInt8) : Bool := 0x20 ≤ byte && byte ≤ 0x7e

/-- A byte of restricted ASCII that is no blank. -/
def isAsciiGraphic (byte : UInt8) : Bool := 0x21 ≤ byte && byte ≤ 0x7e

def isAsciiUppercase (byte : UInt8) : Bool := 0x41 ≤ byte && byte ≤ 0x5a

def isAsciiLowercase (byte : UInt8) : Bool := 0x61 ≤ byte && byte ≤ 0x7a

def isAsciiDigit (byte : UInt8) : Bool := 0x30 ≤ byte && byte ≤ 0x39

/-- The uppercase of a letter, and any other byte as it is. -/
def toAsciiUppercase (byte : UInt8) : UInt8 :=
  if isAsciiLowercase byte then byte - 0x20 else byte

/-- A blank that separates tokens: a space, a tab, a line feed, a form feed, a carriage
return. -/
def isAsciiWhitespace (byte : UInt8) : Bool :=
  byte == 0x20 || byte == 0x09 || byte == 0x0a || byte == 0x0c || byte == 0x0d

/-- A blank that a trim of a free field drops. -/
def isBlank (byte : UInt8) : Bool := byte == 0x20 || (0x09 ≤ byte && byte ≤ 0x0d)

/-! ## Trims -/

/-- Text without its trailing spaces. -/
def trimEndSpaces (text : Text) : Text := text.rdropWhile (· == space)

/-- Text without its leading and trailing blanks. -/
def trim (text : Text) : Text := (text.dropWhile isBlank).rdropWhile isBlank

/-- The tokens of text between blanks. -/
def splitAsciiWhitespace (text : Text) : List Text :=
  (text.splitOnP isAsciiWhitespace).filter (fun token => !token.isEmpty)

/-- Text padded with spaces to `width` bytes. -/
def padTo (width : ℕ) (text : Text) : Text :=
  text ++ List.replicate (width - text.length) space

end FitsWell
