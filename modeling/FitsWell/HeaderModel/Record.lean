import FitsWell.HeaderModel.Value

/-!
# Header records

A record carries a value, or free text, or the bytes of a record that did not parse.
-/

namespace FitsWell

/-- The bytes of a record. -/
def cardSize : ℕ := 80

/-- The bytes of a block. -/
def blockSize : ℕ := 2880

/-- The records of a header block. -/
def recordsPerBlock : ℕ := 36

/-- A header record, of reals `R`. -/
inductive Record (R : Type)
  | valued (keyword : Keyword) (value : Value R) (comment : Option Text)
  | commentary (name : CommentaryName) (text : Option Text)
  | hierarch (name : HierarchName) (value : Value R) (comment : Option Text)
  | malformed (name : Option RecordName) (raw : Text) (defect : Defect)
  deriving DecidableEq

variable {R : Type}

namespace Record

/-- The keyword the keyword index finds a record by. -/
def keyword : Record R → Option Keyword
  | .valued keyword _ _ => some keyword
  | .malformed (some (.keyword keyword)) _ _ => some keyword
  | _ => none

/-- The name the index of hierarchical names finds a record by. -/
def hierarchName : Record R → Option HierarchName
  | .hierarch name _ _ => some name
  | .malformed (some (.hierarch name)) _ _ => some name
  | _ => none

/-- The inline comment of a record with a value. -/
def comment : Record R → Option Text
  | .valued _ _ comment => comment
  | .hierarch _ _ comment => comment
  | _ => none

/-- A record's name. -/
def name : Record R → Option RecordName
  | .valued keyword _ _ => some (.keyword keyword)
  | .commentary name _ => some (.commentary name)
  | .hierarch name _ _ => some (.hierarch name)
  | .malformed name _ _ => name

end Record

/-! ## Checks -/

/-- Refuse a control or commentary keyword, which no record with a value carries. -/
def validateValuedKeyword (keyword : Keyword) : Outcome Unit :=
  if keyword ∈ [Keyword.END, Keyword.CONTINUE, Keyword.COMMENT, Keyword.HISTORY] then
    fail (.reservedName (.keyword keyword))
  else
    .ok ()

/-- Refuse text with a byte outside restricted ASCII. -/
def validateAscii (text : Text) (origin : TextOrigin) : Outcome Unit :=
  if text.all isPrintable then .ok () else fail (.invalidAscii origin)

/-- Refuse a comment with a byte outside restricted ASCII. -/
def validateComment (name : RecordName) (comment : Option Text) : Outcome Unit :=
  match comment with
  | none => .ok ()
  | some comment => validateAscii comment (.comment name)

/-- Refuse a value that no record spells. -/
def validateValue [RealText R] (name : RecordName) (value : Value R) : Outcome Unit :=
  match value with
  | .text text => validateAscii text (.value name)
  | .real real =>
    if RealText.isFinite real then .ok () else fail (.invalidHeaderValue name .real)
  | .complexReal re im =>
    if RealText.isFinite re && RealText.isFinite im then .ok ()
    else fail (.invalidHeaderValue name .complex)
  | _ => .ok ()

/-- Refuse a record whose contents no record spells. -/
def validateContents [RealText R] (record : Record R) : Outcome Unit :=
  match record with
  | .malformed name _ defect => fail (.invalidValue name defect)
  | .commentary name text => validateComment (.commentary name) text
  | .valued keyword value comment => do
    validateValuedKeyword keyword
    validateComment (.keyword keyword) comment
    validateValue (.keyword keyword) value
  | .hierarch name value comment => do
    validateComment (.hierarch name) comment
    validateValue (.hierarch name) value

end FitsWell
