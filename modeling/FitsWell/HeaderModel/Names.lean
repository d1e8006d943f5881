import FitsWell.HeaderModel.Text

/-!
# The names of header records

A record is named by a keyword, by the tokens of a hierarchical name, or by the eight
bytes a record of commentary starts with.
-/

namespace FitsWell

/-- The bytes a name may hold. -/
inductive NameRule
  | keyword
  | commentary
  deriving DecidableEq, Repr

/-- Whether a name of the rule may hold `byte`. -/
def NameRule.allowed (rule : NameRule) (byte : UInt8) : Bool :=
  match rule with
  | .keyword =>
    isAsciiUppercase byte || isAsciiDigit byte || byte == 0x2d || byte == 0x5f
  | .commentary => isPrintable byte

/-- Whether a name of the rule may start and end so. -/
def NameRule.edges (rule : NameRule) (name : Text) : Bool :=
  match rule with
  | .keyword => !name.isEmpty
  | .commentary => name.getLast? != some space

def NameRule.admits (rule : NameRule) (name : Text) : Bool :=
  decide (name.length ≤ 8) && rule.edges name && name.all rule.allowed

/-- A keyword: one to eight letters, digits, hyphens and underscores. -/
structure Keyword where
  name : Text
  admitted : NameRule.keyword.admits name = true
  deriving DecidableEq, Repr

/-- The keyword `name`, where it is one. -/
def Keyword.checked (name : Text) : Option Keyword :=
  if admitted : NameRule.keyword.admits name = true then some ⟨name, admitted⟩ else none

/-- The name of a record with no value: up to eight printable bytes, the last no space. -/
structure CommentaryName where
  name : Text
  admitted : NameRule.commentary.admits name = true
  deriving DecidableEq, Repr

/-- The commentary name `name`, where it is one. -/
def CommentaryName.checked (name : Text) : Option CommentaryName :=
  if admitted : NameRule.commentary.admits name = true then some ⟨name, admitted⟩ else none

/-- The tokens a hierarchical name holds. -/
def isHierarchToken (token : Text) : Bool :=
  !token.isEmpty && token.all fun byte => isAsciiGraphic byte && byte != equals

/-- The name of a `HIERARCH` record: its tokens. -/
structure HierarchName where
  tokens : List Text
  admitted : tokens ≠ [] ∧ tokens.all isHierarchToken = true
  deriving DecidableEq, Repr

/-- A hierarchical name as a record spells it: its tokens joined by one space. -/
def HierarchName.asStr (name : HierarchName) : Text := [space].intercalate name.tokens

/-- The hierarchical name that `text` spells. -/
def HierarchName.fromStr (text : Text) : Option HierarchName :=
  if admitted : splitAsciiWhitespace text ≠ [] ∧
      (splitAsciiWhitespace text).all isHierarchToken = true then
    some ⟨splitAsciiWhitespace text, admitted⟩
  else
    none

/-- What names a header record. -/
inductive RecordName
  | keyword (keyword : Keyword)
  | hierarch (name : HierarchName)
  | commentary (name : CommentaryName)
  deriving DecidableEq, Repr

/-! ## Keywords -/

namespace Keyword

def END : Keyword := ⟨ascii "END", by decide⟩
def CONTINUE : Keyword := ⟨ascii "CONTINUE", by decide⟩
def COMMENT : Keyword := ⟨ascii "COMMENT", by decide⟩
def HISTORY : Keyword := ⟨ascii "HISTORY", by decide⟩
def DATASUM : Keyword := ⟨ascii "DATASUM", by decide⟩
def CHECKSUM : Keyword := ⟨ascii "CHECKSUM", by decide⟩
def SIMPLE : Keyword := ⟨ascii "SIMPLE", by decide⟩
def XTENSION : Keyword := ⟨ascii "XTENSION", by decide⟩
def BITPIX : Keyword := ⟨ascii "BITPIX", by decide⟩
def NAXIS : Keyword := ⟨ascii "NAXIS", by decide⟩
def PCOUNT : Keyword := ⟨ascii "PCOUNT", by decide⟩
def GCOUNT : Keyword := ⟨ascii "GCOUNT", by decide⟩
def GROUPS : Keyword := ⟨ascii "GROUPS", by decide⟩
def ZIMAGE : Keyword := ⟨ascii "ZIMAGE", by decide⟩
def ZTABLE : Keyword := ⟨ascii "ZTABLE", by decide⟩
def THEAP : Keyword := ⟨ascii "THEAP", by decide⟩
def TFIELDS : Keyword := ⟨ascii "TFIELDS", by decide⟩
def TFORM : Keyword := ⟨ascii "TFORM", by decide⟩
def TDIM : Keyword := ⟨ascii "TDIM", by decide⟩
def TSCAL : Keyword := ⟨ascii "TSCAL", by decide⟩
def TZERO : Keyword := ⟨ascii "TZERO", by decide⟩
def TNULL : Keyword := ⟨ascii "TNULL", by decide⟩
def TTYPE : Keyword := ⟨ascii "TTYPE", by decide⟩
def EXTEND : Keyword := ⟨ascii "EXTEND", by decide⟩
def BSCALE : Keyword := ⟨ascii "BSCALE", by decide⟩
def BZERO : Keyword := ⟨ascii "BZERO", by decide⟩
def BLANK : Keyword := ⟨ascii "BLANK", by decide⟩
def ZCMPTYPE : Keyword := ⟨ascii "ZCMPTYPE", by decide⟩
def ZBITPIX : Keyword := ⟨ascii "ZBITPIX", by decide⟩
def ZNAXIS : Keyword := ⟨ascii "ZNAXIS", by decide⟩
def ZTILE : Keyword := ⟨ascii "ZTILE", by decide⟩
def ZNAME : Keyword := ⟨ascii "ZNAME", by decide⟩
def ZVAL : Keyword := ⟨ascii "ZVAL", by decide⟩
def ZQUANTIZ : Keyword := ⟨ascii "ZQUANTIZ", by decide⟩
def ZDITHER0 : Keyword := ⟨ascii "ZDITHER0", by decide⟩
def ZBLANK : Keyword := ⟨ascii "ZBLANK", by decide⟩
def EXTNAME : Keyword := ⟨ascii "EXTNAME", by decide⟩
def EXTVER : Keyword := ⟨ascii "EXTVER", by decide⟩
def EXTLEVEL : Keyword := ⟨ascii "EXTLEVEL", by decide⟩
def BLOCKED : Keyword := ⟨ascii "BLOCKED", by decide⟩
def TUNIT : Keyword := ⟨ascii "TUNIT", by decide⟩
def TBCOL : Keyword := ⟨ascii "TBCOL", by decide⟩
def ZMASKCMP : Keyword := ⟨ascii "ZMASKCMP", by decide⟩
def ZSIMPLE : Keyword := ⟨ascii "ZSIMPLE", by decide⟩
def ZTENSION : Keyword := ⟨ascii "ZTENSION", by decide⟩
def ZEXTEND : Keyword := ⟨ascii "ZEXTEND", by decide⟩
def ZBLOCKED : Keyword := ⟨ascii "ZBLOCKED", by decide⟩
def ZGCOUNT : Keyword := ⟨ascii "ZGCOUNT", by decide⟩
def ZHEAPPTR : Keyword := ⟨ascii "ZHEAPPTR", by decide⟩
def ZTILELEN : Keyword := ⟨ascii "ZTILELEN", by decide⟩
def ZNAXIS1 : Keyword := ⟨ascii "ZNAXIS1", by decide⟩
def ZNAXIS2 : Keyword := ⟨ascii "ZNAXIS2", by decide⟩
def ZPCOUNT : Keyword := ⟨ascii "ZPCOUNT", by decide⟩
def ZFORM : Keyword := ⟨ascii "ZFORM", by decide⟩
def ZCTYP : Keyword := ⟨ascii "ZCTYP", by decide⟩
def ZTHEAP : Keyword := ⟨ascii "ZTHEAP", by decide⟩
def ZHECKSUM : Keyword := ⟨ascii "ZHECKSUM", by decide⟩
def ZDATASUM : Keyword := ⟨ascii "ZDATASUM", by decide⟩

end Keyword

namespace CommentaryName

def COMMENT : CommentaryName := ⟨ascii "COMMENT", by decide⟩
def HISTORY : CommentaryName := ⟨ascii "HISTORY", by decide⟩
def BLANK : CommentaryName := ⟨[], by decide⟩
def CONTINUE : CommentaryName := ⟨ascii "CONTINUE", by decide⟩

end CommentaryName

end FitsWell
