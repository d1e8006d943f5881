import FitsWell.HeaderModel.Record

/-!
# Rendering a record

A record renders to 80 bytes, and a text value too long for them to a chain of `CONTINUE`
records.
-/

namespace FitsWell

variable {R : Type} [RealText R]

/-! ## A record under construction -/

/-- What a record holds before its value: its name. -/
abbrev Lead := RecordName

/-- Where the value starts in the first record. -/
def Lead.valueStart : Lead → ℕ
  | .keyword _ | .commentary _ => 10
  | .hierarch name => 9 + name.asStr.length + 3

/-- An 80-byte record under construction. An error names its lead. -/
structure RecordBuf where
  bytes : Text
  lead : Lead
  deriving DecidableEq, Repr

namespace RecordBuf

/-- A record with `field` in its name field. -/
def named (field : Text) (lead : Lead) : RecordBuf where
  bytes := padTo cardSize field
  lead := lead

/-- A record whose name field holds the name of `lead`. -/
def new (lead : Lead) : RecordBuf :=
  match lead with
  | .keyword keyword => named keyword.name lead
  | .commentary name => named name.name lead
  | .hierarch _ => named (ascii "HIERARCH") lead

/-- A `CONTINUE` record of the long string of `lead`. -/
def continuation (lead : Lead) : RecordBuf := named CommentaryName.CONTINUE.name lead

def tooLong (buf : RecordBuf) (length : ℕ) : FitsError := .headerCardTooLong buf.lead length

/-- Put the value indicator in byte 9. -/
def setIndicator (buf : RecordBuf) : RecordBuf := { buf with bytes := buf.bytes.set 8 equals }

/-- Write `text` from byte `pos`, with where it ends. -/
def writeStrAt (buf : RecordBuf) (pos : ℕ) (text : Text) : Outcome (RecordBuf × ℕ) :=
  if pos + text.length > cardSize then
    fail (buf.tooLong (pos + text.length))
  else
    .ok ({ buf with bytes := buf.bytes.take pos ++ text ++ buf.bytes.drop (pos + text.length) },
      pos + text.length)

/-- Write a value from byte `pos`, with where it ends. -/
def writeValueAt (buf : RecordBuf) (pos : ℕ) (value : Value R) : Outcome (RecordBuf × ℕ) :=
  buf.writeStrAt pos (writeValue value)

/-- Write a comment after its separator, from byte `pos`. -/
def writeComment (buf : RecordBuf) (pos : ℕ) (comment : Option Text) : Outcome RecordBuf :=
  match comment with
  | none => .ok buf
  | some comment => do
    let separated ← buf.writeStrAt pos (ascii " / ")
    let commented ← separated.1.writeStrAt separated.2 comment
    .ok commented.1

end RecordBuf

/-! ## One record -/

/-- Where a value starts: text after the indicator, another value so that it ends at column
30 or later. -/
def valueColumn (value : Value R) : ℕ :=
  match value with
  | .text _ | .undefined => 10
  | _ => max (10 + renderedLen value) 30 - renderedLen value

/-- The length of a comment with its separator. -/
def commentLen (comment : Option Text) : ℕ :=
  match comment with
  | none => 0
  | some comment => 3 + comment.length

/-- One `HIERARCH name = value` record. The blank before the `=` goes only when the record
needs that byte. -/
def renderHierarch (name : HierarchName) (value : Value R) (comment : Option Text) :
    Outcome Text := do
  let spaced := Lead.valueStart (.hierarch name)
  let indicator :=
    if spaced + renderedLen value + commentLen comment ≤ cardSize then ascii " = " else ascii "= "
  let named ← (RecordBuf.new (.hierarch name)).writeStrAt 9 name.asStr
  let marked ← named.1.writeStrAt named.2 indicator
  let valued ← marked.1.writeValueAt marked.2 value
  let record ← valued.1.writeComment valued.2 comment
  .ok record.bytes

/-- One record in fixed format. -/
def renderOne (record : Record R) : Outcome Text :=
  match record with
  | .hierarch name value comment => renderHierarch name value comment
  | .malformed _ _ _ => abort .unreachable
  | .commentary name none => .ok (RecordBuf.new (.commentary name)).bytes
  | .commentary name (some text) => do
    let record ← (RecordBuf.new (.commentary name)).writeStrAt 8 text
    .ok record.1.bytes
  | .valued keyword value comment => do
    let valued ← (RecordBuf.new (.keyword keyword)).setIndicator.writeValueAt
      (valueColumn value) value
    let record ← valued.1.writeComment valued.2 comment
    .ok record.bytes

/-! ## Long strings -/

/-- A text value that takes a chain of `CONTINUE` records. -/
structure LongString where
  lead : Lead
  text : Text
  comment : Option Text
  deriving DecidableEq, Repr

namespace LongString

/-- The characters of a `CONTINUE` record between its quotes, one of them the `&`. -/
def perRecord : ℕ := 67

/-- The characters the first record holds: its bytes after the lead, less the two quotes
and the `&`. -/
def firstWidth (chain : LongString) : ℕ := cardSize - (chain.lead.valueStart + 3)

/-- The substrings of `rest`, after `piece` of `width` characters. A byte that does not fit
opens the next substring. -/
def piecesFrom (limit width : ℕ) (piece : Text) : Text → List Text
  | [] => [piece]
  | byte :: rest =>
    let byteWidth := if byte = quote then 2 else 1
    if width + byteWidth > limit then
      piece :: piecesFrom perRecord byteWidth [byte] rest
    else
      piecesFrom limit (width + byteWidth) (piece ++ [byte]) rest

/-- The substrings of the text, each at most its record's width once its quotes are
doubled. -/
def pieces (chain : LongString) : List Text := piecesFrom chain.firstWidth 0 [] chain.text

/-- Whether the comment needs a record of its own. -/
def commentNeedsOwnRecord (chain : LongString) : Outcome Bool :=
  if chain.firstWidth = 0 then
    fail (.headerCardTooLong chain.lead (chain.lead.valueStart + 3))
  else
    match chain.comment with
    | none => .ok false
    | some comment =>
      let start := if chain.pieces.length = 1 then chain.lead.valueStart else 10
      let last := chain.pieces.getLastD []
      if start + 2 + escapedLen last + 3 + comment.length ≤ cardSize then
        .ok false
      else
        let alone := 10 + 2 + 3 + comment.length
        if alone > cardSize then fail (.headerCardTooLong chain.lead alone) else .ok true

def validate (chain : LongString) : Outcome Unit := do
  let _ ← chain.commentNeedsOwnRecord
  .ok ()

/-- A record of the chain before its substring, with where that starts. -/
def start (chain : LongString) (first : Bool) : Outcome (RecordBuf × ℕ) :=
  if first then
    match chain.lead with
    | .keyword _ | .commentary _ => .ok ((RecordBuf.new chain.lead).setIndicator, 10)
    | .hierarch name => do
      let named ← (RecordBuf.new chain.lead).writeStrAt 9 name.asStr
      named.1.writeStrAt named.2 (ascii " = ")
  else
    .ok (RecordBuf.continuation chain.lead, 10)

/-- Write a quoted substring, which fits its record. -/
def writeEscaped (buf : RecordBuf) (pos : ℕ) (piece close : Text) : Outcome (RecordBuf × ℕ) :=
  match buf.writeStrAt pos ([quote] ++ escaped piece ++ close) with
  | .ok written => .ok written
  | .error _ => abort .expectation

/-- One record of the chain. The last carries the comment, and no `&`. -/
def renderPiece (chain : LongString) (first last : Bool) (piece : Text) : Outcome Text := do
  let record ← chain.start first
  let written ← writeEscaped record.1 record.2 piece
    (if last then [quote] else [ampersand, quote])
  let record ← written.1.writeComment written.2 (if last then chain.comment else none)
  .ok record.bytes

/-- The records of the substrings. -/
def renderPieces (chain : LongString) (first : Bool) : List Text → Outcome Text
  | [] => .ok []
  | piece :: rest => do
    let record ← chain.renderPiece first rest.isEmpty piece
    let records ← chain.renderPieces false rest
    .ok (record ++ records)

/-- The records of the chain. -/
def render (chain : LongString) : Outcome Text := do
  let ownRecord ← chain.commentNeedsOwnRecord
  chain.renderPieces true (chain.pieces ++ if ownRecord then [[]] else [])

end LongString

/-- The long text value that cannot fit one record. -/
def chainOf (lead : Lead) (tightest : ℕ) (value : Value R) (comment : Option Text) :
    Option LongString :=
  match value with
  | .text text =>
    if tightest + (2 + escapedLen text) + commentLen comment > cardSize then
      some { lead := lead, text := text, comment := comment }
    else
      none
  | _ => none

/-- The chain that a record needs. A hierarchical record first drops its blank before the
`=`. -/
def continuationChain (record : Record R) : Option LongString :=
  match record with
  | .valued keyword value comment =>
    chainOf (.keyword keyword) (Lead.valueStart (.keyword keyword)) value comment
  | .hierarch name value comment =>
    chainOf (.hierarch name) (Lead.valueStart (.hierarch name) - 1) value comment
  | _ => none

/-- The records that `record` renders to. -/
def renderRecord (record : Record R) : Outcome Text := do
  validateContents record
  match continuationChain record with
  | some chain => chain.render
  | none => renderOne record

/-- A record that passes its content checks is its chain's cards, or its own. -/
theorem renderRecord_eq (record : Record R) :
    renderRecord record =
      (validateContents record >>= fun _ =>
        (continuationChain record).elim (renderOne record) LongString.render) := by
  rw [renderRecord]
  cases continuationChain record with
  | none => rfl
  | some chain => rfl

end FitsWell
