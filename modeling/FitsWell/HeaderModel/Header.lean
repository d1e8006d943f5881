import FitsWell.Checksum.Sum
import FitsWell.HeaderModel.CardRender
import FitsWell.Library.FirstIndex

/-!
# Headers

A header is its records in order, with an index of each name's first record. It renders to
whole blocks, and where it is signed it carries the sum of its data and the complement that
brings the whole to all ones.
-/

namespace FitsWell

/-- What a repair of a record changed. -/
inductive RepairKind
  | lowercaseName
  | valueIndicator
  | nonAsciiText
  | endText
  deriving DecidableEq, Repr

/-- A repair a parse made, of the record at a place counted from one. -/
structure Repair where
  record : ℕ
  kind : RepairKind
  deriving DecidableEq, Repr

/-- A hierarchical name as names compare: without regard to case. -/
def HierarchName.key (name : HierarchName) : Text := name.asStr.map toAsciiUppercase

variable {R : Type}

/-- The key the index of hierarchical names finds a record by. -/
def Record.hierarchKey (record : Record R) : Option Text := record.hierarchName.map HierarchName.key

/-- Records in order, and the first record of each keyword and of each hierarchical name. -/
structure Header (R : Type) where
  records : List (Record R)
  index : PlaceIndex Keyword
  hierarchIndex : PlaceIndex Text
  repairs : List Repair
  indexed : index.IsIndexOf Record.keyword records
  hierarchIndexed : hierarchIndex.IsIndexOf Record.hierarchKey records

/-- A header of records. -/
def Header.ofRecords (records : List (Record R)) : Header R where
  records := records
  index := PlaceIndex.firstPlace Record.keyword records
  hierarchIndex := PlaceIndex.firstPlace Record.hierarchKey records
  repairs := []
  indexed _ := rfl
  hierarchIndexed _ := rfl

/-! ## Rendering -/

/-- How a rendered header carries its checksums. -/
inductive Signing
  | unsigned
  | placeholder
  | withDataSum (sum : UInt32)
  deriving DecidableEq, Repr

/-- The blank records a rendered header holds before its end. -/
inductive Space
  | spare (records : ℕ)
  | blocks (blocks : ℕ)
  deriving DecidableEq, Repr

/-- The text that a signed render gives `keyword`. -/
def Signing.text (signing : Signing) (keyword : Keyword) : Text :=
  if keyword = Keyword.DATASUM then
    match signing with
    | .withDataSum sum => Decimal.numeral sum.toNat
    | _ => ascii "0"
  else
    Checksum.placeholder

/-- A record that a signed render writes. -/
def Signing.record (signing : Signing) (keyword : Keyword) (comment : Option Text) : Record R :=
  .valued keyword (.text (signing.text keyword)) comment

/-- The bytes rendered so far, and the offset of the `CHECKSUM` record in them. -/
structure Rendered where
  checksumAt : Option ℕ
  out : Text
  deriving DecidableEq, Repr

variable [RealText R]

/-- Render a record after those before it. -/
def Rendered.push (rendered : Rendered) (record : Record R) : Outcome Rendered := do
  let bytes ← renderRecord record
  .ok { rendered with out := rendered.out ++ bytes }

/-- Render a record that a signed render writes. -/
def Rendered.pushSigned (R : Type) [RealText R] (signing : Signing) (rendered : Rendered)
    (keyword : Keyword) (comment : Option Text) : Outcome Rendered :=
  let checksumAt :=
    if keyword = Keyword.CHECKSUM then some rendered.out.length else rendered.checksumAt
  { rendered with checksumAt := checksumAt }.push (signing.record (R := R) keyword comment)

namespace Header

/-- Whether a signed render writes the record of `keyword` at place `i` anew. -/
def signs (header : Header R) (signing : Signing) (keyword : Keyword) (i : ℕ) : Bool :=
  (keyword == Keyword.DATASUM || keyword == Keyword.CHECKSUM) && signing != .unsigned &&
    (header.index Keyword.DATASUM == some i || header.index Keyword.CHECKSUM == some i)

/-- Render one of the header's records, with its place. -/
def renderStep (header : Header R) (signing : Signing) (rendered : Rendered)
    (item : Record R × ℕ) : Outcome Rendered :=
  match item.1.keyword with
  | some keyword =>
    if header.signs signing keyword item.2 then
      rendered.pushSigned R signing keyword item.1.comment
    else
      rendered.push item.1
  | none => rendered.push item.1

/-- Render a signed record that the header does not hold. -/
def renderMissing (header : Header R) (signing : Signing) (rendered : Rendered)
    (keyword : Keyword) : Outcome Rendered :=
  if header.index keyword = none then rendered.pushSigned R signing keyword none else .ok rendered

/-- The records rendered, with the offset of the `CHECKSUM` record where they are signed. -/
def renderRecords (header : Header R) (signing : Signing) : Outcome Rendered := do
  let rendered ← header.records.zipIdx.foldlM (header.renderStep signing) ⟨none, []⟩
  if signing = .unsigned then
    .ok rendered
  else
    [Keyword.DATASUM, Keyword.CHECKSUM].foldlM (header.renderMissing signing) rendered

/-- The blank records before the end of a header of `records` records. -/
def spareRecords (space : Space) (records : ℕ) : Outcome ℕ :=
  match space with
  | .spare spare => .ok spare
  | .blocks blocks => do
    let needed ← divCeil (records + 1) recordsPerBlock
    if needed > blocks then
      fail (.headerDoesNotFit needed blocks)
    else do
      let room ← mulUsize blocks recordsPerBlock
      subUsize room (records + 1)

/-- Fill bytes with spaces to a whole number of blocks. -/
def fillBlock (bytes : Text) : Text :=
  bytes ++ List.replicate ((blockSize - bytes.length % blockSize) % blockSize) space

/-- Reserve room for the bytes of a header of `len` bytes. -/
def reserveBlocks (len : ℕ) : Outcome Unit := do
  let blocks ← divCeil len blockSize
  let bytes ← mulUsize blocks blockSize
  if bytes ≤ isizeMax then .ok () else abort .capacityOverflow

/-- Write the complement of the sum of the unit into the `CHECKSUM` record. -/
def writeChecksum (signing : Signing) (checksumAt : Option ℕ) (out : Text) : Outcome Text :=
  match signing, checksumAt with
  | .withDataSum dataSum, some start => do
    let sum ← Checksum.accumulate out 0
    let value ← Checksum.encode (Checksum.combine sum dataSum.toNat)
    copySlice out (start + 11) value 0 16
  | _, _ => .ok out

/-- Rendered records, blank records to fill `space`, the `END` record, and blanks to the end
of its block. -/
def layOut (space : Space) (out : Text) : Outcome Text := do
  let records := out.length / cardSize
  let spare ← spareRecords space records
  let len ← orOverflow (checkedAdd records spare >>= (checkedAdd · 1) >>= (checkedMul · cardSize))
  reserveBlocks len
  .ok (fillBlock (out ++ List.replicate (spare * cardSize) FitsWell.space ++
    padTo cardSize (ascii "END")))

/-- The header unit. -/
def renderInto (header : Header R) (signing : Signing) (space : Space) : Outcome Text := do
  let rendered ← header.renderRecords signing
  let out ← layOut space rendered.out
  writeChecksum signing rendered.checksumAt out

/-- The records a render of the header writes before its free records and its end. -/
def renderedRecords (header : Header R) : Outcome ℕ := do
  let rendered ← header.renderRecords .unsigned
  .ok (rendered.out.length / cardSize)

end Header

end FitsWell
