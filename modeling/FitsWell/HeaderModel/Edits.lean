import FitsWell.HeaderModel.CardParse

/-!
# Edits of a header

A lookup finds the first record of a name by the header's index, and an edit keeps the index
beside the records it changes.
-/

namespace FitsWell

open PlaceIndex

variable {R : Type}

/-! ## Names -/

/-- The record name that `text` spells. -/
def RecordName.fromStr (text : Text) : Outcome RecordName :=
  match (if (ascii "HIERARCH ").isPrefixOf text then
      (HierarchName.fromStr (text.drop 9)).map .hierarch
    else (Keyword.checked text).map .keyword) with
  | some name => .ok name
  | none => fail (.invalidKeyword text)

/-- What names a record to a lookup or an edit: a name, or text that spells one. -/
inductive Named
  | name (name : RecordName)
  | text (text : Text)
  deriving DecidableEq, Repr

def Named.resolve : Named → Outcome RecordName
  | .name found => .ok found
  | .text spelled => RecordName.fromStr spelled

/-- What names a record of commentary. -/
inductive CommentaryNamed
  | name (name : CommentaryName)
  | text (text : Text)
  deriving DecidableEq, Repr

def CommentaryNamed.resolve : CommentaryNamed → Outcome CommentaryName
  | .name found => .ok found
  | .text spelled =>
    match CommentaryName.checked spelled with
    | some found => .ok found
    | none => fail (.invalidKeyword spelled)

/-- Refuse a name that no record with a value carries. -/
def RecordName.validateValued : RecordName → Outcome Unit
  | .keyword valued => validateValuedKeyword valued
  | .hierarch _ => .ok ()
  | .commentary reserved => fail (.reservedName (.commentary reserved))

/-! ## Records -/

namespace Record

/-- The name of a record of commentary, or of a malformed one so named. -/
def commentaryName : Record R → Option CommentaryName
  | .commentary name _ => some name
  | .malformed (some (.commentary name)) _ _ => some name
  | _ => none

/-- Whether a name names a record: a keyword names commentary of its text too. -/
def isNamed (record : Record R) (name : RecordName) : Bool :=
  match name with
  | .keyword keyword =>
    record.keyword == some keyword || (record.commentaryName.map (·.name)) == some keyword.name
  | .hierarch wanted => record.hierarchKey == some wanted.key
  | .commentary wanted => record.commentaryName == some wanted

/-- The value of a record that has one. -/
def valueOrDefect : Record R → Outcome (Value R)
  | .valued _ value _ | .hierarch _ value _ => .ok value
  | .malformed name _ defect => fail (.invalidValue name defect)
  | .commentary _ _ => abort .unreachable

/-- A record of a name and a value, with no comment. -/
def ofName (name : RecordName) (value : Value R) : Outcome (Record R) := do
  name.validateValued
  match name with
  | .keyword keyword => .ok (.valued keyword value none)
  | .hierarch name => .ok (.hierarch name value none)
  | .commentary _ => abort .unreachable

/-- A record of commentary, its trailing spaces stripped. -/
def ofCommentary (name : CommentaryName) (text : Text) : Record R :=
  .commentary name (freeText text)

/-- A record with another comment. -/
def withComment (record : Record R) (text : Text) : Outcome (Record R) :=
  match record with
  | .valued keyword value _ => .ok (.valued keyword value (some text))
  | .hierarch name value _ => .ok (.hierarch name value (some text))
  | .malformed name _ defect => fail (.invalidValue name defect)
  | .commentary _ _ => abort .unreachable

/-- A record with another value: a malformed one gives way to a record of its name. -/
def withValue (record : Record R) (value : Value R) : Outcome (Record R) :=
  match record with
  | .valued keyword _ comment => .ok (.valued keyword value comment)
  | .hierarch name _ comment => .ok (.hierarch name value comment)
  | .malformed (some (.keyword keyword)) _ _ => .ok (.valued keyword value none)
  | .malformed (some (.hierarch name)) _ _ => .ok (.hierarch name value none)
  | .commentary _ _ | .malformed _ _ _ => abort .unreachable

theorem keys_withComment {record changed : Record R} {text : Text}
    (h : record.withComment text = .ok changed) :
    changed.keyword = record.keyword ∧ changed.hierarchKey = record.hierarchKey := by
  cases record with
  | valued => rw [← Except.ok.inj h]; exact ⟨rfl, rfl⟩
  | hierarch => rw [← Except.ok.inj h]; exact ⟨rfl, rfl⟩
  | malformed => cases h
  | commentary => cases h

theorem keys_withValue {record changed : Record R} {value : Value R}
    (h : record.withValue value = .ok changed) :
    changed.keyword = record.keyword ∧ changed.hierarchKey = record.hierarchKey := by
  unfold withValue at h
  split at h
  · rw [← Except.ok.inj h]; exact ⟨rfl, rfl⟩
  · rw [← Except.ok.inj h]; exact ⟨rfl, rfl⟩
  · rw [← Except.ok.inj h]; exact ⟨rfl, rfl⟩
  · rw [← Except.ok.inj h]; exact ⟨rfl, rfl⟩
  · cases h
  · cases h

variable [RealText R]

/-- Whether a record parsed to commentary of `name` and `text`. -/
def readsAs (parsed : ParsedRecord R) (name : CommentaryName) (text : Option Text) : Bool :=
  match parsed with
  | .record (.commentary own ownText) => own == name && ownText == text
  | _ => false

/-- Refuse a record that does not render, and commentary that reads back as another
record. -/
def validate (record : Record R) : Outcome Unit := do
  validateContents record
  match continuationChain record with
  | some chain => chain.validate
  | none => do
    let raw ← renderOne record
    match record with
    | .commentary name text => do
      let parsed ← (ParsedRecord.parse raw : Outcome (Parsed R))
      if readsAs parsed.2 name text then .ok () else fail (.ambiguousCommentary name)
    | _ => .ok ()

/-- Refuse a record that an insertion does not take. A malformed one goes in as it is. -/
def validateInserted (record : Record R) : Outcome Unit :=
  match record with
  | .valued keyword _ _ => do
    validateValuedKeyword keyword
    record.validate
  | .malformed _ _ _ => .ok ()
  | .commentary _ _ | .hierarch _ _ _ => record.validate

end Record

namespace Header

/-! ## Records in place -/

/-- A header of no records. -/
def new : Header R := ⟨[], .empty, .empty, [], isIndexOf_nil, isIndexOf_nil⟩

/-- A header of records, its indexes built anew. -/
def reindexed (records : List (Record R)) (repairs : List Repair) : Header R where
  records := records
  index := rebuild Record.keyword records
  hierarchIndex := rebuild Record.hierarchKey records
  repairs := repairs
  indexed := isIndexOf_rebuild records
  hierarchIndexed := isIndexOf_rebuild records

/-- The header with a record of the same keys at `i`. -/
def setAt (header : Header R) (i : ℕ) (record : Record R)
    (hkeys : ∀ old, header.records[i]? = some old →
      record.keyword = old.keyword ∧ record.hierarchKey = old.hierarchKey) : Header R where
  records := header.records.set i record
  index := header.index
  hierarchIndex := header.hierarchIndex
  repairs := header.repairs
  indexed := header.indexed.congr (map_set_eq fun old hold => (hkeys old hold).1)
  hierarchIndexed := header.hierarchIndexed.congr (map_set_eq fun old hold => (hkeys old hold).2)

/-- Insert a record at `i`. -/
def insertAt (header : Header R) (i : ℕ) (record : Record R) : Outcome (Header R) :=
  if hi : i ≤ header.records.length then
    .ok {
      records := header.records.take i ++ record :: header.records.drop i
      index := header.index.insertAt i record.keyword
      hierarchIndex := header.hierarchIndex.insertAt i record.hierarchKey
      repairs := header.repairs
      indexed := insertAt_isIndexOf hi header.indexed
      hierarchIndexed := insertAt_isIndexOf hi header.hierarchIndexed }
  else
    abort .indexOutOfBounds

/-- Append a record. -/
def pushRecord (header : Header R) (record : Record R) : Outcome (Header R) :=
  header.insertAt header.records.length record

/-- Remove the record at `i`. -/
def takeAt (header : Header R) (i : ℕ) : Outcome (Record R × Header R) :=
  match hrecord : header.records[i]? with
  | none => abort .indexOutOfBounds
  | some record =>
    .ok (record, {
      records := header.records.take i ++ header.records.drop (i + 1)
      index := header.index.takeAt Record.keyword i record.keyword (header.records.drop (i + 1))
      hierarchIndex := header.hierarchIndex.takeAt Record.hierarchKey i record.hierarchKey
        (header.records.drop (i + 1))
      repairs := header.repairs
      indexed := takeAt_isIndexOf hrecord header.indexed
      hierarchIndexed := takeAt_isIndexOf hrecord header.hierarchIndexed })

/-! ## Lookups -/

/-- The first record of a name with a value, by the indexes. -/
def first? (header : Header R) : RecordName → Option ℕ
  | .keyword keyword => header.index keyword
  | .hierarch name => header.hierarchIndex name.key
  | .commentary _ => none

/-- `self.records[i]`. -/
def recordAt (header : Header R) (i : ℕ) : Outcome (Record R) := load header.records i

/-- The value of the first record of a name. -/
def value (header : Header R) (name : RecordName) : Outcome (Option (Value R)) :=
  match header.first? name with
  | none => .ok none
  | some i => do
    let record ← header.recordAt i
    let value ← record.valueOrDefect
    .ok (some value)

/-- The comment of the first record of a name. -/
def getComment (header : Header R) (name : RecordName) : Outcome (Option Text) :=
  match header.first? name with
  | none => .ok none
  | some i => do
    let record ← header.recordAt i
    let _ ← record.valueOrDefect
    .ok record.comment

/-- The place of the first record of a name, of commentary or with a value. -/
def indexOf (header : Header R) (name : RecordName) : Outcome (Option ℕ) := do
  let stop := match header.first? name with
    | some i => i + 1
    | none => header.records.length
  let records ← subslice header.records 0 stop
  .ok (records.findIdx? (·.isNamed name))

/-! ## Edits -/

section Editing

variable [RealText R]

/-- Give the record at `i` another value. -/
def replaceValue (header : Header R) (i : ℕ) (value : Value R) : Outcome (Header R) :=
  match hrecord : header.records[i]? with
  | none => abort .indexOutOfBounds
  | some record =>
    match hreplacement : record.withValue value with
    | .error fault => .error fault
    | .ok replacement => do
      replacement.validate
      .ok (header.setAt i replacement fun _ hold =>
        Option.some.inj (hrecord.symm.trans hold) ▸ Record.keys_withValue hreplacement)

/-- Set the value of the first record of a name, or append a record. -/
def set (header : Header R) (name : RecordName) (value : Value R) : Outcome (Header R) := do
  name.validateValued
  match header.first? name with
  | some i => header.replaceValue i value
  | none => do
    let record ← Record.ofName name value
    record.validate
    header.pushRecord record

/-- Insert a record; a malformed one goes in as it is. -/
def insertRecord (header : Header R) (i : ℕ) (record : Record R) : Outcome (Header R) :=
  if i > header.records.length then
    fail (.indexOutOfBounds .headerRecord i header.records.length)
  else do
    record.validateInserted
    header.insertAt i record

/-- Insert a record of a name and a value. -/
def insert (header : Header R) (i : ℕ) (name : RecordName) (value : Value R) :
    Outcome (Header R) := do
  let record ← Record.ofName name value
  header.insertRecord i record

/-- Append a record of a name and a value. -/
def append (header : Header R) (name : RecordName) (value : Value R) : Outcome (Header R) :=
  header.insert header.records.length name value

/-- Set the comment of the first record of a name. -/
def setComment (header : Header R) (name : RecordName) (text : Text) : Outcome (Header R) := do
  name.validateValued
  validateAscii text (.comment name)
  match header.first? name with
  | none => fail (.missingKeyword name)
  | some i =>
    match hrecord : header.records[i]? with
    | none => abort .indexOutOfBounds
    | some record =>
      match hcommented : record.withComment text with
      | .error fault => .error fault
      | .ok commented => do
        commented.validate
        .ok (header.setAt i commented fun _ hold =>
          Option.some.inj (hrecord.symm.trans hold) ▸ Record.keys_withComment hcommented)

/-- Append a record of commentary. -/
def pushCommentary (header : Header R) (name : CommentaryName) (text : Text) :
    Outcome (Header R) := do
  let record : Record R := Record.ofCommentary name text
  record.validate
  .ok {
    records := header.records ++ [record]
    index := header.index
    hierarchIndex := header.hierarchIndex
    repairs := header.repairs
    indexed := (isIndexOf_append_iff rfl).mpr header.indexed
    hierarchIndexed := (isIndexOf_append_iff rfl).mpr header.hierarchIndexed }

end Editing

/-- Remove the record at `i`. -/
def removeAt (header : Header R) (i : ℕ) : Outcome (Record R × Header R) :=
  if i ≥ header.records.length then
    fail (.indexOutOfBounds .headerRecord i header.records.length)
  else
    header.takeAt i

/-- Remove the first record of a name. -/
def remove (header : Header R) (name : RecordName) : Outcome (Option (Record R) × Header R) := do
  let found ← header.indexOf name
  match found with
  | none => .ok (none, header)
  | some i => do
    let taken ← header.removeAt i
    .ok (some taken.1, taken.2)

/-- The header of the records that stay, its indexes built anew where any went. -/
def retain (header : Header R) (stays : Record R → Bool) : Header R :=
  if (header.records.filter stays).length = header.records.length then header
  else reindexed (header.records.filter stays) header.repairs

/-- Remove every record of a name, with how many went. -/
def removeAll (header : Header R) (name : RecordName) : ℕ × Header R :=
  let kept := header.retain fun record => !record.isNamed name
  (header.records.length - kept.records.length, kept)

/-- Set a value, or remove every record of the name. -/
def setOptional [RealText R] (header : Header R) (name : RecordName) (value : Option (Value R)) :
    Outcome (Header R) := do
  name.validateValued
  match value with
  | none => .ok (header.removeAll name).2
  | some value => header.set name value

/-- Append the records of a header that no keyword names, and those whose keyword stays. -/
def appendFilteredFrom (header source : Header R) (keep : Keyword → Bool) : Header R :=
  reindexed (header.records ++ source.records.filter fun record => record.keyword.all keep)
    header.repairs

/-- Remove the records whose keyword goes. -/
def removeWhere (header : Header R) (shouldRemove : Keyword → Bool) : Header R :=
  header.retain fun record => !record.keyword.any shouldRemove

/-- A record with a value under its keyword's other name, where it has one. -/
def renamed (renames : List (Keyword × Keyword)) : Record R → Option (Record R)
  | .valued keyword value comment =>
    (renames.find? fun rename => rename.1 == keyword).map fun rename =>
      .valued rename.2 value comment
  | _ => none

/-- Rename the keywords of records with values. -/
def renameKeywords (header : Header R) (renames : List (Keyword × Keyword)) : Header R :=
  if header.records.any fun record => (renamed renames record).isSome then
    reindexed (header.records.map fun record => (renamed renames record).getD record) header.repairs
  else
    header

end Header

/-! ## Runs of edits -/

/-- An edit of a header. -/
inductive Edit (R : Type)
  | set (name : Named) (value : Value R)
  | setOptional (name : Named) (value : Option (Value R))
  | insert (i : ℕ) (name : Named) (value : Value R)
  | append (name : Named) (value : Value R)
  | insertRecord (i : ℕ) (record : Record R)
  | remove (name : Named)
  | removeAt (i : ℕ)
  | removeAll (name : Named)
  | setComment (name : Named) (text : Text)
  | pushCommentary (name : CommentaryNamed) (text : Text)
  | appendFilteredFrom (source : Header R) (keep : Keyword → Bool)
  | removeWhere (shouldRemove : Keyword → Bool)
  | renameKeywords (renames : List (Keyword × Keyword))

variable [RealText R]

/-- The header an edit leaves. -/
def Edit.apply (header : Header R) : Edit R → Outcome (Header R)
  | .set named value => do
    let name ← named.resolve
    header.set name value
  | .setOptional named value => do
    let name ← named.resolve
    header.setOptional name value
  | .insert i named value => do
    let name ← named.resolve
    header.insert i name value
  | .append named value => do
    let name ← named.resolve
    header.append name value
  | .insertRecord i record => header.insertRecord i record
  | .remove named => do
    let name ← named.resolve
    let removed ← header.remove name
    .ok removed.2
  | .removeAt i => do
    let removed ← header.removeAt i
    .ok removed.2
  | .removeAll named => do
    let name ← named.resolve
    .ok (header.removeAll name).2
  | .setComment named text => do
    let name ← named.resolve
    header.setComment name text
  | .pushCommentary named text => do
    let name ← named.resolve
    header.pushCommentary name text
  | .appendFilteredFrom source keep => .ok (header.appendFilteredFrom source keep)
  | .removeWhere shouldRemove => .ok (header.removeWhere shouldRemove)
  | .renameKeywords renames => .ok (header.renameKeywords renames)

/-- The header after an edit: one that errs leaves it as it was. -/
def Header.edited (header : Header R) (edit : Edit R) : Outcome (Header R) :=
  match edit.apply header with
  | .ok next => .ok next
  | .error (.err _) => .ok header
  | .error (.panic panic) => abort panic

/-- The header after edits in turn. -/
def Header.run (header : Header R) (edits : List (Edit R)) : Outcome (Header R) :=
  edits.foldlM Header.edited header

end FitsWell
