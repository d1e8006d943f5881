import FitsWell.BinTable.TableReads
import FitsWell.Hdu.HduSelector

/-!
# Columns by their names

A column is named by its `TTYPEn`, compared without regard to case. The array columns of a
compressed image are all found so.
-/

namespace FitsWell

variable {R : Type}

/-- The name of column `n`, or the defect of its keyword. An empty name is none. -/
def ColumnKeywords.name (header : Header R) (n : ℕ) : Outcome (Keyed (Option Text)) := do
  let keyword ← Keyword.TTYPE.indexed n
  keyed keyword do
    let found ← header.getText keyword
    .ok (found.filter fun name => !name.isEmpty)

/-- The place of the first column of a name. A name that does not read before it may be the one
meant. -/
def indexOf (name : Text) : List (Keyed (Option Text)) → Outcome (Option ℕ)
  | [] => .ok none
  | column :: columns => do
    let own ← ColumnReader.keyed column
    if own.any fun candidate => eqIgnoreAsciiCase candidate name then
      .ok (some 0)
    else do
      let found ← indexOf name columns
      .ok (found.map Nat.succ)

/-- A schema with the names of its columns. -/
structure NamedSchema (R : Type) extends TableSchema R where
  names : List (Keyed (Option Text))

/-- The schema that a header describes, with the names of its columns. -/
def NamedSchema.parse [RealWords R] [LawfulWords R] (header : Header R) :
    Outcome (NamedSchema R) := do
  let schema ← Schema.parse header
  let names ← schema.columns.mapM fun column => ColumnKeywords.name header column.number
  .ok { schema with names := names }

/-- A table over its bytes, with the names of its columns. -/
structure NamedTable extends TableView where
  names : List (Keyed (Option Text))

namespace NamedTable

variable (table : NamedTable)

def columnIndex (name : Text) : Outcome (Option ℕ) := indexOf name table.names

/-- A handle to the array column at `index`. -/
def vlaColumn (index : ℕ) : Outcome VlaColumn :=
  match table.columns[index]? with
  | none => fail (.indexOutOfBounds .column index table.columns.length)
  | some column =>
    match column.tform.storage with
    | .fixed => fail (.columnKindMismatch index .array)
    | .array width =>
      .ok { table := table.toTableView, index := index, column := column, width := width }

/-- A handle to the array column of a name, where there is such a column. -/
def optionalVlaColumn (name : Text) : Outcome (Option VlaColumn) := do
  let found ← table.columnIndex name
  match found with
  | none => .ok none
  | some index => do
    let vla ← table.vlaColumn index
    .ok (some vla)

end NamedTable

end FitsWell
