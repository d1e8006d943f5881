import FitsWell.HeaderModel.Edits

/-!
# Parsing a header

A header unit is its records up to the `END` record. A `CONTINUE` record goes on the long
string before it, and the blank records before `END` are free space.
-/

namespace FitsWell

open PlaceIndex

variable {R : Type}

/-! ## Long strings -/

/-- A comment with another fragment. -/
def joinComment (comment fragment : Option Text) : Option Text :=
  match fragment with
  | none => comment
  | some fragment =>
    match comment with
    | some comment => some (comment ++ (if comment.isEmpty then [] else [space]) ++ fragment)
    | none => some fragment

/-- The text of a long string that awaits more, with a substring in place of its `&`. -/
def continueText (text substring : Text) : Option Text :=
  if text.getLast? = some ampersand then some (text.dropLast ++ substring) else none

/-- A record with a long string, with a substring and a comment fragment more. -/
def Record.continueWith (record : Record R) (substring : Text) (fragment : Option Text) :
    Option (Record R) :=
  match record with
  | .valued keyword (.text text) comment =>
    (continueText text substring).map fun text =>
      .valued keyword (.text text) (joinComment comment fragment)
  | .hierarch name (.text text) comment =>
    (continueText text substring).map fun text =>
      .hierarch name (.text text) (joinComment comment fragment)
  | _ => none

theorem Record.keys_continueWith {record longer : Record R} {substring : Text}
    {fragment : Option Text} (h : record.continueWith substring fragment = some longer) :
    longer.keyword = record.keyword ∧ longer.hierarchKey = record.hierarchKey := by
  unfold Record.continueWith at h
  split at h
  · obtain ⟨text, -, rfl⟩ := Option.map_eq_some_iff.mp h
    exact ⟨rfl, rfl⟩
  · obtain ⟨text, -, rfl⟩ := Option.map_eq_some_iff.mp h
    exact ⟨rfl, rfl⟩
  · cases h

namespace Header

/-- The header with a substring on its last record, where that awaits one. -/
def foldContinuation (header : Header R) (substring : Text) (fragment : Option Text) :
    Option (Header R) :=
  match hlast : header.records[header.records.length - 1]? with
  | none => none
  | some record =>
    match hlonger : record.continueWith substring fragment with
    | none => none
    | some longer => some (header.setAt (header.records.length - 1) longer fun _ hold =>
        Option.some.inj (hlast.symm.trans hold) ▸ Record.keys_continueWith hlonger)

/-- A blank record of commentary. -/
def isBlankRecord : Record R → Bool
  | .commentary name none => name == CommentaryName.BLANK
  | _ => false

theorem keys_of_isBlankRecord {record : Record R} (h : isBlankRecord record = true) :
    record.keyword = none ∧ record.hierarchKey = none := by
  unfold isBlankRecord at h
  split at h
  · exact ⟨rfl, rfl⟩
  · cases h

/-- An index of records is one of them without the blank ones at their end. -/
theorem isIndexOf_rdropWhile {κ : Type} [DecidableEq κ] {keyOf : Record R → Option κ}
    {index : PlaceIndex κ} (hkey : ∀ record, isBlankRecord record = true → keyOf record = none)
    (records : List (Record R)) (h : IsIndexOf keyOf records index) :
    IsIndexOf keyOf (records.rdropWhile isBlankRecord) index := by
  induction records using List.reverseRecOn with
  | nil => exact h
  | append_singleton records record ih =>
    by_cases hblank : isBlankRecord record = true
    · rw [List.rdropWhile_concat_pos _ _ _ hblank]
      exact ih ((isIndexOf_append_iff (hkey record hblank)).mp h)
    · rwa [List.rdropWhile_concat_neg _ _ _ hblank]

/-- The header without the blank records at its end. -/
def dropBlanks (header : Header R) : Header R where
  records := header.records.rdropWhile isBlankRecord
  index := header.index
  hierarchIndex := header.hierarchIndex
  repairs := header.repairs
  indexed := isIndexOf_rdropWhile (fun _ h => (keys_of_isBlankRecord h).1) _ header.indexed
  hierarchIndexed :=
    isIndexOf_rdropWhile (fun _ h => (keys_of_isBlankRecord h).2) _ header.hierarchIndexed

/-- The header with more repairs. -/
def addRepairs (header : Header R) (place : ℕ) (kinds : List RepairKind) : Header R where
  records := header.records
  index := header.index
  hierarchIndex := header.hierarchIndex
  repairs := header.repairs ++ kinds.map fun kind => ⟨place, kind⟩
  indexed := header.indexed
  hierarchIndexed := header.hierarchIndexed

/-! ## Records in turn -/

variable [RealText R]

/-- The header with one record more, which is not its end. -/
def takeRecord (header : Header R) : ParsedRecord R → Outcome (Header R)
  | .record record => header.pushRecord record
  | .continued substring comment tail =>
    match header.foldContinuation substring comment with
    | some folded => .ok folded
    | none => header.pushRecord (.commentary CommentaryName.CONTINUE tail)
  | .ended => .ok header.dropBlanks

/-- Parse cards from place `place` on, after the records of `header`. -/
def parseCards (header : Header R) (place : ℕ) : List Text → Outcome (Header R)
  | [] => fail .missingEnd
  | card :: cards => do
    let parsed ← (ParsedRecord.parse card : Outcome (Parsed R))
    let next ← (header.addRepairs place parsed.1).takeRecord parsed.2
    match parsed.2 with
    | .ended => .ok next
    | _ => next.parseCards (place + 1) cards

/-- The whole cards of a header unit. -/
def cards (bytes : Text) : List Text :=
  (List.range (bytes.length / cardSize)).map (Chunks.chunk bytes cardSize)

/-- Parse a header unit. -/
def parse (bytes : Text) : Outcome (Header R) := parseCards new 1 (cards bytes)

end Header

end FitsWell
