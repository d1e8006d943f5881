import FitsWell.HeaderModel.EditIndex
import FitsWell.Library.Stateful

/-!
# Edits in place

An edit changes the records of a header and then each of its indexes, one after another, and
stops where a call errs. What it leaves then is the header as it was: every check comes before
the first change.
-/

namespace FitsWell

open PlaceIndex

variable {R : Type}

/-- What a header holds, its indexes as an edit on its way may leave them. -/
structure HeaderState (R : Type) where
  records : List (Record R)
  index : PlaceIndex Keyword
  hierarchIndex : PlaceIndex Text
  repairs : List Repair

/-- What a header holds. -/
def Header.state (header : Header R) : HeaderState R :=
  ⟨header.records, header.index, header.hierarchIndex, header.repairs⟩

/-- A call on a header in place. -/
abbrev InPlace (R α : Type) := Stateful Fault (HeaderState R) α

namespace InPlace

open Stateful (get set lift)

/-! ## Records in place -/

/-- Leave other records. -/
def setRecords (records : List (Record R)) : InPlace R Unit := fun s =>
  (.ok (), { s with records := records })

/-- Leave another index of keywords. -/
def setIndex (index : PlaceIndex Keyword) : InPlace R Unit := fun s =>
  (.ok (), { s with index := index })

/-- Leave another index of hierarchical names. -/
def setHierarchIndex (index : PlaceIndex Text) : InPlace R Unit := fun s =>
  (.ok (), { s with hierarchIndex := index })

/-- Insert a record at `i`: the indexes first, and then the records, which panic past their
end. -/
def insertAt (i : ℕ) (record : Record R) : InPlace R Unit := do
  let s ← get
  setIndex (s.index.insertAt i record.keyword)
  setHierarchIndex (s.hierarchIndex.insertAt i record.hierarchKey)
  if i ≤ s.records.length then setRecords (s.records.take i ++ record :: s.records.drop i)
  else lift (abort .indexOutOfBounds)

/-- Append a record. -/
def pushRecord (record : Record R) : InPlace R Unit := do
  let s ← get
  insertAt s.records.length record

/-- Remove the record at `i`: the records first, and then the indexes. -/
def takeAt (i : ℕ) : InPlace R (Record R) := do
  let s ← get
  let record ← lift (load s.records i)
  setRecords (s.records.take i ++ s.records.drop (i + 1))
  setIndex (s.index.takeAt Record.keyword i record.keyword (s.records.drop (i + 1)))
  setHierarchIndex
    (s.hierarchIndex.takeAt Record.hierarchKey i record.hierarchKey (s.records.drop (i + 1)))
  pure record

/-- Build the indexes anew. -/
def reindex : InPlace R Unit := do
  let s ← get
  setIndex (rebuild Record.keyword s.records)
  setHierarchIndex (rebuild Record.hierarchKey s.records)

/-- Keep the records that stay, and build the indexes anew where any went. -/
def retain (stays : Record R → Bool) : InPlace R Unit := do
  let s ← get
  setRecords (s.records.filter stays)
  if (s.records.filter stays).length = s.records.length then pure () else reindex

/-- The first record of a name with a value, by the indexes. -/
def first? (name : RecordName) : InPlace R (Option ℕ) := do
  let s ← get
  pure (match name with
    | .keyword keyword => s.index keyword
    | .hierarch name => s.hierarchIndex name.key
    | .commentary _ => none)

/-- Put a record where one is. -/
def setRecordAt (i : ℕ) (record : Record R) : InPlace R Unit := do
  let s ← get
  let records ← lift (store s.records i record)
  setRecords records

/-! ## Edits -/

variable [RealText R]

/-- Give the record at `i` another value. -/
def replaceValue (i : ℕ) (value : Value R) : InPlace R Unit := do
  let s ← get
  let record ← lift (load s.records i)
  let replacement ← lift (record.withValue value)
  lift replacement.validate
  setRecordAt i replacement

/-- Set the value of the first record of a name, or append a record. -/
def setValue (name : RecordName) (value : Value R) : InPlace R Unit := do
  lift name.validateValued
  let found ← first? name
  match found with
  | some i => replaceValue i value
  | none => do
    let record ← lift (Record.ofName name value)
    lift record.validate
    pushRecord record

/-- Set a value, or remove every record of the name. -/
def setOptional (name : RecordName) (value : Option (Value R)) : InPlace R Unit := do
  lift name.validateValued
  match value with
  | none => retain fun record => !record.isNamed name
  | some value => setValue name value

/-- Insert a record; a malformed one goes in as it is. -/
def insertRecord (i : ℕ) (record : Record R) : InPlace R Unit := do
  let s ← get
  if i > s.records.length then
    lift (fail (.indexOutOfBounds .headerRecord i s.records.length))
  else do
    lift record.validateInserted
    insertAt i record

/-- Insert a record of a name and a value. -/
def insert (i : ℕ) (name : RecordName) (value : Value R) : InPlace R Unit := do
  let record ← lift (Record.ofName name value)
  insertRecord i record

/-- Append a record of a name and a value. -/
def append (name : RecordName) (value : Value R) : InPlace R Unit := do
  let s ← get
  insert s.records.length name value

/-- Set the comment of the first record of a name. -/
def setComment (name : RecordName) (text : Text) : InPlace R Unit := do
  lift name.validateValued
  lift (validateAscii text (.comment name))
  let found ← first? name
  match found with
  | none => lift (fail (.missingKeyword name))
  | some i => do
    let s ← get
    let record ← lift (load s.records i)
    let commented ← lift (record.withComment text)
    lift commented.validate
    setRecordAt i commented

/-- Append a record of commentary. -/
def pushCommentary (name : CommentaryName) (text : Text) : InPlace R Unit := do
  let record : Record R := Record.ofCommentary name text
  lift record.validate
  let s ← get
  setRecords (s.records ++ [record])

omit [RealText R] in
/-- Remove the record at `i`. -/
def removeAt (i : ℕ) : InPlace R (Record R) := do
  let s ← get
  if i ≥ s.records.length then
    lift (fail (.indexOutOfBounds .headerRecord i s.records.length))
  else
    takeAt i

omit [RealText R] in
/-- The place of the first record of a name, of commentary or with a value. -/
def indexOf (name : RecordName) : InPlace R (Option ℕ) := do
  let found ← first? name
  let s ← get
  let stop := match found with
    | some i => i + 1
    | none => s.records.length
  let records ← lift (subslice s.records 0 stop)
  pure (records.findIdx? (·.isNamed name))

omit [RealText R] in
/-- Remove the first record of a name. -/
def remove (name : RecordName) : InPlace R (Option (Record R)) := do
  let found ← indexOf name
  match found with
  | none => pure none
  | some i => do
    let record ← removeAt i
    pure (some record)

omit [RealText R] in
/-- Append the records of a header that no keyword names, and those whose keyword stays. -/
def appendFilteredFrom (source : Header R) (keep : Keyword → Bool) : InPlace R Unit := do
  let s ← get
  setRecords (s.records ++ source.records.filter fun record => record.keyword.all keep)
  reindex

omit [RealText R] in
/-- Rename the keywords of records with values. -/
def renameKeywords (renames : List (Keyword × Keyword)) : InPlace R Unit := do
  let s ← get
  setRecords (s.records.map fun record => (Header.renamed renames record).getD record)
  if s.records.any fun record => (Header.renamed renames record).isSome then reindex else pure ()

end InPlace

/-- An edit in place. -/
def Edit.inPlace [RealText R] : Edit R → InPlace R Unit
  | .set named value => do
    let name ← Stateful.lift named.resolve
    InPlace.setValue name value
  | .setOptional named value => do
    let name ← Stateful.lift named.resolve
    InPlace.setOptional name value
  | .insert i named value => do
    let name ← Stateful.lift named.resolve
    InPlace.insert i name value
  | .append named value => do
    let name ← Stateful.lift named.resolve
    InPlace.append name value
  | .insertRecord i record => InPlace.insertRecord i record
  | .remove named => do
    let name ← Stateful.lift named.resolve
    let _ ← InPlace.remove name
    pure ()
  | .removeAt i => do
    let _ ← InPlace.removeAt i
    pure ()
  | .removeAll named => do
    let name ← Stateful.lift named.resolve
    InPlace.retain fun record => !record.isNamed name
  | .setComment named text => do
    let name ← Stateful.lift named.resolve
    InPlace.setComment name text
  | .pushCommentary named text => do
    let name ← Stateful.lift named.resolve
    InPlace.pushCommentary name text
  | .appendFilteredFrom source keep => InPlace.appendFilteredFrom source keep
  | .removeWhere shouldRemove => InPlace.retain fun record => !record.keyword.any shouldRemove
  | .renameKeywords renames => InPlace.renameKeywords renames

/-! ## What an edit in place leaves -/

/-- The end of an edit in place whose outcome is `call`: the header it gives, or the one there
was. -/
def Header.after (header : Header R) (call : Outcome (Header R)) :
    Except Fault Unit × HeaderState R :=
  match call with
  | .ok next => (.ok (), next.state)
  | .error fault => (.error fault, header.state)

/-- An edit in place does what a call does to a whole header. -/
def InPlace.Does (header : Header R) (edit : InPlace R Unit) (call : Outcome (Header R)) : Prop :=
  edit.run header.state = header.after call

namespace InPlace.Does

open Stateful (get set lift)

variable {α : Type} {header : Header R}

/-- A call that changes nothing comes first in both. -/
theorem lift_bind {outcome : Outcome α} {next : α → InPlace R Unit}
    {call : α → Outcome (Header R)} (h : ∀ v, outcome = .ok v → Does header (next v) (call v)) :
    Does header (lift outcome >>= next) (outcome >>= call) := by
  cases houtcome : outcome with
  | ok v => exact h v houtcome
  | error fault => rfl

theorem lift_ok {outcome : Outcome α} {v : α} {next : α → InPlace R Unit}
    {call : Outcome (Header R)} (houtcome : outcome = .ok v) (h : Does header (next v) call) :
    Does header (lift outcome >>= next) call := by
  rw [houtcome]
  exact h

theorem lift_error {outcome : Outcome α} {fault : Fault} {next : α → InPlace R Unit}
    (houtcome : outcome = .error fault) : Does header (lift outcome >>= next) (.error fault) := by
  rw [houtcome]
  rfl

theorem get_bind {next : HeaderState R → InPlace R Unit} {call : Outcome (Header R)}
    (h : Does header (next header.state) call) : Does header (get >>= next) call := h

theorem fail (error : FitsError) : Does header (lift (fail error)) (fail error) := rfl

theorem ite {condition : Prop} [Decidable condition] {yes no : InPlace R Unit}
    {yesCall noCall : Outcome (Header R)} (hyes : condition → Does header yes yesCall)
    (hno : ¬condition → Does header no noCall) :
    Does header (if condition then yes else no) (if condition then yesCall else noCall) := by
  split
  · exact hyes ‹_›
  · exact hno ‹_›

/-- A record enters a place of the header or its end. -/
theorem insertAt {i : ℕ} (hi : i ≤ header.records.length) (record : Record R) :
    Does header (InPlace.insertAt i record) (header.insertAt i record) := by
  rw [Header.insertAt, dif_pos hi]
  refine get_bind ?_
  rw [if_pos (show i ≤ header.state.records.length from hi)]
  rfl

theorem takeAt (i : ℕ) : Does header (InPlace.takeAt i >>= fun _ => pure ())
    (header.takeAt i >>= fun removed => .ok removed.2) := by
  unfold Header.takeAt
  split
  · rename_i hnone
    have hload : load header.state.records i = abort .indexOutOfBounds := by
      rw [load, show header.state.records[i]? = none from hnone]
    simp only [Does, InPlace.takeAt, bind, Stateful.run, Stateful.get, lift, hload]
    rfl
  · rename_i record hrecord
    have hload : load header.state.records i = .ok record := load_of_getElem? hrecord
    simp only [Does, InPlace.takeAt, bind, Stateful.run, Stateful.get, lift, hload]
    rfl

theorem reindexed (records : List (Record R)) :
    Does header (setRecords records >>= fun _ => InPlace.reindex)
      (.ok (Header.reindexed records header.repairs)) := rfl

theorem retain (stays : Record R → Bool) :
    Does header (InPlace.retain stays) (.ok (header.retain stays)) := by
  refine get_bind ?_
  unfold Header.retain
  by_cases hall : (header.records.filter stays).length = header.records.length
  · have hfilter := List.length_filter_eq_length_iff.mp hall
    rw [if_pos hall, if_pos (show (header.state.records.filter stays).length =
      header.state.records.length from hall)]
    have hsame : header.records.filter stays = header.records := List.filter_eq_self.mpr hfilter
    change (Except.ok (), { header.state with records := header.records.filter stays }) = _
    rw [hsame]
    rfl
  · rw [if_neg hall, if_neg (show ¬(header.state.records.filter stays).length =
      header.state.records.length from hall)]
    exact reindexed _

theorem setRecordAt {i : ℕ} {old record : Record R} (hold : header.records[i]? = some old)
    (hkeys : ∀ found, header.records[i]? = some found →
      record.keyword = found.keyword ∧ record.hierarchKey = found.hierarchKey) :
    Does header (InPlace.setRecordAt i record) (.ok (header.setAt i record hkeys)) := by
  have hlt := (List.getElem?_eq_some_iff.mp hold).1
  refine get_bind ?_
  rw [store_of_lt record (show i < header.state.records.length from hlt)]
  rfl

/-- The record the index has for a name gives way to another with the same keys. -/
theorem first?_bind {name : RecordName} {next : Option ℕ → InPlace R Unit}
    {call : Outcome (Header R)} (h : Does header (next (header.first? name)) call) :
    Does header (first? name >>= next) call := by
  cases name <;> exact h

theorem pushRecord (record : Record R) :
    Does header (InPlace.pushRecord record) (header.pushRecord record) :=
  get_bind (insertAt le_rfl record)

section Editing

variable [RealText R]

theorem replaceValue {i : ℕ} {old : Record R} (hold : header.records[i]? = some old)
    (value : Value R) :
    Does header (InPlace.replaceValue i value) (header.replaceValue i value) := by
  refine get_bind (lift_ok (load_of_getElem? hold) ?_)
  unfold Header.replaceValue
  split
  · rename_i hnone
    rw [hold] at hnone
    cases hnone
  · rename_i found hfound
    obtain rfl := Option.some.inj (hold.symm.trans hfound)
    split
    · rename_i fault hfault
      exact lift_error hfault
    · rename_i replacement hreplacement
      exact lift_ok hreplacement (lift_bind fun _ _ => setRecordAt hold _)

theorem setValue (name : RecordName) (value : Value R) :
    Does header (InPlace.setValue name value) (header.set name value) := by
  refine lift_bind fun _ _ => first?_bind ?_
  rcases header.first?_cases name with ⟨hfirst, -⟩ | ⟨i, record, hfirst, hrecord, -, -⟩
  · rw [hfirst]
    exact lift_bind fun record _ => lift_bind fun _ _ => pushRecord record
  · rw [hfirst]
    exact replaceValue hrecord value

theorem setOptional (name : RecordName) (value : Option (Value R)) :
    Does header (InPlace.setOptional name value) (header.setOptional name value) := by
  refine lift_bind fun _ _ => ?_
  cases value with
  | none => exact retain _
  | some value => exact setValue name value

theorem insertRecord (i : ℕ) (record : Record R) :
    Does header (InPlace.insertRecord i record) (header.insertRecord i record) :=
  get_bind (ite (fun _ => fail _) fun hi =>
    lift_bind fun _ _ => insertAt (Nat.le_of_not_lt hi) record)

theorem insert (i : ℕ) (name : RecordName) (value : Value R) :
    Does header (InPlace.insert i name value) (header.insert i name value) :=
  lift_bind fun record _ => insertRecord i record

theorem append (name : RecordName) (value : Value R) :
    Does header (InPlace.append name value) (header.append name value) :=
  get_bind (insert _ name value)

theorem setComment (name : RecordName) (text : Text) :
    Does header (InPlace.setComment name text) (header.setComment name text) := by
  refine lift_bind fun _ _ => lift_bind fun _ _ => first?_bind ?_
  rcases header.first?_cases name with ⟨hfirst, -⟩ | ⟨i, record, hfirst, hrecord, -, -⟩
  · rw [hfirst]
    exact fail _
  · rw [hfirst]
    refine get_bind (lift_ok (load_of_getElem? hrecord) ?_)
    dsimp only
    split
    · rename_i hnone
      rw [hrecord] at hnone
      cases hnone
    · rename_i found hfound
      obtain rfl := Option.some.inj (hrecord.symm.trans hfound)
      split
      · rename_i fault hfault
        exact lift_error hfault
      · rename_i commented hcommented
        exact lift_ok hcommented (lift_bind fun _ _ => setRecordAt hrecord _)

theorem pushCommentary (name : CommentaryName) (text : Text) :
    Does header (InPlace.pushCommentary name text) (header.pushCommentary name text) :=
  lift_bind fun _ _ => rfl

end Editing

theorem removeAt (i : ℕ) : Does header (InPlace.removeAt i >>= fun _ => pure ())
    (header.removeAt i >>= fun removed => .ok removed.2) := by
  unfold Header.removeAt
  split
  · rename_i hpast
    simp only [Does, InPlace.removeAt, bind, Stateful.run, Stateful.get]
    rw [if_pos (show i ≥ header.state.records.length from hpast)]
    rfl
  · rename_i hinside
    have htake := @takeAt _ header i
    simp only [Does, InPlace.removeAt, bind, Stateful.run, Stateful.get]
    rw [if_neg (show ¬i ≥ header.state.records.length from hinside)]
    exact htake

theorem run_indexOf (name : RecordName) : (InPlace.indexOf name).run header.state =
    (.ok (header.records.findIdx? (·.isNamed name)), header.state) := by
  have hpure := header.indexOf_eq name
  unfold Header.indexOf at hpure
  obtain ⟨records, hrecords, hplace⟩ := Loops.ok_of_bind hpure
  rw [← Except.ok.inj hplace]
  have hrun : (InPlace.indexOf name).run header.state =
      (lift (subslice header.records 0 (match header.first? name with
        | some i => i + 1
        | none => header.records.length)) >>= fun records =>
        pure (records.findIdx? (·.isNamed name))).run header.state := by
    cases name <;> rfl
  have hlift : (lift (subslice header.records 0 (match header.first? name with
      | some i => i + 1
      | none => header.records.length)) : InPlace R (List (Record R))).run header.state =
      (.ok records, header.state) :=
    (Stateful.run_lift _ _).trans (congrArg (·, header.state) hrecords)
  rw [hrun, Stateful.run_bind hlift]
  rfl

theorem remove (name : RecordName) : Does header (InPlace.remove name >>= fun _ => pure ())
    (header.remove name >>= fun removed => .ok removed.2) := by
  unfold Header.remove
  rw [header.indexOf_eq, Loops.bind_ok rfl, Does, InPlace.remove, bind_assoc,
    Stateful.run_bind (run_indexOf name)]
  cases header.records.findIdx? (·.isNamed name) with
  | none => rfl
  | some i =>
    simp only [bind_assoc, pure_bind]
    exact removeAt i

/-- A record that no rename names stays. -/
theorem map_renamed {renames : List (Keyword × Keyword)} {records : List (Record R)}
    (h : ¬records.any (fun record => (Header.renamed renames record).isSome) = true) :
    records.map (fun record => (Header.renamed renames record).getD record) = records := by
  have hnone : ∀ record ∈ records, Header.renamed renames record = none := by
    intro record hrecord
    cases hrenamed : Header.renamed renames record with
    | none => rfl
    | some renamed => exact absurd (List.any_eq_true.mpr ⟨record, hrecord, by rw [hrenamed]; rfl⟩) h
  exact (List.map_congr_left fun record hrecord => by rw [hnone record hrecord]; rfl).trans
    (List.map_id records)

theorem renameKeywords (renames : List (Keyword × Keyword)) :
    Does header (InPlace.renameKeywords renames) (.ok (header.renameKeywords renames)) := by
  refine get_bind ?_
  unfold Header.renameKeywords
  by_cases hany : header.records.any (fun record => (Header.renamed renames record).isSome) = true
  · rw [if_pos hany, if_pos (show header.state.records.any _ = true from hany)]
    exact reindexed _
  · rw [if_neg hany, if_neg (show ¬header.state.records.any _ = true from hany)]
    change (Except.ok (), { header.state with
      records := header.records.map fun record => (Header.renamed renames record).getD record }) = _
    rw [map_renamed hany]
    rfl

end InPlace.Does

/-- Every edit in place does what it does to a whole header, and where it errs it leaves the
header there was. -/
theorem Edit.inPlace_does [RealText R] (header : Header R) (edit : Edit R) :
    InPlace.Does header edit.inPlace (edit.apply header) := by
  cases edit with
  | set named value => exact .lift_bind fun name _ => .setValue name value
  | setOptional named value => exact .lift_bind fun name _ => .setOptional name value
  | insert i named value => exact .lift_bind fun name _ => .insert i name value
  | append named value => exact .lift_bind fun name _ => .append name value
  | insertRecord i record => exact .insertRecord i record
  | remove named => exact .lift_bind fun name _ => .remove name
  | removeAt i => exact .removeAt i
  | removeAll named => exact .lift_bind fun name _ => .retain _
  | setComment named text => exact .lift_bind fun name _ => .setComment name text
  | pushCommentary named text => exact .lift_bind fun name _ => .pushCommentary name text
  | appendFilteredFrom source keep => exact .reindexed _
  | removeWhere shouldRemove => exact .retain _
  | renameKeywords renames => exact .renameKeywords renames

end FitsWell
