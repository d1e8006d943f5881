import FitsWell.HeaderModel.EditsInPlace
import FitsWell.HeaderModel.RenderInto
import FitsWell.HeaderModel.SignedSize

/-!
# What an edit changes

An edit that returns puts in, replaces or takes out one record, the one that it names, and
checks what it puts in. A header that edits build from none renders.
-/

namespace FitsWell

variable {R : Type}

/-! ## Changes of records -/

/-- A change of one of the records of a header. -/
inductive RecordChange (R : Type)
  | add (i : ℕ) (record : Record R)
  | replace (i : ℕ) (record : Record R)
  | remove (i : ℕ)

namespace RecordChange

/-- The records after a change. -/
def apply (records : List (Record R)) : RecordChange R → List (Record R)
  | add i record => records.take i ++ record :: records.drop i
  | replace i record => records.set i record
  | remove i => records.take i ++ records.drop (i + 1)

/-- The change is of a place the records have, or of their end. -/
def Within (records : List (Record R)) : RecordChange R → Prop
  | add i _ => i ≤ records.length
  | replace i _ | remove i => i < records.length

/-- The record a change puts in. -/
def written : RecordChange R → Option (Record R)
  | add _ record | replace _ record => some record
  | remove _ => none

/-- A change takes out one record at most. -/
theorem length_le_apply (records : List (Record R)) (change : RecordChange R) :
    records.length ≤ (change.apply records).length + 1 := by
  cases change with
  | add i record =>
    simp only [apply, List.length_append, List.length_take, List.length_cons, List.length_drop]
    omega
  | replace i record => rw [apply, List.length_set]; omega
  | remove i =>
    simp only [apply, List.length_append, List.length_take, List.length_drop]
    omega

/-- A change puts in what it writes, and no other record. -/
theorem mem_apply {records : List (Record R)} {change : RecordChange R} {record : Record R}
    (h : record ∈ change.apply records) : record ∈ records ∨ change.written = some record := by
  cases change with
  | add i added =>
    rcases List.mem_append.mp h with hfront | hrest
    · exact Or.inl (List.mem_of_mem_take hfront)
    · rcases List.mem_cons.mp hrest with rfl | hback
      · exact Or.inr rfl
      · exact Or.inl (List.mem_of_mem_drop hback)
  | replace i added =>
    rcases List.mem_or_eq_of_mem_set h with hold | rfl
    · exact Or.inl hold
    · exact Or.inr rfl
  | remove i =>
    rcases List.mem_append.mp h with hfront | hback
    · exact Or.inl (List.mem_of_mem_take hfront)
    · exact Or.inl (List.mem_of_mem_drop hback)

end RecordChange

/-- The change that gives a name a value: of the first record that carries it, which keeps
its comment, or a record at the end where none does. -/
def SetsValue (records : List (Record R)) (name : RecordName) (value : Value R)
    (change : RecordChange R) : Prop :=
  (∃ record, (∀ other ∈ records, other.carries name = false) ∧
    Record.ofName name value = .ok record ∧ change = .add records.length record) ∨
  ∃ i old record, records.findIdx? (·.carries name) = some i ∧ records[i]? = some old ∧
    old.withValue value = .ok record ∧ change = .replace i record

/-- The one change that an edit names. -/
def Edit.Names (records : List (Record R)) (edit : Edit R) (change : RecordChange R) : Prop :=
  match edit with
  | .set named value | .setOptional named (some value) =>
    ∃ name, named.resolve = .ok name ∧ SetsValue records name value change
  | .insert i named value => ∃ name record, named.resolve = .ok name ∧
    Record.ofName name value = .ok record ∧ change = .add i record
  | .append named value => ∃ name record, named.resolve = .ok name ∧
    Record.ofName name value = .ok record ∧ change = .add records.length record
  | .insertRecord i record => change = .add i record
  | .setComment named text => ∃ name i old record, named.resolve = .ok name ∧
    records.findIdx? (·.carries name) = some i ∧ records[i]? = some old ∧
    old.withComment text = .ok record ∧ change = .replace i record
  | .pushCommentary named text => ∃ name, named.resolve = .ok name ∧
    change = .add records.length (.ofCommentary name text)
  | .removeAt i => change = .remove i
  | _ => False

/-- An edit of one record: every one but a bulk removal, a removal by name, and the edits of
many records. -/
def Edit.single : Edit R → Bool
  | .set _ _ | .setOptional _ (some _) | .insert _ _ _ | .append _ _ | .insertRecord _ _
  | .setComment _ _ | .pushCommentary _ _ | .removeAt _ => true
  | _ => false

/-- An edit puts a malformed record in as it is. -/
def Edit.insertsMalformed : Edit R → Bool
  | .insertRecord _ (.malformed _ _ _) => true
  | _ => false

/-! ## Edits that return -/

namespace Header

variable {header next : Header R}

theorem records_retain (header : Header R) (stays : Record R → Bool) :
    (header.retain stays).records = header.records.filter stays ∧
      (header.retain stays).repairs = header.repairs := by
  unfold retain
  split
  · rename_i hall
    exact ⟨(List.filter_eq_self.mpr (List.length_filter_eq_length_iff.mp hall)).symm, rfl⟩
  · exact ⟨rfl, rfl⟩

/-- A header after a change of another: one record is put in, replaced or taken out, and the
others keep their content and their order. -/
structure Follows (header next : Header R) (change : RecordChange R) : Prop where
  within : change.Within header.records
  records : next.records = change.apply header.records
  repairs : next.repairs = header.repairs

theorem follows_insertAt {i : ℕ} {record : Record R} (h : header.insertAt i record = .ok next) :
    header.Follows next (.add i record) := by
  unfold insertAt at h
  split at h
  · rename_i hi
    obtain rfl := Except.ok.inj h
    exact ⟨hi, rfl, rfl⟩
  · cases h

theorem follows_removeAt {i : ℕ} {removed : Record R × Header R}
    (h : header.removeAt i = .ok removed) : header.Follows removed.2 (.remove i) := by
  unfold removeAt at h
  split at h
  · cases h
  · rename_i hi
    unfold takeAt at h
    split at h
    · cases h
    · obtain rfl := Except.ok.inj h
      exact ⟨Nat.lt_of_not_ge hi, rfl, rfl⟩

section Editing

variable [RealText R]

theorem follows_replaceValue {i : ℕ} {value : Value R}
    (h : header.replaceValue i value = .ok next) :
    ∃ old record, header.records[i]? = some old ∧ old.withValue value = .ok record ∧
      record.validate = .ok () ∧ header.Follows next (.replace i record) := by
  unfold replaceValue at h
  split at h
  · cases h
  · rename_i old hold
    split at h
    · cases h
    · rename_i record hrecord
      obtain ⟨_, hvalid, h⟩ := Loops.ok_of_bind h
      obtain rfl := Except.ok.inj h
      exact ⟨old, record, hold, hrecord, hvalid, (List.getElem?_eq_some_iff.mp hold).1, rfl, rfl⟩

theorem follows_set {name : RecordName} {value : Value R} (h : header.set name value = .ok next) :
    ∃ change record, SetsValue header.records name value change ∧
      change.written = some record ∧ record.validate = .ok () ∧ header.Follows next change := by
  obtain ⟨_, -, h⟩ := Loops.ok_of_bind h
  cases hfirst : header.first? name with
  | some i =>
    rw [hfirst] at h
    obtain ⟨old, record, hold, hrecord, hvalid, hfollows⟩ := follows_replaceValue h
    exact ⟨_, record, Or.inr ⟨i, old, record, (header.first?_eq name).symm.trans hfirst, hold,
      hrecord, rfl⟩, rfl, hvalid, hfollows⟩
  | none =>
    rw [hfirst] at h
    obtain ⟨record, hrecord, h⟩ := Loops.ok_of_bind h
    obtain ⟨_, hvalid, h⟩ := Loops.ok_of_bind h
    have hnone := List.findIdx?_eq_none_iff.mp ((header.first?_eq name).symm.trans hfirst)
    exact ⟨_, record, Or.inl ⟨record, hnone, hrecord, rfl⟩, rfl, hvalid, follows_insertAt h⟩

theorem validate_of_inserted {record : Record R} (h : record.validateInserted = .ok ()) :
    record.validate = .ok () ∨ ∃ name raw defect, record = .malformed name raw defect := by
  cases record with
  | valued keyword value comment =>
    obtain ⟨_, -, h⟩ := Loops.ok_of_bind h
    exact Or.inl h
  | malformed name raw defect => exact Or.inr ⟨name, raw, defect, rfl⟩
  | commentary name text => exact Or.inl h
  | hierarch name value comment => exact Or.inl h

theorem follows_insertRecord {i : ℕ} {record : Record R}
    (h : header.insertRecord i record = .ok next) :
    (record.validate = .ok () ∨ ∃ name raw defect, record = .malformed name raw defect) ∧
      header.Follows next (.add i record) := by
  unfold insertRecord at h
  split at h
  · cases h
  · obtain ⟨_, hvalid, h⟩ := Loops.ok_of_bind h
    exact ⟨validate_of_inserted hvalid, follows_insertAt h⟩

omit [RealText R] in
/-- A record of a name and a value is not malformed. -/
theorem ofName_ne_malformed {name : RecordName} {value : Value R} {record : Record R}
    (h : Record.ofName name value = .ok record) (own : Option RecordName) (raw : Text)
    (defect : Defect) : record ≠ .malformed own raw defect := by
  obtain ⟨_, -, h⟩ := Loops.ok_of_bind h
  cases name with
  | keyword keyword =>
    rw [← Except.ok.inj h]
    exact nofun
  | hierarch name =>
    rw [← Except.ok.inj h]
    exact nofun
  | commentary name => cases h

theorem follows_insert {i : ℕ} {name : RecordName} {value : Value R}
    (h : header.insert i name value = .ok next) :
    ∃ record, Record.ofName name value = .ok record ∧ record.validate = .ok () ∧
      header.Follows next (.add i record) := by
  obtain ⟨record, hrecord, h⟩ := Loops.ok_of_bind h
  obtain ⟨hvalid, hfollows⟩ := follows_insertRecord h
  refine ⟨record, hrecord, hvalid.resolve_right ?_, hfollows⟩
  rintro ⟨own, raw, defect, hmalformed⟩
  exact ofName_ne_malformed hrecord own raw defect hmalformed

theorem follows_setComment {name : RecordName} {text : Text}
    (h : header.setComment name text = .ok next) :
    ∃ i old record, header.records.findIdx? (·.carries name) = some i ∧
      header.records[i]? = some old ∧ old.withComment text = .ok record ∧
      record.validate = .ok () ∧ header.Follows next (.replace i record) := by
  obtain ⟨_, -, h⟩ := Loops.ok_of_bind h
  obtain ⟨_, -, h⟩ := Loops.ok_of_bind h
  cases hfirst : header.first? name with
  | none =>
    rw [hfirst] at h
    cases h
  | some i =>
    rw [hfirst] at h
    dsimp only at h
    split at h
    · cases h
    · rename_i old hold
      split at h
      · cases h
      · rename_i record hrecord
        obtain ⟨_, hvalid, h⟩ := Loops.ok_of_bind h
        obtain rfl := Except.ok.inj h
        exact ⟨i, old, record, (header.first?_eq name).symm.trans hfirst, hold, hrecord, hvalid,
          (List.getElem?_eq_some_iff.mp hold).1, rfl, rfl⟩

theorem follows_pushCommentary {name : CommentaryName} {text : Text}
    (h : header.pushCommentary name text = .ok next) :
    (Record.ofCommentary name text : Record R).validate = .ok () ∧
      header.Follows next (.add header.records.length (.ofCommentary name text)) := by
  obtain ⟨_, hvalid, h⟩ := Loops.ok_of_bind h
  obtain rfl := Except.ok.inj h
  refine ⟨hvalid, le_rfl, ?_, rfl⟩
  rw [RecordChange.apply, List.take_length, List.drop_length]

end Editing

end Header

/-- The change of an edit that returned: the one it names, of what it checked. -/
structure Edit.Made [RealText R] (edit : Edit R) (header next : Header R)
    (change : RecordChange R) : Prop where
  named : edit.Names header.records change
  follows : header.Follows next change
  checked : ∀ record, change.written = some record →
    record.validate = .ok () ∨ edit.insertsMalformed = true

section Edits

variable [RealText R] {header next : Header R}

/-- What a change that puts in a checked record makes. -/
theorem Edit.Made.of_valid {edit : Edit R} {change : RecordChange R} {record : Record R}
    (hnamed : edit.Names header.records change) (hwritten : change.written = some record)
    (hvalid : record.validate = .ok ()) (hfollows : header.Follows next change) :
    ∃ change, edit.Made header next change := by
  refine ⟨change, hnamed, hfollows, fun other hother => Or.inl ?_⟩
  rw [← Option.some.inj (hwritten.symm.trans hother)]
  exact hvalid

/-- An edit of one record that returns made the change it names. -/
theorem Edit.made {edit : Edit R} (hsingle : edit.single = true)
    (h : edit.apply header = .ok next) : ∃ change, edit.Made header next change := by
  cases edit with
  | set named value =>
    obtain ⟨name, hname, h⟩ := Loops.ok_of_bind h
    obtain ⟨change, record, hsets, hwritten, hvalid, hfollows⟩ := Header.follows_set h
    exact Edit.Made.of_valid ⟨name, hname, hsets⟩ hwritten hvalid hfollows
  | setOptional named value =>
    cases value with
    | none => cases hsingle
    | some value =>
      obtain ⟨name, hname, h⟩ := Loops.ok_of_bind h
      obtain ⟨_, -, h⟩ := Loops.ok_of_bind h
      obtain ⟨change, record, hsets, hwritten, hvalid, hfollows⟩ := Header.follows_set h
      exact Edit.Made.of_valid ⟨name, hname, hsets⟩ hwritten hvalid hfollows
  | insert i named value =>
    obtain ⟨name, hname, h⟩ := Loops.ok_of_bind h
    obtain ⟨record, hrecord, hvalid, hfollows⟩ := Header.follows_insert h
    exact Edit.Made.of_valid ⟨name, record, hname, hrecord, rfl⟩ rfl hvalid hfollows
  | append named value =>
    obtain ⟨name, hname, h⟩ := Loops.ok_of_bind h
    obtain ⟨record, hrecord, hvalid, hfollows⟩ := Header.follows_insert h
    exact Edit.Made.of_valid ⟨name, record, hname, hrecord, rfl⟩ rfl hvalid hfollows
  | insertRecord i record =>
    obtain ⟨hvalid, hfollows⟩ := Header.follows_insertRecord h
    rcases hvalid with hvalid | ⟨name, raw, defect, rfl⟩
    · exact Edit.Made.of_valid rfl rfl hvalid hfollows
    · exact ⟨_, rfl, hfollows, fun _ _ => Or.inr rfl⟩
  | setComment named text =>
    obtain ⟨name, hname, h⟩ := Loops.ok_of_bind h
    obtain ⟨i, old, record, hplace, hold, hrecord, hvalid, hfollows⟩ := Header.follows_setComment h
    exact Edit.Made.of_valid ⟨name, i, old, record, hname, hplace, hold, hrecord, rfl⟩ rfl hvalid hfollows
  | pushCommentary named text =>
    obtain ⟨name, hname, h⟩ := Loops.ok_of_bind h
    obtain ⟨hvalid, hfollows⟩ := Header.follows_pushCommentary h
    exact Edit.Made.of_valid ⟨name, hname, rfl⟩ rfl hvalid hfollows
  | removeAt i =>
    obtain ⟨removed, hremoved, h⟩ := Loops.ok_of_bind h
    obtain rfl := Except.ok.inj h
    exact ⟨.remove i, rfl, Header.follows_removeAt hremoved, fun _ hwritten => by cases hwritten⟩
  | remove named => cases hsingle
  | removeAll named => cases hsingle
  | appendFilteredFrom source keep => cases hsingle
  | removeWhere shouldRemove => cases hsingle
  | renameKeywords renames => cases hsingle

end Edits

/-! ## Headers that edits build -/

/-- The header in place after edits in turn, whether each returned or not. -/
def HeaderState.run [RealText R] (s : HeaderState R) (edits : List (Edit R)) : HeaderState R :=
  edits.foldl (fun s edit => (edit.inPlace.run s).2) s

/-- An edit puts in nothing that it did not check: it takes no malformed record, and no
records of another header or of other names. -/
def Edit.checksAll : Edit R → Bool
  | .appendFilteredFrom _ _ | .renameKeywords _ => false
  | edit => !edit.insertsMalformed

theorem Edit.insertsMalformed_eq_false (edit : Edit R) (h : edit.checksAll = true) :
    edit.insertsMalformed = false := by
  cases edit with
  | insertRecord i record => exact Bool.not_eq_eq_eq_not.mp h
  | _ => rfl

namespace Header

/-- Each record of the header passes its check. -/
def Checked [RealText R] (header : Header R) : Prop :=
  ∀ record ∈ header.records, record.validate = .ok ()

variable [RealText R] {header next : Header R}

theorem Checked.retain (h : header.Checked) (stays : Record R → Bool) :
    (header.retain stays).Checked := by
  intro record hrecord
  rw [(header.records_retain stays).1] at hrecord
  exact h record (List.mem_filter.mp hrecord).1

theorem Checked.made {edit : Edit R} {change : RecordChange R} (h : header.Checked)
    (hmade : edit.Made header next change) (hwhole : edit.insertsMalformed = false) :
    next.Checked := by
  intro record hrecord
  rw [hmade.follows.records] at hrecord
  rcases RecordChange.mem_apply hrecord with hold | hnew
  · exact h record hold
  · refine (hmade.checked record hnew).resolve_right (fun hmalformed => ?_)
    rw [hwhole] at hmalformed
    cases hmalformed

/-- An edit that checks what it puts in keeps the records checked. -/
theorem Checked.apply {edit : Edit R} (h : header.Checked) (hchecks : edit.checksAll = true)
    (hok : edit.apply header = .ok next) : next.Checked := by
  cases hsingle : edit.single with
  | true =>
    obtain ⟨change, hmade⟩ := edit.made hsingle hok
    exact h.made hmade (edit.insertsMalformed_eq_false hchecks)
  | false =>
    cases edit with
    | setOptional named value =>
      cases value with
      | none =>
        obtain ⟨name, -, hok⟩ := Loops.ok_of_bind hok
        obtain ⟨_, -, hok⟩ := Loops.ok_of_bind hok
        exact Except.ok.inj hok ▸ h.retain _
      | some value => cases hsingle
    | remove named =>
      obtain ⟨name, -, hok⟩ := Loops.ok_of_bind hok
      obtain ⟨removed, hremoved, hok⟩ := Loops.ok_of_bind hok
      obtain rfl := Except.ok.inj hok
      obtain ⟨found, -, hremoved⟩ := Loops.ok_of_bind hremoved
      cases found with
      | none => exact Except.ok.inj hremoved ▸ h
      | some i =>
        obtain ⟨taken, htaken, hremoved⟩ := Loops.ok_of_bind hremoved
        obtain rfl := Except.ok.inj hremoved
        intro record hrecord
        rw [(follows_removeAt htaken).records] at hrecord
        rcases RecordChange.mem_apply hrecord with hold | hnew
        · exact h record hold
        · cases hnew
    | removeAll named =>
      obtain ⟨name, -, hok⟩ := Loops.ok_of_bind hok
      exact Except.ok.inj hok ▸ h.retain _
    | removeWhere shouldRemove => exact Except.ok.inj hok ▸ h.retain _
    | appendFilteredFrom source keep => cases hchecks
    | renameKeywords renames => cases hchecks
    | set named value => cases hsingle
    | insert i named value => cases hsingle
    | append named value => cases hsingle
    | insertRecord i record => cases hsingle
    | removeAt i => cases hsingle
    | setComment named text => cases hsingle
    | pushCommentary named text => cases hsingle

/-- A header of checked records renders, where its blocks can be allocated. -/
theorem Checked.renders (h : header.Checked) :
    (∃ cards, Renders header.records cards) ∧
    ∀ spare, blockBytes ((header.records.map recordCards).sum + spare + 1) ≤ isizeMax →
      ∃ out, header.renderInto .unsigned (.spare spare) = .ok out := by
  obtain ⟨cards, hcards⟩ : ∃ cards, Renders header.records cards := by
    have hrecords : ∀ records : List (Record R), (∀ record ∈ records, record.validate = .ok ()) →
        ∃ cards, Renders records cards := by
      intro records hall
      induction records with
      | nil => exact ⟨[], .nil⟩
      | cons record records ih =>
        obtain ⟨card, hcard, -⟩ := record.validate_eq_ok_iff.mp (hall record List.mem_cons_self)
        obtain ⟨cards, hrest⟩ := ih fun other hother => hall other (List.mem_cons_of_mem _ hother)
        exact ⟨card :: cards, .cons hcard hrest⟩
    exact hrecords header.records h
  refine ⟨⟨cards, hcards⟩, fun spare hfits => ?_⟩
  have hrendered := (renderRecords_unsigned header _).mpr ⟨cards, hcards, rfl⟩
  have hout := (layOut_spare_iff (length_renders hcards)).mpr ⟨hfits, rfl⟩
  exact ⟨_, by rw [renderInto, Loops.bind_ok hrendered, Loops.bind_ok hout]; rfl⟩

end Header

section Runs

variable [RealText R]

/-- Edits in place leave the header that the edits of whole headers do. -/
theorem HeaderState.run_eq {header built : Header R} {edits : List (Edit R)}
    (h : header.run edits = .ok built) : header.state.run edits = built.state := by
  induction edits generalizing header with
  | nil =>
    obtain rfl := Except.ok.inj h
    rfl
  | cons edit edits ih =>
    rw [Header.run, List.foldlM_cons] at h
    obtain ⟨next, hnext, h⟩ := Loops.ok_of_bind h
    have hdoes := edit.inPlace_does header
    have hstate : (edit.inPlace.run header.state).2 = next.state := by
      rw [hdoes]
      unfold Header.edited at hnext
      split at hnext
      · rename_i after hafter
        rw [hafter, Except.ok.inj hnext]
        rfl
      · rename_i error herror
        rw [herror, Except.ok.inj hnext]
        rfl
      · cases hnext
    rw [HeaderState.run, List.foldl_cons, hstate]
    exact ih h

/-- A header that checked edits build is of checked records. -/
theorem Header.Checked.run {header built : Header R} {edits : List (Edit R)}
    (h : header.Checked) (hchecks : ∀ edit ∈ edits, edit.checksAll = true)
    (hrun : header.run edits = .ok built) : built.Checked := by
  induction edits generalizing header with
  | nil => exact Except.ok.inj hrun ▸ h
  | cons edit edits ih =>
    rw [Header.run, List.foldlM_cons] at hrun
    obtain ⟨next, hnext, hrun⟩ := Loops.ok_of_bind hrun
    refine ih ?_ (fun other hother => hchecks other (List.mem_cons_of_mem edit hother)) hrun
    unfold Header.edited at hnext
    split at hnext
    · rename_i after hafter
      exact Except.ok.inj hnext ▸ h.apply (hchecks edit List.mem_cons_self) hafter
    · exact Except.ok.inj hnext ▸ h
    · cases hnext

variable [ReadsDecimals R]

theorem Header.run_ok (header : Header R) (edits : List (Edit R)) :
    ∃ built, header.run edits = .ok built := by
  induction edits generalizing header with
  | nil => exact ⟨header, rfl⟩
  | cons edit edits ih =>
    obtain ⟨next, hnext⟩ := header.edited_ok edit
    obtain ⟨built, hbuilt⟩ := ih next
    refine ⟨built, ?_⟩
    rw [Header.run, List.foldlM_cons, Loops.bind_ok hnext]
    exact hbuilt

/-- An edit in place that errs leaves the records, both indexes and the repairs as they were.
One that returns leaves a header, its indexes right and its repairs kept, where it made the one
change it names, of a record it checked; a value that is none takes every record of its name
out. A header that checked edits build from none is of checked records, and renders. -/
theorem header_edits_are_atomic (header : Header R) (edit : Edit R) :
    (∀ fault left, edit.inPlace.run header.state = (.error fault, left) →
      left = header.state ∧ ∃ error, fault = .err error) ∧
    (∀ left, edit.inPlace.run header.state = (.ok (), left) →
      ∃ next : Header R, left = next.state ∧ edit.apply header = .ok next ∧
        (edit.single = true → ∃ change, edit.Made header next change) ∧
        ∀ named, edit = .setOptional named none → ∃ name, named.resolve = .ok name ∧
          next.records = header.records.filter (fun record => !record.isNamed name) ∧
          next.repairs = header.repairs) ∧
    ∀ edits : List (Edit R), (∀ edit ∈ edits, edit.checksAll = true) →
      ∃ built : Header R, (Header.new : Header R).state.run edits = built.state ∧
        built.Checked ∧ (∃ cards, Renders built.records cards) ∧
        ∀ spare, Header.blockBytes ((built.records.map recordCards).sum + spare + 1) ≤ isizeMax →
          ∃ out, built.renderInto .unsigned (.spare spare) = .ok out := by
  have hdoes := edit.inPlace_does header
  refine ⟨fun fault left hrun => ?_, fun left hrun => ?_, fun edits hchecks => ?_⟩
  · rw [hdoes] at hrun
    cases happly : edit.apply header with
    | ok next =>
      rw [happly] at hrun
      cases hrun
    | error own =>
      rw [happly] at hrun
      obtain ⟨hfault, hleft⟩ := Prod.mk.inj hrun
      obtain rfl := Except.error.inj hfault
      exact ⟨hleft.symm, (edit.noPanic_apply header).exists_err happly⟩
  · rw [hdoes] at hrun
    cases happly : edit.apply header with
    | error own =>
      rw [happly] at hrun
      cases hrun
    | ok next =>
      rw [happly] at hrun
      refine ⟨next, (congrArg Prod.snd hrun).symm, rfl, fun hsingle => edit.made hsingle happly, ?_⟩
      rintro named rfl
      obtain ⟨name, hname, happly⟩ := Loops.ok_of_bind happly
      obtain ⟨_, -, happly⟩ := Loops.ok_of_bind happly
      obtain rfl := Except.ok.inj happly
      obtain ⟨hrecords, hrepairs⟩ := header.records_retain fun record => !record.isNamed name
      exact ⟨name, hname, hrecords, hrepairs⟩
  · obtain ⟨built, hbuilt⟩ := Header.run_ok Header.new edits
    have hchecked : built.Checked :=
      Header.Checked.run (fun _ hrecord => absurd hrecord List.not_mem_nil) hchecks hbuilt
    exact ⟨built, HeaderState.run_eq hbuilt, hchecked, hchecked.renders⟩

end Runs

/-- A comment that no record takes leaves the header of no records. -/
theorem header_edits_are_atomic_comment : ∃ fault left,
    (Edit.setComment (.text (ascii "GAIN")) (ascii "e") : Edit ℤ).inPlace.run
      (Header.new : Header ℤ).state = (.error fault, left) ∧
      left = (Header.new : Header ℤ).state ∧ ∃ error, fault = .err error := by
  have hrun : ∃ fault left, (Edit.setComment (.text (ascii "GAIN")) (ascii "e") : Edit ℤ).inPlace.run
      (Header.new : Header ℤ).state = (.error fault, left) := ⟨_, _, rfl⟩
  obtain ⟨fault, left, hrun⟩ := hrun
  exact ⟨fault, left, hrun, (header_edits_are_atomic Header.new _).1 fault left hrun⟩

/-- Two records of one name, both of which a value that is none takes out. -/
theorem set_optional_removes_every_record : ∃ header next : Header ℤ,
    Header.new.run [.append (.text (ascii "GAIN")) (.logical true),
      .append (.text (ascii "GAIN")) (.logical false)] = .ok header ∧
    (Edit.setOptional (.text (ascii "GAIN")) none).inPlace.run header.state =
      (.ok (), next.state) ∧
    ∀ change : RecordChange ℤ, next.records ≠ change.apply header.records := by
  obtain ⟨header, hheader⟩ := Header.run_ok (Header.new : Header ℤ)
    [.append (.text (ascii "GAIN")) (.logical true), .append (.text (ascii "GAIN")) (.logical false)]
  obtain ⟨next, hnext⟩ : ∃ next, (Edit.setOptional (.text (ascii "GAIN")) none).apply header =
      .ok next := ⟨_, rfl⟩
  have hlengths : ((Header.new : Header ℤ).run [.append (.text (ascii "GAIN")) (.logical true),
      .append (.text (ascii "GAIN")) (.logical false)] >>= fun header => do
      let next ← (Edit.setOptional (.text (ascii "GAIN")) none).apply header
      .ok (header.records.length, next.records.length)) = .ok (2, 0) := by decide +kernel
  rw [Loops.bind_ok hheader, Loops.bind_ok hnext] at hlengths
  obtain ⟨hbefore, hafter⟩ := Prod.mk.inj (Except.ok.inj hlengths)
  refine ⟨header, next, hheader, ?_, fun change hchange => ?_⟩
  · rw [Edit.inPlace_does header _, hnext]
    rfl
  · have hlength := change.length_le_apply header.records
    rw [← hchange, hafter, hbefore] at hlength
    omega

end FitsWell
