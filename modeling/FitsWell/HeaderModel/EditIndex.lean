import FitsWell.HeaderModel.Edits
import FitsWell.HeaderModel.ParseTotal
import FitsWell.HeaderModel.RecordCards

/-!
# The index under edits

A lookup by the header's index finds the first record of a name, before and after every
edit, and no edit reaches a branch that the index rules out.
-/

namespace FitsWell

open PlaceIndex

variable {R : Type}

/-! ## Lookups -/

/-- Whether a record is one that a lookup of a value finds under a name. -/
def Record.carries (record : Record R) : RecordName → Bool
  | .keyword keyword => decide (record.keyword = some keyword)
  | .hierarch name => decide (record.hierarchKey = some name.key)
  | .commentary _ => false

theorem Record.isNamed_of_carries {record : Record R} {name : RecordName}
    (h : record.carries name = true) : record.isNamed name = true := by
  cases name with
  | keyword keyword =>
    rw [carries, decide_eq_true_iff] at h
    rw [isNamed, h, beq_self_eq_true, Bool.true_or]
  | hierarch name =>
    rw [carries, decide_eq_true_iff] at h
    rw [isNamed, h, beq_self_eq_true]
  | commentary name => cases h

namespace Header

/-- The indexes of a header find the first record of a name, and so does each lookup. -/
structure IndexRight (header : Header R) : Prop where
  keyword : ∀ keyword i, header.index keyword = some i ↔
    (∃ record, header.records[i]? = some record ∧ record.keyword = some keyword) ∧
      ∀ j < i, ∀ record, header.records[j]? = some record → record.keyword ≠ some keyword
  noKeyword : ∀ keyword, header.index keyword = none ↔
    ∀ record ∈ header.records, record.keyword ≠ some keyword
  hierarch : ∀ key i, header.hierarchIndex key = some i ↔
    (∃ record, header.records[i]? = some record ∧ record.hierarchKey = some key) ∧
      ∀ j < i, ∀ record, header.records[j]? = some record → record.hierarchKey ≠ some key
  noHierarch : ∀ key, header.hierarchIndex key = none ↔
    ∀ record ∈ header.records, record.hierarchKey ≠ some key
  value : ∀ name, header.value name =
    match header.records.find? (·.carries name) with
    | none => .ok none
    | some record => record.valueOrDefect.map some
  comment : ∀ name, header.getComment name =
    match header.records.find? (·.carries name) with
    | none => .ok none
    | some record => record.valueOrDefect.map fun _ => record.comment
  indexOf : ∀ name, header.indexOf name = .ok (header.records.findIdx? (·.isNamed name))

/-- The place a lookup goes to is that of the first record it is for. -/
theorem first?_eq (header : Header R) (name : RecordName) :
    header.first? name = header.records.findIdx? (·.carries name) := by
  cases name with
  | keyword keyword =>
    rw [first?, header.indexed, firstPlace_eq_findIdx?]
    rfl
  | hierarch name =>
    rw [first?, header.hierarchIndexed, firstPlace_eq_findIdx?]
    rfl
  | commentary name =>
    rw [first?, eq_comm, List.findIdx?_eq_none_iff]
    exact fun _ _ => rfl

/-- A lookup finds no record, or the first one it is for, in its place. -/
theorem first?_cases (header : Header R) (name : RecordName) :
    (header.first? name = none ∧ header.records.find? (·.carries name) = none) ∨
    ∃ i record, header.first? name = some i ∧ header.records[i]? = some record ∧
      record.carries name = true ∧ header.records.find? (·.carries name) = some record := by
  rw [first?_eq]
  cases hplace : header.records.findIdx? (·.carries name) with
  | none =>
    refine Or.inl ⟨rfl, List.find?_eq_none.mpr (fun record hrecord => ?_)⟩
    simp [List.findIdx?_eq_none_iff.mp hplace record hrecord]
  | some i =>
    obtain ⟨hi, hcarries, hbefore⟩ := List.findIdx?_eq_some_iff_getElem.mp hplace
    refine Or.inr ⟨i, header.records[i], rfl, List.getElem?_eq_getElem hi, hcarries, ?_⟩
    rw [List.find?_eq_some_iff_getElem]
    exact ⟨hcarries, i, hi, rfl, fun j hj => by simpa using hbefore j hj⟩

theorem recordAt_eq {header : Header R} {i : ℕ} {record : Record R}
    (h : header.records[i]? = some record) : header.recordAt i = .ok record := by
  rw [recordAt, load, h]

theorem value_eq (header : Header R) (name : RecordName) :
    header.value name =
      match header.records.find? (·.carries name) with
      | none => .ok none
      | some record => record.valueOrDefect.map some := by
  rcases header.first?_cases name with ⟨hfirst, hfind⟩ | ⟨i, record, hfirst, hrecord, -, hfind⟩
  · rw [value, hfirst, hfind]
  · rw [value, hfirst, hfind]
    dsimp only
    rw [recordAt_eq hrecord, Loops.bind_ok rfl]
    cases record.valueOrDefect <;> rfl

theorem getComment_eq (header : Header R) (name : RecordName) :
    header.getComment name =
      match header.records.find? (·.carries name) with
      | none => .ok none
      | some record => record.valueOrDefect.map fun _ => record.comment := by
  rcases header.first?_cases name with ⟨hfirst, hfind⟩ | ⟨i, record, hfirst, hrecord, -, hfind⟩
  · rw [getComment, hfirst, hfind]
  · rw [getComment, hfirst, hfind]
    dsimp only
    rw [recordAt_eq hrecord, Loops.bind_ok rfl]
    cases record.valueOrDefect <;> rfl

/-- The search for a name stops at the record the index has for it, and misses none. -/
theorem indexOf_eq (header : Header R) (name : RecordName) :
    header.indexOf name = .ok (header.records.findIdx? (·.isNamed name)) := by
  rcases header.first?_cases name with ⟨hfirst, -⟩ | ⟨i, record, hfirst, hrecord, hcarries, -⟩
  · rw [indexOf, hfirst]
    dsimp only
    rw [subslice, if_pos (by omega), Loops.bind_ok rfl, List.drop_zero, List.take_length]
  · obtain ⟨hi, rfl⟩ := List.getElem?_eq_some_iff.mp hrecord
    rw [indexOf, hfirst]
    dsimp only
    rw [subslice, if_pos (by rw [Nat.zero_add]; exact hi), Loops.bind_ok rfl, List.drop_zero,
      List.findIdx?_take]
    have hnamed := Record.isNamed_of_carries hcarries
    cases hplace : header.records.findIdx? (·.isNamed name) with
    | none =>
      have hnone := List.findIdx?_eq_none_iff.mp hplace _ (List.getElem_mem hi)
      rw [hnamed] at hnone
      cases hnone
    | some j =>
      obtain ⟨hj, -, hbefore⟩ := List.findIdx?_eq_some_iff_getElem.mp hplace
      have hle : j ≤ i := by
        by_contra hlt
        exact hbefore i (by omega) hnamed
      simp only [Option.bind_some, Option.guard, decide_eq_true (Nat.lt_succ_of_le hle), if_true]

/-- The index a header carries is right. -/
theorem indexRight (header : Header R) : header.IndexRight where
  keyword keyword i := by rw [header.indexed keyword, firstPlace_eq_some_iff]
  noKeyword keyword := by rw [header.indexed keyword, firstPlace_eq_none_iff]
  hierarch key i := by rw [header.hierarchIndexed key, firstPlace_eq_some_iff]
  noHierarch key := by rw [header.hierarchIndexed key, firstPlace_eq_none_iff]
  value := header.value_eq
  comment := header.getComment_eq
  indexOf := header.indexOf_eq

end Header

/-! ## Checks -/

theorem noPanic_validateValuedKeyword (keyword : Keyword) :
    NoPanic (validateValuedKeyword keyword) :=
  NoPanic.ite (fun _ => NoPanic.fail _) (fun _ => NoPanic.ok _)

theorem noPanic_validateAscii (text : Text) (origin : TextOrigin) :
    NoPanic (validateAscii text origin) :=
  NoPanic.ite (fun _ => NoPanic.ok _) (fun _ => NoPanic.fail _)

theorem noPanic_validateComment (name : RecordName) (comment : Option Text) :
    NoPanic (validateComment name comment) := by
  cases comment with
  | none => exact NoPanic.ok _
  | some comment => exact noPanic_validateAscii _ _

theorem RecordName.noPanic_validateValued (name : RecordName) : NoPanic name.validateValued := by
  cases name with
  | keyword keyword => exact noPanic_validateValuedKeyword keyword
  | hierarch name => exact NoPanic.ok _
  | commentary name => exact NoPanic.fail _

theorem noPanic_fromStr (text : Text) : NoPanic (RecordName.fromStr text) := by
  unfold RecordName.fromStr
  split
  · exact NoPanic.ok _
  · exact NoPanic.fail _

theorem Named.noPanic_resolve (named : Named) : NoPanic named.resolve := by
  cases named with
  | name found => exact NoPanic.ok _
  | text spelled => exact noPanic_fromStr spelled

theorem CommentaryNamed.noPanic_resolve (named : CommentaryNamed) : NoPanic named.resolve := by
  cases named with
  | name found => exact NoPanic.ok _
  | text spelled =>
    rw [resolve]
    split
    · exact NoPanic.ok _
    · exact NoPanic.fail _

/-- A record of a keyword or of a hierarchical name has another value or comment, or says
why not. -/
theorem Record.noPanic_withValue {record : Record R} {name : RecordName}
    (h : record.carries name = true) (value : Value R) : NoPanic (record.withValue value) := by
  cases record with
  | valued keyword old comment => exact NoPanic.ok _
  | hierarch own old comment => exact NoPanic.ok _
  | commentary own text =>
    cases name <;> simp [carries, Record.keyword, hierarchKey, hierarchName] at h
  | malformed own raw defect =>
    cases own with
    | none => cases name <;> simp [carries, Record.keyword, hierarchKey, hierarchName] at h
    | some own =>
      cases own with
      | keyword keyword => exact NoPanic.ok _
      | hierarch own => exact NoPanic.ok _
      | commentary own =>
        cases name <;> simp [carries, Record.keyword, hierarchKey, hierarchName] at h

theorem Record.noPanic_withComment {record : Record R} {name : RecordName}
    (h : record.carries name = true) (text : Text) : NoPanic (record.withComment text) := by
  cases record with
  | valued keyword old comment => exact NoPanic.ok _
  | hierarch own old comment => exact NoPanic.ok _
  | commentary own text =>
    cases name <;> simp [carries, Record.keyword, hierarchKey, hierarchName] at h
  | malformed own raw defect => exact NoPanic.fail _

theorem Record.noPanic_ofName (name : RecordName) (value : Value R) :
    NoPanic (Record.ofName name value) := by
  cases name with
  | keyword keyword =>
    exact NoPanic.bind (noPanic_validateValuedKeyword keyword) (fun _ _ => NoPanic.ok _)
  | hierarch name => exact NoPanic.ok _
  | commentary name => exact NoPanic.fail _

section Checks

variable [RealText R]

theorem noPanic_validateValue (name : RecordName) (value : Value R) :
    NoPanic (validateValue name value) := by
  cases value with
  | text text => exact noPanic_validateAscii _ _
  | real real => exact NoPanic.ite (fun _ => NoPanic.ok _) (fun _ => NoPanic.fail _)
  | complexReal re im => exact NoPanic.ite (fun _ => NoPanic.ok _) (fun _ => NoPanic.fail _)
  | logical => exact NoPanic.ok _
  | integer => exact NoPanic.ok _
  | complexInteger => exact NoPanic.ok _
  | undefined => exact NoPanic.ok _

theorem noPanic_validateContents (record : Record R) : NoPanic (validateContents record) := by
  cases record with
  | malformed name raw defect => exact NoPanic.fail _
  | commentary name text => exact noPanic_validateComment _ _
  | valued keyword value comment =>
    exact NoPanic.bind (noPanic_validateValuedKeyword keyword) (fun _ _ =>
      NoPanic.bind (noPanic_validateComment _ _) (fun _ _ => noPanic_validateValue _ _))
  | hierarch name value comment =>
    exact NoPanic.bind (noPanic_validateComment _ _) (fun _ _ => noPanic_validateValue _ _)

theorem noPanic_writeStrAt (buf : RecordBuf) (pos : ℕ) (text : Text) :
    NoPanic (buf.writeStrAt pos text) :=
  NoPanic.ite (fun _ => NoPanic.fail _) (fun _ => NoPanic.ok _)

theorem noPanic_writeComment (buf : RecordBuf) (pos : ℕ) (comment : Option Text) :
    NoPanic (buf.writeComment pos comment) := by
  cases comment with
  | none => exact NoPanic.ok _
  | some comment =>
    exact NoPanic.bind (noPanic_writeStrAt _ _ _) (fun _ _ =>
      NoPanic.bind (noPanic_writeStrAt _ _ _) (fun _ _ => NoPanic.ok _))

/-- A record that is not malformed renders, or says why not. -/
theorem noPanic_renderOne {record : Record R} (h : validateContents record = .ok ()) :
    NoPanic (renderOne record) := by
  cases record with
  | malformed name raw defect => cases h
  | commentary name text =>
    cases text with
    | none => exact NoPanic.ok _
    | some text => exact NoPanic.bind (noPanic_writeStrAt _ _ _) (fun _ _ => NoPanic.ok _)
  | valued keyword value comment =>
    exact NoPanic.bind (noPanic_writeStrAt _ _ _) (fun _ _ =>
      NoPanic.bind (noPanic_writeComment _ _ _) (fun _ _ => NoPanic.ok _))
  | hierarch name value comment =>
    exact NoPanic.bind (noPanic_writeStrAt _ _ _) (fun _ _ =>
      NoPanic.bind (noPanic_writeStrAt _ _ _) (fun _ _ =>
      NoPanic.bind (noPanic_writeStrAt _ _ _) (fun _ _ =>
      NoPanic.bind (noPanic_writeComment _ _ _) (fun _ _ => NoPanic.ok _))))

theorem LongString.noPanic_commentNeedsOwnRecord (chain : LongString) :
    NoPanic chain.commentNeedsOwnRecord := by
  refine NoPanic.ite (fun _ => NoPanic.fail _) (fun _ => ?_)
  cases chain.comment with
  | none => exact NoPanic.ok _
  | some comment =>
    exact NoPanic.ite (fun _ => NoPanic.ok _)
      (fun _ => NoPanic.ite (fun _ => NoPanic.fail _) (fun _ => NoPanic.ok _))

variable [ReadsDecimals R]

/-- The check of a record, commentary read back included. -/
theorem Record.noPanic_validate (record : Record R) : NoPanic record.validate := by
  refine NoPanic.bind (noPanic_validateContents record) (fun _ hcontents => ?_)
  split
  · exact NoPanic.bind (LongString.noPanic_commentNeedsOwnRecord _) (fun _ _ => NoPanic.ok _)
  · refine NoPanic.bind (noPanic_renderOne hcontents) (fun raw hraw => ?_)
    split
    · obtain ⟨parsed, hparsed, -⟩ := ParsedRecord.parse_card (R := R) (renderOne_length hraw)
      exact NoPanic.bind (NoPanic.of_ok hparsed) (fun _ _ =>
        NoPanic.ite (fun _ => NoPanic.ok _) (fun _ => NoPanic.fail _))
    · exact NoPanic.ok _

theorem Record.noPanic_validateInserted (record : Record R) : NoPanic record.validateInserted := by
  cases record with
  | valued keyword value comment =>
    exact NoPanic.bind (noPanic_validateValuedKeyword keyword) (fun _ _ => noPanic_validate _)
  | malformed name raw defect => exact NoPanic.ok _
  | commentary name text => exact noPanic_validate _
  | hierarch name value comment => exact noPanic_validate _

end Checks

/-! ## Edits -/

namespace Header

theorem noPanic_insertAt (header : Header R) {i : ℕ} (hi : i ≤ header.records.length)
    (record : Record R) : NoPanic (header.insertAt i record) := by
  rw [insertAt, dif_pos hi]
  exact NoPanic.ok _

theorem noPanic_removeAt (header : Header R) (i : ℕ) : NoPanic (header.removeAt i) := by
  refine NoPanic.ite (fun _ => NoPanic.fail _) (fun hi => ?_)
  unfold takeAt
  split
  · rename_i hrecord
    exact absurd (List.getElem?_eq_none_iff.mp hrecord) hi
  · exact NoPanic.ok _

theorem noPanic_remove (header : Header R) (name : RecordName) : NoPanic (header.remove name) := by
  refine NoPanic.bind (NoPanic.of_ok (header.indexOf_eq name)) (fun found _ => ?_)
  cases found with
  | none => exact NoPanic.ok _
  | some i => exact NoPanic.bind (header.noPanic_removeAt i) (fun _ _ => NoPanic.ok _)

variable [RealText R] [ReadsDecimals R]

/-- The record the index has for a name takes another value, or says why not. -/
theorem noPanic_replaceValue (header : Header R) {name : RecordName} {i : ℕ} {record : Record R}
    (hrecord : header.records[i]? = some record) (hcarries : record.carries name = true)
    (value : Value R) : NoPanic (header.replaceValue i value) := by
  unfold replaceValue
  split
  · rename_i hnone
    rw [hrecord] at hnone
    cases hnone
  · rename_i found hfound
    obtain rfl := Option.some.inj (hrecord.symm.trans hfound)
    split
    · rename_i fault hfault
      exact (Record.noPanic_withValue hcarries value).error hfault
    · exact NoPanic.bind (Record.noPanic_validate _) (fun _ _ => NoPanic.ok _)

theorem noPanic_set (header : Header R) (name : RecordName) (value : Value R) :
    NoPanic (header.set name value) := by
  refine NoPanic.bind name.noPanic_validateValued (fun _ _ => ?_)
  rcases header.first?_cases name with ⟨hfirst, -⟩ | ⟨i, record, hfirst, hrecord, hcarries, -⟩
  · rw [hfirst]
    exact NoPanic.bind (Record.noPanic_ofName name value) (fun record _ =>
      NoPanic.bind record.noPanic_validate (fun _ _ => header.noPanic_insertAt le_rfl record))
  · rw [hfirst]
    exact header.noPanic_replaceValue hrecord hcarries value

theorem noPanic_insertRecord (header : Header R) (i : ℕ) (record : Record R) :
    NoPanic (header.insertRecord i record) :=
  NoPanic.ite (fun _ => NoPanic.fail _) (fun hi =>
    NoPanic.bind record.noPanic_validateInserted (fun _ _ =>
      header.noPanic_insertAt (Nat.le_of_not_lt hi) record))

theorem noPanic_insert (header : Header R) (i : ℕ) (name : RecordName) (value : Value R) :
    NoPanic (header.insert i name value) :=
  NoPanic.bind (Record.noPanic_ofName name value) (fun record _ => header.noPanic_insertRecord i record)

theorem noPanic_setComment (header : Header R) (name : RecordName) (text : Text) :
    NoPanic (header.setComment name text) := by
  refine NoPanic.bind name.noPanic_validateValued (fun _ _ => ?_)
  refine NoPanic.bind (noPanic_validateAscii _ _) (fun _ _ => ?_)
  rcases header.first?_cases name with ⟨hfirst, -⟩ | ⟨i, record, hfirst, hrecord, hcarries, -⟩
  · rw [hfirst]
    exact NoPanic.fail _
  · rw [hfirst]
    dsimp only
    split
    · rename_i hnone
      rw [hrecord] at hnone
      cases hnone
    · rename_i found hfound
      obtain rfl := Option.some.inj (hrecord.symm.trans hfound)
      split
      · rename_i fault hfault
        exact (Record.noPanic_withComment hcarries text).error hfault
      · exact NoPanic.bind (Record.noPanic_validate _) (fun _ _ => NoPanic.ok _)

theorem noPanic_setOptional (header : Header R) (name : RecordName) (value : Option (Value R)) :
    NoPanic (header.setOptional name value) := by
  refine NoPanic.bind name.noPanic_validateValued (fun _ _ => ?_)
  cases value with
  | none => exact NoPanic.ok _
  | some value => exact header.noPanic_set name value

end Header

variable [RealText R] [ReadsDecimals R]

/-- No edit of a header panics. -/
theorem Edit.noPanic_apply (header : Header R) (edit : Edit R) : NoPanic (edit.apply header) := by
  cases edit with
  | set named value =>
    exact NoPanic.bind named.noPanic_resolve (fun name _ => header.noPanic_set name value)
  | setOptional named value =>
    exact NoPanic.bind named.noPanic_resolve (fun name _ => header.noPanic_setOptional name value)
  | insert i named value =>
    exact NoPanic.bind named.noPanic_resolve (fun name _ => header.noPanic_insert i name value)
  | append named value =>
    exact NoPanic.bind named.noPanic_resolve (fun name _ => header.noPanic_insert _ name value)
  | insertRecord i record => exact header.noPanic_insertRecord i record
  | remove named =>
    exact NoPanic.bind named.noPanic_resolve (fun name _ =>
      NoPanic.bind (header.noPanic_remove name) (fun _ _ => NoPanic.ok _))
  | removeAt i => exact NoPanic.bind (header.noPanic_removeAt i) (fun _ _ => NoPanic.ok _)
  | removeAll named => exact NoPanic.bind named.noPanic_resolve (fun _ _ => NoPanic.ok _)
  | setComment named text =>
    exact NoPanic.bind named.noPanic_resolve (fun name _ => header.noPanic_setComment name text)
  | pushCommentary named text =>
    exact NoPanic.bind named.noPanic_resolve (fun name _ =>
      NoPanic.bind (Record.noPanic_validate _) (fun _ _ => NoPanic.ok _))
  | appendFilteredFrom source keep => exact NoPanic.ok _
  | removeWhere shouldRemove => exact NoPanic.ok _
  | renameKeywords renames => exact NoPanic.ok _

namespace Header

theorem edited_ok (header : Header R) (edit : Edit R) : ∃ next, header.edited edit = .ok next := by
  rw [edited]
  cases hedit : edit.apply header with
  | ok next => exact ⟨next, rfl⟩
  | error fault =>
    cases fault with
    | err error => exact ⟨header, rfl⟩
    | panic panic => exact absurd hedit (edit.noPanic_apply header panic)

/-- Edits in any order, of any header, run to a header whose index is right: no edit on the
way reaches a branch that its index rules out. -/
theorem run_indexRight (header : Header R) (edits : List (Edit R)) :
    header.IndexRight ∧ ∃ next, header.run edits = .ok next ∧ next.IndexRight := by
  have hrun : ∃ next, header.run edits = .ok next ∧ True :=
    Loops.foldlM_total (P := fun _ _ => True) trivial (fun _ edit _ _ current _ =>
      (edited_ok current edit).imp fun _ hnext => ⟨hnext, trivial⟩)
  obtain ⟨next, hnext, -⟩ := hrun
  exact ⟨header.indexRight, next, hnext, next.indexRight⟩

/-- The empty header, given a value, and of it the first of two records removed. -/
theorem run_indexRight_duplicates : ∃ next : Header ℤ,
    new.run [.append (.text (ascii "GAIN")) (.logical true),
      .append (.text (ascii "GAIN")) (.logical false), .remove (.text (ascii "GAIN"))] = .ok next ∧
    next.IndexRight := (run_indexRight new _).2

end Header

end FitsWell
