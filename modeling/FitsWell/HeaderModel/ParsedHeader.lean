import FitsWell.HeaderModel.HeaderRoundTrip

/-!
# Parsed headers read back

Whatever bytes a header was parsed from, the unit it renders to parses to its records again, where
its strings keep no spaces at their end.
-/

namespace FitsWell

variable {R : Type} [RealText R]

/-! ## Continued strings -/

namespace Header

variable {header folded : Header R} {substring : Text} {comment : Option Text}

omit [RealText R] in
theorem records_of_last {records : List (Record R)} {record : Record R}
    (h : records[records.length - 1]? = some record) : ∃ done, records = done ++ [record] := by
  rw [← List.getLast?_eq_getElem?] at h
  exact List.getLast?_eq_some_iff.mp h

omit [RealText R] in
/-- A continuation lengthens the last record. -/
theorem foldContinuation_some (h : header.foldContinuation substring comment = some folded) :
    ∃ done record longer, header.records = done ++ [record] ∧
      record.continueWith substring comment = some longer ∧ folded.records = done ++ [longer] := by
  unfold foldContinuation at h
  split at h
  · cases h
  · rename_i record hrecord
    obtain ⟨done, hdone⟩ := records_of_last hrecord
    split at h
    · cases h
    · rename_i longer hlonger
      refine ⟨done, record, longer, hdone, hlonger, ?_⟩
      rw [← Option.some.inj h, setAt]
      dsimp only
      rw [hdone, List.length_append, List.length_singleton, Nat.add_sub_cancel,
        List.set_append_right _ _ le_rfl, Nat.sub_self]
      rfl

omit [RealText R] in
/-- Whether a continuation folds depends on the records alone. -/
theorem foldContinuation_none {other : Header R} (hrecords : other.records = header.records)
    (h : header.foldContinuation substring comment = none) :
    other.foldContinuation substring comment = none := by
  cases hother : other.foldContinuation substring comment with
  | none => rfl
  | some folded =>
    obtain ⟨done, record, longer, hdone, hlonger, -⟩ := foldContinuation_some hother
    rw [hrecords] at hdone
    unfold foldContinuation at h
    split at h
    · rename_i hnone
      rw [← List.getLast?_eq_getElem?, hdone, List.getLast?_concat] at hnone
      cases hnone
    · rename_i last hlast
      rw [← List.getLast?_eq_getElem?, hdone, List.getLast?_concat] at hlast
      obtain rfl := Option.some.inj hlast
      split at h
      · rename_i hnone
        cases hlonger.symm.trans hnone
      · cases h

end Header

theorem head_of_trim {first : UInt8} {rest : Text} (h : trim (first :: rest) = first :: rest) :
    isBlank first = false := by
  by_contra hblank
  rw [Bool.not_eq_false] at hblank
  have hlength := congrArg List.length h
  rw [trim, List.dropWhile_cons_of_pos hblank, List.length_cons] at hlength
  have hle := ((List.rdropWhile_prefix isBlank _).sublist.trans
    (List.dropWhile_sublist isBlank (l := rest))).length_le
  omega

theorem last_of_trim {last : UInt8} {front : Text} (h : trim (front ++ [last]) = front ++ [last]) :
    isBlank last = false := by
  have hne : trim (front ++ [last]) ≠ [] := by
    rw [h]
    simp
  have hlast := List.rdropWhile_last_not isBlank _ hne
  have hsame : (trim (front ++ [last])).getLast hne = last := by
    simp only [h, List.getLast_append, List.getLast_singleton]
    simp
  change ¬isBlank ((trim (front ++ [last])).getLast hne) = true at hlast
  rwa [hsame, Bool.not_eq_true] at hlast

/-- The fragments of a comment join to a trimmed comment. -/
theorem trimmed_joinComment {comment fragment : Option Text} (hcomment : TrimmedComment comment)
    (hfragment : TrimmedComment fragment) : TrimmedComment (joinComment comment fragment) := by
  cases fragment with
  | none => exact hcomment
  | some fragment =>
    cases comment with
    | none => exact hfragment
    | some comment =>
      intro text htext
      obtain ⟨hne, htrim⟩ := hcomment comment rfl
      obtain ⟨hfragmentNe, hfragmentTrim⟩ := hfragment fragment rfl
      obtain ⟨first, rest, rfl⟩ := List.exists_cons_of_ne_nil hne
      obtain ⟨front, last, rfl⟩ : ∃ front last, fragment = front ++ [last] := by
        simpa using (List.eq_nil_or_concat fragment).resolve_left hfragmentNe
      have hjoined : text = first :: (rest ++ [space] ++ front) ++ [last] := by
        rw [← Option.some.inj htext]
        simp
      rw [hjoined]
      exact ⟨by simp, trim_eq_self (head_of_trim htrim) (last_of_trim hfragmentTrim)⟩

/-! ## Records of a parse -/

/-- A record as a parse leaves it after others: a value with a trimmed comment, or free text that
reads as it is after them. -/
def Record.Parsed (done : List (Record R)) : Record R → Prop
  | .valued _ _ comment => TrimmedComment comment
  | .hierarch _ _ comment => TrimmedComment comment
  | .commentary name text => (Record.commentary name text : Record R).Returns done
  | .malformed _ _ _ => True

theorem Record.FromField.parsed {record : Record R} (h : record.FromField) (done : List (Record R)) :
    record.Parsed done := by
  cases record with
  | valued keyword value comment => exact And.right h
  | hierarch name value comment => exact And.right h
  | commentary name text => exact h.elim
  | malformed name raw defect => trivial

theorem Record.Parsed.continueWith {record longer : Record R} {done : List (Record R)}
    {substring : Text} {comment : Option Text} (h : record.Parsed done)
    (hcomment : TrimmedComment comment) (hlonger : record.continueWith substring comment = some longer) :
    longer.Parsed done := by
  unfold Record.continueWith at hlonger
  split at hlonger
  · obtain ⟨text, -, rfl⟩ := Option.map_eq_some_iff.mp hlonger
    exact trimmed_joinComment h hcomment
  · obtain ⟨text, -, rfl⟩ := Option.map_eq_some_iff.mp hlonger
    exact trimmed_joinComment h hcomment
  · cases hlonger

namespace Header

omit [RealText R] in
theorem records_pushRecord {header next : Header R} {record : Record R}
    (h : header.pushRecord record = .ok next) : next.records = header.records ++ [record] := by
  rw [pushRecord, insertAt, dif_pos le_rfl] at h
  rw [← Except.ok.inj h]
  dsimp only
  rw [List.take_length, List.drop_length]

/-- A piece that no string awaits stays a record, and reads as one again. -/
theorem returns_continued {raw : Text} {header : Header R} {substring : Text}
    {comment tail : Option Text} (hraw : raw.length = cardSize)
    (hcard : ∀ card, renderRecord (.commentary CommentaryName.CONTINUE tail : Record R) = .ok card →
      card = asciiText raw)
    (hparse : ParsedRecord.parse (asciiText raw) =
      .ok ([], (.continued substring comment tail : ParsedRecord R)))
    (hnone : header.foldContinuation substring comment = none) :
    (Record.commentary CommentaryName.CONTINUE tail : Record R).Returns header.records := by
  intro card hrender
  obtain rfl := hcard card hrender
  refine ⟨[asciiText raw], (List.flatten_singleton).symm, ?_, ?_⟩
  · intro card hmem
    rw [List.mem_singleton.mp hmem]
    exact (length_asciiText raw).trans hraw
  · intro other place others hrecords
    have hkept : (other.addRepairs place []).foldContinuation substring comment = none :=
      foldContinuation_none (hrecords : (other.addRepairs place []).records = header.records) hnone
    obtain ⟨next, hnext⟩ :=
      (other.addRepairs place []).pushRecord_ok (.commentary CommentaryName.CONTINUE tail)
    refine ⟨next, place + 1, ?_, ?_, ?_⟩
    · rw [List.singleton_append, parseCards, hparse, Loops.bind_ok rfl, takeRecord, hkept]
      dsimp only
      rw [hnext, Loops.bind_ok rfl]
    · rw [records_pushRecord hnext]
      exact congrArg (· ++ _) hrecords
    · rw [pushRecord, insertAt, dif_pos le_rfl] at hnext
      rw [← Except.ok.inj hnext]
      exact List.append_nil _

/-- One card keeps the records as a parse leaves them. -/
theorem parsed_takeRecord {raw : Text} {repairs : List RepairKind} {parsed : ParsedRecord R}
    {header next : Header R} (hraw : raw.length = cardSize)
    (hparse : ParsedRecord.parse raw = .ok (repairs, parsed))
    (hrecords : InTurn Record.Parsed header.records) (h : header.takeRecord parsed = .ok next) :
    InTurn Record.Parsed next.records := by
  have hpush : ∀ {record : Record R}, record.Parsed header.records →
      header.pushRecord record = .ok next → InTurn Record.Parsed next.records := by
    intro record hrecord hnext
    rw [records_pushRecord hnext]
    exact inTurn_concat_iff.mpr ⟨hrecords, hrecord⟩
  rcases parsed_cases hraw hparse with rfl | ⟨record, rfl, hfield⟩ | ⟨name, hname, hfree, hagain⟩
  · rw [← Except.ok.inj h]
    exact hrecords.of_prefix (List.rdropWhile_prefix _ _)
  · exact hpush (hfield.parsed _) h
  · have hcard := fun card => render_commentary (R := R) hraw card hname
    cases parsed with
    | ended => exact hfree.elim
    | record record =>
      obtain rfl : record = .commentary name _ := hfree
      have hparsed : (Record.commentary name (freeText ((asciiText raw).drop 8)) : Record R).Parsed
          header.records := by
        intro card hrender
        obtain rfl := hcard card hrender
        exact ⟨[asciiText raw], (List.flatten_singleton).symm,
          Record.readsAfter_of_parse ((length_asciiText raw).trans hraw) hagain _⟩
      exact hpush hparsed h
    | continued substring comment tail =>
      obtain ⟨rfl, rfl, hcomment⟩ := hfree
      rw [takeRecord] at h
      cases hfold : header.foldContinuation substring comment with
      | some folded =>
        rw [hfold] at h
        obtain rfl := Except.ok.inj h
        obtain ⟨done, record, longer, hdone, hlonger, hfolded⟩ := foldContinuation_some hfold
        rw [hdone, inTurn_concat_iff] at hrecords
        rw [hfolded]
        exact inTurn_concat_iff.mpr ⟨hrecords.1, hrecords.2.continueWith hcomment hlonger⟩
      | none =>
        rw [hfold] at h
        have hparsed : (Record.commentary CommentaryName.CONTINUE
            (freeText ((asciiText raw).drop 8)) : Record R).Parsed header.records :=
          returns_continued hraw hcard hagain hfold
        exact hpush hparsed h

theorem parsed_parseCards {cards : List Text} (hcards : ∀ card ∈ cards, card.length = cardSize)
    {header result : Header R} {place : ℕ} (hrecords : InTurn Record.Parsed header.records)
    (h : header.parseCards place cards = .ok result) : InTurn Record.Parsed result.records := by
  induction cards generalizing header place with
  | nil => cases h
  | cons card cards ih =>
    obtain ⟨⟨repairs, parsed⟩, hparse, h⟩ := Loops.ok_of_bind h
    obtain ⟨next, hnext, h⟩ := Loops.ok_of_bind h
    have hkept := parsed_takeRecord (hcards card List.mem_cons_self) hparse (by exact hrecords) hnext
    dsimp only at h
    split at h
    · rwa [← Except.ok.inj h]
    · exact ih (fun other hmem => hcards other (List.mem_cons_of_mem card hmem)) hkept h

/-- No blank record is last in a parsed header. -/
theorem rdropWhile_parseCards {cards : List Text} {header result : Header R} {place : ℕ}
    (h : header.parseCards place cards = .ok result) :
    result.records.rdropWhile isBlankRecord = result.records := by
  induction cards generalizing header place with
  | nil => cases h
  | cons card cards ih =>
    obtain ⟨⟨repairs, parsed⟩, -, h⟩ := Loops.ok_of_bind h
    obtain ⟨next, hnext, h⟩ := Loops.ok_of_bind h
    dsimp only at h hnext
    split at h
    · rw [← Except.ok.inj h, ← Except.ok.inj hnext]
      exact List.rdropWhile_idempotent isBlankRecord _
    · exact ih h

end Header

/-! ## The round trip -/

/-- A value that keeps no space at the end of its text. -/
def Record.Significant : Record R → Prop
  | .valued _ value _ => value.Canonical
  | .hierarch _ value _ => value.Canonical
  | _ => True

variable [RealsReadBack R]

theorem Record.Parsed.returns {record : Record R} {done : List (Record R)} (h : record.Parsed done)
    (hsignificant : record.Significant) : record.Returns done := by
  cases record with
  | valued keyword value comment =>
    have hcanonical : (Record.valued keyword value comment).Canonical := ⟨hsignificant, h⟩
    exact hcanonical.returns done
  | hierarch name value comment =>
    have hcanonical : (Record.hierarch name value comment).Canonical := ⟨hsignificant, h⟩
    exact hcanonical.returns done
  | commentary name text => exact h
  | malformed name raw defect =>
    intro card hcard
    cases hcard

namespace Header

/-- A header that was parsed from any bytes parses again from the unit it renders to. -/
theorem parsed_header_reads_back {bytes out : Text} {header : Header R} {space : Space}
    (hparse : parse bytes = .ok header) (hsignificant : ∀ record ∈ header.records, record.Significant)
    (h : header.renderInto .unsigned space = .ok out) :
    parse out = .ok (ofRecords header.records) := by
  have hparsed : InTurn Record.Parsed header.records :=
    parsed_parseCards (fun _ => length_card) inTurn_nil hparse
  have hreturns := hparsed.imp fun done record hmem hrecord =>
    hrecord.returns (hsignificant record hmem)
  rw [parse_of_returns hreturns h, rdropWhile_parseCards hparse]

/-- Records in free format, a string on two of them, and a piece that no string awaits. -/
def freeUnit : Text :=
  padTo cardSize (ascii "SIMPLE  =T/one") ++ padTo cardSize (ascii "EXTNAME = 'ab&'") ++
    padTo cardSize (ascii "CONTINUE  'cd' / two") ++ padTo cardSize (ascii "CONTINUE  'ef'") ++ endCard

def freeRecords : List (Record ℤ) :=
  [.valued Keyword.SIMPLE (.logical true) (some (ascii "one")),
    .valued Keyword.EXTNAME (.text (ascii "abcd")) (some (ascii "two")),
    .commentary CommentaryName.CONTINUE (some (ascii "  'ef'"))]

theorem parsed_header_reads_back_free : ∃ (header : Header ℤ) (out : Text),
    parse freeUnit = .ok header ∧ header.renderInto .unsigned (.spare 2) = .ok out ∧
      parse out = .ok (ofRecords freeRecords) := by
  have hrecords : (parse freeUnit : Outcome (Header ℤ)).map Header.records = .ok freeRecords := by
    decide +kernel
  cases hparse : (parse freeUnit : Outcome (Header ℤ)) with
  | error fault =>
    rw [hparse] at hrecords
    cases hrecords
  | ok header =>
    rw [hparse] at hrecords
    have hrecords : header.records = freeRecords := Except.ok.inj hrecords
    have hcards : ∀ record ∈ header.records, (renderRecord record).toOption.isSome = true := by
      rw [hrecords]
      decide +kernel
    obtain ⟨cards, hrenders⟩ := exists_renders.mpr fun record hmem => by
      have hsome := hcards record hmem
      cases hcard : renderRecord record with
      | error fault =>
        rw [hcard] at hsome
        cases hsome
      | ok card => exact ⟨card, rfl⟩
    have hfits : blockBytes ((header.records.map recordCards).sum + 2 + 1) ≤ isizeMax := by
      rw [hrecords]
      decide +kernel
    have hrender : header.renderInto .unsigned (.spare 2) = .ok _ :=
      renderInto_unsigned_iff.mpr
        ⟨cards, hrenders, (layOut_spare_iff (length_renders hrenders)).mpr ⟨hfits, rfl⟩⟩
    have hsignificant : ∀ record ∈ header.records, record.Significant := by
      rw [hrecords]
      intro record hmem
      simp only [freeRecords, List.mem_cons, List.not_mem_nil, or_false] at hmem
      rcases hmem with rfl | rfl | rfl
      · trivial
      · exact (by decide : dropInsignificant (ascii "abcd") = ascii "abcd")
      · trivial
    exact ⟨header, _, rfl, hrender, hrecords ▸ parsed_header_reads_back hparse hsignificant hrender⟩

end Header

end FitsWell
