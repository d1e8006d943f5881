import FitsWell.HeaderModel.ChainCards
import FitsWell.HeaderModel.LinesRead
import FitsWell.HeaderModel.RecordCards

/-!
# Records read back

A record with a value, of a keyword or of a hierarchical name, reads back from the records it
renders to, however many a long string takes.
-/

namespace FitsWell

variable {R : Type} [RealText R]

/-! ## Leads -/

/-- The record of a name with a value. -/
def Lead.record (lead : Lead) (value : Value R) (comment : Option Text) : Record R :=
  match lead with
  | .keyword keyword => .valued keyword value comment
  | .hierarch name => .hierarch name value comment
  | .commentary name => .commentary name none

/-- A name that a record with a value may have. -/
def Lead.Valued (lead : Lead) : Prop := RecordName.validateValued lead = .ok ()

/-- The text of a record before its value: its name, its `=`, and spaces. -/
def Lead.Opens (lead : Lead) (text : Text) : Prop :=
  match lead with
  | .keyword keyword => ∃ m, text = keywordLead keyword ++ [space] ++ spaces m
  | .hierarch name =>
    ∃ j m, text = ascii "HIERARCH " ++ (name.asStr ++ spaces j) ++ equals :: spaces m
  | .commentary _ => False

/-- A record's line parses to the record it was written from. -/
theorem parse_leadLine {lead : Lead} {text token : Text} {value : Value R} {comment : Option Text}
    {n : ℕ} (hlead : lead.Valued) (hopens : lead.Opens text)
    (hraw : AsciiCard (text ++ token ++ commentText comment ++ spaces n)) (htoken : FieldToken token)
    (hvalue : parseValue token = .ok (some value)) (hcomment : TrimmedComment comment) :
    ParsedRecord.parse (text ++ token ++ commentText comment ++ spaces n) =
      .ok ([], .record (lead.record value comment)) := by
  have hfield : ∀ {front : Text} {m : ℕ}, text = front ++ spaces m →
      ValueField (spaces m ++ token ++ commentText comment ++ spaces n) value comment := by
    intro front m hfront
    refine valueField_of_token rfl (all_of_sublist hraw.ascii ?_) htoken hvalue hcomment
    rw [hfront]
    simp only [List.append_assoc]
    exact List.sublist_append_right _ _
  cases lead with
  | keyword keyword =>
    obtain ⟨m, hm⟩ := hopens
    refine parse_keywordLine hraw hlead ?_ (hfield hm)
    rw [hm]
    simp only [List.append_assoc]
  | hierarch name =>
    obtain ⟨j, m, hm⟩ := hopens
    have hm' : text = (ascii "HIERARCH " ++ (name.asStr ++ spaces j) ++ [equals]) ++ spaces m := by
      rw [hm, List.append_assoc _ [equals]]
      rfl
    refine parse_hierarchLine (n := j) hraw ?_ (hfield hm')
    rw [hm]
    simp only [List.append_assoc, List.cons_append]
  | commentary name => cases hopens

theorem isAscii_keywordLead (keyword : Keyword) : (keywordLead keyword).all isAscii = true := by
  rw [List.all_eq_true]
  intro byte hbyte
  rcases List.mem_append.mp hbyte with hname | hequals
  · rcases List.mem_append.mp hname with hmem | hspace
    · exact isAscii_of_isPrintable (keyword.bytes byte hmem).1
    · rw [List.eq_of_mem_replicate hspace]
      rfl
  · rw [List.mem_singleton.mp hequals]
    rfl

theorem isAscii_spaces (n : ℕ) : (spaces n).all isAscii = true := by
  rw [List.all_eq_true]
  intro byte hbyte
  rw [List.eq_of_mem_replicate hbyte]
  rfl

theorem HierarchName.isAscii_asStr (name : HierarchName) : name.asStr.all isAscii = true := by
  have hjoined : ∀ tokens : List Text, (∀ token ∈ tokens, token.all isAscii = true) →
      ([space].intercalate tokens).all isAscii = true := by
    intro tokens
    induction tokens with
    | nil => exact fun _ => rfl
    | cons token tokens ih =>
      intro hall
      cases tokens with
      | nil =>
        rw [List.intercalate_singleton]
        exact hall token List.mem_cons_self
      | cons next tokens =>
        rw [List.intercalate_cons_cons, List.all_append, List.all_append,
          hall token List.mem_cons_self, ih (fun t ht => hall t (List.mem_cons_of_mem _ ht))]
        rfl
  refine hjoined name.tokens (fun token htoken => List.all_eq_true.mpr (fun byte hbyte => ?_))
  have hgraphic := (name.bytes token htoken byte hbyte).1
  rw [isAsciiGraphic, Bool.and_eq_true, decide_eq_true_iff, decide_eq_true_iff,
    UInt8.le_iff_toNat_le, UInt8.le_iff_toNat_le] at hgraphic
  rw [isAscii, decide_eq_true_iff, UInt8.lt_iff_toNat_lt]
  have hhigh : (0x7e : UInt8).toNat = 126 := rfl
  have hlimit : (0x80 : UInt8).toNat = 128 := rfl
  omega

theorem Lead.Opens.ascii {lead : Lead} {text : Text} (h : lead.Opens text) :
    text.all isAscii = true := by
  cases lead with
  | keyword keyword =>
    obtain ⟨m, rfl⟩ := h
    rw [List.all_append, List.all_append, isAscii_keywordLead, isAscii_spaces]
    rfl
  | hierarch name =>
    obtain ⟨j, m, rfl⟩ := h
    rw [List.all_append, List.all_append, List.all_append, List.all_cons, name.isAscii_asStr,
      isAscii_spaces, isAscii_spaces]
    rfl
  | commentary name => cases h

theorem isAscii_commentText {name : RecordName} {comment : Option Text}
    (h : validateComment name comment = .ok ()) : (commentText comment).all isAscii = true := by
  cases comment with
  | none => rfl
  | some text =>
    have hascii := all_isAscii_of_printable (printable_of_validateAscii h)
    rw [commentText, List.all_append, hascii]
    rfl

/-! ## Records in turn -/

namespace Header

theorem cards_cons {card : Text} (h : card.length = cardSize) (rest : Text) :
    cards (card ++ rest) = card :: cards rest := by
  have hone : cards card = [card] := by
    have hpos : cardSize / cardSize = 1 := by decide
    rw [cards, h, hpos, List.range_one, List.map_singleton, Chunks.chunk, Nat.zero_mul, List.drop_zero,
      ← h, List.take_length]
  rw [cards_append (n := 1) (by rw [h, Nat.one_mul]), hone]
  rfl

theorem cards_flatten {list : List Text} (h : ∀ card ∈ list, card.length = cardSize) (rest : Text) :
    cards (list.flatten ++ rest) = list ++ cards rest := by
  induction list with
  | nil => rfl
  | cons card list ih =>
    rw [List.flatten_cons, List.append_assoc, cards_cons (h card List.mem_cons_self),
      ih (fun other hmem => h other (List.mem_cons_of_mem card hmem))]
    rfl

theorem parseCards_record {record : Record R} {card : Text} (header : Header R) (place : ℕ)
    (cards : List Text) (h : ParsedRecord.parse card = .ok ([], .record record)) :
    ∃ next : Header R, header.parseCards place (card :: cards) = next.parseCards (place + 1) cards ∧
      next.records = header.records ++ [record] ∧ next.repairs = header.repairs := by
  obtain ⟨next, hnext⟩ := (header.addRepairs place []).pushRecord_ok record
  refine ⟨next, ?_, ?_, ?_⟩
  · rw [parseCards, h, Loops.bind_ok rfl, takeRecord, hnext, Loops.bind_ok rfl]
  · rw [pushRecord, insertAt, dif_pos le_rfl] at hnext
    rw [← Except.ok.inj hnext]
    dsimp only
    rw [List.take_length, List.drop_length]
    rfl
  · rw [pushRecord, insertAt, dif_pos le_rfl] at hnext
    rw [← Except.ok.inj hnext]
    exact List.append_nil _

theorem parseCards_continued {header : Header R} {card : Text} {done : List (Record R)}
    {record longer : Record R} {substring : Text} {comment tail : Option Text} (place : ℕ)
    (cards : List Text) (hrecords : header.records = done ++ [record])
    (hlonger : record.continueWith substring comment = some longer)
    (h : ParsedRecord.parse card = .ok ([], (.continued substring comment tail : ParsedRecord R))) :
    ∃ next : Header R, header.parseCards place (card :: cards) = next.parseCards (place + 1) cards ∧
      next.records = done ++ [longer] ∧ next.repairs = header.repairs := by
  have hlast : (header.addRepairs place []).records = done ++ [record] := hrecords
  have hplace : (header.addRepairs place []).records[
      (header.addRepairs place []).records.length - 1]? = some record := by
    rw [hlast, ← List.getLast?_eq_getElem?, List.getLast?_concat]
  obtain ⟨next, hfold, hnext, hrepairs⟩ : ∃ next : Header R,
      (header.addRepairs place []).foldContinuation substring comment = some next ∧
        next.records = done ++ [longer] ∧ next.repairs = (header.addRepairs place []).repairs := by
    unfold foldContinuation
    split
    · rename_i hnone
      cases hplace.symm.trans hnone
    · rename_i found hfound
      have hsame : found = record := Option.some.inj (hfound.symm.trans hplace)
      split
      · rename_i hnone
        rw [hsame, hlonger] at hnone
        cases hnone
      · rename_i other hother
        rw [hsame, hlonger] at hother
        refine ⟨_, rfl, ?_, rfl⟩
        rw [setAt]
        dsimp only
        rw [hlast, Option.some.inj hother, List.length_append, List.length_singleton,
          Nat.add_sub_cancel, List.set_append_right _ _ le_rfl, Nat.sub_self]
        rfl
  refine ⟨next, ?_, hnext, hrepairs.trans (List.append_nil _)⟩
  rw [parseCards, h, Loops.bind_ok rfl, takeRecord, hfold]
  rfl

/-- The record that ends a header. -/
def endCard : Text := padTo cardSize (ascii "END")

theorem parseCards_end (header : Header R) (place : ℕ) (cards : List Text) :
    ∃ next : Header R, header.parseCards place (endCard :: cards) = .ok next ∧
      next.records = header.records.rdropWhile isBlankRecord ∧ next.repairs = header.repairs := by
  have hparse : (ParsedRecord.parse endCard : Outcome (Parsed R)) = .ok ([], .ended) := rfl
  refine ⟨(header.addRepairs place []).dropBlanks, ?_, rfl, List.append_nil _⟩
  rw [parseCards, hparse]
  rfl

end Header

/-! ## Long strings -/

namespace LongString

/-- A piece as its record holds it, with an `&` where more follows. -/
def marked (last : Bool) (piece : Text) : Text := piece ++ if last then [] else [ampersand]

theorem quoted_eq (piece : Text) (last : Bool) :
    quoted piece last = [quote] ++ escaped (marked last piece) ++ [quote] := by
  rw [marked, escaped_append, quoted]
  cases last with
  | true => rw [if_pos rfl, if_pos rfl]; simp [escaped]
  | false =>
    have hmark : escaped [ampersand] = [ampersand] := rfl
    rw [if_neg Bool.false_ne_true, if_neg Bool.false_ne_true, hmark]
    simp only [List.append_assoc, List.cons_append, List.nil_append]

theorem dropInsignificant_marked (piece : Text) :
    dropInsignificant (marked false piece) = piece ++ [ampersand] :=
  dropInsignificant_of_getLast? (by
    rw [marked, if_neg Bool.false_ne_true, List.getLast?_concat]
    decide)

variable {chain : LongString} {name : RecordName}

/-- The record of a piece: its lead, its quoted text, its comment and the spaces after them. -/
theorem pieceLine_eq {first last : Bool} {piece : Text} {comment : Option Text}
    (hcomment : comment = if last then chain.comment else none) : ∃ n,
      padTo cardSize (chain.pieceLine first last piece) = leadText chain.lead first ++
        ([quote] ++ escaped (marked last piece) ++ [quote]) ++ commentText comment ++ spaces n := by
  rw [padTo, pieceLine, ← quoted_eq, hcomment]
  exact ⟨_, rfl⟩

/-- The first record of a chain opens as its lead does. -/
theorem opens_leadText {lead : Lead} (h : lead.Valued) : lead.Opens (leadText lead true) := by
  cases lead with
  | keyword keyword =>
    refine ⟨0, ?_⟩
    rw [leadText, if_pos rfl, padTo, length_keywordLead]
    exact (List.append_nil _).symm
  | hierarch name =>
    refine ⟨1, 1, ?_⟩
    have hindicator : ascii " = " = spaces 1 ++ equals :: spaces 1 := by decide
    rw [leadText, if_pos rfl, hindicator]
    simp only [List.append_assoc]
  | commentary name => cases h

/-- The comment of a piece's record: that of the chain on the last. -/
theorem trimmed_comment {last : Bool} (h : TrimmedComment chain.comment) :
    TrimmedComment (if last then chain.comment else none) := by
  cases last with
  | true => exact h
  | false =>
    intro text hnone
    cases hnone

section Chain

variable (hcomment : TrimmedComment chain.comment)
  (hcommentAscii : validateComment name chain.comment = .ok ())
include hcomment hcommentAscii

omit hcomment in
theorem asciiCard_piece {first last : Bool} {piece : Text} (hpiece : piece.all isAscii = true)
    (hfits : (chain.pieceLine first last piece).length ≤ cardSize)
    (hopens : (leadText chain.lead first).all isAscii = true) :
    AsciiCard (padTo cardSize (chain.pieceLine first last piece)) := by
  refine ⟨padTo_length hfits, ?_⟩
  obtain ⟨n, hline⟩ := @pieceLine_eq chain first last piece _ rfl
  have hmarked : (marked last piece).all isAscii = true := by
    rw [marked, List.all_append, hpiece]
    cases last <;> rfl
  have hcommentText : (commentText (if last then chain.comment else none)).all isAscii = true := by
    cases last with
    | true => exact isAscii_commentText hcommentAscii
    | false => rfl
  rw [hline, List.all_append, List.all_append, List.all_append, hopens, (fieldToken_quoted hmarked).ascii,
    hcommentText, isAscii_spaces]
  rfl

/-- A piece after the first reads back. -/
theorem parse_piece {last : Bool} {piece : Text} (hpiece : piece.all isAscii = true)
    (hfits : (chain.pieceLine false last piece).length ≤ cardSize) :
    ∃ tail, (ParsedRecord.parse (padTo cardSize (chain.pieceLine false last piece)) :
      Outcome (Parsed R)) = .ok ([], .continued (dropInsignificant (marked last piece))
        (if last then chain.comment else none) tail) := by
  have hlead : leadText chain.lead false = ascii "CONTINUE  " := by
    change padTo 10 CommentaryName.CONTINUE.name = _
    decide
  have hraw := asciiCard_piece hcommentAscii hpiece hfits (by rw [hlead]; decide)
  obtain ⟨n, hline⟩ := @pieceLine_eq chain false last piece _ rfl
  have hmarked : (marked last piece).all isAscii = true := by
    rw [marked, List.all_append, hpiece]
    cases last <;> rfl
  have htoken := fieldToken_quoted hmarked
  rw [hlead, List.append_assoc, List.append_assoc] at hline
  refine parse_continueLine hraw hline (splitValueComment_bounded (m := 0) (n := n) ?_
    htoken.slashFree htoken.trim_eq (trimmed_comment hcomment) ?_)
  · simp only [spaces, List.replicate_zero, List.nil_append, List.append_assoc]
  · rw [hline] at hraw
    exact all_of_sublist hraw.ascii (List.sublist_append_right _ _)

/-- The pieces after the first fold into the record of the first. -/
theorem parse_pieces {rest : List Text} (hne : rest ≠ [])
    (hascii : ∀ piece ∈ rest, piece.all isAscii = true) (hfits : chain.Fits false rest)
    {header : Header R} {done : List (Record R)} {front : Text} (hlead : chain.lead.Valued)
    (hheader : header.records = done ++ [chain.lead.record (.text (front ++ [ampersand])) none])
    (place : ℕ) (others : List Text) : ∃ (next : Header R) (place' : ℕ),
      header.parseCards place (chain.cardsOf false rest ++ others) = next.parseCards place' others ∧
      next.records = done ++ [chain.lead.record
        (.text (front ++ rest.dropLast.flatten ++ dropInsignificant (rest.getLastD []))) chain.comment] ∧
      next.repairs = header.repairs := by
  have hjoin : ∀ {text substring : Text} {comment : Option Text},
      (chain.lead.record (.text (text ++ [ampersand])) none : Record R).continueWith substring comment =
        some (chain.lead.record (.text (text ++ substring)) comment) := by
    intro text substring comment
    have htext : continueText (text ++ [ampersand]) substring = some (text ++ substring) := by
      rw [continueText, if_pos List.getLast?_concat, List.dropLast_concat]
    have hcommented : joinComment none comment = comment := by cases comment <;> rfl
    cases hlead' : chain.lead with
    | keyword keyword =>
      rw [Lead.record, Record.continueWith, htext, hcommented]
      rfl
    | hierarch name =>
      rw [Lead.record, Record.continueWith, htext, hcommented]
      rfl
    | commentary name =>
      rw [hlead'] at hlead
      cases hlead
  induction rest generalizing header place front with
  | nil => exact absurd rfl hne
  | cons piece rest ih =>
    obtain ⟨tail, hparse⟩ := parse_piece (R := R) hcomment hcommentAscii
      (hascii piece List.mem_cons_self) hfits.1
    obtain ⟨next, hnext, hrecords, hrepairs⟩ := 
      Header.parseCards_continued place (chain.cardsOf false rest ++ others) hheader hjoin hparse
    cases rest with
    | nil =>
      refine ⟨next, place + 1, hnext, ?_, hrepairs⟩
      rw [hrecords]
      simp [marked]
    | cons second rest =>
      have hmarked : dropInsignificant (marked (second :: rest).isEmpty piece) =
          piece ++ [ampersand] := dropInsignificant_marked piece
      rw [hmarked, ← List.append_assoc] at hrecords
      obtain ⟨last, place', hlast, hlastRecords, hlastRepairs⟩ := ih (List.cons_ne_nil _ _)
        (fun other hmem => hascii other (List.mem_cons_of_mem piece hmem)) hfits.2
        hrecords (place + 1)
      refine ⟨last, place', hnext.trans hlast, ?_, hlastRepairs.trans hrepairs⟩
      rw [hlastRecords]
      simp

end Chain

end LongString

/-! ## Records -/

/-- The end of text whose trailing spaces are significant is such text. -/
theorem dropInsignificant_suffix {text front last : Text} (h : dropInsignificant text = text)
    (htext : text = front ++ last) : dropInsignificant last = last := by
  by_cases hspace : last.getLast? = some space
  · obtain ⟨middle, rfl⟩ := List.getLast?_eq_some_iff.mp hspace
    have htrim : (trimEndSpaces text).length < text.length := by
      have hdrop := rdropWhile_spaces (p := (· == space)) (by decide) 1 (front ++ middle)
      have hsplit : text = (front ++ middle) ++ spaces 1 := by
        rw [htext, List.append_assoc]
        rfl
      rw [trimEndSpaces, hsplit, hdrop, List.length_append]
      exact Nat.lt_of_le_of_lt (List.rdropWhile_prefix _ _).length_le (Nat.lt_succ_self _)
    have hone : text = [space] := by
      rw [dropInsignificant] at h
      split at h
      · exact h.symm
      · rw [h] at htrim
        exact absurd htrim (Nat.lt_irrefl _)
    have hlength := congrArg List.length (htext.symm.trans hone)
    simp only [List.length_append, List.length_singleton] at hlength
    obtain rfl := List.length_eq_zero_iff.mp (by omega : middle.length = 0)
    rfl
  · exact dropInsignificant_of_getLast? hspace

/-- The record of a hierarchical name is its line. -/
theorem renderHierarch_line {name : HierarchName} {value : Value R} {comment : Option Text}
    {bytes : Text} (h : renderHierarch name value comment = .ok bytes) : ∃ text n,
      Lead.Opens (.hierarch name) text ∧
        bytes = text ++ writeValue value ++ commentText comment ++ spaces n := by
  obtain ⟨named, hnamed, h⟩ := Loops.ok_of_bind h
  obtain ⟨marked, hmarked, h⟩ := Loops.ok_of_bind h
  obtain ⟨valued, hvalued, h⟩ := Loops.ok_of_bind h
  obtain ⟨record, hrecord, h⟩ := Loops.ok_of_bind h
  obtain ⟨hfits, rfl⟩ := LongString.writeHierarchName.mp ((Loops.bind_ok hnamed).trans hmarked)
  obtain ⟨indicator, hindicator⟩ : ∃ indicator, indicator =
    if Lead.valueStart (.hierarch name) + renderedLen value + commentLen comment ≤ cardSize
    then ascii " = " else ascii "= " := ⟨_, rfl⟩
  rw [← hindicator] at hvalued hfits
  have hlength : (ascii "HIERARCH " ++ name.asStr ++ indicator).length =
      9 + name.asStr.length + indicator.length := by
    rw [List.length_append, List.length_append]
    rfl
  obtain ⟨hfitsValue, rfl⟩ := (writeStrAt_eq_ok_iff hlength.le).mp hvalued
  rw [padTo_of_length hlength] at hrecord
  have hlengthValue : (ascii "HIERARCH " ++ name.asStr ++ indicator ++ writeValue value).length =
      9 + name.asStr.length + indicator.length + (writeValue value).length := by
    rw [List.length_append, hlength]
  obtain ⟨-, rfl⟩ := (writeComment_eq_ok_iff hlengthValue hfitsValue).mp hrecord
  refine ⟨ascii "HIERARCH " ++ name.asStr ++ indicator, _, ?_, (Except.ok.inj h).symm⟩
  have hsplit : ∃ j, indicator = spaces j ++ equals :: spaces 1 := by
    rw [hindicator]
    split
    · exact ⟨1, by decide⟩
    · exact ⟨0, by decide⟩
  obtain ⟨j, hj⟩ := hsplit
  refine ⟨j, 1, ?_⟩
  rw [hj]
  simp only [List.append_assoc]

/-- One record is its line. -/
theorem renderOne_line {lead : Lead} {value : Value R} {comment : Option Text} {bytes : Text}
    (hlead : lead.Valued) (h : renderOne (lead.record value comment) = .ok bytes) : ∃ text n,
      lead.Opens text ∧ bytes = text ++ writeValue value ++ commentText comment ++ spaces n := by
  cases lead with
  | keyword keyword =>
    obtain ⟨-, rfl⟩ := renderOne_valued.mp h
    refine ⟨padTo (valueColumn value) (keywordLead keyword), _, ⟨valueColumn value - 10, ?_⟩, rfl⟩
    have hcolumn := le_valueColumn value
    have hspaces : spaces (valueColumn value - 9) = spaces 1 ++ spaces (valueColumn value - 10) := by
      rw [spaces, spaces, spaces, List.replicate_append_replicate]
      congr 1
      omega
    rw [padTo, length_keywordLead, ← spaces, hspaces, ← List.append_assoc]
    rfl
  | hierarch name => exact renderHierarch_line h
  | commentary name => cases hlead

/-- A valid record has a valid comment and a valid value. -/
theorem contents_of_validateContents {lead : Lead} {value : Value R} {comment : Option Text}
    (hlead : lead.Valued) (h : validateContents (lead.record value comment) = .ok ()) :
    validateComment lead comment = .ok () ∧ validateValue lead value = .ok () := by
  cases lead with
  | keyword keyword =>
    obtain ⟨_, -, h⟩ := Loops.ok_of_bind h
    obtain ⟨_, hcomment, h⟩ := Loops.ok_of_bind h
    exact ⟨hcomment, h⟩
  | hierarch name =>
    obtain ⟨_, hcomment, h⟩ := Loops.ok_of_bind h
    exact ⟨hcomment, h⟩
  | commentary name => cases hlead

omit [RealText R] in
theorem isBlankRecord_record {lead : Lead} (hlead : lead.Valued) (value : Value R)
    (comment : Option Text) : Header.isBlankRecord (lead.record value comment) = false := by
  cases lead with
  | keyword keyword => rfl
  | hierarch name => rfl
  | commentary name => cases hlead

/-- Cards that read as a record, after the records of any header. -/
def Record.ReadsFrom (record : Record R) (cards : List Text) : Prop :=
  ∀ (header : Header R) (place : ℕ) (others : List Text), ∃ (next : Header R) (place' : ℕ),
    header.parseCards place (cards ++ others) = next.parseCards place' others ∧
      next.records = header.records ++ [record] ∧ next.repairs = header.repairs

/-- Cards that read as a record make a header of it with the record that ends it. -/
theorem Record.ReadsFrom.parse {record : Record R} {list : List Text} (h : record.ReadsFrom list)
    (hlengths : ∀ card ∈ list, card.length = cardSize)
    (hblank : Header.isBlankRecord record = false) (after : Text) : ∃ header : Header R,
      Header.parse (list.flatten ++ (Header.endCard ++ after)) = .ok header ∧
      header.records = [record] ∧ header.repairs = [] := by
  rw [Header.parse, Header.cards_flatten hlengths, Header.cards_cons (by decide)]
  obtain ⟨next, place', hnext, hnextRecords, hnextRepairs⟩ :=
    h Header.new 1 (Header.endCard :: Header.cards after)
  obtain ⟨last, hlast, hlastRecords, hlastRepairs⟩ :=
    Header.parseCards_end next place' (Header.cards after)
  refine ⟨last, hnext.trans hlast, ?_, hlastRepairs.trans hnextRepairs⟩
  rw [hlastRecords, hnextRecords]
  exact List.rdropWhile_concat_neg _ [] _ (by rw [hblank]; exact Bool.false_ne_true)

section RoundTrip

variable {lead : Lead} {value : Value R} {comment : Option Text} (after : Text)
  (hlead : lead.Valued) (hcomment : TrimmedComment comment)
include hlead hcomment

section One

variable [RealsReadBack R] (hcanonical : value.Canonical) {bytes : Text}
  (hcontents : validateContents (lead.record value comment) = .ok ())
  (h : renderOne (lead.record value comment) = .ok bytes)
include hcanonical hcontents h

theorem one_readsFrom : (lead.record value comment).ReadsFrom [bytes] := by
  obtain ⟨hcommentValid, hvalueValid⟩ := contents_of_validateContents hlead hcontents
  have hlength := renderOne_length h
  obtain ⟨text, n, hopens, hbytes⟩ := renderOne_line hlead h
  have htoken := fieldToken_writeValue hvalueValid
  have hascii : bytes.all isAscii = true := by
    rw [hbytes, List.all_append, List.all_append, List.all_append, hopens.ascii, htoken.ascii,
      isAscii_commentText hcommentValid, isAscii_spaces]
    rfl
  have hraw : AsciiCard bytes := ⟨hlength, hascii⟩
  rw [hbytes] at hraw
  have hparse := parse_leadLine hlead hopens hraw htoken
    (parseValue_writeValue hvalueValid hcanonical) hcomment
  rw [← hbytes] at hparse
  intro header place others
  obtain ⟨next, hnext, hrecords, hrepairs⟩ := Header.parseCards_record header place others hparse
  exact ⟨next, place + 1, hnext, hrecords, hrepairs⟩

theorem one_round_trip :
    ∃ header : Header R, Header.parse (bytes ++ (Header.endCard ++ after)) = .ok header ∧
      header.records = [lead.record value comment] ∧ header.repairs = [] := by
  have hlengths : ∀ card ∈ [bytes], card.length = cardSize := by
    intro card hmem
    rw [List.mem_singleton.mp hmem]
    exact renderOne_length h
  have hround := (one_readsFrom hlead hcomment hcanonical hcontents h).parse hlengths
    (isBlankRecord_record hlead value comment) after
  rwa [List.flatten_singleton] at hround

end One

section Chain

variable (hcanonical : value.Canonical) {text bytes : Text} (hvalue : value = .text text)
  (hcontents : validateContents (lead.record value comment) = .ok ())
  (h : (LongString.mk lead text comment).render = .ok bytes)
include hcanonical hvalue hcontents h

/-- A record that takes a chain reads from its cards. -/
theorem chain_readsFrom : ∃ cards, bytes = cards.flatten ∧
    (∀ card ∈ cards, card.length = cardSize) ∧ (lead.record value comment).ReadsFrom cards := by
  subst hvalue
  obtain ⟨chain, hchain⟩ : ∃ chain : LongString, chain = ⟨lead, text, comment⟩ := ⟨_, rfl⟩
  have hchainLead : chain.lead = lead := by rw [hchain]
  have hchainText : chain.text = text := by rw [hchain]
  have hchainComment : chain.comment = comment := by rw [hchain]
  rw [← hchain] at h
  rw [← hchainLead, ← hchainComment] at hcontents ⊢
  rw [← hchainLead] at hlead
  rw [← hchainComment] at hcomment
  obtain ⟨hcommentValid, hvalueValid⟩ := contents_of_validateContents hlead hcontents
  have hprintable : text.all isAscii = true :=
    all_isAscii_of_printable (printable_of_validateAscii hvalueValid)
  have hcanonical : dropInsignificant text = text := hcanonical
  obtain ⟨own, hown, h⟩ := Loops.ok_of_bind h
  obtain ⟨first, rest, hpieces, hjoin, hfits⟩ := LongString.fits_of_commentNeedsOwnRecord hown
  rw [hpieces, LongString.renderPieces_of_fits hfits] at h
  obtain rfl := Except.ok.inj h
  refine ⟨_, rfl, LongString.length_of_mem_cardsOf hfits, ?_⟩
  rw [hchainText] at hjoin
  have hascii : ∀ piece ∈ first :: rest, piece.all isAscii = true := by
    intro piece hmem
    refine all_of_sublist hprintable (hjoin ▸ ?_)
    rw [← List.flatten_cons]
    exact List.sublist_flatten_of_mem hmem
  have hopens := LongString.opens_leadText hlead
  -- the first record: its lead, its quoted piece, and the comment where it is the only one
  have hparse : ParsedRecord.parse
      (padTo cardSize (chain.pieceLine true rest.isEmpty first)) =
        .ok ([], .record (chain.lead.record (.text (dropInsignificant
          (LongString.marked rest.isEmpty first)))
          (if rest.isEmpty then chain.comment else none) : Record R)) := by
    have hraw := LongString.asciiCard_piece hcommentValid (hascii first List.mem_cons_self)
      hfits.1 hopens.ascii
    obtain ⟨n, hline⟩ := @LongString.pieceLine_eq chain true rest.isEmpty first _ rfl
    have hmarked : (LongString.marked rest.isEmpty first).all isAscii = true := by
      rw [LongString.marked, List.all_append, hascii first List.mem_cons_self]
      cases rest.isEmpty <;> rfl
    rw [hline] at hraw ⊢
    refine parse_leadLine hlead hopens hraw (fieldToken_quoted hmarked) ?_
      (LongString.trimmed_comment hcomment)
    rw [parseValue, if_neg (by simp), if_pos (by simp), parseString_quoted]
    rfl
  intro header place others
  obtain ⟨one, hone, honeRecords, honeRepairs⟩ := Header.parseCards_record header place
    (chain.cardsOf false rest ++ others) hparse
  cases rest with
  | nil =>
    refine ⟨one, place + 1, hone, ?_, honeRepairs⟩
    rw [List.flatten_nil, List.append_nil] at hjoin
    rw [honeRecords, hjoin, List.isEmpty_nil, LongString.marked, if_pos rfl, List.append_nil,
      hcanonical, if_pos rfl]
  | cons second rest =>
    have hmarked : dropInsignificant (LongString.marked (second :: rest).isEmpty first) =
        first ++ [ampersand] := LongString.dropInsignificant_marked first
    rw [hmarked] at honeRecords
    obtain ⟨next, place', hnext, hnextRecords, hnextRepairs⟩ :=
      LongString.parse_pieces hcomment hcommentValid (List.cons_ne_nil _ _)
        (fun piece hmem => hascii piece (List.mem_cons_of_mem first hmem)) hfits.2
        hlead honeRecords (place + 1) others
    refine ⟨next, place', hone.trans hnext, ?_, hnextRepairs.trans honeRepairs⟩
    have hlast : (second :: rest).dropLast.flatten ++ (second :: rest).getLastD [] =
        (second :: rest).flatten := by
      rw [List.getLastD_eq_getLast?, List.getLast?_eq_some_getLast (List.cons_ne_nil _ _),
        Option.getD_some, ← List.flatten_concat, List.dropLast_append_getLast]
    have hwhole : text =
        (first ++ (second :: rest).dropLast.flatten) ++ (second :: rest).getLastD [] := by
      rw [List.append_assoc, hlast, hjoin]
    rw [hnextRecords, dropInsignificant_suffix hcanonical hwhole, ← hwhole]

/-- A record that takes a chain reads back from it. -/
theorem chain_round_trip :
    ∃ header : Header R, Header.parse (bytes ++ (Header.endCard ++ after)) = .ok header ∧
      header.records = [lead.record value comment] ∧ header.repairs = [] := by
  obtain ⟨cards, hbytes, hlengths, hreads⟩ :=
    chain_readsFrom hlead hcomment hcanonical hvalue hcontents h
  rw [hbytes]
  exact hreads.parse hlengths (isBlankRecord_record hlead value comment) after

end Chain

end RoundTrip

omit [RealText R] in
/-- The chain of a record is that of its text. -/
theorem chain_of_continuationChain {lead : Lead} {value : Value R} {comment : Option Text}
    {chain : LongString} (hlead : lead.Valued)
    (h : continuationChain (lead.record value comment) = some chain) :
    ∃ text, value = .text text ∧ chain = ⟨lead, text, comment⟩ := by
  have hchainOf : ∀ {tightest : ℕ}, chainOf lead tightest value comment = some chain →
      ∃ text, value = .text text ∧ chain = ⟨lead, text, comment⟩ := by
    intro tightest hsome
    unfold chainOf at hsome
    split at hsome
    · rename_i text
      split at hsome
      · exact ⟨text, rfl, (Option.some.inj hsome).symm⟩
      · cases hsome
    · cases hsome
  cases lead with
  | keyword keyword => exact hchainOf h
  | hierarch name => exact hchainOf h
  | commentary name => cases hlead

/-- A record with a value, whose text is the one that reads back and whose comment, where
there is one, is trimmed and not empty. -/
def Record.Canonical : Record R → Prop
  | .valued _ value comment => value.Canonical ∧ TrimmedComment comment
  | .hierarch _ value comment => value.Canonical ∧ TrimmedComment comment
  | _ => False

/-- A valid record with a value reads back from the cards it renders to. -/
theorem record_round_trip [RealsReadBack R] {record : Record R} (hcanonical : record.Canonical)
    (h : record.validate = .ok ()) : ∃ bytes, renderRecord record = .ok bytes ∧
      ∀ after, ∃ header : Header R, Header.parse (bytes ++ (Header.endCard ++ after)) = .ok header ∧
        header.records = [record] ∧ header.repairs = [] := by
  obtain ⟨_, hcontents, h⟩ := Loops.ok_of_bind h
  obtain ⟨lead, value, comment, rfl, hlead, hvalue, hcomment⟩ : ∃ (lead : Lead) (value : Value R)
      (comment : Option Text), record = lead.record value comment ∧ lead.Valued ∧
        value.Canonical ∧ TrimmedComment comment := by
    cases record with
    | valued keyword value comment =>
      obtain ⟨_, hkeyword, -⟩ := Loops.ok_of_bind hcontents
      exact ⟨.keyword keyword, value, comment, rfl, hkeyword, hcanonical.1, hcanonical.2⟩
    | hierarch name value comment =>
      exact ⟨.hierarch name, value, comment, rfl, rfl, hcanonical.1, hcanonical.2⟩
    | commentary name text => exact hcanonical.elim
    | malformed name raw defect => exact hcanonical.elim
  rw [renderRecord, hcontents, Loops.bind_ok rfl]
  cases hchain : continuationChain (lead.record value comment) with
  | none =>
    rw [hchain] at h
    obtain ⟨bytes, hbytes, -⟩ := Loops.ok_of_bind h
    exact ⟨bytes, hbytes, fun after =>
      one_round_trip after hlead hcomment hvalue hcontents hbytes⟩
  | some chain =>
    rw [hchain] at h
    obtain ⟨own, hown, -⟩ := Loops.ok_of_bind h
    obtain ⟨text, rfl, rfl⟩ : ∃ text, value = .text text ∧ chain = ⟨lead, text, comment⟩ :=
      chain_of_continuationChain hlead hchain
    obtain ⟨first, rest, hpieces, -, hfits⟩ := LongString.fits_of_commentNeedsOwnRecord hown
    have hrender : (LongString.mk lead text comment).render =
        .ok (LongString.cardsOf ⟨lead, text, comment⟩ true (first :: rest)).flatten := by
      rw [LongString.render, hown, Loops.bind_ok rfl, hpieces]
      exact LongString.renderPieces_of_fits hfits
    exact ⟨_, hrender, fun after =>
      chain_round_trip after hlead hcomment hvalue rfl hcontents hrender⟩

/-- A quoted text with an ampersand at its end, long enough for three records. -/
theorem record_round_trip_long : ∃ bytes, renderRecord (.valued Keyword.XTENSION
      (.text (ascii "it's " ++ List.replicate 140 quote ++ ascii " &")) (some (ascii "long")) :
        Record ℤ) = .ok bytes ∧
    ∀ after, ∃ header : Header ℤ, Header.parse (bytes ++ (Header.endCard ++ after)) = .ok header ∧
      header.records = [.valued Keyword.XTENSION
        (.text (ascii "it's " ++ List.replicate 140 quote ++ ascii " &")) (some (ascii "long"))] ∧
      header.repairs = [] :=
  record_round_trip ⟨(by decide +kernel : dropInsignificant _ = _), by
    intro text htext
    rw [← Option.some.inj htext]
    exact ⟨by decide, by decide⟩⟩ (by decide +kernel)

/-- An empty comment renders to a separator alone, which reads back as no comment. -/
theorem record_round_trip_empty_comment :
    (Record.valued Keyword.GROUPS (.logical true) (some []) : Record ℤ).validate = .ok () ∧
      trim [] = [] ∧
      (do
        let bytes ← renderRecord (.valued Keyword.GROUPS (.logical true) (some []) : Record ℤ)
        let header : Header ℤ ← Header.parse (bytes ++ Header.endCard)
        .ok header.records) = (.ok [.valued Keyword.GROUPS (.logical true) none] :
          Outcome (List (Record ℤ))) := by
  decide +kernel

end FitsWell
