import FitsWell.HeaderModel.ParsedRecords
import FitsWell.HeaderModel.RenderedUnit
import FitsWell.HeaderModel.SignedSize
import FitsWell.Library.InTurn

/-!
# Headers read back

A rendered header unit parses to the records it was rendered from, less the blank ones at their
end. What a record reads to may depend on the one before it, so the records are taken in turn.
-/

namespace FitsWell

variable {R : Type}

/-- A header is its records where no record was repaired. -/
theorem Header.eq_ofRecords {header : Header R} {records : List (Record R)}
    (hrecords : header.records = records) (hrepairs : header.repairs = []) :
    header = .ofRecords records := by
  obtain ⟨own, index, hierarchIndex, repairs, hindexed, hhierarch⟩ := header
  obtain rfl : own = records := hrecords
  obtain rfl : repairs = [] := hrepairs
  obtain rfl : index = PlaceIndex.firstPlace Record.keyword own := funext hindexed
  obtain rfl : hierarchIndex = PlaceIndex.firstPlace Record.hierarchKey own := funext hhierarch
  rfl

variable [RealText R]

/-! ## Records in turn -/

/-- Cards that read as a record where it comes after the records `done`. -/
structure Record.ReadsAfter (record : Record R) (done : List (Record R)) (cards : List Text) :
    Prop where
  lengths : ∀ card ∈ cards, card.length = cardSize
  parses : ∀ (header : Header R) (place : ℕ) (others : List Text), header.records = done →
    ∃ (next : Header R) (place' : ℕ),
      header.parseCards place (cards ++ others) = next.parseCards place' others ∧
        next.records = done ++ [record] ∧ next.repairs = header.repairs

/-- A record whose cards, where it has them, read as it after the records `done`. -/
def Record.Returns (done : List (Record R)) (record : Record R) : Prop :=
  ∀ card, renderRecord record = .ok card →
    ∃ cards, card = cards.flatten ∧ record.ReadsAfter done cards

theorem Record.ReadsFrom.readsAfter {record : Record R} {cards : List Text}
    (h : record.ReadsFrom cards) (hlengths : ∀ card ∈ cards, card.length = cardSize)
    (done : List (Record R)) : record.ReadsAfter done cards := by
  refine ⟨hlengths, fun header place others hdone => ?_⟩
  obtain ⟨next, place', hnext, hrecords, hrepairs⟩ := h header place others
  exact ⟨next, place', hnext, hrecords.trans (by rw [hdone]), hrepairs⟩

/-- A card that reads as a record does so after any others. -/
theorem Record.readsAfter_of_parse {record : Record R} {card : Text}
    (hlength : card.length = cardSize)
    (h : ParsedRecord.parse card = .ok ([], .record record)) (done : List (Record R)) :
    record.ReadsAfter done [card] := by
  have hreads : record.ReadsFrom [card] := by
    intro header place others
    obtain ⟨next, hnext, hrecords, hrepairs⟩ := Header.parseCards_record header place others h
    exact ⟨next, place + 1, hnext, hrecords, hrepairs⟩
  refine hreads.readsAfter (fun own hmem => ?_) done
  rw [List.mem_singleton.mp hmem]
  exact hlength

/-- A record with a value that reads back returns, whatever comes before it. -/
theorem Record.Canonical.returns [RealsReadBack R] {record : Record R} (h : record.Canonical)
    (done : List (Record R)) : record.Returns done := by
  intro card hcard
  rw [renderRecord_eq] at hcard
  obtain ⟨_, hcontents, hcard⟩ := Loops.ok_of_bind hcard
  rcases Record.exists_lead hcontents with ⟨name, text, rfl⟩ | ⟨lead, value, comment, rfl, hlead⟩
  · exact h.elim
  obtain ⟨hvalue, hcomment⟩ : value.Canonical ∧ TrimmedComment comment := by
    cases lead with
    | keyword keyword => exact h
    | hierarch name => exact h
    | commentary name => cases hlead
  cases hchain : continuationChain (lead.record value comment) with
  | none =>
    rw [hchain] at hcard
    refine ⟨[card], (List.flatten_singleton).symm, ?_⟩
    refine (one_readsFrom hlead hcomment hvalue hcontents hcard).readsAfter (fun own hmem => ?_) done
    rw [List.mem_singleton.mp hmem]
    exact renderOne_length hcard
  | some chain =>
    rw [hchain] at hcard
    obtain ⟨text, rfl, rfl⟩ := chain_of_continuationChain hlead hchain
    obtain ⟨cards, hcards, hlengths, hreads⟩ :=
      chain_readsFrom hlead hcomment hvalue rfl hcontents hcard
    exact ⟨cards, hcards, hreads.readsAfter hlengths done⟩

/-- Commentary that passes its check returns, whatever comes before it. -/
theorem Record.returns_of_validate {name : CommentaryName} {text : Option Text}
    (h : (Record.commentary name text : Record R).validate = .ok ()) (done : List (Record R)) :
    (Record.commentary name text : Record R).Returns done := by
  intro card hcard
  obtain ⟨_, -, hone⟩ := Loops.ok_of_bind hcard
  exact ⟨[card], (List.flatten_singleton).symm,
    readsAfter_of_parse (renderOne_length hone) (parse_of_validate h hcard) done⟩

theorem ended_of_parse {card : Text} {parsed : Parsed R} (hcard : isEndRecord card = true)
    (h : ParsedRecord.parse card = .ok parsed) : parsed.2 = .ended := by
  rw [ParsedRecord.parse, if_pos hcard] at h
  obtain ⟨rest, -, h⟩ := Loops.ok_of_bind h
  rw [← Except.ok.inj h]

namespace Header

/-- Rendered records parse to themselves. -/
theorem parseCards_renders {done records : List (Record R)} {cards : List Text}
    (hreads : InTurn Record.Returns (done ++ records)) (hrenders : Renders records cards) :
    ∃ list : List Text, cards.flatten = list.flatten ∧ (∀ card ∈ list, card.length = cardSize) ∧
      ∀ (header : Header R) (place : ℕ) (others : List Text), header.records = done →
        ∃ (next : Header R) (place' : ℕ),
          header.parseCards place (list ++ others) = next.parseCards place' others ∧
            next.records = done ++ records ∧ next.repairs = header.repairs := by
  induction hrenders generalizing done with
  | nil =>
    refine ⟨[], rfl, by simp, fun header place others hdone => ⟨header, place, rfl, ?_, rfl⟩⟩
    rw [hdone, List.append_nil]
  | @cons record card records cards hcard _ ih =>
    obtain ⟨first, hfirst, hfirstReads⟩ := hreads done record records rfl card hcard
    rw [List.append_cons] at hreads
    obtain ⟨rest, hflatten, hlengths, hparses⟩ := ih hreads
    refine ⟨first ++ rest, ?_, ?_, fun header place others hdone => ?_⟩
    · rw [List.flatten_cons, List.flatten_append, hfirst, hflatten]
    · intro own hmem
      rcases List.mem_append.mp hmem with hmem | hmem
      · exact hfirstReads.lengths own hmem
      · exact hlengths own hmem
    · obtain ⟨one, place', hone, honeRecords, honeRepairs⟩ :=
        hfirstReads.parses header place (rest ++ others) hdone
      obtain ⟨next, last, hnext, hnextRecords, hnextRepairs⟩ := hparses one place' others honeRecords
      refine ⟨next, last, ?_, ?_, hnextRepairs.trans honeRepairs⟩
      · rw [List.append_assoc, hone, hnext]
      · rw [hnextRecords, List.append_assoc, List.singleton_append]

/-- Cards after an `END` are not read. -/
theorem parseCards_of_end {list : List Text} (hend : ∃ card ∈ list, isEndRecord card = true)
    (header : Header R) (place : ℕ) (others : List Text) :
    header.parseCards place (list ++ others) = header.parseCards place list := by
  induction list generalizing header place with
  | nil => simp at hend
  | cons card list ih =>
    rw [List.cons_append, parseCards, parseCards]
    cases hparsed : (ParsedRecord.parse card : Outcome (Parsed R)) with
    | error fault => rfl
    | ok parsed =>
    rw [Loops.bind_ok rfl, Loops.bind_ok rfl]
    refine bind_congr fun next => ?_
    by_cases hcard : isEndRecord card = true
    · rw [ended_of_parse hcard hparsed]
    · have hrest : ∃ own ∈ list, isEndRecord own = true := by
        obtain ⟨own, hmem, hown⟩ := hend
        rcases List.mem_cons.mp hmem with rfl | hmem
        · exact absurd hown hcard
        · exact ⟨own, hmem, hown⟩
      split
      · rfl
      · exact ih hrest next (place + 1)

/-- A header that reads on after cards has read no `END` among them. -/
theorem unended_of_parseCards {list : List Text} {header : Header R} {place : ℕ}
    (h : ∀ others, ∃ (next : Header R) (place' : ℕ),
      header.parseCards place (list ++ others) = next.parseCards place' others) :
    ∀ card ∈ list, isEndRecord card = false := by
  intro card hmem
  by_contra hend
  rw [Bool.not_eq_false] at hend
  obtain ⟨none, place', hnone⟩ := h []
  obtain ⟨next, place'', hnext⟩ := h [endCard]
  obtain ⟨last, hlast, -⟩ := parseCards_end next place'' []
  rw [List.append_nil] at hnone
  rw [parseCards_of_end ⟨card, hmem, hend⟩, hnone, hlast] at hnext
  cases hnext

/-- A free record of a header unit. -/
def blankCard : Text := spaces cardSize

/-- Free records read as blank commentary. -/
theorem parseCards_blanks (spare : ℕ) (header : Header R) (place : ℕ) (others : List Text) :
    ∃ (next : Header R) (place' : ℕ),
      header.parseCards place (List.replicate spare blankCard ++ others) =
          next.parseCards place' others ∧
        next.records = header.records ++
          List.replicate spare (.commentary CommentaryName.BLANK none) ∧
        next.repairs = header.repairs := by
  have hparse : ParsedRecord.parse blankCard =
      .ok ([], .record (.commentary CommentaryName.BLANK none : Record R)) := by
    rfl
  induction spare generalizing header place with
  | zero => exact ⟨header, place, rfl, (List.append_nil _).symm, rfl⟩
  | succ spare ih =>
    rw [List.replicate_succ, List.cons_append]
    obtain ⟨one, hone, honeRecords, honeRepairs⟩ :=
      parseCards_record header place (List.replicate spare blankCard ++ others) hparse
    obtain ⟨next, place', hnext, hnextRecords, hnextRepairs⟩ := ih one (place + 1)
    refine ⟨next, place', hone.trans hnext, ?_, hnextRepairs.trans honeRepairs⟩
    rw [hnextRecords, honeRecords, List.append_assoc, List.replicate_succ, List.singleton_append]

omit [RealText R] in
theorem rdropWhile_blanks (records : List (Record R)) (spare : ℕ) :
    (records ++ List.replicate spare (Record.commentary CommentaryName.BLANK none)).rdropWhile
      isBlankRecord = records.rdropWhile isBlankRecord := by
  induction spare with
  | zero => rw [List.replicate_zero, List.append_nil]
  | succ spare ih =>
    rw [List.replicate_succ', ← List.append_assoc, List.rdropWhile_concat_pos _ _ _ rfl, ih]

/-- The cards of a header unit: those of its records, the free ones, the `END` card, and blank ones
to the end of its block. -/
structure UnitCards (out : Text) (list : List Text) (spare fill : ℕ) : Prop where
  flatten : out = (list ++ List.replicate spare blankCard ++
    endCard :: List.replicate fill blankCard).flatten
  lengths : ∀ card ∈ list, card.length = cardSize
  fills : fill < recordsPerBlock
  whole : recordsPerBlock ∣ list.length + spare + 1 + fill

theorem length_flatten_cards {list : List Text} (h : ∀ card ∈ list, card.length = cardSize) :
    list.flatten.length = list.length * cardSize := by
  induction list with
  | nil => rfl
  | cons card list ih =>
    rw [List.flatten_cons, List.length_append, h card List.mem_cons_self,
      ih fun other hmem => h other (List.mem_cons_of_mem card hmem), List.length_cons, Nat.succ_mul,
      Nat.add_comm]

theorem UnitCards.all_lengths {out : Text} {list : List Text} {spare fill : ℕ}
    (h : UnitCards out list spare fill) : ∀ card ∈ list ++ List.replicate spare blankCard ++
      endCard :: List.replicate fill blankCard, card.length = cardSize := by
  intro card hmem
  rcases List.mem_append.mp hmem with hmem | hmem
  · rcases List.mem_append.mp hmem with hmem | hmem
    · exact h.lengths card hmem
    · rw [List.eq_of_mem_replicate hmem]
      rfl
  · rcases List.mem_cons.mp hmem with rfl | hmem
    · rfl
    · rw [List.eq_of_mem_replicate hmem]
      rfl

theorem UnitCards.cards_eq {out : Text} {list : List Text} {spare fill : ℕ}
    (h : UnitCards out list spare fill) : Header.cards out =
      list ++ List.replicate spare blankCard ++ endCard :: List.replicate fill blankCard := by
  have hcards := cards_flatten h.all_lengths []
  rwa [List.append_nil, ← h.flatten, show Header.cards [] = [] from rfl, List.append_nil] at hcards

/-- A rendered unit whose records return in turn holds cards that parse to them. -/
theorem unitCards_of_render {header : Header R} {space : Space} {out : Text}
    (hreads : InTurn Record.Returns header.records)
    (h : header.renderInto .unsigned space = .ok out) : ∃ list spare fill,
      UnitCards out list spare fill ∧
      ∀ (start : Header R) (place : ℕ) (others : List Text), start.records = [] →
        ∃ (next : Header R) (place' : ℕ),
          start.parseCards place (list ++ others) = next.parseCards place' others ∧
            next.records = header.records ∧ next.repairs = start.repairs := by
  obtain ⟨spare, h⟩ : ∃ spare, header.renderInto .unsigned (.spare spare) = .ok out := by
    cases space with
    | spare spare => exact ⟨spare, h⟩
    | blocks blocks => exact renderInto_blocks h
  obtain ⟨cards, hcards, hlaid⟩ := renderInto_unsigned_iff.mp h
  obtain ⟨-, rfl⟩ := (layOut_spare_iff (length_renders hcards)).mp hlaid
  obtain ⟨list, hlist, hlengths, hparses⟩ := @parseCards_renders _ _ [] _ _ hreads hcards
  obtain ⟨fill, hfill⟩ : ∃ fill, fill = (recordsPerBlock - (list.length + spare + 1) %
    recordsPerBlock) % recordsPerBlock := ⟨_, rfl⟩
  have hblanks : ∀ n, List.replicate (n * cardSize) FitsWell.space =
      (List.replicate n blankCard).flatten := by
    intro n
    rw [blankCard, spaces, List.flatten_replicate_replicate]
  have hrecords : recordsPerBlock = 36 := rfl
  have hcard : cardSize = 80 := rfl
  have hblock : blockSize = 2880 := rfl
  rw [hrecords] at hfill
  have hcount : (blockSize - (list.flatten ++ (List.replicate spare blankCard).flatten ++
      padTo cardSize (ascii "END")).length % blockSize) % blockSize = fill * cardSize := by
    have hend : (padTo cardSize (ascii "END")).length = cardSize := by decide
    rw [List.length_append, List.length_append, length_flatten_cards hlengths, ← hblanks,
      List.length_replicate, hend, hcard, hblock]
    omega
  refine ⟨list, spare, fill, ⟨?_, hlengths, by rw [hrecords]; omega, by rw [hrecords]; omega⟩, hparses⟩
  rw [fillBlock, hlist, hblanks spare, hcount, hblanks fill]
  simp [endCard]

/-- A rendered header unit whose records return in turn parses to them, less the blank ones at
their end. -/
theorem parse_of_returns {header : Header R} {space : Space} {out : Text}
    (hreads : InTurn Record.Returns header.records)
    (h : header.renderInto .unsigned space = .ok out) :
    parse out = .ok (ofRecords (header.records.rdropWhile isBlankRecord)) := by
  obtain ⟨list, spare, fill, hunit, hparses⟩ := unitCards_of_render hreads h
  rw [parse, hunit.cards_eq, List.append_assoc]
  obtain ⟨read, place, hread, hreadRecords, hreadRepairs⟩ := hparses Header.new 1
    (List.replicate spare blankCard ++ endCard :: List.replicate fill blankCard) rfl
  obtain ⟨free, place', hfree, hfreeRecords, hfreeRepairs⟩ :=
    parseCards_blanks spare read place (endCard :: List.replicate fill blankCard)
  obtain ⟨last, hlast, hlastRecords, hlastRepairs⟩ :=
    parseCards_end free place' (List.replicate fill blankCard)
  rw [hread, hfree, hlast]
  refine congrArg Except.ok (eq_ofRecords ?_ (hlastRepairs.trans (hfreeRepairs.trans hreadRepairs)))
  rw [hlastRecords, hfreeRecords, hreadRecords, rdropWhile_blanks]

end Header

/-! ## Headers by their records -/

/-- A record that returns, whatever comes before it: a value whose text and comment read back, or
commentary that passes its check. One that did not parse renders to no card. -/
def Record.Readable : Record R → Prop
  | .malformed _ _ _ => True
  | .commentary name text => (Record.commentary name text : Record R).validate = .ok ()
  | record => record.Canonical

theorem Record.Readable.returns [RealsReadBack R] {record : Record R} (h : record.Readable)
    (done : List (Record R)) : record.Returns done := by
  cases record with
  | malformed name raw defect =>
    intro card hcard
    cases hcard
  | commentary name text => exact Record.returns_of_validate h done
  | valued keyword value comment =>
    have hcanonical : (Record.valued keyword value comment).Canonical := h
    exact hcanonical.returns done
  | hierarch name value comment =>
    have hcanonical : (Record.hierarch name value comment).Canonical := h
    exact hcanonical.returns done

theorem inTurn_of_readable [RealsReadBack R] {records : List (Record R)}
    (h : ∀ record ∈ records, record.Readable) : InTurn Record.Returns records := by
  intro before record after hsplit
  refine (h record ?_).returns before
  rw [hsplit]
  exact List.mem_append_right before List.mem_cons_self

/-! ## Signed headers -/

omit [RealText R] in
theorem canonical_of_alphanumeric {text : Text} (h : text.all Checksum.isAlphanumeric = true) :
    (Value.text text : Value R).Canonical := by
  refine dropInsignificant_of_getLast? (fun hlast => ?_)
  have hmem := List.mem_of_getLast? hlast
  exact absurd (List.all_eq_true.mp h space hmem) (by decide)

omit [RealText R] in
theorem canonical_numeral (n : ℕ) : (Value.text (Decimal.numeral n) : Value R).Canonical := by
  refine dropInsignificant_of_getLast? (fun hlast => ?_)
  have hdigits := isDigits_numeral n
  rw [isDigits, Bool.and_eq_true] at hdigits
  exact absurd (List.all_eq_true.mp hdigits.2 space (List.mem_of_getLast? hlast)) (by decide)

namespace Header

variable {header : Header R}

/-- The comment that a checksum record keeps is trimmed. -/
theorem trimmed_signedComment (hreadable : ∀ record ∈ header.records, record.Readable)
    (keyword : Keyword) : TrimmedComment (header.signedComment keyword) := by
  cases hindex : header.index keyword with
  | none =>
    rw [signedComment, hindex]
    intro text hnone
    cases hnone
  | some i =>
    obtain ⟨record, hrecord, hkeyword⟩ := header.keyword_of_index hindex
    have hown := hreadable record (List.mem_of_getElem? hrecord)
    rw [signedComment, hindex, Option.bind_some, hrecord, Option.bind_some]
    cases record with
    | valued named value comment => exact And.right hown
    | commentary name text => cases hkeyword
    | hierarch name value comment => cases hkeyword
    | malformed name raw defect =>
      intro text hnone
      cases hnone

/-- The records that a signed render writes are readable where the header's are. -/
theorem readable_carrying {sum : UInt32} {value : Text}
    (hreadable : ∀ record ∈ header.records, record.Readable)
    (hvalue : value.all Checksum.isAlphanumeric = true) :
    ∀ record ∈ (header.carrying sum value).records, record.Readable := by
  have hsigned : ∀ {keyword : Keyword} {text : Text}, (Value.text text : Value R).Canonical →
      (Record.valued keyword (.text text) (header.signedComment keyword) : Record R).Readable :=
    fun htext => ⟨htext, trimmed_signedComment hreadable _⟩
  obtain ⟨before, after, hsplit, hbefore, hafter, hrecords⟩ := header.carrying_records sum
  have hitem : ∀ item ∈ header.markedRecords (.withDataSum sum), item.2.Readable := by
    intro item hmem
    rcases header.mem_markedRecords (by simp) hmem with hkept | ⟨keyword, hkeyword, hnew⟩
    · exact hreadable _ hkept
    · rw [hnew]
      refine hsigned ?_
      rcases hkeyword with rfl | rfl
      · exact canonical_numeral sum.toNat
      · exact canonical_of_alphanumeric (by decide : Checksum.placeholder.all _ = true)
  intro record hmem
  rw [hrecords value] at hmem
  rcases List.mem_append.mp hmem with hmem | hmem
  · obtain ⟨item, hitemMem, rfl⟩ := List.mem_map.mp hmem
    exact hitem item (by rw [hsplit]; exact List.mem_append_left _ hitemMem)
  rcases List.mem_cons.mp hmem with rfl | hmem
  · exact hsigned (canonical_of_alphanumeric hvalue)
  · obtain ⟨item, hitemMem, rfl⟩ := List.mem_map.mp hmem
    exact hitem item (by
      rw [hsplit]
      exact List.mem_append_right _ (List.mem_cons_of_mem _ hitemMem))

variable [RealsReadBack R]

theorem parse_unsigned {space : Space} {out : Text}
    (hreadable : ∀ record ∈ header.records, record.Readable)
    (h : header.renderInto .unsigned space = .ok out) :
    parse out = .ok (ofRecords (header.records.rdropWhile isBlankRecord)) :=
  parse_of_returns (inTurn_of_readable hreadable) h

/-- The header that a rendered unit parses to: its records, less the blank ones at their end, with
the checksum records of a signed render. -/
theorem rendered_header_reads_back (header : Header R) (space : Space) (out : Text)
    (hreadable : ∀ record ∈ header.records, record.Readable) :
    (header.renderInto .unsigned space = .ok out →
      parse out = .ok (ofRecords (header.records.rdropWhile isBlankRecord))) ∧
    ∀ sum, header.renderInto (.withDataSum sum) space = .ok out → ∃ value,
      value.length = 16 ∧ value.all Checksum.isAlphanumeric = true ∧
        parse out = .ok (ofRecords ((header.carrying sum value).records.rdropWhile isBlankRecord)) := by
  refine ⟨parse_unsigned hreadable, fun sum h => ?_⟩
  obtain ⟨value, base, before, after, hlength, hvalue, hplain, -⟩ := renderInto_withDataSum h
  exact ⟨value, hlength, hvalue, parse_unsigned (readable_carrying hreadable hvalue) hplain⟩

/-- A header that carries a sum already is signed anew, and reads back. -/
theorem rendered_header_reads_back_commented : ∃ out value,
    commentedHeader.renderInto (.withDataSum 868229149) (.spare 3) = .ok out ∧ value.length = 16 ∧
      parse out = .ok (ofRecords
        ((commentedHeader.carrying 868229149 value).records.rdropWhile isBlankRecord)) := by
  obtain ⟨out, hout⟩ := commentedHeader_renders
  have hreadable : ∀ record ∈ commentedHeader.records, record.Readable := by
    intro record hmem
    rw [List.mem_singleton.mp hmem]
    refine ⟨(by decide : dropInsignificant (ascii "17") = ascii "17"), fun text htext => ?_⟩
    rw [← Option.some.inj htext]
    exact ⟨by decide, by decide⟩
  obtain ⟨value, hlength, -, hparse⟩ :=
    (rendered_header_reads_back commentedHeader (.spare 3) out hreadable).2 868229149 hout
  exact ⟨out, value, hout, hlength, hparse⟩

end Header

end FitsWell
