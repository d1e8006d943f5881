import FitsWell.Hdu.SameStructure
import FitsWell.Hdu.ScanFinds

/-!
# A written HDU is found

A scan that comes to a rendered header unit finds it: only its last block holds an `END` card. The
HDU that it then reads is the one that was written.
-/

namespace FitsWell

open Chunks (chunk)

variable {R : Type}

namespace Header

/-! ## Blocks of cards -/

theorem isEndRecord_blankCard : isEndRecord blankCard = false := rfl

section Unit

variable {out after : Text} {list : List Text} {spare fill : ℕ} (h : UnitCards out list spare fill)
include h

theorem UnitCards.length_eq : out.length = (list.length + spare + 1 + fill) * cardSize := by
  rw [h.flatten, length_flatten_cards h.all_lengths]
  simp only [List.length_append, List.length_replicate, List.length_cons]
  congr 1
  omega

/-- A unit is whole blocks. -/
theorem UnitCards.length_blocks : out.length = out.length / blockSize * blockSize := by
  obtain ⟨blocks, hblocks⟩ := h.whole
  have hrecords : recordsPerBlock = 36 := rfl
  have hcard : cardSize = 80 := rfl
  have hblock : blockSize = 2880 := rfl
  rw [h.length_eq, hblocks, hrecords, hcard, hblock]
  omega

/-- The cards of a block of a unit. -/
theorem UnitCards.cards_chunk {j : ℕ} (hj : j < out.length / blockSize) :
    Header.cards (chunk (out ++ after) blockSize j) =
      ((Header.cards out).drop (recordsPerBlock * j)).take recordsPerBlock := by
  have hrecords : recordsPerBlock = 36 := rfl
  have hcard : cardSize = 80 := rfl
  have hblock : blockSize = 2880 := rfl
  obtain ⟨all, hall⟩ : ∃ all, all = list ++ List.replicate spare blankCard ++
      endCard :: List.replicate fill blankCard := ⟨_, rfl⟩
  have hlengths : ∀ card ∈ all, card.length = cardSize := hall ▸ h.all_lengths
  have hout : out = all.flatten := hall ▸ h.flatten
  have hcards : Header.cards out = all := hall ▸ h.cards_eq
  have hcount : all.length * cardSize = out.length := by rw [hout, length_flatten_cards hlengths]
  have hroom : recordsPerBlock * j + recordsPerBlock ≤ all.length := by
    rw [hblock, ← hcount, hcard] at hj
    rw [hrecords]
    omega
  obtain ⟨front, hfront⟩ : ∃ front, front = all.take (recordsPerBlock * j) := ⟨_, rfl⟩
  obtain ⟨middle, hmiddle⟩ : ∃ middle, middle = (all.drop (recordsPerBlock * j)).take recordsPerBlock :=
    ⟨_, rfl⟩
  obtain ⟨back, hback⟩ : ∃ back, back = (all.drop (recordsPerBlock * j)).drop recordsPerBlock :=
    ⟨_, rfl⟩
  have hsplit : all = front ++ middle ++ back := by
    rw [hfront, hmiddle, hback, List.append_assoc, List.take_append_drop, List.take_append_drop]
  have hpart : ∀ {part : List Text}, part.Sublist all → ∀ card ∈ part, card.length = cardSize :=
    fun hsub card hmem => hlengths card (hsub.mem hmem)
  have hmiddleLengths := hpart (hmiddle ▸ (List.take_sublist _ _).trans (List.drop_sublist _ _))
  have hfrontLength : front.flatten.length = j * blockSize := by
    rw [length_flatten_cards (hpart (hfront ▸ List.take_sublist _ _)), hfront, List.length_take,
      Nat.min_eq_left (by omega), hrecords, hcard, hblock]
    omega
  have hmiddleLength : middle.flatten.length = blockSize := by
    rw [length_flatten_cards hmiddleLengths, hmiddle, List.length_take, List.length_drop,
      Nat.min_eq_left (by omega)]
    rfl
  have hchunk : chunk (out ++ after) blockSize j = middle.flatten := by
    rw [chunk, hout, hsplit, List.flatten_append, List.flatten_append, List.append_assoc,
      List.append_assoc, ← hfrontLength, List.drop_left, ← hmiddleLength, List.take_left]
  have hown := cards_flatten hmiddleLengths []
  rw [List.append_nil] at hown
  rw [hchunk, hown, hcards, ← hmiddle]
  exact List.append_nil _

/-- Only the last block of a unit holds an `END` card. -/
theorem UnitCards.blockHasEnd (hunended : ∀ card ∈ list, isEndRecord card = false) {j : ℕ}
    (hj : j < out.length / blockSize) :
    blockHasEnd (chunk (out ++ after) blockSize j) = decide (j + 1 = out.length / blockSize) := by
  have hrecords : recordsPerBlock = 36 := rfl
  have hcard : cardSize = 80 := rfl
  have hblock : blockSize = 2880 := rfl
  have hfills := h.fills
  obtain ⟨blocks, hwhole⟩ := h.whole
  have hblocks : out.length / blockSize = blocks := by
    rw [h.length_eq, hwhole, hrecords, hcard, hblock]
    omega
  obtain ⟨front, hfront⟩ : ∃ front, front = list ++ List.replicate spare blankCard := ⟨_, rfl⟩
  have hlength : front.length = list.length + spare := by
    rw [hfront, List.length_append, List.length_replicate]
  have hfrontUnended : ∀ card ∈ front, isEndRecord card = false := by
    intro card hmem
    rcases List.mem_append.mp (hfront ▸ hmem) with hmem | hmem
    · exact hunended card hmem
    · rw [List.eq_of_mem_replicate hmem]
      exact isEndRecord_blankCard
  rw [FitsWell.blockHasEnd, h.cards_chunk hj, h.cards_eq, ← hfront]
  rw [hblocks] at hj ⊢
  rw [hrecords] at hwhole hfills ⊢
  by_cases hlast : j + 1 = blocks
  · rw [decide_eq_true hlast, List.any_eq_true]
    refine ⟨endCard, ?_, rfl⟩
    rw [List.drop_append_of_le_length (by omega), List.take_of_length_le (by
      simp only [List.length_append, List.length_drop, List.length_cons, List.length_replicate]
      omega)]
    exact List.mem_append_right _ List.mem_cons_self
  · rw [decide_eq_false hlast, List.any_eq_false]
    intro card hmem
    have hinside : 36 * (j + 1) ≤ front.length := by
      have : j + 2 ≤ blocks := by omega
      omega
    rw [List.drop_append_of_le_length (by omega), List.take_append_of_le_length (by
      rw [List.length_drop]
      omega)] at hmem
    rw [hfrontUnended card (List.mem_of_mem_drop (List.mem_of_mem_take hmem))]
    exact Bool.false_ne_true

end Unit

end Header

/-- A file holds a rendered unit where its bytes lie. -/
theorem Source.hasUnit_of_cards {source : Source} {before out after : Text} {list : List Text}
    {spare fill : ℕ} (hbytes : source.bytes = before ++ (out ++ after))
    (h : Header.UnitCards out list spare fill)
    (hunended : ∀ card ∈ list, isEndRecord card = false) :
    source.HasUnit before.length (out.length / blockSize) ∧
      source.blocksAt before.length (out.length / blockSize) = out := by
  have hdrop : source.bytes.drop before.length = out ++ after := by rw [hbytes, List.drop_left]
  have hlength := h.length_blocks
  refine ⟨⟨?_, ?_, fun j hj => ?_⟩, ?_⟩
  · have hrecords : recordsPerBlock = 36 := rfl
    have hcard : cardSize = 80 := rfl
    have hblock : blockSize = 2880 := rfl
    obtain ⟨blocks, hwhole⟩ := h.whole
    rw [hrecords] at hwhole
    rw [h.length_eq, hcard, hblock]
    omega
  · rw [← hlength, Source.size, hbytes, List.length_append, List.length_append]
    omega
  · rw [hdrop]
    exact h.blockHasEnd hunended hj
  · rw [Source.blocksAt, hdrop, ← hlength, List.take_left]

/-! ## The first record -/

section Rendered

variable [RealText R]

/-- The cards of a record with a value open as its name does. -/
theorem opens_renderRecord {lead : Lead} {value : Value R} {comment : Option Text} {card : Text}
    (hlead : lead.Valued) (h : renderRecord (lead.record value comment) = .ok card) :
    ∃ text, lead.Opens text ∧ text <+: card := by
  rw [renderRecord_eq] at h
  obtain ⟨_, -, h⟩ := Loops.ok_of_bind h
  cases hchain : continuationChain (lead.record value comment) with
  | none =>
    rw [hchain] at h
    obtain ⟨text, n, hopens, rfl⟩ := renderOne_line hlead h
    refine ⟨text, hopens, ?_⟩
    rw [List.append_assoc, List.append_assoc]
    exact List.prefix_append _ _
  | some chain =>
    rw [hchain] at h
    obtain ⟨text, rfl, rfl⟩ := chain_of_continuationChain hlead hchain
    obtain ⟨own, hown, h⟩ := Loops.ok_of_bind h
    obtain ⟨first, rest, hpieces, -, hfits⟩ := LongString.fits_of_commentNeedsOwnRecord hown
    rw [hpieces, LongString.renderPieces_of_fits hfits] at h
    obtain rfl := Except.ok.inj h
    refine ⟨_, LongString.opens_leadText hlead, ?_⟩
    rw [LongString.cardsOf, List.flatten_cons, padTo, LongString.pieceLine]
    simp only [List.append_assoc]
    exact List.prefix_append _ _

/-- The keyword of the first record. -/
def Header.opensWith (header : Header R) : Option Keyword := header.records.head?.bind Record.keyword

/-- A rendered unit opens with the keyword of its first record. -/
theorem Header.take_eight {header : Header R} {space : Space} {out : Text} {keyword : Keyword}
    (hkeyword : header.opensWith = some keyword)
    (h : header.renderInto .unsigned space = .ok out) : out.take 8 = padTo 8 keyword.name := by
  obtain ⟨spare, h⟩ : ∃ spare, header.renderInto .unsigned (.spare spare) = .ok out := by
    cases space with
    | spare spare => exact ⟨spare, h⟩
    | blocks blocks => exact renderInto_blocks h
  obtain ⟨cards, hcards, hlaid⟩ := renderInto_unsigned_iff.mp h
  obtain ⟨-, rfl⟩ := (layOut_spare_iff (length_renders hcards)).mp hlaid
  unfold opensWith at hkeyword
  cases hrecords : header.records with
  | nil =>
    rw [hrecords] at hkeyword
    cases hkeyword
  | cons record records =>
    rw [hrecords] at hkeyword hcards
    cases hcards with
    | @cons _ card _ others hcard _ =>
      have hown : record.keyword = some keyword := hkeyword
      obtain ⟨text, ⟨m, rfl⟩, rest, rfl⟩ : ∃ text, Lead.Opens (.keyword keyword) text ∧
          text <+: card := by
        cases record with
        | valued named value comment =>
          obtain rfl : named = keyword := Option.some.inj hown
          obtain ⟨_, hcontents, -⟩ := Loops.ok_of_bind hcard
          obtain ⟨_, hvalued, -⟩ := Loops.ok_of_bind hcontents
          exact @opens_renderRecord R _ (.keyword named) value comment _ hvalued hcard
        | commentary name text => cases hown
        | hierarch name value comment => cases hown
        | malformed name raw defect => cases hcard
      have hwidth : (padTo 8 keyword.name).length = 8 := padTo_length keyword.length_le
      rw [fillBlock, List.flatten_cons, keywordLead]
      simp only [List.append_assoc]
      rw [List.take_left' hwidth]

/-! ## Headers as they are read back -/

/-- What a rendered unit of a header parses to: its records less the blank ones at their end, with
the checksum records of a signed render. -/
def Header.ReadBack (header : Header R) (signing : Signing) (back : Header R) : Prop :=
  match signing with
  | .unsigned => back = .ofRecords (header.records.rdropWhile isBlankRecord)
  | .placeholder => False
  | .withDataSum sum => ∃ value : Text, value.length = 16 ∧ value.all Checksum.isAlphanumeric = true ∧
      back = .ofRecords ((header.carrying sum value).records.rdropWhile isBlankRecord)

omit [RealText R] in
theorem Header.ReadBack.agrees {header back : Header R} {signing : Signing}
    (h : header.ReadBack signing back) : back.Agrees header := by
  cases signing with
  | unsigned =>
    rw [show back = _ from h]
    exact header.agrees_rdropWhile
  | placeholder => exact h.elim
  | withDataSum sum =>
    obtain ⟨value, -, -, rfl⟩ := h
    exact (agrees_rdropWhile _).trans (header.agrees_carrying sum value)

omit [RealText R] in
/-- A signed header opens with the keyword of its own first record. -/
theorem Header.opensWith_carrying {header : Header R} {keyword : Keyword} (sum : UInt32) (value : Text)
    (hkeyword : header.opensWith = some keyword) :
    (header.carrying sum value).opensWith = some keyword := by
  unfold opensWith at hkeyword ⊢
  cases hrecords : header.records with
  | nil =>
    rw [hrecords] at hkeyword
    cases hkeyword
  | cons record records =>
    rw [hrecords] at hkeyword
    rw [carrying, ofRecords, markedRecords, hrecords, List.zipIdx_cons, List.map_cons, List.cons_append,
      List.map_cons, List.head?_cons, Option.bind_some, keyword_withText_markedRecord]
    exact hkeyword

variable [RealsReadBack R]

/-- A rendered unit of readable records opens with the keyword of the first, holds one `END` card,
and parses to what its header reads back as. -/
theorem Header.rendered_unit {header : Header R} {signing : Signing} {space : Space} {out : Text}
    {keyword : Keyword} (hsigning : signing ≠ .placeholder)
    (hreadable : ∀ record ∈ header.records, record.Readable)
    (hkeyword : header.opensWith = some keyword)
    (h : header.renderInto signing space = .ok out) :
    (∃ list spare fill, UnitCards out list spare fill ∧ ∀ card ∈ list, isEndRecord card = false) ∧
      out.take 8 = padTo 8 keyword.name ∧
      ∃ back : Header R, parse out = .ok back ∧ header.ReadBack signing back := by
  have hplain : ∀ {plain : Header R}, (∀ record ∈ plain.records, record.Readable) →
      plain.opensWith = some keyword → plain.renderInto .unsigned space = .ok out →
      (∃ list spare fill, UnitCards out list spare fill ∧ ∀ card ∈ list, isEndRecord card = false) ∧
        out.take 8 = padTo 8 keyword.name ∧
        parse out = .ok (.ofRecords (plain.records.rdropWhile isBlankRecord)) := by
    intro plain hrecords hopens hrender
    obtain ⟨list, spare, fill, hunit, hparses⟩ :=
      unitCards_of_render (inTurn_of_readable hrecords) hrender
    refine ⟨⟨list, spare, fill, hunit, ?_⟩, take_eight hopens hrender, parse_unsigned hrecords hrender⟩
    refine @unended_of_parseCards R _ list Header.new 1 (fun others => ?_)
    obtain ⟨next, place', hnext, -⟩ := hparses Header.new 1 others rfl
    exact ⟨next, place', hnext⟩
  cases signing with
  | placeholder => exact (hsigning rfl).elim
  | unsigned =>
    obtain ⟨hunit, htake, hparse⟩ := hplain hreadable hkeyword h
    exact ⟨hunit, htake, _, hparse, rfl⟩
  | withDataSum sum =>
    obtain ⟨value, base, before, after, hlength, hvalue, hrender, -⟩ := renderInto_withDataSum h
    obtain ⟨hunit, htake, hparse⟩ := hplain (readable_carrying hreadable hvalue)
      (header.opensWith_carrying sum value hkeyword) hrender
    exact ⟨hunit, htake, _, hparse, value, hlength, hvalue, rfl⟩

end Rendered

/-! ## HDUs -/

/-- The keyword of the first record of a header. -/
def HduPosition.keyword : HduPosition → Keyword
  | .primary => .SIMPLE
  | .extension => .XTENSION

/-- A header that reads back, and opens as a position asks. -/
structure Header.Scannable [RealText R] (header : Header R) (position : HduPosition) : Prop where
  readable : ∀ record ∈ header.records, record.Readable
  opens : header.opensWith = some position.keyword

theorem HduPosition.padTo_keyword (position : HduPosition) :
    padTo 8 position.keyword.name = position.opening := by
  cases position <;> decide

variable [RealWords R] [RealsReadBack R]

/-- A file holds the unit that a header renders to where its bytes lie, and it parses to what the
header reads back as. -/
theorem Source.holds_render {source : Source} {before unit after : Text} {header : Header R}
    {signing : Signing} {space : Space} {position : HduPosition}
    (hbytes : source.bytes = before ++ (unit ++ after)) (hsigning : signing ≠ .placeholder)
    (hscannable : header.Scannable position) (hrender : header.renderInto signing space = .ok unit) :
    source.HasUnit before.length (unit.length / blockSize) ∧
      source.blocksAt before.length (unit.length / blockSize) = unit ∧
      source.Opens position before.length ∧
      ∃ back : Header R, Header.parse unit = .ok back ∧ header.ReadBack signing back := by
  obtain ⟨⟨list, spare, blanks, hcards, hunended⟩, htake, hback⟩ :=
    Header.rendered_unit hsigning hscannable.readable hscannable.opens hrender
  obtain ⟨hunit, hblocks⟩ := source.hasUnit_of_cards hbytes hcards hunended
  refine ⟨hunit, hblocks, ?_, hback⟩
  have hlong : 8 ≤ unit.length := by
    have hlength := congrArg List.length htake
    rw [List.length_take, padTo_length (Keyword.length_le _)] at hlength
    omega
  rw [Source.Opens, hbytes, List.drop_left, List.take_append_of_le_length hlong, htake,
    HduPosition.padTo_keyword]

/-- An HDU whose header unit and padded data unit are in a file after others is the next that a scan
finds there. -/
theorem nextHdu_written {source : Source} {before unit data fill after : Text} {header : Header R}
    {signing : Signing} {space : Space} {index : ℕ} {kind : HduKind} (hreads : source.Reads)
    (hbytes : source.bytes = before ++ (unit ++ (data ++ fill) ++ after))
    (hsigning : signing ≠ .placeholder) (hscannable : header.Scannable (.ofIndex index))
    (hrender : header.renderInto signing space = .ok unit)
    (hkind : HduKind.fromHeader header (.ofIndex index) = .ok kind)
    (hdata : kind.dataBytes header = .ok data.length)
    (hpadded : paddedLen data.length = some (data ++ fill).length) :
    ∃ hdu : Hdu R,
      nextHdu source before.length index =
          .ok (some (hdu, (before ++ (unit ++ (data ++ fill))).length)) ∧
        hdu.index = index ∧ header.ReadBack signing hdu.header ∧ hdu.kind = kind ∧
        hdu.headerOffset = before.length ∧ hdu.dataOffset = before.length + unit.length ∧
        hdu.dataBytes = data.length := by
  rw [List.append_assoc] at hbytes
  obtain ⟨hunit, hblocks, hopensAt, back, hparse, hback⟩ :=
    source.holds_render hbytes hsigning hscannable hrender
  have hsized := source.sized
  have htotal : before.length + unit.length + (data ++ fill).length ≤ source.bytes.length := by
    rw [hbytes]
    simp only [List.length_append]
    omega
  obtain ⟨sum, hsum⟩ : ∃ sum, sum = source.sumAt before.length (unit.length / blockSize) := ⟨_, rfl⟩
  obtain ⟨hdu, hhdu⟩ : ∃ hdu : Hdu R, hdu =
      { index := index, header := back, kind := kind, headerSum := sum
        headerOffset := before.length, dataOffset := before.length + unit.length
        headerBlocks := unit.length / blockSize, dataBytes := data.length
        paddedDataBytes := (data ++ fill).length } := ⟨_, rfl⟩
  have hfound : Hdu.parse index ⟨unit, sum, before.length⟩ = .ok hdu := by
    have hagrees := hback.agrees
    unfold Hdu.parse
    dsimp only
    rw [hparse, Loops.bind_ok rfl, hagrees.fromHeader, hkind, Loops.bind_ok rfl, hagrees.dataBytes,
      hdata, Loops.bind_ok rfl, Loops.bind_ok (addUsize_of_le (by omega)), hpadded, hhdu]
  have hstop : hdu.stop = (before ++ (unit ++ (data ++ fill))).length := by
    rw [hhdu, Hdu.stop]
    simp only [List.length_append]
    omega
  have hinside : hdu.stop ≤ source.size := by
    rw [hstop, List.length_append, List.length_append, ← Nat.add_assoc]
    exact htotal
  refine ⟨hdu, ?_, ?_⟩
  · rw [← hstop, ← Nat.min_eq_left hinside]
    refine (nextHdu_some_iff hreads).mpr ⟨unit.length / blockSize, hunit, hopensAt, ?_,
      hinside.trans hsized, rfl⟩
    rw [hblocks, ← hsum]
    exact hfound
  · rw [hhdu]
    exact ⟨rfl, hback, rfl, rfl, rfl, rfl⟩

end FitsWell
