import FitsWell.HeaderModel.RenderInto

/-!
# Parsed records

What the parse of a card gives: a record with a value, whose text and comment are the ones that
read back, or free text that fills its card.
-/

namespace FitsWell

variable {R : Type} [RealText R]

/-! ## Fields -/

theorem dropInsignificant_dropInsignificant (text : Text) :
    dropInsignificant (dropInsignificant text) = dropInsignificant text := by
  by_cases hblank : ((trimEndSpaces text).isEmpty && !text.isEmpty) = true
  · have hone : dropInsignificant text = [space] := if_pos hblank
    rw [hone]
    decide
  · have htrim : dropInsignificant text = trimEndSpaces text := if_neg hblank
    rw [htrim]
    refine dropInsignificant_of_getLast? (fun hlast => ?_)
    obtain ⟨front, hfront⟩ := List.getLast?_eq_some_iff.mp hlast
    have hlaw := List.rdropWhile_last_not (· == space) text
      (by change trimEndSpaces text ≠ []; rw [hfront]; simp)
    have hspace : (trimEndSpaces text).getLast (by rw [hfront]; simp) = space := by
      simp only [hfront, List.getLast_append, List.getLast_singleton]
      simp
    exact hlaw (by rw [beq_iff_eq]; exact hspace)

theorem canonical_of_parseScalar {token : Text} {value : Value R}
    (h : parseScalar token = some value) : value.Canonical := by
  unfold parseScalar at h
  split at h
  · obtain ⟨real, -, rfl⟩ := Option.map_eq_some_iff.mp h
    trivial
  · rcases Option.or_eq_some_iff.mp h with h | ⟨-, h⟩
    · obtain ⟨integer, -, rfl⟩ := Option.map_eq_some_iff.mp h
      trivial
    · obtain ⟨real, -, rfl⟩ := Option.map_eq_some_iff.mp h
      trivial

theorem canonical_of_complexOf {re im value : Value R} (h : complexOf re im = .ok value) :
    value.Canonical := by
  unfold complexOf at h
  split at h
  · rw [← Except.ok.inj h]
    trivial
  · obtain ⟨reReal, -, h⟩ := Loops.ok_of_bind h
    obtain ⟨imReal, -, h⟩ := Loops.ok_of_bind h
    rw [← Except.ok.inj h]
    trivial

theorem canonical_of_parseComplex {token : Text} {value : Value R}
    (h : parseComplex token = .ok (some value)) : value.Canonical := by
  unfold parseComplex at h
  split at h
  · cases h
  obtain ⟨reToken, -, h⟩ := Loops.ok_of_bind h
  split at h
  · cases h
  obtain ⟨imToken, -, h⟩ := Loops.ok_of_bind h
  split at h
  · cases h
  obtain ⟨found, hfound, h⟩ := Loops.ok_of_bind h
  rw [← Option.some.inj (Except.ok.inj h)]
  exact canonical_of_complexOf hfound

/-- A parsed value is the one its text gives back. -/
theorem canonical_of_parseValue {token : Text} {value : Value R}
    (h : parseValue token = .ok (some value)) : value.Canonical := by
  unfold parseValue at h
  split at h
  · rw [← Option.some.inj (Except.ok.inj h)]
    trivial
  split at h
  · obtain ⟨text, htext, rfl⟩ := Option.map_eq_some_iff.mp (Except.ok.inj h)
    obtain ⟨raw, -, rfl⟩ := Option.map_eq_some_iff.mp htext
    exact dropInsignificant_dropInsignificant raw
  split at h
  · rw [← Option.some.inj (Except.ok.inj h)]
    trivial
  split at h
  · rw [← Option.some.inj (Except.ok.inj h)]
    trivial
  split at h
  · exact canonical_of_parseComplex h
  · exact canonical_of_parseScalar (Except.ok.inj h)

theorem trim_trim (text : Text) : trim (trim text) = trim text := by
  have hdrop : (trim text).dropWhile isBlank = trim text := by
    rcases htrim : trim text with - | ⟨first, rest⟩
    · rfl
    · refine List.dropWhile_cons_of_neg ?_
      obtain ⟨back, hback⟩ := List.rdropWhile_prefix isBlank (text.dropWhile isBlank)
      change trim text ++ back = _ at hback
      have hnot := List.head?_dropWhile_not isBlank text
      rw [← hback, htrim] at hnot
      simpa using hnot
  rw [trim, hdrop]
  exact List.rdropWhile_idempotent isBlank _

theorem trimmedComment_nonEmpty (text : Text) : TrimmedComment (nonEmpty (trim text)) := by
  intro own hown
  unfold nonEmpty at hown
  split at hown
  · cases hown
  · rename_i hempty
    obtain rfl := Option.some.inj hown
    exact ⟨by simpa using hempty, trim_trim text⟩

/-- The comment of a field is trimmed. -/
theorem trimmedComment_of_split {field : Text} {split : Split} (hascii : field.all isAscii = true)
    (h : splitValueComment field = .ok split) : TrimmedComment split.comment := by
  rw [splitValueComment_of_ascii hascii] at h
  rw [← Except.ok.inj h]
  split
  · exact trimmedComment_nonEmpty _
  · intro text hnone
    cases hnone

/-! ## Records with a value -/

/-- A record with a value that reads back, or one that did not parse. -/
def Record.FromField : Record R → Prop
  | .malformed _ _ _ => True
  | record => record.Canonical

section Valued

variable {raw text : Text} {repairs made : List RepairKind} {parsed : ParsedRecord R} {start : ℕ}

omit [RealText R] in
theorem fromField_malformed {name : Option RecordName} {defect : Defect}
    (h : (.ok (made, malformed raw name defect) : Outcome (Parsed R)) = .ok (repairs, parsed)) :
    ∃ record, parsed = .record record ∧ record.FromField := by
  obtain ⟨-, rfl⟩ := Prod.mk.inj (Except.ok.inj h)
  exact ⟨_, rfl, trivial⟩

variable (hascii : text.all isAscii = true)
include hascii

theorem trimmedComment_of_field {field : Text} {split : Split} (hfield : strFrom text start = .ok field)
    (h : splitValueComment field = .ok split) : TrimmedComment split.comment := by
  refine trimmedComment_of_split (all_of_sublist hascii ?_) h
  unfold strFrom strSlice at hfield
  split at hfield
  · rw [← Except.ok.inj hfield]
    exact (List.drop_sublist _ _).trans (List.take_sublist _ _)
  · cases hfield

theorem fromField_parseHierarch {indicator : ℕ}
    (h : parseHierarch raw text indicator = .ok (repairs, parsed)) :
    ∃ record, parsed = .record record ∧ record.FromField := by
  obtain ⟨lead, -, h⟩ := Loops.ok_of_bind h
  obtain ⟨nameText, -, h⟩ := Loops.ok_of_bind h
  split at h
  · exact fromField_malformed h
  obtain ⟨dirty, -, h⟩ := Loops.ok_of_bind h
  split at h
  · exact fromField_malformed h
  obtain ⟨field, hfield, h⟩ := Loops.ok_of_bind h
  obtain ⟨split, hsplit, h⟩ := Loops.ok_of_bind h
  obtain ⟨value, hvalue, h⟩ := Loops.ok_of_bind h
  split at h
  · exact fromField_malformed h
  obtain ⟨dirtyValue, -, h⟩ := Loops.ok_of_bind h
  split at h
  · exact fromField_malformed h
  obtain ⟨nonAscii, -, h⟩ := Loops.ok_of_bind h
  obtain ⟨-, rfl⟩ := Prod.mk.inj (Except.ok.inj h)
  exact ⟨_, rfl, canonical_of_parseValue hvalue, trimmedComment_of_field hascii hfield hsplit⟩

theorem fromField_parseKeyword {indicator : ℕ}
    (h : parseKeyword raw text indicator = .ok (repairs, parsed)) :
    ∃ record, parsed = .record record ∧ record.FromField := by
  obtain ⟨nameField, -, h⟩ := Loops.ok_of_bind h
  dsimp only at h
  split at h
  · exact fromField_malformed h
  obtain ⟨field, hfield, h⟩ := Loops.ok_of_bind h
  obtain ⟨split, hsplit, h⟩ := Loops.ok_of_bind h
  obtain ⟨dirty, -, h⟩ := Loops.ok_of_bind h
  split at h
  · exact fromField_malformed h
  obtain ⟨value, hvalue, h⟩ := Loops.ok_of_bind h
  split at h
  · exact fromField_malformed h
  obtain ⟨nonAscii, -, h⟩ := Loops.ok_of_bind h
  obtain ⟨-, rfl⟩ := Prod.mk.inj (Except.ok.inj h)
  exact ⟨_, rfl, canonical_of_parseValue hvalue, trimmedComment_of_field hascii hfield hsplit⟩

end Valued

/-! ## Free text -/

/-- A card read as free text of `name`, or as a piece of a long string with that free text. -/
def ParsedRecord.Free (name : CommentaryName) (text : Option Text) : ParsedRecord R → Prop
  | .record own => own = .commentary name text
  | .continued _ comment tail => name = CommentaryName.CONTINUE ∧ tail = text ∧ TrimmedComment comment
  | .ended => False

/-- Text with its trailing spaces again. -/
theorem padTo_trimEndSpaces {text : Text} {width : ℕ} (h : text.length = width) :
    padTo width (trimEndSpaces text) = text := by
  subst h
  induction text using List.reverseRecOn with
  | nil => rfl
  | append_singleton front last ih =>
    by_cases hspace : last = space
    · have htrim : trimEndSpaces (front ++ [last]) = trimEndSpaces front :=
        List.rdropWhile_concat_pos _ _ _ (by simp [hspace])
      have hle : (trimEndSpaces front).length ≤ front.length :=
        (List.rdropWhile_prefix _ _).length_le
      rw [htrim, List.length_append, List.length_singleton, padTo, Nat.succ_sub hle,
        List.replicate_succ', ← List.append_assoc, ← padTo, ih, hspace]
    · have htrim : trimEndSpaces (front ++ [last]) = front ++ [last] :=
        List.rdropWhile_concat_neg _ _ _ (by simpa using hspace)
      rw [htrim, padTo_of_length rfl]

section Free

theorem asciiText_take (raw : Text) (n : ℕ) : (asciiText raw).take n = asciiText (raw.take n) :=
  List.map_take.symm

theorem asciiText_drop (raw : Text) (n : ℕ) : (asciiText raw).drop n = asciiText (raw.drop n) :=
  List.map_drop.symm

/-- A byte of ASCII that is no `?` stays where it is. -/
theorem mem_asciiText_iff {raw : Text} {byte : UInt8} (hascii : isAscii byte = true)
    (hne : byte ≠ 0x3f) : byte ∈ asciiText raw ↔ byte ∈ raw := by
  constructor
  · intro h
    obtain ⟨source, hsource, hbyte⟩ := List.mem_map.mp h
    split at hbyte
    · rwa [← hbyte]
    · exact absurd hbyte.symm hne
  · intro h
    exact List.mem_map.mpr ⟨byte, h, if_pos hascii⟩

theorem asciiText_eq_spaces_iff {raw : Text} : asciiText raw = [space, space] ↔ raw = [space, space] := by
  have hbyte : ∀ {byte : UInt8}, (if isAscii byte then byte else 0x3f) = space ↔ byte = space := by
    intro byte
    constructor
    · intro h
      split at h
      · exact h
      · cases h
    · rintro rfl
      rfl
  rcases raw with - | ⟨first, - | ⟨second, rest⟩⟩
  · simp [asciiText]
  · simp [asciiText]
  · simp only [asciiText, List.map_cons, List.cons.injEq, List.map_eq_nil_iff, hbyte]

variable {raw : Text} {name : CommentaryName} {repairs : List RepairKind} {parsed : ParsedRecord R}
  (hraw : raw.length = cardSize)
include hraw

theorem asciiCard_asciiText : AsciiCard (asciiText raw) :=
  ⟨(length_asciiText raw).trans hraw, all_asciiText raw⟩

omit [RealText R] in
/-- Commentary reads from the ASCII of its card too. -/
theorem free_parseCommentary (h : parseCommentary raw (asciiText raw) name = .ok (repairs, parsed)) :
    parsed.Free name (freeText ((asciiText raw).drop 8)) ∧
      parseCommentary (asciiText raw) (asciiText raw) name = .ok ([], parsed) := by
  have hcard := asciiCard_asciiText hraw
  obtain ⟨nonAscii, -, h⟩ := Loops.ok_of_bind h
  rw [hcard.strFrom (by decide), Loops.bind_ok rfl] at h
  obtain ⟨-, rfl⟩ := Prod.mk.inj (Except.ok.inj h)
  refine ⟨rfl, ?_⟩
  rw [parseCommentary, hcard.nonAsciiIn (by decide) le_rfl, Loops.bind_ok rfl,
    hcard.strFrom (by decide), Loops.bind_ok rfl]
  rfl

omit [RealText R] in
theorem free_parseContinue
    (h : parseContinue raw (asciiText raw) CommentaryName.CONTINUE = .ok (repairs, parsed)) :
    (∃ record, parsed = .record record ∧ record.FromField) ∨
      parsed.Free CommentaryName.CONTINUE (freeText ((asciiText raw).drop 8)) ∧
        parseContinue (asciiText raw) (asciiText raw) CommentaryName.CONTINUE = .ok ([], parsed) := by
  have hcard := asciiCard_asciiText hraw
  obtain ⟨field, hfield, h⟩ := Loops.ok_of_bind h
  obtain ⟨split, hsplit, h⟩ := Loops.ok_of_bind h
  obtain ⟨blanks, hblanks, h⟩ := Loops.ok_of_bind h
  have hcomment := trimmedComment_of_field hcard.ascii hfield hsplit
  rw [byteSlice_of_le (by decide) (by rw [hraw]; decide)] at hblanks
  have hsame : byteSlice (asciiText raw) 8 10 = .ok (asciiText blanks) := by
    rw [byteSlice_of_le (by decide) (by rw [hcard.length]; decide), asciiText_take, asciiText_drop,
      Except.ok.inj hblanks]
  rw [parseContinue, hfield, Loops.bind_ok rfl, hsplit, Loops.bind_ok rfl, hsame, Loops.bind_ok rfl]
  dsimp only at h ⊢
  by_cases hpiece : blanks = [space, space] ∧ split.valueToken.head? = some quote
  · rw [if_pos hpiece] at h
    rw [if_pos ⟨asciiText_eq_spaces_iff.mpr hpiece.1, hpiece.2⟩]
    cases hstring : parseString split.valueToken with
    | none =>
      rw [hstring] at h
      exact .inl (fromField_malformed h)
    | some substring =>
      rw [hstring] at h
      dsimp only at h ⊢
      obtain ⟨dirty, -, h⟩ := Loops.ok_of_bind h
      split at h
      · exact .inl (fromField_malformed h)
      obtain ⟨nonAscii, -, h⟩ := Loops.ok_of_bind h
      rw [hcard.strFrom (by decide), Loops.bind_ok rfl] at h
      obtain ⟨-, rfl⟩ := Prod.mk.inj (Except.ok.inj h)
      refine .inr ⟨⟨rfl, rfl, hcomment⟩, ?_⟩
      have hvalueEnd : 10 + split.commentStart.getD (cardSize - 10) ≤ cardSize := by
        have hten : (10 : ℕ) ≤ cardSize := by decide
        have hfield' := Except.ok.inj ((hcard.strFrom hten).symm.trans hfield)
        obtain ⟨own, hown, -, hstart⟩ := splitValueComment_ok
          (all_of_sublist hcard.ascii (List.drop_sublist 10 (asciiText raw)))
        rw [hfield', hsplit] at hown
        rw [List.length_drop, hcard.length, ← Except.ok.inj hown] at hstart
        omega
      rw [hcard.nonAsciiIn (Nat.le_add_right _ _) hvalueEnd, Loops.bind_ok rfl,
        if_neg Bool.false_ne_true, hcard.nonAsciiIn hvalueEnd le_rfl, Loops.bind_ok rfl,
        hcard.strFrom (by decide), Loops.bind_ok rfl]
      rfl
  · rw [if_neg hpiece] at h
    rw [if_neg (fun hother => hpiece ⟨asciiText_eq_spaces_iff.mp hother.1, hother.2⟩)]
    exact .inr (free_parseCommentary hraw h)

theorem free_parseNamed (h : parseNamed raw (asciiText raw) name = .ok (repairs, parsed)) :
    (∃ record, parsed = .record record ∧ record.FromField) ∨
      parsed.Free name (freeText ((asciiText raw).drop 8)) ∧
        parseNamed (asciiText raw) (asciiText raw) name = .ok ([], parsed) := by
  have hcard := asciiCard_asciiText hraw
  unfold parseNamed at h ⊢
  by_cases hplain : name ∈ [CommentaryName.BLANK, CommentaryName.COMMENT, CommentaryName.HISTORY]
  · rw [if_pos hplain] at h ⊢
    exact .inr (free_parseCommentary hraw h)
  rw [if_neg hplain] at h ⊢
  by_cases hcontinue : name = CommentaryName.CONTINUE
  · rw [if_pos hcontinue] at h ⊢
    subst hcontinue
    exact free_parseContinue hraw h
  rw [if_neg hcontinue] at h ⊢
  obtain ⟨lead, hlead, h⟩ := Loops.ok_of_bind h
  obtain ⟨rest, hrest, h⟩ := Loops.ok_of_bind h
  rw [hlead, Loops.bind_ok rfl, hrest, Loops.bind_ok rfl]
  split at h
  · exact .inl (fromField_parseHierarch hcard.ascii h)
  rename_i hnot
  rw [if_neg hnot]
  have hlimit : (9 : ℕ) ≤ cardSize := by decide
  rw [byteSlice_of_le (Nat.zero_le _) (by rw [hraw]; exact hlimit), Loops.bind_ok rfl] at h
  rw [byteSlice_of_le (Nat.zero_le _) (by rw [hcard.length]; exact hlimit), Loops.bind_ok rfl,
    List.drop_zero, asciiText_take]
  rw [List.drop_zero] at h
  split at h
  · exact .inl (fromField_parseKeyword hcard.ascii h)
  · rename_i hequals
    rw [if_neg (fun hmem => hequals ((mem_asciiText_iff (by decide) (by decide)).mp hmem))]
    exact .inr (free_parseCommentary hraw h)

/-- What a card parses to. -/
theorem parsed_cases (h : ParsedRecord.parse raw = .ok (repairs, parsed)) :
    parsed = .ended ∨ (∃ record, parsed = .record record ∧ record.FromField) ∨
      ∃ name, CommentaryName.checked (trimEndSpaces ((asciiText raw).take 8)) = some name ∧
        parsed.Free name (freeText ((asciiText raw).drop 8)) ∧
        ParsedRecord.parse (asciiText raw) = .ok ([], parsed) := by
  have hcard := asciiCard_asciiText hraw
  have hlimit : (8 : ℕ) ≤ cardSize := by decide
  unfold ParsedRecord.parse at h
  split at h
  · obtain ⟨rest, -, h⟩ := Loops.ok_of_bind h
    obtain ⟨-, rfl⟩ := Prod.mk.inj (Except.ok.inj h)
    exact .inl rfl
  rename_i hend
  rw [nonAsciiIn_of_le (Nat.zero_le _) (by rw [hraw]; exact hlimit), Loops.bind_ok rfl] at h
  split at h
  · exact .inr (.inl (fromField_malformed h))
  rename_i hclean
  have htake : (asciiText raw).take 8 = raw.take 8 := by
    rw [asciiText_take]
    refine (List.map_congr_left (g := id) (fun byte hbyte => if_pos ?_)).trans (List.map_id _)
    rw [Bool.not_eq_true, List.any_eq_false] at hclean
    simpa using hclean byte hbyte
  dsimp only at h
  rw [hcard.strSlice (Nat.zero_le _) hlimit, Loops.bind_ok rfl, List.drop_zero] at h
  split at h
  · exact .inr (.inl (fromField_malformed h))
  rename_i name hname
  rcases free_parseNamed hraw h with hfield | ⟨hfree, hagain⟩
  · exact .inr (.inl hfield)
  · refine .inr (.inr ⟨name, hname, hfree, ?_⟩)
    have hnotEnd : isEndRecord (asciiText raw) = false := by
      have hsame : isEndRecord (asciiText raw) = isEndRecord raw := by
        rw [isEndRecord, isEndRecord, hcard.length, hraw, htake]
      rw [hsame]
      exact Bool.eq_false_of_not_eq_true hend
    rw [ParsedRecord.parse, hnotEnd, if_neg Bool.false_ne_true,
      hcard.nonAsciiIn (Nat.zero_le _) hlimit, Loops.bind_ok rfl, if_neg Bool.false_ne_true,
      hcard.asciiText]
    dsimp only
    rw [hcard.strSlice (Nat.zero_le _) hlimit, Loops.bind_ok rfl, List.drop_zero, hname]
    exact hagain

/-- Free text fills the card it was read from. -/
theorem render_commentary (card : Text)
    (hname : CommentaryName.checked (trimEndSpaces ((asciiText raw).take 8)) = some name)
    (h : renderRecord (.commentary name (freeText ((asciiText raw).drop 8)) : Record R) = .ok card) :
    card = asciiText raw := by
  have hlength : (asciiText raw).length = cardSize := (length_asciiText raw).trans hraw
  have hcard : cardSize = 80 := rfl
  have hnamed : padTo 8 name.name = (asciiText raw).take 8 := by
    unfold CommentaryName.checked at hname
    split at hname
    · rw [← Option.some.inj hname]
      exact padTo_trimEndSpaces (by rw [List.length_take, hlength]; decide)
    · cases hname
  have hfield : padTo 72 (trimEndSpaces ((asciiText raw).drop 8)) = (asciiText raw).drop 8 :=
    padTo_trimEndSpaces (by rw [List.length_drop, hlength]; decide)
  have hwhole : padTo cardSize (padTo 8 name.name ++ trimEndSpaces ((asciiText raw).drop 8)) =
      asciiText raw := by
    have hwidth : (padTo 8 name.name).length = 8 := padTo_length name.length_le
    have hroom : cardSize - (8 + (trimEndSpaces ((asciiText raw).drop 8)).length) =
        72 - (trimEndSpaces ((asciiText raw).drop 8)).length := by
      omega
    rw [padTo, List.append_assoc, List.length_append, hwidth, hroom]
    change padTo 8 name.name ++ padTo 72 _ = _
    rw [hfield, hnamed, List.take_append_drop]
  obtain ⟨_, -, h⟩ := Loops.ok_of_bind h
  change renderOne (.commentary name (freeText _)) = .ok card at h
  unfold freeText at h
  split at h
  · rename_i hempty
    rw [List.isEmpty_iff.mp hempty, List.append_nil, padTo_padTo name.length_le (by decide)] at hwhole
    rw [← hwhole]
    exact (Except.ok.inj h).symm
  · obtain ⟨written, hwritten, h⟩ := Loops.ok_of_bind h
    obtain ⟨-, rfl⟩ :=
      (@writeStrAt_eq_ok_iff name.name _ _ 8 written name.length_le).mp hwritten
    rw [← hwhole]
    exact (Except.ok.inj h).symm

end Free

/-- Commentary that passes its check reads from its card as it is. -/
theorem parse_of_validate {name : CommentaryName} {text : Option Text} {card : Text}
    (h : (Record.commentary name text : Record R).validate = .ok ())
    (hcard : renderRecord (.commentary name text : Record R) = .ok card) :
    ParsedRecord.parse card = .ok ([], .record (.commentary name text : Record R)) := by
  obtain ⟨bytes, hbytes, repairs, hparse⟩ := (Record.validate_eq_ok_iff _).mp h
  obtain rfl := Except.ok.inj (hcard.symm.trans hbytes)
  obtain ⟨_, hcontents, hone⟩ := Loops.ok_of_bind hcard
  have hascii := asciiCard_commentary hcontents hone
  rcases parsed_cases hascii.length hparse with hend | ⟨record, hrecord, hfield⟩ | ⟨_, _, _, hagain⟩
  · cases hend
  · rw [← ParsedRecord.record.inj hrecord] at hfield
    exact hfield.elim
  · rwa [hascii.asciiText] at hagain

end FitsWell
