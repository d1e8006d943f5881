import FitsWell.HeaderModel.CardFields
import FitsWell.HeaderModel.Parse

/-!
# Header parsing is total

Every record of 80 bytes parses, whatever its bytes, so a header unit parses where a record
of it is `END`, to what the records before that one hold.
-/

namespace FitsWell

variable {R : Type}

/-- Whether a record ended the header. -/
def ParsedRecord.isEnd : ParsedRecord R → Bool
  | .ended => true
  | _ => false

/-- A parse that returns a record, not the end of the header. -/
def Reads (outcome : Outcome (Parsed R)) : Prop :=
  ∃ parsed, outcome = .ok parsed ∧ parsed.2.isEnd = false

/-! ## Records -/

theorem length_asciiText (raw : Text) : (asciiText raw).length = raw.length := List.length_map _

theorem all_asciiText (raw : Text) : (asciiText raw).all isAscii = true := by
  rw [List.all_eq_true]
  intro byte hbyte
  obtain ⟨source, -, rfl⟩ := List.mem_map.mp hbyte
  split
  · assumption
  · rfl

theorem nonAsciiIn_of_le {raw : Text} {start stop : ℕ} (hstart : start ≤ stop)
    (hstop : stop ≤ raw.length) :
    nonAsciiIn raw start stop = .ok (((raw.take stop).drop start).any fun byte => !isAscii byte) := by
  rw [nonAsciiIn, byteSlice_of_le hstart hstop]
  rfl

section Record

variable {raw text : Text} (hraw : raw.length = cardSize) (htext : text.length = cardSize)
  (hascii : text.all isAscii = true)
include hraw htext hascii

theorem parseCommentary_reads (name : CommentaryName) :
    Reads (parseCommentary raw text name : Outcome (Parsed R)) := by
  have hcard : cardSize = 80 := rfl
  rw [parseCommentary, nonAsciiIn_of_le (by omega) (by omega), Loops.bind_ok rfl,
    strFrom_of_ascii hascii (by omega), Loops.bind_ok rfl]
  exact ⟨_, rfl, rfl⟩

theorem parseContinue_reads (name : CommentaryName) :
    Reads (parseContinue raw text name : Outcome (Parsed R)) := by
  have hcard : cardSize = 80 := rfl
  have hfield : (text.drop 10).all isAscii = true := all_of_sublist hascii (List.drop_sublist 10 text)
  have hlength : (text.drop 10).length = cardSize - 10 := by rw [List.length_drop, htext]
  obtain ⟨split, hsplit, -, hstart⟩ := splitValueComment_ok hfield
  rw [hlength] at hstart
  rw [parseContinue, strFrom_of_ascii hascii (by omega), Loops.bind_ok rfl, hsplit,
    Loops.bind_ok rfl, byteSlice_of_le (by omega) (by omega), Loops.bind_ok rfl]
  split
  · split
    · exact ⟨_, rfl, rfl⟩
    · dsimp only
      rw [nonAsciiIn_of_le (by omega) (by omega), Loops.bind_ok rfl]
      split
      · exact ⟨_, rfl, rfl⟩
      · rw [nonAsciiIn_of_le (by omega) (by omega), Loops.bind_ok rfl,
          strFrom_of_ascii hascii (by omega), Loops.bind_ok rfl]
        exact ⟨_, rfl, rfl⟩
  · exact parseCommentary_reads hraw htext hascii name

variable [RealText R] [ReadsDecimals R]

omit hraw in
/-- The value field of a record splits, to a token that parses. -/
theorem valueField_ok {start : ℕ} (hstart : start ≤ cardSize) :
    ∃ field split, strFrom text start = .ok field ∧ splitValueComment field = .ok split ∧
      start + split.commentStart.getD (cardSize - start) ≤ cardSize ∧
      ∃ value : Option (Value R), parseValue split.valueToken = .ok value := by
  have hfield : (text.drop start).all isAscii = true :=
    all_of_sublist hascii (List.drop_sublist start text)
  have hlength : (text.drop start).length = cardSize - start := by rw [List.length_drop, htext]
  obtain ⟨split, hsplit, htoken, hcomment⟩ := splitValueComment_ok hfield
  rw [hlength] at hcomment
  refine ⟨_, split, strFrom_of_ascii hascii (by omega), hsplit, by omega,
    parseValue_ok (all_of_sublist hfield htoken) ?_⟩
  exact le_trans htoken.length_le (hlength.le.trans (Nat.sub_le _ _))

theorem parseHierarchValue_reads (repairs : List RepairKind) (name : HierarchName) {start : ℕ}
    (hstart : start ≤ cardSize) :
    Reads (parseHierarchValue raw text repairs name start : Outcome (Parsed R)) := by
  obtain ⟨field, split, hfield, hsplit, hend, value, hvalue⟩ :=
    valueField_ok (R := R) htext hascii hstart
  rw [parseHierarchValue, hfield, Loops.bind_ok rfl, hsplit, Loops.bind_ok rfl]
  dsimp only
  rw [hvalue, Loops.bind_ok rfl]
  split
  · exact ⟨_, rfl, rfl⟩
  · rw [nonAsciiIn_of_le (Nat.le_add_right _ _) (hend.trans hraw.ge), Loops.bind_ok rfl]
    split
    · exact ⟨_, rfl, rfl⟩
    · rw [nonAsciiIn_of_le hend hraw.ge, Loops.bind_ok rfl]
      exact ⟨_, rfl, rfl⟩

theorem parseHierarch_reads {indicator : ℕ} (hlow : 9 ≤ indicator) (hhigh : indicator < cardSize) :
    Reads (parseHierarch raw text indicator : Outcome (Parsed R)) := by
  have hcard : cardSize = 80 := rfl
  rw [parseHierarch, strSlice_of_ascii hascii (by omega) (by omega), Loops.bind_ok rfl,
    strSlice_of_ascii hascii hlow (by omega), Loops.bind_ok rfl]
  split
  · exact ⟨_, rfl, rfl⟩
  · rw [nonAsciiIn_of_le hlow (by omega), Loops.bind_ok rfl]
    split
    · exact ⟨_, rfl, rfl⟩
    · exact parseHierarchValue_reads hraw htext hascii _ _ hhigh

theorem parseKeywordValue_reads (repairs : List RepairKind) (keyword : Keyword) {start : ℕ}
    (hstart : start ≤ cardSize) :
    Reads (parseKeywordValue raw text repairs keyword start : Outcome (Parsed R)) := by
  obtain ⟨field, split, hfield, hsplit, hend, value, hvalue⟩ :=
    valueField_ok (R := R) htext hascii hstart
  rw [parseKeywordValue, hfield, Loops.bind_ok rfl, hsplit, Loops.bind_ok rfl]
  dsimp only
  rw [nonAsciiIn_of_le (Nat.le_add_right _ _) (hend.trans hraw.ge), Loops.bind_ok rfl]
  split
  · exact ⟨_, rfl, rfl⟩
  · rw [hvalue, Loops.bind_ok rfl]
    split
    · exact ⟨_, rfl, rfl⟩
    · rw [nonAsciiIn_of_le hend hraw.ge, Loops.bind_ok rfl]
      exact ⟨_, rfl, rfl⟩

theorem parseKeyword_reads {indicator : ℕ} (hindicator : indicator < 9) :
    Reads (parseKeyword raw text indicator : Outcome (Parsed R)) := by
  have hcard : cardSize = 80 := rfl
  have hstart : (if indicator = 8 ∧ raw[9]? = some space then 10 else indicator + 1) ≤ cardSize := by
    split <;> omega
  rw [parseKeyword, strSlice_of_ascii hascii (by omega) (by omega), Loops.bind_ok rfl]
  dsimp only
  generalize Keyword.checked _ = found
  cases found with
  | none => exact ⟨_, rfl, rfl⟩
  | some keyword => exact parseKeywordValue_reads hraw htext hascii _ _ hstart

theorem parseNamed_reads (name : CommentaryName) :
    Reads (parseNamed raw text name : Outcome (Parsed R)) := by
  have hcard : cardSize = 80 := rfl
  unfold parseNamed
  split
  · exact parseCommentary_reads hraw htext hascii name
  split
  · exact parseContinue_reads hraw htext hascii name
  rw [strSlice_of_ascii hascii (by omega) (by omega), Loops.bind_ok rfl,
    strFrom_of_ascii hascii (by omega), Loops.bind_ok rfl]
  split
  · rename_i hlead
    have hlt := List.idxOf_lt_length_of_mem hlead.2
    rw [List.length_drop, htext] at hlt
    exact parseHierarch_reads hraw htext hascii (Nat.le_add_right _ _) (by omega)
  · rw [byteSlice_of_le (by omega) (by omega), Loops.bind_ok rfl]
    split
    · rename_i hmem
      have hlt := List.idxOf_lt_length_of_mem hmem
      rw [List.drop_zero, List.length_take] at hlt
      exact parseKeyword_reads hraw htext hascii (lt_of_lt_of_le hlt (Nat.min_le_left _ _))
    · exact parseCommentary_reads hraw htext hascii name

end Record

variable [RealText R] [ReadsDecimals R]

/-- Every record parses, and one ends the header exactly where its name is `END`. -/
theorem ParsedRecord.parse_card {raw : Text} (hraw : raw.length = cardSize) :
    ∃ parsed : Parsed R, ParsedRecord.parse raw = .ok parsed ∧
      parsed.2.isEnd = isEndRecord raw := by
  have hcard : cardSize = 80 := rfl
  unfold ParsedRecord.parse
  by_cases hend : isEndRecord raw = true
  · rw [if_pos hend, byteSlice_of_le (by omega) le_rfl, Loops.bind_ok rfl, hend]
    exact ⟨_, rfl, rfl⟩
  · have hfalse : isEndRecord raw = false := Bool.eq_false_of_not_eq_true hend
    rw [if_neg hend, hfalse, nonAsciiIn_of_le (Nat.zero_le _) (by omega), Loops.bind_ok rfl]
    split
    · exact ⟨_, rfl, rfl⟩
    · have hlength : (asciiText raw).length = cardSize := (length_asciiText raw).trans hraw
      dsimp only
      rw [strSlice_of_ascii (all_asciiText raw) (Nat.zero_le _) (by omega), Loops.bind_ok rfl]
      split
      · exact ⟨_, rfl, rfl⟩
      · obtain ⟨parsed, hparsed, hread⟩ :=
          parseNamed_reads (R := R) hraw hlength (all_asciiText raw) _
        exact ⟨parsed, hparsed, hread⟩

/-! ## Headers -/

namespace Header

omit [RealText R] [ReadsDecimals R] in
theorem pushRecord_ok (header : Header R) (record : Record R) :
    ∃ next, header.pushRecord record = .ok next := by
  rw [pushRecord, insertAt, dif_pos le_rfl]
  exact ⟨_, rfl⟩

omit [RealText R] [ReadsDecimals R] in
theorem takeRecord_ok (header : Header R) (parsed : ParsedRecord R) :
    ∃ next, header.takeRecord parsed = .ok next := by
  cases parsed with
  | record record => exact header.pushRecord_ok record
  | continued substring comment tail =>
    rw [takeRecord]
    split
    · exact ⟨_, rfl⟩
    · exact header.pushRecord_ok _
  | ended => exact ⟨_, rfl⟩

/-- Cards parse where one is `END`, to what the cards before it hold; where none is, the end
is missing. -/
theorem parseCards_total {cards : List Text} (hcards : ∀ card ∈ cards, card.length = cardSize)
    (header : Header R) (place : ℕ) :
    (cards.any isEndRecord = false ∧ header.parseCards place cards = fail .missingEnd) ∨
    ∃ before card after parsed, cards = before ++ card :: after ∧ isEndRecord card = true ∧
      before.any isEndRecord = false ∧ header.parseCards place cards = .ok parsed ∧
      ∀ others, header.parseCards place (before ++ card :: others) = .ok parsed := by
  induction cards generalizing header place with
  | nil => exact Or.inl ⟨rfl, rfl⟩
  | cons card cards ih =>
    obtain ⟨parsed, hparsed, hend⟩ :=
      ParsedRecord.parse_card (R := R) (hcards card List.mem_cons_self)
    obtain ⟨next, hnext⟩ := (header.addRepairs place parsed.1).takeRecord_ok parsed.2
    have hstep : ∀ others, header.parseCards place (card :: others) =
        if isEndRecord card then .ok next else next.parseCards (place + 1) others := by
      intro others
      rw [parseCards, hparsed, Loops.bind_ok rfl, hnext, Loops.bind_ok rfl, ← hend]
      cases parsed.2 <;> rfl
    by_cases hcard : isEndRecord card = true
    · refine Or.inr ⟨[], card, cards, next, rfl, hcard, rfl, ?_, fun others => ?_⟩
      · rw [hstep, if_pos hcard]
      · rw [List.nil_append, hstep, if_pos hcard]
    · rw [hstep, if_neg hcard]
      have hrest := ih (fun c hc => hcards c (List.mem_cons_of_mem card hc)) next (place + 1)
      rcases hrest with ⟨hnone, hmissing⟩ |
        ⟨before, last, after, found, rfl, hlast, hbefore, hok, hothers⟩
      · exact Or.inl ⟨by rw [List.any_cons, hnone]; simpa using hcard, hmissing⟩
      · refine Or.inr ⟨card :: before, last, after, found, rfl, hlast, ?_, hok, fun others => ?_⟩
        · rw [List.any_cons, hbefore]
          simpa using hcard
        · rw [List.cons_append, hstep, if_neg hcard]
          exact hothers others

omit [RealText R] [ReadsDecimals R] in
/-- The cards of whole cards and of what follows. -/
theorem cards_append {front : Text} {n : ℕ} (h : front.length = n * cardSize) (rest : Text) :
    cards (front ++ rest) = cards front ++ cards rest := by
  have hpos : 0 < cardSize := by decide
  have hfront : front.length / cardSize = n := by rw [h, Nat.mul_div_cancel _ hpos]
  have hcount : (front ++ rest).length / cardSize = n + rest.length / cardSize := by
    rw [List.length_append, h, Nat.add_comm, Nat.add_mul_div_right _ _ hpos, Nat.add_comm]
  have hlow : ∀ j ∈ List.range n, Chunks.chunk (front ++ rest) cardSize j =
      Chunks.chunk front cardSize j := by
    intro j hj
    have hle : (j + 1) * cardSize ≤ n * cardSize := Nat.mul_le_mul_right _ (List.mem_range.mp hj)
    rw [Nat.add_mul, Nat.one_mul] at hle
    rw [Chunks.chunk, Chunks.chunk, List.drop_append_of_le_length (by omega),
      List.take_append_of_le_length (by rw [List.length_drop]; omega)]
  have hhigh : ∀ j ∈ List.range (rest.length / cardSize),
      Chunks.chunk (front ++ rest) cardSize (n + j) = Chunks.chunk rest cardSize j := by
    intro j _
    rw [Chunks.chunk, Chunks.chunk, Nat.add_mul, ← h, ← List.drop_drop, List.drop_left]
  rw [cards, hcount, List.range_add, List.map_append, List.map_congr_left hlow, List.map_map, cards,
    hfront, cards]
  exact congrArg _ (List.map_congr_left hhigh)

omit [RealText R] [ReadsDecimals R] in
theorem length_card {bytes card : Text} (h : card ∈ cards bytes) : card.length = cardSize := by
  obtain ⟨j, hj, rfl⟩ := List.mem_map.mp h
  have hlt := List.mem_range.mp hj
  have hle : (j + 1) * cardSize ≤ bytes.length / cardSize * cardSize := Nat.mul_le_mul_right _ hlt
  have hroom := Nat.div_mul_le_self bytes.length cardSize
  rw [Nat.add_mul, Nat.one_mul] at hle
  rw [Chunks.length_chunk]
  omega

theorem noPanic_parse (bytes : Text) : NoPanic (parse bytes : Outcome (Header R)) := by
  rcases parseCards_total (fun card => length_card) (new : Header R) 1 with
    ⟨-, hmissing⟩ | ⟨_, _, _, header, -, -, -, hok, -⟩
  · exact (congrArg NoPanic hmissing).mpr (NoPanic.fail _)
  · exact (congrArg NoPanic hok).mpr (NoPanic.ok _)

/-- A header unit parses, whatever its bytes, exactly where one of its whole records is
`END`, and what follows the first such record changes nothing; where none is, the end is
missing. -/
theorem parse_total (bytes : Text) :
    ((∀ card ∈ cards bytes, isEndRecord card = false) ∧
      (parse bytes : Outcome (Header R)) = fail .missingEnd) ∨
    ∃ before card after header, cards bytes = before ++ card :: after ∧
      (∀ other ∈ before, isEndRecord other = false) ∧ isEndRecord card = true ∧
      (parse bytes : Outcome (Header R)) = .ok header ∧
      ∀ rest, parse (bytes.take ((before.length + 1) * cardSize) ++ rest) = .ok header := by
  have hall : ∀ list : List Text, list.any isEndRecord = false →
      ∀ card ∈ list, isEndRecord card = false := by
    intro list hnone card hcard
    exact Bool.eq_false_of_not_eq_true (fun hend =>
      absurd (List.any_eq_true.mpr ⟨card, hcard, hend⟩) (by rw [hnone]; simp))
  rcases parseCards_total (fun card => length_card) (new : Header R) 1 with
    ⟨hnone, hmissing⟩ | ⟨before, card, after, header, hcards, hend, hbefore, hok, hothers⟩
  · exact Or.inl ⟨hall _ hnone, hmissing⟩
  · refine Or.inr ⟨before, card, after, header, hcards, hall _ hbefore, hend, hok, fun rest => ?_⟩
    -- the cards up to the end are the first of the unit
    obtain ⟨k, hk⟩ : ∃ k, k = before.length + 1 := ⟨_, rfl⟩
    have hcount := congrArg List.length hcards
    rw [cards, List.length_map, List.length_range, List.length_append, List.length_cons] at hcount
    have hroom : k * cardSize ≤ bytes.length := by
      refine le_trans (Nat.mul_le_mul_right _ ?_) (Nat.div_mul_le_self bytes.length cardSize)
      omega
    have hlength : (bytes.take (k * cardSize)).length = k * cardSize := List.length_take_of_le hroom
    have hsplit := cards_append hlength (bytes.drop (k * cardSize))
    rw [List.take_append_drop, hcards] at hsplit
    have hsame : (before ++ [card]).length = (cards (bytes.take (k * cardSize))).length := by
      rw [cards, List.length_map, List.length_range, hlength, Nat.mul_div_cancel _ (by decide), hk,
        List.length_append, List.length_singleton]
    have hfirst : before ++ [card] = cards (bytes.take (k * cardSize)) := by
      rw [List.append_cons] at hsplit
      exact (List.append_inj hsplit hsame).1
    rw [← hk, parse, cards_append hlength, ← hfirst, List.append_assoc, List.singleton_append]
    exact hothers _

/-- A unit with an `END` record that is not ASCII past its name. -/
theorem parse_total_repaired : ∃ header : Header ℤ,
    parse (ascii "END     " ++ List.replicate 72 0xff) = .ok header := by
  rcases parse_total (R := ℤ) (ascii "END     " ++ List.replicate 72 0xff) with
    ⟨hnone, -⟩ | ⟨_, _, _, header, _, _, _, hok, _⟩
  · exact absurd (hnone _ (List.mem_map_of_mem (List.mem_range.mpr (by decide : 0 < 1)))) (by decide)
  · exact ⟨header, hok⟩

end Header

end FitsWell
