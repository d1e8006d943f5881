import FitsWell.HeaderModel.RecordCards
import FitsWell.HeaderModel.SignedRecords

/-!
# The cards of a checksum record

A checksum record has a short text of digits. With its comment it takes one card or two, or
does not render.
-/

namespace FitsWell

variable {R : Type}

/-! ## Short texts -/

/-- Text that one record of a chain holds, with no quote to double. -/
structure ShortText (text : Text) : Prop where
  nonempty : text ≠ []
  length : text.length ≤ 67
  printable : text.all isPrintable = true
  quotes : quote ∉ text

theorem ShortText.escapedLen_eq {text : Text} (h : ShortText text) :
    escapedLen text = text.length := by
  rw [escapedLen, List.count_eq_zero_of_not_mem h.quotes, Nat.add_zero]

theorem ShortText.escaped_eq {text : Text} (h : ShortText text) : escaped text = text := by
  have hquotes := h.quotes
  clear h
  induction text with
  | nil => rfl
  | cons byte text ih =>
    rw [List.mem_cons, not_or] at hquotes
    unfold escaped at ih ⊢
    rw [List.flatMap_cons, ih hquotes.2, if_neg (Ne.symm hquotes.1)]
    rfl

/-- Text that fits its record is one substring. -/
theorem piecesFrom_of_le {limit width : ℕ} {piece text : Text}
    (h : width + escapedLen text ≤ limit) :
    LongString.piecesFrom limit width piece text = [piece ++ text] := by
  induction text generalizing width piece with
  | nil => rw [LongString.piecesFrom, List.append_nil]
  | cons byte text ih =>
    have hlen : escapedLen (byte :: text) =
        (if byte = quote then 2 else 1) + escapedLen text := by
      unfold escapedLen
      rw [List.length_cons, List.count_cons]
      split <;> simp_all <;> omega
    rw [hlen] at h
    rw [LongString.piecesFrom, if_neg (by omega), ih (by omega), List.append_assoc, List.singleton_append]

/-- The cards that a short text of `length` characters takes with its comment. -/
def textCards (length : ℕ) (comment : Option Text) : Option ℕ :=
  match comment with
  | none => some 1
  | some comment =>
    if length + comment.length ≤ 65 then
      if max length 8 + comment.length ≤ 65 then some 1 else none
    else
      if comment.length ≤ 65 then some 2 else none

variable [RealText R] {keyword : Keyword} {text : Text} {comment : Option Text}

theorem renderedLen_text (h : ShortText text) :
    renderedLen (.text text : Value R) = 2 + max text.length 8 := by
  have hempty : text.isEmpty = false := by
    rw [List.isEmpty_eq_false_iff]
    exact h.nonempty
  rw [renderedLen, writeValue, hempty]
  simp only [Bool.false_eq_true, if_false, List.length_append, List.length_replicate,
    length_escaped, h.escapedLen_eq, List.length_singleton]
  omega

omit [RealText R] in
theorem length_textPiece_le (h : ShortText text) {chain : LongString}
    (hlead : chain.lead = .keyword keyword) :
    (chain.pieceLine true false text).length ≤ cardSize := by
  have hcard : cardSize = 80 := rfl
  have hlength := h.length
  have hstart : LongString.valueStart chain.lead true = 10 := by
    rw [hlead]
    rfl
  rw [LongString.pieceLine, List.length_append, List.length_append, LongString.length_leadText,
    LongString.length_quoted, h.escapedLen_eq, hstart]
  simp only [Bool.false_eq_true, if_false, commentText, List.length_nil]
  omega

omit [RealText R] in
theorem length_commentPiece_le {chain : LongString} {comment : Text}
    (hcomment : chain.comment = some comment) (hfits : comment.length ≤ 65) :
    (chain.pieceLine false true []).length ≤ cardSize := by
  have hcard : cardSize = 80 := rfl
  rw [LongString.pieceLine, List.length_append, List.length_append, LongString.length_leadText,
    LongString.length_quoted, if_pos rfl, length_commentText, hcomment]
  simp only [LongString.valueStart, escapedLen, commentLen, List.length_nil,
    List.count_nil, Bool.false_eq_true, if_false, if_true]
  omega

/-- The chain of a text with a long comment is its text, and a record for the comment. -/
theorem render_shortChain (h : ShortText text) {chain : LongString} {comment : Text}
    (hlead : chain.lead = .keyword keyword) (htext : chain.text = text)
    (hcomment : chain.comment = some comment) (hlong : 65 < text.length + comment.length)
    (bytes : Text) :
    chain.render = .ok bytes ↔ comment.length ≤ 65 ∧
      bytes = padTo cardSize (chain.pieceLine true false text) ++
        padTo cardSize (chain.pieceLine false true []) := by
  have hcard : cardSize = 80 := rfl
  have hstart : chain.lead.valueStart = 10 := by rw [hlead]; rfl
  have hwidth : chain.firstWidth = 67 := by rw [LongString.firstWidth, hstart]; rfl
  have hpieces : chain.pieces = [text] := by
    have hlength := h.length
    rw [LongString.pieces, hwidth, htext,
      piecesFrom_of_le (by rw [h.escapedLen_eq]; omega), List.nil_append]
  have hown : chain.commentNeedsOwnRecord =
      if comment.length ≤ 65 then .ok true
      else fail (.headerCardTooLong chain.lead (10 + 2 + 3 + comment.length)) := by
    rw [LongString.commentNeedsOwnRecord, if_neg (by rw [hwidth]; decide), hcomment]
    simp only [hpieces, List.length_singleton, if_true, hstart, List.getLastD_cons, List.getLastD_nil,
      h.escapedLen_eq]
    rw [if_neg (by omega)]
    by_cases hfits : comment.length ≤ 65
    · rw [if_pos hfits, if_neg (by omega)]
    · rw [if_neg hfits, if_pos (by omega)]
  rw [LongString.render, hown, hpieces]
  by_cases hfits : comment.length ≤ 65
  · rw [if_pos hfits, Loops.bind_ok rfl]
    have hpiece := LongString.renderPiece_eq_ok_iff.mpr ⟨length_textPiece_le h hlead, rfl⟩
    have hcomment := LongString.renderPiece_eq_ok_iff.mpr ⟨length_commentPiece_le hcomment hfits, rfl⟩
    have hpieces : chain.renderPieces true ([text] ++ [[]]) =
        .ok (padTo cardSize (chain.pieceLine true false text) ++
          (padTo cardSize (chain.pieceLine false true []) ++ [])) := by
      rw [List.singleton_append, LongString.renderPieces, LongString.renderPieces,
        LongString.renderPieces]
      exact (Loops.bind_ok hpiece).trans (Loops.bind_ok (Loops.bind_ok hcomment))
    rw [if_pos rfl, hpieces, List.append_nil, Except.ok.injEq, eq_comm]
    exact (and_iff_right hfits).symm
  · rw [if_neg hfits]
    simp [fail, hfits, bind, Except.bind]

/-- What follows a short text of `length` characters in its cards. -/
def textRest (length : ℕ) (comment : Option Text) : Text :=
  if 10 + (2 + length) + commentLen comment > cardSize then
    padTo (cardSize - (11 + length)) [ampersand, quote] ++
      padTo cardSize (padTo 10 CommentaryName.CONTINUE.name ++ [quote, quote] ++
        commentText comment)
  else
    padTo (cardSize - (11 + length))
      (List.replicate (8 - length) space ++ [quote] ++ commentText comment)

/-- The cards of a short text. -/
def textBytes (keyword : Keyword) (text : Text) (comment : Option Text) : Text :=
  padTo 10 (keywordLead keyword) ++ [quote] ++ text ++ textRest text.length comment

theorem padTo_append (width : ℕ) (a b : Text) :
    padTo width (a ++ b) = a ++ padTo (width - a.length) b := by
  rw [padTo, padTo, List.length_append, List.append_assoc, Nat.sub_sub]

theorem length_textLead (keyword : Keyword) (text : Text) :
    (padTo 10 (keywordLead keyword) ++ [quote] ++ text).length = 11 + text.length := by
  rw [List.length_append, List.length_append,
    padTo_length (by rw [length_keywordLead]; decide), List.length_singleton]

omit [RealText R] in
theorem continuationChain_text (h : ShortText text) :
    continuationChain (.valued keyword (.text text) comment : Record R) =
      if 10 + (2 + text.length) + commentLen comment > cardSize then
        some ⟨.keyword keyword, text, comment⟩ else none := by
  rw [continuationChain, chainOf, h.escapedLen_eq]
  rfl

/-- The line of a short text. -/
theorem valuedLine_text (h : ShortText text) :
    valuedLine keyword (.text text : Value R) comment =
      padTo 10 (keywordLead keyword) ++ [quote] ++ text ++
        (List.replicate (8 - text.length) space ++ [quote] ++ commentText comment) := by
  have hempty : text.isEmpty = false := by
    rw [List.isEmpty_eq_false_iff]
    exact h.nonempty
  rw [valuedLine, writeValue, hempty, h.escaped_eq, h.escapedLen_eq]
  simp only [valueColumn, Bool.false_eq_true, if_false, List.append_assoc]

omit [RealText R] in
/-- The first line of a short text's chain. -/
theorem pieceLine_text (h : ShortText text) {chain : LongString}
    (hlead : chain.lead = .keyword keyword) :
    chain.pieceLine true false text =
      padTo 10 (keywordLead keyword) ++ [quote] ++ text ++ [ampersand, quote] := by
  rw [LongString.pieceLine, LongString.quoted, h.escaped_eq, hlead]
  simp only [LongString.leadText, commentText, if_true, Bool.false_eq_true, if_false,
    List.append_assoc, List.append_nil]

/-- A short text renders where its cards hold its comment, to those cards. -/
theorem renderText_eq_ok_iff (h : ShortText text)
    (hkeyword : validateValuedKeyword keyword = .ok ()) {bytes : Text} :
    renderRecord (.valued keyword (.text text) comment : Record R) = .ok bytes ↔
      validateComment (.keyword keyword) comment = .ok () ∧
        (textCards text.length comment).isSome ∧ bytes = textBytes keyword text comment := by
  have hcard : cardSize = 80 := rfl
  have hlength := h.length
  have hline : padTo cardSize (valuedLine keyword (.text text : Value R) comment) =
      padTo 10 (keywordLead keyword) ++ [quote] ++ text ++
        padTo (cardSize - (11 + text.length))
          (List.replicate (8 - text.length) space ++ [quote] ++ commentText comment) := by
    rw [valuedLine_text h, padTo_append, length_textLead]
  have hone : renderOne (.valued keyword (.text text) comment : Record R) = .ok bytes ↔
      10 + (2 + max text.length 8) + commentLen comment ≤ cardSize ∧
        bytes = padTo 10 (keywordLead keyword) ++ [quote] ++ text ++
          padTo (cardSize - (11 + text.length))
            (List.replicate (8 - text.length) space ++ [quote] ++ commentText comment) := by
    rw [renderOne_valued, renderedLen_text h, hline]
    rfl
  have hcontents : validateContents (.valued keyword (.text text) comment : Record R) =
      validateComment (.keyword keyword) comment := by
    rw [validateContents, hkeyword, Loops.bind_ok rfl]
    cases hcomment : validateComment (.keyword keyword) comment with
    | error fault => rfl
    | ok _ =>
      rw [Loops.bind_ok rfl, validateValue, validateAscii, if_pos h.printable]
  have hcases :
      (continuationChain (.valued keyword (.text text) comment : Record R)).elim
        (renderOne (.valued keyword (.text text) comment : Record R)) LongString.render =
          .ok bytes ↔
      (textCards text.length comment).isSome ∧ bytes = textBytes keyword text comment := by
    rw [continuationChain_text h]
    cases comment with
    | none =>
      have hlen : commentLen none = 0 := rfl
      have hshort : ¬10 + (2 + text.length) + commentLen none > cardSize := by omega
      rw [if_neg hshort, textBytes, textRest, if_neg hshort, textCards, Option.elim_none]
      rw [hone, hlen]
      exact ⟨fun hok => ⟨rfl, hok.2⟩, fun hok => ⟨by omega, hok.2⟩⟩
    | some comment =>
      have hlen : commentLen (some comment) = 3 + comment.length := rfl
      by_cases hlong : 10 + (2 + text.length) + commentLen (some comment) > cardSize
      · rw [if_pos hlong, textBytes, textRest, if_pos hlong, textCards, Option.elim_some]
        rw [hlen] at hlong
        rw [render_shortChain h rfl rfl rfl (by omega), if_neg (by omega),
          pieceLine_text h rfl, padTo_append, length_textLead]
        simp only [LongString.pieceLine, LongString.leadText, LongString.quoted, escaped,
          List.flatMap_nil, if_true, Bool.false_eq_true, if_false, List.append_assoc,
          List.cons_append, List.nil_append]
        by_cases hfits : comment.length ≤ 65
        · rw [if_pos hfits]
          exact and_congr_left' (iff_of_true hfits rfl)
        · rw [if_neg hfits]
          exact and_congr_left' (iff_of_false hfits (by simp))
      · rw [if_neg hlong, textBytes, textRest, if_neg hlong, textCards, Option.elim_none]
        rw [hlen] at hlong
        rw [hone, if_pos (by omega), hlen]
        by_cases hfits : max text.length 8 + comment.length ≤ 65
        · rw [if_pos hfits]
          exact and_congr_left' (iff_of_true (by omega) rfl)
        · rw [if_neg hfits]
          exact and_congr_left' (iff_of_false (by omega) (by simp))
  rw [renderRecord_eq, hcontents, ← hcases]
  constructor
  · intro hok
    obtain ⟨_, hvalid, hok⟩ := Loops.ok_of_bind hok
    exact ⟨hvalid, hok⟩
  · rintro ⟨hvalid, hok⟩
    rw [hvalid, Loops.bind_ok rfl]
    exact hok

/-- The cards of a short text are whole. -/
theorem length_textBytes (h : ShortText text) {cards : ℕ}
    (hcards : textCards text.length comment = some cards) :
    (textBytes keyword text comment).length = cardSize * cards := by
  have hcard : cardSize = 80 := rfl
  have hlength := h.length
  have hlead : (padTo 10 CommentaryName.CONTINUE.name ++ [quote, quote] : Text).length = 12 := rfl
  rw [textBytes, List.length_append, length_textLead, textRest]
  cases comment with
  | none =>
    have hlen : commentLen none = 0 := rfl
    obtain rfl := Option.some.inj hcards
    rw [if_neg (by omega), padTo_length]
    · omega
    · rw [List.length_append, List.length_append, List.length_replicate, length_commentText,
        List.length_singleton]
      omega
  | some comment =>
    have hlen : commentLen (some comment) = 3 + comment.length := rfl
    rw [textCards] at hcards
    by_cases hlong : text.length + comment.length ≤ 65
    · rw [if_pos hlong] at hcards
      split at hcards
      · obtain rfl := Option.some.inj hcards
        rw [if_neg (by omega), padTo_length]
        · omega
        · rw [List.length_append, List.length_append, List.length_replicate, length_commentText,
            List.length_singleton]
          omega
      · cases hcards
    · rw [if_neg hlong] at hcards
      split at hcards
      · obtain rfl := Option.some.inj hcards
        rw [if_pos (by omega), List.length_append, padTo_length, padTo_length]
        · omega
        · rw [List.length_append, hlead, length_commentText]
          omega
        · simp only [List.length_cons, List.length_nil]
          omega
      · cases hcards

end FitsWell
