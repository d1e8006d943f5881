import FitsWell.HeaderModel.CardRender
import FitsWell.Library.Loops

/-!
# The layout of a record

A record renders where its line fits 80 bytes, to the line with blanks after it.
-/

namespace FitsWell

variable {R : Type} [RealText R]

/-! ## Padding -/

@[simp] theorem padTo_length {width : ℕ} {text : Text} (h : text.length ≤ width) :
    (padTo width text).length = width := by
  rw [padTo, List.length_append, List.length_replicate]
  omega

theorem padTo_of_length {width : ℕ} {text : Text} (h : text.length = width) :
    padTo width text = text := by
  rw [padTo, h, Nat.sub_self, List.replicate_zero, List.append_nil]

theorem take_padTo {width pos : ℕ} {text : Text} (htext : text.length ≤ pos) (hpos : pos ≤ width) :
    (padTo width text).take pos = padTo pos text := by
  rw [padTo, padTo, List.take_append, List.take_of_length_le htext, List.take_replicate,
    Nat.min_eq_left (by omega)]

theorem drop_padTo {width pos : ℕ} {text : Text} (htext : text.length ≤ pos) (hpos : pos ≤ width) :
    (padTo width text).drop pos = List.replicate (width - pos) space := by
  rw [padTo, List.drop_append, List.drop_of_length_le htext, List.nil_append, List.drop_replicate]
  congr 1
  omega

/-- Padding twice is padding once. -/
theorem padTo_padTo {width pos : ℕ} {text : Text} (htext : text.length ≤ pos) (hpos : pos ≤ width) :
    padTo width (padTo pos text) = padTo width text := by
  rw [padTo, padTo_length htext, padTo, padTo, List.append_assoc, ← List.replicate_add]
  congr 2
  omega

/-! ## Writes -/

/-- A record whose line so far is `content`. -/
def lineBuf (content : Text) (lead : Lead) : RecordBuf := ⟨padTo cardSize content, lead⟩

/-- Text written past a line's end extends the line. -/
theorem writeStrAt_eq_ok_iff {content text : Text} {lead : Lead} {pos : ℕ}
    {written : RecordBuf × ℕ} (hcontent : content.length ≤ pos) :
    (lineBuf content lead).writeStrAt pos text = .ok written ↔
      pos + text.length ≤ cardSize ∧
        written = (lineBuf (padTo pos content ++ text) lead, pos + text.length) := by
  unfold RecordBuf.writeStrAt
  split
  · rename_i hlong
    simp only [fail, reduceCtorEq, false_iff]
    omega
  · rename_i hfits
    have hfits := not_lt.mp hfits
    have hbytes : (lineBuf content lead).bytes.take pos ++ text ++
        (lineBuf content lead).bytes.drop (pos + text.length) =
          padTo cardSize (padTo pos content ++ text) := by
      have hline : (padTo pos content ++ text).length = pos + text.length := by
        rw [List.length_append, padTo_length hcontent]
      rw [lineBuf, take_padTo hcontent (by omega), drop_padTo (by omega) hfits, ← hline]
      rfl
    rw [hbytes, Except.ok.injEq, eq_comm]
    exact ⟨fun h => ⟨hfits, h⟩, fun h => h.2⟩

/-- A comment with its separator. -/
def commentText (comment : Option Text) : Text :=
  match comment with
  | none => []
  | some comment => ascii " / " ++ comment

theorem length_commentText (comment : Option Text) :
    (commentText comment).length = commentLen comment := by
  cases comment with
  | none => rfl
  | some comment =>
    rw [commentText, commentLen, List.length_append]
    rfl

/-- A comment written at a line's end extends the line. -/
theorem writeComment_eq_ok_iff {content : Text} {lead : Lead} {pos : ℕ} {comment : Option Text}
    {record : RecordBuf} (hcontent : content.length = pos) (hpos : pos ≤ cardSize) :
    (lineBuf content lead).writeComment pos comment = .ok record ↔
      pos + commentLen comment ≤ cardSize ∧
        record = lineBuf (content ++ commentText comment) lead := by
  cases comment with
  | none =>
    simp only [RecordBuf.writeComment, commentLen, commentText, Except.ok.injEq, Nat.add_zero,
      List.append_nil, hpos, true_and, eq_comm]
  | some comment =>
    rw [RecordBuf.writeComment, commentLen, commentText]
    have hseparator : (ascii " / ").length = 3 := rfl
    constructor
    · intro h
      obtain ⟨separated, hseparated, h⟩ := Loops.ok_of_bind h
      obtain ⟨commented, hcommented, h⟩ := Loops.ok_of_bind h
      obtain ⟨hfits, rfl⟩ := (writeStrAt_eq_ok_iff hcontent.le).mp hseparated
      rw [padTo_of_length hcontent, hseparator] at hcommented
      have hline : (content ++ ascii " / ").length = pos + 3 := by
        rw [List.length_append, hcontent, hseparator]
      obtain ⟨hfits', rfl⟩ := (writeStrAt_eq_ok_iff hline.le).mp hcommented
      refine ⟨by omega, ?_⟩
      rw [← Except.ok.inj h, padTo_of_length hline, List.append_assoc]
    · rintro ⟨hfits, rfl⟩
      have hline : (content ++ ascii " / ").length = pos + 3 := by
        rw [List.length_append, hcontent, hseparator]
      rw [(writeStrAt_eq_ok_iff hcontent.le).mpr ⟨by omega, rfl⟩, Loops.bind_ok rfl,
        padTo_of_length hcontent, hseparator,
        (writeStrAt_eq_ok_iff hline.le).mpr ⟨by omega, rfl⟩, Loops.bind_ok rfl,
        padTo_of_length hline, List.append_assoc]

/-! ## Lines -/

theorem Keyword.length_le (keyword : Keyword) : keyword.name.length ≤ 8 := by
  have h := keyword.admitted
  simp only [NameRule.admits, Bool.and_eq_true, decide_eq_true_eq] at h
  exact h.1.1

theorem CommentaryName.length_le (name : CommentaryName) : name.name.length ≤ 8 := by
  have h := name.admitted
  simp only [NameRule.admits, Bool.and_eq_true, decide_eq_true_eq] at h
  exact h.1.1

/-- A keyword and its value indicator. -/
def keywordLead (keyword : Keyword) : Text := padTo 8 keyword.name ++ [equals]

theorem length_keywordLead (keyword : Keyword) : (keywordLead keyword).length = 9 := by
  rw [keywordLead, List.length_append, padTo_length keyword.length_le]
  rfl

/-- A value indicator after a name of the name field. -/
theorem setIndicator_eq {field : Text} (hle : field.length ≤ 8) (lead : Lead) :
    (RecordBuf.named field lead).setIndicator = lineBuf (padTo 8 field ++ [equals]) lead := by
  have hset : (padTo cardSize field).set 8 equals = padTo cardSize (padTo 8 field ++ [equals]) := by
    have hlength : (padTo cardSize field).length = cardSize :=
      padTo_length (le_trans hle (by decide))
    have hroom : 8 < (padTo cardSize field).length := by
      rw [hlength]
      decide
    have hnine : (padTo 8 field ++ [equals]).length = 9 := by
      rw [List.length_append, padTo_length hle]
      rfl
    have hline : padTo cardSize (padTo 8 field ++ [equals]) =
        padTo 8 field ++ [equals] ++ List.replicate (cardSize - 9) space := by
      rw [padTo, hnine]
    rw [List.set_eq_take_append_cons_drop, if_pos hroom, take_padTo hle (by decide),
      drop_padTo (by omega) (by decide), hline, List.append_assoc]
    rfl
  rw [RecordBuf.named, RecordBuf.setIndicator, hset]
  rfl

/-- The line of a record with a value. -/
def valuedLine (keyword : Keyword) (value : Value R) (comment : Option Text) : Text :=
  padTo (valueColumn value) (keywordLead keyword) ++ writeValue value ++ commentText comment

theorem le_valueColumn (value : Value R) : 10 ≤ valueColumn value := by
  unfold valueColumn
  split <;> omega

/-- A record with a value renders where its line fits. -/
theorem renderOne_valued {keyword : Keyword} {value : Value R} {comment : Option Text}
    {bytes : Text} :
    renderOne (.valued keyword value comment) = .ok bytes ↔
      valueColumn value + renderedLen value + commentLen comment ≤ cardSize ∧
        bytes = padTo cardSize (valuedLine keyword value comment) := by
  have hlead : (keywordLead keyword).length ≤ valueColumn value := by
    have := le_valueColumn value
    rw [length_keywordLead]
    omega
  have hline : (padTo (valueColumn value) (keywordLead keyword) ++ writeValue value).length =
      valueColumn value + renderedLen value := by
    rw [List.length_append, padTo_length hlead]
    rfl
  have hbuf : (RecordBuf.new (.keyword keyword)).setIndicator =
      lineBuf (keywordLead keyword) (.keyword keyword) := setIndicator_eq keyword.length_le _
  rw [renderOne, hbuf, RecordBuf.writeValueAt]
  constructor
  · intro h
    obtain ⟨valued, hvalued, h⟩ := Loops.ok_of_bind h
    obtain ⟨record, hrecord, h⟩ := Loops.ok_of_bind h
    obtain ⟨hfits, rfl⟩ := (writeStrAt_eq_ok_iff hlead).mp hvalued
    obtain ⟨hfits', rfl⟩ := (writeComment_eq_ok_iff hline hfits).mp hrecord
    exact ⟨hfits', (Except.ok.inj h).symm⟩
  · rintro ⟨hfits, rfl⟩
    have hvalue : valueColumn value + (writeValue value).length ≤ cardSize := by
      unfold renderedLen at hfits
      omega
    rw [(writeStrAt_eq_ok_iff hlead).mpr ⟨hvalue, rfl⟩, Loops.bind_ok rfl]
    exact Loops.bind_ok ((writeComment_eq_ok_iff hline hvalue).mpr ⟨hfits, rfl⟩)

/-! ## Chains -/

namespace LongString

/-- The text of a chain's record before its substring. -/
def leadText (lead : Lead) (first : Bool) : Text :=
  if first then
    match lead with
    | .keyword keyword => padTo 10 (keywordLead keyword)
    | .commentary name => padTo 10 (padTo 8 name.name ++ [equals])
    | .hierarch name => ascii "HIERARCH " ++ name.asStr ++ ascii " = "
  else
    padTo 10 CommentaryName.CONTINUE.name

/-- Where the value of a chain's record starts. -/
def valueStart (lead : Lead) (first : Bool) : ℕ := if first then lead.valueStart else 10

theorem length_leadText (lead : Lead) (first : Bool) :
    (leadText lead first).length = valueStart lead first := by
  unfold leadText valueStart
  split
  · cases lead with
    | keyword keyword =>
      exact padTo_length (by rw [length_keywordLead]; decide)
    | commentary name =>
      refine padTo_length ?_
      rw [List.length_append, padTo_length name.length_le]
      decide
    | hierarch name =>
      simp only [List.length_append, Lead.valueStart]
      have hfirst : (ascii "HIERARCH ").length = 9 := rfl
      have hlast : (ascii " = ").length = 3 := rfl
      omega
  · exact padTo_length (by decide)

/-- The quotes around a substring, the last of a chain with no `&`. -/
def quoted (piece : Text) (last : Bool) : Text :=
  [quote] ++ escaped piece ++ if last then [quote] else [ampersand, quote]

/-- The line of one record of a chain. -/
def pieceLine (chain : LongString) (first last : Bool) (piece : Text) : Text :=
  leadText chain.lead first ++ quoted piece last ++
    commentText (if last then chain.comment else none)

/-- The name of a hierarchical record, up to its value. -/
theorem writeHierarchName {name : HierarchName} {lead : Lead} {indicator : Text}
    {marked : RecordBuf × ℕ} :
    (do
      let named ← (RecordBuf.named (ascii "HIERARCH") lead).writeStrAt 9 name.asStr
      named.1.writeStrAt named.2 indicator) = .ok marked ↔
    9 + name.asStr.length + indicator.length ≤ cardSize ∧
      marked = (lineBuf (ascii "HIERARCH " ++ name.asStr ++ indicator) lead,
        9 + name.asStr.length + indicator.length) := by
  have hline : (ascii "HIERARCH " ++ name.asStr).length = 9 + name.asStr.length := by
    rw [List.length_append]
    rfl
  have hname : (ascii "HIERARCH").length ≤ 9 := by decide
  constructor
  · intro h
    obtain ⟨named, hnamed, h⟩ := Loops.ok_of_bind h
    obtain ⟨-, rfl⟩ := (@writeStrAt_eq_ok_iff (ascii "HIERARCH") _ _ _ _ hname).mp hnamed
    obtain ⟨hfits, rfl⟩ := (writeStrAt_eq_ok_iff hline.le).mp h
    rw [padTo_of_length hline]
    exact ⟨hfits, rfl⟩
  · rintro ⟨hfits, rfl⟩
    have hnamed : (RecordBuf.named (ascii "HIERARCH") lead).writeStrAt 9 name.asStr =
        .ok (lineBuf (ascii "HIERARCH " ++ name.asStr) lead, 9 + name.asStr.length) :=
      (@writeStrAt_eq_ok_iff (ascii "HIERARCH") _ _ _ _ hname).mpr ⟨by omega, rfl⟩
    rw [hnamed, Loops.bind_ok rfl, (writeStrAt_eq_ok_iff hline.le).mpr ⟨hfits, rfl⟩,
      padTo_of_length hline]

/-- A chain's record starts where its lead fits. -/
theorem start_eq_ok_iff {chain : LongString} {first : Bool} {record : RecordBuf × ℕ} :
    chain.start first = .ok record ↔ valueStart chain.lead first ≤ cardSize ∧
      record = (lineBuf (leadText chain.lead first) chain.lead, valueStart chain.lead first) := by
  have hten : 10 ≤ cardSize := by decide
  unfold start leadText valueStart
  split
  · split
    · rename_i keyword hlead
      have hbuf : (RecordBuf.new (.keyword keyword)).setIndicator =
          lineBuf (keywordLead keyword) (.keyword keyword) := setIndicator_eq keyword.length_le _
      have hlength := length_keywordLead keyword
      rw [hlead, hbuf, lineBuf, lineBuf, padTo_padTo (by omega) (by decide), Except.ok.injEq, eq_comm]
      exact (and_iff_right hten).symm
    · rename_i name hlead
      have hbuf : (RecordBuf.new (.commentary name)).setIndicator =
          lineBuf (padTo 8 name.name ++ [equals]) (.commentary name) :=
        setIndicator_eq name.length_le _
      have hlength : (padTo 8 name.name ++ [equals]).length = 9 := by
        rw [List.length_append, padTo_length name.length_le]
        rfl
      rw [hlead, hbuf, lineBuf, lineBuf, padTo_padTo (by omega) (by decide), Except.ok.injEq, eq_comm]
      exact (and_iff_right hten).symm
    · rename_i name hlead
      rw [hlead]
      exact writeHierarchName
  · have hbuf : RecordBuf.continuation chain.lead =
        lineBuf (padTo 10 CommentaryName.CONTINUE.name) chain.lead := by
      rw [RecordBuf.continuation, RecordBuf.named, lineBuf, padTo_padTo (by decide) (by decide)]
    rw [hbuf, Except.ok.injEq, eq_comm]
    exact (and_iff_right hten).symm

theorem writeEscaped_eq_ok_iff {buf : RecordBuf} {pos : ℕ} {piece close : Text}
    {written : RecordBuf × ℕ} : writeEscaped buf pos piece close = .ok written ↔
      buf.writeStrAt pos ([quote] ++ escaped piece ++ close) = .ok written := by
  unfold writeEscaped
  split
  · rename_i hok
    rw [hok]
  · rename_i hfault
    rw [hfault]
    simp [abort]

theorem length_quoted (piece : Text) (last : Bool) :
    (quoted piece last).length = 2 + escapedLen piece + if last then 0 else 1 := by
  rw [quoted, List.length_append, List.length_append, length_escaped]
  cases last <;> simp <;> omega

/-- A record of a chain renders where its line fits. -/
theorem renderPiece_eq_ok_iff {chain : LongString} {first last : Bool} {piece bytes : Text} :
    chain.renderPiece first last piece = .ok bytes ↔
      (chain.pieceLine first last piece).length ≤ cardSize ∧
        bytes = padTo cardSize (chain.pieceLine first last piece) := by
  have hlead := length_leadText chain.lead first
  have hline : (leadText chain.lead first ++ quoted piece last).length =
      valueStart chain.lead first + (quoted piece last).length := by
    rw [List.length_append, hlead]
  have htotal : (chain.pieceLine first last piece).length =
      valueStart chain.lead first + (quoted piece last).length +
        commentLen (if last then chain.comment else none) := by
    rw [pieceLine, List.length_append, hline, length_commentText]
  rw [htotal]
  constructor
  · intro h
    obtain ⟨record, hrecord, h⟩ := Loops.ok_of_bind h
    obtain ⟨written, hwritten, h⟩ := Loops.ok_of_bind h
    obtain ⟨commented, hcommented, h⟩ := Loops.ok_of_bind h
    obtain ⟨-, rfl⟩ := start_eq_ok_iff.mp hrecord
    obtain ⟨hfits, rfl⟩ := (writeStrAt_eq_ok_iff hlead.le).mp (writeEscaped_eq_ok_iff.mp hwritten)
    rw [padTo_of_length hlead] at hcommented
    obtain ⟨hfits', rfl⟩ := (writeComment_eq_ok_iff hline hfits).mp hcommented
    exact ⟨hfits', (Except.ok.inj h).symm⟩
  · rintro ⟨hfits, rfl⟩
    have hvalue : valueStart chain.lead first + (quoted piece last).length ≤ cardSize :=
      le_trans (Nat.le_add_right _ _) hfits
    have hwritten : writeEscaped (lineBuf (leadText chain.lead first) chain.lead)
        (valueStart chain.lead first) piece (if last then [quote] else [ampersand, quote]) =
          .ok (lineBuf (leadText chain.lead first ++ quoted piece last) chain.lead,
            valueStart chain.lead first + (quoted piece last).length) := by
      refine writeEscaped_eq_ok_iff.mpr ((writeStrAt_eq_ok_iff hlead.le).mpr ⟨hvalue, ?_⟩)
      rw [padTo_of_length hlead]
      rfl
    rw [renderPiece, start_eq_ok_iff.mpr ⟨le_trans (Nat.le_add_right _ _) hvalue, rfl⟩,
      Loops.bind_ok rfl, hwritten, Loops.bind_ok rfl,
      (writeComment_eq_ok_iff hline hvalue).mpr ⟨hfits, rfl⟩]
    rfl

end LongString

end FitsWell
