import FitsWell.HeaderModel.CardLayout

/-!
# The cards of a record

A record renders to whole cards of 80 bytes: one, or one for each substring of its chain and
one for a comment that needs its own.
-/

namespace FitsWell

variable {R : Type} [RealText R]

/-! ## One record -/

theorem RecordBuf.writeStrAt_length {buf : RecordBuf} {pos : ℕ} {text : Text}
    {written : RecordBuf × ℕ} (hbuf : buf.bytes.length = cardSize)
    (h : buf.writeStrAt pos text = .ok written) : written.1.bytes.length = cardSize := by
  unfold RecordBuf.writeStrAt at h
  split at h
  · cases h
  · rw [← Except.ok.inj h]
    simp only [List.length_append, List.length_take, List.length_drop, hbuf]
    omega

theorem RecordBuf.writeComment_length {buf record : RecordBuf} {pos : ℕ} {comment : Option Text}
    (hbuf : buf.bytes.length = cardSize) (h : buf.writeComment pos comment = .ok record) :
    record.bytes.length = cardSize := by
  cases comment with
  | none => rwa [← Except.ok.inj h]
  | some comment =>
    obtain ⟨separated, hseparated, h⟩ := Loops.ok_of_bind h
    obtain ⟨commented, hcommented, h⟩ := Loops.ok_of_bind h
    rw [← Except.ok.inj h]
    exact writeStrAt_length (writeStrAt_length hbuf hseparated) hcommented

theorem RecordBuf.new_length (lead : Lead) : (RecordBuf.new lead).bytes.length = cardSize := by
  cases lead with
  | keyword keyword => exact padTo_length (le_trans keyword.length_le (by decide))
  | commentary name => exact padTo_length (le_trans name.length_le (by decide))
  | hierarch name => exact padTo_length (by decide)

theorem RecordBuf.setIndicator_length {buf : RecordBuf} (hbuf : buf.bytes.length = cardSize) :
    buf.setIndicator.bytes.length = cardSize := by
  rw [RecordBuf.setIndicator, List.length_set, hbuf]

/-- One record is one card. -/
theorem renderOne_length {record : Record R} {bytes : Text} (h : renderOne record = .ok bytes) :
    bytes.length = cardSize := by
  cases record with
  | malformed => cases h
  | commentary name text =>
    cases text with
    | none =>
      rw [← Except.ok.inj h]
      exact RecordBuf.new_length _
    | some text =>
      obtain ⟨written, hwritten, h⟩ := Loops.ok_of_bind h
      rw [← Except.ok.inj h]
      exact RecordBuf.writeStrAt_length (RecordBuf.new_length _) hwritten
  | hierarch name value comment =>
    obtain ⟨named, hnamed, h⟩ := Loops.ok_of_bind h
    obtain ⟨marked, hmarked, h⟩ := Loops.ok_of_bind h
    obtain ⟨valued, hvalued, h⟩ := Loops.ok_of_bind h
    obtain ⟨record, hrecord, h⟩ := Loops.ok_of_bind h
    rw [← Except.ok.inj h]
    exact RecordBuf.writeComment_length (RecordBuf.writeStrAt_length (RecordBuf.writeStrAt_length
      (RecordBuf.writeStrAt_length (RecordBuf.new_length _) hnamed) hmarked) hvalued) hrecord
  | valued keyword value comment =>
    obtain ⟨valued, hvalued, h⟩ := Loops.ok_of_bind h
    obtain ⟨record, hrecord, h⟩ := Loops.ok_of_bind h
    rw [← Except.ok.inj h]
    exact RecordBuf.writeComment_length (RecordBuf.writeStrAt_length
      (RecordBuf.setIndicator_length (RecordBuf.new_length _)) hvalued) hrecord

/-! ## Chains -/

namespace LongString

theorem start_length {chain : LongString} {first : Bool} {record : RecordBuf × ℕ}
    (h : chain.start first = .ok record) : record.1.bytes.length = cardSize := by
  unfold start at h
  split at h
  · split at h
    · rw [← Except.ok.inj h]
      exact RecordBuf.setIndicator_length (RecordBuf.new_length _)
    · rw [← Except.ok.inj h]
      exact RecordBuf.setIndicator_length (RecordBuf.new_length _)
    · obtain ⟨named, hnamed, h⟩ := Loops.ok_of_bind h
      exact RecordBuf.writeStrAt_length
        (RecordBuf.writeStrAt_length (RecordBuf.new_length _) hnamed) h
  · rw [← Except.ok.inj h]
    exact padTo_length (le_trans CommentaryName.CONTINUE.length_le (by decide))

/-- One record of a chain is one card. -/
theorem renderPiece_length {chain : LongString} {first last : Bool} {piece bytes : Text}
    (h : chain.renderPiece first last piece = .ok bytes) : bytes.length = cardSize := by
  obtain ⟨record, hrecord, h⟩ := Loops.ok_of_bind h
  obtain ⟨written, hwritten, h⟩ := Loops.ok_of_bind h
  obtain ⟨commented, hcommented, h⟩ := Loops.ok_of_bind h
  rw [← Except.ok.inj h]
  exact RecordBuf.writeComment_length (RecordBuf.writeStrAt_length (start_length hrecord)
    (writeEscaped_eq_ok_iff.mp hwritten)) hcommented

theorem renderPieces_length {chain : LongString} {first : Bool} {pieces : List Text} {bytes : Text}
    (h : chain.renderPieces first pieces = .ok bytes) :
    bytes.length = cardSize * pieces.length := by
  induction pieces generalizing first bytes with
  | nil => rw [← Except.ok.inj h]; rfl
  | cons piece pieces ih =>
    obtain ⟨record, hrecord, h⟩ := Loops.ok_of_bind h
    obtain ⟨records, hrecords, h⟩ := Loops.ok_of_bind h
    rw [← Except.ok.inj h, List.length_append, renderPiece_length hrecord, ih hrecords,
      List.length_cons, Nat.mul_succ, Nat.add_comm]

/-- The cards of a chain. -/
def cards (chain : LongString) : ℕ :=
  chain.pieces.length + if chain.commentNeedsOwnRecord = .ok true then 1 else 0

theorem render_length {chain : LongString} {bytes : Text} (h : chain.render = .ok bytes) :
    bytes.length = cardSize * chain.cards := by
  obtain ⟨ownRecord, hown, h⟩ := Loops.ok_of_bind h
  rw [renderPieces_length h, cards, hown, List.length_append]
  cases ownRecord <;> rfl

end LongString

/-- The cards of a record. -/
def recordCards (record : Record R) : ℕ :=
  match continuationChain record with
  | some chain => chain.cards
  | none => 1

/-- A record renders to its cards. -/
theorem renderRecord_length {record : Record R} {bytes : Text}
    (h : renderRecord record = .ok bytes) : bytes.length = cardSize * recordCards record := by
  obtain ⟨-, -, h⟩ := Loops.ok_of_bind h
  cases hchain : continuationChain record with
  | some chain =>
    rw [hchain] at h
    rw [recordCards, hchain]
    exact LongString.render_length h
  | none =>
    rw [hchain] at h
    rw [recordCards, hchain]
    exact (renderOne_length h).trans (Nat.mul_one _).symm

end FitsWell
