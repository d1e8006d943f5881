import FitsWell.HeaderModel.CardLayout

/-!
# The records of a long string

The pieces of a long string join to its text, and each fits its record, so a chain whose
comment finds a place renders.
-/

namespace FitsWell

theorem escapedLen_append (a b : Text) : escapedLen (a ++ b) = escapedLen a + escapedLen b := by
  rw [escapedLen, escapedLen, escapedLen, List.length_append, List.count_append]
  omega

theorem escapedLen_byte (byte : UInt8) :
    escapedLen [byte] = if byte = quote then 2 else 1 := by
  rw [escapedLen, List.length_singleton, List.count_singleton]
  by_cases hquote : byte = quote <;> simp [hquote]

namespace LongString

/-- The pieces of a text join to it, and each is as long as its record takes. -/
theorem piecesFrom_spec {limit width : ℕ} {piece text : Text} (hwidth : escapedLen piece = width)
    (hle : width ≤ limit) :
    ∃ first rest, piecesFrom limit width piece text = first :: rest ∧ escapedLen first ≤ limit ∧
      (∀ other ∈ rest, escapedLen other ≤ perRecord) ∧ first ++ rest.flatten = piece ++ text := by
  induction text generalizing limit width piece with
  | nil =>
    refine ⟨piece, [], rfl, hwidth ▸ hle, fun other hmem => absurd hmem List.not_mem_nil, rfl⟩
  | cons byte text ih =>
    have hbyte := escapedLen_byte byte
    rw [piecesFrom, ← hbyte]
    split
    · have hroom : escapedLen [byte] ≤ perRecord := by
        rw [hbyte]
        split <;> decide
      obtain ⟨first, rest, hpieces, hfirst, hrest, hjoin⟩ := ih rfl hroom
      refine ⟨piece, first :: rest, by rw [hpieces], hwidth ▸ hle, fun other hmem => ?_, ?_⟩
      · rcases List.mem_cons.mp hmem with rfl | hmem
        · exact hfirst
        · exact hrest other hmem
      · rw [List.flatten_cons, hjoin]
        rfl
    · rename_i hfits
      have hmore : escapedLen (piece ++ [byte]) = width + escapedLen [byte] := by
        rw [escapedLen_append, hwidth]
      obtain ⟨first, rest, hpieces, hfirst, hrest, hjoin⟩ := ih hmore (Nat.le_of_not_lt hfits)
      exact ⟨first, rest, hpieces, hfirst, hrest, by rw [hjoin, List.append_assoc]; rfl⟩

/-- Each record of the pieces fits. -/
def Fits (chain : LongString) (first : Bool) : List Text → Prop
  | [] => True
  | piece :: rest =>
    (chain.pieceLine first rest.isEmpty piece).length ≤ cardSize ∧ chain.Fits false rest

/-- The records of the pieces. -/
def cardsOf (chain : LongString) (first : Bool) : List Text → List Text
  | [] => []
  | piece :: rest =>
    padTo cardSize (chain.pieceLine first rest.isEmpty piece) :: chain.cardsOf false rest

theorem length_of_mem_cardsOf {chain : LongString} {first : Bool} {pieces : List Text}
    (h : chain.Fits first pieces) : ∀ card ∈ chain.cardsOf first pieces, card.length = cardSize := by
  induction pieces generalizing first with
  | nil => exact fun card hmem => absurd hmem List.not_mem_nil
  | cons piece rest ih =>
    intro card hmem
    rcases List.mem_cons.mp hmem with rfl | hmem
    · exact padTo_length h.1
    · exact ih h.2 card hmem

/-- Pieces that fit render to their records. -/
theorem renderPieces_of_fits {chain : LongString} {first : Bool} {pieces : List Text}
    (h : chain.Fits first pieces) :
    chain.renderPieces first pieces = .ok (chain.cardsOf first pieces).flatten := by
  induction pieces generalizing first with
  | nil => rfl
  | cons piece rest ih =>
    rw [renderPieces, renderPiece_eq_ok_iff.mpr ⟨h.1, rfl⟩, Loops.bind_ok rfl, ih h.2,
      Loops.bind_ok rfl]
    rfl

theorem length_pieceLine (chain : LongString) (first last : Bool) (piece : Text) :
    (chain.pieceLine first last piece).length = valueStart chain.lead first +
      (2 + escapedLen piece + if last then 0 else 1) +
        commentLen (if last then chain.comment else none) := by
  rw [pieceLine, List.length_append, List.length_append, length_leadText, length_quoted,
    length_commentText]

/-- Pieces after the first fit where the last of them has room for the comment. -/
theorem fits_of_pieces {chain : LongString} {rest : List Text}
    (hpieces : ∀ piece ∈ rest, escapedLen piece ≤ perRecord)
    (hlast : rest ≠ [] →
      10 + 2 + escapedLen (rest.getLastD []) + commentLen chain.comment ≤ cardSize) :
    chain.Fits false rest := by
  induction rest with
  | nil => trivial
  | cons piece rest ih =>
    have hpiece := hpieces piece List.mem_cons_self
    have hper : perRecord = 67 := rfl
    have hcard : cardSize = 80 := rfl
    refine ⟨?_, ih (fun other hmem => hpieces other (List.mem_cons_of_mem piece hmem)) ?_⟩
    · rw [length_pieceLine]
      cases rest with
      | nil =>
        have hroom := hlast (List.cons_ne_nil _ _)
        simp only [List.getLastD_cons, List.getLastD_nil] at hroom
        simp only [valueStart, List.isEmpty_nil, if_true, Bool.false_eq_true, if_false]
        omega
      | cons next rest =>
        simp only [valueStart, List.isEmpty_cons, Bool.false_eq_true, if_false, commentLen]
        omega
    · intro hne
      have hroom := hlast (List.cons_ne_nil _ _)
      cases rest with
      | nil => exact absurd rfl hne
      | cons next rest => simpa only [List.getLastD_cons] using hroom

/-- The pieces of a chain whose comment finds a place fit their records. -/
theorem fits_of_commentNeedsOwnRecord {chain : LongString} {own : Bool}
    (h : chain.commentNeedsOwnRecord = .ok own) :
    ∃ first rest, chain.pieces ++ (if own then [[]] else []) = first :: rest ∧
      first ++ rest.flatten = chain.text ∧ chain.Fits true (first :: rest) := by
  have hcard : cardSize = 80 := rfl
  have hfirstWidth : chain.firstWidth = cardSize - (chain.lead.valueStart + 3) := rfl
  obtain ⟨first, rest, hpieces, hfirst, hrest, hjoin⟩ :=
    @piecesFrom_spec chain.firstWidth 0 [] chain.text rfl (Nat.zero_le _)
  have hpieces : chain.pieces = first :: rest := hpieces
  have hlastD : chain.pieces.getLastD [] = rest.getLastD first := by
    rw [hpieces, List.getLastD_cons]
  have hlength : chain.pieces.length = 1 ↔ rest = [] := by
    rw [hpieces, List.length_cons]
    constructor
    · intro hone
      exact List.length_eq_zero_iff.mp (by omega)
    · rintro rfl
      rfl
  unfold commentNeedsOwnRecord at h
  split at h
  · cases h
  rename_i hwidth
  -- the first record: its piece and an `&`, or its piece and the comment
  have hopen : ∀ more : List Text, more ≠ [] →
      (chain.pieceLine true more.isEmpty first).length ≤ cardSize := by
    intro more hmore
    rw [length_pieceLine, List.isEmpty_eq_false_iff.mpr hmore]
    simp only [valueStart, if_true, Bool.false_eq_true, if_false, commentLen]
    omega
  have hclose : chain.lead.valueStart + 2 + escapedLen first + commentLen chain.comment ≤ cardSize →
      (chain.pieceLine true ([] : List Text).isEmpty first).length ≤ cardSize := by
    intro hroom
    rw [length_pieceLine]
    simp only [valueStart, List.isEmpty_nil, if_true]
    omega
  have hwhole : (10 + 2 + escapedLen (rest.getLastD []) + commentLen chain.comment ≤ cardSize ∨
      rest = []) → (rest = [] → chain.lead.valueStart + 2 + escapedLen first +
        commentLen chain.comment ≤ cardSize) → chain.Fits true (first :: rest) := by
    intro hlast honly
    refine ⟨?_, fits_of_pieces hrest (fun hne => hlast.resolve_right hne)⟩
    cases rest with
    | nil => exact hclose (honly rfl)
    | cons next rest => exact hopen _ (List.cons_ne_nil _ _)
  rw [hpieces]
  cases hcomment : chain.comment with
  | none =>
    rw [hcomment] at h hwhole
    obtain rfl := Except.ok.inj h
    refine ⟨first, rest, List.append_nil _, hjoin, hwhole ?_ fun _ => ?_⟩
    · by_cases hne : rest = []
      · exact Or.inr hne
      · refine Or.inl ?_
        have hlast := hrest _ (List.getLast_mem hne)
        rw [List.getLastD_eq_getLast?, List.getLast?_eq_some_getLast hne, Option.getD_some]
        have hper : perRecord = 67 := rfl
        simp only [commentLen]
        omega
    · simp only [commentLen]
      omega
  | some comment =>
    rw [hcomment] at h hwhole
    dsimp only at h
    obtain ⟨start, hstart⟩ :
      ∃ start, start = if chain.pieces.length = 1 then chain.lead.valueStart else 10 := ⟨_, rfl⟩
    rw [hlastD, ← hstart] at h
    split at h
    · rename_i hroom
      obtain rfl := Except.ok.inj h
      refine ⟨first, rest, List.append_nil _, hjoin, hwhole ?_ fun honly => ?_⟩
      · by_cases hne : rest = []
        · exact Or.inr hne
        · refine Or.inl ?_
          rw [if_neg (fun hone => hne (hlength.mp hone))] at hstart
          have hsame : rest.getLastD first = rest.getLastD [] := by
            rw [List.getLastD_eq_getLast?, List.getLastD_eq_getLast?,
              List.getLast?_eq_some_getLast hne, Option.getD_some, Option.getD_some]
          rw [hsame] at hroom
          simp only [commentLen]
          omega
      · rw [if_pos (hlength.mpr honly)] at hstart
        rw [honly, List.getLastD_nil] at hroom
        simp only [commentLen]
        omega
    · split at h
      · cases h
      · rename_i halone
        obtain rfl := Except.ok.inj h
        have hne : rest ++ [([] : Text)] ≠ [] := by simp
        refine ⟨first, rest ++ [[]], rfl, ?_, hopen _ hne, fits_of_pieces ?_ fun _ => ?_⟩
        · rw [List.flatten_append, List.flatten_singleton, List.append_nil]
          exact hjoin
        · intro piece hmem
          rcases List.mem_append.mp hmem with hmem | hmem
          · exact hrest piece hmem
          · rw [List.mem_singleton.mp hmem]
            decide
        · rw [List.getLastD_concat, hcomment]
          have hempty : escapedLen [] = 0 := rfl
          simp only [commentLen]
          omega

end LongString

end FitsWell
