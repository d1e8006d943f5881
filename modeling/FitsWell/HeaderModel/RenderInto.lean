import FitsWell.HeaderModel.RecordRoundTrip
import FitsWell.HeaderModel.EditIndex
import FitsWell.Library.Stateful

/-!
# Rendering into a buffer

A record puts its cards at the end of a buffer one at a time, and takes back those it put
there where it fails. It fails exactly where its check does.
-/

namespace FitsWell

/-! ## The substrings of a long string -/

/-- The iterator over the substrings of a text. -/
structure PieceIter where
  text : Text
  start : Option ℕ
  limit : ℕ
  deriving DecidableEq, Repr

namespace PieceIter

/-- The bytes of `rest` that fit after `width` characters, before the first that does not. -/
def fitLen (limit width : ℕ) : Text → ℕ
  | [] => 0
  | byte :: rest =>
    let byteWidth := if byte = quote then 2 else 1
    if width + byteWidth > limit then 0 else fitLen limit (width + byteWidth) rest + 1

/-- The next substring, and the iterator after it. -/
def next (iter : PieceIter) : Option (Text × PieceIter) :=
  match iter.start with
  | none => none
  | some first =>
    let stop := first + fitLen iter.limit 0 (iter.text.drop first)
    some ((iter.text.drop first).take (stop - first),
      { iter with
        limit := LongString.perRecord
        start := if stop < iter.text.length then some stop else none })

/-- The substrings of an iterator that ends within `fuel` calls. -/
def collect (fuel : ℕ) (iter : PieceIter) : Option (List Text) :=
  match fuel with
  | 0 => none
  | fuel + 1 =>
    match iter.next with
    | none => some []
    | some (piece, iter) => (iter.collect fuel).map (piece :: ·)

theorem collect_ended (fuel : ℕ) {iter : PieceIter} (h : iter.start = none) :
    iter.collect (fuel + 1) = some [] := by
  rw [collect, next, h]

theorem fitLen_le (limit width : ℕ) (rest : Text) : fitLen limit width rest ≤ rest.length := by
  induction rest generalizing width with
  | nil => exact le_rfl
  | cons byte rest ih =>
    rw [fitLen]
    by_cases hroom : width + (if byte = quote then 2 else 1) > limit
    · rw [if_pos hroom]
      exact Nat.zero_le _
    · rw [if_neg hroom]
      exact Nat.succ_le_succ (ih _)

/-- A record takes at least one byte where it has room for a doubled quote. -/
theorem fitLen_pos {limit : ℕ} (hlimit : 2 ≤ limit) {rest : Text} (hrest : rest ≠ []) :
    0 < fitLen limit 0 rest := by
  cases rest with
  | nil => exact absurd rfl hrest
  | cons byte rest =>
    rw [fitLen, if_neg]
    · exact Nat.succ_pos _
    · split <;> omega

/-- The substrings after `piece` are the bytes that fit with it, and those of the rest. -/
theorem piecesFrom_eq (limit width : ℕ) (piece rest : Text) :
    LongString.piecesFrom limit width piece rest =
      (piece ++ rest.take (fitLen limit width rest)) ::
        if fitLen limit width rest < rest.length then
          LongString.piecesFrom LongString.perRecord 0 [] (rest.drop (fitLen limit width rest))
        else [] := by
  induction rest generalizing width piece with
  | nil =>
    rw [LongString.piecesFrom, fitLen, List.take_nil, List.append_nil, List.length_nil,
      if_neg (lt_irrefl _)]
  | cons byte rest ih =>
    rw [LongString.piecesFrom, fitLen]
    by_cases hroom : width + (if byte = quote then 2 else 1) > limit
    · have hopen : ¬0 + (if byte = quote then 2 else 1) > LongString.perRecord := by
        have hper : LongString.perRecord = 67 := rfl
        split <;> omega
      rw [if_pos hroom, if_pos hroom, List.take_zero, List.append_nil, List.drop_zero,
        List.length_cons, if_pos (Nat.succ_pos _), LongString.piecesFrom, if_neg hopen,
        Nat.zero_add, List.nil_append]
    · rw [if_neg hroom, if_neg hroom, ih, List.take_succ_cons, List.drop_succ_cons,
        List.length_cons, List.append_assoc]
      simp only [Nat.add_lt_add_iff_right, List.cons_append, List.nil_append]

/-- An iterator whose next record takes a byte ends within a call for each byte, and one. -/
theorem collect_perRecord (text : Text) {fuel first : ℕ} (hfirst : first < text.length)
    (hfuel : text.length - first < fuel) :
    collect fuel ⟨text, some first, LongString.perRecord⟩ =
      some (LongString.piecesFrom LongString.perRecord 0 [] (text.drop first)) := by
  induction fuel generalizing first with
  | zero => omega
  | succ fuel ih =>
    have hrest : text.drop first ≠ [] := by
      rw [Ne, List.drop_eq_nil_iff]
      omega
    have hpos := @fitLen_pos LongString.perRecord (by decide) _ hrest
    rw [collect, next, piecesFrom_eq, List.nil_append, List.length_drop, List.drop_drop]
    dsimp only
    rw [Nat.add_sub_cancel_left]
    by_cases hmore : first + fitLen LongString.perRecord 0 (text.drop first) < text.length
    · rw [if_pos hmore, if_pos (by omega), ih hmore (by omega)]
      rfl
    · obtain ⟨fuel, rfl⟩ : ∃ n, fuel = n + 1 := ⟨fuel - 1, by omega⟩
      rw [if_neg hmore, if_neg (by omega), collect_ended _ rfl]
      rfl

/-- The iterator ends, whatever the first record has room for, with the substrings of the
text. -/
theorem collect_eq (text : Text) (limit : ℕ) :
    collect (text.length + 2) ⟨text, some 0, limit⟩ =
      some (LongString.piecesFrom limit 0 [] text) := by
  rw [collect, next, piecesFrom_eq, List.nil_append]
  dsimp only
  rw [List.drop_zero, Nat.zero_add, Nat.sub_zero]
  by_cases hmore : fitLen limit 0 text < text.length
  · rw [if_pos hmore, if_pos hmore, collect_perRecord text hmore (by omega)]
    rfl
  · rw [if_neg hmore, if_neg hmore, collect_ended _ rfl]
    rfl

end PieceIter

namespace LongString

/-- The iterator over the substrings of a chain. -/
def iter (chain : LongString) : PieceIter := ⟨chain.text, some 0, chain.firstWidth⟩

theorem flatten_piecesFrom (limit : ℕ) (text : Text) :
    (piecesFrom limit 0 [] text).flatten = text := by
  obtain ⟨first, rest, hpieces, -, -, hjoin⟩ :=
    @piecesFrom_spec limit 0 [] text rfl (Nat.zero_le _)
  rw [hpieces, List.flatten_cons, hjoin, List.nil_append]

end LongString

/-! ## The buffer -/

/-- Put `bytes` at the end of the buffer. -/
def extendFromSlice (bytes : Text) : Stateful Fault Text Unit := fun out => (.ok (), out ++ bytes)

/-- A call whose error cuts the buffer back to `start` bytes. -/
def truncating (start : ℕ) (call : Stateful Fault Text Unit) : Stateful Fault Text Unit :=
  fun out =>
    match call.run out with
    | (.error (.err error), out) => (fail error, out.take start)
    | (.error (.panic panic), out) => (abort panic, out)
    | (.ok _, out) => (.ok (), out)

namespace LongString

/-- Put the records of the substrings at the end of the buffer. -/
def renderPiecesInto (chain : LongString) (first : Bool) : List Text → Stateful Fault Text Unit
  | [] => pure ()
  | piece :: rest => do
    let record ← Stateful.lift (chain.renderPiece first rest.isEmpty piece)
    extendFromSlice record
    chain.renderPiecesInto false rest

/-- Put the records of the chain at the end of the buffer. -/
def renderInto (chain : LongString) : Stateful Fault Text Unit := do
  let ownRecord ← Stateful.lift chain.commentNeedsOwnRecord
  chain.renderPiecesInto true (chain.pieces ++ if ownRecord then [[]] else [])

end LongString

variable {R : Type} [RealText R]

/-- Put the records of `record` at the end of the buffer. -/
def renderInto (record : Record R) : Stateful Fault Text Unit := do
  Stateful.lift (validateContents record)
  match continuationChain record with
  | some chain => do
    let out ← Stateful.get
    truncating out.length chain.renderInto
  | none => do
    let bytes ← Stateful.lift (renderOne record)
    extendFromSlice bytes

theorem run_extendFromSlice (bytes out : Text) :
    (extendFromSlice bytes).run out = (.ok (), out ++ bytes) := rfl

namespace LongString

/-- The records of the substrings go to the end of the buffer. -/
theorem run_renderPiecesInto {chain : LongString} {first : Bool} {pieces : List Text}
    {bytes : Text} (h : chain.renderPieces first pieces = .ok bytes) (out : Text) :
    (chain.renderPiecesInto first pieces).run out = (.ok (), out ++ bytes) := by
  induction pieces generalizing first bytes out with
  | nil =>
    rw [← Except.ok.inj h, List.append_nil]
    rfl
  | cons piece rest ih =>
    obtain ⟨record, hrecord, h⟩ := Loops.ok_of_bind h
    obtain ⟨records, hrecords, h⟩ := Loops.ok_of_bind h
    rw [renderPiecesInto, hrecord, Stateful.run_bind (Stateful.run_lift _ _),
      Stateful.run_bind (run_extendFromSlice _ _), ih hrecords, ← Except.ok.inj h,
      List.append_assoc]

/-- A chain that renders goes to the end of the buffer. -/
theorem run_renderInto {chain : LongString} {bytes : Text} (h : chain.render = .ok bytes)
    (out : Text) : chain.renderInto.run out = (.ok (), out ++ bytes) := by
  obtain ⟨own, hown, h⟩ := Loops.ok_of_bind h
  rw [renderInto, hown, Stateful.run_bind (Stateful.run_lift _ _)]
  exact run_renderPiecesInto h out

/-- A chain renders where its comment finds a place: its pieces fit their records. -/
theorem render_of_commentNeedsOwnRecord {chain : LongString} {own : Bool}
    (h : chain.commentNeedsOwnRecord = .ok own) :
    chain.render =
      .ok (chain.cardsOf true (chain.pieces ++ if own then [[]] else [])).flatten := by
  obtain ⟨first, rest, hpieces, -, hfits⟩ := fits_of_commentNeedsOwnRecord h
  rw [render, h, Loops.bind_ok rfl, hpieces]
  exact renderPieces_of_fits hfits

/-- A chain that does not render puts nothing in the buffer. -/
theorem run_renderInto_error {chain : LongString} {fault : Fault}
    (h : chain.commentNeedsOwnRecord = .error fault) (out : Text) :
    chain.renderInto.run out = (.error fault, out) := by
  rw [renderInto, h]
  exact Stateful.run_bind_error (Stateful.run_lift _ _)

end LongString

theorem run_truncating {call : Stateful Fault Text Unit} {start : ℕ} {out out' : Text}
    (h : call.run out = (.ok (), out')) : (truncating start call).run out = (.ok (), out') := by
  unfold Stateful.run at h
  simp only [truncating, Stateful.run, h]

theorem run_truncating_error {call : Stateful Fault Text Unit} {start : ℕ} {out out' : Text}
    {error : FitsError} (h : call.run out = (.error (.err error), out')) :
    (truncating start call).run out = (.error (.err error), out'.take start) := by
  unfold Stateful.run at h
  simp only [truncating, Stateful.run, h, fail]

/-- A record that renders goes to the end of the buffer. -/
theorem run_renderInto {record : Record R} {bytes : Text} (h : renderRecord record = .ok bytes)
    (out : Text) : (renderInto record).run out = (.ok (), out ++ bytes) := by
  rw [renderRecord_eq] at h
  obtain ⟨_, hcontents, h⟩ := Loops.ok_of_bind h
  rw [renderInto, hcontents, Stateful.run_bind (Stateful.run_lift _ _)]
  cases hchain : continuationChain record with
  | none =>
    rw [hchain] at h
    dsimp only
    have h : renderOne record = .ok bytes := h
    rw [h, Stateful.run_bind (Stateful.run_lift _ _)]
    exact run_extendFromSlice bytes out
  | some chain =>
    rw [hchain] at h
    exact run_truncating (LongString.run_renderInto h out)

/-- A record that does not render leaves the buffer, with an error and no panic. -/
theorem run_renderInto_error {record : Record R} {fault : Fault}
    (h : renderRecord record = .error fault) (out : Text) :
    (renderInto record).run out = (.error fault, out) ∧ ∃ error, fault = .err error := by
  rw [renderRecord_eq] at h
  rw [renderInto]
  cases hcontents : validateContents record with
  | error contents =>
    rw [hcontents] at h
    cases h
    exact ⟨Stateful.run_bind_error (Stateful.run_lift _ _),
      (noPanic_validateContents record).exists_err hcontents⟩
  | ok _ =>
    rw [hcontents, Loops.bind_ok rfl] at h
    rw [Stateful.run_bind (Stateful.run_lift _ _)]
    cases hchain : continuationChain record with
    | none =>
      rw [hchain] at h
      have h : renderOne record = .error fault := h
      dsimp only
      rw [h]
      exact ⟨Stateful.run_bind_error (Stateful.run_lift _ _),
        (noPanic_renderOne hcontents).exists_err h⟩
    | some chain =>
      rw [hchain] at h
      have h : chain.render = .error fault := h
      cases hown : chain.commentNeedsOwnRecord with
      | ok own =>
        rw [LongString.render_of_commentNeedsOwnRecord hown] at h
        cases h
      | error other =>
        rw [LongString.render, hown] at h
        cases h
        obtain ⟨error, rfl⟩ := chain.noPanic_commentNeedsOwnRecord.exists_err hown
        refine ⟨?_, error, rfl⟩
        have hrun := @run_truncating_error _ out.length _ _ _
          (LongString.run_renderInto_error hown out)
        rw [List.take_length] at hrun
        exact hrun

/-! ## The check -/

/-- Commentary reads back from its card. -/
def Record.ReadsBack (record : Record R) (bytes : Text) : Prop :=
  match record with
  | .commentary _ _ => ∃ repairs, ParsedRecord.parse bytes = .ok (repairs, .record record)
  | _ => True

omit [RealText R] in
theorem Record.readsAs_iff {parsed : ParsedRecord R} {name : CommentaryName}
    {text : Option Text} :
    readsAs parsed name text = true ↔ parsed = .record (.commentary name text) := by
  unfold readsAs
  split
  · rename_i own ownText
    rw [Bool.and_eq_true, beq_iff_eq, beq_iff_eq]
    constructor
    · rintro ⟨rfl, rfl⟩
      rfl
    · intro h
      cases h
      exact ⟨rfl, rfl⟩
  · rename_i hother
    constructor
    · intro h
      cases h
    · rintro rfl
      exact (hother name text rfl).elim

/-- A record passes its check where it renders and, for commentary, reads back. -/
theorem Record.validate_eq_ok_iff (record : Record R) :
    record.validate = .ok () ↔
      ∃ bytes, renderRecord record = .ok bytes ∧ record.ReadsBack bytes := by
  rw [renderRecord_eq, Record.validate]
  cases hcontents : validateContents record with
  | error fault =>
    constructor
    · intro h
      cases h
    · rintro ⟨bytes, h, -⟩
      cases h
  | ok _ =>
    rw [Loops.bind_ok rfl, Loops.bind_ok rfl]
    cases hchain : continuationChain record with
    | some chain =>
      have hreads : ∀ bytes, record.ReadsBack bytes := by
        intro bytes
        cases record with
        | commentary name text => cases hchain
        | malformed name raw defect => trivial
        | valued keyword value comment => trivial
        | hierarch name value comment => trivial
      rw [Option.elim_some]
      constructor
      · intro h
        obtain ⟨own, hown, -⟩ := Loops.ok_of_bind h
        exact ⟨_, LongString.render_of_commentNeedsOwnRecord hown, hreads _⟩
      · rintro ⟨bytes, h, -⟩
        obtain ⟨own, hown, -⟩ := Loops.ok_of_bind h
        exact Loops.bind_ok hown
    | none =>
      rw [Option.elim_none]
      cases hone : renderOne record with
      | error fault =>
        constructor
        · intro h
          cases h
        · rintro ⟨bytes, h, -⟩
          cases h
      | ok raw =>
        cases record with
        | malformed name raw defect => cases hone
        | valued keyword value comment => exact iff_of_true rfl ⟨raw, rfl, trivial⟩
        | hierarch name value comment => exact iff_of_true rfl ⟨raw, rfl, trivial⟩
        | commentary name text =>
          rw [Loops.bind_ok rfl]
          constructor
          · intro h
            obtain ⟨parsed, hparsed, h⟩ := Loops.ok_of_bind h
            by_cases hreads : readsAs parsed.2 name text = true
            · rw [readsAs_iff] at hreads
              exact ⟨raw, rfl, parsed.1, hparsed.trans (congrArg Except.ok (Prod.ext rfl hreads))⟩
            · rw [if_neg hreads] at h
              cases h
          · rintro ⟨bytes, hbytes, repairs, hparsed⟩
            obtain rfl := Except.ok.inj hbytes
            have hreads : readsAs (.record (.commentary name text) : ParsedRecord R) name text =
                true := readsAs_iff.mpr rfl
            refine (Loops.bind_ok hparsed).trans ?_
            rw [if_pos hreads]

/-! ## The cards -/

theorem CommentaryName.isAscii_name (name : CommentaryName) : name.name.all isAscii = true := by
  have h := name.admitted
  simp only [NameRule.admits, Bool.and_eq_true] at h
  exact all_isAscii_of_printable h.2

theorem isAscii_padTo {width : ℕ} {text : Text} (h : text.all isAscii = true) :
    (padTo width text).all isAscii = true := by
  rw [padTo, List.all_append, h]
  exact isAscii_spaces _

/-- A card of commentary is ASCII. -/
theorem asciiCard_commentary {name : CommentaryName} {text : Option Text} {bytes : Text}
    (hcontents : validateContents (.commentary name text : Record R) = .ok ())
    (h : renderOne (.commentary name text : Record R) = .ok bytes) : AsciiCard bytes := by
  refine ⟨renderOne_length h, ?_⟩
  cases text with
  | none =>
    rw [← Except.ok.inj h]
    exact isAscii_padTo name.isAscii_name
  | some text =>
    have htext := all_isAscii_of_printable (printable_of_validateAscii hcontents)
    obtain ⟨written, hwritten, h⟩ := Loops.ok_of_bind h
    obtain ⟨-, rfl⟩ :=
      (@writeStrAt_eq_ok_iff name.name text _ 8 written name.length_le).mp hwritten
    rw [← Except.ok.inj h]
    refine isAscii_padTo ?_
    rw [List.all_append, isAscii_padTo name.isAscii_name, htext]
    rfl

/-- One record with a value is an ASCII card. -/
theorem asciiCard_renderOne [RealsReadBack R] {lead : Lead} {value : Value R}
    {comment : Option Text} {bytes : Text} (hlead : lead.Valued)
    (hcontents : validateContents (lead.record value comment) = .ok ())
    (h : renderOne (lead.record value comment) = .ok bytes) : AsciiCard bytes := by
  obtain ⟨hcomment, hvalue⟩ := contents_of_validateContents hlead hcontents
  refine ⟨renderOne_length h, ?_⟩
  obtain ⟨text, n, hopens, rfl⟩ := renderOne_line hlead h
  rw [List.all_append, List.all_append, List.all_append, hopens.ascii,
    (fieldToken_writeValue hvalue).ascii, isAscii_commentText hcomment, isAscii_spaces]
  rfl

namespace LongString

/-- A card of the chain holds a substring between its quotes, whole. -/
def Holds (chain : LongString) (piece card : Text) : Prop :=
  ∃ first last n, card = leadText chain.lead first ++ quoted piece last ++
    commentText (if last then chain.comment else none) ++ spaces n

theorem holds_cardsOf (chain : LongString) (first : Bool) (pieces : List Text) :
    List.Forall₂ chain.Holds pieces (chain.cardsOf first pieces) := by
  induction pieces generalizing first with
  | nil => exact .nil
  | cons piece rest ih => exact .cons ⟨first, rest.isEmpty, _, rfl⟩ (ih false)

theorem asciiCard_cardsOf {chain : LongString} {first : Bool} {pieces : List Text}
    (hlead : chain.lead.Valued) (hcomment : validateComment chain.lead chain.comment = .ok ())
    (hascii : ∀ piece ∈ pieces, piece.all isAscii = true) (hfits : chain.Fits first pieces) :
    ∀ card ∈ chain.cardsOf first pieces, AsciiCard card := by
  have hopens : ∀ first, (leadText chain.lead first).all isAscii = true := by
    intro first
    cases first with
    | true => exact (opens_leadText hlead).ascii
    | false => exact isAscii_padTo (CommentaryName.isAscii_name _)
  induction pieces generalizing first with
  | nil => exact fun card hmem => absurd hmem List.not_mem_nil
  | cons piece rest ih =>
    intro card hmem
    rcases List.mem_cons.mp hmem with rfl | hmem
    · exact asciiCard_piece hcomment (hascii piece List.mem_cons_self) hfits.1 (hopens first)
    · exact ih (fun other hother => hascii other (List.mem_cons_of_mem piece hother)) hfits.2
        card hmem

end LongString

/-- The name of a record with a value, and the record of it. -/
theorem Record.exists_lead {record : Record R} (h : validateContents record = .ok ()) :
    (∃ name text, record = .commentary name text) ∨
      ∃ (lead : Lead) (value : Value R) (comment : Option Text),
        record = lead.record value comment ∧ lead.Valued := by
  cases record with
  | malformed name raw defect => cases h
  | commentary name text => exact .inl ⟨name, text, rfl⟩
  | valued keyword value comment =>
    obtain ⟨_, hkeyword, -⟩ := Loops.ok_of_bind h
    exact .inr ⟨.keyword keyword, value, comment, rfl, hkeyword⟩
  | hierarch name value comment => exact .inr ⟨.hierarch name, value, comment, rfl, rfl⟩

/-- A record renders to ASCII cards, and a chain to one for each substring. -/
theorem asciiCards_renderRecord [RealsReadBack R] {record : Record R} {bytes : Text}
    (h : renderRecord record = .ok bytes) : ∃ cards : List Text, bytes = cards.flatten ∧
      (∀ card ∈ cards, AsciiCard card) ∧ ∀ chain, continuationChain record = some chain →
        ∃ own : Bool, List.Forall₂ chain.Holds (chain.pieces ++ if own then [[]] else []) cards := by
  rw [renderRecord_eq] at h
  obtain ⟨_, hcontents, h⟩ := Loops.ok_of_bind h
  have hone : continuationChain record = none → AsciiCard bytes →
      ∃ cards : List Text, bytes = cards.flatten ∧ (∀ card ∈ cards, AsciiCard card) ∧
        ∀ chain, continuationChain record = some chain → ∃ own : Bool,
          List.Forall₂ chain.Holds (chain.pieces ++ if own then [[]] else []) cards := by
    intro hnone hcard
    refine ⟨[bytes], by rw [List.flatten_singleton], ?_, fun chain hchain => ?_⟩
    · intro card hmem
      rwa [List.mem_singleton.mp hmem]
    · rw [hnone] at hchain
      cases hchain
  rcases Record.exists_lead hcontents with ⟨name, text, rfl⟩ | ⟨lead, value, comment, rfl, hlead⟩
  · exact hone rfl (asciiCard_commentary hcontents h)
  · cases hchain : continuationChain (lead.record value comment) with
    | none =>
      rw [hchain] at h
      exact hchain ▸ hone hchain (asciiCard_renderOne hlead hcontents h)
    | some chain =>
      rw [hchain] at h
      obtain ⟨text, rfl, rfl⟩ := chain_of_continuationChain hlead hchain
      obtain ⟨hcomment, hvalue⟩ := contents_of_validateContents hlead hcontents
      have hprintable := all_isAscii_of_printable (printable_of_validateAscii hvalue)
      obtain ⟨own, hown, -⟩ := Loops.ok_of_bind h
      have hrender := LongString.render_of_commentNeedsOwnRecord hown
      obtain ⟨first, rest, hpieces, hjoin, hfits⟩ := LongString.fits_of_commentNeedsOwnRecord hown
      have hbytes := Except.ok.inj (h.symm.trans hrender)
      rw [hpieces] at hbytes
      refine ⟨_, hbytes, LongString.asciiCard_cardsOf hlead hcomment ?_ hfits, ?_⟩
      · intro piece hmem
        have hwhole : (first :: rest).flatten = text := hjoin
        rw [← hwhole] at hprintable
        exact all_of_sublist hprintable (List.sublist_flatten_of_mem hmem)
      · rintro other hother
        obtain rfl := Option.some.inj hother
        refine ⟨own, ?_⟩
        rw [hpieces]
        exact LongString.holds_cardsOf _ true (first :: rest)

/-- A record passes its check exactly where it renders into a buffer and, for commentary,
reads back. It fails with an error, and then leaves the buffer; it adds ASCII cards, which
hold the substrings of a long text whole; and the iterator over these ends. -/
theorem validate_agrees_with_renderInto [RealsReadBack R] (record : Record R) (out : Text) :
    (record.validate = .ok () ↔ ∃ bytes,
      (renderInto record).run out = (.ok (), out ++ bytes) ∧ record.ReadsBack bytes) ∧
    (∀ fault left, (renderInto record).run out = (.error fault, left) →
      left = out ∧ ∃ error, fault = .err error) ∧
    (∀ left, (renderInto record).run out = (.ok (), left) →
      ∃ cards : List Text, left = out ++ cards.flatten ∧ (∀ card ∈ cards, AsciiCard card) ∧
        ∀ chain, continuationChain record = some chain → ∃ own : Bool,
          List.Forall₂ chain.Holds (chain.pieces ++ if own then [[]] else []) cards) ∧
    ∀ chain : LongString,
      chain.iter.collect (chain.text.length + 2) = some chain.pieces ∧
      chain.pieces.flatten = chain.text ∧
      ∀ limit, ∃ pieces, PieceIter.collect (chain.text.length + 2) ⟨chain.text, some 0, limit⟩ =
        some pieces ∧ pieces.flatten = chain.text := by
  refine ⟨?_, ?_, ?_, fun chain => ⟨PieceIter.collect_eq _ _, LongString.flatten_piecesFrom _ _,
    fun limit => ⟨_, PieceIter.collect_eq _ _, LongString.flatten_piecesFrom _ _⟩⟩⟩
  · rw [Record.validate_eq_ok_iff]
    constructor
    · rintro ⟨bytes, hbytes, hreads⟩
      exact ⟨bytes, run_renderInto hbytes out, hreads⟩
    · rintro ⟨bytes, hrun, hreads⟩
      cases hrender : renderRecord record with
      | error fault =>
        rw [(run_renderInto_error hrender out).1] at hrun
        cases hrun
      | ok rendered =>
        rw [run_renderInto hrender] at hrun
        obtain rfl := List.append_cancel_left (congrArg Prod.snd hrun)
        exact ⟨rendered, rfl, hreads⟩
  · intro fault left hrun
    cases hrender : renderRecord record with
    | ok bytes =>
      rw [run_renderInto hrender] at hrun
      cases hrun
    | error other =>
      obtain ⟨hother, herror⟩ := run_renderInto_error hrender out
      rw [hother] at hrun
      cases hrun
      exact ⟨rfl, herror⟩
  · intro left hrun
    cases hrender : renderRecord record with
    | error fault =>
      rw [(run_renderInto_error hrender out).1] at hrun
      cases hrun
    | ok bytes =>
      rw [run_renderInto hrender] at hrun
      obtain ⟨cards, rfl, hcards⟩ := asciiCards_renderRecord hrender
      exact ⟨cards, (congrArg Prod.snd hrun).symm, hcards⟩

/-- A long text of doubled quotes with a comment, put after a byte. -/
theorem validate_agrees_with_renderInto_long :
    (Record.valued Keyword.XTENSION (.text (List.replicate 70 quote)) (some (ascii "long")) :
      Record ℤ).validate = .ok () ∧ ∃ bytes,
    (renderInto (.valued Keyword.XTENSION (.text (List.replicate 70 quote))
      (some (ascii "long")) : Record ℤ)).run [space] = (.ok (), [space] ++ bytes) := by
  have hvalid : (Record.valued Keyword.XTENSION (.text (List.replicate 70 quote))
      (some (ascii "long")) : Record ℤ).validate = .ok () := by decide +kernel
  obtain ⟨bytes, hrun, -⟩ := (validate_agrees_with_renderInto _ [space]).1.mp hvalid
  exact ⟨hvalid, bytes, hrun⟩

end FitsWell
