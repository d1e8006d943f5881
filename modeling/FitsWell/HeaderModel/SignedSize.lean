import FitsWell.HeaderModel.SignedHeader

/-!
# The size of a signed header

A header that renders plainly renders signed where the comments of its checksum records fit
beside any digits, and then all its signed renders have one size.
-/

namespace FitsWell

variable {R : Type}

namespace Header

variable (header : Header R)

/-! ## The records that signing keeps -/

theorem markedRecord_congr {one other : Signing} (hone : one ≠ .unsigned) (hother : other ≠ .unsigned)
    {item : Record R × ℕ} (hitem : header.records[item.2]? = some item.1)
    (hplace : header.index Keyword.DATASUM ≠ some item.2) :
    header.markedRecord one item = header.markedRecord other item := by
  have hsigns : ∀ signing : Signing, signing ≠ .unsigned → ∀ keyword,
      item.1.keyword = some keyword →
      (header.signs signing keyword item.2 = true ↔
        IsChecksumKeyword keyword ∧ header.index keyword = some item.2) :=
    fun signing hsigning keyword hkeyword => header.signs_iff hsigning hitem hkeyword
  unfold markedRecord
  cases hkeyword : item.1.keyword with
  | none => rfl
  | some keyword =>
    dsimp only
    by_cases hsigned : IsChecksumKeyword keyword ∧ header.index keyword = some item.2
    · rw [if_pos ((hsigns one hone keyword hkeyword).mpr hsigned),
        if_pos ((hsigns other hother keyword hkeyword).mpr hsigned)]
      rcases hsigned with ⟨rfl | rfl, hindex⟩
      · exact absurd hindex hplace
      · rfl
    · rw [if_neg (fun h => hsigned ((hsigns one hone keyword hkeyword).mp h)),
        if_neg (fun h => hsigned ((hsigns other hother keyword hkeyword).mp h))]

/-- Signed renders differ in the record of the data's sum only. -/
theorem markedRecords_dataSum : ∃ before after : Marked R, ∀ signing : Signing,
    signing ≠ .unsigned → header.markedRecords signing = before ++
      (false, signing.record Keyword.DATASUM (header.signedComment Keyword.DATASUM)) :: after := by
  have hplaceholder : Signing.placeholder ≠ .unsigned := by decide
  cases hindex : header.index Keyword.DATASUM with
  | some i =>
    obtain ⟨record, hrecord, hkeyword⟩ := header.keyword_of_index hindex
    obtain ⟨before, after, hsplit, hbefore, hafter⟩ := header.zipIdx_split hrecord
    refine ⟨before.map (header.markedRecord .placeholder),
      after.map (header.markedRecord .placeholder) ++
        if header.index Keyword.CHECKSUM = none then
          [(true, Signing.placeholder.record Keyword.CHECKSUM none)] else [],
      fun signing hsigning => ?_⟩
    have hmarked : header.markedRecord signing (record, i) =
        (false, signing.record Keyword.DATASUM (header.signedComment Keyword.DATASUM)) := by
      have hsigns := (header.signs_iff hsigning hrecord hkeyword).mpr ⟨Or.inl rfl, hindex⟩
      rw [markedRecord]
      dsimp only
      rw [hkeyword]
      dsimp only
      rw [if_pos hsigns, signedComment, hindex, Option.bind_some, hrecord]
      rfl
    have hsame : ∀ items : List (Record R × ℕ),
        (∀ item ∈ items, header.records[item.2]? = some item.1 ∧ item.2 ≠ i) →
        items.map (header.markedRecord signing) = items.map (header.markedRecord .placeholder) := by
      intro items hitems
      refine List.map_congr_left (fun item hitem => ?_)
      obtain ⟨hplace, hne⟩ := hitems item hitem
      exact header.markedRecord_congr hsigning hplaceholder hplace
        (fun h => hne (Option.some.inj (h.symm.trans hindex)))
    rw [markedRecords, header.missingRecords_eq hsigning, hsplit, List.map_append, List.map_cons,
      hmarked, hsame before (fun item hitem => ⟨(hbefore item hitem).1, (hbefore item hitem).2.ne⟩),
      hsame after (fun item hitem => ⟨(hafter item hitem).1, (hafter item hitem).2.ne'⟩), hindex,
      if_neg (by simp), List.nil_append, List.append_assoc, List.cons_append]
    rfl
  | none =>
    refine ⟨header.records.zipIdx.map (header.markedRecord .placeholder),
      if header.index Keyword.CHECKSUM = none then
        [(true, Signing.placeholder.record Keyword.CHECKSUM none)] else [],
      fun signing hsigning => ?_⟩
    have hcomment : header.signedComment Keyword.DATASUM = none := by
      rw [signedComment, hindex]
      rfl
    have hsame : header.records.zipIdx.map (header.markedRecord signing) =
        header.records.zipIdx.map (header.markedRecord .placeholder) := by
      refine List.map_congr_left (fun item hitem => ?_)
      exact header.markedRecord_congr hsigning hplaceholder
        (List.mem_zipIdx_iff_getElem?.mp hitem) (by rw [hindex]; simp)
    rw [markedRecords, header.missingRecords_eq hsigning, hsame, hcomment, hindex, if_pos rfl]
    rfl

/-- What a signed render writes: a record of the header, or one of the checksum records. -/
theorem mem_markedRecords {signing : Signing} (hsigning : signing ≠ .unsigned)
    {item : Bool × Record R} (h : item ∈ header.markedRecords signing) :
    item.2 ∈ header.records ∨ ∃ keyword, IsChecksumKeyword keyword ∧
      item.2 = signing.record keyword (header.signedComment keyword) := by
  rw [markedRecords, header.missingRecords_eq hsigning] at h
  have hmissing : ∀ keyword, header.index keyword = none → header.signedComment keyword = none := by
    intro keyword hindex
    rw [signedComment, hindex]
    rfl
  rcases List.mem_append.mp h with h | h
  · obtain ⟨⟨record, i⟩, hsource, rfl⟩ := List.mem_map.mp h
    have hrecord := List.mem_zipIdx_iff_getElem?.mp hsource
    rcases header.markedRecord_eq hsigning hrecord with ⟨hkept, -⟩ | ⟨keyword, hchecksum, -, hnew⟩
    · rw [hkept]
      exact Or.inl (List.mem_of_getElem? hrecord)
    · rw [hnew]
      exact Or.inr ⟨keyword, hchecksum, rfl⟩
  · rcases List.mem_append.mp h with h | h
    · split at h
      · rename_i hindex
        rw [List.mem_singleton.mp h]
        exact Or.inr ⟨_, Or.inl rfl, by rw [hmissing _ hindex]⟩
      · cases h
    · split at h
      · rename_i hindex
        rw [List.mem_singleton.mp h]
        exact Or.inr ⟨_, Or.inr rfl, by rw [hmissing _ hindex]⟩
      · cases h

section Rendering

variable [RealText R] {header} {spare : ℕ} {out : Text}

/-- A plain render's records render, and its blocks can be allocated. -/
theorem records_of_unsigned (h : header.renderInto .unsigned (.spare spare) = .ok out) :
    ∀ record ∈ header.records, ∃ card, renderRecord record = .ok card := by
  obtain ⟨rendered, hrendered, -⟩ := Loops.ok_of_bind h
  obtain ⟨cards, hcards, -⟩ := (renderRecords_unsigned _ _).mp hrendered
  exact exists_renders.mp ⟨cards, hcards⟩

/-- The comment of a record that renders is one a record may have. -/
theorem validateComment_of_render {record : Record R} {keyword : Keyword} {card : Text}
    (h : renderRecord record = .ok card) (hkeyword : record.keyword = some keyword) :
    validateComment (.keyword keyword) record.comment = .ok () := by
  obtain ⟨_, hcontents, -⟩ := Loops.ok_of_bind h
  cases record with
  | valued named value comment =>
    obtain rfl : named = keyword := Option.some.inj hkeyword
    obtain ⟨_, -, hcontents⟩ := Loops.ok_of_bind hcontents
    obtain ⟨_, hcomment, -⟩ := Loops.ok_of_bind hcontents
    exact hcomment
  | commentary name text => cases hkeyword
  | hierarch name value comment => cases hkeyword
  | malformed name raw defect => cases hcontents

theorem validateComment_signed (hrecords : ∀ record ∈ header.records,
    ∃ card, renderRecord record = .ok card) (keyword : Keyword) :
    validateComment (.keyword keyword) (header.signedComment keyword) = .ok () := by
  cases hindex : header.index keyword with
  | none =>
    rw [signedComment, hindex]
    rfl
  | some i =>
    obtain ⟨record, hrecord, hkeyword⟩ := header.keyword_of_index hindex
    obtain ⟨card, hcard⟩ := hrecords record (List.mem_of_getElem? hrecord)
    rw [signedComment, hindex, Option.bind_some, hrecord, Option.bind_some]
    exact validateComment_of_render hcard hkeyword

end Rendering

/-! ## The texts of the checksum records -/

theorem shortText_numeral {n : ℕ} (h : n < 2 ^ 32) : ShortText (Decimal.numeral n) where
  nonempty := Decimal.numeral_ne_nil n
  length := le_trans (Decimal.numeral_length_le (k := 10) (by decide) (by omega)) (by decide)
  printable := by
    rw [List.all_eq_true]
    intro byte hbyte
    obtain ⟨hlow, hhigh⟩ := Decimal.isDigit_numeral hbyte
    refine isPrintable_of_isAlphanumeric ?_
    unfold Checksum.isAlphanumeric isAsciiDigit
    simp [UInt8.le_iff_toNat_le] at hlow hhigh ⊢
    omega
  quotes := by
    intro hquote
    have hbyte : quote.toNat = 39 := rfl
    have hlow := (Decimal.isDigit_numeral hquote).1
    omega

/-- The digits of the data's sum in a signed render. -/
def digits (signing : Signing) : ℕ := (signing.text Keyword.DATASUM).length

theorem shortText_text (signing : Signing) (keyword : Keyword) :
    ShortText (signing.text keyword) := by
  unfold Signing.text
  split
  · cases signing with
    | withDataSum sum => exact shortText_numeral sum.toNat_lt
    | unsigned => exact shortText_numeral (n := 0) (by decide)
    | placeholder => exact shortText_numeral (n := 0) (by decide)
  · exact placeholder_short

theorem digits_bounds (signing : Signing) : 1 ≤ digits signing ∧ digits signing ≤ 10 := by
  refine ⟨List.length_pos_iff.mpr (shortText_text signing _).nonempty, ?_⟩
  cases signing with
  | withDataSum sum =>
    have hlt := sum.toNat_lt
    exact Decimal.numeral_length_le (k := 10) (by decide) (by omega)
  | unsigned => decide
  | placeholder => decide

section Rendering

variable [RealText R] {header : Header R} {spare : ℕ} {out : Text}

/-- A checksum record renders where its comment fits beside its text, to the cards of both. -/
theorem render_signed_iff (hrecords : ∀ record ∈ header.records,
    ∃ card, renderRecord record = .ok card) (signing : Signing) {keyword : Keyword}
    (hchecksum : IsChecksumKeyword keyword) (cards : ℕ) :
    ((∃ card, renderRecord (signing.record keyword (header.signedComment keyword) : Record R) =
      .ok card) ∧
      recordCards (signing.record keyword (header.signedComment keyword) : Record R) = cards) ↔
    textCards (signing.text keyword).length (header.signedComment keyword) = some cards := by
  have hkeyword : validateValuedKeyword keyword = .ok () := by
    rcases hchecksum with rfl | rfl <;> decide
  have hshort := shortText_text signing keyword
  have hvalid := validateComment_signed hrecords keyword
  have hrender : ∀ bytes, renderRecord
      (signing.record keyword (header.signedComment keyword) : Record R) = .ok bytes ↔ _ :=
    fun bytes => renderText_eq_ok_iff hshort hkeyword
  have hsize : ∀ {found}, textCards (signing.text keyword).length (header.signedComment keyword) =
      some found → recordCards (signing.record keyword (header.signedComment keyword) : Record R) =
        found := by
    intro found hfound
    have hok := (hrender _).mpr ⟨hvalid, by rw [hfound]; rfl, rfl⟩
    have hlength := (renderRecord_length hok).symm.trans (length_textBytes hshort hfound)
    exact Nat.eq_of_mul_eq_mul_left (by decide) hlength
  constructor
  · rintro ⟨⟨card, hcard⟩, rfl⟩
    obtain ⟨-, hsome, -⟩ := (hrender card).mp hcard
    obtain ⟨found, hfound⟩ := Option.isSome_iff_exists.mp hsome
    rw [hfound, hsize hfound]
  · intro hcards
    exact ⟨⟨_, (hrender _).mpr ⟨hvalid, by rw [hcards]; rfl, rfl⟩⟩, hsize hcards⟩

/-- A header that renders plainly renders signed where its checksum records do. -/
theorem renders_signed_iff (hrecords : ∀ record ∈ header.records,
    ∃ card, renderRecord record = .ok card) {signing : Signing} (hsigning : signing ≠ .unsigned) :
    (∀ item ∈ header.markedRecords signing, ∃ card, renderRecord item.2 = .ok card) ↔
      ∀ keyword, IsChecksumKeyword keyword →
        (textCards (signing.text keyword).length (header.signedComment keyword)).isSome := by
  constructor
  · intro h keyword hchecksum
    obtain ⟨before, after, hsplit, -⟩ := header.markedRecords_split hsigning hchecksum
    rw [hsplit] at h
    obtain ⟨card, hcard⟩ := h _ (List.mem_append_right _ List.mem_cons_self)
    rw [(render_signed_iff hrecords signing hchecksum _).mp ⟨⟨card, hcard⟩, rfl⟩]
    rfl
  · intro h item hitem
    rcases header.mem_markedRecords hsigning hitem with hkept | ⟨keyword, hchecksum, hnew⟩
    · exact hrecords _ hkept
    · obtain ⟨cards, hcards⟩ := Option.isSome_iff_exists.mp (h keyword hchecksum)
      rw [hnew]
      exact ((render_signed_iff hrecords signing hchecksum cards).mpr hcards).1

/-! ## One size for every sum -/

/-- The signed renders of the header return, all of one size. -/
def SignsStably (header : Header R) (spare : ℕ) : Prop :=
  ∃ len, (∃ out, header.renderInto .placeholder (.spare spare) = .ok out ∧ out.length = len) ∧
    ∀ sum, ∃ out, header.renderInto (.withDataSum sum) (.spare spare) = .ok out ∧ out.length = len

omit [RealText R] in
/-- The cards of a placeholder render. -/
def signedCards (header : Header R) : ℕ := cardsOf (header.markedRecords .placeholder)

/-- The comments of the checksum records fit beside any digits of a sum, and the blocks can
be allocated. A comment of 56 or 57 characters takes a card of its own beside the longest
sums only, so that card has to be free in the last block. -/
structure RoomToSign (header : Header R) (spare : ℕ) : Prop where
  dataSum : ∀ comment, header.signedComment Keyword.DATASUM = some comment →
    comment.length ≤ 55 ∨ comment.length = 65 ∨
      comment.length ≤ 57 ∧ (header.signedCards + spare + 1) % 36 ≠ 0
  checksum : ∀ comment, header.signedComment Keyword.CHECKSUM = some comment → comment.length ≤ 65
  memory : blockBytes (header.signedCards + spare + 1) ≤ isizeMax

omit [RealText R] in
theorem isSome_textCards_checksum {comment : Option Text} :
    (textCards 16 comment).isSome ↔ ∀ text, comment = some text → text.length ≤ 65 := by
  cases comment with
  | none => simp [textCards]
  | some comment =>
    simp only [Option.some.injEq, forall_eq', textCards]
    split
    · rw [if_pos (by omega)]
      exact iff_of_true rfl (by omega)
    · split
      · rename_i hfits
        exact iff_of_true rfl hfits
      · rename_i hlong
        exact iff_of_false (by simp) hlong

omit [RealText R] in
/-- The cards of a sum's record, from the length of its comment. -/
theorem textCards_dataSum {digits : ℕ} (hlow : 1 ≤ digits) (hhigh : digits ≤ 10) (text : Text) :
    (text.length ≤ 55 → textCards digits (some text) = some 1) ∧
    (text.length = 65 → textCards digits (some text) = some 2) ∧
    (55 < text.length → text.length ≤ 57 →
      textCards digits (some text) = some (if digits + text.length ≤ 65 then 1 else 2)) := by
  unfold textCards
  dsimp only
  refine ⟨fun h => ?_, fun h => ?_, fun hmin hmax => ?_⟩
  · rw [if_pos (by omega), if_pos (by omega)]
  · rw [if_neg (by omega), if_pos (by omega)]
  · split
    · rw [if_pos (by omega)]
    · rw [if_pos (by omega)]

omit [RealText R] in
/-- A comment that fits beside one digit. -/
theorem length_of_textCards_one {text : Text} (h : (textCards 1 (some text)).isSome) :
    text.length ≤ 57 ∨ text.length = 65 := by
  unfold textCards at h
  dsimp only at h
  split at h
  · split at h
    · omega
    · cases h
  · split at h
    · omega
    · cases h

omit [RealText R] in
/-- The cards of a signed render, but for those of the sum's record. -/
theorem cardsOf_signed (header : Header R) : ∃ others, ∀ signing : Signing, signing ≠ .unsigned →
    cardsOf (header.markedRecords signing) = others +
      recordCards (signing.record Keyword.DATASUM (header.signedComment Keyword.DATASUM) :
        Record R) := by
  obtain ⟨before, after, hsplit⟩ := header.markedRecords_dataSum
  refine ⟨cardsOf before + cardsOf after, fun signing hsigning => ?_⟩
  rw [hsplit signing hsigning]
  simp only [cardsOf, List.map_append, List.map_cons, List.sum_append, List.sum_cons]
  omega

/-- With room to sign, every signed render fills the blocks of the placeholder one. -/
theorem RoomToSign.blockBytes_eq (hrecords : ∀ record ∈ header.records,
    ∃ card, renderRecord record = .ok card) (h : RoomToSign header spare) (signing : Signing)
    (hsigning : signing ≠ .unsigned) :
    (∀ keyword, IsChecksumKeyword keyword →
      (textCards (signing.text keyword).length (header.signedComment keyword)).isSome) ∧
    blockBytes (cardsOf (header.markedRecords signing) + spare + 1) =
      blockBytes (header.signedCards + spare + 1) := by
  obtain ⟨others, hothers⟩ := cardsOf_signed header
  have hplaceholder := hothers .placeholder (by decide)
  have hcards : ∀ signing cards, textCards (digits signing)
      (header.signedComment Keyword.DATASUM) = some cards →
      recordCards (signing.record Keyword.DATASUM (header.signedComment Keyword.DATASUM) :
        Record R) = cards :=
    fun signing cards hfound => ((render_signed_iff hrecords signing (Or.inl rfl) cards).mpr hfound).2
  have hone : digits .placeholder = 1 := by decide
  obtain ⟨hlow, hhigh⟩ := digits_bounds signing
  have hdataSum : ∃ cards, textCards (digits signing)
      (header.signedComment Keyword.DATASUM) = some cards ∧
      blockBytes (others + cards + spare + 1) = blockBytes (header.signedCards + spare + 1) := by
    have hroom := h.dataSum
    rw [signedCards, hplaceholder] at hroom ⊢
    cases hcomment : header.signedComment Keyword.DATASUM with
    | none =>
      have hcard := hcards .placeholder 1 (by rw [hcomment]; rfl)
      rw [hcomment] at hcard
      exact ⟨1, rfl, by rw [hcard]⟩
    | some text =>
      obtain ⟨hshort, hown, hsplit⟩ := textCards_dataSum hlow hhigh text
      obtain ⟨hshort', hown', hsplit'⟩ := textCards_dataSum (hone ▸ le_rfl)
        (hone ▸ (by decide : 1 ≤ 10)) text
      have hroom := hroom text hcomment
      rw [hcomment] at hcards hroom
      rcases Nat.lt_or_ge 55 text.length with hlong | hlong
      · rcases hroom with hroom | hroom | ⟨hroom, hfree⟩
        · omega
        · exact ⟨2, hown hroom, by rw [hcards .placeholder 2 (hown' hroom)]⟩
        · have hcard := hcards .placeholder 1 (by rw [hsplit' hlong hroom, hone, if_pos (by omega)])
          rw [hcard] at hfree ⊢
          refine ⟨_, hsplit hlong hroom, ?_⟩
          unfold blockBytes
          split <;> omega
      · exact ⟨1, hshort hlong, by rw [hcards .placeholder 1 (hshort' hlong)]⟩
  obtain ⟨cards, hfound, hblocks⟩ := hdataSum
  refine ⟨?_, ?_⟩
  · rintro keyword (rfl | rfl)
    · have htext : (signing.text Keyword.DATASUM).length = digits signing := rfl
      rw [htext, hfound]
      rfl
    · exact isSome_textCards_checksum.mpr h.checksum
  · rw [hothers signing hsigning, hcards signing cards hfound, hblocks]

/-- A header that renders plainly has signed renders, all of one size, exactly where the
comments of its checksum records leave room for every sum. -/
theorem signsStably_iff (h : header.renderInto .unsigned (.spare spare) = .ok out) :
    SignsStably header spare ↔ RoomToSign header spare := by
  have hrecords := records_of_unsigned h
  constructor
  · rintro ⟨len, hplaceholder, hsums⟩
    have hlargest := hsums (UInt32.ofNat 4294967295)
    obtain ⟨hrenders, hmemory, hlen⟩ := (renderInto_signed_iff (by decide)).mp hplaceholder
    obtain ⟨hrenders', -, hlen'⟩ := (renderInto_signed_iff (by simp)).mp hlargest
    have hcards := (renders_signed_iff hrecords (by decide)).mp hrenders
    have hcards' := (renders_signed_iff hrecords (by simp)).mp hrenders'
    refine ⟨fun text hcomment => ?_, isSome_textCards_checksum.mp (hcards _ (Or.inr rfl)), hmemory⟩
    have hfits := hcards _ (Or.inl rfl)
    rw [hcomment] at hfits
    rcases length_of_textCards_one hfits with hshort | hown
    · rcases Nat.lt_or_ge 55 text.length with hlong | hlong
      · -- ten digits take a card more than one, in the same blocks
        obtain ⟨others, hothers⟩ := cardsOf_signed header
        have hone : digits .placeholder = 1 := by decide
        have hten : digits (.withDataSum (UInt32.ofNat 4294967295)) = 10 := by decide +kernel
        have hfirst := (textCards_dataSum (by decide) (by decide : 1 ≤ 10) text).2.2 hlong hshort
        have hlast := (textCards_dataSum (by decide) (by decide : 10 ≤ 10) text).2.2 hlong hshort
        rw [← hcomment, ← hone, if_pos (by omega)] at hfirst
        rw [← hcomment, ← hten, if_neg (by omega)] at hlast
        have hplaceholder := ((render_signed_iff hrecords _ (Or.inl rfl) _).mpr hfirst).2
        have hsum := ((render_signed_iff hrecords _ (Or.inl rfl) _).mpr hlast).2
        rw [hlen, hothers _ (by decide), hothers _ (by simp), hplaceholder, hsum] at hlen'
        refine Or.inr (Or.inr ⟨hshort, ?_⟩)
        rw [signedCards, hothers _ (by decide), hplaceholder]
        unfold blockBytes at hlen'
        omega
      · exact Or.inl hlong
    · exact Or.inr (Or.inl hown)
  · intro hroom
    refine ⟨_, (renderInto_signed_iff (by decide)).mpr ⟨?_, hroom.memory, rfl⟩, fun sum => ?_⟩
    · exact (renders_signed_iff hrecords (by decide)).mpr
        (hroom.blockBytes_eq hrecords .placeholder (by decide)).1
    · obtain ⟨hsome, hblocks⟩ := hroom.blockBytes_eq hrecords (.withDataSum sum) (by simp)
      refine (renderInto_signed_iff (by simp)).mpr
        ⟨(renders_signed_iff hrecords (by simp)).mpr hsome, ?_, hblocks.symm⟩
      rw [hblocks]
      exact hroom.memory

/-- Where the sum has no comment, its digits do not change the size of a signed render. -/
theorem length_signed {signing other : Signing} {signed again : Text} (hsigning : signing ≠ .unsigned)
    (hother : other ≠ .unsigned) (hcomment : header.signedComment Keyword.DATASUM = none)
    (h : header.renderInto signing (.spare spare) = .ok signed)
    (h' : header.renderInto other (.spare spare) = .ok again) : again.length = signed.length := by
  obtain ⟨others, hcards⟩ := cardsOf_signed header
  have hone : ∀ signing : Signing, recordCards (signing.record Keyword.DATASUM none : Record R) = 1 := by
    intro signing
    obtain ⟨-, hdigits⟩ := digits_bounds signing
    have hcard : cardSize = 80 := rfl
    unfold digits at hdigits
    rw [recordCards, Signing.record, continuationChain_text (shortText_text signing _), if_neg]
    rw [commentLen]
    omega
  have hsigned := (renderInto_signed_iff hsigning).mp ⟨signed, h, rfl⟩
  have hagain := (renderInto_signed_iff hother).mp ⟨again, h', rfl⟩
  rw [hagain.2.2, hsigned.2.2, hcards _ hsigning, hcards _ hother, hcomment, hone, hone]

end Rendering

/-- A sum of ten digits with a comment of 58 characters. -/
def longCommentHeader : Header ℤ := ofRecords
  [.valued Keyword.DATASUM (.text (ascii "1234567890")) (some (List.replicate 58 0x78))]

/-- The sum and its comment render on two cards, but the placeholder's one digit goes on one
card with its comment, which the padding of the digit does not leave room for. -/
theorem signing_fails_beside_long_comment :
    ∃ out, longCommentHeader.renderInto .unsigned (.spare 0) = .ok out ∧
      ¬SignsStably longCommentHeader 0 := by
  have hplain : (longCommentHeader.renderInto .unsigned (.spare 0)).toOption.isSome = true := by
    decide +kernel
  have hsigned : (longCommentHeader.renderInto .placeholder (.spare 0)).toOption = none := by
    decide +kernel
  cases hout : longCommentHeader.renderInto .unsigned (.spare 0) with
  | error fault =>
    rw [hout] at hplain
    cases hplain
  | ok out =>
    refine ⟨out, rfl, ?_⟩
    rintro ⟨len, ⟨signed, hok, -⟩, -⟩
    rw [hok] at hsigned
    cases hsigned

theorem signsStably_iff_short : SignsStably commentedHeader 3 := by
  have hplain : (commentedHeader.renderInto .unsigned (.spare 3)).toOption.isSome = true := by
    decide +kernel
  have hdataSum : commentedHeader.signedComment Keyword.DATASUM =
      some (ascii "data unit checksum") := by decide +kernel
  have hchecksum : commentedHeader.signedComment Keyword.CHECKSUM = none := by decide +kernel
  have hmemory : blockBytes (commentedHeader.signedCards + 3 + 1) ≤ isizeMax := by decide +kernel
  have hroom : RoomToSign commentedHeader 3 := by
    refine ⟨fun text htext => ?_, fun text htext => ?_, hmemory⟩
    · rw [hdataSum] at htext
      obtain rfl := Option.some.inj htext
      exact Or.inl (by decide)
    · rw [hchecksum] at htext
      cases htext
  cases hout : commentedHeader.renderInto .unsigned (.spare 3) with
  | error fault =>
    rw [hout] at hplain
    cases hplain
  | ok out => exact (signsStably_iff hout).mpr hroom

end Header

end FitsWell
