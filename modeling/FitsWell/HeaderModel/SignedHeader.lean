import FitsWell.Checksum.Complement
import FitsWell.HeaderModel.SignedCards

/-!
# Signed headers

A signed render is the plain render of the header that carries the sum of the data and the
characters of a complement, and with that sum it comes to all ones.
-/

namespace FitsWell

open OnesComplement

variable {R : Type}

namespace Header

/-! ## Headers with checksums -/

/-- A marked record with `value` as its text. -/
def withText (value : Text) (item : Bool × Record R) : Record R :=
  if item.1 then .valued Keyword.CHECKSUM (.text value) item.2.comment else item.2

/-- The header with its data's sum and the text of its checksum, each in the first record of
its keyword or after the others. -/
def carrying (header : Header R) (sum : UInt32) (value : Text) : Header R :=
  ofRecords ((header.markedRecords (.withDataSum sum)).map (withText value))

/-- The first record of a keyword. -/
def first (header : Header R) (keyword : Keyword) : Option (Record R) :=
  header.records.find? fun record => record.keyword == some keyword

theorem withText_keyword {value : Text} {item : Bool × Record R}
    (h : item.1 = true → item.2.keyword = some Keyword.CHECKSUM) :
    (withText value item).keyword = item.2.keyword := by
  unfold withText
  split
  · rename_i hmarked
    rw [h hmarked]
    rfl
  · rfl

theorem map_withText {items : Marked R} (h : ∀ item ∈ items, item.1 = false) (value : Text) :
    items.map (withText value) = items.map Prod.snd := by
  refine List.map_congr_left (fun item hitem => ?_)
  rw [withText, h item hitem]
  rfl

/-- The records around the checksum of a header that carries one. -/
theorem carrying_records (header : Header R) (sum : UInt32) :
    ∃ before after : Marked R,
      header.markedRecords (.withDataSum sum) =
        before ++ (true, .valued Keyword.CHECKSUM (.text Checksum.placeholder)
          (header.signedComment Keyword.CHECKSUM)) :: after ∧
      (∀ item ∈ before, item.1 = false ∧ item.2.keyword ≠ some Keyword.CHECKSUM) ∧
      (∀ item ∈ after, item.1 = false) ∧
      ∀ value, (header.carrying sum value).records = before.map Prod.snd ++
        .valued Keyword.CHECKSUM (.text value) (header.signedComment Keyword.CHECKSUM) ::
          after.map Prod.snd := by
  have hsigning : Signing.withDataSum sum ≠ .unsigned := by simp
  obtain ⟨before, after, hsplit, habsent, hunmarked⟩ :=
    header.markedRecords_split hsigning (Or.inr rfl : IsChecksumKeyword Keyword.CHECKSUM)
  have hbefore := fun item hitem => hunmarked rfl item (List.mem_append_left after hitem)
  have hafter := fun item hitem => hunmarked rfl item (List.mem_append_right before hitem)
  refine ⟨before, after, hsplit, fun item hitem => ⟨hbefore item hitem, habsent item hitem⟩, hafter,
    fun value => ?_⟩
  rw [carrying, hsplit]
  simp only [ofRecords, List.map_append, List.map_cons, map_withText hbefore, map_withText hafter]
  rfl

/-- A header that carries a checksum has its text in the first record of the keyword. -/
theorem carrying_checksum (header : Header R) (sum : UInt32) (value : Text) :
    (header.carrying sum value).first Keyword.CHECKSUM =
      some (.valued Keyword.CHECKSUM (.text value) (header.signedComment Keyword.CHECKSUM)) := by
  obtain ⟨before, after, -, hbefore, -, hrecords⟩ := header.carrying_records sum
  have habsent : (before.map Prod.snd).find? (fun record =>
      record.keyword == some Keyword.CHECKSUM) = none := by
    rw [List.find?_eq_none]
    intro record hrecord
    obtain ⟨item, hitem, rfl⟩ := List.mem_map.mp hrecord
    simpa using (hbefore item hitem).2
  rw [first, hrecords, List.find?_append, habsent, List.find?_cons]
  simp [Record.keyword]

/-- A marked record is one of `CHECKSUM`. -/
theorem keyword_of_marked {header : Header R} {signing : Signing} {item : Bool × Record R}
    (h : item ∈ header.markedRecords signing) (hmarked : item.1 = true) :
    item.2.keyword = some Keyword.CHECKSUM := by
  rw [markedRecords, List.mem_append] at h
  rcases h with h | h
  · obtain ⟨source, -, rfl⟩ := List.mem_map.mp h
    rw [keyword_markedRecord]
    unfold markedRecord at hmarked
    split at hmarked
    · rename_i keyword hkeyword
      split at hmarked
      · rw [hkeyword, beq_iff_eq.mp hmarked]
      · cases hmarked
    · cases hmarked
  · unfold missingRecords at h
    split at h
    · cases h
    · obtain ⟨keyword, -, rfl⟩ := List.mem_map.mp h
      exact congrArg some (beq_iff_eq.mp hmarked)

/-- A header that carries a sum has its decimal text in the first record of the keyword. -/
theorem carrying_dataSum (header : Header R) (sum : UInt32) (value : Text) :
    (header.carrying sum value).first Keyword.DATASUM =
      some (.valued Keyword.DATASUM (.text (Decimal.numeral sum.toNat))
        (header.signedComment Keyword.DATASUM)) := by
  have hsigning : Signing.withDataSum sum ≠ .unsigned := by simp
  obtain ⟨before, after, hsplit, habsent, -⟩ :=
    header.markedRecords_split hsigning (Or.inl rfl : IsChecksumKeyword Keyword.DATASUM)
  have hbefore : (before.map (withText value)).find? (fun record =>
      record.keyword == some Keyword.DATASUM) = none := by
    rw [List.find?_eq_none]
    intro record hrecord
    obtain ⟨item, hitem, rfl⟩ := List.mem_map.mp hrecord
    have hmem : item ∈ header.markedRecords (.withDataSum sum) := by
      rw [hsplit]
      exact List.mem_append_left _ hitem
    rw [withText_keyword (keyword_of_marked hmem)]
    simpa using habsent item hitem
  have hother : (Keyword.DATASUM == Keyword.CHECKSUM) = false := by decide
  rw [first, carrying, ofRecords, hsplit, List.map_append, List.map_cons, List.find?_append, hbefore,
    hother, withText, if_neg Bool.false_ne_true, Signing.record, List.find?_cons]
  simp [Signing.text, Record.keyword]

/-! ## Plain renders -/

section Rendering

variable [RealText R]

/-- A plain render writes the cards of its records. -/
theorem renderRecords_unsigned (header : Header R) (rendered : Rendered) :
    header.renderRecords .unsigned = .ok rendered ↔
      ∃ cards, Renders header.records cards ∧ rendered = ⟨none, cards.flatten⟩ := by
  have hmarked : header.markedRecords .unsigned = header.records.map fun record => (false, record) := by
    rw [markedRecords, missingRecords, if_pos rfl, List.append_nil]
    have hitem : ∀ item : Record R × ℕ, header.markedRecord .unsigned item = (false, item.1) := by
      intro item
      unfold markedRecord
      split
      · rw [signs]
        simp
      · rfl
    have hfirst := congrArg (List.map fun record => (false, record))
      (List.zipIdx_map_fst 0 header.records)
    rw [funext hitem, ← hfirst, List.map_map]
    rfl
  rw [renderRecords_eq, hmarked, foldlM_unmarked (by simp)]
  simp [List.map_map, Function.comp_def]

end Rendering

/-! ## Blocks -/

theorem length_fillBlock (bytes : Text) : (fillBlock bytes).length % blockSize = 0 := by
  rw [fillBlock, List.length_append, List.length_replicate]
  unfold blockSize
  omega

/-- What follows rendered records depends on their number only. -/
theorem layOut_ok {space : Space} {bytes out : Text} (h : layOut space bytes = .ok out) :
    out.length % blockSize = 0 ∧ ∃ tail, out = bytes ++ tail ∧
      ∀ other, other.length = bytes.length → layOut space other = .ok (other ++ tail) := by
  obtain ⟨spare, hspare, h⟩ := Loops.ok_of_bind h
  obtain ⟨len, hlen, h⟩ := Loops.ok_of_bind h
  obtain ⟨_, hreserve, h⟩ := Loops.ok_of_bind h
  obtain rfl := Except.ok.inj h
  have hfill : ∀ other : Text, other.length = bytes.length →
      fillBlock (other ++ List.replicate (spare * cardSize) FitsWell.space ++
        padTo cardSize (ascii "END")) = other ++
      (List.replicate (spare * cardSize) FitsWell.space ++ padTo cardSize (ascii "END") ++
        List.replicate ((blockSize - (bytes ++ List.replicate (spare * cardSize) FitsWell.space ++
          padTo cardSize (ascii "END")).length % blockSize) % blockSize) FitsWell.space) := by
    intro other hother
    rw [fillBlock]
    simp only [List.length_append, hother, List.append_assoc]
  refine ⟨length_fillBlock _, _, hfill bytes rfl, fun other hother => ?_⟩
  rw [layOut, hother, hspare, Loops.bind_ok rfl, hlen, Loops.bind_ok rfl, hreserve,
    Loops.bind_ok rfl, hfill other hother]

/-! ## Sums -/

open Checksum in
/-- Sixteen characters of the complement in place of the placeholder bring a unit to all
ones. -/
theorem encode_balances {before value after : Text} {dataSum total unitSum : ℕ}
    (hdata : dataSum ≤ allOnes) (hplace : before.length % 4 = 3)
    (hlength : (before ++ placeholder ++ after).length % 4 = 0)
    (htotal : accumulate (before ++ placeholder ++ after) 0 = .ok total)
    (hsum : combine total dataSum = unitSum) (hvalue : value.length = 16)
    (hcomplement : OnesComplement.total 3 value =
      OnesComplement.total 3 placeholder + (allOnes - unitSum)) :
    ∃ signed, accumulate (before ++ value ++ after) 0 = .ok signed ∧
      combine signed dataSum = allOnes := by
  have hones : 0 < allOnes := by decide
  have hsixteen : placeholder.length = 16 := by decide
  have hcolumn : ∀ text, OnesComplement.total (0 + before.length) text =
      OnesComplement.total 3 text := by
    intro text
    have hsplit : 0 + before.length = 3 + 4 * (before.length / 4) := by omega
    rw [hsplit, total_add_four_mul]
  have hparts : ∀ text : Text, text.length = 16 →
      OnesComplement.total 0 (before ++ text ++ after) = OnesComplement.total 0 before +
        OnesComplement.total 3 text + OnesComplement.total (0 + (before.length + 16)) after := by
    intro text htext
    rw [total_append, total_append, hcolumn, List.length_append, htext]
  have hwhole : (before ++ value ++ after).length % 4 = 0 := by
    rw [List.length_append, List.length_append] at hlength ⊢
    omega
  rw [accumulate_eq hlength (Nat.zero_le _), Except.ok.injEq] at htotal
  refine ⟨_, accumulate_eq hwhole (Nat.zero_le _), ?_⟩
  obtain ⟨whole, hbase⟩ : ∃ whole, whole =
      OnesComplement.total 0 (before ++ placeholder ++ after) := ⟨_, rfl⟩
  rw [← hbase, Nat.zero_add] at htotal
  have hunit : unitSum = rep allOnes (whole + dataSum) := by
    rw [← hsum, ← htotal, combine_eq (rep_le _ hones) hdata, rep_add_rep]
  have hnonzero : whole ≠ 0 := by
    have hzeros : 0 < OnesComplement.total 3 placeholder := by decide
    rw [hbase, hparts _ hsixteen]
    omega
  have hsigned : OnesComplement.total 0 (before ++ value ++ after) =
      whole + (allOnes - unitSum) := by
    rw [hbase, hparts _ hvalue, hparts _ hsixteen, hcomplement]
    omega
  rw [combine_eq (rep_le _ hones) hdata, rep_add_rep, Nat.zero_add, hsigned, hunit]
  have hreorder : whole + (allOnes - rep allOnes (whole + dataSum)) + dataSum =
      whole + dataSum + (allOnes - rep allOnes (whole + dataSum)) := by omega
  rw [hreorder]
  exact rep_add_complement hones (by omega)

/-! ## Signed renders -/

section Rendering

variable [RealText R]

theorem dataSum_le (sum : UInt32) : sum.toNat ≤ Checksum.allOnes := by
  have := sum.toNat_lt
  unfold Checksum.allOnes
  omega

/-- The cards of marked records. -/
def cardsOf (items : Marked R) : ℕ := (items.map fun item => recordCards item.2).sum

theorem length_renders {records : List (Record R)} {cards : List Text}
    (h : Renders records cards) :
    cards.flatten.length = cardSize * (records.map recordCards).sum := by
  induction h with
  | nil => rfl
  | cons hcard _ ih =>
    rw [List.flatten_cons, List.length_append, renderRecord_length hcard, ih, List.map_cons,
      List.sum_cons, Nat.mul_add]

/-- Records render in turn where each renders. -/
theorem exists_renders {records : List (Record R)} :
    (∃ cards, Renders records cards) ↔
      ∀ record ∈ records, ∃ card, renderRecord record = .ok card := by
  induction records with
  | nil =>
    exact iff_of_true ⟨[], .nil⟩ (fun _ hnone => by cases hnone)
  | cons record records ih =>
    simp only [List.mem_cons, forall_eq_or_imp, ← ih]
    constructor
    · rintro ⟨_, hcards⟩
      obtain ⟨card, rest, hcard, hrest, rfl⟩ := List.forall₂_cons_left_iff.mp hcards
      exact ⟨⟨card, hcard⟩, rest, hrest⟩
    · rintro ⟨⟨card, hcard⟩, rest, hrest⟩
      exact ⟨card :: rest, .cons hcard hrest⟩

/-- The bytes of the blocks that hold `cards` cards. -/
def blockBytes (cards : ℕ) : ℕ := (cards + 35) / 36 * 2880

theorem cardBytes_iff {a b len : ℕ} :
    orOverflow (checkedAdd a b >>= (checkedAdd · 1) >>= (checkedMul · cardSize)) = .ok len ↔
      (a + b + 1) * cardSize ≤ usizeMax ∧ len = (a + b + 1) * cardSize := by
  have hcard : cardSize = 80 := rfl
  rw [orOverflow_eq_ok_iff]
  simp only [Option.bind_eq_bind, Option.bind_eq_some_iff, checkedAdd_eq_some_iff,
    checkedMul_eq_some_iff]
  constructor
  · rintro ⟨_, ⟨_, ⟨-, rfl⟩, -, rfl⟩, hle, rfl⟩
    exact ⟨hle, rfl⟩
  · rintro ⟨hle, rfl⟩
    rw [hcard] at hle
    exact ⟨a + b + 1, ⟨a + b, ⟨by omega, rfl⟩, by omega, rfl⟩, hle, rfl⟩

theorem reserveBlocks_iff (cards : ℕ) :
    reserveBlocks (cards * cardSize) = .ok () ↔ blockBytes cards ≤ isizeMax := by
  have hblocks : (cards * cardSize + blockSize - 1) / blockSize = (cards + 35) / 36 := by
    unfold cardSize blockSize
    omega
  rw [reserveBlocks, divCeil_of_pos (by decide), Loops.bind_ok rfl, hblocks]
  constructor
  · intro h
    obtain ⟨bytes, hbytes, h⟩ := Loops.ok_of_bind h
    obtain ⟨-, rfl⟩ := mulUsize_eq_ok_iff.mp hbytes
    split at h
    · assumption
    · cases h
  · intro h
    have hword : isizeMax ≤ usizeMax := by decide
    have hbytes : mulUsize ((cards + 35) / 36) blockSize = .ok (blockBytes cards) :=
      mulUsize_of_le (le_trans h hword)
    rw [hbytes, Loops.bind_ok rfl, if_pos h]

/-- Records with free ones lay out where their blocks can be allocated. -/
theorem layOut_spare_iff {bytes out : Text} {cards spare : ℕ}
    (hbytes : bytes.length = cardSize * cards) :
    layOut (.spare spare) bytes = .ok out ↔ blockBytes (cards + spare + 1) ≤ isizeMax ∧
      out = fillBlock (bytes ++ List.replicate (spare * cardSize) FitsWell.space ++
        padTo cardSize (ascii "END")) := by
  have hcards : bytes.length / cardSize = cards := by
    rw [hbytes]
    exact Nat.mul_div_cancel_left _ (by decide)
  rw [layOut, hcards, spareRecords, Loops.bind_ok rfl]
  constructor
  · intro h
    obtain ⟨len, hlen, hrest⟩ := Loops.ok_of_bind h
    obtain ⟨_, hreserve, hout⟩ := Loops.ok_of_bind hrest
    obtain ⟨-, rfl⟩ := cardBytes_iff.mp hlen
    exact ⟨(reserveBlocks_iff _).mp hreserve, (Except.ok.inj hout).symm⟩
  · rintro ⟨hfits, rfl⟩
    have hword : (cards + spare + 1) * cardSize ≤ usizeMax := by
      unfold blockBytes isizeMax at hfits
      unfold usizeMax cardSize
      omega
    rw [cardBytes_iff.mpr ⟨hword, rfl⟩, Loops.bind_ok rfl, (reserveBlocks_iff _).mpr hfits,
      Loops.bind_ok rfl]

theorem length_layOut {bytes : Text} {cards spare : ℕ} (hbytes : bytes.length = cardSize * cards) :
    (fillBlock (bytes ++ List.replicate (spare * cardSize) FitsWell.space ++
      padTo cardSize (ascii "END"))).length = blockBytes (cards + spare + 1) := by
  have hend : (padTo cardSize (ascii "END")).length = cardSize := by decide
  rw [fillBlock, List.length_append, List.length_replicate, List.length_append,
    List.length_append, List.length_replicate, hend, hbytes]
  unfold blockBytes cardSize blockSize
  omega

/-- A checksum is written wherever its record is in whole words. -/
theorem writeChecksum_ok (signing : Signing) {start : ℕ} {out : Text}
    (hwhole : out.length % 4 = 0) (hroom : start + 27 ≤ out.length) :
    ∃ signed, writeChecksum signing (some start) out = .ok signed ∧
      signed.length = out.length := by
  cases signing with
  | unsigned => exact ⟨out, rfl, rfl⟩
  | placeholder => exact ⟨out, rfl, rfl⟩
  | withDataSum sum =>
    obtain ⟨value, hvalue, hlength, -⟩ := Checksum.encode_ok
      (Checksum.combine (rep Checksum.allOnes (0 + OnesComplement.total 0 out)) sum.toNat)
    obtain ⟨signed, hsigned, hsize, -⟩ := copySlice_of_le
      (show start + 11 + 16 ≤ out.length by omega) (show 0 + 16 ≤ value.length by omega)
    refine ⟨signed, ?_, hsize⟩
    rw [writeChecksum, Checksum.accumulate_eq hwhole (Nat.zero_le _), Loops.bind_ok rfl, hvalue,
      Loops.bind_ok rfl, hsigned]

/-- A signed render returns where its records render and its blocks can be allocated. -/
theorem renderInto_signed_iff {header : Header R} {signing : Signing}
    (hsigning : signing ≠ .unsigned) {spare len : ℕ} :
    (∃ out, header.renderInto signing (.spare spare) = .ok out ∧ out.length = len) ↔
      (∀ item ∈ header.markedRecords signing, ∃ card, renderRecord item.2 = .ok card) ∧
        blockBytes (cardsOf (header.markedRecords signing) + spare + 1) ≤ isizeMax ∧
        len = blockBytes (cardsOf (header.markedRecords signing) + spare + 1) := by
  have hcard : cardSize = 80 := rfl
  obtain ⟨before, after, hsplit, -, hunmarked⟩ :=
    header.markedRecords_split hsigning (Or.inr rfl : IsChecksumKeyword Keyword.CHECKSUM)
  have hbefore := fun item hitem => hunmarked rfl item (List.mem_append_left after hitem)
  have hafter := fun item hitem => hunmarked rfl item (List.mem_append_right before hitem)
  have hmarked : (Keyword.CHECKSUM == Keyword.CHECKSUM) = true := by decide
  rw [hmarked] at hsplit
  -- the rendered records and their size
  have hsize : ∀ {cards : List Text} {card : Text} {rest : List Text},
      Renders (before.map Prod.snd) cards →
      renderRecord (signing.record Keyword.CHECKSUM
        (header.signedComment Keyword.CHECKSUM) : Record R) = .ok card →
      Renders (after.map Prod.snd) rest →
      (cards.flatten ++ card ++ rest.flatten).length =
        cardSize * cardsOf (header.markedRecords signing) := by
    intro cards card rest hcards hcardOk hrest
    rw [List.length_append, List.length_append, length_renders hcards, renderRecord_length hcardOk,
      length_renders hrest, cardsOf, hsplit, List.map_append, List.map_cons, List.sum_append,
      List.sum_cons, List.map_map, List.map_map, Nat.mul_add, Nat.mul_add, Nat.add_assoc]
    rfl
  have hplace : ∀ cards card rest : Text,
      (fillBlock (cards ++ card ++ rest ++ List.replicate (spare * cardSize) FitsWell.space ++
        padTo cardSize (ascii "END"))).length % 4 = 0 ∧
      cards.length + 27 ≤ (fillBlock (cards ++ card ++ rest ++
        List.replicate (spare * cardSize) FitsWell.space ++
          padTo cardSize (ascii "END"))).length := by
    intro cards card rest
    constructor
    · have hwhole := length_fillBlock (cards ++ card ++ rest ++
        List.replicate (spare * cardSize) FitsWell.space ++ padTo cardSize (ascii "END"))
      unfold blockSize at hwhole
      omega
    · have hend : (padTo cardSize (ascii "END")).length = 80 := by decide
      rw [fillBlock]
      simp only [List.length_append]
      omega
  rw [renderInto, renderRecords_eq]
  constructor
  · rintro ⟨out, hout, rfl⟩
    obtain ⟨rendered, hrendered, hout⟩ := Loops.ok_of_bind hout
    obtain ⟨base, hbase, hout⟩ := Loops.ok_of_bind hout
    rw [hsplit, foldlM_marked hbefore hafter] at hrendered
    obtain ⟨cards, card, rest, hcards, hcardOk, hrest, rfl⟩ := hrendered
    have hbytes := hsize hcards hcardOk hrest
    obtain ⟨hfits, rfl⟩ := (layOut_spare_iff hbytes).mp hbase
    obtain ⟨hwhole, hroom⟩ := hplace cards.flatten card rest.flatten
    obtain ⟨signed, hsigned, hlength⟩ := writeChecksum_ok signing hwhole hroom
    obtain rfl := Except.ok.inj (hsigned.symm.trans hout)
    refine ⟨?_, hfits, hlength.trans (length_layOut hbytes)⟩
    rw [hsplit]
    intro item hitem
    rcases List.mem_append.mp hitem with hitem | hitem
    · exact exists_renders.mp ⟨cards, hcards⟩ _ (List.mem_map_of_mem hitem)
    · rcases List.mem_cons.mp hitem with rfl | hitem
      · exact ⟨card, hcardOk⟩
      · exact exists_renders.mp ⟨rest, hrest⟩ _ (List.mem_map_of_mem hitem)
  · rintro ⟨hrenders, hfits, rfl⟩
    rw [hsplit] at hrenders
    obtain ⟨cards, hcards⟩ := exists_renders.mpr (fun record hrecord => by
      obtain ⟨item, hitem, rfl⟩ := List.mem_map.mp hrecord
      exact hrenders item (List.mem_append_left _ hitem))
    obtain ⟨card, hcardOk⟩ := hrenders _ (List.mem_append_right _ List.mem_cons_self)
    obtain ⟨rest, hrest⟩ := exists_renders.mpr (fun record hrecord => by
      obtain ⟨item, hitem, rfl⟩ := List.mem_map.mp hrecord
      exact hrenders item (List.mem_append_right _ (List.mem_cons_of_mem _ hitem)))
    have hbytes := hsize hcards hcardOk hrest
    have hrendered := (foldlM_marked hbefore hafter _).mpr
      ⟨cards, card, rest, hcards, hcardOk, hrest, rfl⟩
    have hbase := (layOut_spare_iff hbytes).mpr ⟨hfits, rfl⟩
    obtain ⟨hwhole, hroom⟩ := hplace cards.flatten card rest.flatten
    obtain ⟨signed, hsigned, hlength⟩ := writeChecksum_ok signing hwhole hroom
    refine ⟨signed, ?_, hlength.trans (length_layOut hbytes)⟩
    rw [hsplit, hrendered, Loops.bind_ok rfl, hbase, Loops.bind_ok rfl, hsigned]

theorem placeholder_short : ShortText Checksum.placeholder where
  nonempty := by decide
  length := by decide
  printable := by decide
  quotes := by decide

theorem isPrintable_of_isAlphanumeric {byte : UInt8} (h : Checksum.isAlphanumeric byte = true) :
    isPrintable byte = true := by
  unfold Checksum.isAlphanumeric isAsciiDigit isAsciiUppercase isAsciiLowercase at h
  unfold isPrintable
  simp [UInt8.le_iff_toNat_le] at h ⊢
  omega

/-- Digits and letters are a short text. -/
theorem shortText_of_alphanumeric {text : Text} (hlength : text.length = 16)
    (h : text.all Checksum.isAlphanumeric = true) : ShortText text where
  nonempty := by
    rintro rfl
    cases hlength
  length := by omega
  printable := by
    rw [List.all_eq_true] at h ⊢
    exact fun byte hbyte => isPrintable_of_isAlphanumeric (h byte hbyte)
  quotes := by
    intro hquote
    have := List.all_eq_true.mp h quote hquote
    exact absurd this (by decide)

/-- A checksum record's text takes another of its length in place. -/
theorem renderText_replace {one other : Text} {comment : Option Text} {bytes : Text}
    (hone : ShortText one) (hother : ShortText other) (hlength : other.length = one.length)
    (h : renderRecord (.valued Keyword.CHECKSUM (.text one) comment : Record R) = .ok bytes) :
    ∃ rest, bytes = padTo 10 (keywordLead Keyword.CHECKSUM) ++ [quote] ++ one ++ rest ∧
      renderRecord (.valued Keyword.CHECKSUM (.text other) comment : Record R) =
        .ok (padTo 10 (keywordLead Keyword.CHECKSUM) ++ [quote] ++ other ++ rest) := by
  have hkeyword : validateValuedKeyword Keyword.CHECKSUM = .ok () := by decide
  obtain ⟨hvalid, hcards, rfl⟩ := (renderText_eq_ok_iff hone hkeyword).mp h
  refine ⟨textRest one.length comment, rfl, ?_⟩
  exact (renderText_eq_ok_iff hother hkeyword).mpr
    ⟨hvalid, hlength.symm ▸ hcards, by rw [textBytes, hlength]⟩

omit [RealText R] in
theorem writeChecksum_unsigned (checksumAt : Option ℕ) (out : Text) :
    writeChecksum .unsigned checksumAt out = .ok out := rfl

/-- A signed render is the plain render of the header that carries the sum and its complement. -/
theorem renderInto_withDataSum {header : Header R} {sum : UInt32} {space : Space} {out : Text}
    (h : header.renderInto (.withDataSum sum) space = .ok out) :
    ∃ value base before after,
      value.length = 16 ∧ value.all Checksum.isAlphanumeric = true ∧
      (header.carrying sum value).renderInto .unsigned space = .ok out ∧
      (header.carrying sum Checksum.placeholder).renderInto .unsigned space = .ok base ∧
      base = before ++ Checksum.placeholder ++ after ∧ out = before ++ value ++ after ∧
      out.length % blockSize = 0 ∧
      (header.carrying sum value).first Keyword.CHECKSUM =
        some (.valued Keyword.CHECKSUM (.text value) (header.signedComment Keyword.CHECKSUM)) ∧
      (header.carrying sum value).first Keyword.DATASUM =
        some (.valued Keyword.DATASUM (.text (Decimal.numeral sum.toNat))
          (header.signedComment Keyword.DATASUM)) ∧
      ∃ total, Checksum.accumulate out 0 = .ok total ∧
        Checksum.combine total sum.toNat = Checksum.allOnes := by
  have hcard : cardSize = 80 := rfl
  obtain ⟨rendered, hrendered, h⟩ := Loops.ok_of_bind h
  obtain ⟨base, hbase, h⟩ := Loops.ok_of_bind h
  obtain ⟨before, after, hsplit, hbefore, hafter, hrecords⟩ := header.carrying_records sum
  rw [renderRecords_eq, hsplit, foldlM_marked (fun item hitem => (hbefore item hitem).1) hafter]
    at hrendered
  obtain ⟨cards, card, rest, hcards, hcardOk, hrest, rfl⟩ := hrendered
  obtain ⟨hwhole, tail, rfl, hlayOut⟩ := layOut_ok hbase
  -- the sum and its characters
  obtain ⟨total, htotal, h⟩ := Loops.ok_of_bind h
  obtain ⟨value, hvalue, h⟩ := Loops.ok_of_bind h
  obtain ⟨found, hfound, hlength, halpha, hcomplement⟩ :=
    Checksum.encode_ok (Checksum.combine total sum.toNat)
  obtain rfl := Except.ok.inj (hvalue.symm.trans hfound)
  have hshort := shortText_of_alphanumeric hlength halpha
  have hsixteen : Checksum.placeholder.length = 16 := by decide
  obtain ⟨remaining, rfl, hvalueOk⟩ := renderText_replace placeholder_short hshort
    (hlength.trans hsixteen.symm) hcardOk
  obtain ⟨front, hfront⟩ : ∃ front, front =
      cards.flatten ++ (padTo 10 (keywordLead Keyword.CHECKSUM) ++ [quote]) := ⟨_, rfl⟩
  have hfrontLength : front.length = cards.flatten.length + 11 := by
    rw [hfront, List.length_append, List.length_append,
      padTo_length (by rw [length_keywordLead]; decide), List.length_singleton]
  have hcardsLength := length_renders hcards
  rw [hcard] at hcardsLength
  have hparts : ∀ text : Text, cards.flatten ++ (padTo 10 (keywordLead Keyword.CHECKSUM) ++ [quote] ++
      text ++ remaining) ++ rest.flatten ++ tail =
        front ++ text ++ (remaining ++ rest.flatten ++ tail) := by
    intro text
    rw [hfront]
    simp only [List.append_assoc]
  rw [hparts] at hwhole htotal h hbase
  -- the copy replaces the placeholder
  have hcopy : out = front ++ value ++ (remaining ++ rest.flatten ++ tail) := by
    unfold copySlice at h
    split at h
    · rw [← Except.ok.inj h, List.drop_zero, List.take_of_length_le hlength.le, List.append_assoc front,
        List.take_left' hfrontLength, ← List.append_assoc front,
        List.drop_left' (by rw [List.length_append, hfrontLength, hsixteen])]
    · cases h
  -- the plain renders
  have hrender : ∀ text : Text, text.length = 16 →
      renderRecord (.valued Keyword.CHECKSUM (.text text)
        (header.signedComment Keyword.CHECKSUM) : Record R) =
        .ok (padTo 10 (keywordLead Keyword.CHECKSUM) ++ [quote] ++ text ++ remaining) →
      (header.carrying sum text).renderInto .unsigned space =
        .ok (front ++ text ++ (remaining ++ rest.flatten ++ tail)) := by
    intro text htext htextOk
    have hrenders : Renders (header.carrying sum text).records (cards ++
        (padTo 10 (keywordLead Keyword.CHECKSUM) ++ [quote] ++ text ++ remaining) :: rest) := by
      rw [hrecords]
      exact List.rel_append hcards (.cons htextOk hrest)
    have hplain := (renderRecords_unsigned _ _).mpr ⟨_, hrenders, rfl⟩
    have hlaid := hlayOut (cards ++ (padTo 10 (keywordLead Keyword.CHECKSUM) ++ [quote] ++ text ++
      remaining) :: rest).flatten (by
        simp only [List.flatten_append, List.flatten_cons, List.length_append, htext, hsixteen]
        omega)
    rw [renderInto, hplain, Loops.bind_ok rfl, hlaid, Loops.bind_ok rfl, writeChecksum_unsigned,
      ← hparts]
    simp only [List.flatten_append, List.flatten_cons, List.append_assoc]
  have hbalance := encode_balances (dataSum_le sum) (by omega)
    (by unfold blockSize at hwhole; omega) htotal rfl hlength hcomplement
  refine ⟨value, _, front, remaining ++ rest.flatten ++ tail, hlength, halpha, ?_,
    hrender _ hsixteen hcardOk, rfl, hcopy, ?_, header.carrying_checksum sum value,
    header.carrying_dataSum sum value, ?_⟩
  · rw [hcopy]
    exact hrender value hlength hvalueOk
  · rw [hcopy, ← hwhole]
    simp only [List.length_append, hlength, hsixteen]
  · rw [hcopy]
    exact hbalance

/-- A signed render is whole blocks, the plain render of the header that carries the sum and
sixteen digits and letters; it differs from the one that carries the placeholder in these
only, and sums with its data to all ones. -/
theorem signed_render_balances {header : Header R} {sum : UInt32} {space : Space} {out : Text}
    (h : header.renderInto (.withDataSum sum) space = .ok out) :
    ∃ value base before after,
      value.length = 16 ∧ value.all Checksum.isAlphanumeric = true ∧
      (header.carrying sum value).renderInto .unsigned space = .ok out ∧
      (header.carrying sum Checksum.placeholder).renderInto .unsigned space = .ok base ∧
      base = before ++ Checksum.placeholder ++ after ∧ out = before ++ value ++ after ∧
      out.length % blockSize = 0 ∧
      (header.carrying sum value).first Keyword.CHECKSUM =
        some (.valued Keyword.CHECKSUM (.text value) (header.signedComment Keyword.CHECKSUM)) ∧
      (header.carrying sum value).first Keyword.DATASUM =
        some (.valued Keyword.DATASUM (.text (Decimal.numeral sum.toNat))
          (header.signedComment Keyword.DATASUM)) ∧
      ∃ total, Checksum.accumulate out 0 = .ok total ∧
        Checksum.combine total sum.toNat = Checksum.allOnes :=
  renderInto_withDataSum h

end Rendering

/-- A header with a data sum of its own and a comment on it. -/
def commentedHeader : Header ℤ := ofRecords
  [.valued Keyword.DATASUM (.text (ascii "17")) (some (ascii "data unit checksum"))]

theorem commentedHeader_renders : ∃ out,
    commentedHeader.renderInto (.withDataSum 868229149) (.spare 3) = .ok out := by
  have hcards : ∀ item ∈ commentedHeader.markedRecords (.withDataSum 868229149),
      (renderRecord item.2).toOption.isSome = true := by decide +kernel
  have hrenders : ∀ item ∈ commentedHeader.markedRecords (.withDataSum 868229149),
      ∃ card, renderRecord item.2 = .ok card := by
    intro item hitem
    have hsome := hcards item hitem
    cases hcard : renderRecord item.2 with
    | error fault =>
      rw [hcard] at hsome
      cases hsome
    | ok card => exact ⟨card, rfl⟩
  have hfits : blockBytes (cardsOf (commentedHeader.markedRecords (.withDataSum 868229149)) +
      3 + 1) ≤ isizeMax := by decide +kernel
  obtain ⟨out, hout, -⟩ := (renderInto_signed_iff (by simp)).mpr ⟨hrenders, hfits, rfl⟩
  exact ⟨out, hout⟩

theorem signed_render_balances_single :
    ∃ out, commentedHeader.renderInto (.withDataSum 868229149) (.spare 3) = .ok out ∧
      ∃ total, Checksum.accumulate out 0 = .ok total ∧
        Checksum.combine total 868229149 = Checksum.allOnes := by
  obtain ⟨out, hout⟩ := commentedHeader_renders
  obtain ⟨_, _, _, _, _, _, _, _, _, _, _, _, _, hbalance⟩ := signed_render_balances hout
  exact ⟨out, hout, hbalance⟩

end Header

end FitsWell
