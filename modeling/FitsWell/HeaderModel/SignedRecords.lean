import FitsWell.HeaderModel.CardLayout
import FitsWell.HeaderModel.Header
import Mathlib.Data.List.Forall2

/-!
# The records of a signed header

A signed render writes the records of the header that carries the checksums, and marks the
one whose value it fills in at the end.
-/

namespace FitsWell

variable {R : Type}

/-! ## Marked records -/

/-- Records to render, each with whether it is the `CHECKSUM` one. -/
abbrev Marked (R : Type) := List (Bool × Record R)

/-- Render a record, after the mark of its offset. -/
def Rendered.pushMarked [RealText R] (rendered : Rendered) (item : Bool × Record R) : Outcome Rendered :=
  { rendered with
    checksumAt := if item.1 then some rendered.out.length else rendered.checksumAt }.push item.2

namespace Header

variable (header : Header R) (signing : Signing)

/-- A record of the header as a render writes it. -/
def markedRecord (item : Record R × ℕ) : Bool × Record R :=
  match item.1.keyword with
  | some keyword =>
    if header.signs signing keyword item.2 then
      (keyword == Keyword.CHECKSUM, signing.record keyword item.1.comment)
    else
      (false, item.1)
  | none => (false, item.1)

/-- The signed records that the header does not hold. -/
def missingRecords : Marked R :=
  if signing = .unsigned then
    []
  else
    ([Keyword.DATASUM, Keyword.CHECKSUM].filter fun keyword => header.index keyword = none).map
      fun keyword => (keyword == Keyword.CHECKSUM, signing.record keyword none)

/-- The records that a render writes. -/
def markedRecords : Marked R :=
  header.records.zipIdx.map (header.markedRecord signing) ++ header.missingRecords signing

section Rendering

variable [RealText R]

theorem renderStep_eq (rendered : Rendered) (item : Record R × ℕ) :
    header.renderStep signing rendered item =
      rendered.pushMarked (header.markedRecord signing item) := by
  unfold renderStep markedRecord
  cases item.1.keyword with
  | none => rfl
  | some keyword =>
    dsimp only
    split
    · simp only [Rendered.pushSigned, Rendered.pushMarked, beq_iff_eq]
    · rfl

theorem renderMissing_eq (rendered : Rendered) (keyword : Keyword) :
    header.renderMissing signing rendered keyword =
      (if header.index keyword = none then
        rendered.pushMarked (R := R) (keyword == Keyword.CHECKSUM, signing.record keyword none)
      else .ok rendered) := by
  unfold renderMissing
  split
  · simp only [Rendered.pushSigned, Rendered.pushMarked, beq_iff_eq]
  · rfl

/-- A render is one of its marked records in turn. -/
theorem renderRecords_eq : header.renderRecords signing =
    (header.markedRecords signing).foldlM Rendered.pushMarked ⟨none, []⟩ := by
  have hsteps : header.renderStep signing =
      fun rendered item => rendered.pushMarked (header.markedRecord signing item) :=
    funext (fun rendered => funext (header.renderStep_eq signing rendered))
  have hmissing : ∀ rendered : Rendered,
      (if signing = .unsigned then .ok rendered else
        [Keyword.DATASUM, Keyword.CHECKSUM].foldlM (header.renderMissing signing) rendered) =
      (header.missingRecords signing).foldlM Rendered.pushMarked rendered := by
    intro rendered
    unfold missingRecords
    split
    · rfl
    · rw [List.foldlM_map]
      simp only [List.foldlM_cons, List.foldlM_nil, List.filter_cons, List.filter_nil,
        renderMissing_eq, decide_eq_true_eq]
      split <;> split <;> rfl
  rw [renderRecords, markedRecords, List.foldlM_append, List.foldlM_map, hsteps]
  exact bind_congr hmissing

end Rendering

end Header

/-! ## Rendering records in turn -/

section Rendering

variable [RealText R]

/-- The records render to the cards, one each. -/
def Renders (records : List (Record R)) (cards : List Text) : Prop :=
  List.Forall₂ (fun record card => renderRecord record = .ok card) records cards

/-- Unmarked records render in turn, after what is rendered. -/
theorem foldlM_unmarked {items : Marked R} (hunmarked : ∀ item ∈ items, item.1 = false)
    (rendered : Rendered) (next : Rendered) :
    items.foldlM Rendered.pushMarked rendered = .ok next ↔
      ∃ cards, Renders (items.map Prod.snd) cards ∧
        next = ⟨rendered.checksumAt, rendered.out ++ cards.flatten⟩ := by
  induction items generalizing rendered with
  | nil =>
    simp only [List.foldlM_nil, List.map_nil, Renders, List.forall₂_nil_left_iff]
    constructor
    · intro h
      exact ⟨[], rfl, by rw [← Except.ok.inj h]; simp⟩
    · rintro ⟨_, rfl, rfl⟩
      simp [pure, Except.pure]
  | cons item items ih =>
    have hitem := hunmarked item List.mem_cons_self
    have hrest := fun i hi => hunmarked i (List.mem_cons_of_mem item hi)
    have hpush : rendered.pushMarked item = rendered.push item.2 := by
      rw [Rendered.pushMarked, hitem]
      rfl
    rw [List.foldlM_cons, hpush]
    constructor
    · intro h
      obtain ⟨pushed, hpushed, h⟩ := Loops.ok_of_bind h
      obtain ⟨card, hcard, hpushed⟩ := Loops.ok_of_bind hpushed
      obtain rfl := Except.ok.inj hpushed
      obtain ⟨cards, hcards, rfl⟩ := (ih hrest _).mp h
      exact ⟨card :: cards, .cons hcard hcards, by simp⟩
    · rintro ⟨all, hall, rfl⟩
      obtain ⟨card, cards, hcard, hcards, rfl⟩ := List.forall₂_cons_left_iff.mp hall
      rw [Rendered.push, hcard, Loops.bind_ok rfl, Loops.bind_ok rfl]
      exact (ih hrest _).mpr ⟨cards, hcards, by simp⟩

/-- Records with one mark render in turn, with the offset of the marked one. -/
theorem foldlM_marked {before after : Marked R} {record : Record R}
    (hbefore : ∀ item ∈ before, item.1 = false) (hafter : ∀ item ∈ after, item.1 = false)
    (next : Rendered) :
    (before ++ (true, record) :: after).foldlM Rendered.pushMarked ⟨none, []⟩ = .ok next ↔
      ∃ cards card rest, Renders (before.map Prod.snd) cards ∧ renderRecord record = .ok card ∧
        Renders (after.map Prod.snd) rest ∧
        next = ⟨some cards.flatten.length, cards.flatten ++ card ++ rest.flatten⟩ := by
  rw [List.foldlM_append]
  constructor
  · intro h
    obtain ⟨first, hfirst, h⟩ := Loops.ok_of_bind h
    rw [List.foldlM_cons] at h
    obtain ⟨pushed, hpushed, h⟩ := Loops.ok_of_bind h
    obtain ⟨cards, hcards, rfl⟩ := (foldlM_unmarked hbefore _ _).mp hfirst
    obtain ⟨card, hcard, hpushed⟩ := Loops.ok_of_bind hpushed
    obtain rfl := Except.ok.inj hpushed
    obtain ⟨rest, hrest, rfl⟩ := (foldlM_unmarked hafter _ _).mp h
    exact ⟨cards, card, rest, hcards, hcard, hrest, by simp⟩
  · rintro ⟨cards, card, rest, hcards, hcard, hrest, rfl⟩
    rw [(foldlM_unmarked hbefore _ _).mpr ⟨cards, hcards, rfl⟩, Loops.bind_ok rfl,
      List.foldlM_cons, Rendered.pushMarked, Rendered.push, hcard, Loops.bind_ok rfl, Loops.bind_ok rfl]
    exact (foldlM_unmarked hafter _ _).mpr ⟨rest, hrest, by simp⟩

end Rendering

/-! ## The checksum records -/

namespace Header

variable (header : Header R) {signing : Signing}

/-- The comment of the first record of a keyword. -/
def signedComment (header : Header R) (keyword : Keyword) : Option Text :=
  (header.index keyword).bind fun i => header.records[i]?.bind Record.comment

/-- The keywords of the checksum records. -/
def IsChecksumKeyword (keyword : Keyword) : Prop :=
  keyword = Keyword.DATASUM ∨ keyword = Keyword.CHECKSUM

/-- A place the index gives holds a record of the keyword. -/
theorem keyword_of_index {keyword : Keyword} {i : ℕ} (h : header.index keyword = some i) :
    ∃ record, header.records[i]? = some record ∧ record.keyword = some keyword := by
  rw [header.indexed keyword] at h
  exact (PlaceIndex.firstPlace_eq_some_iff.mp h).1

/-- A signed render writes the first record of each checksum keyword anew. -/
theorem signs_iff (hsigning : signing ≠ .unsigned) {record : Record R} {keyword : Keyword} {i : ℕ}
    (hrecord : header.records[i]? = some record) (hkeyword : record.keyword = some keyword) :
    header.signs signing keyword i = true ↔
      IsChecksumKeyword keyword ∧ header.index keyword = some i := by
  have hfirst : ∀ other, header.index other = some i → other = keyword := by
    intro other hother
    obtain ⟨found, hfound, hkey⟩ := header.keyword_of_index hother
    obtain rfl := Option.some.inj (hfound.symm.trans hrecord)
    exact Option.some.inj (hkey.symm.trans hkeyword)
  simp only [signs, IsChecksumKeyword, Bool.and_eq_true, Bool.or_eq_true, beq_iff_eq, bne_iff_ne,
    ne_eq, hsigning, not_false_eq_true, and_true]
  constructor
  · rintro ⟨hchecksum, hindex | hindex⟩
    · exact ⟨hchecksum, hfirst _ hindex ▸ hindex⟩
    · exact ⟨hchecksum, hfirst _ hindex ▸ hindex⟩
  · rintro ⟨rfl | rfl, hindex⟩
    · exact ⟨Or.inl rfl, Or.inl hindex⟩
    · exact ⟨Or.inr rfl, Or.inr hindex⟩

/-- A record written anew is that of its keyword. -/
theorem markedRecord_eq (hsigning : signing ≠ .unsigned) {record : Record R} {i : ℕ}
    (hrecord : header.records[i]? = some record) :
    (header.markedRecord signing (record, i) = (false, record) ∧
      ∀ keyword, IsChecksumKeyword keyword → header.index keyword ≠ some i) ∨
    ∃ keyword, IsChecksumKeyword keyword ∧ header.index keyword = some i ∧
      header.markedRecord signing (record, i) =
        (keyword == Keyword.CHECKSUM, signing.record keyword (header.signedComment keyword)) := by
  have hplace : ∀ keyword, header.index keyword = some i → record.keyword = some keyword := by
    intro keyword hindex
    obtain ⟨found, hfound, hkey⟩ := header.keyword_of_index hindex
    rwa [Option.some.inj (hfound.symm.trans hrecord)] at hkey
  unfold markedRecord
  dsimp only
  cases hkeyword : record.keyword with
  | none =>
    refine Or.inl ⟨rfl, fun keyword _ hindex => ?_⟩
    have := hplace keyword hindex
    rw [hkeyword] at this
    cases this
  | some keyword =>
    dsimp only
    split
    · rename_i hsigns
      obtain ⟨hchecksum, hindex⟩ := (header.signs_iff hsigning hrecord hkeyword).mp hsigns
      refine Or.inr ⟨keyword, hchecksum, hindex, ?_⟩
      rw [signedComment, hindex, Option.bind_some, hrecord, Option.bind_some]
    · rename_i hsigns
      refine Or.inl ⟨rfl, fun other hother hindex => hsigns ?_⟩
      have hsame := hplace other hindex
      rw [hkeyword] at hsame
      obtain rfl := Option.some.inj hsame
      exact (header.signs_iff hsigning hrecord hkeyword).mpr ⟨hother, hindex⟩

/-- A list around a place of it with its numbers. -/
theorem zipIdx_split {i : ℕ} {record : Record R} (h : header.records[i]? = some record) :
    ∃ before after, header.records.zipIdx = before ++ (record, i) :: after ∧
      (∀ item ∈ before, header.records[item.2]? = some item.1 ∧ item.2 < i) ∧
      ∀ item ∈ after, header.records[item.2]? = some item.1 ∧ i < item.2 := by
  have hplace : ∀ (m : ℕ) (item : Record R × ℕ), header.records.zipIdx[m]? = some item →
      header.records[m]? = some item.1 ∧ item.2 = m := by
    intro m item hitem
    rw [List.getElem?_zipIdx, Option.map_eq_some_iff] at hitem
    obtain ⟨found, hfound, rfl⟩ := hitem
    exact ⟨hfound, Nat.zero_add m⟩
  have hzip : header.records.zipIdx[i]? = some (record, i) := by
    rw [List.getElem?_zipIdx, h, Option.map_some, Nat.zero_add]
  obtain ⟨hi, hget⟩ := List.getElem?_eq_some_iff.mp hzip
  refine ⟨header.records.zipIdx.take i, header.records.zipIdx.drop (i + 1), ?_,
    fun item hitem => ?_, fun item hitem => ?_⟩
  · rw [← hget, List.getElem_cons_drop, List.take_append_drop]
  · obtain ⟨m, hm⟩ := List.mem_iff_getElem?.mp hitem
    rw [List.getElem?_take] at hm
    split at hm
    · obtain ⟨hrecord, rfl⟩ := hplace m item hm
      exact ⟨hrecord, by omega⟩
    · cases hm
  · obtain ⟨m, hm⟩ := List.mem_iff_getElem?.mp hitem
    rw [List.getElem?_drop] at hm
    obtain ⟨hrecord, hplace⟩ := hplace _ item hm
    rw [hplace]
    exact ⟨hrecord, by omega⟩

/-- A signed render keeps the keywords of the records. -/
theorem keyword_markedRecord (signing : Signing) (item : Record R × ℕ) :
    (header.markedRecord signing item).2.keyword = item.1.keyword := by
  unfold markedRecord
  cases hkeyword : item.1.keyword with
  | none => exact hkeyword
  | some keyword =>
    dsimp only
    split
    · rfl
    · exact hkeyword

/-- No record before the first of a keyword has it. -/
theorem keyword_ne_of_lt {keyword : Keyword} {i : ℕ} (hindex : header.index keyword = some i)
    {item : Record R × ℕ} (hitem : header.records[item.2]? = some item.1) (hlt : item.2 < i) :
    item.1.keyword ≠ some keyword := by
  rw [header.indexed keyword] at hindex
  exact (PlaceIndex.firstPlace_eq_some_iff.mp hindex).2 item.2 hlt item.1 hitem

/-- No record has a keyword that the index does not. -/
theorem keyword_ne_of_none {keyword : Keyword} (hindex : header.index keyword = none)
    {item : Record R × ℕ} (hitem : item ∈ header.records.zipIdx) :
    item.1.keyword ≠ some keyword := by
  rw [header.indexed keyword] at hindex
  exact PlaceIndex.firstPlace_eq_none_iff.mp hindex item.1
    (List.mem_of_getElem? (List.mem_zipIdx_iff_getElem?.mp hitem))

/-- A record elsewhere than the first of `CHECKSUM` is not marked. -/
theorem unmarked_of_place (hsigning : signing ≠ .unsigned) {record : Record R} {i : ℕ}
    (hrecord : header.records[i]? = some record) (hplace : header.index Keyword.CHECKSUM ≠ some i) :
    (header.markedRecord signing (record, i)).1 = false := by
  rcases header.markedRecord_eq hsigning hrecord with ⟨h, -⟩ | ⟨keyword, hchecksum, hindex, h⟩
  · rw [h]
  · rcases hchecksum with rfl | rfl
    · rw [h]
      rfl
    · exact absurd hindex hplace

theorem missingRecords_eq (hsigning : signing ≠ .unsigned) :
    header.missingRecords signing =
      (if header.index Keyword.DATASUM = none then
        [(false, signing.record Keyword.DATASUM none)] else []) ++
      (if header.index Keyword.CHECKSUM = none then
        [(true, signing.record Keyword.CHECKSUM none)] else []) := by
  rw [missingRecords, if_neg hsigning, List.filter_cons, List.filter_cons, List.filter_nil]
  simp only [decide_eq_true_eq]
  split <;> split <;> rfl

/-- A signed render writes a record of each checksum keyword, with the comment the header
has for it. -/
theorem markedRecords_split (hsigning : signing ≠ .unsigned) {keyword : Keyword}
    (hchecksum : IsChecksumKeyword keyword) :
    ∃ before after, header.markedRecords signing =
      before ++ (keyword == Keyword.CHECKSUM,
        signing.record keyword (header.signedComment keyword)) :: after ∧
      (∀ item ∈ before, item.2.keyword ≠ some keyword) ∧
      (keyword = Keyword.CHECKSUM → ∀ item ∈ before ++ after, item.1 = false) := by
  rw [markedRecords, header.missingRecords_eq hsigning]
  cases hindex : header.index keyword with
  | some i =>
    obtain ⟨record, hrecord, hkeyword⟩ := header.keyword_of_index hindex
    obtain ⟨before, after, hsplit, hbefore, hafter⟩ := header.zipIdx_split hrecord
    have hmarked : header.markedRecord signing (record, i) =
        (keyword == Keyword.CHECKSUM, signing.record keyword (header.signedComment keyword)) := by
      rcases header.markedRecord_eq hsigning hrecord with ⟨-, hno⟩ | ⟨other, -, hother, h⟩
      · exact absurd hindex (hno keyword hchecksum)
      · obtain ⟨found, hfound, hkey⟩ := header.keyword_of_index hother
        obtain rfl := Option.some.inj (hfound.symm.trans hrecord)
        obtain rfl := Option.some.inj (hkey.symm.trans hkeyword)
        exact h
    refine ⟨before.map (header.markedRecord signing), after.map (header.markedRecord signing) ++
      ((if header.index Keyword.DATASUM = none then
          [(false, signing.record Keyword.DATASUM none)] else []) ++
        (if header.index Keyword.CHECKSUM = none then
          [(true, signing.record Keyword.CHECKSUM none)] else [])), ?_, ?_, ?_⟩
    · rw [hsplit, List.map_append, List.map_cons, hmarked, List.append_assoc, List.cons_append]
    · intro item hitem
      obtain ⟨source, hsource, rfl⟩ := List.mem_map.mp hitem
      obtain ⟨hplace, hlt⟩ := hbefore source hsource
      rw [keyword_markedRecord]
      exact header.keyword_ne_of_lt hindex hplace hlt
    · rintro rfl item hitem
      rw [hindex, if_neg (Option.some_ne_none i), List.append_nil] at hitem
      rcases List.mem_append.mp hitem with hitem | hitem
      · obtain ⟨source, hsource, rfl⟩ := List.mem_map.mp hitem
        obtain ⟨hsource, hplace⟩ := hbefore source hsource
        exact header.unmarked_of_place hsigning hsource (fun h =>
          hplace.ne (Option.some.inj (h.symm.trans hindex)))
      · rcases List.mem_append.mp hitem with hitem | hitem
        · obtain ⟨source, hsource, rfl⟩ := List.mem_map.mp hitem
          obtain ⟨hsource, hplace⟩ := hafter source hsource
          exact header.unmarked_of_place hsigning hsource (fun h =>
            hplace.ne' (Option.some.inj (h.symm.trans hindex)))
        · split at hitem
          · rw [List.mem_singleton.mp hitem]
          · cases hitem
  | none =>
    have hcomment : header.signedComment keyword = none := by
      rw [signedComment, hindex]
      rfl
    have habsent : ∀ item ∈ header.records.zipIdx.map (header.markedRecord signing),
        item.2.keyword ≠ some keyword := by
      intro item hitem
      obtain ⟨source, hsource, rfl⟩ := List.mem_map.mp hitem
      rw [keyword_markedRecord]
      exact header.keyword_ne_of_none hindex hsource
    rw [hcomment]
    rcases hchecksum with rfl | rfl
    · rw [hindex, if_pos rfl]
      exact ⟨header.records.zipIdx.map (header.markedRecord signing), _, rfl, habsent,
        fun h => absurd h (by decide)⟩
    · rw [hindex, if_pos rfl, ← List.append_assoc]
      refine ⟨_, [], rfl, fun item hitem => ?_, fun _ item hitem => ?_⟩
      · rcases List.mem_append.mp hitem with hitem | hitem
        · exact habsent item hitem
        · split at hitem
          · rw [List.mem_singleton.mp hitem]
            intro hsame
            have hnames : Keyword.DATASUM = Keyword.CHECKSUM := Option.some.inj hsame
            exact absurd hnames (by decide)
          · cases hitem
      rw [List.append_nil] at hitem
      rcases List.mem_append.mp hitem with hitem | hitem
      · obtain ⟨source, hsource, rfl⟩ := List.mem_map.mp hitem
        have hrecord := List.mem_zipIdx_iff_getElem?.mp hsource
        exact header.unmarked_of_place hsigning hrecord (by rw [hindex]; simp)
      · split at hitem
        · rw [List.mem_singleton.mp hitem]
        · cases hitem

end Header

end FitsWell
