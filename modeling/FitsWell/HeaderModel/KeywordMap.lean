import FitsWell.HeaderModel.Integers
import FitsWell.HeaderModel.ReservedKeywords
import FitsWell.HeaderModel.ValueReads

/-!
# A header as a map

What the keywords of a header read as is a map from keywords to values. A record that a writer
sets updates the map, so a header that is built record by record reads as a map that evaluates.
-/

namespace FitsWell

variable {R : Type}

/-! ## Families of keywords -/

namespace Keyword

variable {keyword root : Keyword} {n : ℕ}

/-- A numbered keyword has its number after its root. -/
theorem indexAfter_indexed (hn : 0 < n) (h : root.indexed n = .ok keyword) :
    keyword.indexAfter root = some n := by
  have hname := Header.name_indexed h
  have hdigits := isDigits_numeral n
  rw [isDigits, Bool.and_eq_true, Bool.not_eq_true'] at hdigits
  have hsome : ((Decimal.numeral n).isEmpty || (Decimal.numeral n).head? == some 0x30 ||
      !(Decimal.numeral n).all isAsciiDigit) = false := by
    rw [hdigits.1, hdigits.2]
    simpa using Decimal.head?_numeral hn
  have hword : n ≤ usizeMax := by
    have hadmitted := keyword.admitted
    simp only [NameRule.admits, Bool.and_eq_true, decide_eq_true_eq, hname,
      List.length_append] at hadmitted
    have hlt := Decimal.value_lt fun byte (hbyte : byte ∈ Decimal.numeral n) =>
      Decimal.isDigit_numeral hbyte
    have hpow := Nat.pow_le_pow_right (by omega : 0 < 10)
      (by omega : (Decimal.numeral n).length ≤ 8)
    have hmax : usizeMax = 2 ^ 64 - 1 := rfl
    rw [Decimal.value_numeral] at hlt
    omega
  unfold indexAfter
  rw [hname, if_pos (by simp), List.drop_left]
  dsimp only
  rw [hsome, if_neg (by simp), Decimal.value_numeral, if_pos hword]

/-- A keyword with a number after a root is the numbered keyword of the root. -/
theorem indexed_of_indexAfter (h : keyword.indexAfter root = some n) :
    0 < n ∧ root.indexed n = .ok keyword := by
  unfold indexAfter at h
  split at h
  · rename_i hroot
    dsimp only at h
    split at h
    · cases h
    rename_i hdigits
    split at h
    · simp only [Bool.or_eq_true, List.isEmpty_iff, beq_iff_eq, Bool.not_eq_true', not_or,
        Bool.not_eq_false] at hdigits
      obtain ⟨⟨hne, hfirst⟩, hall⟩ := hdigits
      obtain rfl := Option.some.inj h
      have hback := Decimal.numeral_value (fun byte hbyte =>
        FitsInteger.isDigit_of_isAsciiDigit (List.all_eq_true.mp hall byte hbyte)) hfirst hne
      have hname : root.name ++ Decimal.numeral (Decimal.value
          (keyword.name.drop root.name.length)) = keyword.name := by
        rw [hback]
        exact (List.prefix_append_drop (List.isPrefixOf_iff_prefix.mp hroot)).symm
      constructor
      · refine Nat.pos_of_ne_zero fun hzero => hfirst ?_
        rw [← hback, hzero]
        rfl
      · unfold indexed checked
        rw [hname, dif_pos keyword.admitted]
    · cases h
  · cases h

/-- A keyword of another letter is no number of a family. -/
theorem indexAfter_of_head (hne : root.name ≠ []) (h : keyword.name.head? ≠ root.name.head?) :
    keyword.indexAfter root = none := by
  unfold indexAfter
  refine if_neg fun hroot => h ?_
  obtain ⟨tail, htail⟩ := List.isPrefixOf_iff_prefix.mp hroot
  rw [← htail, List.head?_append_of_ne_nil _ hne]

/-- A number of one family is no number of another, where neither root begins the other. -/
theorem indexAfter_of_indexed {other : Keyword} (h : root.indexed n = .ok keyword)
    (hroot : ¬other.name <+: root.name) (hother : ¬root.name <+: other.name) :
    keyword.indexAfter other = none := by
  unfold indexAfter
  refine if_neg fun hprefix => ?_
  have hown := List.isPrefixOf_iff_prefix.mp hprefix
  have hname : root.name <+: keyword.name := Header.name_indexed h ▸ List.prefix_append _ _
  exact (List.prefix_or_prefix_of_prefix hown hname).elim hroot hother

/-- A number of a family is none of the keywords that its root does not begin, nor the root. -/
theorem ne_of_indexed {other : Keyword} (h : root.indexed n = .ok keyword)
    (hother : root = other ∨ ¬root.name <+: other.name) : keyword ≠ other := by
  rintro rfl
  have hname := Header.name_indexed h
  rcases hother with rfl | hother
  · have hlength := congrArg List.length hname
    have hpos := List.length_pos_iff.mpr (Decimal.numeral_ne_nil n)
    rw [List.length_append] at hlength
    omega
  · exact hother (hname ▸ List.prefix_append _ _)

end Keyword

/-- A count that an `i64` holds. -/
theorem fitsI64_eq {count : ℕ} {found : ℤ} (h : fitsI64 count = .ok found) :
    found = count ∧ count < 2 ^ 63 := by
  unfold fitsI64 at h
  split at h
  · exact ⟨(Except.ok.inj h).symm, ‹_›⟩
  · cases h

/-! ## Maps -/

/-- What the keywords of a header read as. -/
abbrev KeywordMap (R : Type) : Type := Keyword → Option (Value R)

namespace KeywordMap

/-- No record. -/
def empty : KeywordMap R := fun _ => none

/-- The map with `keyword` set. -/
def set (map : KeywordMap R) (keyword : Keyword) (value : Value R) : KeywordMap R :=
  fun other => if other = keyword then some value else map other

/-- The map with records set, one after another. -/
def setAll (map : KeywordMap R) (entries : List (Keyword × Value R)) : KeywordMap R :=
  entries.foldl (fun map entry => map.set entry.1 entry.2) map

/-- The map with the numbers of a root after `start` set, one for each length. -/
def setNumbered (map : KeywordMap R) (root : Keyword) (start : ℕ) (lengths : List ℕ) :
    KeywordMap R := fun keyword =>
  match (keyword.indexAfter root).bind fun n => if start < n then lengths[n - start - 1]? else none with
  | some length => some (.ofInt length)
  | none => map keyword

@[simp] theorem set_same (map : KeywordMap R) (keyword : Keyword) (value : Value R) :
    map.set keyword value keyword = some value := if_pos rfl

theorem set_of_ne (map : KeywordMap R) {keyword other : Keyword} (value : Value R)
    (h : other ≠ keyword) : map.set keyword value other = map other := if_neg h

/-- Records that are set leave the other keywords. -/
theorem setAll_of_ne (map : KeywordMap R) {keyword : Keyword} {entries : List (Keyword × Value R)}
    (h : ∀ entry ∈ entries, keyword ≠ entry.1) : map.setAll entries keyword = map keyword := by
  induction entries generalizing map with
  | nil => rfl
  | cons entry entries ih =>
    rw [setAll, List.foldl_cons]
    exact (ih _ (fun other hother => h other (List.mem_cons_of_mem entry hother))).trans
      (set_of_ne _ _ (h entry List.mem_cons_self))

@[simp] theorem setNumbered_nil (map : KeywordMap R) (root : Keyword) (start : ℕ) :
    map.setNumbered root start [] = map := by
  funext keyword
  unfold setNumbered
  cases keyword.indexAfter root <;> simp

/-- The first number of a family is set before the others. -/
theorem setNumbered_cons (map : KeywordMap R) {root keyword : Keyword} {start length : ℕ}
    (h : root.indexed (start + 1) = .ok keyword) (lengths : List ℕ) :
    map.setNumbered root start (length :: lengths) =
      (map.set keyword (.ofInt length)).setNumbered root (start + 1) lengths := by
  have hown := Keyword.indexAfter_indexed (Nat.succ_pos start) h
  funext other
  unfold setNumbered
  cases hindex : other.indexAfter root with
  | none =>
    have hne : other ≠ keyword := by
      rintro rfl
      rw [hindex] at hown
      cases hown
    simp [set_of_ne _ _ hne]
  | some n =>
    obtain rfl | hne := eq_or_ne n (start + 1)
    · obtain rfl : other = keyword :=
        Except.ok.inj ((Keyword.indexed_of_indexAfter hindex).2.symm.trans h)
      simp
    · have hother : other ≠ keyword := by
        rintro rfl
        exact hne (Option.some.inj (hindex.symm.trans hown))
      by_cases hlt : start < n
      · have hlast : n - start - 1 = (n - (start + 1) - 1) + 1 := by omega
        simp only [Option.bind_some, if_pos hlt, if_pos (by omega : start + 1 < n),
          set_of_ne _ _ hother, hlast, List.getElem?_cons_succ]
      · simp only [Option.bind_some, if_neg hlt, if_neg (by omega : ¬start + 1 < n),
          set_of_ne _ _ hother]

/-- A keyword outside the family keeps its value. -/
theorem setNumbered_of_none (map : KeywordMap R) {root keyword : Keyword} {start : ℕ}
    {lengths : List ℕ} (h : keyword.indexAfter root = none) :
    map.setNumbered root start lengths keyword = map keyword := by
  unfold setNumbered
  rw [h, Option.bind_none]

/-- A number of the family has its length. -/
theorem setNumbered_indexed (map : KeywordMap R) {root keyword : Keyword} {lengths : List ℕ}
    {i length : ℕ} (h : root.indexed (i + 1) = .ok keyword) (hlength : lengths[i]? = some length) :
    map.setNumbered root 0 lengths keyword = some (.ofInt length) := by
  unfold setNumbered
  rw [Keyword.indexAfter_indexed (Nat.succ_pos i) h]
  simp [hlength]

end KeywordMap

/-! ## Headers -/

namespace Header

variable {header next : Header R} {map : KeywordMap R}

/-- The keywords of a header read as a map says. -/
def ReadsAs (header : Header R) (map : KeywordMap R) : Prop :=
  ∀ keyword, header.value (.keyword keyword) = .ok (map keyword)

/-- A keyword has what the map gives it. -/
theorem ReadsAs.gives (h : header.ReadsAs map) {keyword : Keyword} {found : Option (Value R)}
    (hmap : map keyword = found) : header.value (.keyword keyword) = .ok found :=
  (h keyword).trans (congrArg Except.ok hmap)

theorem readsAs_new : (Header.new : Header R).ReadsAs .empty := fun _ => by
  rw [value_eq]
  rfl

/-- A record with a value has a keyword that the map holds. -/
theorem ReadsAs.of_record (h : header.ReadsAs map) {record : Record R} {keyword : Keyword}
    (hmem : record ∈ header.records) (hkeyword : record.keyword = some keyword) :
    map keyword ≠ none := by
  have hread := h keyword
  rw [value_eq] at hread
  intro hnone
  rw [hnone] at hread
  cases hfound : header.records.find? (·.carries (.keyword keyword)) with
  | none =>
    exact List.find?_eq_none.mp hfound record hmem (carries_of_keyword hkeyword)
  | some found =>
    rw [hfound] at hread
    dsimp only at hread
    cases hvalue : found.valueOrDefect with
    | error fault =>
      rw [hvalue] at hread
      cases hread
    | ok value =>
      rw [hvalue] at hread
      cases hread

/-- A keyword that the map holds has a record of its value. -/
theorem ReadsAs.exists_record (h : header.ReadsAs map) {keyword : Keyword} {value : Value R}
    (hmap : map keyword = some value) : ∃ comment,
    Record.valued keyword value comment ∈ header.records := by
  have hread := h keyword
  rw [value_eq, hmap] at hread
  cases hfound : header.records.find? (·.carries (.keyword keyword)) with
  | none =>
    rw [hfound] at hread
    cases hread
  | some found =>
    rw [hfound] at hread
    have hmem := List.mem_of_find?_eq_some hfound
    have hcarries := List.find?_some hfound
    rw [Record.carries, decide_eq_true_iff] at hcarries
    cases found with
    | valued own found comment =>
      obtain rfl := Option.some.inj hcarries
      obtain rfl := Option.some.inj (Except.ok.inj hread)
      exact ⟨comment, hmem⟩
    | commentary name text => cases hcarries
    | hierarch name value comment => cases hcarries
    | malformed name raw defect => cases hread

section Sets

variable [RealText R] {keyword root : Keyword} {value : Value R}

/-- Setting a record updates the map. -/
theorem ReadsAs.setInternal (h : header.ReadsAs map)
    (hset : header.setInternal keyword value = .ok next) : next.ReadsAs (map.set keyword value) := by
  have hset := ok_of_expectOk hset
  intro other
  by_cases hsame : other = keyword
  · subst hsame
    rw [value_set hset, KeywordMap.set_same]
  · rw [value_set_of_ne hset hsame, h other, KeywordMap.set_of_ne _ _ hsame]

theorem ReadsAs.setCommented {comment : Text} (h : header.ReadsAs map)
    (hset : header.setCommented keyword value comment = .ok next) :
    next.ReadsAs (map.set keyword value) := by
  obtain ⟨middle, hmiddle, hcomment⟩ := Loops.ok_of_bind hset
  exact fun other =>
    (value_setComment (ok_of_expectOk hcomment)).trans (h.setInternal hmiddle other)

theorem ReadsAs.setAll {entries : List (Keyword × Value R)} (h : header.ReadsAs map)
    (hset : header.setAll entries = .ok next) : next.ReadsAs (map.setAll entries) := by
  induction entries generalizing header map with
  | nil =>
    obtain rfl := Except.ok.inj hset
    exact h
  | cons entry entries ih =>
    rw [Header.setAll, List.foldlM_cons] at hset
    obtain ⟨middle, hfirst, hrest⟩ := Loops.ok_of_bind hset
    exact ih (h.setInternal hfirst) hrest

/-- The numbers of a root past `start` are keywords, one for each length, and words hold the
lengths. -/
def Numbers (root : Keyword) (start : ℕ) (lengths : List ℕ) : Prop :=
  ∀ (i length : ℕ), lengths[i]? = some length →
    length < 2 ^ 63 ∧ ∃ keyword, root.indexed (start + i + 1) = .ok keyword

/-- Numbering records from past `start` updates the map. -/
theorem ReadsAs.setNumbered {lengths : List ℕ} {start : ℕ} (h : header.ReadsAs map)
    (hset : (lengths.zipIdx start).foldlM (Header.setNumbered root) header = .ok next) :
    next.ReadsAs (map.setNumbered root start lengths) ∧ Numbers root start lengths := by
  induction lengths generalizing header map start with
  | nil =>
    obtain rfl := Except.ok.inj hset
    rw [KeywordMap.setNumbered_nil]
    exact ⟨h, nofun⟩
  | cons length lengths ih =>
    rw [List.zipIdx_cons, List.foldlM_cons] at hset
    obtain ⟨middle, hfirst, hrest⟩ := Loops.ok_of_bind hset
    obtain ⟨keyword, hkeyword, h⟩ := Loops.ok_of_bind hfirst
    obtain ⟨count, hcount, hfirst⟩ := Loops.ok_of_bind h
    obtain ⟨rfl, hfits⟩ := fitsI64_eq hcount
    rw [KeywordMap.setNumbered_cons map hkeyword]
    obtain ⟨hreads, hnumbers⟩ := ih (ReadsAs.setInternal ‹header.ReadsAs map› hfirst) hrest
    refine ⟨hreads, fun i own hown => ?_⟩
    cases i with
    | zero =>
      obtain rfl := Option.some.inj hown
      exact ⟨hfits, keyword, hkeyword⟩
    | succ i =>
      obtain ⟨hlt, numbered, hnumbered⟩ := hnumbers i own hown
      exact ⟨hlt, numbered, by rwa [Nat.add_assoc start 1 i, Nat.add_comm 1 i] at hnumbered⟩

theorem ReadsAs.setIndexed {lengths : List ℕ} (h : header.ReadsAs map)
    (hset : header.setIndexed root lengths = .ok next) :
    next.ReadsAs (map.setNumbered root 0 lengths) ∧ Numbers root 0 lengths :=
  h.setNumbered hset

end Sets

end Header

end FitsWell
