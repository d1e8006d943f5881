import FitsWell.HeaderModel.CardParse
import FitsWell.Library.Loops

/-!
# The fields of a record

Text of ASCII slices at any byte, so the fields of a record are its parts with their blanks
trimmed.
-/

namespace FitsWell

/-! ## Slices -/

theorem isCharBoundary_of_ascii {text : Text} {i : ℕ} (h : text.all isAscii = true)
    (hi : i ≤ text.length) : isCharBoundary text i = true := by
  unfold isCharBoundary
  cases hbyte : text[i]? with
  | none =>
    have hlength := List.getElem?_eq_none_iff.mp hbyte
    simp
    omega
  | some byte =>
    have hascii := List.all_eq_true.mp h byte (List.mem_of_getElem? hbyte)
    unfold isAscii at hascii
    simp only [hascii, Bool.true_or]

theorem strSlice_of_ascii {text : Text} {start stop : ℕ} (h : text.all isAscii = true)
    (hstart : start ≤ stop) (hstop : stop ≤ text.length) :
    strSlice text start stop = .ok ((text.take stop).drop start) :=
  if_pos ⟨hstart, isCharBoundary_of_ascii h (le_trans hstart hstop), isCharBoundary_of_ascii h hstop⟩

theorem strFrom_of_ascii {text : Text} {start : ℕ} (h : text.all isAscii = true)
    (hstart : start ≤ text.length) : strFrom text start = .ok (text.drop start) := by
  rw [strFrom, strSlice_of_ascii h hstart le_rfl, List.take_length]

theorem byteSlice_of_le {bytes : Text} {start stop : ℕ} (hstart : start ≤ stop)
    (hstop : stop ≤ bytes.length) :
    byteSlice bytes start stop = .ok ((bytes.take stop).drop start) := if_pos ⟨hstart, hstop⟩

theorem all_of_sublist {p : UInt8 → Bool} {part text : Text} (h : text.all p = true)
    (hpart : part.Sublist text) : part.all p = true := by
  rw [List.all_eq_true] at h ⊢
  exact fun byte hbyte => h byte (hpart.mem hbyte)

theorem trim_sublist (text : Text) : (trim text).Sublist text :=
  (List.rdropWhile_prefix _ _).sublist.trans (List.dropWhile_sublist _)

/-! ## Trims -/

/-- A suffix drop past a last item that stays does not reach the items before it. -/
theorem rdropWhile_append {p : UInt8 → Bool} {front back : Text} (h : back.rdropWhile p ≠ []) :
    (front ++ back).rdropWhile p = front ++ back.rdropWhile p := by
  have hback : back.reverse.dropWhile p ≠ [] := by
    intro hempty
    exact h (by rw [List.rdropWhile, hempty]; rfl)
  rw [List.rdropWhile, List.reverse_append, List.dropWhile_append]
  split
  · rename_i hempty
    exact absurd (List.isEmpty_iff.mp hempty) hback
  · rw [List.reverse_append, List.reverse_reverse]
    rfl

/-- A trim of ASCII text is the text between its first and its last byte that is no blank. -/
theorem blankTrim_of_ascii {text : Text} (h : text.all isAscii = true) :
    blankTrim text = .ok (trim text) := by
  rw [blankTrim, debugAssert, if_pos h, Loops.bind_ok rfl]
  dsimp only
  by_cases hall : text.all isBlank = true
  · have hdrop : text.dropWhile isBlank = [] := by
      rw [List.dropWhile_eq_nil_iff]
      exact fun byte hbyte => List.all_eq_true.mp hall byte hbyte
    have htake : text.takeWhile isBlank = text := by
      rw [List.takeWhile_eq_self_iff]
      exact fun byte hbyte => List.all_eq_true.mp hall byte hbyte
    rw [if_pos hall, htake, strSlice_of_ascii h le_rfl le_rfl, List.take_length, List.drop_length,
      trim, hdrop]
    rfl
  · have hsplit : text.takeWhile isBlank ++ text.dropWhile isBlank = text :=
      List.takeWhile_append_dropWhile
    have hrest : (text.dropWhile isBlank).rdropWhile isBlank ≠ [] := by
      intro hempty
      rw [List.rdropWhile_eq_nil_iff] at hempty
      refine hall (List.all_eq_true.mpr (fun byte hbyte => ?_))
      rw [← hsplit, List.mem_append] at hbyte
      rcases hbyte with hbyte | hbyte
      · exact List.mem_takeWhile_imp hbyte
      · exact hempty byte hbyte
    have htrim : text.rdropWhile isBlank = text.takeWhile isBlank ++ trim text := by
      have happend := @rdropWhile_append isBlank (text.takeWhile isBlank) _ hrest
      rwa [hsplit] at happend
    have hprefix : text.take (text.rdropWhile isBlank).length = text.rdropWhile isBlank :=
      List.prefix_iff_eq_take.mp (List.rdropWhile_prefix _ _) |>.symm
    rw [if_neg hall, strSlice_of_ascii h, hprefix, htrim, List.drop_left]
    · rw [htrim, List.length_append]
      exact Nat.le_add_right _ _
    · exact (List.rdropWhile_prefix _ _).length_le

/-- Text, where it is not empty. -/
def nonEmpty (text : Text) : Option Text := if text.isEmpty then none else some text

theorem commentOf_of_ascii {field : Text} (h : field.all isAscii = true) :
    commentOf field = .ok (nonEmpty (trim field)) := by
  rw [commentOf, blankTrim_of_ascii h]
  rfl

/-! ## Value fields -/

theorem findSlash_bounds {inString : Bool} {i j : ℕ} {field : Text}
    (h : findSlash inString i field = some j) : i ≤ j ∧ j < i + field.length := by
  fun_induction findSlash inString i field with
  | case1 => cases h
  | case2 => cases h
  | case3 inString i next rest hdoubled ih =>
    have hnext := ih h
    simp only [List.length_cons]
    omega
  | case4 inString i next rest hdoubled ih =>
    have hnext := ih h
    simp only [List.length_cons] at hnext ⊢
    omega
  | case5 inString i byte rest hquote hslash =>
    obtain rfl := Option.some.inj h
    simp only [List.length_cons]
    omega
  | case6 inString i byte rest hquote hslash ih =>
    have hnext := ih h
    simp only [List.length_cons]
    omega

/-- A value field of ASCII splits at its first `/` outside a string. -/
theorem splitValueComment_of_ascii {field : Text} (h : field.all isAscii = true) :
    splitValueComment field = .ok (match findSlash false 0 field with
      | some i => ⟨trim (field.take i), nonEmpty (trim (field.drop (i + 1))), some i⟩
      | none => ⟨trim field, none, none⟩) := by
  unfold splitValueComment
  cases hslash : findSlash false 0 field with
  | some i =>
    have hlt := (findSlash_bounds hslash).2
    have htake := all_of_sublist h (List.take_sublist i field)
    have hdrop := all_of_sublist h (List.drop_sublist (i + 1) field)
    have htoken : (strSlice field 0 i >>= blankTrim) = .ok (trim (field.take i)) := by
      rw [strSlice_of_ascii h (Nat.zero_le i) (by omega), Loops.bind_ok rfl, List.drop_zero,
        blankTrim_of_ascii htake]
    have hcomment : (strFrom field (i + 1) >>= commentOf) =
        .ok (nonEmpty (trim (field.drop (i + 1)))) := by
      rw [strFrom_of_ascii h (by omega), Loops.bind_ok rfl, commentOf_of_ascii hdrop]
    dsimp only
    rw [htoken, Loops.bind_ok rfl, hcomment, Loops.bind_ok rfl]
  | none =>
    dsimp only
    rw [blankTrim_of_ascii h]
    rfl

/-- What a split of a field of ASCII gives: a token within it, and the place of its `/`. -/
theorem splitValueComment_ok {field : Text} (h : field.all isAscii = true) :
    ∃ split, splitValueComment field = .ok split ∧ split.valueToken.Sublist field ∧
      split.commentStart.getD field.length ≤ field.length := by
  refine ⟨_, splitValueComment_of_ascii h, ?_⟩
  split
  · rename_i i hslash
    have hlt := (findSlash_bounds hslash).2
    exact ⟨(trim_sublist _).trans (List.take_sublist i field), by simp; omega⟩
  · exact ⟨trim_sublist _, le_rfl⟩

/-! ## Values -/

/-- Reals that read every decimal integer of a record as finite. -/
class ReadsDecimals (R : Type) [RealText R] : Prop where
  parse_decimal : ∀ (negative : Bool) (digits : Text), isDigits digits = true →
    digits.length ≤ cardSize → ∃ real : R,
      RealText.parse ((if negative then [0x2d] else []) ++ digits) = some real ∧
        RealText.isFinite real = true

/-- A digit is no sign. -/
theorem splitSign_digits {digits : Text} (h : isDigits digits = true) (negative : Bool) :
    splitSign ((if negative then [0x2d] else []) ++ digits) = (negative, digits) := by
  rw [isDigits, Bool.and_eq_true] at h
  cases negative with
  | true => rfl
  | false =>
    cases digits with
    | nil => cases h.1
    | cons first rest =>
      have hdigit := List.all_eq_true.mp h.2 first List.mem_cons_self
      have hplus : first ≠ 0x2b := by
        rintro rfl
        cases hdigit
      have hminus : first ≠ 0x2d := by
        rintro rfl
        cases hdigit
      rw [if_neg Bool.false_ne_true, List.nil_append, splitSign, if_neg hplus, if_neg hminus]

/-- A signed decimal has no point and no exponent. -/
theorem wholePart_digits {digits : Text} (h : isDigits digits = true) (negative : Bool) :
    wholePart ((if negative then [0x2d] else []) ++ digits) =
      (if negative then [0x2d] else []) ++ digits := by
  have hbytes : ∀ byte ∈ (if negative then [0x2d] else []) ++ digits, byte ≠ 0x2e ∧ byte ≠ 0x45 := by
    rw [isDigits, Bool.and_eq_true] at h
    intro byte hbyte
    rcases List.mem_append.mp hbyte with hsign | hdigit
    · cases negative with
      | true => rw [List.mem_singleton.mp hsign]; decide
      | false => cases hsign
    · have hdigit := List.all_eq_true.mp h.2 byte hdigit
      constructor
      · rintro rfl
        cases hdigit
      · rintro rfl
        cases hdigit
  rw [wholePart, if_neg]
  rw [Bool.or_eq_true, List.isSuffixOf_iff_suffix, List.isSuffixOf_iff_suffix]
  rintro (hsuffix | hsuffix)
  · exact (hbytes 0x2e (hsuffix.subset (by decide))).1 rfl
  · exact (hbytes 0x45 (hsuffix.subset (by decide))).2 rfl

instance : ReadsDecimals ℤ where
  parse_decimal negative digits hdigits _ := by
    refine ⟨signed negative (Decimal.value digits), ?_, rfl⟩
    change parseWhole (wholePart _) = _
    rw [wholePart_digits hdigits, parseWhole, splitSign_digits hdigits negative]
    exact if_pos hdigits

variable {R : Type} [RealText R]

theorem length_splitSign (token : Text) : (splitSign token).2.length ≤ token.length := by
  unfold splitSign
  split
  · exact le_rfl
  · split
    · exact Nat.le_succ _
    · split
      · exact Nat.le_succ _
      · exact le_rfl

/-- An integer of a record is finite as a real. -/
theorem toReal_of_parse [ReadsDecimals R] {token : Text} {integer : FitsInteger}
    (h : FitsInteger.parse token = some integer) (hlength : token.length ≤ cardSize) :
    ∃ real : R, integer.toReal = some real := by
  unfold FitsInteger.parse at h
  split at h
  · obtain rfl := Option.some.inj h
    exact ⟨_, rfl⟩
  · dsimp only at h
    split at h
    · split at h
      · obtain rfl := Option.some.inj h
        exact ⟨_, rfl⟩
      · rename_i hdigits hnonempty
        obtain rfl := Option.some.inj h
        obtain ⟨hsignificant, -⟩ := isDigits_trimStartZeros hdigits hnonempty
        have hlen : (trimStartZeros (splitSign token).2).length ≤ cardSize :=
          le_trans (List.dropWhile_sublist _).length_le (le_trans (length_splitSign token) hlength)
        obtain ⟨real, hparse, hfinite⟩ :=
          ReadsDecimals.parse_decimal (R := R) (splitSign token).1 _ hsignificant hlen
        refine ⟨real, ?_⟩
        rw [FitsInteger.toReal]
        dsimp only [FitsInteger.display]
        rw [hparse, Option.filter_some, if_pos hfinite]
    · cases h

/-- A part of a complex value in a record is a real. -/
theorem complexPart_of_parse [ReadsDecimals R] {token : Text} {part : Value R}
    (h : parseScalar token = some part) (hlength : token.length ≤ cardSize) :
    ∃ real, complexPart part = .ok real := by
  unfold parseScalar at h
  have hreal : (parseReal token).map Value.real = some part → ∃ real, complexPart part = .ok real := by
    intro hparsed
    obtain ⟨real, -, rfl⟩ := Option.map_eq_some_iff.mp hparsed
    exact ⟨real, rfl⟩
  split at h
  · exact hreal h
  · rcases Option.or_eq_some_iff.mp h with hinteger | ⟨-, hparsed⟩
    · obtain ⟨integer, hparse, rfl⟩ := Option.map_eq_some_iff.mp hinteger
      obtain ⟨real, hfound⟩ := toReal_of_parse (R := R) hparse hlength
      refine ⟨real, ?_⟩
      rw [complexPart, hfound]
    · exact hreal hparsed

/-- The two parts of a complex value in a record make one. -/
theorem complexOf_ok [ReadsDecimals R] {reToken imToken : Text} {re im : Value R}
    (hre : parseScalar reToken = some re) (hreLength : reToken.length ≤ cardSize)
    (him : parseScalar imToken = some im) (himLength : imToken.length ≤ cardSize) :
    ∃ value, complexOf re im = .ok value := by
  unfold complexOf
  split
  · exact ⟨_, rfl⟩
  · obtain ⟨reReal, hreReal⟩ := complexPart_of_parse hre hreLength
    obtain ⟨imReal, himReal⟩ := complexPart_of_parse him himLength
    exact ⟨.complexReal reReal imReal, by rw [hreReal, himReal]; rfl⟩

theorem complexParts_sublist {token re im : Text}
    (h : (stripParens token).bind splitOnceComma = some (re, im)) :
    re.Sublist token ∧ im.Sublist token := by
  obtain ⟨inner, hinner, hparts⟩ := Option.bind_eq_some_iff.mp h
  have hsub : inner.Sublist token := by
    unfold stripParens at hinner
    split at hinner
    · split at hinner
      · rw [← Option.some.inj hinner]
        exact (List.dropLast_sublist _).trans (List.sublist_cons_self _ _)
      · cases hinner
    · cases hinner
  unfold splitOnceComma at hparts
  split at hparts
  · obtain ⟨rfl, rfl⟩ := Prod.mk.inj (Option.some.inj hparts)
    exact ⟨(List.takeWhile_sublist _).trans hsub,
      ((List.drop_sublist _ _).trans (List.dropWhile_sublist _)).trans hsub⟩
  · cases hparts

/-- Every token of a record parses to a value, or to none. -/
theorem parseValue_ok [ReadsDecimals R] {token : Text} (h : token.all isAscii = true)
    (hlength : token.length ≤ cardSize) :
    ∃ value : Option (Value R), parseValue token = .ok value := by
  unfold parseValue
  split
  · exact ⟨_, rfl⟩
  split
  · exact ⟨_, rfl⟩
  split
  · exact ⟨_, rfl⟩
  split
  · exact ⟨_, rfl⟩
  split
  · unfold parseComplex
    split
    · exact ⟨_, rfl⟩
    · rename_i re im hsplit
      obtain ⟨hre, him⟩ := complexParts_sublist hsplit
      have htoken : ∀ {part : Text}, part.Sublist token →
          blankTrim part = .ok (trim part) ∧ (trim part).length ≤ cardSize := fun hpart =>
        ⟨blankTrim_of_ascii (all_of_sublist h hpart),
          le_trans ((trim_sublist _).trans hpart).length_le hlength⟩
      rw [(htoken hre).1, Loops.bind_ok rfl]
      split
      · exact ⟨_, rfl⟩
      · rename_i rePart hrePart
        rw [(htoken him).1, Loops.bind_ok rfl]
        split
        · exact ⟨_, rfl⟩
        · rename_i imPart himPart
          obtain ⟨value, hvalue⟩ := complexOf_ok hrePart (htoken hre).2 himPart (htoken him).2
          exact ⟨some value, by rw [hvalue]; rfl⟩
  · exact ⟨_, rfl⟩

end FitsWell
