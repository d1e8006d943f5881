import FitsWell.HeaderModel.ParseTotal
import FitsWell.HeaderModel.ValueRoundTrip

/-!
# Record lines read back

The line of a record, of a keyword, of a hierarchical name or of a long string's next piece,
parses to what the line was written from.
-/

namespace FitsWell

variable {R : Type} [RealText R]

/-! ## Names -/

/-- A commentary name reads back from the name field. -/
theorem CommentaryName.checked_padTo (name : CommentaryName) :
    CommentaryName.checked (trimEndSpaces (padTo 8 name.name)) = some name := by
  have htrim : trimEndSpaces (padTo 8 name.name) = name.name := by
    have hlast : name.name.getLast? ≠ some space := by
      have h := name.admitted
      simp only [NameRule.admits, NameRule.edges, Bool.and_eq_true, bne_iff_ne] at h
      exact h.1.2
    have hdrop := rdropWhile_spaces (p := (· == space)) (by decide) (8 - name.name.length) name.name
    refine hdrop.trans ?_
    generalize name.name = text at hlast
    cases text using List.reverseRecOn with
    | nil => rfl
    | append_singleton front last =>
      refine List.rdropWhile_concat_neg _ _ _ ?_
      rw [beq_iff_eq]
      rintro rfl
      exact hlast List.getLast?_concat
  rw [htrim, CommentaryName.checked, dif_pos name.admitted]

/-- What a keyword's bytes are not. -/
theorem Keyword.bytes (keyword : Keyword) : ∀ byte ∈ keyword.name,
    isPrintable byte = true ∧ byte ≠ equals ∧ byte ≠ space ∧ isAsciiLowercase byte = false := by
  have h := keyword.admitted
  simp only [NameRule.admits, Bool.and_eq_true, List.all_eq_true] at h
  intro byte hbyte
  have hallowed := h.2 byte hbyte
  revert hallowed
  have hall : ∀ n : Fin 256, NameRule.keyword.allowed (UInt8.ofNat n) = true →
      isPrintable (UInt8.ofNat n) = true ∧ UInt8.ofNat n ≠ equals ∧ UInt8.ofNat n ≠ space ∧
        isAsciiLowercase (UInt8.ofNat n) = false := by
    decide +kernel
  have hspec := hall ⟨byte.toNat, byte.toNat_lt⟩
  rwa [UInt8.ofNat_toNat] at hspec

/-- A keyword is a name of a record. -/
theorem Keyword.admits_commentary (keyword : Keyword) :
    NameRule.commentary.admits keyword.name = true := by
  have h := keyword.admitted
  simp only [NameRule.admits, Bool.and_eq_true, decide_eq_true_eq] at h ⊢
  refine ⟨⟨h.1.1, ?_⟩, List.all_eq_true.mpr (fun byte hbyte => (keyword.bytes byte hbyte).1)⟩
  rw [NameRule.edges, bne_iff_ne]
  intro hlast
  exact (keyword.bytes space (List.mem_of_getLast? hlast)).2.2.1 rfl

/-- The name a record of a keyword starts with. -/
def Keyword.recordName (keyword : Keyword) : CommentaryName :=
  ⟨keyword.name, keyword.admits_commentary⟩

/-- A keyword of a record with a value is no name that a record of another kind has. -/
theorem Keyword.not_reserved {keyword : Keyword} (h : validateValuedKeyword keyword = .ok ()) :
    keyword.name ≠ ascii "END" ∧ keyword.recordName ≠ CommentaryName.CONTINUE ∧
      keyword.recordName ∉ [CommentaryName.BLANK, CommentaryName.COMMENT, CommentaryName.HISTORY] := by
  have hreserved : keyword ∉ [Keyword.END, Keyword.CONTINUE, Keyword.COMMENT, Keyword.HISTORY] := by
    intro hmem
    rw [validateValuedKeyword, if_pos hmem] at h
    cases h
  have hne : ∀ reserved : Keyword,
      reserved ∈ [Keyword.END, Keyword.CONTINUE, Keyword.COMMENT, Keyword.HISTORY] →
        keyword.name ≠ reserved.name := by
    intro reserved hmem hsame
    have hkeyword : keyword = reserved := by
      cases keyword
      cases reserved
      subst hsame
      rfl
    exact hreserved (hkeyword ▸ hmem)
  have hempty : keyword.name ≠ [] := by
    have hadmitted := keyword.admitted
    simp only [NameRule.admits, NameRule.edges, Bool.and_eq_true, Bool.not_eq_true'] at hadmitted
    simpa using hadmitted.1.2
  have hother : ∀ {name : CommentaryName}, keyword.name ≠ name.name → keyword.recordName ≠ name :=
    fun hname hsame => hname (congrArg CommentaryName.name hsame)
  refine ⟨hne Keyword.END (by simp), hother (hne Keyword.CONTINUE (by simp)), fun hmem => ?_⟩
  simp only [List.mem_cons, List.not_mem_nil, or_false] at hmem
  rcases hmem with hblank | hcomment | hhistory
  · exact hother hempty hblank
  · exact hother (hne Keyword.COMMENT (by simp)) hcomment
  · exact hother (hne Keyword.HISTORY (by simp)) hhistory

/-! ## Records of ASCII -/

/-- A record of 80 ASCII bytes. -/
structure AsciiCard (raw : Text) : Prop where
  length : raw.length = cardSize
  ascii : raw.all isAscii = true

section Card

variable {raw : Text} (hraw : AsciiCard raw)
include hraw

theorem AsciiCard.nonAsciiIn {start stop : ℕ} (hstart : start ≤ stop) (hstop : stop ≤ cardSize) :
    nonAsciiIn raw start stop = .ok false := by
  rw [nonAsciiIn_of_le hstart (by rw [hraw.length]; exact hstop)]
  refine congrArg _ (List.any_eq_false.mpr (fun byte hbyte => ?_))
  rw [List.all_eq_true.mp hraw.ascii byte (List.mem_of_mem_take (List.mem_of_mem_drop hbyte))]
  exact Bool.false_ne_true

theorem AsciiCard.asciiText : asciiText raw = raw := by
  rw [FitsWell.asciiText, List.map_congr_left (g := id), List.map_id]
  intro byte hbyte
  rw [if_pos (List.all_eq_true.mp hraw.ascii byte hbyte)]
  rfl

theorem AsciiCard.strSlice {start stop : ℕ} (hstart : start ≤ stop) (hstop : stop ≤ cardSize) :
    strSlice raw start stop = .ok ((raw.take stop).drop start) :=
  strSlice_of_ascii hraw.ascii hstart (by rw [hraw.length]; exact hstop)

theorem AsciiCard.strFrom {start : ℕ} (hstart : start ≤ cardSize) :
    strFrom raw start = .ok (raw.drop start) :=
  strFrom_of_ascii hraw.ascii (by rw [hraw.length]; exact hstart)

/-- A record parses by the name it starts with. -/
theorem AsciiCard.parse_named {name : CommentaryName} (hname : raw.take 8 = padTo 8 name.name)
    (hend : name.name ≠ FitsWell.ascii "END") :
    (ParsedRecord.parse raw : Outcome (Parsed R)) = parseNamed raw raw name := by
  have hcard : (8 : ℕ) ≤ cardSize := by decide
  have hnotEnd : isEndRecord raw = false := by
    have hpad : padTo 8 name.name ≠ FitsWell.ascii "END     " := by
      intro hpad
      have hback := name.checked_padTo
      have hother : CommentaryName.checked (trimEndSpaces (FitsWell.ascii "END     ")) =
          some ⟨FitsWell.ascii "END", by decide⟩ := by decide
      rw [hpad, hother] at hback
      exact hend (congrArg CommentaryName.name (Option.some.inj hback)).symm
    rw [isEndRecord, hname, Bool.and_eq_false_iff, beq_eq_false_iff_ne]
    exact Or.inr (by simpa using hpad)
  rw [ParsedRecord.parse, hnotEnd, if_neg Bool.false_ne_true,
    hraw.nonAsciiIn (Nat.zero_le _) hcard, Loops.bind_ok rfl, if_neg Bool.false_ne_true,
    hraw.asciiText]
  dsimp only
  rw [hraw.strSlice (Nat.zero_le _) hcard, Loops.bind_ok rfl, List.drop_zero, hname,
    name.checked_padTo]

end Card

/-! ## Fields -/

/-- The field of a value and its comment, of the text of a value that reads back. -/
structure ValueField (field : Text) (value : Value R) (comment : Option Text) : Prop where
  split : ∃ token start, splitValueComment field = .ok ⟨token, comment, start⟩ ∧
    start.getD field.length ≤ field.length ∧ parseValue token = .ok (some value)

theorem valueField_of_token {token field : Text} {value : Value R} {comment : Option Text} {m n : ℕ}
    (hfield : field = spaces m ++ token ++ commentText comment ++ spaces n)
    (hascii : field.all isAscii = true) (htoken : FieldToken token)
    (hvalue : parseValue token = .ok (some value)) (hcomment : TrimmedComment comment) :
    ValueField field value comment := by
  obtain ⟨start, hsplit, hstart⟩ :=
    splitValueComment_bounded hfield htoken.slashFree htoken.trim_eq hcomment hascii
  exact ⟨token, start, hsplit, hstart, hvalue⟩

/-- The bytes of a record from `start` on are clean, up to any place of its field. -/
theorem AsciiCard.clean {raw : Text} (hraw : AsciiCard raw) {start : ℕ} {slash : Option ℕ}
    (hstart : start ≤ cardSize) (hslash : slash.getD (raw.drop start).length ≤ (raw.drop start).length) :
    FitsWell.nonAsciiIn raw start (start + slash.getD (cardSize - start)) = .ok false ∧
      FitsWell.nonAsciiIn raw (start + slash.getD (cardSize - start)) cardSize = .ok false := by
  rw [List.length_drop, hraw.length] at hslash
  exact ⟨hraw.nonAsciiIn (by omega) (by omega), hraw.nonAsciiIn (by omega) le_rfl⟩

theorem parseKeywordValue_field {raw : Text} {repairs : List RepairKind} {keyword : Keyword}
    {value : Value R} {comment : Option Text} {start : ℕ} (hraw : AsciiCard raw)
    (hstart : start ≤ cardSize) (hfield : ValueField (raw.drop start) value comment) :
    parseKeywordValue raw raw repairs keyword start =
      .ok (repairs, .record (.valued keyword value comment)) := by
  obtain ⟨token, slash, hsplit, hslash, hvalue⟩ := hfield.split
  obtain ⟨hvalueClean, hcommentClean⟩ := hraw.clean hstart hslash
  rw [parseKeywordValue, hraw.strFrom hstart, Loops.bind_ok rfl, hsplit, Loops.bind_ok rfl]
  dsimp only
  rw [hvalueClean, Loops.bind_ok rfl, if_neg Bool.false_ne_true, hvalue, Loops.bind_ok rfl]
  dsimp only
  rw [hcommentClean, Loops.bind_ok rfl, textRepair, if_neg Bool.false_ne_true, List.append_nil]

theorem parseHierarchValue_field {raw : Text} {repairs : List RepairKind} {name : HierarchName}
    {value : Value R} {comment : Option Text} {start : ℕ} (hraw : AsciiCard raw)
    (hstart : start ≤ cardSize) (hfield : ValueField (raw.drop start) value comment) :
    parseHierarchValue raw raw repairs name start =
      .ok (repairs, .record (.hierarch name value comment)) := by
  obtain ⟨token, slash, hsplit, hslash, hvalue⟩ := hfield.split
  obtain ⟨hvalueClean, hcommentClean⟩ := hraw.clean hstart hslash
  rw [parseHierarchValue, hraw.strFrom hstart, Loops.bind_ok rfl, hsplit, Loops.bind_ok rfl]
  dsimp only
  rw [hvalue, Loops.bind_ok rfl]
  dsimp only
  rw [hvalueClean, Loops.bind_ok rfl, if_neg Bool.false_ne_true, hcommentClean, Loops.bind_ok rfl,
    textRepair, if_neg Bool.false_ne_true, List.append_nil]

/-! ## Lines -/

/-- The line of a keyword's record parses to that record. -/
theorem parse_keywordLine {raw field : Text} {keyword : Keyword} {value : Value R}
    {comment : Option Text} (hraw : AsciiCard raw)
    (hvalued : validateValuedKeyword keyword = .ok ())
    (hline : raw = keywordLead keyword ++ [space] ++ field) (hfield : ValueField field value comment) :
    ParsedRecord.parse raw = .ok ([], .record (.valued keyword value comment)) := by
  have hcard : cardSize = 80 := rfl
  obtain ⟨hend, hcontinue, hcommentary⟩ := keyword.not_reserved hvalued
  obtain ⟨lead, hlead⟩ : ∃ lead, lead = padTo 8 keyword.name := ⟨_, rfl⟩
  have hleadLength : lead.length = 8 := hlead ▸ padTo_length keyword.length_le
  have hshape : raw = lead ++ equals :: space :: field := by
    rw [hline, keywordLead, ← hlead]
    simp only [List.append_assoc, List.cons_append, List.nil_append]
  have hname : raw.take 8 = padTo 8 keyword.recordName.name := by
    rw [hshape, ← hleadLength, List.take_left, hleadLength]
    exact hlead
  have hnine : raw.take 9 = lead ++ [equals] := by
    have hsplit : raw = lead ++ [equals] ++ space :: field := by
      rw [hshape, List.append_assoc, List.singleton_append]
    rw [hsplit, List.take_left' (by rw [List.length_append, hleadLength]; rfl)]
  have hten : raw.drop 10 = field := by
    have hsplit : raw = lead ++ [equals, space] ++ field := by
      rw [hshape, List.append_assoc]
      rfl
    rw [hsplit, List.drop_left' (by rw [List.length_append, hleadLength]; rfl)]
  have hspace : raw[9]? = some space := by
    rw [hshape, List.getElem?_append_right (by omega), hleadLength]
    rfl
  have hbytes : ∀ byte ∈ lead, byte ≠ equals ∧ isAsciiLowercase byte = false := by
    intro byte hbyte
    rw [hlead, padTo] at hbyte
    rcases List.mem_append.mp hbyte with hmem | hpad
    · exact ⟨(keyword.bytes byte hmem).2.1, (keyword.bytes byte hmem).2.2.2⟩
    · rw [List.eq_of_mem_replicate hpad]
      decide
  have hindicator : (lead ++ [equals]).idxOf equals = 8 := by
    rw [List.idxOf_append_of_notMem (fun hmem => (hbytes equals hmem).1 rfl), hleadLength]
    rfl
  have hnotHierarch : ¬((lead ++ [equals]).map toAsciiUppercase = ascii "HIERARCH " ∧
      equals ∈ raw.drop 9) := by
    rintro ⟨hsame, -⟩
    have hlast := congrArg List.getLast? hsame
    rw [List.map_append, List.map_singleton, List.getLast?_concat] at hlast
    exact absurd (Option.some.inj hlast) (by decide)
  have htrim : trimEndSpaces lead = keyword.name := by
    have hback := keyword.recordName.checked_padTo
    rw [CommentaryName.checked] at hback
    split at hback
    · rw [hlead]
      exact congrArg CommentaryName.name (Option.some.inj hback)
    · cases hback
  have hlower : keyword.name.any isAsciiLowercase = false := by
    rw [List.any_eq_false]
    intro byte hbyte
    rw [(keyword.bytes byte hbyte).2.2.2]
    exact Bool.false_ne_true
  rw [hraw.parse_named hname hend, parseNamed, if_neg hcommentary, if_neg hcontinue,
    hraw.strSlice (by omega) (by omega), Loops.bind_ok rfl, List.drop_zero, hnine,
    hraw.strFrom (by omega), Loops.bind_ok rfl, if_neg hnotHierarch,
    byteSlice_of_le (by omega) (by rw [hraw.length]; omega), Loops.bind_ok rfl, List.drop_zero, hnine,
    if_pos (by simp), hindicator, parseKeyword]
  dsimp only
  rw [if_pos ⟨rfl, hspace⟩, if_pos ⟨rfl, hspace⟩, hraw.strSlice (by omega) (by omega),
    Loops.bind_ok rfl, List.drop_zero, ← hleadLength, hshape, List.take_left, htrim, hlower, ← hshape]
  have hchecked : Keyword.checked keyword.name = some keyword := by
    rw [Keyword.checked, dif_pos keyword.admitted]
  simp only [Bool.false_eq_true, if_false, List.append_nil, hchecked]
  exact parseKeywordValue_field hraw (by omega) (hten.symm ▸ hfield)

/-- What a hierarchical name's bytes are not. -/
theorem HierarchName.bytes (name : HierarchName) : ∀ token ∈ name.tokens, ∀ byte ∈ token,
    isAsciiGraphic byte = true ∧ byte ≠ equals := by
  intro token htoken byte hbyte
  have h := List.all_eq_true.mp name.admitted.2 token htoken
  rw [isHierarchToken, Bool.and_eq_true, List.all_eq_true] at h
  simpa using h.2 byte hbyte

/-- A token of a hierarchical name: not empty, and with no blank. -/
def BlankFree (token : Text) : Prop := token ≠ [] ∧ ∀ byte ∈ token, isAsciiWhitespace byte = false

theorem HierarchName.blankFree (name : HierarchName) : ∀ token ∈ name.tokens, BlankFree token := by
  intro token htoken
  have h := List.all_eq_true.mp name.admitted.2 token htoken
  rw [isHierarchToken, Bool.and_eq_true] at h
  refine ⟨by simpa using h.1, fun byte hbyte => ?_⟩
  have hprintable := (name.bytes token htoken byte hbyte).1
  rw [isAsciiGraphic, Bool.and_eq_true, decide_eq_true_iff, UInt8.le_iff_toNat_le] at hprintable
  have hlow : (0x21 : UInt8).toNat = 33 := rfl
  rw [hlow] at hprintable
  have hne : ∀ blank : UInt8, blank.toNat < 33 → (byte == blank) = false := by
    intro blank hblank
    rw [beq_eq_false_iff_ne]
    rintro rfl
    omega
  rw [isAsciiWhitespace, hne _ (by decide), hne _ (by decide), hne _ (by decide),
    hne _ (by decide), hne _ (by decide)]
  rfl

/-- Spaces hold no tokens. -/
theorem splitAsciiWhitespace_spaces (n : ℕ) : splitAsciiWhitespace (spaces n) = [] := by
  induction n with
  | zero => rfl
  | succ n ih =>
    have hsplit : (space :: spaces n).splitOnP isAsciiWhitespace =
        [] :: (spaces n).splitOnP isAsciiWhitespace := by
      rw [List.splitOnP_cons_eq_if_modifyHead, if_pos (by decide)]
    rw [splitAsciiWhitespace, spaces, List.replicate_succ, ← spaces, hsplit]
    exact ih

/-- A token before a blank is the first of the tokens. -/
theorem splitAsciiWhitespace_cons {token rest : Text} (h : BlankFree token) :
    splitAsciiWhitespace (token ++ space :: rest) = token :: splitAsciiWhitespace rest := by
  have hkeep : (!token.isEmpty) = true := by simpa using h.1
  rw [splitAsciiWhitespace, List.splitOnP_append_cons_of_forall_mem h.2 space rfl, List.filter_cons,
    if_pos hkeep]
  rfl

theorem splitAsciiWhitespace_token {token : Text} (h : BlankFree token) (n : ℕ) :
    splitAsciiWhitespace (token ++ spaces n) = [token] := by
  cases n with
  | zero =>
    have hkeep : (!token.isEmpty) = true := by simpa using h.1
    rw [spaces, List.replicate_zero, List.append_nil, splitAsciiWhitespace,
      List.splitOnP_eq_singleton h.2, List.filter_cons, if_pos hkeep, List.filter_nil]
  | succ n =>
    rw [spaces, List.replicate_succ, splitAsciiWhitespace_cons h, ← spaces, splitAsciiWhitespace_spaces]

/-- Tokens read back from their text, whatever spaces follow. -/
theorem splitAsciiWhitespace_intercalate {tokens : List Text} (hne : tokens ≠ [])
    (htokens : ∀ token ∈ tokens, BlankFree token) (n : ℕ) :
    splitAsciiWhitespace ([space].intercalate tokens ++ spaces n) = tokens := by
  induction tokens with
  | nil => exact absurd rfl hne
  | cons token tokens ih =>
    have hfirst := htokens token List.mem_cons_self
    cases tokens with
    | nil =>
      rw [List.intercalate_singleton]
      exact splitAsciiWhitespace_token hfirst n
    | cons next tokens =>
      rw [List.intercalate_cons_cons, List.append_assoc, List.append_assoc, List.singleton_append,
        splitAsciiWhitespace_cons hfirst,
        ih (List.cons_ne_nil _ _) (fun t ht => htokens t (List.mem_cons_of_mem _ ht))]

/-- A hierarchical name reads back from its tokens, whatever spaces follow. -/
theorem HierarchName.fromStr_spaces (name : HierarchName) (n : ℕ) :
    HierarchName.fromStr (name.asStr ++ spaces n) = some name := by
  have htokens := splitAsciiWhitespace_intercalate name.admitted.1 name.blankFree n
  rw [HierarchName.fromStr, HierarchName.asStr]
  split
  · simp only [htokens]
  · rename_i hrefused
    exact absurd (htokens.symm ▸ name.admitted) hrefused

/-- A hierarchical name and the spaces after it hold no `=`. -/
theorem HierarchName.no_equals (name : HierarchName) (n : ℕ) : equals ∉ name.asStr ++ spaces n := by
  have hjoined : ∀ tokens : List Text, (∀ token ∈ tokens, equals ∉ token) →
      equals ∉ [space].intercalate tokens := by
    intro tokens
    induction tokens with
    | nil => exact fun _ => List.not_mem_nil
    | cons token tokens ih =>
      intro hall hmem
      cases tokens with
      | nil =>
        rw [List.intercalate_singleton] at hmem
        exact hall token List.mem_cons_self hmem
      | cons next tokens =>
        rw [List.intercalate_cons_cons, List.append_assoc] at hmem
        rcases List.mem_append.mp hmem with hmem | hmem
        · exact hall token List.mem_cons_self hmem
        · rcases List.mem_append.mp hmem with hmem | hmem
          · exact absurd (List.mem_singleton.mp hmem) (by decide)
          · exact ih (fun t ht => hall t (List.mem_cons_of_mem _ ht)) hmem
  intro hmem
  rcases List.mem_append.mp hmem with hmem | hspace
  · exact hjoined name.tokens (fun t ht heq => (name.bytes t ht equals heq).2 rfl) hmem
  · exact absurd (List.eq_of_mem_replicate hspace) (by decide)

/-- The line of a hierarchical record parses to that record. -/
theorem parse_hierarchLine {raw field : Text} {name : HierarchName} {value : Value R}
    {comment : Option Text} {n : ℕ} (hraw : AsciiCard raw)
    (hline : raw = ascii "HIERARCH " ++ (name.asStr ++ spaces n) ++ equals :: field)
    (hfield : ValueField field value comment) :
    ParsedRecord.parse raw = .ok ([], .record (.hierarch name value comment)) := by
  have hcard : cardSize = 80 := rfl
  obtain ⟨text, htext⟩ : ∃ text, text = name.asStr ++ spaces n := ⟨_, rfl⟩
  obtain ⟨lead, hlead⟩ : ∃ lead, lead = ascii "HIERARCH " := ⟨_, rfl⟩
  have hleadLength : lead.length = 9 := by rw [hlead]; rfl
  rw [← htext, ← hlead] at hline
  have hroom : 9 + text.length + 1 ≤ cardSize := by
    rw [← hraw.length, hline, List.length_append, List.length_append, hleadLength, List.length_cons]
    omega
  have height : raw.take 8 = padTo 8 (ascii "HIERARCH") := by
    rw [hline, List.append_assoc, List.take_append_of_le_length (by omega), hlead]
    rfl
  have hnine : raw.take 9 = lead := by
    rw [hline, List.append_assoc, ← hleadLength, List.take_left]
  have hrest : raw.drop 9 = text ++ equals :: field := by
    rw [hline, List.append_assoc, ← hleadLength, List.drop_left]
  have hno : equals ∉ text := htext ▸ name.no_equals n
  have hindicator : (raw.drop 9).idxOf equals = text.length := by
    rw [hrest, List.idxOf_append_of_notMem hno, List.idxOf_cons_self,
      Nat.add_zero]
  have hnameText : (raw.take (9 + text.length)).drop 9 = text := by
    rw [List.drop_take, hrest, Nat.add_sub_cancel_left, List.take_left]
  have hfieldAt : raw.drop (9 + text.length + 1) = field := by
    rw [Nat.add_assoc, ← List.drop_drop, hrest, ← List.drop_drop, List.drop_left, List.drop_one,
      List.tail_cons]
  have hupper : lead.map toAsciiUppercase = ascii "HIERARCH " := by
    rw [hlead]
    decide
  have hreserved : (⟨ascii "HIERARCH", by decide⟩ : CommentaryName) ∉
      [CommentaryName.BLANK, CommentaryName.COMMENT, CommentaryName.HISTORY] := by decide
  have hnamed : raw.take 8 = padTo 8 (⟨ascii "HIERARCH", by decide⟩ : CommentaryName).name := height
  rw [hraw.parse_named hnamed (by decide), parseNamed,
    if_neg hreserved, if_neg (by decide), hraw.strSlice (by omega) (by omega), Loops.bind_ok rfl,
    List.drop_zero, hnine, hraw.strFrom (by omega), Loops.bind_ok rfl,
    if_pos ⟨hupper, by rw [hrest]; simp⟩, hindicator, parseHierarch,
    hraw.strSlice (by omega) (by omega), Loops.bind_ok rfl, List.drop_zero, height]
  dsimp only
  rw [if_pos (by decide), hraw.strSlice (by omega) (by omega), Loops.bind_ok rfl, hnameText, htext,
    name.fromStr_spaces, ← htext]
  dsimp only
  rw [hraw.nonAsciiIn (by omega) (by omega), Loops.bind_ok rfl, if_neg Bool.false_ne_true]
  exact parseHierarchValue_field hraw (by omega) (hfieldAt.symm ▸ hfield)

/-- A piece of a long string reads back from its record. -/
theorem parse_continueLine {raw field : Text} {piece : Text} {comment : Option Text}
    (hraw : AsciiCard raw) (hline : raw = ascii "CONTINUE  " ++ field)
    (hfield : ∃ start, splitValueComment field =
      .ok ⟨[quote] ++ escaped piece ++ [quote], comment, start⟩ ∧
        start.getD field.length ≤ field.length) :
    ∃ tail, (ParsedRecord.parse raw : Outcome (Parsed R)) =
      .ok ([], .continued (dropInsignificant piece) comment tail) := by
  have hcard : cardSize = 80 := rfl
  obtain ⟨start, hsplit, hstart⟩ := hfield
  have hlead : (ascii "CONTINUE  ").length = 10 := rfl
  have height : raw.take 8 = padTo 8 CommentaryName.CONTINUE.name := by
    rw [hline, List.take_append_of_le_length (by rw [hlead]; omega)]
    rfl
  have hfieldAt : raw.drop 10 = field := by rw [hline, ← hlead, List.drop_left]
  have hblanks : (raw.take 10).drop 8 = [space, space] := by
    rw [hline, List.take_append_of_le_length (by rw [hlead])]
    rfl
  obtain ⟨hvalueClean, hcommentClean⟩ := hraw.clean (by omega : 10 ≤ cardSize)
    (hfieldAt.symm ▸ hstart)
  refine ⟨freeText (raw.drop 8), ?_⟩
  rw [hraw.parse_named height (by decide), parseNamed, if_neg (by decide), if_pos rfl, parseContinue,
    hraw.strFrom (by omega), Loops.bind_ok rfl, hfieldAt, hsplit, Loops.bind_ok rfl,
    byteSlice_of_le (by omega) (by rw [hraw.length]; omega), Loops.bind_ok rfl, hblanks]
  dsimp only
  rw [if_pos ⟨rfl, rfl⟩, parseString_quoted]
  dsimp only
  rw [hvalueClean, Loops.bind_ok rfl, if_neg Bool.false_ne_true, hcommentClean, Loops.bind_ok rfl,
    hraw.strFrom (by omega), Loops.bind_ok rfl]
  rfl

end FitsWell
