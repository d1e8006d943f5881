import FitsWell.HeaderModel.CardFields
import FitsWell.HeaderModel.CardLayout

/-!
# Value fields read back

The field of a value, its comment and the blanks around them splits into that value's text
and that comment, and a quoted literal reads back as its text.
-/

namespace FitsWell

/-! ## Trims -/

/-- So many spaces. -/
def spaces (n : ℕ) : Text := List.replicate n space

theorem dropWhile_spaces {p : UInt8 → Bool} (hp : p space = true) (n : ℕ) (text : Text) :
    (spaces n ++ text).dropWhile p = text.dropWhile p := by
  rw [List.dropWhile_append_of_pos]
  intro byte hbyte
  rw [List.eq_of_mem_replicate hbyte, hp]

theorem rdropWhile_spaces {p : UInt8 → Bool} (hp : p space = true) (n : ℕ) (text : Text) :
    (text ++ spaces n).rdropWhile p = text.rdropWhile p := by
  rw [List.rdropWhile, List.rdropWhile, List.reverse_append, spaces, List.reverse_replicate]
  exact congrArg List.reverse (dropWhile_spaces hp n _)

/-- A trim drops the spaces around text. -/
theorem trim_spaces (m n : ℕ) (text : Text) : trim (spaces m ++ text ++ spaces n) = trim text := by
  have hblank : isBlank space = true := rfl
  rw [trim, trim, List.append_assoc, dropWhile_spaces hblank, List.dropWhile_append]
  split
  · rename_i hempty
    have hspaces := dropWhile_spaces hblank n []
    rw [List.append_nil] at hspaces
    rw [hspaces, List.isEmpty_iff.mp hempty]
    rfl
  · exact rdropWhile_spaces hblank n _

/-- Text that starts and ends with no blank is trimmed. -/
theorem trim_eq_self {first last : UInt8} {middle : Text} (hfirst : isBlank first = false)
    (hlast : isBlank last = false) : trim (first :: middle ++ [last]) = first :: middle ++ [last] := by
  rw [trim, List.cons_append, List.dropWhile_cons_of_neg (by simp [hfirst]), ← List.cons_append,
    List.rdropWhile_concat_neg _ _ _ (by simp [hlast])]

/-- Text with no blank is trimmed. -/
theorem trim_of_no_blank {text : Text} (h : ∀ byte ∈ text, isBlank byte = false) :
    trim text = text := by
  have hdrop : text.dropWhile isBlank = text := by
    cases text with
    | nil => rfl
    | cons first rest =>
      exact List.dropWhile_cons_of_neg (by simp [h first List.mem_cons_self])
  rw [trim, hdrop]
  cases text using List.reverseRecOn with
  | nil => rfl
  | append_singleton rest last =>
    exact List.rdropWhile_concat_neg _ _ _ (by simp [h last (by simp)])

/-! ## Slashes -/

theorem findSlash_of_ne {byte : UInt8} (h : byte ≠ quote) (inString : Bool) (i : ℕ) (rest : Text) :
    findSlash inString i (byte :: rest) =
      if byte = slash ∧ inString = false then some i else findSlash inString (i + 1) rest := by
  rw [findSlash.eq_def]
  dsimp only
  rw [if_neg h]

theorem findSlash_quote (inString : Bool) (i : ℕ) (next : UInt8) (rest : Text) :
    findSlash inString i (quote :: next :: rest) =
      if inString && next == quote then findSlash inString (i + 2) rest
      else findSlash (!inString) (i + 1) (next :: rest) := by
  rw [findSlash.eq_def]
  dsimp only
  rw [if_pos rfl]

/-- The search passes bytes that are no quote and no `/`. -/
theorem findSlash_plain {text : Text} (h : ∀ byte ∈ text, byte ≠ quote ∧ byte ≠ slash)
    (inString : Bool) (i : ℕ) (rest : Text) :
    findSlash inString i (text ++ rest) = findSlash inString (i + text.length) rest := by
  induction text generalizing i with
  | nil => rfl
  | cons byte text ih =>
    obtain ⟨hquote, hslash⟩ := h byte List.mem_cons_self
    rw [List.cons_append, findSlash_of_ne hquote, if_neg (fun hboth => hslash hboth.1),
      ih (fun other hother => h other (List.mem_cons_of_mem byte hother)), List.length_cons]
    congr 1
    omega

/-- Inside a string the search passes its text, quotes doubled, to the quote that ends it. -/
theorem findSlash_escaped (text rest : Text) (i : ℕ) (hrest : rest.head? ≠ some quote) :
    findSlash true i (escaped text ++ quote :: rest) =
      findSlash false (i + (escaped text).length + 1) rest := by
  induction text generalizing i with
  | nil =>
    cases rest with
    | nil => rfl
    | cons next rest =>
      have hnext : (next == quote) = false := by
        rw [beq_eq_false_iff_ne]
        rintro rfl
        exact hrest rfl
      change findSlash true i (quote :: next :: rest) = _
      rw [findSlash_quote, hnext]
      rfl
  | cons byte text ih =>
    have hcons : escaped (byte :: text) =
        (if byte = quote then [quote, quote] else [byte]) ++ escaped text := List.flatMap_cons
    rw [hcons]
    by_cases hquote : byte = quote
    · rw [if_pos hquote]
      change findSlash true i (quote :: quote :: (escaped text ++ quote :: rest)) = _
      rw [findSlash_quote, if_pos (by simp), ih, List.length_append]
      congr 1
      simp only [List.length_cons, List.length_nil]
      omega
    · rw [if_neg hquote]
      change findSlash true i (byte :: (escaped text ++ quote :: rest)) = _
      rw [findSlash_of_ne hquote, if_neg (by simp), ih, List.length_append, List.length_singleton]
      congr 1
      omega

/-- The search for a comment's `/` passes a value's text, where no quote follows it. -/
def SlashFree (text : Text) : Prop :=
  ∀ i rest, rest.head? ≠ some quote →
    findSlash false i (text ++ rest) = findSlash false (i + text.length) rest

theorem slashFree_of_plain {text : Text} (h : ∀ byte ∈ text, byte ≠ quote ∧ byte ≠ slash) :
    SlashFree text := fun i rest _ => findSlash_plain h false i rest

/-- The search passes a quoted string. -/
theorem slashFree_quoted (text : Text) : SlashFree ([quote] ++ escaped text ++ [quote]) := by
  intro i rest hrest
  have hopen : ∀ inner : Text, inner ≠ [] →
      findSlash false i (quote :: inner) = findSlash true (i + 1) inner := by
    intro inner hinner
    cases inner with
    | nil => exact absurd rfl hinner
    | cons next inner => exact findSlash_quote false i next inner
  rw [List.append_assoc, List.append_assoc, List.singleton_append, List.singleton_append,
    hopen _ (by simp), findSlash_escaped text rest (i + 1) hrest]
  congr 1
  simp only [List.length_append, List.length_cons, List.length_nil]
  omega

/-! ## Fields -/

/-- A comment as a record reads it back: not empty, with no blanks around it. -/
def TrimmedComment (comment : Option Text) : Prop :=
  ∀ text, comment = some text → text ≠ [] ∧ trim text = text

theorem spaces_plain {n : ℕ} {byte : UInt8} (h : byte ∈ spaces n) : byte ≠ quote ∧ byte ≠ slash := by
  rw [List.eq_of_mem_replicate h]
  exact ⟨by decide, by decide⟩

theorem head?_spaces_append {n : ℕ} {rest : Text} (h : rest.head? ≠ some quote) :
    (spaces n ++ rest).head? ≠ some quote := by
  cases n with
  | zero => exact h
  | succ n => exact fun hhead => absurd (Option.some.inj hhead) (by decide)

/-- A field of a token and its comment, with spaces around them, splits into these. -/
theorem splitValueComment_field {token : Text} {comment : Option Text} {m n : ℕ}
    (htoken : SlashFree token) (htrim : trim token = token) (hcomment : TrimmedComment comment)
    (hascii : (spaces m ++ token ++ commentText comment ++ spaces n).all isAscii = true) :
    ∃ start, splitValueComment (spaces m ++ token ++ commentText comment ++ spaces n) =
      .ok ⟨token, comment, start⟩ := by
  have hlead : ∀ rest : Text, rest.head? ≠ some quote →
      findSlash false 0 (spaces m ++ token ++ rest) = findSlash false (m + token.length) rest := by
    intro rest hrest
    rw [List.append_assoc, findSlash_plain (fun _ => spaces_plain), htoken _ _ hrest, spaces,
      List.length_replicate, Nat.zero_add]
  rw [splitValueComment_of_ascii hascii]
  cases comment with
  | none =>
    have hnone : findSlash false 0 (spaces m ++ token ++ commentText none ++ spaces n) = none := by
      have hend := findSlash_plain (fun _ => spaces_plain (n := n)) false (m + token.length) []
      rw [List.append_nil] at hend
      rw [commentText, List.append_nil, hlead _ (by simpa using @head?_spaces_append n []), hend]
      rfl
    rw [hnone, commentText, List.append_nil, trim_spaces, htrim]
    exact ⟨none, rfl⟩
  | some text =>
    obtain ⟨hne, htext⟩ := hcomment text rfl
    have hfront : (spaces m ++ token ++ [space]).length = m + token.length + 1 := by
      simp only [List.length_append, spaces, List.length_replicate, List.length_singleton]
    have hsplit : spaces m ++ token ++ commentText (some text) ++ spaces n =
        spaces m ++ token ++ [space] ++ slash :: ([space] ++ text ++ spaces n) := by
      have hseparator : ascii " / " = [space, slash, space] := by decide
      rw [commentText, hseparator]
      simp only [List.append_assoc, List.cons_append, List.nil_append]
    have hhead : ([space] ++ slash :: ([space] ++ text ++ spaces n)).head? ≠ some quote :=
      fun h => absurd (Option.some.inj h) (by decide)
    have hslash : findSlash false 0 (spaces m ++ token ++ commentText (some text) ++ spaces n) =
        some (m + token.length + 1) := by
      rw [hsplit, List.append_assoc (spaces m ++ token) [space], hlead _ hhead,
        findSlash_plain (by decide +kernel), findSlash_of_ne (by decide), if_pos ⟨rfl, rfl⟩]
      rfl
    have htake : trim ((spaces m ++ token ++ commentText (some text) ++ spaces n).take
        (m + token.length + 1)) = token := by
      rw [hsplit, ← hfront, List.take_left]
      exact (trim_spaces m 1 token).trans htrim
    have hdrop : trim ((spaces m ++ token ++ commentText (some text) ++ spaces n).drop
        (m + token.length + 1 + 1)) = text := by
      rw [hsplit, ← List.drop_drop, ← hfront, List.drop_left, List.drop_one, List.tail_cons]
      exact (trim_spaces 1 n text).trans htext
    rw [hslash]
    dsimp only
    rw [htake, hdrop, nonEmpty, if_neg (by simpa using hne)]
    exact ⟨some (m + token.length + 1), rfl⟩

/-- The comment of the field starts within it. -/
theorem splitValueComment_bounded {token field : Text} {comment : Option Text} {m n : ℕ}
    (hfield : field = spaces m ++ token ++ commentText comment ++ spaces n)
    (htoken : SlashFree token) (htrim : trim token = token) (hcomment : TrimmedComment comment)
    (hascii : field.all isAscii = true) :
    ∃ start, splitValueComment field = .ok ⟨token, comment, start⟩ ∧
      start.getD field.length ≤ field.length := by
  subst hfield
  obtain ⟨start, hsplit⟩ := splitValueComment_field htoken htrim hcomment hascii
  obtain ⟨found, hfound, -, hstart⟩ := splitValueComment_ok hascii
  obtain rfl := Except.ok.inj (hfound.symm.trans hsplit)
  exact ⟨start, hsplit, hstart⟩

/-! ## Quoted text -/

theorem unquote_of_ne {byte : UInt8} (h : byte ≠ quote) (out rest : Text) :
    unquote out (byte :: rest) = unquote (out ++ [byte]) rest := by
  rw [unquote.eq_def]
  dsimp only
  rw [if_neg h]

/-- The text of a literal, its quotes doubled, reads back. -/
theorem unquote_escaped (out text : Text) :
    unquote out (escaped text ++ [quote]) = some (out ++ text) := by
  induction text generalizing out with
  | nil => rw [List.append_nil]; rfl
  | cons byte text ih =>
    have hcons : escaped (byte :: text) =
        (if byte = quote then [quote, quote] else [byte]) ++ escaped text := List.flatMap_cons
    rw [hcons]
    by_cases hquote : byte = quote
    · have hdouble : unquote out (quote :: quote :: (escaped text ++ [quote])) =
          unquote (out ++ [quote]) (escaped text ++ [quote]) := by
        rw [unquote.eq_def]
        dsimp only
        rw [if_pos rfl, if_pos rfl]
      rw [if_pos hquote, hquote]
      change unquote out (quote :: quote :: (escaped text ++ [quote])) = _
      rw [hdouble, ih, List.append_assoc]
      rfl
    · rw [if_neg hquote]
      change unquote out (byte :: (escaped text ++ [quote])) = _
      rw [unquote_of_ne hquote, ih, List.append_assoc]
      rfl

theorem parseString_quoted (text : Text) :
    parseString ([quote] ++ escaped text ++ [quote]) = some (dropInsignificant text) := by
  rw [parseString, List.append_assoc, List.singleton_append, List.drop_one, List.tail_cons,
    unquote_escaped]
  rfl

theorem trim_quoted (text : Text) :
    trim ([quote] ++ escaped text ++ [quote]) = [quote] ++ escaped text ++ [quote] :=
  trim_eq_self (by decide) (by decide)

theorem escaped_append (a b : Text) : escaped (a ++ b) = escaped a ++ escaped b :=
  List.flatMap_append

theorem escaped_of_no_quote {text : Text} (h : quote ∉ text) : escaped text = text := by
  induction text with
  | nil => rfl
  | cons byte text ih =>
    obtain ⟨hbyte, htext⟩ := not_or.mp (fun hmem => h (List.mem_cons.mpr hmem))
    have hcons : escaped (byte :: text) =
        (if byte = quote then [quote, quote] else [byte]) ++ escaped text := List.flatMap_cons
    rw [hcons, if_neg (Ne.symm hbyte), ih htext]
    rfl

theorem escaped_spaces (n : ℕ) : escaped (spaces n) = spaces n :=
  escaped_of_no_quote (fun h => (spaces_plain h).1 rfl)

/-- Spaces after text are insignificant. -/
theorem dropInsignificant_spaces {text : Text} (h : text ≠ []) (n : ℕ) :
    dropInsignificant (text ++ spaces n) = dropInsignificant text := by
  have htrim : trimEndSpaces (text ++ spaces n) = trimEndSpaces text :=
    rdropWhile_spaces (by decide) n text
  rw [dropInsignificant, dropInsignificant, htrim]
  simp [h]

/-- Text that does not end in a space is significant to its end. -/
theorem dropInsignificant_of_getLast? {text : Text} (h : text.getLast? ≠ some space) :
    dropInsignificant text = text := by
  cases text using List.reverseRecOn with
  | nil => rfl
  | append_singleton front last =>
    have hlast : last ≠ space := by
      rintro rfl
      exact h (List.getLast?_concat)
    have htrim : trimEndSpaces (front ++ [last]) = front ++ [last] :=
      List.rdropWhile_concat_neg _ _ _ (by simpa using hlast)
    rw [dropInsignificant, htrim]
    simp

end FitsWell
