import FitsWell.HeaderModel.Header

/-!
# Parsing a record

The 80 bytes of a record parse to a record with a value, to commentary, to a malformed
record that keeps its bytes, to a piece of a long string, or to the end of the header.
-/

namespace FitsWell

/-! ## Slices of text -/

/-- Whether a slice of text may start or end at byte `i`: no byte that goes on a character
is there. -/
def isCharBoundary (text : Text) (i : ℕ) : Bool :=
  match text[i]? with
  | some byte => byte < 0x80 || 0xc0 ≤ byte
  | none => i == text.length

/-- `&text[start..stop]`. -/
def strSlice (text : Text) (start stop : ℕ) : Outcome Text :=
  if start ≤ stop ∧ isCharBoundary text start ∧ isCharBoundary text stop then
    .ok ((text.take stop).drop start)
  else
    abort .indexOutOfBounds

/-- `&text[start..]`. -/
def strFrom (text : Text) (start : ℕ) : Outcome Text := strSlice text start text.length

/-- `&bytes[start..stop]`. -/
def byteSlice (bytes : Text) (start stop : ℕ) : Outcome Text :=
  if start ≤ stop ∧ stop ≤ bytes.length then .ok ((bytes.take stop).drop start)
  else abort .indexOutOfBounds

/-- `blank::trim`: text without its leading and trailing blanks. -/
def blankTrim (text : Text) : Outcome Text := do
  debugAssert (text.all isAscii)
  let start := (text.takeWhile isBlank).length
  let stop := if text.all isBlank then start else (text.rdropWhile isBlank).length
  strSlice text start stop

/-! ## Values -/

variable {R : Type}

/-- What a record parses to. -/
inductive ParsedRecord (R : Type)
  | record (record : Record R)
  | continued (substring : Text) (comment tail : Option Text)
  | ended

/-- A value field: its value token, its comment, and where the comment's `/` is. -/
structure Split where
  valueToken : Text
  comment : Option Text
  commentStart : Option ℕ
  deriving DecidableEq, Repr

/-- The place of the first `/` outside a string, from place `i` on. A doubled quote does not
end a string. -/
def findSlash (inString : Bool) (i : ℕ) : Text → Option ℕ
  | [] => none
  | byte :: rest =>
    if byte = quote then
      match rest with
      | [] => none
      | next :: rest' =>
        if inString && next == quote then findSlash inString (i + 2) rest'
        else findSlash (!inString) (i + 1) (next :: rest')
    else if byte = slash ∧ inString = false then
      some i
    else
      findSlash inString (i + 1) rest

/-- The comment of a record with a value: its text with no blanks around it. -/
def commentOf (field : Text) : Outcome (Option Text) := do
  let trimmed ← blankTrim field
  .ok (if trimmed.isEmpty then none else some trimmed)

/-- Split a value field on the first `/` outside a string. -/
def splitValueComment (field : Text) : Outcome Split :=
  match findSlash false 0 field with
  | some i => do
    let token ← strSlice field 0 i >>= blankTrim
    let comment ← strFrom field (i + 1) >>= commentOf
    .ok ⟨token, comment, some i⟩
  | none => do
    let token ← blankTrim field
    .ok ⟨token, none, none⟩

/-- The text of a literal after its opening quote, after `out`; none where the literal does
not end, or has more than spaces after it. -/
def unquote (out : Text) : Text → Option Text
  | [] => none
  | byte :: rest =>
    if byte = quote then
      match rest with
      | [] => some out
      | next :: rest' =>
        if next = quote then unquote (out ++ [quote]) rest'
        else if (next :: rest').all (· == space) then some out
        else none
    else
      unquote (out ++ [byte]) rest

/-- Text without its trailing spaces, but for one that tells it from the null string. -/
def dropInsignificant (text : Text) : Text :=
  if (trimEndSpaces text).isEmpty && !text.isEmpty then [space] else trimEndSpaces text

/-- The text of a literal. -/
def parseString (token : Text) : Option Text := (unquote [] (token.drop 1)).map dropInsignificant

/-- Drop the zeros before a number's first other digit. -/
def trimStartZeros (digits : Text) : Text := digits.dropWhile (· == 0x30)

theorem isDigits_trimStartZeros {digits : Text} (h : isDigits digits = true)
    (hnonempty : trimStartZeros digits ≠ []) :
    isDigits (trimStartZeros digits) = true ∧ (trimStartZeros digits).head? ≠ some 0x30 := by
  rw [isDigits, Bool.and_eq_true, List.all_eq_true] at h ⊢
  refine ⟨⟨by simpa using hnonempty, fun byte hbyte => h.2 byte ?_⟩, fun hzero => ?_⟩
  · exact (List.dropWhile_sublist _).mem hbyte
  · have := List.head?_dropWhile_not (· == 0x30) digits
    rw [trimStartZeros] at hzero
    rw [hzero] at this
    simp at this

theorem value_trimStartZeros (digits : Text) :
    Decimal.value (trimStartZeros digits) = Decimal.value digits := by
  induction digits with
  | nil => rfl
  | cons byte digits ih =>
    by_cases hzero : byte = 0x30
    · have hrest : Decimal.value (byte :: digits) = Decimal.value digits := by
        rw [hzero]
        rfl
      rw [hrest, ← ih, trimStartZeros, List.dropWhile_cons_of_pos (by simp [hzero])]
      rfl
    · rw [trimStartZeros, List.dropWhile_cons_of_neg (by simpa using hzero)]

theorem parseI64_range {token : Text} {value : ℤ} (h : parseI64 token = some value) :
    -2 ^ 63 ≤ value ∧ value < 2 ^ 63 := by
  unfold parseI64 at h
  split at h
  rename_i negative digits hsplit
  split at h
  · dsimp only at h
    split at h
    · rename_i hrange
      exact Option.some.inj h ▸ hrange
    · cases h
  · cases h

/-- The digits that a parse as a word refused spell no word. -/
theorem canonical_of_parseI64 {token : Text} (hword : parseI64 token = none)
    (hdigits : isDigits (splitSign token).2 = true)
    (hnonempty : trimStartZeros (splitSign token).2 ≠ []) :
    (IntegerRepr.decimal (splitSign token).1 (trimStartZeros (splitSign token).2)).Canonical := by
  obtain ⟨hsignificant, hhead⟩ := isDigits_trimStartZeros hdigits hnonempty
  refine ⟨hsignificant, hhead, fun hrange => ?_⟩
  rw [value_trimStartZeros] at hrange
  unfold parseI64 at hword
  dsimp only at hword
  rw [if_pos hdigits, if_pos hrange] at hword
  cases hword

/-- The integer a token spells, with its sign and any number of digits. -/
def FitsInteger.parse (token : Text) : Option FitsInteger :=
  match hword : parseI64 token with
  | some value => some ⟨.i64 value, parseI64_range hword⟩
  | none =>
    let negative := (splitSign token).1
    let digits := (splitSign token).2
    if hdigits : isDigits digits = true then
      let significant := trimStartZeros digits
      if hempty : significant = [] then
        some ⟨.i64 0, ⟨by decide, by decide⟩⟩
      else
        some ⟨.decimal negative significant, canonical_of_parseI64 hword hdigits hempty⟩
    else
      none

variable [RealText R]

/-- A real token, with a `D` for its exponent's `E`. -/
def withExponent (token : Text) : Text :=
  if token.any (fun byte => byte == 0x64 || byte == 0x44) then
    token.map fun byte => if byte = 0x64 ∨ byte = 0x44 then 0x45 else byte
  else
    token

/-- The real a token spells, which is finite. -/
def parseReal (token : Text) : Option R := (RealText.parse (withExponent token)).filter RealText.isFinite

/-- Whether a token has a point or an exponent. -/
def looksReal (token : Text) : Bool :=
  token.any fun byte =>
    byte == 0x2e || byte == 0x65 || byte == 0x45 || byte == 0x64 || byte == 0x44

/-- The integer or the real a token spells. -/
def parseScalar (token : Text) : Option (Value R) :=
  if looksReal token then
    (parseReal token).map .real
  else
    ((FitsInteger.parse token).map Value.integer).or ((parseReal token).map .real)

/-- An integer as a real, where one of its size is finite. -/
def FitsInteger.toReal (integer : FitsInteger) : Option R :=
  match integer.repr with
  | .i64 value => some (RealText.ofI64 value)
  | .decimal _ _ => (RealText.parse integer.display).filter RealText.isFinite

/-- The real of a part of a complex value. -/
def complexPart (part : Value R) : Outcome R :=
  match part with
  | .real real => .ok real
  | .integer integer =>
    match (integer.toReal : Option R) with
    | some real => .ok real
    | none => abort .expectation
  | _ => abort .expectation

/-- A complex value of its two parts: an integer beside a real widens. -/
def complexOf (re im : Value R) : Outcome (Value R) :=
  match re, im with
  | .integer re, .integer im => .ok (.complexInteger re im)
  | re, im => do
    let re ← complexPart re
    let im ← complexPart im
    .ok (.complexReal re im)

/-- The two parts of text around its first comma. -/
def splitOnceComma (text : Text) : Option (Text × Text) :=
  if 0x2c ∈ text then
    some (text.takeWhile (· != 0x2c), (text.dropWhile (· != 0x2c)).drop 1)
  else
    none

/-- The text between parentheses. -/
def stripParens (token : Text) : Option Text :=
  match token with
  | first :: rest =>
    if first = 0x28 ∧ rest.getLast? = some 0x29 then some rest.dropLast else none
  | [] => none

/-- The complex value `(re, im)`. -/
def parseComplex (token : Text) : Outcome (Option (Value R)) :=
  match (stripParens token).bind splitOnceComma with
  | none => .ok none
  | some (re, im) => do
    let token ← blankTrim re
    match (parseScalar token : Option (Value R)) with
    | none => .ok none
    | some re => do
      let token ← blankTrim im
      match (parseScalar token : Option (Value R)) with
      | none => .ok none
      | some im => do
        let value ← complexOf re im
        .ok (some value)

/-- The value a token spells. -/
def parseValue (token : Text) : Outcome (Option (Value R)) :=
  if token.isEmpty then
    .ok (some .undefined)
  else if token.head? = some quote then
    .ok ((parseString token).map .text)
  else if token = ascii "T" then
    .ok (some (.logical true))
  else if token = ascii "F" then
    .ok (some (.logical false))
  else if token.head? = some 0x28 then
    parseComplex token
  else
    .ok (parseScalar token)

/-! ## Records -/

/-- `END` in the name field. -/
def isEndRecord (raw : Text) : Bool :=
  raw.length == cardSize && raw.take 8 == ascii "END     "

/-- A record's text, each byte past ASCII read as `?`. -/
def asciiText (raw : Text) : Text := raw.map fun byte => if isAscii byte then byte else 0x3f

/-- Free text of commentary, without its trailing spaces. -/
def freeText (field : Text) : Option Text :=
  if (trimEndSpaces field).isEmpty then none else some (trimEndSpaces field)

/-- A record, with the repairs its parse made. -/
abbrev Parsed (R : Type) := List RepairKind × ParsedRecord R

/-- A byte past ASCII in a part of a record. -/
def nonAsciiIn (raw : Text) (start stop : ℕ) : Outcome Bool := do
  let part ← byteSlice raw start stop
  .ok (part.any fun byte => !isAscii byte)

/-- The repair of text that held a byte past ASCII. -/
def textRepair (nonAscii : Bool) : List RepairKind := if nonAscii then [.nonAsciiText] else []

/-- A record that does not parse. -/
def malformed (raw : Text) (name : Option RecordName) (defect : Defect) : ParsedRecord R :=
  .record (.malformed name raw defect)

/-- A record of commentary. -/
def parseCommentary (raw text : Text) (name : CommentaryName) : Outcome (Parsed R) := do
  let nonAscii ← nonAsciiIn raw 8 cardSize
  let field ← strFrom text 8
  .ok (textRepair nonAscii, .record (.commentary name (freeText field)))

/-- A `CONTINUE` record: a piece of a long string, or commentary. -/
def parseContinue (raw text : Text) (name : CommentaryName) : Outcome (Parsed R) := do
  let field ← strFrom text 10
  let split ← splitValueComment field
  let blanks ← byteSlice raw 8 10
  if blanks = [space, space] ∧ split.valueToken.head? = some quote then
    let valueEnd := 10 + split.commentStart.getD (cardSize - 10)
    match parseString split.valueToken with
    | none => .ok ([], malformed raw (some (.commentary name)) .value)
    | some substring => do
      let dirty ← nonAsciiIn raw 10 valueEnd
      if dirty then
        .ok ([], malformed raw (some (.commentary name)) .value)
      else do
        let nonAscii ← nonAsciiIn raw valueEnd cardSize
        let tail ← strFrom text 8
        .ok (textRepair nonAscii, .continued substring split.comment (freeText tail))
  else
    parseCommentary raw text name

/-- The value and comment of a `HIERARCH` record, from byte `start`. -/
def parseHierarchValue (raw text : Text) (repairs : List RepairKind) (name : HierarchName)
    (start : ℕ) : Outcome (Parsed R) := do
  let field ← strFrom text start
  let split ← splitValueComment field
  let valueEnd := start + split.commentStart.getD (cardSize - start)
  let value ← parseValue split.valueToken
  match value with
  | none => .ok (repairs, malformed raw (some (.hierarch name)) .value)
  | some value => do
    let dirty ← nonAsciiIn raw start valueEnd
    if dirty then
      .ok (repairs, malformed raw (some (.hierarch name)) .value)
    else do
      let nonAscii ← nonAsciiIn raw valueEnd cardSize
      .ok (repairs ++ textRepair nonAscii, .record (.hierarch name value split.comment))

/-- A `HIERARCH name = value` record, its `=` at byte `indicator`. -/
def parseHierarch (raw text : Text) (indicator : ℕ) : Outcome (Parsed R) := do
  let lead ← strSlice text 0 8
  let repairs := if lead = ascii "HIERARCH" then [] else [.lowercaseName]
  let nameText ← strSlice text 9 indicator
  match HierarchName.fromStr nameText with
  | none => .ok (repairs, malformed raw none .name)
  | some name => do
    let dirty ← nonAsciiIn raw 9 indicator
    if dirty then .ok (repairs, malformed raw none .name)
    else parseHierarchValue raw text repairs name (indicator + 1)

/-- The value and comment of a record of `keyword`, from byte `start`. -/
def parseKeywordValue (raw text : Text) (repairs : List RepairKind) (keyword : Keyword)
    (start : ℕ) : Outcome (Parsed R) := do
  let field ← strFrom text start
  let split ← splitValueComment field
  let valueEnd := start + split.commentStart.getD (cardSize - start)
  let dirty ← nonAsciiIn raw start valueEnd
  if dirty then
    .ok (repairs, malformed raw (some (.keyword keyword)) .value)
  else do
    let value ← parseValue split.valueToken
    match value with
    | none => .ok (repairs, malformed raw (some (.keyword keyword)) .value)
    | some value => do
      let nonAscii ← nonAsciiIn raw valueEnd cardSize
      .ok (repairs ++ textRepair nonAscii, .record (.valued keyword value split.comment))

/-- A `KEYWORD = value` record, its `=` at byte `indicator`. -/
def parseKeyword (raw text : Text) (indicator : ℕ) : Outcome (Parsed R) := do
  let fixed := indicator = 8 ∧ raw[9]? = some space
  let start := if fixed then 10 else indicator + 1
  let misplaced := if fixed then [] else [.valueIndicator]
  let field ← strSlice text 0 indicator
  let name := trimEndSpaces field
  let lowercase := name.any isAsciiLowercase
  let repairs := misplaced ++ if lowercase then [.lowercaseName] else []
  match Keyword.checked (if lowercase then name.map toAsciiUppercase else name) with
  | none => .ok (repairs, malformed raw none .name)
  | some keyword => parseKeywordValue raw text repairs keyword start

/-- A record whose name field spells `name`. -/
def parseNamed (raw text : Text) (name : CommentaryName) : Outcome (Parsed R) :=
  if name ∈ [CommentaryName.BLANK, CommentaryName.COMMENT, CommentaryName.HISTORY] then
    parseCommentary raw text name
  else if name = CommentaryName.CONTINUE then
    parseContinue raw text name
  else do
    let lead ← strSlice text 0 9
    let rest ← strFrom text 9
    if lead.map toAsciiUppercase = ascii "HIERARCH " ∧ equals ∈ rest then
      parseHierarch raw text (9 + rest.idxOf equals)
    else do
      let field ← byteSlice raw 0 9
      if equals ∈ field then parseKeyword raw text (field.idxOf equals)
      else parseCommentary raw text name

/-- Parse the 80 bytes of a record. A record that does not parse is malformed. -/
def ParsedRecord.parse (raw : Text) : Outcome (Parsed R) :=
  if isEndRecord raw then do
    let rest ← byteSlice raw 8 raw.length
    .ok (if rest.any (· != space) then [.endText] else [], .ended)
  else do
    let dirty ← nonAsciiIn raw 0 8
    if dirty then
      .ok ([], malformed raw none .name)
    else do
      let text := asciiText raw
      let field ← strSlice text 0 8
      match CommentaryName.checked (trimEndSpaces field) with
      | none => .ok ([], malformed raw none .name)
      | some name => parseNamed raw text name

end FitsWell
