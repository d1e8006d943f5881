import FitsWell.HeaderModel.EditIndex
import FitsWell.ImageModel.Bitpix

/-!
# Typed lookups

A lookup of a type tells a value that is absent from one of another type. A mandatory size
is an integer that a word holds.
-/

namespace FitsWell

/-! ## Conversions -/

/-- Reals whose whole values convert to words. -/
class RealWords (R : Type) extends RealText R where
  /-- `real as i64`, of a whole real that an `i64` holds. -/
  asI64 : R → Option ℤ

/-- Whole numbers convert where a word holds them. -/
instance wholeWords : RealWords ℤ where
  asI64 value := if -2 ^ 63 ≤ value ∧ value < 2 ^ 63 then some value else none

/-- The integer as an `i64`. -/
def FitsInteger.toI64 (integer : FitsInteger) : Outcome ℤ :=
  match integer.repr with
  | .i64 value => .ok value
  | .decimal _ _ =>
    match parseI64 integer.display with
    | some value => .ok value
    | none => fail (.integerOutOfRange none integer.display .i64)

namespace Value

variable {R : Type}

def asLogical : Value R → Option Bool
  | .logical value => some value
  | _ => none

def asText : Value R → Option Text
  | .text found => some found
  | _ => none

/-- The integer of a value, written as an integer or as a whole real. -/
def asInteger [RealWords R] : Value R → Outcome (Option ℤ)
  | .integer exact => do
    let value ← exact.toI64
    .ok (some value)
  | .real whole =>
    if RealText.isWhole whole then
      match RealWords.asI64 whole with
      | some value => .ok (some value)
      | none => fail (.integerOutOfRange none (RealText.display whole) .i64)
    else
      .ok none
  | _ => .ok none

end Value

/-- The integer as an `f64`. -/
def FitsInteger.toF64 {R : Type} [RealText R] (integer : FitsInteger) : Outcome R :=
  match integer.repr with
  | .i64 value => .ok (RealText.ofI64 value)
  | .decimal _ _ =>
    match (RealText.parse integer.display).filter RealText.isFinite with
    | some real => .ok real
    | none => fail (.integerOutOfRange none integer.display .f64)

/-- The real of a value, written as a real or as an integer. -/
def Value.asReal {R : Type} [RealText R] : Value R → Outcome (Option R)
  | .real value => .ok (some value)
  | .integer exact => do
    let value ← exact.toF64
    .ok (some value)
  | _ => .ok none

/-- A keyword as a string. -/
def Keyword.asStr (keyword : Keyword) : String :=
  String.ofList (keyword.name.map fun byte => Char.ofNat byte.toNat)

/-- The keyword with a decimal index after it. -/
def Keyword.indexed (root : Keyword) (index : ℕ) : Outcome Keyword :=
  match Keyword.checked (root.name ++ Decimal.numeral index) with
  | some keyword => .ok keyword
  | none => fail (.invalidKeyword (root.name ++ Decimal.numeral index))

/-- The sample type of a `BITPIX` value. -/
def Bitpix.ofCode (code : ℤ) : Outcome Bitpix :=
  if code = 8 then .ok .u8
  else if code = 16 then .ok .i16
  else if code = 32 then .ok .i32
  else if code = 64 then .ok .i64
  else if code = -32 then .ok .f32
  else if code = -64 then .ok .f64
  else fail (.invalidBitpix code)

/-! ## Lookups -/

namespace Header

variable {R : Type}

section Typed

variable {α : Type} (header : Header R)

/-- The value of a name as a conversion has it. An integer out of range is named. -/
def typedOptional (name : RecordName) (expected : ValueKind)
    (convert : Value R → Outcome (Option α)) : Outcome (Option α) := do
  let found ← header.value name
  match found with
  | none => .ok none
  | some value =>
    match convert value with
    | .ok (some converted) => .ok (some converted)
    | .ok none => fail (.valueTypeMismatch name expected)
    | .error (.err (.integerOutOfRange _ value target)) =>
      fail (.integerOutOfRange (some name) value target)
    | .error fault => .error fault

/-- The value of a name that is mandatory. -/
def typedRequired (name : RecordName) (expected : ValueKind)
    (convert : Value R → Outcome (Option α)) : Outcome α := do
  let found ← header.typedOptional name expected convert
  match found with
  | some value => .ok value
  | none => fail (.missingKeyword name)

end Typed

def getLogical (header : Header R) (keyword : Keyword) : Outcome (Option Bool) :=
  header.typedOptional (.keyword keyword) .logical fun value => .ok value.asLogical

def getText (header : Header R) (keyword : Keyword) : Outcome (Option Text) :=
  header.typedOptional (.keyword keyword) .text fun value => .ok value.asText

def requireText (header : Header R) (keyword : Keyword) : Outcome Text :=
  header.typedRequired (.keyword keyword) .text fun value => .ok value.asText

def getReal [RealText R] (header : Header R) (keyword : Keyword) : Outcome (Option R) :=
  header.typedOptional (.keyword keyword) .real Value.asReal

variable [RealWords R]

def getInteger (header : Header R) (keyword : Keyword) : Outcome (Option ℤ) :=
  header.typedOptional (.keyword keyword) .integer Value.asInteger

def requireInteger (header : Header R) (keyword : Keyword) : Outcome ℤ :=
  header.typedRequired (.keyword keyword) .integer Value.asInteger

/-- A mandatory integer that is a size. -/
def requireUsize (header : Header R) (keyword : Keyword) : Outcome ℕ := do
  let value ← header.requireInteger keyword
  if 0 ≤ value then .ok value.toNat else fail (.invalidKeywordValue keyword.asStr .ofRange)

/-- An integer that is a size, or `default` where it is absent. -/
def optionalUsize (header : Header R) (keyword : Keyword) (default : ℕ) : Outcome ℕ := do
  let found ← header.getInteger keyword
  match found with
  | none => .ok default
  | some value =>
    if 0 ≤ value then .ok value.toNat else fail (.invalidKeywordValue keyword.asStr .ofRange)

/-- `BITPIX`, as a sample type. -/
def bitpix (header : Header R) : Outcome Bitpix := do
  let code ← header.requireInteger .BITPIX
  Bitpix.ofCode code

/-- `NAXIS`, at most 999. -/
def naxis (header : Header R) : Outcome ℕ := do
  let count ← header.requireUsize .NAXIS
  if count > 999 then fail (.invalidKeywordValue Keyword.NAXIS.asStr .ofRange) else .ok count

/-- The length of each axis. -/
def axes (header : Header R) : Outcome (List ℕ) := do
  let count ← header.naxis
  (List.range count).mapM fun n => do
    let keyword ← Keyword.NAXIS.indexed (n + 1)
    header.requireUsize keyword

end Header

/-! ## No panic -/

section NoPanic

variable {R α : Type}

theorem FitsInteger.noPanic_toI64 (integer : FitsInteger) : NoPanic integer.toI64 := by
  unfold toI64
  split
  · exact NoPanic.ok _
  · split
    · exact NoPanic.ok _
    · exact NoPanic.fail _

theorem Value.noPanic_asInteger [RealWords R] (value : Value R) : NoPanic value.asInteger := by
  cases value with
  | integer integer => exact NoPanic.bind integer.noPanic_toI64 (fun _ _ => NoPanic.ok _)
  | real real =>
    refine NoPanic.ite (fun _ => ?_) (fun _ => NoPanic.ok _)
    split
    · exact NoPanic.ok _
    · exact NoPanic.fail _
  | logical => exact NoPanic.ok _
  | text => exact NoPanic.ok _
  | complexInteger => exact NoPanic.ok _
  | complexReal => exact NoPanic.ok _
  | undefined => exact NoPanic.ok _

theorem FitsInteger.noPanic_toF64 [RealText R] (integer : FitsInteger) :
    NoPanic (integer.toF64 : Outcome R) := by
  unfold toF64
  split
  · exact NoPanic.ok _
  · split
    · exact NoPanic.ok _
    · exact NoPanic.fail _

theorem Value.noPanic_asReal [RealText R] (value : Value R) : NoPanic value.asReal := by
  cases value with
  | integer integer => exact NoPanic.bind integer.noPanic_toF64 (fun _ _ => NoPanic.ok _)
  | real => exact NoPanic.ok _
  | logical => exact NoPanic.ok _
  | text => exact NoPanic.ok _
  | complexInteger => exact NoPanic.ok _
  | complexReal => exact NoPanic.ok _
  | undefined => exact NoPanic.ok _

theorem Keyword.noPanic_indexed (root : Keyword) (index : ℕ) : NoPanic (root.indexed index) := by
  unfold indexed
  split
  · exact NoPanic.ok _
  · exact NoPanic.fail _

theorem Bitpix.noPanic_ofCode (code : ℤ) : NoPanic (Bitpix.ofCode code) := by
  unfold ofCode
  repeat' refine NoPanic.ite (fun _ => NoPanic.ok _) (fun _ => ?_)
  exact NoPanic.fail _

/-- Calls in turn on the items of a list. -/
theorem NoPanic.mapM {β : Type} {items : List α} {call : α → Outcome β}
    (h : ∀ item ∈ items, NoPanic (call item)) : NoPanic (items.mapM call) := by
  induction items with
  | nil => exact NoPanic.ok _
  | cons item items ih =>
    rw [List.mapM_cons]
    exact NoPanic.bind (h item List.mem_cons_self) (fun _ _ =>
      NoPanic.bind (ih (fun other hother => h other (List.mem_cons_of_mem item hother)))
        (fun _ _ => NoPanic.ok _))

namespace Header

/-- A lookup finds a record with a value, or one that says why it has none. -/
theorem noPanic_value (header : Header R) (name : RecordName) : NoPanic (header.value name) := by
  rcases header.first?_cases name with ⟨hfirst, -⟩ | ⟨i, record, hfirst, hrecord, hcarries, -⟩
  · rw [value, hfirst]
    exact NoPanic.ok _
  · rw [value, hfirst]
    refine NoPanic.bind (NoPanic.of_ok (recordAt_eq hrecord)) (fun found hfound => ?_)
    obtain rfl := Except.ok.inj (hfound.symm.trans (recordAt_eq hrecord))
    refine NoPanic.bind ?_ (fun _ _ => NoPanic.ok _)
    cases found with
    | commentary own text =>
      cases name <;> simp [Record.carries, Record.keyword, Record.hierarchKey,
        Record.hierarchName] at hcarries
    | valued => exact NoPanic.ok _
    | hierarch => exact NoPanic.ok _
    | malformed => exact NoPanic.fail _

theorem noPanic_typedOptional (header : Header R) (name : RecordName) (expected : ValueKind)
    {convert : Value R → Outcome (Option α)} (h : ∀ value, NoPanic (convert value)) :
    NoPanic (header.typedOptional name expected convert) := by
  refine NoPanic.bind (header.noPanic_value name) (fun found _ => ?_)
  cases found with
  | none => exact NoPanic.ok _
  | some value =>
    dsimp only
    split
    · exact NoPanic.ok _
    · exact NoPanic.fail _
    · exact NoPanic.fail _
    · rename_i fault _ hfault
      exact (h value).error hfault

theorem noPanic_getLogical (header : Header R) (keyword : Keyword) :
    NoPanic (header.getLogical keyword) :=
  header.noPanic_typedOptional _ _ (fun _ => NoPanic.ok _)

theorem noPanic_getText (header : Header R) (keyword : Keyword) : NoPanic (header.getText keyword) :=
  header.noPanic_typedOptional _ _ (fun _ => NoPanic.ok _)

theorem noPanic_requireText (header : Header R) (keyword : Keyword) :
    NoPanic (header.requireText keyword) := by
  apply NoPanic.bind (header.noPanic_typedOptional _ _ (fun _ => NoPanic.ok _))
  intro found _
  cases found with
  | some value => exact NoPanic.ok _
  | none => exact NoPanic.fail _

theorem noPanic_getReal [RealText R] (header : Header R) (keyword : Keyword) :
    NoPanic (header.getReal keyword) :=
  header.noPanic_typedOptional _ _ Value.noPanic_asReal

variable [RealWords R]

theorem noPanic_getInteger (header : Header R) (keyword : Keyword) :
    NoPanic (header.getInteger keyword) :=
  header.noPanic_typedOptional _ _ Value.noPanic_asInteger

theorem noPanic_requireInteger (header : Header R) (keyword : Keyword) :
    NoPanic (header.requireInteger keyword) := by
  refine NoPanic.bind (header.noPanic_getInteger keyword) (fun found _ => ?_)
  cases found with
  | some value => exact NoPanic.ok _
  | none => exact NoPanic.fail _

theorem noPanic_requireUsize (header : Header R) (keyword : Keyword) :
    NoPanic (header.requireUsize keyword) :=
  NoPanic.bind (header.noPanic_requireInteger keyword) (fun _ _ =>
    NoPanic.ite (fun _ => NoPanic.ok _) (fun _ => NoPanic.fail _))

theorem noPanic_optionalUsize (header : Header R) (keyword : Keyword) (default : ℕ) :
    NoPanic (header.optionalUsize keyword default) := by
  apply NoPanic.bind (header.noPanic_getInteger keyword)
  intro found _
  cases found with
  | none => exact NoPanic.ok _
  | some value => exact NoPanic.ite (fun _ => NoPanic.ok _) (fun _ => NoPanic.fail _)

theorem noPanic_bitpix (header : Header R) : NoPanic header.bitpix :=
  NoPanic.bind (header.noPanic_requireInteger _) (fun code _ => Bitpix.noPanic_ofCode code)

theorem noPanic_axes (header : Header R) : NoPanic header.axes := by
  refine NoPanic.bind (NoPanic.bind (header.noPanic_requireUsize _) (fun _ _ =>
    NoPanic.ite (fun _ => NoPanic.fail _) (fun _ => NoPanic.ok _))) (fun count _ => ?_)
  exact NoPanic.mapM (fun n _ => NoPanic.bind (Keyword.NAXIS.noPanic_indexed (n + 1))
    (fun keyword _ => header.noPanic_requireUsize keyword))

end Header

end NoPanic

end FitsWell
