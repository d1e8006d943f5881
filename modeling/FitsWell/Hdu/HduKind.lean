import FitsWell.HeaderModel.TypedLookup
import FitsWell.Usize

/-!
# HDU kinds

What a header says its HDU is, and the length of the data unit it declares. Both come from
the header alone.
-/

namespace FitsWell

/-! ## The block grid -/

/-- The blocks that hold `len` bytes. -/
def blocksFor (len : ℕ) : ℕ := (len + blockSize - 1) / blockSize

/-- A length rounded up to whole blocks, where a `u64` holds it. -/
def paddedLen (len : ℕ) : Option ℕ := checkedMul (blocksFor len) blockSize

theorem paddedLen_eq_some {len padded : ℕ} (h : paddedLen len = some padded) :
    len ≤ padded ∧ padded < len + blockSize ∧ blockSize ∣ padded := by
  obtain ⟨-, rfl⟩ := checkedMul_eq_some_iff.mp h
  have hblock : blockSize = 2880 := rfl
  refine ⟨?_, ?_, Nat.dvd_mul_left _ _⟩
  · rw [blocksFor, hblock]
    omega
  · rw [blocksFor, hblock]
    omega

/-! ## Kinds -/

/-- The place of an HDU, which its header's form follows from. -/
inductive HduPosition
  | primary
  | extension
  deriving DecidableEq, Repr

/-- The first HDU is the primary. -/
def HduPosition.ofIndex (index : ℕ) : HduPosition := if index = 0 then .primary else .extension

variable {R : Type} [RealWords R]

/-- Refuse the axes of a random-groups array whose first is not the zero sentinel. -/
def validateRandomGroupsAxes (axes : List ℕ) : Outcome Unit :=
  match axes with
  | [] => fail (.invalidKeywordValue Keyword.NAXIS.asStr .ofStructure)
  | first :: _ =>
    if first ≠ 0 then do
      let keyword ← Keyword.NAXIS.indexed 1
      fail (.invalidKeywordValue keyword.asStr .ofStructure)
    else
      .ok ()

/-- The value of a mandatory record, as it is looked up. -/
def orMissing {α : Type} (keyword : Keyword) (found : Option α) : Outcome α :=
  match found with
  | some value => .ok value
  | none => fail (.missingKeyword (.keyword keyword))

/-- The kind of the primary. -/
def HduKind.ofPrimary (header : Header R) : Outcome HduKind := do
  let simple ← header.getLogical .SIMPLE
  let _ ← orMissing .SIMPLE simple
  let groups ← header.getLogical .GROUPS
  if groups = some true then do
    let axes ← header.axes
    validateRandomGroupsAxes axes
    .ok .randomGroups
  else
    .ok .primary

/-- The kind of a binary table, by the payload it carries. -/
def HduKind.ofBinTable (header : Header R) : Outcome HduKind := do
  let image ← header.getLogical .ZIMAGE
  if image = some true then
    .ok .compressedImage
  else do
    let table ← header.getLogical .ZTABLE
    if table = some true then .ok .compressedTable else .ok .binTable

/-- The kind of an extension. -/
def HduKind.ofExtension (header : Header R) : Outcome HduKind := do
  let found ← header.getText .XTENSION
  let xtension ← orMissing .XTENSION found
  if xtension = ascii "IMAGE" then .ok .image
  else if xtension = ascii "TABLE" then .ok .asciiTable
  else if xtension = ascii "BINTABLE" then HduKind.ofBinTable header
  else .ok .other

/-- The kind of the HDU that a header describes. -/
def HduKind.fromHeader (header : Header R) (position : HduPosition) : Outcome HduKind :=
  match position with
  | .primary => HduKind.ofPrimary header
  | .extension => HduKind.ofExtension header

/-! ## Data units -/

/-- The elements of an array of these axes: `empty` where it has none. -/
def axisProduct (axes : List ℕ) (empty : ℕ) : Outcome ℕ :=
  if 0 ∈ axes then .ok 0
  else if axes.isEmpty then .ok empty
  else orOverflow (axes.foldlM checkedMul 1)

/-- A mandatory count. -/
def requiredCount (header : Header R) (keyword : Keyword) : Outcome ℕ := do
  let found ← header.getInteger keyword
  let count ← orMissing keyword found
  if count < 0 then fail (.invalidKeywordValue keyword.asStr .ofRange) else .ok count.toNat

/-- The bytes of groups of an array each. -/
def groupedDataBytes (elem arrayElements : ℕ) (header : Header R) : Outcome ℕ := do
  let pcount ← requiredCount header .PCOUNT
  let gcount ← requiredCount header .GCOUNT
  let groupSize ← orOverflow (checkedAdd pcount arrayElements)
  orOverflow ((checkedMul elem gcount).bind fun bytes => checkedMul bytes groupSize)

/-- The bytes of a data unit of elements of `elem` bytes and of these axes. The first axis of
random groups is their sentinel. -/
def HduKind.unitBytes (kind : HduKind) (elem : ℕ) (axes : List ℕ) (header : Header R) :
    Outcome ℕ :=
  match kind with
  | .primary => do
    let elements ← axisProduct axes 0
    orOverflow (checkedMul elem elements)
  | .randomGroups => do
    let arrayAxes ← subslice axes 1 (axes.length - 1)
    let elements ← axisProduct arrayAxes 1
    groupedDataBytes elem elements header
  | _ => do
    let elements ← axisProduct axes 0
    groupedDataBytes elem elements header

/-- The bytes of the data unit that a header declares, which round up to whole blocks. -/
def HduKind.dataBytes (kind : HduKind) (header : Header R) : Outcome ℕ := do
  let bitpix ← header.bitpix
  let axes ← header.axes
  let bytes ← kind.unitBytes bitpix.elemSize axes header
  let _ ← orOverflow (paddedLen bytes)
  .ok bytes

/-! ## No panic -/

theorem noPanic_orOverflow (value : Option ℕ) : NoPanic (orOverflow value) := by
  cases value with
  | some value => exact NoPanic.ok _
  | none => exact NoPanic.fail _

omit [RealWords R] in
theorem noPanic_orMissing {α : Type} (keyword : Keyword) (found : Option α) :
    NoPanic (orMissing keyword found) := by
  cases found with
  | some value => exact NoPanic.ok _
  | none => exact NoPanic.fail _

theorem noPanic_validateRandomGroupsAxes (axes : List ℕ) :
    NoPanic (validateRandomGroupsAxes axes) := by
  cases axes with
  | nil => exact NoPanic.fail _
  | cons first rest =>
    exact NoPanic.ite
      (fun _ => NoPanic.bind (Keyword.NAXIS.noPanic_indexed 1) (fun _ _ => NoPanic.fail _))
      (fun _ => NoPanic.ok _)

theorem HduKind.noPanic_fromHeader (header : Header R) (position : HduPosition) :
    NoPanic (HduKind.fromHeader header position) := by
  cases position with
  | primary =>
    refine NoPanic.bind (header.noPanic_getLogical _) (fun simple _ => ?_)
    refine NoPanic.bind (noPanic_orMissing _ _) (fun _ _ => ?_)
    refine NoPanic.bind (header.noPanic_getLogical _) (fun groups _ => ?_)
    exact NoPanic.ite (fun _ => NoPanic.bind header.noPanic_axes (fun axes _ =>
      NoPanic.bind (noPanic_validateRandomGroupsAxes axes) (fun _ _ => NoPanic.ok _)))
      (fun _ => NoPanic.ok _)
  | extension =>
    refine NoPanic.bind (header.noPanic_getText _) (fun found _ => ?_)
    refine NoPanic.bind (noPanic_orMissing _ _) (fun xtension _ => ?_)
    refine NoPanic.ite (fun _ => NoPanic.ok _) (fun _ => ?_)
    refine NoPanic.ite (fun _ => NoPanic.ok _) (fun _ => ?_)
    refine NoPanic.ite (fun _ => ?_) (fun _ => NoPanic.ok _)
    refine NoPanic.bind (header.noPanic_getLogical _) (fun image _ => ?_)
    exact NoPanic.ite (fun _ => NoPanic.ok _) (fun _ =>
      NoPanic.bind (header.noPanic_getLogical _) (fun table _ =>
        NoPanic.ite (fun _ => NoPanic.ok _) (fun _ => NoPanic.ok _)))

theorem noPanic_axisProduct (axes : List ℕ) (empty : ℕ) : NoPanic (axisProduct axes empty) :=
  NoPanic.ite (fun _ => NoPanic.ok _) (fun _ =>
    NoPanic.ite (fun _ => NoPanic.ok _) (fun _ => noPanic_orOverflow _))

theorem noPanic_requiredCount (header : Header R) (keyword : Keyword) :
    NoPanic (requiredCount header keyword) :=
  NoPanic.bind (header.noPanic_getInteger keyword) (fun _ _ =>
    NoPanic.bind (noPanic_orMissing _ _) (fun _ _ =>
      NoPanic.ite (fun _ => NoPanic.fail _) (fun _ => NoPanic.ok _)))

theorem noPanic_groupedDataBytes (elem arrayElements : ℕ) (header : Header R) :
    NoPanic (groupedDataBytes elem arrayElements header) :=
  NoPanic.bind (noPanic_requiredCount _ _) (fun _ _ =>
    NoPanic.bind (noPanic_requiredCount _ _) (fun _ _ =>
      NoPanic.bind (noPanic_orOverflow _) (fun _ _ => noPanic_orOverflow _)))

/-- A random-groups header has its sentinel axis. -/
theorem HduKind.axes_of_randomGroups {header : Header R} {position : HduPosition}
    (h : HduKind.fromHeader header position = .ok .randomGroups) {axes : List ℕ}
    (haxes : header.axes = .ok axes) : axes ≠ [] := by
  cases position with
  | primary =>
    obtain ⟨_, -, h⟩ := Loops.ok_of_bind h
    obtain ⟨_, -, h⟩ := Loops.ok_of_bind h
    obtain ⟨groups, -, h⟩ := Loops.ok_of_bind h
    split at h
    · obtain ⟨found, hfound, h⟩ := Loops.ok_of_bind h
      obtain rfl := Except.ok.inj (hfound.symm.trans haxes)
      obtain ⟨_, hvalid, -⟩ := Loops.ok_of_bind h
      rintro rfl
      cases hvalid
    · cases h
  | extension =>
    obtain ⟨_, -, h⟩ := Loops.ok_of_bind h
    obtain ⟨_, -, h⟩ := Loops.ok_of_bind h
    split at h
    · cases h
    split at h
    · cases h
    split at h
    · obtain ⟨_, -, h⟩ := Loops.ok_of_bind h
      split at h
      · cases h
      obtain ⟨_, -, h⟩ := Loops.ok_of_bind h
      split at h <;> cases h
    · cases h

/-- The data unit of a header of the kind it describes has a length, or the header says why
not. -/
theorem HduKind.noPanic_dataBytes {kind : HduKind} {header : Header R} {position : HduPosition}
    (hkind : HduKind.fromHeader header position = .ok kind) : NoPanic (kind.dataBytes header) := by
  refine NoPanic.bind header.noPanic_bitpix (fun bitpix _ => ?_)
  refine NoPanic.bind header.noPanic_axes (fun axes haxes => ?_)
  refine NoPanic.bind ?_ (fun bytes _ =>
    NoPanic.bind (noPanic_orOverflow _) (fun _ _ => NoPanic.ok _))
  unfold unitBytes
  split
  · exact NoPanic.bind (noPanic_axisProduct _ _) (fun _ _ => noPanic_orOverflow _)
  · have hne := HduKind.axes_of_randomGroups hkind haxes
    have hpos := List.length_pos_iff.mpr hne
    refine NoPanic.bind (NoPanic.of_ok (subslice_of_le (by omega))) (fun _ _ => ?_)
    exact NoPanic.bind (noPanic_axisProduct _ _) (fun _ _ => noPanic_groupedDataBytes _ _ _)
  · exact NoPanic.bind (noPanic_axisProduct _ _) (fun _ _ => noPanic_groupedDataBytes _ _ _)

/-- A length that a header declares rounds up to whole blocks. -/
theorem HduKind.paddedLen_dataBytes {kind : HduKind} {header : Header R} {bytes : ℕ}
    (h : kind.dataBytes header = .ok bytes) : ∃ padded, paddedLen bytes = some padded := by
  obtain ⟨_, -, h⟩ := Loops.ok_of_bind h
  obtain ⟨_, -, h⟩ := Loops.ok_of_bind h
  obtain ⟨found, -, h⟩ := Loops.ok_of_bind h
  obtain ⟨padded, hpadded, h⟩ := Loops.ok_of_bind h
  obtain rfl := Except.ok.inj h
  exact ⟨padded, orOverflow_eq_ok_iff.mp hpadded⟩

end FitsWell
