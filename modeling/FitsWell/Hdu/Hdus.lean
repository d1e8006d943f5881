import FitsWell.Checksum.Complement
import FitsWell.Hdu.HduKind

/-!
# The HDUs of a file

A scan reads the headers of a file in turn and passes over the data unit that each
declares. The HDUs it lists lie one after another from the start of the file, on the block
grid, and a header that does not read ends the list.
-/

namespace FitsWell

open Checksum (accumulate allOnes)
open Chunks (chunk)

variable {R : Type}

/-! ## Sources -/

/-- A source of bytes, and the error that a read at an offset meets. -/
structure Source where
  bytes : Text
  fault : ℕ → Option FitsError
  sized : bytes.length ≤ usizeMax

namespace Source

def size (source : Source) : ℕ := source.bytes.length

/-- Refuse a range past the end of a source. -/
def checkRange (offset len size : ℕ) : Outcome Unit :=
  match checkedAdd offset len with
  | some stop => if stop > size then fail .unexpectedEof else .ok ()
  | none => fail .unexpectedEof

/-- `out` with the `len` bytes at `offset` after it. -/
def readAppend (source : Source) (offset len : ℕ) (out : Text) : Outcome Text := do
  checkRange offset len source.size
  match source.fault offset with
  | some error => fail error
  | none => .ok (out ++ (source.bytes.drop offset).take len)

end Source

/-! ## Header units -/

/-- Whether a block holds an `END` record. -/
def blockHasEnd (block : Text) : Bool := (Header.cards block).any isEndRecord

/-- What a scan meets where a header unit may start: one, the end of the file, or bytes that
follow the last HDU. -/
inductive NextHeader
  | found (bytes : Text) (sum : ℕ)
  | ended
  | trailing
  deriving DecidableEq, Repr

/-- A header unit as far as a scan has read it, and the offset after it. -/
structure HeaderCursor where
  offset : ℕ
  bytes : Text
  sum : ℕ
  deriving DecidableEq, Repr

/-- What a block adds to a header unit: its end, with the offset after it, or more of it. -/
inductive HeaderStep
  | done (next : NextHeader) (offset : ℕ)
  | more (cursor : HeaderCursor)
  deriving DecidableEq, Repr

/-- Take a block that follows a header unit. The first block of one names its kind. -/
def takeBlock (position : HduPosition) (cursor : HeaderCursor) (block : Text) :
    Outcome HeaderStep := do
  let keyword ← subslice block 0 8
  if cursor.bytes.isEmpty ∧ position = .primary ∧ keyword ≠ ascii "SIMPLE  " then
    fail (.missingKeyword (.keyword .SIMPLE))
  else if cursor.bytes.isEmpty ∧ position = .extension ∧ keyword ≠ ascii "XTENSION" then
    .ok (.done .trailing cursor.offset)
  else do
    let offset ← addUsize cursor.offset blockSize
    let sum ← accumulate block cursor.sum
    if blockHasEnd block then
      .ok (.done (.found (cursor.bytes ++ block) sum) offset)
    else
      .ok (.more ⟨offset, cursor.bytes ++ block, sum⟩)

/-- Read the next block of a header unit. -/
def headerStep (source : Source) (position : HduPosition) (cursor : HeaderCursor) :
    Outcome HeaderStep := do
  let avail ← subUsize source.size cursor.offset
  if avail = 0 then
    if cursor.bytes.isEmpty then .ok (.done .ended cursor.offset) else fail .unexpectedEof
  else if avail < blockSize then
    if cursor.bytes.isEmpty then .ok (.done .trailing cursor.offset) else fail .unexpectedEof
  else do
    let bytes ← source.readAppend cursor.offset blockSize cursor.bytes
    takeBlock position cursor (bytes.drop cursor.bytes.length)

theorem readAppend_eq_ok {source : Source} {offset len : ℕ} {out bytes : Text}
    (h : source.readAppend offset len out = .ok bytes) :
    bytes = out ++ (source.bytes.drop offset).take len := by
  obtain ⟨-, -, h⟩ := Loops.ok_of_bind h
  split at h
  · cases h
  · exact (Except.ok.inj h).symm

theorem noPanic_readAppend (source : Source) (offset len : ℕ) (out : Text) :
    NoPanic (source.readAppend offset len out) := by
  refine NoPanic.bind ?_ (fun _ _ => ?_)
  · unfold Source.checkRange
    split
    · exact NoPanic.ite (fun _ => NoPanic.fail _) (fun _ => NoPanic.ok _)
    · exact NoPanic.fail _
  · split
    · exact NoPanic.fail _
    · exact NoPanic.ok _

/-- What a block may do to a header unit. -/
theorem takeBlock_cases {position : HduPosition} {cursor : HeaderCursor} {block : Text}
    {step : HeaderStep} (h : takeBlock position cursor block = .ok step) :
    (cursor.bytes = [] ∧ step = .done .trailing cursor.offset) ∨
    ∃ sum, accumulate block cursor.sum = .ok sum ∧
      step = if blockHasEnd block then
        .done (.found (cursor.bytes ++ block) sum) (cursor.offset + blockSize)
      else .more ⟨cursor.offset + blockSize, cursor.bytes ++ block, sum⟩ := by
  obtain ⟨keyword, -, h⟩ := Loops.ok_of_bind h
  split at h
  · cases h
  split at h
  · rename_i htrailing
    exact Or.inl ⟨List.isEmpty_iff.mp htrailing.1, (Except.ok.inj h).symm⟩
  · obtain ⟨offset, hoffset, h⟩ := Loops.ok_of_bind h
    obtain ⟨-, rfl⟩ := addUsize_eq_ok_iff.mp hoffset
    obtain ⟨sum, hsum, h⟩ := Loops.ok_of_bind h
    refine Or.inr ⟨sum, hsum, ?_⟩
    split at h
    · rename_i hend
      rw [if_pos hend]
      exact (Except.ok.inj h).symm
    · rename_i hend
      rw [if_neg hend]
      exact (Except.ok.inj h).symm

/-- What one read may do: find the file or the HDUs at their end before any block, or take a
whole block of the file. -/
theorem headerStep_cases {source : Source} {position : HduPosition} {cursor : HeaderCursor}
    {step : HeaderStep} (h : headerStep source position cursor = .ok step) :
    (cursor.bytes = [] ∧
      (step = .done .ended cursor.offset ∨ step = .done .trailing cursor.offset)) ∨
    ∃ sum, cursor.offset + blockSize ≤ source.size ∧
      accumulate ((source.bytes.drop cursor.offset).take blockSize) cursor.sum = .ok sum ∧
      step = if blockHasEnd ((source.bytes.drop cursor.offset).take blockSize) then
        .done (.found (cursor.bytes ++ (source.bytes.drop cursor.offset).take blockSize) sum)
          (cursor.offset + blockSize)
      else .more ⟨cursor.offset + blockSize,
        cursor.bytes ++ (source.bytes.drop cursor.offset).take blockSize, sum⟩ := by
  obtain ⟨avail, havail, h⟩ := Loops.ok_of_bind h
  obtain ⟨hle, rfl⟩ := subUsize_eq_ok_iff.mp havail
  split at h
  · split at h
    · rename_i hempty
      exact Or.inl ⟨List.isEmpty_iff.mp hempty, Or.inl (Except.ok.inj h).symm⟩
    · cases h
  split at h
  · split at h
    · rename_i hempty
      exact Or.inl ⟨List.isEmpty_iff.mp hempty, Or.inr (Except.ok.inj h).symm⟩
    · cases h
  · rename_i hnonzero hblock
    obtain ⟨bytes, hbytes, h⟩ := Loops.ok_of_bind h
    rw [readAppend_eq_ok hbytes, List.drop_left] at h
    rcases takeBlock_cases h with ⟨hempty, hstep⟩ | ⟨sum, hsum, hstep⟩
    · exact Or.inl ⟨hempty, Or.inr hstep⟩
    · exact Or.inr ⟨sum, by omega, hsum, hstep⟩

/-- A block of a header unit brings it nearer to the end of the file. -/
theorem headerStep_more {source : Source} {position : HduPosition} {cursor next : HeaderCursor}
    (h : headerStep source position cursor = .ok (.more next)) :
    source.size - next.offset < source.size - cursor.offset := by
  have hblock : blockSize = 2880 := rfl
  rcases headerStep_cases h with ⟨-, hstep | hstep⟩ | ⟨sum, hinside, -, hstep⟩
  · cases hstep
  · cases hstep
  · split at hstep
    · cases hstep
    · obtain rfl := HeaderStep.more.inj hstep
      dsimp only
      omega

/-- Read a header unit to its `END` record, with the offset after it. -/
def nextHeader (source : Source) (position : HduPosition) (cursor : HeaderCursor) :
    Outcome (NextHeader × ℕ) :=
  match _h : headerStep source position cursor with
  | .error fault => .error fault
  | .ok (.done next offset) => .ok (next, offset)
  | .ok (.more next) => nextHeader source position next
termination_by source.size - cursor.offset
decreasing_by exact headerStep_more _h

/-! ## HDUs -/

/-- A header and data unit as a scan finds it. -/
structure Hdu (R : Type) where
  index : ℕ
  header : Header R
  kind : HduKind
  headerSum : ℕ
  headerOffset : ℕ
  dataOffset : ℕ
  headerBlocks : ℕ
  dataBytes : ℕ
  paddedDataBytes : ℕ

/-- A header unit as a scan reads it. -/
structure HeaderUnit where
  bytes : Text
  sum : ℕ
  offset : ℕ
  deriving DecidableEq, Repr

variable [RealWords R]

/-- The HDU of a header unit. -/
def Hdu.parse (index : ℕ) (unit : HeaderUnit) : Outcome (Hdu R) := do
  let header ← (Header.parse unit.bytes : Outcome (Header R))
  let kind ← HduKind.fromHeader header (HduPosition.ofIndex index)
  let dataBytes ← kind.dataBytes header
  let dataOffset ← addUsize unit.offset unit.bytes.length
  match paddedLen dataBytes with
  | none => abort .expectation
  | some paddedDataBytes =>
    .ok {
      index := index
      header := header
      kind := kind
      headerSum := unit.sum
      headerOffset := unit.offset
      dataOffset := dataOffset
      headerBlocks := unit.bytes.length / blockSize
      dataBytes := dataBytes
      paddedDataBytes := paddedDataBytes }

/-- The next HDU from `offset` on, with the offset after its data unit, or after the file
where that is cut short. -/
def nextHdu (source : Source) (offset index : ℕ) : Outcome (Option (Hdu R × ℕ)) := do
  let next ← nextHeader source (HduPosition.ofIndex index) ⟨offset, [], 0⟩
  match next.1 with
  | .found bytes sum => do
    let start ← subUsize next.2 bytes.length
    let hdu ← (Hdu.parse index ⟨bytes, sum, start⟩ : Outcome (Hdu R))
    let stop ← orOverflow (checkedAdd hdu.dataOffset hdu.paddedDataBytes)
    .ok (some (hdu, min stop source.size))
  | .ended => .ok none
  | .trailing => .ok none

end FitsWell
