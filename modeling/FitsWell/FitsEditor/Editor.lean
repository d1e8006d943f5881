import FitsWell.Checksum.Declared
import FitsWell.Hdu.HduSelector
import FitsWell.HeaderModel.RenderedUnit
import FitsWell.Library.Overwrite
import FitsWell.Reader.DataChecksum

/-!
# Edits of a file in place

An editor holds a file and the HDUs that a scan of it found. It replaces a header by one of the
same blocks that gives the same data unit: it renders the new header, parses what it rendered, and
only then writes. A call on the file may fail, and a write may fail after some of its bytes.
-/

namespace FitsWell

/-! ## Files -/

/-- A file that an editor reads and writes. -/
structure EditedFile where
  bytes : Text
  sized : bytes.length ≤ usizeMax

/-- How a file answers the calls of one edit: whether it seeks to its end and to an offset, how it
reads at an offset, how many bytes a write that fails takes, and whether it flushes. -/
structure FileCalls where
  sizes : Bool
  seeks : Bool
  read : ℕ → Option FitsError
  write : Option ℕ
  flushes : Bool

/-- The outcome of a call that works or fails. -/
def answer (works : Bool) : Outcome Unit := if works then .ok () else fail .io

namespace EditedFile

variable (file : EditedFile)

/-- The file as a source, as it answers reads. -/
def source (calls : FileCalls) : Source := ⟨file.bytes, calls.read, file.sized⟩

/-- Write at a place, where the file stays one. The gap before a place past its end is zeros. -/
def write (place : ℕ) (out : Text) : Outcome EditedFile :=
  if sized : (overwrite 0 file.bytes place out).length ≤ usizeMax then .ok ⟨_, sized⟩ else fail .io

end EditedFile

/-! ## Editors -/

/-- A file and its HDUs. -/
structure FitsEditor (R : Type) where
  file : EditedFile
  hdus : Hdus R

variable {R : Type} [RealWords R]

/-- Refuse a header that does not give the data unit of `hdu`, of the same kind. -/
def checkUnit (hdu : Hdu R) (header : Header R) : Outcome Unit := do
  let kind ← HduKind.fromHeader header (HduPosition.ofIndex hdu.index)
  if kind ≠ hdu.kind then
    fail (.hduKindChange hdu.kind kind)
  else do
    let dataBytes ← kind.dataBytes header
    if dataBytes ≠ hdu.dataBytes then
      fail (.dataSizeMismatch .bytes hdu.dataBytes dataBytes)
    else
      .ok ()

/-- The data sum that the `CHECKSUM` of the new header of `hdu` comes from: its `DATASUM` when
it declares a valid one, else the sum of the data unit. None where it holds no `CHECKSUM`. -/
def dataSum (calls : FileCalls) (file : EditedFile) (hdu : Hdu R) (header : Header R) :
    Outcome (Option ℕ) :=
  if (Declared.read header).hasChecksum then
    match (Declared.read header).dataSum with
    | some sum => .ok (some sum)
    | none => do
      answer calls.sizes
      let state ← DataChecksum.of hdu
      let sum ← state.total ⟨file.source calls, false⟩
      .ok (some sum)
  else
    .ok none

/-- A header that an editor writes, with the data sum its `CHECKSUM` comes from. -/
structure EditedHeader (R : Type) where
  header : Header R
  dataSum : Option ℕ

namespace EditedHeader

variable {R : Type} (edited : EditedHeader R)

def signing : Signing :=
  match edited.dataSum with
  | some sum => .withDataSum (UInt32.ofNat sum)
  | none => .unsigned

def render [RealText R] (space : Space) : Outcome Text :=
  edited.header.renderInto edited.signing space

end EditedHeader

namespace FitsEditor

/-- Scan the headers of a file. -/
def openFile (calls : FileCalls) (file : EditedFile) : Outcome (FitsEditor R) := do
  answer calls.sizes
  let hdus ← (scan (file.source calls) : Outcome (Hdus R))
  .ok ⟨file, hdus⟩

/-- The header unit that an edit writes, and the HDU that it parses to. -/
def editedUnit (calls : FileCalls) (selector : HduSelector) (header : Header R)
    (editor : FitsEditor R) : Outcome (Text × Hdu R) := do
  let target ← editor.hdus.select selector
  checkUnit target header
  let sum ← dataSum calls editor.file target header
  let out ← EditedHeader.render ⟨header, sum⟩ (.blocks target.headerBlocks)
  let unitSum ← Checksum.accumulate out 0
  let hdu ← Hdu.parse target.index ⟨out, unitSum, target.headerOffset⟩
  .ok (out, hdu)

/-- Write bytes at a place of the file: all of them, or those before a failure. -/
def writeAll (calls : FileCalls) (place : ℕ) (out : Text) : Stateful Fault (FitsEditor R) Unit :=
  fun editor =>
    match editor.file.write place (out.take (calls.write.getD out.length)) with
    | .error fault => (.error fault, editor)
    | .ok file => (answer calls.write.isNone, { editor with file := file })

/-- Put an HDU in the place of the one of its index. -/
def replace (hdu : Hdu R) : Stateful Fault (FitsEditor R) Unit := do
  let editor ← Stateful.get
  let hdus ← editor.hdus.replace hdu
  Stateful.set { editor with hdus := hdus }

/-- Replace the header of an HDU in place. -/
def replaceHeader (calls : FileCalls) (selector : HduSelector) (header : Header R) :
    Stateful Fault (FitsEditor R) Unit := do
  let editor ← Stateful.get
  let edit ← editedUnit calls selector header editor
  answer calls.seeks
  writeAll calls edit.2.headerOffset edit.1
  answer calls.flushes
  replace edit.2

/-- An editor that was opened on a file, after edits in place that ended in any way. -/
inductive Reachable : FitsEditor R → Prop
  | opened {calls : FileCalls} {file : EditedFile} {editor : FitsEditor R}
      (h : openFile calls file = .ok editor) : Reachable editor
  | edited {editor : FitsEditor R} (h : Reachable editor) (calls : FileCalls)
      (selector : HduSelector) (header : Header R) :
      Reachable ((replaceHeader calls selector header).run editor).2

end FitsEditor

end FitsWell
