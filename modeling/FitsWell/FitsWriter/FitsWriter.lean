import FitsWell.FitsWriter.Body
import FitsWell.FitsWriter.SeekSink
import FitsWell.Hdu.HduKind
import FitsWell.HeaderModel.ReservedKeywords
import FitsWell.ImageModel.ScalingHeader

/-!
# A writer of HDUs

The first HDU is the primary, and those after it are extensions. A write renders its header before
the first byte, and then writes the header, the data unit and its block fill. A write that fails
makes the writer refuse every later one.
-/

namespace FitsWell

open Checksum (Running)

/-- The fill that rounds a length up to whole blocks. -/
def padding (len : ℕ) : ℕ := (blockSize - len % blockSize) % blockSize

inductive WriterState
  | empty
  | active
  | failed
  deriving DecidableEq, Repr

/-- Whether each HDU carries its checksums. -/
inductive Checksums
  | off
  | on
  deriving DecidableEq, Repr

/-- What every header carries besides its records. -/
structure HeaderForm where
  checksums : Checksums
  spareRecords : ℕ
  deriving DecidableEq, Repr

/-- A sink, what has been written to it, and the form of the headers. -/
structure FitsWriter where
  sink : SeekSink
  state : WriterState
  form : HeaderForm
  deriving DecidableEq, Repr

/-- What a write gives besides its data unit: the empty primary where it needs one, its header and
its block fill. -/
structure RenderedHdu where
  primary : Option Text
  header : Text
  fill : Text

variable {R : Type} [PlaneReals R]

/-- Where a header goes: an extension that is written first goes after an empty primary. -/
def placed (header : Header R) (next : HduPosition) : Outcome HduPosition :=
  if next = .primary then do
    let xtension ← header.value (.keyword .XTENSION)
    .ok (if xtension.isSome then .extension else next)
  else
    .ok next

/-- The header of a primary without data. -/
def emptyPrimaryHeader : Outcome (Header R) :=
  Prologue.header { opening := .primary, bitpix := .u8, axes := [], pcount := 0 }

/-- What the header of an image opens with. -/
def imageOpening : HduPosition → Opening
  | .primary => .primary
  | .extension => .extension .image

/-- The structural records of an image at a position. -/
def imagePrologue (layout : Metadata R) (position : HduPosition) : Prologue where
  opening := imageOpening position
  bitpix := layout.bitpix
  axes := layout.shape
  pcount := 0

/-- The header of an image at a position. -/
def imageHeader (layout : Metadata R) (position : HduPosition) : Outcome (Header R) := do
  let header ← (imagePrologue layout position).header
  layout.scaling.addToHeader header layout.bitpix

/-- The header of a write, with what it takes of a template. -/
def Header.withTemplate (header : Header R) (template : Option (Header R)) : Header R :=
  template.elim header (mergeHeaderTemplate header)

/-- The length of a body, which the header must declare. -/
def Body.checkLength (body : Body R) (kind : HduKind) (header : Header R) : Outcome ℕ := do
  let dataBytes ← kind.dataBytes header
  let len ← body.byteLen
  if len = dataBytes then
    .ok len
  else if dataBytes ≤ usizeMax then
    fail (.dataSizeMismatch .bytes dataBytes len)
  else
    fail (.dataUnitTooLarge dataBytes)

/-- The block fill of a data unit. -/
def HduKind.fill (kind : HduKind) (len : ℕ) : Text :=
  List.replicate (padding len) (if kind = .asciiTable then space else 0)

namespace HeaderForm

variable (form : HeaderForm)

def space : Space := .spare form.spareRecords

/-- The signing of a header of data of this sum. -/
def signing (sum : Outcome ℕ) : Outcome Signing :=
  match form.checksums with
  | .off => .ok .unsigned
  | .on => do
    let sum ← sum
    .ok (.withDataSum (UInt32.ofNat sum))

end HeaderForm

/-- The sum of a body and its fill. -/
def Body.dataSum (body : Body R) (fill : Text) : Outcome ℕ := do
  let sum ← sumBody body .new
  let sum ← sum.update fill
  sum.finish

namespace FitsWriter

def new (sink : SeekSink) : FitsWriter := ⟨sink, .empty, ⟨.off, 0⟩⟩

section Writer

variable (writer : FitsWriter)

def withChecksums : FitsWriter := { writer with form.checksums := .on }

def withSpareRecords (records : ℕ) : FitsWriter := { writer with form.spareRecords := records }

/-- Where the next HDU goes. -/
def nextPosition : Outcome HduPosition :=
  match writer.state with
  | .empty => .ok .primary
  | .active => .ok .extension
  | .failed => fail .writerFailed

def ensureUsable : Outcome Unit :=
  match writer.state with
  | .failed => fail .writerFailed
  | .empty | .active => .ok ()

def poisoned : FitsWriter := { writer with state := .failed }

/-- The empty primary that an extension needs before it where it is written first. -/
def leadingPrimary (R : Type) [PlaneReals R] (next position : HduPosition) :
    Outcome (Option Text) :=
  if next = .primary ∧ position = .extension then do
    let header ← (emptyPrimaryHeader : Outcome (Header R))
    let signing ← writer.form.signing (.ok 0)
    let out ← header.renderInto signing writer.form.space
    .ok (some out)
  else
    .ok none

/-- Everything of a write that can fail before its first byte. -/
def rendered (header : Header R) (template : Option (Header R)) (body : Body R) :
    Outcome RenderedHdu := do
  let next ← writer.nextPosition
  let header := header.withTemplate template
  let position ← placed header next
  let kind ← HduKind.fromHeader header position
  let len ← body.checkLength kind header
  let fill := kind.fill len
  let signing ← writer.form.signing (body.dataSum fill)
  let primary ← writer.leadingPrimary R next position
  let out ← header.renderInto signing writer.form.space
  .ok { primary := primary, header := out, fill := fill }

end Writer

section Calls

variable (answers : SinkAnswers)

/-- Write bytes to the sink. A failure makes the writer unusable, and then it writes no more. -/
def emit (bytes : Text) : Stateful Fault FitsWriter Unit := fun writer =>
  match writer.ensureUsable with
  | .error fault => (.error fault, writer)
  | .ok _ =>
    match (SeekSink.writeAll answers bytes).run writer.sink with
    | (.ok _, sink) => (.ok (), { writer with sink := sink })
    | (.error fault, sink) => (.error fault, { writer with sink := sink }.poisoned)

/-- Write the empty primary, where there is one. -/
def emitPrimary (primary : Option Text) : Stateful Fault FitsWriter Unit :=
  primary.elim (pure ()) (emit answers)

/-- Note that an HDU is written. -/
def activate : Stateful Fault FitsWriter Unit := fun writer =>
  (.ok (), { writer with state := .active })

/-- Write an HDU: its header with what it takes of a template, and its data unit. -/
def finishHdu (header : Header R) (template : Option (Header R)) (body : Body R) :
    Stateful Fault FitsWriter Unit := do
  let writer ← Stateful.get
  let hdu ← writer.rendered header template body
  emitPrimary answers hdu.primary
  emit answers hdu.header
  body.emitted FitsWriter (emit answers)
  emit answers hdu.fill
  activate

/-- Write a header and the bytes of its data unit. -/
def writeRawHdu (header : Header R) (raw : Text) : Stateful Fault FitsWriter Unit :=
  finishHdu answers header none (.bytes raw)

/-- Write what an encoder gives: a header and the bytes of its data unit. -/
def writeEncoded (encode : Outcome (Header R × Text)) (template : Option (Header R)) :
    Stateful Fault FitsWriter Unit := do
  let writer ← Stateful.get
  let _ ← writer.nextPosition
  let encoded ← encode
  finishHdu answers encoded.1 template (.bytes encoded.2)

/-- Write the compressed unit that an encoder gives. -/
def writeUnit (encode : Outcome (EncodedUnit R)) (template : Option (Header R)) :
    Stateful Fault FitsWriter Unit := do
  let writer ← Stateful.get
  let _ ← writer.nextPosition
  let unit ← encode
  finishHdu answers unit.header template (.parts unit.rows unit.heap)

/-- Write a binary table. -/
def writeTable (table : Builder R) (template : Option (Header R)) :
    Stateful Fault FitsWriter Unit := do
  let writer ← Stateful.get
  let _ ← writer.nextPosition
  let laid ← table.laidOut
  finishHdu answers laid.1 template (.table laid.2)

/-- Write an image. -/
def writeImage (image : Borrowed R) (template : Option (Header R)) :
    Stateful Fault FitsWriter Unit := do
  let writer ← Stateful.get
  let next ← writer.nextPosition
  let header ← imageHeader image.metadata next
  finishHdu answers header template (.samples image.samples)

/-- Write a primary without data. -/
def writeEmptyPrimary (template : Option (Header R)) : Stateful Fault FitsWriter Unit := do
  let writer ← Stateful.get
  let next ← writer.nextPosition
  if next ≠ .primary then
    Stateful.lift (fail .primaryAlreadyWritten)
  else do
    let header ← (emptyPrimaryHeader : Outcome (Header R))
    finishHdu answers header template (.bytes [])

end Calls

end FitsWriter

end FitsWell
