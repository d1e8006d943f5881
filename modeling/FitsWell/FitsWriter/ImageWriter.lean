import FitsWell.FitsWriter.FitsWriter

/-!
# Streams of an image

A stream writes its header first, with placeholders where it is to be signed. It then writes chunks
of samples as they come, and at its end the block fill and the header again.
-/

namespace FitsWell

open Checksum (Running)

/-- The header of a stream, and the offset it is written at. -/
structure StreamHeader (R : Type) where
  header : Header R
  offset : ℕ

/-- An image that is written a chunk at a time, and the writer that it borrows. -/
structure ImageWriter (R : Type) where
  writer : FitsWriter
  header : StreamHeader R
  expectedSamples : ℕ
  writtenSamples : ℕ
  bitpix : Bitpix
  checksum : Running

variable {R : Type} [PlaneReals R] (answers : SinkAnswers)

/-- The block fill of an image. -/
def zeroFill (dataBytes : ℕ) : Text := List.replicate (padding dataBytes) 0

namespace FitsWriter

/-- A call of the sink. -/
def onSink {α : Type} (call : Stateful Fault SeekSink α) : Stateful Fault FitsWriter α :=
  fun writer => ((call.run writer.sink).1, { writer with sink := (call.run writer.sink).2 })

/-- Render a header and write it. -/
def emitHeader (header : Header R) (signing : Signing) : Stateful Fault FitsWriter Unit := do
  let writer ← Stateful.get
  let out ← header.renderInto signing writer.form.space
  emit answers out

/-- The signing of a header before its data is known. -/
def placeholderSigning (writer : FitsWriter) : Signing :=
  match writer.form.checksums with
  | .off => .unsigned
  | .on => .placeholder

/-- Write the header of a stream at the position of the sink. -/
def startStream (header : Header R) : Stateful Fault FitsWriter (StreamHeader R) := do
  let offset ← onSink (SeekSink.streamPosition answers)
  let writer ← Stateful.get
  emitHeader answers header writer.placeholderSigning
  activate
  pure ⟨header, offset⟩

/-- Render a header again where it was written, and go back. -/
def renewHeader (header : StreamHeader R) (signing : Signing) :
    Stateful Fault FitsWriter Unit := do
  let stop ← onSink (SeekSink.streamPosition answers)
  onSink (SeekSink.seekTo answers header.offset)
  emitHeader answers header.header signing
  onSink (SeekSink.seekTo answers stop)

/-- A call whose failure makes the writer unusable. -/
def orPoison (call : Stateful Fault FitsWriter Unit) : Stateful Fault FitsWriter Unit :=
  fun writer =>
    match call.run writer with
    | (.ok _, writer) => (.ok (), writer)
    | (.error fault, writer) => (.error fault, writer.poisoned)

def rewriteHeader (header : StreamHeader R) (signing : Signing) :
    Stateful Fault FitsWriter Unit :=
  orPoison (renewHeader answers header signing)

/-- Write the block fill of a stream, and sign its header where it is signed. -/
def finishStream (header : StreamHeader R) (dataBytes : ℕ) (sum : Running) :
    Stateful Fault FitsWriter Unit := do
  emit answers (zeroFill dataBytes)
  let sum ← sum.update (zeroFill dataBytes)
  let writer ← Stateful.get
  match writer.form.checksums with
  | .off => pure ()
  | .on => do
    let sum ← sum.finish
    rewriteHeader answers header (.withDataSum (UInt32.ofNat sum))

/-- Begin an image that is written a chunk at a time. -/
def streamImage (layout : Metadata R) (template : Option (Header R)) :
    Stateful Fault FitsWriter (ImageWriter R) := do
  let expected ← shapeProduct layout.shape
  let writer ← Stateful.get
  let next ← writer.nextPosition
  let header ← imageHeader layout next
  let header ← startStream answers (header.withTemplate template)
  let writer ← Stateful.get
  pure
    { writer := writer, header := header, expectedSamples := expected, writtenSamples := 0
      bitpix := layout.bitpix, checksum := .new }

end FitsWriter

namespace ImageWriter

/-- A call of the writer. -/
def onWriter (call : Stateful Fault FitsWriter Unit) : Stateful Fault (ImageWriter R) Unit :=
  fun stream => ((call.run stream.writer).1, { stream with writer := (call.run stream.writer).2 })

/-- Add encoded samples to the sum, and write them. -/
def feed (chunk : Text) : Stateful Fault (ImageWriter R) Unit := do
  let stream ← Stateful.get
  let sum ← stream.checksum.update chunk
  Stateful.set { stream with checksum := sum }
  onWriter (FitsWriter.emit answers chunk)

/-- Write more samples. -/
def writeChunk (samples : View) : Stateful Fault (ImageWriter R) Unit := do
  let stream ← Stateful.get
  if samples.bitpix ≠ stream.bitpix then
    Stateful.lift (fail (.chunkTypeMismatch stream.bitpix samples.bitpix))
  else do
    let total ← orOverflow (checkedAdd stream.writtenSamples samples.len)
    if stream.expectedSamples < total then
      Stateful.lift (fail (.dataSizeMismatch .samples stream.expectedSamples total))
    else do
      samples.eachChunk (ImageWriter R) (feed answers)
      let stream ← Stateful.get
      Stateful.set { stream with writtenSamples := total }

/-- What a finish does while it works. -/
def complete : Stateful Fault (ImageWriter R) Unit := do
  let stream ← Stateful.get
  stream.writer.ensureUsable
  if stream.writtenSamples ≠ stream.expectedSamples then
    Stateful.lift
      (fail (.dataSizeMismatch .samples stream.expectedSamples stream.writtenSamples))
  else do
    let dataBytes ← orOverflow (checkedMul stream.expectedSamples stream.bitpix.elemSize)
    onWriter (FitsWriter.finishStream answers stream.header dataBytes stream.checksum)

/-- End the stream and give back its writer, which a failure makes unusable. -/
def finish (stream : ImageWriter R) : Outcome Unit × FitsWriter :=
  match (complete answers).run stream with
  | (.ok _, stream) => (.ok (), stream.writer)
  | (.error fault, stream) => (.error fault, stream.writer.poisoned)

/-- Give back the writer of a stream that did not finish. -/
def dropped (stream : ImageWriter R) : FitsWriter := stream.writer.poisoned

end ImageWriter

end FitsWell
