import FitsWell.HeaderModel.Names
import FitsWell.ImageModel.Bitpix
import FitsWell.Library.Ends
import Mathlib.Data.Int.Notation

/-!
# Errors and panics

The variants of the crate's error type that the modelled functions raise, and the
panics a Rust function can end with instead. Both leave through `Outcome`, so that a
statement can say which of the two a run meets.
-/

namespace FitsWell

/-- Why a PLIO line list does not decode. -/
inductive PlioDefect
  | listBounds
  | negativeHeader
  | opcode
  deriving DecidableEq, Repr

/-- Why an HCOMPRESS stream does not decode. -/
inductive HcompressDefect
  | magic
  | negativeDimension
  | tileDimensions
  | bitPlaneCount
  | bitPlaneEnd
  | formatCode
  | coefficientOverflow
  deriving DecidableEq, Repr

/-- The cell of a tile that holds elements its decoder does not read. -/
inductive TileCell
  | compressed
  | uncompressed
  deriving DecidableEq, Repr

/-- Why compressed data does not decode. An element type is named by its letter. -/
inductive CompressedDataDefect
  | gzipHeader
  | gzipStream
  | gzipTruncated
  | gzipChecksum
  | gzipOverrun
  | riceBitField (bits : ℕ)
  | plio (defect : PlioDefect)
  | hcompress (defect : HcompressDefect)
  | nullMask
  | emptyTile
  | cellElement (cell : TileCell) (element : UInt8)
  | valueOutOfRange
  deriving DecidableEq, Repr

/-- What a compression does not support. -/
inductive CompressionFeature
  | codec (name : Text)
  | quantization (name : Text)
  | hcompressDimensions
  | hcompressNullMask
  | plioListLength (words : ℕ)
  | hcompressRange
  | hcompressScale
  | hcompressTileSide (length : ℕ)
  | lossyHcompressNulls
  | losslessFloatCodec (codec : Text)
  | quantizedFloatCodec (codec : Text)
  deriving DecidableEq, Repr

/-- A parameter of a compression that is refused. -/
inductive CompressionParameter
  | integerQuantization
  | emptyTile (axis : ℕ)
  | hcompressDither2
  deriving DecidableEq, Repr

/-- What has a number of axes. -/
inductive Ranked
  | imageRegion
  | tileShape
  | wcsCoordinate
  | binFactors
  deriving DecidableEq, Repr

/-- What a size mismatch counts. -/
inductive SizeUnit
  | bytes
  | samples
  | rows
  deriving DecidableEq, Repr

/-- The integers of an array descriptor: two of 32 bits, or two of 64. -/
inductive DescriptorWidth
  | P
  | Q
  deriving DecidableEq, Repr

/-- The fields of an array descriptor. -/
inductive DescriptorField
  | count
  | offset
  deriving DecidableEq, Repr

/-- Why a keyword's value is refused. -/
inductive KeywordDefect
  | ofSyntax
  | ofRange
  | ofStructure
  deriving DecidableEq, Repr

/-- Where text with a byte outside restricted ASCII came from. -/
inductive TextOrigin
  | value (name : RecordName)
  | comment (name : RecordName)
  | columnName
  | columnUnit
  | cell
  deriving DecidableEq, Repr

/-- Which value is not finite. -/
inductive NonFinite
  | real
  | complex
  deriving DecidableEq, Repr

/-- Why a header record is kept as malformed. -/
inductive Defect
  | name
  | value
  deriving DecidableEq, Repr

/-- What an index counts. -/
inductive Indexed
  | hdu
  | headerRecord
  | column
  deriving DecidableEq, Repr

/-- What an HDU is, by its mandatory keywords. -/
inductive HduKind
  | primary
  | image
  | asciiTable
  | binTable
  | compressedImage
  | compressedTable
  | randomGroups
  | other
  deriving DecidableEq, Repr

/-- The HDU that a read asks for. -/
inductive ExpectedHdu
  | image
  | binTable
  | asciiTable
  | randomGroups
  deriving DecidableEq, Repr

/-- Which coordinate keywords cannot hold together. -/
inductive WcsConflict
  | pcAndCd
  | pcAndCrota
  | cdAndCrota
  | mismatchedProjections
  | sipAlternate
  | sipAxisCount
  | tableSpectralFrames
  deriving DecidableEq, Repr

/-- Why a coordinate table is refused. -/
inductive TabularDefect
  | coordinateShape
  | emptyAxis
  | coordinateArrayTooLarge
  | coordinateCount
  | nonFiniteCoordinate
  | indexLength
  | nonFiniteIndex
  | nonMonotonicIndex
  | constantIndex
  | tooManyAxes
  deriving DecidableEq, Repr

/-- Why coordinate keywords describe no transform. -/
inductive WcsDefect
  | singularMatrix
  | restValue (keyword : Keyword)
  | tabular (defect : TabularDefect)
  deriving DecidableEq, Repr

/-- The type of a header value that a typed lookup asks for. -/
inductive ValueKind
  | logical
  | integer
  | real
  | complex
  | text
  deriving DecidableEq, Repr

/-- What an integer of any size narrows to. -/
inductive NumericTarget
  | i64
  | u64
  | i128
  | f64
  deriving DecidableEq, Repr

/-- The format of a column that a read takes. -/
inductive ExpectedColumn
  | fixed
  | array
  | bits
  | complex
  | numeric
  | integer
  deriving DecidableEq, Repr

/-- The crate's error, in the variants the model raises. -/
inductive FitsError
  | unexpectedEof
  | unsupportedCompression (feature : CompressionFeature)
  | corruptCompressedData (defect : CompressedDataDefect)
  | plioValueOutOfRange (index : ℕ) (value : ℤ)
  | hcompressTileTooSmall (axis length : ℕ)
  | dataUnitOverflow
  | dataUnitTooLarge (bytes : ℕ)
  | dataSizeMismatch (unit : SizeUnit) (expected got : ℕ)
  | rankMismatch (ranked : Ranked) (expected got : ℕ)
  | imageRegionOutOfBounds (axis start stop len : ℕ)
  | invalidPqDescriptor (field : DescriptorField) (value : ℤ)
  | descriptorOutOfRange (width : DescriptorWidth) (count offset : ℕ)
  | descriptorPastHeap (column row : ℕ)
  | rowRangeOutOfBounds (start stop len : ℕ)
  | invalidKeywordValue (keyword : String) (defect : KeywordDefect)
  | headerCardTooLong (name : RecordName) (length : ℕ)
  | headerDoesNotFit (needed available : ℕ)
  | invalidKeyword (name : Text)
  | valueTypeMismatch (name : RecordName) (expected : ValueKind)
  | integerOutOfRange (name : Option RecordName) (value : Text) (target : NumericTarget)
  | invalidBitpix (code : ℤ)
  | io
  | invalidAscii (text : TextOrigin)
  | invalidHeaderValue (name : RecordName) (reason : NonFinite)
  | invalidValue (name : Option RecordName) (defect : Defect)
  | reservedName (name : RecordName)
  | ambiguousCommentary (name : CommentaryName)
  | missingKeyword (name : RecordName)
  | missingEnd
  | indexOutOfBounds (indexed : Indexed) (index len : ℕ)
  | invalidTform (tform : Text)
  | rowWidthMismatch (computed declared : ℕ)
  | columnKindMismatch (column : ℕ) (expected : ExpectedColumn)
  | invalidColumnKeyword (keyword : Keyword) (source : FitsError)
  | invalidCompressionParameter (parameter : CompressionParameter)
  | invalidWcs (defect : WcsDefect)
  | conflictingWcsKeywords (conflict : WcsConflict)
  | unsupportedWcsTransform (axes : List ℕ)
  | wcsCoordinateOutOfDomain (axis : ℕ) (algorithm : Text)
  | wcsNoConvergence (algorithm : Text)
  | invalidDatetime (keyword : Option Keyword)
  | hduKindChange (source target : HduKind)
  | hduKindMismatch (expected : ExpectedHdu) (got : HduKind)
  | imageHasGroups
  | defectiveHdu (index : ℕ) (source : FitsError)
  | hduNotFound (name : Text) (version level : Option ℤ)
  | trailingContent (hduEnd fileLen : ℕ)
  | primaryAlreadyWritten
  | writerFailed
  | chunkTypeMismatch (expected got : Bitpix)
  deriving DecidableEq, Repr

/-- How a Rust function panics. -/
inductive Panic
  | debugAssertion
  | assertion
  | indexOutOfBounds
  | divisionByZero
  | zeroChunkSize
  | shiftOverflow
  | arithmeticOverflow
  | unreachable
  | expectation
  | capacityOverflow
  deriving DecidableEq, Repr

/-- The two ways a call leaves without a value: an `Err`, or a panic. -/
inductive Fault
  | err (error : FitsError)
  | panic (panic : Panic)
  deriving DecidableEq, Repr

/-- The outcome of a fallible call: its value, its error, or its panic. -/
abbrev Outcome := Except Fault

/-- Return the error `error`. -/
def fail {α : Type} (error : FitsError) : Outcome α := .error (.err error)

/-- Panic with `panic`. -/
def abort {α : Type} (panic : Panic) : Outcome α := .error (.panic panic)

/-- The value of a call that must not fail. -/
def expectOk {α : Type} (call : Outcome α) : Outcome α :=
  match call with
  | .error (.err _) => abort .expectation
  | other => other

/-- A call that does not panic. -/
def NoPanic {α : Type} (call : Outcome α) : Prop := ∀ panic, call ≠ abort panic

namespace NoPanic

variable {α β : Type}

theorem ok (value : α) : NoPanic (.ok value) := by
  intro panic h
  cases h

theorem fail (error : FitsError) : NoPanic (fail error : Outcome α) := by
  intro panic h
  cases h

theorem of_ok {call : Outcome α} {value : α} (h : call = .ok value) : NoPanic call := h ▸ ok value

/-- The error of a call that does not panic is no panic. -/
theorem error {call : Outcome α} {fault : Fault} (h : NoPanic call) (hcall : call = .error fault) :
    NoPanic (.error fault : Outcome β) := by
  intro panic hpanic
  obtain rfl := Except.error.inj hpanic
  exact h panic hcall

/-- The fault of a call that does not panic is an error. -/
theorem exists_err {call : Outcome α} {fault : Fault} (h : NoPanic call)
    (hcall : call = .error fault) : ∃ error, fault = .err error := by
  cases fault with
  | err error => exact ⟨error, rfl⟩
  | panic panic => exact (h panic hcall).elim

/-- Calls in turn do not panic where none does after the calls before it. -/
theorem bind {call : Outcome α} {next : α → Outcome β} (hcall : NoPanic call)
    (hnext : ∀ value, call = .ok value → NoPanic (next value)) : NoPanic (call >>= next) := by
  cases call with
  | ok value => exact hnext value rfl
  | error fault =>
    intro panic h
    cases h
    exact hcall panic rfl

/-- A choice between calls that do not panic. -/
theorem ite {condition : Prop} [Decidable condition] {yes no : Outcome α}
    (hyes : condition → NoPanic yes) (hno : ¬condition → NoPanic no) :
    NoPanic (if condition then yes else no) := by
  split
  · exact hyes ‹_›
  · exact hno ‹_›

end NoPanic

/-- A call that returns, with a value that has `P` or with an `Err`. -/
abbrev Returns {α : Type} (P : α → Prop) (call : Outcome α) : Prop :=
  Loops.Ends (fun fault => ∃ error, fault = .err error) P call

namespace Returns

variable {α : Type} {P : α → Prop}

theorem fail (error : FitsError) : Returns P (fail error) := ⟨error, rfl⟩

/-- A call that returns does not panic. -/
theorem noPanic {call : Outcome α} (h : Returns P call) : NoPanic call := by
  rintro panic rfl
  obtain ⟨error, herror⟩ := h
  cases herror

end Returns

/-- Panic unless the condition of a debug assertion holds. -/
def debugAssert (condition : Prop) [Decidable condition] : Outcome Unit :=
  if condition then .ok () else abort .debugAssertion

/-- Panic unless the condition of an assertion holds. -/
def require (condition : Prop) [Decidable condition] : Outcome Unit :=
  if condition then .ok () else abort .assertion

/-- The error of `got` of these where `expected` are declared. -/
def SizeUnit.mismatch (unit : SizeUnit) (expected got : ℕ) : FitsError :=
  .dataSizeMismatch unit expected got

/-- The error a PLIO defect raises. -/
def PlioDefect.error (defect : PlioDefect) : FitsError := .corruptCompressedData (.plio defect)

/-- The error an HCOMPRESS defect raises. -/
def HcompressDefect.error (defect : HcompressDefect) : FitsError :=
  .corruptCompressedData (.hcompress defect)

end FitsWell
