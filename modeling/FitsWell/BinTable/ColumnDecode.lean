import FitsWell.BinTable.Schema
import FitsWell.ImageModel.Scaling
import FitsWell.Library.Bits

/-!
# Decoding the cells of a column

The values of a column's cells are decoded in row order into one run, which is reserved
before the first cell is read. Floats are kept as their patterns of bits.
-/

namespace FitsWell

open Bits Bytes Chunks

/-! ## Values -/

/-- A column's values, all rows in one run. -/
inductive ColumnData
  | logical (values : List (Option Bool))
  | bit (values : List Bool)
  | u8 (values : List UInt8)
  | i16 (values : List (BitVec 16))
  | i32 (values : List (BitVec 32))
  | i64 (values : List (BitVec 64))
  | f32 (values : List (BitVec 32))
  | f64 (values : List (BitVec 64))
  | complexF32 (values : List (BitVec 32 × BitVec 32))
  | complexF64 (values : List (BitVec 64 × BitVec 64))
  | character (values : List UInt8)
  deriving DecidableEq

/-- The count of the values. -/
def ColumnData.len : ColumnData → ℕ
  | .logical values => values.length
  | .bit values => values.length
  | .u8 values => values.length
  | .i16 values => values.length
  | .i32 values => values.length
  | .i64 values => values.length
  | .f32 values => values.length
  | .f64 values => values.length
  | .complexF32 values => values.length
  | .complexF64 values => values.length
  | .character values => values.length

/-- The element type that the values are stored as. -/
def ColumnData.elementKind : ColumnData → ElementKind
  | .logical _ => .logical
  | .bit _ => .bit
  | .u8 _ => .u8
  | .i16 _ => .i16
  | .i32 _ => .i32
  | .i64 _ => .i64
  | .f32 _ => .f32
  | .f64 _ => .f64
  | .complexF32 _ => .complexF32
  | .complexF64 _ => .complexF64
  | .character _ => .character

/-- A logical value: any byte but `T` and `F` is undefined. -/
def logicalFromByte (bytes : List UInt8) : Option Bool :=
  if bytes = [0x54] then some true else if bytes = [0x46] then some false else none

/-- A pair of words. -/
def bePair (width : ℕ) (bytes : List UInt8) : BitVec width × BitVec width :=
  (beWord width (bytes.take (width / 8)), beWord width (bytes.drop (width / 8)))

/-- The sample type that stores the same values, of a numeric kind. -/
def ElementKind.bitpix : ElementKind → Option Bitpix
  | .u8 => some .u8
  | .i16 => some .i16
  | .i32 => some .i32
  | .i64 => some .i64
  | .f32 => some .f32
  | .f64 => some .f64
  | .logical | .bit | .character | .complexF32 | .complexF64 => none

def ElementKind.isComplex (kind : ElementKind) : Bool :=
  kind = .complexF32 || kind = .complexF64

/-! ## Cells -/

/-- A cell's bytes, and the count of the elements they hold. -/
structure Cell where
  bytes : List UInt8
  count : ℕ
  deriving DecidableEq

/-- The cells of a column as they are read in turn: the cell of a row, and the state after
it. -/
abbrev CellSource (σ : Type) : Type := σ → ℕ → Outcome (σ × Cell)

variable {σ τ : Type}

/-- Append the `size`-byte values of a row's cell. -/
def extendBeCells (size : ℕ) (conv : List UInt8 → τ) (next : CellSource σ) (state : σ × List τ)
    (row : ℕ) : Outcome (σ × List τ) := do
  let found ← next state.1 row
  debugAssert (found.2.bytes.length % size = 0)
  .ok (found.1, state.2 ++ (wholeChunks (size - 1) found.2.bytes).map conv)

/-- The `size`-byte values of the cells of `rows`, kept in `width` bytes each. They hold
`capacity` values in all. -/
def decodeBeCells (size width : ℕ) (conv : List UInt8 → τ) (next : CellSource σ) (start : σ)
    (rows : List ℕ) (capacity : ℕ) : Outcome (σ × List τ) := do
  tryReserve width 0 capacity
  rows.foldlM (extendBeCells size conv next) (start, [])

/-- Append the bits of a row's cell. -/
def extendBits (next : CellSource σ) (state : σ × List Bool) (row : ℕ) :
    Outcome (σ × List Bool) := do
  let found ← next state.1 row
  let bits ← subslice (byteBits found.2.bytes) 0 found.2.count
  .ok (found.1, state.2 ++ bits)

/-- The values of a type, in its variant. -/
def refill (size : ℕ) (conv : List UInt8 → τ) (wrap : List τ → ColumnData) (next : CellSource σ)
    (start : σ) (rows : List ℕ) (capacity : ℕ) : Outcome (σ × ColumnData) := do
  let decoded ← decodeBeCells size size conv next start rows capacity
  .ok (decoded.1, wrap decoded.2)

/-- The values of the cells of `rows`, which hold `capacity` elements in all. -/
def ElementKind.decodeCells (kind : ElementKind) (next : CellSource σ) (start : σ)
    (rows : List ℕ) (capacity : ℕ) : Outcome (σ × ColumnData) :=
  match kind with
  | .bit => do
    tryReserve 1 0 ((capacity + 7) / 8)
    let decoded ← rows.foldlM (extendBits next) (start, [])
    .ok (decoded.1, .bit decoded.2)
  | .logical => refill 1 logicalFromByte .logical next start rows capacity
  | .u8 => refill 1 (fun bytes => bytes.headD 0) .u8 next start rows capacity
  | .character => refill 1 (fun bytes => bytes.headD 0) .character next start rows capacity
  | .i16 => refill 2 (beWord 16) .i16 next start rows capacity
  | .i32 => refill 4 (beWord 32) .i32 next start rows capacity
  | .i64 => refill 8 (beWord 64) .i64 next start rows capacity
  | .f32 => refill 4 (beWord 32) .f32 next start rows capacity
  | .f64 => refill 8 (beWord 64) .f64 next start rows capacity
  | .complexF32 => refill 8 (bePair 32) .complexF32 next start rows capacity
  | .complexF64 => refill 16 (bePair 64) .complexF64 next start rows capacity

/-! ## Converted values -/

/-- Exact integers that a sign-bit offset stores. -/
structure UnsignedData where
  kind : UnsignedKind
  values : List (BitVec (8 * kind.size))

/-- The exact integers of the cells of `rows`. -/
def UnsignedData.fromBeCells (kind : UnsignedKind) (next : CellSource σ) (start : σ)
    (rows : List ℕ) (capacity : ℕ) : Outcome (σ × UnsignedData) := do
  let decoded ← decodeBeCells kind.size kind.size kind.flip next start rows capacity
  .ok (decoded.1, { kind := kind, values := decoded.2 })

variable {R : Type} [PlaneReals R] [PhysicalSample R τ]

/-- Gather the samples of a row's cell. -/
def Scaling.extendCell (scaling : Scaling R) (bitpix : Bitpix) (next : CellSource σ)
    (state : σ × Scaling.Gather τ) (row : ℕ) : Outcome (σ × Scaling.Gather τ) := do
  let found ← next state.1 row
  debugAssert (found.2.bytes.length % bitpix.elemSize = 0)
  let gather ← scaling.gatherCell bitpix state.2 found.2.bytes
  .ok (found.1, gather)

/-- The physical values of the cells of `rows`, after those of `out`. -/
def ElementKind.decodePhysical (kind : ElementKind) (scaling : Scaling R) (next : CellSource σ)
    (start : σ) (rows : List ℕ) (capacity : ℕ) (out : List τ) : Outcome (σ × List τ) :=
  match kind.bitpix with
  | none => abort .expectation
  | some bitpix => do
    tryReserve (PhysicalSample.width τ) out.length capacity
    let gathered ← rows.foldlM (scaling.extendCell bitpix next)
      (start, { block := [], out := out, room := Nat.zero_lt_succ _ })
    let values ← scaling.extendPhysical bitpix gathered.2.block gathered.2.out
    .ok (gathered.1, values)

/-- A complex value scaled: the zero is of the real part. -/
def scaleComplex (tscale tzero re im : R) : R × R :=
  (PlaneReals.mulAdd tscale re tzero, PlaneReals.mul tscale im)

/-- The scaled complex values of the cells of `rows`, of two `f64`s each. -/
def ElementKind.decodeComplex (kind : ElementKind) (tscale tzero : R) (next : CellSource σ)
    (start : σ) (rows : List ℕ) (capacity : ℕ) : Outcome (σ × List (R × R)) :=
  match kind with
  | .complexF32 => decodeBeCells 8 16 (fun bytes =>
      scaleComplex tscale tzero (PlaneReals.ofF32 (bePair 32 bytes).1)
        (PlaneReals.ofF32 (bePair 32 bytes).2)) next start rows capacity
  | .complexF64 => decodeBeCells 16 16 (fun bytes =>
      scaleComplex tscale tzero (PlaneReals.ofF64 (bePair 64 bytes).1)
        (PlaneReals.ofF64 (bePair 64 bytes).2)) next start rows capacity
  | _ => abort .unreachable

end FitsWell
