import FitsWell.HeaderModel.Text
import FitsWell.Library.Chunks
import FitsWell.Library.OnesComplement
import FitsWell.Usize

/-!
# The checksum of a unit

The 32-bit one's-complement sum of bytes read as big-endian words, and the sixteen
characters that hold the complement of a sum.
-/

namespace FitsWell.Checksum

open Bytes Chunks OnesComplement

/-! ## The sum -/

/-- All ones: negative zero, and the modulus of the sum. -/
def allOnes : ℕ := 0xffffffff

/-- The words one 64-bit total adds before it folds. -/
def wordsPerFold : ℕ := 2 ^ 31

/-- A total with its end-around carries added back. -/
def fold (total : ℕ) : ℕ :=
  if total > allOnes then fold (total % 2 ^ 32 + total / 2 ^ 32) else total
termination_by total
decreasing_by
  unfold allOnes at *
  omega

/-- The big-endian words of four bytes. -/
def words (bytes : List UInt8) : List (List UInt8) :=
  (List.range (bytes.length / 4)).map (chunk bytes 4)

/-- Add the words of `bytes` to `seed`. -/
def accumulate (bytes : List UInt8) (seed : ℕ) : Outcome ℕ := do
  debugAssert (bytes.length % 4 = 0)
  let blocks ← divCeil (words bytes).length wordsPerFold
  (List.range blocks).foldlM (fun sum block => do
    let total ← (chunk (words bytes) wordsPerFold block).foldlM
      (fun total word => addUsize total (ofBeBytes word)) sum
    .ok (fold total)) seed

/-- The sum of two sums. -/
def combine (left right : ℕ) : ℕ :=
  let sum := (left + right) % 2 ^ 32
  let carry := if left + right > allOnes then 1 else 0
  (sum + carry) % 2 ^ 32

/-! ## The characters of a sum -/

/-- The `CHECKSUM` value a header renders with before its sum is known. -/
def placeholder : Text := ascii "0000000000000000"

/-- The punctuation between the ranges of the digits and the letters. -/
def exclude : List ℤ :=
  [0x3a, 0x3b, 0x3c, 0x3d, 0x3e, 0x3f, 0x40, 0x5b, 0x5c, 0x5d, 0x5e, 0x5f, 0x60]

/-- Move a pair of characters off `ex`, one up and one down, with whether it moved. -/
def nudge (ex : ℤ) (changed : Bool) (pair : ℤ × ℤ) : Bool × ℤ × ℤ :=
  if pair.1 = ex ∨ pair.2 = ex then (true, pair.1 + 1, pair.2 - 1) else (changed, pair)

/-- Four characters, as their two pairs. -/
abbrev Quad := (ℤ × ℤ) × (ℤ × ℤ)

/-- Move the pairs off each punctuation character in turn. -/
def nudgeAll (ch : Quad) : Bool × Quad :=
  exclude.foldl (fun state ex =>
    let low := nudge ex state.1 state.2.1
    let high := nudge ex low.1 state.2.2
    (high.1, low.2, high.2)) (false, ch)

/-- Move the pairs until none moves. -/
def settle : ℕ → Quad → Option Quad
  | 0, _ => none
  | fuel + 1, ch =>
    let next := nudgeAll ch
    if next.1 then settle fuel next.2 else some next.2

/-- The passes that settle any byte's characters. -/
def passes : ℕ := 16

/-- Four characters that sum to `byte` past four zeros, none of them punctuation. -/
def encodeByte (byte : UInt8) : Option Quad :=
  let quotient : ℤ := (byte.toNat / 4 : ℕ) + 0x30
  let remainder : ℤ := (byte.toNat % 4 : ℕ)
  settle passes ((quotient + remainder, quotient), (quotient, quotient))

/-- The character `ch`, which is ASCII. -/
def toByte (ch : ℤ) : Outcome UInt8 :=
  if 0 ≤ ch ∧ ch < 256 then .ok (UInt8.ofNat ch.toNat) else abort .expectation

/-- The characters of one byte of the sum. -/
def column (byte : UInt8) : Outcome (List UInt8) :=
  match encodeByte byte with
  | none => abort .unreachable
  | some ch => [ch.1.1, ch.1.2, ch.2.1, ch.2.2].mapM toByte

/-- The sixteen characters of the complement of `sum`: four for each byte, the bytes in
turn, rotated to the place of the value in its record. -/
def encode (sum : ℕ) : Outcome (List UInt8) := do
  let columns ← (beBytes 4 (allOnes - sum)).mapM column
  let asc := (List.range 4).flatMap fun j => columns.map fun ch => ch.getD j 0
  .ok asc.rotateRight

end FitsWell.Checksum
