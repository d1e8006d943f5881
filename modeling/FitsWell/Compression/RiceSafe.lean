import FitsWell.Compression.RiceReader

/-!
# Decoding any RICE_1 stream

A decoder is given bytes that no encoder need have written. Every read keeps the reader
ready or ends the decoding with an error, and a split read from its field stays below the
word's width, so a tile decodes to its count of samples or to an error.
-/

namespace FitsWell.Rice

open Bits

/-- A read of a field returns a number that fits it, with the reader ready for the next. -/
theorem BitReader.read_returns {br : BitReader} {n : ℕ} (hbr : br.Ready) (hn : n ≤ 64) :
    Returns (fun result => result.1.toNat < 2 ^ n ∧ result.2.Ready) (br.read n) := by
  by_cases hlength : n ≤ br.rest.length
  · obtain ⟨v, hv, hbits⟩ := exists_word hn hlength
    obtain ⟨br', hok, hready, -⟩ := read_gives hbr hn hv hbits
    exact Loops.Ends.of_ok hok ⟨hv, hready⟩
  · rw [read_short hbr hn (by omega)]
    exact Returns.fail _

/-- A unary read returns with the reader ready for the next. -/
theorem BitReader.readZeros_returns {br : BitReader} (z : ℕ) (hbr : br.Ready) :
    Returns (fun result => result.2.Ready) (br.readZeros z) := by
  rcases unary_or_zeros br.rest with ⟨k, tail, hrest⟩ | ⟨k, hrest⟩
  · obtain ⟨br', hok, hready, -⟩ := readZeros_gives (z := z) hbr hrest
    exact Loops.Ends.of_ok hok hready
  · rw [readZeros_short z hbr hrest]
    exact Returns.fail _

/-- A Rice-coded read returns, its split below the word's width. -/
theorem BitReader.readRiceValue_returns {br : BitReader} {fs : ℕ} (hbr : br.Ready)
    (hfs : fs < 64) : Returns (fun result => result.2.Ready) (br.readRiceValue fs) := by
  unfold readRiceValue
  refine (readZeros_returns 0 hbr).bind ?_
  rintro ⟨top, br₁⟩ hready₁
  have hshift : shl (BitVec.ofNat 64 top) fs = .ok (BitVec.ofNat 64 top <<< fs) := if_pos hfs
  dsimp only
  rw [hshift]
  refine (read_returns hready₁ hfs.le).bind ?_
  rintro ⟨low, br₂⟩ ⟨-, hready₂⟩
  exact hready₂

/-- The pixel after a difference is below the width's bound. -/
theorem Codec.nextPixel_lt (codec : Codec) (lastpix diff : U64) :
    (nextPixel codec.nbits lastpix diff).toNat < 2 ^ codec.nbits := by
  rw [nextPixel, toNat_and_pixelMask _ codec.nbits_le]
  exact Nat.mod_lt _ (Nat.two_pow_pos _)

/-- The sample of a pixel is in its width's range. -/
theorem Codec.holds_output (codec : Codec) {pixel : U64} (hpixel : pixel.toNat < 2 ^ codec.nbits) :
    codec.bytepix.Holds (codec.output pixel) := by
  unfold output
  split
  · rename_i hsigned
    rw [codec.signExtend_eq hpixel]
    cases hwidth : codec.bytepix <;> simp_all [IntBitpix.Holds, nbits, IntBitpix.elemSize,
      IntBitpix.bitpix, Bitpix.elemSize, Bitpix.code] <;> split <;> omega
  · rename_i hbyte
    have hwidth : codec.bytepix = .u8 := not_not.mp hbyte
    have hnbits : codec.nbits = 8 := by rw [nbits, hwidth]; rfl
    rw [hnbits] at hpixel
    rw [hwidth, BitVec.toInt_eq_toNat_cond, if_pos (by omega)]
    exact ⟨by omega, by norm_num at hpixel ⊢; omega⟩

/-- What the samples of a block decode to: their count of them, each in the width's range,
with a last pixel below its bound and the reader ready for the next block. -/
structure Codec.Block (codec : Codec) (count : ℕ) (block : List ℤ × U64 × BitReader) : Prop where
  length_eq : block.1.length = count
  holds : ∀ value ∈ block.1, codec.bytepix.Holds value
  last_lt : block.2.1.toNat < 2 ^ codec.nbits
  ready : block.2.2.Ready

/-- Differences that are read one by one decode to a block, if each read returns. -/
theorem Codec.decodeDiffs_returns (codec : Codec) {read : BitReader → Outcome (U64 × BitReader)}
    (hread : ∀ br : BitReader, br.Ready → Returns (fun result => result.2.Ready) (read br))
    {count : ℕ} {br : BitReader} {lastpix : U64} (hbr : br.Ready)
    (hlast : lastpix.toNat < 2 ^ codec.nbits) :
    Returns (codec.Block count) (codec.decodeDiffs read count br lastpix) := by
  induction count generalizing br lastpix with
  | zero => exact Loops.Ends.ok ⟨rfl, fun _ h => absurd h List.not_mem_nil, hlast, hbr⟩
  | succ count ih =>
    rw [decodeDiffs]
    refine (hread br hbr).bind ?_
    rintro ⟨diff, br₁⟩ hready₁
    have hnext := codec.nextPixel_lt lastpix diff
    refine (ih hready₁ hnext).bind ?_
    rintro ⟨samples, last, br₂⟩ ⟨hlength, hholds, hlast₂, hready₂⟩
    exact ⟨by simpa using hlength,
      List.forall_mem_cons.mpr ⟨codec.holds_output hnext, hholds⟩, hlast₂, hready₂⟩

/-- A block decodes whatever its split field holds. -/
theorem Codec.decodeBlock_returns (codec : Codec) {br : BitReader} {lastpix : U64} (count : ℕ)
    (hbr : br.Ready) (hlast : lastpix.toNat < 2 ^ codec.nbits) :
    Returns (codec.Block count) (codec.decodeBlock br lastpix count) := by
  have hfield := (splitField_bounds codec.bytepix).1
  unfold decodeBlock
  refine (BitReader.read_returns hbr (by omega)).bind ?_
  rintro ⟨code, br₁⟩ ⟨hcode, hready₁⟩
  have hpow : 2 ^ (splitField codec.bytepix).bits ≤ 2 ^ 6 :=
    Nat.pow_le_pow_right (by decide) hfield
  dsimp only at hcode ⊢
  split
  · refine ⟨List.length_replicate, fun value hvalue => ?_, hlast, hready₁⟩
    rw [List.eq_of_mem_replicate hvalue]
    exact codec.holds_output hlast
  · split
    · refine codec.decodeDiffs_returns (fun br hbr => ?_) hready₁ hlast
      exact (BitReader.read_returns hbr codec.nbits_le).mono fun _ h => h.2
    · -- a field of at most 6 bits holds a split of at most 62
      exact codec.decodeDiffs_returns
        (fun br hbr => BitReader.readRiceValue_returns hbr (by omega)) hready₁ hlast

/-- What a tile decodes to: its count of samples, each in the width's range. -/
def Codec.Tile (codec : Codec) (count : ℕ) (samples : List ℤ) : Prop :=
  samples.length = count ∧ ∀ value ∈ samples, codec.bytepix.Holds value

/-- The blocks of a tile decode in turn. -/
theorem Codec.decodeBlocks_returns (codec : Codec) (hsize : codec.blocksize ≠ 0) (count : ℕ)
    {br : BitReader} {lastpix : U64} (hbr : br.Ready) (hlast : lastpix.toNat < 2 ^ codec.nbits) :
    Returns (codec.Tile count) (codec.decodeBlocks br lastpix count) := by
  induction count using Nat.strong_induction_on generalizing br lastpix with
  | _ count ih =>
    rw [decodeBlocks, dif_neg hsize]
    split
    · rename_i hcount
      exact ⟨hcount.symm, fun _ h => absurd h List.not_mem_nil⟩
    · refine (codec.decodeBlock_returns _ hbr hlast).bind ?_
      rintro ⟨block, last, br₁⟩ ⟨hlength, hholds, hlast₁, hready₁⟩
      refine (ih (count - codec.blocksize) (by omega) hready₁ hlast₁).bind ?_
      rintro samples ⟨hrest, hall⟩
      dsimp only at hlength hholds
      exact ⟨by rw [List.length_append]; omega,
        List.forall_mem_append.mpr ⟨hholds, hall⟩⟩

end FitsWell.Rice
