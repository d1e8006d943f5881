import FitsWell.Compression.RiceBits
import Mathlib.Algebra.Order.BigOperators.Group.List

/-!
# The RICE_1 round trip

A block's differences decode to its samples whatever their code, since the zigzag
mapping and the differencing are inverse modulo the pixel width. The encoder's choice
among its three codes is read back from the block's split field.
-/

namespace FitsWell.Rice

open Bits

/-! ## Pixels -/

/-- A pixel has one of four widths. -/
theorem Codec.nbits_cases (codec : Codec) :
    codec.nbits = 8 ∨ codec.nbits = 16 ∨ codec.nbits = 32 ∨ codec.nbits = 64 := by
  unfold nbits
  cases codec.bytepix <;> decide

/-- A pixel fits a word. -/
theorem Codec.nbits_le (codec : Codec) : codec.nbits ≤ 64 := by
  have h := codec.nbits_cases
  omega

/-- Masking to the pixel width takes the remainder by it. -/
theorem toNat_and_pixelMask (v : U64) {nbits : ℕ} (hnbits : nbits ≤ 64) :
    (v &&& pixelMask nbits).toNat = v.toNat % 2 ^ nbits := by
  have hmask : pixelMask nbits = lowBits nbits := by
    unfold pixelMask lowBits
    by_cases h : nbits = 64
    · rw [if_pos (by omega), if_pos h]
    · rw [if_neg (by omega), if_neg h]
  rw [hmask, toNat_and_lowBits v hnbits]

/-- A pixel read as two's complement is negative from half its range on. -/
theorem Codec.signExtend_eq (codec : Codec) {v : U64} (hv : v.toNat < 2 ^ codec.nbits) :
    signExtend v codec.nbits =
      if 2 * v.toNat < 2 ^ codec.nbits then (v.toNat : ℤ) else v.toNat - 2 ^ codec.nbits := by
  rw [signExtend, BitVec.toInt_sshiftRight, BitVec.toInt_eq_toNat_cond, BitVec.toNat_shiftLeft,
    Nat.shiftLeft_eq, Int.shiftRight_eq_div_pow]
  rcases codec.nbits_cases with h | h | h | h <;> rw [h] at hv ⊢ <;> norm_num at hv ⊢ <;>
    split <;> split <;> omega

/-- The pixel of a sample. -/
def Codec.pixel (codec : Codec) (value : ℤ) : U64 :=
  BitVec.ofInt 64 value &&& pixelMask codec.nbits

/-- A sample's pixel is the sample modulo the pixel width. -/
theorem Codec.toNat_pixel (codec : Codec) (value : ℤ) :
    ((codec.pixel value).toNat : ℤ) = value % 2 ^ codec.nbits := by
  rw [pixel, toNat_and_pixelMask _ codec.nbits_le, BitVec.toNat_ofInt]
  rcases codec.nbits_cases with h | h | h | h <;> rw [h] <;> norm_num <;> omega

/-- A sample's pixel is below the width's bound. -/
theorem Codec.pixel_lt (codec : Codec) (value : ℤ) :
    (codec.pixel value).toNat < 2 ^ codec.nbits := by
  rw [pixel, toNat_and_pixelMask _ codec.nbits_le]
  exact Nat.mod_lt _ (Nat.two_pow_pos _)

/-- A sample in its width's range is the output of its pixel. -/
theorem Codec.output_pixel (codec : Codec) {value : ℤ} (hvalue : codec.bytepix.Holds value) :
    codec.output (codec.pixel value) = value := by
  have hpixel := codec.toNat_pixel value
  have hlt := codec.pixel_lt value
  unfold output
  split
  · rw [codec.signExtend_eq hlt]
    cases hwidth : codec.bytepix <;> simp_all [IntBitpix.Holds, nbits, IntBitpix.elemSize,
      IntBitpix.bitpix, Bitpix.elemSize, Bitpix.code] <;> split <;> omega
  · rename_i hbyte
    have hwidth : codec.bytepix = .u8 := not_not.mp hbyte
    simp only [nbits, hwidth, IntBitpix.Holds] at hpixel hlt hvalue
    norm_num [IntBitpix.elemSize, IntBitpix.bitpix, Bitpix.elemSize, Bitpix.code] at hpixel hlt
    rw [BitVec.toInt_eq_toNat_cond, if_pos (by norm_num; omega)]
    omega

/-! ## Differences -/

/-- The difference a zigzag mapping holds. -/
def unzigzag (diff : U64) : U64 := if diff &&& 1 = 1 then ~~~(diff >>> 1) else diff >>> 1

/-- An even code is a difference of half of it, and an odd one the complement of that. -/
theorem toInt_unzigzag (diff : U64) :
    (unzigzag diff).toInt =
      if diff.toNat % 2 = 0 then (diff.toNat / 2 : ℤ) else -(diff.toNat / 2 : ℤ) - 1 := by
  have hlt := diff.isLt
  have hshift : (diff >>> 1).toNat = diff.toNat / 2 := by
    rw [BitVec.toNat_ushiftRight, Nat.shiftRight_eq_div_pow, pow_one]
  have hodd : diff &&& 1 = 1 ↔ diff.toNat % 2 = 1 := by
    rw [← BitVec.toNat_inj, BitVec.toNat_and]
    change diff.toNat &&& 1 = 1 ↔ _
    rw [Nat.and_one_is_mod]
  unfold unzigzag
  by_cases h : diff.toNat % 2 = 1
  · rw [if_pos (hodd.mpr h), if_neg (by omega), BitVec.toInt_eq_toNat_cond, BitVec.toNat_not, hshift]
    split <;> omega
  · rw [if_neg (fun h' => h (hodd.mp h')), if_pos (by omega), BitVec.toInt_eq_toNat_cond, hshift]
    split <;> omega

/-- The zigzag code of a difference: twice it, less one where it is negative. -/
theorem Codec.toNat_zigzag (codec : Codec) {raw : ℕ} {lastpix next : U64}
    (hraw : ((next - lastpix) &&& pixelMask codec.nbits).toNat = raw) :
    (zigzag codec.nbits lastpix next).toNat =
      if 2 * raw < 2 ^ codec.nbits then 2 * raw else 2 * (2 ^ codec.nbits - raw) - 1 := by
  have hlt : raw < 2 ^ codec.nbits := by
    rw [← hraw, toNat_and_pixelMask _ codec.nbits_le]
    exact Nat.mod_lt _ (Nat.two_pow_pos _)
  have hone : (1 : U64).toNat = 1 := rfl
  unfold zigzag
  dsimp only
  rw [codec.signExtend_eq (hraw.symm ▸ hlt), hraw]
  by_cases hsmall : 2 * raw < 2 ^ codec.nbits
  · rw [if_pos hsmall, if_pos (Int.natCast_nonneg raw), Int.natAbs_natCast, if_pos hsmall,
      BitVec.toNat_shiftLeft, Nat.shiftLeft_eq, BitVec.toNat_ofNat]
    rcases codec.nbits_cases with h | h | h | h <;> rw [h] at hsmall <;> norm_num at hsmall ⊢ <;>
      omega
  · have habs : ((raw : ℤ) - 2 ^ codec.nbits).natAbs = 2 ^ codec.nbits - raw := by
      have hcast : ((2 : ℤ) ^ codec.nbits) = ((2 ^ codec.nbits : ℕ) : ℤ) := by push_cast; rfl
      omega
    have hneg : ¬(0 : ℤ) ≤ raw - 2 ^ codec.nbits := by
      have hcast : ((2 : ℤ) ^ codec.nbits) = ((2 ^ codec.nbits : ℕ) : ℤ) := by push_cast; rfl
      omega
    rw [if_neg hsmall, if_neg hneg, habs, if_neg hsmall, BitVec.toNat_sub, hone,
      BitVec.toNat_shiftLeft, Nat.shiftLeft_eq, BitVec.toNat_ofNat]
    rcases codec.nbits_cases with h | h | h | h <;> rw [h] at hlt hsmall ⊢ <;>
      norm_num at hlt hsmall ⊢ <;> omega

/-- A zigzag code fits the pixel width. -/
theorem Codec.zigzag_lt (codec : Codec) (lastpix next : U64) :
    (zigzag codec.nbits lastpix next).toNat < 2 ^ codec.nbits := by
  have hlt : ((next - lastpix) &&& pixelMask codec.nbits).toNat < 2 ^ codec.nbits := by
    rw [toNat_and_pixelMask _ codec.nbits_le]
    exact Nat.mod_lt _ (Nat.two_pow_pos _)
  rw [codec.toNat_zigzag rfl]
  split
  · assumption
  · omega

/-- The next pixel is the one whose zigzag code was taken. -/
theorem Codec.nextPixel_zigzag (codec : Codec) (lastpix : U64) {next : U64}
    (hnext : next.toNat < 2 ^ codec.nbits) :
    nextPixel codec.nbits lastpix (zigzag codec.nbits lastpix next) = next := by
  set raw := ((next - lastpix) &&& pixelMask codec.nbits).toNat with hraw
  have hdiff : raw = (next - lastpix).toNat % 2 ^ codec.nbits :=
    hraw.trans (toNat_and_pixelMask _ codec.nbits_le)
  have hcode := codec.toNat_zigzag hraw.symm
  have hunzigzag := toInt_unzigzag (zigzag codec.nbits lastpix next)
  set diff := zigzag codec.nbits lastpix next
  have hpixel : nextPixel codec.nbits lastpix diff =
      (lastpix + unzigzag diff) &&& pixelMask codec.nbits := rfl
  rw [hcode] at hunzigzag
  apply BitVec.eq_of_toNat_eq
  rw [hpixel, toNat_and_pixelMask _ codec.nbits_le, BitVec.toNat_add]
  rw [BitVec.toNat_sub] at hdiff
  rw [BitVec.toInt_eq_toNat_cond] at hunzigzag
  have hlast := lastpix.isLt
  have hunzig := (unzigzag diff).isLt
  rcases codec.nbits_cases with h | h | h | h <;> rw [h] at hnext hdiff hunzigzag ⊢ <;>
    norm_num at hnext hdiff hunzigzag ⊢ <;> split at hunzigzag <;> split at hunzigzag <;>
    split at hunzigzag <;> omega

/-! ## Blocks -/

/-- The codes of a block are one for each sample. -/
theorem length_blockDiffs (nbits : ℕ) (lastpix : U64) (values : List ℤ) :
    (blockDiffs nbits lastpix values).1.length = values.length := by
  induction values generalizing lastpix with
  | nil => rfl
  | cons value values ih => simp [blockDiffs, ih]

/-- Each code of a block fits the pixel width. -/
theorem Codec.blockDiffs_lt (codec : Codec) {lastpix diff : U64} {values : List ℤ}
    (hdiff : diff ∈ (blockDiffs codec.nbits lastpix values).1) :
    diff.toNat < 2 ^ codec.nbits := by
  induction values generalizing lastpix with
  | nil => cases hdiff
  | cons value values ih =>
    rcases List.mem_cons.mp hdiff with rfl | h
    · exact codec.zigzag_lt _ _
    · exact ih h

/-- The last pixel of a block is a pixel. -/
theorem Codec.blockDiffs_last_lt (codec : Codec) {lastpix : U64} (values : List ℤ)
    (hlast : lastpix.toNat < 2 ^ codec.nbits) :
    (blockDiffs codec.nbits lastpix values).2.toNat < 2 ^ codec.nbits := by
  induction values generalizing lastpix with
  | nil => exact hlast
  | cons value values ih => exact ih (codec.pixel_lt value)

/-- The samples of a block decode from codes read one by one. -/
theorem Codec.decodeDiffs_gives (codec : Codec) {read : BitReader → Outcome (U64 × BitReader)}
    {code : U64 → List Bool} (hread : ∀ (br : BitReader) (diff : U64) (tail : List Bool), br.Ready →
      diff.toNat < 2 ^ codec.nbits → br.rest = code diff ++ tail →
        BitReader.Gives (read br) diff tail)
    {values : List ℤ} (hvalues : ∀ value ∈ values, codec.bytepix.Holds value)
    {lastpix : U64} {br : BitReader} {tail : List Bool} (hbr : br.Ready)
    (hrest : br.rest = (blockDiffs codec.nbits lastpix values).1.flatMap code ++ tail) :
    ∃ br', codec.decodeDiffs read values.length br lastpix =
        .ok (values, (blockDiffs codec.nbits lastpix values).2, br') ∧
      br'.Ready ∧ br'.rest = tail := by
  induction values generalizing lastpix br with
  | nil => exact ⟨br, rfl, hbr, by simpa [blockDiffs] using hrest⟩
  | cons value values ih =>
    have hdiffs : (blockDiffs codec.nbits lastpix (value :: values)).1 =
        zigzag codec.nbits lastpix (codec.pixel value) ::
          (blockDiffs codec.nbits (codec.pixel value) values).1 := rfl
    rw [hdiffs, List.flatMap_cons, List.append_assoc] at hrest
    obtain ⟨br₁, hok₁, hready₁, hrest₁⟩ := hread br _ _ hbr (codec.zigzag_lt _ _) hrest
    obtain ⟨br₂, hok₂, hready₂, hrest₂⟩ :=
      ih (fun v hv => hvalues v (List.mem_cons_of_mem _ hv)) hready₁ hrest₁
    have hpixel := codec.nextPixel_zigzag lastpix (codec.pixel_lt value)
    refine ⟨br₂, ?_, hready₂, hrest₂⟩
    rw [List.length_cons, decodeDiffs, hok₁]
    simp only [bind, Except.bind, hpixel, hok₂,
      codec.output_pixel (hvalues value (List.mem_cons_self ..))]
    rfl

/-- A block of zero codes repeats the pixel before it. -/
theorem Codec.eq_replicate_of_zero_diffs (codec : Codec) {lastpix : U64} {values : List ℤ}
    (hvalues : ∀ value ∈ values, codec.bytepix.Holds value)
    (hlast : lastpix.toNat < 2 ^ codec.nbits)
    (hzero : ∀ diff ∈ (blockDiffs codec.nbits lastpix values).1, diff.toNat = 0) :
    values = List.replicate values.length (codec.output lastpix) ∧
      (blockDiffs codec.nbits lastpix values).2 = lastpix := by
  induction values with
  | nil => exact ⟨rfl, rfl⟩
  | cons value values ih =>
    have hdiff : zigzag codec.nbits lastpix (codec.pixel value) = 0 :=
      BitVec.eq_of_toNat_eq (hzero _ (List.mem_cons_self ..))
    have hpixel := codec.nextPixel_zigzag lastpix (codec.pixel_lt value)
    have hsame : codec.pixel value = lastpix := by
      rw [← hpixel, hdiff]
      apply BitVec.eq_of_toNat_eq
      have hnone : nextPixel codec.nbits lastpix 0 = lastpix &&& pixelMask codec.nbits := by
        simp [nextPixel]
      rw [hnone, toNat_and_pixelMask _ codec.nbits_le, Nat.mod_eq_of_lt hlast]
    have hnext : (blockDiffs codec.nbits lastpix (value :: values)).2 =
        (blockDiffs codec.nbits (codec.pixel value) values).2 := rfl
    obtain ⟨hrest, hlast'⟩ := ih (fun v hv => hvalues v (List.mem_cons_of_mem _ hv))
      (fun diff h => hzero diff (List.mem_cons_of_mem _ (by
        change diff ∈ (blockDiffs codec.nbits (codec.pixel value) values).1
        rwa [hsame])))
    have hvalue := codec.output_pixel (hvalues value (List.mem_cons_self ..))
    refine ⟨?_, by rw [hnext, hsame, hlast']⟩
    rw [List.length_cons, List.replicate_succ, ← hrest, ← hsame, hvalue]

/-- The bits of a block of the differences `diffs`. -/
def Codec.blockBits (codec : Codec) (diffs : List U64) : List Bool :=
  let field := splitField codec.bytepix
  let pixelsum := (diffs.map BitVec.toNat).sum
  let fs := splitOf pixelsum diffs.length
  if field.max ≤ fs then
    natBits field.bits (field.max + 1) ++ diffs.flatMap (fun diff => natBits codec.nbits diff.toNat)
  else if fs = 0 ∧ pixelsum = 0 then
    natBits field.bits 0
  else
    natBits field.bits (fs + 1) ++ diffs.flatMap (fun diff => riceBits fs diff.toNat)

/-- The codes of a block are appended one by one. -/
theorem appends_outputDiffs {output : BitOutput → U64 → Outcome BitOutput} {code : U64 → List Bool}
    (houtput : ∀ (bo : BitOutput) (diff : U64), bo.Sound → bo.Appends (output bo diff) (code diff))
    {bo : BitOutput} (diffs : List U64) (hbo : bo.Sound) :
    bo.Appends (outputDiffs output bo diffs) (diffs.flatMap code) := by
  induction diffs generalizing bo with
  | nil => exact BitOutput.appends_nil hbo
  | cons diff diffs ih => exact (houtput bo diff hbo).bind (fun bo' hbo' => ih hbo')

/-- A split field holds the escape mark and each code below it, in fewer than 64 bits. -/
theorem splitField_bounds (bytepix : IntBitpix) :
    (splitField bytepix).bits ≤ 6 ∧ (splitField bytepix).max + 1 < 2 ^ (splitField bytepix).bits ∧
      (splitField bytepix).max < 64 := by
  cases bytepix <;> decide

/-- A small code is a word of itself. -/
theorem toNat_ofNat_code (code : ℕ) (hcode : code ≤ 64) : (BitVec.ofNat 64 code).toNat = code := by
  rw [BitVec.toNat_ofNat, Nat.mod_eq_of_lt (by omega)]

/-- The encoder appends the block's bits. -/
theorem Codec.appends_encodeBlock (codec : Codec) {bo : BitOutput} (diffs : List U64)
    (hbo : bo.Sound) : bo.Appends (codec.encodeBlock bo diffs) (codec.blockBits diffs) := by
  obtain ⟨hbits, hmax, hmax64⟩ := splitField_bounds codec.bytepix
  unfold encodeBlock blockBits
  dsimp only
  split
  · have hmark := toNat_ofNat_code ((splitField codec.bytepix).max + 1) (by omega)
    have h := BitOutput.appends_outputNbits
      (BitVec.ofNat 64 ((splitField codec.bytepix).max + 1)) hbo
      (show (splitField codec.bytepix).bits ≤ 64 by omega)
    rw [hmark] at h
    exact h.bind (fun bo' hbo' => appends_outputDiffs
      (fun bo diff hbo => BitOutput.appends_outputNbits diff hbo codec.nbits_le) diffs hbo')
  split
  · exact BitOutput.appends_outputNbits 0 hbo (by omega)
  · set fs := splitOf (diffs.map BitVec.toNat).sum diffs.length
    have hmark := toNat_ofNat_code (fs + 1) (by omega)
    have h := BitOutput.appends_outputNbits (BitVec.ofNat 64 (fs + 1)) hbo
      (show (splitField codec.bytepix).bits ≤ 64 by omega)
    rw [hmark] at h
    exact h.bind (fun bo' hbo' => appends_outputDiffs
      (fun bo diff hbo => BitOutput.appends_outputRiceValue diff hbo (by omega)) diffs hbo')

/-- A split of zero leaves a mean difference below two. -/
theorem sum_lt_of_splitOf_eq_zero {pixelsum block : ℕ} (hblock : 0 < block)
    (hsplit : splitOf pixelsum block = 0) : pixelsum < 3 * block := by
  have hmean : meanLessOne pixelsum block / 2 = 0 := by
    by_contra hne
    rw [splitOf, bitLength, if_pos (Nat.pos_of_ne_zero hne)] at hsplit
    omega
  have hquotient : pixelsum / block < 3 := by
    unfold meanLessOne at hmean
    split at hmean <;> omega
  exact (Nat.div_lt_iff_lt_mul hblock).mp hquotient

/-- The length of a Rice-coded value does not overflow a `u64`, in a block of as many
samples as a slice of memory can hold. -/
theorem riceValue_length_lt {diffs : List U64} {diff : U64} (hlength : diffs.length < 2 ^ 60)
    (hdiff : diff ∈ diffs) (hsplit : splitOf (diffs.map BitVec.toNat).sum diffs.length < 64) :
    (diff >>> splitOf (diffs.map BitVec.toNat).sum diffs.length).toNat + 1 +
      splitOf (diffs.map BitVec.toNat).sum diffs.length < 2 ^ 64 := by
  have hpos : 0 < diffs.length := List.length_pos_of_mem hdiff
  have hsum : diff.toNat ≤ (diffs.map BitVec.toNat).sum :=
    List.single_le_sum (fun _ _ => Nat.zero_le _) _ (List.mem_map_of_mem hdiff)
  generalize hfs : splitOf (diffs.map BitVec.toNat).sum diffs.length = fs at hsplit ⊢
  rw [BitVec.toNat_ushiftRight, Nat.shiftRight_eq_div_pow]
  cases fs with
  | zero =>
    have hsmall := sum_lt_of_splitOf_eq_zero hpos hfs
    rw [pow_zero, Nat.div_one]
    omega
  | succ fs =>
    have hhalf : diff.toNat / 2 ^ (fs + 1) ≤ diff.toNat / 2 :=
      Nat.div_le_div_left (Nat.le_self_pow (Nat.succ_ne_zero fs) 2) (by decide)
    have hlt := diff.isLt
    omega

/-- The decoder reads a block's samples from its bits. -/
theorem Codec.decodeBlock_gives (codec : Codec) {values : List ℤ} {lastpix : U64} {br : BitReader}
    {tail : List Bool} (hvalues : ∀ value ∈ values, codec.bytepix.Holds value)
    (hlast : lastpix.toNat < 2 ^ codec.nbits) (hbr : br.Ready)
    (hrest : br.rest = codec.blockBits (blockDiffs codec.nbits lastpix values).1 ++ tail) :
    ∃ br', codec.decodeBlock br lastpix values.length =
        .ok (values, (blockDiffs codec.nbits lastpix values).2, br') ∧
      br'.Ready ∧ br'.rest = tail := by
  obtain ⟨hbits, hmax, hmax64⟩ := splitField_bounds codec.bytepix
  unfold blockBits at hrest
  unfold decodeBlock
  dsimp only at hrest ⊢
  split at hrest
  · rw [List.append_assoc] at hrest
    have hmark := toNat_ofNat_code ((splitField codec.bytepix).max + 1) (by omega)
    rw [← hmark] at hrest
    obtain ⟨br₁, hok₁, hready₁, hrest₁⟩ :=
      BitReader.read_gives hbr (by omega) (by rw [hmark]; exact hmax) hrest
    obtain ⟨br₂, hok₂, hready₂, hrest₂⟩ := codec.decodeDiffs_gives
      (fun br diff tail hbr hdiff hrest => BitReader.read_gives hbr codec.nbits_le hdiff hrest)
      hvalues hready₁ hrest₁
    refine ⟨br₂, ?_, hready₂, hrest₂⟩
    simp only [hok₁, bind, Except.bind, hmark, Nat.succ_ne_zero, if_false, Nat.add_sub_cancel,
      if_true, hok₂]
  split at hrest
  · rename_i hzero
    obtain ⟨br₁, hok₁, hready₁, hrest₁⟩ :=
      BitReader.read_gives (v := 0) hbr (by omega) (Nat.two_pow_pos _) hrest
    have hdiffs : ∀ diff ∈ (blockDiffs codec.nbits lastpix values).1, diff.toNat = 0 :=
      fun diff hdiff => List.sum_eq_zero_iff_forall_eq_nat.mp hzero.2 _ (List.mem_map_of_mem hdiff)
    obtain ⟨hsame, hlast'⟩ := codec.eq_replicate_of_zero_diffs hvalues hlast hdiffs
    refine ⟨br₁, ?_, hready₁, hrest₁⟩
    have hcode : (0 : U64).toNat = 0 := rfl
    simp only [hok₁, bind, Except.bind, hcode, if_true, ← hsame, hlast']
  · rename_i hfs hzero
    set fs := splitOf ((blockDiffs codec.nbits lastpix values).1.map BitVec.toNat).sum
      (blockDiffs codec.nbits lastpix values).1.length
    have hfs64 : fs < 64 := by omega
    rw [List.append_assoc] at hrest
    have hmark := toNat_ofNat_code (fs + 1) (by omega)
    rw [← hmark] at hrest
    obtain ⟨br₁, hok₁, hready₁, hrest₁⟩ :=
      BitReader.read_gives hbr (by omega) (by rw [hmark]; omega) hrest
    obtain ⟨br₂, hok₂, hready₂, hrest₂⟩ := codec.decodeDiffs_gives
      (fun br diff tail hbr _ hrest => BitReader.readRiceValue_gives hbr hfs64 hrest)
      hvalues hready₁ hrest₁
    refine ⟨br₂, ?_, hready₂, hrest₂⟩
    simp only [hok₁, bind, Except.bind, hmark, Nat.succ_ne_zero, if_false, Nat.add_sub_cancel,
      show ¬fs = (splitField codec.bytepix).max by omega, hok₂]

/-! ## Tiles -/

/-- The blocks of `values` are written as a bit string from which the decoder reads
`values` back. -/
theorem Codec.encodeBlocks_decodeBlocks (codec : Codec) (hsize : codec.blocksize ≠ 0)
    {bo : BitOutput} (lastpix : U64) {values : List ℤ} (hbo : bo.Sound)
    (hvalues : ∀ value ∈ values, codec.bytepix.Holds value)
    (hlast : lastpix.toNat < 2 ^ codec.nbits) :
    ∃ bits, bo.Appends (codec.encodeBlocks bo lastpix values) bits ∧
      ∀ (br : BitReader) (tail : List Bool), br.Ready → br.rest = bits ++ tail →
        codec.decodeBlocks br lastpix values.length = .ok values := by
  induction hlength : values.length using Nat.strong_induction_on generalizing bo lastpix values with
  | _ length ih =>
    by_cases hempty : values.length = 0
    · obtain rfl := List.length_eq_zero_iff.mp hempty
      obtain rfl := hlength
      refine ⟨[], ?_, fun br tail _ _ => ?_⟩
      · rw [encodeBlocks, dif_pos hempty]
        exact BitOutput.appends_nil hbo
      · rw [decodeBlocks, dif_pos hempty]
    · set block := values.take codec.blocksize with hblock
      set last := (blockDiffs codec.nbits lastpix block).2 with hlastdef
      have hcount : block.length = min codec.blocksize values.length := List.length_take ..
      have hwhole : block ++ values.drop codec.blocksize = values := List.take_append_drop ..
      obtain ⟨bo₁, hok₁, hsound₁, hbits₁⟩ :=
        codec.appends_encodeBlock (blockDiffs codec.nbits lastpix block).1 hbo
      obtain ⟨bits, happends, hdecode⟩ := ih (values.drop codec.blocksize).length
        (by rw [List.length_drop]; omega) last hsound₁
        (fun v hv => hvalues v (List.mem_of_mem_drop hv))
        (codec.blockDiffs_last_lt block hlast) rfl
      refine ⟨codec.blockBits (blockDiffs codec.nbits lastpix block).1 ++ bits, ?_, ?_⟩
      · obtain ⟨bo₂, hok₂, hsound₂, hbits₂⟩ := happends
        refine ⟨bo₂, ?_, hsound₂, by rw [hbits₂, hbits₁, List.append_assoc]⟩
        rw [encodeBlocks, dif_neg hempty, dif_neg hsize]
        simp only [← hblock, hok₁, bind, Except.bind, ← hlastdef, hok₂]
      · intro br tail hready hrest
        rw [List.append_assoc] at hrest
        obtain ⟨br₁, hread, hready₁, hrest₁⟩ := codec.decodeBlock_gives
          (fun v hv => hvalues v (List.mem_of_mem_take hv)) hlast hready hrest
        have htail := hdecode br₁ tail hready₁ hrest₁
        rw [hcount, hlength] at hread
        rw [List.length_drop, hlength] at htail
        rw [decodeBlocks, dif_neg (by omega), dif_neg hsize]
        simp only [hread, bind, Except.bind]
        change codec.decodeBlocks br₁ (blockDiffs codec.nbits lastpix
          (values.take codec.blocksize)).2 (length - codec.blocksize) = _ at htail
        rw [htail]
        exact congrArg Except.ok hwhole

/-- A tile's samples are read back from the stream they are written to. -/
theorem Codec.decode_encode (codec : Codec) (hsize : 1 ≤ codec.blocksize) (values : List ℤ)
    (hvalues : ∀ value ∈ values, codec.bytepix.Holds value) :
    ∃ bytes, codec.encode values = .ok bytes ∧
      codec.decode bytes values.length = .ok values := by
  have hfirst := codec.pixel_lt (values.headD 0)
  set first := codec.pixel (values.headD 0) with hfirstdef
  have hstart : BitOutput.Sound ⟨[], 0, 0⟩ := ⟨by simp only; decide, fun i _ => by simp⟩
  obtain ⟨bo₁, hok₁, hsound₁, hbits₁⟩ :=
    BitOutput.appends_outputNbits first hstart codec.nbits_le
  obtain ⟨bits, ⟨bo₂, hok₂, hsound₂, hbits₂⟩, hdecode⟩ :=
    codec.encodeBlocks_decodeBlocks (by omega) first hsound₁ hvalues hfirst
  obtain ⟨padding, hfinish⟩ := BitOutput.byteBits_finish hsound₂
  refine ⟨bo₂.finish, ?_, ?_⟩
  · change (do
      let bo ← BitOutput.outputNbits ⟨[], 0, 0⟩ first codec.nbits
      let bo ← codec.encodeBlocks bo first values
      .ok bo.finish) = _
    simp only [hok₁, bind, Except.bind, hok₂]
  · unfold decode
    split
    · rename_i hempty
      rw [List.length_eq_zero_iff.mp hempty]
    · have hnobits : BitOutput.bits ⟨[], 0, 0⟩ = [] := rfl
      have hrest : BitReader.rest ⟨bo₂.finish, 0, 0, 0⟩ =
          natBits codec.nbits first.toNat ++ (bits ++ padding) := by
        rw [hbits₂, hbits₁, hnobits, List.nil_append, List.append_assoc] at hfinish
        exact hfinish
      obtain ⟨br₁, hread, hready₁, hrest₁⟩ := BitReader.read_gives (BitReader.ready_start _)
        codec.nbits_le hfirst hrest
      simp only [hread, bind, Except.bind]
      exact hdecode br₁ padding hready₁ hrest₁

end FitsWell.Rice
