import FitsWell.Compression.HcompressGrid
import FitsWell.Compression.HcompressHaar

/-!
# A level's step on a block

The levels are numbered from the finest, and the constants of one are powers of two in its
number. On values that are multiples of the level's input unit a forward step gives the
rounded sums and differences in the level's unit, a missing value counting as the one the
block repeats at the edge; an inverse step gives back the values of those.
-/

namespace FitsWell.Hcompress

/-! ## Constants -/

/-- The constants of the level `k` of the forward transform. -/
def forwardLevel (k : ℕ) : ForwardLevel :=
  ⟨if k = 0 then 0 else 1, -2 ^ (k + 1), -2 ^ (k + 2), 2 ^ k, 2 ^ (k + 1), 2 ^ (k + 1) - 1⟩

theorem forwardLevel_zero : forwardLevel 0 = ForwardLevel.first := rfl

theorem forwardLevel_next (k : ℕ) : (forwardLevel k).next = forwardLevel (k + 1) := by
  simp only [forwardLevel, ForwardLevel.next, ForwardLevel.mk.injEq, if_neg (Nat.succ_ne_zero k)]
  refine ⟨trivial, trivial, ?_, trivial, ?_, ?_⟩ <;> ring

/-- The constants of the level `k` of the inverse transform, before the last level is set
apart. -/
def coarseLevel (k : ℕ) : InverseLevel :=
  ⟨1, 2 ^ k, 2 ^ (k + 1), -2 ^ k, -2 ^ (k + 1), 2 ^ k / 2, 2 ^ k, 2 ^ k / 2 - 1, 2 ^ k - 1⟩

/-- The constants of the level `k` of the inverse transform. -/
def inverseLevel (k : ℕ) : InverseLevel := (coarseLevel k).at k

theorem halve_two_pow (k : ℕ) : (2 : ℤ) ^ (k + 1) / 2 = 2 ^ k := by
  rw [pow_succ]
  omega

theorem coarseLevel_first (k : ℕ) : InverseLevel.first (k + 1) = coarseLevel k := by
  simp only [InverseLevel.first, coarseLevel, Nat.add_sub_cancel, Int.shiftRight_eq_div_pow,
    InverseLevel.mk.injEq, true_and]
  have hhalf := halve_two_pow k
  rw [pow_succ] at hhalf ⊢
  refine ⟨?_, ?_, ?_, ?_, ?_⟩ <;> omega

theorem inverseLevel_next (k : ℕ) : (inverseLevel (k + 1)).next = coarseLevel k := by
  have hhalf := halve_two_pow k
  have hneg : -(2 : ℤ) ^ (k + 1) / 2 = -2 ^ k := by
    rw [pow_succ]
    omega
  simp only [inverseLevel, InverseLevel.at, if_neg (Nat.succ_ne_zero k), coarseLevel,
    InverseLevel.next, Int.shiftRight_eq_div_pow, pow_one, hhalf, Nat.cast_ofNat, hneg]

/-- The unit of a level's sums and differences. -/
def unit (k : ℕ) : ℤ := 2 ^ k

/-- The unit of the values a level takes: its input is not halved at the finest one. -/
def inputUnit (k : ℕ) : ℤ := if k = 0 then 1 else 2 ^ (k + 1)

theorem unit_pos (k : ℕ) : 0 < unit k := by
  unfold unit
  positivity

theorem inputUnit_pos (k : ℕ) : 0 < inputUnit k := by
  unfold inputUnit
  split <;> positivity

/-- A level's sums are multiples of the next one's input unit. -/
theorem inputUnit_succ (k : ℕ) : inputUnit (k + 1) = 4 * unit k := by
  rw [inputUnit, if_neg (Nat.succ_ne_zero k), unit]
  ring

/-! ## Checks -/

theorem checkedTransformValue_ok {v w : ℤ} (h : checkedTransformValue v = .ok w) :
    FitsI64 v ∧ w = v := by
  unfold checkedTransformValue at h
  split at h
  · rename_i hfit
    exact ⟨hfit, (Except.ok.inj h).symm⟩
  · cases h

theorem decodedCoefficient_ok {v w : ℤ} (h : decodedCoefficient v = .ok w) :
    FitsI64 v ∧ w = v := by
  unfold decodedCoefficient at h
  split at h
  · rename_i hfit
    exact ⟨hfit, (Except.ok.inj h).symm⟩
  · cases h

theorem decodedCoefficient_of_fits {v : ℤ} (h : FitsI64 v) : decodedCoefficient v = .ok v :=
  if_pos h

/-- A checked rounding is to a multiple of the mask's power of two. -/
theorem roundedTransformValue_ok {v rounding w : ℤ} {m : ℕ} (hm : m < 63)
    (h : roundedTransformValue v rounding (-2 ^ m) = .ok w) :
    FitsI64 w ∧ w = (v + rounding) / 2 ^ m * 2 ^ m := by
  obtain ⟨a, ha, h⟩ := Loops.ok_of_bind h
  obtain ⟨hfit, rfl⟩ := checkedTransformValue_ok ha
  have hw := Except.ok.inj h
  rw [and64_neg_two_pow hfit hm] at hw
  rw [← hw]
  exact ⟨fitsI64_round hfit hm, rfl⟩

section Forward

variable {k : ℕ}

/-- A level's rounding of a difference, in its unit. -/
theorem roundDifference_ok (hk : k ≤ 60) {s w : ℤ}
    (h : (forwardLevel k).roundDifference (unit k * s) = .ok w) :
    FitsI64 w ∧ w = unit k * roundDifference s := by
  have hpos := unit_pos k
  obtain ⟨hfit, hw⟩ := roundedTransformValue_ok (show k + 1 < 63 by omega) h
  refine ⟨hfit, hw.trans ?_⟩
  have hmask : (2 : ℤ) ^ (k + 1) = unit k * 2 := by
    rw [unit, pow_succ]
  have hsign : 0 ≤ unit k * s ↔ 0 ≤ s := by
    constructor
    · exact fun hs => Int.nonneg_of_mul_nonneg_right hs hpos
    · exact fun hs => Int.mul_nonneg hpos.le hs
  rw [hmask]
  unfold roundDifference
  by_cases hs : 0 ≤ s
  · rw [if_pos (hsign.mpr hs), if_pos hs]
    have hsum : unit k * s + (forwardLevel k).prnd = unit k * (s + 1) := by
      simp only [forwardLevel, unit]
      ring
    rw [hsum, Int.mul_ediv_mul_of_pos _ _ hpos]
    ring
  · rw [if_neg (hsign.not.mpr hs), if_neg hs, Int.add_zero, Int.mul_ediv_mul_of_pos _ _ hpos]
    ring

/-- A level's rounding of a sum, in its unit. -/
theorem roundSum_ok (hk : k ≤ 60) {s w : ℤ}
    (h : (forwardLevel k).roundSum (unit k * s) = .ok w) :
    FitsI64 w ∧ w = unit k * roundSum s := by
  have hpos := unit_pos k
  obtain ⟨hfit, hw⟩ := roundedTransformValue_ok (show k + 2 < 63 by omega) h
  refine ⟨hfit, hw.trans ?_⟩
  have hmask : (2 : ℤ) ^ (k + 2) = unit k * 4 := by
    rw [unit, pow_add]
    norm_num
  have hsign : 0 ≤ unit k * s ↔ 0 ≤ s := by
    constructor
    · exact fun hs => Int.nonneg_of_mul_nonneg_right hs hpos
    · exact fun hs => Int.mul_nonneg hpos.le hs
  rw [hmask]
  unfold roundSum
  by_cases hs : 0 ≤ s
  · rw [if_pos (hsign.mpr hs), if_pos hs]
    have hsum : unit k * s + (forwardLevel k).prnd2 = unit k * (s + 2) := by
      simp only [forwardLevel, unit]
      ring
    rw [hsum, Int.mul_ediv_mul_of_pos _ _ hpos]
    ring
  · -- The constant of a negative sum is one short of two units, which rounds down to one.
    rw [if_neg (hsign.not.mpr hs), if_neg hs]
    have hsum : (unit k * s + (forwardLevel k).nrnd2) / unit k = s + 1 := by
      have hsplit : unit k * s + (forwardLevel k).nrnd2 = unit k - 1 + unit k * (s + 1) := by
        simp only [forwardLevel, unit]
        ring
      rw [hsplit, Int.add_mul_ediv_left _ _ hpos.ne',
        Int.ediv_eq_zero_of_lt (by omega) (by omega), Int.zero_add]
    rw [← Int.ediv_ediv_of_nonneg hpos.le, hsum]
    ring

end Forward

/-! ## Blocks at an edge -/

/-- A block's values times a unit. -/
def Quad.scale (u : ℤ) (q : Quad ℤ) : Quad ℤ := ⟨u * q.s00, u * q.s01, u * q.s10, u * q.s11⟩

/-- The values of a block inside the plane, zero for the others. -/
def Block.masked (block : Block) (q : Quad ℤ) : Quad ℤ :=
  ⟨q.s00, if block.right then q.s01 else 0, if block.below then q.s10 else 0,
    if block.below && block.right then q.s11 else 0⟩

/-- The values of a block, those past an edge repeating the last ones inside. -/
def Block.extended (block : Block) (q : Quad ℤ) : Quad ℤ :=
  ⟨q.s00, if block.right then q.s01 else q.s00, if block.below then q.s10 else q.s00,
    if block.below then (if block.right then q.s11 else q.s10)
    else if block.right then q.s01 else q.s00⟩

/-- The shift of a forward level, in units. -/
theorem forward_shift (k : ℕ) (s : ℤ) :
    (inputUnit k * s) >>> (forwardLevel k).shift = unit k * s ∧
    inputUnit k * s * 2 ^ (1 - (forwardLevel k).shift) = unit k * (2 * s) ∧
    inputUnit k * s * 2 ^ (2 - (forwardLevel k).shift) = unit k * (4 * s) := by
  rw [Int.shiftRight_eq_div_pow]
  cases k with
  | zero => simp [inputUnit, unit, forwardLevel, Int.mul_comm]
  | succ k =>
    simp only [inputUnit, unit, forwardLevel, if_neg (Nat.succ_ne_zero k)]
    refine ⟨?_, ?_, ?_⟩
    · rw [show (2 : ℤ) ^ (k + 1 + 1) * s = 2 ^ (k + 1) * s * 2 by ring]
      exact Int.mul_ediv_cancel _ (by norm_num)
    · norm_num
      ring
    · norm_num
      ring

/-- The sums and the differences the forward step of a block goes through are in range. -/
structure ForwardFits (u : ℤ) (s : Quad ℤ) : Prop where
  sum : FitsI64 (u * s.s00)
  column : FitsI64 (u * s.s01)
  row : FitsI64 (u * s.s10)
  curvature : FitsI64 (u * s.s11)
  roundedSum : FitsI64 (u * roundSum s.s00)
  roundedColumn : FitsI64 (u * roundDifference s.s01)
  roundedRow : FitsI64 (u * roundDifference s.s10)

theorem fitsI64_zero : FitsI64 0 := by decide

/-- A forward step on a block, in units. -/
theorem forward_block {k : ℕ} (hk : k ≤ 60) {block : Block} {x q : Quad ℤ}
    (h : (forwardLevel k).block block (block.masked (x.scale (inputUnit k))) = .ok q) :
    q = block.masked ((block.extended x).haar.rounded.scale (unit k)) ∧
      ForwardFits (unit k) (block.extended x).haar := by
  obtain ⟨index, row, col, below, right⟩ := block
  obtain ⟨x00, x01, x10, x11⟩ := x
  cases below <;> cases right
  · -- the corner of two odd edges
    obtain ⟨h0, hh0, h⟩ := Loops.ok_of_bind h
    obtain ⟨v00, hv00, h⟩ := Loops.ok_of_bind h
    obtain ⟨hfit, rfl⟩ := checkedTransformValue_ok hh0
    have he0 : inputUnit k * x00 * 2 ^ (2 - (forwardLevel k).shift) =
        unit k * (x00 + x00 + x00 + x00) := by
      rw [(forward_shift k _).2.2]
      ring
    simp only [Block.masked, Quad.scale, he0] at hv00 hfit
    obtain ⟨hround, rfl⟩ := roundSum_ok hk hv00
    refine ⟨(Except.ok.inj h).symm.trans ?_, ?_⟩
    · simp [Block.masked, Block.extended, Quad.scale, Quad.rounded, Quad.haar]
    · constructor <;>
        simp [Block.extended, Quad.haar, roundDifference, hfit, hround, fitsI64_zero]
  · -- an odd last row
    obtain ⟨h0, hh0, h⟩ := Loops.ok_of_bind h
    obtain ⟨hy, hhy, h⟩ := Loops.ok_of_bind h
    obtain ⟨v01, hv01, h⟩ := Loops.ok_of_bind h
    obtain ⟨v00, hv00, h⟩ := Loops.ok_of_bind h
    obtain ⟨hfit0, rfl⟩ := checkedTransformValue_ok hh0
    obtain ⟨hfity, rfl⟩ := checkedTransformValue_ok hhy
    have he0 : (inputUnit k * x01 + inputUnit k * x00) * 2 ^ (1 - (forwardLevel k).shift) =
        unit k * (x01 + x00 + x01 + x00) := by
      rw [← mul_add, (forward_shift k _).2.1]
      ring
    have hey : (inputUnit k * x01 - inputUnit k * x00) * 2 ^ (1 - (forwardLevel k).shift) =
        unit k * (x01 - x00 + x01 - x00) := by
      rw [← mul_sub, (forward_shift k _).2.1]
      ring
    simp only [Block.masked, Quad.scale, he0, hey, if_true] at hv00 hv01 hfit0 hfity
    obtain ⟨hround0, rfl⟩ := roundSum_ok hk hv00
    obtain ⟨hroundy, rfl⟩ := roundDifference_ok hk hv01
    refine ⟨(Except.ok.inj h).symm.trans ?_, ?_⟩
    · simp [Block.masked, Block.extended, Quad.scale, Quad.rounded, Quad.haar]
    · constructor <;>
        simp [Block.extended, Quad.haar, roundDifference, hfit0, hfity, hround0, fitsI64_zero]
      simpa [roundDifference] using hroundy
  · -- an odd last column
    obtain ⟨h0, hh0, h⟩ := Loops.ok_of_bind h
    obtain ⟨hx, hhx, h⟩ := Loops.ok_of_bind h
    obtain ⟨v10, hv10, h⟩ := Loops.ok_of_bind h
    obtain ⟨v00, hv00, h⟩ := Loops.ok_of_bind h
    obtain ⟨hfit0, rfl⟩ := checkedTransformValue_ok hh0
    obtain ⟨hfitx, rfl⟩ := checkedTransformValue_ok hhx
    have he0 : (inputUnit k * x10 + inputUnit k * x00) * 2 ^ (1 - (forwardLevel k).shift) =
        unit k * (x10 + x10 + x00 + x00) := by
      rw [← mul_add, (forward_shift k _).2.1]
      ring
    have hex : (inputUnit k * x10 - inputUnit k * x00) * 2 ^ (1 - (forwardLevel k).shift) =
        unit k * (x10 + x10 - x00 - x00) := by
      rw [← mul_sub, (forward_shift k _).2.1]
      ring
    simp only [Block.masked, Quad.scale, he0, hex, if_true] at hv00 hv10 hfit0 hfitx
    obtain ⟨hround0, rfl⟩ := roundSum_ok hk hv00
    obtain ⟨hroundx, rfl⟩ := roundDifference_ok hk hv10
    refine ⟨(Except.ok.inj h).symm.trans ?_, ?_⟩
    · simp [Block.masked, Block.extended, Quad.scale, Quad.rounded, Quad.haar]
    · constructor <;>
        simp [Block.extended, Quad.haar, roundDifference, hfit0, hfitx, hround0, fitsI64_zero]
      simpa [roundDifference] using hroundx
  · -- a whole block
    obtain ⟨h0, hh0, h⟩ := Loops.ok_of_bind h
    obtain ⟨hx, hhx, h⟩ := Loops.ok_of_bind h
    obtain ⟨hy, hhy, h⟩ := Loops.ok_of_bind h
    obtain ⟨hc, hhc, h⟩ := Loops.ok_of_bind h
    obtain ⟨v10, hv10, h⟩ := Loops.ok_of_bind h
    obtain ⟨v01, hv01, h⟩ := Loops.ok_of_bind h
    obtain ⟨v00, hv00, h⟩ := Loops.ok_of_bind h
    obtain ⟨hfit0, rfl⟩ := checkedTransformValue_ok hh0
    obtain ⟨hfitx, rfl⟩ := checkedTransformValue_ok hhx
    obtain ⟨hfity, rfl⟩ := checkedTransformValue_ok hhy
    obtain ⟨hfitc, rfl⟩ := checkedTransformValue_ok hhc
    simp only [Block.masked, Quad.scale, Bool.and_self, if_true, ← mul_add, ← mul_sub,
      (forward_shift k _).1] at hv00 hv01 hv10 hfit0 hfitx hfity hfitc h
    obtain ⟨hround0, rfl⟩ := roundSum_ok hk hv00
    obtain ⟨hroundy, rfl⟩ := roundDifference_ok hk hv01
    obtain ⟨hroundx, rfl⟩ := roundDifference_ok hk hv10
    have hec : (inputUnit k * x11 - inputUnit k * x10 - inputUnit k * x01 + inputUnit k * x00) >>>
        (forwardLevel k).shift = unit k * (x11 - x10 - x01 + x00) := by
      rw [← mul_sub, ← mul_sub, ← mul_add, (forward_shift k _).1]
    refine ⟨(Except.ok.inj h).symm.trans ?_, ?_⟩
    · simp [Block.masked, Block.extended, Quad.scale, Quad.rounded, Quad.haar, hec]
    · exact ⟨hfit0, hfity, hfitx, hfitc, hround0, hroundy, hroundx⟩

/-! ## Inverse steps -/

section Inverse

variable {k : ℕ}

@[simp] theorem inverseLevel_bit0 (k : ℕ) : (inverseLevel k).bit0 = 2 ^ k := by
  unfold inverseLevel InverseLevel.at
  split <;> rfl

@[simp] theorem inverseLevel_bit1 (k : ℕ) : (inverseLevel k).bit1 = 2 ^ (k + 1) := by
  unfold inverseLevel InverseLevel.at
  split <;> rfl

theorem inverseLevel_shift (k : ℕ) : (inverseLevel k).shift = if k = 0 then 2 else 1 := by
  unfold inverseLevel InverseLevel.at
  split <;> rfl

/-- A level's rounding of the sums of rows and columns to multiples of two units. -/
def roundRow (k : ℕ) (v : ℤ) : Outcome ℤ :=
  roundSigned v (inverseLevel k).prnd1 (inverseLevel k).nrnd1 (inverseLevel k).mask1

/-- A level's rounding of a curvature to a multiple of its unit. -/
def roundCurvature (k : ℕ) (v : ℤ) : Outcome ℤ :=
  roundSigned v (inverseLevel k).prnd0 (inverseLevel k).nrnd0 (inverseLevel k).mask0

/-- The values of an inverse step round to those of `r`, in units. -/
structure InverseRounds (k : ℕ) (block : Block) (q r : Quad ℤ) : Prop where
  isRounded : r.IsRounded
  sum : q.s00 = unit k * r.s00
  row : block.below = true → roundRow k q.s10 = .ok (unit k * r.s10)
  column : block.right = true → roundRow k q.s01 = .ok (unit k * r.s01)
  curvature : (block.below && block.right) = true → roundCurvature k q.s11 = .ok (unit k * r.s11)

theorem nonneg_unit_mul (k : ℕ) (d : ℤ) : 0 ≤ unit k * d ↔ 0 ≤ d := by
  have hpos := unit_pos k
  constructor
  · exact fun hd => Int.nonneg_of_mul_nonneg_right hd hpos
  · exact fun hd => Int.mul_nonneg hpos.le hd

/-- The lowest digit of a value, in units. -/
theorem and64_unit (hk : k ≤ 60) (c : ℤ) : and64 (unit k * c) (2 ^ k) = unit k * (c % 2) := by
  rw [and64_two_pow (by omega), unit, Int.mul_ediv_cancel_left _ (by positivity), Int.mul_comm]

/-- The next digit of a value, in units. -/
theorem and64_unit_succ (hk : k ≤ 60) (c : ℤ) :
    and64 (unit k * c) (2 ^ (k + 1)) = unit k * (2 * (c / 2 % 2)) := by
  rw [and64_two_pow (by omega), pow_succ, unit, Int.mul_ediv_mul_of_pos _ _ (by positivity)]
  ring

/-- The parity of the next digits of three values, in units. -/
theorem and64_xor64_unit (hk : k ≤ 60) (c x y : ℤ) :
    and64 (xor64 (xor64 (unit k * c) (unit k * x)) (unit k * y)) (2 ^ (k + 1)) =
      unit k * (2 * ((c / 2 + x / 2 + y / 2) % 2)) := by
  have hhalf : ∀ d : ℤ, unit k * d / 2 ^ (k + 1) = d / 2 := by
    intro d
    rw [pow_succ, unit, Int.mul_ediv_mul_of_pos _ _ (by positivity)]
  rw [and64_two_pow (by omega), digit_xor64 _ _ (by omega), Int.add_emod,
    digit_xor64 _ _ (by omega), hhalf, hhalf, hhalf, ← Int.add_emod, pow_succ, unit]
  ring

/-- A value of an inverse step, in units. -/
theorem inverse_shift {s v : ℤ} (h : s = 4 * v) :
    (unit k * s) >>> (inverseLevel k).shift = inputUnit k * v := by
  rw [Int.shiftRight_eq_div_pow, inverseLevel_shift, h]
  cases k with
  | zero => simp [inputUnit, unit]
  | succ k =>
    rw [if_neg (Nat.succ_ne_zero k), inputUnit, if_neg (Nat.succ_ne_zero k), unit,
      show (2 : ℤ) ^ (k + 1) * (4 * v) = 2 ^ (k + 1 + 1) * v * 2 by ring]
    exact Int.mul_ediv_cancel _ (by norm_num)

/-- The restored sums and differences of a block are four times the values' combinations. -/
theorem restored_combinations {r : Quad ℤ} (h : r.IsRounded) :
    r.restored.s00 + r.restored.s10 + r.restored.s01 + r.restored.s11 =
        4 * r.restored.unhaar.s11 ∧
      r.restored.s00 + r.restored.s10 - r.restored.s01 - r.restored.s11 =
        4 * r.restored.unhaar.s10 ∧
      r.restored.s00 - r.restored.s10 + r.restored.s01 - r.restored.s11 =
        4 * r.restored.unhaar.s01 ∧
      r.restored.s00 - r.restored.s10 - r.restored.s01 + r.restored.s11 =
        4 * r.restored.unhaar.s00 := by
  have hall := Quad.haar_unhaar_restored h
  generalize r.restored.unhaar = v at hall ⊢
  rw [← hall]
  simp only [Quad.haar]
  refine ⟨?_, ?_, ?_, ?_⟩ <;> ring

/-- The values an inverse step restores, in the level's input unit. -/
def Block.inverseValues (block : Block) (k : ℕ) (r : Quad ℤ) : Quad ℤ :=
  block.masked ((block.masked r).restored.unhaar.scale (inputUnit k))

/-- The checks of an inverse step: its restored sum and the values inside the plane. -/
structure InverseFits (k : ℕ) (block : Block) (r : Quad ℤ) : Prop where
  sum : FitsI64 (unit k * (block.masked r).restored.s00)
  corner : FitsI64 (block.inverseValues k r).s00
  right : FitsI64 (block.inverseValues k r).s01
  below : FitsI64 (block.inverseValues k r).s10
  opposite : FitsI64 (block.inverseValues k r).s11

/-- A difference less its parity's part, in units. -/
theorem unit_mul_restoreDifference (k : ℕ) (d p : ℤ) :
    (if 0 ≤ unit k * d then unit k * d - unit k * p else unit k * d + unit k * p) =
      unit k * restoreDifference d p := by
  simp only [nonneg_unit_mul, restoreDifference]
  split <;> ring

/-- A rounded difference less a digit of its place, on the side of zero, does not
overflow. -/
theorem takeDigit_ok (hk : k ≤ 60) {v c : ℤ} (hv : FitsI64 v) :
    checkI64 (if 0 ≤ v then v - and64 c (2 ^ k) else v + and64 c (2 ^ k)) =
      .ok (if 0 ≤ v then v - and64 c (2 ^ k) else v + and64 c (2 ^ k)) := by
  have hle : (2 : ℤ) ^ k ≤ 2 ^ 60 := pow_le_pow_right₀ (by norm_num) hk
  have hdigit : 0 ≤ and64 c (2 ^ k) ∧ and64 c (2 ^ k) ≤ 2 ^ 60 := by
    rw [and64_two_pow (by omega)]
    rcases Int.emod_two_eq (c / 2 ^ k) with h | h <;> rw [h] <;> constructor <;>
      first | positivity | linarith
  apply checkI64_of_fits
  obtain ⟨hlow, hhigh⟩ := hv
  split <;> constructor <;> omega

/-- A rounding gives an `i64`. -/
theorem roundSigned_fits {v prnd nrnd mask w : ℤ} (h : roundSigned v prnd nrnd mask = .ok w) :
    FitsI64 w := by
  obtain ⟨a, -, h⟩ := Loops.ok_of_bind h
  rw [← Except.ok.inj h]
  exact fitsI64_and64 _ _

/-- A sum with its lowest digits restored, in units. -/
theorem unit_mul_restoreSum (k : ℕ) (s p t : ℤ) :
    (unit k * s + if 0 ≤ unit k * s then unit k * p - unit k * (2 * t)
      else if unit k * p = 0 then unit k * (2 * t) else unit k * p - unit k * (2 * t)) =
      unit k * restoreSum s p t := by
  have hzero : unit k * p = 0 ↔ p = 0 := by
    simp [(unit_pos k).ne']
  simp only [nonneg_unit_mul, hzero, restoreSum]
  split
  · ring
  · split <;> ring

/-- An inverse step on a whole block is its checks on the restored values. -/
theorem inverse_block_whole (hk : k ≤ 60) {block : Block} (hbelow : block.below = true)
    (hright : block.right = true) {q r : Quad ℤ} (h : InverseRounds k block q r) :
    (inverseLevel k).block block q = (do
      let _ ← decodedCoefficient (unit k * r.restored.s00)
      let s11 ← decodedCoefficient (inputUnit k * r.restored.unhaar.s11)
      let s10 ← decodedCoefficient (inputUnit k * r.restored.unhaar.s10)
      let s01 ← decodedCoefficient (inputUnit k * r.restored.unhaar.s01)
      let s00 ← decodedCoefficient (inputUnit k * r.restored.unhaar.s00)
      .ok ⟨s00, s01, s10, s11⟩) := by
  obtain ⟨hrounded, hsum, hrow, hcolumn, hcurvature⟩ := h
  have hx := hrow hbelow
  have hy := hcolumn hright
  have hc := hcurvature (by rw [hbelow, hright]; rfl)
  rw [roundRow] at hx hy
  rw [roundCurvature] at hc
  obtain ⟨h11, h10, h01, h00⟩ := restored_combinations hrounded
  have hvalue : ∀ (h0 hx hy hc sx sy sc v : ℤ), h0 + hx * sx + hy * sy + hc * sc = 4 * v →
      inverseCoefficient (unit k * h0) (unit k * hx) (unit k * hy) (unit k * hc)
        (inverseLevel k).shift sx sy sc = decodedCoefficient (inputUnit k * v) := by
    intro h0 hx hy hc sx sy sc v hv
    rw [inverseCoefficient, ← inverse_shift hv]
    congr 2
    ring
  unfold InverseLevel.block
  rw [hbelow, hright]
  dsimp only
  rw [Loops.bind_ok hx, Loops.bind_ok hy, Loops.bind_ok hc, inverseLevel_bit0, inverseLevel_bit1]
  rw [Loops.bind_ok (takeDigit_ok hk (roundSigned_fits hx)),
    Loops.bind_ok (takeDigit_ok hk (roundSigned_fits hy))]
  simp only [and64_unit hk, unit_mul_restoreDifference, and64_xor64_unit hk, hsum,
    unit_mul_restoreSum]
  change ((do
    let h0 ← decodedCoefficient (unit k * r.restored.s00)
    let s11 ← inverseCoefficient h0 (unit k * r.restored.s10) (unit k * r.restored.s01)
      (unit k * r.restored.s11) (inverseLevel k).shift 1 1 1
    let s10 ← inverseCoefficient h0 (unit k * r.restored.s10) (unit k * r.restored.s01)
      (unit k * r.restored.s11) (inverseLevel k).shift 1 (-1) (-1)
    let s01 ← inverseCoefficient h0 (unit k * r.restored.s10) (unit k * r.restored.s01)
      (unit k * r.restored.s11) (inverseLevel k).shift (-1) 1 (-1)
    let s00 ← inverseCoefficient h0 (unit k * r.restored.s10) (unit k * r.restored.s01)
      (unit k * r.restored.s11) (inverseLevel k).shift (-1) (-1) 1
    .ok ⟨s00, s01, s10, s11⟩) : Outcome (Quad ℤ)) = _
  by_cases hfit : FitsI64 (unit k * r.restored.s00)
  · have hok := decodedCoefficient_of_fits hfit
    rw [Loops.bind_ok hok, Loops.bind_ok hok, hvalue _ _ _ _ 1 1 1 _ (by rw [← h11]; ring),
      hvalue _ _ _ _ 1 (-1) (-1) _ (by rw [← h10]; ring),
      hvalue _ _ _ _ (-1) 1 (-1) _ (by rw [← h01]; ring),
      hvalue _ _ _ _ (-1) (-1) 1 _ (by rw [← h00]; ring)]
  · have herror : decodedCoefficient (unit k * r.restored.s00) =
        fail HcompressDefect.coefficientOverflow.error := if_neg hfit
    rw [herror]
    rfl

/-- The values of a block of an odd edge: one difference restores the sum. -/
theorem inverse_edge (hk : k ≤ 60) {s d v w : ℤ} {α : Type} (hplus : restoreSum s 0 (d / 2 % 2) + d = 4 * v)
    (hminus : restoreSum s 0 (d / 2 % 2) - d = 4 * w) (f : ℤ → ℤ → α) :
    ((do
      let h0 ← decodedCoefficient (unit k * s +
        if 0 ≤ unit k * s then -and64 (unit k * d) (2 ^ (k + 1))
        else and64 (unit k * d) (2 ^ (k + 1)))
      let s10 ← decodedCoefficient ((h0 + unit k * d) >>> (inverseLevel k).shift)
      let s00 ← decodedCoefficient ((h0 - unit k * d) >>> (inverseLevel k).shift)
      .ok (f s00 s10)) : Outcome α) = (do
      let _ ← decodedCoefficient (unit k * restoreSum s 0 (d / 2 % 2))
      let s10 ← decodedCoefficient (inputUnit k * v)
      let s00 ← decodedCoefficient (inputUnit k * w)
      .ok (f s00 s10)) := by
  have hsum : (unit k * s + if 0 ≤ unit k * s then -and64 (unit k * d) (2 ^ (k + 1))
      else and64 (unit k * d) (2 ^ (k + 1))) = unit k * restoreSum s 0 (d / 2 % 2) := by
    rw [and64_unit_succ hk, ← unit_mul_restoreSum, Int.mul_zero, if_pos rfl, Int.zero_sub]
  rw [hsum]
  by_cases hfit : FitsI64 (unit k * restoreSum s 0 (d / 2 % 2))
  · have hok := decodedCoefficient_of_fits hfit
    rw [Loops.bind_ok hok, Loops.bind_ok hok, ← mul_add, ← mul_sub, inverse_shift hplus,
      inverse_shift hminus]
  · have herror : decodedCoefficient (unit k * restoreSum s 0 (d / 2 % 2)) =
        fail HcompressDefect.coefficientOverflow.error := if_neg hfit
    rw [herror]
    rfl

/-- An inverse step on a block of an odd last row is its checks on the restored values. -/
theorem inverse_block_row (hk : k ≤ 60) {block : Block} (hbelow : block.below = false)
    (hright : block.right = true) {q r : Quad ℤ} (hrow : r.s10 = 0) (hcurve : r.s11 = 0)
    (h : InverseRounds k block q r) :
    (inverseLevel k).block block q = (do
      let _ ← decodedCoefficient (unit k * r.restored.s00)
      let s01 ← decodedCoefficient (inputUnit k * r.restored.unhaar.s01)
      let s00 ← decodedCoefficient (inputUnit k * r.restored.unhaar.s00)
      .ok ⟨s00, s01, q.s10, q.s11⟩) := by
  obtain ⟨hrounded, hsum, -, hcolumn, -⟩ := h
  have hy := hcolumn hright
  rw [roundRow] at hy
  have hrestored : r.restored = ⟨restoreSum r.s00 0 (r.s01 / 2 % 2), r.s01, 0, 0⟩ := by
    simp [Quad.restored, hrow, hcurve, restoreDifference]
  obtain ⟨-, -, h01, h00⟩ := restored_combinations hrounded
  generalize r.restored.unhaar = v at h01 h00 ⊢
  simp only [hrestored] at h01 h00 ⊢
  unfold InverseLevel.block
  rw [hbelow, hright]
  dsimp only
  rw [Loops.bind_ok hy, hsum, inverseLevel_bit1]
  exact inverse_edge hk (by rw [← h01]; ring) (by rw [← h00]; ring)
    (fun s00 s01 => (⟨s00, s01, q.s10, q.s11⟩ : Quad ℤ))

/-- An inverse step on a block of an odd last column is its checks on the restored
values. -/
theorem inverse_block_column (hk : k ≤ 60) {block : Block} (hbelow : block.below = true)
    (hright : block.right = false) {q r : Quad ℤ} (hcolumn : r.s01 = 0) (hcurve : r.s11 = 0)
    (h : InverseRounds k block q r) :
    (inverseLevel k).block block q = (do
      let _ ← decodedCoefficient (unit k * r.restored.s00)
      let s10 ← decodedCoefficient (inputUnit k * r.restored.unhaar.s10)
      let s00 ← decodedCoefficient (inputUnit k * r.restored.unhaar.s00)
      .ok ⟨s00, q.s01, s10, q.s11⟩) := by
  obtain ⟨hrounded, hsum, hrow, -, -⟩ := h
  have hx := hrow hbelow
  rw [roundRow] at hx
  have hrestored : r.restored = ⟨restoreSum r.s00 0 (r.s10 / 2 % 2), 0, r.s10, 0⟩ := by
    simp [Quad.restored, hcolumn, hcurve, restoreDifference]
  obtain ⟨-, h10, -, h00⟩ := restored_combinations hrounded
  generalize r.restored.unhaar = v at h10 h00 ⊢
  simp only [hrestored] at h10 h00 ⊢
  unfold InverseLevel.block
  rw [hbelow, hright]
  dsimp only
  rw [Loops.bind_ok hx, hsum, inverseLevel_bit1]
  exact inverse_edge hk (by rw [← h10]; ring) (by rw [← h00]; ring)
    (fun s00 s10 => (⟨s00, q.s01, s10, q.s11⟩ : Quad ℤ))

/-- An inverse step on the corner of two odd edges takes its sum apart. -/
theorem inverse_block_corner {block : Block} (hbelow : block.below = false)
    (hright : block.right = false) {q r : Quad ℤ} (hrow : r.s10 = 0) (hcolumn : r.s01 = 0)
    (hcurve : r.s11 = 0) (h : InverseRounds k block q r) :
    (inverseLevel k).block block q =
      .ok ⟨inputUnit k * r.restored.unhaar.s00, q.s01, q.s10, q.s11⟩ := by
  obtain ⟨hrounded, hsum, -, -, -⟩ := h
  have hrestored : r.restored = ⟨r.s00, 0, 0, 0⟩ := by
    simp [Quad.restored, hrow, hcolumn, hcurve, restoreDifference, restoreSum]
  obtain ⟨-, -, -, h00⟩ := restored_combinations hrounded
  generalize r.restored.unhaar = v at h00 ⊢
  simp only [hrestored] at h00
  have hvalue : r.s00 = 4 * v.s00 := by rw [← h00]; ring
  unfold InverseLevel.block
  rw [hbelow, hright]
  dsimp only
  rw [hsum, inverse_shift hvalue]

/-- An inverse step that succeeds gives the restored values. -/
theorem inverse_block_ok (hk : k ≤ 60) {block : Block} {q q' r : Quad ℤ}
    (hq : block.masked q = q) (h : InverseRounds k block q (block.masked r))
    (hok : (inverseLevel k).block block q = .ok q') : q' = block.inverseValues k r := by
  obtain ⟨index, row, col, below, right⟩ := block
  obtain ⟨q00, q01, q10, q11⟩ := q
  cases below <;> cases right <;>
    simp only [Block.masked, Quad.mk.injEq, Bool.and_self, Bool.and_false, Bool.and_true,
      Bool.false_eq_true, if_true, if_false, true_and] at hq
  · obtain ⟨rfl, rfl, rfl⟩ := hq
    rw [inverse_block_corner rfl rfl rfl rfl rfl h] at hok
    exact (Except.ok.inj hok).symm
  · obtain ⟨rfl, rfl⟩ := hq
    rw [inverse_block_row hk rfl rfl rfl rfl h] at hok
    obtain ⟨_, -, hok⟩ := Loops.ok_of_bind hok
    obtain ⟨s01, h01, hok⟩ := Loops.ok_of_bind hok
    obtain ⟨s00, h00, hok⟩ := Loops.ok_of_bind hok
    obtain ⟨-, rfl⟩ := decodedCoefficient_ok h01
    obtain ⟨-, rfl⟩ := decodedCoefficient_ok h00
    exact (Except.ok.inj hok).symm
  · obtain ⟨rfl, rfl⟩ := hq
    rw [inverse_block_column hk rfl rfl rfl rfl h] at hok
    obtain ⟨_, -, hok⟩ := Loops.ok_of_bind hok
    obtain ⟨s10, h10, hok⟩ := Loops.ok_of_bind hok
    obtain ⟨s00, h00, hok⟩ := Loops.ok_of_bind hok
    obtain ⟨-, rfl⟩ := decodedCoefficient_ok h10
    obtain ⟨-, rfl⟩ := decodedCoefficient_ok h00
    exact (Except.ok.inj hok).symm
  · rw [inverse_block_whole hk rfl rfl h] at hok
    obtain ⟨_, -, hok⟩ := Loops.ok_of_bind hok
    obtain ⟨s11, h11, hok⟩ := Loops.ok_of_bind hok
    obtain ⟨s10, h10, hok⟩ := Loops.ok_of_bind hok
    obtain ⟨s01, h01, hok⟩ := Loops.ok_of_bind hok
    obtain ⟨s00, h00, hok⟩ := Loops.ok_of_bind hok
    obtain ⟨-, rfl⟩ := decodedCoefficient_ok h11
    obtain ⟨-, rfl⟩ := decodedCoefficient_ok h10
    obtain ⟨-, rfl⟩ := decodedCoefficient_ok h01
    obtain ⟨-, rfl⟩ := decodedCoefficient_ok h00
    exact (Except.ok.inj hok).symm

/-- An inverse step whose checks pass succeeds. -/
theorem inverse_block_total (hk : k ≤ 60) {block : Block} {q r : Quad ℤ}
    (hq : block.masked q = q) (h : InverseRounds k block q (block.masked r))
    (hfits : InverseFits k block r) :
    (inverseLevel k).block block q = .ok (block.inverseValues k r) := by
  obtain ⟨index, row, col, below, right⟩ := block
  obtain ⟨q00, q01, q10, q11⟩ := q
  obtain ⟨hsum, hcorner, hright, hbelow, hopposite⟩ := hfits
  cases below <;> cases right <;>
    simp only [Block.masked, Quad.mk.injEq, Bool.and_self, Bool.and_false, Bool.and_true,
      Bool.false_eq_true, if_true, if_false, true_and] at hq
  · obtain ⟨rfl, rfl, rfl⟩ := hq
    exact inverse_block_corner rfl rfl rfl rfl rfl h
  · obtain ⟨rfl, rfl⟩ := hq
    rw [inverse_block_row hk rfl rfl rfl rfl h, Loops.bind_ok (decodedCoefficient_of_fits hsum)]
    exact (Loops.bind_ok (decodedCoefficient_of_fits hright)).trans
      (Loops.bind_ok (decodedCoefficient_of_fits hcorner))
  · obtain ⟨rfl, rfl⟩ := hq
    rw [inverse_block_column hk rfl rfl rfl rfl h, Loops.bind_ok (decodedCoefficient_of_fits hsum)]
    exact (Loops.bind_ok (decodedCoefficient_of_fits hbelow)).trans
      (Loops.bind_ok (decodedCoefficient_of_fits hcorner))
  · rw [inverse_block_whole hk rfl rfl h]
    exact (Loops.bind_ok (decodedCoefficient_of_fits hsum)).trans
      ((Loops.bind_ok (decodedCoefficient_of_fits hopposite)).trans
        ((Loops.bind_ok (decodedCoefficient_of_fits hbelow)).trans
          ((Loops.bind_ok (decodedCoefficient_of_fits hright)).trans
            (Loops.bind_ok (decodedCoefficient_of_fits hcorner)))))

/-! ## Rounding of an inverse step -/

/-- A rounding that succeeds, to a multiple of a power of two. -/
theorem roundSigned_ok {v prnd nrnd w : ℤ} {m : ℕ} (hm : m < 63)
    (h : roundSigned v prnd nrnd (-2 ^ m) = .ok w) :
    w = (v + if 0 ≤ v then prnd else nrnd) / 2 ^ m * 2 ^ m := by
  obtain ⟨a, ha, h⟩ := Loops.ok_of_bind h
  obtain ⟨hfit, rfl⟩ := decodedCoefficient_ok ha
  rw [← Except.ok.inj h, and64_neg_two_pow hfit hm]

/-- A multiple of the mask's power of two is not changed by a rounding below it. -/
theorem roundSigned_multiple {d prnd nrnd : ℤ} {m : ℕ} (hm : m < 63) (hfit : FitsI64 (2 ^ m * d))
    (hprnd : 0 ≤ prnd ∧ prnd < 2 ^ m) (hnrnd : 0 ≤ nrnd ∧ nrnd < 2 ^ m) :
    roundSigned (2 ^ m * d) prnd nrnd (-2 ^ m) = .ok (2 ^ m * d) := by
  have hpos : (0 : ℤ) < 2 ^ m := by positivity
  have hrounding : ∀ e : ℤ, 0 ≤ e → e < 2 ^ m → FitsI64 (2 ^ m * d + e) ∧
      and64 (2 ^ m * d + e) (-2 ^ m) = 2 ^ m * d := by
    intro e he hlt
    -- the next multiple is at most the end of the range, which is a multiple too
    have hroom : d + 1 ≤ 2 ^ (63 - m) := by
      have hend : (2 : ℤ) ^ 63 = 2 ^ m * 2 ^ (63 - m) := by
        rw [← pow_add]
        congr 1
        omega
      have hlt : 2 ^ m * d < 2 ^ m * 2 ^ (63 - m) := hend ▸ hfit.2
      have := lt_of_mul_lt_mul_left hlt hpos.le
      omega
    have hnext : 2 ^ m * d + 2 ^ m ≤ 2 ^ 63 := by
      calc 2 ^ m * d + 2 ^ m = 2 ^ m * (d + 1) := by ring
        _ ≤ 2 ^ m * 2 ^ (63 - m) := Int.mul_le_mul_of_nonneg_left hroom hpos.le
        _ = 2 ^ 63 := by
          rw [← pow_add]
          congr 1
          omega
    have hsum : FitsI64 (2 ^ m * d + e) := ⟨by linarith [hfit.1], by linarith⟩
    refine ⟨hsum, ?_⟩
    rw [and64_neg_two_pow hsum hm, Int.add_comm, Int.add_mul_ediv_left _ _ hpos.ne',
      Int.ediv_eq_zero_of_lt he hlt, Int.zero_add, Int.mul_comm]
  unfold roundSigned
  split
  · obtain ⟨hsum, hand⟩ := hrounding prnd hprnd.1 hprnd.2
    rw [Loops.bind_ok (decodedCoefficient_of_fits hsum), hand]
  · obtain ⟨hsum, hand⟩ := hrounding nrnd hnrnd.1 hnrnd.2
    rw [Loops.bind_ok (decodedCoefficient_of_fits hsum), hand]

theorem roundRow_eq (k : ℕ) (v : ℤ) :
    roundRow k v = roundSigned v (2 ^ k) (2 ^ k - 1) (-2 ^ (k + 1)) := by
  unfold roundRow inverseLevel InverseLevel.at
  split <;> rfl

theorem roundCurvature_eq (k : ℕ) (v : ℤ) :
    roundCurvature k v =
      roundSigned v (2 ^ k / 2) (if k = 0 then 0 else 2 ^ k / 2 - 1) (-2 ^ k) := by
  unfold roundCurvature inverseLevel InverseLevel.at
  split <;> rfl

/-- A rounded difference is kept by its inverse step. -/
theorem roundRow_multiple (hk : k ≤ 60) {d : ℤ} (heven : d % 2 = 0) (hfit : FitsI64 (unit k * d)) :
    roundRow k (unit k * d) = .ok (unit k * d) := by
  obtain ⟨e, rfl⟩ : ∃ e, d = 2 * e := ⟨d / 2, by omega⟩
  have hpos := unit_pos k
  have hmask : unit k * (2 * e) = 2 ^ (k + 1) * e := by
    rw [unit]
    ring
  rw [hmask] at hfit ⊢
  rw [roundRow_eq]
  rw [unit] at hpos
  apply roundSigned_multiple (by omega) hfit
  · rw [pow_succ]
    constructor <;> omega
  · rw [pow_succ]
    constructor <;> omega

/-- A curvature is kept by its inverse step. -/
theorem roundCurvature_multiple (hk : k ≤ 60) {d : ℤ} (hfit : FitsI64 (unit k * d)) :
    roundCurvature k (unit k * d) = .ok (unit k * d) := by
  have hpos := unit_pos k
  rw [roundCurvature_eq]
  rw [unit] at hpos hfit ⊢
  apply roundSigned_multiple (by omega) hfit
  · constructor <;> omega
  · cases k with
    | zero => simp
    | succ k =>
      have hhalf := halve_two_pow k
      rw [if_neg (Nat.succ_ne_zero k)]
      constructor <;> omega

/-- A difference is rounded to an even multiple of the unit, by at most the unit. -/
theorem roundRow_near (hk : k ≤ 60) {v w : ℤ} (h : roundRow k v = .ok w) :
    ∃ d, d % 2 = 0 ∧ w = unit k * d ∧ |w - v| ≤ unit k := by
  rw [roundRow_eq] at h
  have hw := roundSigned_ok (by omega) h
  have hpos := unit_pos k
  refine ⟨(v + if 0 ≤ v then 2 ^ k else 2 ^ k - 1) / 2 ^ (k + 1) * 2, by omega, ?_, ?_⟩
  · rw [hw, unit, pow_succ]
    ring
  · have hmod := Int.emod_add_mul_ediv (v + if 0 ≤ v then (2 : ℤ) ^ k else 2 ^ k - 1) (2 ^ (k + 1))
    have hlow := Int.emod_nonneg (v + if 0 ≤ v then (2 : ℤ) ^ k else 2 ^ k - 1)
      (show (2 : ℤ) ^ (k + 1) ≠ 0 by positivity)
    have hhigh := Int.emod_lt_of_pos (v + if 0 ≤ v then (2 : ℤ) ^ k else 2 ^ k - 1)
      (show (0 : ℤ) < 2 ^ (k + 1) by positivity)
    rw [Int.mul_comm] at hmod
    rw [← hw] at hmod
    rw [unit] at hpos ⊢
    rw [pow_succ] at hhigh
    rw [abs_le]
    split at hmod <;> rename_i hsign <;> simp only [hsign, if_true, if_false] at hlow hhigh <;>
      constructor <;> omega

/-- A curvature is rounded to a multiple of the unit, by at most the unit. -/
theorem roundCurvature_near (hk : k ≤ 60) {v w : ℤ} (h : roundCurvature k v = .ok w) :
    ∃ d, w = unit k * d ∧ |w - v| ≤ unit k := by
  rw [roundCurvature_eq] at h
  have hw := roundSigned_ok (by omega) h
  have hpos := unit_pos k
  generalize hrnd : (if 0 ≤ v then (2 : ℤ) ^ k / 2 else if k = 0 then 0 else 2 ^ k / 2 - 1) = rnd
    at hw
  have hrange : -1 ≤ rnd ∧ rnd < 2 ^ k := by
    rw [unit] at hpos
    rw [← hrnd]
    split_ifs <;> constructor <;> omega
  refine ⟨(v + rnd) / 2 ^ k, ?_, ?_⟩
  · rw [hw, unit, Int.mul_comm]
  · have hmod := Int.emod_add_mul_ediv (v + rnd) (2 ^ k)
    have hlow := Int.emod_nonneg (v + rnd) (show (2 : ℤ) ^ k ≠ 0 by positivity)
    have hhigh := Int.emod_lt_of_pos (v + rnd) (show (0 : ℤ) < 2 ^ k by positivity)
    rw [Int.mul_comm, ← hw] at hmod
    rw [unit] at hpos ⊢
    rw [abs_le]
    constructor <;> omega

/-! ## The round trip of a block -/

theorem masked_rounded_extended (block : Block) (x : Quad ℤ) :
    block.masked (block.extended x).haar.rounded = (block.extended x).haar.rounded := by
  obtain ⟨index, row, col, below, right⟩ := block
  have hzero : roundDifference 0 = 0 := rfl
  cases below <;> cases right <;>
    simp [Block.masked, Block.extended, Quad.haar, Quad.rounded, hzero]

theorem masked_scale (block : Block) (u : ℤ) (q : Quad ℤ) :
    block.masked (q.scale u) = (block.masked q).scale u := by
  simp only [Block.masked, Quad.scale, Quad.mk.injEq]
  refine ⟨trivial, ?_, ?_, ?_⟩ <;> split <;> simp

theorem masked_extended (block : Block) (x : Quad ℤ) :
    block.masked (block.extended x) = block.masked x := by
  obtain ⟨index, row, col, below, right⟩ := block
  cases below <;> cases right <;> simp [Block.masked, Block.extended]

theorem masked_masked (block : Block) (q : Quad ℤ) :
    block.masked (block.masked q) = block.masked q := by
  obtain ⟨index, row, col, below, right⟩ := block
  cases below <;> cases right <;> simp [Block.masked]

/-- The inverse step of a block undoes the forward one. -/
theorem inverse_forward_block (hk : k ≤ 60) {block : Block} {x q : Quad ℤ}
    (hfits : (block.masked (x.scale (inputUnit k))).Forall FitsI64)
    (h : (forwardLevel k).block block (block.masked (x.scale (inputUnit k))) = .ok q) :
    (inverseLevel k).block block q = .ok (block.masked (x.scale (inputUnit k))) := by
  obtain ⟨hq, hforward⟩ := forward_block hk h
  have hmask := masked_rounded_extended block x
  rw [masked_scale, hmask] at hq
  have hrounded := Quad.isRounded_rounded (block.extended x).haar
  have hrounds : InverseRounds k block q (block.masked (block.extended x).haar.rounded) := by
    rw [hmask, hq]
    exact ⟨hrounded, rfl, fun _ => roundRow_multiple hk hrounded.row hforward.roundedRow,
      fun _ => roundRow_multiple hk hrounded.column hforward.roundedColumn,
      fun _ => roundCurvature_multiple hk hforward.curvature⟩
  have hvalues : block.inverseValues k (block.extended x).haar.rounded =
      block.masked (x.scale (inputUnit k)) := by
    rw [Block.inverseValues, hmask, Quad.restored_rounded_haar, Quad.unhaar_haar, masked_scale,
      masked_extended, masked_scale]
  have hself : block.masked q = q := by
    rw [hq, masked_scale, hmask]
  have hsum : FitsI64 (unit k *
      (block.masked (block.extended x).haar.rounded).restored.s00) := by
    rw [hmask, Quad.restored_rounded_haar]
    exact hforward.sum
  rw [inverse_block_total hk hself hrounds ⟨hsum, hvalues ▸ hfits.corner, hvalues ▸ hfits.right,
    hvalues ▸ hfits.below, hvalues ▸ hfits.opposite⟩, hvalues]

end Inverse

end FitsWell.Hcompress
