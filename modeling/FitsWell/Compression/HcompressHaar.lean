import FitsWell.Compression.HcompressTransform

/-!
# Sums and differences of a block

The arithmetic of one block in the unit of its level. The sum and the three differences
of four integers have one parity, and the next digit of the sum is the parity of the
differences' ones, so rounding the sum to a multiple of four and two of the differences
to multiples of two loses nothing.
-/

namespace FitsWell.Hcompress

/-- A difference rounded away from zero to a multiple of two. -/
def roundDifference (s : ℤ) : ℤ := if 0 ≤ s then (s + 1) / 2 * 2 else s / 2 * 2

/-- A sum rounded to a multiple of four. -/
def roundSum (s : ℤ) : ℤ := if 0 ≤ s then (s + 2) / 4 * 4 else (s + 1) / 4 * 4

/-- A difference from its rounded value and its parity. -/
def restoreDifference (d p : ℤ) : ℤ := if 0 ≤ d then d - p else d + p

/-- A sum from its rounded value and its two lowest digits. -/
def restoreSum (h p t : ℤ) : ℤ :=
  h + if 0 ≤ h then p - 2 * t else if p = 0 then 2 * t else p - 2 * t

theorem restoreDifference_round (s : ℤ) : restoreDifference (roundDifference s) (s % 2) = s := by
  unfold restoreDifference roundDifference
  split <;> split <;> omega

theorem restoreSum_round (s : ℤ) : restoreSum (roundSum s) (s % 2) (s / 2 % 2) = s := by
  unfold restoreSum roundSum
  split_ifs <;> omega

namespace Quad

/-- The sum and the differences of four values: the sum at the corner, the difference of
the rows below it, that of the columns beside it. -/
def haar (v : Quad ℤ) : Quad ℤ :=
  ⟨v.s11 + v.s10 + v.s01 + v.s00, v.s11 - v.s10 + v.s01 - v.s00,
    v.s11 + v.s10 - v.s01 - v.s00, v.s11 - v.s10 - v.s01 + v.s00⟩

/-- The sum and the differences rounded. -/
def rounded (s : Quad ℤ) : Quad ℤ :=
  ⟨roundSum s.s00, roundDifference s.s01, roundDifference s.s10, s.s11⟩

/-- The sum and the differences from the rounded ones: the last difference has the parity
of all. -/
def restored (q : Quad ℤ) : Quad ℤ :=
  let p := q.s11 % 2
  let x := restoreDifference q.s10 p
  let y := restoreDifference q.s01 p
  ⟨restoreSum q.s00 p ((q.s11 / 2 + x / 2 + y / 2) % 2), y, x, q.s11⟩

/-- The four values from their sum and differences. -/
def unhaar (s : Quad ℤ) : Quad ℤ :=
  ⟨(s.s00 - s.s10 - s.s01 + s.s11) / 4, (s.s00 - s.s10 + s.s01 - s.s11) / 4,
    (s.s00 + s.s10 - s.s01 - s.s11) / 4, (s.s00 + s.s10 + s.s01 + s.s11) / 4⟩

/-- Rounded values: a sum that is a multiple of four and two even differences. -/
structure IsRounded (q : Quad ℤ) : Prop where
  sum : q.s00 % 4 = 0
  column : q.s01 % 2 = 0
  row : q.s10 % 2 = 0

theorem isRounded_rounded (s : Quad ℤ) : s.rounded.IsRounded := by
  constructor
  · simp only [rounded, roundSum]
    split <;> omega
  · simp only [rounded, roundDifference]
    split <;> omega
  · simp only [rounded, roundDifference]
    split <;> omega

/-- The rounding of sums and differences loses nothing. -/
theorem restored_rounded_haar (v : Quad ℤ) : v.haar.rounded.restored = v.haar := by
  have hx : v.haar.s10 % 2 = v.haar.s11 % 2 := by
    simp only [haar]
    omega
  have hy : v.haar.s01 % 2 = v.haar.s11 % 2 := by
    simp only [haar]
    omega
  have hs : v.haar.s00 % 2 = v.haar.s11 % 2 := by
    simp only [haar]
    omega
  have ht : v.haar.s00 / 2 % 2 = (v.haar.s11 / 2 + v.haar.s10 / 2 + v.haar.s01 / 2) % 2 := by
    simp only [haar]
    omega
  have hrx := restoreDifference_round v.haar.s10
  have hry := restoreDifference_round v.haar.s01
  have hrs := restoreSum_round v.haar.s00
  rw [hx] at hrx
  rw [hy] at hry
  rw [hs, ht] at hrs
  simp only [restored, rounded, hrx, hry, hrs]

/-- The values come back from their sum and differences. -/
theorem unhaar_haar (v : Quad ℤ) : v.haar.unhaar = v := by
  obtain ⟨v00, v01, v10, v11⟩ := v
  simp only [haar, unhaar, Quad.mk.injEq]
  refine ⟨?_, ?_, ?_, ?_⟩ <;> omega

/-- The restored sum and differences of any rounded ones are those of four values. -/
theorem haar_unhaar_restored {q : Quad ℤ} (h : q.IsRounded) :
    q.restored.unhaar.haar = q.restored := by
  obtain ⟨q00, q01, q10, q11⟩ := q
  obtain ⟨hsum, hcolumn, hrow⟩ := h
  have hfour : ∀ x y : ℤ, (x + q11) % 2 = 0 → (y + q11) % 2 = 0 →
      (restoreSum q00 (q11 % 2) ((q11 / 2 + x / 2 + y / 2) % 2) + x + y + q11) % 4 = 0 := by
    intro x y hx hy
    unfold restoreSum
    dsimp only at hsum
    split
    · omega
    · split <;> omega
  have hparity : ∀ d : ℤ, d % 2 = 0 → (restoreDifference d (q11 % 2) + q11) % 2 = 0 := by
    intro d hd
    unfold restoreDifference
    split <;> omega
  have hx := hparity q10 hrow
  have hy := hparity q01 hcolumn
  have hs := hfour _ _ hx hy
  simp only [restored, haar, unhaar, Quad.mk.injEq]
  refine ⟨?_, ?_, ?_, ?_⟩ <;> omega

/-! ## Bounds -/

/-- Rounding the values restored from rounded ones gives them back up to the rounding. -/
theorem rounded_restored_near (q : Quad ℤ) (h : q.IsRounded) :
    |q.restored.rounded.s00 - q.s00| ≤ 4 ∧ |q.restored.rounded.s01 - q.s01| ≤ 2 ∧
      |q.restored.rounded.s10 - q.s10| ≤ 2 ∧ q.restored.rounded.s11 = q.s11 := by
  obtain ⟨q00, q01, q10, q11⟩ := q
  obtain ⟨hsum, hcolumn, hrow⟩ := h
  have hdifference : ∀ d : ℤ, d % 2 = 0 →
      |roundDifference (restoreDifference d (q11 % 2)) - d| ≤ 2 := by
    intro d hd
    rw [abs_le]
    unfold roundDifference restoreDifference
    split <;> split <;> constructor <;> omega
  have htotal : ∀ t : ℤ, |roundSum (restoreSum q00 (q11 % 2) (t % 2)) - q00| ≤ 4 := by
    intro t
    rw [abs_le]
    dsimp only at hsum
    unfold roundSum restoreSum
    split_ifs <;> constructor <;> omega
  exact ⟨htotal _, hdifference _ hcolumn, hdifference _ hrow, rfl⟩

theorem roundSum_near (s s' : ℤ) : |roundSum s - roundSum s'| ≤ |s - s'| + 4 := by
  unfold roundSum
  rcases abs_cases (s - s') with h | h <;> rw [abs_le] <;>
    split <;> split <;> constructor <;> omega

theorem roundDifference_near (s s' : ℤ) :
    |roundDifference s - roundDifference s'| ≤ |s - s'| + 2 := by
  unfold roundDifference
  rcases abs_cases (s - s') with h | h <;> rw [abs_le] <;>
    split <;> split <;> constructor <;> omega

end Quad

end FitsWell.Hcompress
