import FitsWell.Compression.HcompressInverse
import FitsWell.Compression.HcompressRoundTrip

/-!
# The coding of a plane's coefficients

The planes of a quadrant are written as quadtrees or as they are, the signs of the values
that are not zero behind them all. Magnitudes below `2 ^ 60` have none of the digits that
share a place of a code, so the reader gives them back, and it takes every bit written.
-/

namespace FitsWell.Hcompress

open Bytes Bits

/-- Read the quadrants, the zero that ends them and the signs, with the reader after the
last of them. -/
def dodecodeFrom (bi : BitInput) (a : List ℤ) (nx ny : ℕ) (nbitplanes : List ℕ) :
    Outcome (List ℤ × BitInput) := do
  let (magnitudes, bi) ← dodecodePlanes bi a nx ny nbitplanes
  readSignsFrom bi magnitudes

/-- The values are those of the read that keeps its reader. -/
theorem dodecode_of_from {bi bi' : BitInput} {a values : List ℤ} {nx ny : ℕ}
    {nbitplanes : List ℕ} (hok : dodecodeFrom bi a nx ny nbitplanes = .ok (values, bi')) :
    dodecode bi a nx ny nbitplanes = .ok values := by
  obtain ⟨⟨magnitudes, bi₁⟩, hplanes, hok⟩ := Loops.ok_of_bind hok
  rw [dodecode_of_planes hplanes]
  exact readSigns_of_from hok

/-- A magnitude below `2 ^ 60` has no digit from there on. -/
theorem digit_eq_zero {v : ℤ} {bit : ℕ} (h : 0 ≤ v ∧ v < 2 ^ 60) (hbit : 60 ≤ bit) :
    digit v bit = 0 := by
  have hpow : (2 : ℤ) ^ 60 ≤ 2 ^ bit := pow_le_pow_right₀ (by norm_num) hbit
  have hcast := digit_cast v bit
  rw [Int.ediv_eq_zero_of_lt h.1 (h.2.trans_le hpow), Int.zero_emod] at hcast
  exact_mod_cast hcast

/-- Small magnitudes are received. -/
theorem receivedGrid_of_small {nqx nqy : ℕ} {V : ℕ → ℕ → ℤ} (h : Below nqx nqy 60 V) :
    ∀ r < nqx, ∀ c < nqy, receivedGrid nqx nqy V r c = V r c := by
  refine (receivedGrid_eq_iff (h.mono (by decide))).mpr fun block hblock => ?_
  obtain ⟨hcorner, hright, hbelow, -⟩ :=
    Block.quad_forall (P := fun v => 0 ≤ v ∧ v < 2 ^ 60) (inside_of_mem hblock)
      ⟨le_refl 0, by positivity⟩ h
  refine ⟨?_, ?_, fun _ => ?_⟩
  · rw [digit_eq_zero hcorner (by decide), digit_eq_zero hright (by decide)]
  · rw [digit_eq_zero hcorner (by decide), digit_eq_zero hbelow (by decide)]
  · rw [digit_eq_zero hright (by decide), digit_eq_zero hbelow (by decide)]

/-- The signs of a plane and its magnitudes. -/
structure SignsOf (values : List ℤ) (signbits : List UInt8) (magnitudes : List ℤ) : Prop where
  magnitudes_eq : magnitudes = values.map (|·|)
  bits_eq : ∃ padding, padding.length < 8 ∧
    byteBits signbits = signString values ++ padding

/-- The signs taken from a plane are its sign bits and its magnitudes. -/
theorem signsOf_extractSigns {values magnitudes : List ℤ} {count : ℕ} {signs : SignBits}
    {signbits : List UInt8}
    (hsigns : extractSigns ⟨List.replicate count 0, 0, 8⟩ values = .ok (signs, magnitudes))
    (hfinish : signs.finish = .ok signbits) : SignsOf values signbits magnitudes := by
  obtain ⟨hsound, hbits, hmagnitudes, -⟩ :=
    extractSigns_ok ⟨by dsimp only; decide, by dsimp only; decide⟩ hsigns
  obtain ⟨padding, hfew, hbytes⟩ := SignBits.finish_bits hsound hfinish
  have hempty : SignBits.bits ⟨List.replicate count 0, 0, 8⟩ = [] := rfl
  rw [hbits, hempty, List.nil_append] at hbytes
  exact ⟨hmagnitudes, padding, hfew, hbytes⟩

end FitsWell.Hcompress
