import FitsWell.Library.Bytes
import Mathlib.Data.Nat.ModEq
import Mathlib.Tactic.Linarith
import Mathlib.Tactic.Ring

/-!
# One's-complement sums

A sum modulo `m` with two zeros: it is 0 only for a total of 0, and `m` for another multiple
of `m`. The total of a byte string adds each byte at the weight of its column in a
big-endian word of four.
-/

namespace FitsWell.OnesComplement

/-! ## Representatives -/

/-- The representative of a total modulo `m`, from 1 to `m`, and 0 for a total of 0. -/
def rep (m n : ℕ) : ℕ := if n = 0 then 0 else (n - 1) % m + 1

variable {m : ℕ}

theorem rep_le (n : ℕ) (hm : 0 < m) : rep m n ≤ m := by
  unfold rep
  split
  · exact Nat.zero_le m
  · exact Nat.mod_lt _ hm

theorem rep_of_le {n : ℕ} (h : n ≤ m) : rep m n = n := by
  unfold rep
  split
  · omega
  · rw [Nat.mod_eq_of_lt (by omega)]
    omega

theorem rep_eq_zero_iff {n : ℕ} : rep m n = 0 ↔ n = 0 := by
  unfold rep
  split <;> simp_all

/-- A representative is congruent to its total. -/
theorem rep_modEq (n : ℕ) : rep m n ≡ n [MOD m] := by
  unfold rep
  split
  · rename_i hzero
    rw [hzero]
  · rename_i hpos
    have hstep : (n - 1) % m + 1 ≡ n - 1 + 1 [MOD m] := (Nat.mod_modEq _ _).add_right 1
    rwa [Nat.sub_add_cancel (Nat.pos_of_ne_zero hpos)] at hstep

/-- Congruent totals, both zero or neither, have one representative. -/
theorem rep_congr {a b : ℕ} (hzero : a = 0 ↔ b = 0) (h : a ≡ b [MOD m]) : rep m a = rep m b := by
  unfold rep
  by_cases ha : a = 0
  · rw [if_pos ha, if_pos (hzero.mp ha)]
  · have hb : b ≠ 0 := fun hb => ha (hzero.mpr hb)
    rw [if_neg ha, if_neg hb]
    congr 1
    have hstep : a - 1 + 1 ≡ b - 1 + 1 [MOD m] := by
      rwa [Nat.sub_add_cancel (Nat.pos_of_ne_zero ha), Nat.sub_add_cancel (Nat.pos_of_ne_zero hb)]
    exact Nat.ModEq.add_right_cancel' 1 hstep

/-- A total may fold before more is added. -/
theorem rep_add_rep (a b : ℕ) : rep m (rep m a + b) = rep m (a + b) := by
  apply rep_congr
  · have := rep_eq_zero_iff (m := m) (n := a)
    omega
  · exact (rep_modEq a).add_right b

/-- Folding the high word of a total onto its low word keeps the representative. -/
theorem rep_fold (q r : ℕ) (hm : 0 < m) : rep m ((m + 1) * q + r) = rep m (r + q) := by
  apply rep_congr
  · constructor
    · intro h
      have := Nat.le_mul_of_pos_left q (show 0 < m + 1 by omega)
      omega
    · intro h
      obtain ⟨rfl, rfl⟩ : r = 0 ∧ q = 0 := by omega
      simp
  · rw [Nat.ModEq, Nat.add_mul, Nat.one_mul, Nat.add_assoc, Nat.mul_add_mod, Nat.add_comm q r]

/-- A total and the complement of its representative sum to all ones. -/
theorem rep_add_complement {n : ℕ} (hm : 0 < m) (h : n ≠ 0) : rep m (n + (m - rep m n)) = m := by
  have hle := rep_le n hm
  have hmod : n + (m - rep m n) ≡ rep m n + (m - rep m n) [MOD m] :=
    (rep_modEq n).symm.add_right _
  rw [Nat.add_sub_cancel' hle] at hmod
  rw [rep_congr (b := m) (by omega) hmod, rep_of_le le_rfl]

/-! ## Totals of bytes -/

/-- The weight of column `column` in a big-endian word of four bytes. -/
def weight (column : ℕ) : ℕ := 256 ^ (3 - column % 4)

/-- The total of bytes from column `column` on. -/
def total : ℕ → List UInt8 → ℕ
  | _, [] => 0
  | column, byte :: bytes => byte.toNat * weight column + total (column + 1) bytes

theorem weight_pos (column : ℕ) : 0 < weight column := Nat.pow_pos (by decide)

theorem weight_add_four_mul (column k : ℕ) : weight (column + 4 * k) = weight column := by
  rw [weight, weight, Nat.add_mul_mod_self_left]

theorem total_append (column : ℕ) (a b : List UInt8) :
    total column (a ++ b) = total column a + total (column + a.length) b := by
  induction a generalizing column with
  | nil => simp [total]
  | cons byte a ih =>
    have hcolumn : column + 1 + a.length = column + (a.length + 1) := by omega
    rw [List.cons_append, total, ih, total, List.length_cons, hcolumn, Nat.add_assoc]

theorem total_add_four_mul (column k : ℕ) (bytes : List UInt8) :
    total (column + 4 * k) bytes = total column bytes := by
  induction bytes generalizing column with
  | nil => rfl
  | cons byte bytes ih =>
    rw [total, total, weight_add_four_mul, ← ih (column + 1), Nat.add_right_comm]

theorem le_total {column : ℕ} {bytes : List UInt8} {byte : UInt8} (h : byte ∈ bytes) :
    byte.toNat ≤ total column bytes := by
  induction bytes generalizing column with
  | nil => cases h
  | cons first bytes ih =>
    rw [total]
    rcases List.mem_cons.mp h with rfl | h
    · exact le_trans (Nat.le_mul_of_pos_right _ (weight_pos column)) (Nat.le_add_right _ _)
    · exact le_trans (ih h) (Nat.le_add_left _ _)

/-- The total of a word is the number it spells. -/
theorem total_word {word : List UInt8} (h : word.length = 4) :
    total 0 word = Bytes.ofBeBytes word := by
  obtain ⟨a, b, c, d, rfl⟩ : ∃ a b c d, word = [a, b, c, d] := by
    match word, h with
    | [a, b, c, d], _ => exact ⟨a, b, c, d, rfl⟩
  simp only [total, weight, Bytes.ofBeBytes, List.foldl_cons, List.foldl_nil]
  norm_num
  ring

end FitsWell.OnesComplement
