import Mathlib.Algebra.BigOperators.Fin
import Mathlib.LinearAlgebra.Matrix.Block
import Mathlib.LinearAlgebra.Matrix.NonsingularInverse
import Mathlib.Tactic.FieldSimp
import Mathlib.Tactic.Ring

/-!
# Triangular factors in one matrix

A matrix holds two factors: a lower one with a unit diagonal, below its diagonal, and an upper
one. While columns are eliminated one after another, the rows that are left stand for
what the factors do not yet account for.
-/

namespace FitsWell.Triangular

open Matrix

variable {n : ℕ} {K : Type} [Field K]

/-- The lower factor that a matrix holds. -/
def lower (lu : Matrix (Fin n) (Fin n) K) : Matrix (Fin n) (Fin n) K :=
  .of fun i k => if k < i then lu i k else if k = i then 1 else 0

/-- The upper factor that a matrix holds. -/
def upper (lu : Matrix (Fin n) (Fin n) K) : Matrix (Fin n) (Fin n) K :=
  .of fun k j => if k ≤ j then lu k j else 0

theorem lower_apply (lu : Matrix (Fin n) (Fin n) K) (i k : Fin n) :
    lower lu i k = if k < i then lu i k else if k = i then 1 else 0 := rfl

theorem upper_apply (lu : Matrix (Fin n) (Fin n) K) (k j : Fin n) :
    upper lu k j = if k ≤ j then lu k j else 0 := rfl

theorem det_lower (lu : Matrix (Fin n) (Fin n) K) : (lower lu).det = 1 := by
  have htriangular : (lower lu).IsLowerTriangular := by
    intro i j hij
    have hlt : i < j := hij
    rw [lower_apply, if_neg hlt.le.not_gt, if_neg hlt.ne']
  rw [det_of_isLowerTriangular _ htriangular]
  exact Finset.prod_eq_one fun i _ => by rw [lower_apply, if_neg (lt_irrefl i), if_pos rfl]

theorem det_upper (lu : Matrix (Fin n) (Fin n) K) : (upper lu).det = ∏ i, lu i i := by
  have htriangular : (upper lu).IsUpperTriangular := by
    intro i j hij
    have hlt : j < i := hij
    rw [upper_apply, if_neg hlt.not_ge]
  rw [det_of_isUpperTriangular htriangular]
  exact Finset.prod_congr rfl fun i _ => by rw [upper_apply, if_pos le_rfl]

/-- What the sweep down through the lower factor solves. -/
theorem lower_mulVec {lu : Matrix (Fin n) (Fin n) K} {y b : Fin n → K}
    (h : ∀ i, b i = y i + ∑ k ∈ Finset.Iio i, lu i k * y k) : lower lu *ᵥ y = b := by
  funext i
  have hterm : ∀ k, lower lu i k * y k =
      (if k < i then lu i k * y k else 0) + if k = i then y k else 0 := by
    intro k
    rw [lower_apply]
    by_cases hlt : k < i
    · rw [if_pos hlt, if_pos hlt, if_neg hlt.ne, add_zero]
    · rw [if_neg hlt, if_neg hlt, zero_add, ite_mul, one_mul, zero_mul]
  rw [mulVec, dotProduct, Finset.sum_congr rfl fun k _ => hterm k, Finset.sum_add_distrib,
    Finset.sum_ite_eq', if_pos (Finset.mem_univ i), h i, add_comm, ← Finset.sum_filter]
  congr 2
  ext k
  simp

/-- What the sweep up through the upper factor solves. -/
theorem upper_mulVec {lu : Matrix (Fin n) (Fin n) K} {x y : Fin n → K}
    (h : ∀ i, lu i i * x i + ∑ k ∈ Finset.Ioi i, lu i k * x k = y i) : upper lu *ᵥ x = y := by
  funext i
  have hterm : ∀ k, upper lu i k * x k =
      (if k = i then lu i k * x k else 0) + if i < k then lu i k * x k else 0 := by
    intro k
    rw [upper_apply]
    rcases lt_trichotomy i k with hlt | rfl | hlt
    · rw [if_pos hlt.le, if_neg hlt.ne', if_pos hlt, zero_add]
    · rw [if_pos le_rfl, if_pos rfl, if_neg (lt_irrefl _), add_zero]
    · rw [if_neg hlt.not_ge, if_neg hlt.ne, if_neg hlt.le.not_gt, zero_mul, add_zero]
  rw [mulVec, dotProduct, Finset.sum_congr rfl fun k _ => hterm k, Finset.sum_add_distrib,
    Finset.sum_ite_eq', if_pos (Finset.mem_univ i), ← h i, ← Finset.sum_filter]
  congr 2
  ext k
  simp

/-- The part of an entry that the factors of the columns before `c` make. -/
def made (lu : Matrix (Fin n) (Fin n) K) (c : ℕ) (i j : Fin n) : K :=
  ∑ k, if k < i ∧ (k : ℕ) < c then lu i k * upper lu k j else 0

/-- `a` is made by the factors of the columns before `c`, but for what the rows from `c` on
still hold. -/
def Factored (c : ℕ) (a lu : Matrix (Fin n) (Fin n) K) : Prop :=
  ∀ i j, a i j = made lu c i j + if min (i : ℕ) c ≤ j then lu i j else 0

theorem factored_start (a : Matrix (Fin n) (Fin n) K) : Factored 0 a a := by
  intro i j
  simp [made]

/-- Every column eliminated, the factors make the matrix. -/
theorem Factored.eq_mul {a lu : Matrix (Fin n) (Fin n) K} (h : Factored n a lu) :
    a = lower lu * upper lu := by
  ext i j
  have hterm : ∀ k, lower lu i k * upper lu k j =
      (if k < i ∧ (k : ℕ) < n then lu i k * upper lu k j else 0) +
        if k = i then upper lu k j else 0 := by
    intro k
    rw [lower_apply]
    by_cases hlt : k < i
    · rw [if_pos hlt, if_pos ⟨hlt, k.isLt⟩, if_neg hlt.ne, add_zero]
    · rw [if_neg hlt, if_neg (fun h : k < i ∧ (k : ℕ) < n => hlt h.1), zero_add]
      split
      · rw [one_mul]
      · rw [zero_mul]
  rw [h i j, Matrix.mul_apply, Finset.sum_congr rfl fun k _ => hterm k, Finset.sum_add_distrib,
    Finset.sum_ite_eq', if_pos (Finset.mem_univ i), Nat.min_eq_left i.isLt.le, upper_apply]
  rfl

/-- Rows that are not yet eliminated may be swapped. -/
theorem Factored.swap {c : ℕ} {a lu : Matrix (Fin n) (Fin n) K} (h : Factored c a lu)
    {i j : Fin n} (hi : c ≤ i) (hj : c ≤ j) :
    Factored c (a.submatrix (Equiv.swap i j) id) (lu.submatrix (Equiv.swap i j) id) := by
  have hlow : ∀ r : Fin n, (r : ℕ) < c → Equiv.swap i j r = r := by
    intro r hr
    refine Equiv.swap_apply_of_ne_of_ne ?_ ?_
    · rintro rfl
      omega
    · rintro rfl
      omega
  have hhigh : ∀ r : Fin n, c ≤ r → c ≤ (Equiv.swap i j r : Fin n) := by
    intro r hr
    rw [Equiv.swap_apply_def]
    split
    · exact hj
    · split
      · exact hi
      · exact hr
  intro r y
  rw [submatrix_apply, id, h]
  congr 1
  · refine Finset.sum_congr rfl fun k _ => ?_
    have hk : (k < Equiv.swap i j r ∧ (k : ℕ) < c) ↔ (k < r ∧ (k : ℕ) < c) := by
      refine and_congr_left fun hkc => ?_
      rcases Nat.lt_or_ge r c with hr | hr
      · rw [hlow r hr]
      · have hswap := hhigh r hr
        exact iff_of_true (Fin.lt_def.mpr (by omega)) (Fin.lt_def.mpr (by omega))
    by_cases hkc : k < r ∧ (k : ℕ) < c
    · rw [if_pos hkc, if_pos (hk.mpr hkc), upper_apply, upper_apply, submatrix_apply,
        submatrix_apply, hlow k hkc.2, id, id]
    · rw [if_neg hkc, if_neg (fun h => hkc (hk.mp h))]
  · rcases Nat.lt_or_ge r c with hr | hr
    · rw [submatrix_apply, id, hlow r hr]
    · rw [submatrix_apply, id, Nat.min_eq_right (hhigh r hr), Nat.min_eq_right hr]

/-- The row `r`, with a multiple of the pivot row taken from it. -/
def eliminated (lu : Matrix (Fin n) (Fin n) K) (col r k : Fin n) : K :=
  if k = col then lu r col / lu col col
  else if col < k then lu r k - lu r col / lu col col * lu col k
  else lu r k

/-- A column is eliminated below its pivot. -/
theorem Factored.eliminate {a lu lu' : Matrix (Fin n) (Fin n) K} {col : Fin n}
    (h : Factored col a lu) (hpivot : lu col col ≠ 0)
    (hlu : ∀ i j, lu' i j = if col < i then eliminated lu col i j else lu i j) :
    Factored (col + 1) a lu' := by
  have hupper : ∀ k j, k ≤ col → upper lu' k j = upper lu k j := by
    intro k j hk
    rw [upper_apply, upper_apply, hlu, if_neg hk.not_gt]
  intro i j
  rw [h i j]
  by_cases hbelow : col < i
  · -- the part made grows by the multiple of the pivot row
    have hmade : made lu' (col + 1) i j =
        made lu col i j + lu i col / lu col col * upper lu col j := by
      have hterm : ∀ k, (if k < i ∧ (k : ℕ) < col + 1 then lu' i k * upper lu' k j else 0) =
          (if k < i ∧ (k : ℕ) < col then lu i k * upper lu k j else 0) +
            if k = col then lu i col / lu col col * upper lu k j else 0 := by
        intro k
        rcases lt_trichotomy k col with hk | rfl | hk
        · have hlt : (k : ℕ) < col := hk
          rw [if_pos ⟨hk.trans hbelow, by omega⟩, if_pos ⟨hk.trans hbelow, hlt⟩, if_neg hk.ne,
            add_zero, hupper k j hk.le, hlu, if_pos hbelow, eliminated, if_neg hk.ne,
            if_neg hk.le.not_gt]
        · rw [if_pos ⟨hbelow, Nat.lt_succ_self _⟩, if_neg (fun h => (lt_irrefl _ h.2).elim),
            if_pos rfl, zero_add, hupper k j le_rfl, hlu, if_pos hbelow, eliminated, if_pos rfl]
        · have hlt : (col : ℕ) < k := hk
          rw [if_neg (fun h => absurd h.2 (by omega)), if_neg (fun h => absurd h.2 (by omega)),
            if_neg hk.ne', add_zero]
      unfold made
      rw [Finset.sum_congr rfl fun k _ => hterm k, Finset.sum_add_distrib, Finset.sum_ite_eq',
        if_pos (Finset.mem_univ col)]
    have hi : (col : ℕ) < i := hbelow
    rw [hmade, add_assoc, Nat.min_eq_right hi.le, Nat.min_eq_right (by omega), hlu,
      if_pos hbelow, upper_apply]
    congr 1
    rcases lt_trichotomy j col with hj | rfl | hj
    · have hlt : (j : ℕ) < col := hj
      rw [if_neg (by omega), if_neg hj.not_ge, if_neg (by omega), mul_zero, add_zero]
    · rw [if_pos le_rfl, if_pos le_rfl, if_neg (by omega), add_zero, div_mul_cancel₀ _ hpivot]
    · have hlt : (col : ℕ) < j := hj
      rw [if_pos hlt.le, if_pos hj.le, if_pos (by omega), eliminated, if_neg hj.ne', if_pos hj]
      ring
  · have hi : (i : ℕ) ≤ col := Fin.not_lt.mp hbelow
    have hmade : made lu' (col + 1) i j = made lu col i j := by
      refine Finset.sum_congr rfl fun k _ => ?_
      by_cases hk : k < i
      · have hlt : (k : ℕ) < i := hk
        rw [if_pos ⟨hk, by omega⟩, if_pos ⟨hk, by omega⟩, hlu, if_neg hbelow,
          hupper k j (Fin.le_def.mpr (by omega))]
      · rw [if_neg (fun h => hk h.1), if_neg (fun h => hk h.1)]
    rw [hmade, hlu, if_neg hbelow, Nat.min_eq_left hi, Nat.min_eq_left (by omega)]

end FitsWell.Triangular
