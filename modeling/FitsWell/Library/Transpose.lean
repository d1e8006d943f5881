import Mathlib.Data.List.Basic
import Mathlib.Tactic.Linarith

/-!
# Transposition

The columns of a matrix that is stored row by row, one after another. Transposing with rows
and columns exchanged gives the matrix back.
-/

namespace FitsWell.Transpose

variable {α : Type}

/-- The columns of a matrix of `rows` rows and `cols` columns: item `c * rows + r` of them is
item `r * cols + c` of `items`. -/
def transpose (absent : α) (rows cols : ℕ) (items : List α) : List α :=
  (List.range (rows * cols)).map fun k => items.getD (k % rows * cols + k / rows) absent

@[simp] theorem length_transpose (absent : α) (rows cols : ℕ) (items : List α) :
    (transpose absent rows cols items).length = rows * cols := by
  rw [transpose, List.length_map, List.length_range]

/-- The item of a row and a column. -/
theorem getD_transpose (absent : α) {rows cols r c : ℕ} (items : List α) (hr : r < rows)
    (hc : c < cols) :
    (transpose absent rows cols items).getD (c * rows + r) absent =
      items.getD (r * cols + c) absent := by
  have hplace : c * rows + r < rows * cols := by
    have hle : (c + 1) * rows ≤ cols * rows := Nat.mul_le_mul_right _ hc
    linarith [Nat.mul_comm rows cols, Nat.succ_mul c rows]
  have hrow : (c * rows + r) % rows = r := by
    rw [Nat.mul_comm, Nat.mul_add_mod, Nat.mod_eq_of_lt hr]
  have hcol : (c * rows + r) / rows = c := by
    rw [Nat.mul_comm, Nat.mul_add_div (by omega), Nat.div_eq_of_lt hr, Nat.add_zero]
  rw [transpose, List.getD_eq_getElem?_getD, List.getElem?_map, List.getElem?_range hplace,
    Option.map_some, Option.getD_some, hrow, hcol]

/-- Transposing back gives the items back. -/
theorem transpose_transpose (absent : α) {rows cols : ℕ} {items : List α}
    (h : items.length = rows * cols) :
    transpose absent cols rows (transpose absent rows cols items) = items := by
  apply List.ext_getElem?
  intro k
  by_cases hk : k < rows * cols
  · have hcols : 0 < cols := Nat.pos_of_ne_zero (by rintro rfl; omega)
    have hrow : k / cols < rows := Nat.div_lt_of_lt_mul (by rw [Nat.mul_comm]; exact hk)
    have hplace : k / cols * cols + k % cols = k := by
      rw [Nat.mul_comm]
      exact Nat.div_add_mod k cols
    rw [transpose, List.getElem?_map, List.getElem?_range (by rw [Nat.mul_comm]; exact hk),
      Option.map_some, getD_transpose absent items hrow (Nat.mod_lt k hcols), hplace,
      List.getD_eq_getElem?_getD, List.getElem?_eq_getElem (by omega), Option.getD_some]
  · rw [List.getElem?_eq_none (by rw [length_transpose, Nat.mul_comm]; omega),
      List.getElem?_eq_none (by omega)]

end FitsWell.Transpose
