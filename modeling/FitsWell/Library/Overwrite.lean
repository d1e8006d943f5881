import Mathlib.Data.List.Basic

/-!
# Writing over a list

Items written at a place of a list, over those that were there. A place past the end leaves a gap
of a filler.
-/

namespace FitsWell

variable {α : Type}

/-- A list with others written at a place. -/
def overwrite (fill : α) (items : List α) (place : ℕ) (written : List α) : List α :=
  items.take place ++ List.replicate (place - items.length) fill ++ written ++
    items.drop (place + written.length)

section Inside

variable {fill : α} {items written : List α} {place : ℕ}
  (h : place + written.length ≤ items.length)
include h

theorem overwrite_inside :
    overwrite fill items place written =
      items.take place ++ written ++ items.drop (place + written.length) := by
  rw [overwrite, Nat.sub_eq_zero_of_le (by omega), List.replicate_zero, List.append_nil]

theorem length_overwrite : (overwrite fill items place written).length = items.length := by
  rw [overwrite_inside h]
  simp only [List.length_append, List.length_take, List.length_drop]
  omega

/-- Items before and after those written stay. -/
theorem getElem?_overwrite {i : ℕ} (hi : i < place ∨ place + written.length ≤ i) :
    (overwrite fill items place written)[i]? = items[i]? := by
  have htake : (items.take place).length = place := by
    rw [List.length_take]
    omega
  rw [overwrite_inside h]
  rcases hi with hbefore | hafter
  · rw [List.append_assoc, List.getElem?_append_left (by omega), List.getElem?_take_of_lt hbefore]
  · rw [List.getElem?_append_right (by rw [List.length_append]; omega), List.length_append, htake,
      List.getElem?_drop, Nat.add_sub_cancel' hafter]

/-- The items from the place on are those written and what follows them. -/
theorem drop_overwrite :
    (overwrite fill items place written).drop place =
      written ++ items.drop (place + written.length) := by
  have htake : (items.take place).length = place := by
    rw [List.length_take]
    omega
  rw [overwrite_inside h, List.append_assoc, List.drop_left' htake]

end Inside

section Anywhere

variable (fill : α) (items : List α) (place : ℕ)

/-- The items before the place, with the gap where there are too few. -/
theorem take_overwrite (written : List α) : (overwrite fill items place written).take place =
    items.take place ++ List.replicate (place - items.length) fill := by
  have hfront : (items.take place ++ List.replicate (place - items.length) fill).length = place := by
    rw [List.length_append, List.length_take, List.length_replicate]
    omega
  rw [overwrite, List.append_assoc, List.take_left' hfront]

/-- Items before the place stay. -/
theorem take_isPrefix_overwrite (written : List α) :
    items.take place <+: overwrite fill items place written := by
  rw [overwrite, List.append_assoc, List.append_assoc]
  exact List.prefix_append _ _

/-- Items written one after the other are written at once. -/
theorem overwrite_overwrite (first second : List α) :
    overwrite fill (overwrite fill items place first) (place + first.length) second =
      overwrite fill items place (first ++ second) := by
  have hfront : (items.take place ++ List.replicate (place - items.length) fill ++ first).length =
      place + first.length := by
    simp only [List.length_append, List.length_take, List.length_replicate]
    omega
  have hlength : place + first.length ≤ (overwrite fill items place first).length := by
    rw [overwrite, List.length_append, hfront]
    exact Nat.le_add_right _ _
  have hdrop : (overwrite fill items place first).drop (place + first.length + second.length) =
      items.drop (place + (first ++ second).length) := by
    rw [overwrite, ← List.drop_drop, List.drop_left' hfront, List.drop_drop, List.length_append,
      Nat.add_assoc]
  rw [overwrite, Nat.sub_eq_zero_of_le hlength, List.replicate_zero, List.append_nil, hdrop]
  conv_lhs => rw [overwrite, List.take_left' hfront]
  rw [overwrite, List.append_assoc _ first second]

/-- Items written over the first of those written take their place. -/
theorem overwrite_again {first second rest : List α} (h : second.length = first.length) :
    overwrite fill (overwrite fill items place (first ++ rest)) place second =
      overwrite fill items place (second ++ rest) := by
  have hfront : (items.take place ++ List.replicate (place - items.length) fill).length = place := by
    rw [List.length_append, List.length_take, List.length_replicate]
    omega
  have hlength : place ≤ (overwrite fill items place (first ++ rest)).length := by
    rw [overwrite, List.append_assoc, List.length_append, hfront]
    exact Nat.le_add_right _ _
  have hdrop : (overwrite fill items place (first ++ rest)).drop (place + second.length) =
      rest ++ items.drop (place + (second ++ rest).length) := by
    rw [overwrite, ← List.drop_drop, List.append_assoc, List.drop_left' hfront, List.append_assoc,
      List.drop_left' h.symm, List.length_append, List.length_append, h]
  rw [overwrite, Nat.sub_eq_zero_of_le hlength, List.replicate_zero, List.append_nil, take_overwrite,
    hdrop, overwrite]
  simp only [List.append_assoc]

end Anywhere

end FitsWell
