import Mathlib.Data.List.Basic
import Mathlib.Order.Basic
import Mathlib.Order.Nat

/-!
# Ranges of a list

The elements of a list in a range of places: how adjacent ranges join, and which changes
of the list a range does not see.
-/

namespace FitsWell

/-- A range of places: `start..stop`. -/
structure Span where
  start : ℕ
  stop : ℕ
  deriving DecidableEq, Repr

/-- The places of a range; none of one that runs backwards. -/
def Span.len (span : Span) : ℕ := span.stop - span.start

variable {α : Type}

/-- The elements of a range. -/
def sliceOf (a : List α) (span : Span) : List α := (a.drop span.start).take span.len

theorem length_sliceOf {a : List α} {span : Span} (h : span.stop ≤ a.length) :
    (sliceOf a span).length = span.len := by
  rw [sliceOf, List.length_take, List.length_drop]
  unfold Span.len
  omega

theorem getElem?_sliceOf (a : List α) (span : Span) (k : ℕ) :
    (sliceOf a span)[k]? = if k < span.len then a[span.start + k]? else none := by
  rw [sliceOf, List.getElem?_take]
  split <;> simp

/-- A range is its places, whatever the list holds elsewhere. -/
theorem sliceOf_congr {a b : List α} {span : Span}
    (h : ∀ k, span.start ≤ k → k < span.stop → a[k]? = b[k]?) :
    sliceOf a span = sliceOf b span := by
  apply List.ext_getElem?
  intro k
  rw [getElem?_sliceOf, getElem?_sliceOf]
  split
  · rename_i hk
    unfold Span.len at hk
    exact h _ (by omega) (by omega)
  · rfl

/-- Adjacent ranges join. -/
theorem sliceOf_append (a : List α) {start mid stop : ℕ} (hmid : start ≤ mid)
    (hstop : mid ≤ stop) :
    sliceOf a ⟨start, mid⟩ ++ sliceOf a ⟨mid, stop⟩ = sliceOf a ⟨start, stop⟩ := by
  have hlen : stop - start = (mid - start) + (stop - mid) := by omega
  have hdrop : start + (mid - start) = mid := by omega
  simp only [sliceOf, Span.len]
  rw [hlen, List.take_add, List.drop_drop, hdrop]

/-- A range inside a range. -/
theorem sliceOf_sliceOf (a : List α) {start stop i width : ℕ} (h : start + i + width ≤ stop) :
    sliceOf (sliceOf a ⟨start, stop⟩) ⟨i, i + width⟩ =
      sliceOf a ⟨start + i, start + i + width⟩ := by
  simp only [sliceOf, Span.len, Nat.add_sub_cancel_left]
  rw [List.drop_take, List.take_take, List.drop_drop]
  congr 1
  omega

theorem sliceOf_of_le (a : List α) {span : Span} (h : span.stop ≤ span.start) :
    sliceOf a span = [] := by
  rw [sliceOf, Span.len, Nat.sub_eq_zero_of_le h, List.take_zero]

/-- A range of a list is one of a longer one. -/
theorem sliceOf_append_left {a : List α} (b : List α) {span : Span} (h : span.stop ≤ a.length) :
    sliceOf (a ++ b) span = sliceOf a span :=
  sliceOf_congr (fun _ _ hk => List.getElem?_append_left (lt_of_lt_of_le hk h))

/-- A range past the first of two lists is one of the second. -/
theorem sliceOf_append_right (a b : List α) (start stop : ℕ) :
    sliceOf (a ++ b) ⟨a.length + start, a.length + stop⟩ = sliceOf b ⟨start, stop⟩ := by
  have hlen : a.length + stop - (a.length + start) = stop - start := by omega
  simp only [sliceOf, Span.len, hlen]
  rw [← List.drop_drop, List.drop_left]

/-- A part of lists laid end to end is read where it starts. -/
theorem sliceOf_flatten {parts : List (List α)} {k : ℕ} {part : List α}
    (h : parts[k]? = some part) :
    sliceOf parts.flatten
      ⟨(parts.take k).flatten.length, (parts.take k).flatten.length + part.length⟩ = part := by
  obtain ⟨hk, rfl⟩ := List.getElem?_eq_some_iff.mp h
  have hsplit : parts.flatten =
      (parts.take k).flatten ++ (parts[k] ++ (parts.drop (k + 1)).flatten) := by
    conv_lhs => rw [← List.take_append_drop k parts, List.drop_eq_getElem_cons hk]
    rw [List.flatten_append, List.flatten_cons]
  rw [hsplit]
  refine (sliceOf_append_right _ _ 0 _).trans ?_
  rw [sliceOf_append_left _ le_rfl, sliceOf, List.drop_zero]
  exact List.take_of_length_le le_rfl

/-- The range that an appended list takes. -/
theorem sliceOf_append_self (a b : List α) {stop : ℕ} (h : stop = a.length + b.length) :
    sliceOf (a ++ b) ⟨a.length, stop⟩ = b := by
  subst h
  simp only [sliceOf, Span.len, Nat.add_sub_cancel_left]
  rw [List.drop_left, List.take_length]

/-- The range that a list in the middle takes. -/
theorem sliceOf_part (front part back : List α) {start stop : ℕ} (hfront : front.length = start)
    (hstop : start + part.length = stop) : sliceOf (front ++ part ++ back) ⟨start, stop⟩ = part := by
  subst hfront hstop
  rw [sliceOf_append_left _ (by rw [List.length_append])]
  exact sliceOf_append_self _ _ rfl

/-- Two lists agree outside a range, and the second is no shorter. -/
structure AgreeOutside (a b : List α) (span : Span) : Prop where
  length : a.length ≤ b.length
  same : ∀ k < a.length, k < span.start ∨ span.stop ≤ k → b[k]? = a[k]?

/-- A range apart from the one that changed keeps its elements. -/
theorem AgreeOutside.sliceOf_eq {a b : List α} {changed span : Span}
    (h : AgreeOutside a b changed) (hspan : span.stop ≤ a.length)
    (hapart : span.stop ≤ changed.start ∨ changed.stop ≤ span.start) :
    sliceOf b span = sliceOf a span :=
  sliceOf_congr (fun k hlow hhigh => h.same k (by omega) (by omega))

theorem AgreeOutside.refl (a : List α) (span : Span) : AgreeOutside a a span :=
  ⟨le_rfl, fun _ _ _ => rfl⟩

theorem AgreeOutside.append (a b : List α) (span : Span) : AgreeOutside a (a ++ b) span where
  length := by rw [List.length_append]; exact Nat.le_add_right _ _
  same := fun _ hk _ => List.getElem?_append_left hk

theorem AgreeOutside.trans {a b c : List α} {span : Span} (h : AgreeOutside a b span)
    (h' : AgreeOutside b c span) : AgreeOutside a c span where
  length := le_trans h.length h'.length
  same := fun k hk hout =>
    (h'.same k (lt_of_lt_of_le hk h.length) hout).trans (h.same k hk hout)

end FitsWell
