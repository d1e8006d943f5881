import Mathlib.Data.List.Basic
import Mathlib.Data.Nat.Init
import Mathlib.Order.Nat
import Mathlib.Data.Nat.Notation

/-!
# Partition points

A binary search for the place where a predicate stops to hold, in a list whose elements that have
it come first.
-/

namespace FitsWell.PartitionPoint

variable {α : Type}

/-- Search the places from `low` to `high`. -/
def search (p : α → Bool) (values : List α) (low high : ℕ) : ℕ :=
  if _h : low < high then
    let middle := (low + high) / 2
    if values[middle]?.any p then search p values (middle + 1) high
    else search p values low middle
  else
    low
termination_by high - low

/-- `values.partition_point(p)`. -/
def partitionPoint (p : α → Bool) (values : List α) : ℕ := search p values 0 values.length

/-- The elements that have `p` come first. -/
def Partitioned (p : α → Bool) (values : List α) : Prop :=
  ∀ i j, i ≤ j → j < values.length → values[j]?.any p = true → values[i]?.any p = true

/-- `n` elements have `p`, and they come first. -/
structure IsPoint (p : α → Bool) (values : List α) (n : ℕ) : Prop where
  le : n ≤ values.length
  before : ∀ i < n, values[i]?.any p = true
  after : ∀ i, n ≤ i → i < values.length → values[i]?.any p = false

variable {p : α → Bool} {values : List α}

theorem search_isPoint (h : Partitioned p values) {low high : ℕ} (hle : low ≤ high)
    (hhigh : high ≤ values.length) (hbefore : ∀ i < low, values[i]?.any p = true)
    (hafter : ∀ i, high ≤ i → i < values.length → values[i]?.any p = false) :
    IsPoint p values (search p values low high) := by
  induction hsize : high - low using Nat.strong_induction_on generalizing low high with
  | _ size ih =>
    rw [search]
    by_cases hlt : low < high
    · rw [dif_pos hlt]
      dsimp only
      by_cases hmiddle : values[(low + high) / 2]?.any p = true
      · rw [if_pos hmiddle]
        refine ih (high - ((low + high) / 2 + 1)) (by omega) (by omega) hhigh (fun i hi => ?_) hafter rfl
        exact h i ((low + high) / 2) (by omega) (by omega) hmiddle
      · rw [if_neg hmiddle]
        refine ih ((low + high) / 2 - low) (by omega) (by omega) (by omega) hbefore (fun i hi hlength => ?_)
          rfl
        refine Bool.eq_false_iff.mpr fun hholds => hmiddle ?_
        exact h ((low + high) / 2) i hi hlength hholds
    · rw [dif_neg hlt]
      obtain rfl : low = high := by omega
      exact ⟨hhigh, hbefore, hafter⟩

/-- The search finds the point. -/
theorem isPoint (h : Partitioned p values) : IsPoint p values (partitionPoint p values) :=
  search_isPoint h (Nat.zero_le _) le_rfl (fun _ hi => absurd hi (Nat.not_lt_zero _))
    fun _ hi hlength => absurd hlength (by omega)

/-- There is one point. -/
theorem IsPoint.unique {n m : ℕ} (hn : IsPoint p values n) (hm : IsPoint p values m) : n = m := by
  have hnot : ∀ {a b : ℕ}, IsPoint p values a → IsPoint p values b → ¬a < b := by
    intro a b ha hb hlt
    have htrue := hb.before a hlt
    rw [ha.after a le_rfl (hlt.trans_le hb.le)] at htrue
    cases htrue
  have h₁ := hnot hn hm
  have h₂ := hnot hm hn
  omega

theorem partitionPoint_eq {n : ℕ} (h : IsPoint p values n) : partitionPoint p values = n := by
  refine (isPoint fun i j hij hj hholds => ?_).unique h
  have hlt : j < n := by
    by_contra hge
    rw [h.after j (by omega) hj] at hholds
    cases hholds
  exact h.before i (by omega)

end FitsWell.PartitionPoint
