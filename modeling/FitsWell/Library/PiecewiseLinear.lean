import Mathlib.Algebra.Order.Field.Basic
import Mathlib.Tactic.Linarith
import Mathlib.Tactic.Ring

/-!
# Piecewise linear interpolation

The nodes `0, …, length - 1` have values, and between two neighbours the interpolation is linear.
The first line goes on below node `0`, and the last one past the last node.
-/

namespace FitsWell.PiecewiseLinear

variable {K : Type} [Field K]

/-- The value at `u` of the line through the nodes `p` and `p + 1`. -/
def line (v : ℕ → K) (p : ℕ) (u : K) : K := v p + (u - p) * (v (p + 1) - v p)

variable {p q : ℕ} {v : ℕ → K} {u u' w w' : K}

theorem line_self (v : ℕ → K) (p : ℕ) : line v p p = v p := by
  rw [line, sub_self, zero_mul, add_zero]

theorem line_succ (v : ℕ → K) (p : ℕ) : line v p (p + 1) = v (p + 1) := by
  rw [line, add_sub_cancel_left, one_mul, add_sub_cancel]

theorem line_neg (v : ℕ → K) (p : ℕ) (u : K) : line (fun i => -v i) p u = -line v p u := by
  unfold line
  ring

/-- The place on a line of a value of it. -/
theorem line_of_div (hne : v p ≠ v (p + 1)) (w : K) :
    line v p (p + (w - v p) / (v (p + 1) - v p)) = w := by
  have hstep : v (p + 1) - v p ≠ 0 := sub_ne_zero.mpr hne.symm
  rw [line, add_sub_cancel_left, div_mul_cancel₀ _ hstep, add_sub_cancel]

theorem div_of_line (hne : v p ≠ v (p + 1)) (u : K) :
    (line v p u - v p) / (v (p + 1) - v p) = u - p := by
  have hstep : v (p + 1) - v p ≠ 0 := sub_ne_zero.mpr hne.symm
  rw [line, add_sub_cancel_left, mul_div_cancel_right₀ _ hstep]

variable [LinearOrder K]

/-- Whether the interpolation at `u` is on the line after node `p`. -/
structure Covers (length : ℕ) (p : ℕ) (u : K) : Prop where
  lt : p + 1 < length
  above : p = 0 ∨ (p : K) ≤ u
  below : p + 2 = length ∨ u ≤ p + 1

/-- Whether the interpolation at `u` is `w`. -/
def At (length : ℕ) (v : ℕ → K) (u w : K) : Prop := ∃ p, Covers length p u ∧ line v p u = w

/-- Whether the values rise strictly. -/
def Rising (length : ℕ) (v : ℕ → K) : Prop := ∀ i j, i < j → j < length → v i < v j

variable {length : ℕ}

theorem At.neg (h : At length v u w) : At length (fun i => -v i) u (-w) := by
  obtain ⟨p, hcovers, rfl⟩ := h
  exact ⟨p, hcovers, line_neg v p u⟩

variable [IsStrictOrderedRing K]

theorem line_lt (hlt : v p < v (p + 1)) (hu : u < u') : line v p u < line v p u' :=
  add_lt_add_right (mul_lt_mul_of_pos_right (sub_lt_sub_right hu _) (sub_pos.mpr hlt)) _

theorem line_le (hlt : v p < v (p + 1)) (hu : u ≤ u') : line v p u ≤ line v p u' := by
  rcases hu.eq_or_lt with rfl | hu
  · exact le_rfl
  · exact (line_lt hlt hu).le

theorem line_lt_iff (hlt : v p < v (p + 1)) : line v p u < line v p u' ↔ u < u' := by
  refine ⟨fun h => ?_, line_lt hlt⟩
  by_contra hle
  exact absurd (h.trans_le (line_le hlt (not_lt.mp hle))) (lt_irrefl _)

/-- A line that goes on before another one ends at or before the node the other starts at. -/
theorem Covers.le_of_le (h : Covers length p u) (h' : Covers length q u') (hu : u < u') : p ≤ q := by
  by_contra hlt
  have hnext : (q : K) + 1 ≤ p := by exact_mod_cast (by omega : q + 1 ≤ p)
  rcases h.above with hp | hp
  · omega
  · rcases h'.below with hq | hq
    · have := h.lt
      omega
    · exact absurd (hu.trans_le (hq.trans (hnext.trans hp))) (lt_irrefl u)

/-- The interpolation of rising values rises. -/
theorem At.lt_of_lt (hv : Rising length v) (h : At length v u w) (h' : At length v u' w')
    (hu : u < u') : w < w' := by
  obtain ⟨p, hp, rfl⟩ := h
  obtain ⟨q, hq, rfl⟩ := h'
  have hp' := hp.lt
  have hq' := hq.lt
  rcases (hp.le_of_le hq hu).eq_or_lt with rfl | hlt
  · exact line_lt (hv p (p + 1) (by omega) hp') hu
  · have hend : u ≤ p + 1 := hp.below.resolve_left (by omega)
    have hstart : (q : K) ≤ u' := hq.above.resolve_left (by omega)
    have hfirst : line v p u ≤ v (p + 1) :=
      (line_le (hv p (p + 1) (by omega) hp') hend).trans_eq (line_succ v p)
    have hlast : v q ≤ line v q u' :=
      (line_self v q).symm.trans_le (line_le (hv q (q + 1) (by omega) hq') hstart)
    rcases (Nat.succ_le_of_lt hlt).eq_or_lt with heq | hgt
    · obtain rfl : p + 1 = q := heq
      rcases hend.eq_or_lt with rfl | hend
      · calc line v p (p + 1) = v (p + 1) := line_succ v p
          _ = line v (p + 1) ((p + 1 : ℕ) : K) := (line_self v (p + 1)).symm
          _ < line v (p + 1) u' := line_lt (hv (p + 1) (p + 2) (by omega) hq') (by exact_mod_cast hu)
      · calc line v p u < line v p (p + 1) := line_lt (hv p (p + 1) (by omega) hp') hend
          _ = v (p + 1) := line_succ v p
          _ ≤ line v (p + 1) u' := hlast
    · exact hfirst.trans_lt ((hv (p + 1) q hgt (by omega)).trans_le hlast)

/-- Lines that both go on at a place meet there. -/
theorem At.unique (h : At length v u w) (h' : At length v u w') : w = w' := by
  have hmeet : ∀ {p q : ℕ}, Covers length p u → Covers length q u → p < q →
      line v p u = line v q u := by
    intro p q hp hq hlt
    have hq' := hq.lt
    have hend : u ≤ p + 1 := hp.below.resolve_left (by omega)
    have hstart : (q : K) ≤ u := hq.above.resolve_left (by omega)
    have hle : q ≤ p + 1 := by exact_mod_cast hstart.trans hend
    obtain rfl : q = p + 1 := by omega
    have hplace : u = ((p + 1 : ℕ) : K) := le_antisymm (by exact_mod_cast hend) hstart
    rw [hplace, line_self, Nat.cast_succ, line_succ]
  obtain ⟨p, hp, rfl⟩ := h
  obtain ⟨q, hq, rfl⟩ := h'
  rcases lt_trichotomy p q with hlt | rfl | hgt
  · exact hmeet hp hq hlt
  · rfl
  · exact (hmeet hq hp hgt).symm

theorem At.lt_iff (hv : Rising length v) (h : At length v u w) (h' : At length v u' w') :
    w < w' ↔ u < u' := by
  refine ⟨fun hw => ?_, h.lt_of_lt hv h'⟩
  by_contra hu
  rcases (not_lt.mp hu).eq_or_lt with rfl | hu
  · exact absurd (h.unique h') hw.ne
  · exact lt_asymm hw (h'.lt_of_lt hv h hu)

end FitsWell.PiecewiseLinear
