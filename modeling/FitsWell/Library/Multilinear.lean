import Mathlib.Algebra.BigOperators.Group.Finset.Powerset
import Mathlib.Algebra.BigOperators.Ring.Finset
import Mathlib.Algebra.Order.Field.Basic
import Mathlib.Data.Nat.Bitwise
import Mathlib.Tactic.Linarith
import Mathlib.Tactic.Ring

/-!
# Multilinear interpolation

A function at the corners of a cell is interpolated along one axis after another. The
interpolation is the sum over the corners, whose numbers tell by their bits on which side of each
axis they lie, and it is affine in each fraction.
-/

namespace FitsWell.Multilinear

variable {ι K : Type} [DecidableEq ι]

/-- The node after `base` along an axis. -/
def bump (axis : ι) (base : ι → ℕ) : ι → ℕ := Function.update base axis (base axis + 1)

/-- The corner of the cell at `base` on the upper side of the axes whose bits are set. -/
def corner : List ι → (ℕ → Bool) → (ι → ℕ) → ι → ℕ
  | [], _, base => base
  | axis :: axes, bits, base =>
    corner axes (fun bit => bits (bit + 1)) (if bits 0 then bump axis base else base)

theorem corner_of_not_mem {axes : List ι} {axis : ι} (h : axis ∉ axes) (bits : ℕ → Bool)
    (base : ι → ℕ) : corner axes bits base axis = base axis := by
  induction axes generalizing bits base with
  | nil => rfl
  | cons first axes ih =>
    have hne := List.ne_of_not_mem_cons h
    have hrest := List.not_mem_of_not_mem_cons h
    rw [corner, ih hrest]
    split
    · exact Function.update_of_ne hne _ _
    · rfl

/-- The lowest corner is the base. -/
theorem corner_of_not_set (axes : List ι) (base : ι → ℕ) {bits : ℕ → Bool}
    (h : ∀ bit, bits bit = false) : corner axes bits base = base := by
  induction axes generalizing bits with
  | nil => rfl
  | cons first axes ih => rw [corner, h 0, if_neg Bool.false_ne_true, ih fun bit => h (bit + 1)]

/-- A corner is at most one node further along each axis. -/
theorem corner_le {axes : List ι} (hnodup : axes.Nodup) (bits : ℕ → Bool) (base : ι → ℕ)
    (axis : ι) : corner axes bits base axis ≤ base axis + 1 := by
  induction axes generalizing bits base with
  | nil => exact Nat.le_succ _
  | cons first axes ih =>
    obtain ⟨hnot, hnodup⟩ := List.nodup_cons.mp hnodup
    rw [corner]
    by_cases hsame : axis = first
    · subst hsame
      rw [corner_of_not_mem hnot]
      split
      · exact (Function.update_self _ _ _).le
      · exact Nat.le_succ _
    · refine (ih hnodup _ _).trans (Nat.succ_le_succ ?_)
      split
      · exact (Function.update_of_ne hsame _ _).le
      · exact le_rfl

/-- The places along the other axes do not tell on the corner's axes. -/
theorem corner_update {axes : List ι} {axis : ι} (h : axis ∉ axes) (bits : ℕ → Bool)
    (base : ι → ℕ) (place : ℕ) :
    corner axes bits (Function.update base axis place) =
      Function.update (corner axes bits base) axis place := by
  induction axes generalizing bits base with
  | nil => rfl
  | cons first axes ih =>
    have hne := List.ne_of_not_mem_cons h
    have hrest := List.not_mem_of_not_mem_cons h
    rw [corner, corner]
    split
    · rw [← ih hrest, bump, bump, Function.update_of_ne (Ne.symm hne),
        Function.update_comm hne]
    · exact ih hrest _ _

variable [CommRing K]

/-- The weight of a corner. -/
def weight (delta : ι → K) : List ι → (ℕ → Bool) → K
  | [], _ => 1
  | axis :: axes, bits =>
    (if bits 0 then delta axis else 1 - delta axis) * weight delta axes fun bit => bits (bit + 1)

/-- The interpolation of `f` in the cell at `base`. -/
def value (delta : ι → K) (f : (ι → ℕ) → K) : List ι → (ι → ℕ) → K
  | [], base => f base
  | axis :: axes, base =>
    (1 - delta axis) * value delta f axes base + delta axis * value delta f axes (bump axis base)

/-- The numbers below a power of two, by their lowest bits. -/
theorem sum_range_two_pow_succ {M : Type} [AddCommMonoid M] (g : ℕ → M) (n : ℕ) :
    ∑ v ∈ Finset.range (2 ^ (n + 1)), g v =
      ∑ v ∈ Finset.range (2 ^ n), (g (2 * v) + g (2 * v + 1)) := by
  have hdouble : ∀ m, ∑ v ∈ Finset.range (2 * m), g v =
      ∑ v ∈ Finset.range m, (g (2 * v) + g (2 * v + 1)) := by
    intro m
    induction m with
    | zero => rfl
    | succ m ih =>
      rw [show 2 * (m + 1) = 2 * m + 1 + 1 from rfl, Finset.sum_range_succ, Finset.sum_range_succ,
        Finset.sum_range_succ, ih, add_assoc]
  rw [Nat.pow_succ', hdouble]

theorem testBit_even (v : ℕ) :
    (2 * v).testBit 0 = false ∧ (fun bit => (2 * v).testBit (bit + 1)) = v.testBit := by
  refine ⟨by simp, funext fun bit => ?_⟩
  rw [Nat.testBit_succ, Nat.mul_div_cancel_left v (by decide)]

theorem testBit_odd (v : ℕ) :
    (2 * v + 1).testBit 0 = true ∧ (fun bit => (2 * v + 1).testBit (bit + 1)) = v.testBit := by
  refine ⟨by simp, funext fun bit => ?_⟩
  rw [Nat.testBit_succ]
  congr 1
  omega

theorem testBit_eq_false_iff (v bit : ℕ) :
    v.testBit bit = false ↔ v % (2 * 2 ^ bit) < 2 ^ bit := by
  have hpos := Nat.two_pow_pos bit
  have hmod := Nat.mod_lt v hpos
  rw [Nat.testBit_eq_decide_div_mod_eq, decide_eq_false_iff_not, Nat.mul_comm, Nat.mod_mul]
  rcases Nat.mod_two_eq_zero_or_one (v / 2 ^ bit) with hzero | hone
  · rw [hzero]
    omega
  · rw [hone]
    omega

/-- Setting a bit that is not set leaves the others. -/
theorem testBit_add_two_pow {v bit : ℕ} (h : v.testBit bit = false) (other : ℕ) :
    (v + 2 ^ bit).testBit other = if other = bit then true else v.testBit other := by
  by_cases hsame : other = bit
  · rw [if_pos hsame, hsame, Nat.add_comm, Nat.testBit_two_pow_add_eq, h, Bool.not_false]
  · rw [if_neg hsame]
    rcases Nat.lt_or_gt_of_ne hsame with hlt | hgt
    · rw [Nat.add_comm, Nat.testBit_two_pow_add_gt hlt]
    · have hroom := (testBit_eq_false_iff v bit).mp h
      have hdiv : (v + 2 ^ bit) / 2 ^ (bit + 1) = v / 2 ^ (bit + 1) := by
        rw [Nat.pow_succ']
        refine Nat.div_eq_of_lt_le ?_ ?_
        · have hle := Nat.div_mul_le_self v (2 * 2 ^ bit)
          omega
        · have hsplit := Nat.div_add_mod v (2 * 2 ^ bit)
          rw [Nat.mul_comm] at hsplit
          rw [Nat.succ_mul]
          omega
      obtain ⟨offset, rfl⟩ := Nat.exists_eq_add_of_le' (Nat.succ_le_of_lt hgt)
      rw [← Nat.testBit_div_two_pow, ← Nat.testBit_div_two_pow, hdiv]

/-- The interpolation is the sum over the corners. -/
theorem value_eq_sum (delta : ι → K) (f : (ι → ℕ) → K) (axes : List ι) (base : ι → ℕ) :
    value delta f axes base =
      ∑ v ∈ Finset.range (2 ^ axes.length),
        weight delta axes v.testBit * f (corner axes v.testBit base) := by
  induction axes generalizing base with
  | nil => simp [value, weight, corner]
  | cons axis axes ih =>
    rw [value, ih, ih, List.length_cons, sum_range_two_pow_succ, Finset.mul_sum, Finset.mul_sum,
      ← Finset.sum_add_distrib]
    refine Finset.sum_congr rfl fun v _ => ?_
    simp only [weight, corner, (testBit_even v).1, (testBit_even v).2, (testBit_odd v).1,
      (testBit_odd v).2, Bool.false_eq_true, if_false, if_true]
    ring

/-- The sum over the corners, told by the axes on whose upper side they lie. -/
theorem value_eq_sum_powerset (delta : ι → K) (f : (ι → ℕ) → K) {axes : List ι}
    (hnodup : axes.Nodup) (base : ι → ℕ) :
    value delta f axes base =
      ∑ upper ∈ axes.toFinset.powerset,
        (∏ axis ∈ axes.toFinset, if axis ∈ upper then delta axis else 1 - delta axis) *
          f fun axis => base axis + if axis ∈ upper then 1 else 0 := by
  induction axes generalizing base with
  | nil => simp [value]
  | cons axis axes ih =>
    obtain ⟨hnot, hnodup⟩ := List.nodup_cons.mp hnodup
    have hnotMem : axis ∉ axes.toFinset := fun h => hnot (List.mem_toFinset.mp h)
    have hlower : ∀ upper ∈ axes.toFinset.powerset, axis ∉ upper := fun upper hupper h =>
      hnotMem (Finset.mem_powerset.mp hupper h)
    rw [value, ih hnodup, ih hnodup, List.toFinset_cons, Finset.sum_powerset_insert hnotMem,
      Finset.mul_sum, Finset.mul_sum]
    congr 1
    · refine Finset.sum_congr rfl fun upper hupper => ?_
      rw [Finset.prod_insert hnotMem, if_neg (hlower upper hupper), mul_assoc]
    · refine Finset.sum_congr rfl fun upper hupper => ?_
      rw [Finset.prod_insert hnotMem, if_pos (Finset.mem_insert_self axis upper), mul_assoc]
      congr 2
      · refine Finset.prod_congr rfl fun other hother => ?_
        have hne : other ≠ axis := fun h => hnotMem (h ▸ hother)
        simp only [Finset.mem_insert, hne, false_or]
      · congr 1
        funext other
        unfold bump
        by_cases hsame : other = axis
        · subst hsame
          rw [Function.update_self, if_neg (hlower upper hupper),
            if_pos (Finset.mem_insert_self other upper), Nat.add_zero]
        · rw [Function.update_of_ne hsame]
          simp only [Finset.mem_insert, hsame, false_or]

theorem value_const (delta : ι → K) (axes : List ι) (base : ι → ℕ) (c : K) :
    value delta (fun _ => c) axes base = c := by
  induction axes generalizing base with
  | nil => rfl
  | cons axis axes ih =>
    rw [value, ih, ih]
    ring

omit [DecidableEq ι] in
/-- Fractions of an interval give weights that are not negative. -/
theorem weight_nonneg {K : Type} [CommRing K] [LinearOrder K] [IsStrictOrderedRing K]
    {delta : ι → K} {axes : List ι} (h : ∀ axis ∈ axes, 0 ≤ delta axis ∧ delta axis ≤ 1)
    (bits : ℕ → Bool) : 0 ≤ weight delta axes bits := by
  induction axes generalizing bits with
  | nil => exact zero_le_one
  | cons axis axes ih =>
    obtain ⟨hzero, hone⟩ := h axis List.mem_cons_self
    refine mul_nonneg ?_ (ih (fun other hother => h other (List.mem_cons_of_mem _ hother)) _)
    split
    · exact hzero
    · exact sub_nonneg.mpr hone

/-! ## Changing one axis -/

theorem bump_comm (first second : ι) (base : ι → ℕ) :
    bump first (bump second base) = bump second (bump first base) := by
  by_cases hsame : first = second
  · rw [hsame]
  · unfold bump
    rw [Function.update_of_ne hsame, Function.update_of_ne (Ne.symm hsame),
      Function.update_comm hsame]

/-- The interpolation may take its axes in any order. -/
theorem value_append (delta : ι → K) (f : (ι → ℕ) → K) (axes : List ι) (axis : ι)
    (base : ι → ℕ) :
    value delta f (axes ++ [axis]) base =
      (1 - delta axis) * value delta f axes base + delta axis * value delta f axes (bump axis base) := by
  induction axes generalizing base with
  | nil => rfl
  | cons first axes ih =>
    rw [List.cons_append, value, value, value, ih, ih, bump_comm]
    ring

theorem value_congr {delta delta' : ι → K} {axes : List ι}
    (h : ∀ axis ∈ axes, delta axis = delta' axis) (f : (ι → ℕ) → K) (base : ι → ℕ) :
    value delta f axes base = value delta' f axes base := by
  induction axes generalizing base with
  | nil => rfl
  | cons axis axes ih =>
    rw [value, value, h axis List.mem_cons_self,
      ih fun other hother => h other (List.mem_cons_of_mem _ hother),
      ih fun other hother => h other (List.mem_cons_of_mem _ hother)]

/-- The interpolation is affine in the fraction of an axis. -/
theorem value_update {axes : List ι} (hnodup : axes.Nodup) (delta : ι → K) (f : (ι → ℕ) → K)
    (axis : ι) (base : ι → ℕ) (fraction : K) :
    value (Function.update delta axis fraction) f axes base =
      value (Function.update delta axis 0) f axes base + fraction *
        (value (Function.update delta axis 1) f axes base -
          value (Function.update delta axis 0) f axes base) := by
  induction axes generalizing base with
  | nil => simp [value]
  | cons first axes ih =>
    obtain ⟨hnot, hnodup⟩ := List.nodup_cons.mp hnodup
    rw [value, value, value]
    by_cases hsame : first = axis
    · subst hsame
      have hother : ∀ (fraction : K) base, value (Function.update delta first fraction) f axes base =
          value delta f axes base := fun fraction base => value_congr (fun other hother =>
        Function.update_of_ne (ne_of_mem_of_not_mem hother hnot) _ _) f base
      rw [hother fraction, hother fraction, hother 0, hother 0, hother 1, hother 1,
        Function.update_self, Function.update_self, Function.update_self]
      ring
    · rw [ih hnodup, ih hnodup (bump first base), Function.update_of_ne hsame,
        Function.update_of_ne hsame, Function.update_of_ne hsame]
      ring

/-- The interpolation of opposite values is the opposite one. -/
theorem value_neg (delta : ι → K) (f : (ι → ℕ) → K) (axes : List ι) (base : ι → ℕ) :
    value delta (fun node => -f node) axes base = -value delta f axes base := by
  induction axes generalizing base with
  | nil => rfl
  | cons axis axes ih =>
    rw [value, value, ih, ih]
    ring

/-! ## Boxes -/

omit [DecidableEq ι] in
/-- A number with given bits. -/
theorem exists_testBit (axes : List ι) (upper : ι → Bool) :
    ∃ v < 2 ^ axes.length, ∀ bit axis, axes[bit]? = some axis → v.testBit bit = upper axis := by
  induction axes with
  | nil => exact ⟨0, Nat.one_pos, fun _ _ h => by cases h⟩
  | cons first axes ih =>
    obtain ⟨v, hv, hbits⟩ := ih
    rw [List.length_cons, Nat.pow_succ']
    cases hfirst : upper first with
    | false =>
      refine ⟨2 * v, by omega, fun bit axis haxis => ?_⟩
      cases bit with
      | zero =>
        obtain rfl := Option.some.inj haxis
        rw [hfirst, (testBit_even v).1]
      | succ bit => exact (congrFun (testBit_even v).2 bit).trans (hbits bit axis haxis)
    | true =>
      refine ⟨2 * v + 1, by omega, fun bit axis haxis => ?_⟩
      cases bit with
      | zero =>
        obtain rfl := Option.some.inj haxis
        rw [hfirst, (testBit_odd v).1]
      | succ bit => exact (congrFun (testBit_odd v).2 bit).trans (hbits bit axis haxis)

section Order

variable [LinearOrder K] [IsStrictOrderedRing K]

/-- An affine value between two places is at most a bound of its values there. -/
theorem affine_le {a d low high t bound : K} (hlow : low ≤ t) (hhigh : t ≤ high)
    (hfirst : a + low * d ≤ bound) (hlast : a + high * d ≤ bound) : a + t * d ≤ bound := by
  rcases le_total 0 d with hd | hd
  · have hmul := mul_le_mul_of_nonneg_right hhigh hd
    linarith
  · have hmul := mul_le_mul_of_nonpos_right hlow hd
    linarith

/-- The interpolation in a box is at most a bound of it at the corners of the box. -/
theorem value_le_of_corners {axes : List ι} (hnodup : axes.Nodup) (f : (ι → ℕ) → K)
    (base : ι → ℕ) {low high : ι → K} {bound : K}
    (hcorners : ∀ upper : ι → Bool,
      value (fun axis => if upper axis then high axis else low axis) f axes base ≤ bound)
    {delta : ι → K} (hdelta : ∀ axis ∈ axes, low axis ≤ delta axis ∧ delta axis ≤ high axis) :
    value delta f axes base ≤ bound := by
  -- The fractions go to the sides of the box one axis after another.
  have hrest : ∀ (rest : List ι), rest.Nodup → (∀ axis ∈ rest, axis ∈ axes) → ∀ delta : ι → K,
      (∀ axis ∈ rest, low axis ≤ delta axis ∧ delta axis ≤ high axis) →
      (∀ axis ∈ axes, axis ∉ rest → delta axis = low axis ∨ delta axis = high axis) →
      value delta f axes base ≤ bound := by
    intro rest
    induction rest with
    | nil =>
      intro _ _ delta _ hsides
      refine le_of_eq_of_le (value_congr (fun axis haxis => ?_) f base)
        (hcorners fun axis => decide (delta axis = high axis))
      rcases hsides axis haxis List.not_mem_nil with hlow | hhigh
      · by_cases hsame : delta axis = high axis
        · rw [if_pos (decide_eq_true hsame), hsame]
        · rw [if_neg (fun htrue => hsame (of_decide_eq_true htrue)), hlow]
      · rw [if_pos (decide_eq_true hhigh), hhigh]
    | cons first rest ih =>
      intro hrestNodup hmem delta hinside hsides
      obtain ⟨hnot, hrestNodup⟩ := List.nodup_cons.mp hrestNodup
      have hside : ∀ side, side = low first ∨ side = high first →
          value (Function.update delta first side) f axes base ≤ bound := by
        intro side hside
        refine ih hrestNodup (fun axis haxis => hmem axis (List.mem_cons_of_mem _ haxis)) _
          (fun axis haxis => ?_) fun axis haxis hfree => ?_
        · rw [Function.update_of_ne (ne_of_mem_of_not_mem haxis hnot)]
          exact hinside axis (List.mem_cons_of_mem _ haxis)
        · by_cases hsame : axis = first
          · subst hsame
            rw [Function.update_self]
            exact hside
          · rw [Function.update_of_ne hsame]
            exact hsides axis haxis fun hin => (List.mem_cons.mp hin).elim hsame hfree
      obtain ⟨hlow, hhigh⟩ := hinside first List.mem_cons_self
      have hfirst := hside (low first) (.inl rfl)
      have hlast := hside (high first) (.inr rfl)
      rw [value_update hnodup] at hfirst hlast
      have hvalue := value_update hnodup delta f first base (delta first)
      rw [Function.update_eq_self] at hvalue
      rw [hvalue]
      exact affine_le hlow hhigh hfirst hlast
  exact hrest axes hnodup (fun _ haxis => haxis) delta hdelta fun _ haxis hfree =>
    absurd haxis hfree

theorem le_value_of_corners {axes : List ι} (hnodup : axes.Nodup) (f : (ι → ℕ) → K)
    (base : ι → ℕ) {low high : ι → K} {bound : K}
    (hcorners : ∀ upper : ι → Bool,
      bound ≤ value (fun axis => if upper axis then high axis else low axis) f axes base)
    {delta : ι → K} (hdelta : ∀ axis ∈ axes, low axis ≤ delta axis ∧ delta axis ≤ high axis) :
    bound ≤ value delta f axes base := by
  have hneg := value_le_of_corners hnodup (fun node => -f node) base
    (fun upper => (value_neg _ f axes base).trans_le (neg_le_neg (hcorners upper))) hdelta
  rw [value_neg] at hneg
  exact neg_le_neg_iff.mp hneg

end Order

end FitsWell.Multilinear
