import FitsWell.Library.PiecewiseLinear
import FitsWell.WorldCoordinates.TabularRuns
import Mathlib.Algebra.Order.Floor.Semiring

/-!
# One-axis lookups and their inverse

Where the coordinates of a one-axis table and its index values are strictly monotonic, both are
piecewise linear in the array coordinate. The lookup goes from the index value to the coordinate
over it, and the inverse goes back.
-/

namespace FitsWell

open scoped Halves

open PiecewiseLinear (line Covers At Rising)
open PartitionPoint (partitionPoint IsPoint)

variable {K : Type}

/-! ## Monotonic values -/

namespace IndexDirection

section Values

variable [LinearOrder K] {direction other : IndexDirection} {values : List K}

/-- The values of the nodes `0, …, length - 1` go in a direction. -/
def Follows (direction : IndexDirection) (length : ℕ) (v : ℕ → K) : Prop :=
  ∀ i j, i < j → j < length → direction.before (v i) (v j)

theorem Follows.of_pairwise [Zero K] (h : values.Pairwise direction.before) :
    direction.Follows values.length fun i => values.getD i 0 := by
  intro i j hij hj
  have hi : i < values.length := hij.trans hj
  dsimp only
  rw [List.getD_eq_getElem values 0 hi, List.getD_eq_getElem values 0 hj]
  exact List.pairwise_iff_getElem.mp h i j hi hj hij

/-- The comparison of two neighbours that go in a direction. -/
def sign : IndexDirection → ℤ
  | .increasing => 1
  | .decreasing => -1

theorem sign_ne_zero (direction : IndexDirection) : direction.sign ≠ 0 := by
  cases direction <;> decide

theorem comparison_of_before {a b : K} (h : direction.before a b) :
    comparison a b = direction.sign := by
  unfold comparison
  cases direction with
  | increasing => exact if_pos h
  | decreasing => exact (if_neg (lt_asymm h)).trans (if_pos h)

theorem comparison_neighbours (h : values.Pairwise direction.before) :
    ∀ pair ∈ values.zip values.tail, comparison pair.1 pair.2 = direction.sign := by
  induction values with
  | nil => exact nofun
  | cons first values ih =>
    obtain ⟨hfirst, hrest⟩ := List.pairwise_cons.mp h
    cases values with
    | nil => exact nofun
    | cons second values =>
      intro pair hpair
      rcases List.mem_cons.mp hpair with rfl | hpair
      · exact comparison_of_before (hfirst second List.mem_cons_self)
      · exact ih hrest pair hpair

/-- The direction that an index vector goes in is the one it is checked for. -/
theorem eq_of_validateIndex (hvalid : validateIndex values = .ok other) (hlength : 2 ≤ values.length)
    (h : values.Pairwise direction.before) : other = direction := by
  unfold validateIndex at hvalid
  rw [if_neg (by omega)] at hvalid
  obtain ⟨found, hloop, hvalid⟩ := Loops.ok_of_bind hvalid
  have hfound : values.zip values.tail ≠ [] → found = direction.sign := by
    refine @Loops.foldlM_partial _ _ _ _ (fun done found => done ≠ [] → found = direction.sign) _ _ _
      (fun hne => absurd rfl hne) ?_ hloop
    intro done pair todo hitems current next _ hstep _
    have hpair := comparison_neighbours h pair (by rw [hitems]; simp)
    rw [hpair, if_neg direction.sign_ne_zero] at hstep
    split at hstep
    · cases hstep
    · exact (Except.ok.inj hstep).symm
  have hpairs : values.zip values.tail ≠ [] := by
    refine List.ne_nil_of_length_pos ?_
    rw [List.length_zip, List.length_tail]
    omega
  rw [hfound hpairs, if_neg direction.sign_ne_zero] at hvalid
  obtain rfl := Except.ok.inj hvalid
  cases direction <;> rfl

end Values

section Lines

variable [Field K] [LinearOrder K] [IsStrictOrderedRing K] {direction : IndexDirection}
  {v : ℕ → K} {length p : ℕ} {u u' w w' : K}

theorem Follows.rising_neg (h : IndexDirection.decreasing.Follows length v) :
    Rising length fun i => -v i :=
  fun i j hij hj => neg_lt_neg (h i j hij hj)

/-- The interpolation of values that go in a direction goes in it. -/
theorem before_at_iff (hv : direction.Follows length v) (h : At length v u w)
    (h' : At length v u' w') : direction.before w w' ↔ u < u' := by
  cases direction with
  | increasing => exact h.lt_iff hv h'
  | decreasing => exact neg_lt_neg_iff.symm.trans (h.neg.lt_iff hv.rising_neg h'.neg)

theorem before_line_iff (h : direction.before (v p) (v (p + 1))) :
    direction.before (line v p u) (line v p u') ↔ u < u' := by
  cases direction with
  | increasing => exact (PiecewiseLinear.line_lt_iff h)
  | decreasing =>
    rw [← PiecewiseLinear.line_lt_iff (v := fun i => -v i) (neg_lt_neg h),
      PiecewiseLinear.line_neg, PiecewiseLinear.line_neg, neg_lt_neg_iff]
    rfl

/-- On which sides of a line's nodes a value of it lies. -/
theorem not_before_line_iff (h : direction.before (v p) (v (p + 1))) :
    (¬direction.before (line v p u) (v p) ↔ (p : K) ≤ u) ∧
      (¬direction.before (v (p + 1)) (line v p u) ↔ u ≤ p + 1) := by
  have hstart : direction.before (line v p u) (line v p p) ↔ u < p := before_line_iff h
  have hend : direction.before (line v p (p + 1)) (line v p u) ↔ p + 1 < u := before_line_iff h
  rw [PiecewiseLinear.line_self] at hstart
  rw [PiecewiseLinear.line_succ] at hend
  rw [hstart, hend, not_lt, not_lt]
  exact ⟨Iff.rfl, Iff.rfl⟩

theorem line_mem_uIcc_iff (h : direction.before (v p) (v (p + 1))) :
    line v p u ∈ Set.uIcc (v p) (v (p + 1)) ↔ (p : K) ≤ u ∧ u ≤ p + 1 := by
  obtain ⟨hstart, hend⟩ := not_before_line_iff (u := u) h
  rw [mem_uIcc_iff h, hstart, hend]

/-- The place of a value on a line, and on which sides of the line's nodes it lies. -/
theorem place_on_line (h : direction.before (v p) (v (p + 1))) (w : K) :
    line v p (p + (w - v p) / (v (p + 1) - v p)) = w ∧
      ((p : K) ≤ p + (w - v p) / (v (p + 1) - v p) ↔ ¬direction.before w (v p)) ∧
      (p + (w - v p) / (v (p + 1) - v p) ≤ p + 1 ↔ ¬direction.before (v (p + 1)) w) := by
  have hline := PiecewiseLinear.line_of_div (ne_of_before h) w
  obtain ⟨hstart, hend⟩ := not_before_line_iff (u := p + (w - v p) / (v (p + 1) - v p)) h
  rw [hline] at hstart hend
  exact ⟨hline, hstart.symm, hend.symm⟩

/-- A place has one value, and a value one place. -/
theorem place_unique (hv : direction.Follows length v) (h : At length v u w)
    (h' : At length v u' w) : u = u' := by
  have hle : ¬u < u' := fun hlt => before_irrefl direction w ((before_at_iff hv h h').mpr hlt)
  have hge : ¬u' < u := fun hlt => before_irrefl direction w ((before_at_iff hv h' h).mpr hlt)
  exact le_antisymm (not_lt.mp hge) (not_lt.mp hle)

end Lines

end IndexDirection

/-! ## The index vector -/

namespace IndexVector

variable [Field K] [LinearOrder K] [IsStrictOrderedRing K] {length : ℕ}
  {index : IndexVector length K} {psi u : K}

/-- An index value lies outside when it comes before the place half an interval below the first
node, or after the one past the last node. -/
theorem outside_iff (hlength : 2 ≤ length) (hv : index.direction.Follows length index.value) :
    index.outside psi = true ↔ index.direction.before psi (line index.value 0 (-(1 / 2))) ∨
      index.direction.before (line index.value (length - 2) (length - 1 / 2)) psi := by
  obtain ⟨k, rfl⟩ := Nat.exists_eq_add_of_le' hlength
  have hstart : line index.value 0 (-(1 / 2)) =
      index.value 0 - 1 / 2 * (index.value 1 - index.value 0) := by
    unfold line
    push_cast
    ring
  have hend : line index.value (k + 2 - 2) ((k + 2 : ℕ) - 1 / 2) =
      index.value (k + 1) + 1 / 2 * (index.value (k + 1) - index.value k) := by
    rw [Nat.add_sub_cancel]
    unfold line
    push_cast
    ring
  have hfirst := hv 0 1 Nat.zero_lt_one (by omega)
  have hlast := hv k (k + 1) (Nat.lt_succ_self k) (by omega)
  rw [hstart, hend]
  unfold outside
  rw [index.length_values]
  dsimp only
  rw [show k + 2 - 1 = k + 1 from rfl, Nat.add_sub_cancel]
  cases hdirection : index.direction with
  | increasing =>
    rw [hdirection] at hfirst hlast
    have hfirst : 0 < index.value 1 - index.value 0 := sub_pos.mpr hfirst
    have hlast : 0 < index.value (k + 1) - index.value k := sub_pos.mpr hlast
    rw [Bool.or_eq_true, decide_eq_true_iff, decide_eq_true_iff, abs_of_pos hfirst,
      abs_of_pos hlast]
    rfl
  | decreasing =>
    rw [hdirection] at hfirst hlast
    have hfirst : index.value 1 - index.value 0 < 0 := sub_neg.mpr hfirst
    have hlast : index.value (k + 1) - index.value k < 0 := sub_neg.mpr hlast
    rw [Bool.or_eq_true, decide_eq_true_iff, decide_eq_true_iff, abs_of_neg hfirst,
      abs_of_neg hlast, mul_neg, mul_neg, ← sub_eq_add_neg, sub_neg_eq_add]
    rfl

omit [IsStrictOrderedRing K] in
/-- The segment of an index value, for both directions. -/
theorem segment_eq (index : IndexVector length K) (psi : K) :
    index.segment psi =
      if index.direction.before psi (index.value 0) then 0
      else if index.direction.before (index.value (length - 1)) psi then length - 1 - 1
      else
        let lower := partitionPoint (fun value => decide (index.direction.before value psi))
          index.values
        if lower ≠ 0 then lower - 1
        else partitionPoint (fun value => decide (¬index.direction.before psi value))
          index.values - 1 := by
  unfold segment
  rw [index.length_values]
  cases hdirection : index.direction with
  | increasing =>
    simp only [IndexDirection.before, not_lt]
    rfl
  | decreasing =>
    simp only [IndexDirection.before, not_lt]
    rfl

omit [IsStrictOrderedRing K] in
theorem any_value (index : IndexVector length K) (p : K → Bool) {i : ℕ} (hi : i < length) :
    index.values[i]?.any p = p (index.value i) := by
  have hlength : i < index.values.length := by
    rw [index.length_values]
    exact hi
  unfold value
  rw [List.getD_eq_getElem?_getD, List.getElem?_eq_getElem hlength]
  rfl

omit [IsStrictOrderedRing K] in
theorem partitioned (index : IndexVector length K) {p : K → Bool}
    (h : ∀ i j, i < j → j < length → p (index.value j) = true → p (index.value i) = true) :
    PartitionPoint.Partitioned p index.values := by
  intro i j hij hj hholds
  rw [index.length_values] at hj
  rw [any_value index p (by omega)] at hholds ⊢
  rcases hij.eq_or_lt with rfl | hlt
  · exact hholds
  · exact h i j hlt hj hholds

omit [IsStrictOrderedRing K] in
/-- The nodes of a segment are on both sides of the index value, unless it lies past an end. -/
theorem segment_spec (index : IndexVector length K) (psi : K) (hlength : 2 ≤ length)
    (hv : index.direction.Follows length index.value) :
    index.segment psi + 1 < length ∧
      (index.segment psi = 0 ∨ ¬index.direction.before psi (index.value (index.segment psi))) ∧
      (index.segment psi + 2 = length ∨
        ¬index.direction.before (index.value (index.segment psi + 1)) psi) := by
  rw [segment_eq]
  by_cases hfirst : index.direction.before psi (index.value 0)
  · rw [if_pos hfirst]
    refine ⟨by omega, .inl rfl, .inr fun hlate => ?_⟩
    exact IndexDirection.before_asymm (hv 0 1 Nat.zero_lt_one (by omega))
      (IndexDirection.before_trans hlate hfirst)
  · rw [if_neg hfirst]
    by_cases hlast : index.direction.before (index.value (length - 1)) psi
    · rw [if_pos hlast]
      refine ⟨by omega, .inr fun hearly => ?_, .inl (by omega)⟩
      exact IndexDirection.before_asymm (hv (length - 1 - 1) (length - 1) (by omega) (by omega))
        (IndexDirection.before_trans hlast hearly)
    · rw [if_neg hlast]
      dsimp only
      have hpoint := PartitionPoint.isPoint (index.partitioned
        (p := fun value => decide (index.direction.before value psi)) fun i j hij hj hholds =>
          decide_eq_true (IndexDirection.before_trans (hv i j hij hj) (of_decide_eq_true hholds)))
      generalize partitionPoint (fun value => decide (index.direction.before value psi))
        index.values = lower at hpoint ⊢
      have hle : lower < length := by
        by_contra hge
        have hholds := hpoint.before (length - 1) (by omega)
        rw [any_value index _ (by omega)] at hholds
        exact hlast (of_decide_eq_true hholds)
      have hnext := hpoint.after lower le_rfl (index.length_values.symm ▸ hle)
      rw [any_value index _ hle] at hnext
      have hnext : ¬index.direction.before (index.value lower) psi := of_decide_eq_false hnext
      by_cases hlower : lower = 0
      · subst hlower
        -- The first node is the index value, so it is all that does not come after it.
        have heq : psi = index.value 0 := IndexDirection.eq_of_not_before hfirst hnext
        have hone : partitionPoint (fun value => decide (¬index.direction.before psi value))
            index.values = 1 := by
          refine PartitionPoint.partitionPoint_eq ⟨?_, fun i hi => ?_, fun i hi hlt => ?_⟩
          · rw [index.length_values]
            omega
          · obtain rfl : i = 0 := by omega
            rw [any_value index _ hle]
            exact decide_eq_true hfirst
          · rw [index.length_values] at hlt
            rw [any_value index _ hlt, decide_eq_false_iff_not, not_not, heq]
            exact hv 0 i (by omega) hlt
        rw [if_neg (not_not.mpr rfl), hone]
        exact ⟨by omega, .inl rfl, .inr fun hlate => IndexDirection.before_asymm
          (hv 0 1 Nat.zero_lt_one (by omega)) (heq ▸ hlate)⟩
      · have hprevious := hpoint.before (lower - 1) (by omega)
        rw [any_value index _ (by omega)] at hprevious
        rw [if_pos hlower, Nat.sub_add_cancel (Nat.pos_of_ne_zero hlower)]
        exact ⟨hle, .inr (IndexDirection.before_asymm (of_decide_eq_true hprevious)), .inr hnext⟩

end IndexVector

/-! ## Index values and array coordinates -/

namespace TabularTable

section Place

variable [Field K] [LinearOrder K] {n : ℕ}

/-- Whether an array coordinate is in the table, half an interval past its ends included. -/
def InRange (table : TabularTable n K) (axis : Fin n) (upsilon : K) : Prop :=
  1 / 2 ≤ upsilon ∧ upsilon ≤ table.lengths axis + 1 / 2

/-- Whether an index value is the one of an array coordinate. -/
def AtIndex (table : TabularTable n K) (axis : Fin n) (upsilon psi : K) : Prop :=
  match table.indices axis with
  | none => psi = upsilon
  | some index => At (table.lengths axis) index.value (upsilon - 1) psi

/-- Whether an axis has an index vector that goes in its direction, or none. -/
def MonotonicIndex (table : TabularTable n K) (axis : Fin n) : Prop :=
  ∀ index, table.indices axis = some index →
    index.direction.Follows (table.lengths axis) index.value

end Place

variable [Field K] [LinearOrder K] [IsStrictOrderedRing K] {n : ℕ} {table : TabularTable n K}
  {axis : Fin n} {psi psi' upsilon upsilon' : K}

theorem AtIndex.unique (h : table.AtIndex axis upsilon psi) (h' : table.AtIndex axis upsilon psi') :
    psi = psi' := by
  unfold AtIndex at h h'
  cases hindex : table.indices axis with
  | none =>
    rw [hindex] at h h'
    exact h.trans h'.symm
  | some index =>
    rw [hindex] at h h'
    exact PiecewiseLinear.At.unique h h'

theorem AtIndex.place_unique (hindex : table.MonotonicIndex axis)
    (h : table.AtIndex axis upsilon psi) (h' : table.AtIndex axis upsilon' psi) :
    upsilon = upsilon' := by
  unfold AtIndex at h h'
  cases hsome : table.indices axis with
  | none =>
    rw [hsome] at h h'
    exact h.symm.trans h'
  | some index =>
    rw [hsome] at h h'
    exact sub_left_injective (IndexDirection.place_unique (hindex index hsome) h h')

/-- An index value that has an array coordinate is the one of it. -/
theorem at_of_indexToArray (hlength : 2 ≤ table.lengths axis) (hindex : table.MonotonicIndex axis)
    (h : table.indexToArray axis psi = .ok upsilon) : table.AtIndex axis upsilon psi := by
  unfold indexToArray at h
  unfold AtIndex
  cases hsome : table.indices axis with
  | none =>
    rw [hsome] at h
    exact Except.ok.inj h
  | some index =>
    rw [hsome] at h
    dsimp only at h ⊢
    rw [if_neg (by rw [index.length_values]; omega)] at h
    have hv := hindex index hsome
    obtain ⟨hlt, habove, hbelow⟩ := index.segment_spec psi hlength hv
    generalize index.segment psi = p at h hlt habove hbelow
    have hbefore := hv p (p + 1) (Nat.lt_succ_self p) hlt
    split at h
    · cases h
    · split at h
      · cases h
      · next hne =>
        have hplace := Except.ok.inj h
        have hu : upsilon - 1 = p + (psi - index.value p) / (index.value (p + 1) - index.value p) := by
          rw [← hplace]
          ring
        obtain ⟨hline, hstart, hend⟩ := IndexDirection.place_on_line hbefore psi
        rw [← hu] at hline hstart hend
        exact ⟨p, ⟨hlt, habove.imp_right hstart.mpr, hbelow.imp_right hend.mpr⟩, hline⟩

/-- The index value of an array coordinate in the table has that array coordinate. -/
theorem indexToArray_of_at (hlength : 2 ≤ table.lengths axis) (hindex : table.MonotonicIndex axis)
    (hrange : table.InRange axis upsilon) (h : table.AtIndex axis upsilon psi) :
    table.indexToArray axis psi = .ok upsilon := by
  have hdefined : ∃ found, table.indexToArray axis psi = .ok found := by
    unfold AtIndex at h
    unfold indexToArray
    cases hsome : table.indices axis with
    | none => exact ⟨psi, rfl⟩
    | some index =>
      rw [hsome] at h
      dsimp only at h ⊢
      have hv := hindex index hsome
      have hinside : ¬index.outside psi = true := by
        rw [IndexVector.outside_iff hlength hv]
        rintro (hbelow | habove)
        · have hfirst : At (table.lengths axis) index.value (-(1 / 2))
              (line index.value 0 (-(1 / 2))) :=
            ⟨0, ⟨by omega, .inl rfl, .inr (by norm_num)⟩, rfl⟩
          have hlt := (IndexDirection.before_at_iff hv h hfirst).mp hbelow
          have hge := hrange.1
          linarith
        · have hlast : At (table.lengths axis) index.value (table.lengths axis - 1 / 2)
              (line index.value (table.lengths axis - 2) (table.lengths axis - 1 / 2)) := by
            refine ⟨table.lengths axis - 2, ⟨by omega, .inr ?_, .inl (by omega)⟩, rfl⟩
            rw [Nat.cast_sub hlength]
            push_cast
            linarith
          have hlt := (IndexDirection.before_at_iff hv hlast h).mp habove
          have hle := hrange.2
          linarith
      obtain ⟨hlt, -, -⟩ := index.segment_spec psi hlength hv
      have hne := IndexDirection.ne_of_before (hv _ _ (Nat.lt_succ_self (index.segment psi)) hlt)
      rw [if_neg (by rw [index.length_values]; omega), if_neg hinside, if_neg hne]
      exact ⟨_, rfl⟩
  obtain ⟨found, hfound⟩ := hdefined
  have hplace := at_of_indexToArray hlength hindex hfound
  rw [hfound, hplace.place_unique hindex h]

variable [FloorRing K]

theorem at_arrayToIndex (hlength : 2 ≤ table.lengths axis) (hupsilon : 1 / 2 ≤ upsilon) :
    table.AtIndex axis upsilon (table.arrayToIndex axis upsilon) := by
  unfold AtIndex arrayToIndex
  cases hsome : table.indices axis with
  | none => rfl
  | some index =>
    dsimp only
    rw [index.length_values, if_neg (by omega)]
    have hline : index.value (min (⌊upsilon⌋₊ - 1) (table.lengths axis - 2)) +
        (upsilon - (min (⌊upsilon⌋₊ - 1) (table.lengths axis - 2) : ℕ) - 1) *
          (index.value (min (⌊upsilon⌋₊ - 1) (table.lengths axis - 2) + 1) -
            index.value (min (⌊upsilon⌋₊ - 1) (table.lengths axis - 2))) =
        line index.value (min (⌊upsilon⌋₊ - 1) (table.lengths axis - 2)) (upsilon - 1) := by
      unfold line
      ring
    rw [hline]
    have hpos : 0 ≤ upsilon := by linarith
    have hfloor := Nat.floor_le hpos
    have hceil := Nat.lt_floor_add_one upsilon
    generalize ⌊upsilon⌋₊ = position at hfloor hceil ⊢
    refine ⟨_, ⟨by omega, ?_, ?_⟩, rfl⟩
    · rcases Nat.eq_zero_or_pos (position - 1) with hzero | hpositive
      · exact .inl (by omega)
      · right
        have hle : min (position - 1) (table.lengths axis - 2) + 1 ≤ position := by omega
        have hle : ((min (position - 1) (table.lengths axis - 2) : ℕ) : K) + 1 ≤ position := by
          exact_mod_cast hle
        linarith
    · rcases Nat.lt_or_ge (position - 1) (table.lengths axis - 2) with hlt | hge
      · right
        rw [min_eq_left hlt.le]
        have hle : (position : K) ≤ (position - 1 : ℕ) + 1 := by
          exact_mod_cast (by omega : position ≤ position - 1 + 1)
        linarith
      · exact .inl (by omega)

/-! ## Intervals -/

theorem expectUsize_eq {value : ℤ} {position : ℕ} (h : expectUsize value = .ok position) :
    (position : ℤ) = value := by
  unfold expectUsize at h
  split at h
  · cases h
  · next hle =>
    rw [← Except.ok.inj h, Int.toNat_of_nonneg (not_lt.mp hle)]

theorem expectUsize_ok {value : ℤ} (h : 0 ≤ value) : expectUsize value = .ok value.toNat :=
  if_neg (not_lt.mpr h)

/-- The interval of a point along an axis holds its array coordinate. -/
theorem axisInterval_spec {intermediate : K} {interval : Interval K}
    (h : table.axisInterval axis intermediate = .ok interval) :
    ∃ upsilon, table.indexToArray axis (intermediate + table.referenceIndices axis) = .ok upsilon ∧
      table.InRange axis upsilon ∧ interval.position + interval.fraction = upsilon - 1 ∧
      (table.lengths axis = 1 → interval.position = 0) ∧
      (1 < table.lengths axis → Covers (table.lengths axis) interval.position (upsilon - 1)) := by
  unfold axisInterval at h
  obtain ⟨upsilon, hupsilon, h⟩ := Loops.ok_of_bind h
  refine ⟨upsilon, hupsilon, ?_⟩
  by_cases hrange : 1 / 2 ≤ upsilon ∧ upsilon ≤ table.lengths axis + 1 / 2
  swap
  · rw [if_pos hrange] at h
    cases h
  rw [if_neg (not_not.mpr hrange)] at h
  have hfloor := Int.floor_le upsilon
  have hceil := Int.lt_floor_add_one upsilon
  have hlengths : 0 < table.lengths axis := table.lengths_pos axis
  have hfirst := hrange.1
  have hlast := hrange.2
  generalize ⌊upsilon⌋ = whole at h hfloor hceil
  have hnonneg : 0 ≤ whole := by
    have hlt : (-1 : K) < whole := by linarith
    have hlt : (-1 : ℤ) < whole := by exact_mod_cast hlt
    omega
  have hwhole : whole ≤ table.lengths axis := by
    have hlt : (whole : K) < table.lengths axis + 1 := by linarith
    have hlt : whole < table.lengths axis + 1 := by exact_mod_cast hlt
    omega
  refine ⟨hrange, ?_⟩
  by_cases hzero : whole = 0
  · rw [if_pos hzero] at h
    obtain ⟨position, hposition, h⟩ := Loops.ok_of_bind h
    obtain rfl := Except.ok.inj h
    have hposition := expectUsize_eq hposition
    obtain rfl : position = 0 := by omega
    subst hzero
    rw [Int.cast_zero, zero_add] at hceil
    refine ⟨by push_cast; ring, fun _ => rfl, fun hlong => ⟨by omega, .inl rfl, .inr ?_⟩⟩
    push_cast
    linarith
  · rw [if_neg hzero] at h
    split at h
    · cases h
    by_cases hend : whole = table.lengths axis ∧ 1 < table.lengths axis
    · rw [if_pos hend] at h
      obtain ⟨position, hposition, h⟩ := Loops.ok_of_bind h
      obtain rfl := Except.ok.inj h
      have hposition := expectUsize_eq hposition
      have hcast : (position : K) = whole - 1 - 1 := by
        exact_mod_cast congrArg (Int.cast (R := K)) hposition
      dsimp only
      refine ⟨by rw [hcast]; ring, fun hone => by omega, fun _ => ⟨by omega, .inr ?_, .inl (by omega)⟩⟩
      rw [hcast]
      linarith
    · rw [if_neg hend] at h
      obtain ⟨position, hposition, h⟩ := Loops.ok_of_bind h
      obtain rfl := Except.ok.inj h
      have hposition := expectUsize_eq hposition
      have hcast : (position : K) = whole - 1 := by
        exact_mod_cast congrArg (Int.cast (R := K)) hposition
      dsimp only
      refine ⟨by rw [hcast]; ring, fun hone => by omega, fun hlong => ⟨by omega, .inr ?_, .inr ?_⟩⟩
      · rw [hcast]
        linarith
      · rw [hcast]
        linarith

/-- A point whose array coordinate is in the table lies in an interval. -/
theorem axisInterval_ok {intermediate : K} (hlength : table.lengths axis ≤ isizeMax)
    (h : table.indexToArray axis (intermediate + table.referenceIndices axis) = .ok upsilon)
    (hrange : table.InRange axis upsilon) :
    ∃ interval, table.axisInterval axis intermediate = .ok interval := by
  have hfirst : 1 / 2 ≤ upsilon := hrange.1
  have hnonneg : 0 ≤ ⌊upsilon⌋ := Int.floor_nonneg.mpr (by linarith)
  unfold InRange at hrange
  unfold axisInterval
  dsimp only
  rw [Loops.bind_ok h, if_neg (not_not.mpr hrange)]
  by_cases hzero : ⌊upsilon⌋ = 0
  · rw [if_pos hzero, Loops.bind_ok (expectUsize_ok (by omega))]
    exact ⟨_, rfl⟩
  · rw [if_neg hzero, if_neg (by omega)]
    split
    · next hend =>
      rw [Loops.bind_ok (expectUsize_ok (by omega))]
      exact ⟨_, rfl⟩
    · rw [Loops.bind_ok (expectUsize_ok (by omega))]
      exact ⟨_, rfl⟩

end TabularTable

/-! ## The lookup of a one-axis table -/

namespace TabularTable

variable [Field K] [LinearOrder K] {table : TabularTable 1 K}

omit [Field K] in
theorem length_coordinates_one (table : TabularTable 1 K) :
    table.coordinates.length = table.lengths 0 := by
  rw [table.length_coordinates, Nat.one_mul]
  exact Nat.mul_one _

theorem load_node {position : ℕ} (h : position < table.lengths 0) :
    load table.coordinates position = .ok (table.node position) := by
  have hlength : position < table.coordinates.length := table.length_coordinates_one.symm ▸ h
  refine load_of_getElem? ?_
  unfold node
  rw [List.getD_eq_getElem?_getD, List.getElem?_eq_getElem hlength]
  rfl

omit [Field K] in
theorem length_le_isizeMax (table : TabularTable 1 K) : table.lengths 0 ≤ isizeMax := by
  have hslice := table.slice
  rw [length_coordinates_one] at hslice
  omega

variable [IsStrictOrderedRing K] [FloorRing K] {intermediate w : K}

/-- The lookup gives the coordinate over the array coordinate of the index value. -/
theorem worldOneDimensional_iff (hlength : 2 ≤ table.lengths 0) (hindex : table.MonotonicIndex 0) :
    table.worldOneDimensional 0 intermediate = .ok w ↔
      ∃ upsilon, table.AtIndex 0 upsilon (intermediate + table.referenceIndices 0) ∧
        table.InRange 0 upsilon ∧ At (table.lengths 0) table.node (upsilon - 1) w := by
  have hworld : ∀ interval, table.axisInterval 0 intermediate = .ok interval →
      ∀ upsilon : K, interval.position + interval.fraction = upsilon - 1 →
        interval.position + 1 < table.lengths 0 →
        table.worldOneDimensional 0 intermediate =
          .ok (line table.node interval.position (upsilon - 1)) := by
    intro interval hinterval upsilon hplace hlt
    unfold worldOneDimensional
    rw [Loops.bind_ok hinterval, if_neg (by omega), Loops.bind_ok (load_node (by omega)),
      Loops.bind_ok (load_node hlt)]
    congr 1
    rw [← hplace]
    unfold line
    ring
  constructor
  · intro h
    obtain ⟨interval, hinterval, -⟩ := Loops.ok_of_bind h
    obtain ⟨upsilon, hupsilon, hrange, hplace, -, hcovers⟩ := axisInterval_spec hinterval
    have hcovers := hcovers hlength
    rw [hworld interval hinterval upsilon hplace hcovers.lt] at h
    exact ⟨upsilon, at_of_indexToArray hlength hindex hupsilon, hrange, _, hcovers, Except.ok.inj h⟩
  · rintro ⟨upsilon, hat, hrange, hw⟩
    have hupsilon := indexToArray_of_at hlength hindex hrange hat
    obtain ⟨interval, hinterval⟩ := axisInterval_ok table.length_le_isizeMax hupsilon hrange
    obtain ⟨found, hfound, -, hplace, -, hcovers⟩ := axisInterval_spec hinterval
    obtain rfl := Except.ok.inj (hfound.symm.trans hupsilon)
    have hcovers := hcovers hlength
    rw [hworld interval hinterval found hplace hcovers.lt]
    exact congrArg Except.ok (PiecewiseLinear.At.unique ⟨_, hcovers, rfl⟩ hw)

end TabularTable

/-! ## The search of a one-axis table -/

namespace TabularTransform

variable [Field K] [LinearOrder K] [IsStrictOrderedRing K] {transform : TabularTransform 1 K}
  {direction : IndexDirection} {target u : K}

/-- The one case that the search leaves out: a table of two nodes, past its last node. -/
def PastShort (transform : TabularTransform 1 K) (upsilon : K) : Prop :=
  transform.lengths 0 = 2 ∧ 2 < upsilon

/-- The half interval past an end that the search tries. -/
theorem endInterval_spec (hlength : 2 ≤ transform.lengths 0)
    (hnodes : direction.Follows (transform.lengths 0) transform.node) {position : ℕ}
    {interval : Interval K} (hposition : position = 0 ∨ position = transform.lengths 0 - 2)
    (h : transform.endInterval target position = some interval) :
    interval.position = position ∧
      line transform.node position (position + interval.fraction) = target ∧
      if position = 0 then -(1 / 2) ≤ interval.fraction ∧ interval.fraction ≤ 0
      else 1 ≤ interval.fraction ∧ interval.fraction ≤ 3 / 2 := by
  have hbefore := hnodes position (position + 1) (Nat.lt_succ_self position) (by omega)
  have hline := (IndexDirection.place_on_line hbefore target).1
  unfold endInterval at h
  dsimp only at h
  split at h
  · cases h
  · by_cases hzero : position = 0
    · rw [if_pos hzero] at h ⊢
      split at h
      · next hallowed =>
        obtain rfl := Option.some.inj h
        obtain ⟨hstart, hend⟩ := Bool.and_eq_true_iff.mp hallowed
        exact ⟨rfl, hline, of_decide_eq_true hstart, of_decide_eq_true hend⟩
      · cases h
    · rw [if_neg hzero] at h ⊢
      split at h
      · next hallowed =>
        obtain rfl := Option.some.inj h
        obtain ⟨hstart, hend⟩ := Bool.and_eq_true_iff.mp hallowed
        exact ⟨rfl, hline, of_decide_eq_true hstart, of_decide_eq_true hend⟩
      · cases h

/-- An interval that the search finds holds the target. -/
theorem locate_at {runs : List MonotonicRun} (hruns : ∀ run ∈ runs, transform.IsRun 0 run)
    (hlength : 2 ≤ transform.lengths 0)
    (hnodes : direction.Follows (transform.lengths 0) transform.node) {interval : Interval K}
    (h : transform.locateOneDimensional 0 runs target = .ok interval) :
    At (transform.lengths 0) transform.node (interval.position + interval.fraction) target ∧
      transform.InRange 0 (interval.position + 1 + interval.fraction) ∧
      ¬transform.PastShort (interval.position + 1 + interval.fraction) := by
  have hlengths : (2 : K) ≤ transform.lengths 0 := by exact_mod_cast hlength
  unfold locateOneDimensional at h
  split at h
  · next hfirst =>
    obtain rfl := Except.ok.inj h
    rw [hfirst]
    refine ⟨⟨0, ⟨by omega, .inl rfl, .inr (by norm_num)⟩, ?_⟩, ⟨?_, ?_⟩, ?_⟩
    · rw [add_zero]
      exact PiecewiseLinear.line_self _ _
    · norm_num
    · norm_num
      linarith
    · rintro ⟨-, hpast⟩
      norm_num at hpast
  · cases hfound : runs.findSome? (transform.runInterval · target) with
    | some found =>
      rw [hfound] at h
      obtain rfl := Except.ok.inj h
      obtain ⟨run, hrun, hsome⟩ := List.exists_of_findSome?_eq_some hfound
      rcases runInterval_spec (hruns run hrun) target with
        ⟨hnone, -⟩ | ⟨position, hposition, -, -, ⟨hlt, -, hmem⟩, -⟩
      · rw [hnone] at hsome
        cases hsome
      · rw [hposition] at hsome
        obtain rfl := Option.some.inj hsome
        rw [transform.length_coordinates_one] at hlt
        have hbefore := hnodes position (position + 1) (Nat.lt_succ_self position) hlt
        obtain ⟨hstart, hend⟩ := (IndexDirection.mem_uIcc_iff hbefore).mp hmem
        obtain ⟨hline, hfrom, hto⟩ := IndexDirection.place_on_line hbefore target
        replace hstart := hfrom.mpr hstart
        replace hend := hto.mpr hend
        have hposition : (0 : K) ≤ position := Nat.cast_nonneg position
        have hlast : (position : K) + 2 ≤ transform.lengths 0 := by exact_mod_cast hlt
        dsimp only
        refine ⟨⟨position, ⟨hlt, .inr hstart, .inr hend⟩, hline⟩, ⟨?_, ?_⟩, ?_⟩
        · linarith
        · linarith
        · rintro ⟨htwo, hpast⟩
          obtain rfl : position = 0 := by omega
          rw [Nat.cast_zero] at hend hpast
          linarith
    | none =>
      rw [hfound] at h
      dsimp only at h
      rw [if_pos (by omega)] at h
      cases hended : [0, transform.lengths 0 - 2].findSome? (transform.endInterval target) with
      | none =>
        rw [hended] at h
        cases h
      | some found =>
        rw [hended] at h
        obtain rfl := Except.ok.inj h
        obtain ⟨position, hposition, hsome⟩ := List.exists_of_findSome?_eq_some hended
        have hposition : position = 0 ∨ position = transform.lengths 0 - 2 := by simpa using hposition
        obtain ⟨heq, hline, hfraction⟩ := endInterval_spec hlength hnodes hposition hsome
        rw [heq]
        by_cases hzero : position = 0
        · rw [if_pos hzero] at hfraction
          subst hzero
          rw [Nat.cast_zero] at hline ⊢
          refine ⟨⟨0, ⟨by omega, .inl rfl, .inr ?_⟩, hline⟩, ⟨?_, ?_⟩, ?_⟩
          · push_cast
            linarith [hfraction.2]
          · linarith [hfraction.1]
          · linarith [hfraction.2]
          · rintro ⟨-, hpast⟩
            linarith [hfraction.2]
        · rw [if_neg hzero] at hfraction
          have hend : (position : K) + 2 = transform.lengths 0 := by
            exact_mod_cast (by omega : position + 2 = transform.lengths 0)
          have hnonneg : (0 : K) ≤ position := Nat.cast_nonneg position
          refine ⟨⟨position, ⟨by omega, .inr ?_, .inl (by omega)⟩, hline⟩, ⟨?_, ?_⟩, ?_⟩
          · linarith [hfraction.1]
          · linarith [hfraction.1]
          · linarith [hfraction.2]
          · rintro ⟨htwo, -⟩
            omega

omit [IsStrictOrderedRing K] in
/-- Where no two neighbours are equal, every interval is usable. -/
theorem usable_of_follows (hindex : transform.MonotonicIndex 0)
    (hnodes : direction.Follows (transform.lengths 0) transform.node) {position : ℕ}
    (h : position + 1 < transform.lengths 0) : transform.usable 0 position = true := by
  have hne : ∀ {direction : IndexDirection} {v : ℕ → K},
      direction.Follows (transform.lengths 0) v → v position ≠ v (position + 1) := by
    intro direction v hv
    exact IndexDirection.ne_of_before (hv position (position + 1) (Nat.lt_succ_self position) h)
  unfold TabularTable.usable
  refine Bool.and_eq_true_iff.mpr ⟨decide_eq_true (hne hnodes), ?_⟩
  cases hsome : transform.indices 0 with
  | none => rfl
  | some index => exact decide_eq_true (hne (hindex index hsome))

omit [IsStrictOrderedRing K] in
/-- The place past an end is the one of the end's line. -/
theorem endInterval_line {position : ℕ}
    (hbefore : direction.before (transform.node position) (transform.node (position + 1)))
    (hplace : if position = 0 then -(1 / 2) ≤ u - position ∧ u - position ≤ 0
      else 1 ≤ u - position ∧ u - position ≤ 3 / 2) :
    transform.endInterval (line transform.node position u) position ≠ none := by
  have hne := IndexDirection.ne_of_before hbefore
  unfold endInterval
  dsimp only
  rw [if_neg hne, PiecewiseLinear.div_of_line hne]
  by_cases hzero : position = 0
  · rw [if_pos hzero] at hplace ⊢
    rw [decide_eq_true hplace.1, decide_eq_true hplace.2]
    exact Option.some_ne_none _
  · rw [if_neg hzero] at hplace ⊢
    rw [decide_eq_true hplace.1, decide_eq_true hplace.2]
    exact Option.some_ne_none _

/-- The coordinate of a place in the table is found, past the last of two nodes apart. -/
theorem locate_ok (hlength : 2 ≤ transform.lengths 0) (hindex : transform.MonotonicIndex 0)
    (hnodes : direction.Follows (transform.lengths 0) transform.node) {upsilon : K}
    (hrange : transform.InRange 0 upsilon) (hpast : ¬transform.PastShort upsilon)
    (h : At (transform.lengths 0) transform.node (upsilon - 1) target) :
    ∃ interval, transform.locateOneDimensional 0 (transform.monotonicRuns 0 0) target =
      .ok interval := by
  obtain ⟨p, hcovers, rfl⟩ := h
  obtain ⟨hfrom, hto⟩ := hrange
  have hlt := hcovers.lt
  have hbefore := hnodes p (p + 1) (Nat.lt_succ_self p) hlt
  unfold locateOneDimensional
  split
  · exact ⟨_, rfl⟩
  cases hfound : (transform.monotonicRuns 0 0).findSome?
      (transform.runInterval · (line transform.node p (upsilon - 1))) with
  | some found => exact ⟨found, rfl⟩
  | none =>
    dsimp only
    rw [if_pos (by omega)]
    cases hended : [0, transform.lengths 0 - 2].findSome?
        (transform.endInterval (line transform.node p (upsilon - 1))) with
    | some found => exact ⟨found, rfl⟩
    | none =>
      -- Neither a run nor an end holds the target, so its place is nowhere.
      exfalso
      have hends := List.findSome?_eq_none_iff.mp hended
      have hinside : ¬((p : K) ≤ upsilon - 1 ∧ upsilon - 1 ≤ p + 1) := by
        rintro ⟨hstart, hend⟩
        have husable := usable_of_follows hindex hnodes hlt
        have hholds : transform.Holds 0 (line transform.node p (upsilon - 1)) p :=
          ⟨transform.length_coordinates_one.symm ▸ hlt, husable,
            (IndexDirection.line_mem_uIcc_iff hbefore).mpr ⟨hstart, hend⟩⟩
        obtain ⟨hruns, hpairwise, hcover⟩ := @TabularTable.monotonicRuns_spec 1 K _ _
          transform.toTabularTable 0 0 (fun hpos => absurd hpos (Nat.lt_irrefl 0))
        obtain ⟨position, hfirst⟩ := hholds.exists_first
        have hsome := findSome_runInterval (fun run hrun => (hruns run hrun).1) hpairwise
          (hcover position (Nat.zero_le _) hfirst.1.1 hfirst.1.2.1) hfirst
        rw [hfound] at hsome
        cases hsome
      rcases lt_or_ge (upsilon - 1) p with hbelow | hstart
      · obtain rfl : p = 0 := hcovers.above.resolve_right (not_le.mpr hbelow)
        rw [Nat.cast_zero] at hbelow
        refine endInterval_line hbefore ?_ (hends 0 List.mem_cons_self)
        rw [if_pos rfl, Nat.cast_zero]
        constructor <;> linarith
      · have hafter : (p : K) + 1 < upsilon - 1 := not_le.mp fun hend => hinside ⟨hstart, hend⟩
        have hlast : p + 2 = transform.lengths 0 := hcovers.below.resolve_right (not_le.mpr hafter)
        have hcast : (p : K) + 2 = transform.lengths 0 := by exact_mod_cast hlast
        have hne : p ≠ 0 := by
          rintro rfl
          rw [Nat.cast_zero] at hafter
          exact hpast ⟨hlast.symm, by linarith⟩
        refine endInterval_line hbefore ?_ (hends p (by simp; omega))
        rw [if_neg hne]
        constructor <;> linarith

variable [FloorRing K] {world : K}

/-- The inverse gives the index value of an array coordinate that the world coordinate is over,
past the last of two nodes apart. -/
theorem inverse_iff (hlength : 2 ≤ transform.lengths 0) (hindex : transform.MonotonicIndex 0)
    (hnodes : direction.Follows (transform.lengths 0) transform.node) {intermediate : K} :
    (transform.locateOneDimensional 0 (transform.monotonicRuns 0 0) world >>=
        transform.intermediate 0) = .ok intermediate ↔
      ∃ upsilon, transform.AtIndex 0 upsilon (intermediate + transform.referenceIndices 0) ∧
        transform.InRange 0 upsilon ∧ At (transform.lengths 0) transform.node (upsilon - 1) world ∧
        ¬transform.PastShort upsilon := by
  obtain ⟨hruns, -, -⟩ := @TabularTable.monotonicRuns_spec 1 K _ _ transform.toTabularTable 0 0
    (fun hpos => absurd hpos (Nat.lt_irrefl 0))
  have hinverse : ∀ interval, transform.locateOneDimensional 0 (transform.monotonicRuns 0 0) world =
      .ok interval → ∃ upsilon : K,
        transform.AtIndex 0 upsilon (transform.arrayToIndex 0 upsilon) ∧
        transform.InRange 0 upsilon ∧ At (transform.lengths 0) transform.node (upsilon - 1) world ∧
        ¬transform.PastShort upsilon ∧ transform.intermediate 0 interval =
          .ok (transform.arrayToIndex 0 upsilon - transform.referenceIndices 0) := by
    intro interval hlocate
    obtain ⟨hat, hrange, hpast⟩ := locate_at (fun run hrun => (hruns run hrun).1) hlength hnodes
      hlocate
    have hplace : (interval.position : K) + interval.fraction =
        interval.position + 1 + interval.fraction - 1 := by ring
    rw [hplace] at hat
    refine ⟨_, TabularTable.at_arrayToIndex hlength hrange.1, hrange, hat, hpast, ?_⟩
    unfold TabularTable.InRange at hrange
    unfold TabularTable.intermediate
    exact if_neg (not_not.mpr hrange)
  constructor
  · intro h
    obtain ⟨interval, hlocate, hintermediate⟩ := Loops.ok_of_bind h
    obtain ⟨upsilon, hat, hrange, hworld, hpast, heq⟩ := hinverse interval hlocate
    obtain rfl := Except.ok.inj (heq.symm.trans hintermediate)
    rw [← sub_add_cancel (transform.arrayToIndex 0 upsilon) (transform.referenceIndices 0)] at hat
    exact ⟨upsilon, hat, hrange, hworld, hpast⟩
  · rintro ⟨upsilon, hat, hrange, hworld, hpast⟩
    obtain ⟨interval, hlocate⟩ := locate_ok hlength hindex hnodes hrange hpast hworld
    obtain ⟨found, hfound, -, hworld', -, heq⟩ := hinverse interval hlocate
    have hsame := sub_left_injective (IndexDirection.place_unique hnodes hworld' hworld)
    rw [hsame] at hfound heq
    rw [Loops.bind_ok hlocate, heq, hfound.unique hat, add_sub_cancel_right]

end TabularTransform

/-! ## Coordinates of an image -/

/-- Replacing one coordinate by what a call gives for it. -/
theorem replace_iff {f : K → Outcome K} {coordinates out : List K} {axis : ℕ} :
    (do
      let value ← load coordinates axis
      let value ← f value
      store coordinates axis value) = .ok out ↔
      ∃ value result, coordinates[axis]? = some value ∧ f value = .ok result ∧
        out = coordinates.set axis result := by
  constructor
  · intro h
    obtain ⟨value, hvalue, h⟩ := Loops.ok_of_bind h
    obtain ⟨result, hresult, h⟩ := Loops.ok_of_bind h
    have hvalue := getElem?_of_load hvalue
    obtain ⟨hlt, -⟩ := List.getElem?_eq_some_iff.mp hvalue
    rw [store_of_lt result hlt] at h
    exact ⟨value, result, hvalue, hresult, (Except.ok.inj h).symm⟩
  · rintro ⟨value, result, hvalue, hresult, rfl⟩
    obtain ⟨hlt, -⟩ := List.getElem?_eq_some_iff.mp hvalue
    rw [Loops.bind_ok (load_of_getElem? hvalue), Loops.bind_ok hresult]
    exact store_of_lt result hlt

/-- Replacing a coordinate once more gives the first coordinates when it gives the first one. -/
theorem replace_back_iff {f : K → Outcome K} {coordinates : List K} {axis : ℕ} {value result : K}
    (hvalue : coordinates[axis]? = some value) :
    (do
      let value ← load (coordinates.set axis result) axis
      let value ← f value
      store (coordinates.set axis result) axis value) = .ok coordinates ↔ f result = .ok value := by
  obtain ⟨hlt, hget⟩ := List.getElem?_eq_some_iff.mp hvalue
  have hself : coordinates.set axis value = coordinates := hget ▸ List.set_getElem_self hlt
  rw [replace_iff]
  constructor
  · rintro ⟨found, back, hfound, hback, heq⟩
    rw [List.getElem?_set_self hlt] at hfound
    obtain rfl := Option.some.inj hfound
    rw [List.set_set] at heq
    have hsame := congrArg (·[axis]?) heq
    rw [hvalue, List.getElem?_set_self hlt] at hsame
    rw [hback, Option.some.inj hsame]
  · intro h
    refine ⟨result, value, List.getElem?_set_self hlt, h, ?_⟩
    rw [List.set_set, hself]

section RoundTrip

variable [Field K] [LinearOrder K]

/-- Values that rise or fall strictly. -/
def StrictlyMonotonic (values : List K) : Prop :=
  ∃ direction : IndexDirection, values.Pairwise direction.before

/-- Whether a point lies past the last node of an axis. -/
def TabularTable.PastLast {n : ℕ} (table : TabularTable n K) (axis : Fin n) (intermediate : K) :
    Prop :=
  match table.indices axis with
  | none => table.lengths axis < intermediate + table.referenceIndices axis
  | some index => index.direction.before (index.value (table.lengths axis - 1))
      (intermediate + table.referenceIndices axis)

variable [IsStrictOrderedRing K]

theorem TabularTable.pastLast_iff {n : ℕ} {table : TabularTable n K} {axis : Fin n}
    {intermediate upsilon : K} (hlength : 2 ≤ table.lengths axis)
    (hindex : table.MonotonicIndex axis)
    (h : table.AtIndex axis upsilon (intermediate + table.referenceIndices axis)) :
    table.PastLast axis intermediate ↔ table.lengths axis < upsilon := by
  unfold TabularTable.AtIndex at h
  unfold TabularTable.PastLast
  cases hsome : table.indices axis with
  | none =>
    rw [hsome] at h
    dsimp only at h ⊢
    rw [h]
  | some index =>
    rw [hsome] at h
    dsimp only at h ⊢
    have hcast : ((table.lengths axis - 2 : ℕ) : K) + 1 = table.lengths axis - 1 := by
      rw [Nat.cast_sub hlength]
      push_cast
      ring
    have hlast : At (table.lengths axis) index.value (table.lengths axis - 1)
        (index.value (table.lengths axis - 1)) := by
      refine ⟨table.lengths axis - 2, ⟨by omega, .inr ?_, .inl (by omega)⟩, ?_⟩
      · rw [← hcast]
        exact (lt_add_one _).le
      · rw [← hcast, PiecewiseLinear.line_succ]
        congr 1
        omega
    rw [IndexDirection.before_at_iff (hindex index hsome) hlast h]
    exact sub_lt_sub_iff_right 1

omit [IsStrictOrderedRing K] in
/-- Where the coordinates and the index values of a table are strictly monotonic, its lookups go
in directions. -/
theorem TabularTransform.follows_of_monotonic {transform : TabularTransform 1 K}
    (hlength : 2 ≤ transform.lengths 0) (hcoordinates : StrictlyMonotonic transform.coordinates)
    (hindex : ∀ index, transform.indices 0 = some index → StrictlyMonotonic index.values) :
    transform.MonotonicIndex 0 ∧
      ∃ direction : IndexDirection, direction.Follows (transform.lengths 0) transform.node := by
  constructor
  · intro index hsome
    obtain ⟨direction, hpairwise⟩ := hindex index hsome
    have hfollows := IndexDirection.Follows.of_pairwise hpairwise
    rw [index.length_values] at hfollows
    rw [IndexDirection.eq_of_validateIndex index.validated
      (index.length_values.symm ▸ hlength) hpairwise]
    exact hfollows
  · obtain ⟨direction, hpairwise⟩ := hcoordinates
    have hfollows := IndexDirection.Follows.of_pairwise hpairwise
    rw [transform.length_coordinates_one] at hfollows
    exact ⟨direction, hfollows⟩

variable [FloorRing K]

omit [IsStrictOrderedRing K] in
theorem TabularTable.toWorld_eq (table : TabularTable 1 K) (coordinates : List K) :
    table.toWorld coordinates = (do
      let value ← load coordinates (table.axes 0)
      let value ← table.worldOneDimensional 0 value
      store coordinates (table.axes 0) value) :=
  dif_pos rfl

omit [IsStrictOrderedRing K] in
theorem TabularTransform.toIntermediate_eq {transform : TabularTransform 1 K}
    {runs : List MonotonicRun} (hinverse : transform.inverse = .runs runs) (coordinates : List K) :
    transform.toIntermediate coordinates = (do
      let value ← load coordinates (transform.axes 0)
      let value ← transform.locateOneDimensional 0 runs value >>= transform.intermediate 0
      store coordinates (transform.axes 0) value) := by
  unfold TabularTransform.toIntermediate
  rw [hinverse]
  simp only [bind_assoc]
  exact dif_pos Nat.zero_lt_one

/-- The inverse of a lookup gives the point back, but for one past the last of two nodes. The
lookup of an inverse always gives the world coordinate back. -/
theorem one_axis_lookup_inverts_iff {descriptor : TabularDescriptor 1 K} {arrays : TabularArrays 1 K}
    {transform : TabularTransform 1 K}
    (h : TabularTransform.fromArrays descriptor arrays = .ok transform)
    (hlength : 2 ≤ transform.lengths 0) (hcoordinates : StrictlyMonotonic transform.coordinates)
    (hindex : ∀ index, transform.indices 0 = some index → StrictlyMonotonic index.values) :
    (∀ coordinates world, transform.toWorld coordinates = .ok world →
      (transform.toIntermediate world = .ok coordinates ↔ ¬(transform.lengths 0 = 2 ∧
        transform.PastLast 0 (coordinates.getD (transform.axes 0) 0)))) ∧
      ∀ world coordinates, transform.toIntermediate world = .ok coordinates →
        transform.toWorld coordinates = .ok world := by
  obtain ⟨hmonotonic, direction, hnodes⟩ :=
    TabularTransform.follows_of_monotonic hlength hcoordinates hindex
  have hinverse := TabularTransform.fromArrays_inverse h
  constructor
  · intro coordinates world hworld
    rw [transform.toWorld_eq, replace_iff] at hworld
    obtain ⟨intermediate, result, hget, hresult, rfl⟩ := hworld
    obtain ⟨upsilon, hat, hrange, hplace⟩ :=
      (TabularTable.worldOneDimensional_iff hlength hmonotonic).mp hresult
    have hpast : transform.PastShort upsilon ↔
        transform.lengths 0 = 2 ∧ transform.PastLast 0 intermediate := by
      unfold TabularTransform.PastShort
      rw [TabularTable.pastLast_iff hlength hmonotonic hat]
      refine and_congr_right fun htwo => ?_
      rw [htwo]
      norm_cast
    rw [TabularTransform.toIntermediate_eq hinverse, replace_back_iff hget,
      TabularTransform.inverse_iff hlength hmonotonic hnodes, List.getD_eq_getElem?_getD, hget,
      Option.getD_some, ← hpast]
    constructor
    · rintro ⟨found, hfound, -, -, hinside⟩
      rwa [hfound.place_unique hmonotonic hat] at hinside
    · exact fun hinside => ⟨upsilon, hat, hrange, hplace, hinside⟩
  · intro world coordinates hintermediate
    rw [TabularTransform.toIntermediate_eq hinverse, replace_iff] at hintermediate
    obtain ⟨value, intermediate, hget, hresult, rfl⟩ := hintermediate
    obtain ⟨upsilon, hat, hrange, hplace, -⟩ :=
      (TabularTransform.inverse_iff hlength hmonotonic hnodes).mp hresult
    rw [transform.toWorld_eq, replace_back_iff hget,
      TabularTable.worldOneDimensional_iff hlength hmonotonic]
    exact ⟨upsilon, hat, hrange, hplace⟩

end RoundTrip

/-- A lookup past the last node of three, and its inverse. -/
theorem one_axis_lookup_inverts_iff_three :
    ∃ transform : TabularTransform 1 ℚ,
      TabularTransform.fromArrays ⟨fun _ => ⟨0, 1, 1⟩, fun _ _ _ => Subsingleton.elim _ _⟩
        ⟨⟨[3], [10, 20, 40], by decide⟩, fun _ => none⟩ = .ok transform ∧
      transform.toIntermediate [45] = .ok [9 / 4] := by
  refine ⟨_, rfl, ?_⟩
  have hinverts := (@one_axis_lookup_inverts_iff ℚ _ _ _ _
    ⟨fun _ => ⟨0, 1, 1⟩, fun _ _ _ => Subsingleton.elim _ _⟩
    ⟨⟨[3], [10, 20, 40], by decide⟩, fun _ => none⟩ _ rfl (by decide)
    ⟨.increasing, by decide +kernel⟩ (by nofun)).1
  exact (hinverts [9 / 4] [45] (by decide +kernel)).mpr fun hpast => absurd hpast.1 (by decide)

/-- The inverse refuses the world coordinate that the lookup gives past the last node of two. -/
theorem one_axis_lookup_past_two :
    ∃ transform : TabularTransform 1 ℚ,
      TabularTransform.fromArrays ⟨fun _ => ⟨0, 1, 1⟩, fun _ _ _ => Subsingleton.elim _ _⟩
        ⟨⟨[2], [10, 20], by decide⟩, fun _ => none⟩ = .ok transform ∧
      2 ≤ transform.lengths 0 ∧ StrictlyMonotonic transform.coordinates ∧
      transform.indices 0 = none ∧ transform.toWorld [5 / 4] = .ok [45 / 2] ∧
      transform.toIntermediate [45 / 2] = tabularDomain 0 :=
  ⟨_, rfl, by decide, ⟨.increasing, by decide +kernel⟩, rfl, by decide +kernel, by decide +kernel⟩

end FitsWell
