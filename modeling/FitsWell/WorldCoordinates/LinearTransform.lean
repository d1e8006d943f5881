import FitsWell.Library.FinLoops
import FitsWell.Library.Triangular
import FitsWell.WorldCoordinates.Sip
import Mathlib.LinearAlgebra.Matrix.Nondegenerate

/-!
# The linear layer of a coordinate description

The matrix from pixel offsets to intermediate coordinates is factored once, by elimination with
pivots that are scaled by their rows, and the factors solve the inverse direction in place.
Arithmetic is exact: a row-major array of floats is a matrix over an ordered field.
-/

namespace FitsWell

open Matrix

variable {n : ℕ} {K : Type}

/-! ## Factors -/

/-- The factors of a matrix: both triangles in one matrix, and the row that each column's step
swapped into place. -/
structure LuFactors (n : ℕ) (K : Type) where
  lu : Matrix (Fin n) (Fin n) K
  swaps : List (Fin n)

namespace LuFactors

/-- The factors as far as the columns are eliminated, and the scale of each row. -/
structure Elimination (n : ℕ) (K : Type) extends LuFactors n K where
  scales : Fin n → K

variable [Field K]

/-- `f64::EPSILON`. -/
def epsilon : K := 1 / 2 ^ 52

section Factor

variable [LinearOrder K]

/-- The largest entry of a row. -/
def rowScale (row : Fin n → K) : K :=
  (List.finRange n).foldl (fun largest k => max largest |row k|) 0

namespace Elimination

/-- Before any column. -/
def start (m : Matrix (Fin n) (Fin n) K) : Elimination n K where
  lu := m
  swaps := []
  scales := fun r => rowScale (m r)

variable (s : Elimination n K) (col : Fin n)

/-- An entry of the column in the scale of its row. A row of zeros has none: zero by zero is
no number. -/
def scaled (r : Fin n) : Option K :=
  if s.scales r = 0 then none else some (|s.lu r col| / s.scales r)

/-- `a > b`, false where either is no number. -/
def exceeds : Option K → Option K → Bool
  | some a, some b => decide (b < a)
  | _, _ => false

/-- The row from `col` on whose scaled entry is the first largest. -/
def pivot : Fin n :=
  ((List.finRange n).filter (col < ·)).foldl
    (fun pivot r => if exceeds (s.scaled col r) (s.scaled col pivot) then r else pivot) col

/-- Swap the rows `col` and `pivot`, with their scales. -/
def swapRows (pivot : Fin n) : Elimination n K :=
  if pivot ≠ col then
    { s with
      lu := s.lu.submatrix (Equiv.swap col pivot) id
      scales := s.scales ∘ Equiv.swap col pivot }
  else
    s

/-- Take the multiple of the pivot row from row `r`, and keep the factor in its place. -/
def eliminateRow (lu : Matrix (Fin n) (Fin n) K) (r : Fin n) : Matrix (Fin n) (Fin n) K :=
  let f := lu r col / lu col col
  lu.updateRow r fun k =>
    if k = col then f
    else if col < k ∧ f ≠ 0 then lu r k - f * lu col k
    else lu r k

/-- Eliminate a column. No pivot is left where the largest entry is within the rounding of its
row. -/
def eliminateColumn : Option (Elimination n K) :=
  let pivot := s.pivot col
  if |s.lu pivot col| ≤ n * epsilon * s.scales pivot then none
  else
    let swapped := s.swapRows col pivot
    some { swapped with
      lu := ((List.finRange n).filter (col < ·)).foldl (eliminateRow col) swapped.lu
      swaps := s.swaps ++ [pivot] }

end Elimination

/-- Factor a matrix. There are none for a singular one. -/
def new (m : Matrix (Fin n) (Fin n) K) : Outcome (Option (LuFactors n K)) :=
  if n = 0 then abort .zeroChunkSize
  else .ok (((List.finRange n).foldlM Elimination.eliminateColumn (.start m)).map (·.toLuFactors))

end Factor

variable (factors : LuFactors n K)

/-- Take from entry `i` what the factors below the diagonal make of those before it. -/
def sweepDown (b : Fin n → K) (i : Fin n) : Fin n → K :=
  Function.update b i (b i - ∑ k ∈ Finset.Iio i, factors.lu i k * b k)

/-- Solve for entry `i`, the entries after it solved. -/
def sweepUp (b : Fin n → K) (i : Fin n) : Fin n → K :=
  Function.update b i
    ((b i - ∑ k ∈ Finset.Ioi i, factors.lu i k * b k) / factors.lu i i)

/-- Replay the swaps. -/
def replay (b : Fin n → K) : Fin n → K :=
  ((List.finRange n).zip factors.swaps).foldl (fun b swap => b ∘ Equiv.swap swap.1 swap.2) b

/-- The `x` that solves `A·x = b`. -/
def solve (b : Fin n → K) : Fin n → K :=
  let b := factors.replay b
  let b := ((List.finRange n).filter (fun i : Fin n => 0 < i.val)).foldl factors.sweepDown b
  (List.finRange n).reverse.foldl factors.sweepUp b

/-! ## The elimination -/

section Factor

variable [LinearOrder K] [IsStrictOrderedRing K]

omit [IsStrictOrderedRing K] in
theorem rowScale_nonneg (row : Fin n → K) : 0 ≤ rowScale row := by
  have hloop : ∀ (columns : List (Fin n)) (largest : K), 0 ≤ largest →
      0 ≤ columns.foldl (fun largest k => max largest |row k|) largest := by
    intro columns
    induction columns with
    | nil => exact fun _ h => h
    | cons k columns ih => exact fun largest h => ih _ (h.trans (le_max_left _ _))
  exact hloop _ 0 le_rfl

namespace Elimination

variable {s s' : Elimination n K} {col : Fin n}

omit [IsStrictOrderedRing K] in
/-- The pivot row is not above its column. -/
theorem le_pivot (s : Elimination n K) (col : Fin n) : col ≤ s.pivot col := by
  have hloop : ∀ (rows : List (Fin n)) (pivot : Fin n), (∀ r ∈ rows, col < r) → col ≤ pivot →
      col ≤ rows.foldl
        (fun pivot r => if exceeds (s.scaled col r) (s.scaled col pivot) then r else pivot) pivot := by
    intro rows
    induction rows with
    | nil => exact fun _ _ h => h
    | cons r rows ih =>
      intro pivot hrows hpivot
      refine ih _ (fun other hother => hrows other (List.mem_cons_of_mem _ hother)) ?_
      dsimp only
      split
      · exact (hrows r List.mem_cons_self).le
      · exact hpivot
  refine hloop _ col (fun r hr => ?_) le_rfl
  simpa using (List.mem_filter.mp hr).2

omit [IsStrictOrderedRing K] in
/-- A row below the pivot, which the rows between have left alone. -/
theorem eliminateRow_self {lu own : Matrix (Fin n) (Fin n) K} {r : Fin n}
    (hr : ∀ k, own r k = lu r k) (hcol : ∀ k, own col k = lu col k) (k : Fin n) :
    eliminateRow col own r r k = Triangular.eliminated lu col r k := by
  unfold eliminateRow
  rw [Matrix.updateRow_self, hr, hr, hcol, hcol]
  unfold Triangular.eliminated
  split
  · rfl
  · by_cases hzero : lu r col / lu col col = 0
    · simp [hzero]
    · simp [hzero]

omit [IsStrictOrderedRing K] in
/-- The rows below the pivot after their elimination. -/
theorem eliminateRows (lu : Matrix (Fin n) (Fin n) K) (col i j : Fin n) :
    ((List.finRange n).filter (col < ·)).foldl (eliminateRow col) lu i j =
      if col < i then Triangular.eliminated lu col i j else lu i j := by
  rw [List.foldl_filter]
  have hloop := @FinLoops.foldl_up _ n
    (fun c own => ∀ i j : Fin n, own i j =
      if col < i ∧ (i : ℕ) < c then Triangular.eliminated lu col i j else lu i j)
    (fun own r => if decide (col < r) then eliminateRow col own r else own) lu
    (fun i j => by rw [if_neg (fun h => absurd h.2 (Nat.not_lt_zero _))]) ?_
  · rw [hloop i j]
    simp only [i.isLt, and_true]
  · intro r own hown i j
    by_cases hbelow : col < r
    · rw [if_pos (decide_eq_true hbelow)]
      by_cases hi : i = r
      · subst hi
        rw [if_pos ⟨hbelow, Nat.lt_succ_self _⟩]
        refine eliminateRow_self (fun k => ?_) (fun k => ?_) j
        · rw [hown i, if_neg (fun h => absurd h.2 (lt_irrefl _))]
        · rw [hown col, if_neg (fun h => lt_irrefl _ h.1)]
      · have hother : eliminateRow col own r i j = own i j := by
          rw [eliminateRow, Matrix.updateRow_ne hi]
        have hlt : (i : ℕ) < r + 1 ↔ (i : ℕ) < r := by
          have := Fin.val_ne_of_ne hi
          omega
        simp only [hother, hown i j, hlt]
    · rw [if_neg (by simpa using hbelow), hown i j]
      by_cases hi : col < i
      · have hlt : (i : ℕ) < r + 1 ↔ (i : ℕ) < r := by
          have h₁ : (col : ℕ) < i := hi
          have h₂ : (r : ℕ) ≤ col := Fin.not_lt.mp hbelow
          omega
        simp only [hlt]
      · simp only [hi, false_and, if_false]

omit [Field K] [LinearOrder K] [IsStrictOrderedRing K] in
@[simp]
theorem swapRows_lu (s : Elimination n K) (col pivot : Fin n) :
    (s.swapRows col pivot).lu = s.lu.submatrix (Equiv.swap col pivot) id := by
  unfold swapRows
  split
  · rfl
  · rename_i hsame
    rw [not_not.mp hsame, Equiv.swap_self]
    rfl

omit [Field K] [LinearOrder K] [IsStrictOrderedRing K] in
@[simp]
theorem swapRows_scales (s : Elimination n K) (col pivot : Fin n) :
    (s.swapRows col pivot).scales = s.scales ∘ Equiv.swap col pivot := by
  unfold swapRows
  split
  · rfl
  · rename_i hsame
    rw [not_not.mp hsame, Equiv.swap_self]
    rfl

/-- The first `c` columns of `m` are eliminated: the factors account for the rows in the order
that the swaps gave them, and no pivot among them is zero. -/
structure Eliminated (m : Matrix (Fin n) (Fin n) K) (c : ℕ) (s : Elimination n K) : Prop where
  factored : ∃ order : Equiv.Perm (Fin n),
    Triangular.Factored c (m.submatrix order id) s.lu ∧ ∀ b, s.replay b = b ∘ order
  length_swaps : s.swaps.length = c
  pivot_ne_zero : ∀ r : Fin n, (r : ℕ) < c → s.lu r r ≠ 0
  scale_nonneg : ∀ r, 0 ≤ s.scales r

omit [IsStrictOrderedRing K] in
theorem eliminated_start (m : Matrix (Fin n) (Fin n) K) : Eliminated m 0 (start m) where
  factored := ⟨1, Triangular.factored_start m, fun b => by simp [replay, start]⟩
  length_swaps := rfl
  pivot_ne_zero := fun _ h => absurd h (Nat.not_lt_zero _)
  scale_nonneg := fun r => rowScale_nonneg (m r)

omit [Field K] [LinearOrder K] [IsStrictOrderedRing K] in
/-- One more swap is replayed last. -/
theorem replay_append {factors : LuFactors n K} {lu : Matrix (Fin n) (Fin n) K} {col pivot : Fin n}
    (hlength : factors.swaps.length = col) (b : Fin n → K) :
    replay ⟨lu, factors.swaps ++ [pivot]⟩ b = factors.replay b ∘ Equiv.swap col pivot := by
  obtain ⟨before, after, hsplit⟩ := List.append_of_mem (List.mem_finRange col)
  have hbefore := FinLoops.finRange_split hsplit
  have hall : (List.finRange n).zip factors.swaps = before.zip factors.swaps := by
    have h : (before ++ col :: after).zip (factors.swaps ++ []) =
        before.zip factors.swaps ++ (col :: after).zip [] := List.zip_append (by omega)
    rwa [List.append_nil, List.zip_nil_right, List.append_nil, ← hsplit] at h
  have hone : (List.finRange n).zip (factors.swaps ++ [pivot]) =
      before.zip factors.swaps ++ [(col, pivot)] := by
    rw [hsplit, List.zip_append (by omega), List.zip_cons_cons, List.zip_nil_right]
  unfold replay
  rw [hall, hone, List.foldl_append]
  rfl

variable {m : Matrix (Fin n) (Fin n) K} {s s' : Elimination n K} {col : Fin n}

/-- The pivot that a column's rows are divided by. -/
theorem Eliminated.swapRows_ne_zero (h : Eliminated m col s)
    (hs : s.eliminateColumn col = some s') : (s.swapRows col (s.pivot col)).lu col col ≠ 0 := by
  unfold Elimination.eliminateColumn at hs
  dsimp only at hs
  split at hs
  · cases hs
  rename_i hlarge
  rw [swapRows_lu, submatrix_apply, Equiv.swap_apply_left]
  intro hzero
  refine hlarge ?_
  rw [id] at hzero
  rw [hzero, abs_zero]
  have hepsilon : (0 : K) ≤ epsilon := by
    unfold epsilon
    positivity
  exact mul_nonneg (mul_nonneg (Nat.cast_nonneg n) hepsilon) (h.scale_nonneg _)

/-- A column is eliminated where its pivot is not lost in rounding. -/
theorem Eliminated.eliminateColumn (h : Eliminated m col s)
    (hs : s.eliminateColumn col = some s') : Eliminated m (col + 1) s' := by
  have hdiagonal := h.swapRows_ne_zero hs
  unfold Elimination.eliminateColumn at hs
  dsimp only at hs
  split at hs
  · cases hs
  have hle := le_pivot s col
  generalize s.pivot col = pivot at hs hdiagonal hle
  obtain ⟨order, hfactored, hreplay⟩ := h.factored
  obtain rfl := Option.some.inj hs
  rw [swapRows_lu] at hdiagonal
  rw [swapRows_lu, swapRows_scales]
  refine ⟨⟨(Equiv.swap col pivot).trans order, ?_, fun b => ?_⟩, ?_, fun r hr => ?_,
    fun r => h.scale_nonneg _⟩
  · exact (hfactored.swap le_rfl hle).eliminate hdiagonal (eliminateRows _ col)
  · rw [replay_append h.length_swaps, hreplay]
    rfl
  · rw [List.length_append, h.length_swaps]
    rfl
  · dsimp only
    rw [eliminateRows, if_neg (by rw [Fin.lt_def]; omega)]
    rcases Nat.lt_succ_iff_lt_or_eq.mp hr with hlt | heq
    · have hcol : r ≠ col := fun h => absurd (congrArg Fin.val h) (by omega)
      have hrow : r ≠ pivot := by
        rintro rfl
        have : (col : ℕ) ≤ r := hle
        omega
      rw [submatrix_apply, Equiv.swap_apply_of_ne_of_ne hcol hrow]
      exact h.pivot_ne_zero r hlt
    · obtain rfl := Fin.ext heq
      exact hdiagonal

/-- The columns before any that is left are eliminated. -/
theorem eliminated_run {done left : List (Fin n)} (hsplit : List.finRange n = done ++ left)
    (h : done.foldlM Elimination.eliminateColumn (start m) = some s) :
    Eliminated m done.length s :=
  FinLoops.foldlM_prefix hsplit (eliminated_start m) (fun _ _ _ h hs => h.eliminateColumn hs) h

end Elimination

end Factor

/-! ## The solve -/

/-- The sweep down undoes the lower factor. -/
theorem lower_sweepDown (b : Fin n → K) :
    Triangular.lower factors.lu *ᵥ
      ((List.finRange n).filter (fun i : Fin n => 0 < i.val)).foldl factors.sweepDown b = b := by
  refine Triangular.lower_mulVec ?_
  rw [List.foldl_filter]
  have hloop := @FinLoops.foldl_up _ n
    (fun c y => (∀ i : Fin n, (i : ℕ) < c → b i = y i + ∑ k ∈ Finset.Iio i, factors.lu i k * y k) ∧
      ∀ i : Fin n, c ≤ i → y i = b i)
    (fun y i => if decide (0 < i.val) then factors.sweepDown y i else y) b
    ⟨fun i h => absurd h (Nat.not_lt_zero _), fun _ _ => rfl⟩ ?_
  · exact fun i => hloop.1 i i.isLt
  · rintro i y ⟨hdone, hleft⟩
    have hstep : (if decide (0 < i.val) then factors.sweepDown y i else y) =
        factors.sweepDown y i := by
      split
      · rfl
      · rename_i hzero
        have hempty : Finset.Iio i = ∅ := by
          ext k
          simp only [Finset.mem_Iio, Finset.notMem_empty, iff_false, not_lt]
          simp only [decide_eq_true_eq, Nat.not_lt, Nat.le_zero] at hzero
          exact Fin.le_def.mpr (by omega)
        rw [sweepDown, hempty, Finset.sum_empty, sub_zero, Function.update_eq_self]
    rw [hstep]
    have hbefore : ∀ j ≤ i, ∑ k ∈ Finset.Iio j, factors.lu j k * factors.sweepDown y i k =
        ∑ k ∈ Finset.Iio j, factors.lu j k * y k := by
      refine fun j hj => Finset.sum_congr rfl fun k hk => ?_
      rw [sweepDown, Function.update_of_ne (((Finset.mem_Iio.mp hk).trans_le hj).ne)]
    refine ⟨fun j hj => ?_, fun j hj => ?_⟩
    · rw [hbefore j (Fin.le_def.mpr (by omega))]
      by_cases hi : j = i
      · subst hi
        rw [sweepDown, Function.update_self, hleft j le_rfl, sub_add_cancel]
      · have := Fin.val_ne_of_ne hi
        rw [sweepDown, Function.update_of_ne hi]
        exact hdone j (by omega)
    · have hi : j ≠ i := fun h => absurd (congrArg Fin.val h) (by omega)
      rw [sweepDown, Function.update_of_ne hi]
      exact hleft j (by omega)

/-- The sweep up undoes the upper factor, whose diagonal has no zero. -/
theorem upper_sweepUp {factors : LuFactors n K} (hdiagonal : ∀ i, factors.lu i i ≠ 0)
    (y : Fin n → K) :
    Triangular.upper factors.lu *ᵥ (List.finRange n).reverse.foldl factors.sweepUp y = y := by
  refine Triangular.upper_mulVec ?_
  have hloop := @FinLoops.foldl_down _ n
    (fun c x => (∀ i : Fin n, c ≤ i →
        factors.lu i i * x i + ∑ k ∈ Finset.Ioi i, factors.lu i k * x k = y i) ∧
      ∀ i : Fin n, (i : ℕ) < c → x i = y i)
    factors.sweepUp y ⟨fun i h => absurd i.isLt (by omega), fun _ _ => rfl⟩ ?_
  · exact fun i => hloop.1 i (Nat.zero_le _)
  · rintro i x ⟨hdone, hleft⟩
    have hafter : ∀ j, i ≤ j → ∑ k ∈ Finset.Ioi j, factors.lu j k * factors.sweepUp x i k =
        ∑ k ∈ Finset.Ioi j, factors.lu j k * x k := by
      refine fun j hj => Finset.sum_congr rfl fun k hk => ?_
      rw [sweepUp, Function.update_of_ne (hj.trans_lt (Finset.mem_Ioi.mp hk)).ne']
    refine ⟨fun j hj => ?_, fun j hj => ?_⟩
    · rw [hafter j (Fin.le_def.mpr hj)]
      by_cases hi : j = i
      · subst hi
        rw [sweepUp, Function.update_self, hleft j (Nat.lt_succ_self _),
          mul_div_cancel₀ _ (hdiagonal j), sub_add_cancel]
      · have := Fin.val_ne_of_ne hi
        rw [sweepUp, Function.update_of_ne hi]
        exact hdone j (by omega)
    · have hi : j ≠ i := fun h => absurd (congrArg Fin.val h) (by omega)
      rw [sweepUp, Function.update_of_ne hi]
      exact hleft j (by omega)

section Factor

variable [LinearOrder K] [IsStrictOrderedRing K] {m : Matrix (Fin n) (Fin n) K}

/-- The factors of a whole run. -/
theorem exists_eliminated {factors : LuFactors n K} (h : new m = .ok (some factors)) :
    ∃ s : Elimination n K, s.Eliminated m n ∧ s.toLuFactors = factors := by
  unfold new at h
  split at h
  · cases h
  obtain ⟨s, hs, hfactors⟩ := Option.map_eq_some_iff.mp (Except.ok.inj h)
  have hrun := Elimination.eliminated_run (List.append_nil _).symm hs
  rw [List.length_finRange] at hrun
  exact ⟨s, hrun, hfactors⟩

namespace Elimination

variable {s : Elimination n K}

omit [LinearOrder K] [IsStrictOrderedRing K] in
theorem submatrix_mulVec (order : Equiv.Perm (Fin n)) (x : Fin n → K) :
    m.submatrix order id *ᵥ x = (m *ᵥ x) ∘ order := rfl

omit [IsStrictOrderedRing K] in
theorem Eliminated.mulVec_solve (h : Eliminated m n s) (b : Fin n → K) :
    m *ᵥ s.solve b = b := by
  obtain ⟨order, hfactored, hreplay⟩ := h.factored
  have hordered : (m *ᵥ s.solve b) ∘ order = b ∘ order := by
    rw [← submatrix_mulVec, hfactored.eq_mul, ← mulVec_mulVec]
    unfold solve
    rw [upper_sweepUp (fun i => h.pivot_ne_zero i i.isLt), lower_sweepDown, hreplay]
  exact (order.surjective.injective_comp_right) hordered

omit [IsStrictOrderedRing K] in
theorem Eliminated.det_ne_zero (h : Eliminated m n s) : m.det ≠ 0 := by
  obtain ⟨order, hfactored, -⟩ := h.factored
  have hdet := congrArg Matrix.det hfactored.eq_mul
  rw [det_permute, det_mul, Triangular.det_lower, Triangular.det_upper, one_mul] at hdet
  intro hzero
  rw [hzero, mul_zero] at hdet
  exact Finset.prod_ne_zero_iff.mpr (fun i _ => h.pivot_ne_zero i i.isLt) hdet.symm

omit [IsStrictOrderedRing K] in
/-- The solve is the only solution. -/
theorem Eliminated.mulVec_eq_iff (h : Eliminated m n s) (b x : Fin n → K) :
    m *ᵥ x = b ↔ x = s.solve b := by
  constructor
  · intro hx
    refine sub_eq_zero.mp (eq_zero_of_mulVec_eq_zero h.det_ne_zero ?_)
    rw [mulVec_sub, hx, h.mulVec_solve, sub_self]
  · rintro rfl
    exact h.mulVec_solve b

end Elimination

/-- A matrix without factors is an outcome too. -/
theorem new_of_det_eq_zero (hm : m.det = 0) : new m = .ok none := by
  cases hnew : new m with
  | error fault =>
    unfold new at hnew
    split at hnew
    · subst_vars
      rw [det_isEmpty] at hm
      exact absurd hm one_ne_zero
    · cases hnew
  | ok factors =>
    cases factors with
    | none => rfl
    | some factors =>
      obtain ⟨s, hs, -⟩ := exists_eliminated hnew
      exact absurd hm hs.det_ne_zero

end Factor

end LuFactors

/-! ## The layer -/

section Layer

variable [Field K] [LinearOrder K]

/-- The matrix from pixel offsets to intermediate coordinates beside its factors. -/
structure LinearTransform (n : ℕ) (K : Type) [Field K] [LinearOrder K] where
  matrix : Matrix (Fin n) (Fin n) K
  factors : LuFactors n K
  crpix : Fin n → K
  sip : Option (Sip K)
  factored : LuFactors.new matrix = .ok (some factors)

/-- Scale each row of a matrix and factor it. -/
def LinearMatrix.scaled (values : Matrix (Fin n) (Fin n) K) (axisScales : Fin n → K)
    (crpix : Fin n → K) (sip : Option (Sip K)) : Outcome (LinearTransform n K) :=
  let values : Matrix (Fin n) (Fin n) K := .of fun axis column => values axis column * axisScales axis
  match h : LuFactors.new values with
  | .error fault => .error fault
  | .ok none => fail (.invalidWcs .singularMatrix)
  | .ok (some factors) => .ok ⟨values, factors, crpix, sip, h⟩

namespace LinearTransform

variable (transform : LinearTransform n K)

/-- The distorted offsets of the first two axes of `pixel`, where there is a distortion. -/
def offsets (pixel : Fin n → K) : Outcome (Option (K × K)) :=
  match transform.sip with
  | none => .ok none
  | some sip =>
    if h : 2 ≤ n then
      let first : Fin n := ⟨0, by omega⟩
      let second : Fin n := ⟨1, by omega⟩
      .ok (some (sip.forward (pixel first - transform.crpix first)
        (pixel second - transform.crpix second)))
    else abort .indexOutOfBounds

/-- One axis of the intermediate coordinate of `pixel`, whose offsets are given. -/
def intermediateAxis (axis : Fin n) (pixel : Fin n → K) (offsets : Option (K × K)) : K :=
  ∑ column, transform.matrix axis column *
    match offsets, column.val with
    | some distorted, 0 => distorted.1
    | some distorted, 1 => distorted.2
    | _, _ => pixel column - transform.crpix column

/-- The intermediate coordinate of `pixel`. -/
def intermediate (pixel : Fin n → K) : Outcome (Fin n → K) := do
  let offsets ← transform.offsets pixel
  return fun axis => transform.intermediateAxis axis pixel offsets

/-- The pixel of an intermediate coordinate. -/
def pixel (coordinates : Fin n → K) : Outcome (Fin n → K) := do
  let coordinates := transform.factors.solve coordinates
  let coordinates ← match transform.sip with
    | none => .ok coordinates
    | some sip =>
      if h : 2 ≤ n then do
        let first : Fin n := ⟨0, by omega⟩
        let second : Fin n := ⟨1, by omega⟩
        let (u, v) ← sip.inverse (coordinates first) (coordinates second)
        .ok (Function.update (Function.update coordinates first u) second v)
      else abort .indexOutOfBounds
  return coordinates + transform.crpix

variable {transform}

theorem intermediate_of_no_sip (h : transform.sip = none) (pixel : Fin n → K) :
    transform.intermediate pixel = .ok (transform.matrix *ᵥ (pixel - transform.crpix)) := by
  unfold intermediate offsets
  rw [h]
  rfl

theorem pixel_of_no_sip (h : transform.sip = none) (coordinates : Fin n → K) :
    transform.pixel coordinates = .ok (transform.factors.solve coordinates + transform.crpix) := by
  unfold pixel
  rw [h]
  rfl

end LinearTransform

/-- Without a prior distortion, the layer inverts: the factors solve every right side, no pivot is
zero, a singular matrix has no factors, and every pixel comes back. -/
theorem linear_layer_inverts [IsStrictOrderedRing K] (m : Matrix (Fin n) (Fin n) K) :
    (∀ factors, LuFactors.new m = .ok (some factors) →
      (∀ i, factors.lu i i ≠ 0) ∧ ∀ b x, m *ᵥ x = b ↔ x = factors.solve b) ∧
    (m.det = 0 → LuFactors.new m = .ok none) ∧
    (∀ done col left (s s' : LuFactors.Elimination n K),
      List.finRange n = done ++ col :: left →
      done.foldlM LuFactors.Elimination.eliminateColumn (.start m) = some s →
      s.eliminateColumn col = some s' →
      (s.swapRows col (s.pivot col)).lu col col ≠ 0) ∧
    ∀ transform : LinearTransform n K, transform.matrix = m → transform.sip = none →
      ∀ pixel, transform.intermediate pixel >>= transform.pixel = .ok pixel := by
  refine ⟨fun factors h => ?_, LuFactors.new_of_det_eq_zero, ?_, ?_⟩
  · obtain ⟨s, hs, rfl⟩ := LuFactors.exists_eliminated h
    exact ⟨fun i => hs.pivot_ne_zero i i.isLt, hs.mulVec_eq_iff⟩
  · intro done col left s s' hsplit hs hs'
    have hdone := LuFactors.Elimination.eliminated_run hsplit hs
    rw [← FinLoops.finRange_split hsplit] at hdone
    exact hdone.swapRows_ne_zero hs'
  · intro transform hmatrix hsip pixel
    obtain ⟨s, hs, hfactors⟩ := LuFactors.exists_eliminated transform.factored
    rw [LinearTransform.intermediate_of_no_sip hsip]
    refine (LinearTransform.pixel_of_no_sip hsip _).trans ?_
    have hsolve := (hs.mulVec_eq_iff _ (pixel - transform.crpix)).mp rfl
    rw [hfactors] at hsolve
    rw [← hsolve, sub_add_cancel]

/-- The layer over a matrix whose rows have to be swapped, and over one without factors. -/
theorem linear_layer_inverts_two :
    (∃ factors, LuFactors.new (!![0, 2; 4, 1] : Matrix (Fin 2) (Fin 2) ℚ) = .ok (some factors) ∧
      factors.solve ![6, 7] = ![1, 3]) ∧
    LuFactors.new (0 : Matrix (Fin 2) (Fin 2) ℚ) = .ok none := by
  refine ⟨?_, (linear_layer_inverts 0).2.1 (by decide +kernel)⟩
  have hfactored : ((LuFactors.new (!![0, 2; 4, 1] : Matrix (Fin 2) (Fin 2) ℚ)).toOption.join.isSome
      = true) := by decide +kernel
  obtain ⟨factors, hfactors⟩ := Option.isSome_iff_exists.mp hfactored
  obtain ⟨found, hnew, hfound⟩ := Option.bind_eq_some_iff.mp hfactors
  cases hresult : LuFactors.new (!![0, 2; 4, 1] : Matrix (Fin 2) (Fin 2) ℚ) with
  | error fault =>
    rw [hresult] at hnew
    cases hnew
  | ok result =>
    rw [hresult] at hnew
    obtain rfl := Option.some.inj hnew
    obtain rfl : result = some factors := hfound
    exact ⟨factors, rfl, (((linear_layer_inverts _).1 factors hresult).2 ![6, 7] ![1, 3]).mp
      (by decide +kernel) |>.symm⟩

end Layer

end FitsWell
