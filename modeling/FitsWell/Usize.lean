import FitsWell.FitsError
import FitsWell.Library.Loops
import Mathlib.Algebra.BigOperators.Group.List.Basic
import Mathlib.Tactic.Linarith

/-!
# Machine words

A `usize` is a natural number of 64 bits. Its operators panic on overflow, as they do in
a build that checks arithmetic, so that a run that returns met no overflow.
-/

namespace FitsWell

/-- `usize::MAX`. -/
def usizeMax : ℕ := 2 ^ 64 - 1

/-- `a + b`. -/
def addUsize (a b : ℕ) : Outcome ℕ :=
  if a + b ≤ usizeMax then .ok (a + b) else abort .arithmeticOverflow

/-- `a - b`. -/
def subUsize (a b : ℕ) : Outcome ℕ :=
  if b ≤ a then .ok (a - b) else abort .arithmeticOverflow

/-- `a * b`. -/
def mulUsize (a b : ℕ) : Outcome ℕ :=
  if a * b ≤ usizeMax then .ok (a * b) else abort .arithmeticOverflow

/-- `a % b`. -/
def remUsize (a b : ℕ) : Outcome ℕ := if b = 0 then abort .divisionByZero else .ok (a % b)

/-- `a / b`. -/
def divUsize (a b : ℕ) : Outcome ℕ := if b = 0 then abort .divisionByZero else .ok (a / b)

/-- `a.div_ceil(b)`. -/
def divCeil (a b : ℕ) : Outcome ℕ :=
  if b = 0 then abort .divisionByZero else .ok ((a + b - 1) / b)

/-- `acc.checked_mul(len)`. -/
def checkedMul (acc len : ℕ) : Option ℕ := if acc * len ≤ usizeMax then some (acc * len) else none

/-- `acc.checked_add(len)`. -/
def checkedAdd (acc len : ℕ) : Option ℕ := if acc + len ≤ usizeMax then some (acc + len) else none

/-- The value of an operation that gives none where it leaves the data unit's size. -/
def orOverflow (value : Option ℕ) : Outcome ℕ :=
  match value with
  | some value => .ok value
  | none => fail .dataUnitOverflow

/-- A count as the `i64` that a header's integer holds. -/
def fitsI64 (value : ℕ) : Outcome ℤ := if value < 2 ^ 63 then .ok value else fail .dataUnitOverflow

/-- `isize::MAX`, the most bytes an allocation holds. -/
def isizeMax : ℕ := 2 ^ 63 - 1

/-- Reserve room for `additional` bytes after `len` ones. An allocator that can address
them is taken to have them. -/
def tryReserveExact (len additional : ℕ) : Outcome Unit := do
  let requested ← orOverflow (checkedAdd len additional)
  if requested ≤ isizeMax then .ok () else fail (.dataUnitTooLarge requested)

/-- Reserve room for `additional` elements of `width` bytes after `len` ones, where that may
fail. -/
def tryReserve (width len additional : ℕ) : Outcome Unit := do
  let requested ← orOverflow (checkedAdd len additional)
  if requested * width ≤ isizeMax then .ok ()
  else fail (.dataUnitTooLarge (min (requested * width) usizeMax))

/-- Reserve room for `additional` elements of `width` bytes after `len` ones, or panic. -/
def reserve (width len additional : ℕ) : Outcome Unit :=
  if (len + additional) * width ≤ isizeMax then .ok () else abort .capacityOverflow

/-- `items.iter().product()`. -/
def productUsize (items : List ℕ) : Outcome ℕ := items.foldlM mulUsize 1

/-- `items.iter().sum()`. -/
def sumUsize (items : List ℕ) : Outcome ℕ := items.foldlM addUsize 0

theorem addUsize_of_le {a b : ℕ} (h : a + b ≤ usizeMax) : addUsize a b = .ok (a + b) := if_pos h

theorem subUsize_of_le {a b : ℕ} (h : b ≤ a) : subUsize a b = .ok (a - b) := if_pos h

theorem mulUsize_of_le {a b : ℕ} (h : a * b ≤ usizeMax) : mulUsize a b = .ok (a * b) := if_pos h

theorem remUsize_of_pos {a b : ℕ} (h : 0 < b) : remUsize a b = .ok (a % b) :=
  if_neg (by omega)

theorem divUsize_of_pos {a b : ℕ} (h : 0 < b) : divUsize a b = .ok (a / b) :=
  if_neg (by omega)

theorem divCeil_of_pos {a b : ℕ} (h : 0 < b) : divCeil a b = .ok ((a + b - 1) / b) :=
  if_neg (by omega)

theorem addUsize_eq_ok_iff {a b c : ℕ} :
    addUsize a b = .ok c ↔ a + b ≤ usizeMax ∧ a + b = c := by
  unfold addUsize
  split <;> simp_all [abort]

theorem subUsize_eq_ok_iff {a b c : ℕ} : subUsize a b = .ok c ↔ b ≤ a ∧ a - b = c := by
  unfold subUsize
  split <;> simp_all [abort]

theorem mulUsize_eq_ok_iff {a b c : ℕ} :
    mulUsize a b = .ok c ↔ a * b ≤ usizeMax ∧ a * b = c := by
  unfold mulUsize
  split <;> simp_all [abort]

theorem checkedMul_eq_some_iff {a b c : ℕ} :
    checkedMul a b = some c ↔ a * b ≤ usizeMax ∧ a * b = c := by
  unfold checkedMul
  split <;> simp_all

theorem checkedAdd_eq_some_iff {a b c : ℕ} :
    checkedAdd a b = some c ↔ a + b ≤ usizeMax ∧ a + b = c := by
  unfold checkedAdd
  split <;> simp_all

theorem orOverflow_eq_ok_iff {value : Option ℕ} {c : ℕ} :
    orOverflow value = .ok c ↔ value = some c := by
  cases value <;> simp [orOverflow, fail]

theorem tryReserveExact_ok {len additional : ℕ} (h : tryReserveExact len additional = .ok ()) :
    len + additional ≤ isizeMax := by
  obtain ⟨requested, hrequested, h⟩ := Loops.ok_of_bind h
  obtain ⟨-, rfl⟩ := checkedAdd_eq_some_iff.mp (orOverflow_eq_ok_iff.mp hrequested)
  split at h
  · assumption
  · cases h

/-- The product of positive factors from `a` on, where it is a word. -/
theorem foldlM_mulUsize {items : List ℕ} {a : ℕ} (hpos : ∀ v ∈ items, 0 < v)
    (h : a * items.prod ≤ usizeMax) : items.foldlM mulUsize a = .ok (a * items.prod) := by
  induction items generalizing a with
  | nil => simp [pure, Except.pure]
  | cons v items ih =>
    have hrest : ∀ v ∈ items, 0 < v := fun w hw => hpos w (List.mem_cons_of_mem v hw)
    have hprod : 0 < items.prod := List.prod_pos_iff_forall_pos_nat.mpr hrest
    rw [List.prod_cons, ← Nat.mul_assoc] at h ⊢
    have hstep : a * v ≤ usizeMax := le_trans (Nat.le_mul_of_pos_right _ hprod) h
    rw [List.foldlM_cons, mulUsize_of_le hstep]
    exact ih hrest h

/-- The product of positive factors, where it is a word. -/
theorem productUsize_of_le {items : List ℕ} (hpos : ∀ v ∈ items, 0 < v)
    (h : items.prod ≤ usizeMax) : productUsize items = .ok items.prod := by
  have hfold := foldlM_mulUsize (a := 1) hpos (by rwa [Nat.one_mul])
  rwa [Nat.one_mul] at hfold

/-- A product that a run reaches is the product. -/
theorem foldlM_mulUsize_eq {items : List ℕ} {a p : ℕ}
    (h : items.foldlM mulUsize a = .ok p) : p = a * items.prod := by
  induction items generalizing a with
  | nil => simpa [pure, Except.pure, eq_comm] using h
  | cons v items ih =>
    rw [List.foldlM_cons] at h
    obtain ⟨next, hnext, hrest⟩ := Loops.ok_of_bind h
    obtain ⟨-, rfl⟩ := mulUsize_eq_ok_iff.mp hnext
    rw [ih hrest, List.prod_cons, Nat.mul_assoc]

/-- The sum of the items from `a` on, where it is a word. -/
theorem foldlM_addUsize {items : List ℕ} {a : ℕ} (h : a + items.sum ≤ usizeMax) :
    items.foldlM addUsize a = .ok (a + items.sum) := by
  induction items generalizing a with
  | nil => simp [pure, Except.pure]
  | cons v items ih =>
    rw [List.sum_cons, ← Nat.add_assoc] at h ⊢
    rw [List.foldlM_cons, addUsize_of_le (by omega)]
    exact ih h

/-- The sum of the items, where it is a word. -/
theorem sumUsize_of_le {items : List ℕ} (h : items.sum ≤ usizeMax) :
    sumUsize items = .ok items.sum := by
  have hfold := foldlM_addUsize (a := 0) (by rwa [Nat.zero_add])
  rwa [Nat.zero_add] at hfold

end FitsWell
