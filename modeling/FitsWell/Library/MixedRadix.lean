import Mathlib.Algebra.BigOperators.Group.List.Basic
import Mathlib.Data.List.Forall2
import Mathlib.Tactic.Linarith
import Mathlib.Tactic.Ring

/-!
# Mixed radices

A list of radices, the first the fastest, numbers the lists of digits below them. The
digits of a number, the number of a list of digits, the weight of each place, and the
step from one list of digits to the next are related here.
-/

namespace FitsWell.MixedRadix

/-- Each digit is below its radix. -/
abbrev Below (digits radices : List ℕ) : Prop := List.Forall₂ (· < ·) digits radices

/-- The number with the digits `cs` under the radices `ds`. -/
def value : List ℕ → List ℕ → ℕ
  | d :: ds, c :: cs => c + d * value ds cs
  | _, _ => 0

/-- The digits of `k` under the radices `ds`. -/
def digits : List ℕ → ℕ → List ℕ
  | [], _ => []
  | d :: ds, k => k % d :: digits ds (k / d)

/-- The weight of each place, the first one's being `w`. -/
def weights (w : ℕ) : List ℕ → List ℕ
  | [] => []
  | d :: ds => w :: weights (w * d) ds

/-- The sum of the digits times their weights. -/
def dot (cs ws : List ℕ) : ℕ := (List.zipWith (· * ·) cs ws).sum

/-- The digits of the number after the one with the digits `cs`, back to zeros after the
last one. -/
def next : List ℕ → List ℕ → List ℕ
  | d :: ds, c :: cs => if c + 1 < d then (c + 1) :: cs else 0 :: next ds cs
  | _, _ => []

@[simp] theorem value_nil (cs : List ℕ) : value [] cs = 0 := rfl

@[simp] theorem value_cons (d : ℕ) (ds : List ℕ) (c : ℕ) (cs : List ℕ) :
    value (d :: ds) (c :: cs) = c + d * value ds cs := rfl

@[simp] theorem digits_nil (k : ℕ) : digits [] k = [] := rfl

@[simp] theorem digits_cons (d : ℕ) (ds : List ℕ) (k : ℕ) :
    digits (d :: ds) k = k % d :: digits ds (k / d) := rfl

@[simp] theorem weights_nil (w : ℕ) : weights w [] = [] := rfl

@[simp] theorem weights_cons (w d : ℕ) (ds : List ℕ) :
    weights w (d :: ds) = w :: weights (w * d) ds := rfl

@[simp] theorem dot_nil (ws : List ℕ) : dot [] ws = 0 := rfl

@[simp] theorem dot_cons (c : ℕ) (cs : List ℕ) (w : ℕ) (ws : List ℕ) :
    dot (c :: cs) (w :: ws) = c * w + dot cs ws := by simp [dot]

@[simp] theorem length_digits (ds : List ℕ) (k : ℕ) : (digits ds k).length = ds.length := by
  induction ds generalizing k with
  | nil => rfl
  | cons d ds ih => simp [ih]

@[simp] theorem length_weights (w : ℕ) (ds : List ℕ) : (weights w ds).length = ds.length := by
  induction ds generalizing w with
  | nil => rfl
  | cons d ds ih => simp [ih]

/-- No radix above a digit is zero. -/
theorem Below.pos {cs ds : List ℕ} (h : Below cs ds) : ∀ d ∈ ds, 0 < d := by
  induction h with
  | nil => simp
  | cons hc _ ih =>
    intro e he
    rcases List.mem_cons.mp he with rfl | he
    · omega
    · exact ih e he

/-- The digits of any number are below positive radices. -/
theorem digits_below_of_pos {ds : List ℕ} (h : ∀ d ∈ ds, 0 < d) (k : ℕ) :
    Below (digits ds k) ds := by
  induction ds generalizing k with
  | nil => exact .nil
  | cons d ds ih =>
    exact .cons (Nat.mod_lt k (h d List.mem_cons_self))
      (ih (fun e he => h e (List.mem_cons_of_mem d he)) _)

/-- A number below the product of the radices has its digits below them. -/
theorem digits_below {ds : List ℕ} {k : ℕ} (h : k < ds.prod) : Below (digits ds k) ds := by
  refine digits_below_of_pos (List.prod_pos_iff_forall_pos_nat.mp ?_) k
  omega

/-- A number is the one its digits spell. -/
theorem value_digits {ds : List ℕ} {k : ℕ} (h : k < ds.prod) : value ds (digits ds k) = k := by
  induction ds generalizing k with
  | nil => simp at h; simp [h]
  | cons d ds ih =>
    rw [List.prod_cons] at h
    rw [digits_cons, value_cons, ih (Nat.div_lt_of_lt_mul h)]
    exact Nat.mod_add_div k d

/-- Digits below the radices spell a number below their product. -/
theorem value_lt {cs ds : List ℕ} (h : Below cs ds) : value ds cs < ds.prod := by
  induction h with
  | nil => simp
  | @cons c d cs ds hc _ ih =>
    rw [value_cons, List.prod_cons]
    calc c + d * value ds cs < d * (value ds cs + 1) := by rw [Nat.mul_succ]; omega
      _ ≤ d * ds.prod := Nat.mul_le_mul_left d ih

/-- Digits below the radices are those of the number they spell. -/
theorem digits_value {cs ds : List ℕ} (h : Below cs ds) : digits ds (value ds cs) = cs := by
  induction h with
  | nil => rfl
  | @cons c d cs ds hc _ ih =>
    have hd : 0 < d := by omega
    rw [value_cons, digits_cons, Nat.add_mul_mod_self_left, Nat.mod_eq_of_lt hc,
      Nat.add_mul_div_left c _ hd, Nat.div_eq_of_lt hc, Nat.zero_add, ih]

/-- Two lists of digits that spell one number are equal. -/
theorem value_inj {cs cs' ds : List ℕ} (h : Below cs ds) (h' : Below cs' ds)
    (heq : value ds cs = value ds cs') : cs = cs' := by
  rw [← digits_value h, heq, digits_value h']

/-- Two numbers below the product with the same digits are equal. -/
theorem digits_inj {ds : List ℕ} {k k' : ℕ} (h : k < ds.prod) (h' : k' < ds.prod)
    (heq : digits ds k = digits ds k') : k = k' := by
  rw [← value_digits h, heq, value_digits h']

/-- The number is the sum of its digits times their weights. -/
theorem dot_weights (w : ℕ) {ds cs : List ℕ} (h : cs.length = ds.length) :
    dot cs (weights w ds) = w * value ds cs := by
  induction ds generalizing w cs with
  | nil =>
    obtain rfl := List.eq_nil_of_length_eq_zero h
    rfl
  | cons d ds ih =>
    obtain ⟨c, cs, rfl⟩ := List.exists_cons_of_length_eq_add_one h
    rw [weights_cons, dot_cons, ih _ (Nat.succ.inj h), value_cons]
    ring

/-- Greater digits have a greater weighted sum. -/
theorem dot_le {cs cs' : List ℕ} (h : List.Forall₂ (· ≤ ·) cs cs') (ws : List ℕ) :
    dot cs ws ≤ dot cs' ws := by
  induction h generalizing ws with
  | nil => exact le_rfl
  | @cons c c' cs cs' hc _ ih =>
    rcases ws with _ | ⟨w, ws⟩
    · exact le_rfl
    · rw [dot_cons, dot_cons]
      exact Nat.add_le_add (Nat.mul_le_mul_right w hc) (ih ws)

/-- The digits of zero are zeros. -/
theorem digits_zero (ds : List ℕ) : digits ds 0 = List.replicate ds.length 0 := by
  induction ds with
  | nil => rfl
  | cons d ds ih => simp [ih, List.replicate_succ]

/-- Every digit of the last number is the last one of its place. -/
theorem digits_last {ds : List ℕ} (h : ∀ d ∈ ds, 0 < d) :
    digits ds (ds.prod - 1) = ds.map (· - 1) := by
  induction ds with
  | nil => rfl
  | cons d ds ih =>
    have hd : 0 < d := h d List.mem_cons_self
    have hrest : ∀ e ∈ ds, 0 < e := fun e he => h e (List.mem_cons_of_mem d he)
    have hprod : 0 < ds.prod := List.prod_pos_iff_forall_pos_nat.mpr hrest
    have hlast : d * ds.prod - 1 = d - 1 + d * (ds.prod - 1) := by
      obtain ⟨p, hp⟩ := Nat.exists_eq_add_of_lt hprod
      rw [hp, Nat.zero_add, Nat.add_sub_cancel, Nat.mul_succ]
      omega
    rw [List.prod_cons, digits_cons, hlast, Nat.add_mul_mod_self_left,
      Nat.mod_eq_of_lt (by omega), Nat.add_mul_div_left _ _ hd, Nat.div_eq_of_lt (by omega),
      Nat.zero_add, ih hrest, List.map_cons]

/-- The digits of a number and of the one after it. -/
theorem next_digits {ds : List ℕ} (h : ∀ d ∈ ds, 0 < d) (k : ℕ) :
    next ds (digits ds k) = digits ds (k + 1) := by
  induction ds generalizing k with
  | nil => rfl
  | cons d ds ih =>
    have hd : 0 < d := h d List.mem_cons_self
    rw [digits_cons, digits_cons, next]
    have hsplit := Nat.mod_add_div k d
    have hmod := Nat.mod_lt k hd
    by_cases hlow : k % d + 1 < d
    · have hk : k + 1 = (k % d + 1) + d * (k / d) := by omega
      rw [if_pos hlow, hk, Nat.add_mul_mod_self_left, Nat.mod_eq_of_lt hlow,
        Nat.add_mul_div_left _ _ hd, Nat.div_eq_of_lt hlow, Nat.zero_add]
    · have hk : k + 1 = d * (k / d + 1) := by rw [Nat.mul_succ]; omega
      rw [if_neg hlow, ih (fun e he => h e (List.mem_cons_of_mem d he)), hk, Nat.mul_mod_right,
        Nat.mul_div_cancel_left _ hd]

/-! ## The slowest place -/

theorem digits_append (ds : List ℕ) (d k : ℕ) :
    digits (ds ++ [d]) k = digits ds k ++ [k / ds.prod % d] := by
  induction ds generalizing k with
  | nil => simp
  | cons e ds ih =>
    rw [List.cons_append, digits_cons, digits_cons, ih, List.cons_append, List.prod_cons,
      Nat.div_div_eq_div_mul]

theorem value_append {ds cs : List ℕ} (h : cs.length = ds.length) (d c : ℕ) :
    value (ds ++ [d]) (cs ++ [c]) = value ds cs + ds.prod * c := by
  induction ds generalizing cs with
  | nil =>
    obtain rfl := List.eq_nil_of_length_eq_zero h
    simp
  | cons e ds ih =>
    obtain ⟨b, cs, rfl⟩ := List.exists_cons_of_length_eq_add_one h
    rw [List.cons_append, List.cons_append, value_cons, value_cons, ih (Nat.succ.inj h),
      List.prod_cons]
    ring

theorem weights_append (w : ℕ) (ds : List ℕ) (d : ℕ) :
    weights w (ds ++ [d]) = weights w ds ++ [w * ds.prod] := by
  induction ds generalizing w with
  | nil => simp
  | cons e ds ih =>
    rw [List.cons_append, weights_cons, weights_cons, ih, List.cons_append, List.prod_cons,
      Nat.mul_assoc]

end FitsWell.MixedRadix
