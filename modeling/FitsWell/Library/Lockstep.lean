import FitsWell.Library.Loops
import Mathlib.Data.List.Basic

/-!
# Runs in lockstep

Two runs that may fail agree when both fail alike, or both succeed with related results.
Agreement passes through sequencing and loops, so two loops over differently kept states
are compared step by step.
-/

namespace FitsWell

/-- Two runs fail alike, or succeed with results in `R`. -/
inductive Agree {ε α β : Type} (R : α → β → Prop) : Except ε α → Except ε β → Prop
  | fails (fault : ε) : Agree R (.error fault) (.error fault)
  | returns {a : α} {b : β} (h : R a b) : Agree R (.ok a) (.ok b)

namespace Agree

variable {ε α β α' β' : Type} {R : α → β → Prop} {S : α' → β' → Prop}

/-- Runs that agree on equal results are equal. -/
theorem eq {x y : Except ε α} (h : Agree (· = ·) x y) : x = y := by
  cases h with
  | fails fault => rfl
  | returns h => rw [h]

/-- Agreement read from the other side. -/
theorem symm {x : Except ε α} {y : Except ε β} (h : Agree R x y) :
    Agree (fun b a => R a b) y x := by
  cases h with
  | fails fault => exact .fails fault
  | returns h => exact .returns h

/-- A weaker relation of the results. -/
theorem mono {R' : α → β → Prop} {x : Except ε α} {y : Except ε β} (h : Agree R x y)
    (himp : ∀ a b, R a b → R' a b) : Agree R' x y := by
  cases h with
  | fails fault => exact .fails fault
  | returns h => exact .returns (himp _ _ h)

/-- A run agrees with itself, its results those it returns. -/
theorem refl {P : α → Prop} (x : Except ε α) (h : ∀ a, x = .ok a → P a) :
    Agree (fun a b => a = b ∧ P a) x x := by
  cases x with
  | error fault => exact .fails fault
  | ok a => exact .returns ⟨rfl, h a rfl⟩

/-- Runs that agree go on in agreement. -/
theorem bind {x : Except ε α} {y : Except ε β} {f : α → Except ε α'} {g : β → Except ε β'}
    (h : Agree R x y) (hnext : ∀ a b, R a b → Agree S (f a) (g b)) :
    Agree S (x >>= f) (y >>= g) := by
  cases h with
  | fails fault => exact .fails fault
  | returns h => exact hnext _ _ h

/-- One of two runs that agree goes on. -/
theorem bind_left {T : α' → β → Prop} {x : Except ε α} {y : Except ε β} {f : α → Except ε α'}
    (h : Agree R x y) (hnext : ∀ a b, R a b → Agree T (f a) (.ok b)) : Agree T (x >>= f) y := by
  cases h with
  | fails fault => exact .fails fault
  | returns h => exact hnext _ _ h

/-- A run whose result is read off another's. -/
theorem map_eq {x : Except ε α} {y : Except ε β} {f : α → β} (h : Agree R x y)
    (hf : ∀ a b, R a b → f a = b) : (x >>= fun a => .ok (f a)) = y := by
  cases h with
  | fails fault => rfl
  | returns h => exact congrArg Except.ok (hf _ _ h)

/-- Where one of two runs that agree returns, so does the other. -/
theorem ok_right {x : Except ε α} {y : Except ε β} {a : α} (h : Agree R x y) (hok : x = .ok a) :
    ∃ b, y = .ok b ∧ R a b := by
  cases h with
  | fails fault => cases hok
  | returns h =>
    obtain rfl := Except.ok.inj hok
    exact ⟨_, rfl, h⟩

/-- Counting loops whose steps agree. -/
theorem range {f : α → ℕ → Except ε α} {g : β → ℕ → Except ε β} {n : ℕ}
    {R : ℕ → α → β → Prop} {a : α} {b : β} (hstart : R 0 a b)
    (hstep : ∀ k < n, ∀ a b, R k a b → Agree (R (k + 1)) (f a k) (g b k)) :
    Agree (R n) ((List.range n).foldlM f a) ((List.range n).foldlM g b) := by
  induction n with
  | zero => exact .returns hstart
  | succ n ih =>
    rw [List.range_succ, List.foldlM_append, List.foldlM_append]
    refine bind (ih (fun k hk => hstep k (Nat.lt_succ_of_lt hk))) (fun a b hab => ?_)
    rw [List.foldlM_cons, List.foldlM_cons]
    exact bind (hstep n (Nat.lt_succ_self n) a b hab) (fun _ _ h => .returns h)

/-- Loops over one list whose steps agree. -/
theorem list {γ : Type} (items : List γ) {f : α → γ → Except ε α} {g : β → γ → Except ε β}
    {a : α} {b : β} (hstart : R a b)
    (hstep : ∀ item ∈ items, ∀ a b, R a b → Agree R (f a item) (g b item)) :
    Agree R (items.foldlM f a) (items.foldlM g b) := by
  induction items generalizing a b with
  | nil => exact .returns hstart
  | cons item items ih =>
    rw [List.foldlM_cons, List.foldlM_cons]
    exact bind (hstep item List.mem_cons_self a b hstart) (fun a b hab =>
      ih hab (fun next hnext => hstep next (List.mem_cons_of_mem item hnext)))

end Agree

/-- Two loops over one list that both return keep a relation of what they hold. -/
theorem foldlM_both {ε α β γ : Type} {f : α → γ → Except ε α} {g : β → γ → Except ε β}
    {items : List γ} {R : List γ → α → β → Prop} {a a' : α} {b b' : β} (hstart : R [] a b)
    (hstep : ∀ done item todo, items = done ++ item :: todo → ∀ a b a' b', R done a b →
      f a item = .ok a' → g b item = .ok b' → R (done ++ [item]) a' b')
    (ha : items.foldlM f a = .ok a') (hb : items.foldlM g b = .ok b') : R items a' b' := by
  have hrun : ∀ todo done a b, items = done ++ todo → R done a b →
      todo.foldlM f a = .ok a' → todo.foldlM g b = .ok b' → R items a' b' := by
    intro todo
    induction todo with
    | nil =>
      intro done a b hitems hdone ha hb
      rw [List.append_nil] at hitems
      rw [← Except.ok.inj ha, ← Except.ok.inj hb]
      exact hitems ▸ hdone
    | cons item todo ih =>
      intro done a b hitems hdone ha hb
      rw [List.foldlM_cons] at ha hb
      obtain ⟨next, hnext, ha⟩ := Loops.ok_of_bind ha
      obtain ⟨next', hnext', hb⟩ := Loops.ok_of_bind hb
      exact ih (done ++ [item]) next next' (by simp [hitems])
        (hstep done item todo hitems a b next next' hdone hnext hnext') ha hb
  exact hrun items [] a b rfl hstart ha hb

/-- The numbers below `count`, in blocks of `step`. -/
theorem range_blocks {step : ℕ} (hstep : 0 < step) (count : ℕ) :
    List.range count = (List.range ((count + step - 1) / step)).flatMap
      fun j => (List.range (min step (count - j * step))).map (j * step + ·) := by
  have hblocks : ∀ n, n * step ≤ count + step - 1 →
      (List.range n).flatMap (fun j => (List.range (min step (count - j * step))).map
        (j * step + ·)) = List.range (min (n * step) count) := by
    intro n hn
    induction n with
    | zero => simp
    | succ n ih =>
      rw [Nat.succ_mul] at hn
      rw [List.range_succ, List.flatMap_append, ih (by omega), List.flatMap_singleton,
        Nat.succ_mul, Nat.min_eq_left (by omega : n * step ≤ count), ← List.range_add]
      congr 1
      omega
  have hmul := Nat.div_mul_le_self (count + step - 1) step
  have hmod := Nat.mod_lt (count + step - 1) hstep
  have hsplit := Nat.div_add_mod (count + step - 1) step
  rw [Nat.mul_comm] at hsplit
  rw [hblocks _ hmul, Nat.min_eq_right (by omega)]

/-- A counting loop runs block by block. -/
theorem foldlM_blocks {ε σ : Type} {step : ℕ} (hstep : 0 < step) (count : ℕ)
    (f : σ → ℕ → Except ε σ) (s : σ) :
    (List.range count).foldlM f s =
      (List.range ((count + step - 1) / step)).foldlM (fun s j =>
        (List.range (min step (count - j * step))).foldlM (fun s i => f s (j * step + i)) s) s := by
  rw [range_blocks hstep count]
  generalize List.range ((count + step - 1) / step) = blocks
  induction blocks generalizing s with
  | nil => rfl
  | cons j blocks ih =>
    rw [List.flatMap_cons, List.foldlM_append, List.foldlM_cons, List.foldlM_map]
    exact bind_congr (fun s' => ih s')

/-- A counting loop over a product runs in blocks of one factor. -/
theorem foldlM_mul {ε σ : Type} (n m : ℕ) (f : σ → ℕ → Except ε σ) (s : σ) :
    (List.range (n * m)).foldlM f s = (List.range n).foldlM (fun s j =>
      (List.range m).foldlM (fun s i => f s (j * m + i)) s) s := by
  induction n with
  | zero => simp
  | succ n ih =>
    rw [Nat.succ_mul, List.range_add, List.foldlM_append, ih, List.range_succ,
      List.foldlM_append]
    refine bind_congr (fun s' => ?_)
    rw [List.foldlM_map, List.foldlM_cons]
    exact (bind_pure _).symm

end FitsWell
