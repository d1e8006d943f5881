import Mathlib.Data.List.FinRange
import Mathlib.Data.Fin.Basic

/-!
# Loops over the numbers below a bound

A loop over `Fin n` keeps what each of its steps does, whichever way it runs.
-/

namespace FitsWell.FinLoops

variable {σ : Type} {n : ℕ}

/-- A number of `Fin n` is as large as the numbers before it are many. -/
theorem finRange_split {done todo : List (Fin n)} {i : Fin n}
    (h : List.finRange n = done ++ i :: todo) : (i : ℕ) = done.length := by
  have hlength : done.length < n := by
    have hall := congrArg List.length h
    rw [List.length_finRange, List.length_append, List.length_cons] at hall
    omega
  have hget : (List.finRange n)[done.length]? = some i := by
    rw [h, List.getElem?_append_right le_rfl, Nat.sub_self, List.getElem?_cons_zero]
  rw [List.getElem?_eq_getElem (by rwa [List.length_finRange]), List.getElem_finRange] at hget
  obtain rfl := Option.some.inj hget
  rfl

/-- A loop upwards. -/
theorem foldl_up {P : ℕ → σ → Prop} {step : σ → Fin n → σ} {s : σ} (hstart : P 0 s)
    (hstep : ∀ (i : Fin n) s, P i s → P (i + 1) (step s i)) :
    P n ((List.finRange n).foldl step s) := by
  have hrest : ∀ todo done s, List.finRange n = done ++ todo → P done.length s →
      P n (todo.foldl step s) := by
    intro todo
    induction todo with
    | nil =>
      intro done s hsplit hdone
      have hlength := congrArg List.length hsplit
      rw [List.length_finRange, List.append_nil] at hlength
      rwa [← hlength] at hdone
    | cons i todo ih =>
      intro done s hsplit hdone
      have hi := finRange_split hsplit
      refine ih (done ++ [i]) _ (by simp [hsplit]) ?_
      rw [← hi] at hdone
      rw [List.length_append, List.length_singleton, ← hi]
      exact hstep i s hdone
  exact hrest _ [] s rfl hstart

/-- A loop over the first numbers, upwards, that may stop. -/
theorem foldlM_prefix {P : ℕ → σ → Prop} {step : σ → Fin n → Option σ} {s s' : σ}
    {first rest : List (Fin n)} (hsplit : List.finRange n = first ++ rest) (hstart : P 0 s)
    (hstep : ∀ (i : Fin n) s s', P i s → step s i = some s' → P (i + 1) s')
    (h : first.foldlM step s = some s') : P first.length s' := by
  have hrest : ∀ todo done s, first = done ++ todo → P done.length s →
      todo.foldlM step s = some s' → P first.length s' := by
    intro todo
    induction todo with
    | nil =>
      intro done s hfirst hdone h
      obtain rfl := Option.some.inj h
      rw [hfirst, List.append_nil]
      exact hdone
    | cons i todo ih =>
      intro done s hfirst hdone h
      rw [List.foldlM_cons] at h
      obtain ⟨next, hnext, h⟩ := Option.bind_eq_some_iff.mp h
      rw [hfirst, List.append_assoc, List.cons_append] at hsplit
      have hi := finRange_split hsplit
      rw [← hi] at hdone
      refine ih (done ++ [i]) next (by simp [hfirst]) ?_ h
      rw [List.length_append, List.length_singleton, ← hi]
      exact hstep i s next hdone hnext
  exact hrest first [] s rfl hstart h

/-- A loop downwards. -/
theorem foldl_down {P : ℕ → σ → Prop} {step : σ → Fin n → σ} {s : σ} (hstart : P n s)
    (hstep : ∀ (i : Fin n) s, P (i + 1) s → P i (step s i)) :
    P 0 ((List.finRange n).reverse.foldl step s) := by
  have hrest : ∀ (todo rest : List (Fin n)) (s : σ), List.finRange n = todo.reverse ++ rest → P todo.length s →
      P 0 (todo.foldl step s) := by
    intro todo
    induction todo with
    | nil => exact fun _ _ _ h => h
    | cons i todo ih =>
      intro rest s hsplit htodo
      rw [List.reverse_cons, List.append_assoc] at hsplit
      have hi := finRange_split hsplit
      rw [List.length_reverse] at hi
      refine ih (i :: rest) _ hsplit ?_
      rw [← hi]
      refine hstep i s ?_
      rw [hi]
      exact htodo
  refine hrest _ [] s (by simp) ?_
  rwa [List.length_reverse, List.length_finRange]

end FitsWell.FinLoops
