import FitsWell.Library.Loops
import Mathlib.Logic.Basic

/-!
# How a call ends

A call in `Except` ends with a value of which `P` holds or with an error of which `E`
does. The rules below follow the calls of a function, so that what its callees promise
of their ends gives what it promises of its own.
-/

namespace FitsWell.Loops

variable {ε σ α β : Type}

/-- The call ends with a value that has `P`, or with an error that has `E`. -/
def Ends (E : ε → Prop) (P : α → Prop) : Except ε α → Prop
  | .ok v => P v
  | .error e => E e

namespace Ends

variable {E : ε → Prop} {P Q : α → Prop} {R : β → Prop} {call : Except ε α}

theorem ok {v : α} (h : P v) : Ends E P (.ok v) := h

theorem error {e : ε} (h : E e) : Ends E P (.error e) := h

/-- What a value that is returned has. -/
theorem value {v : α} (h : Ends E P call) (hcall : call = .ok v) : P v := by
  subst hcall
  exact h

/-- A weaker promise of the value. -/
theorem mono (h : Ends E P call) (hvalue : ∀ v, P v → Q v) : Ends E Q call := by
  cases call with
  | ok v => exact hvalue v h
  | error e => exact h

/-- A call that returns a value with `P`. -/
theorem of_ok {v : α} (hcall : call = .ok v) (h : P v) : Ends E P call := hcall ▸ h

/-- Two calls in turn. -/
theorem bind {next : α → Except ε β} (h : Ends E P call) (hnext : ∀ v, P v → Ends E R (next v)) :
    Ends E R (call >>= next) := by
  cases call with
  | ok v => exact hnext v h
  | error e => exact h

/-- A choice between two calls. -/
theorem ite {condition : Prop} [Decidable condition] {yes no : Except ε α}
    (hyes : condition → Ends E P yes) (hno : ¬condition → Ends E P no) :
    Ends E P (if condition then yes else no) := by
  split
  · exact hyes ‹_›
  · exact hno ‹_›

/-- A loop keeps what its steps give for the items before them. -/
theorem foldlM_prefix {P : List β → σ → Prop} {step : σ → β → Except ε σ} {items : List β} {s : σ}
    (hstart : P [] s)
    (hstep : ∀ done item todo s, items = done ++ item :: todo → P done s →
      Ends E (P (done ++ [item])) (step s item)) :
    Ends E (P items) (items.foldlM step s) := by
  have hrest : ∀ todo done s, items = done ++ todo → P done s →
      Ends E (P items) (todo.foldlM step s) := by
    intro todo
    induction todo with
    | nil =>
      intro done s hitems hdone
      rw [hitems, List.append_nil]
      exact hdone
    | cons item todo ih =>
      intro done s hitems hdone
      rw [List.foldlM_cons]
      exact (hstep done item todo s hitems hdone).bind fun next hnext =>
        ih _ next (hitems.trans (List.append_cons done item todo)) hnext
  exact hrest items [] s rfl hstart

/-- A loop keeps what each of its steps keeps. -/
theorem foldlM {I : σ → Prop} {step : σ → β → Except ε σ} {items : List β} {s : σ} (hstart : I s)
    (hstep : ∀ item ∈ items, ∀ s, I s → Ends E I (step s item)) :
    Ends E I (items.foldlM step s) := by
  induction items generalizing s with
  | nil => exact hstart
  | cons item items ih =>
    rw [List.foldlM_cons]
    refine (hstep item (by simp) s hstart).bind fun s' hs' => ?_
    exact ih hs' fun other hother => hstep other (List.mem_cons_of_mem _ hother)

/-- A loop over the numbers below `n`. -/
theorem range {I : σ → Prop} {step : σ → ℕ → Except ε σ} {n : ℕ} {s : σ} (hstart : I s)
    (hstep : ∀ k < n, ∀ s, I s → Ends E I (step s k)) :
    Ends E I ((List.range n).foldlM step s) :=
  foldlM hstart fun k hk => hstep k (List.mem_range.mp hk)

/-- A call for each item gives as many values. -/
theorem mapM {f : β → Except ε α} {items : List β} (hcall : ∀ item ∈ items, Ends E P (f item)) :
    Ends E (fun values => values.length = items.length ∧ ∀ v ∈ values, P v) (items.mapM f) := by
  induction items with
  | nil => exact ⟨rfl, by simp⟩
  | cons item items ih =>
    rw [List.mapM_cons]
    refine (hcall item (by simp)).bind fun v hv => ?_
    refine (ih fun other hother => hcall other (List.mem_cons_of_mem _ hother)).bind ?_
    rintro values ⟨hlength, hall⟩
    exact ⟨by simp [hlength], List.forall_mem_cons.mpr ⟨hv, hall⟩⟩

/-- A call for each item leaves what each of them does. -/
theorem forM {Q : β → Prop} {f : β → Except ε PUnit} {items : List β}
    (hcall : ∀ item ∈ items, Ends E (fun _ => Q item) (f item)) :
    Ends E (fun _ => ∀ item ∈ items, Q item) (items.forM f) := by
  induction items with
  | nil => exact fun _ hitem => absurd hitem (List.not_mem_nil)
  | cons item items ih =>
    change Ends E _ (f item >>= fun _ => items.forM f)
    apply (hcall item List.mem_cons_self).bind
    intro _ hitem
    apply (ih fun other hother => hcall other (List.mem_cons_of_mem _ hother)).mono
    exact fun _ hrest => List.forall_mem_cons.mpr ⟨hitem, hrest⟩

end Ends

end FitsWell.Loops
