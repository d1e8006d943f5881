import Mathlib.Data.List.Induction

/-!
# Lists in turn

A property of the items of a list that each has in view of the items before it.
-/

namespace FitsWell

variable {α : Type*} {P Q : List α → α → Prop} {items before : List α} {item : α}

/-- Each item has a property of it and the items before it. -/
def InTurn (P : List α → α → Prop) (items : List α) : Prop :=
  ∀ before item after, items = before ++ item :: after → P before item

@[simp] theorem inTurn_nil : InTurn P [] := by
  intro before item after h
  simp at h

/-- The items of a list that comes first have the property already. -/
theorem InTurn.of_prefix (h : InTurn P items) (hfront : before <+: items) : InTurn P before := by
  intro front item after hsplit
  obtain ⟨rest, rfl⟩ := hfront
  refine h front item (after ++ rest) ?_
  rw [hsplit, List.append_assoc, List.cons_append]

@[simp] theorem inTurn_concat_iff : InTurn P (items ++ [item]) ↔ InTurn P items ∧ P items item := by
  constructor
  · intro h
    exact ⟨h.of_prefix (List.prefix_append _ _), h items item [] rfl⟩
  · rintro ⟨hitems, hitem⟩ before other after hsplit
    cases after using List.reverseRecOn with
    | nil =>
      obtain ⟨rfl, hlast⟩ := List.append_inj' hsplit rfl
      obtain rfl := List.singleton_inj.mp hlast
      exact hitem
    | append_singleton after last =>
      refine hitems before other after ?_
      rw [← List.cons_append, ← List.append_assoc] at hsplit
      exact (List.append_inj' hsplit rfl).1

theorem InTurn.imp (h : InTurn P items)
    (himp : ∀ before item, item ∈ items → P before item → Q before item) : InTurn Q items := by
  intro before item after hsplit
  refine himp before item ?_ (h before item after hsplit)
  rw [hsplit]
  exact List.mem_append_right before List.mem_cons_self

end FitsWell
