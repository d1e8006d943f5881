import Mathlib.Algebra.BigOperators.Group.List.Basic
import Mathlib.Data.List.Chain
import Mathlib.Tactic.Linarith

/-!
# Joined runs

Runs of a list in increasing order, those that follow one another joined: the joined runs
hold the same elements, and a gap lies between any two of them.
-/

namespace FitsWell

/-- A run of a list: `len` elements from `offset` on. -/
structure Run where
  offset : ℕ
  len : ℕ
  deriving DecidableEq, Repr

namespace Run

variable {α : Type}

/-- The place after a run. -/
def stop (run : Run) : ℕ := run.offset + run.len

/-- The elements of a run. -/
def slice (values : List α) (run : Run) : List α := (values.drop run.offset).take run.len

/-- The runs after `pending`, which takes those that follow it. -/
def joinFrom (pending : Run) : List Run → List Run
  | [] => [pending]
  | next :: rest =>
    if pending.stop = next.offset then joinFrom ⟨pending.offset, pending.len + next.len⟩ rest
    else pending :: joinFrom next rest

/-- The runs, those that follow one another joined. -/
def join : List Run → List Run
  | [] => []
  | run :: runs => joinFrom run runs

theorem length_slice {values : List α} {run : Run} (h : run.stop ≤ values.length) :
    (run.slice values).length = run.len := by
  rw [slice, List.length_take, List.length_drop]
  unfold stop at h
  omega

/-- A run is what it holds in two parts. -/
theorem slice_add (values : List α) (offset a b : ℕ) :
    slice values ⟨offset, a + b⟩ = slice values ⟨offset, a⟩ ++ slice values ⟨offset + a, b⟩ := by
  rw [slice, slice, slice, List.take_add, List.drop_drop]

/-- Joined runs hold the same elements. -/
theorem flatMap_slice_joinFrom (values : List α) (pending : Run) (runs : List Run) :
    (joinFrom pending runs).flatMap (slice values) =
      pending.slice values ++ runs.flatMap (slice values) := by
  induction runs generalizing pending with
  | nil => rw [joinFrom, List.flatMap_singleton, List.flatMap_nil, List.append_nil]
  | cons next rest ih =>
    rw [joinFrom, List.flatMap_cons]
    split
    · rename_i hnext
      have hparts : next.slice values = slice values ⟨pending.offset + pending.len, next.len⟩ :=
        congrArg (fun offset => slice values ⟨offset, next.len⟩) hnext.symm
      rw [ih, slice_add, hparts, List.append_assoc]
    · rw [List.flatMap_cons, ih]

theorem flatMap_slice_join (values : List α) (runs : List Run) :
    (join runs).flatMap (slice values) = runs.flatMap (slice values) := by
  cases runs with
  | nil => rfl
  | cons run runs => exact flatMap_slice_joinFrom values run runs

theorem sum_len_joinFrom (pending : Run) (runs : List Run) :
    ((joinFrom pending runs).map len).sum = pending.len + (runs.map len).sum := by
  induction runs generalizing pending with
  | nil => rfl
  | cons next rest ih =>
    rw [joinFrom, List.map_cons, List.sum_cons]
    split
    · rw [ih, Nat.add_assoc]
    · rw [List.map_cons, List.sum_cons, ih]

theorem sum_len_join (runs : List Run) : ((join runs).map len).sum = (runs.map len).sum := by
  cases runs with
  | nil => rfl
  | cons run runs => exact sum_len_joinFrom run runs

/-- What holds of runs, and of two that follow one another joined, holds of joined runs. -/
theorem forall_joinFrom {P : Run → Prop}
    (hjoin : ∀ a b : Run, P a → P b → a.stop = b.offset → P ⟨a.offset, a.len + b.len⟩)
    {pending : Run} {runs : List Run} (hpending : P pending) (hruns : ∀ run ∈ runs, P run) :
    ∀ run ∈ joinFrom pending runs, P run := by
  induction runs generalizing pending with
  | nil =>
    intro run hmem
    rwa [List.mem_singleton.mp hmem]
  | cons next rest ih =>
    have hnext := hruns next List.mem_cons_self
    have hrest : ∀ run ∈ rest, P run := fun run hrun => hruns run (List.mem_cons_of_mem next hrun)
    rw [joinFrom]
    split
    · exact ih (hjoin pending next hpending hnext ‹_›) hrest
    · intro run hmem
      rcases List.mem_cons.mp hmem with rfl | hmem
      · exact hpending
      · exact ih hnext hrest run hmem

theorem forall_join {P : Run → Prop}
    (hjoin : ∀ a b : Run, P a → P b → a.stop = b.offset → P ⟨a.offset, a.len + b.len⟩)
    {runs : List Run} (hruns : ∀ run ∈ runs, P run) : ∀ run ∈ join runs, P run := by
  cases runs with
  | nil => exact fun run hmem => absurd hmem List.not_mem_nil
  | cons run runs =>
    exact forall_joinFrom hjoin (hruns run List.mem_cons_self)
      (fun other hother => hruns other (List.mem_cons_of_mem run hother))

/-- The first of joined runs starts where the first of the runs does. -/
theorem exists_joinFrom (pending : Run) (runs : List Run) : ∃ first rest,
    joinFrom pending runs = first :: rest ∧ first.offset = pending.offset := by
  induction runs generalizing pending with
  | nil => exact ⟨pending, [], rfl, rfl⟩
  | cons next rest ih =>
    rw [joinFrom]
    split
    · exact ih ⟨pending.offset, pending.len + next.len⟩
    · exact ⟨pending, _, rfl, rfl⟩

/-- Runs each at or after the end of the one before it, joined, leave a gap between any two. -/
theorem isChain_joinFrom {pending : Run} {runs : List Run}
    (h : (pending :: runs).IsChain (fun a b => a.stop ≤ b.offset)) :
    (joinFrom pending runs).IsChain (fun a b => a.stop < b.offset) := by
  induction runs generalizing pending with
  | nil => exact .singleton _
  | cons next rest ih =>
    obtain ⟨hnext, hrest⟩ := List.isChain_cons_cons.mp h
    rw [joinFrom]
    split
    · rename_i hjoin
      refine ih ?_
      cases rest with
      | nil => exact .singleton _
      | cons last rest =>
        obtain ⟨hlast, hrest⟩ := List.isChain_cons_cons.mp hrest
        refine List.isChain_cons_cons.mpr ⟨?_, hrest⟩
        unfold stop at *
        dsimp only
        omega
    · rename_i hgap
      obtain ⟨first, others, heq, hfirst⟩ := exists_joinFrom next rest
      have hchain := ih hrest
      rw [heq] at hchain ⊢
      exact List.isChain_cons_cons.mpr ⟨by omega, hchain⟩

theorem isChain_join {runs : List Run} (h : runs.IsChain (fun a b => a.stop ≤ b.offset)) :
    (join runs).IsChain (fun a b => a.stop < b.offset) := by
  cases runs with
  | nil => exact .nil
  | cons run runs => exact isChain_joinFrom h

end Run

end FitsWell
