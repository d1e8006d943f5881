import Mathlib.Data.List.Basic
import Mathlib.Data.Nat.Notation

/-!
# An index of first places

A map from each key to the first place of a list that has it, kept while items enter and
leave the list.
-/

namespace FitsWell

/-- A map from keys to places. -/
abbrev PlaceIndex (κ : Type) := κ → Option ℕ

namespace PlaceIndex

variable {α κ : Type} [DecidableEq κ] {keyOf : α → Option κ}

/-- The first place of `items` with the key `key`. -/
def firstPlace (keyOf : α → Option κ) (items : List α) (key : κ) : Option ℕ :=
  items.findIdx? (fun item => keyOf item == some key)

/-- An index of the first places of `items`. -/
def IsIndexOf (keyOf : α → Option κ) (items : List α) (index : PlaceIndex κ) : Prop :=
  ∀ key, index key = firstPlace keyOf items key

/-- The empty index. -/
def empty : PlaceIndex κ := fun _ => none

/-- The index once an item of `key` enters at place `i`: the places from `i` on shift, and
the item is first of its key where no other is before it. -/
def insertAt (index : PlaceIndex κ) (i : ℕ) (key : Option κ) : PlaceIndex κ := fun other =>
  let shifted := (index other).map fun place => if i ≤ place then place + 1 else place
  if key = some other then some (min (shifted.getD i) i) else shifted

/-- The index once the item of `key` at place `i` leaves, with `rest` the items after it:
the places after `i` shift, and where the item was first of its key the next one is. -/
def takeAt (keyOf : α → Option κ) (index : PlaceIndex κ) (i : ℕ) (key : Option κ)
    (rest : List α) : PlaceIndex κ := fun other =>
  let shifted := (index other).map fun place => if i < place then place - 1 else place
  if key = some other ∧ shifted = some i then
    (firstPlace keyOf rest other).map (i + ·)
  else
    shifted

/-- The index once an item of `key` follows at place `i`, where no item before it has its
key. -/
def orInsert (index : PlaceIndex κ) (i : ℕ) (key : Option κ) : PlaceIndex κ := fun other =>
  if key = some other ∧ index other = none then some i else index other

/-- The index built from the items in turn. -/
def rebuild (keyOf : α → Option κ) (items : List α) : PlaceIndex κ :=
  items.zipIdx.foldl (fun index item => index.orInsert item.2 (keyOf item.1)) empty

theorem isIndexOf_nil : IsIndexOf keyOf [] empty := fun _ => rfl

/-- A place is the first with its key. -/
theorem firstPlace_eq_some_iff {items : List α} {key : κ} {i : ℕ} :
    firstPlace keyOf items key = some i ↔
      (∃ item, items[i]? = some item ∧ keyOf item = some key) ∧
        ∀ j < i, ∀ item, items[j]? = some item → keyOf item ≠ some key := by
  rw [firstPlace, List.findIdx?_eq_some_iff_getElem]
  constructor
  · rintro ⟨hi, hkey, hbefore⟩
    refine ⟨⟨items[i], List.getElem?_eq_getElem hi, by simpa using hkey⟩, ?_⟩
    intro j hj item hitem
    obtain ⟨hlt, rfl⟩ := List.getElem?_eq_some_iff.mp hitem
    simpa using hbefore j hj
  · rintro ⟨⟨item, hitem, hkey⟩, hbefore⟩
    obtain ⟨hi, rfl⟩ := List.getElem?_eq_some_iff.mp hitem
    refine ⟨hi, by simpa using hkey, fun j hj => ?_⟩
    simpa using hbefore j hj _ (List.getElem?_eq_getElem (Nat.lt_trans hj hi))

theorem firstPlace_eq_findIdx? (items : List α) (key : κ) :
    firstPlace keyOf items key = items.findIdx? fun item => decide (keyOf item = some key) := by
  rw [firstPlace]
  congr 1
  funext item
  rw [Bool.eq_iff_iff, beq_iff_eq, decide_eq_true_iff]

theorem firstPlace_eq_none_iff {items : List α} {key : κ} :
    firstPlace keyOf items key = none ↔ ∀ item ∈ items, keyOf item ≠ some key := by
  rw [firstPlace, List.findIdx?_eq_none_iff]
  simp

/-- A list's first place with a key, from that of its parts. -/
theorem firstPlace_append (before after : List α) (key : κ) :
    firstPlace keyOf (before ++ after) key =
      (firstPlace keyOf before key).or ((firstPlace keyOf after key).map (· + before.length)) := by
  rw [firstPlace, List.findIdx?_append]
  rfl

theorem firstPlace_cons (item : α) (items : List α) (key : κ) :
    firstPlace keyOf (item :: items) key =
      if keyOf item = some key then some 0 else (firstPlace keyOf items key).map (· + 1) := by
  simp only [firstPlace, List.findIdx?_cons, beq_iff_eq]

theorem firstPlace_lt {items : List α} {key : κ} {i : ℕ}
    (h : firstPlace keyOf items key = some i) : i < items.length := by
  obtain ⟨⟨item, hitem, -⟩, -⟩ := firstPlace_eq_some_iff.mp h
  exact (List.getElem?_eq_some_iff.mp hitem).1

/-- The index follows an item that enters. -/
theorem IsIndexOf.insertAt {before after : List α} {index : PlaceIndex κ} (item : α)
    (h : IsIndexOf keyOf (before ++ after) index) :
    IsIndexOf keyOf (before ++ item :: after)
      (index.insertAt before.length (keyOf item)) := by
  intro key
  rw [PlaceIndex.insertAt, h key, firstPlace_append, firstPlace_append, firstPlace_cons]
  cases hbefore : firstPlace keyOf before key with
  | some place =>
    have hlt := firstPlace_lt hbefore
    simp only [Option.some_or, Option.map_some, if_neg (Nat.not_le.mpr hlt), Option.getD_some,
      Nat.min_eq_left (Nat.le_of_lt hlt), ite_self]
  | none =>
    by_cases hkey : keyOf item = some key
    · simp only [Option.none_or, if_pos hkey, Option.map_some, Nat.zero_add]
      cases firstPlace keyOf after key with
      | none => simp
      | some place =>
        have hmin : min (place + before.length + 1) before.length = before.length := by omega
        simp [hmin]
    · simp only [Option.none_or, if_neg hkey]
      cases firstPlace keyOf after key with
      | none => rfl
      | some place =>
        simp only [Option.map_some, if_pos (Nat.le_add_left _ _)]
        congr 1
        omega

/-- The index follows an item that leaves. -/
theorem IsIndexOf.takeAt {before after : List α} {item : α} {index : PlaceIndex κ}
    (h : IsIndexOf keyOf (before ++ item :: after) index) :
    IsIndexOf keyOf (before ++ after)
      (index.takeAt keyOf before.length (keyOf item) after) := by
  intro key
  rw [PlaceIndex.takeAt, h key, firstPlace_append, firstPlace_append, firstPlace_cons]
  cases hbefore : firstPlace keyOf before key with
  | some place =>
    have hlt := firstPlace_lt hbefore
    simp only [Option.some_or, Option.map_some, if_neg (Nat.not_lt.mpr (Nat.le_of_lt hlt)),
      Option.some.injEq, Nat.ne_of_lt hlt, and_false, if_false]
  | none =>
    by_cases hkey : keyOf item = some key
    · simp only [Option.none_or, hkey, Option.map_some, Nat.zero_add, Nat.lt_irrefl, if_false,
        and_self, if_true]
      cases firstPlace keyOf after key with
      | none => rfl
      | some place =>
        simp only [Option.map_some]
        congr 1
        omega
    · simp only [Option.none_or, hkey, false_and, if_false]
      cases firstPlace keyOf after key with
      | none => rfl
      | some place =>
        simp only [Option.map_some]
        rw [if_pos (by omega)]
        congr 1
        omega

/-- The index follows an item at the end. -/
theorem IsIndexOf.orInsert {items : List α} {index : PlaceIndex κ} (item : α)
    (h : IsIndexOf keyOf items index) :
    IsIndexOf keyOf (items ++ [item]) (index.orInsert items.length (keyOf item)) := by
  intro key
  rw [PlaceIndex.orInsert, h key, firstPlace_append, firstPlace_cons]
  cases firstPlace keyOf items key with
  | some place => simp
  | none =>
    by_cases hkey : keyOf item = some key
    · simp [hkey]
    · simp [hkey, firstPlace]

/-- A rebuilt index is one of its items. -/
theorem isIndexOf_rebuild (items : List α) : IsIndexOf keyOf items (rebuild keyOf items) := by
  have hrun : ∀ (todo done : List α) (index : PlaceIndex κ), IsIndexOf keyOf done index →
      IsIndexOf keyOf (done ++ todo) ((todo.zipIdx done.length).foldl
        (fun index item => index.orInsert item.2 (keyOf item.1)) index) := by
    intro todo
    induction todo with
    | nil =>
      intro done index hdone
      rwa [List.append_nil]
    | cons item todo ih =>
      intro done index hdone
      have hnext := ih (done ++ [item]) _ (hdone.orInsert item)
      rw [List.append_assoc, List.singleton_append, List.length_append, List.length_singleton]
        at hnext
      rwa [List.zipIdx_cons, List.foldl_cons]
  exact hrun items [] empty isIndexOf_nil

/-- First places depend on the keys only. -/
theorem IsIndexOf.congr {items others : List α} {index : PlaceIndex κ}
    (h : IsIndexOf keyOf items index) (hkeys : others.map keyOf = items.map keyOf) :
    IsIndexOf keyOf others index := by
  have hplace : ∀ list : List α, ∀ key, firstPlace keyOf list key =
      (list.map keyOf).findIdx? (fun found => found == some key) := by
    intro list key
    rw [firstPlace, List.findIdx?_map]
    rfl
  intro key
  rw [h key, hplace, hplace, hkeys]

/-- An item with no key may follow the others. -/
theorem isIndexOf_append_iff {items : List α} {item : α} {index : PlaceIndex κ}
    (hkey : keyOf item = none) :
    IsIndexOf keyOf (items ++ [item]) index ↔ IsIndexOf keyOf items index := by
  have hplace : ∀ key, firstPlace keyOf (items ++ [item]) key = firstPlace keyOf items key := by
    intro key
    rw [firstPlace_append, firstPlace_cons, if_neg (by simp [hkey])]
    cases firstPlace keyOf items key <;> rfl
  exact forall_congr' (fun key => by rw [hplace key])

theorem insertAt_isIndexOf {items : List α} {index : PlaceIndex κ} {i : ℕ} {item : α}
    (hi : i ≤ items.length) (h : IsIndexOf keyOf items index) :
    IsIndexOf keyOf (items.take i ++ item :: items.drop i) (index.insertAt i (keyOf item)) := by
  have hlength : (items.take i).length = i := List.length_take_of_le hi
  rw [← List.take_append_drop i items] at h
  have hnext := h.insertAt item
  rwa [hlength] at hnext

theorem takeAt_isIndexOf {items : List α} {index : PlaceIndex κ} {i : ℕ} {item : α}
    (hitem : items[i]? = some item) (h : IsIndexOf keyOf items index) :
    IsIndexOf keyOf (items.take i ++ items.drop (i + 1))
      (index.takeAt keyOf i (keyOf item) (items.drop (i + 1))) := by
  obtain ⟨hi, rfl⟩ := List.getElem?_eq_some_iff.mp hitem
  have hlength : (items.take i).length = i := List.length_take_of_le (Nat.le_of_lt hi)
  have hsplit : items = items.take i ++ items[i] :: items.drop (i + 1) := by
    rw [List.getElem_cons_drop, List.take_append_drop]
  rw [hsplit] at h
  have hnext := h.takeAt
  rwa [hlength] at hnext

omit [DecidableEq κ] in
/-- An item of the same key in another's place leaves the keys. -/
theorem map_set_eq {items : List α} {i : ℕ} {item : α}
    (h : ∀ old, items[i]? = some old → keyOf item = keyOf old) :
    (items.set i item).map keyOf = items.map keyOf := by
  apply List.ext_getElem?
  intro j
  rw [List.getElem?_map, List.getElem?_map, List.getElem?_set]
  by_cases hj : i = j
  · obtain rfl := hj
    rw [if_pos rfl]
    split
    · rename_i hi
      rw [List.getElem?_eq_getElem hi, Option.map_some, Option.map_some,
        h _ (List.getElem?_eq_getElem hi)]
    · rename_i hi
      rw [List.getElem?_eq_none (Nat.le_of_not_lt hi)]
  · rw [if_neg hj]

end PlaceIndex

end FitsWell
