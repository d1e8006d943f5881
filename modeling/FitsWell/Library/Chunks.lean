import Mathlib.Data.List.TakeWhile
import Mathlib.Tactic.Conv

/-!
# Whole chunks of a list

Slicing a list into chunks of one length, the remainder left out, and the search for
the end of a leading run that compares chunk by chunk before it compares one by one.
-/

namespace FitsWell.Chunks

variable {α : Type}

/-- The whole chunks of `size + 1` elements of `values`, in order; a shorter remainder is
left out. -/
def wholeChunks (size : ℕ) (values : List α) : List (List α) :=
  if size < values.length then
    values.take (size + 1) :: wholeChunks size (values.drop (size + 1))
  else []
termination_by values.length

/-- The count of leading elements of `values` that hold `p`, found by whole chunks of
`size + 1` first and element by element after them. -/
def leadingCount (size : ℕ) (p : α → Bool) (values : List α) : ℕ :=
  let whole := ((wholeChunks size values).takeWhile (fun chunk => chunk.all p)).length * (size + 1)
  whole + ((values.drop whole).takeWhile p).length

/-- A first chunk that holds the property throughout is passed whole. -/
theorem leadingCount_of_all {size : ℕ} {p : α → Bool} {values : List α}
    (hsize : size < values.length) (hall : (values.take (size + 1)).all p = true) :
    leadingCount size p values = size + 1 + leadingCount size p (values.drop (size + 1)) := by
  unfold leadingCount
  conv_lhs => rw [wholeChunks, if_pos hsize, List.takeWhile_cons, if_pos hall]
  simp only [List.length_cons, List.drop_drop, Nat.add_mul, Nat.one_mul]
  rw [Nat.add_comm (_ * (size + 1)) (size + 1), Nat.add_assoc]

/-- Without a first chunk that holds the property throughout, the search is element by
element. -/
theorem leadingCount_of_not_all {size : ℕ} {p : α → Bool} {values : List α}
    (h : ¬(size < values.length ∧ (values.take (size + 1)).all p = true)) :
    leadingCount size p values = (values.takeWhile p).length := by
  unfold leadingCount
  rw [wholeChunks]
  by_cases hsize : size < values.length
  · have hall : ¬(values.take (size + 1)).all p = true := fun hall => h ⟨hsize, hall⟩
    rw [if_pos hsize, List.takeWhile_cons, if_neg hall]
    simp
  · rw [if_neg hsize]
    simp

/-- The chunked search finds the whole leading run. -/
theorem leadingCount_eq (size : ℕ) (p : α → Bool) (values : List α) :
    leadingCount size p values = (values.takeWhile p).length := by
  induction hlength : values.length using Nat.strong_induction_on generalizing values with
  | _ length ih =>
    by_cases h : size < values.length ∧ (values.take (size + 1)).all p = true
    · obtain ⟨hsize, hall⟩ := h
      have htake : (values.take (size + 1)).takeWhile p = values.take (size + 1) :=
        List.takeWhile_eq_self_iff.mpr (List.all_eq_true.mp hall)
      have hrest := ih (values.drop (size + 1)).length (by rw [List.length_drop]; omega)
        (values.drop (size + 1)) rfl
      rw [leadingCount_of_all hsize hall, hrest]
      conv_rhs => rw [← List.take_append_drop (size + 1) values]
      rw [List.takeWhile_append_of_pos (List.all_eq_true.mp hall), List.length_append,
        List.length_take, Nat.min_eq_left (by omega)]
    · exact leadingCount_of_not_all h

/-- Dropping the leading run of a property leaves what follows it. -/
theorem drop_length_takeWhile (p : α → Bool) (values : List α) :
    values.drop (values.takeWhile p).length = values.dropWhile p := by
  conv_lhs => rw [← List.takeWhile_append_dropWhile (p := p) (l := values)]
  rw [List.drop_left']
  rw [List.takeWhile_append_dropWhile]

/-- The first element after the leading run of a property does not have it. -/
theorem not_of_drop_takeWhile {p : α → Bool} {values rest : List α} {value : α}
    (hdrop : values.drop (values.takeWhile p).length = value :: rest) : p value = false := by
  rw [drop_length_takeWhile] at hdrop
  have h := List.head_dropWhile_not p (l := values) (by rw [hdrop]; exact List.cons_ne_nil _ _)
  simpa only [hdrop, List.head_cons] using h

/-! ## Chunks by number -/

/-- The chunk `j` of `size` elements of `values`; the last one may be shorter. -/
def chunk (values : List α) (size j : ℕ) : List α := (values.drop (j * size)).take size

theorem length_chunk (values : List α) (size j : ℕ) :
    (chunk values size j).length = min size (values.length - j * size) := by
  rw [chunk, List.length_take, List.length_drop]

/-- The chunks laid end to end are the list. -/
theorem flatten_chunks {values : List α} {size count : ℕ} (h : values.length ≤ count * size) :
    ((List.range count).map (chunk values size)).flatten = values := by
  have hblocks : ((List.range count).map (chunk values size)).flatten =
      values.take (count * size) := by
    clear h
    induction count with
    | zero => simp
    | succ count ih =>
      rw [List.range_succ, List.map_append, List.flatten_append, ih, Nat.succ_mul, List.take_add]
      simp [chunk]
  rw [hblocks, List.take_of_length_le h]

/-- Lists of one length, laid end to end, are the chunks of what they make. -/
theorem wholeChunks_flatten {size : ℕ} (hsize : 0 < size) {rows : List (List α)}
    (hrows : ∀ row ∈ rows, row.length = size) : wholeChunks (size - 1) rows.flatten = rows := by
  have hone : size - 1 + 1 = size := by omega
  induction rows with
  | nil => rw [List.flatten_nil, wholeChunks, if_neg (by simp)]
  | cons row rows ih =>
    have hrow := hrows row List.mem_cons_self
    have hlong : size - 1 < (row ++ rows.flatten).length := by
      rw [List.length_append, hrow]
      omega
    rw [List.flatten_cons, wholeChunks, if_pos hlong, hone, ← hrow, List.take_left,
      List.drop_left, hrow, ih fun other hother => hrows other (List.mem_cons_of_mem row hother)]

/-- Rows of one length, by number, are the chunks of what they make. -/
theorem wholeChunks_flatMap {size count : ℕ} (hsize : 0 < size) {row : ℕ → List α}
    (hrow : ∀ i < count, (row i).length = size) :
    wholeChunks (size - 1) ((List.range count).flatMap row) = (List.range count).map row := by
  rw [List.flatMap_def]
  apply wholeChunks_flatten hsize
  intro part hpart
  obtain ⟨i, hi, rfl⟩ := List.mem_map.mp hpart
  exact hrow i (List.mem_range.mp hi)

/-- Rows of one length, by number, laid end to end. -/
theorem length_flatMap_range {size count : ℕ} {row : ℕ → List α}
    (hrow : ∀ i < count, (row i).length = size) :
    ((List.range count).flatMap row).length = count * size := by
  induction count with
  | zero => rw [List.range_zero, List.flatMap_nil, List.length_nil, Nat.zero_mul]
  | succ count ih =>
    rw [List.range_succ, List.flatMap_append, List.flatMap_singleton, List.length_append,
      ih fun i hi => hrow i (Nat.lt_succ_of_lt hi), hrow count (Nat.lt_succ_self count),
      Nat.succ_mul]

/-- The whole chunks of a whole number of them, by number. -/
theorem wholeChunks_eq_map {size count : ℕ} (hsize : 0 < size) {values : List α}
    (h : values.length = count * size) :
    wholeChunks (size - 1) values = (List.range count).map (chunk values size) := by
  conv_lhs => rw [← flatten_chunks h.le]
  apply wholeChunks_flatten hsize
  intro row hrow
  obtain ⟨j, hj, rfl⟩ := List.mem_map.mp hrow
  have hend : j * size + size ≤ count * size := by
    rw [← Nat.succ_mul]
    exact Nat.mul_le_mul_right size (List.mem_range.mp hj)
  rw [length_chunk]
  omega

/-- Around chunk `k` of a list lie the chunks before it and those after it. -/
theorem chunk_splice {before part after : List α} {size k : ℕ} (hbefore : before.length = k * size)
    (hpart : part.length ≤ size) (hafter : after ≠ [] → part.length = size) (j : ℕ) :
    chunk (before ++ part ++ after) size j =
      if j < k then chunk before size j
      else if j = k then part
      else chunk after size (j - k - 1) := by
  unfold chunk
  rw [List.append_assoc]
  rcases Nat.lt_trichotomy j k with hlt | rfl | hgt
  · have hroom : j * size + size ≤ k * size := by
      calc j * size + size = (j + 1) * size := (Nat.succ_mul _ _).symm
        _ ≤ k * size := Nat.mul_le_mul_right size hlt
    rw [if_pos hlt, List.drop_append_of_le_length (by omega),
      List.take_append_of_le_length (by rw [List.length_drop]; omega)]
  · rw [if_neg (lt_irrefl j), if_pos rfl, ← hbefore, List.drop_left]
    rcases List.eq_nil_or_concat after with rfl | ⟨_, _, rfl⟩
    · rw [List.append_nil, List.take_of_length_le hpart]
    · rw [← hafter (by simp), List.take_left]
  · obtain ⟨i, rfl⟩ := Nat.exists_eq_add_of_lt hgt
    have hstart : (k + i + 1) * size = before.length + (size + i * size) := by
      rw [hbefore, Nat.succ_mul, Nat.add_mul]
      omega
    have hindex : k + i + 1 - k - 1 = i := by omega
    rw [if_neg (by omega), if_neg (by omega), hstart, List.drop_append,
      List.drop_of_length_le (by omega), Nat.add_sub_cancel_left, List.nil_append, hindex]
    rcases List.eq_nil_or_concat after with rfl | ⟨_, _, rfl⟩
    · rw [List.append_nil, List.drop_of_length_le (by omega), List.drop_nil]
    · rw [← hafter (by simp), List.drop_append, List.drop_of_length_le (by omega),
        Nat.add_sub_cancel_left, List.nil_append]

/-- Replacing chunk `k` of a list replaces it among its chunks. -/
theorem map_chunk_splice {before part part' after : List α} {size k : ℕ}
    (hbefore : before.length = k * size) (hpart : part.length ≤ size)
    (hafter : after ≠ [] → part.length = size) (hlength : part'.length = part.length) (n : ℕ) :
    (List.range n).map (chunk (before ++ part' ++ after) size) =
      ((List.range n).map (chunk (before ++ part ++ after) size)).set k part' := by
  apply List.ext_getElem?
  intro j
  rw [List.getElem?_set, List.length_map, List.length_range, List.getElem?_map,
    List.getElem?_map]
  have hafter' : after ≠ [] → part'.length = size := fun h => hlength.trans (hafter h)
  by_cases hj : j < n
  · rw [List.getElem?_range hj, Option.map_some, Option.map_some,
      chunk_splice hbefore (hlength.trans_le hpart) hafter' j,
      chunk_splice hbefore hpart hafter j]
    by_cases hk : k = j
    · subst hk
      rw [if_pos rfl, if_pos hj, if_neg (lt_irrefl k), if_pos rfl]
    · have hne : ¬j = k := fun h => hk h.symm
      rw [if_neg hk, if_neg hne, if_neg hne]
  · rw [List.getElem?_eq_none (by rw [List.length_range]; omega), Option.map_none, Option.map_none]
    by_cases hk : k = j
    · rw [if_pos hk, if_neg (by omega)]
    · rw [if_neg hk]

end FitsWell.Chunks
