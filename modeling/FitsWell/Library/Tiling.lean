import FitsWell.Library.MixedRadix
import Mathlib.Data.List.Nodup
import Mathlib.Data.List.Perm.Lattice

/-!
# Tilings of a grid

A grid with axes of the lengths `ds` is cut along each axis into tiles of the lengths
`ts`, the last tile along an axis clipped to it. A tile and a place in it name a cell of
the grid, and each cell has exactly one such name.
-/

namespace FitsWell.Tiling

open MixedRadix

/-- The tiles along an axis of length `d`, each of length `t`. -/
def tilesAlong (d t : ℕ) : ℕ := (d + t - 1) / t

/-- The tiles along each axis. -/
def counts (ds ts : List ℕ) : List ℕ := List.zipWith tilesAlong ds ts

/-- The first coordinates of the tile at the indices `is`. -/
def origins (ts is : List ℕ) : List ℕ := List.zipWith (fun t i => i * t) ts is

/-- The lengths of the tile at the indices `is`. -/
def extents : List ℕ → List ℕ → List ℕ → List ℕ
  | d :: ds, t :: ts, i :: is => min t (d - i * t) :: extents ds ts is
  | _, _, _ => []

/-- Coordinates from an origin and the coordinates relative to it. -/
def shift (os ls : List ℕ) : List ℕ := List.zipWith (· + ·) os ls

/-- The indices of the tile that holds the coordinates `cs`. -/
def tileOf (ts cs : List ℕ) : List ℕ := List.zipWith (fun t c => c / t) ts cs

/-- The coordinates `cs` relative to the tile that holds them. -/
def within (ts cs : List ℕ) : List ℕ := List.zipWith (fun t c => c % t) ts cs

@[simp] theorem counts_cons (d t : ℕ) (ds ts : List ℕ) :
    counts (d :: ds) (t :: ts) = tilesAlong d t :: counts ds ts := rfl

@[simp] theorem origins_cons (t i : ℕ) (ts is : List ℕ) :
    origins (t :: ts) (i :: is) = i * t :: origins ts is := rfl

@[simp] theorem extents_cons (d t i : ℕ) (ds ts is : List ℕ) :
    extents (d :: ds) (t :: ts) (i :: is) = min t (d - i * t) :: extents ds ts is := rfl

@[simp] theorem shift_cons (o l : ℕ) (os ls : List ℕ) :
    shift (o :: os) (l :: ls) = (o + l) :: shift os ls := rfl

@[simp] theorem tileOf_cons (t c : ℕ) (ts cs : List ℕ) :
    tileOf (t :: ts) (c :: cs) = c / t :: tileOf ts cs := rfl

@[simp] theorem within_cons (t c : ℕ) (ts cs : List ℕ) :
    within (t :: ts) (c :: cs) = c % t :: within ts cs := rfl

/-! ## One axis -/

/-- A tile along an axis begins inside it. -/
theorem lt_tilesAlong_iff {d t i : ℕ} (ht : 0 < t) : i < tilesAlong d t ↔ i * t < d := by
  rw [tilesAlong, Nat.lt_div_iff_mul_lt ht]
  omega

/-- An axis has no more tiles than places. -/
theorem tilesAlong_le {d t : ℕ} (ht : 0 < t) : tilesAlong d t ≤ d := by
  by_contra hlt
  have hpast := (lt_tilesAlong_iff ht).mp (not_le.mp hlt)
  have := Nat.le_mul_of_pos_right d ht
  omega

/-- Scaling an axis and its tiles leaves their number. -/
theorem tilesAlong_mul {d t w : ℕ} (ht : 0 < t) (hw : 0 < w) :
    tilesAlong (d * w) (t * w) = tilesAlong d t := by
  refine eq_of_forall_lt_iff (fun i => ?_)
  rw [lt_tilesAlong_iff (Nat.mul_pos ht hw), lt_tilesAlong_iff ht, ← Nat.mul_assoc]
  exact Nat.mul_lt_mul_right hw

/-- Clipping a tile to its axis leaves the number of tiles. -/
theorem tilesAlong_min {d t : ℕ} (ht : 0 < t) (hd : 0 < d) :
    tilesAlong d (min t d) = tilesAlong d t := by
  refine eq_of_forall_lt_iff (fun i => ?_)
  rw [lt_tilesAlong_iff (by omega), lt_tilesAlong_iff ht]
  rcases Nat.le_total t d with htd | hdt
  · rw [Nat.min_eq_left htd]
  · rw [Nat.min_eq_right hdt]
    rcases Nat.eq_zero_or_pos i with rfl | hi
    · simp only [Nat.zero_mul]
    · have := Nat.le_mul_of_pos_left d hi
      have := Nat.le_mul_of_pos_left t hi
      omega

/-- The tiles along an axis reach its end. -/
theorem le_tilesAlong_mul {d t : ℕ} (ht : 0 < t) : d ≤ tilesAlong d t * t := by
  have hsplit := Nat.div_add_mod (d + t - 1) t
  have hmod := Nat.mod_lt (d + t - 1) ht
  rw [Nat.mul_comm] at hsplit
  unfold tilesAlong
  omega

/-- The last tile along an axis ends where it does. -/
theorem last_tile {d t : ℕ} (ht : 0 < t) (hd : 0 < d) :
    (tilesAlong d t - 1) * t + min t (d - (tilesAlong d t - 1) * t) = d := by
  have hpos : 0 < tilesAlong d t := (lt_tilesAlong_iff ht).mpr (by omega)
  have hlow : (tilesAlong d t - 1) * t < d := (lt_tilesAlong_iff ht).mp (by omega)
  have hhigh := le_tilesAlong_mul (d := d) ht
  obtain ⟨n, hn⟩ := Nat.exists_eq_add_of_lt hpos
  rw [hn, Nat.zero_add] at hhigh hlow ⊢
  rw [Nat.succ_mul] at hhigh
  rw [Nat.add_sub_cancel] at hlow ⊢
  omega

/-- The tile that holds a coordinate is one of the axis. -/
theorem div_lt_tilesAlong {d t c : ℕ} (ht : 0 < t) (hc : c < d) : c / t < tilesAlong d t := by
  rw [lt_tilesAlong_iff ht]
  have := Nat.div_mul_le_self c t
  omega

/-- A coordinate relative to its tile is inside it. -/
theorem mod_lt_extent {d t c : ℕ} (ht : 0 < t) (hc : c < d) : c % t < min t (d - c / t * t) := by
  have hmod := Nat.mod_lt c ht
  have hsplit := Nat.div_add_mod c t
  rw [Nat.mul_comm] at hsplit
  omega

/-! ## All axes -/

/-- As many positive tile lengths as axes. -/
structure Tiles (ds ts : List ℕ) : Prop where
  length : ts.length = ds.length
  pos : ∀ t ∈ ts, 0 < t

theorem Tiles.head {d t : ℕ} {ds ts : List ℕ} (h : Tiles (d :: ds) (t :: ts)) : 0 < t :=
  h.pos t List.mem_cons_self

theorem Tiles.tail {d t : ℕ} {ds ts : List ℕ} (h : Tiles (d :: ds) (t :: ts)) : Tiles ds ts where
  length := Nat.succ.inj h.length
  pos := fun e he => h.pos e (List.mem_cons_of_mem t he)

/-- The cases of a tiling: no axes, or a first axis and the others. -/
theorem Tiles.cases {ds ts : List ℕ} (h : Tiles ds ts) :
    (ds = [] ∧ ts = []) ∨ ∃ d ds' t ts', ds = d :: ds' ∧ ts = t :: ts' := by
  match ds, ts, h.length with
  | [], [], _ => exact Or.inl ⟨rfl, rfl⟩
  | d :: ds', t :: ts', _ => exact Or.inr ⟨d, ds', t, ts', rfl, rfl⟩

/-- A place in a tile is inside the grid. -/
theorem shift_below {ds ts is ls : List ℕ} (h : Tiles ds ts) (his : Below is (counts ds ts))
    (hls : Below ls (extents ds ts is)) : Below (shift (origins ts is) ls) ds := by
  induction ds generalizing ts is ls with
  | nil =>
    obtain rfl := List.eq_nil_of_length_eq_zero h.length
    exact .nil
  | cons d ds ih =>
    obtain ⟨t, ts, rfl⟩ := List.exists_cons_of_length_eq_add_one h.length
    rcases his with _ | @⟨i, _, is, _, hi, his⟩
    rcases hls with _ | @⟨l, _, ls, _, hl, hls⟩
    have horigin := (lt_tilesAlong_iff h.head).mp hi
    rw [origins_cons, shift_cons]
    exact .cons (by omega) (ih h.tail his hls)

/-- The tile that holds a place in a tile is that tile, and the place is the one in it. -/
theorem tileOf_shift {ds ts is ls : List ℕ} (h : Tiles ds ts) (his : Below is (counts ds ts))
    (hls : Below ls (extents ds ts is)) :
    tileOf ts (shift (origins ts is) ls) = is ∧ within ts (shift (origins ts is) ls) = ls := by
  induction ds generalizing ts is ls with
  | nil =>
    obtain rfl := List.eq_nil_of_length_eq_zero h.length
    rcases his with _ | _
    rcases hls with _ | _
    exact ⟨rfl, rfl⟩
  | cons d ds ih =>
    obtain ⟨t, ts, rfl⟩ := List.exists_cons_of_length_eq_add_one h.length
    rcases his with _ | ⟨hi, his⟩
    rcases hls with _ | @⟨l, _, ls, _, hl, hls⟩
    obtain ⟨htile, hwithin⟩ := ih h.tail his hls
    have hlt : l < t := by omega
    constructor
    · simp only [origins_cons, shift_cons, tileOf_cons, htile]
      rw [Nat.add_comm, Nat.add_mul_div_right _ _ h.head, Nat.div_eq_of_lt hlt, Nat.zero_add]
    · simp only [origins_cons, shift_cons, within_cons, hwithin]
      rw [Nat.add_comm, Nat.add_mul_mod_self_right, Nat.mod_eq_of_lt hlt]

/-- Coordinates of the grid have a tile, a place in it, and are at that place. -/
theorem shift_tileOf {ds ts cs : List ℕ} (h : Tiles ds ts) (hcs : Below cs ds) :
    Below (tileOf ts cs) (counts ds ts) ∧ Below (within ts cs) (extents ds ts (tileOf ts cs)) ∧
      shift (origins ts (tileOf ts cs)) (within ts cs) = cs := by
  induction ds generalizing ts cs with
  | nil =>
    obtain rfl := List.eq_nil_of_length_eq_zero h.length
    rcases hcs with _ | _
    exact ⟨.nil, .nil, rfl⟩
  | cons d ds ih =>
    obtain ⟨t, ts, rfl⟩ := List.exists_cons_of_length_eq_add_one h.length
    rcases hcs with _ | @⟨c, _, cs, _, hc, hcs⟩
    obtain ⟨htile, hwithin, hshift⟩ := ih h.tail hcs
    refine ⟨.cons (div_lt_tilesAlong h.head hc) htile,
      .cons (mod_lt_extent h.head hc) hwithin, ?_⟩
    simp only [tileOf_cons, within_cons, origins_cons, shift_cons, hshift]
    rw [Nat.mul_comm, Nat.div_add_mod]

/-! ## Cells by number -/

/-- The lengths of tile `tile`. -/
def extentsOf (ds ts : List ℕ) (tile : ℕ) : List ℕ := extents ds ts (digits (counts ds ts) tile)

/-- The first coordinates of tile `tile`. -/
def originsOf (ds ts : List ℕ) (tile : ℕ) : List ℕ := origins ts (digits (counts ds ts) tile)

@[simp] theorem extentsOf_cons (d t : ℕ) (ds ts : List ℕ) (tile : ℕ) :
    extentsOf (d :: ds) (t :: ts) tile =
      min t (d - tile % tilesAlong d t * t) :: extentsOf ds ts (tile / tilesAlong d t) := rfl

@[simp] theorem originsOf_cons (d t : ℕ) (ds ts : List ℕ) (tile : ℕ) :
    originsOf (d :: ds) (t :: ts) tile =
      tile % tilesAlong d t * t :: originsOf ds ts (tile / tilesAlong d t) := rfl

/-- The number of the cell at place `k` of tile `tile`. -/
def cell (ds ts : List ℕ) (tile k : ℕ) : ℕ :=
  value ds (shift (originsOf ds ts tile) (digits (extentsOf ds ts tile) k))

variable {ds ts : List ℕ}

/-- A place in a tile names a cell of the grid. -/
theorem cell_lt (h : Tiles ds ts) {tile k : ℕ} (htile : tile < (counts ds ts).prod)
    (hk : k < (extentsOf ds ts tile).prod) : cell ds ts tile k < ds.prod :=
  value_lt (shift_below h (digits_below htile) (digits_below hk))

/-- Two places that name one cell are one place. -/
theorem cell_inj (h : Tiles ds ts) {tile k tile' k' : ℕ} (htile : tile < (counts ds ts).prod)
    (hk : k < (extentsOf ds ts tile).prod) (htile' : tile' < (counts ds ts).prod)
    (hk' : k' < (extentsOf ds ts tile').prod) (heq : cell ds ts tile k = cell ds ts tile' k') :
    tile = tile' ∧ k = k' := by
  have hcs := shift_below h (digits_below htile) (digits_below hk)
  have hcs' := shift_below h (digits_below htile') (digits_below hk')
  have hplace := value_inj hcs hcs' heq
  obtain ⟨hindex, hwithin⟩ := tileOf_shift h (digits_below htile) (digits_below hk)
  obtain ⟨hindex', hwithin'⟩ := tileOf_shift h (digits_below htile') (digits_below hk')
  rw [hplace, hindex'] at hindex
  obtain rfl := digits_inj htile' htile hindex
  rw [hplace, hwithin'] at hwithin
  exact ⟨rfl, (digits_inj hk' hk hwithin).symm⟩

/-- Each cell of the grid has a tile and a place in it. -/
theorem exists_cell (h : Tiles ds ts) {p : ℕ} (hp : p < ds.prod) :
    ∃ tile < (counts ds ts).prod, ∃ k < (extentsOf ds ts tile).prod, cell ds ts tile k = p := by
  obtain ⟨htile, hwithin, hshift⟩ := shift_tileOf h (digits_below hp)
  have hindex := digits_value htile
  refine ⟨_, value_lt htile, value (extents ds ts (tileOf ts (digits ds p)))
    (within ts (digits ds p)), ?_, ?_⟩
  · rw [extentsOf, hindex]
    exact value_lt hwithin
  · rw [cell, extentsOf, originsOf, hindex, digits_value hwithin, hshift, value_digits hp]

/-! ## The slowest axis -/

theorem counts_append (h : ts.length = ds.length) (d t : ℕ) :
    counts (ds ++ [d]) (ts ++ [t]) = counts ds ts ++ [tilesAlong d t] :=
  List.zipWith_append h.symm

theorem extents_append {is : List ℕ} (h : ts.length = ds.length) (his : is.length = ds.length)
    (d t i : ℕ) :
    extents (ds ++ [d]) (ts ++ [t]) (is ++ [i]) = extents ds ts is ++ [min t (d - i * t)] := by
  induction ds generalizing ts is with
  | nil =>
    obtain rfl := List.eq_nil_of_length_eq_zero h
    obtain rfl := List.eq_nil_of_length_eq_zero his
    rfl
  | cons e ds ih =>
    obtain ⟨s, ts, rfl⟩ := List.exists_cons_of_length_eq_add_one h
    obtain ⟨j, is, rfl⟩ := List.exists_cons_of_length_eq_add_one his
    simp only [List.cons_append, extents_cons, ih (Nat.succ.inj h) (Nat.succ.inj his)]

theorem length_counts (h : ts.length = ds.length) : (counts ds ts).length = ds.length := by
  rw [counts, List.length_zipWith, h, Nat.min_self]

theorem length_extents {is : List ℕ} (h : ts.length = ds.length) (his : is.length = ds.length) :
    (extents ds ts is).length = ds.length := by
  induction ds generalizing ts is with
  | nil => rfl
  | cons e ds ih =>
    obtain ⟨s, ts, rfl⟩ := List.exists_cons_of_length_eq_add_one h
    obtain ⟨j, is, rfl⟩ := List.exists_cons_of_length_eq_add_one his
    exact congrArg (· + 1) (ih (Nat.succ.inj h) (Nat.succ.inj his))

theorem length_origins {is : List ℕ} (h : ts.length = ds.length) (his : is.length = ds.length) :
    (origins ts is).length = ds.length := by
  rw [origins, List.length_zipWith, h, his, Nat.min_self]

theorem Tiles.dropLast {d t : ℕ} (h : Tiles (ds ++ [d]) (ts ++ [t])) : Tiles ds ts where
  length := by simpa using h.length
  pos := fun e he => h.pos e (List.mem_append_left [t] he)

/-- The index of a tile along the slowest axis bounds its cells there. -/
theorem cell_slowest {d t tile k : ℕ} (h : Tiles (ds ++ [d]) (ts ++ [t]))
    (htile : tile < (counts (ds ++ [d]) (ts ++ [t])).prod)
    (hk : k < (extentsOf (ds ++ [d]) (ts ++ [t]) tile).prod) :
    ∃ l, tile / (counts ds ts).prod * t + l < d ∧ l < t ∧
      cell (ds ++ [d]) (ts ++ [t]) tile k / ds.prod = tile / (counts ds ts).prod * t + l := by
  have hfront := h.dropLast
  rw [counts_append hfront.length, List.prod_append, List.prod_singleton] at htile
  have hslow : tile / (counts ds ts).prod < tilesAlong d t := Nat.div_lt_of_lt_mul htile
  have hcounts : 0 < (counts ds ts).prod := by
    rcases Nat.eq_zero_or_pos (counts ds ts).prod with hzero | hpos
    · simp [hzero] at htile
    · exact hpos
  have hextents : extentsOf (ds ++ [d]) (ts ++ [t]) tile =
      extents ds ts (digits (counts ds ts) tile) ++
        [min t (d - tile / (counts ds ts).prod * t)] := by
    rw [extentsOf, counts_append hfront.length, digits_append,
      extents_append hfront.length (by rw [length_digits, length_counts hfront.length]),
      Nat.mod_eq_of_lt hslow]
  have horigins : originsOf (ds ++ [d]) (ts ++ [t]) tile =
      origins ts (digits (counts ds ts) tile) ++ [tile / (counts ds ts).prod * t] := by
    rw [originsOf, counts_append hfront.length, digits_append, origins,
      List.zipWith_append (by rw [length_digits, length_counts hfront.length, hfront.length]),
      Nat.mod_eq_of_lt hslow]
    rfl
  have his := digits_below_of_pos (List.prod_pos_iff_forall_pos_nat.mp hcounts) tile
  generalize digits (counts ds ts) tile = is at *
  have hlength : is.length = ds.length := his.length_eq.trans (length_counts hfront.length)
  rw [hextents, List.prod_append, List.prod_singleton] at hk
  have hlast : k / (extents ds ts is).prod < min t (d - tile / (counts ds ts).prod * t) :=
    Nat.div_lt_of_lt_mul hk
  have hplaces : 0 < (extents ds ts is).prod := by
    rcases Nat.eq_zero_or_pos (extents ds ts is).prod with hzero | hpos
    · simp [hzero] at hk
    · exact hpos
  have hls := digits_below_of_pos (List.prod_pos_iff_forall_pos_nat.mp hplaces) k
  have hfast := value_lt (shift_below hfront his hls)
  obtain ⟨htile', hroom⟩ := lt_min_iff.mp hlast
  refine ⟨k / (extents ds ts is).prod, Nat.add_lt_of_lt_sub' hroom, htile', ?_⟩
  have hshift : shift (origins ts is ++ [tile / (counts ds ts).prod * t])
      (digits (extents ds ts is) k ++ [k / (extents ds ts is).prod]) =
      shift (origins ts is) (digits (extents ds ts is) k) ++
        [tile / (counts ds ts).prod * t + k / (extents ds ts is).prod] :=
    List.zipWith_append (by
      rw [length_origins hfront.length hlength, length_digits, length_extents hfront.length hlength])
  rw [cell, horigins, hextents, digits_append, Nat.mod_eq_of_lt hlast, hshift,
    value_append (shift_below hfront his hls).length_eq]
  have hpos : 0 < ds.prod := by omega
  rw [Nat.add_mul_div_left _ _ hpos, Nat.div_eq_of_lt hfast, Nat.zero_add]

/-- The numbers below a product, in runs of one factor. -/
theorem range_mul (n m : ℕ) :
    List.range (n * m) = (List.range n).flatMap fun r => List.range' (r * m) m := by
  induction n with
  | zero => simp
  | succ n ih =>
    rw [Nat.succ_mul, List.range_add, ih, List.range_succ, List.flatMap_append,
      List.flatMap_singleton, List.range'_eq_map_range]

/-- The cells of tile `tile`. -/
def cells (ds ts : List ℕ) (tile : ℕ) : List ℕ :=
  (List.range (extentsOf ds ts tile).prod).map (cell ds ts tile)

theorem mem_cells {tile p : ℕ} :
    p ∈ cells ds ts tile ↔ ∃ k < (extentsOf ds ts tile).prod, cell ds ts tile k = p := by
  simp [cells]

/-- A tile's cells are those whose coordinates it holds. -/
theorem mem_cells_iff (h : Tiles ds ts) {tile p : ℕ} (htile : tile < (counts ds ts).prod) :
    p ∈ cells ds ts tile ↔ p < ds.prod ∧ tileOf ts (digits ds p) = digits (counts ds ts) tile := by
  rw [mem_cells]
  constructor
  · rintro ⟨k, hk, rfl⟩
    refine ⟨cell_lt h htile hk, ?_⟩
    rw [cell, originsOf, extentsOf,
      digits_value (shift_below h (digits_below htile) (digits_below hk))]
    exact (tileOf_shift h (digits_below htile) (digits_below hk)).1
  · rintro ⟨hp, hindex⟩
    obtain ⟨-, hwithin, hshift⟩ := shift_tileOf h (digits_below hp)
    rw [hindex] at hwithin hshift
    refine ⟨value (extents ds ts (digits (counts ds ts) tile)) (within ts (digits ds p)),
      value_lt hwithin, ?_⟩
    rw [cell, extentsOf, originsOf, digits_value hwithin, hshift, value_digits hp]

/-- The tiles hold each cell of the grid exactly once. -/
theorem cells_perm (h : Tiles ds ts) :
    ((List.range (counts ds ts).prod).flatMap (cells ds ts)).Perm (List.range ds.prod) := by
  rw [List.perm_ext_iff_of_nodup]
  · intro p
    simp only [List.mem_flatMap, List.mem_range, mem_cells]
    constructor
    · rintro ⟨tile, htile, k, hk, rfl⟩
      exact cell_lt h htile hk
    · exact exists_cell h
  · rw [List.nodup_flatMap]
    constructor
    · intro tile htile
      refine List.Nodup.map_on (fun k hk k' hk' heq => ?_) List.nodup_range
      rw [List.mem_range] at htile hk hk'
      exact (cell_inj h htile hk htile hk' heq).2
    · refine List.Nodup.pairwise_of_forall_ne List.nodup_range ?_
      intro tile htile tile' htile' hne p hp hp'
      rw [List.mem_range] at htile htile'
      obtain ⟨k, hk, rfl⟩ := mem_cells.mp hp
      obtain ⟨k', hk', heq⟩ := mem_cells.mp hp'
      exact hne (cell_inj h htile hk htile' hk' heq.symm).1
  · exact List.nodup_range

end FitsWell.Tiling
