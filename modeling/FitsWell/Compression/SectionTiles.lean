import FitsWell.Compression.TilePartition
import FitsWell.Compression.TileSelect

/-!
# The tiles a section meets

The odometer of the selection lists, each once, the tiles that hold a cell of the
section.
-/

namespace FitsWell

open MixedRadix Tiling

/-- A region of an image of `dims`. -/
abbrev Region (ranges : List AxisRange) (dims : List ℕ) : Prop :=
  List.Forall₂ (fun range d => range.start ≤ range.stop ∧ range.stop ≤ d) ranges dims

/-- Coordinates inside a region. -/
abbrev InSection (ranges : List AxisRange) (cs : List ℕ) : Prop :=
  List.Forall₂ (fun range c => range.start ≤ c ∧ c < range.stop) ranges cs

/-- The first coordinate of a region along each axis. -/
def starts (ranges : List AxisRange) : List ℕ := ranges.map (·.start)

/-- The shape of a region. -/
def regionShape (ranges : List AxisRange) : List ℕ :=
  ranges.map fun range => range.stop - range.start

/-- The first tile a region meets along each axis. -/
def firstTiles (ranges : List AxisRange) (tiles : List ℕ) : List ℕ :=
  List.zipWith (fun range tile => range.start / tile) ranges tiles

/-- The tiles a region meets along each axis. -/
def tileSpans (ranges : List AxisRange) (tiles : List ℕ) : List ℕ :=
  List.zipWith (fun range tile => (range.stop - 1) / tile + 1 - range.start / tile) ranges tiles

@[simp] theorem starts_cons (range : AxisRange) (ranges : List AxisRange) :
    starts (range :: ranges) = range.start :: starts ranges := rfl

@[simp] theorem regionShape_cons (range : AxisRange) (ranges : List AxisRange) :
    regionShape (range :: ranges) = (range.stop - range.start) :: regionShape ranges := rfl

@[simp] theorem firstTiles_cons (range : AxisRange) (ranges : List AxisRange) (tile : ℕ)
    (tiles : List ℕ) : firstTiles (range :: ranges) (tile :: tiles) =
      range.start / tile :: firstTiles ranges tiles := rfl

@[simp] theorem tileSpans_cons (range : AxisRange) (ranges : List AxisRange) (tile : ℕ)
    (tiles : List ℕ) : tileSpans (range :: ranges) (tile :: tiles) =
      ((range.stop - 1) / tile + 1 - range.start / tile) :: tileSpans ranges tiles := rfl

/-! ## The region -/

/-- A region whose ranges are not empty has a length along each axis. -/
theorem regionShape_pos {ranges : List AxisRange}
    (h : ∀ range ∈ ranges, range.start < range.stop) : ∀ l ∈ regionShape ranges, 0 < l := by
  intro l hl
  obtain ⟨range, hrange, rfl⟩ := List.mem_map.mp hl
  exact Nat.sub_pos_of_lt (h range hrange)

theorem checkAxes_ok {axis : ℕ} {ranges : List AxisRange} {dims : List ℕ}
    (hlen : ranges.length = dims.length) (h : checkAxes axis ranges dims = .ok ()) :
    Region ranges dims := by
  induction ranges generalizing axis dims with
  | nil =>
    obtain rfl := List.eq_nil_of_length_eq_zero hlen.symm
    exact .nil
  | cons range ranges ih =>
    obtain ⟨d, ds, rfl⟩ := List.exists_cons_of_length_eq_add_one hlen.symm
    rw [checkAxes] at h
    split at h
    · cases h
    · rename_i hrange
      exact .cons (by omega) (ih (Nat.succ.inj hlen) h)

/-- An accepted region has a range an axis, each within it. -/
theorem checkImageRegion_ok {ranges : List AxisRange} {dims : List ℕ}
    (h : checkImageRegion ranges dims = .ok ()) : Region ranges dims := by
  unfold checkImageRegion at h
  split at h
  · cases h
  · rename_i hlen
    exact checkAxes_ok (not_not.mp hlen) h

theorem validateImageRegion_eq {ranges : List AxisRange} {dims : List ℕ}
    (h : checkImageRegion ranges dims = .ok ()) :
    validateImageRegion ranges dims = .ok (regionShape ranges) := by
  have hshape : ranges.mapM (fun range => subUsize range.stop range.start) =
      .ok (regionShape ranges) := by
    have hregion := checkImageRegion_ok h
    clear h
    induction hregion with
    | nil => rfl
    | cons hrange _ ih =>
      rw [List.mapM_cons, subUsize_of_le hrange.1, ih]
      rfl
  rw [validateImageRegion, h, Loops.bind_ok rfl, hshape]

/-! ## The count of tiles -/

/-- A region none of whose ranges is empty, of an image whose axes are words. -/
structure Filled (ranges : List AxisRange) (dims tiles : List ℕ) : Prop where
  region : Region ranges dims
  filled : ∀ range ∈ ranges, range.start < range.stop
  tiles : Tiles dims tiles
  words : ∀ d ∈ dims, d ≤ usizeMax

variable {range : AxisRange} {ranges : List AxisRange} {dims tiles : List ℕ}

/-- The cases of a filled region: no axes, or a first axis and the others. -/
theorem Filled.cases (h : Filled ranges dims tiles) :
    (ranges = [] ∧ dims = [] ∧ tiles = []) ∨
      ∃ range ranges' d ds t ts, ranges = range :: ranges' ∧ dims = d :: ds ∧ tiles = t :: ts ∧
        range.start < range.stop ∧ range.stop ≤ d ∧ 0 < t ∧ d ≤ usizeMax ∧
        Filled ranges' ds ts := by
  rcases h.tiles.cases with ⟨rfl, rfl⟩ | ⟨d, ds, t, ts, rfl, rfl⟩
  · rcases h.region with _ | _
    exact Or.inl ⟨rfl, rfl, rfl⟩
  · rcases h.region with _ | @⟨range, _, ranges', _, hrange, hregion⟩
    refine Or.inr ⟨range, ranges', d, ds, t, ts, rfl, rfl, rfl,
      h.filled range List.mem_cons_self, hrange.2, h.tiles.head, h.words d List.mem_cons_self, ?_⟩
    exact ⟨hregion, fun r hr => h.filled r (List.mem_cons_of_mem _ hr), h.tiles.tail,
      fun e he => h.words e (List.mem_cons_of_mem _ he)⟩

theorem firstPastTile_eq {tile d : ℕ} (hrange : range.start < range.stop) (hstop : range.stop ≤ d)
    (htile : 0 < tile) (hd : d ≤ usizeMax) :
    firstPastTile range tile = .ok ((range.stop - 1) / tile + 1) := by
  have hle := Nat.div_le_self (range.stop - 1) tile
  rw [firstPastTile, subUsize_of_le (by omega), Loops.bind_ok rfl, divUsize_of_pos htile,
    Loops.bind_ok rfl, addUsize_of_le (by omega)]

/-- A region meets a tile along each axis, and no more tiles than there are. -/
theorem tileSpans_le (h : Filled ranges dims tiles) :
    (∀ n ∈ tileSpans ranges tiles, 0 < n) ∧
      (tileSpans ranges tiles).prod ≤ (counts dims tiles).prod := by
  induction ranges generalizing dims tiles with
  | nil =>
    rcases h.cases with ⟨-, rfl, rfl⟩ | ⟨_, _, _, _, _, _, hcons, -⟩
    · exact ⟨by simp [tileSpans], le_rfl⟩
    · cases hcons
  | cons range ranges ih =>
    rcases h.cases with ⟨hnil, -⟩ | ⟨_, _, d, ds, t, ts, hcons, rfl, rfl, hr, hd, ht, -, hrest⟩
    · cases hnil
    obtain ⟨rfl, rfl⟩ := List.cons.inj hcons
    obtain ⟨hpos, hle⟩ := ih hrest
    have hfirst : range.start / t ≤ (range.stop - 1) / t := Nat.div_le_div_right (by omega)
    have hlast : (range.stop - 1) / t < tilesAlong d t := div_lt_tilesAlong ht (by omega)
    constructor
    · rintro n hn
      rcases List.mem_cons.mp hn with rfl | hn
      · dsimp only
        omega
      · exact hpos n hn
    · rw [tileSpans_cons, List.prod_cons, counts_cons, List.prod_cons]
      exact Nat.mul_le_mul (le_trans (Nat.sub_le _ _) hlast) hle

theorem countTiles_eq (count : ℕ) (h : Filled ranges dims tiles)
    (hmax : count * (tileSpans ranges tiles).prod ≤ usizeMax) :
    countTiles count (ranges.zip tiles) = .ok (count * (tileSpans ranges tiles).prod) := by
  induction ranges generalizing count dims tiles with
  | nil =>
    rw [List.zip_nil_left, countTiles]
    exact congrArg Except.ok (Nat.mul_one count).symm
  | cons range ranges ih =>
    have hpos := (tileSpans_le h).1
    rcases h.cases with ⟨hnil, -⟩ | ⟨_, _, d, ds, t, ts, hcons, rfl, rfl, hr, hd, ht, hw, hrest⟩
    · cases hnil
    obtain ⟨rfl, rfl⟩ := List.cons.inj hcons
    have hfirst : range.start / t ≤ (range.stop - 1) / t := Nat.div_le_div_right (by omega)
    have hprod : 0 < (tileSpans ranges ts).prod :=
      List.prod_pos_iff_forall_pos_nat.mpr (tileSpans_le hrest).1
    rw [tileSpans_cons, List.prod_cons, ← Nat.mul_assoc] at hmax ⊢
    have hstep := le_trans (Nat.le_mul_of_pos_right _ hprod) hmax
    have hmet : tilesMet range t = .ok ((range.stop - 1) / t + 1 - range.start / t) := by
      rw [tilesMet, firstPastTile_eq hr hd ht hw, Loops.bind_ok rfl, divUsize_of_pos ht,
        Loops.bind_ok rfl, subUsize_of_le (by omega)]
    rw [List.zip_cons_cons, countTiles, hmet, Loops.bind_ok rfl, checkedMul, if_pos hstep]
    exact ih _ hrest hmax

/-- The step of the odometer over the tiles met. -/
theorem stepTile_eq {ls : List ℕ} (h : Filled ranges dims tiles)
    (hls : Below ls (tileSpans ranges tiles)) :
    stepTile (shift (firstTiles ranges tiles) ls) ranges tiles =
      .ok (shift (firstTiles ranges tiles) (next (tileSpans ranges tiles) ls)) := by
  induction ranges generalizing dims tiles ls with
  | nil =>
    rcases hls with _ | _
    rfl
  | cons range ranges ih =>
    rcases h.cases with ⟨hnil, -⟩ | ⟨_, _, d, ds, t, ts, hcons, rfl, rfl, hr, hd, ht, hw, hrest⟩
    · cases hnil
    obtain ⟨rfl, rfl⟩ := List.cons.inj hcons
    rcases hls with _ | @⟨l, _, ls, _, hl, hls⟩
    dsimp only at hl
    have hfirst : range.start / t ≤ (range.stop - 1) / t := Nat.div_le_div_right (by omega)
    have hlast := Nat.div_le_self (range.stop - 1) t
    rw [firstTiles_cons, tileSpans_cons, shift_cons, stepTile, addUsize_of_le (by omega), Loops.bind_ok rfl,
      firstPastTile_eq hr hd ht hw, Loops.bind_ok rfl, next]
    by_cases hlow : l + 1 < (range.stop - 1) / t + 1 - range.start / t
    · rw [if_pos (by omega), if_pos hlow, shift_cons, Nat.add_assoc]
    · rw [if_neg (by omega), if_neg hlow, divUsize_of_pos ht, Loops.bind_ok rfl, ih hrest hls,
        Loops.bind_ok rfl, shift_cons, Nat.add_zero]

/-- The grid row of a tile is the number of its indices. -/
theorem gridRow_eq {index stride : ℕ} {cs : List ℕ} (h : Tiles dims tiles)
    (hcs : Below cs (counts dims tiles))
    (hvalue : index + stride * value (counts dims tiles) cs ≤ usizeMax)
    (hmax : stride * (counts dims tiles).prod ≤ usizeMax) :
    gridRow index stride cs dims tiles =
      .ok (index + stride * value (counts dims tiles) cs) := by
  induction dims generalizing index stride tiles cs with
  | nil =>
    rcases hcs with _ | _
    rfl
  | cons d ds ih =>
    obtain ⟨t, ts, rfl⟩ := List.exists_cons_of_length_eq_add_one h.length
    rcases hcs with _ | @⟨c, _, cs, _, hc, hcs⟩
    have hprod : 0 < (counts ds ts).prod := List.prod_pos_iff_forall_pos_nat.mpr (Below.pos hcs)
    have hsplit : index + stride * value (counts (d :: ds) (t :: ts)) (c :: cs) =
        index + c * stride + stride * tilesAlong d t * value (counts ds ts) cs := by
      rw [counts_cons, value_cons]
      ring
    rw [counts_cons, List.prod_cons, ← Nat.mul_assoc] at hmax
    rw [hsplit] at hvalue ⊢
    have hstride : stride * tilesAlong d t ≤ usizeMax :=
      le_trans (Nat.le_mul_of_pos_right _ hprod) hmax
    rw [gridRow, checkedMul, if_pos (by omega)]
    dsimp only
    rw [if_pos (by omega), divCeil_of_pos h.head, Loops.bind_ok rfl, checkedMul]
    dsimp only [tilesAlong] at hstride
    rw [if_pos hstride]
    exact ih h.tail hcs hvalue hmax

/-! ## The tiles listed -/

/-- A selected tile along each axis is a tile of the grid. -/
theorem shift_firstTiles_below {ls : List ℕ} (h : Filled ranges dims tiles)
    (hls : Below ls (tileSpans ranges tiles)) :
    Below (shift (firstTiles ranges tiles) ls) (counts dims tiles) := by
  induction ranges generalizing dims tiles ls with
  | nil =>
    rcases h.cases with ⟨-, rfl, rfl⟩ | ⟨_, _, _, _, _, _, hcons, -⟩
    · exact .nil
    · cases hcons
  | cons range ranges ih =>
    rcases h.cases with ⟨hnil, -⟩ | ⟨_, _, d, ds, t, ts, hcons, rfl, rfl, hr, hd, ht, hw, hrest⟩
    · cases hnil
    obtain ⟨rfl, rfl⟩ := List.cons.inj hcons
    rcases hls with _ | @⟨l, _, ls, _, hl, hls⟩
    have hlast : (range.stop - 1) / t < tilesAlong d t := div_lt_tilesAlong ht (by omega)
    refine .cons ?_ (ih hrest hls)
    dsimp only at hl ⊢
    exact lt_of_lt_of_le (Nat.add_lt_of_lt_sub' hl) hlast

/-- The grid row of the `k`th tile listed. -/
def listedTile (ranges : List AxisRange) (dims tiles : List ℕ) (k : ℕ) : ℕ :=
  value (counts dims tiles) (shift (firstTiles ranges tiles) (digits (tileSpans ranges tiles) k))

/-- The tiles a filled region lists. -/
def listedTiles (ranges : List AxisRange) (dims tiles : List ℕ) : List ℕ :=
  (List.range (tileSpans ranges tiles).prod).map (listedTile ranges dims tiles)

theorem firstTiles_eq (h : Tiles dims tiles) :
    (ranges.zip tiles).mapM (fun axis => divUsize axis.1.start axis.2) =
      .ok (firstTiles ranges tiles) := by
  have hpos := h.pos
  clear h
  induction ranges generalizing tiles with
  | nil => rfl
  | cons range ranges ih =>
    rcases tiles with _ | ⟨t, ts⟩
    · rfl
    · rw [List.zip_cons_cons, List.mapM_cons, divUsize_of_pos (hpos t List.mem_cons_self),
        ih (fun e he => hpos e (List.mem_cons_of_mem t he))]
      rfl

/-- The selection of a filled region. -/
theorem select_eq (h : Filled ranges dims tiles) (hdims : dims ≠ [])
    (hregion : checkImageRegion ranges dims = .ok ())
    (hmax : (counts dims tiles).prod ≤ usizeMax) :
    select dims tiles ranges =
      .ok ⟨ranges, regionShape ranges, listedTiles ranges dims tiles⟩ := by
  obtain ⟨hpos, hle⟩ := tileSpans_le h
  have hspans := List.prod_pos_iff_forall_pos_nat.mpr hpos
  have hcount : tileCount tiles ranges = .ok (tileSpans ranges tiles).prod := by
    have hnone : ¬((ranges.any fun range => decide (range.stop ≤ range.start)) = true ∨
        ranges = []) := by
      rintro (hempty | rfl)
      · obtain ⟨range, hrange, hstop⟩ := List.any_eq_true.mp hempty
        have := h.filled range hrange
        have := of_decide_eq_true hstop
        omega
      · exact hdims (by simpa using h.region)
    have hcounted := countTiles_eq 1 h (by omega)
    rw [Nat.one_mul] at hcounted
    rw [tileCount, if_neg hnone, hcounted]
  have hloop : ∃ state, (List.range (tileSpans ranges tiles).prod).foldlM
      (fun state _ => selectTile dims tiles ranges state) ([], firstTiles ranges tiles) =
        .ok state ∧
      state = (listedTiles ranges dims tiles, shift (firstTiles ranges tiles)
        (digits (tileSpans ranges tiles) (tileSpans ranges tiles).prod)) := by
    refine Loops.range_total (P := fun k state => state =
      ((List.range k).map (listedTile ranges dims tiles),
        shift (firstTiles ranges tiles) (digits (tileSpans ranges tiles) k))) ?_ ?_
    · rw [shift_zeros (by simp only [tileSpans, firstTiles, List.length_zipWith])]
      rfl
    · rintro k hk state rfl
      have hls := digits_below hk
      have hbelow := shift_firstTiles_below h hls
      have hvalue := value_lt hbelow
      refine ⟨_, ?_, rfl⟩
      rw [selectTile, gridRow_eq h.tiles hbelow (by omega) (by omega), Loops.bind_ok rfl,
        stepTile_eq h hls, Loops.bind_ok rfl, next_digits hpos, List.range_succ, List.map_append,
        Nat.zero_add, Nat.one_mul]
      rfl
  obtain ⟨state, hrun, rfl⟩ := hloop
  rw [select, validateImageRegion_eq hregion, Loops.bind_ok rfl, hcount, Loops.bind_ok rfl,
    if_neg hspans.ne', firstTiles_eq h.tiles, Loops.bind_ok rfl, hrun]
  rfl

/-- A listed tile holds coordinates of the region. -/
theorem exists_inSection {ls : List ℕ} (h : Filled ranges dims tiles)
    (hls : Below ls (tileSpans ranges tiles)) :
    ∃ cs, Below cs dims ∧ InSection ranges cs ∧
      tileOf tiles cs = shift (firstTiles ranges tiles) ls := by
  induction ranges generalizing dims tiles ls with
  | nil =>
    rcases h.cases with ⟨-, rfl, rfl⟩ | ⟨_, _, _, _, _, _, hcons, -⟩
    · exact ⟨[], .nil, .nil, rfl⟩
    · cases hcons
  | cons range ranges ih =>
    rcases h.cases with ⟨hnil, -⟩ | ⟨_, _, d, ds, t, ts, hcons, rfl, rfl, hr, hd, ht, hw, hrest⟩
    · cases hnil
    obtain ⟨rfl, rfl⟩ := List.cons.inj hcons
    rcases hls with _ | @⟨l, _, ls, _, hl, hls⟩
    obtain ⟨cs, hcs, hin, htile⟩ := ih hrest hls
    dsimp only at hl
    -- the region's first coordinate in the tile: its start in the first one, the tile's after
    have hindex : range.start / t + l ≤ (range.stop - 1) / t := by
      have := Nat.add_lt_of_lt_sub' hl
      omega
    have horigin : (range.start / t + l) * t ≤ range.stop - 1 :=
      le_trans (Nat.mul_le_mul_right t hindex) (Nat.div_mul_le_self _ _)
    have hdiv : max range.start ((range.start / t + l) * t) / t = range.start / t + l := by
      rcases Nat.eq_zero_or_pos l with rfl | hl
      · rw [Nat.add_zero, Nat.max_eq_left (Nat.div_mul_le_self _ _)]
      · have hnext : range.start < (range.start / t + l) * t := by
          calc range.start < (range.start / t + 1) * t :=
                (Nat.div_lt_iff_lt_mul ht).mp (Nat.lt_succ_self _)
            _ ≤ (range.start / t + l) * t := Nat.mul_le_mul_right t (by omega)
        rw [Nat.max_eq_right hnext.le, Nat.mul_div_cancel _ ht]
    refine ⟨max range.start ((range.start / t + l) * t) :: cs, .cons (by omega) hcs,
      .cons ⟨Nat.le_max_left _ _, by omega⟩ hin, ?_⟩
    rw [tileOf_cons, hdiv, htile]
    rfl

/-- The tile that holds coordinates of the region is listed. -/
theorem exists_span {cs : List ℕ} (h : Filled ranges dims tiles) (hin : InSection ranges cs) :
    ∃ ls, Below ls (tileSpans ranges tiles) ∧
      shift (firstTiles ranges tiles) ls = tileOf tiles cs := by
  induction ranges generalizing dims tiles cs with
  | nil =>
    rcases h.cases with ⟨-, rfl, rfl⟩ | ⟨_, _, _, _, _, _, hcons, -⟩
    · exact ⟨[], .nil, rfl⟩
    · cases hcons
  | cons range ranges ih =>
    rcases h.cases with ⟨hnil, -⟩ | ⟨_, _, d, ds, t, ts, hcons, rfl, rfl, hr, hd, ht, hw, hrest⟩
    · cases hnil
    obtain ⟨rfl, rfl⟩ := List.cons.inj hcons
    rcases hin with _ | @⟨_, c, _, cs, hc, hin⟩
    obtain ⟨ls, hls, htile⟩ := ih hrest hin
    have hlow : range.start / t ≤ c / t := Nat.div_le_div_right hc.1
    have hhigh : c / t ≤ (range.stop - 1) / t := Nat.div_le_div_right (by omega)
    refine ⟨(c / t - range.start / t) :: ls, .cons ?_ hls, ?_⟩
    · dsimp only
      omega
    · rw [tileOf_cons, ← htile]
      exact congrArg (· :: _) (Nat.add_sub_cancel' hlow)

/-- The tiles listed are those that hold a cell of the region. -/
theorem mem_listedTiles (h : Filled ranges dims tiles) {tile : ℕ} :
    tile ∈ listedTiles ranges dims tiles ↔ tile < (counts dims tiles).prod ∧
      ∃ p ∈ cells dims tiles tile, InSection ranges (digits dims p) := by
  rw [listedTiles, List.mem_map]
  constructor
  · rintro ⟨k, hk, rfl⟩
    have hls := digits_below (List.mem_range.mp hk)
    have hbelow := shift_firstTiles_below h hls
    obtain ⟨cs, hcs, hin, htile⟩ := exists_inSection h hls
    refine ⟨value_lt hbelow, value dims cs, ?_, by rwa [digits_value hcs]⟩
    rw [listedTile, mem_cells_iff h.tiles (value_lt hbelow), digits_value hcs,
      digits_value hbelow]
    exact ⟨value_lt hcs, htile⟩
  · rintro ⟨htile, p, hp, hin⟩
    obtain ⟨-, hindex⟩ := (mem_cells_iff h.tiles htile).mp hp
    obtain ⟨ls, hls, hshift⟩ := exists_span h hin
    refine ⟨value (tileSpans ranges tiles) ls, List.mem_range.mpr (value_lt hls), ?_⟩
    rw [listedTile, digits_value hls, hshift, hindex, value_digits htile]

/-- Shifting by one origin keeps coordinates apart. -/
theorem shift_inj {os ls ls' : List ℕ} (h : ls.length = os.length) (h' : ls'.length = os.length)
    (heq : shift os ls = shift os ls') : ls = ls' := by
  induction os generalizing ls ls' with
  | nil => rw [List.eq_nil_of_length_eq_zero h, List.eq_nil_of_length_eq_zero h']
  | cons o os ih =>
    obtain ⟨l, ls, rfl⟩ := List.exists_cons_of_length_eq_add_one h
    obtain ⟨l', ls', rfl⟩ := List.exists_cons_of_length_eq_add_one h'
    rw [shift_cons, shift_cons] at heq
    obtain ⟨hl, hls⟩ := List.cons.inj heq
    rw [ih (Nat.succ.inj h) (Nat.succ.inj h') hls, Nat.add_left_cancel hl]

/-- No tile is listed twice. -/
theorem listedTiles_nodup (h : Filled ranges dims tiles) :
    (listedTiles ranges dims tiles).Nodup := by
  refine List.Nodup.map_on (fun k hk k' hk' heq => ?_) List.nodup_range
  have hls := digits_below (List.mem_range.mp hk)
  have hls' := digits_below (List.mem_range.mp hk')
  have hshift := value_inj (shift_firstTiles_below h hls) (shift_firstTiles_below h hls') heq
  have hlength : (firstTiles ranges tiles).length = (tileSpans ranges tiles).length := by
    simp only [firstTiles, tileSpans, List.length_zipWith]
  refine digits_inj (List.mem_range.mp hk) (List.mem_range.mp hk') ?_
  exact shift_inj (by rw [length_digits, hlength]) (by rw [length_digits, hlength]) hshift

end FitsWell
