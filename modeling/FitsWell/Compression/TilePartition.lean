import FitsWell.Compression.TileOdometer

/-!
# Tiles partition the image

The runs of all tiles, laid end to end, are the image's pixels in another order, where
the odometer's last step stays a word.
-/

namespace FitsWell

open MixedRadix Tiling

theorem pixels_tileAt {dims tiles : List ℕ} (h : Tiles dims tiles) {t : ℕ}
    (ht : t < (counts dims tiles).prod) : (tileAt dims tiles t).pixels = cells dims tiles t := by
  obtain ⟨-, hextents⟩ := inside_tile h ht
  rcases dims with _ | ⟨d, ds⟩
  · obtain rfl := List.eq_nil_of_length_eq_zero h.length
    rfl
  obtain ⟨tile, ts, rfl⟩ := List.exists_cons_of_length_eq_add_one h.length
  rw [cells, extentsOf_cons, List.prod_cons, Nat.mul_comm, range_mul, List.map_flatMap]
  simp only [TileScratch.pixels, tileAt, extentsOf_cons, List.tail_cons, List.headD_cons,
    List.flatMap_map]
  refine List.flatMap_congr (fun r _ => ?_)
  rw [List.range'_eq_map_range, List.range'_eq_map_range, List.map_map]
  refine List.map_congr_left (fun x hx => ?_)
  have hrow := cell_row ds ts r (hextents _ List.mem_cons_self)
  rw [Function.comp_apply, cell_row ds ts r (List.mem_range.mp hx), Nat.add_right_comm]
  rw [Nat.add_zero, Nat.add_zero] at hrow
  rw [hrow]

theorem maxTile_pos {dims tiles : List ℕ} (h : Tiles dims tiles) (hpos : ∀ d ∈ dims, 0 < d) :
    (∀ e ∈ List.zipWith min dims tiles, 0 < e) ∧
      (List.zipWith min dims tiles).prod ≤ dims.prod := by
  induction dims generalizing tiles with
  | nil => exact ⟨by simp, le_rfl⟩
  | cons d ds ih =>
    obtain ⟨tile, ts, rfl⟩ := List.exists_cons_of_length_eq_add_one h.length
    obtain ⟨hrest, hle⟩ := ih h.tail (fun e he => hpos e (List.mem_cons_of_mem d he))
    have hd := hpos d List.mem_cons_self
    have htile := h.head
    constructor
    · rintro e he
      rcases List.mem_cons.mp he with rfl | he
      · omega
      · exact hrest e he
    · rw [List.zipWith_cons_cons, List.prod_cons, List.prod_cons]
      exact Nat.mul_le_mul (Nat.min_le_left d tile) hle

/-- No tile has more pixels than the largest one. -/
theorem extentsOf_prod_le {dims tiles : List ℕ} (h : Tiles dims tiles) (t : ℕ) :
    (extentsOf dims tiles t).prod ≤ (List.zipWith min dims tiles).prod := by
  induction dims generalizing tiles t with
  | nil =>
    obtain rfl := List.eq_nil_of_length_eq_zero h.length
    exact le_rfl
  | cons d ds ih =>
    obtain ⟨tile, ts, rfl⟩ := List.exists_cons_of_length_eq_add_one h.length
    rw [extentsOf_cons, List.zipWith_cons_cons, List.prod_cons, List.prod_cons]
    exact Nat.mul_le_mul (by omega) (ih h.tail _)

/-- An image has tiles exactly when it has pixels, and no more of them. -/
theorem counts_prod {dims tiles : List ℕ} (h : Tiles dims tiles) :
    (0 ∈ counts dims tiles ↔ 0 ∈ dims) ∧ (counts dims tiles).prod ≤ dims.prod := by
  induction dims generalizing tiles with
  | nil =>
    obtain rfl := List.eq_nil_of_length_eq_zero h.length
    exact ⟨Iff.rfl, le_rfl⟩
  | cons d ds ih =>
    obtain ⟨tile, ts, rfl⟩ := List.exists_cons_of_length_eq_add_one h.length
    obtain ⟨hzero, hle⟩ := ih h.tail
    have hhead := lt_tilesAlong_iff (d := d) (i := 0) h.head
    rw [Nat.zero_mul] at hhead
    have hempty : 0 = tilesAlong d tile ↔ 0 = d := by omega
    rw [counts_cons, List.mem_cons, List.mem_cons, hzero, hempty, List.prod_cons, List.prod_cons]
    exact ⟨Iff.rfl, Nat.mul_le_mul (tilesAlong_le h.head) hle⟩

/-- The tiles of the grid are counted: none for an image without axes or pixels. -/
theorem ntiles_eq {dims tiles : List ℕ} (h : Tiles dims tiles)
    (hfits : 0 ∉ dims → dims.prod ≤ usizeMax) :
    (grid dims tiles).ntiles = .ok (if dims = [] then 0 else (counts dims tiles).prod) := by
  obtain ⟨hzero, hle⟩ := counts_prod h
  have hnil : counts dims tiles = [] ↔ dims = [] := by
    rw [← List.length_eq_zero_iff, counts, List.length_zipWith, h.length, Nat.min_self,
      List.length_eq_zero_iff]
  have haxis : (grid dims tiles).ntilesAxis = counts dims tiles := rfl
  rw [TileGeometry.ntiles, haxis]
  by_cases hempty : dims = []
  · rw [if_pos (Or.inl (hnil.mpr hempty)), if_pos hempty]
  rw [if_neg hempty]
  by_cases hdims : 0 ∈ dims
  · have hcounts : 0 ∈ counts dims tiles := hzero.mpr hdims
    rw [if_pos (Or.inr hcounts), List.prod_eq_zero hcounts]
  · have hpos : ∀ d ∈ dims, 0 < d := fun d hd => Nat.pos_of_ne_zero (fun h0 => hdims (h0 ▸ hd))
    rw [if_neg (not_or.mpr ⟨fun hc => hempty (hnil.mp hc), fun hc => hdims (hzero.mp hc)⟩)]
    exact productUsize_of_le (counts_pos h hpos) (le_trans hle (hfits hdims))

/-- The tiles of an image of `dims` hold each of its `total` pixels once: the runs of all
tiles, laid end to end, are the flat indices in another order; each tile's length is its
runs' and at most the largest tile's; and every index computed on the way is a word. -/
def TilesPartition (dims tiles : List ℕ) (total : ℕ) : Prop :=
  ∃ g count, TileGeometry.new dims tiles = .ok g ∧ g.ntiles = .ok count ∧
    ∃ tile : ℕ → TileScratch,
      (∀ t < count, g.tileInto t = .ok (tile t) ∧
        (tile t).nelem = .ok (tile t).pixels.length ∧
        (tile t).tdims.prod = (tile t).pixels.length ∧
        ∃ most, g.maxTileElements = .ok most ∧ (tile t).pixels.length ≤ most) ∧
      ((List.range count).flatMap fun t => (tile t).pixels).Perm (List.range total)

end FitsWell
