import FitsWell.Compression.TilePartition
import FitsWell.Compression.WaveDecode

/-!
# Bands decode as waves do

The tiles at one index along the slowest axis write one run of the plane and nothing
else, so decoding each band into its own part of the plane gives what scattering every
tile into the whole plane gives.
-/

namespace FitsWell

open MixedRadix Tiling

/-! ## A part of the plane -/

variable {δ σ : Type}

/-- A copy inside a part of a slice is the copy into the part alone. -/
theorem copySlice_splice {before part after src : List δ} {i si width : ℕ}
    (hi : i + width ≤ part.length) :
    Agree (fun out part' => out = before ++ part' ++ after ∧ part'.length = part.length)
      (copySlice (before ++ part ++ after) (before.length + i) src si width)
      (copySlice part i src si width) := by
  unfold copySlice
  by_cases hsrc : si + width ≤ src.length
  · have hroom : before.length + i + width ≤ (before ++ part ++ after).length := by
      simp only [List.length_append]
      omega
    have htake : (before ++ part ++ after).take (before.length + i) = before ++ part.take i := by
      rw [List.append_assoc, List.take_append, List.take_of_length_le (by omega),
        Nat.add_sub_cancel_left, List.take_append_of_le_length (by omega)]
    have hdrop : (before ++ part ++ after).drop (before.length + i + width) =
        part.drop (i + width) ++ after := by
      rw [List.append_assoc, Nat.add_assoc, List.drop_append, List.drop_of_length_le (by omega),
        Nat.add_sub_cancel_left, List.drop_append_of_le_length (by omega), List.nil_append]
    rw [if_pos ⟨hroom, hsrc⟩, if_pos ⟨hi, hsrc⟩, htake, hdrop]
    refine .returns ⟨by simp only [List.append_assoc], ?_⟩
    simp only [List.length_append, List.length_take, List.length_drop]
    omega
  · rw [if_neg (fun h => hsrc h.2), if_neg (fun h => hsrc h.2)]
    exact .fails _

/-- A tile whose rows lie in a part of the plane is written into the plane as it is into
the part. -/
theorem scatterRowsInto_splice {s : TileScratch} {before part : List δ} (after : List δ)
    (values : List σ) (convert : σ → δ)
    (hrows : ∀ base ∈ s.rowBases, before.length ≤ base ∧
      base + s.rowLen ≤ before.length + part.length) :
    Agree (fun out part' => out = before ++ part' ++ after ∧ part'.length = part.length)
      (s.scatterRowsInto 0 (before ++ part ++ after) values convert)
      (s.scatterRowsInto before.length part values convert) := by
  have hfold := Agree.list s.rowBases
    (f := scatterRow 0 s.rowLen (values.map convert))
    (g := scatterRow before.length s.rowLen (values.map convert))
    (a := (0, before ++ part ++ after)) (b := (0, part))
    (R := fun state state' => state.1 = state'.1 ∧ state.2 = before ++ state'.2 ++ after ∧
      state'.2.length = part.length) ⟨rfl, rfl, rfl⟩ ?_
  · refine hfold.bind (fun state state' h => .returns h.2)
  · rintro base hbase ⟨offset, out⟩ ⟨offset', part'⟩ ⟨hoffset, hout, hlength⟩
    dsimp only at hoffset hout hlength
    obtain rfl := hoffset
    obtain rfl := hout
    obtain ⟨hlow, hhigh⟩ := hrows base hbase
    obtain ⟨i, rfl⟩ := Nat.exists_eq_add_of_le hlow
    rw [scatterRow, scatterRow, subUsize_of_le (Nat.zero_le _), Loops.bind_ok rfl,
      subUsize_of_le hlow, Loops.bind_ok rfl, Nat.sub_zero, Nat.add_sub_cancel_left]
    refine (copySlice_splice (by omega)).bind (fun out next hnext => .returns ?_)
    exact ⟨rfl, hnext.1, hnext.2.trans hlength⟩

/-! ## A decoded tile -/

variable {ρ ω ο : Type} {plan : ImageDecodePlan ρ ω δ}

/-- A decoded tile is what the geometry says, with a sample for each of its pixels. -/
theorem decodeTile_ok {place : TileRows} {decoded : TileScratch × List ω}
    (h : plan.decodeTile place = .ok decoded) :
    plan.geometry.tileInto place.grid = .ok decoded.1 ∧
      decoded.2.length = decoded.1.pixels.length := by
  obtain ⟨tile, htile, h⟩ := Loops.ok_of_bind h
  obtain ⟨row, -, h⟩ := Loops.ok_of_bind h
  obtain ⟨raw, -, h⟩ := Loops.ok_of_bind h
  obtain ⟨expected, hexpected, h⟩ := Loops.ok_of_bind h
  obtain ⟨_, hsize, h⟩ := Loops.ok_of_bind h
  obtain ⟨values, hfit, h⟩ := Loops.ok_of_bind h
  obtain rfl := Except.ok.inj h
  refine ⟨htile, ?_⟩
  obtain ⟨-, hpixels⟩ := mulUsize_eq_ok_iff.mp hexpected
  rw [plan.sample.length_fit _ _ _ hfit, TileScratch.length_pixels, hpixels]
  unfold ensureTileSize at hsize
  split at hsize
  · cases hsize
  · rename_i hne
    exact not_not.mp hne

/-- A tile inside the part of the plane from `start` on is written there. -/
theorem scatterRowsInto_total {s : TileScratch} {start : ℕ} {part : List δ} {values : List σ}
    (convert : σ → δ) (hlength : values.length = s.pixels.length)
    (hrows : ∀ base ∈ s.rowBases, start ≤ base ∧ base + s.rowLen ≤ start + part.length) :
    ∃ out, s.scatterRowsInto start part values convert = .ok out ∧
      out.length = part.length := by
  rw [TileScratch.length_pixels] at hlength
  have hfold : ∃ state : ℕ × List δ, s.rowBases.foldlM (scatterRow start s.rowLen (values.map convert))
      (0, part) = .ok state ∧
      state.1 = s.rowLen * s.rowBases.length ∧ state.2.length = part.length := by
    refine Loops.foldlM_total
      (P := fun (done : List ℕ) (state : ℕ × List δ) =>
        state.1 = s.rowLen * done.length ∧ state.2.length = part.length) ⟨rfl, rfl⟩ ?_
    rintro done base todo hitems ⟨offset, out⟩ ⟨hoffset, hout⟩
    dsimp only at hoffset hout
    obtain ⟨hlow, hhigh⟩ := hrows base (by rw [hitems]; simp)
    have hdst : base - start + s.rowLen ≤ out.length := by omega
    have hsrc : offset + s.rowLen ≤ (values.map convert).length := by
      rw [List.length_map, hlength, hoffset, hitems, List.length_append, List.length_cons]
      calc s.rowLen * done.length + s.rowLen = s.rowLen * (done.length + 1) :=
            (Nat.mul_succ _ _).symm
        _ ≤ s.rowLen * (done.length + (todo.length + 1)) :=
            Nat.mul_le_mul_left _ (by omega)
    obtain ⟨next, hcopy, hnext, -⟩ := copySlice_of_le hdst hsrc
    refine ⟨(offset + s.rowLen, next), ?_, ?_, hnext.trans hout⟩
    · rw [scatterRow, subUsize_of_le hlow, Loops.bind_ok rfl, hcopy]
      rfl
    · rw [List.length_append, List.length_singleton, Nat.mul_succ, ← hoffset]
  obtain ⟨state, hok, -, hlength'⟩ := hfold
  exact ⟨state.2, by rw [TileScratch.scatterRowsInto, hok]; rfl, hlength'⟩

/-! ## The bands of a grid -/

variable {ds ts : List ℕ} {d t : ℕ}

theorem bands_eq (h : Tiles (ds ++ [d]) (ts ++ [t])) (hpos : ∀ e ∈ ds ++ [d], 0 < e)
    (hprod : (ds ++ [d]).prod ≤ usizeMax) :
    (grid (ds ++ [d]) (ts ++ [t])).bands =
      .ok ⟨tilesAlong d t, min t d * ds.prod, (counts ds ts).prod⟩ := by
  have hfront := h.dropLast
  have hcounts := length_counts hfront.length
  have hdims : ∀ e ∈ ds, 0 < e := fun e he => hpos e (List.mem_append_left [d] he)
  have hd : 0 < d := hpos d (List.mem_append_right ds List.mem_cons_self)
  rw [List.prod_append, List.prod_singleton] at hprod
  have hfrontProd : ds.prod ≤ usizeMax := le_trans (Nat.le_mul_of_pos_right _ hd) hprod
  have hlen : min t d * ds.prod ≤ usizeMax := by
    calc min t d * ds.prod ≤ d * ds.prod := Nat.mul_le_mul_right _ (Nat.min_le_right t d)
      _ ≤ usizeMax := by rwa [Nat.mul_comm]
  have hdim : (grid (ds ++ [d]) (ts ++ [t])).dims.length = ds.length + 1 := List.length_append
  have hload : ∀ (front : List ℕ) (last : ℕ), front.length = ds.length →
      load (front ++ [last]) ds.length = .ok last := by
    intro front last hfront
    exact load_of_getElem? (by rw [← hfront, List.getElem?_concat_length])
  rw [TileGeometry.bands, hdim]
  dsimp only
  rw [stride_eq _ hpos, weights_append, Nat.one_mul]
  simp only [grid]
  rw [counts_append hfront.length, hload _ _ hcounts, Loops.bind_ok rfl, hload _ _ hfront.length,
    Loops.bind_ok rfl, hload _ _ rfl, Loops.bind_ok rfl, hload _ _ (length_weights 1 ds),
    Loops.bind_ok rfl, mulUsize_of_le hlen, Loops.bind_ok rfl,
    List.take_left' hcounts, productUsize_of_le (counts_pos hfront hdims)
      (le_trans (counts_prod hfront).2 hfrontProd)]
  rfl

/-- The tiles at one index along the slowest axis lie in one band. -/
theorem cells_in_band (h : Tiles (ds ++ [d]) (ts ++ [t])) {tile p : ℕ}
    (htile : tile < (counts (ds ++ [d]) (ts ++ [t])).prod)
    (hp : p ∈ cells (ds ++ [d]) (ts ++ [t]) tile) :
    tile / (counts ds ts).prod * (min t d * ds.prod) ≤ p ∧
      p < min ((tile / (counts ds ts).prod + 1) * (min t d * ds.prod)) (ds ++ [d]).prod := by
  obtain ⟨k, hk, rfl⟩ := mem_cells.mp hp
  have hlt := cell_lt h htile hk
  obtain ⟨l, hd, hl, hdiv⟩ := cell_slowest h htile hk
  generalize cell (ds ++ [d]) (ts ++ [t]) tile k = p at *
  generalize tile / (counts ds ts).prod = b at *
  have hpos : 0 < ds.prod := by
    rcases Nat.eq_zero_or_pos ds.prod with hzero | hpos
    · simp [hzero] at hlt
    · exact hpos
  have hlow := Nat.div_mul_le_self p ds.prod
  have hhigh := (Nat.div_lt_iff_lt_mul hpos).mp (Nat.lt_succ_self (p / ds.prod))
  rw [hdiv] at hlow hhigh
  rw [← Nat.mul_assoc, ← Nat.mul_assoc]
  refine ⟨le_trans (Nat.mul_le_mul_right _ ?_) hlow,
    lt_min (lt_of_lt_of_le hhigh (Nat.mul_le_mul_right _ ?_)) hlt⟩
  · calc b * min t d ≤ b * t := Nat.mul_le_mul_left b (Nat.min_le_left t d)
      _ ≤ b * t + l := Nat.le_add_right _ _
  · rw [Nat.succ_mul]
    rcases Nat.le_total t d with htd | hdt
    · rw [Nat.min_eq_left htd]
      omega
    · -- a tile longer than the axis is the only one along it
      rcases Nat.eq_zero_or_pos b with rfl | hb
      · rw [Nat.min_eq_right hdt]
        omega
      · have := Nat.le_mul_of_pos_left t hb
        omega

/-- A tile whose pixels lie in a range has its rows there. -/
theorem rows_of_pixels {s : TileScratch} {low high : ℕ} (hlen : 0 < s.rowLen)
    (h : ∀ p ∈ s.pixels, low ≤ p ∧ p < high) :
    ∀ base ∈ s.rowBases, low ≤ base ∧ base + s.rowLen ≤ high := by
  intro base hbase
  have hpixel : ∀ x < s.rowLen, base + x ∈ s.pixels := by
    intro x hx
    rw [TileScratch.pixels, List.mem_flatMap]
    exact ⟨base, hbase, List.mem_range'_1.mpr ⟨Nat.le_add_right _ _, by omega⟩⟩
  have hfirst := (h _ (hpixel 0 hlen)).1
  have hlast := (h _ (hpixel (s.rowLen - 1) (by omega))).2
  omega

/-- A tile's rows are not empty. -/
theorem rowLen_pos {dims tiles : List ℕ} (h : Tiles dims tiles) {tile : ℕ}
    (htile : tile < (counts dims tiles).prod) : 0 < (tileAt dims tiles tile).rowLen := by
  have hextents := (inside_tile h htile).2
  simp only [tileAt]
  rcases hcases : extentsOf dims tiles tile with _ | ⟨e, es⟩
  · exact Nat.one_pos
  · rw [hcases] at hextents
    exact hextents e List.mem_cons_self

/-! ## Decoding a whole image -/

section Whole

variable {dims tiles : List ℕ} (h : Tiles dims tiles) (hpos : ∀ e ∈ dims, 0 < e)
  (hprod : dims.prod ≤ usizeMax) (hgeometry : plan.geometry = grid dims tiles)
  (convert : δ → ο)

include h hprod hgeometry

/-- What a decoded tile of the grid covers. -/
theorem decodeTile_covers {tile : ℕ} (htile : tile < (counts dims tiles).prod)
    {place : TileRows} (hplace : place.grid = tile) {decoded : TileScratch × List ω}
    (hdecoded : plan.decodeTile place = .ok decoded) :
    decoded.1 = tileAt dims tiles tile ∧ decoded.2.length = (cells dims tiles tile).length ∧
      ∀ p ∈ decoded.1.pixels, p ∈ cells dims tiles tile := by
  obtain ⟨htileInto, hlength⟩ := decodeTile_ok hdecoded
  rw [hgeometry, hplace] at htileInto
  have heq := tileInto_of_ok h htile hprod htileInto
  have hpixels := pixels_tileAt h htile
  rw [heq, hpixels] at hlength ⊢
  exact ⟨rfl, hlength, fun p hp => hp⟩

/-- Every tile of a whole decode fits its slot, and its scatter succeeds. -/
theorem scatterWhole_total : ScatterTotal plan wholeRows
    (plan.geometry.scatterWhole convert) (List.zipWith min dims tiles).prod
    (counts dims tiles).prod (fun out => out.length = dims.prod) where
  fits := by
    rintro tile htile place decoded hplace hdecoded
    obtain rfl := Except.ok.inj hplace
    obtain ⟨-, hlength, -⟩ := decodeTile_covers h hprod hgeometry htile rfl hdecoded
    rw [hlength, cells, List.length_map, List.length_range]
    exact extentsOf_prod_le h tile
  total := by
    rintro tile htile place decoded out hplace hdecoded hout
    obtain rfl := Except.ok.inj hplace
    obtain ⟨htileInto, hlength⟩ := decodeTile_ok hdecoded
    obtain ⟨heq, -, hcells⟩ := decodeTile_covers h hprod hgeometry htile rfl hdecoded
    have hrows : ∀ base ∈ decoded.1.rowBases,
        0 ≤ base ∧ base + decoded.1.rowLen ≤ 0 + out.length := by
      refine rows_of_pixels (heq ▸ rowLen_pos h htile) (fun p hp => ?_)
      obtain ⟨k, hk, rfl⟩ := mem_cells.mp (hcells p hp)
      have := cell_lt h htile hk
      omega
    have hvalues : (decoded.2.map plan.sample.narrow).length = decoded.1.pixels.length := by
      rw [List.length_map, hlength]
    obtain ⟨out', hscatter, hout'⟩ := scatterRowsInto_total convert hvalues hrows
    refine ⟨out', ?_, hout'.trans hout⟩
    rw [TileGeometry.scatterWhole, htileInto, Loops.bind_ok rfl, hscatter]

/-- Decoding a whole image in waves is decoding and scattering its tiles one by one. -/
theorem decodeImageWaves_eq [Inhabited δ] (hpos : ∀ e ∈ dims, 0 < e) (hdims : dims ≠ [])
    {limit : ℕ} (hlimit : 0 < limit) {out : List ο} (hout : out.length = dims.prod) :
    plan.decodeImageWaves limit out convert =
      (List.range (counts dims tiles).prod).foldlM
        (plan.decodeStep wholeRows (plan.geometry.scatterWhole convert)) out := by
  obtain ⟨hmax, hle⟩ := maxTile_pos h hpos
  have hslot : plan.geometry.maxTileElements = .ok (List.zipWith min dims tiles).prod := by
    rw [hgeometry]
    exact productUsize_of_le hmax (le_trans hle hprod)
  rw [ImageDecodePlan.decodeImageWaves, hgeometry, ntiles_eq h (fun _ => hprod), if_neg hdims,
    Loops.bind_ok rfl, ← hgeometry]
  exact decodeWaves_eq hlimit hslot (scatterWhole_total h hprod hgeometry convert) hout

end Whole

/-! ## Decoding by bands -/

section ByBand

variable {ds ts : List ℕ} {d t : ℕ} (h : Tiles (ds ++ [d]) (ts ++ [t]))
  (hpos : ∀ e ∈ ds ++ [d], 0 < e) (hprod : (ds ++ [d]).prod ≤ usizeMax)
  (hgeometry : plan.geometry = grid (ds ++ [d]) (ts ++ [t])) (convert : δ → ο)

include h hprod hgeometry

/-- A tile of band `band` decodes into the band's part as into the whole plane. -/
theorem decodeBandTile_agree (after : List ο) {band offset : ℕ} (hoffset : offset < (counts ds ts).prod)
    (hband : band < tilesAlong d t) {before part : List ο}
    (hbefore : before.length = band * (min t d * ds.prod))
    (hpart : before.length + part.length =
      min ((band + 1) * (min t d * ds.prod)) (ds ++ [d]).prod) :
    Agree (fun part' plane => plane = before ++ part' ++ after ∧ part'.length = part.length)
      (plan.decodeBandTile convert (band * (counts ds ts).prod) before.length part offset)
      (plan.decodeStep wholeRows (plan.geometry.scatterWhole convert) (before ++ part ++ after)
        (band * (counts ds ts).prod + offset)) := by
  have htile : band * (counts ds ts).prod + offset <
      (counts (ds ++ [d]) (ts ++ [t])).prod := by
    rw [counts_append h.dropLast.length, List.prod_append, List.prod_singleton, Nat.mul_comm]
    calc (counts ds ts).prod * band + offset < (counts ds ts).prod * (band + 1) := by
          rw [Nat.mul_succ]
          omega
      _ ≤ (counts ds ts).prod * tilesAlong d t := Nat.mul_le_mul_left _ hband
  have hindex : (band * (counts ds ts).prod + offset) / (counts ds ts).prod = band := by
    rw [Nat.mul_comm, Nat.mul_add_div (by omega), Nat.div_eq_of_lt hoffset, Nat.add_zero]
  rw [ImageDecodePlan.decodeBandTile, ImageDecodePlan.decodeStep, wholeRows, Loops.bind_ok rfl,
    Loops.bind_ok rfl]
  generalize hplace : ({ table := band * (counts ds ts).prod + offset
                         grid := band * (counts ds ts).prod + offset } : TileRows) = place
  have hgrid : place.grid = band * (counts ds ts).prod + offset := by rw [← hplace]
  cases hdecoded : plan.decodeTile place with
  | error fault => exact .fails fault
  | ok decoded =>
    obtain ⟨htileInto, hlength⟩ := decodeTile_ok hdecoded
    obtain ⟨heq, -, hcells⟩ := decodeTile_covers h hprod hgeometry htile hgrid hdecoded
    have hrows : ∀ base ∈ decoded.1.rowBases, before.length ≤ base ∧
        base + decoded.1.rowLen ≤ before.length + part.length := by
      refine rows_of_pixels (heq ▸ rowLen_pos h htile) (fun p hp => ?_)
      have hp := cells_in_band h htile (hcells p hp)
      rw [hindex] at hp
      omega
    rw [Loops.bind_ok rfl, Loops.bind_ok rfl, TileGeometry.scatterWhole, htileInto,
      Loops.bind_ok rfl]
    have hsplice := scatterRowsInto_splice after decoded.2
      (fun wide => convert (plan.sample.narrow wide)) hrows
    have hvalues : decoded.1.scatterRowsInto 0 (before ++ part ++ after)
        (decoded.2.map plan.sample.narrow) convert =
        decoded.1.scatterRowsInto 0 (before ++ part ++ after) decoded.2
          (fun wide => convert (plan.sample.narrow wide)) := by
      rw [TileScratch.scatterRowsInto, TileScratch.scatterRowsInto, List.map_map]
      rfl
    rw [hvalues]
    exact hsplice.symm

/-- A band decodes into its part as its tiles do into the whole plane. -/
theorem decodeBand_agree (hpos : ∀ e ∈ ds ++ [d], 0 < e) {band : ℕ}
    (hband : band < tilesAlong d t) {plane : List ο} (hplane : plane.length = (ds ++ [d]).prod) :
    Agree (fun parts plane' => plane'.length = (ds ++ [d]).prod ∧
        parts = (List.range (tilesAlong d t)).map (Chunks.chunk plane' (min t d * ds.prod)))
      (plan.decodeBand ⟨tilesAlong d t, min t d * ds.prod, (counts ds ts).prod⟩ convert
        ((List.range (tilesAlong d t)).map (Chunks.chunk plane (min t d * ds.prod))) band)
      ((List.range (counts ds ts).prod).foldlM (fun plane offset => plan.decodeStep wholeRows
        (plan.geometry.scatterWhole convert) plane (band * (counts ds ts).prod + offset))
        plane) := by
  have hd : 0 < d := hpos d (List.mem_append_right ds List.mem_cons_self)
  have hstart : band * (min t d * ds.prod) ≤ (ds ++ [d]).prod := by
    have horigin := (lt_tilesAlong_iff (h.pos t (by simp))).mp hband
    rw [← Nat.mul_assoc, List.prod_append, List.prod_singleton, Nat.mul_comm ds.prod]
    refine Nat.mul_le_mul_right _ ?_
    calc band * min t d ≤ band * t := Nat.mul_le_mul_left band (Nat.min_le_left t d)
      _ ≤ d := horigin.le
  generalize hlen : min t d * ds.prod = len at *
  have hsucc : (band + 1) * len = band * len + len := Nat.succ_mul band len
  have hchunk := Chunks.length_chunk plane len band
  have hsplit : plane = plane.take (band * len) ++ Chunks.chunk plane len band ++
      plane.drop (band * len + len) := by
    rw [Chunks.chunk, ← List.drop_drop, List.append_assoc, List.take_append_drop,
      List.take_append_drop]
  have hbefore : (plane.take (band * len)).length = band * len := by
    rw [List.length_take]
    omega
  have hafter : plane.drop (band * len + len) ≠ [] →
      (Chunks.chunk plane len band).length = len := by
    intro hne
    have := List.length_pos_iff.mpr hne
    rw [List.length_drop] at this
    omega
  have hload : load ((List.range (tilesAlong d t)).map (Chunks.chunk plane len)) band =
      .ok (Chunks.chunk plane len band) := by
    apply load_of_getElem?
    rw [List.getElem?_map, List.getElem?_range hband]
    rfl
  rw [ImageDecodePlan.decodeBand, hload, Loops.bind_ok rfl]
  dsimp only
  have hfold := Agree.range (n := (counts ds ts).prod)
    (f := plan.decodeBandTile convert (band * (counts ds ts).prod) (band * len))
    (g := fun plane offset => plan.decodeStep wholeRows (plan.geometry.scatterWhole convert)
      plane (band * (counts ds ts).prod + offset))
    (R := fun _ part plane' => plane' = plane.take (band * len) ++ part ++
      plane.drop (band * len + len) ∧ part.length = (Chunks.chunk plane len band).length)
    ⟨hsplit, rfl⟩ (fun offset hoffset part plane' hpart => by
      obtain ⟨rfl, hlength⟩ := hpart
      have hroom : (plane.take (band * len)).length + part.length =
          min ((band + 1) * (min t d * ds.prod)) (ds ++ [d]).prod := by
        rw [hbefore, hlen, hlength]
        omega
      have htile := decodeBandTile_agree h hprod hgeometry convert
        (plane.drop (band * len + len)) hoffset hband
        (by rw [hbefore, hlen]) hroom
      rw [hbefore] at htile
      exact htile.mono (fun part' plane'' h => ⟨h.1, h.2.trans hlength⟩))
  refine hfold.bind_left (fun part plane' hpart => ?_)
  obtain ⟨rfl, hlength⟩ := hpart
  rw [store_of_lt _ (by rw [List.length_map, List.length_range]; exact hband)]
  have hchunkLe : (Chunks.chunk plane len band).length ≤ len := by omega
  refine .returns ⟨?_, ?_⟩
  · rw [← hplane]
    conv_rhs => rw [hsplit]
    simp only [List.length_append, hlength]
  · have hset := Chunks.map_chunk_splice hbefore hchunkLe hafter hlength (tilesAlong d t)
    rw [← hsplit] at hset
    exact hset.symm

/-- Decoding by bands is decoding and scattering the tiles one by one. -/
theorem decodeImageBands_eq (hpos : ∀ e ∈ ds ++ [d], 0 < e) {out : List ο}
    (hout : out.length = (ds ++ [d]).prod) :
    plan.decodeImageBands out convert =
      (List.range (counts (ds ++ [d]) (ts ++ [t])).prod).foldlM
        (plan.decodeStep wholeRows (plan.geometry.scatterWhole convert)) out := by
  have hd : 0 < d := hpos d (List.mem_append_right ds List.mem_cons_self)
  have ht : 0 < t := h.pos t (List.mem_append_right ts List.mem_cons_self)
  have hds : ∀ e ∈ ds, 0 < e := fun e he => hpos e (List.mem_append_left [d] he)
  have hfront : 0 < ds.prod := List.prod_pos_iff_forall_pos_nat.mpr hds
  have htiles : 0 < (counts ds ts).prod :=
    List.prod_pos_iff_forall_pos_nat.mpr (counts_pos h.dropLast hds)
  have hlen : min t d * ds.prod ≠ 0 := (Nat.mul_pos (by omega) hfront).ne'
  have hparts : (out.length + min t d * ds.prod - 1) / (min t d * ds.prod) = tilesAlong d t := by
    have hscale := tilesAlong_mul (d := d) (t := min t d) (by omega) hfront
    rw [tilesAlong_min ht hd] at hscale
    rw [hout, List.prod_append, List.prod_singleton, Nat.mul_comm ds.prod]
    exact hscale
  have hchunks : chunksMut out (min t d * ds.prod) =
      .ok ((List.range (tilesAlong d t)).map (Chunks.chunk out (min t d * ds.prod))) := by
    rw [chunksMut, if_neg hlen, hparts]
  have hbands := Agree.range (n := tilesAlong d t)
    (f := plan.decodeBand ⟨tilesAlong d t, min t d * ds.prod, (counts ds ts).prod⟩ convert)
    (g := fun plane band => (List.range (counts ds ts).prod).foldlM (fun plane offset =>
      plan.decodeStep wholeRows (plan.geometry.scatterWhole convert) plane
        (band * (counts ds ts).prod + offset)) plane)
    (R := fun _ parts plane => plane.length = (ds ++ [d]).prod ∧
      parts = (List.range (tilesAlong d t)).map (Chunks.chunk plane (min t d * ds.prod)))
    ⟨hout, rfl⟩ (fun band hband parts plane hparts => by
      obtain ⟨hplane, rfl⟩ := hparts
      exact decodeBand_agree h hprod hgeometry convert hpos hband hplane)
  rw [counts_append h.dropLast.length, List.prod_append, List.prod_singleton,
    Nat.mul_comm (counts ds ts).prod, foldlM_mul, ImageDecodePlan.decodeImageBands,
    congrArg TileGeometry.bands hgeometry, bands_eq h hpos hprod, Loops.bind_ok rfl, hchunks,
    Loops.bind_ok rfl, List.length_map, List.length_range]
  refine hbands.map_eq (fun parts plane hparts => ?_)
  rw [hparts.2]
  have hreach := le_tilesAlong_mul (d := d) (t := min t d) (by omega)
  rw [tilesAlong_min ht hd] at hreach
  apply Chunks.flatten_chunks
  rw [hparts.1, List.prod_append, List.prod_singleton, ← Nat.mul_assoc, Nat.mul_comm]
  exact Nat.mul_le_mul_right _ hreach

end ByBand

/-- What the split of an image into bands says: every tile is in exactly one band; the
tiles of a band are tiles of the grid, and write only cells of the band's own run of the
plane; and decoding every band into its run is decoding in waves. -/
structure BandsDecode [Inhabited δ] (plan : ImageDecodePlan ρ ω δ) (total limit : ℕ)
    (out : List ο) (convert : δ → ο) (bands : Bands) (ntiles : ℕ) : Prop where
  split : plan.geometry.bands = .ok bands
  count : plan.geometry.ntiles = .ok ntiles
  inOne : ∀ tile < ntiles, ∃! band, band < bands.count ∧
    band * bands.tiles ≤ tile ∧ tile < (band + 1) * bands.tiles
  inGrid : ∀ band < bands.count, (band + 1) * bands.tiles ≤ ntiles
  cells : ∀ band < bands.count, ∀ tile s, band * bands.tiles ≤ tile →
    tile < (band + 1) * bands.tiles → plan.geometry.tileInto tile = .ok s →
    ∀ p ∈ s.pixels, band * bands.len ≤ p ∧ p < min ((band + 1) * bands.len) total
  decode : plan.decodeImageBands out convert = plan.decodeImageWaves limit out convert

/-- Decoding a non-empty image by bands is decoding it in waves, whatever the tiles hold,
the conversion of a sample and the limit of a wave. -/
theorem bands_decode_as_waves [Inhabited δ] {dims tiles : List ℕ} {total limit : ℕ}
    {out : List ο} (convert : δ → ο) (hlen : tiles.length = dims.length)
    (htiles : ∀ tile ∈ tiles, 0 < tile) (htotal : shapeProduct dims = .ok total)
    (hsome : 0 < total) (hgeometry : TileGeometry.new dims tiles = .ok plan.geometry)
    (hlimit : 0 < limit) (hout : out.length = total) :
    ∃ bands ntiles, BandsDecode plan total limit out convert bands ntiles := by
  have h : Tiles dims tiles := ⟨hlen, htiles⟩
  obtain ⟨hprod, hnil, hfits⟩ := shapeProduct_eq_ok htotal
  have hdims : dims ≠ [] := fun hempty => by
    have := hnil hempty
    omega
  obtain rfl := hprod hdims
  have hpos : ∀ e ∈ dims, 0 < e := List.prod_pos_iff_forall_pos_nat.mp hsome
  have hmax : dims.prod ≤ usizeMax := hfits (fun hzero => lt_irrefl 0 (hpos 0 hzero))
  rw [new_eq h hfits] at hgeometry
  have hgeometry := (Except.ok.inj hgeometry).symm
  obtain rfl | ⟨ds, d, rfl⟩ := List.eq_nil_or_concat' dims
  · exact absurd rfl hdims
  obtain rfl | ⟨ts, t, rfl⟩ := List.eq_nil_or_concat' tiles
  · simp at hlen
  have hcount : (counts (ds ++ [d]) (ts ++ [t])).prod = tilesAlong d t * (counts ds ts).prod := by
    rw [counts_append h.dropLast.length, List.prod_append, List.prod_singleton, Nat.mul_comm]
  have hfront : 0 < (counts ds ts).prod := List.prod_pos_iff_forall_pos_nat.mpr
    (counts_pos h.dropLast (fun e he => hpos e (List.mem_append_left [d] he)))
  refine ⟨⟨tilesAlong d t, min t d * ds.prod, (counts ds ts).prod⟩,
    tilesAlong d t * (counts ds ts).prod, ?_, ?_, ?_, ?_, ?_, ?_⟩
  · rw [hgeometry, bands_eq h hpos hmax]
  · rw [hgeometry, ntiles_eq h hfits, if_neg hdims, hcount]
  · intro tile htile
    have hsplit := Nat.div_add_mod tile (counts ds ts).prod
    have hmod := Nat.mod_lt tile hfront
    rw [Nat.mul_comm] at hsplit
    refine ⟨tile / (counts ds ts).prod, ⟨Nat.div_lt_of_lt_mul (by rwa [Nat.mul_comm]), ?_, ?_⟩, ?_⟩
    · exact Nat.div_mul_le_self tile _
    · dsimp only
      rw [Nat.succ_mul]
      omega
    · rintro band ⟨-, hlow, hhigh⟩
      exact (Nat.div_eq_of_lt_le hlow hhigh).symm
  · intro band hband
    exact Nat.mul_le_mul_right _ hband
  · intro band hband tile s hlow hhigh hs p hp
    have htile : tile < (counts (ds ++ [d]) (ts ++ [t])).prod := by
      rw [hcount]
      exact lt_of_lt_of_le hhigh (Nat.mul_le_mul_right _ hband)
    rw [hgeometry] at hs
    rw [tileInto_of_ok h htile hmax hs, pixels_tileAt h htile] at hp
    have hcells := cells_in_band h htile hp
    rwa [Nat.div_eq_of_lt_le hlow hhigh] at hcells
  · rw [decodeImageBands_eq h hmax hgeometry convert hpos hout,
      decodeImageWaves_eq h hmax hgeometry convert hpos hdims hlimit hout]

/-- A plan for an image of [5, 4, 3] in tiles of [2, 3, 2] whose tiles hold the flat indices
of their pixels. -/
def indexPlan : ImageDecodePlan Unit ℤ ℤ where
  geometry := grid [5, 4, 3] [2, 3, 2]
  rows := List.replicate 12 ()
  reconstruct := fun _ _ tile => .ok (tile.pixels.map Int.ofNat, .refuse)
  sample := .i16

theorem bands_decode_as_waves_three_axes : ∃ bands ntiles,
    BandsDecode indexPlan 60 5 (List.replicate 60 (0 : ℤ)) id bands ntiles := by
  have hgeometry : TileGeometry.new [5, 4, 3] [2, 3, 2] = .ok indexPlan.geometry := by
    decide +kernel
  refine bands_decode_as_waves id ?_ ?_ ?_ (by decide) hgeometry (by decide) rfl
  · rfl
  · decide
  · decide +kernel

end FitsWell
