import FitsWell.Compression.SectionScatter

/-!
# A section decodes as its crop

Each tile a section meets writes the cells the two share, so the tiles together write the
section, each place once, with what a whole decode writes there.
-/

namespace FitsWell

open MixedRadix Tiling

variable {ρ ω δ ο σ : Type}

/-! ## The cells of a whole decode -/

/-- A tile's scatter writes its cells of the plane, and no others. -/
theorem scatterRowsInto_cells {dims tiles : List ℕ} (h : Tiles dims tiles) (hdims : dims ≠ [])
    {tile : ℕ} (htile : tile < (counts dims tiles).prod) (convert : σ → ο) {values : List σ}
    {out : List ο} (hvalues : values.length = (extentsOf dims tiles tile).prod)
    (hout : out.length = dims.prod) :
    ∃ out', (tileAt dims tiles tile).scatterRowsInto 0 out values convert = .ok out' ∧
      out'.length = out.length ∧
      (∀ k < (extentsOf dims tiles tile).prod,
        out'[cell dims tiles tile k]? = (values.map convert)[k]?) ∧
      ∀ p, (∀ k < (extentsOf dims tiles tile).prod, cell dims tiles tile k ≠ p) →
        out'[p]? = out[p]? := by
  obtain ⟨rfl, -⟩ | ⟨d, ds, t, ts, rfl, rfl⟩ := h.cases
  · exact absurd rfl hdims
  have he : 0 < min t (d - tile % tilesAlong d t * t) :=
    (inside_tile h htile).2 _ List.mem_cons_self
  have hcell : ∀ row, ∀ x < min t (d - tile % tilesAlong d t * t),
      cell (d :: ds) (t :: ts) tile (row * min t (d - tile % tilesAlong d t * t) + x) =
        cell (d :: ds) (t :: ts) tile (row * min t (d - tile % tilesAlong d t * t)) + x := by
    intro row x hx
    have hfirst := cell_row ds ts row (t := tile) he
    rw [Nat.add_zero] at hfirst
    rw [cell_row ds ts row hx, hfirst]
    omega
  have hlt : ∀ k < (extentsOf (d :: ds) (t :: ts) tile).prod,
      cell (d :: ds) (t :: ts) tile k < (d :: ds).prod := fun k hk => cell_lt h htile hk
  have hinj : ∀ k < (extentsOf (d :: ds) (t :: ts) tile).prod,
      ∀ k' < (extentsOf (d :: ds) (t :: ts) tile).prod,
      cell (d :: ds) (t :: ts) tile k = cell (d :: ds) (t :: ts) tile k' → k = k' :=
    fun k hk k' hk' heq => (cell_inj h htile hk htile hk' heq).2
  rw [TileScratch.scatterRowsInto]
  simp only [tileAt, extentsOf_cons, List.headD_cons, List.tail_cons, List.prod_cons,
    List.foldlM_map] at hvalues hlt hinj ⊢
  generalize min t (d - tile % tilesAlong d t * t) = e at *
  generalize (extentsOf ds ts (tile / tilesAlong d t)).prod = rows at *
  generalize hplace : cell (d :: ds) (t :: ts) tile = place at *
  rw [← List.prod_cons] at hlt
  have hloop : ∃ state : ℕ × List ο, (List.range rows).foldlM (fun state row =>
        scatterRow 0 e (values.map convert) state (place (row * e))) (0, out) = .ok state ∧
      state.1 = e * rows ∧ state.2.length = out.length ∧
      (∀ k < e * rows, k / e < rows → state.2[place k]? = (values.map convert)[k]?) ∧
      ∀ p, (∀ k < e * rows, place k ≠ p) → state.2[p]? = out[p]? := by
    refine Loops.range_total (P := fun (n : ℕ) (state : ℕ × List ο) =>
      state.1 = e * n ∧ state.2.length = out.length ∧
      (∀ k < e * rows, k / e < n → state.2[place k]? = (values.map convert)[k]?) ∧
      ∀ p, (∀ k < e * rows, place k ≠ p) → state.2[p]? = out[p]?)
      ⟨rfl, rfl, fun _ _ hlt => absurd hlt (Nat.not_lt_zero _), fun _ _ => rfl⟩ ?_
    rintro row hrow ⟨offset, before⟩ ⟨hoffset, hlength, hdone, hkept⟩
    dsimp only at hoffset hlength hdone hkept
    subst hoffset
    have hrowEnd : e * row + e ≤ e * rows := by
      rw [← Nat.mul_succ]
      exact Nat.mul_le_mul_left e hrow
    have hplaces : ∀ x < e, row * e + x < e * rows := by
      intro x hx
      rw [Nat.mul_comm row]
      omega
    have hlast := hlt (row * e + (e - 1)) (hplaces _ (by omega))
    rw [hcell row _ (by omega)] at hlast
    have hdst : place (row * e) + e ≤ before.length := by omega
    have hsrc : e * row + e ≤ (values.map convert).length := by
      rw [List.length_map]
      omega
    obtain ⟨after, hcopy, hafter, hget⟩ := copySlice_of_le hdst hsrc
    refine ⟨(e * row + e, after), ?_, (Nat.mul_succ e row).symm, hafter.trans hlength, ?_, ?_⟩
    · rw [scatterRow, subUsize_of_le (Nat.zero_le _), Loops.bind_ok rfl, Nat.sub_zero, hcopy]
      rfl
    · intro k hk hkrow
      rcases Nat.lt_succ_iff_lt_or_eq.mp hkrow with hbefore | rfl
      · rw [hget, if_neg, hdone k hk hbefore]
        rintro ⟨hlow, hhigh⟩
        obtain ⟨x, hx⟩ := Nat.exists_eq_add_of_le hlow
        have hxe : x < e := by omega
        rw [← hcell row x hxe] at hx
        rw [hinj k hk _ (hplaces x hxe) hx, Nat.mul_comm, Nat.mul_add_div he,
          Nat.div_eq_of_lt hxe] at hbefore
        omega
      · have hsplit := Nat.div_add_mod k e
        have hmod := Nat.mod_lt k he
        have hk' := hcell (k / e) (k % e) hmod
        rw [Nat.mul_comm (k / e), hsplit, Nat.mul_comm e] at hk'
        rw [hget, if_pos (by omega), hk', Nat.add_sub_cancel_left, hsplit]
    · intro p hp
      rw [hget, if_neg, hkept p hp]
      rintro ⟨hlow, hhigh⟩
      obtain ⟨x, rfl⟩ := Nat.exists_eq_add_of_le hlow
      have hxe : x < e := by omega
      exact hp _ (hplaces x hxe) (hcell row x hxe)
  obtain ⟨⟨_, out'⟩, hok, -, hlength, hwritten, hkept⟩ := hloop
  refine ⟨out', by rw [hok]; rfl, hlength, fun k hk => hwritten k hk ?_, hkept⟩
  exact Nat.div_lt_of_lt_mul hk

/-- A tile of the grid, decoded, and a plane that has its samples at its cells. -/
structure Decoded (plan : ImageDecodePlan ρ ω δ) (convert : δ → ο) (dims tiles : List ℕ)
    (plane : List ο) (tile : ℕ) (values : List ω) : Prop where
  decode : plan.decodeTile ⟨tile, tile⟩ = .ok (tileAt dims tiles tile, values)
  length : values.length = (extentsOf dims tiles tile).prod
  cells : ∀ k < (extentsOf dims tiles tile).prod,
    plane[cell dims tiles tile k]? = ((values.map plan.sample.narrow).map convert)[k]?

section Whole

variable {plan : ImageDecodePlan ρ ω δ} {dims tiles : List ℕ} (h : Tiles dims tiles)
  (hdims : dims ≠ []) (hprod : dims.prod ≤ usizeMax)
  (hgeometry : plan.geometry = grid dims tiles) (convert : δ → ο)

include h hdims hprod hgeometry

/-- A whole decode leaves each tile's samples at the tile's cells. -/
theorem decodeSteps_decoded {out plane : List ο} (hout : out.length = dims.prod)
    (hok : (List.range (counts dims tiles).prod).foldlM
      (plan.decodeStep wholeRows (plan.geometry.scatterWhole convert)) out = .ok plane) :
    plane.length = dims.prod ∧ ∀ tile < (counts dims tiles).prod,
      ∃ values, Decoded plan convert dims tiles plane tile values := by
  refine Loops.range_partial (P := fun n plane => plane.length = dims.prod ∧
    ∀ tile < n, ∃ values, Decoded plan convert dims tiles plane tile values)
    ⟨hout, fun _ hlt => absurd hlt (Nat.not_lt_zero _)⟩ ?_ hok
  rintro n hn before after ⟨hbefore, hdone⟩ hstep
  obtain ⟨place, hplace, hstep⟩ := Loops.ok_of_bind hstep
  obtain rfl := Except.ok.inj hplace
  obtain ⟨decoded, hdecoded, hstep⟩ := Loops.ok_of_bind hstep
  obtain ⟨s, hs, hscatter⟩ := Loops.ok_of_bind hstep
  rw [hgeometry] at hs
  obtain rfl := tileInto_of_ok h hn hprod hs
  obtain ⟨hscratch, hlength, -⟩ := decodeTile_covers h hprod hgeometry hn rfl hdecoded
  rw [cells, List.length_map, List.length_range] at hlength
  obtain ⟨out', hok', hlength', hwritten, hkept⟩ := scatterRowsInto_cells h hdims hn convert
    ((List.length_map plan.sample.narrow).trans hlength) hbefore
  obtain rfl := Except.ok.inj (hok'.symm.trans hscatter)
  refine ⟨hlength'.trans hbefore, fun tile htile => ?_⟩
  rcases Nat.lt_succ_iff_lt_or_eq.mp htile with hlt | rfl
  · obtain ⟨values, hvalues⟩ := hdone tile hlt
    refine ⟨values, hvalues.decode, hvalues.length, fun k hk => ?_⟩
    rw [hkept _ (fun k' hk' heq => ?_), hvalues.cells k hk]
    exact hlt.ne' (cell_inj h hn hk' (hlt.trans hn) hk heq).1
  · exact ⟨decoded.2, by rw [hdecoded, ← hscratch], hlength, hwritten⟩

/-- A whole decode that returns is one pass over the tiles. -/
theorem decodeInto_whole [Inhabited δ] (hpos : ∀ e ∈ dims, 0 < e) {threads limit : ℕ}
    (hlimit : 0 < limit) {out plane : List ο} (hout : out.length = dims.prod)
    (hok : plan.decodeInto threads limit none out convert = .ok plane) :
    (List.range (counts dims tiles).prod).foldlM
      (plan.decodeStep wholeRows (plan.geometry.scatterWhole convert)) out = .ok plane := by
  have hnonempty : ¬out.isEmpty := by
    rw [List.isEmpty_iff_length_eq_zero, hout]
    exact (List.prod_pos_iff_forall_pos_nat.mpr hpos).ne'
  rw [ImageDecodePlan.decodeInto, if_neg hnonempty] at hok
  obtain ⟨bands, -, hok⟩ := Loops.ok_of_bind hok
  obtain ⟨ntiles, -, hok⟩ := Loops.ok_of_bind hok
  split at hok
  · rwa [decodeImageWaves_eq h hprod hgeometry convert hpos hdims hlimit hout] at hok
  · obtain rfl | ⟨ds, d, rfl⟩ := List.eq_nil_or_concat' dims
    · exact absurd rfl hdims
    obtain rfl | ⟨ts, t, rfl⟩ := List.eq_nil_or_concat' tiles
    · have := h.length
      simp at this
    rwa [decodeImageBands_eq h hprod hgeometry convert hpos hout] at hok

end Whole

/-! ## The tiles of a section -/

section Section

variable {ranges : List AxisRange} {dims tiles rows : List ℕ}

/-- The cell at a place of a section is the one of its coordinates. -/
theorem sectionCell_relative (dims : List ℕ) {cs : List ℕ} (h : InSection ranges cs) :
    value (regionShape ranges) (relative ranges cs) < (regionShape ranges).prod ∧
      sectionCell ranges dims (value (regionShape ranges) (relative ranges cs)) =
        value dims cs := by
  obtain ⟨hbelow, hshift⟩ := relative_below h
  exact ⟨value_lt hbelow, by rw [sectionCell, digits_value hbelow, hshift]⟩

/-- Each place of a section is shared with a tile it lists. -/
theorem exists_shared (h : Filled ranges dims tiles) {q : ℕ}
    (hq : q < (regionShape ranges).prod) :
    ∃ tile ∈ listedTiles ranges dims tiles, ∃ k, Shared ranges dims tiles tile q k := by
  obtain ⟨hin, -⟩ := shift_starts (digits_below hq)
  have hbelow := hin.below h.region
  obtain ⟨tile, htile, k, hk, hcell⟩ := exists_cell h.tiles (value_lt hbelow)
  refine ⟨tile, (mem_listedTiles h).mpr ⟨htile, _, mem_cells.mpr ⟨k, hk, hcell⟩, ?_⟩, k, hq, hk,
    hcell.symm⟩
  rwa [digits_value hbelow]

/-- A place of a section is shared with one tile only. -/
theorem Shared.tile_unique {tile tile' q k k' : ℕ} (h : Tiles dims tiles)
    (htile : tile < (counts dims tiles).prod) (htile' : tile' < (counts dims tiles).prod)
    (hk : Shared ranges dims tiles tile q k) (hk' : Shared ranges dims tiles tile' q k') :
    tile = tile' :=
  (cell_inj h htile hk.2.1 htile' hk'.2.1 (hk.2.2.symm.trans hk'.2.2)).1

variable {plan : ImageDecodePlan ρ ω δ}

/-- The rows of a section's table hold what the container holds for its tiles. -/
theorem ofRows_eq (hrows : ∀ tile ∈ rows, ∃ decoded, plan.decodeTile ⟨tile, tile⟩ = .ok decoded) :
    ∃ part, plan.ofRows rows = .ok part ∧ part.geometry = plan.geometry ∧
      part.sample = plan.sample ∧
      ∀ i tile, rows[i]? = some tile →
        part.decodeTile ⟨i, tile⟩ = plan.decodeTile ⟨tile, tile⟩ := by
  have hloaded : ∃ loaded, rows.mapM (load plan.rows) = .ok loaded ∧
      ∀ i tile, rows[i]? = some tile → load loaded i = load plan.rows tile := by
    induction rows with
    | nil => exact ⟨[], rfl, by simp⟩
    | cons tile rows ih =>
      obtain ⟨loaded, hmap, hload⟩ := ih (fun t ht => hrows t (List.mem_cons_of_mem tile ht))
      obtain ⟨decoded, hdecoded⟩ := hrows tile List.mem_cons_self
      obtain ⟨_, -, hdecoded⟩ := Loops.ok_of_bind hdecoded
      obtain ⟨row, hrow, -⟩ := Loops.ok_of_bind hdecoded
      dsimp only at hrow
      refine ⟨row :: loaded, by rw [List.mapM_cons, hrow, hmap]; rfl, ?_⟩
      rintro (_ | i) t ht
      · rw [List.getElem?_cons_zero] at ht
        rw [← Option.some.inj ht, hrow]
        rfl
      · exact hload i t ht
  obtain ⟨loaded, hmap, hload⟩ := hloaded
  refine ⟨{ plan with rows := loaded }, by rw [ImageDecodePlan.ofRows, hmap]; rfl, rfl, rfl,
    fun i tile hi => ?_⟩
  simp only [ImageDecodePlan.decodeTile, hload i tile hi]

variable (h : Filled ranges dims tiles) (hdims : dims ≠ []) (hprod : dims.prod ≤ usizeMax)
  (hgeometry : plan.geometry = grid dims tiles) (convert : δ → ο)

include h hdims hprod hgeometry

/-- A decoded tile's scatter into a section writes the places the two share. -/
theorem scatterSection_shared (rows : List ℕ) {place : TileRows} (hplace : place.grid < (counts dims tiles).prod)
    {decoded : TileScratch × List ω} (hdecoded : plan.decodeTile place = .ok decoded)
    {out : List ο} (hout : out.length = (regionShape ranges).prod) :
    ∃ out', plan.geometry.scatterSection ⟨ranges, regionShape ranges, rows⟩ convert out place.grid
        (decoded.2.map plan.sample.narrow) = .ok out' ∧ out'.length = out.length ∧
      (∀ q k, Shared ranges dims tiles place.grid q k →
        out'[q]? = ((decoded.2.map plan.sample.narrow).map convert)[k]?) ∧
      ∀ q, (∀ k, ¬Shared ranges dims tiles place.grid q k) → out'[q]? = out[q]? := by
  obtain ⟨htileInto, -⟩ := decodeTile_ok hdecoded
  obtain ⟨htile, hlength, -⟩ := decodeTile_covers h.tiles hprod hgeometry hplace rfl hdecoded
  rw [cells, List.length_map, List.length_range] at hlength
  rw [TileGeometry.scatterSection, htileInto, Loops.bind_ok rfl, htile]
  obtain ⟨-, rfl, -⟩ | ⟨r, rs, d, ds, t, ts, rfl, rfl, rfl, -⟩ := h.cases
  · exact absurd rfl hdims
  · exact scatterSectionInto_eq h hprod hplace convert ((List.length_map _).trans hlength) hout

/-- A section's decode is one pass over the tiles it lists. -/
theorem decodeSectionInto_eq [Inhabited δ] (hpos : ∀ e ∈ dims, 0 < e)
    (hrows : ∀ tile ∈ rows, tile < (counts dims tiles).prod) {limit : ℕ} (hlimit : 0 < limit)
    {out : List ο} (hout : out.length = (regionShape ranges).prod) :
    plan.decodeSectionInto limit ⟨ranges, regionShape ranges, rows⟩ out convert =
      (List.range rows.length).foldlM
        (plan.decodeStep (TileSection.tileRows ⟨ranges, regionShape ranges, rows⟩)
          (plan.geometry.scatterSection ⟨ranges, regionShape ranges, rows⟩ convert)) out := by
  obtain ⟨hmax, hle⟩ := maxTile_pos h.tiles hpos
  have hslot : plan.geometry.maxTileElements = .ok (List.zipWith min dims tiles).prod := by
    rw [hgeometry]
    exact productUsize_of_le hmax (le_trans hle hprod)
  have hgrid : ∀ i place, TileSection.tileRows ⟨ranges, regionShape ranges, rows⟩ i = .ok place →
      place.grid < (counts dims tiles).prod := by
    intro i place hplace
    obtain ⟨tile, htile, hplace⟩ := Loops.ok_of_bind hplace
    obtain rfl := Except.ok.inj hplace
    exact hrows tile (List.mem_of_getElem? (getElem?_of_load htile))
  have htotal : ScatterTotal plan (TileSection.tileRows ⟨ranges, regionShape ranges, rows⟩)
      (plan.geometry.scatterSection ⟨ranges, regionShape ranges, rows⟩ convert)
      (List.zipWith min dims tiles).prod rows.length
      (fun out => out.length = (regionShape ranges).prod) := by
    constructor
    · rintro i - place decoded hplace hdecoded
      obtain ⟨-, hlength, -⟩ :=
        decodeTile_covers h.tiles hprod hgeometry (hgrid i place hplace) rfl hdecoded
      rw [hlength, cells, List.length_map, List.length_range]
      exact extentsOf_prod_le h.tiles place.grid
    · rintro i - place decoded out hplace hdecoded hout
      obtain ⟨out', hok, hlength, -⟩ := scatterSection_shared h hdims hprod hgeometry
        convert rows (hgrid i place hplace) hdecoded hout
      exact ⟨out', hok, hlength.trans hout⟩
  exact decodeWaves_eq hlimit hslot htotal hout

/-- The tiles of a section leave in it what a whole decode leaves at its cells. -/
theorem decodeSection_cells [Inhabited δ] (hpos : ∀ e ∈ dims, 0 < e) {plane : List ο}
    {whole : ImageDecodePlan ρ ω δ} (hdone : ∀ tile < (counts dims tiles).prod,
      ∃ values, Decoded whole convert dims tiles plane tile values)
    (hsample : plan.sample = whole.sample)
    (hrow : ∀ i tile, (listedTiles ranges dims tiles)[i]? = some tile →
      plan.decodeTile ⟨i, tile⟩ = whole.decodeTile ⟨tile, tile⟩) {limit : ℕ}
    (hlimit : 0 < limit) {out : List ο} (hout : out.length = (regionShape ranges).prod) :
    ∃ cut, plan.decodeSectionInto limit
        ⟨ranges, regionShape ranges, listedTiles ranges dims tiles⟩ out convert = .ok cut ∧
      cut.length = (regionShape ranges).prod ∧
      ∀ q < (regionShape ranges).prod, cut[q]? = plane[sectionCell ranges dims q]? := by
  have hrows : ∀ tile ∈ listedTiles ranges dims tiles, tile < (counts dims tiles).prod :=
    fun tile htile => ((mem_listedTiles h).mp htile).1
  rw [decodeSectionInto_eq h hdims hprod hgeometry convert hpos hrows hlimit hout]
  have hloop : ∃ cut : List ο, (List.range (listedTiles ranges dims tiles).length).foldlM
      (plan.decodeStep
        (TileSection.tileRows ⟨ranges, regionShape ranges, listedTiles ranges dims tiles⟩)
        (plan.geometry.scatterSection
          ⟨ranges, regionShape ranges, listedTiles ranges dims tiles⟩ convert)) out = .ok cut ∧
      cut.length = (regionShape ranges).prod ∧
      ∀ i < (listedTiles ranges dims tiles).length, ∀ tile,
        (listedTiles ranges dims tiles)[i]? = some tile →
        ∀ q k, Shared ranges dims tiles tile q k →
          cut[q]? = plane[sectionCell ranges dims q]? := by
    refine Loops.range_total (P := fun (n : ℕ) (cut : List ο) =>
      cut.length = (regionShape ranges).prod ∧
      ∀ i < n, ∀ tile, (listedTiles ranges dims tiles)[i]? = some tile →
        ∀ q k, Shared ranges dims tiles tile q k →
          cut[q]? = plane[sectionCell ranges dims q]?)
      ⟨hout, fun _ hlt => absurd hlt (Nat.not_lt_zero _)⟩ ?_
    rintro i hi before ⟨hbefore, hkept⟩
    obtain ⟨tile, htile⟩ : ∃ tile, (listedTiles ranges dims tiles)[i]? = some tile :=
      ⟨_, List.getElem?_eq_getElem hi⟩
    have hgrid := hrows tile (List.mem_of_getElem? htile)
    obtain ⟨values, hvalues⟩ := hdone tile hgrid
    have hdecoded : plan.decodeTile ⟨i, tile⟩ = .ok (tileAt dims tiles tile, values) :=
      (hrow i tile htile).trans hvalues.decode
    obtain ⟨after, hscatter, hafter, hwritten, hrest⟩ :=
      scatterSection_shared h hdims hprod hgeometry convert (listedTiles ranges dims tiles)
        hgrid hdecoded hbefore
    have hnew : ∀ q k, Shared ranges dims tiles tile q k →
        after[q]? = plane[sectionCell ranges dims q]? := by
      intro q k hqk
      rw [hwritten q k hqk, hqk.2.2, hvalues.cells k hqk.2.1, hsample]
    refine ⟨after, ?_, hafter.trans hbefore, fun j hj other hother q k hqk => ?_⟩
    · rw [ImageDecodePlan.decodeStep, TileSection.tileRows, load_of_getElem? htile,
        Loops.bind_ok rfl, Loops.bind_ok rfl, hdecoded, Loops.bind_ok rfl]
      exact hscatter
    · by_cases hshared : ∃ k', Shared ranges dims tiles tile q k'
      · obtain ⟨k', hqk'⟩ := hshared
        exact hnew q k' hqk'
      · rw [hrest q (not_exists.mp hshared)]
        rcases Nat.lt_succ_iff_lt_or_eq.mp hj with hlt | rfl
        · exact hkept j hlt other hother q k hqk
        · obtain rfl := Option.some.inj (htile.symm.trans hother)
          exact absurd ⟨k, hqk⟩ hshared
  obtain ⟨cut, hok, hlength, hcells⟩ := hloop
  refine ⟨cut, hok, hlength, fun q hq => ?_⟩
  obtain ⟨tile, htile, k, hqk⟩ := exists_shared h hq
  obtain ⟨i, hi, hplace⟩ := List.mem_iff_getElem.mp htile
  exact hcells i hi tile (List.getElem?_eq_some_iff.mpr ⟨hi, hplace⟩) q k hqk

/-- The scatter of a section's tiles writes each place once. -/
theorem sectionWrites_perm
    (htiles : ∀ tile < (counts dims tiles).prod,
      plan.geometry.tileInto tile = .ok (tileAt dims tiles tile)) :
    ∃ writes, plan.geometry.sectionWrites
        ⟨ranges, regionShape ranges, listedTiles ranges dims tiles⟩ = .ok writes ∧
      writes.Perm (List.range (regionShape ranges).prod) := by
  have hnodup := listedTiles_nodup h
  have hrows : ∀ tile ∈ listedTiles ranges dims tiles, tile < (counts dims tiles).prod :=
    fun tile htile => ((mem_listedTiles h).mp htile).1
  have hcover := fun q hq => exists_shared h (q := q) hq
  obtain ⟨-, rfl, -⟩ | ⟨r, rs, d, ds, t, ts, rfl, rfl, rfl, -⟩ := h.cases
  · exact absurd rfl hdims
  generalize listedTiles (r :: rs) (d :: ds) (t :: ts) = rows at *
  have hloop : ∃ writes : List ℕ, rows.foldlM (fun written tile => do
        let s ← plan.geometry.tileInto tile
        let places ← s.sectionWrites (r :: rs) (regionShape (r :: rs))
        .ok (written ++ places)) [] = .ok writes ∧ writes.Nodup ∧
      ∀ q, q ∈ writes ↔ ∃ tile ∈ rows, ∃ k, Shared (r :: rs) (d :: ds) (t :: ts) tile q k := by
    refine Loops.foldlM_total (P := fun (done : List ℕ) (writes : List ℕ) => writes.Nodup ∧
      ∀ q, q ∈ writes ↔ ∃ tile ∈ done, ∃ k, Shared (r :: rs) (d :: ds) (t :: ts) tile q k)
      ⟨List.nodup_nil, by simp⟩ ?_
    rintro done tile todo hsplit before ⟨hbefore, hmem⟩
    have htile := hrows tile (by simp [hsplit])
    obtain ⟨places, hok, hplaces, hshared⟩ := sectionWrites_eq h hprod htile
    refine ⟨before ++ places, by rw [htiles tile htile, Loops.bind_ok rfl, hok]; rfl, ?_,
      fun q => ?_⟩
    · refine List.nodup_append.mpr ⟨hbefore, hplaces, fun q hq q' hq' => ?_⟩
      rintro rfl
      obtain ⟨other, hother, k, hk⟩ := (hmem q).mp hq
      obtain ⟨k', hk'⟩ := (hshared q).mp hq'
      have hotherTile := hrows other (by simp [hsplit, hother])
      obtain rfl := hk.tile_unique h.tiles hotherTile htile hk'
      rw [hsplit, List.nodup_append] at hnodup
      exact hnodup.2.2 other hother other List.mem_cons_self rfl
    · simp only [List.mem_append, hmem, hshared, List.mem_singleton, or_and_right, exists_or,
        exists_eq_left]
  obtain ⟨writes, hok, hwrites, hmem⟩ := hloop
  refine ⟨writes, hok, (List.perm_ext_iff_of_nodup hwrites List.nodup_range).mpr (fun q => ?_)⟩
  rw [hmem, List.mem_range]
  constructor
  · rintro ⟨tile, -, k, hq, -⟩
    exact hq
  · exact hcover q

end Section

/-! ## The section and the whole -/

/-- What a section of an image says: it lists each tile that holds a cell of it, once, and
no other; and where a whole decode returns, the scatter of the listed tiles writes each
place of the section once, and the section's decode fills it with the whole's cells. -/
structure SectionDecodes [Inhabited δ] (plan : ImageDecodePlan ρ ω δ) (dims tiles : List ℕ)
    (total : ℕ) (ranges : List AxisRange) (convert : δ → ο) (part : TileSection)
    (ntiles count : ℕ) : Prop where
  select : select dims tiles ranges = .ok part
  tiled : plan.geometry.ntiles = .ok ntiles
  size : shapeProduct part.shape = .ok count
  once : part.rows.Nodup
  meets : ∀ tile, tile ∈ part.rows ↔
    tile < ntiles ∧ ∃ p ∈ cells dims tiles tile, InSection ranges (digits dims p)
  writes : ∀ threads limit (out plane : List ο), 0 < limit → out.length = total →
    plan.decodeInto threads limit none out convert = .ok plane →
    ∃ places, plan.geometry.sectionWrites part = .ok places ∧ places.Perm (List.range count)
  crop : ∀ threads limit (out plane : List ο), 0 < limit → out.length = total →
    plan.decodeInto threads limit none out convert = .ok plane →
    ∀ threads' limit' (out' : List ο), 0 < limit' → out'.length = count →
      ∃ partPlan cut, plan.ofRows part.rows = .ok partPlan ∧
        partPlan.decodeInto threads' limit' (some part) out' convert = .ok cut ∧
        cut.length = count ∧ ∀ cs, InSection ranges cs →
          cut[value part.shape (relative ranges cs)]? = plane[value dims cs]?

variable {plan : ImageDecodePlan ρ ω δ} {ranges : List AxisRange} {dims tiles : List ℕ}
  {total : ℕ}

/-- A section with an empty range, or of an image with no axes, holds nothing. -/
theorem sectionDecodes_empty [Inhabited δ] (convert : δ → ο) (h : Tiles dims tiles)
    (hfits : 0 ∉ dims → dims.prod ≤ usizeMax) (hgeometry : plan.geometry = grid dims tiles)
    (hregion : checkImageRegion ranges dims = .ok ())
    (hempty : dims = [] ∨ ∃ range ∈ ranges, range.stop ≤ range.start)
    (hnil : dims = [] → total = 0) :
    SectionDecodes plan dims tiles total ranges convert ⟨ranges, regionShape ranges, []⟩
      (if dims = [] then 0 else (counts dims tiles).prod) 0 := by
  have hranges := checkImageRegion_ok hregion
  have hcount : tileCount tiles ranges = .ok 0 := by
    refine if_pos ?_
    rcases hempty with rfl | ⟨range, hrange, hstop⟩
    · exact Or.inr (List.forall₂_nil_right_iff.mp hranges)
    · exact Or.inl (List.any_eq_true.mpr ⟨range, hrange, decide_eq_true hstop⟩)
  have hshape : shapeProduct (regionShape ranges) = .ok 0 := by
    refine if_pos ?_
    rcases hempty with rfl | ⟨range, hrange, hstop⟩
    · rw [List.forall₂_nil_right_iff.mp hranges]
      exact Or.inl rfl
    · exact Or.inr (List.mem_map.mpr ⟨range, hrange, Nat.sub_eq_zero_of_le hstop⟩)
  have hnone : dims ≠ [] → ∀ cs, ¬InSection ranges cs := by
    intro hdims cs hin
    obtain ⟨range, hrange, hstop⟩ := hempty.resolve_left hdims
    obtain ⟨i, hi, rfl⟩ := List.mem_iff_getElem.mp hrange
    have := (List.forall₂_iff_get.mp hin).2 i hi (by rw [← hin.length_eq]; exact hi)
    simp only [List.get_eq_getElem] at this
    omega
  refine ⟨?_, ?_, hshape, List.nodup_nil, fun tile => ?_, ?_, ?_⟩
  · rw [select, validateImageRegion_eq hregion, Loops.bind_ok rfl, hcount, Loops.bind_ok rfl,
      if_pos rfl]
  · rw [hgeometry, ntiles_eq h hfits]
  · simp only [List.not_mem_nil, false_iff]
    rintro ⟨htile, p, -, hin⟩
    split at htile
    · omega
    · rename_i hdims
      exact hnone hdims _ hin
  · exact fun _ _ _ _ _ _ _ => ⟨[], rfl, .refl _⟩
  · rintro threads limit out plane - hout hok threads' limit' out' - hout'
    obtain rfl := List.eq_nil_of_length_eq_zero hout'
    refine ⟨{ plan with rows := [] }, [], rfl, rfl, rfl, fun cs hin => ?_⟩
    by_cases hdims : dims = []
    · rw [hnil hdims] at hout
      obtain rfl := List.eq_nil_of_length_eq_zero hout
      obtain rfl := Except.ok.inj hok
      rfl
    · exact absurd hin (hnone hdims cs)

/-- Decoding a section of an image fills it with the cells of the whole image's decode,
whatever the tiles hold, the conversion of a sample, the threads and the limit of a wave. -/
theorem section_decodes_as_crop [Inhabited δ] (convert : δ → ο)
    (hlen : tiles.length = dims.length) (htiles : ∀ tile ∈ tiles, 0 < tile)
    (htotal : shapeProduct dims = .ok total)
    (hgeometry : TileGeometry.new dims tiles = .ok plan.geometry)
    (hregion : checkImageRegion ranges dims = .ok ()) :
    ∃ part ntiles count,
      SectionDecodes plan dims tiles total ranges convert part ntiles count := by
  have h : Tiles dims tiles := ⟨hlen, htiles⟩
  obtain ⟨hprod, hnil, hfits⟩ := shapeProduct_eq_ok htotal
  rw [new_eq h hfits] at hgeometry
  have hgeometry := (Except.ok.inj hgeometry).symm
  by_cases hempty : dims = [] ∨ ∃ range ∈ ranges, range.stop ≤ range.start
  · exact ⟨_, _, _, sectionDecodes_empty convert h hfits hgeometry hregion hempty hnil⟩
  obtain ⟨hdims, hfilled⟩ := not_or.mp hempty
  obtain rfl := hprod hdims
  have hranges := checkImageRegion_ok hregion
  have hrange : ∀ range ∈ ranges, range.start < range.stop :=
    fun range hrange => not_le.mp (fun hle => hfilled ⟨range, hrange, hle⟩)
  have hsome := List.prod_pos_iff_forall_pos_nat.mpr (regionShape_pos hrange)
  have hpos : ∀ d ∈ dims, 0 < d :=
    ((shift_starts (digits_below hsome)).1.below hranges).pos
  have hmax : dims.prod ≤ usizeMax := hfits (fun hzero => lt_irrefl 0 (hpos 0 hzero))
  have hfilled : Filled ranges dims tiles :=
    ⟨hranges, hrange, h, fun d hd => le_trans (le_prod hpos d hd) hmax⟩
  have hntiles := ntiles_eq h hfits
  rw [if_neg hdims] at hntiles
  have hshape := regionShape_prod_le hranges
  have hshapeNil : regionShape ranges ≠ [] := by
    rw [regionShape, Ne, List.map_eq_nil_iff]
    rintro rfl
    exact hdims (List.forall₂_nil_left_iff.mp hranges)
  have hcount := shapeProduct_of_le (fun _ => le_trans hshape hmax)
  rw [if_neg hshapeNil] at hcount
  refine ⟨⟨ranges, regionShape ranges, listedTiles ranges dims tiles⟩, (counts dims tiles).prod,
    (regionShape ranges).prod, ?_, ?_, hcount, listedTiles_nodup hfilled,
    fun tile => mem_listedTiles hfilled, ?_, ?_⟩
  · exact select_eq hfilled hdims hregion (le_trans (counts_prod h).2 hmax)
  · rw [hgeometry, hntiles]
  · rintro threads limit out plane hlimit hout hok
    have hsteps := decodeInto_whole h hdims hmax hgeometry convert hpos hlimit hout hok
    obtain ⟨-, hdone⟩ := decodeSteps_decoded h hdims hmax hgeometry convert hout hsteps
    refine sectionWrites_perm hfilled hdims hmax hgeometry (fun tile htile => ?_)
    obtain ⟨values, hvalues⟩ := hdone tile htile
    exact (decodeTile_ok hvalues.decode).1
  · rintro threads limit out plane hlimit hout hok threads' limit' out' hlimit' hout'
    have hsteps := decodeInto_whole h hdims hmax hgeometry convert hpos hlimit hout hok
    obtain ⟨-, hdone⟩ := decodeSteps_decoded h hdims hmax hgeometry convert hout hsteps
    have hrows : ∀ tile ∈ listedTiles ranges dims tiles,
        ∃ decoded, plan.decodeTile ⟨tile, tile⟩ = .ok decoded := by
      intro tile htile
      obtain ⟨values, hvalues⟩ := hdone tile ((mem_listedTiles hfilled).mp htile).1
      exact ⟨_, hvalues.decode⟩
    obtain ⟨partPlan, hpart, hpartGeometry, hsample, hrow⟩ :=
      ofRows_eq hrows
    obtain ⟨cut, hcut, hlength, hcells⟩ := decodeSection_cells hfilled hdims hmax
      (hpartGeometry.trans hgeometry) convert hpos hdone hsample hrow hlimit' hout'
    refine ⟨partPlan, cut, hpart, ?_, hlength, fun cs hin => ?_⟩
    · have hnonempty : ¬out'.isEmpty := by
        rw [List.isEmpty_iff_length_eq_zero, hout']
        exact hsome.ne'
      rw [ImageDecodePlan.decodeInto, if_neg hnonempty, hcut]
    · obtain ⟨hlt, hcell⟩ := sectionCell_relative dims hin
      rw [hcells _ hlt, hcell]

theorem section_decodes_as_crop_three_axes :
    indexPlan.decodeInto 1 5 none (List.replicate 60 (0 : ℤ)) id =
        .ok ((List.range 60).map Int.ofNat) ∧
      ∃ part ntiles count, SectionDecodes indexPlan [5, 4, 3] [2, 3, 2] 60
        [⟨1, 4⟩, ⟨2, 4⟩, ⟨0, 2⟩] (id : ℤ → ℤ) part ntiles count :=
  ⟨by decide +kernel, section_decodes_as_crop id rfl (by decide) (by decide +kernel)
    (by decide +kernel) (by decide +kernel)⟩

end FitsWell
