import FitsWell.Compression.Container
import FitsWell.Compression.SectionDecode

/-!
# Gathered tiles scatter back

A decode whose tiles give back the samples that an encoder gathered gives back the image. A decode
that converts each sample gives what the samples of a plain one convert to.
-/

namespace FitsWell

open MixedRadix Tiling

/-! ## Gathering -/

/-- The samples that a tile gathers are those at its pixels. -/
theorem gatherRows_pixels {α : Type} {values gathered : List α} {tile : TileScratch}
    (h : gatherRows values tile = .ok gathered) :
    gathered.map some = tile.pixels.map fun p => values[p]? := by
  obtain ⟨rows, hrows, heq⟩ := Loops.ok_of_bind h
  obtain rfl := Except.ok.inj heq
  clear h heq
  have hrow : ∀ (base : ℕ) (row : List α), subslice values base tile.rowLen = .ok row →
      row.map some = (List.range' base tile.rowLen).map fun p => values[p]? := by
    intro base row hok
    obtain ⟨hfits, rfl⟩ := subslice_eq_ok_iff.mp hok
    refine List.ext_getElem (by simp; omega) fun i hi hi' => ?_
    simp only [List.length_map, List.length_range'] at hi'
    have hlt : base + i < values.length := by omega
    simp [List.getElem?_eq_getElem hlt]
  unfold TileScratch.pixels
  generalize tile.rowBases = bases at hrows ⊢
  induction bases generalizing rows with
  | nil =>
    obtain rfl := Except.ok.inj hrows
    rfl
  | cons base bases ih =>
    rw [List.mapM_cons] at hrows
    obtain ⟨row, hfirst, hrows⟩ := Loops.ok_of_bind hrows
    obtain ⟨rest, hrest, hrows⟩ := Loops.ok_of_bind hrows
    obtain rfl := Except.ok.inj hrows
    rw [List.flatten_cons, List.map_append, List.flatMap_cons, List.map_append, hrow base row hfirst,
      ih rest hrest]

/-- A tile of the grid gathers, in order, the samples at its cells. -/
theorem gatherRows_cells {α : Type} {values gathered : List α} {dims tiles : List ℕ}
    (h : Tiles dims tiles) {tile : ℕ} (htile : tile < (counts dims tiles).prod)
    (hgather : gatherRows values (tileAt dims tiles tile) = .ok gathered) :
    gathered.length = (extentsOf dims tiles tile).prod ∧
    ∀ k < (extentsOf dims tiles tile).prod, gathered[k]? = values[cell dims tiles tile k]? := by
  have hall := gatherRows_pixels hgather
  rw [pixels_tileAt h htile, cells, List.map_map] at hall
  have hlength : gathered.length = (extentsOf dims tiles tile).prod := by
    simpa using congrArg List.length hall
  refine ⟨hlength, fun k hk => ?_⟩
  have hat := congrArg (·[k]?) hall
  simp only [List.getElem?_map, List.getElem?_range hk, Option.map_some, Function.comp_apply,
    List.getElem?_eq_getElem (hlength ▸ hk)] at hat
  rw [List.getElem?_eq_getElem (hlength ▸ hk)]
  exact Option.some.inj hat

/-! ## The image -/

section Whole

variable {ρ ω δ ο : Type} {plan : ImageDecodePlan ρ ω δ} {dims tiles : List ℕ}
  (h : Tiles dims tiles) (hdims : dims ≠ []) (hpos : ∀ d ∈ dims, 0 < d)
  (hprod : dims.prod ≤ usizeMax) (hgeometry : plan.geometry = grid dims tiles) (convert : δ → ο)
  {samples : List ο}

/-- Every tile decodes to the samples that it gathers from an image. -/
def DecodesTiles (plan : ImageDecodePlan ρ ω δ) (dims tiles : List ℕ) (convert : δ → ο)
    (samples : List ο) : Prop :=
  ∀ tile < (counts dims tiles).prod, ∃ values,
    plan.decodeTile ⟨tile, tile⟩ = .ok (tileAt dims tiles tile, values) ∧
      gatherRows samples (tileAt dims tiles tile) =
        .ok ((values.map plan.sample.narrow).map convert)

include h hdims hpos hprod hgeometry

omit hpos hprod hgeometry in
/-- Tiles that decode to the samples they gather scatter to the image. -/
theorem decodeSteps_samples (hsamples : samples.length = dims.prod)
    (htiles : DecodesTiles plan dims tiles convert samples) {out : List ο}
    (hout : out.length = dims.prod) :
    (List.range (counts dims tiles).prod).foldlM
      (plan.decodeStep wholeRows (plan.geometry.scatterWhole convert)) out = .ok samples := by
  have hrun : ∃ plane, (List.range (counts dims tiles).prod).foldlM
      (plan.decodeStep wholeRows (plan.geometry.scatterWhole convert)) out = .ok plane ∧
      plane.length = dims.prod ∧ ∀ tile < (counts dims tiles).prod,
        ∀ k < (extentsOf dims tiles tile).prod,
          plane[cell dims tiles tile k]? = samples[cell dims tiles tile k]? := by
    refine Loops.range_total (P := fun n (plane : List ο) => plane.length = dims.prod ∧ ∀ tile < n,
      ∀ k < (extentsOf dims tiles tile).prod,
        plane[cell dims tiles tile k]? = samples[cell dims tiles tile k]?)
      ⟨hout, fun _ hlt => absurd hlt (Nat.not_lt_zero _)⟩ ?_
    rintro n hn plane ⟨hplane, hdone⟩
    obtain ⟨values, hdecode, hgather⟩ := htiles n hn
    obtain ⟨hlength, hcells⟩ := gatherRows_cells h hn hgather
    rw [List.length_map] at hlength
    obtain ⟨after, hscatter, hafter, hwritten, hkept⟩ :=
      scatterRowsInto_cells h hdims hn convert hlength hplane
    refine ⟨after, ?_, hafter.trans hplane, fun tile htile k hk => ?_⟩
    · have hinto := (decodeTile_ok hdecode).1
      rw [ImageDecodePlan.decodeStep, wholeRows, Loops.bind_ok rfl, Loops.bind_ok hdecode,
        TileGeometry.scatterWhole, Loops.bind_ok hinto]
      exact hscatter
    · rcases Nat.lt_succ_iff_lt_or_eq.mp htile with hlt | rfl
      · rw [hkept _ fun k' hk' heq => hlt.ne' (cell_inj h hn hk' (hlt.trans hn) hk heq).1,
          hdone tile hlt k hk]
      · rw [hwritten k hk, hcells k hk]
  obtain ⟨plane, hok, hlength, hcells⟩ := hrun
  rw [hok]
  congr 1
  refine List.ext_getElem? fun p => ?_
  by_cases hp : p < dims.prod
  · obtain ⟨tile, htile, k, hk, rfl⟩ := exists_cell h hp
    exact hcells tile htile k hk
  · rw [List.getElem?_eq_none (by omega), List.getElem?_eq_none (by omega)]

/-- A decode is one pass over the tiles, in bands or in waves. -/
theorem decodeInto_eq_steps [Inhabited δ] {threads limit : ℕ} (hlimit : 0 < limit) {out : List ο}
    (hout : out.length = dims.prod) :
    plan.decodeInto threads limit none out convert =
      (List.range (counts dims tiles).prod).foldlM
        (plan.decodeStep wholeRows (plan.geometry.scatterWhole convert)) out := by
  have hnonempty : ¬out.isEmpty := by
    rw [List.isEmpty_iff_length_eq_zero, hout]
    exact (List.prod_pos_iff_forall_pos_nat.mpr hpos).ne'
  obtain rfl | ⟨ds, d, rfl⟩ := List.eq_nil_or_concat' dims
  · exact absurd rfl hdims
  obtain rfl | ⟨ts, t, rfl⟩ := List.eq_nil_or_concat' tiles
  · have := h.length
    simp at this
  rw [ImageDecodePlan.decodeInto, if_neg hnonempty, ImageDecodePlan.decodeImageInto, hgeometry,
    Loops.bind_ok (bands_eq h hpos hprod), Loops.bind_ok (ntiles_eq h fun _ => hprod), if_neg hdims]
  split
  · rw [← hgeometry]
    exact decodeImageWaves_eq h hprod hgeometry convert hpos hdims hlimit hout
  · rw [← hgeometry]
    exact decodeImageBands_eq h hprod hgeometry convert hpos hout

/-- A decode of tiles that give back the samples they gather gives back the image. -/
theorem decodeInto_samples [Inhabited δ] {threads limit : ℕ} (hlimit : 0 < limit)
    (hsamples : samples.length = dims.prod)
    (htiles : DecodesTiles plan dims tiles convert samples) {out : List ο}
    (hout : out.length = dims.prod) :
    plan.decodeInto threads limit none out convert = .ok samples :=
  (decodeInto_eq_steps h hdims hpos hprod hgeometry convert hlimit hout).trans
    (decodeSteps_samples h hdims convert hsamples htiles hout)

omit hpos in
/-- Passes over the tiles of two planes, one of the samples and one of what they convert to, fail
alike or end in planes of which the one converts to the other. -/
theorem decodeSteps_agree {stored : List δ} {out : List ο} (hstored : stored.length = dims.prod)
    (hout : out.length = dims.prod) :
    Agree (fun plane converted => plane.map convert = converted)
      ((List.range (counts dims tiles).prod).foldlM
        (plan.decodeStep wholeRows (plan.geometry.scatterWhole id)) stored)
      ((List.range (counts dims tiles).prod).foldlM
        (plan.decodeStep wholeRows (plan.geometry.scatterWhole convert)) out) := by
  have hrun := Agree.range (n := (counts dims tiles).prod)
    (f := plan.decodeStep wholeRows (plan.geometry.scatterWhole id))
    (g := plan.decodeStep wholeRows (plan.geometry.scatterWhole convert))
    (R := fun n (plane : List δ) (converted : List ο) => plane.length = dims.prod ∧
      converted.length = dims.prod ∧ ∀ tile < n, ∀ k < (extentsOf dims tiles tile).prod,
        (plane.map convert)[cell dims tiles tile k]? = converted[cell dims tiles tile k]?)
    ⟨hstored, hout, fun _ hlt => absurd hlt (Nat.not_lt_zero _)⟩ ?_
  · refine hrun.mono fun plane converted hplanes => List.ext_getElem? fun p => ?_
    obtain ⟨hplane, hconverted, hcells⟩ := hplanes
    by_cases hp : p < dims.prod
    · obtain ⟨tile, htile, k, hk, rfl⟩ := exists_cell h hp
      exact hcells tile htile k hk
    · rw [List.getElem?_eq_none (by rw [List.length_map]; omega), List.getElem?_eq_none (by omega)]
  rintro n hn plane converted ⟨hplane, hconverted, hcells⟩
  rw [ImageDecodePlan.decodeStep, ImageDecodePlan.decodeStep, wholeRows, Loops.bind_ok rfl,
    Loops.bind_ok rfl]
  refine Agree.bind (Agree.refl (plan.decodeTile ⟨n, n⟩) fun _ hdecode => hdecode) ?_
  rintro decoded _ ⟨rfl, hdecode⟩
  have hinto := (decodeTile_ok hdecode).1
  obtain ⟨hscratch, hlength, -⟩ := decodeTile_covers h hprod hgeometry hn rfl hdecode
  rw [cells, List.length_map, List.length_range] at hlength
  rw [hscratch] at hinto
  have hvalues := (List.length_map plan.sample.narrow).trans hlength
  obtain ⟨after, hafter, hafterLength, hwritten, hkept⟩ :=
    scatterRowsInto_cells h hdims hn id hvalues hplane
  obtain ⟨after', hafter', hafterLength', hwritten', hkept'⟩ :=
    scatterRowsInto_cells h hdims hn convert hvalues hconverted
  rw [TileGeometry.scatterWhole, TileGeometry.scatterWhole, Loops.bind_ok hinto, Loops.bind_ok hinto,
    hafter, hafter']
  refine .returns ⟨hafterLength.trans hplane, hafterLength'.trans hconverted,
    fun tile htile k hk => ?_⟩
  rcases Nat.lt_succ_iff_lt_or_eq.mp htile with hlt | rfl
  · have hother : ∀ k' < (extentsOf dims tiles n).prod,
        cell dims tiles n k' ≠ cell dims tiles tile k :=
      fun k' hk' heq => hlt.ne' (cell_inj h hn hk' (hlt.trans hn) hk heq).1
    rw [List.getElem?_map, hkept _ hother, hkept' _ hother, ← List.getElem?_map]
    exact hcells tile hlt k hk
  · rw [List.getElem?_map, hwritten k hk, hwritten' k hk, List.map_id]
    exact List.getElem?_map.symm

/-- A decode that converts each sample gives what the samples of a plain decode convert to, or fails
as it does. -/
theorem decodeInto_convert [Inhabited δ] {threads limit threads' limit' : ℕ} (hlimit : 0 < limit)
    (hlimit' : 0 < limit') {stored : List δ} {out : List ο} (hstored : stored.length = dims.prod)
    (hout : out.length = dims.prod) :
    plan.decodeInto threads' limit' none out convert =
      (plan.decodeInto threads limit none stored id >>= fun samples =>
        .ok (samples.map convert)) := by
  rw [decodeInto_eq_steps h hdims hpos hprod hgeometry convert hlimit' hout,
    decodeInto_eq_steps h hdims hpos hprod hgeometry id hlimit hstored]
  exact ((decodeSteps_agree h hdims hprod hgeometry convert hstored hout).map_eq
    fun _ _ heq => heq).symm

end Whole

end FitsWell
