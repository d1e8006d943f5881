import FitsWell.Compression.BandDecode
import FitsWell.Compression.SectionTiles

/-!
# Scattering a tile into a section

The runs of a tile that a section takes are the cells the two share, each at its place in
the section and in the tile.
-/

namespace FitsWell

open MixedRadix Tiling

/-! ## Places in a region -/

/-- Coordinates relative to the start of a region. -/
def relative (ranges : List AxisRange) (cs : List ℕ) : List ℕ :=
  List.zipWith (fun range c => c - range.start) ranges cs

@[simp] theorem relative_cons (range : AxisRange) (ranges : List AxisRange) (c : ℕ)
    (cs : List ℕ) : relative (range :: ranges) (c :: cs) =
      (c - range.start) :: relative ranges cs := rfl

/-- Coordinates inside a region are a place in it. -/
theorem relative_below {ranges : List AxisRange} {cs : List ℕ} (h : InSection ranges cs) :
    Below (relative ranges cs) (regionShape ranges) ∧
      shift (starts ranges) (relative ranges cs) = cs := by
  induction h with
  | nil => exact ⟨.nil, rfl⟩
  | @cons range c ranges cs hc _ ih =>
    obtain ⟨hbelow, hshift⟩ := ih
    rw [relative_cons, regionShape_cons, starts_cons, shift_cons, hshift]
    exact ⟨.cons (by omega) hbelow, congrArg (· :: cs) (by omega)⟩

/-- A place in a region is coordinates inside it. -/
theorem shift_starts {ranges : List AxisRange} {ls : List ℕ}
    (h : Below ls (regionShape ranges)) :
    InSection ranges (shift (starts ranges) ls) ∧
      relative ranges (shift (starts ranges) ls) = ls := by
  induction ranges generalizing ls with
  | nil =>
    rcases h with _ | _
    exact ⟨.nil, rfl⟩
  | cons range ranges ih =>
    rcases h with _ | @⟨l, _, ls, _, hl, hls⟩
    obtain ⟨hin, hrelative⟩ := ih hls
    dsimp only at hl
    rw [starts_cons, shift_cons, relative_cons, hrelative, Nat.add_sub_cancel_left]
    exact ⟨.cons (by omega) hin, rfl⟩

/-- Coordinates inside a region are inside the image. -/
theorem InSection.below {ranges : List AxisRange} {dims cs : List ℕ} (h : InSection ranges cs)
    (hregion : Region ranges dims) : Below cs dims := by
  induction hregion generalizing cs with
  | nil =>
    rcases h with _ | _
    exact .nil
  | cons hrange _ ih =>
    rcases h with _ | ⟨hc, hcs⟩
    exact .cons (by omega) (ih hcs)

/-- A region is no larger than the image. -/
theorem regionShape_prod_le {ranges : List AxisRange} {dims : List ℕ}
    (hregion : Region ranges dims) : (regionShape ranges).prod ≤ dims.prod := by
  induction hregion with
  | nil => exact le_rfl
  | cons hrange _ ih =>
    rw [regionShape_cons, List.prod_cons, List.prod_cons]
    exact Nat.mul_le_mul (by omega) ih

/-- The cell of the image at place `q` of a section. -/
def sectionCell (ranges : List AxisRange) (dims : List ℕ) (q : ℕ) : ℕ :=
  value dims (shift (starts ranges) (digits (regionShape ranges) q))

/-! ## A row's place in the section -/

/-- Where a row of a tile goes: to its coordinates' place, where the section has them. -/
theorem sectionBase_eq (row base stride : ℕ) {ranges : List AxisRange} {ds os es : List ℕ}
    (hregion : Region ranges ds) (hinside : Inside ds os es) (hpos : ∀ e ∈ es, 0 < e)
    (hwords : ∀ d ∈ ds, d ≤ usizeMax) (hbase : base < stride)
    (hshape : ∀ l ∈ regionShape ranges, 0 < l)
    (hmax : stride * (regionShape ranges).prod ≤ usizeMax) :
    ∃ place, sectionBase es os ranges (regionShape ranges) row base stride = .ok place ∧
      (InSection ranges (shift os (digits es row)) → place = some (base + stride *
        value (regionShape ranges) (relative ranges (shift os (digits es row))))) ∧
      (¬InSection ranges (shift os (digits es row)) → place = none) := by
  induction ranges generalizing ds os es row base stride with
  | nil =>
    rcases hregion with _ | _
    obtain rfl := List.eq_nil_of_length_eq_zero hinside.origin
    obtain rfl := List.eq_nil_of_length_eq_zero hinside.extent
    exact ⟨some base, rfl, fun _ => rfl, fun h => absurd .nil h⟩
  | cons range ranges ih =>
    rcases hregion with _ | @⟨_, d, _, ds, hrange, hregion⟩
    obtain ⟨o, os, rfl⟩ := List.exists_cons_of_length_eq_add_one hinside.origin
    obtain ⟨e, es, rfl⟩ := List.exists_cons_of_length_eq_add_one hinside.extent
    have he : 0 < e := hpos e List.mem_cons_self
    have hd := hwords d List.mem_cons_self
    have hfit := hinside.head
    have hplace := Nat.mod_lt row he
    have hlength : 0 < range.stop - range.start := hshape _ List.mem_cons_self
    have hrest : ∀ l ∈ regionShape ranges, 0 < l :=
      fun l hl => hshape l (List.mem_cons_of_mem _ hl)
    have hprod := List.prod_pos_iff_forall_pos_nat.mpr hrest
    rw [regionShape_cons, List.prod_cons, ← Nat.mul_assoc] at hmax
    have hnext : stride * (range.stop - range.start) ≤ usizeMax :=
      le_trans (Nat.le_mul_of_pos_right _ hprod) hmax
    rw [regionShape_cons, sectionBase, remUsize_of_pos he, Loops.bind_ok rfl, divUsize_of_pos he,
      Loops.bind_ok rfl, addUsize_of_le (by omega), Loops.bind_ok rfl, digits_cons, shift_cons]
    by_cases hin : range.start ≤ o + row % e ∧ o + row % e < range.stop
    · have hoffset : (o + row % e - range.start) * stride + stride ≤
          stride * (range.stop - range.start) := by
        calc (o + row % e - range.start) * stride + stride =
              stride * (o + row % e - range.start + 1) := by ring
          _ ≤ stride * (range.stop - range.start) := Nat.mul_le_mul_left _ (by omega)
      have hnextBase : base + (o + row % e - range.start) * stride <
          stride * (range.stop - range.start) := by omega
      obtain ⟨place, hok, hsome, hnone⟩ := ih (row / e) _ _ hregion hinside.tail
        (fun x hx => hpos x (List.mem_cons_of_mem _ hx))
        (fun x hx => hwords x (List.mem_cons_of_mem _ hx)) hnextBase hrest hmax
      refine ⟨place, ?_, ?_, ?_⟩
      · rw [if_pos hin, mulUsize_of_le (by omega), Loops.bind_ok rfl, addUsize_of_le (by omega),
          Loops.bind_ok rfl, mulUsize_of_le hnext, Loops.bind_ok rfl, hok]
      · rintro (_ | ⟨-, htail⟩)
        rw [hsome htail, relative_cons, value_cons]
        congr 1
        ring
      · intro hout
        exact hnone (fun htail => hout (.cons hin htail))
    · refine ⟨none, by rw [if_neg hin], ?_, fun _ => rfl⟩
      rintro (_ | ⟨hhead, -⟩)
      exact absurd hhead hin

/-! ## The run of a row -/

/-- The cell at a place of a section, along the first axis and the others. -/
theorem sectionCell_row {r : AxisRange} {d x m : ℕ} (rs : List AxisRange) (ds : List ℕ)
    (hx : x < r.stop - r.start) :
    sectionCell (r :: rs) (d :: ds) ((r.stop - r.start) * m + x) =
      r.start + x + d * value ds (shift (starts rs) (digits (regionShape rs) m)) := by
  have hpos : 0 < r.stop - r.start := by omega
  rw [sectionCell, regionShape_cons, starts_cons, digits_cons, shift_cons, value_cons,
    Nat.mul_add_mod, Nat.mod_eq_of_lt hx, Nat.mul_add_div hpos, Nat.div_eq_of_lt hx,
    Nat.add_zero]

/-- Two numbers in mixed radix are equal when their parts are. -/
theorem add_mul_inj {a b d v w : ℕ} (ha : a < d) (hb : b < d) :
    a + d * v = b + d * w ↔ a = b ∧ v = w := by
  constructor
  · intro h
    have hd : 0 < d := by omega
    have hmod := congrArg (· % d) h
    have hdiv := congrArg (· / d) h
    simp only [Nat.add_mul_mod_self_left, Nat.mod_eq_of_lt ha, Nat.mod_eq_of_lt hb] at hmod
    simp only [Nat.add_mul_div_left _ _ hd, Nat.div_eq_of_lt ha, Nat.div_eq_of_lt hb,
      Nat.zero_add] at hdiv
    exact ⟨hmod, hdiv⟩
  · rintro ⟨rfl, rfl⟩
    rfl

variable {r : AxisRange} {rs : List AxisRange} {d t : ℕ} {ds ts : List ℕ}

/-- A tile and a section share a cell, at place `q` of the section and `k` of the tile. -/
def Shared (ranges : List AxisRange) (dims tiles : List ℕ) (tile q k : ℕ) : Prop :=
  q < (regionShape ranges).prod ∧ k < (extentsOf dims tiles tile).prod ∧
    sectionCell ranges dims q = cell dims tiles tile k

/-- A tile and a section share a cell in row `row` of the tile. -/
def SharedInRow (ranges : List AxisRange) (dims tiles : List ℕ) (tile row q k : ℕ) : Prop :=
  Shared ranges dims tiles tile q k ∧ k / (extentsOf dims tiles tile).headD 1 = row

/-- A place of a section is one place of a tile at most. -/
theorem Shared.unique {ranges : List AxisRange} {dims tiles : List ℕ} {tile q k k' : ℕ}
    (h : Tiles dims tiles) (htile : tile < (counts dims tiles).prod)
    (hk : Shared ranges dims tiles tile q k) (hk' : Shared ranges dims tiles tile q k') :
    k = k' :=
  (cell_inj h htile hk.2.1 htile hk'.2.1 (hk.2.2.symm.trans hk'.2.2)).2

/-- A row of a tile shares with a section what its coordinates along the higher axes and
the first one do. -/
theorem sharedInRow_iff (h : Filled (r :: rs) (d :: ds) (t :: ts)) {tile row q k : ℕ}
    (htile : tile < (counts (d :: ds) (t :: ts)).prod)
    (hrow : row < (extentsOf ds ts (tile / tilesAlong d t)).prod) :
    SharedInRow (r :: rs) (d :: ds) (t :: ts) tile row q k ↔
      InSection rs (shift (originsOf ds ts (tile / tilesAlong d t))
        (digits (extentsOf ds ts (tile / tilesAlong d t)) row)) ∧
      ∃ x x', x < min t (d - tile % tilesAlong d t * t) ∧ x' < r.stop - r.start ∧
        r.start + x' = tile % tilesAlong d t * t + x ∧
        q = (r.stop - r.start) * value (regionShape rs) (relative rs
          (shift (originsOf ds ts (tile / tilesAlong d t))
            (digits (extentsOf ds ts (tile / tilesAlong d t)) row))) + x' ∧
        k = row * min t (d - tile % tilesAlong d t * t) + x := by
  obtain ⟨hinside, hextents⟩ := inside_tile h.tiles htile
  have he : 0 < min t (d - tile % tilesAlong d t * t) := hextents _ List.mem_cons_self
  have hfit : tile % tilesAlong d t * t + min t (d - tile % tilesAlong d t * t) ≤ d :=
    hinside.head
  have hr : r.start < r.stop := h.filled r List.mem_cons_self
  have hstop : r.stop ≤ d := (List.forall₂_cons.mp h.region).1.2
  have hregion : Region rs ds := (List.forall₂_cons.mp h.region).2
  have hhigh : Below (shift (originsOf ds ts (tile / tilesAlong d t))
      (digits (extentsOf ds ts (tile / tilesAlong d t)) row)) ds :=
    Inside.below hinside.tail (digits_below hrow)
  have hcellRow : ∀ x < min t (d - tile % tilesAlong d t * t), _ :=
    fun x hx => cell_row ds ts row (t := tile) hx
  simp only [SharedInRow, Shared, extentsOf_cons, List.headD_cons, regionShape_cons,
    List.prod_cons]
  generalize hhs : shift (originsOf ds ts (tile / tilesAlong d t))
    (digits (extentsOf ds ts (tile / tilesAlong d t)) row) = hs at *
  generalize ho : tile % tilesAlong d t * t = o at *
  generalize hex : min t (d - o) = e at *
  constructor
  · rintro ⟨⟨hq, hk, hcell⟩, hkrow⟩
    have hx := Nat.mod_lt k he
    have hx' := Nat.mod_lt q (show 0 < r.stop - r.start by omega)
    have hksplit := Nat.div_add_mod k e
    have hqsplit := Nat.div_add_mod q (r.stop - r.start)
    have hm := Nat.div_lt_of_lt_mul hq
    have hls := digits_below hm
    obtain ⟨hin, hrelative⟩ := shift_starts hls
    rw [hkrow, Nat.mul_comm] at hksplit
    rw [← hqsplit, ← hksplit, sectionCell_row rs ds hx', hcellRow _ hx,
      add_mul_inj (by omega) (by omega)] at hcell
    obtain ⟨hfirst, hvalue⟩ := hcell
    have hshift := value_inj (hin.below hregion) hhigh hvalue
    rw [hshift] at hin hrelative
    refine ⟨hin, k % e, q % (r.stop - r.start), hx, hx', hfirst, ?_, hksplit.symm⟩
    rw [hrelative, value_digits hm, hqsplit]
  · rintro ⟨hin, x, x', hx, hx', hfirst, rfl, rfl⟩
    obtain ⟨hbelow, hshift⟩ := relative_below hin
    have hm := value_lt hbelow
    refine ⟨⟨?_, ?_, ?_⟩, ?_⟩
    · calc (r.stop - r.start) * value (regionShape rs) (relative rs hs) + x' <
            (r.stop - r.start) * (value (regionShape rs) (relative rs hs) + 1) := by
            rw [Nat.mul_succ]
            omega
        _ ≤ (r.stop - r.start) * (regionShape rs).prod := Nat.mul_le_mul_left _ hm
    · calc row * e + x < e * (row + 1) := by
            rw [Nat.mul_succ, Nat.mul_comm]
            omega
        _ ≤ e * (extentsOf ds ts (tile / tilesAlong d t)).prod := Nat.mul_le_mul_left _ hrow
    · rw [sectionCell_row rs ds hx', digits_value hbelow, hshift, hcellRow x hx, hfirst]
    · rw [Nat.mul_comm, Nat.mul_add_div he, Nat.div_eq_of_lt hx, Nat.add_zero]

/-- A shared place lies in a row of the tile. -/
theorem Shared.row_lt {tile q k : ℕ} (h : Shared (r :: rs) (d :: ds) (t :: ts) tile q k) :
    k / min t (d - tile % tilesAlong d t * t) <
      (extentsOf ds ts (tile / tilesAlong d t)).prod := by
  have hk := h.2.1
  rw [extentsOf_cons, List.prod_cons] at hk
  exact Nat.div_lt_of_lt_mul hk

/-- A tile that shares a place with a section shares part of the first axis with it. -/
theorem shared_width {tile q k : ℕ} (h : Filled (r :: rs) (d :: ds) (t :: ts))
    (htile : tile < (counts (d :: ds) (t :: ts)).prod)
    (hqk : Shared (r :: rs) (d :: ds) (t :: ts) tile q k) :
    max (tile % tilesAlong d t * t) r.start <
      min (tile % tilesAlong d t * t + min t (d - tile % tilesAlong d t * t)) r.stop := by
  obtain ⟨-, x, x', hx, hx', hfirst, -⟩ := (sharedInRow_iff h htile hqk.row_lt).mp ⟨hqk, rfl⟩
  omega

/-- The cells a run copies: a place in the section and one in the tile. -/
def SectionRun.Copies (run : SectionRun) (q k : ℕ) : Prop :=
  ∃ i < run.width, q = run.destination + i ∧ k = run.source + i

/-- The part of the first axis that a tile and a section share. -/
theorem sectionWidth_eq (h : Filled (r :: rs) (d :: ds) (t :: ts)) {tile : ℕ}
    (htile : tile < (counts (d :: ds) (t :: ts)).prod) :
    (tileAt (d :: ds) (t :: ts) tile).sectionWidth (r :: rs) =
      .ok (max (tile % tilesAlong d t * t) r.start,
        min (tile % tilesAlong d t * t + min t (d - tile % tilesAlong d t * t)) r.stop) := by
  have hfit : tile % tilesAlong d t * t + min t (d - tile % tilesAlong d t * t) ≤ d :=
    (inside_tile h.tiles htile).1.head
  have hd := h.words d List.mem_cons_self
  simp only [tileAt, originsOf_cons, extentsOf_cons]
  rw [TileScratch.sectionWidth, load_of_getElem? List.getElem?_cons_zero, Loops.bind_ok rfl,
    load_of_getElem? List.getElem?_cons_zero, Loops.bind_ok rfl,
    load_of_getElem? List.getElem?_cons_zero, Loops.bind_ok rfl, addUsize_of_le (by omega)]
  rfl

/-- The run of a row copies the places the tile and the section share in it. -/
theorem sectionRun_eq (h : Filled (r :: rs) (d :: ds) (t :: ts))
    (hprod : (d :: ds).prod ≤ usizeMax) {tile row : ℕ}
    (htile : tile < (counts (d :: ds) (t :: ts)).prod)
    (hrow : row < (extentsOf ds ts (tile / tilesAlong d t)).prod) {xStart xEnd : ℕ}
    (hstart : xStart = max (tile % tilesAlong d t * t) r.start)
    (hend : xEnd = min (tile % tilesAlong d t * t + min t (d - tile % tilesAlong d t * t)) r.stop)
    (hx : xStart < xEnd) :
    ∃ run, (tileAt (d :: ds) (t :: ts) tile).sectionRun (r :: rs) (regionShape (r :: rs))
        xStart xEnd row = .ok run ∧ (∀ taken ∈ run, 0 < taken.width) ∧
      ∀ q k, SharedInRow (r :: rs) (d :: ds) (t :: ts) tile row q k ↔
        ∃ taken ∈ run, taken.Copies q k := by
  obtain ⟨hinside, hextents⟩ := inside_tile h.tiles htile
  have htail : Inside ds (originsOf ds ts (tile / tilesAlong d t))
      (extentsOf ds ts (tile / tilesAlong d t)) := hinside.tail
  have hfit : tile % tilesAlong d t * t + min t (d - tile % tilesAlong d t * t) ≤ d :=
    hinside.head
  have hr : r.start < r.stop := h.filled r List.mem_cons_self
  obtain ⟨⟨-, hstop⟩, hregion⟩ := List.forall₂_cons.mp h.region
  have hshape := regionShape_prod_le h.region
  have hlengths : ∀ l ∈ regionShape rs, 0 < l :=
    regionShape_pos (fun range hrange => h.filled range (List.mem_cons_of_mem r hrange))
  rw [regionShape_cons, List.prod_cons] at hshape
  obtain ⟨place, hplace, hsome, hnone⟩ := sectionBase_eq row 0 (r.stop - r.start) hregion htail
    (fun e he => hextents e (List.mem_cons_of_mem _ he))
    (fun e he => h.words e (List.mem_cons_of_mem _ he)) (by omega) hlengths (by omega)
  simp only [sharedInRow_iff h htile hrow]
  simp only [tileAt, originsOf_cons, extentsOf_cons, List.headD_cons]
  rw [TileScratch.sectionRun, load_of_getElem? List.getElem?_cons_zero, Loops.bind_ok rfl,
    load_of_getElem? List.getElem?_cons_zero, Loops.bind_ok rfl, regionShape_cons,
    load_of_getElem? List.getElem?_cons_zero, Loops.bind_ok rfl]
  simp only [List.tail_cons]
  rw [hplace, Loops.bind_ok rfl]
  by_cases hin : InSection rs (shift (originsOf ds ts (tile / tilesAlong d t))
      (digits (extentsOf ds ts (tile / tilesAlong d t)) row))
  · rw [hsome hin]
    have hm := value_lt (relative_below hin).1
    generalize value (regionShape rs) (relative rs (shift
      (originsOf ds ts (tile / tilesAlong d t))
      (digits (extentsOf ds ts (tile / tilesAlong d t)) row))) = m at *
    have hsize := hinside.prod_le
    rw [extentsOf_cons, List.prod_cons] at hsize
    generalize tile % tilesAlong d t * t = o at *
    generalize min t (d - o) = e at *
    have hsource : row * e + e ≤ e * (extentsOf ds ts (tile / tilesAlong d t)).prod := by
      rw [Nat.mul_comm, ← Nat.mul_succ]
      exact Nat.mul_le_mul_left e hrow
    have hdestination : (r.stop - r.start) * m + (r.stop - r.start) ≤
        (r.stop - r.start) * (regionShape rs).prod := by
      rw [← Nat.mul_succ]
      exact Nat.mul_le_mul_left _ hm
    dsimp only
    rw [subUsize_of_le (by omega), Loops.bind_ok rfl, mulUsize_of_le (by omega),
      Loops.bind_ok rfl, addUsize_of_le (by omega), Loops.bind_ok rfl, subUsize_of_le (by omega),
      Loops.bind_ok rfl, addUsize_of_le (by omega), Loops.bind_ok rfl]
    refine ⟨_, rfl, ?_, fun q k => ?_⟩
    · intro taken htaken
      rw [← Option.mem_some_iff.mp htaken]
      exact Nat.sub_pos_of_lt hx
    · simp only [hin, true_and, Option.mem_some_iff, exists_eq_left', SectionRun.Copies]
      constructor
      · rintro ⟨x, x', hxe, hxr, hfirst, rfl, rfl⟩
        refine ⟨o + x - xStart, by omega, by omega, by omega⟩
      · rintro ⟨i, hi, rfl, rfl⟩
        refine ⟨xStart + i - o, xStart + i - r.start, by omega, by omega, by omega, by omega,
          by omega⟩
  · rw [hnone hin]
    refine ⟨none, rfl, by simp, fun q k => ?_⟩
    simp [hin]

/-! ## A tile's part of the section -/

variable {σ δ : Type}

/-- Copying a row's run writes the places shared in it, and no others. -/
theorem copyRun_shared {ranges : List AxisRange} {dims tiles : List ℕ} {tile row : ℕ}
    {run : Option SectionRun} (hwidth : ∀ taken ∈ run, 0 < taken.width)
    (hrun : ∀ q k, SharedInRow ranges dims tiles tile row q k ↔ ∃ taken ∈ run, taken.Copies q k)
    {values out : List δ} (hvalues : values.length = (extentsOf dims tiles tile).prod)
    (hout : out.length = (regionShape ranges).prod) :
    ∃ out', copyRun values out run = .ok out' ∧ out'.length = out.length ∧
      (∀ q k, SharedInRow ranges dims tiles tile row q k → out'[q]? = values[k]?) ∧
      ∀ q, (∀ k, ¬SharedInRow ranges dims tiles tile row q k) → out'[q]? = out[q]? := by
  cases run with
  | none =>
    refine ⟨out, rfl, rfl, fun q k hq => ?_, fun q _ => rfl⟩
    obtain ⟨taken, htaken, -⟩ := (hrun q k).mp hq
    cases htaken
  | some taken =>
    have hcopies : ∀ i < taken.width,
        SharedInRow ranges dims tiles tile row (taken.destination + i) (taken.source + i) :=
      fun i hi => (hrun _ _).mpr ⟨taken, rfl, i, hi, rfl, rfl⟩
    have hpos := hwidth taken rfl
    obtain ⟨⟨hq, hk, -⟩, -⟩ := hcopies (taken.width - 1) (by omega)
    have hdst : taken.destination + taken.width ≤ out.length := by omega
    have hsrc : taken.source + taken.width ≤ values.length := by omega
    obtain ⟨out', hok, hlength, hget⟩ := copySlice_of_le hdst hsrc
    refine ⟨out', hok, hlength, fun q k hqk => ?_, fun q hq => ?_⟩
    · obtain ⟨_, htaken, i, hi, rfl, rfl⟩ := (hrun q k).mp hqk
      obtain rfl := Option.mem_some_iff.mp htaken
      rw [hget, if_pos (by omega), Nat.add_sub_cancel_left]
    · rw [hget, if_neg]
      rintro ⟨hlow, hhigh⟩
      obtain ⟨i, rfl⟩ := Nat.exists_eq_add_of_le hlow
      exact hq _ (hcopies i (by omega))

/-- A tile's scatter into a section writes the places the two share, and no others. -/
theorem scatterSectionInto_eq (h : Filled (r :: rs) (d :: ds) (t :: ts))
    (hprod : (d :: ds).prod ≤ usizeMax) {tile : ℕ}
    (htile : tile < (counts (d :: ds) (t :: ts)).prod) {values : List σ} {out : List δ}
    (convert : σ → δ)
    (hvalues : values.length = (extentsOf (d :: ds) (t :: ts) tile).prod)
    (hout : out.length = (regionShape (r :: rs)).prod) :
    ∃ out', (tileAt (d :: ds) (t :: ts) tile).scatterSectionInto (r :: rs)
        (regionShape (r :: rs)) values out convert = .ok out' ∧ out'.length = out.length ∧
      (∀ q k, Shared (r :: rs) (d :: ds) (t :: ts) tile q k →
        out'[q]? = (values.map convert)[k]?) ∧
      ∀ q, (∀ k, ¬Shared (r :: rs) (d :: ds) (t :: ts) tile q k) → out'[q]? = out[q]? := by
  have hvalues' : (values.map convert).length = (extentsOf (d :: ds) (t :: ts) tile).prod := by
    rw [List.length_map, hvalues]
  rw [TileScratch.scatterSectionInto, sectionWidth_eq h htile, Loops.bind_ok rfl]
  dsimp only
  by_cases hx : max (tile % tilesAlong d t * t) r.start <
      min (tile % tilesAlong d t * t + min t (d - tile % tilesAlong d t * t)) r.stop
  · rw [if_neg (not_le.mpr hx)]
    have hrows : (tileAt (d :: ds) (t :: ts) tile).rowBases.length =
        (extentsOf ds ts (tile / tilesAlong d t)).prod := by
      simp only [tileAt, List.length_map, List.length_range, extentsOf_cons, List.tail_cons]
    have hloop : ∃ out', (List.range (extentsOf ds ts (tile / tilesAlong d t)).prod).foldlM
        (fun out row => do
          let run ← (tileAt (d :: ds) (t :: ts) tile).sectionRun (r :: rs)
            (regionShape (r :: rs)) (max (tile % tilesAlong d t * t) r.start)
            (min (tile % tilesAlong d t * t + min t (d - tile % tilesAlong d t * t)) r.stop) row
          copyRun (values.map convert) out run) out = .ok out' ∧ out'.length = out.length ∧
        (∀ q k, Shared (r :: rs) (d :: ds) (t :: ts) tile q k →
          k / min t (d - tile % tilesAlong d t * t) <
            (extentsOf ds ts (tile / tilesAlong d t)).prod →
          out'[q]? = (values.map convert)[k]?) ∧
        ∀ q, (∀ k, ¬Shared (r :: rs) (d :: ds) (t :: ts) tile q k) → out'[q]? = out[q]? := by
      refine Loops.range_total (P := fun n out' => out'.length = out.length ∧
        (∀ q k, Shared (r :: rs) (d :: ds) (t :: ts) tile q k →
          k / min t (d - tile % tilesAlong d t * t) < n →
          out'[q]? = (values.map convert)[k]?) ∧
        ∀ q, (∀ k, ¬Shared (r :: rs) (d :: ds) (t :: ts) tile q k) → out'[q]? = out[q]?)
        ⟨rfl, fun _ _ _ hlt => absurd hlt (Nat.not_lt_zero _), fun _ _ => rfl⟩ ?_
      rintro row hrow before ⟨hlength, hdone, hkept⟩
      obtain ⟨run, hok, hwidth, hrun⟩ := sectionRun_eq h hprod htile hrow rfl rfl hx
      obtain ⟨after, hcopy, hafter, hwritten, hrest⟩ := copyRun_shared hwidth hrun
        (hvalues' : (values.map convert).length = _) (hlength.trans hout)
      refine ⟨after, by rw [hok, Loops.bind_ok rfl, hcopy], hafter.trans hlength, ?_, ?_⟩
      · intro q k hqk hlt
        rcases Nat.lt_succ_iff_lt_or_eq.mp hlt with hbefore | hthis
        · rw [hrest q, hdone q k hqk hbefore]
          rintro k' ⟨hqk', hrow'⟩
          obtain rfl := hqk.unique h.tiles htile hqk'
          exact absurd hrow' hbefore.ne
        · exact hwritten q k ⟨hqk, hthis⟩
      · intro q hq
        rw [hrest q (fun k hqk => hq k hqk.1), hkept q hq]
    obtain ⟨out', hok, hlength, hwritten, hkept⟩ := hloop
    exact ⟨out', by rw [hrows]; exact hok, hlength,
      fun q k hqk => hwritten q k hqk hqk.row_lt, hkept⟩
  · rw [if_pos (not_lt.mp hx)]
    exact ⟨out, rfl, rfl, fun q k hqk => absurd (shared_width h htile hqk) hx, fun q _ => rfl⟩

theorem mem_runPlaces {run : Option SectionRun} {q : ℕ} :
    q ∈ runPlaces run ↔ ∃ k, ∃ taken ∈ run, taken.Copies q k := by
  cases run with
  | none => simp [runPlaces]
  | some taken =>
    rw [runPlaces, List.mem_range'_1]
    constructor
    · rintro ⟨hlow, hhigh⟩
      obtain ⟨i, rfl⟩ := Nat.exists_eq_add_of_le hlow
      exact ⟨taken.source + i, taken, rfl, i, by omega, rfl, rfl⟩
    · rintro ⟨k, _, htaken, i, hi, rfl, -⟩
      obtain rfl := Option.mem_some_iff.mp htaken
      omega

theorem runPlaces_nodup (run : Option SectionRun) : (runPlaces run).Nodup := by
  cases run with
  | none => exact List.nodup_nil
  | some taken => exact List.nodup_range'

/-- A tile's scatter writes each place it shares with the section once, and no others. -/
theorem sectionWrites_eq (h : Filled (r :: rs) (d :: ds) (t :: ts))
    (hprod : (d :: ds).prod ≤ usizeMax) {tile : ℕ}
    (htile : tile < (counts (d :: ds) (t :: ts)).prod) :
    ∃ writes, (tileAt (d :: ds) (t :: ts) tile).sectionWrites (r :: rs)
        (regionShape (r :: rs)) = .ok writes ∧ writes.Nodup ∧
      ∀ q, q ∈ writes ↔ ∃ k, Shared (r :: rs) (d :: ds) (t :: ts) tile q k := by
  rw [TileScratch.sectionWrites, sectionWidth_eq h htile, Loops.bind_ok rfl]
  dsimp only
  by_cases hx : max (tile % tilesAlong d t * t) r.start <
      min (tile % tilesAlong d t * t + min t (d - tile % tilesAlong d t * t)) r.stop
  · rw [if_neg (not_le.mpr hx)]
    have hrows : (tileAt (d :: ds) (t :: ts) tile).rowBases.length =
        (extentsOf ds ts (tile / tilesAlong d t)).prod := by
      simp only [tileAt, List.length_map, List.length_range, extentsOf_cons, List.tail_cons]
    have hloop : ∃ writes : List ℕ,
        (List.range (extentsOf ds ts (tile / tilesAlong d t)).prod).foldlM (fun written row => do
          let run ← (tileAt (d :: ds) (t :: ts) tile).sectionRun (r :: rs)
            (regionShape (r :: rs)) (max (tile % tilesAlong d t * t) r.start)
            (min (tile % tilesAlong d t * t + min t (d - tile % tilesAlong d t * t)) r.stop) row
          .ok (written ++ runPlaces run)) [] = .ok writes ∧ writes.Nodup ∧
        ∀ q, q ∈ writes ↔ ∃ k, Shared (r :: rs) (d :: ds) (t :: ts) tile q k ∧
          k / min t (d - tile % tilesAlong d t * t) <
            (extentsOf ds ts (tile / tilesAlong d t)).prod := by
      refine Loops.range_total (P := fun (n : ℕ) (writes : List ℕ) => writes.Nodup ∧
        ∀ q, q ∈ writes ↔ ∃ k, Shared (r :: rs) (d :: ds) (t :: ts) tile q k ∧
          k / min t (d - tile % tilesAlong d t * t) < n) ⟨List.nodup_nil, by simp⟩ ?_
      rintro row hrow before ⟨hnodup, hmem⟩
      obtain ⟨run, hok, -, hrun⟩ := sectionRun_eq h hprod htile hrow rfl rfl hx
      refine ⟨before ++ runPlaces run, by rw [hok]; rfl, ?_, fun q => ?_⟩
      · refine List.nodup_append.mpr ⟨hnodup, runPlaces_nodup run, fun q hq q' hq' => ?_⟩
        rintro rfl
        obtain ⟨k, hqk, hbefore⟩ := (hmem q).mp hq
        obtain ⟨k', hcopies⟩ := mem_runPlaces.mp hq'
        obtain ⟨hqk', hthis⟩ := (hrun q k').mpr hcopies
        obtain rfl := hqk.unique h.tiles htile hqk'
        exact absurd hthis hbefore.ne
      · rw [List.mem_append, hmem, mem_runPlaces]
        constructor
        · rintro (⟨k, hqk, hbefore⟩ | ⟨k, hcopies⟩)
          · exact ⟨k, hqk, Nat.lt_succ_of_lt hbefore⟩
          · obtain ⟨hqk, hthis⟩ := (hrun q k).mpr hcopies
            exact ⟨k, hqk, Nat.lt_succ_of_le hthis.le⟩
        · rintro ⟨k, hqk, hlt⟩
          rcases Nat.lt_succ_iff_lt_or_eq.mp hlt with hbefore | hthis
          · exact Or.inl ⟨k, hqk, hbefore⟩
          · exact Or.inr ⟨k, (hrun q k).mp ⟨hqk, hthis⟩⟩
    obtain ⟨writes, hok, hnodup, hmem⟩ := hloop
    refine ⟨writes, by rw [hrows]; exact hok, hnodup, fun q => (hmem q).trans ?_⟩
    constructor
    · rintro ⟨k, hqk, -⟩
      exact ⟨k, hqk⟩
    · rintro ⟨k, hqk⟩
      exact ⟨k, hqk, hqk.row_lt⟩
  · rw [if_pos (not_lt.mp hx)]
    refine ⟨[], rfl, List.nodup_nil, fun q => ?_⟩
    simp only [List.not_mem_nil, false_iff, not_exists]
    exact fun k hqk => hx (shared_width h htile hqk)

end FitsWell
