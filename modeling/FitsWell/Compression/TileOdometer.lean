import FitsWell.Compression.TileGeometry
import FitsWell.Library.Tiling
import Mathlib.Algebra.BigOperators.Ring.List

/-!
# The rows of a tile

The rows the odometer emits for a tile are the tile's cells in the grid's numbering.
After the last row of a tile the odometer takes one more step, which passes the end of
the image before it carries: that index has to be a word too.
-/

namespace FitsWell

open MixedRadix Tiling

/-! ## The geometry -/

/-- The geometry of an image in closed form. -/
def grid (dims tiles : List ℕ) : TileGeometry where
  dims := dims
  tiles := tiles
  stride := if 0 ∈ dims then List.replicate dims.length 0 else weights 1 dims
  ntilesAxis := counts dims tiles
  maxTile := List.zipWith min dims tiles

theorem foldlM_checkedMul {dims : List ℕ} {acc count : ℕ}
    (h : dims.foldlM checkedMul acc = some count) (hacc : acc ≤ usizeMax) :
    count = acc * dims.prod ∧ acc * dims.prod ≤ usizeMax := by
  induction dims generalizing acc with
  | nil =>
    obtain rfl := Option.some.inj h
    simpa using hacc
  | cons d ds ih =>
    rw [List.foldlM_cons] at h
    obtain ⟨next, hnext, hrest⟩ := Option.bind_eq_some_iff.mp h
    unfold checkedMul at hnext
    split at hnext
    · rename_i hmax
      obtain rfl := Option.some.inj hnext
      rw [List.prod_cons, ← Nat.mul_assoc]
      exact ih hrest hmax
    · cases hnext

/-- An image's element count: its axes' product, save that no axes hold nothing. -/
theorem shapeProduct_eq_ok {dims : List ℕ} {total : ℕ} (h : shapeProduct dims = .ok total) :
    (dims ≠ [] → total = dims.prod) ∧ (dims = [] → total = 0) ∧
      (0 ∉ dims → dims.prod ≤ usizeMax) := by
  unfold shapeProduct at h
  split at h
  · rename_i hempty
    obtain rfl := Except.ok.inj h
    rcases hempty with rfl | hzero
    · exact ⟨fun hne => absurd rfl hne, fun _ => rfl, fun _ => by decide⟩
    · exact ⟨fun _ => (List.prod_eq_zero hzero).symm, fun _ => rfl, fun hne => absurd hzero hne⟩
  · rename_i hempty
    split at h
    · rename_i count hcount
      obtain rfl := Except.ok.inj h
      have hprod := foldlM_checkedMul hcount (by decide)
      rw [Nat.one_mul] at hprod
      exact ⟨fun _ => hprod.1, fun hnil => absurd (Or.inl hnil) hempty, fun _ => hprod.2⟩
    · cases h

theorem foldlM_checkedMul_eq (acc : ℕ) {dims : List ℕ} (hpos : ∀ d ∈ dims, 0 < d)
    (hmax : acc * dims.prod ≤ usizeMax) :
    dims.foldlM checkedMul acc = some (acc * dims.prod) := by
  induction dims generalizing acc with
  | nil => exact congrArg some (Nat.mul_one acc).symm
  | cons d ds ih =>
    have hrest : ∀ e ∈ ds, 0 < e := fun e he => hpos e (List.mem_cons_of_mem d he)
    rw [List.prod_cons, ← Nat.mul_assoc] at hmax ⊢
    have hstep : acc * d ≤ usizeMax :=
      le_trans (Nat.le_mul_of_pos_right _ (List.prod_pos_iff_forall_pos_nat.mpr hrest)) hmax
    rw [List.foldlM_cons, checkedMul, if_pos hstep]
    exact ih _ hrest hmax

/-- The element count of a shape that fits a word. -/
theorem shapeProduct_of_le {dims : List ℕ} (hfits : 0 ∉ dims → dims.prod ≤ usizeMax) :
    shapeProduct dims = .ok (if dims = [] then 0 else dims.prod) := by
  unfold shapeProduct
  by_cases hnil : dims = []
  · rw [if_pos (Or.inl hnil), if_pos hnil]
  by_cases hzero : 0 ∈ dims
  · rw [if_pos (Or.inr hzero), if_neg hnil, List.prod_eq_zero hzero]
  · have hpos : ∀ d ∈ dims, 0 < d := fun d hd => Nat.pos_of_ne_zero (fun h0 => hzero (h0 ▸ hd))
    have hprod := foldlM_checkedMul_eq 1 hpos (by rw [Nat.one_mul]; exact hfits hzero)
    rw [Nat.one_mul] at hprod
    rw [if_neg (not_or.mpr ⟨hnil, hzero⟩), hprod, if_neg hnil]

theorem strides_eq {acc : ℕ} {dims : List ℕ} (hpos : ∀ d ∈ dims, 0 < d)
    (h : acc * dims.prod ≤ usizeMax) : strides acc dims = .ok (weights acc dims) := by
  fun_induction strides acc dims with
  | case1 => rfl
  | case2 => rfl
  | case3 acc d ds hds ih =>
    have hrest : ∀ e ∈ ds, 0 < e := fun e he => hpos e (List.mem_cons_of_mem d he)
    have hprod : 0 < ds.prod := List.prod_pos_iff_forall_pos_nat.mpr hrest
    rw [List.prod_cons, ← Nat.mul_assoc] at h
    rw [mulUsize_of_le (le_trans (Nat.le_mul_of_pos_right _ hprod) h)]
    simp only [bind, Except.bind, ih _ hrest h]
    rfl

theorem mapM_divCeil {dims tiles : List ℕ} (h : Tiles dims tiles) :
    (dims.zip tiles).mapM (fun axis => divCeil axis.1 axis.2) = .ok (counts dims tiles) := by
  induction dims generalizing tiles with
  | nil => rfl
  | cons d ds ih =>
    obtain ⟨t, ts, rfl⟩ := List.exists_cons_of_length_eq_add_one h.length
    rw [List.zip_cons_cons, List.mapM_cons, divCeil_of_pos h.head, ih h.tail]
    rfl

theorem new_eq {dims tiles : List ℕ} (h : Tiles dims tiles)
    (hfits : 0 ∉ dims → dims.prod ≤ usizeMax) :
    TileGeometry.new dims tiles = .ok (grid dims tiles) := by
  have hstride : imageStrides dims = .ok (grid dims tiles).stride := by
    unfold imageStrides grid
    split
    · rfl
    · rename_i hzero
      refine strides_eq (fun d hd => ?_) (by rw [Nat.one_mul]; exact hfits hzero)
      exact Nat.pos_of_ne_zero (fun h0 => hzero (h0 ▸ hd))
  rw [TileGeometry.new, mapM_divCeil h, Loops.bind_ok rfl, hstride]
  rfl

/-! ## The odometer -/

/-- The number of shifted digits is the numbers' sum. -/
theorem value_shift {ds os cs : List ℕ} (hos : os.length = ds.length)
    (hcs : cs.length = ds.length) : value ds (shift os cs) = value ds os + value ds cs := by
  induction ds generalizing os cs with
  | nil => rfl
  | cons d ds ih =>
    obtain ⟨o, os, rfl⟩ := List.exists_cons_of_length_eq_add_one hos
    obtain ⟨c, cs, rfl⟩ := List.exists_cons_of_length_eq_add_one hcs
    rw [shift_cons, value_cons, value_cons, value_cons, ih (Nat.succ.inj hos) (Nat.succ.inj hcs)]
    ring

/-- A tile of the origin `os` and the extent `es` in an image of `ds`. -/
structure Inside (ds os es : List ℕ) : Prop where
  origin : os.length = ds.length
  extent : es.length = ds.length
  fits : List.Forall₂ (· ≤ ·) (shift os es) ds

theorem Inside.tail {d o e : ℕ} {ds os es : List ℕ} (h : Inside (d :: ds) (o :: os) (e :: es)) :
    Inside ds os es where
  origin := Nat.succ.inj h.origin
  extent := Nat.succ.inj h.extent
  fits := (List.forall₂_cons.mp h.fits).2

theorem Inside.head {d o e : ℕ} {ds os es : List ℕ} (h : Inside (d :: ds) (o :: os) (e :: es)) :
    o + e ≤ d := (List.forall₂_cons.mp h.fits).1

/-- A place in a tile is a place in the image. -/
theorem Inside.below {ds os es cs : List ℕ} (h : Inside ds os es) (hcs : Below cs es) :
    Below (shift os cs) ds := by
  induction ds generalizing os es cs with
  | nil =>
    obtain rfl := List.eq_nil_of_length_eq_zero h.origin
    exact .nil
  | cons d ds ih =>
    obtain ⟨o, os, rfl⟩ := List.exists_cons_of_length_eq_add_one h.origin
    obtain ⟨e, es, rfl⟩ := List.exists_cons_of_length_eq_add_one h.extent
    rcases hcs with _ | @⟨c, _, cs, _, hc, hcs⟩
    have hfit := h.head
    rw [shift_cons]
    exact .cons (by omega) (ih h.tail hcs)

/-- The flat offset of the origin `os` along every axis but the slowest. -/
def fasterOffset (w : ℕ) (ds os : List ℕ) : ℕ := dot os.dropLast (weights w ds)

theorem fasterOffset_cons (w d d' : ℕ) (ds : List ℕ) (o o' : ℕ) (os : List ℕ) :
    fasterOffset w (d :: d' :: ds) (o :: o' :: os) =
      o * w + fasterOffset (w * d) (d' :: ds) (o' :: os) := by
  rw [fasterOffset, List.dropLast_cons_cons, weights_cons, dot_cons]
  rfl

/-- Below the top of its axis, a step along it stays under the next axis's stride. -/
theorem step_le {low w d o c V p : ℕ} (hc : o + c < d) (hV : V < p) :
    low + w * (o + c + d * V) + w ≤ low + w * (d * p) := by
  have hstep : o + c + d * V + 1 ≤ d * p := by
    calc o + c + d * V + 1 ≤ d * (V + 1) := by rw [Nat.mul_succ]; omega
      _ ≤ d * p := Nat.mul_le_mul_left d hV
  have := Nat.mul_le_mul_left w hstep
  rw [Nat.mul_succ] at this
  omega

/-- The flat index past the last place `c` of an axis, split at the span the carry takes
back. -/
theorem carry_flat (low w d o c V : ℕ) : low + w * (o + c + d * V) + w =
    (c + 1) * w + (low + w * o + w * d * V) := by ring

/-- One step of the odometer, where no index on the way overflows. -/
theorem advance_eq {w low : ℕ} {ds os es cs : List ℕ} (hw : 0 < w) (h : Inside ds os es)
    (hcs : Below cs es)
    (hfits : ds ≠ [] → low + w * ds.prod + fasterOffset w ds os ≤ usizeMax) :
    advance cs es (weights w ds) (low + w * value ds (shift os cs)) =
      .ok (next es cs, low + w * value ds (shift os (next es cs))) := by
  induction ds generalizing w low os es cs with
  | nil =>
    obtain rfl := List.eq_nil_of_length_eq_zero h.extent
    rcases hcs with _ | _
    rfl
  | cons d ds ih =>
    obtain ⟨o, os, rfl⟩ := List.exists_cons_of_length_eq_add_one h.origin
    obtain ⟨e, es, rfl⟩ := List.exists_cons_of_length_eq_add_one h.extent
    rcases hcs with _ | @⟨c, _, cs, _, hc, hcs⟩
    have hfit := h.head
    have hV := value_lt (h.tail.below hcs)
    have hlimit := hfits (List.cons_ne_nil d ds)
    rw [List.prod_cons] at hlimit
    have hstep : low + w * (o + c + d * value ds (shift os cs)) + w ≤ low + w * (d * ds.prod) :=
      step_le (by omega) hV
    have hcount : c + 1 ≤ usizeMax := by
      have hprod : d ≤ w * (d * ds.prod) := by
        calc d ≤ d * ds.prod := Nat.le_mul_of_pos_right d (by omega)
          _ ≤ w * (d * ds.prod) := Nat.le_mul_of_pos_left _ hw
      omega
    rw [shift_cons, value_cons, weights_cons, advance, addUsize_of_le hcount, Loops.bind_ok rfl,
      addUsize_of_le (by omega), Loops.bind_ok rfl, next]
    by_cases hlow : c + 1 < e
    · rw [if_pos hlow, if_pos hlow, shift_cons, value_cons]
      congr 2
      ring
    · obtain rfl : e = c + 1 := by omega
      have hflat := carry_flat low w d o c (value ds (shift os cs))
      rw [if_neg hlow, if_neg hlow, mulUsize_of_le (by omega), Loops.bind_ok rfl,
        subUsize_of_le (by omega), Loops.bind_ok rfl, hflat, Nat.add_sub_cancel_left,
        ih (Nat.mul_pos hw (by omega)) h.tail hcs, Loops.bind_ok rfl, shift_cons, value_cons]
      · congr 2
        ring
      · intro hds
        obtain ⟨d', ds, rfl⟩ := List.exists_cons_of_ne_nil hds
        obtain ⟨o', os, rfl⟩ := List.exists_cons_of_length_eq_add_one h.tail.origin
        rw [fasterOffset_cons] at hlimit
        calc low + w * o + w * d * (d' :: ds).prod + fasterOffset (w * d) (d' :: ds) (o' :: os)
            = low + w * (d * (d' :: ds).prod) +
                (o * w + fasterOffset (w * d) (d' :: ds) (o' :: os)) := by ring
          _ ≤ usizeMax := hlimit

/-- A step of the odometer that succeeds goes to the next row. -/
theorem advance_of_ok {w low : ℕ} {ds os es cs : List ℕ} {r : List ℕ × ℕ}
    (h : Inside ds os es) (hcs : Below cs es)
    (hok : advance cs es (weights w ds) (low + w * value ds (shift os cs)) = .ok r) :
    r = (next es cs, low + w * value ds (shift os (next es cs))) := by
  induction ds generalizing w low os es cs r with
  | nil =>
    obtain rfl := List.eq_nil_of_length_eq_zero h.extent
    rcases hcs with _ | _
    exact (Except.ok.inj hok).symm
  | cons d ds ih =>
    obtain ⟨o, os, rfl⟩ := List.exists_cons_of_length_eq_add_one h.origin
    obtain ⟨e, es, rfl⟩ := List.exists_cons_of_length_eq_add_one h.extent
    rcases hcs with _ | @⟨c, _, cs, _, hc, hcs⟩
    rw [shift_cons, value_cons, weights_cons, advance] at hok
    obtain ⟨c', hc', hok⟩ := Loops.ok_of_bind hok
    obtain ⟨flat, hflat, hok⟩ := Loops.ok_of_bind hok
    obtain ⟨-, rfl⟩ := addUsize_eq_ok_iff.mp hc'
    obtain ⟨-, rfl⟩ := addUsize_eq_ok_iff.mp hflat
    rw [next]
    by_cases hlow : c + 1 < e
    · rw [if_pos hlow] at hok ⊢
      rw [← Except.ok.inj hok, shift_cons, value_cons]
      congr 1
      ring
    · obtain rfl : e = c + 1 := by omega
      rw [if_neg hlow] at hok ⊢
      obtain ⟨span, hspan, hok⟩ := Loops.ok_of_bind hok
      obtain ⟨flat, hflat, hok⟩ := Loops.ok_of_bind hok
      obtain ⟨rest, hrest, hdone⟩ := Loops.ok_of_bind hok
      obtain ⟨-, rfl⟩ := mulUsize_eq_ok_iff.mp hspan
      obtain ⟨-, rfl⟩ := subUsize_eq_ok_iff.mp hflat
      rw [carry_flat, Nat.add_sub_cancel_left] at hrest
      rw [← Except.ok.inj hdone, ih h.tail hcs hrest, shift_cons, value_cons]
      congr 1
      ring

/-- The step after the last row of the last tile passes every axis's end, so it meets an
index of the image's size and the faster axes' offset more. -/
theorem advance_last {w low : ℕ} {ds os es cs : List ℕ} {r : List ℕ × ℕ} (hds : ds ≠ [])
    (h : Inside ds os es) (hend : shift os es = ds) (hlast : cs.map (· + 1) = es)
    (hok : advance cs es (weights w ds) (low + w * value ds (shift os cs)) = .ok r) :
    low + w * ds.prod + fasterOffset w ds os ≤ usizeMax := by
  induction ds generalizing w low os es cs r with
  | nil => exact absurd rfl hds
  | cons d ds ih =>
    obtain ⟨o, os, rfl⟩ := List.exists_cons_of_length_eq_add_one h.origin
    obtain ⟨e, es, rfl⟩ := List.exists_cons_of_length_eq_add_one h.extent
    obtain ⟨c, cs, rfl, rfl, rfl⟩ := List.map_eq_cons_iff.mp hlast
    rw [shift_cons, List.cons.injEq] at hend
    obtain ⟨rfl, hend⟩ := hend
    rw [shift_cons, value_cons, weights_cons, advance] at hok
    obtain ⟨c', hc', hok⟩ := Loops.ok_of_bind hok
    obtain ⟨flat, hflat, hok⟩ := Loops.ok_of_bind hok
    obtain ⟨-, rfl⟩ := addUsize_eq_ok_iff.mp hc'
    obtain ⟨hmax, rfl⟩ := addUsize_eq_ok_iff.mp hflat
    rw [if_neg (lt_irrefl _)] at hok
    obtain ⟨span, hspan, hok⟩ := Loops.ok_of_bind hok
    obtain ⟨flat, hflat, hok⟩ := Loops.ok_of_bind hok
    obtain ⟨rest, hrest, -⟩ := Loops.ok_of_bind hok
    obtain ⟨-, rfl⟩ := mulUsize_eq_ok_iff.mp hspan
    obtain ⟨-, rfl⟩ := subUsize_eq_ok_iff.mp hflat
    rcases ds with _ | ⟨d', ds⟩
    · obtain rfl := List.eq_nil_of_length_eq_zero h.tail.origin
      simp only [value_nil, Nat.mul_zero, Nat.add_zero] at hmax
      rw [fasterOffset, List.dropLast_singleton, dot_nil, List.prod_singleton]
      calc low + w * (o + (c + 1)) + 0 = low + w * (o + c) + w := by ring
        _ ≤ usizeMax := hmax
    · obtain ⟨o', os, rfl⟩ := List.exists_cons_of_length_eq_add_one h.tail.origin
      rw [carry_flat, Nat.add_sub_cancel_left] at hrest
      have hlimit := ih (List.cons_ne_nil d' ds) h.tail hend rfl hrest
      rw [fasterOffset_cons, List.prod_cons]
      calc low + w * ((o + (c + 1)) * (d' :: ds).prod) +
            (o * w + fasterOffset (w * (o + (c + 1))) (d' :: ds) (o' :: os))
          = low + w * o + w * (o + (c + 1)) * (d' :: ds).prod +
            fasterOffset (w * (o + (c + 1))) (d' :: ds) (o' :: os) := by ring
        _ ≤ usizeMax := hlimit

/-! ## A tile's rows -/

/-- The rows the loop emits, where no index on the way overflows. -/
theorem walk_eq (low : ℕ) {w n : ℕ} {ds os es : List ℕ} (hw : 0 < w) (h : Inside ds os es)
    (hn : n ≤ es.prod) (hpos : ∀ e ∈ es, 0 < e)
    (hfits : ds ≠ [] → low + w * ds.prod + fasterOffset w ds os ≤ usizeMax) :
    (List.range n).foldlM (fun walk _ => RowWalk.step es (weights w ds) walk)
        ⟨[], digits es 0, low + w * value ds (shift os (digits es 0))⟩ =
      .ok ⟨(List.range n).map fun r => low + w * value ds (shift os (digits es r)),
        digits es n, low + w * value ds (shift os (digits es n))⟩ := by
  have hrun : ∃ walk, (List.range n).foldlM
      (fun walk _ => RowWalk.step es (weights w ds) walk)
      ⟨[], digits es 0, low + w * value ds (shift os (digits es 0))⟩ = .ok walk ∧
      walk = ⟨(List.range n).map fun r => low + w * value ds (shift os (digits es r)),
        digits es n, low + w * value ds (shift os (digits es n))⟩ := by
    refine Loops.range_total (P := fun k walk => walk = (⟨(List.range k).map fun r =>
      low + w * value ds (shift os (digits es r)), digits es k,
      low + w * value ds (shift os (digits es k))⟩ : RowWalk)) rfl ?_
    rintro k hk walk rfl
    have hbelow : Below (digits es k) es := digits_below (lt_of_lt_of_le hk hn)
    refine ⟨_, ?_, rfl⟩
    rw [RowWalk.step, advance_eq hw h hbelow hfits, Loops.bind_ok rfl, next_digits hpos,
      List.range_succ, List.map_append]
    rfl
  obtain ⟨walk, hok, rfl⟩ := hrun
  exact hok

/-- A walk over the rows that succeeds emits them. -/
theorem walk_of_ok {w low n : ℕ} {ds os es : List ℕ} {walk : RowWalk} (h : Inside ds os es)
    (hn : n ≤ es.prod) (hpos : ∀ e ∈ es, 0 < e)
    (hok : (List.range n).foldlM (fun walk _ => RowWalk.step es (weights w ds) walk)
      ⟨[], digits es 0, low + w * value ds (shift os (digits es 0))⟩ = .ok walk) :
    walk = ⟨(List.range n).map fun r => low + w * value ds (shift os (digits es r)),
      digits es n, low + w * value ds (shift os (digits es n))⟩ := by
  refine Loops.range_partial (P := fun k walk => walk = (⟨(List.range k).map fun r =>
    low + w * value ds (shift os (digits es r)), digits es k,
    low + w * value ds (shift os (digits es k))⟩ : RowWalk)) rfl ?_ hok
  rintro k hk walk walk' rfl hstep
  have hbelow : Below (digits es k) es := digits_below (lt_of_lt_of_le hk hn)
  obtain ⟨r, hr, hwalk'⟩ := Loops.ok_of_bind hstep
  obtain rfl := advance_of_ok h hbelow hr
  rw [← Except.ok.inj hwalk', next_digits hpos, List.range_succ, List.map_append]
  rfl

/-- A walk over the rows that succeeds steps off the last one. -/
theorem walk_last {w low : ℕ} {ds os es : List ℕ} {walk : RowWalk} (h : Inside ds os es)
    (hpos : ∀ e ∈ es, 0 < e)
    (hok : (List.range es.prod).foldlM (fun walk _ => RowWalk.step es (weights w ds) walk)
      ⟨[], digits es 0, low + w * value ds (shift os (digits es 0))⟩ = .ok walk) :
    ∃ r, advance (digits es (es.prod - 1)) es (weights w ds)
      (low + w * value ds (shift os (digits es (es.prod - 1)))) = .ok r := by
  obtain ⟨n, hn⟩ := Nat.exists_eq_add_of_lt (List.prod_pos_iff_forall_pos_nat.mpr hpos)
  rw [Nat.zero_add] at hn
  rw [hn, List.range_succ, List.foldlM_append] at hok
  obtain ⟨before, hbefore, hlast⟩ := Loops.ok_of_bind hok
  obtain rfl := walk_of_ok h (by omega) hpos hbefore
  rw [List.foldlM_cons, RowWalk.step] at hlast
  obtain ⟨s, hs, -⟩ := Loops.ok_of_bind hlast
  obtain ⟨r, hr, -⟩ := Loops.ok_of_bind hs
  rw [hn, Nat.add_sub_cancel]
  exact ⟨r, hr⟩

theorem locate_eq {dims tiles : List ℕ} (h : Tiles dims tiles) (hmax : ∀ d ∈ dims, d ≤ usizeMax)
    {t : ℕ} (ht : t < (counts dims tiles).prod) :
    locate dims tiles (counts dims tiles) t =
      .ok (originsOf dims tiles t, extentsOf dims tiles t) := by
  induction dims generalizing tiles t with
  | nil =>
    obtain rfl := List.eq_nil_of_length_eq_zero h.length
    rfl
  | cons d ds ih =>
    obtain ⟨tile, ts, rfl⟩ := List.exists_cons_of_length_eq_add_one h.length
    have hbelow := digits_below ht
    rw [counts_cons, digits_cons] at hbelow
    obtain ⟨hti, -⟩ := List.forall₂_cons.mp hbelow
    have horigin := (lt_tilesAlong_iff h.head).mp hti
    have hd := hmax d List.mem_cons_self
    have hn : 0 < tilesAlong d tile := by omega
    rw [counts_cons, List.prod_cons] at ht
    rw [counts_cons, locate, remUsize_of_pos hn, Loops.bind_ok rfl, divUsize_of_pos hn,
      Loops.bind_ok rfl, mulUsize_of_le (by omega), Loops.bind_ok rfl,
      subUsize_of_le (by omega), Loops.bind_ok rfl,
      ih h.tail (fun e he => hmax e (List.mem_cons_of_mem d he)) (Nat.div_lt_of_lt_mul ht)]
    rfl

theorem flatIndex_eq {os ws : List ℕ} (h : dot os ws ≤ usizeMax) :
    flatIndex os ws = .ok (dot os ws) := by
  have hoffsets : (os.zip ws).mapM (fun axis => mulUsize axis.1 axis.2) =
      .ok (List.zipWith (· * ·) os ws) := by
    induction os generalizing ws with
    | nil => rfl
    | cons o os ih =>
      rcases ws with _ | ⟨w, ws⟩
      · rfl
      · rw [dot_cons] at h
        have hoffset : mulUsize o w = .ok (o * w) := mulUsize_of_le (by omega)
        rw [List.zip_cons_cons, List.mapM_cons, hoffset, ih (by omega)]
        rfl
  rw [flatIndex, hoffsets, Loops.bind_ok rfl]
  exact sumUsize_of_le h

/-- A tile is inside the image. -/
theorem inside_tile {dims tiles : List ℕ} (h : Tiles dims tiles) {t : ℕ}
    (ht : t < (counts dims tiles).prod) :
    Inside dims (originsOf dims tiles t) (extentsOf dims tiles t) ∧
      ∀ e ∈ extentsOf dims tiles t, 0 < e := by
  induction dims generalizing tiles t with
  | nil =>
    obtain rfl := List.eq_nil_of_length_eq_zero h.length
    exact ⟨⟨rfl, rfl, .nil⟩, by simp [extentsOf, extents]⟩
  | cons d ds ih =>
    obtain ⟨tile, ts, rfl⟩ := List.exists_cons_of_length_eq_add_one h.length
    have hbelow := digits_below ht
    rw [counts_cons, digits_cons] at hbelow
    obtain ⟨hti, -⟩ := List.forall₂_cons.mp hbelow
    have horigin := (lt_tilesAlong_iff h.head).mp hti
    rw [counts_cons, List.prod_cons] at ht
    obtain ⟨hrest, hpos⟩ := ih h.tail (Nat.div_lt_of_lt_mul ht)
    constructor
    · refine ⟨congrArg (· + 1) hrest.origin, congrArg (· + 1) hrest.extent, .cons ?_ hrest.fits⟩
      dsimp only
      omega
    · intro e he
      have htile := h.head
      rcases List.mem_cons.mp he with rfl | he
      · omega
      · exact hpos e he

/-- What a tile covers, in the numbering of the grid. -/
def tileAt (dims tiles : List ℕ) (t : ℕ) : TileScratch where
  origin := originsOf dims tiles t
  tdims := extentsOf dims tiles t
  rowBases := (List.range (extentsOf dims tiles t).tail.prod).map fun r =>
    cell dims tiles t (r * (extentsOf dims tiles t).headD 1)
  rowLen := (extentsOf dims tiles t).headD 1

theorem cell_row (ds ts : List ℕ) (r : ℕ) {d tile t x : ℕ}
    (hx : x < min tile (d - t % tilesAlong d tile * tile)) :
    cell (d :: ds) (tile :: ts) t (r * min tile (d - t % tilesAlong d tile * tile) + x) =
      t % tilesAlong d tile * tile + x + d * value ds (shift (originsOf ds ts (t / tilesAlong d tile))
        (digits (extentsOf ds ts (t / tilesAlong d tile)) r)) := by
  have hpos : 0 < min tile (d - t % tilesAlong d tile * tile) := by omega
  simp only [cell, originsOf, extentsOf, counts_cons, digits_cons, origins_cons, extents_cons,
    shift_cons, value_cons]
  rw [Nat.mul_comm r, Nat.mul_add_mod, Nat.mod_eq_of_lt hx, Nat.mul_add_div hpos,
    Nat.div_eq_of_lt hx, Nat.add_zero]

theorem shift_replicate (os : List ℕ) : shift os (List.replicate os.length 0) = os := by
  induction os with
  | nil => rfl
  | cons o os ih => rw [List.length_cons, List.replicate_succ, shift_cons, ih, Nat.add_zero]

/-- The first place of a tile is its origin. -/
theorem shift_zeros {os es : List ℕ} (h : es.length = os.length) :
    shift os (digits es 0) = os := by
  rw [digits_zero, h, shift_replicate]

/-- An image with a tile has no empty axis. -/
theorem dims_pos {dims tiles : List ℕ} (h : Tiles dims tiles) {t : ℕ}
    (ht : t < (counts dims tiles).prod) : ∀ d ∈ dims, 0 < d := by
  have hextents := List.prod_pos_iff_forall_pos_nat.mpr (inside_tile h ht).2
  exact (shift_below h (digits_below ht) (digits_below hextents)).pos

theorem stride_eq {dims : List ℕ} (tiles : List ℕ) (hpos : ∀ d ∈ dims, 0 < d) :
    (grid dims tiles).stride = weights 1 dims :=
  if_neg (fun h => absurd (hpos 0 h) (lt_irrefl 0))

/-- No axis is longer than the image. -/
theorem le_prod {dims : List ℕ} (hpos : ∀ d ∈ dims, 0 < d) : ∀ d ∈ dims, d ≤ dims.prod :=
  fun _ hd => Nat.le_of_dvd (List.prod_pos_iff_forall_pos_nat.mpr hpos) (List.dvd_prod hd)

/-- A tile has no more pixels than the image. -/
theorem Inside.prod_le {ds os es : List ℕ} (h : Inside ds os es) : es.prod ≤ ds.prod := by
  induction ds generalizing os es with
  | nil =>
    obtain rfl := List.eq_nil_of_length_eq_zero h.extent
    exact le_rfl
  | cons d ds ih =>
    obtain ⟨o, os, rfl⟩ := List.exists_cons_of_length_eq_add_one h.origin
    obtain ⟨e, es, rfl⟩ := List.exists_cons_of_length_eq_add_one h.extent
    have hfit := h.head
    rw [List.prod_cons, List.prod_cons]
    exact Nat.mul_le_mul (by omega) (ih h.tail)

/-- What a tile covers is read off its walk over the rows. -/
theorem tileInto_eq_walk {d tile t : ℕ} {ds ts : List ℕ} (h : Tiles (d :: ds) (tile :: ts))
    (ht : t < (counts (d :: ds) (tile :: ts)).prod) (hprod : (d :: ds).prod ≤ usizeMax) :
    (grid (d :: ds) (tile :: ts)).tileInto t =
      (List.range (extentsOf ds ts (t / tilesAlong d tile)).prod).foldlM
        (fun walk _ => RowWalk.step (extentsOf ds ts (t / tilesAlong d tile)) (weights d ds) walk)
        ⟨[], digits (extentsOf ds ts (t / tilesAlong d tile)) 0,
          t % tilesAlong d tile * tile + d * value ds (shift
            (originsOf ds ts (t / tilesAlong d tile))
            (digits (extentsOf ds ts (t / tilesAlong d tile)) 0))⟩ >>= fun walk => .ok {
        origin := originsOf (d :: ds) (tile :: ts) t
        tdims := extentsOf (d :: ds) (tile :: ts) t
        rowBases := walk.rowBases
        rowLen := min tile (d - t % tilesAlong d tile * tile) } := by
  have hpos := dims_pos h ht
  have hmax : ∀ e ∈ d :: ds, e ≤ usizeMax := fun e he => le_trans (le_prod hpos e he) hprod
  obtain ⟨hinside, hextents⟩ := inside_tile h ht
  have hstart : dot (originsOf (d :: ds) (tile :: ts) t) (weights 1 (d :: ds)) =
      value (d :: ds) (originsOf (d :: ds) (tile :: ts) t) := by
    rw [dot_weights 1 hinside.origin, Nat.one_mul]
  have horigin : value (d :: ds) (originsOf (d :: ds) (tile :: ts) t) < (d :: ds).prod := by
    have hbelow := hinside.below (digits_below (List.prod_pos_iff_forall_pos_nat.mpr hextents))
    rw [shift_zeros (hinside.extent.trans hinside.origin.symm)] at hbelow
    exact value_lt hbelow
  have hflat : dot (originsOf (d :: ds) (tile :: ts) t) (weights 1 (d :: ds)) ≤ usizeMax := by
    omega
  have htail : Inside ds (originsOf ds ts (t / tilesAlong d tile))
      (extentsOf ds ts (t / tilesAlong d tile)) := hinside.tail
  have htailPos : ∀ e ∈ extentsOf ds ts (t / tilesAlong d tile), 0 < e :=
    fun e he => hextents e (List.mem_cons_of_mem _ he)
  have hrows : (extentsOf ds ts (t / tilesAlong d tile)).prod ≤ usizeMax := by
    calc (extentsOf ds ts (t / tilesAlong d tile)).prod ≤ ds.prod := htail.prod_le
      _ ≤ d * ds.prod := Nat.le_mul_of_pos_left _ (hpos d List.mem_cons_self)
      _ ≤ usizeMax := by rwa [List.prod_cons] at hprod
  rw [shift_zeros (htail.extent.trans htail.origin.symm), digits_zero,
    TileGeometry.tileInto, stride_eq _ hpos, grid, locate_eq h hmax ht, Loops.bind_ok rfl]
  dsimp only
  rw [flatIndex_eq hflat, hstart, originsOf_cons, extentsOf_cons, List.tail_cons, weights_cons,
    List.tail_cons, Nat.one_mul, productUsize_of_le htailPos hrows, Loops.bind_ok rfl,
    Loops.bind_ok rfl, value_cons, List.map_const']
  rfl

/-- A tile's rows, in the numbering the odometer keeps. -/
theorem rows_tileAt {d tile t : ℕ} {ds ts : List ℕ} (h : Tiles (d :: ds) (tile :: ts))
    (ht : t < (counts (d :: ds) (tile :: ts)).prod) :
    tileAt (d :: ds) (tile :: ts) t = {
      origin := originsOf (d :: ds) (tile :: ts) t
      tdims := extentsOf (d :: ds) (tile :: ts) t
      rowBases := (List.range (extentsOf ds ts (t / tilesAlong d tile)).prod).map fun r =>
        t % tilesAlong d tile * tile + d * value ds (shift (originsOf ds ts (t / tilesAlong d tile))
          (digits (extentsOf ds ts (t / tilesAlong d tile)) r))
      rowLen := min tile (d - t % tilesAlong d tile * tile) } := by
  have hextents := (inside_tile h ht).2
  simp only [tileAt, extentsOf_cons, List.tail_cons, List.headD_cons]
  congr 1
  refine List.map_congr_left (fun r _ => ?_)
  have hrow := cell_row ds ts r (hextents _ List.mem_cons_self)
  rwa [Nat.add_zero, Nat.add_zero] at hrow

/-- A tile's odometer gives its cells, where no index on the way overflows. -/
theorem tileInto_eq {dims tiles : List ℕ} (h : Tiles dims tiles) {t : ℕ}
    (ht : t < (counts dims tiles).prod)
    (hfits : dims.prod + fasterOffset 1 dims (originsOf dims tiles t) ≤ usizeMax) :
    (grid dims tiles).tileInto t = .ok (tileAt dims tiles t) := by
  have hpos := dims_pos h ht
  obtain ⟨hinside, hextents⟩ := inside_tile h ht
  rcases dims with _ | ⟨d, ds⟩
  · obtain rfl := List.eq_nil_of_length_eq_zero h.length
    rfl
  obtain ⟨tile, ts, rfl⟩ := List.exists_cons_of_length_eq_add_one h.length
  have htail : Inside ds (originsOf ds ts (t / tilesAlong d tile))
      (extentsOf ds ts (t / tilesAlong d tile)) := hinside.tail
  have htailPos : ∀ e ∈ extentsOf ds ts (t / tilesAlong d tile), 0 < e :=
    fun e he => hextents e (List.mem_cons_of_mem _ he)
  have hwalk := walk_eq (t % tilesAlong d tile * tile) (hpos d List.mem_cons_self) htail
    le_rfl htailPos (by
      intro hds
      obtain ⟨d', ds, rfl⟩ := List.exists_cons_of_ne_nil hds
      obtain ⟨tile', ts, rfl⟩ := List.exists_cons_of_length_eq_add_one h.tail.length
      have hsplit := fasterOffset_cons 1 d d' ds (t % tilesAlong d tile * tile)
        (t / tilesAlong d tile % tilesAlong d' tile' * tile')
        (originsOf ds ts (t / tilesAlong d tile / tilesAlong d' tile'))
      rw [← originsOf_cons, ← originsOf_cons, Nat.mul_one, Nat.one_mul] at hsplit
      rw [hsplit, List.prod_cons] at hfits
      omega)
  rw [tileInto_eq_walk h ht (by omega), hwalk, Loops.bind_ok rfl, rows_tileAt h ht]

/-- What a tile's odometer gives, where it returns, is the tile's cells. -/
theorem tileInto_of_ok {dims tiles : List ℕ} (h : Tiles dims tiles) {t : ℕ}
    (ht : t < (counts dims tiles).prod) (hprod : dims.prod ≤ usizeMax) {s : TileScratch}
    (hok : (grid dims tiles).tileInto t = .ok s) : s = tileAt dims tiles t := by
  obtain ⟨hinside, hextents⟩ := inside_tile h ht
  rcases dims with _ | ⟨d, ds⟩
  · obtain rfl := List.eq_nil_of_length_eq_zero h.length
    exact (Except.ok.inj hok).symm
  obtain ⟨tile, ts, rfl⟩ := List.exists_cons_of_length_eq_add_one h.length
  have htail : Inside ds (originsOf ds ts (t / tilesAlong d tile))
      (extentsOf ds ts (t / tilesAlong d tile)) := hinside.tail
  have htailPos : ∀ e ∈ extentsOf ds ts (t / tilesAlong d tile), 0 < e :=
    fun e he => hextents e (List.mem_cons_of_mem _ he)
  rw [tileInto_eq_walk h ht hprod] at hok
  obtain ⟨walk, hwalk, hs⟩ := Loops.ok_of_bind hok
  obtain rfl := walk_of_ok htail le_rfl htailPos hwalk
  rw [← Except.ok.inj hs, rows_tileAt h ht]

/-! ## The last tile -/

/-- The first coordinate of the last tile along each axis. -/
def lastOrigin (dims tiles : List ℕ) : List ℕ :=
  List.zipWith (fun d tile => (tilesAlong d tile - 1) * tile) dims tiles

/-- The odometer's last step stays a word: the image's size and the offset of the last
tile along every axis but the slowest. -/
def OdometerFits (dims tiles : List ℕ) : Prop :=
  dims.prod + fasterOffset 1 dims (lastOrigin dims tiles) ≤ usizeMax

instance (dims tiles : List ℕ) : Decidable (OdometerFits dims tiles) :=
  inferInstanceAs (Decidable (_ ≤ _))

/-- No tile begins past the last one. -/
theorem originsOf_le_lastOrigin {dims tiles : List ℕ} (h : Tiles dims tiles) {t : ℕ}
    (ht : t < (counts dims tiles).prod) :
    List.Forall₂ (· ≤ ·) (originsOf dims tiles t) (lastOrigin dims tiles) := by
  induction dims generalizing tiles t with
  | nil =>
    obtain rfl := List.eq_nil_of_length_eq_zero h.length
    exact .nil
  | cons d ds ih =>
    obtain ⟨tile, ts, rfl⟩ := List.exists_cons_of_length_eq_add_one h.length
    have hbelow := digits_below ht
    rw [counts_cons, digits_cons] at hbelow
    obtain ⟨hti, -⟩ := List.forall₂_cons.mp hbelow
    rw [counts_cons, List.prod_cons] at ht
    exact .cons (Nat.mul_le_mul_right tile (by omega))
      (ih h.tail (Nat.div_lt_of_lt_mul ht))

/-- The greatest index of the odometer is the last tile's. -/
theorem OdometerFits.tile {dims tiles : List ℕ} (hfits : OdometerFits dims tiles)
    (h : Tiles dims tiles) {t : ℕ} (ht : t < (counts dims tiles).prod) :
    dims.prod + fasterOffset 1 dims (originsOf dims tiles t) ≤ usizeMax := by
  have horigins := originsOf_le_lastOrigin h ht
  have hdrop : List.Forall₂ (· ≤ ·) (originsOf dims tiles t).dropLast
      (lastOrigin dims tiles).dropLast := by
    rw [List.dropLast_eq_take, List.dropLast_eq_take, horigins.length_eq]
    exact List.forall₂_take _ horigins
  have hle := dot_le hdrop (weights 1 dims)
  unfold OdometerFits fasterOffset at *
  omega

theorem counts_pos {dims tiles : List ℕ} (h : Tiles dims tiles) (hpos : ∀ d ∈ dims, 0 < d) :
    ∀ n ∈ counts dims tiles, 0 < n := by
  induction dims generalizing tiles with
  | nil => simp [counts]
  | cons d ds ih =>
    obtain ⟨tile, ts, rfl⟩ := List.exists_cons_of_length_eq_add_one h.length
    intro n hn
    rcases List.mem_cons.mp hn with rfl | hn
    · exact (lt_tilesAlong_iff h.head).mpr (by have := hpos d List.mem_cons_self; omega)
    · exact ih h.tail (fun e he => hpos e (List.mem_cons_of_mem d he)) n hn

/-- The last tile begins at the last origin and ends where the image does. -/
theorem originsOf_last {dims tiles : List ℕ} (h : Tiles dims tiles)
    (hpos : ∀ d ∈ dims, 0 < d) :
    originsOf dims tiles ((counts dims tiles).prod - 1) = lastOrigin dims tiles ∧
      shift (lastOrigin dims tiles)
        (extentsOf dims tiles ((counts dims tiles).prod - 1)) = dims := by
  rw [originsOf, extentsOf, digits_last (counts_pos h hpos)]
  induction dims generalizing tiles with
  | nil =>
    obtain rfl := List.eq_nil_of_length_eq_zero h.length
    exact ⟨rfl, rfl⟩
  | cons d ds ih =>
    obtain ⟨tile, ts, rfl⟩ := List.exists_cons_of_length_eq_add_one h.length
    obtain ⟨horigin, hend⟩ := ih h.tail (fun e he => hpos e (List.mem_cons_of_mem d he))
    have hlast := last_tile h.head (hpos d List.mem_cons_self)
    constructor
    · rw [counts_cons, List.map_cons, origins_cons, horigin]
      rfl
    · exact congrArg₂ List.cons hlast hend

/-- Where the last tile's rows come out, its odometer's last step was a word. -/
theorem fits_of_tileInto {dims tiles : List ℕ} {s : TileScratch} (h : Tiles dims tiles)
    (hpos : ∀ d ∈ dims, 0 < d) (hprod : dims.prod ≤ usizeMax)
    (hok : (grid dims tiles).tileInto ((counts dims tiles).prod - 1) = .ok s) :
    OdometerFits dims tiles := by
  have ht : (counts dims tiles).prod - 1 < (counts dims tiles).prod := by
    have := List.prod_pos_iff_forall_pos_nat.mpr (counts_pos h hpos)
    omega
  obtain ⟨horigin, hend⟩ := originsOf_last h hpos
  obtain ⟨hinside, hextents⟩ := inside_tile h ht
  rcases dims with _ | ⟨d, ds⟩
  · exact hprod
  obtain ⟨tile, ts, rfl⟩ := List.exists_cons_of_length_eq_add_one h.length
  rcases ds with _ | ⟨d', ds⟩
  · exact hprod
  obtain ⟨tile', ts, rfl⟩ := List.exists_cons_of_length_eq_add_one h.tail.length
  rw [tileInto_eq_walk h ht hprod] at hok
  obtain ⟨walk, hwalk, -⟩ := Loops.ok_of_bind hok
  rw [OdometerFits, ← horigin]
  rw [← horigin] at hend
  generalize (counts (d :: d' :: ds) (tile :: tile' :: ts)).prod - 1 = t at *
  have htailPos : ∀ e ∈ extentsOf (d' :: ds) (tile' :: ts) (t / tilesAlong d tile), 0 < e :=
    fun e he => hextents e (List.mem_cons_of_mem _ he)
  have htail : Inside (d' :: ds) (originsOf (d' :: ds) (tile' :: ts) (t / tilesAlong d tile))
      (extentsOf (d' :: ds) (tile' :: ts) (t / tilesAlong d tile)) := hinside.tail
  obtain ⟨r, hr⟩ := walk_last htail htailPos hwalk
  have hlast : (digits (extentsOf (d' :: ds) (tile' :: ts) (t / tilesAlong d tile))
      ((extentsOf (d' :: ds) (tile' :: ts) (t / tilesAlong d tile)).prod - 1)).map (· + 1) =
      extentsOf (d' :: ds) (tile' :: ts) (t / tilesAlong d tile) := by
    rw [digits_last htailPos, List.map_map]
    refine (List.map_congr_left (fun e he => ?_)).trans (List.map_id _)
    exact Nat.sub_add_cancel (htailPos e he)
  have hlimit := advance_last (List.cons_ne_nil d' ds) htail (List.cons.inj hend).2 hlast hr
  have hsplit := fasterOffset_cons 1 d d' ds (t % tilesAlong d tile * tile)
    (t / tilesAlong d tile % tilesAlong d' tile' * tile')
    (originsOf ds ts (t / tilesAlong d tile / tilesAlong d' tile'))
  rw [← originsOf_cons, ← originsOf_cons, Nat.mul_one, Nat.one_mul] at hsplit
  rw [hsplit, List.prod_cons]
  omega

end FitsWell
