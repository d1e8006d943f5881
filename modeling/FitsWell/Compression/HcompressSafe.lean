import FitsWell.Compression.HcompressReads

/-!
# Decoding any bytes

The inverse transform and its smoothing read the values around a block, at most two rows
and two columns away, and the loops stop before the borders. So a stream that no encoder
wrote decodes to a plane of `i64`s or to an error.
-/

namespace FitsWell.Hcompress

/-! ## Coefficients -/

theorem decodedCoefficient_returns (v : ℤ) : Returns FitsI64 (decodedCoefficient v) :=
  .ite (fun h => .ok h) fun _ => Returns.fail _

theorem roundSigned_returns (v prnd nrnd mask : ℤ) :
    Returns FitsI64 (roundSigned v prnd nrnd mask) :=
  (decodedCoefficient_returns _).bind fun _ _ => .ok (fitsI64_and64 _ _)

/-- A word moved down is a word. -/
theorem fitsI64_shiftRight {v : ℤ} (h : FitsI64 v) (k : ℕ) : FitsI64 (v >>> k) := by
  obtain ⟨hlow, hhigh⟩ := h
  have hpow : (1 : ℤ) ≤ 2 ^ k := one_le_pow₀ (by norm_num)
  rw [Int.shiftRight_eq_div_pow]
  constructor
  · rw [Int.le_ediv_iff_mul_le (by positivity)]
    push_cast
    nlinarith
  · rw [Int.ediv_lt_iff_lt_mul (by positivity)]
    push_cast
    nlinarith

/-- A step of a level of the inverse transform keeps its values in range. -/
theorem inverse_block_returns {k : ℕ} (hk : k ≤ 60) (block : Block) {q : Quad ℤ}
    (hq : q.Forall FitsI64) :
    Returns (Quad.Forall FitsI64) ((inverseLevel k).block block q) := by
  obtain ⟨h00, h01, h10, h11⟩ := hq
  have htake : ∀ c v : ℤ, FitsI64 v → Returns FitsI64
      (checkI64 (if 0 ≤ v then v - and64 c (2 ^ k) else v + and64 c (2 ^ k))) := by
    intro c v hv
    have hok := takeDigit_ok hk (c := c) hv
    exact .of_ok hok (checkI64_eq_ok_iff.mp hok).1
  unfold InverseLevel.block
  rw [inverseLevel_bit0, inverseLevel_bit1]
  split
  · refine (roundSigned_returns _ _ _ _).bind fun hx hhx => ?_
    refine (roundSigned_returns _ _ _ _).bind fun hy hhy => ?_
    refine (roundSigned_returns _ _ _ _).bind fun hc _ => ?_
    refine (htake hc hx hhx).bind fun hx _ => (htake hc hy hhy).bind fun hy _ => ?_
    refine (decodedCoefficient_returns _).bind fun h0 _ => ?_
    refine (decodedCoefficient_returns _).bind fun s11 h11 => ?_
    refine (decodedCoefficient_returns _).bind fun s10 h10 => ?_
    refine (decodedCoefficient_returns _).bind fun s01 h01 => ?_
    exact (decodedCoefficient_returns _).bind fun s00 h00 => .ok ⟨h00, h01, h10, h11⟩
  · refine (roundSigned_returns _ _ _ _).bind fun hx _ => ?_
    refine (decodedCoefficient_returns _).bind fun h0 _ => ?_
    refine (decodedCoefficient_returns _).bind fun s10 h10 => ?_
    exact (decodedCoefficient_returns _).bind fun s00 h00 => .ok ⟨h00, h01, h10, h11⟩
  · refine (roundSigned_returns _ _ _ _).bind fun hy _ => ?_
    refine (decodedCoefficient_returns _).bind fun h0 _ => ?_
    refine (decodedCoefficient_returns _).bind fun s01 h01 => ?_
    exact (decodedCoefficient_returns _).bind fun s00 h00 => .ok ⟨h00, h01, h10, h11⟩
  · exact .ok ⟨fitsI64_shiftRight h00 _, h01, h10, h11⟩

/-! ## Smoothing -/

/-- The places of a smoothing loop. -/
theorem mem_evens {start stop i : ℕ} (h : i ∈ evens start stop) : start ≤ i ∧ i < stop := by
  obtain ⟨t, ht, rfl⟩ := List.mem_map.mp h
  have hlt := List.mem_range.mp ht
  omega

section Smoothing

variable {n : ℕ} {a : List ℤ}

theorem adjust_returns {place : ℕ} (h : Slice FitsI64 n a) (hplace : place < n) (k : ℕ)
    (diff dmin dmax smax : ℤ) :
    Returns (Slice FitsI64 n) (adjust a place k diff dmin dmax smax) := by
  refine .ite (fun _ => ?_) fun _ => .ok h
  refine (h.load hplace).bind fun v _ => ?_
  exact (decodedCoefficient_returns _).bind fun w hw => h.store hplace hw

theorem smoothAxis_returns {before centre after place : ℕ} (h : Slice FitsI64 n a)
    (hbefore : before < n) (hcentre : centre < n) (hafter : after < n) (hplace : place < n)
    (smax : ℤ) : Returns (Slice FitsI64 n) (smoothAxis a before centre after place smax) := by
  refine (h.load hbefore).bind fun hm _ => (h.load hcentre).bind fun h0 _ => ?_
  exact (h.load hafter).bind fun hp _ => adjust_returns h hplace _ _ _ _ _

/-- The curvature of a block is adjusted where its diagonal neighbours are in the plane. -/
theorem smoothCurvature_returns {s00 ny : ℕ} (h : Slice FitsI64 n a) (hfirst : ny * 2 + 2 ≤ s00)
    (hlast : s00 + ny * 2 + 2 < n) (smax : ℤ) :
    Returns (Slice FitsI64 n) (smoothCurvature a s00 ny smax) := by
  have hsub : ∀ {x y : ℕ}, y ≤ x → Returns (· = x - y) (subUsize x y) :=
    fun hle => .of_ok (subUsize_of_le hle) rfl
  refine (hsub (show ny * 2 ≤ s00 by omega)).bind fun above habove => ?_
  refine (hsub (show 2 ≤ above by omega)).bind fun aboveLeft haboveLeft => ?_
  refine (h.load (by omega)).bind fun hmm _ => ?_
  refine (hsub (show 2 ≤ s00 + ny * 2 by omega)).bind fun belowLeft hbelowLeft => ?_
  refine (h.load (by omega)).bind fun hpm _ => (h.load (by omega)).bind fun hmp _ => ?_
  refine (h.load (by omega)).bind fun hpp _ => (h.load (by omega)).bind fun h0 _ => ?_
  refine (h.load (by omega)).bind fun hx _ => (h.load (by omega)).bind fun hy _ => ?_
  exact adjust_returns h (by omega) _ _ _ _ _

/-- Smoothing stays inside the plane: where it looks two rows or columns away, there are
that many. -/
theorem hsmooth_returns {nx ny nxtop nytop : ℕ} (h : Slice FitsI64 (nx * ny) a)
    (hnx : nxtop ≤ nx) (hny : nytop ≤ ny) (scale : ℤ) :
    Returns (Slice FitsI64 (nx * ny)) (hsmooth a nxtop nytop ny scale) := by
  have hplace : ∀ {r c : ℕ}, r < nxtop → c < nytop → ny * r + c < nx * ny :=
    fun hr hc => place_lt (by omega) (by omega)
  have hsub : ∀ {x y : ℕ}, y ≤ x → Returns (· = x - y) (subUsize x y) :=
    fun hle => .of_ok (subUsize_of_le hle) rfl
  have hnext : ∀ r, ny * (r + 2) = ny * r + ny * 2 := fun r => by ring
  have hbelow : ∀ r, ny * (r + 1) = ny * r + ny := fun r => by ring
  refine .ite (fun _ => .ok h) fun _ => ?_
  have hrows : Returns (Slice FitsI64 (nx * ny)) ((evens 2 (nxtop - 2)).foldlM (fun a i =>
      (evens 0 nytop).foldlM (fun a j => do
        let s00 := ny * i + j
        let above ← subUsize s00 (ny * 2)
        smoothAxis a above s00 (s00 + ny * 2) (s00 + ny) (scale >>> (1 : ℕ))) a) a) := by
    refine .foldlM h fun i hi a ha => .foldlM ha fun j hj a ha => ?_
    obtain ⟨hi2, hilt⟩ := mem_evens hi
    obtain ⟨-, hjlt⟩ := mem_evens hj
    have hup := hnext (i - 2)
    rw [Nat.sub_add_cancel hi2] at hup
    have hcentre := hplace (show i < nxtop by omega) hjlt
    have hplace1 := hplace (show i + 1 < nxtop by omega) hjlt
    have hafter := hplace (show i + 2 < nxtop by omega) hjlt
    rw [hbelow] at hplace1
    rw [hnext] at hafter
    refine (hsub (show ny * 2 ≤ ny * i + j by omega)).bind fun above habove => ?_
    exact smoothAxis_returns ha (by omega) hcentre (by omega) (by omega) _
  have hcolumns : ∀ a : List ℤ, Slice FitsI64 (nx * ny) a →
      Returns (Slice FitsI64 (nx * ny)) ((evens 0 nxtop).foldlM (fun a i =>
        (evens 2 (nytop - 2)).foldlM (fun a j => do
          let s00 := ny * i + j
          let left ← subUsize s00 2
          smoothAxis a left s00 (s00 + 2) (s00 + 1) (scale >>> (1 : ℕ))) a) a) := by
    intro a h
    refine .foldlM h fun i hi a ha => .foldlM ha fun j hj a ha => ?_
    obtain ⟨-, hilt⟩ := mem_evens hi
    obtain ⟨hj2, hjlt⟩ := mem_evens hj
    have hafter := hplace hilt (show j + 2 < nytop by omega)
    refine (hsub (show 2 ≤ ny * i + j by omega)).bind fun left hleft => ?_
    exact smoothAxis_returns ha (by omega) (by omega) (by omega) (by omega) _
  refine hrows.bind fun a1 h1 => (hcolumns a1 h1).bind fun a2 h2 => ?_
  refine .foldlM h2 fun i hi a ha => .foldlM ha fun j hj a ha => ?_
  obtain ⟨hi2, hilt⟩ := mem_evens hi
  obtain ⟨hj2, hjlt⟩ := mem_evens hj
  have hup := hnext (i - 2)
  rw [Nat.sub_add_cancel hi2] at hup
  have hlast := hplace (show i + 2 < nxtop by omega) (show j + 2 < nytop by omega)
  rw [hnext] at hlast
  exact smoothCurvature_returns ha (by omega) (by omega) _

end Smoothing

/-! ## The inverse transform -/

section Inverse

variable {nx ny : ℕ} {a : List ℤ}

/-- Replacing a part of a plane by values that have a property keeps it. -/
theorem slice_of_replaced {P : ℤ → Prop} {a' : List ℤ} {nxtop nytop : ℕ} {N : ℕ → ℕ → ℤ}
    (h : Slice P (nx * ny) a) (hreplaced : Replaced a a' 0 ny nxtop nytop N)
    (hN : ∀ r < nxtop, ∀ c < nytop, P (N r c)) : Slice P (nx * ny) a' := by
  refine ⟨hreplaced.length_eq.trans h.length_eq, fun v hv => ?_⟩
  obtain ⟨i, hget⟩ := List.mem_iff_getElem?.mp hv
  by_cases hin : ∃ r < nxtop, ∃ c < nytop, i = 0 + ny * r + c
  · obtain ⟨r, hr, c, hc, rfl⟩ := hin
    rw [hreplaced.holds r hr c hc] at hget
    exact Option.some.inj hget ▸ hN r hr c hc
  · rw [hreplaced.outside i fun r hr c hc heq => hin ⟨r, hr, c, hc, heq⟩] at hget
    exact h.all v (List.mem_of_getElem? hget)

/-- One level of the inverse transform of any plane. -/
theorem InverseLevel.run_returns {k nxtop nytop : ℕ} {ws : Workspace} (smoothing : Smoothing)
    (scale : ℤ) (hk : k ≤ 60) (hpos : 0 < nytop) (hnx : nxtop ≤ nx) (hny : nytop ≤ ny)
    (hroom : ws.Room nx ny) (h : Slice FitsI64 (nx * ny) a) :
    Returns (fun s => Slice FitsI64 (nx * ny) s.1 ∧ s.2.Room nx ny)
      ((inverseLevel k).run smoothing scale ny nxtop nytop a ws) := by
  obtain ⟨htmp, hrowTmp⟩ := hroom.mono hnx hny
  obtain ⟨a1, tmp, a2, rowTmp, hok1, hok2, hlength1, hlength2, hreplaced⟩ :=
    unshuffles_ok hpos hny ((sampleGrid_holds h.length_eq).mono hnx hny) htmp hrowTmp
  have h2 : Slice FitsI64 (nx * ny) a2 := by
    refine slice_of_replaced h hreplaced fun r hr c hc => ?_
    exact sampleGrid_fits h.length_eq h.all _ ((unshuffledFrom_lt hr).trans_le hnx) _
      ((unshuffledFrom_lt hc).trans_le hny)
  have hroom' : Workspace.Room ⟨tmp, rowTmp⟩ nx ny := by
    rw [Workspace.Room] at hroom ⊢
    rwa [hlength1, hlength2]
  have hplace : ∀ r < nxtop, ∀ c < nytop, 0 + ny * r + c < nx * ny := by
    intro r hr c hc
    rw [Nat.zero_add]
    exact place_lt (by omega) (by omega)
  have hblocks : ∀ a : List ℤ, Slice FitsI64 (nx * ny) a →
      Returns (fun s : List ℤ × Workspace => Slice FitsI64 (nx * ny) s.1 ∧ s.2.Room nx ny) (do
        let a ← updateBlocks (inverseLevel k).block 0 ny nxtop nytop 0 a
        .ok (a, ⟨tmp, rowTmp⟩)) := by
    intro a h
    refine (updateBlocks_returns h hplace fitsI64_zero fun block _ q hq =>
      inverse_block_returns hk block hq).bind fun a' h' => ?_
    exact .ok ⟨h', hroom'⟩
  unfold InverseLevel.run
  rw [Loops.bind_ok hok1]
  dsimp only
  rw [Loops.bind_ok hok2]
  exact .ite (fun _ => (hsmooth_returns h2 hnx hny scale).bind hblocks) fun _ => hblocks a2 h2

/-- The levels of the inverse transform of any plane. -/
theorem inverseLevels_returns {k : ℕ} {ws : Workspace} {l : InverseLevel} {x y : Axis}
    (smoothing : Smoothing) (scale : ℤ) (hnx : 0 < nx) (hny : 0 < ny) (hk : k ≤ 61)
    (hroom : ws.Room nx ny) (hl : ∀ j, k = j + 1 → l = coarseLevel j) (hx : x.Covers nx k)
    (hy : y.Covers ny k) (h : Slice FitsI64 (nx * ny) a) :
    Returns (Slice FitsI64 (nx * ny)) (inverseLevels smoothing scale ny k l (2 ^ k) x y a ws) := by
  induction k generalizing a ws l x y with
  | zero => exact .ok h
  | succ k ih =>
    have hstep : 2 ^ (k + 1) / 2 = 2 ^ k := by
      rw [pow_succ]
      omega
    have hx' := hx.grow hnx
    have hy' := hy.grow hny
    have hlevel : l.at k = inverseLevel k := by
      rw [hl k rfl, inverseLevel]
    rw [inverseLevels]
    simp only [hstep, hlevel, hx'.top_eq, hy'.top_eq]
    refine (InverseLevel.run_returns smoothing scale (by omega) (extent_pos hny k)
      (extent_le_self nx k) (extent_le_self ny k) hroom h).bind ?_
    rintro ⟨a1, ws1⟩ ⟨h1, hroom1⟩
    refine ih (by omega) hroom1 ?_ hx' hy' h1
    rintro j rfl
    exact inverseLevel_next j

/-- The inverse transform of any plane. -/
theorem hinv_returns (scale : ℤ) (smoothing : Smoothing) (hnx : 0 < nx) (hny : 0 < ny)
    (hx : nx < 2 ^ 31) (hy : ny < 2 ^ 31) (h : Slice FitsI64 (nx * ny) a) :
    Returns (Slice FitsI64 (nx * ny)) (hinv a nx ny scale smoothing) := by
  have hlevels := levels_le hnx hx hy
  obtain ⟨hxl, hyl⟩ := le_two_pow_levels hnx ny
  have hfirst : 0 < nx * ny := Nat.mul_pos hnx hny
  refine .ite (fun _ => .ok h) fun hmany => ?_
  obtain ⟨k, hk⟩ : ∃ k, levels nx ny = k + 1 := by
    refine ⟨levels nx ny - 1, ?_⟩
    have hpos : levels nx ny ≠ 0 := by
      intro hzero
      rw [hzero] at hxl hyl
      omega
    omega
  have hroom : Workspace.Room ⟨List.replicate ((max nx ny + 1) / 2) (0 : ℤ),
      List.replicate ((nx + 1) / 2 * ny) 0⟩ nx ny := by
    constructor <;> rw [List.length_replicate]
    · omega
    · exact Nat.mul_le_mul_right _ (by omega)
  rw [← levels, hk, Loops.bind_ok (onePlace_of_lt (by omega))]
  refine (h.load hfirst).bind fun a0 _ => (roundSigned_returns _ _ _ _).bind fun v hv => ?_
  refine (h.store hfirst hv).bind fun a1 h1 => ?_
  rw [hk] at hxl hyl
  refine inverseLevels_returns smoothing scale hnx hny (by omega) hroom ?_
    (Axis.covers_one hnx hxl) (Axis.covers_one hny hyl) h1
  intro j hj
  rw [coarseLevel_first, Nat.succ.inj hj]

theorem undigitize_returns {n : ℕ} (scale : ℤ) (h : Slice FitsI64 n a) :
    Returns (Slice FitsI64 n) (undigitize a scale) := by
  refine .ite (fun _ => .ok h) fun _ => ?_
  refine (Loops.Ends.mapM fun v _ => decodedCoefficient_returns (v * scale)).mono ?_
  rintro a' ⟨hlength, hall⟩
  exact ⟨hlength.trans h.length_eq, hall⟩

end Inverse

/-! ## Any stream -/

theorem streamDimension_returns {value : ℤ} (h : value < 2 ^ 31) :
    Returns (· < 2 ^ 31) (streamDimension value) :=
  .ite (fun _ => .ok (by omega)) fun _ => Returns.fail _

end FitsWell.Hcompress
