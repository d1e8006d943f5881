import FitsWell.Compression.HcompressPlane

/-!
# Planes that transform to the same samples

An inverse step rounds the sums and differences it takes, so a plane that gives some
samples need not be their transform. The levels keep it near: a plane whose inverse
transform succeeds differs from the transform of what it gives by less than `2 ^ 61`.
-/

namespace FitsWell.Hcompress

/-- The values of two blocks differ by at most a bound. -/
structure Quad.Near (bound : ℤ) (p q : Quad ℤ) : Prop where
  corner : |p.s00 - q.s00| ≤ bound
  right : |p.s01 - q.s01| ≤ bound
  below : |p.s10 - q.s10| ≤ bound
  opposite : |p.s11 - q.s11| ≤ bound

theorem Quad.Near.at {bound : ℤ} {p q : Quad ℤ} (h : p.Near bound q) (r c : ℕ) :
    |p.at r c - q.at r c| ≤ bound := by
  unfold Quad.at
  split
  · split
    · exact h.corner
    · exact h.right
  · split
    · exact h.below
    · exact h.opposite

theorem Quad.Near.trans {bound bound' : ℤ} {p q s : Quad ℤ} (h : p.Near bound q)
    (h' : q.Near bound' s) : p.Near (bound + bound') s := by
  have htriangle : ∀ x y z : ℤ, |x - y| ≤ bound → |y - z| ≤ bound' → |x - z| ≤ bound + bound' :=
    fun x y z hxy hyz => (abs_sub_le x y z).trans (add_le_add hxy hyz)
  exact ⟨htriangle _ _ _ h.corner h'.corner, htriangle _ _ _ h.right h'.right,
    htriangle _ _ _ h.below h'.below, htriangle _ _ _ h.opposite h'.opposite⟩

theorem Quad.Near.symm {bound : ℤ} {p q : Quad ℤ} (h : p.Near bound q) : q.Near bound p := by
  obtain ⟨h00, h01, h10, h11⟩ := h
  constructor <;> rw [abs_sub_comm] <;> assumption

theorem Quad.scale_at (u : ℤ) (q : Quad ℤ) (r c : ℕ) : (q.scale u).at r c = u * q.at r c := by
  simp only [Quad.at, Quad.scale]
  split <;> split <;> rfl

/-- Near blocks are near in any unit. -/
theorem Quad.Near.scale {bound u : ℤ} {p q : Quad ℤ} (hu : 0 ≤ u) (h : p.Near bound q) :
    (p.scale u).Near (u * bound) (q.scale u) := by
  have hscale : ∀ x y : ℤ, |x - y| ≤ bound → |u * x - u * y| ≤ u * bound := by
    intro x y hxy
    rw [← mul_sub, abs_mul, abs_of_nonneg hu]
    exact mul_le_mul_of_nonneg_left hxy hu
  exact ⟨hscale _ _ h.corner, hscale _ _ h.right, hscale _ _ h.below, hscale _ _ h.opposite⟩

/-! ## A block -/

section Block

variable {k : ℕ} {block : Block}

/-- The rounded sums and differences of near values are near. -/
theorem Quad.Near.rounded_haar {e : ℤ} {x w : Quad ℤ} (h : x.Near e w) :
    x.haar.rounded.Near (4 * e + 4) w.haar.rounded := by
  obtain ⟨h00, h01, h10, h11⟩ := h
  rw [abs_le] at h00 h01 h10 h11
  have hsum : |x.haar.s00 - w.haar.s00| ≤ 4 * e := by
    simp only [haar]
    rw [abs_le]
    constructor <;> linarith
  have hcolumn : |x.haar.s01 - w.haar.s01| ≤ 4 * e := by
    simp only [haar]
    rw [abs_le]
    constructor <;> linarith
  have hrow : |x.haar.s10 - w.haar.s10| ≤ 4 * e := by
    simp only [haar]
    rw [abs_le]
    constructor <;> linarith
  have hcurvature : |x.haar.s11 - w.haar.s11| ≤ 4 * e := by
    simp only [haar]
    rw [abs_le]
    constructor <;> linarith
  refine ⟨(roundSum_near _ _).trans ?_, (roundDifference_near _ _).trans ?_,
    (roundDifference_near _ _).trans ?_, ?_⟩
  · linarith
  · linarith
  · linarith
  · exact hcurvature.trans (by linarith)

/-- The values of a block that are extended stay near. -/
theorem Quad.Near.extended {e : ℤ} {x w : Quad ℤ}
    (h : (block.masked x).Near e (block.masked w)) :
    (block.extended x).Near e (block.extended w) := by
  obtain ⟨index, row, col, below, right⟩ := block
  obtain ⟨h00, h01, h10, h11⟩ := h
  cases below <;> cases right <;> simp [Block.masked] at h00 h01 h10 h11 <;>
    constructor <;> simp [Block.extended] <;> assumption

/-- An inverse step that succeeds has rounded what it takes. -/
theorem inverse_block_rounds (hk : k ≤ 60) {q q' : Quad ℤ} {m : ℤ}
    (hq : block.masked q = q) (hsum : q.s00 = unit k * (4 * m))
    (hok : (inverseLevel k).block block q = .ok q') :
    ∃ r, InverseRounds k block q (block.masked r) ∧
      ((block.masked r).scale (unit k)).Near (unit k) q := by
  obtain ⟨index, row, col, below, right⟩ := block
  obtain ⟨q00, q01, q10, q11⟩ := q
  have hpos := unit_pos k
  have hfour : 4 * m % 4 = 0 := Int.mul_emod_right 4 m
  dsimp only at hsum
  cases below <;> cases right <;>
    simp only [Block.masked, Quad.mk.injEq, Bool.and_self, Bool.and_false, Bool.and_true,
      Bool.false_eq_true, if_true, if_false, true_and] at hq
  · obtain ⟨rfl, rfl, rfl⟩ := hq
    refine ⟨⟨4 * m, 0, 0, 0⟩, ⟨⟨hfour, rfl, rfl⟩, hsum, by simp, by simp, by simp⟩, ?_⟩
    constructor <;> simp [Block.masked, Quad.scale, hsum, hpos.le]
  · obtain ⟨rfl, rfl⟩ := hq
    obtain ⟨hy, hhy, -⟩ := Loops.ok_of_bind hok
    change roundRow k q01 = .ok hy at hhy
    obtain ⟨d, heven, rfl, hnear⟩ := roundRow_near hk hhy
    refine ⟨⟨4 * m, d, 0, 0⟩, ⟨⟨hfour, heven, rfl⟩, hsum, by simp, fun _ => hhy, by simp⟩, ?_⟩
    constructor <;> simp [Block.masked, Quad.scale, hsum, hpos.le, hnear]
  · obtain ⟨rfl, rfl⟩ := hq
    obtain ⟨hx, hhx, -⟩ := Loops.ok_of_bind hok
    change roundRow k q10 = .ok hx at hhx
    obtain ⟨d, heven, rfl, hnear⟩ := roundRow_near hk hhx
    refine ⟨⟨4 * m, 0, d, 0⟩, ⟨⟨hfour, rfl, heven⟩, hsum, fun _ => hhx, by simp, by simp⟩, ?_⟩
    constructor <;> simp [Block.masked, Quad.scale, hsum, hpos.le, hnear]
  · obtain ⟨hx, hhx, hok⟩ := Loops.ok_of_bind hok
    obtain ⟨hy, hhy, hok⟩ := Loops.ok_of_bind hok
    obtain ⟨hc, hhc, -⟩ := Loops.ok_of_bind hok
    change roundRow k q10 = .ok hx at hhx
    change roundRow k q01 = .ok hy at hhy
    change roundCurvature k q11 = .ok hc at hhc
    obtain ⟨dx, hxeven, rfl, hxnear⟩ := roundRow_near hk hhx
    obtain ⟨dy, hyeven, rfl, hynear⟩ := roundRow_near hk hhy
    obtain ⟨dc, rfl, hcnear⟩ := roundCurvature_near hk hhc
    refine ⟨⟨4 * m, dy, dx, dc⟩, ⟨⟨hfour, hyeven, hxeven⟩, hsum, fun _ => hhx, fun _ => hhy,
      fun _ => hhc⟩, ?_⟩
    constructor <;> simp [Block.masked, Quad.scale, hsum, hpos.le, hxnear, hynear, hcnear]

/-- The values restored from a block at an edge repeat the last ones inside. -/
theorem extended_unhaar_restored {r : Quad ℤ} (hr : (block.masked r).IsRounded) :
    block.extended (block.masked r).restored.unhaar = (block.masked r).restored.unhaar := by
  obtain ⟨h11, h10, h01, h00⟩ := restored_combinations hr
  obtain ⟨index, row, col, below, right⟩ := block
  obtain ⟨r00, r01, r10, r11⟩ := r
  have hrow : (Quad.mk r00 r01 0 0).restored = ⟨restoreSum r00 0 (r01 / 2 % 2), r01, 0, 0⟩ := by
    simp [Quad.restored, restoreDifference]
  have hcolumn : (Quad.mk r00 0 r10 0).restored = ⟨restoreSum r00 0 (r10 / 2 % 2), 0, r10, 0⟩ := by
    simp [Quad.restored, restoreDifference]
  have hcorner : (Quad.mk r00 0 0 0).restored = ⟨r00, 0, 0, 0⟩ := by
    simp [Quad.restored, restoreDifference, restoreSum]
  cases below <;> cases right <;>
    simp only [Block.masked, Block.extended, Bool.and_self, Bool.and_false, Bool.and_true,
      Bool.false_eq_true, if_true, if_false] at h11 h10 h01 h00 ⊢
  all_goals generalize Quad.unhaar _ = v at h11 h10 h01 h00 ⊢
  all_goals obtain ⟨v00, v01, v10, v11⟩ := v
  · simp only [hcorner] at h11 h10 h01 h00
    simp only [Quad.mk.injEq, true_and]
    omega
  · simp only [hrow] at h11 h10 h01 h00
    simp only [Quad.mk.injEq, true_and]
    omega
  · simp only [hcolumn] at h11 h10 h01 h00
    simp only [Quad.mk.injEq, true_and]
    omega

/-- What an inverse step takes is near the rounded sums and differences of what it gives. -/
theorem inverse_block_near (hk : k ≤ 60) {q q' : Quad ℤ} {m : ℤ}
    (hq : block.masked q = q) (hsum : q.s00 = unit k * (4 * m))
    (hok : (inverseLevel k).block block q = .ok q') :
    ∃ x, q' = block.masked (x.scale (inputUnit k)) ∧
      ((block.extended x).haar.rounded.scale (unit k)).Near (unit k * 5) q := by
  obtain ⟨r, hrounds, hnear⟩ := inverse_block_rounds hk hq hsum hok
  have hpos := unit_pos k
  refine ⟨(block.masked r).restored.unhaar, inverse_block_ok hk hq hrounds hok, ?_⟩
  rw [extended_unhaar_restored hrounds.isRounded, Quad.haar_unhaar_restored hrounds.isRounded]
  obtain ⟨h00, h01, h10, h11⟩ := Quad.rounded_restored_near _ hrounds.isRounded
  have hrestored : (block.masked r).restored.rounded.Near 4 (block.masked r) :=
    ⟨h00, h01.trans (by norm_num), h10.trans (by norm_num), by rw [h11]; norm_num⟩
  have hsum := (hrestored.scale hpos.le).trans hnear
  rwa [show unit k * 4 + unit k = unit k * 5 by ring] at hsum

end Block

/-! ## The levels -/

/-- Near blocks in a unit are near. -/
theorem Quad.Near.of_scale {bound u : ℤ} {p q : Quad ℤ} (hu : 0 < u)
    (h : (p.scale u).Near (u * bound) (q.scale u)) : p.Near bound q := by
  have hscale : ∀ x y : ℤ, |u * x - u * y| ≤ u * bound → |x - y| ≤ bound := by
    intro x y hxy
    rw [← mul_sub, abs_mul, abs_of_pos hu] at hxy
    exact le_of_mul_le_mul_left hxy hu
  exact ⟨hscale _ _ h.corner, hscale _ _ h.right, hscale _ _ h.below, hscale _ _ h.opposite⟩

/-- A block of a grid has no values past an edge. -/
theorem masked_quad (block : Block) (M : ℕ → ℕ → ℤ) :
    block.masked (block.quad M 0) = block.quad M 0 := by
  obtain ⟨index, row, col, below, right⟩ := block
  cases below <;> cases right <;> simp [Block.quad, Block.masked]

/-- Near grids have near blocks. -/
theorem Block.quad_near {nx ny : ℕ} {block : Block} {M N : ℕ → ℕ → ℤ} {bound : ℤ}
    (hblock : block.Inside nx ny) (hbound : 0 ≤ bound)
    (h : ∀ r < nx, ∀ c < ny, |M r c - N r c| ≤ bound) :
    (block.quad M 0).Near bound (block.quad N 0) := by
  obtain ⟨hrow, hcol, -, -, hbelow, hright⟩ := hblock
  constructor
  · exact h _ hrow _ hcol
  · simp only [Block.quad]
    split
    · rename_i hr
      exact h _ hrow _ (hright.mp hr)
    · simpa using hbound
  · simp only [Block.quad]
    split
    · rename_i hb
      exact h _ (hbelow.mp hb) _ hcol
    · simpa using hbound
  · simp only [Block.quad]
    split
    · rename_i hboth
      rw [Bool.and_eq_true] at hboth
      exact h _ (hbelow.mp hboth.1) _ (hright.mp hboth.2)
    · simpa using hbound

/-- A block of an updated grid is what the update made of it. -/
theorem quad_updatedGrid {body : Block → Quad ℤ → Outcome (Quad ℤ)} {nx ny : ℕ} {block : Block}
    {M : ℕ → ℕ → ℤ} {q : Quad ℤ} (hblock : block ∈ blocks nx ny)
    (hok : body block (block.quad M 0) = .ok q) (hq : block.masked q = q) :
    block.quad (updatedGrid body nx ny 0 M) 0 = q := by
  have hinside := inside_of_mem hblock
  have hrow := hinside.row_even
  have hcol := hinside.col_even
  have hvalue : ∀ r c, r / 2 = block.row / 2 → c / 2 = block.col / 2 →
      updatedGrid body nx ny 0 M r c = q.at r c := by
    intro r c hr hc
    rw [updatedGrid, blockAt_eq_of_corner hblock hr hc, hok]
  rw [← hq]
  simp only [Block.quad, Block.masked]
  rw [hvalue _ _ rfl rfl, hvalue _ (block.col + 1) rfl (by omega),
    hvalue (block.row + 1) _ (by omega) rfl, hvalue (block.row + 1) (block.col + 1) (by omega)
      (by omega)]
  simp only [Quad.at, hrow, hcol, show (block.row + 1) % 2 = 1 by omega,
    show (block.col + 1) % 2 = 1 by omega, Nat.one_ne_zero, if_true, if_false]

section Levels

variable {nx ny k : ℕ} {samples P : ℕ → ℕ → ℤ}

/-- The values of a level are near those of the transform, in its input unit. -/
def SumsNear (nx ny : ℕ) (samples : ℕ → ℕ → ℤ) (k : ℕ) (P : ℕ → ℕ → ℤ) : Prop :=
  ∀ r < extent nx k, ∀ c < extent ny k,
    |P r c - inputUnit k * levelSums nx ny samples k r c| ≤ inputUnit k * (3 * k)

/-- What an inverse level takes is near the transform of what it gives. -/
theorem level_near (hk : k ≤ 60) {U : ℕ → ℕ → ℤ}
    (hmultiple : ∀ block ∈ blocks (extent nx k) (extent ny k),
      ∃ m, U block.row block.col = unit k * (4 * m))
    (hbody : ∀ block ∈ blocks (extent nx k) (extent ny k),
      ∃ q, (inverseLevel k).block block (block.quad U 0) = .ok q)
    (hnear : SumsNear nx ny samples k
      (updatedGrid (inverseLevel k).block (extent nx k) (extent ny k) 0 U)) :
    ∀ r < extent nx k, ∀ c < extent ny k,
      |unit k * roundedHaar (extent nx k) (extent ny k) (levelSums nx ny samples k) r c - U r c| ≤
        unit k * (12 * k + 9) := by
  intro r hr c hc
  have hunit := unit_pos k
  have hinput := inputUnit_pos k
  have hblock := blockAt_mem hr hc
  have hat := blockAt_quad_at U 0 hr hc
  rw [roundedHaar]
  generalize blockAt (extent nx k) (extent ny k) (r / 2) (c / 2) = block at hblock hat ⊢
  obtain ⟨q, hok⟩ := hbody block hblock
  obtain ⟨m, hm⟩ := hmultiple block hblock
  obtain ⟨x, rfl, htaken⟩ := inverse_block_near hk (masked_quad block U) hm hok
  have hgiven := quad_updatedGrid hblock hok (masked_masked block _)
  have hquad := Block.quad_near (inside_of_mem hblock)
    (show 0 ≤ inputUnit k * (3 * (k : ℤ)) by positivity) hnear
  rw [hgiven, quad_scale, masked_scale, masked_scale] at hquad
  have hextended := (hquad.of_scale hinput).extended
  have htotal := ((hextended.rounded_haar.scale hunit.le).symm.trans htaken).at r c
  rw [hat, Quad.scale_at] at htotal
  refine htotal.trans (le_of_eq ?_)
  ring

/-- A level gives multiples of its input unit. -/
theorem level_multiple (hk : k ≤ 60) {U : ℕ → ℕ → ℤ}
    (hmultiple : ∀ block ∈ blocks (extent nx k) (extent ny k),
      ∃ m, U block.row block.col = unit k * (4 * m))
    (hbody : ∀ block ∈ blocks (extent nx k) (extent ny k),
      ∃ q, (inverseLevel k).block block (block.quad U 0) = .ok q) :
    ∀ r < extent nx k, ∀ c < extent ny k, inputUnit k ∣
      updatedGrid (inverseLevel k).block (extent nx k) (extent ny k) 0 U r c := by
  intro r hr c hc
  have hblock := blockAt_mem hr hc
  rw [updatedGrid]
  generalize blockAt (extent nx k) (extent ny k) (r / 2) (c / 2) = block at hblock ⊢
  obtain ⟨q, hok⟩ := hbody block hblock
  obtain ⟨m, hm⟩ := hmultiple block hblock
  obtain ⟨x, rfl, -⟩ := inverse_block_near hk (masked_quad block U) hm hok
  rw [hok]
  dsimp only
  rw [masked_scale, Quad.scale_at]
  exact Int.dvd_mul_right _ _

/-- The levels that give some samples take a plane near their transform. -/
theorem inverseLevels_near {a a' : List ℤ} {ws : Workspace} {l : InverseLevel} {x y : Axis}
    {scale : ℤ} (hnx : 0 < nx) (hny : 0 < ny) (hk : k ≤ 31) (hroom : ws.Room nx ny)
    (hl : ∀ j, k = j + 1 → l = coarseLevel j) (hx : x.Covers nx k) (hy : y.Covers ny k)
    (h : Holds a 0 ny nx ny P)
    (hmultiple : ∀ r < extent nx k, ∀ c < extent ny k, inputUnit k ∣ P r c)
    (hok : inverseLevels .off scale ny k l (2 ^ k) x y a ws = .ok a')
    (hsamples : Holds a' 0 ny nx ny samples) :
    SumsNear nx ny samples k P ∧
      ∀ r < nx, ∀ c < ny, |P r c - transformed nx ny samples k r c| < 2 ^ 61 := by
  induction k generalizing a ws l x y P with
  | zero =>
    have ha := Except.ok.inj hok
    subst ha
    have hsame : ∀ r < nx, ∀ c < ny, P r c = samples r c := fun r hr c hc =>
      Option.some.inj ((h r hr c hc).symm.trans (hsamples r hr c hc))
    constructor
    · intro r hr c hc
      rw [hsame r hr c hc]
      simp [inputUnit, levelSums]
    · intro r hr c hc
      rw [hsame r hr c hc]
      simp [transformed]
  | succ k ih =>
    have hxk := extent_le_self nx k
    have hyk := extent_le_self ny k
    have hpos := extent_pos hny k
    have hunit := unit_pos k
    have hstep : 2 ^ (k + 1) / 2 = 2 ^ k := by
      rw [pow_succ]
      omega
    have hx' := hx.grow hnx
    have hy' := hy.grow hny
    have hlevel : l.at k = inverseLevel k := by
      rw [hl k rfl, inverseLevel]
    rw [inverseLevels] at hok
    simp only [hstep, hlevel, hx'.top_eq, hy'.top_eq] at hok
    obtain ⟨s, hrun, hrest⟩ := Loops.ok_of_bind hok
    have hpart := h.mono hxk hyk
    have hbody := InverseLevel.body_ok_of_run hpos hyk (hroom.mono hxk hyk) hpart hrun
    obtain ⟨a1, ws1, hrun1, hroom1, hreplaced⟩ := InverseLevel.run_total scale hpos hyk
      (hroom.mono hxk hyk) hpart hbody
    rw [hrun1] at hrun
    obtain rfl := Except.ok.inj hrun
    -- the corners of the blocks are the sums in front
    have hcorner : ∀ block ∈ blocks (extent nx k) (extent ny k), ∃ m,
        P (unshuffledFrom (extent nx k) block.row) (unshuffledFrom (extent ny k) block.col) =
          unit k * (4 * m) := by
      intro block hblock
      obtain ⟨i, hi, j, hj, rfl⟩ := mem_blocks.mp hblock
      obtain ⟨m, hm⟩ := hmultiple i hi j hj
      refine ⟨m, ?_⟩
      simp only [blockAt, unshuffledFrom, Nat.mul_mod_right, if_true,
        Nat.mul_div_cancel_left _ (show 0 < 2 by decide)]
      rw [hm, inputUnit_succ]
      ring
    have hplane := (hreplaced.widen (Nat.le_refl ny) h hxk hyk).holds
    have hcoarse : ∀ j, k = j + 1 → (inverseLevel k).next = coarseLevel j := by
      rintro j rfl
      exact inverseLevel_next j
    obtain ⟨hsums, hall⟩ := ih (by omega) (hroom1 nx ny hroom) hcoarse hx' hy' hplane
      (by
        intro r hr c hc
        rw [if_pos ⟨hr, hc⟩]
        exact level_multiple (by omega) hcorner hbody r hr c hc) hrest
    have hpart_near := level_near (by omega) hcorner hbody (by
      intro r hr c hc
      have hnear := hsums r hr c hc
      dsimp only at hnear
      rwa [if_pos ⟨hr, hc⟩] at hnear)
    have hin : ∀ r < extent nx k, ∀ c < extent ny k,
        |P r c - unit k * shuffledHaar (extent nx k) (extent ny k) (levelSums nx ny samples k) r c|
          ≤ unit k * (12 * k + 9) := by
      intro r hr c hc
      have hnear := hpart_near _ (shuffledFrom_lt hr) _ (shuffledFrom_lt hc)
      rw [unshuffledFrom_shuffledFrom, unshuffledFrom_shuffledFrom, abs_sub_comm] at hnear
      exact hnear
    constructor
    · intro r hr c hc
      have hnear := hin r (hr.trans_le (extent_le nx k)) c (hc.trans_le (extent_le ny k))
      rw [four_mul_levelSums samples hr hc] at hnear
      rw [inputUnit_succ]
      push_cast
      calc |P r c - 4 * unit k * levelSums nx ny samples (k + 1) r c|
          = |P r c - unit k * (4 * levelSums nx ny samples (k + 1) r c)| := by ring_nf
        _ ≤ unit k * (12 * k + 9) := hnear
        _ ≤ 4 * unit k * (3 * (k + 1)) := by nlinarith
    · intro r hr c hc
      rw [transformed_succ]
      by_cases hfront : r < extent nx k ∧ c < extent ny k
      · rw [if_pos hfront]
        refine (hin r hfront.1 c hfront.2).trans_lt ?_
        have hpow : unit k ≤ 2 ^ 30 := pow_le_pow_right₀ (by norm_num) (by omega)
        have hsteps : (12 * k + 9 : ℤ) ≤ 369 := by omega
        calc unit k * (12 * k + 9) ≤ 2 ^ 30 * 369 := by
              exact Int.mul_le_mul hpow hsteps (by positivity) (by norm_num)
          _ < 2 ^ 61 := by norm_num
      · rw [if_neg hfront]
        have hrest_near := hall r hr c hc
        rwa [if_neg hfront] at hrest_near

end Levels

/-- A plane whose inverse transform gives some samples is near their coefficients, the
first apart, which is rounded before the levels. -/
theorem hinv_near {nx ny : ℕ} {a values : List ℤ} {scale : ℤ} (hnx : 0 < nx) (hny : 0 < ny)
    (hx : nx < 2 ^ 31) (hy : ny < 2 ^ 31) (ha : a.length = nx * ny)
    (hvalues : values.length = nx * ny) (hok : hinv a nx ny scale .off = .ok values) :
    ∀ r < nx, ∀ c < ny, ny * r + c ≠ 0 →
      |sampleGrid ny a r c - coefficients nx ny values r c| < 2 ^ 61 := by
  have hlevels := levels_le hnx hx hy
  obtain ⟨hxl, hyl⟩ := le_two_pow_levels hnx ny
  intro r hr c hc hplace
  have hmany : ¬max nx ny ≤ 1 := by
    intro hone
    have hr0 : r = 0 := by omega
    have hc0 : c = 0 := by omega
    subst hr0 hc0
    exact hplace (by simp)
  obtain ⟨n, hn⟩ : ∃ n, levels nx ny = n + 1 := by
    refine ⟨levels nx ny - 1, ?_⟩
    have hpos : levels nx ny ≠ 0 := by
      intro hzero
      rw [hzero] at hxl hyl
      omega
    omega
  have hbit : (2 : ℤ) ^ n * 4 = 2 ^ (n + 2) := by ring
  have hhalf : (2 : ℤ) ^ (n + 2) >>> (1 : ℕ) = 2 ^ (n + 1) := by
    rw [Int.shiftRight_eq_div_pow, pow_succ 2 (n + 1)]
    exact Int.mul_ediv_cancel _ (by norm_num)
  have hmask : -(2 : ℤ) ^ n * 4 = -2 ^ (n + 2) := by ring
  simp only [hinv] at hok
  rw [if_neg hmany, ← levels, hn, coarseLevel_first] at hok
  simp only [coarseLevel, hbit, hhalf, hmask] at hok
  rw [Loops.bind_ok (onePlace_of_lt (by omega))] at hok
  obtain ⟨a0, -, hok⟩ := Loops.ok_of_bind hok
  obtain ⟨w, hround, hok⟩ := Loops.ok_of_bind hok
  obtain ⟨a1, hstore, hok⟩ := Loops.ok_of_bind hok
  have hmultiple := roundSigned_ok (by omega) hround
  have hlt : 0 < a.length := by
    rw [ha]
    exact Nat.mul_pos hnx hny
  rw [store_of_lt w hlt] at hstore
  obtain rfl := Except.ok.inj hstore
  have hplane : Holds (a.set 0 w) 0 ny nx ny fun r c =>
      if ny * r + c = 0 then w else sampleGrid ny a r c := by
    intro r hr c hc
    have hget := sampleGrid_holds ha r hr c hc
    rw [Nat.zero_add] at hget ⊢
    dsimp only
    split
    · rename_i hzero
      rw [hzero, List.getElem?_set_self hlt]
    · rename_i hzero
      rw [List.getElem?_set_ne (Ne.symm hzero), hget]
  have hroom : Workspace.Room ⟨List.replicate ((max nx ny + 1) / 2) (0 : ℤ),
      List.replicate ((nx + 1) / 2 * ny) 0⟩ nx ny := by
    constructor
    · rw [List.length_replicate]
      omega
    · rw [List.length_replicate]
      exact Nat.mul_le_mul_right _ (by omega)
  rw [hn] at hxl hyl hlevels
  have hfront : ∀ r < extent nx (n + 1), ∀ c < extent ny (n + 1), inputUnit (n + 1) ∣
      if ny * r + c = 0 then w else sampleGrid ny a r c := by
    rw [extent_eq_one hnx hxl, extent_eq_one hny hyl]
    intro r hr c hc
    have hr0 : r = 0 := by omega
    have hc0 : c = 0 := by omega
    subst hr0 hc0
    rw [if_pos (by simp), inputUnit, if_neg (Nat.succ_ne_zero n), hmultiple]
    exact Int.dvd_mul_left _ _
  have hall := (inverseLevels_near hnx hny hlevels hroom
    (by
      intro j hj
      rw [← Nat.succ.inj hj]
      rfl)
    (Axis.covers_one hnx hxl) (Axis.covers_one hny hyl) hplane hfront hok
    (sampleGrid_holds hvalues)).2 r hr c hc
  rw [if_neg hplace] at hall
  rwa [coefficients, hn]

end FitsWell.Hcompress
