import FitsWell.Compression.HcompressLevel
import FitsWell.Compression.HcompressShuffle
import Mathlib.Data.Nat.Log

/-!
# The H-transform of a plane

The plane after some levels, in exact arithmetic: the sums left to transform, in the input
unit of the next level, and around them the differences of each level in its own unit. The
forward levels compute it, and the inverse levels go back from it to the samples.
-/

namespace FitsWell.Hcompress

/-! ## Extents -/

/-- The extent of an axis at the level `k`: each level halves it, rounding up. -/
def extent (n : ℕ) : ℕ → ℕ
  | 0 => n
  | k + 1 => (extent n k + 1) / 2

/-- An extent is the whole one divided by the level's step, rounded up. -/
theorem extent_eq {n : ℕ} (hn : 0 < n) (k : ℕ) : extent n k = (n - 1) / 2 ^ k + 1 := by
  induction k with
  | zero =>
    rw [extent, pow_zero, Nat.div_one]
    omega
  | succ k ih =>
    rw [extent, ih, pow_succ, ← Nat.div_div_eq_div_mul]
    omega

theorem extent_pos {n : ℕ} (hn : 0 < n) (k : ℕ) : 0 < extent n k := by
  rw [extent_eq hn]
  exact Nat.succ_pos _

theorem extent_le (n k : ℕ) : extent n (k + 1) ≤ extent n k := by
  rw [extent]
  omega

theorem extent_le_self (n k : ℕ) : extent n k ≤ n := by
  induction k with
  | zero => exact Nat.le_refl _
  | succ k ih => exact (extent_le n k).trans ih

/-- An axis is one block long at a level whose step covers it. -/
theorem extent_eq_one {n k : ℕ} (hn : 0 < n) (h : n ≤ 2 ^ k) : extent n k = 1 := by
  rw [extent_eq hn, Nat.div_eq_of_lt (by omega)]

/-- The last step of `2 ^ k` of an axis of `n` covers `axis.left` of it. -/
structure Axis.Covers (axis : Axis) (n k : ℕ) : Prop where
  top_eq : axis.top = extent n k
  left_pos : 0 < axis.left
  left_le : axis.left ≤ 2 ^ k
  whole : (axis.top - 1) * 2 ^ k + axis.left = n

/-- A single step covers an axis. -/
theorem Axis.covers_one {n k : ℕ} (hn : 0 < n) (h : n ≤ 2 ^ k) : (Axis.mk 1 n).Covers n k :=
  ⟨(extent_eq_one hn h).symm, hn, h, by simp⟩

/-- The axis grown to a finer level covers it. -/
theorem Axis.Covers.grow {axis : Axis} {n k : ℕ} (hn : 0 < n) (h : axis.Covers n (k + 1)) :
    (axis.grow (2 ^ k)).Covers n k := by
  obtain ⟨top, left⟩ := axis
  obtain ⟨htop, hpos, hle, hwhole⟩ := h
  have htoppos := extent_pos hn (k + 1)
  rw [← htop] at htoppos
  dsimp only at htop hpos hle hwhole htoppos
  have hunique : ∀ t l : ℕ, 0 < t → 0 < l → l ≤ 2 ^ k → (t - 1) * 2 ^ k + l = n →
      t = extent n k := by
    intro t l ht hl hlk heq
    have hsplit : n - 1 = l - 1 + 2 ^ k * (t - 1) := by
      rw [Nat.mul_comm]
      omega
    rw [extent_eq hn, hsplit, Nat.add_mul_div_left _ _ (by positivity),
      Nat.div_eq_of_lt (by omega)]
    omega
  rw [pow_succ] at hle hwhole
  unfold Axis.grow
  dsimp only
  split
  · rename_i hfew
    have heq : (2 * top - 1 - 1) * 2 ^ k + left = n := by
      rw [← hwhole, show 2 * top - 1 - 1 = (top - 1) * 2 by omega]
      ring
    exact ⟨hunique (2 * top - 1) left (by omega) hpos hfew heq, hpos, hfew, heq⟩
  · rename_i hmany
    have heq : (2 * top - 1) * 2 ^ k + (left - 2 ^ k) = n := by
      rw [← hwhole, show 2 * top - 1 = (top - 1) * 2 + 1 by omega, Nat.add_mul, Nat.one_mul,
        Nat.mul_assoc, Nat.mul_comm 2 (2 ^ k), Nat.add_assoc, Nat.add_sub_cancel' (by omega)]
    have hleft : 0 < left - 2 ^ k := by omega
    have hrest : left - 2 ^ k ≤ 2 ^ k := by omega
    exact ⟨hunique (2 * top) (left - 2 ^ k) (by omega) hleft hrest heq, hleft, hrest, heq⟩

/-! ## The rounded logarithm -/

theorem onePlace_of_lt {log2n : ℕ} (h : log2n < 64) : onePlace log2n = .ok (2 ^ log2n) := if_pos h

/-- `log2Ceil` is the base-two logarithm rounded up. -/
theorem log2Ceil_bounds {n : ℕ} (hn : 0 < n) : n ≤ 2 ^ log2Ceil n ∧ 2 ^ log2Ceil n < 2 * n := by
  have hlow := Nat.log2_self_le (show 2 * n * n ≠ 0 by positivity)
  have hhigh := Nat.lt_log2_self (n := 2 * n * n)
  generalize hL : Nat.log2 (2 * n * n) = L at hlow hhigh
  have hround : roundedLog2 n = L / 2 := by rw [roundedLog2, hL]
  -- twice the square lies between the even powers around it
  have hbelow : 2 ^ (L / 2) * 2 ^ (L / 2) ≤ 2 ^ L := by
    rw [← pow_add]
    exact Nat.pow_le_pow_right (by decide) (by omega)
  have habove : 2 ^ (L + 1) ≤ 2 ^ (L / 2) * 2 ^ (L / 2) * 4 := by
    rw [← pow_add, show (4 : ℕ) = 2 ^ 2 by rfl, ← pow_add]
    exact Nat.pow_le_pow_right (by decide) (by omega)
  unfold log2Ceil
  rw [hround]
  by_cases hshort : 2 ^ (L / 2) < n
  · simp only [hshort, if_true, pow_succ]
    generalize 2 ^ (L / 2) = P at hbelow habove hshort
    exact ⟨by nlinarith, by omega⟩
  · simp only [hshort, if_false]
    generalize 2 ^ (L / 2) = P at hbelow habove hshort
    exact ⟨by omega, by nlinarith⟩

/-! ## The levels in exact arithmetic -/

/-- The rounded sums and differences of a plane, in the unit of its level, each at the
place of a value of its block. -/
def roundedHaar (nx ny : ℕ) (m : ℕ → ℕ → ℤ) (r c : ℕ) : ℤ :=
  let block := blockAt nx ny (r / 2) (c / 2)
  (block.extended (block.quad m 0)).haar.rounded.at r c

/-- The rounded sums and differences with the sums moved to the front. -/
def shuffledHaar (nx ny : ℕ) (m : ℕ → ℕ → ℤ) (r c : ℕ) : ℤ :=
  roundedHaar nx ny m (shuffledFrom nx r) (shuffledFrom ny c)

/-- The sums that the level `k` of a plane of `nx` rows of `ny` samples starts from, in its
input unit. -/
def levelSums (nx ny : ℕ) (samples : ℕ → ℕ → ℤ) : ℕ → ℕ → ℕ → ℤ
  | 0, r, c => samples r c
  | k + 1, r, c =>
    shuffledHaar (extent nx k) (extent ny k) (levelSums nx ny samples k) r c / 4

/-- The plane after the levels below `k`. -/
def transformed (nx ny : ℕ) (samples : ℕ → ℕ → ℤ) : ℕ → ℕ → ℕ → ℤ
  | 0, r, c => samples r c
  | k + 1, r, c =>
    if r < extent nx (k + 1) ∧ c < extent ny (k + 1) then
      inputUnit (k + 1) * levelSums nx ny samples (k + 1) r c
    else if r < extent nx k ∧ c < extent ny k then
      unit k * shuffledHaar (extent nx k) (extent ny k) (levelSums nx ny samples k) r c
    else
      transformed nx ny samples k r c

section Levels

variable {nx ny : ℕ} {samples : ℕ → ℕ → ℤ}

/-- The plane after some levels holds the next one's input in front. -/
theorem transformed_of_lt {k r c : ℕ} (hr : r < extent nx k) (hc : c < extent ny k) :
    transformed nx ny samples k r c = inputUnit k * levelSums nx ny samples k r c := by
  cases k with
  | zero => simp [transformed, levelSums, inputUnit]
  | succ k => rw [transformed, if_pos ⟨hr, hc⟩]

/-- A sum of a level is a multiple of four of its units. -/
theorem four_mul_levelSums (samples : ℕ → ℕ → ℤ) {k r c : ℕ} (hr : r < extent nx (k + 1)) (hc : c < extent ny (k + 1)) :
    shuffledHaar (extent nx k) (extent ny k) (levelSums nx ny samples k) r c =
      4 * levelSums nx ny samples (k + 1) r c := by
  rw [extent] at hr hc
  have hmultiple : shuffledHaar (extent nx k) (extent ny k) (levelSums nx ny samples k) r c % 4 =
      0 := by
    simp only [shuffledHaar, shuffledFrom, if_pos hr, if_pos hc, roundedHaar, Quad.at,
      Nat.mul_mod_right, if_true]
    exact (Quad.isRounded_rounded _).sum
  rw [levelSums]
  omega

/-- The plane after a level is what the level makes of its input, and what was around it. -/
theorem transformed_succ {k r c : ℕ} :
    transformed nx ny samples (k + 1) r c =
      if r < extent nx k ∧ c < extent ny k then
        unit k * shuffledHaar (extent nx k) (extent ny k) (levelSums nx ny samples k) r c
      else transformed nx ny samples k r c := by
  have hx := extent_le nx k
  have hy := extent_le ny k
  rw [transformed]
  by_cases hsum : r < extent nx (k + 1) ∧ c < extent ny (k + 1)
  · rw [if_pos hsum, if_pos ⟨by omega, by omega⟩, four_mul_levelSums samples hsum.1 hsum.2,
      inputUnit_succ]
    ring
  · rw [if_neg hsum]

end Levels

/-! ## Runs of a level -/

/-- A block of a scaled grid is the scaled block. -/
theorem quad_scale (block : Block) (u : ℤ) (m : ℕ → ℕ → ℤ) :
    block.quad (fun r c => u * m r c) 0 = block.masked ((block.quad m 0).scale u) := by
  obtain ⟨index, row, col, below, right⟩ := block
  cases below <;> cases right <;> simp [Block.quad, Block.masked, Quad.scale]

/-- The workspaces have room for the shuffles of `nx` rows of `ny` values. -/
def Workspace.Room (ws : Workspace) (nx ny : ℕ) : Prop :=
  ny / 2 ≤ ws.tmp.length ∧ nx / 2 * ny ≤ ws.rowTmp.length

theorem Workspace.Room.mono {ws : Workspace} {nx ny nx' ny' : ℕ} (h : ws.Room nx ny)
    (hx : nx' ≤ nx) (hy : ny' ≤ ny) : ws.Room nx' ny' := by
  obtain ⟨htmp, hrow⟩ := h
  refine ⟨by omega, ?_⟩
  calc nx' / 2 * ny' ≤ nx / 2 * ny := Nat.mul_le_mul (by omega) hy
    _ ≤ ws.rowTmp.length := hrow

section Run

variable {a : List ℤ} {ws : Workspace} {ny nxtop nytop : ℕ} {M : ℕ → ℕ → ℤ}

/-- A forward level whose blocks all pass replaces its part of the plane. -/
theorem ForwardLevel.run_total {l : ForwardLevel} (hpos : 0 < nytop) (hny : nytop ≤ ny)
    (hroom : ws.Room nxtop nytop) (h : Holds a 0 ny nxtop nytop M)
    (hbody : ∀ block ∈ blocks nxtop nytop, ∃ q, l.block block (block.quad M 0) = .ok q) :
    ∃ a' ws', l.run ny nxtop nytop a ws = .ok (a', ws') ∧
      (∀ nx ny, ws.Room nx ny → ws'.Room nx ny) ∧
      Replaced a a' 0 ny nxtop nytop fun r c =>
        updatedGrid l.block nxtop nytop 0 M (shuffledFrom nxtop r) (shuffledFrom nytop c) := by
  obtain ⟨a1, hok1, hupdated⟩ := updateBlocks_total hny h hbody
  obtain ⟨a2, tmp', a3, rowTmp', hok2, hok3, htmp, hrowTmp, hshuffled⟩ :=
    shuffles_ok hpos hny hupdated.holds hroom.1 hroom.2
  refine ⟨a3, ⟨tmp', rowTmp'⟩, ?_, ?_, hupdated.trans hshuffled⟩
  · simp only [ForwardLevel.run, bind, Except.bind, hok1, hok2, hok3]
  · intro nx ny hws
    rw [Workspace.Room] at hws ⊢
    rwa [htmp, hrowTmp]

/-- A forward level that succeeds passes all its blocks. -/
theorem ForwardLevel.body_ok_of_run {l : ForwardLevel} {s : List ℤ × Workspace}
    (hny : nytop ≤ ny) (h : Holds a 0 ny nxtop nytop M)
    (hok : l.run ny nxtop nytop a ws = .ok s) :
    ∀ block ∈ blocks nxtop nytop, ∃ q, l.block block (block.quad M 0) = .ok q := by
  obtain ⟨a1, hok1, -⟩ := Loops.ok_of_bind hok
  exact body_ok_of_updateBlocks hny h hok1

/-- An inverse level whose blocks all pass replaces its part of the plane. -/
theorem InverseLevel.run_total {l : InverseLevel} (scale : ℤ) (hpos : 0 < nytop)
    (hny : nytop ≤ ny) (hroom : ws.Room nxtop nytop) (h : Holds a 0 ny nxtop nytop M)
    (hbody : ∀ block ∈ blocks nxtop nytop, ∃ q, l.block block (block.quad
      (fun r c => M (unshuffledFrom nxtop r) (unshuffledFrom nytop c)) 0) = .ok q) :
    ∃ a' ws', l.run .off scale ny nxtop nytop a ws = .ok (a', ws') ∧
      (∀ nx ny, ws.Room nx ny → ws'.Room nx ny) ∧
      Replaced a a' 0 ny nxtop nytop (updatedGrid l.block nxtop nytop 0
        fun r c => M (unshuffledFrom nxtop r) (unshuffledFrom nytop c)) := by
  obtain ⟨a1, tmp', a2, rowTmp', hok1, hok2, htmp, hrowTmp, hunshuffled⟩ :=
    unshuffles_ok hpos hny h hroom.1 hroom.2
  obtain ⟨a3, hok3, hupdated⟩ := updateBlocks_total hny hunshuffled.holds hbody
  refine ⟨a3, ⟨tmp', rowTmp'⟩, ?_, ?_, hunshuffled.trans hupdated⟩
  · simp only [InverseLevel.run, bind, Except.bind, hok1, hok2]
    exact Loops.bind_ok hok3
  · intro nx ny hws
    rw [Workspace.Room] at hws ⊢
    rwa [htmp, hrowTmp]

/-- An inverse level that succeeds passes all its blocks. -/
theorem InverseLevel.body_ok_of_run {l : InverseLevel} {scale : ℤ} {s : List ℤ × Workspace}
    (hpos : 0 < nytop) (hny : nytop ≤ ny) (hroom : ws.Room nxtop nytop)
    (h : Holds a 0 ny nxtop nytop M) (hok : l.run .off scale ny nxtop nytop a ws = .ok s) :
    ∀ block ∈ blocks nxtop nytop, ∃ q, l.block block (block.quad
      (fun r c => M (unshuffledFrom nxtop r) (unshuffledFrom nytop c)) 0) = .ok q := by
  obtain ⟨a1, tmp', a2, rowTmp', hok1, hok2, -, -, hunshuffled⟩ :=
    unshuffles_ok hpos hny h hroom.1 hroom.2
  simp only [InverseLevel.run, bind, Except.bind, hok1, hok2] at hok
  obtain ⟨a3, hok3, -⟩ := Loops.ok_of_bind hok
  exact body_ok_of_updateBlocks hny hunshuffled.holds hok3

end Run

/-! ## The levels -/

/-- The blocks of a plane's rounded sums and differences. -/
theorem quad_roundedHaar {nx ny : ℕ} {block : Block} (m : ℕ → ℕ → ℤ)
    (h : block ∈ blocks nx ny) :
    block.quad (roundedHaar nx ny m) 0 =
      block.masked (block.extended (block.quad m 0)).haar.rounded := by
  have hinside := inside_of_mem h
  have hrow := hinside.row_even
  have hcol := hinside.col_even
  have hvalue : ∀ r c, r / 2 = block.row / 2 → c / 2 = block.col / 2 →
      roundedHaar nx ny m r c = (block.extended (block.quad m 0)).haar.rounded.at r c := by
    intro r c hr hc
    rw [roundedHaar, blockAt_eq_of_corner h hr hc]
  simp only [Block.quad, Block.masked]
  rw [hvalue _ _ rfl rfl, hvalue _ (block.col + 1) rfl (by omega),
    hvalue (block.row + 1) _ (by omega) rfl, hvalue (block.row + 1) (block.col + 1) (by omega)
      (by omega)]
  simp only [Quad.at, hrow, hcol, show (block.row + 1) % 2 = 1 by omega,
    show (block.col + 1) % 2 = 1 by omega, Nat.one_ne_zero, if_true, if_false]
  rfl

/-- The blocks of a level's input pass the checks of its forward step. -/
def ForwardPasses (nx ny : ℕ) (samples : ℕ → ℕ → ℤ) (k : ℕ) : Prop :=
  ∀ block ∈ blocks (extent nx k) (extent ny k), ∃ q, (forwardLevel k).block block
    (block.quad (fun r c => inputUnit k * levelSums nx ny samples k r c) 0) = .ok q

section Levels

variable {nx ny k : ℕ} {samples : ℕ → ℕ → ℤ}

/-- A level that passes gives each block its rounded sums and differences. -/
theorem ForwardPasses.block_eq (hk : k ≤ 60) (h : ForwardPasses nx ny samples k) {block : Block}
    (hblock : block ∈ blocks (extent nx k) (extent ny k)) :
    (forwardLevel k).block block
        (block.quad (fun r c => inputUnit k * levelSums nx ny samples k r c) 0) =
      .ok (block.quad (fun r c => unit k *
        roundedHaar (extent nx k) (extent ny k) (levelSums nx ny samples k) r c) 0) := by
  obtain ⟨q, hq⟩ := h block hblock
  rw [hq]
  rw [quad_scale] at hq
  rw [(forward_block hk hq).1, quad_scale, quad_roundedHaar _ hblock, ← masked_scale,
    masked_masked]

/-- The sums of a level that passes are in range. -/
theorem ForwardPasses.fits (hk : k ≤ 60) (h : ForwardPasses nx ny samples k) {r c : ℕ}
    (hr : r < extent nx (k + 1)) (hc : c < extent ny (k + 1)) :
    FitsI64 (inputUnit (k + 1) * levelSums nx ny samples (k + 1) r c) := by
  have hsum := four_mul_levelSums samples hr hc
  rw [extent] at hr hc
  have hmem : blockAt (extent nx k) (extent ny k) r c ∈ blocks (extent nx k) (extent ny k) :=
    mem_blocks.mpr ⟨r, hr, c, hc, rfl⟩
  obtain ⟨q, hq⟩ := h _ hmem
  rw [quad_scale] at hq
  have hfit := (forward_block hk hq).2.roundedSum
  rw [inputUnit_succ, show 4 * unit k * levelSums nx ny samples (k + 1) r c =
    unit k * (4 * levelSums nx ny samples (k + 1) r c) by ring, ← hsum]
  simpa only [shuffledHaar, shuffledFrom, if_pos hr, if_pos hc, roundedHaar, Quad.at,
    Nat.mul_mod_right, if_true, Nat.mul_div_cancel_left _ (show 0 < 2 by decide),
    Quad.rounded] using hfit

/-- The sums and differences of a level that passes are in range. -/
theorem ForwardPasses.shuffled_fits (hk : k ≤ 60) (h : ForwardPasses nx ny samples k) {r c : ℕ}
    (hr : r < extent nx k) (hc : c < extent ny k) :
    FitsI64 (unit k *
      shuffledHaar (extent nx k) (extent ny k) (levelSums nx ny samples k) r c) := by
  have hmem := blockAt_mem (shuffledFrom_lt hr) (shuffledFrom_lt hc)
  obtain ⟨q, hq⟩ := h _ hmem
  rw [quad_scale] at hq
  have hfit := (forward_block hk hq).2
  generalize hhaar : (Block.extended _ _).haar = s at hfit
  have hall : s.rounded.Forall fun v => FitsI64 (unit k * v) :=
    ⟨hfit.roundedSum, hfit.roundedColumn, hfit.roundedRow, hfit.curvature⟩
  rw [shuffledHaar, roundedHaar, hhaar]
  exact hall.at _ _

/-- The plane after levels that pass is in range. -/
theorem transformed_fits (hk : k ≤ 61) (hsamples : ∀ r < nx, ∀ c < ny, FitsI64 (samples r c))
    (h : ∀ j < k, ForwardPasses nx ny samples j) :
    ∀ r < nx, ∀ c < ny, FitsI64 (transformed nx ny samples k r c) := by
  induction k with
  | zero => exact hsamples
  | succ k ih =>
    intro r hr c hc
    rw [transformed_succ]
    split
    · rename_i hin
      exact (h k (Nat.lt_succ_self k)).shuffled_fits (by omega) hin.1 hin.2
    · exact ih (by omega) (fun j hj => h j (by omega)) r hr c hc

/-- The values each level starts from are in range. -/
theorem levelSums_fits (hk : k ≤ 61) (hsamples : ∀ r < nx, ∀ c < ny, FitsI64 (samples r c))
    (h : ∀ j < k, ForwardPasses nx ny samples j) {r c : ℕ} (hr : r < extent nx k)
    (hc : c < extent ny k) : FitsI64 (inputUnit k * levelSums nx ny samples k r c) := by
  cases k with
  | zero =>
    rw [inputUnit, if_pos rfl, Int.one_mul]
    exact hsamples r hr c hc
  | succ k => exact (h k (Nat.lt_succ_self k)).fits (by omega) hr hc

/-- The forward levels compute the plane of exact arithmetic, and pass where they
succeed. -/
theorem forwardLevels_ok {count : ℕ} {a a' : List ℤ} {ws : Workspace} (hny : 0 < ny)
    (hk : k + count ≤ 61) (hroom : ws.Room nx ny)
    (h : Holds a 0 ny nx ny (transformed nx ny samples k))
    (hok : forwardLevels ny count (forwardLevel k) (extent nx k) (extent ny k) a ws = .ok a') :
    a'.length = a.length ∧ Holds a' 0 ny nx ny (transformed nx ny samples (k + count)) ∧
      ∀ j, k ≤ j → j < k + count → ForwardPasses nx ny samples j := by
  induction count generalizing k a ws with
  | zero =>
    have ha := Except.ok.inj hok
    subst ha
    exact ⟨rfl, h, fun j hkj hj => absurd hj (by omega)⟩
  | succ count ih =>
    have hx := extent_le_self nx k
    have hy := extent_le_self ny k
    have hpos := extent_pos hny k
    have hroom' := hroom.mono hx hy
    obtain ⟨s, hrun, hrest⟩ := Loops.ok_of_bind hok
    have hpart : Holds a 0 ny (extent nx k) (extent ny k) fun r c =>
        inputUnit k * levelSums nx ny samples k r c :=
      (h.mono hx hy).congr fun r hr c hc => transformed_of_lt hr hc
    have hpasses : ForwardPasses nx ny samples k :=
      ForwardLevel.body_ok_of_run hy hpart hrun
    obtain ⟨a1, ws1, hrun1, hroom1, hreplaced⟩ :=
      ForwardLevel.run_total hpos hy hroom' hpart hpasses
    rw [hrun1] at hrun
    have hs := Except.ok.inj hrun
    subst hs
    have hvalues : ∀ r < extent nx k, ∀ c < extent ny k,
        updatedGrid (forwardLevel k).block (extent nx k) (extent ny k) 0
          (fun r c => inputUnit k * levelSums nx ny samples k r c) (shuffledFrom (extent nx k) r)
          (shuffledFrom (extent ny k) c) =
        unit k * shuffledHaar (extent nx k) (extent ny k) (levelSums nx ny samples k) r c :=
      fun r hr c hc => updatedGrid_eq (shuffledFrom_lt hr) (shuffledFrom_lt hc)
        fun block hblock => hpasses.block_eq (by omega) hblock
    have hnext := (hreplaced.congr hvalues).widen (Nat.le_refl ny) h hx hy
    have hplane : Holds a1 0 ny nx ny (transformed nx ny samples (k + 1)) :=
      hnext.holds.congr fun r _ c _ => transformed_succ.symm
    have hrest' : forwardLevels ny count (forwardLevel (k + 1)) (extent nx (k + 1))
        (extent ny (k + 1)) a1 ws1 = .ok a' := by
      rw [← forwardLevel_next]
      exact hrest
    obtain ⟨hlength, hholds, hall⟩ := ih (by omega) (hroom1 nx ny hroom) hplane hrest'
    refine ⟨hlength.trans hnext.length_eq, ?_, ?_⟩
    · rwa [show k + (count + 1) = k + 1 + count by omega]
    · intro j hkj hj
      rcases Nat.eq_or_lt_of_le hkj with rfl | hlt
      · exact hpasses
      · exact hall j hlt (by omega)

/-- The blocks of a level that passed pass its inverse step, which gives its input back. -/
theorem inverse_block_passes (hk : k ≤ 60)
    (hsamples : ∀ r < nx, ∀ c < ny, FitsI64 (samples r c))
    (h : ∀ j < k + 1, ForwardPasses nx ny samples j) {block : Block}
    (hblock : block ∈ blocks (extent nx k) (extent ny k)) :
    (inverseLevel k).block block (block.quad (fun r c => unit k *
        roundedHaar (extent nx k) (extent ny k) (levelSums nx ny samples k) r c) 0) =
      .ok (block.quad (fun r c => inputUnit k * levelSums nx ny samples k r c) 0) := by
  have hforward := (h k (Nat.lt_succ_self k)).block_eq hk hblock
  have hfits : (block.quad (fun r c => inputUnit k * levelSums nx ny samples k r c) 0).Forall
      FitsI64 :=
    Block.quad_forall (inside_of_mem hblock) fitsI64_zero fun r hr c hc =>
      levelSums_fits (by omega) hsamples (fun j hj => h j (by omega)) hr hc
  rw [quad_scale block (inputUnit k)] at hforward hfits ⊢
  exact inverse_forward_block hk hfits hforward

/-- The inverse levels give the samples back from the plane of the forward ones. -/
theorem inverseLevels_total {a : List ℤ} {ws : Workspace} {l : InverseLevel} {x y : Axis}
    (scale : ℤ) (hnx : 0 < nx) (hny : 0 < ny) (hk : k ≤ 61) (hroom : ws.Room nx ny)
    (hl : ∀ j, k = j + 1 → l = coarseLevel j) (hx : x.Covers nx k) (hy : y.Covers ny k)
    (hsamples : ∀ r < nx, ∀ c < ny, FitsI64 (samples r c))
    (hpasses : ∀ j < k, ForwardPasses nx ny samples j)
    (h : Holds a 0 ny nx ny (transformed nx ny samples k)) :
    ∃ a', inverseLevels .off scale ny k l (2 ^ k) x y a ws = .ok a' ∧ a'.length = a.length ∧
      Holds a' 0 ny nx ny samples := by
  induction k generalizing a ws l x y with
  | zero => exact ⟨a, rfl, rfl, h⟩
  | succ k ih =>
    have hxk := extent_le_self nx k
    have hyk := extent_le_self ny k
    have hpos := extent_pos hny k
    have hstep : 2 ^ (k + 1) / 2 = 2 ^ k := by
      rw [pow_succ]
      omega
    have hx' := hx.grow hnx
    have hy' := hy.grow hny
    have hlevel : l.at k = inverseLevel k := by
      rw [hl k rfl, inverseLevel]
    have hpart : Holds a 0 ny (extent nx k) (extent ny k) fun r c =>
        unit k * shuffledHaar (extent nx k) (extent ny k) (levelSums nx ny samples k) r c := by
      apply (h.mono hxk hyk).congr
      intro r hr c hc
      rw [transformed_succ, if_pos ⟨hr, hc⟩]
    have hbody : ∀ block ∈ blocks (extent nx k) (extent ny k),
        (inverseLevel k).block block (block.quad (fun r c => unit k *
          shuffledHaar (extent nx k) (extent ny k) (levelSums nx ny samples k)
            (unshuffledFrom (extent nx k) r) (unshuffledFrom (extent ny k) c)) 0) =
        .ok (block.quad (fun r c => inputUnit k * levelSums nx ny samples k r c) 0) := by
      intro block hblock
      rw [← inverse_block_passes (by omega) hsamples hpasses hblock]
      congr 1
      apply Block.quad_congr 0 (inside_of_mem hblock)
      intro r hr c hc
      rw [shuffledHaar, shuffledFrom_unshuffledFrom hr, shuffledFrom_unshuffledFrom hc]
    obtain ⟨a1, ws1, hrun, hroom1, hreplaced⟩ := InverseLevel.run_total scale hpos hyk
      (hroom.mono hxk hyk) hpart (fun block hblock => ⟨_, hbody block hblock⟩)
    have hnext := (hreplaced.congr fun r hr c hc =>
      updatedGrid_eq hr hc hbody).widen (Nat.le_refl ny) h hxk hyk
    have hplane : Holds a1 0 ny nx ny (transformed nx ny samples k) := by
      apply hnext.holds.congr
      intro r _ c _
      by_cases hin : r < extent nx k ∧ c < extent ny k
      · rw [if_pos hin, transformed_of_lt hin.1 hin.2]
      · rw [if_neg hin, transformed_succ, if_neg hin]
    have hcoarse : ∀ j, k = j + 1 → (inverseLevel k).next = coarseLevel j := by
      rintro j rfl
      exact inverseLevel_next j
    obtain ⟨a', hrest, hlength, hholds⟩ := ih (by omega) (hroom1 nx ny hroom) hcoarse hx' hy'
      (fun j hj => hpasses j (by omega)) hplane
    refine ⟨a', ?_, hlength.trans hnext.length_eq, hholds⟩
    rw [inverseLevels]
    simp only [hstep, hlevel, hx'.top_eq, hy'.top_eq]
    rw [Loops.bind_ok hrun]
    exact hrest

end Levels

/-! ## The transform -/

/-- The samples of a plane as a grid. -/
def sampleGrid (ny : ℕ) (values : List ℤ) (r c : ℕ) : ℤ := values.getD (ny * r + c) 0

/-- The levels of a plane's transform. -/
def levels (nx ny : ℕ) : ℕ := log2Ceil (max nx ny)

/-- The H-transform of a plane in exact arithmetic. -/
def coefficients (nx ny : ℕ) (values : List ℤ) : ℕ → ℕ → ℤ :=
  transformed nx ny (sampleGrid ny values) (levels nx ny)

section Transform

variable {nx ny : ℕ} {values a : List ℤ}

theorem sampleGrid_holds (hlength : values.length = nx * ny) :
    Holds values 0 ny nx ny (sampleGrid ny values) := by
  intro r hr c hc
  have hlt : ny * r + c < nx * ny := by
    calc ny * r + c < ny * r + ny := by omega
      _ = ny * (r + 1) := by ring
      _ ≤ ny * nx := Nat.mul_le_mul_left _ hr
      _ = nx * ny := Nat.mul_comm _ _
  rw [Nat.zero_add, sampleGrid, List.getD_eq_getElem?_getD,
    List.getElem?_eq_getElem (by omega), Option.getD_some]

theorem sampleGrid_fits (hlength : values.length = nx * ny) (hvalues : ∀ v ∈ values, FitsI64 v) :
    ∀ r < nx, ∀ c < ny, FitsI64 (sampleGrid ny values r c) := by
  intro r hr c hc
  exact hvalues _ (List.mem_of_getElem? (sampleGrid_holds hlength r hr c hc))

/-- A count below a power of two is covered by as many steps. -/
theorem log2Ceil_le {n bits : ℕ} (hn : 0 < n) (h : n < 2 ^ bits) : log2Ceil n ≤ bits := by
  have hbound := (log2Ceil_bounds hn).2
  have hpow : 2 ^ log2Ceil n < 2 ^ (bits + 1) := by
    rw [pow_succ]
    omega
  have := (Nat.pow_lt_pow_iff_right (show 1 < 2 by decide)).mp hpow
  omega

/-- The levels of a plane within the stream's dimensions. -/
theorem levels_le (hnx : 0 < nx) (hx : nx < 2 ^ 31) (hy : ny < 2 ^ 31) : levels nx ny ≤ 31 :=
  log2Ceil_le (by omega) (by omega)

/-- The steps of a plane's levels cover both its axes. -/
theorem le_two_pow_levels (hnx : 0 < nx) (ny : ℕ) : nx ≤ 2 ^ levels nx ny ∧ ny ≤ 2 ^ levels nx ny := by
  have hbound := (log2Ceil_bounds (show 0 < max nx ny by omega)).1
  rw [← levels] at hbound
  omega

/-- A transform that succeeds computes the coefficients of exact arithmetic, and its levels
pass. -/
theorem htrans_ok (hny : 0 < ny) (hlevels : levels nx ny ≤ 61)
    (hlength : values.length = nx * ny) (hok : htrans values nx ny = .ok a) :
    a.length = values.length ∧ Holds a 0 ny nx ny (coefficients nx ny values) ∧
      ∀ k < levels nx ny, ForwardPasses nx ny (sampleGrid ny values) k := by
  have hroom : Workspace.Room ⟨List.replicate (max ((max nx ny + 1) / 2) 1) (0 : ℤ),
      List.replicate ((nx + 1) / 2 * max ny 1) 0⟩ nx ny := by
    constructor
    · rw [List.length_replicate]
      omega
    · rw [List.length_replicate]
      exact Nat.mul_le_mul (by omega) (by omega)
  simp only [htrans] at hok
  rw [← levels, if_neg (by omega)] at hok
  obtain ⟨hsame, hholds, hall⟩ := forwardLevels_ok (k := 0) hny (by omega) hroom
    (sampleGrid_holds hlength) hok
  rw [Nat.zero_add] at hholds hall
  exact ⟨hsame, hholds, fun k hk => hall k (Nat.zero_le k) hk⟩

/-- The first coefficient is the sum that the levels end with. -/
theorem coefficients_corner (hnx : 0 < nx) (hny : 0 < ny) :
    coefficients nx ny values 0 0 = inputUnit (levels nx ny) *
      levelSums nx ny (sampleGrid ny values) (levels nx ny) 0 0 :=
  transformed_of_lt (extent_pos hnx _) (extent_pos hny _)

/-- The inverse transform of a plane's coefficients is the plane. -/
theorem hinv_htrans {scale : ℤ} (hnx : 0 < nx) (hny : 0 < ny) (hlevels : levels nx ny ≤ 61)
    (hlength : values.length = nx * ny) (hvalues : ∀ v ∈ values, FitsI64 v)
    (hok : htrans values nx ny = .ok a) : hinv a nx ny scale .off = .ok values := by
  obtain ⟨hsame, hholds, hpasses⟩ := htrans_ok hny hlevels hlength hok
  obtain ⟨hxl, hyl⟩ := le_two_pow_levels hnx ny
  have hgrid := sampleGrid_fits hlength hvalues
  by_cases hone : max nx ny ≤ 1
  · -- one sample is its own transform
    have hnx1 : nx = 1 := by omega
    have hny1 : ny = 1 := by omega
    subst hnx1 hny1
    simp only [hinv]
    rw [if_pos hone]
    have hsamples : Holds a 0 1 1 1 (sampleGrid 1 values) := hholds
    rw [eq_of_holds hlength hsame (sampleGrid_holds hlength) hsamples]
  · obtain ⟨n, hn⟩ : ∃ n, levels nx ny = n + 1 := by
      refine ⟨levels nx ny - 1, ?_⟩
      have hpos : levels nx ny ≠ 0 := by
        intro hzero
        rw [hzero] at hxl hyl
        omega
      omega
    -- the sum at the corner is a multiple of the unit it is rounded to
    have hcorner : a[0]? = some (2 ^ (n + 2) *
        levelSums nx ny (sampleGrid ny values) (n + 1) 0 0) := by
      have hget := hholds 0 hnx 0 hny
      rw [coefficients_corner hnx hny, hn, inputUnit, if_neg (Nat.succ_ne_zero n)] at hget
      simpa using hget
    have hfit : FitsI64 (2 ^ (n + 2) * levelSums nx ny (sampleGrid ny values) (n + 1) 0 0) := by
      have h := levelSums_fits (k := n + 1) (by omega) hgrid
        (fun j hj => hpasses j (by omega)) (extent_pos hnx _) (extent_pos hny _)
      rwa [inputUnit, if_neg (Nat.succ_ne_zero n)] at h
    have hround : roundSigned (2 ^ (n + 2) *
        levelSums nx ny (sampleGrid ny values) (n + 1) 0 0) (2 ^ (n + 1)) (2 ^ (n + 1) - 1)
        (-2 ^ (n + 2)) =
        .ok (2 ^ (n + 2) * levelSums nx ny (sampleGrid ny values) (n + 1) 0 0) := by
      have hpow : (0 : ℤ) < 2 ^ (n + 1) := by positivity
      apply roundSigned_multiple (by omega) hfit
      · rw [pow_succ 2 (n + 1)]
        constructor <;> omega
      · rw [pow_succ 2 (n + 1)]
        constructor <;> omega
    have hroom : Workspace.Room ⟨List.replicate ((max nx ny + 1) / 2) (0 : ℤ),
        List.replicate ((nx + 1) / 2 * ny) 0⟩ nx ny := by
      constructor
      · rw [List.length_replicate]
        omega
      · rw [List.length_replicate]
        exact Nat.mul_le_mul_right _ (by omega)
    rw [hn] at hxl hyl
    have hplane : Holds a 0 ny nx ny (transformed nx ny (sampleGrid ny values) (n + 1)) := by
      rw [← hn]
      exact hholds
    obtain ⟨a', hrun, hlength', hsamples⟩ := inverseLevels_total scale
      (l := InverseLevel.first (n + 1)) hnx hny
      (show n + 1 ≤ 61 by omega) hroom
      (by
        intro j hj
        rw [coarseLevel_first, Nat.succ.inj hj])
      (Axis.covers_one hnx hxl) (Axis.covers_one hny hyl) hgrid
      (fun j hj => hpasses j (by omega)) hplane
    have hstore : store a 0 (2 ^ (n + 2) *
        levelSums nx ny (sampleGrid ny values) (n + 1) 0 0) = .ok a := by
      obtain ⟨hlt, hget⟩ := List.getElem?_eq_some_iff.mp hcorner
      rw [store_of_lt _ hlt, ← hget, List.set_getElem_self]
    have hbit : (2 : ℤ) ^ n * 4 = 2 ^ (n + 2) := by ring
    have hhalf : (2 : ℤ) ^ (n + 2) >>> (1 : ℕ) = 2 ^ (n + 1) := by
      rw [Int.shiftRight_eq_div_pow, pow_succ 2 (n + 1)]
      exact Int.mul_ediv_cancel _ (by norm_num)
    have hmask : -(2 : ℤ) ^ n * 4 = -2 ^ (n + 2) := by ring
    simp only [hinv]
    rw [if_neg hone, ← levels, hn, Loops.bind_ok (onePlace_of_lt (by omega)),
      Loops.bind_ok (load_of_getElem? hcorner), coarseLevel_first]
    simp only [coarseLevel, hbit, hhalf, hmask]
    rw [Loops.bind_ok hround, Loops.bind_ok hstore, ← coarseLevel, ← coarseLevel_first]
    rw [hrun]
    rw [eq_of_holds hlength (hlength'.trans hsame) (sampleGrid_holds hlength) hsamples]

end Transform

end FitsWell.Hcompress
