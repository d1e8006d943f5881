import FitsWell.Compression.HcompressPlanes

/-!
# The stream of a tile

The four quadrants of a plane cover it and do not overlap, so their planes can be read one
after another into one slice. The magnitudes come first and tell the reader which values
have a sign.
-/

namespace FitsWell.Hcompress

open Bytes Bits

/-! ## Quadrants -/

/-- A place of the plane lies in a quadrant. -/
def Quadrant.At (quadrant : Quadrant) (i r c : ℕ) : Prop :=
  r < quadrant.nqx ∧ c < quadrant.nqy ∧ i = quadrant.base + quadrant.n * r + c

/-- A quadrant of a plane that starts at a row and a column of it, with the place of its
plane count. -/
structure PlacedAt (nx ny row col : ℕ) (entry : Quadrant × ℕ) : Prop where
  sound : entry.1.Sound
  base_eq : entry.1.base = ny * row + col
  n_eq : entry.1.n = ny
  row_le : row + entry.1.nqx ≤ nx
  col_le : col + entry.1.nqy ≤ ny

/-- The corners of the quadrants of a plane. -/
theorem mem_quadrants {nx ny : ℕ} (hnx : 0 < nx) (hny : 0 < ny) {entry : Quadrant × ℕ}
    (h : entry ∈ quadrants nx ny) : ∃ row col, PlacedAt nx ny row col entry ∧
      entry.2 = (decide ((ny + 1) / 2 ≤ col)).toNat + (decide ((nx + 1) / 2 ≤ row)).toNat ∧
      (row = 0 ∧ entry.1.nqx = (nx + 1) / 2 ∨ row = (nx + 1) / 2 ∧ entry.1.nqx = nx / 2) ∧
      (col = 0 ∧ entry.1.nqy = (ny + 1) / 2 ∨ col = (ny + 1) / 2 ∧ entry.1.nqy = ny / 2) := by
  have hxpos : ¬(nx + 1) / 2 = 0 := by omega
  have hypos : ¬(ny + 1) / 2 = 0 := by omega
  simp only [quadrants, List.mem_append, List.mem_singleton] at h
  rcases h with ((rfl | h) | h) | h
  · refine ⟨0, 0, ⟨⟨?_, ?_, ?_⟩, ?_, ?_, ?_, ?_⟩, ?_, .inl ⟨rfl, rfl⟩, .inl ⟨rfl, rfl⟩⟩ <;>
      dsimp only <;> first | omega | simp [hxpos, hypos]
  · split at h
    · obtain rfl := List.mem_singleton.mp h
      refine ⟨0, (ny + 1) / 2, ⟨⟨?_, ?_, ?_⟩, ?_, ?_, ?_, ?_⟩, ?_, .inl ⟨rfl, rfl⟩,
        .inr ⟨rfl, rfl⟩⟩ <;> dsimp only <;> first | omega | simp [hxpos]
    · simp at h
  · split at h
    · obtain rfl := List.mem_singleton.mp h
      refine ⟨(nx + 1) / 2, 0, ⟨⟨?_, ?_, ?_⟩, ?_, ?_, ?_, ?_⟩, ?_, .inr ⟨rfl, rfl⟩,
        .inl ⟨rfl, rfl⟩⟩ <;> dsimp only <;> first | omega | simp [hypos]
    · simp at h
  · split at h
    · rename_i hboth
      obtain rfl := List.mem_singleton.mp h
      refine ⟨(nx + 1) / 2, (ny + 1) / 2, ⟨⟨?_, ?_, ?_⟩, ?_, ?_, ?_, ?_⟩, ?_, .inr ⟨rfl, rfl⟩,
        .inr ⟨rfl, rfl⟩⟩ <;> dsimp only <;> first | omega | simp
    · simp at h

/-- The row and the column of a quadrant's place in the plane. -/
theorem PlacedAt.place {nx ny row col i r c : ℕ} {entry : Quadrant × ℕ}
    (h : PlacedAt nx ny row col entry) (hat : entry.1.At i r c) :
    row + r < nx ∧ col + c < ny ∧ i = ny * (row + r) + (col + c) := by
  obtain ⟨-, hbase, hn, hrow, hcol⟩ := h
  obtain ⟨hr, hc, hi⟩ := hat
  refine ⟨by omega, by omega, ?_⟩
  rw [hi, hbase, hn]
  ring

/-- Each quadrant of a plane is listed once. -/
theorem nodup_quadrants (nx ny : ℕ) : (quadrants nx ny).Nodup := by
  have hbase : 0 < ny / 2 → 0 < nx / 2 → (ny + 1) / 2 ≠ ny * ((nx + 1) / 2) := by
    intro hny hnx heq
    have hle : ny * 1 ≤ ny * ((nx + 1) / 2) := Nat.mul_le_mul_left _ (by omega)
    omega
  unfold quadrants
  dsimp only
  by_cases hny : 0 < ny / 2 <;> by_cases hnx : 0 < nx / 2
  · rw [if_pos hny, if_pos hnx, if_pos ⟨hnx, hny⟩]
    simp [hbase hny hnx]
  · rw [if_pos hny, if_neg hnx, if_neg (fun h => hnx h.1)]
    simp
  · rw [if_neg hny, if_pos hnx, if_neg (fun h => hny h.2)]
    simp
  · rw [if_neg hny, if_neg hnx, if_neg (fun h => hny h.2)]
    simp

/-- The quadrants of a plane do not overlap. -/
theorem quadrants_disjoint {nx ny : ℕ} (hnx : 0 < nx) (hny : 0 < ny) :
    (quadrants nx ny).Pairwise fun e e' => ∀ i r c r' c', e.1.At i r c → ¬e'.1.At i r' c' := by
  apply (nodup_quadrants nx ny).pairwise_of_forall_ne
  intro e he e' he' hne i r c r' c' hat hat'
  obtain ⟨row, col, hplaced, hcount, hrows, hcols⟩ := mem_quadrants hnx hny he
  obtain ⟨row', col', hplaced', hcount', hrows', hcols'⟩ := mem_quadrants hnx hny he'
  obtain ⟨-, hc, hi⟩ := hplaced.place hat
  obtain ⟨-, hc', hi'⟩ := hplaced'.place hat'
  obtain ⟨hsamerow, hsamecol⟩ := place_inj (Nat.le_refl ny) hc hc' (hi.symm.trans hi')
  have hr := hat.1
  have hr' := hat'.1
  have hcc := hat.2.1
  have hcc' := hat'.2.1
  -- places in one row and column are in one half of each axis
  have hrow : row = row' ∧ e.1.nqx = e'.1.nqx := by omega
  have hcol : col = col' ∧ e.1.nqy = e'.1.nqy := by omega
  apply hne
  obtain ⟨⟨base, n, nqx, nqy⟩, count⟩ := e
  obtain ⟨⟨base', n', nqx', nqy'⟩, count'⟩ := e'
  have hbase := hplaced.base_eq
  have hbase' := hplaced'.base_eq
  have hn := hplaced.n_eq
  have hn' := hplaced'.n_eq
  obtain ⟨rfl, hx⟩ := hrow
  obtain ⟨rfl, hy⟩ := hcol
  simp only at hbase hbase' hn hn' hx hy hcount hcount'
  rw [hbase, hbase', hn, hn', hx, hy, hcount, hcount']

/-- The quadrants cover the plane. -/
theorem quadrants_cover {nx ny i : ℕ} (hi : i < nx * ny) :
    ∃ entry ∈ quadrants nx ny, ∃ r c, entry.1.At i r c := by
  obtain ⟨hrow, hcol, hplace⟩ := place_of_lt hi
  rw [Nat.zero_add] at hplace
  have hat : ∀ (base nqx nqy r c : ℕ), r < nqx → c < nqy → ny * (i / ny) + i % ny =
      base + ny * r + c → Quadrant.At ⟨base, ny, nqx, nqy⟩ i r c :=
    fun base nqx nqy r c hr hc heq => ⟨hr, hc, hplace.symm.trans heq⟩
  have hlater : ∀ half, half ≤ i / ny →
      ny * (i / ny) = ny * half + ny * (i / ny - half) := by
    intro half hle
    rw [← Nat.mul_add]
    congr 1
    omega
  unfold quadrants
  dsimp only
  by_cases hr : i / ny < (nx + 1) / 2 <;> by_cases hc : i % ny < (ny + 1) / 2
  · exact ⟨(⟨0, ny, (nx + 1) / 2, (ny + 1) / 2⟩, 0), by simp, i / ny, i % ny,
      hat 0 _ _ _ _ hr hc (by omega)⟩
  · rw [if_pos (show 0 < ny / 2 by omega)]
    exact ⟨(⟨(ny + 1) / 2, ny, (nx + 1) / 2, ny / 2⟩, 1), by simp, i / ny, i % ny - (ny + 1) / 2,
      hat _ _ _ _ _ hr (by omega) (by omega)⟩
  · rw [if_pos (show 0 < nx / 2 by omega)]
    have heq := hlater ((nx + 1) / 2) (by omega)
    exact ⟨(⟨ny * ((nx + 1) / 2), ny, nx / 2, (ny + 1) / 2⟩, 1), by simp, i / ny - (nx + 1) / 2,
      i % ny, hat _ _ _ _ _ (by omega) hc (by omega)⟩
  · rw [if_pos (show 0 < nx / 2 ∧ 0 < ny / 2 by omega)]
    have heq := hlater ((nx + 1) / 2) (by omega)
    exact ⟨(⟨ny * ((nx + 1) / 2) + (ny + 1) / 2, ny, nx / 2, ny / 2⟩, 2), by simp,
      i / ny - (nx + 1) / 2, i % ny - (ny + 1) / 2, hat _ _ _ _ _ (by omega) (by omega) (by omega)⟩

/-! ## The planes of all quadrants -/

/-- The values of a quadrant of a plane. -/
def Quadrant.values (quadrant : Quadrant) (mag : ℕ → ℤ) (r c : ℕ) : ℤ :=
  mag (quadrant.base + quadrant.n * r + c)

/-- The values of a quadrant of a plane as they are received. -/
def Quadrant.receivedValues (quadrant : Quadrant) (mag : ℕ → ℤ) : ℕ → ℕ → ℤ :=
  receivedGrid quadrant.nqx quadrant.nqy (quadrant.values mag)

/-- A slice holds a quadrant's grid. -/
def Quadrant.Holds (quadrant : Quadrant) (a : List ℤ) (M : ℕ → ℕ → ℤ) : Prop :=
  Hcompress.Holds a quadrant.base quadrant.n quadrant.nqx quadrant.nqy M

/-- A bit string from which the planes of some quadrants are read. -/
def SpellsQuadrants (nbitplanes : List ℕ) (mag : ℕ → ℤ) (entries : List (Quadrant × ℕ))
    (string : List Bool) : Prop :=
  ∀ (bi : BitInput) (tail : List Bool) (a : List ℤ), bi.Left (string ++ tail) → 3 ≤ tail.length →
    bi.bitsToGo ≤ 10 → (∀ e ∈ entries, e.1.Holds a fun _ _ => 0) →
    ∃ a' bi', entries.foldlM (fun (s : List ℤ × BitInput) (entry : Quadrant × ℕ) => do
        let planes ← load nbitplanes entry.2
        qtreeDecode entry.1 planes s.2 s.1) (a, bi) = .ok (a', bi') ∧
      a'.length = a.length ∧ (∀ e ∈ entries, e.1.Holds a' (e.1.receivedValues mag)) ∧
      (∀ i, (∀ e ∈ entries, ∀ r c, ¬e.1.At i r c) → a'[i]? = a[i]?) ∧
      bi'.Left tail ∧ bi'.data = bi.data ∧ bi'.bitsToGo ≤ 10

/-- The magnitudes of a quadrant have no more bits than its planes. -/
def Quadrant.Fits (quadrant : Quadrant) (mag : ℕ → ℤ) (planes : ℕ) : Prop :=
  planes ≤ 63 ∧ Below quadrant.nqx quadrant.nqy planes (quadrant.values mag)

theorem Below.mono {nx ny planes planes' : ℕ} {V : ℕ → ℕ → ℤ} (h : Below nx ny planes V)
    (hle : planes ≤ planes') : Below nx ny planes' V := by
  intro r hr c hc
  obtain ⟨hnonneg, hlt⟩ := h r hr c hc
  exact ⟨hnonneg, hlt.trans_le (pow_le_pow_right₀ (by norm_num) hle)⟩

/-- A value has no digits from its bit length up. -/
theorem above_eq_zero {v : ℤ} {planes : ℕ} (h : 0 ≤ v ∧ v < 2 ^ planes) : above v planes = 0 := by
  rw [above, Int.ediv_eq_zero_of_lt h.1 h.2, Int.zero_mul]

/-- The planes of quadrants that are written spell the values received. -/
theorem BitOutput.quadrants_ok {bo bo' : BitOutput} {a : List ℤ} {nbitplanes : List ℕ}
    {mag : ℕ → ℤ} {entries : List (Quadrant × ℕ)} (hbo : bo.Sound)
    (hdisjoint : entries.Pairwise fun e e' => ∀ i r c r' c', e.1.At i r c → ¬e'.1.At i r' c')
    (hlog : ∀ e ∈ entries, e.1.log2n < 64)
    (hentries : ∀ e ∈ entries, e.1.Sound ∧ e.1.Holds a (e.1.values mag) ∧
      ∃ planes, nbitplanes[e.2]? = some planes ∧ e.1.Fits mag planes)
    (hok : entries.foldlM (fun (bo : BitOutput) (entry : Quadrant × ℕ) => do
        let planes ← load nbitplanes entry.2
        BitOutput.qtreeEncode a entry.1 planes bo) bo = .ok bo') :
    ∃ string, bo.Appends bo' string ∧ SpellsQuadrants nbitplanes mag entries string := by
  induction entries generalizing bo with
  | nil =>
    have heq := Except.ok.inj hok
    subst heq
    refine ⟨[], Appends.refl hbo, ?_⟩
    intro bi tail b hbi _ hheld _
    exact ⟨b, bi, rfl, rfl, by simp, fun i _ => rfl, hbi, rfl, hheld⟩
  | cons entry entries ih =>
    obtain ⟨hfirst, hrest⟩ := List.pairwise_cons.mp hdisjoint
    obtain ⟨hsound, hholds, planes, hplanes, hwidth, hfits⟩ := hentries entry (by simp)
    rw [List.foldlM_cons] at hok
    obtain ⟨bo1, hstep, hok⟩ := Loops.ok_of_bind hok
    rw [Loops.bind_ok (load_of_getElem? hplanes)] at hstep
    obtain ⟨front, happ1, hvalues⟩ := qtreeEncode_ok hbo hsound (hlog entry (by simp))
      hwidth hholds
      (hfits.mono hwidth) hstep
    obtain ⟨back, happ2, hspells⟩ := ih happ1.sound hrest
      (fun e he => hlog e (List.mem_cons_of_mem _ he))
      (fun e he => hentries e (List.mem_cons_of_mem _ he)) hok
    refine ⟨front ++ back, happ1.trans happ2, ?_⟩
    intro bi tail b hbi htail hheld hzero
    rw [List.append_assoc] at hbi
    have hreceived := receivedGrid_below hwidth hfits
    have hstart : entry.1.Holds b fun r c => above (entry.1.receivedValues mag r c) planes :=
      (hzero entry (by simp)).congr fun r hr c hc => (above_eq_zero (hreceived r hr c hc)).symm
    obtain ⟨b1, bi1, hdecode, hreplaced, hleft1, hdata1, hfew1⟩ := hvalues bi (back ++ tail) b hbi
      (by rw [List.length_append]; omega) hheld hstart
    -- the other quadrants are not touched
    have hother : ∀ e ∈ entries, e.1.Holds b1 fun _ _ => 0 := by
      intro e he r hr c hc
      have hkeep := hreplaced.outside (e.1.base + e.1.n * r + c) (by
        intro r' hr' c' hc' heq
        exact hfirst e he _ r' c' r c ⟨hr', hc', heq⟩ ⟨hr, hc, rfl⟩)
      rw [hkeep]
      exact hzero e (List.mem_cons_of_mem _ he) r hr c hc
    obtain ⟨b2, bi2, hdecode2, hlength2, hholds2, hout2, hleft2, hdata2, hfew2⟩ :=
      hspells bi1 tail b1 hleft1 htail hfew1 hother
    refine ⟨b2, bi2, ?_, hlength2.trans hreplaced.length_eq, ?_, ?_, hleft2, hdata2.trans hdata1,
      hfew2⟩
    · rw [List.foldlM_cons, Loops.bind_ok (load_of_getElem? hplanes)]
      exact (Loops.bind_ok hdecode).trans hdecode2
    · intro e he
      rcases List.mem_cons.mp he with rfl | he
      · intro r hr c hc
        have hkeep := hout2 (e.1.base + e.1.n * r + c)
          (fun e' he' r' c' hat => hfirst e' he' _ r c r' c' ⟨hr, hc, rfl⟩ hat)
        rw [hkeep]
        exact hreplaced.holds r hr c hc
      · exact hholds2 e he
    · intro i hi
      rw [hout2 i fun e he => hi e (List.mem_cons_of_mem _ he)]
      apply hreplaced.outside
      intro r hr c hc heq
      exact hi entry (by simp) r c ⟨hr, hc, heq⟩

end FitsWell.Hcompress
