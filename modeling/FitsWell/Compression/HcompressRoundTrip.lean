import FitsWell.Compression.HcompressNear
import FitsWell.Compression.HcompressStream

/-!
# The round trip of a lossless tile

The coder puts the two topmost digits of a block's magnitudes in one place of its codes
where they overlap, so a tile reads back where those digits agree, and magnitudes below
`2 ^ 61` always do.
-/

namespace FitsWell.Hcompress

open Bytes Bits

/-! ## The top digits of a block -/

/-- The digits of a block that share a place of a code agree. The reader keeps a value
beside the corner only inside the plane. -/
structure TopDigitsAgree (block : Block) (q : Quad ℤ) : Prop where
  corner_right : digit q.s00 61 = digit q.s01 61
  corner_below : digit q.s00 62 = digit q.s10 62
  right_below : block.right = true → digit q.s01 62 = digit q.s10 62

instance (block : Block) (q : Quad ℤ) : Decidable (TopDigitsAgree block q) :=
  decidable_of_iff (digit q.s00 61 = digit q.s01 61 ∧ digit q.s00 62 = digit q.s10 62 ∧
      (block.right = true → digit q.s01 62 = digit q.s10 62))
    ⟨fun h => ⟨h.1, h.2.1, h.2.2⟩, fun h => ⟨h.1, h.2, h.3⟩⟩

/-- A magnitude is its two top digits over its others. -/
theorem top_digits {v : ℤ} (h : 0 ≤ v ∧ v < 2 ^ 63) :
    v / 2 ^ 62 = digit v 62 ∧ v / 2 ^ 61 % 2 = digit v 61 ∧
      v = v % 2 ^ 61 + digit v 61 * 2 ^ 61 + digit v 62 * 2 ^ 62 := by
  rw [digit_cast, digit_cast]
  omega

/-- The corner of a block is received where its top digits agree with those that share
their place. -/
theorem Quad.received_corner {q : Quad ℤ} (h : q.Forall fun v => 0 ≤ v ∧ v < 2 ^ 63) :
    q.received.s00 = q.s00 ↔
      digit q.s00 61 = digit q.s01 61 ∧ digit q.s00 62 = digit q.s10 62 := by
  obtain ⟨-, hlow, hcorner⟩ := top_digits h.corner
  obtain ⟨-, hright, -⟩ := top_digits h.right
  obtain ⟨hbelow, -, -⟩ := top_digits h.below
  rw [Quad.received]
  dsimp only
  rw [hright, hbelow]
  have hbit : ∀ v m, digit v m < 2 := fun v m => by
    have := digit_cast v m
    omega
  have h1 := hbit q.s00 61
  have h2 := hbit q.s01 61
  have h3 := hbit q.s00 62
  have h4 := hbit q.s10 62
  omega

/-- The value beside the corner is received where its top digit is that of the one
below. -/
theorem Quad.received_right {q : Quad ℤ} (h : q.Forall fun v => 0 ≤ v ∧ v < 2 ^ 63) :
    q.received.s01 = q.s01 ↔ digit q.s01 62 = digit q.s10 62 := by
  obtain ⟨hright, -, -⟩ := top_digits h.right
  obtain ⟨hbelow, -, -⟩ := top_digits h.below
  rw [Quad.received]
  dsimp only
  rw [hbelow]
  omega

/-- A grid is received where the top digits of its blocks agree. -/
theorem receivedGrid_eq_iff {nqx nqy : ℕ} {V : ℕ → ℕ → ℤ} (h : Below nqx nqy 63 V) :
    (∀ r < nqx, ∀ c < nqy, receivedGrid nqx nqy V r c = V r c) ↔
      ∀ block ∈ blocks nqx nqy, TopDigitsAgree block (block.quad V 0) := by
  have hquad : ∀ block ∈ blocks nqx nqy,
      (block.quad V 0).Forall fun v => 0 ≤ v ∧ v < 2 ^ 63 := fun block hblock =>
    Block.quad_forall (inside_of_mem hblock) ⟨le_refl 0, by positivity⟩ h
  constructor
  · intro hall block hblock
    have hin := inside_of_mem hblock
    have hcorner : (block.quad V 0).received.s00 = (block.quad V 0).s00 := by
      have heq := hall _ hin.row_lt _ hin.col_lt
      rw [receivedGrid, blockAt_eq_of_corner hblock rfl rfl, Quad.at, if_pos hin.row_even,
        if_pos hin.col_even] at heq
      exact heq
    obtain ⟨hdigit, hdigit'⟩ := (Quad.received_corner (hquad block hblock)).mp hcorner
    refine ⟨hdigit, hdigit', ?_⟩
    intro hright
    apply (Quad.received_right (hquad block hblock)).mp
    have hcol := hin.col_even
    have heq := hall _ hin.row_lt _ (hin.right_iff.mp hright)
    rw [receivedGrid, blockAt_eq_of_corner hblock rfl (by omega)] at heq
    simpa [Quad.at, hin.row_even, show (block.col + 1) % 2 = 1 by omega, Block.quad, hright]
      using heq
  · intro hall r hr c hc
    have hblock := blockAt_mem hr hc
    have hagree := hall _ hblock
    have hforall := hquad _ hblock
    have hsame : (((blockAt nqx nqy (r / 2) (c / 2)).quad V 0).received).at r c =
        ((blockAt nqx nqy (r / 2) (c / 2)).quad V 0).at r c := by
      simp only [Quad.at]
      split
      · split
        · exact (Quad.received_corner hforall).mpr ⟨hagree.corner_right, hagree.corner_below⟩
        · refine (Quad.received_right hforall).mpr (hagree.right_below ?_)
          simp only [blockAt, decide_eq_true_eq]
          omega
      · split <;> rfl
    rw [receivedGrid, hsame, blockAt_quad_at _ _ hr hc]

/-- A value that is not received differs by a top digit. -/
theorem Quad.received_far {q : Quad ℤ} (h : q.Forall fun v => 0 ≤ v ∧ v < 2 ^ 63) (r c : ℕ)
    (hne : q.received.at r c ≠ q.at r c) : 2 ^ 61 ≤ |q.received.at r c - q.at r c| := by
  have hfar : ∀ v w : ℤ, v % 2 ^ 61 = w % 2 ^ 61 → v ≠ w → 2 ^ 61 ≤ |v - w| := by
    intro v w hmod hne
    rcases abs_cases (v - w) with ⟨habs, hsign⟩ | ⟨habs, hsign⟩ <;> rw [habs] <;> omega
  obtain ⟨h00, h01, h10, -⟩ := h
  apply hfar _ _ _ hne
  simp only [Quad.at, Quad.received]
  split
  · split
    · omega
    · omega
  · rfl

/-- A grid is far from what is received where the two differ. -/
theorem receivedGrid_far {nqx nqy r c : ℕ} {V : ℕ → ℕ → ℤ} (h : Below nqx nqy 63 V)
    (hr : r < nqx) (hc : c < nqy) (hne : receivedGrid nqx nqy V r c ≠ V r c) :
    2 ^ 61 ≤ |receivedGrid nqx nqy V r c - V r c| := by
  have hforall : ((blockAt nqx nqy (r / 2) (c / 2)).quad V 0).Forall
      fun v => 0 ≤ v ∧ v < 2 ^ 63 :=
    Block.quad_forall (inside_of_mem (blockAt_mem hr hc)) ⟨le_refl 0, by positivity⟩ h
  rw [← blockAt_quad_at V 0 hr hc] at hne ⊢
  rw [receivedGrid] at hne ⊢
  exact Quad.received_far hforall r c hne

/-! ## The top planes of a tile -/

/-- The magnitudes a plane is coded by: its coefficients', the first as zero. -/
def codedMagnitude (nx ny : ℕ) (values : List ℤ) (i : ℕ) : ℤ :=
  if i = 0 then 0 else |coefficients nx ny values (i / ny) (i % ny)|

/-- The top digits of the blocks of a plane's quadrants agree. -/
def TopPlanesAgree (nx ny : ℕ) (mag : ℕ → ℤ) : Prop :=
  ∀ entry ∈ quadrants nx ny, ∀ block ∈ blocks entry.1.nqx entry.1.nqy,
    TopDigitsAgree block (block.quad (entry.1.values mag) 0)

instance (nx ny : ℕ) (mag : ℕ → ℤ) : Decidable (TopPlanesAgree nx ny mag) :=
  inferInstanceAs (Decidable (∀ entry ∈ quadrants nx ny, ∀ block ∈ blocks entry.1.nqx entry.1.nqy,
    TopDigitsAgree block (block.quad (entry.1.values mag) 0)))

section Tile

variable {nx ny : ℕ} {values a : List ℤ}

/-- The coded magnitudes of a transformed plane are those of its coefficients. -/
theorem codedMagnitudes_getD (hplane : Holds a 0 ny nx ny (coefficients nx ny values)) {i : ℕ}
    (hi : i < nx * ny) : (codedMagnitudes a).getD i 0 = codedMagnitude nx ny values i := by
  obtain ⟨hrow, hcol, hplace⟩ := place_of_lt hi
  have hget := hplane _ hrow _ hcol
  rw [hplace] at hget
  have hlt := (List.getElem?_eq_some_iff.mp hget).1
  rw [codedMagnitude, codedMagnitudes, List.getD_eq_getElem?_getD, List.getElem?_map]
  split
  · rename_i hzero
    subst hzero
    rw [List.getElem?_set_self hlt]
    rfl
  · rename_i hne
    rw [List.getElem?_set_ne (Ne.symm hne), hget]
    rfl

/-- The magnitudes of a quadrant are those of its coefficients. -/
theorem quadrant_values_eq (hnx : 0 < nx) (hny : 0 < ny)
    (hplane : Holds a 0 ny nx ny (coefficients nx ny values)) {entry : Quadrant × ℕ}
    (hentry : entry ∈ quadrants nx ny) : ∀ r < entry.1.nqx, ∀ c < entry.1.nqy,
      entry.1.values (fun i => (codedMagnitudes a).getD i 0) r c =
        entry.1.values (codedMagnitude nx ny values) r c := by
  intro r hr c hc
  obtain ⟨row, col, hplaced, -⟩ := mem_quadrants hnx hny hentry
  obtain ⟨hrow, hcol, hplace⟩ := hplaced.place ⟨hr, hc, rfl⟩
  apply codedMagnitudes_getD hplane
  rw [hplace]
  calc ny * (row + r) + (col + c) < ny * (row + r) + ny := by omega
    _ = ny * (row + r + 1) := by ring
    _ ≤ ny * nx := Nat.mul_le_mul_left _ (by omega)
    _ = nx * ny := Nat.mul_comm _ _

/-- The magnitudes of a quadrant are bounded as those of its plane are. -/
theorem quadrant_below {magnitudes : List ℤ} {bits : ℕ} (hnx : 0 < nx) (hny : 0 < ny)
    (hlength : magnitudes.length = nx * ny) (hmags : ∀ v ∈ magnitudes, 0 ≤ v ∧ v < 2 ^ bits)
    {entry : Quadrant × ℕ} (hentry : entry ∈ quadrants nx ny) :
    Below entry.1.nqx entry.1.nqy bits (entry.1.values fun i => magnitudes.getD i 0) :=
  fun r hr c hc =>
    hmags _ (List.mem_of_getElem? (quadrant_holds hnx hny hlength hentry r hr c hc))

/-- The magnitudes of a plane in range. -/
theorem codedMagnitudes_below (hnx : 0 < nx) (hny : 0 < ny) (hlength : a.length = nx * ny)
    (hmags : ∀ v ∈ codedMagnitudes a, v < 2 ^ 63) {entry : Quadrant × ℕ}
    (hentry : entry ∈ quadrants nx ny) :
    Below entry.1.nqx entry.1.nqy 63
      (entry.1.values fun i => (codedMagnitudes a).getD i 0) := by
  have hsize : (codedMagnitudes a).length = nx * ny := by
    rw [codedMagnitudes, List.length_map, List.length_set, hlength]
  refine quadrant_below hnx hny hsize (fun v hv => ⟨?_, hmags v hv⟩) hentry
  obtain ⟨w, -, hw⟩ := List.mem_map.mp hv
  rw [← hw]
  exact abs_nonneg w

/-- Where the top planes agree, the magnitudes are received. -/
theorem received_eq {magnitudes received : List ℤ} (hsize : magnitudes.length = nx * ny)
    (hreceived : Received nx ny magnitudes received)
    (hsame : ∀ entry ∈ quadrants nx ny, ∀ r < entry.1.nqx, ∀ c < entry.1.nqy,
      entry.1.receivedValues (fun i => magnitudes.getD i 0) r c =
        entry.1.values (fun i => magnitudes.getD i 0) r c) :
    received = magnitudes := by
  refine List.ext_getElem? (fun i => ?_)
  by_cases hi : i < nx * ny
  · obtain ⟨entry, hentry, r, c, hr, hc, hplace⟩ := quadrants_cover hi
    rw [hplace, hreceived.holds entry hentry r hr c hc, hsame entry hentry r hr c hc,
      Quadrant.values, ← hplace, List.getD_eq_getElem?_getD, List.getElem?_eq_getElem (by omega),
      Option.getD_some]
  · rw [List.getElem?_eq_none (by rw [hreceived.length_eq]; omega),
      List.getElem?_eq_none (by omega)]

/-- The coefficients of a transform that succeeds are in range. -/
theorem htrans_fits (hny : 0 < ny) (hlevels : levels nx ny ≤ 61)
    (hlength : values.length = nx * ny) (hvalues : ∀ v ∈ values, FitsI64 v)
    (hok : htrans values nx ny = .ok a) : ∀ v ∈ a, FitsI64 v := by
  obtain ⟨hsame, hplane, hpasses⟩ := htrans_ok hny hlevels hlength hok
  intro v hv
  obtain ⟨i, hget⟩ := List.mem_iff_getElem?.mp hv
  have hi : i < nx * ny := by
    rw [← hlength, ← hsame]
    exact (List.getElem?_eq_some_iff.mp hget).1
  obtain ⟨hrow, hcol, hplace⟩ := place_of_lt hi
  have hvalue := hplane _ hrow _ hcol
  rw [hplace, hget] at hvalue
  rw [Option.some.inj hvalue]
  exact transformed_fits (by omega) (sampleGrid_fits hlength hvalues) hpasses _ hrow _ hcol

/-- A tile whose magnitudes are received with its signs reads back. -/
theorem decode_of_received {a0 : ℤ} {bi : BitInput} {tail : List Bool} (hnx : 0 < nx)
    (hny : 0 < ny) (hlevels : levels nx ny ≤ 61) (hlength : values.length = nx * ny)
    (hvalues : ∀ v ∈ values, FitsI64 v) (htransform : htrans values nx ny = .ok a)
    (ha0 : a[0]? = some a0) (hbi : bi.Left (signString (a.set 0 0) ++ tail))
    (hheld : bi.bitsToGo ≤ 8) :
    (do
      let a ← readSigns bi (codedMagnitudes a)
      let a ← store a 0 a0
      hinv a nx ny 0 .off) = .ok values := by
  obtain ⟨hlt, hget⟩ := List.getElem?_eq_some_iff.mp ha0
  have hstore : store (a.set 0 0) 0 a0 = .ok a := by
    rw [store_of_lt _ (by rwa [List.length_set]), List.set_set, ← hget, List.set_getElem_self]
  have hfits : ∀ v ∈ a.set 0 0, FitsI64 v := by
    intro v hv
    rcases List.mem_or_eq_of_mem_set hv with hold | rfl
    · exact htrans_fits hny hlevels hlength hvalues htransform v hold
    · exact fitsI64_zero
  rw [codedMagnitudes, Loops.bind_ok (readSigns_signString hfits hbi hheld), Loops.bind_ok hstore]
  exact hinv_htrans hnx hny hlevels hlength hvalues htransform

/-- A tile reads back only where all its magnitudes are received. -/
theorem received_of_decode {a0 : ℤ} {bi : BitInput} {received : List ℤ} (hnx : 0 < nx)
    (hny : 0 < ny) (hx : nx < 2 ^ 31) (hy : ny < 2 ^ 31) (hlength : a.length = nx * ny)
    (hvalues : values.length = nx * ny)
    (hplane : Holds a 0 ny nx ny (coefficients nx ny values))
    (hreceived : Received nx ny (codedMagnitudes a) received) (hcorner : received[0]? = some 0)
    (hmags : ∀ v ∈ codedMagnitudes a, v < 2 ^ 63)
    (hok : (do
      let a ← readSigns bi received
      let a ← store a 0 a0
      hinv a nx ny 0 .off) = .ok values) {entry : Quadrant × ℕ}
    (hentry : entry ∈ quadrants nx ny) {r c : ℕ} (hr : r < entry.1.nqx) (hc : c < entry.1.nqy) :
    entry.1.receivedValues (fun i => (codedMagnitudes a).getD i 0) r c =
      entry.1.values (fun i => (codedMagnitudes a).getD i 0) r c := by
  by_contra hne
  have hbelow := codedMagnitudes_below hnx hny hlength hmags hentry
  have hfar := receivedGrid_far hbelow hr hc hne
  have hwnonneg := (receivedGrid_below (le_refl 63) hbelow r hr c hc).1
  have hget := hreceived.holds entry hentry r hr c hc
  obtain ⟨row, col, hplaced, -⟩ := mem_quadrants hnx hny hentry
  obtain ⟨hrow, hcol, hplace⟩ := hplaced.place ⟨hr, hc, rfl⟩
  have hmagnitude := quadrant_values_eq hnx hny hplane hentry r hr c hc
  have hsize : (codedMagnitudes a).length = nx * ny := by
    rw [codedMagnitudes, List.length_map, List.length_set, hlength]
  have hsame := quadrant_holds hnx hny hsize hentry r hr c hc
  rw [Quadrant.receivedValues] at hget hne
  generalize receivedGrid _ _ _ r c = w at hfar hget hne hwnonneg
  rw [hmagnitude] at hfar hsame hne
  rw [Quadrant.values] at hfar hsame hne
  rw [hplace] at hfar hsame hget hne
  -- the first place is received
  have hfirst : ny * (row + r) + (col + c) ≠ 0 := by
    intro hzero
    rw [hzero] at hget hne
    rw [hget] at hcorner
    exact hne (Option.some.inj hcorner)
  obtain ⟨signed, hsigns, hok⟩ := Loops.ok_of_bind hok
  obtain ⟨stored, hstore, hok⟩ := Loops.ok_of_bind hok
  have habs := readSigns_abs hsigns
  have hsignedLength : signed.length = nx * ny := by
    have h := congrArg List.length habs
    rwa [List.length_map, List.length_map, hreceived.length_eq] at h
  rw [store_of_lt _ (by rw [hsignedLength]; exact Nat.mul_pos hnx hny)] at hstore
  obtain rfl := Except.ok.inj hstore
  have hnear := hinv_near hnx hny hx hy (by rw [List.length_set, hsignedLength]) hvalues hok
    (row + r) hrow (col + c) hcol hfirst
  have hvalue : |sampleGrid ny (signed.set 0 a0) (row + r) (col + c)| = |w| := by
    have hplaceAbs := congrArg (fun l => l[ny * (row + r) + (col + c)]?) habs
    simp only [List.getElem?_map, hget, Option.map_some] at hplaceAbs
    obtain ⟨v, hv, hvabs⟩ := Option.map_eq_some_iff.mp hplaceAbs
    rw [sampleGrid, List.getD_eq_getElem?_getD, List.getElem?_set_ne (Ne.symm hfirst), hv]
    exact hvabs
  rw [codedMagnitude, if_neg hfirst, Nat.mul_add_div hny, Nat.div_eq_of_lt hcol, Nat.add_zero,
    Nat.mul_add_mod, Nat.mod_eq_of_lt hcol] at hfar
  rw [abs_of_nonneg hwnonneg] at hvalue
  rw [← hvalue] at hfar
  exact absurd ((abs_abs_sub_abs_le _ _).trans_lt hnear) (not_lt.mpr hfar)

/-- The condition on the coefficients of a tile is that its magnitudes are received. -/
theorem topPlanesAgree_iff (hnx : 0 < nx) (hny : 0 < ny) (hlength : a.length = nx * ny)
    (hplane : Holds a 0 ny nx ny (coefficients nx ny values))
    (hmags : ∀ v ∈ codedMagnitudes a, v < 2 ^ 63) :
    TopPlanesAgree nx ny (codedMagnitude nx ny values) ↔
      ∀ entry ∈ quadrants nx ny, ∀ r < entry.1.nqx, ∀ c < entry.1.nqy,
        entry.1.receivedValues (fun i => (codedMagnitudes a).getD i 0) r c =
          entry.1.values (fun i => (codedMagnitudes a).getD i 0) r c := by
  have hquad : ∀ entry ∈ quadrants nx ny, ∀ block ∈ blocks entry.1.nqx entry.1.nqy,
      block.quad (entry.1.values (codedMagnitude nx ny values)) 0 =
        block.quad (entry.1.values fun i => (codedMagnitudes a).getD i 0) 0 := by
    intro entry hentry block hblock
    apply Block.quad_congr 0 (inside_of_mem hblock)
    intro r hr c hc
    exact (quadrant_values_eq hnx hny hplane hentry r hr c hc).symm
  constructor
  · intro hagree entry hentry
    apply (receivedGrid_eq_iff (codedMagnitudes_below hnx hny hlength hmags hentry)).mpr
    intro block hblock
    rw [← hquad entry hentry block hblock]
    exact hagree entry hentry block hblock
  · intro hsame entry hentry block hblock
    rw [hquad entry hentry block hblock]
    exact (receivedGrid_eq_iff (codedMagnitudes_below hnx hny hlength hmags hentry)).mp
      (hsame entry hentry) block hblock

end Tile

/-! ## The round trip -/

/-- A tile that is encoded losslessly reads back without smoothing exactly where the top
planes of its coefficients agree. -/
theorem lossless_round_trip_iff {codec : Codec} {values : List ℤ} {shape : List ℕ} {blank : Option ℤ}
    {bytes : List UInt8} {nx ny : ℕ} (hscale : codec.scale = .lossless)
    (hsmoothing : codec.smoothing = .off) (hextents : codec.extents shape = .ok (ny, nx))
    (hnx : 0 < nx) (hny : 0 < ny) (hvalues : ∀ v ∈ values, FitsI64 v)
    (hok : codec.encode values shape blank = .ok bytes) :
    codec.decode bytes shape = .ok values ↔
      TopPlanesAgree nx ny (codedMagnitude nx ny values) := by
  rw [Codec.encode, Loops.bind_ok hextents, Codec.tileScale, hscale] at hok
  dsimp only at hok
  rw [Loops.bind_ok rfl, if_neg (by simp)] at hok
  split at hok
  · cases hok
  rename_i hsize
  rw [not_not] at hsize
  obtain ⟨a, htransform, hok⟩ := Loops.ok_of_bind hok
  rw [digitize, if_pos (by decide), Loops.bind_ok rfl] at hok
  obtain ⟨hx, hy⟩ := encodePlane_extents hok
  have hlength : values.length = nx * ny := hsize.symm
  have hlevels : levels nx ny ≤ 61 := (levels_le hnx hx hy).trans (by decide)
  obtain ⟨hsame, hplane, -⟩ := htrans_ok hny hlevels hlength htransform
  have hcorner := hplane 0 hnx 0 hny
  rw [Nat.mul_zero, Nat.add_zero] at hcorner
  obtain ⟨hmags, received, bi, tail, hreceived, hzero, hbi, hheld, hdecompress⟩ :=
    hdecompress_encodePlane codec hnx hny (hsame.trans hlength)
      (htrans_fits hny hlevels hlength hvalues htransform) hcorner hok
  have hdecode : codec.decode bytes shape = (do
      let a ← readSigns bi received
      let a ← store a 0 (coefficients nx ny values 0 0)
      hinv a nx ny 0 .off) := by
    rw [Codec.decode, Loops.bind_ok hextents]
    dsimp only
    rw [hdecompress, hsmoothing]
  rw [hdecode, topPlanesAgree_iff hnx hny (hsame.trans hlength) hplane hmags]
  constructor
  · intro hread entry hentry r hr c hc
    exact received_of_decode hnx hny hx hy (hsame.trans hlength) hlength hplane hreceived hzero
      hmags hread hentry hr hc
  · intro hall
    have hcoded : (codedMagnitudes a).length = nx * ny := by
      rw [codedMagnitudes, List.length_map, List.length_set, hsame, hlength]
    rw [received_eq hcoded hreceived hall]
    exact decode_of_received hnx hny hlevels hlength hvalues htransform hcorner hbi hheld

/-- A lossless codec for tiles of rows and columns. -/
def losslessCodec : Codec := ⟨.lossless, .off, (0, 1)⟩

/-- A tile of small samples reads back. -/
theorem lossless_round_trip_small : ∃ bytes,
    losslessCodec.encode [5, -7, 0, 9] [2, 2] none = .ok bytes ∧
      (losslessCodec.decode bytes [2, 2] = .ok [5, -7, 0, 9] ↔
        TopPlanesAgree 2 2 (codedMagnitude 2 2 [5, -7, 0, 9])) := by
  have hrun : (losslessCodec.encode [5, -7, 0, 9] [2, 2] none >>= fun bytes =>
      losslessCodec.decode bytes [2, 2]) = .ok [5, -7, 0, 9] := by
    decide +kernel
  obtain ⟨bytes, hok, -⟩ := Loops.ok_of_bind hrun
  exact ⟨bytes, hok, lossless_round_trip_iff rfl rfl rfl (by decide) (by decide) (by decide) hok⟩

/-- A sample of `2 ^ 61` has coefficients that share their top digits' places, and its tile
reads back as another. -/
theorem lossless_round_trip_fails_at_top_planes :
    ¬∀ (codec : Codec) (values : List ℤ) (shape : List ℕ) (blank : Option ℤ) (bytes : List UInt8)
      (nx ny : ℕ), codec.scale = .lossless → codec.smoothing = .off →
      codec.extents shape = .ok (ny, nx) → 0 < nx → 0 < ny → (∀ v ∈ values, FitsI64 v) →
      codec.encode values shape blank = .ok bytes → codec.decode bytes shape = .ok values := by
  intro hround
  have hrun : (losslessCodec.encode [0, 2 ^ 61, 0, 0] [2, 2] none >>= fun bytes =>
      losslessCodec.decode bytes [2, 2]) = .ok [2 ^ 59, 2 ^ 59, 2 ^ 59, 2 ^ 59] := by
    decide +kernel
  obtain ⟨bytes, hencode, hdecode⟩ := Loops.ok_of_bind hrun
  have hsame := hround losslessCodec [0, 2 ^ 61, 0, 0] [2, 2] none bytes 2 2 rfl rfl rfl
    (by decide) (by decide) (by decide) hencode
  rw [hdecode] at hsame
  exact absurd (Except.ok.inj hsame) (by decide)

end FitsWell.Hcompress
