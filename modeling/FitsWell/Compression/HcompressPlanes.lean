import FitsWell.Compression.HcompressTree

/-!
# The bit planes of a quadrant

A block's code in a plane is read back as its low four bits. Below the plane 61 they are
the plane's bits of the block's values. In the planes 61 and 62 the places of some values
are past the end of the word, and a shift that keeps the sign repeats the last place
inside it: those values come back with the bit of another one.
-/

namespace FitsWell.Hcompress

open Bytes Bits

/-! ## Digits -/

/-- The binary digit of `v` at a place. -/
def digit (v : ℤ) (bit : ℕ) : ℕ := (v / 2 ^ bit % 2).toNat

theorem digit_cast (v : ℤ) (bit : ℕ) : (digit v bit : ℤ) = v / 2 ^ bit % 2 :=
  Int.toNat_of_nonneg (Int.emod_nonneg _ (by decide))

/-- A word's bit as a digit. -/
theorem toNat_getLsbD_ofInt (v : ℤ) {bit : ℕ} (h : bit < 64) :
    ((BitVec.ofInt 64 v).getLsbD bit).toNat = digit v bit := by
  rw [getLsbD_ofInt v h, digit]
  rcases Int.emod_two_eq (v / 2 ^ bit) with hd | hd <;> rw [hd] <;> rfl

/-- The digits of a value put together at a place. -/
theorem digit_add_mul {low : ℤ} (high : ℤ) {m : ℕ} (bit : ℕ) (hlow : 0 ≤ low) (hlt : low < 2 ^ m) :
    (low + high * 2 ^ m) / 2 ^ bit % 2 =
      if bit < m then low / 2 ^ bit % 2 else high / 2 ^ (bit - m) % 2 := by
  split
  · rename_i h
    have hsplit : high * 2 ^ m = 2 ^ bit * (2 * (high * 2 ^ (m - bit - 1))) := by
      have hpow : (2 : ℤ) ^ m = 2 ^ bit * (2 * 2 ^ (m - bit - 1)) := by
        rw [← pow_succ', ← pow_add]
        congr 1
        omega
      rw [hpow]
      ring
    rw [hsplit, Int.add_mul_ediv_left _ _ (by positivity), Int.add_mul_emod_self_left]
  · rename_i h
    have hpow : (2 : ℤ) ^ bit = 2 ^ m * 2 ^ (bit - m) := by
      rw [← pow_add]
      congr 1
      omega
    rw [hpow, ← Int.ediv_ediv_of_nonneg (by positivity), Int.add_mul_ediv_right _ _ (by positivity),
      Int.ediv_eq_zero_of_lt hlow hlt, Int.zero_add]

/-- The digits of a value below a place are those of its remainder. -/
theorem digit_emod (v : ℤ) {bit m : ℕ} (h : bit < m) : v % 2 ^ m / 2 ^ bit % 2 = v / 2 ^ bit % 2 := by
  have hsplit := digit_add_mul (v / 2 ^ m) bit
    (Int.emod_nonneg v (show (2 : ℤ) ^ m ≠ 0 by positivity))
    (Int.emod_lt_of_pos v (by positivity))
  rw [Int.emod_add_ediv_mul, if_pos h] at hsplit
  exact hsplit.symm

/-! ## Codes -/

/-- The bits of a code. -/
theorem expandCode_testBit (v : ℕ) :
    expandCode v = ⟨(v.testBit 3).toNat, (v.testBit 2).toNat, (v.testBit 1).toNat,
      (v.testBit 0).toNat⟩ := by
  have hbit : ∀ k, v >>> k &&& 1 = (v.testBit k).toNat := by
    intro k
    rw [Nat.testBit, Nat.and_one_is_mod, Nat.and_comm, Nat.and_one_is_mod]
    rcases Nat.mod_two_eq_zero_or_one (v >>> k) with h | h <;> rw [h] <;> rfl
  have hzero := hbit 0
  rw [Nat.shiftRight_zero] at hzero
  simp only [expandCode, hbit, hzero]

/-- A value's bit of a plane, shifted to its place above the plane. -/
theorem getLsbD_shifted (word : BitVec 64) {bit m : ℕ} (place : ℕ) (h : bit + m < 64) :
    (word <<< place &&& 1#64 <<< bit <<< place).getLsbD (bit + m) =
      (decide (m = place) && word.getLsbD bit) := by
  rw [BitVec.getLsbD_and, BitVec.getLsbD_shiftLeft, BitVec.getLsbD_shiftLeft,
    BitVec.getLsbD_shiftLeft, BitVec.getLsbD_one]
  by_cases heq : m = place
  · subst heq
    have hlow : ¬bit + m < m := by omega
    simp [h, hlow, show bit < 64 by omega]
  · by_cases hlow : bit + m < place
    · simp [hlow, heq]
    · have hother : ¬bit + m - place - bit = 0 ∨ bit + m - place < bit := by omega
      rcases hother with hother | hother <;> simp [hother, heq]

/-- The value at a place of a code: those of a block, from the last. -/
def Quad.atPlace (q : Quad ℤ) (place : ℕ) : ℤ :=
  if place = 0 then q.s11 else if place = 1 then q.s10 else if place = 2 then q.s01 else q.s00

/-- A bit of a code is the plane's bit of the value at its place, or of the last one whose
place is in the word. -/
theorem onebitCode_testBit {bit j : ℕ} (q : Quad ℤ) (hbit : bit ≤ 62) (hj : j < 8)
    (hplace : min (bit + j) 63 < bit + 4) :
    (onebitCode bit q).testBit j =
      (BitVec.ofInt 64 (q.atPlace (min (bit + j) 63 - bit))).getLsbD bit := by
  obtain ⟨m, hm⟩ : ∃ m, min (bit + j) 63 = bit + m := ⟨min (bit + j) 63 - bit, by omega⟩
  have hlt : bit + m < 64 := by omega
  have hm4 : m < 4 := by omega
  have hbyte : ∀ x : ℕ, (x % 256).testBit j = x.testBit j := by
    intro x
    rw [show (256 : ℕ) = 2 ^ 8 by rfl, Nat.testBit_mod_two_pow]
    simp [show j < 8 by omega]
  have hzero : ∀ word : BitVec 64, (word &&& 1#64 <<< bit).getLsbD (bit + m) =
      (decide (m = 0) && word.getLsbD bit) := by
    intro word
    have h := getLsbD_shifted word 0 hlt
    simpa using h
  have hcode : ∀ word : BitVec 64, (word.sshiftRight bit).getLsbD j = word.getLsbD (bit + m) := by
    intro word
    rw [BitVec.getLsbD_sshiftRight, ← hm]
    by_cases hin : bit + j < 64
    · rw [Nat.min_eq_left (by omega), if_pos hin]
      simp [show j < 64 by omega]
    · rw [Nat.min_eq_right (by omega), if_neg hin, BitVec.msb_eq_getLsbD_last]
      simp [show j < 64 by omega]
  rw [hm, Nat.add_sub_cancel_left]
  unfold onebitCode
  dsimp only
  rw [hbyte, BitVec.testBit_toNat, hcode]
  simp only [BitVec.getLsbD_or, getLsbD_shifted _ _ hlt, hzero]
  unfold Quad.atPlace
  rcases (show m = 0 ∨ m = 1 ∨ m = 2 ∨ m = 3 by omega) with rfl | rfl | rfl | rfl <;> simp

/-- The values that a reader gets for those of a block: in the two topmost planes it gets
some of their digits from others. -/
def Quad.received (q : Quad ℤ) : Quad ℤ :=
  ⟨q.s00 % 2 ^ 61 + (q.s01 / 2 ^ 61 % 2 + q.s10 / 2 ^ 62 * 2) * 2 ^ 61,
    q.s01 % 2 ^ 62 + q.s10 / 2 ^ 62 * 2 ^ 62, q.s10, q.s11⟩

/-- A code's low bits are the digits of the values received. -/
theorem expandCode_onebitCode {bit : ℕ} (q : Quad ℤ) (hbit : bit ≤ 62) :
    expandCode (onebitCode bit q % 16) =
      ⟨digit q.received.s00 bit, digit q.received.s01 bit, digit q.received.s10 bit,
        digit q.received.s11 bit⟩ := by
  have hlow : ∀ j < 4, ((onebitCode bit q % 16).testBit j).toNat =
      digit (q.atPlace (min (bit + j) 63 - bit)) bit := by
    intro j hj
    rw [show (16 : ℕ) = 2 ^ 4 by rfl, Nat.testBit_mod_two_pow]
    simp only [hj, decide_true, Bool.true_and]
    rw [onebitCode_testBit q hbit (by omega) (by omega), toNat_getLsbD_ofInt _ (by omega)]
  have hpos : (0 : ℤ) < 2 ^ 61 := by positivity
  have hpos' : (0 : ℤ) < 2 ^ 62 := by positivity
  have hcorner : digit (q.atPlace (min (bit + 3) 63 - bit)) bit = digit q.received.s00 bit := by
    have hdigits := digit_add_mul (q.s01 / 2 ^ 61 % 2 + q.s10 / 2 ^ 62 * 2) bit
      (Int.emod_nonneg q.s00 hpos.ne') (Int.emod_lt_of_pos q.s00 hpos)
    unfold digit Quad.received
    rw [hdigits]
    rcases (show bit < 61 ∨ bit = 61 ∨ bit = 62 by omega) with hlt | rfl | rfl
    · rw [if_pos hlt, digit_emod _ hlt, show min (bit + 3) 63 - bit = 3 by omega]
      rfl
    · rw [if_neg (by decide), show min (61 + 3) 63 - 61 = 2 by decide, Nat.sub_self, pow_zero,
        Int.ediv_one, Int.add_mul_emod_self_right, Int.emod_emod_of_dvd _ (dvd_refl 2)]
      rfl
    · have hhalf : (q.s01 / 2 ^ 61 % 2 + q.s10 / 2 ^ 62 * 2) / 2 ^ (62 - 61) = q.s10 / 2 ^ 62 := by
        rw [show 62 - 61 = 1 by decide, pow_one]
        omega
      rw [if_neg (by decide), hhalf, show min (62 + 3) 63 - 62 = 1 by decide]
      rfl
  have hright : digit (q.atPlace (min (bit + 2) 63 - bit)) bit = digit q.received.s01 bit := by
    have hdigits := digit_add_mul (q.s10 / 2 ^ 62) bit
      (Int.emod_nonneg q.s01 hpos'.ne') (Int.emod_lt_of_pos q.s01 hpos')
    unfold digit Quad.received
    rw [hdigits]
    rcases (show bit < 62 ∨ bit = 62 by omega) with hlt | rfl
    · rw [if_pos hlt, digit_emod _ hlt, show min (bit + 2) 63 - bit = 2 by omega]
      rfl
    · rw [if_neg (by decide), show min (62 + 2) 63 - 62 = 1 by decide, Nat.sub_self, pow_zero,
        Int.ediv_one]
      rfl
  rw [expandCode_testBit, hlow 0 (by decide), hlow 1 (by decide), hlow 2 (by decide),
    hlow 3 (by decide), hcorner, hright, show min (bit + 0) 63 - bit = 0 by omega,
    show min (bit + 1) 63 - bit = 1 by omega]
  rfl

/-- A corner that is zero is received as zero where the block's codes have four bits. -/
theorem received_corner_zero {q : Quad ℤ} {planes : ℕ} (hplanes : planes ≤ 63)
    (hreceived : 0 ≤ q.received.s00 ∧ q.received.s00 < 2 ^ planes) (hzero : q.s00 = 0)
    (hcodes : ∀ bit < planes, onebitCode bit q < 16) : q.received.s00 = 0 := by
  -- in the two top planes a code repeats its highest bit
  have hdigit : ∀ bit, 61 ≤ bit → bit < planes → digit q.received.s00 bit = 0 := by
    intro bit hlow hlt
    have hcode := hcodes bit hlt
    have htop : (onebitCode bit q).testBit 4 = false :=
      Nat.testBit_lt_two_pow (hcode.trans_le (by norm_num))
    have hsame : (onebitCode bit q).testBit 3 = (onebitCode bit q).testBit 4 := by
      rw [onebitCode_testBit q (by omega) (by decide) (by omega),
        onebitCode_testBit q (by omega) (by decide) (by omega),
        show min (bit + 3) 63 = min (bit + 4) 63 by omega]
    have hexpand := congrArg Quad.s00 (expandCode_onebitCode q (show bit ≤ 62 by omega))
    rw [expandCode_testBit, Nat.mod_eq_of_lt hcode, hsame, htop] at hexpand
    exact hexpand.symm
  have hmultiple : q.received.s00 % 2 ^ 61 = 0 := by
    simp only [Quad.received, hzero]
    omega
  obtain ⟨hnonneg, hlt⟩ := hreceived
  have hcases : planes ≤ 61 ∨ planes = 62 ∨ planes = 63 := by omega
  rcases hcases with hfew | rfl | rfl
  · have hpow : (2 : ℤ) ^ planes ≤ 2 ^ 61 := pow_le_pow_right₀ (by norm_num) hfew
    omega
  · have hlow := hdigit 61 (le_refl 61) (by decide)
    zify at hlow
    rw [digit_cast] at hlow
    omega
  · have hlow := hdigit 61 (le_refl 61) (by decide)
    have hhigh := hdigit 62 (by decide) (by decide)
    zify at hlow hhigh
    rw [digit_cast] at hlow hhigh
    omega

/-! ## Planes -/

/-- A quadrant that has values. -/
structure Quadrant.Sound (quadrant : Quadrant) : Prop where
  rows : 0 < quadrant.nqx
  cols : 0 < quadrant.nqy
  stride : quadrant.nqy ≤ quadrant.n

/-- A bit string from which a quadrant's codes of a plane are read. -/
def Quadrant.SpellsCodes (quadrant : Quadrant) (M : ℕ → ℕ → ℕ) (string : List Bool) : Prop :=
  ∀ (bi : BitInput) (tail : List Bool), bi.Left (string ++ tail) → 3 ≤ tail.length →
    bi.bitsToGo ≤ 10 → ∃ codes bi', qtreeCodes bi quadrant = .ok (codes, bi') ∧
      Holds codes 0 (extent quadrant.nqy 1) (extent quadrant.nqx 1) (extent quadrant.nqy 1) M ∧
      bi'.Left tail ∧ bi'.data = bi.data ∧ bi'.bitsToGo ≤ 10

section Plane

variable {quadrant : Quadrant} {M : ℕ → ℕ → ℕ}

theorem Quadrant.cells_eq (quadrant : Quadrant) :
    quadrant.cells = extent quadrant.nqx 1 * extent quadrant.nqy 1 := rfl

theorem Quadrant.Sound.cells_pos (h : quadrant.Sound) : 0 < quadrant.cells := by
  rw [Quadrant.cells_eq]
  exact Nat.mul_pos (extent_pos h.rows 1) (extent_pos h.cols 1)

/-- The cells of a grid are below a bound where its values are. -/
theorem cellList_forall {nx ny : ℕ} {P : ℕ → Prop} (h : ∀ r < nx, ∀ c < ny, P (M r c)) :
    ∀ v ∈ cellList nx ny M, P v := by
  intro v hv
  obtain ⟨i, hi, rfl⟩ := List.mem_map.mp hv
  obtain ⟨hr, hc, -⟩ := place_of_lt (List.mem_range.mp hi)
  exact h _ hr _ hc

/-- The codes of a plane behind a zero. -/
theorem spellsCodes_direct (hq : quadrant.Sound) :
    quadrant.SpellsCodes (fun i j => M i j % 16) (natBits 4 0 ++
      (cellList (extent quadrant.nqx 1) (extent quadrant.nqy 1) M).flatMap (natBits 4)) := by
  intro bi tail hbi htail hheld
  have hlow : (cellList (extent quadrant.nqx 1) (extent quadrant.nqy 1) M).flatMap (natBits 4) =
      (cellList (extent quadrant.nqx 1) (extent quadrant.nqy 1)
        fun i j => M i j % 16).flatMap (natBits 4) := by
    rw [cellList, cellList, List.flatMap_map, List.flatMap_map]
    congr 1
    funext i
    exact (natBits_mod 4 _).symm
  rw [hlow, List.append_assoc] at hbi
  obtain ⟨bi1, hformat, hleft1, hdata1, hfew1⟩ := BitInput.Left.inputNybble hbi (by decide) hheld
  have hlength : (cellList (extent quadrant.nqx 1) (extent quadrant.nqy 1)
      fun i j => M i j % 16).length = quadrant.cells := by
    rw [cellList_length, Quadrant.cells_eq]
  have hpos := hq.cells_pos
  obtain ⟨codes, bi', hok, hget, hleft, hdata, hfew⟩ := BitInput.Left.inputNnybble
    (List.replicate (max quadrant.cells 1) 0) hleft1
    (cellList_forall fun r _ c _ => Nat.mod_lt _ (by decide)) (by omega)
    (by rw [hlength, List.length_replicate]; omega) hfew1
  rw [hlength] at hok hget
  refine ⟨codes, bi', ?_, holds_of_cellList hget, hleft, hdata.trans hdata1, by omega⟩
  unfold qtreeCodes
  dsimp only
  rw [Loops.bind_ok hformat]
  exact hok

/-- The levels of a quadrant's tree cover it. -/
theorem Quadrant.Sound.covers (hq : quadrant.Sound) :
    quadrant.nqx ≤ 2 ^ (quadrant.log2n - 1 + 1) ∧ quadrant.nqy ≤ 2 ^ (quadrant.log2n - 1 + 1) := by
  obtain ⟨hx, hy⟩ := le_two_pow_levels hq.rows quadrant.nqy
  have hpow : 2 ^ levels quadrant.nqx quadrant.nqy ≤ 2 ^ (quadrant.log2n - 1 + 1) :=
    Nat.pow_le_pow_right (by decide) (by rw [Quadrant.log2n, ← levels]; omega)
  exact ⟨hx.trans hpow, hy.trans hpow⟩

/-- The root of a tree of codes is a code. -/
theorem treeGrid_lt (hq : quadrant.Sound)
    (hcells : ∀ i < extent quadrant.nqx 1, ∀ j < extent quadrant.nqy 1, M i j < 16) (count : ℕ) :
    treeGrid quadrant.nqx quadrant.nqy M count 0 0 < 16 := by
  cases count with
  | zero => exact hcells 0 (extent_pos hq.rows 1) 0 (extent_pos hq.cols 1)
  | succ count => exact reduceCode_lt _

/-- The codes of a tree, from its root down. -/
theorem spellsCodes_tree (hq : quadrant.Sound) (hlog : quadrant.log2n < 64)
    (hcells : ∀ i < extent quadrant.nqx 1, ∀ j < extent quadrant.nqy 1, M i j < 16) :
    quadrant.SpellsCodes M (natBits 4 15 ++
      (huffmanBits (treeGrid quadrant.nqx quadrant.nqy M (quadrant.log2n - 1) 0 0) ++
        lowerBits quadrant.nqx quadrant.nqy M (quadrant.log2n - 1))) := by
  intro bi tail hbi htail hheld
  obtain ⟨hcx, hcy⟩ := hq.covers
  generalize hcount : quadrant.log2n - 1 = count at hbi hcx hcy
  have hroot := treeGrid_lt hq hcells count
  rw [List.append_assoc, List.append_assoc] at hbi
  obtain ⟨bi1, hformat, hleft1, hdata1, hfew1⟩ := BitInput.Left.inputNybble hbi (by decide) hheld
  obtain ⟨bi2, hhuffman, hleft2, hdata2, hfew2⟩ := BitInput.Left.inputHuffman hroot hleft1
    (by rw [List.length_append]; omega) (by omega)
  have hscratch : Holds ((List.replicate (max quadrant.cells 1) 0).set 0
      (treeGrid quadrant.nqx quadrant.nqy M count 0 0)) 0 (extent quadrant.nqy (count + 1))
      (extent quadrant.nqx (count + 1)) (extent quadrant.nqy (count + 1))
      (treeGrid quadrant.nqx quadrant.nqy M count) := by
    rw [extent_eq_one hq.rows hcx, extent_eq_one hq.cols hcy]
    intro r hr c hc
    obtain rfl : r = 0 := by omega
    obtain rfl : c = 0 := by omega
    exact List.getElem?_set_self (by rw [List.length_replicate]; omega)
  have hstep : 0 < count → 2 ^ quadrant.log2n = 2 ^ (count + 1) := by
    intro hpos
    rw [show quadrant.log2n = count + 1 by omega]
  obtain ⟨codes, bi', hok, hholds, hleft, hdata, hfew⟩ := decodeLevels_ok hq.rows hq.cols hstep
    (Axis.covers_one hq.rows hcx) (Axis.covers_one hq.cols hcy)
    (by rw [List.length_set, List.length_replicate, ← Quadrant.cells_eq]; omega) hscratch hcells
    hleft2 htail hfew2
  refine ⟨codes, bi', ?_, hholds, hleft, hdata.trans (hdata2.trans hdata1), hfew⟩
  unfold qtreeCodes
  dsimp only
  rw [Loops.bind_ok hformat]
  dsimp only
  rw [if_neg (by decide), if_neg (by decide), Loops.bind_ok hhuffman]
  dsimp only
  rw [Loops.bind_ok (store_of_lt _ (by rw [List.length_replicate]; omega)),
    Loops.bind_ok (onePlace_of_lt hlog), hcount]
  exact hok

/-- The codes of a tree's levels from its root on, as they are written. -/
theorem tree_bits (hq : quadrant.Sound)
    (hcells : ∀ i < extent quadrant.nqx 1, ∀ j < extent quadrant.nqy 1, M i j < 16) :
    (if lowerBits quadrant.nqx quadrant.nqy M (quadrant.log2n - 1 + 1) = [] then huffmanBits 0
      else lowerBits quadrant.nqx quadrant.nqy M (quadrant.log2n - 1 + 1)) =
    huffmanBits (treeGrid quadrant.nqx quadrant.nqy M (quadrant.log2n - 1) 0 0) ++
      lowerBits quadrant.nqx quadrant.nqy M (quadrant.log2n - 1) := by
  obtain ⟨hcx, hcy⟩ := hq.covers
  generalize quadrant.log2n - 1 = count at hcx hcy ⊢
  have hlevel : levelBits quadrant.nqx quadrant.nqy M count =
      if treeGrid quadrant.nqx quadrant.nqy M count 0 0 = 0 then []
      else huffmanBits (treeGrid quadrant.nqx quadrant.nqy M count 0 0) := by
    rw [levelBits, extent_eq_one hq.rows hcx, extent_eq_one hq.cols hcy]
    simp [cellList, cellBits]
  by_cases hroot : treeGrid quadrant.nqx quadrant.nqy M count 0 0 = 0
  · -- a root of zero has nothing below it
    have hnone : lowerBits quadrant.nqx quadrant.nqy M (count + 1) = [] := by
      apply lowerBits_eq_nil
      rw [extent_eq_one hq.rows hcx, extent_eq_one hq.cols hcy]
      intro i hi j hj
      obtain rfl : i = 0 := by omega
      obtain rfl : j = 0 := by omega
      exact hroot
    rw [if_pos hnone, hroot]
    rw [lowerBits, List.append_eq_nil_iff] at hnone
    rw [hnone.2, List.append_nil]
  · have hlong := huffmanBits_length_ge (treeGrid_lt hq hcells count)
    have hsome : lowerBits quadrant.nqx quadrant.nqy M (count + 1) ≠ [] := by
      rw [lowerBits, hlevel, if_neg hroot]
      intro hempty
      rw [(List.append_eq_nil_iff.mp hempty).1, List.length_nil] at hlong
      omega
    rw [if_neg hsome, lowerBits, hlevel, if_neg hroot]

/-- A plane that is written spells the low bits of its codes. -/
theorem BitOutput.qtreePlane_ok {bo bo' : BitOutput} {a : List ℤ} {V : ℕ → ℕ → ℤ} {bit : ℕ}
    (hbo : bo.Sound) (hq : quadrant.Sound) (hlog : quadrant.log2n < 64)
    (h : Holds a quadrant.base quadrant.n quadrant.nqx quadrant.nqy V)
    (hok : bo.qtreePlane a quadrant bit = .ok bo') :
    ∃ string, bo.Appends bo' string ∧ quadrant.SpellsCodes
      (fun i j => planeCodes quadrant.nqx quadrant.nqy bit V i j % 16) string := by
  have hroom : quadrant.cells ≤ (List.replicate (max quadrant.cells 1) 0).length := by
    rw [List.length_replicate]
    omega
  obtain ⟨scratch, hcodes, hlength, hholds⟩ := qtreeOnebit_ok bit hroom h
  unfold qtreePlane at hok
  dsimp only at hok
  rw [Loops.bind_ok hcodes] at hok
  obtain ⟨⟨s, overflow⟩, hlevels, hok⟩ := Loops.ok_of_bind hok
  dsimp only at hok
  rw [List.length_replicate] at hlength
  cases overflow with
  | true =>
    rw [if_pos rfl] at hok
    obtain ⟨scratch', hcodes', hlength', hholds'⟩ :=
      qtreeOnebit_ok (b := scratch) bit (by omega) h
    have hformat := outputNybble_appends hbo 0
    obtain ⟨bo1, hwrite, happ⟩ := outputNnybble_ok hformat.sound
      hq.cells_pos (show quadrant.cells ≤ scratch'.length by omega)
    unfold writeBdirect at hok
    dsimp only at hok
    rw [Loops.bind_ok hcodes', hwrite] at hok
    rw [← Except.ok.inj hok]
    have htake : scratch'.take quadrant.cells = cellList (extent quadrant.nqx 1)
        (extent quadrant.nqy 1) (planeCodes quadrant.nqx quadrant.nqy bit V) :=
      Holds.take_eq hholds'
    rw [htake] at happ
    exact ⟨_, hformat.trans happ, spellsCodes_direct hq⟩
  | false =>
    rw [if_neg (by decide)] at hok
    have hstart : CodeBuffer.Sound ⟨List.replicate (max ((quadrant.cells + 1) / 2) 1) 0, 0, 0, 0⟩ :=
      ⟨by dsimp only; decide, by dsimp only; decide, Nat.zero_le _⟩
    obtain ⟨hsound, hbits, hcells⟩ := CodeBuffer.levels_ok (k := 0)
      (M := planeCodes quadrant.nqx quadrant.nqy bit V) hstart rfl
      (by rw [hlength, Quadrant.cells_eq]; exact Nat.le_max_left _ _) hholds hlevels
    rw [Nat.zero_add] at hbits
    change ∀ i < extent quadrant.nqx 1, ∀ j < extent quadrant.nqy 1,
      planeCodes quadrant.nqx quadrant.nqy bit V i j < 16 at hcells
    obtain ⟨bo1, hwrite, happ⟩ := writeCodes_ok hbo hsound
    rw [hwrite] at hok
    rw [← Except.ok.inj hok]
    rw [hbits, tree_bits hq hcells] at happ
    refine ⟨_, happ, ?_⟩
    intro bi tail hbi htail hheld
    obtain ⟨codes, bi', hread, hget, hrest⟩ := spellsCodes_tree hq hlog hcells bi tail hbi htail
      hheld
    refine ⟨codes, bi', hread, hget.congr ?_, hrest⟩
    intro i hi j hj
    exact (Nat.mod_eq_of_lt (hcells i hi j hj)).symm

/-- The first code of a plane that is written fits a symbol: it is the first that the
tree's codes are looked up for. -/
theorem BitOutput.qtreePlane_first {bo bo' : BitOutput} {a : List ℤ} {V : ℕ → ℕ → ℤ} {bit : ℕ}
    (hq : quadrant.Sound) (h : Holds a quadrant.base quadrant.n quadrant.nqx quadrant.nqy V)
    (hok : bo.qtreePlane a quadrant bit = .ok bo') :
    planeCodes quadrant.nqx quadrant.nqy bit V 0 0 < 16 := by
  have hroom : quadrant.cells ≤ (List.replicate (max quadrant.cells 1) 0).length := by
    rw [List.length_replicate]
    omega
  obtain ⟨scratch, hcodes, hlength, hholds⟩ := qtreeOnebit_ok bit hroom h
  unfold qtreePlane at hok
  dsimp only at hok
  rw [Loops.bind_ok hcodes] at hok
  obtain ⟨s, hlevels, -⟩ := Loops.ok_of_bind hok
  have htake := Holds.take_eq hholds
  have hpos := hq.cells_pos
  rw [Quadrant.cells] at hpos
  obtain ⟨rest, hrest⟩ : ∃ rest, cellList ((quadrant.nqx + 1) / 2) ((quadrant.nqy + 1) / 2)
      (planeCodes quadrant.nqx quadrant.nqy bit V) =
        planeCodes quadrant.nqx quadrant.nqy bit V 0 0 :: rest := by
    obtain ⟨n, hn⟩ : ∃ n, (quadrant.nqx + 1) / 2 * ((quadrant.nqy + 1) / 2) = n + 1 :=
      ⟨(quadrant.nqx + 1) / 2 * ((quadrant.nqy + 1) / 2) - 1, by omega⟩
    rw [cellList, hn, List.range_succ_eq_map, List.map_cons, Nat.zero_div, Nat.zero_mod]
    exact ⟨_, rfl⟩
  rw [CodeBuffer.levels, htake, hrest] at hlevels
  obtain ⟨s1, hcopy, -⟩ := Loops.ok_of_bind hlevels
  exact CodeBuffer.bufcopy_first hcopy

end Plane

/-! ## Values -/

/-- The values of a quadrant as they are received. -/
def receivedGrid (nqx nqy : ℕ) (V : ℕ → ℕ → ℤ) (r c : ℕ) : ℤ :=
  ((blockAt nqx nqy (r / 2) (c / 2)).quad V 0).received.at r c

/-- A value's digits from a place up. -/
def above (v : ℤ) (bit : ℕ) : ℤ := v / 2 ^ bit * 2 ^ bit

theorem above_zero (v : ℤ) : above v 0 = v := by
  simp [above]

/-- The digits from a place up are those above it and its own. -/
theorem above_digit (v : ℤ) (bit : ℕ) :
    above v bit = above v (bit + 1) + (digit v bit : ℤ) * 2 ^ bit := by
  have hhalf : v / 2 ^ (bit + 1) = v / 2 ^ bit / 2 := by
    rw [pow_succ, Int.ediv_ediv_of_nonneg (by positivity)]
  have hsplit := Int.mul_ediv_add_emod (v / 2 ^ bit) 2
  rw [above, above, hhalf, digit_cast, pow_succ]
  calc v / 2 ^ bit * 2 ^ bit = (2 * (v / 2 ^ bit / 2) + v / 2 ^ bit % 2) * 2 ^ bit := by
        rw [hsplit]
    _ = _ := by ring

/-- Inserting a value's digit below those above it. -/
theorem or64_above {v : ℤ} {bit : ℕ} (hv : 0 ≤ v) (hlt : v < 2 ^ 63) :
    or64 (above v (bit + 1)) ((digit v bit : ℤ) * 2 ^ bit) = above v bit := by
  have hdigit := Int.emod_two_eq (v / 2 ^ bit)
  rw [← digit_cast] at hdigit
  have hsum := above_digit v bit
  rw [above] at hsum ⊢
  rw [or64_of_digit _ hdigit, ← above, ← above_digit]
  rw [← above, ← above_digit, above]
  have hpos : (0 : ℤ) < 2 ^ bit := by positivity
  have hle : v / 2 ^ bit * 2 ^ bit ≤ v := Int.ediv_mul_le v hpos.ne'
  have hnonneg : 0 ≤ v / 2 ^ bit * 2 ^ bit := Int.mul_nonneg (Int.ediv_nonneg hv hpos.le) hpos.le
  exact ⟨by linarith, by linarith⟩

/-- A code is inserted value by value. -/
theorem insertCode_at (bit v : ℕ) (q : Quad ℤ) (r c : ℕ) :
    (insertCode bit v q).at r c = or64 (q.at r c) (((expandCode v).at r c : ℤ) * 2 ^ bit) := by
  simp only [insertCode, Quad.at]
  split <;> split <;> rfl

/-- Inserting the codes of a plane gives the values one digit more. -/
theorem qtreeBitins_ok {codes : List ℕ} {quadrant : Quadrant} {b : List ℤ} {bit : ℕ}
    {M : ℕ → ℕ → ℕ} {X : ℕ → ℕ → ℤ} (hq : quadrant.Sound)
    (h : Holds b quadrant.base quadrant.n quadrant.nqx quadrant.nqy
      fun r c => above (X r c) (bit + 1))
    (hcodes : Holds codes 0 (extent quadrant.nqy 1) (extent quadrant.nqx 1)
      (extent quadrant.nqy 1) M)
    (hbit : bit < 64) (hX : ∀ r < quadrant.nqx, ∀ c < quadrant.nqy, 0 ≤ X r c ∧ X r c < 2 ^ 63)
    (hM : ∀ r < quadrant.nqx, ∀ c < quadrant.nqy,
      (expandCode (M (r / 2) (c / 2))).at r c = digit (X r c) bit) :
    ∃ b', qtreeBitins codes quadrant b bit = .ok b' ∧
      Replaced b b' quadrant.base quadrant.n quadrant.nqx quadrant.nqy
        fun r c => above (X r c) bit := by
  have hbody : ∀ block ∈ blocks quadrant.nqx quadrant.nqy, ∀ q,
      (do
        let v ← load codes block.index
        if bit < 64 then .ok (insertCode bit v q) else abort .shiftOverflow : Outcome (Quad ℤ)) =
      .ok (insertCode bit (M (block.row / 2) (block.col / 2)) q) := by
    intro block hblock q
    obtain ⟨i, hi, j, hj, rfl⟩ := mem_blocks.mp hblock
    have hget := hcodes i hi j hj
    rw [Nat.zero_add] at hget
    simp only [blockAt, Nat.mul_div_cancel_left _ (show 0 < 2 by decide)]
    exact (Loops.bind_ok (load_of_getElem? hget)).trans (if_pos hbit)
  have hrun : ∃ b', qtreeBitins codes quadrant b bit = .ok b' ∧
      Replaced b b' quadrant.base quadrant.n quadrant.nqx quadrant.nqy
        (updatedGrid (fun block q => do
          let v ← load codes block.index
          if bit < 64 then .ok (insertCode bit v q) else abort .shiftOverflow) quadrant.nqx quadrant.nqy 0
          fun r c => above (X r c) (bit + 1)) :=
    updateBlocks_total hq.stride h fun block hblock => ⟨_, hbody block hblock _⟩
  obtain ⟨b', hok, hreplaced⟩ := hrun
  refine ⟨b', hok, hreplaced.congr ?_⟩
  intro r hr c hc
  obtain ⟨hnonneg, hlt⟩ := hX r hr c hc
  rw [updatedGrid, hbody _ (blockAt_mem hr hc)]
  dsimp only
  rw [insertCode_at, blockAt_quad_at _ _ hr hc]
  simp only [blockAt, Nat.mul_div_cancel_left _ (show 0 < 2 by decide)]
  rw [hM r hr c hc, or64_above hnonneg hlt]

/-- A bit string from which a quadrant's values are read, in planes below `planes`. -/
def Quadrant.SpellsValues (quadrant : Quadrant) (planes : ℕ) (X : ℕ → ℕ → ℤ)
    (string : List Bool) : Prop :=
  ∀ (bi : BitInput) (tail : List Bool) (a : List ℤ), bi.Left (string ++ tail) → 3 ≤ tail.length →
    bi.bitsToGo ≤ 10 →
    Holds a quadrant.base quadrant.n quadrant.nqx quadrant.nqy (fun r c => above (X r c) planes) →
    ∃ a' bi', qtreeDecode quadrant planes bi a = .ok (a', bi') ∧
      Replaced a a' quadrant.base quadrant.n quadrant.nqx quadrant.nqy X ∧
      bi'.Left tail ∧ bi'.data = bi.data ∧ bi'.bitsToGo ≤ 10

/-- The values of a grid are magnitudes of some bits. -/
def Below (nx ny planes : ℕ) (V : ℕ → ℕ → ℤ) : Prop :=
  ∀ r < nx, ∀ c < ny, 0 ≤ V r c ∧ V r c < 2 ^ planes

/-- The digits of a block's codes are those of the values received. -/
theorem expandCode_planeCodes {nqx nqy bit r c : ℕ} (V : ℕ → ℕ → ℤ) (hbit : bit ≤ 62) :
    (expandCode (planeCodes nqx nqy bit V (r / 2) (c / 2) % 16)).at r c =
      digit (receivedGrid nqx nqy V r c) bit := by
  rw [planeCodes, expandCode_onebitCode _ hbit, receivedGrid]
  simp only [Quad.at]
  split <;> split <;> rfl

/-- The values received have no more bits than those of their block. -/
theorem Quad.received_below {q : Quad ℤ} {planes : ℕ} (hplanes : planes ≤ 63)
    (h : q.Forall fun v => 0 ≤ v ∧ v < 2 ^ planes) :
    q.received.Forall fun v => 0 ≤ v ∧ v < 2 ^ planes := by
  obtain ⟨⟨h00, g00⟩, ⟨h01, g01⟩, ⟨h10, g10⟩, h11⟩ := h
  obtain ⟨v00, v01, v10, v11⟩ := q
  dsimp only at h00 g00 h01 g01 h10 g10 h11
  have hcases : planes ≤ 61 ∨ planes = 62 ∨ planes = 63 := by omega
  rcases hcases with hlow | rfl | rfl
  · have hpow : (2 : ℤ) ^ planes ≤ 2 ^ 61 := pow_le_pow_right₀ (by norm_num) hlow
    have hsame : (⟨v00, v01, v10, v11⟩ : Quad ℤ).received = ⟨v00, v01, v10, v11⟩ := by
      simp only [received, Quad.mk.injEq, and_true]
      constructor <;> omega
    rw [hsame]
    exact ⟨⟨h00, g00⟩, ⟨h01, g01⟩, ⟨h10, g10⟩, h11⟩
  · refine ⟨?_, ?_, ⟨h10, g10⟩, h11⟩ <;> simp only [received] <;> constructor <;> omega
  · refine ⟨?_, ?_, ⟨h10, g10⟩, h11⟩ <;> simp only [received] <;> constructor <;> omega

/-- The values received have no more bits than those of their grid. -/
theorem receivedGrid_below {nqx nqy planes : ℕ} {V : ℕ → ℕ → ℤ} (hplanes : planes ≤ 63)
    (h : Below nqx nqy planes V) : Below nqx nqy planes (receivedGrid nqx nqy V) := by
  intro r hr c hc
  have hquad : ((blockAt nqx nqy (r / 2) (c / 2)).quad V 0).Forall
      fun v => 0 ≤ v ∧ v < 2 ^ planes :=
    Block.quad_forall (inside_of_mem (blockAt_mem hr hc)) ⟨le_refl 0, by positivity⟩ h
  exact (Quad.received_below hplanes hquad).at r c

/-- The planes of a quadrant that are written spell the values received. -/
theorem BitOutput.qtreeEncode_ok {quadrant : Quadrant} {bo bo' : BitOutput} {a : List ℤ}
    {V : ℕ → ℕ → ℤ} {planes : ℕ} (hbo : bo.Sound) (hq : quadrant.Sound)
    (hlog : quadrant.log2n < 64) (hplanes : planes ≤ 63)
    (h : Holds a quadrant.base quadrant.n quadrant.nqx quadrant.nqy V)
    (hbelow : Below quadrant.nqx quadrant.nqy 63 V)
    (hok : BitOutput.qtreeEncode a quadrant planes bo = .ok bo') :
    ∃ string, bo.Appends bo' string ∧
      quadrant.SpellsValues planes (receivedGrid quadrant.nqx quadrant.nqy V) string := by
  have hreceived := receivedGrid_below (le_refl 63) hbelow
  induction planes generalizing bo with
  | zero =>
    have heq := Except.ok.inj hok
    subst heq
    refine ⟨[], Appends.refl hbo, ?_⟩
    intro bi tail a' hbi _ hheld hstart
    refine ⟨a', bi, rfl, ?_, hbi, rfl, hheld⟩
    apply (Replaced.refl hstart).congr
    intro r _ c _
    exact above_zero _
  | succ bit ih =>
    obtain ⟨bo1, hplane, hrest⟩ := Loops.ok_of_bind hok
    obtain ⟨front, happ1, hcodes⟩ := qtreePlane_ok hbo hq hlog h hplane
    obtain ⟨back, happ2, hvalues⟩ := ih happ1.sound (by omega) hrest
    refine ⟨front ++ back, happ1.trans happ2, ?_⟩
    intro bi tail a' hbi htail hheld hstart
    rw [List.append_assoc] at hbi
    obtain ⟨codes, bi1, hread, hgrid, hleft1, hdata1, hfew1⟩ := hcodes bi (back ++ tail) hbi
      (by rw [List.length_append]; omega) hheld
    obtain ⟨a1, hinsert, hreplaced⟩ := qtreeBitins_ok hq hstart hgrid (by omega) hreceived
      (fun r _ c _ => expandCode_planeCodes V (by omega))
    obtain ⟨a2, bi2, hdecode, hreplaced', hleft2, hdata2, hfew2⟩ :=
      hvalues bi1 tail a1 hleft1 htail hfew1 hreplaced.holds
    refine ⟨a2, bi2, ?_, hreplaced.trans hreplaced', hleft2, hdata2.trans hdata1, hfew2⟩
    rw [qtreeDecode, Loops.bind_ok hread]
    dsimp only
    rw [Loops.bind_ok hinsert]
    exact hdecode

/-- Where a quadrant's top planes are written, the first block's values repeat no others. -/
theorem BitOutput.qtreeEncode_first {quadrant : Quadrant} {bo bo' : BitOutput} {a : List ℤ}
    {V : ℕ → ℕ → ℤ} {planes bit : ℕ} (hq : quadrant.Sound)
    (h : Holds a quadrant.base quadrant.n quadrant.nqx quadrant.nqy V) (hbit : bit < planes)
    (hok : BitOutput.qtreeEncode a quadrant planes bo = .ok bo') :
    planeCodes quadrant.nqx quadrant.nqy bit V 0 0 < 16 := by
  induction planes generalizing bo with
  | zero => omega
  | succ top ih =>
    obtain ⟨bo1, hplane, hrest⟩ := Loops.ok_of_bind hok
    by_cases heq : bit = top
    · subst heq
      exact qtreePlane_first hq h hplane
    · exact ih (by omega) hrest

end FitsWell.Hcompress
