import FitsWell.Compression.HcompressBits
import FitsWell.Compression.HcompressPlane

/-!
# The quadtree of a bit plane

Each cell of a level tells which of its four cells below are not zero, so the cells that
are zero need no code: a reader that expands a level knows where the codes of the next
one go. The writer buffers the levels from the finest and writes the codes from the last
to the first, which is the order the reader goes down in.
-/

namespace FitsWell.Hcompress

open Bytes Bits

/-! ## Cells -/

/-- The cells of a grid, row by row. -/
def cellList (nx ny : ℕ) (M : ℕ → ℕ → ℕ) : List ℕ :=
  (List.range (nx * ny)).map fun i => M (i / ny) (i % ny)

@[simp] theorem cellList_length (nx ny : ℕ) (M : ℕ → ℕ → ℕ) :
    (cellList nx ny M).length = nx * ny := by
  simp [cellList]

/-- A place of a plane lies in the row and column its index gives. -/
theorem place_of_lt {nx ny i : ℕ} (hi : i < nx * ny) :
    i / ny < nx ∧ i % ny < ny ∧ 0 + ny * (i / ny) + i % ny = i := by
  have hpos : 0 < ny := by
    rcases Nat.eq_zero_or_pos ny with rfl | hpos
    · simp at hi
    · exact hpos
  refine ⟨(Nat.div_lt_iff_lt_mul hpos).mpr hi, Nat.mod_lt _ hpos, ?_⟩
  rw [Nat.zero_add, Nat.div_add_mod]

/-- A place in a row and column of a plane. -/
theorem place_lt {nx ny r c : ℕ} (hr : r < nx) (hc : c < ny) : ny * r + c < nx * ny := by
  calc ny * r + c < ny * r + ny := by omega
    _ = ny * (r + 1) := by ring
    _ ≤ ny * nx := Nat.mul_le_mul_left _ hr
    _ = nx * ny := Nat.mul_comm _ _

theorem cellList_getElem? {nx ny i : ℕ} (M : ℕ → ℕ → ℕ) (hi : i < nx * ny) :
    (cellList nx ny M)[i]? = some (M (i / ny) (i % ny)) := by
  simp [cellList, hi]

/-- A slice that holds a grid starts with its cells. -/
theorem Holds.take_eq {a : List ℕ} {nx ny : ℕ} {M : ℕ → ℕ → ℕ} (h : Holds a 0 ny nx ny M) :
    a.take (nx * ny) = cellList nx ny M := by
  refine List.ext_getElem? (fun i => ?_)
  by_cases hi : i < nx * ny
  · obtain ⟨hr, hc, hplace⟩ := place_of_lt hi
    have hget := h _ hr _ hc
    rw [hplace] at hget
    rw [List.getElem?_take_of_lt hi, hget, cellList_getElem? M hi]
  · rw [List.getElem?_eq_none (by simp; omega), List.getElem?_eq_none (by simp; omega)]

/-- A slice that agrees with the cells of a grid holds it. -/
theorem holds_of_cellList {a : List ℕ} {nx ny : ℕ} {M : ℕ → ℕ → ℕ}
    (h : ∀ i < nx * ny, a[i]? = (cellList nx ny M)[i]?) : Holds a 0 ny nx ny M := by
  intro r hr c hc
  have hlt := place_lt hr hc
  have hrow : (ny * r + c) / ny = r := by
    rw [Nat.mul_add_div (by omega), Nat.div_eq_of_lt hc, Nat.add_zero]
  have hcol : (ny * r + c) % ny = c := by
    rw [Nat.mul_add_mod, Nat.mod_eq_of_lt hc]
  rw [Nat.zero_add, h _ hlt, cellList_getElem? M hlt, hrow, hcol]

/-! ## The order of blocks -/

/-- Blocks are visited in the order of their indices. -/
theorem index_lt_of_split {nx ny : ℕ} {done todo : List Block} {block : Block}
    (h : blocks nx ny = done ++ block :: todo) :
    (∀ other ∈ done, other.index < block.index) ∧ ∀ other ∈ todo, block.index < other.index := by
  have hsorted : (blocks nx ny).Pairwise fun a b => a.index < b.index := by
    rw [← List.pairwise_map, map_index_blocks]
    exact List.pairwise_lt_range
  rw [h, List.pairwise_append, List.pairwise_cons] at hsorted
  exact ⟨fun other hother => hsorted.2.2 other hother block (by simp), hsorted.2.1.1⟩

/-- The index of a block is its place among the blocks. -/
theorem index_lt {nx ny : ℕ} {block : Block} (h : block ∈ blocks nx ny) :
    block.index < (nx + 1) / 2 * ((ny + 1) / 2) := by
  have hmem := List.mem_map_of_mem (f := Block.index) h
  rw [map_index_blocks] at hmem
  exact List.mem_range.mp hmem

/-- A loop that stores a value at each block's index fills a grid of cells. -/
theorem storeIndex_total {nx ny : ℕ} {b : List ℕ} {step : List ℕ → Block → Outcome (List ℕ)}
    {value : ℕ → ℕ → ℕ} {P : List Block → List ℕ → Prop}
    (hroom : (nx + 1) / 2 * ((ny + 1) / 2) ≤ b.length) (hstart : P [] b)
    (hstep : ∀ done block todo, blocks nx ny = done ++ block :: todo → ∀ s, s.length = b.length →
      P done s → step s block = store s block.index (value (block.row / 2) (block.col / 2)) ∧
        ∀ v, P (done ++ [block]) (s.set block.index v)) :
    ∃ b', (blocks nx ny).foldlM step b = .ok b' ∧ b'.length = b.length ∧
      Holds b' 0 ((ny + 1) / 2) ((nx + 1) / 2) ((ny + 1) / 2) value := by
  have hrun : ∃ b', (blocks nx ny).foldlM step b = .ok b' ∧ b'.length = b.length ∧
      P (blocks nx ny) b' ∧ ∀ block ∈ blocks nx ny,
        b'[block.index]? = some (value (block.row / 2) (block.col / 2)) := by
    apply Loops.foldlM_total (P := fun done (s : List ℕ) => s.length = b.length ∧ P done s ∧
      ∀ block ∈ done, s[block.index]? = some (value (block.row / 2) (block.col / 2)))
    · exact ⟨rfl, hstart, by simp⟩
    · rintro done block todo hitems s ⟨hlength, hP, hdone⟩
      have hmem : block ∈ blocks nx ny := by simp [hitems]
      have hlt := index_lt hmem
      obtain ⟨hok, hnext⟩ := hstep done block todo hitems s hlength hP
      refine ⟨s.set block.index (value (block.row / 2) (block.col / 2)), ?_, by simpa using hlength,
        hnext _, ?_⟩
      · rw [hok, store_of_lt _ (by omega)]
      · intro other hother
        rcases List.mem_append.mp hother with hold | hlast
        · have horder := (index_lt_of_split hitems).1 other hold
          rw [List.getElem?_set_ne (by omega), hdone other hold]
        · rw [List.mem_singleton.mp hlast, List.getElem?_set_self (by omega)]
  obtain ⟨b', hok, hlength, -, hall⟩ := hrun
  refine ⟨b', hok, hlength, ?_⟩
  intro i hi j hj
  have hget := hall _ (mem_blocks.mpr ⟨i, hi, j, hj, rfl⟩)
  simp only [blockAt, Nat.mul_div_cancel_left _ (show 0 < 2 by decide)] at hget
  rw [Nat.zero_add, hget]

/-! ## Codes of a level -/

/-- The codes of the blocks of a grid in a plane. -/
def planeCodes (nx ny bit : ℕ) (V : ℕ → ℕ → ℤ) (i j : ℕ) : ℕ :=
  onebitCode bit ((blockAt nx ny i j).quad V 0)

/-- The codes of the blocks of a grid of codes. -/
def reducedGrid (nx ny : ℕ) (M : ℕ → ℕ → ℕ) (i j : ℕ) : ℕ :=
  reduceCode ((blockAt nx ny i j).quad M 0)

/-- A block is the one of its row and column. -/
theorem blockAt_self {nx ny : ℕ} {block : Block} (h : block ∈ blocks nx ny) :
    blockAt nx ny (block.row / 2) (block.col / 2) = block :=
  blockAt_eq_of_corner h rfl rfl

/-- The codes of a plane of a quadrant. -/
theorem qtreeOnebit_ok {a : List ℤ} {b : List ℕ} {quadrant : Quadrant} {V : ℕ → ℕ → ℤ} (bit : ℕ)
    (hroom : quadrant.cells ≤ b.length)
    (h : Holds a quadrant.base quadrant.n quadrant.nqx quadrant.nqy V) :
    ∃ b', qtreeOnebit a quadrant b bit = .ok b' ∧ b'.length = b.length ∧
      Holds b' 0 ((quadrant.nqy + 1) / 2) ((quadrant.nqx + 1) / 2) ((quadrant.nqy + 1) / 2)
        (planeCodes quadrant.nqx quadrant.nqy bit V) := by
  apply storeIndex_total (P := fun _ _ => True) hroom trivial
  intro done block todo hitems s _ _
  have hmem : block ∈ blocks quadrant.nqx quadrant.nqy := by simp [hitems]
  have hload := Block.load_eq (0 : ℤ) (inside_of_mem hmem)
    (fun r c _ _ hr hc => h r hr c hc)
  refine ⟨?_, fun _ => trivial⟩
  rw [Loops.bind_ok hload, planeCodes, blockAt_self hmem]

/-- The place of a value is not before the index of its block. -/
theorem index_le_place (nx r : ℕ) {ny c : ℕ} (hc : c < ny) :
    (blockAt nx ny (r / 2) (c / 2)).index ≤ ny * r + c := by
  have hrow : (ny + 1) / 2 * (r / 2) ≤ ny * r := Nat.mul_le_mul (by omega) (by omega)
  simp only [blockAt]
  omega

/-- The reduction of a grid of codes, in place: a block's code is stored no later than its
last value is read. -/
theorem qtreeReduce_ok {a : List ℕ} {nx ny : ℕ} {M : ℕ → ℕ → ℕ}
    (hroom : nx * ny ≤ a.length) (h : Holds a 0 ny nx ny M) :
    ∃ a', qtreeReduce a nx ny = .ok a' ∧ a'.length = a.length ∧
      Holds a' 0 ((ny + 1) / 2) ((nx + 1) / 2) ((ny + 1) / 2) (reducedGrid nx ny M) := by
  have hcells : (nx + 1) / 2 * ((ny + 1) / 2) ≤ a.length := by
    rcases Nat.eq_zero_or_pos ny with rfl | hpos
    · simp
    · rcases Nat.eq_zero_or_pos nx with rfl | hpos'
      · simp
      · exact (Nat.mul_le_mul (by omega) (by omega)).trans hroom
  apply storeIndex_total (P := fun done s => ∀ r < nx, ∀ c < ny,
    blockAt nx ny (r / 2) (c / 2) ∉ done → s[0 + ny * r + c]? = some (M r c)) hcells
    (fun r hr c hc _ => h r hr c hc)
  intro done block todo hitems s hlength hkeep
  have hmem : block ∈ blocks nx ny := by simp [hitems]
  have hinside := inside_of_mem hmem
  have hrow := hinside.row_even
  have hcol := hinside.col_even
  obtain ⟨hbefore, hafter⟩ := index_lt_of_split hitems
  constructor
  · have hload : block.load s 0 ny 0 = .ok (block.quad M 0) := by
      apply Block.load_eq (0 : ℕ) hinside
      intro r c hr hc hrx hcy
      apply hkeep r hrx c hcy
      have hat : blockAt nx ny (r / 2) (c / 2) = block :=
        blockAt_eq_of_corner hmem (by omega) (by omega)
      rw [hat]
      exact fun hdone => absurd (hbefore block hdone) (lt_irrefl _)
    rw [Loops.bind_ok hload, reducedGrid, blockAt_self hmem]
  · intro v r hr c hc hnot
    rw [List.mem_append, List.mem_singleton, not_or] at hnot
    have hin := blockAt_mem hr hc
    rw [hitems, List.mem_append, List.mem_cons] at hin
    have htodo : blockAt nx ny (r / 2) (c / 2) ∈ todo := by
      rcases hin with hdone | heq | htodo
      · exact absurd hdone hnot.1
      · exact absurd heq hnot.2
      · exact htodo
    have horder := hafter _ htodo
    have hplace := index_le_place nx r hc
    rw [List.getElem?_set_ne (by omega), hkeep r hr c hc hnot.1]

/-! ## Expanding a level -/

/-- Whether a code is not zero. -/
def marker (v : ℕ) : ℕ := (v != 0).toNat

/-- The bits of a reduced code mark the codes it stands for. -/
theorem expandCode_reduceCode (q : Quad ℕ) :
    expandCode (reduceCode q) = ⟨marker q.s00, marker q.s01, marker q.s10, marker q.s11⟩ := by
  have hbits : ∀ b00 b01 b10 b11 : Bool,
      expandCode (b11.toNat ||| b10.toNat <<< 1 ||| b01.toNat <<< 2 ||| b00.toNat <<< 3) =
        ⟨b00.toNat, b01.toNat, b10.toNat, b11.toNat⟩ := by decide
  exact hbits _ _ _ _

theorem reduceCode_lt (q : Quad ℕ) : reduceCode q < 16 := by
  have hbits : ∀ b00 b01 b10 b11 : Bool,
      b11.toNat ||| b10.toNat <<< 1 ||| b01.toNat <<< 2 ||| b00.toNat <<< 3 < 16 := by decide
  exact hbits _ _ _ _

/-- A code is not zero where one below it is not. -/
theorem reducedGrid_ne_zero {nx ny r c : ℕ} {M : ℕ → ℕ → ℕ} (hr : r < nx) (hc : c < ny)
    (h : M r c ≠ 0) : reducedGrid nx ny M (r / 2) (c / 2) ≠ 0 := by
  intro hzero
  have hexpand := expandCode_reduceCode ((blockAt nx ny (r / 2) (c / 2)).quad M 0)
  rw [reducedGrid] at hzero
  have hvalue := blockAt_quad_at M 0 hr hc
  generalize (blockAt nx ny (r / 2) (c / 2)).quad M 0 = q at hzero hexpand hvalue
  rw [hzero] at hexpand
  simp only [expandCode, Quad.mk.injEq, marker] at hexpand
  obtain ⟨h00, h01, h10, h11⟩ := hexpand
  have hnone : ∀ v : ℕ, 0 = (v != 0).toNat → v = 0 := by
    intro v hv
    by_contra hne
    rw [bne_iff_ne.mpr hne] at hv
    exact absurd hv (by decide)
  have h00 := hnone _ h00
  have h01 := hnone _ h01
  have h10 := hnone _ h10
  have h11 := hnone _ h11
  rw [← hvalue, Quad.at] at h
  split at h <;> split at h <;> omega

/-! ## The codes of cells -/

/-- The codes of the cells that are not zero, the last cell's first. -/
def cellBits : List ℕ → List Bool
  | [] => []
  | cell :: cells => cellBits cells ++ if cell = 0 then [] else huffmanBits cell

theorem cellBits_concat (cells : List ℕ) (cell : ℕ) :
    cellBits (cells ++ [cell]) = (if cell = 0 then [] else huffmanBits cell) ++ cellBits cells := by
  induction cells with
  | nil => simp [cellBits]
  | cons first cells ih => rw [List.cons_append, cellBits, ih, cellBits, List.append_assoc]

/-- Cells that are all zero have no codes. -/
theorem cellBits_zero {cells : List ℕ} (h : ∀ cell ∈ cells, cell = 0) : cellBits cells = [] := by
  induction cells with
  | nil => rfl
  | cons cell cells ih =>
    rw [cellBits, if_pos (h cell (by simp)), ih fun c hc => h c (by simp [hc])]
    rfl

/-- The bits in a code buffer, in the order they are written in. -/
def CodeBuffer.bits (s : CodeBuffer) : List Bool :=
  natBits s.bitsToGo3 s.bitbuffer ++ byteBits (s.buffer.take s.b).reverse

/-- A code buffer between codes: fewer than eight bits wait above the bytes. -/
structure CodeBuffer.Sound (s : CodeBuffer) : Prop where
  few : s.bitsToGo3 < 8
  clear : s.bitbuffer < 2 ^ s.bitsToGo3
  room : s.b ≤ s.buffer.length

/-- Bits put above others. -/
theorem natBits_or_shiftLeft {low value go n : ℕ} (hlow : low < 2 ^ go) :
    natBits (n + go) (low ||| value <<< go) = natBits n value ++ natBits go low := by
  have hsum : low ||| value <<< go = value * 2 ^ go + low := by
    rw [Nat.lor_comm, ← Nat.shiftLeft_add_eq_or_of_lt hlow, Nat.shiftLeft_eq]
  rw [hsum, natBits_append, Nat.add_comm (value * 2 ^ go), Nat.add_mul_div_right _ _
    (Nat.two_pow_pos go), Nat.div_eq_of_lt hlow, Nat.zero_add, ← natBits_mod go,
    Nat.add_mul_mod_self_right, natBits_mod]

/-- Copying cells to a buffer that does not fill puts their codes before its bits. -/
theorem CodeBuffer.bufcopy_ok {bmax : ℕ} {s s' : CodeBuffer} {cells : List ℕ} (hs : s.Sound)
    (hok : s.bufcopy bmax cells = .ok (s', false)) :
    s'.Sound ∧ s'.bits = cellBits cells ++ s.bits ∧ ∀ cell ∈ cells, cell < 16 := by
  induction cells generalizing s with
  | nil =>
    have heq := (Prod.mk.inj (Except.ok.inj hok)).1
    subst heq
    exact ⟨hs, rfl, by simp⟩
  | cons cell cells ih =>
    obtain ⟨buffer, b, bitbuffer, go⟩ := s
    obtain ⟨hfew, hclear, hroom⟩ := hs
    dsimp only at hfew hclear hroom
    rw [bufcopy] at hok
    by_cases hzero : cell = 0
    · rw [if_pos hzero] at hok
      obtain ⟨hsound, hbits, hall⟩ := ih ⟨hfew, hclear, hroom⟩ hok
      refine ⟨hsound, ?_, ?_⟩
      · rw [hbits, cellBits, if_pos hzero, List.append_nil]
      · intro c hc
        rcases List.mem_cons.mp hc with rfl | hc
        · omega
        · exact hall c hc
    rw [if_neg hzero] at hok
    obtain ⟨value, hvalue, hok⟩ := Loops.ok_of_bind hok
    obtain ⟨n, hn, hok⟩ := Loops.ok_of_bind hok
    have hvalue' := getElem?_of_load hvalue
    have hn' := getElem?_of_load hn
    have hcell : cell < 16 := (List.getElem?_eq_some_iff.mp hvalue').1
    have hcode : huffmanBits cell = natBits n value := by
      rw [huffmanBits, List.getD_eq_getElem?_getD, List.getD_eq_getElem?_getD, hn', hvalue']
      rfl
    have hbounds : 3 ≤ n ∧ n ≤ 6 ∧ value < 2 ^ n := by
      have hall : ∀ v < 16, 3 ≤ ncode.getD v 0 ∧ ncode.getD v 0 ≤ 6 ∧
          code.getD v 0 < 2 ^ ncode.getD v 0 := by decide
      have h := hall cell hcell
      rwa [List.getD_eq_getElem?_getD, List.getD_eq_getElem?_getD, hn', hvalue'] at h
    obtain ⟨hlow, hhigh, hfit⟩ := hbounds
    have hput : natBits (n + go) (bitbuffer ||| value <<< go) =
        huffmanBits cell ++ natBits go bitbuffer := by
      rw [hcode, natBits_or_shiftLeft hclear]
    have hsum : bitbuffer ||| value <<< go < 2 ^ (n + go) := by
      rw [Nat.lor_comm, ← Nat.shiftLeft_add_eq_or_of_lt hclear, Nat.shiftLeft_eq]
      calc value * 2 ^ go + bitbuffer < value * 2 ^ go + 2 ^ go := by omega
        _ = (value + 1) * 2 ^ go := by ring
        _ ≤ 2 ^ n * 2 ^ go := Nat.mul_le_mul_right _ hfit
        _ = 2 ^ (n + go) := (pow_add 2 n go).symm
    have hmem : (∀ c ∈ cells, c < 16) → ∀ c ∈ cell :: cells, c < 16 := by
      intro hall c hc
      rcases List.mem_cons.mp hc with rfl | hc
      · exact hcell
      · exact hall c hc
    dsimp only at hok
    by_cases hbyte : 8 ≤ go + n
    · rw [if_pos hbyte] at hok
      obtain ⟨buffer', hstore, hok⟩ := Loops.ok_of_bind hok
      have hlt : b < buffer.length := by
        by_contra hge
        rw [store, if_neg hge] at hstore
        cases hstore
      rw [store_of_lt _ hlt] at hstore
      have hbuffer := Except.ok.inj hstore
      subst hbuffer
      by_cases hfull : bmax ≤ b + 1
      · rw [if_pos hfull] at hok
        exact absurd (Prod.mk.inj (Except.ok.inj hok)).2 (by decide)
      rw [if_neg hfull] at hok
      have hsound : CodeBuffer.Sound ⟨buffer.set b (UInt8.ofNat (bitbuffer ||| value <<< go)), b + 1,
          (bitbuffer ||| value <<< go) >>> 8, go + n - 8⟩ := by
        refine ⟨by dsimp only; omega, ?_, by dsimp only; rw [List.length_set]; omega⟩
        dsimp only
        rw [Nat.shiftRight_eq_div_pow, Nat.div_lt_iff_lt_mul (Nat.two_pow_pos 8), ← pow_add,
          show go + n - 8 + 8 = n + go by omega]
        exact hsum
      obtain ⟨hsound', hbits, hall⟩ := ih hsound hok
      refine ⟨hsound', ?_, hmem hall⟩
      have htake : ((buffer.set b (UInt8.ofNat (bitbuffer ||| value <<< go))).take (b + 1)).reverse =
          UInt8.ofNat (bitbuffer ||| value <<< go) :: (buffer.take b).reverse := by
        rw [List.take_add_one, List.getElem?_set_self hlt, List.take_set_of_le (Nat.le_refl b)]
        simp
      have hsplit : natBits (n + go) (bitbuffer ||| value <<< go) =
          natBits (go + n - 8) ((bitbuffer ||| value <<< go) >>> 8) ++
            natBits 8 (UInt8.ofNat (bitbuffer ||| value <<< go)).toNat := by
        rw [show n + go = go + n - 8 + 8 by omega, natBits_append, Nat.shiftRight_eq_div_pow,
          UInt8.toNat_ofNat', natBits_mod]
      rw [hbits, cellBits, if_neg hzero]
      simp only [CodeBuffer.bits, htake, byteBits_cons]
      rw [← List.append_assoc (natBits (go + n - 8) _), ← hsplit, hput]
      simp [List.append_assoc]
    · rw [if_neg hbyte] at hok
      have hsound : CodeBuffer.Sound ⟨buffer, b, bitbuffer ||| value <<< go, go + n⟩ := by
        refine ⟨by dsimp only; omega, ?_, hroom⟩
        dsimp only
        rw [Nat.add_comm]
        exact hsum
      obtain ⟨hsound', hbits, hall⟩ := ih hsound hok
      refine ⟨hsound', ?_, hmem hall⟩
      rw [hbits, cellBits, if_neg hzero]
      simp only [CodeBuffer.bits]
      rw [Nat.add_comm go n, hput]
      simp [List.append_assoc]

/-- The first cell of a level that is copied is a code. -/
theorem CodeBuffer.bufcopy_first {bmax cell : ℕ} {s : CodeBuffer} {cells : List ℕ}
    {s' : CodeBuffer × Bool} (hok : s.bufcopy bmax (cell :: cells) = .ok s') : cell < 16 := by
  rw [bufcopy] at hok
  split at hok
  · omega
  · obtain ⟨value, hvalue, -⟩ := Loops.ok_of_bind hok
    exact (List.getElem?_eq_some_iff.mp (getElem?_of_load hvalue)).1

/-! ## Levels of a tree -/

/-- The codes of the level `k` of a quadrant's tree. -/
def treeGrid (nqx nqy : ℕ) (M : ℕ → ℕ → ℕ) : ℕ → ℕ → ℕ → ℕ
  | 0, i, j => M i j
  | k + 1, i, j => reducedGrid (extent nqx (k + 1)) (extent nqy (k + 1)) (treeGrid nqx nqy M k) i j

/-- The codes of the level `k`, the last cell's first. -/
def levelBits (nqx nqy : ℕ) (M : ℕ → ℕ → ℕ) (k : ℕ) : List Bool :=
  cellBits (cellList (extent nqx (k + 1)) (extent nqy (k + 1)) (treeGrid nqx nqy M k))

/-- The codes of the levels below `k`, the highest level's first. -/
def lowerBits (nqx nqy : ℕ) (M : ℕ → ℕ → ℕ) : ℕ → List Bool
  | 0 => []
  | k + 1 => levelBits nqx nqy M k ++ lowerBits nqx nqy M k

section Levels

variable {nqx nqy : ℕ} {M : ℕ → ℕ → ℕ}

/-- A level has no more cells than the one below it. -/
theorem extent_mul_le (nqx nqy k : ℕ) :
    extent nqx (k + 1) * extent nqy (k + 1) ≤ extent nqx k * extent nqy k :=
  Nat.mul_le_mul (extent_le nqx k) (extent_le nqy k)

/-- The levels of a tree that fit their buffer put their codes before its bits, and the
codes of the plane are symbols. -/
theorem CodeBuffer.levels_ok {bmax count k : ℕ} {s s' : CodeBuffer} {scratch : List ℕ}
    (hs : s.Sound) (hbits : s.bits = lowerBits nqx nqy M k)
    (hroom : extent nqx (k + 1) * extent nqy (k + 1) ≤ scratch.length)
    (h : Holds scratch 0 (extent nqy (k + 1)) (extent nqx (k + 1)) (extent nqy (k + 1))
      (treeGrid nqx nqy M k))
    (hok : CodeBuffer.levels bmax count s scratch (extent nqx (k + 1)) (extent nqy (k + 1)) =
      .ok (s', false)) :
    s'.Sound ∧ s'.bits = lowerBits nqx nqy M (k + count + 1) ∧
      ∀ i < extent nqx (k + 1), ∀ j < extent nqy (k + 1), treeGrid nqx nqy M k i j < 16 := by
  induction count generalizing k s scratch with
  | zero =>
    rw [levels] at hok
    obtain ⟨⟨s1, overflow⟩, hcopy, hok⟩ := Loops.ok_of_bind hok
    dsimp only at hok
    cases overflow with
    | true => exact absurd (Prod.mk.inj (Except.ok.inj hok)).2 (by decide)
    | false =>
      have heq := (Prod.mk.inj (Except.ok.inj hok)).1
      subst heq
      rw [h.take_eq] at hcopy
      obtain ⟨hsound, hafter, hall⟩ := CodeBuffer.bufcopy_ok hs hcopy
      refine ⟨hsound, ?_, ?_⟩
      · rw [hafter, hbits]
        rfl
      · intro i hi j hj
        apply hall
        have hget := (h i hi j hj).symm
        rw [Nat.zero_add, ← List.getElem?_take_of_lt (place_lt hi hj), h.take_eq] at hget
        exact List.mem_of_getElem? hget.symm
  | succ count ih =>
    rw [levels] at hok
    obtain ⟨⟨s1, overflow⟩, hcopy, hok⟩ := Loops.ok_of_bind hok
    dsimp only at hok
    cases overflow with
    | true => exact absurd (Prod.mk.inj (Except.ok.inj hok)).2 (by decide)
    | false =>
      rw [h.take_eq] at hcopy
      obtain ⟨hsound, hafter, hall⟩ := CodeBuffer.bufcopy_ok hs hcopy
      obtain ⟨scratch', hreduce, hlength, hnext⟩ := qtreeReduce_ok hroom h
      obtain ⟨scratch1, hscratch, hok⟩ := Loops.ok_of_bind hok
      rw [hreduce] at hscratch
      have heq := Except.ok.inj hscratch
      subst heq
      have hbits' : s1.bits = lowerBits nqx nqy M (k + 1) := by
        rw [hafter, hbits]
        rfl
      have hroom' := (extent_mul_le nqx nqy (k + 1)).trans hroom
      rw [← hlength] at hroom'
      obtain ⟨hend, hendbits, -⟩ := ih hsound hbits' hroom' hnext hok
      refine ⟨hend, ?_, ?_⟩
      · rw [hendbits, show k + 1 + count + 1 = k + (count + 1) + 1 by omega]
      · intro i hi j hj
        apply hall
        have hget := (h i hi j hj).symm
        rw [Nat.zero_add, ← List.getElem?_take_of_lt (place_lt hi hj), h.take_eq] at hget
        exact List.mem_of_getElem? hget.symm

/-- A level of zeros has no codes. -/
theorem levelBits_eq_nil {k : ℕ}
    (h : ∀ i < extent nqx (k + 1), ∀ j < extent nqy (k + 1), treeGrid nqx nqy M k i j = 0) :
    levelBits nqx nqy M k = [] := by
  apply cellBits_zero
  intro cell hcell
  obtain ⟨i, hi, rfl⟩ := List.mem_map.mp hcell
  obtain ⟨hr, hc, -⟩ := place_of_lt (List.mem_range.mp hi)
  exact h _ hr _ hc

/-- A tree whose level is zero has no codes from there down. -/
theorem lowerBits_eq_nil {k : ℕ}
    (h : ∀ i < extent nqx (k + 1), ∀ j < extent nqy (k + 1), treeGrid nqx nqy M k i j = 0) :
    lowerBits nqx nqy M (k + 1) = [] := by
  rw [lowerBits, levelBits_eq_nil h, List.nil_append]
  induction k with
  | zero => rfl
  | succ k ih =>
    have hbelow : ∀ i < extent nqx (k + 1), ∀ j < extent nqy (k + 1),
        treeGrid nqx nqy M k i j = 0 := by
      intro i hi j hj
      by_contra hne
      have hup := reducedGrid_ne_zero hi hj hne
      exact hup (h (i / 2) (by rw [extent]; omega) (j / 2) (by rw [extent]; omega))
    rw [lowerBits, levelBits_eq_nil hbelow, List.nil_append]
    exact ih hbelow

end Levels

/-! ## Writing a tree -/

/-- The first bytes of a buffer, written from the last. -/
theorem outputReversed_ok {bo : BitOutput} (hbo : bo.Sound) {bytes : List UInt8} {n : ℕ}
    (hn : n ≤ bytes.length) :
    ∃ bo', (List.range n).foldlM (fun (bo : BitOutput) k => do
        let byte ← load bytes (n - 1 - k)
        bo.outputNbits byte.toNat 8) bo = .ok bo' ∧
      bo.Appends bo' (byteBits (bytes.take n).reverse) := by
  have hlength : (bytes.take n).reverse.length = n := by
    rw [List.length_reverse, List.length_take]
    omega
  have hrun : ∃ bo', (List.range n).foldlM (fun (bo : BitOutput) k => do
        let byte ← load bytes (n - 1 - k)
        bo.outputNbits byte.toNat 8) bo = .ok bo' ∧
      bo.Appends bo' (byteBits ((bytes.take n).reverse.take n)) := by
    apply Loops.range_total (P := fun k (bo' : BitOutput) =>
      bo.Appends bo' (byteBits ((bytes.take n).reverse.take k)))
    · exact BitOutput.Appends.refl hbo
    · intro k hk s hs
      have hget : bytes[n - 1 - k]? = some (bytes[n - 1 - k]) :=
        List.getElem?_eq_getElem _
      obtain ⟨s', hok, happ⟩ := BitOutput.outputNbits_ok hs.sound
        (bytes[n - 1 - k]).toNat (n := 8) (by decide)
      refine ⟨s', by rw [Loops.bind_ok (load_of_getElem? hget)]; exact hok, ?_⟩
      have htake : (bytes.take n).reverse.take (k + 1) =
          (bytes.take n).reverse.take k ++ [bytes[n - 1 - k]] := by
        rw [List.take_add_one, List.getElem?_reverse (by rw [List.length_take]; omega),
          List.length_take, Nat.min_eq_left hn, List.getElem?_take_of_lt (by omega), hget]
        rfl
      rw [htake, byteBits_append, byteBits_cons, byteBits_nil, List.append_nil]
      exact hs.trans happ
  obtain ⟨bo', hok, happ⟩ := hrun
  rw [List.take_of_length_le (by omega)] at happ
  exact ⟨bo', hok, happ⟩

/-- Writing the codes of a plane appends them behind their format; a plane without codes
has that of zero. -/
theorem BitOutput.writeCodes_ok {bo : BitOutput} {s : CodeBuffer} (hbo : bo.Sound)
    (hs : s.Sound) :
    ∃ bo', bo.writeCodes s = .ok bo' ∧
      bo.Appends bo' (natBits 4 15 ++ if s.bits = [] then huffmanBits 0 else s.bits) := by
  obtain ⟨hfew, hclear, hroom⟩ := hs
  have hformat := outputNybble_appends hbo 15
  have hleftover : s.bitbuffer &&& (1 <<< s.bitsToGo3 - 1) = s.bitbuffer := by
    rw [Nat.one_shiftLeft, Nat.and_two_pow_sub_one_eq_mod, Nat.mod_eq_of_lt hclear]
  obtain ⟨bo1, hok1, happ1⟩ := outputNbits_ok hformat.sound s.bitbuffer
    (show s.bitsToGo3 ≤ 8 by omega)
  unfold writeCodes
  rw [hleftover]
  dsimp only
  by_cases hnone : s.b = 0
  · rw [if_pos hnone]
    by_cases hbits : 0 < s.bitsToGo3
    · rw [if_pos hbits]
      refine ⟨bo1, hok1, ?_⟩
      have hstring : s.bits = natBits s.bitsToGo3 s.bitbuffer := by
        rw [CodeBuffer.bits, hnone]
        simp
      have hsome : s.bits ≠ [] := by
        intro hempty
        have hlength := congrArg List.length hempty
        rw [hstring, natBits_length, List.length_nil] at hlength
        omega
      rw [if_neg hsome, hstring]
      exact hformat.trans happ1
    · rw [if_neg hbits]
      have hempty : s.bits = [] := by
        rw [CodeBuffer.bits, hnone, show s.bitsToGo3 = 0 by omega]
        rfl
      obtain ⟨bo2, hok2, happ2⟩ := outputNbits_ok hformat.sound 0x3e (show 6 ≤ 8 by decide)
      refine ⟨bo2, hok2, ?_⟩
      rw [if_pos hempty]
      exact hformat.trans happ2
  · rw [if_neg hnone]
    have hsome : s.bits ≠ [] := by
      intro hempty
      have hlength := congrArg List.length hempty
      simp only [CodeBuffer.bits, List.length_append, natBits_length, byteBits_length,
        List.length_reverse, List.length_take, List.length_nil] at hlength
      omega
    rw [if_neg hsome]
    by_cases hbits : 0 < s.bitsToGo3
    · rw [if_pos hbits]
      obtain ⟨bo2, hok2, happ2⟩ := outputReversed_ok happ1.sound hroom
      refine ⟨bo2, ?_, ?_⟩
      · rw [Loops.bind_ok hok1]
        exact hok2
      · rw [CodeBuffer.bits]
        exact hformat.trans (happ1.trans happ2)
    · rw [if_neg hbits]
      obtain ⟨bo2, hok2, happ2⟩ := outputReversed_ok hformat.sound hroom
      refine ⟨bo2, hok2, ?_⟩
      rw [CodeBuffer.bits, show s.bitsToGo3 = 0 by omega]
      exact hformat.trans happ2

/-! ## Reading a tree -/

/-- The first cell of the block whose code is at `k`. -/
def spreadPlace (ny k : ℕ) : ℕ := 2 * (ny * (k / ((ny + 1) / 2)) + k % ((ny + 1) / 2))

/-- The first cell of a block lies in its row and column. -/
theorem spreadPlace_eq {ny i j : ℕ} (hj : j < (ny + 1) / 2) :
    spreadPlace ny ((ny + 1) / 2 * i + j) = ny * (2 * i) + 2 * j := by
  rw [spreadPlace, Nat.mul_add_div (by omega), Nat.div_eq_of_lt hj, Nat.mul_add_mod,
    Nat.mod_eq_of_lt hj]
  ring

/-- A code moves up, inside the grid and to a place of its own. -/
theorem spreadPlace_bounds {nx ny k : ℕ} (hk : k < (nx + 1) / 2 * ((ny + 1) / 2)) :
    k ≤ spreadPlace ny k ∧ spreadPlace ny k < nx * ny ∧
      ∀ k' < (nx + 1) / 2 * ((ny + 1) / 2), spreadPlace ny k = spreadPlace ny k' → k = k' := by
  obtain ⟨hi, hj, hplace⟩ := place_of_lt hk
  have heq := spreadPlace_eq (i := k / ((ny + 1) / 2)) hj
  rw [Nat.zero_add] at hplace
  rw [hplace] at heq
  have hlt : ny * (2 * (k / ((ny + 1) / 2))) + 2 * (k % ((ny + 1) / 2)) < nx * ny :=
    place_lt (by omega) (by omega)
  have hle : (ny + 1) / 2 * (k / ((ny + 1) / 2)) ≤ ny * (2 * (k / ((ny + 1) / 2))) :=
    Nat.mul_le_mul (by omega) (by omega)
  refine ⟨by omega, by omega, ?_⟩
  intro k' hk' hsame
  obtain ⟨hi', hj', hplace'⟩ := place_of_lt hk'
  have heq' := spreadPlace_eq (i := k' / ((ny + 1) / 2)) hj'
  rw [Nat.zero_add] at hplace'
  rw [hplace'] at heq'
  rw [heq, heq'] at hsame
  obtain ⟨hrow, hcol⟩ := place_inj (Nat.le_refl ny) (by omega) (by omega) hsame
  rw [← hplace, ← hplace', show k / ((ny + 1) / 2) = k' / ((ny + 1) / 2) by omega,
    show k % ((ny + 1) / 2) = k' % ((ny + 1) / 2) by omega]

/-- The codes of a level expanded to the markers of the one below. -/
theorem qtreeCopy_ok {a : List ℕ} {nx ny : ℕ} {R : ℕ → ℕ → ℕ} (hnx : 0 < nx) (hny : 0 < ny)
    (hroom : nx * ny ≤ a.length)
    (h : Holds a 0 ((ny + 1) / 2) ((nx + 1) / 2) ((ny + 1) / 2) R) :
    ∃ a', qtreeCopy a nx ny = .ok a' ∧ a'.length = a.length ∧
      Holds a' 0 ny nx ny fun r c => (expandCode (R (r / 2) (c / 2))).at r c := by
  set K := (nx + 1) / 2 * ((ny + 1) / 2) with hK
  have hspread : ∃ s : List ℕ, (List.range K).foldlM (fun a t => do
        let k := K - 1 - t
        let v ← load a k
        store a (spreadPlace ny k) v) a = .ok s ∧
      s.length = a.length ∧ (∀ i < K - K, s[i]? = a[i]?) ∧
      ∀ k < K, K - K ≤ k → s[spreadPlace ny k]? = a[k]? := by
    apply Loops.range_total (P := fun t (s : List ℕ) => s.length = a.length ∧
      (∀ i < K - t, s[i]? = a[i]?) ∧ ∀ k < K, K - t ≤ k → s[spreadPlace ny k]? = a[k]?)
    · exact ⟨rfl, fun i _ => rfl, fun k hk hle => absurd hk (by omega)⟩
    · rintro t ht s ⟨hlength, hlow, hmoved⟩
      have hk : K - 1 - t < (nx + 1) / 2 * ((ny + 1) / 2) := by omega
      obtain ⟨hup, hin, hinj⟩ := spreadPlace_bounds hk
      have hlt : K - 1 - t < a.length := by omega
      have hget : s[K - 1 - t]? = some (a[K - 1 - t]) := by
        rw [hlow _ (by omega), List.getElem?_eq_getElem hlt]
      refine ⟨s.set (spreadPlace ny (K - 1 - t)) (a[K - 1 - t]), ?_, by simpa using hlength,
        ?_, ?_⟩
      · dsimp only
        rw [Loops.bind_ok (load_of_getElem? hget), store_of_lt _ (by omega)]
      · intro i hi
        rw [List.getElem?_set_ne (by omega), hlow i (by omega)]
      · intro k hkK hle
        by_cases heq : k = K - 1 - t
        · subst heq
          rw [List.getElem?_set_self (by omega), List.getElem?_eq_getElem hlt]
        · have hne : spreadPlace ny (K - 1 - t) ≠ spreadPlace ny k :=
            fun hsame => heq (hinj k hkK hsame).symm
          rw [List.getElem?_set_ne hne, hmoved k hkK (by omega)]
  obtain ⟨s, hok, hlength, -, hmoved⟩ := hspread
  have hgrid : Holds s 0 ny nx ny fun r c => s.getD (ny * r + c) 0 := by
    intro r hr c hc
    have hlt := place_lt hr hc
    dsimp only
    rw [Nat.zero_add, List.getD_eq_getElem?_getD, List.getElem?_eq_getElem (by omega)]
    rfl
  have hexpand : ∃ a', updateBlocks (fun _ q => .ok (expandCode q.s00)) 0 ny nx ny 0 s =
      .ok a' ∧ Replaced s a' 0 ny nx ny
        (updatedGrid (fun _ q => .ok (expandCode q.s00)) nx ny 0 fun r c => s.getD (ny * r + c) 0) :=
    updateBlocks_total (Nat.le_refl ny) hgrid fun block _ => ⟨_, rfl⟩
  obtain ⟨a', hupdate, hreplaced⟩ := hexpand
  refine ⟨a', ?_, hreplaced.length_eq.trans hlength, ?_⟩
  · have hrows : subUsize ((nx + 1) / 2) 1 = .ok ((nx + 1) / 2 - 1) := subUsize_of_le (by omega)
    have hlast : (ny + 1) / 2 * ((nx + 1) / 2 - 1) + (ny + 1) / 2 = K := by
      rw [← Nat.mul_succ, Nat.succ_eq_add_one, Nat.sub_add_cancel (by omega), hK, Nat.mul_comm]
    have hpos : 0 < K := Nat.mul_pos (by omega) (by omega)
    rw [qtreeCopy]
    dsimp only
    rw [Loops.bind_ok hrows, hlast, Loops.bind_ok (subUsize_of_le (by omega : 1 ≤ K))]
    exact (Loops.bind_ok hok).trans hupdate
  · apply hreplaced.holds.congr
    intro r hr c hc
    have hi : r / 2 < (nx + 1) / 2 := by omega
    have hj : c / 2 < (ny + 1) / 2 := by omega
    have hget := h _ hi _ hj
    rw [Nat.zero_add, ← hmoved _ (place_lt hi hj) (by omega), spreadPlace_eq hj] at hget
    simp only [updatedGrid, blockAt, Block.quad]
    rw [List.getD_eq_getElem?_getD, hget]
    rfl

/-- Reading the codes of the cells that are marked. -/
theorem readCells_ok {cells a : List ℕ} {n : ℕ} {bi : BitInput} {tail : List Bool}
    (hcells : ∀ v ∈ cells, v < 16) (hn : n ≤ cells.length) (hroom : cells.length ≤ a.length)
    (hmarked : ∀ i < n, ∀ v, cells[i]? = some v → a[i]? = some (marker v))
    (hbi : bi.Left (cellBits (cells.take n) ++ tail)) (htail : 3 ≤ tail.length)
    (hheld : bi.bitsToGo ≤ 10) :
    ∃ a' bi', readCells n bi a = .ok (a', bi') ∧ a'.length = a.length ∧
      (∀ i < n, a'[i]? = cells[i]?) ∧ (∀ i, n ≤ i → a'[i]? = a[i]?) ∧ bi'.Left tail ∧
      bi'.data = bi.data ∧ bi'.bitsToGo ≤ 10 := by
  induction n generalizing a bi with
  | zero =>
    exact ⟨a, bi, rfl, rfl, fun i hi => absurd hi (by omega), fun i _ => rfl, hbi, rfl, hheld⟩
  | succ n ih =>
    have hget : cells[n]? = some (cells[n]) := List.getElem?_eq_getElem _
    have hcell := hcells _ (List.getElem_mem (show n < cells.length by omega))
    have hmark := hmarked n (by omega) _ hget
    generalize cells[n] = cell at hget hcell hmark
    rw [List.take_add_one, hget, Option.toList_some, cellBits_concat] at hbi
    rw [readCells, Loops.bind_ok (load_of_getElem? hmark)]
    by_cases hzero : cell = 0
    · have hnone : ¬marker cell ≠ 0 := by
        rw [hzero]
        decide
      rw [if_neg hnone]
      rw [if_pos hzero, List.nil_append] at hbi
      obtain ⟨a', bi', hok, hlength, hlow, hhigh, hleft, hdata, hfew⟩ := ih (by omega) hroom
        (fun i hi v hv => hmarked i (by omega) v hv) hbi hheld
      refine ⟨a', bi', hok, hlength, ?_, fun i hi => hhigh i (by omega), hleft, hdata, hfew⟩
      intro i hi
      by_cases hlast : i = n
      · subst hlast
        rw [hhigh i (Nat.le_refl i), hget, hmark, hzero]
        rfl
      · exact hlow i (by omega)
    · have hsome : marker cell ≠ 0 := by
        rw [marker, bne_iff_ne.mpr hzero]
        decide
      rw [if_pos hsome]
      rw [if_neg hzero, List.append_assoc] at hbi
      obtain ⟨bi1, hread, hleft1, hdata1, hfew1⟩ :=
        BitInput.Left.inputHuffman hcell hbi (by rw [List.length_append]; omega) hheld
      obtain ⟨a', bi', hok, hlength, hlow, hhigh, hleft, hdata, hfew⟩ := ih (a := a.set n cell)
        (by omega) (by rw [List.length_set]; exact hroom)
        (fun i hi v hv => by
          rw [List.getElem?_set_ne (by omega)]
          exact hmarked i (by omega) v hv) hleft1 hfew1
      refine ⟨a', bi', ?_, by simpa using hlength, ?_, ?_, hleft, hdata.trans hdata1, hfew⟩
      · rw [Loops.bind_ok hread]
        dsimp only
        rw [Loops.bind_ok (store_of_lt cell (by omega))]
        exact hok
      · intro i hi
        by_cases hlast : i = n
        · subst hlast
          rw [hhigh i (Nat.le_refl i), List.getElem?_set_self (by omega), hget]
        · exact hlow i (by omega)
      · intro i hi
        rw [hhigh i (by omega), List.getElem?_set_ne (by omega)]

/-- Expanding a level of a tree and reading its codes. -/
theorem qtreeExpand_ok {a : List ℕ} {nx ny : ℕ} {M : ℕ → ℕ → ℕ} {bi : BitInput}
    {tail : List Bool} (hnx : 0 < nx) (hny : 0 < ny) (hroom : nx * ny ≤ a.length)
    (h : Holds a 0 ((ny + 1) / 2) ((nx + 1) / 2) ((ny + 1) / 2) (reducedGrid nx ny M))
    (hcells : ∀ r < nx, ∀ c < ny, M r c < 16)
    (hbi : bi.Left (cellBits (cellList nx ny M) ++ tail)) (htail : 3 ≤ tail.length)
    (hheld : bi.bitsToGo ≤ 10) :
    ∃ a' bi', qtreeExpand bi a nx ny = .ok (a', bi') ∧ a'.length = a.length ∧
      Holds a' 0 ny nx ny M ∧ bi'.Left tail ∧ bi'.data = bi.data ∧ bi'.bitsToGo ≤ 10 := by
  obtain ⟨a1, hcopy, hlength1, hmarks⟩ := qtreeCopy_ok hnx hny hroom h
  have hmarked : ∀ i < nx * ny, ∀ v, (cellList nx ny M)[i]? = some v →
      a1[i]? = some (marker v) := by
    intro i hi v hv
    obtain ⟨hr, hc, hplace⟩ := place_of_lt hi
    rw [cellList_getElem? M hi, Option.some.injEq] at hv
    have hget := hmarks _ hr _ hc
    rw [hplace] at hget
    rw [hget, ← hv, ← blockAt_quad_at M 0 hr hc]
    simp only [reducedGrid, expandCode_reduceCode, Quad.at]
    split <;> split <;> rfl
  have hsmall : ∀ v ∈ cellList nx ny M, v < 16 := by
    intro v hv
    obtain ⟨i, hi, rfl⟩ := List.mem_map.mp hv
    obtain ⟨hr, hc, -⟩ := place_of_lt (List.mem_range.mp hi)
    exact hcells _ hr _ hc
  obtain ⟨a', bi', hok, hlength, hlow, -, hleft, hdata, hfew⟩ := readCells_ok (n := nx * ny)
    hsmall (by simp) (by simp; omega) hmarked
    (by rwa [List.take_of_length_le (by simp)]) htail hheld
  refine ⟨a', bi', ?_, hlength.trans hlength1, holds_of_cellList hlow, hleft, hdata, hfew⟩
  rw [qtreeExpand, Loops.bind_ok hcopy]
  exact hok

/-- Reading the levels below one gives the codes of the plane. -/
theorem decodeLevels_ok {nqx nqy count c : ℕ} {M : ℕ → ℕ → ℕ} {x y : Axis} {bi : BitInput}
    {scratch : List ℕ} {tail : List Bool} (hnqx : 0 < nqx) (hnqy : 0 < nqy)
    (hc : 0 < count → c = 2 ^ (count + 1)) (hx : x.Covers nqx (count + 1))
    (hy : y.Covers nqy (count + 1)) (hroom : extent nqx 1 * extent nqy 1 ≤ scratch.length)
    (h : Holds scratch 0 (extent nqy (count + 1)) (extent nqx (count + 1))
      (extent nqy (count + 1)) (treeGrid nqx nqy M count))
    (hcells : ∀ i < extent nqx 1, ∀ j < extent nqy 1, M i j < 16)
    (hbi : bi.Left (lowerBits nqx nqy M count ++ tail)) (htail : 3 ≤ tail.length)
    (hheld : bi.bitsToGo ≤ 10) :
    ∃ scratch' bi', decodeLevels count bi scratch c x y = .ok (scratch', bi') ∧
      Holds scratch' 0 (extent nqy 1) (extent nqx 1) (extent nqy 1) M ∧ bi'.Left tail ∧
      bi'.data = bi.data ∧ bi'.bitsToGo ≤ 10 := by
  induction count generalizing c x y bi scratch with
  | zero => exact ⟨scratch, bi, rfl, h, hbi, rfl, hheld⟩
  | succ count ih =>
    have hstep : c / 2 = 2 ^ (count + 1) := by
      rw [hc (Nat.succ_pos count), pow_succ 2 (count + 1)]
      omega
    have hx' := hx.grow hnqx
    have hy' := hy.grow hnqy
    have hfits : ∀ k, extent nqx (k + 1) * extent nqy (k + 1) ≤ scratch.length := by
      intro k
      induction k with
      | zero => exact hroom
      | succ k ihk => exact (extent_mul_le nqx nqy (k + 1)).trans ihk
    have hsmall : ∀ i < extent nqx (count + 1), ∀ j < extent nqy (count + 1),
        treeGrid nqx nqy M count i j < 16 := by
      cases count with
      | zero => exact hcells
      | succ k => exact fun i _ j _ => reduceCode_lt _
    rw [lowerBits, List.append_assoc] at hbi
    obtain ⟨scratch1, bi1, hexpand, hlength1, hholds1, hleft1, hdata1, hfew1⟩ :=
      qtreeExpand_ok (extent_pos hnqx (count + 1)) (extent_pos hnqy (count + 1)) (hfits count) h hsmall hbi (by rw [List.length_append]; omega) hheld
    obtain ⟨scratch', bi', hok, hholds, hleft, hdata, hfew⟩ := ih (fun _ => hstep) hx' hy'
      (by rw [hlength1]; exact hroom) hholds1 hleft1 hfew1
    refine ⟨scratch', bi', ?_, hholds, hleft, hdata.trans hdata1, hfew⟩
    rw [decodeLevels]
    rw [← hstep] at hx' hy'
    simp only [hx'.top_eq, hy'.top_eq]
    rw [hstep] at hok ⊢
    rw [Loops.bind_ok hexpand]
    exact hok

end FitsWell.Hcompress
