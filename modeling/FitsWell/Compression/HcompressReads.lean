import FitsWell.Compression.HcompressStream

/-!
# Reading any bytes

The plane counts, the codes and the dimensions of a stream are its writer's word only.
Here nothing is assumed of it: the reader holds few bits at any time, and each quadtree
step stays inside the quadrant's cells, so a stream that no encoder wrote ends the reading
with an error or with the wrong values, and never past a slice.
-/

namespace FitsWell.Hcompress

open Bytes Bits

/-! ## Bits -/

/-- A reader between two reads: it holds few bits, and those are of bytes it took. -/
structure BitInput.Ready (bi : BitInput) : Prop where
  held_le : bi.bitsToGo ≤ 10
  taken : bi.bitsToGo ≤ 8 * bi.pos

/-- A reader that starts a bit string is ready. -/
theorem BitInput.ready_start (bi : BitInput) : bi.startInputingBits.Ready :=
  ⟨Nat.zero_le _, Nat.zero_le _⟩

theorem BitInput.byte_returns (bi : BitInput) :
    Returns (fun r => r.2 = { bi with pos := bi.pos + 1 }) bi.byte := by
  unfold BitInput.byte
  split
  · exact .ok rfl
  · exact Returns.fail _

theorem BitInput.readBytes_returns (bi : BitInput) (n : ℕ) :
    Returns (fun r => r.1.length = n) (bi.readBytes n) := by
  refine .ite (fun h => .ok ?_) fun _ => Returns.fail _
  rw [List.length_take, List.length_drop]
  omega

/-- A signed value of `n` bytes is in their range. -/
theorem BitInput.readInt_returns (bi : BitInput) (n : ℕ) :
    Returns (fun r => -2 ^ (8 * n - 1) ≤ r.1 ∧ r.1 < 2 ^ (8 * n - 1)) (bi.readInt n) := by
  refine (bi.readBytes_returns n).bind fun r hr => .ok ?_
  dsimp only
  rw [ofIntBytes, hr]
  exact ⟨BitVec.le_toInt _, BitVec.toInt_lt⟩

/-- Bits that are held come to the low end of the buffer. -/
theorem BitInput.top_returns {bi : BitInput} {n : ℕ} (hn : n ≤ bi.bitsToGo)
    (hroom : bi.bitsToGo ≤ 31) : Returns (fun _ => True) (bi.top n) :=
  .of_ok (BitInput.top_of_le hn hroom) trivial

namespace BitInput.Ready

variable {bi : BitInput}

/-- After a refill there are bits to take, and fewer than the buffer has. -/
theorem fill {n : ℕ} (h : bi.Ready) (hn : n ≤ 8) :
    Returns (fun bi' => n ≤ bi'.bitsToGo ∧ bi'.bitsToGo ≤ max 10 (n + 7) ∧
      bi'.bitsToGo ≤ 8 * bi'.pos) (bi.fill n) := by
  obtain ⟨hheld, htaken⟩ := h
  refine .ite (fun hfew => ?_) fun hmany => .ok ⟨by omega, by omega, htaken⟩
  refine bi.byte_returns.bind ?_
  rintro ⟨byte, bi'⟩ rfl
  refine .ok ⟨?_, ?_, ?_⟩ <;> dsimp only <;> omega

theorem inputBit (h : bi.Ready) : Returns (fun r => r.2.Ready) bi.inputBit := by
  obtain ⟨hheld, htaken⟩ := h
  have htake : ∀ bi : BitInput, 0 < bi.bitsToGo → bi.bitsToGo ≤ 10 → bi.bitsToGo ≤ 8 * bi.pos →
      Returns (fun r => r.2.Ready) (do
        let top ← bi.top 1
        .ok ((top &&& 1).toNat, { bi with bitsToGo := bi.bitsToGo - 1 })) := by
    intro bi hsome hheld htaken
    refine (BitInput.top_returns hsome (by omega)).bind fun top _ => ?_
    exact .ok ⟨by dsimp only; omega, by dsimp only; omega⟩
  unfold BitInput.inputBit
  refine .ite (fun hnone => ?_) fun hsome => ?_
  · refine bi.byte_returns.bind ?_
    rintro ⟨byte, bi'⟩ rfl
    refine htake ⟨bi.data, bi.pos + 1, BitVec.ofNat 32 byte.toNat, 8⟩ ?_ ?_ ?_ <;>
      dsimp only <;> omega
  · exact htake bi (by omega) hheld htaken

theorem inputNbits {n : ℕ} (h : bi.Ready) (hn : n ≤ 8) :
    Returns (fun r => r.2.Ready) (bi.inputNbits n) := by
  refine (h.fill hn).bind ?_
  rintro bi' ⟨hmany, hfew, htaken⟩
  refine (BitInput.top_returns hmany (by omega)).bind fun top _ => ?_
  exact .ok ⟨by dsimp only; omega, by dsimp only; omega⟩

theorem inputNybble (h : bi.Ready) : Returns (fun r => r.2.Ready) bi.inputNybble :=
  h.inputNbits (by decide)

/-- The lengths of the codes. -/
theorem huffmanDecode_length (p : ℕ) : 3 ≤ (huffmanDecode p).2 ∧ (huffmanDecode p).2 ≤ 6 := by
  unfold huffmanDecode
  split_ifs <;> simp

theorem inputHuffman (h : bi.Ready) : Returns (fun r => r.2.Ready) bi.inputHuffman := by
  refine (h.fill (by decide)).bind ?_
  rintro bi' ⟨hmany, hfew, htaken⟩
  refine (BitInput.top_returns hmany (by omega)).bind fun top _ => ?_
  have hlength := huffmanDecode_length (top.toNat % 256 &&& 63)
  dsimp only
  generalize huffmanDecode (top.toNat % 256 &&& 63) = entry at hlength ⊢
  exact .ok ⟨by dsimp only; omega, by dsimp only; omega⟩

/-- The pairs of nybbles fill places of the array. -/
theorem inputPairs (h : bi.Ready) {n pairs : ℕ} {array : List ℕ}
    (harray : Slice (fun _ => True) n array) (hroom : 2 * pairs ≤ n) :
    Returns (fun r => Slice (fun _ => True) n r.1 ∧ r.2.Ready) (bi.inputPairs array pairs) := by
  obtain ⟨hheld, htaken⟩ := h
  have hloop : Returns (fun r => Slice (fun _ => True) n r.1 ∧ r.2.bitsToGo = bi.bitsToGo ∧
      r.2.bitsToGo ≤ 8 * r.2.pos) (bi.inputPairs array pairs) := by
    refine .range ⟨harray, rfl, htaken⟩ ?_
    rintro t ht ⟨array, bi1⟩ ⟨harray, hsame, htaken⟩
    refine bi1.byte_returns.bind ?_
    rintro ⟨byte, bi2⟩ rfl
    have hshift : ∀ (buffer : BitVec 32) {n : ℕ}, n < 32 →
        Returns (fun _ => True) (shiftBuffer buffer n) :=
      fun buffer n hn => .of_ok (shiftBuffer_of_lt hn buffer) trivial
    refine (hshift _ (by omega)).bind fun high _ => ?_
    refine (harray.store (by omega) trivial).bind fun array1 harray1 => ?_
    refine (hshift _ (by omega)).bind fun low _ => ?_
    refine (harray1.store (by omega) trivial).bind fun array2 harray2 => ?_
    exact .ok ⟨harray2, hsame, by dsimp only at htaken ⊢; omega⟩
  refine hloop.mono ?_
  rintro r ⟨harray, hsame, htaken⟩
  exact ⟨harray, by omega, htaken⟩

/-- The nybbles fill the array: a byte that is given back was taken. -/
theorem inputNnybble (h : bi.Ready) {n room : ℕ} {array : List ℕ}
    (harray : Slice (fun _ => True) room array) (hn : 0 < n) (hroom : n ≤ room) :
    Returns (fun r => Slice (fun _ => True) room r.1 ∧ r.2.Ready) (bi.inputNnybble n array) := by
  have hpairs : ∀ bi : BitInput, bi.Ready →
      Returns (fun r => Slice (fun _ => True) room r.1 ∧ r.2.Ready) (do
        let pairs ← bi.inputPairs array (n / 2)
        if n / 2 * 2 ≠ n then do
          let last ← pairs.2.inputNybble
          let array ← store pairs.1 (n - 1) last.1
          .ok (array, last.2)
        else
          .ok (pairs.1, pairs.2)) := by
    intro bi h
    refine (h.inputPairs harray (by omega)).bind ?_
    rintro ⟨array1, bi1⟩ ⟨harray1, h1⟩
    refine .ite (fun hodd => ?_) fun _ => .ok ⟨harray1, h1⟩
    refine h1.inputNybble.bind ?_
    rintro ⟨nybble, bi2⟩ h2
    exact (harray1.store (by omega) trivial).bind fun array2 harray2 => .ok ⟨harray2, h2⟩
  refine .ite (fun _ => ?_) fun hmany => ?_
  · refine h.inputNybble.bind ?_
    rintro ⟨nybble, bi1⟩ h1
    exact (harray.store (by omega) trivial).bind fun array1 harray1 => .ok ⟨harray1, h1⟩
  · refine .ite (fun hbyte => ?_) fun _ => hpairs bi h
    have hpos : subUsize bi.pos 1 = .ok (bi.pos - 1) := subUsize_of_le (by have := h.taken; omega)
    refine (Loops.Ends.of_ok hpos rfl).bind ?_
    rintro pos rfl
    exact hpairs ⟨bi.data, bi.pos - 1, bi.buffer, 0⟩ ⟨Nat.zero_le _, Nat.zero_le _⟩

end BitInput.Ready

/-! ## Blocks of any values -/

section Blocks

variable {α : Type} {P : α → Prop} {n base stride nx ny : ℕ} {a : List α} {absent : α}

theorem loadIf_returns {present : Bool} {i : ℕ} (h : Slice P n a) (hi : present = true → i < n)
    (habsent : P absent) : Returns P (loadIf present a i absent) := by
  cases present with
  | true => exact h.load (hi rfl)
  | false => exact .ok habsent

theorem storeIf_returns {present : Bool} {i : ℕ} {v : α} (h : Slice P n a)
    (hi : present = true → i < n) (hv : P v) : Returns (Slice P n) (storeIf present a i v) := by
  cases present with
  | true => exact h.store (hi rfl) hv
  | false => exact .ok h

/-- The places of a block inside a grid that a slice has room for. -/
theorem Block.Inside.places {block : Block} (hblock : block.Inside nx ny)
    (hroom : ∀ r < nx, ∀ c < ny, base + stride * r + c < n) :
    base + stride * block.row + block.col < n ∧
      (block.right = true → base + stride * block.row + block.col + 1 < n) ∧
      (block.below = true → base + stride * block.row + block.col + stride < n) ∧
      ((block.below && block.right) = true →
        base + stride * block.row + block.col + stride + 1 < n) := by
  obtain ⟨hrow, hcol, -, -, hbelow, hright⟩ := hblock
  have hnext : ∀ c, base + stride * (block.row + 1) + c =
      base + stride * block.row + c + stride := by
    intro c
    ring
  refine ⟨hroom _ hrow _ hcol, fun hr => hroom _ hrow _ (hright.mp hr), fun hb => ?_, fun hboth => ?_⟩
  · rw [← hnext]
    exact hroom _ (hbelow.mp hb) _ hcol
  · rw [Bool.and_eq_true] at hboth
    have hlt := hroom _ (hbelow.mp hboth.1) _ (hright.mp hboth.2)
    rw [hnext] at hlt
    omega

/-- A block inside a grid is read. -/
theorem Block.load_returns {block : Block} (h : Slice P n a) (hblock : block.Inside nx ny)
    (hroom : ∀ r < nx, ∀ c < ny, base + stride * r + c < n) (habsent : P absent) :
    Returns (Quad.Forall P) (block.load a base stride absent) := by
  obtain ⟨h00, h01, h10, h11⟩ := hblock.places hroom
  refine (h.load h00).bind fun v00 hv00 => ?_
  refine (loadIf_returns h h01 habsent).bind fun v01 hv01 => ?_
  refine (loadIf_returns h h10 habsent).bind fun v10 hv10 => ?_
  refine (loadIf_returns h h11 habsent).bind fun v11 hv11 => ?_
  exact .ok ⟨hv00, hv01, hv10, hv11⟩

/-- A block inside a grid is replaced. -/
theorem Block.store_returns {block : Block} {q : Quad α} (h : Slice P n a)
    (hblock : block.Inside nx ny) (hroom : ∀ r < nx, ∀ c < ny, base + stride * r + c < n)
    (hq : q.Forall P) : Returns (Slice P n) (block.store a base stride q) := by
  obtain ⟨h00, h01, h10, h11⟩ := hblock.places hroom
  refine (storeIf_returns h h11 hq.opposite).bind fun a1 ha1 => ?_
  refine (storeIf_returns ha1 h10 hq.below).bind fun a2 ha2 => ?_
  refine (storeIf_returns ha2 h01 hq.right).bind fun a3 ha3 => ?_
  exact ha3.store h00 hq.corner

/-- An update of blocks inside a slice keeps what its body keeps. -/
theorem updateBlocks_returns {body : Block → Quad α → Outcome (Quad α)} (h : Slice P n a)
    (hroom : ∀ r < nx, ∀ c < ny, base + stride * r + c < n) (habsent : P absent)
    (hbody : ∀ block ∈ blocks nx ny, ∀ q : Quad α, q.Forall P →
      Returns (Quad.Forall P) (body block q)) :
    Returns (Slice P n) (updateBlocks body base stride nx ny absent a) := by
  refine .foldlM h fun block hblock a ha => ?_
  have hinside := inside_of_mem hblock
  refine (Block.load_returns ha hinside hroom habsent).bind fun q hq => ?_
  refine (hbody block hblock q hq).bind fun q' hq' => ?_
  exact Block.store_returns ha hinside hroom hq'

end Blocks

/-! ## A quadtree -/

section Tree

variable {bi : BitInput} {room : ℕ} {a : List ℕ}

/-- The codes of blocks are spread inside the cells of their level. -/
theorem qtreeCopy_returns {nx ny : ℕ} (hnx : 0 < nx) (hny : 0 < ny)
    (h : Slice (fun _ => True) room a) (hroom : nx * ny ≤ room) :
    Returns (Slice (fun _ => True) room) (qtreeCopy a nx ny) := by
  have hcodes : Holds a 0 ((ny + 1) / 2) ((nx + 1) / 2) ((ny + 1) / 2)
      fun r c => a.getD ((ny + 1) / 2 * r + c) 0 := by
    intro r hr c hc
    have hlt : (ny + 1) / 2 * r + c < (nx + 1) / 2 * ((ny + 1) / 2) := place_lt hr hc
    have hle : (nx + 1) / 2 * ((ny + 1) / 2) ≤ nx * ny := Nat.mul_le_mul (by omega) (by omega)
    have hlength := h.length_eq
    dsimp only
    rw [Nat.zero_add, List.getD_eq_getElem?_getD, List.getElem?_eq_getElem (by omega)]
    rfl
  obtain ⟨a', hok, hlength, -⟩ := qtreeCopy_ok hnx hny (h.length_eq ▸ hroom) hcodes
  exact .of_ok hok ⟨hlength.trans h.length_eq, fun _ _ => trivial⟩

theorem readCells_returns {n : ℕ} (hbi : bi.Ready) (h : Slice (fun _ => True) room a)
    (hn : n ≤ room) :
    Returns (fun r => Slice (fun _ => True) room r.1 ∧ r.2.Ready) (readCells n bi a) := by
  induction n generalizing bi a with
  | zero => exact .ok ⟨h, hbi⟩
  | succ n ih =>
    refine (h.load hn).bind fun cell _ => .ite (fun _ => ?_) fun _ => ih hbi h (by omega)
    refine hbi.inputHuffman.bind ?_
    rintro ⟨value, bi1⟩ hbi1
    exact (h.store hn trivial).bind fun a1 h1 => ih hbi1 h1 (by omega)

/-- The levels of a tree over `nqx` rows of `nqy` values stay inside the cells of the last. -/
theorem decodeLevels_returns {nqx nqy count c : ℕ} {x y : Axis} (hnqx : 0 < nqx) (hnqy : 0 < nqy)
    (hbi : bi.Ready) (h : Slice (fun _ => True) room a)
    (hc : 0 < count → c = 2 ^ (count + 1)) (hx : x.Covers nqx (count + 1))
    (hy : y.Covers nqy (count + 1)) (hroom : extent nqx 1 * extent nqy 1 ≤ room) :
    Returns (fun r => Slice (fun _ => True) room r.1 ∧ r.2.Ready)
      (decodeLevels count bi a c x y) := by
  induction count generalizing c x y bi a with
  | zero => exact .ok ⟨h, hbi⟩
  | succ count ih =>
    have hstep : c / 2 = 2 ^ (count + 1) := by
      rw [hc (Nat.succ_pos count), pow_succ 2 (count + 1)]
      omega
    have hx' := hx.grow hnqx
    have hy' := hy.grow hnqy
    have hfits : extent nqx (count + 1) * extent nqy (count + 1) ≤ room := by
      refine le_trans (Nat.mul_le_mul ?_ ?_) hroom
      · exact antitone_nat_of_succ_le (extent_le nqx) (by omega)
      · exact antitone_nat_of_succ_le (extent_le nqy) (by omega)
    rw [← hstep] at hx' hy'
    have hexpand : Returns (fun r => Slice (fun _ => True) room r.1 ∧ r.2.Ready)
        (qtreeExpand bi a (x.grow (c / 2)).top (y.grow (c / 2)).top) := by
      rw [hx'.top_eq, hy'.top_eq]
      exact (qtreeCopy_returns (extent_pos hnqx _) (extent_pos hnqy _) h hfits).bind
        fun a1 h1 => readCells_returns hbi h1 hfits
    refine hexpand.bind ?_
    rintro ⟨a1, bi1⟩ ⟨h1, hbi1⟩
    exact ih hbi1 h1 (fun _ => hstep) hx' hy'

/-- The codes of a plane of a quadrant. -/
theorem qtreeCodes_returns {quadrant : Quadrant} (hbi : bi.Ready) (hq : quadrant.Sound)
    (hlog : quadrant.log2n < 64) :
    Returns (fun r => Slice (fun _ => True) (max quadrant.cells 1) r.1 ∧ r.2.Ready)
      (qtreeCodes bi quadrant) := by
  have hcells := hq.cells_pos
  have hscratch : Slice (fun _ => True) (max quadrant.cells 1)
      (List.replicate (max quadrant.cells 1) 0) := slice_replicate _ trivial
  refine hbi.inputNybble.bind ?_
  rintro ⟨format, bi1⟩ hbi1
  refine .ite (fun _ => ?_) fun _ => .ite (fun _ => Returns.fail _) fun _ => ?_
  · exact hbi1.inputNnybble hscratch hcells (Nat.le_max_left _ _)
  · refine hbi1.inputHuffman.bind ?_
    rintro ⟨root, bi2⟩ hbi2
    refine (hscratch.store (by omega) trivial).bind fun a1 h1 => ?_
    refine (Loops.Ends.of_ok (onePlace_of_lt hlog) rfl).bind ?_
    rintro c rfl
    obtain ⟨hcx, hcy⟩ := hq.covers
    refine decodeLevels_returns hq.rows hq.cols hbi2 h1 ?_ (Axis.covers_one hq.rows hcx)
      (Axis.covers_one hq.cols hcy) (Nat.le_max_left _ _)
    intro hpos
    rw [show quadrant.log2n = quadrant.log2n - 1 + 1 by omega]
    rfl

end Tree

/-! ## Planes and signs -/

/-- A magnitude read by bit planes: none of them is the word's sign. -/
def Magnitude (v : ℤ) : Prop := 0 ≤ v ∧ v < 2 ^ 63

/-- A magnitude takes a bit below the word's sign. -/
theorem Magnitude.or64 {v : ℤ} (hv : Magnitude v) (d : ℕ) {bit : ℕ} (hbit : bit < 63) :
    Magnitude (or64 v ((d &&& 1 : ℕ) * 2 ^ bit)) := by
  have hdigit : Magnitude ((d &&& 1 : ℕ) * 2 ^ bit : ℤ) := by
    have hle : (2 : ℤ) ^ bit ≤ 2 ^ 62 := pow_le_pow_right₀ (by norm_num) (by omega)
    rw [Nat.and_one_is_mod]
    rcases Nat.mod_two_eq_zero_or_one d with h | h <;> rw [h] <;> constructor <;>
      first | positivity | (push_cast; linarith)
  have hmsb : ∀ w : ℤ, Magnitude w → (BitVec.ofInt 64 w).msb = false := by
    rintro w ⟨hlow, hhigh⟩
    rw [BitVec.msb_eq_toInt, toInt_ofInt_of_fits ⟨by omega, hhigh⟩, decide_eq_false (by omega)]
  have hword : (BitVec.ofInt 64 v ||| BitVec.ofInt 64 ((d &&& 1 : ℕ) * 2 ^ bit)).msb = false := by
    rw [BitVec.msb_or, hmsb v hv, hmsb _ hdigit]
    rfl
  exact ⟨BitVec.toInt_nonneg_of_msb_false hword, BitVec.toInt_lt⟩

section Planes

variable {bi : BitInput} {n : ℕ} {a : List ℤ} {quadrant : Quadrant}

theorem qtreeBitins_returns {codes : List ℕ} {bit : ℕ} (hbit : bit < 63)
    (hcodes : Slice (fun _ => True) (max quadrant.cells 1) codes) (h : Slice Magnitude n a)
    (hroom : ∀ r < quadrant.nqx, ∀ c < quadrant.nqy, quadrant.base + quadrant.n * r + c < n) :
    Returns (Slice Magnitude n) (qtreeBitins codes quadrant a bit) := by
  refine updateBlocks_returns h hroom ⟨le_refl 0, by norm_num⟩ fun block hblock q hq => ?_
  have hindex : block.index < quadrant.cells := index_lt hblock
  refine (hcodes.load (by omega)).bind fun v _ => ?_
  refine .ite (fun _ => .ok ?_) fun hbig => absurd (by omega) hbig
  exact ⟨hq.corner.or64 _ hbit, hq.right.or64 _ hbit, hq.below.or64 _ hbit, hq.opposite.or64 _ hbit⟩

/-- The planes of a quadrant give magnitudes. -/
theorem qtreeDecode_returns {planes : ℕ} (hbi : bi.Ready) (hq : quadrant.Sound)
    (hlog : quadrant.log2n < 64) (hplanes : planes ≤ 63) (h : Slice Magnitude n a)
    (hroom : ∀ r < quadrant.nqx, ∀ c < quadrant.nqy, quadrant.base + quadrant.n * r + c < n) :
    Returns (fun r => Slice Magnitude n r.1 ∧ r.2.Ready) (qtreeDecode quadrant planes bi a) := by
  induction planes generalizing bi a with
  | zero => exact .ok ⟨h, hbi⟩
  | succ bit ih =>
    refine (qtreeCodes_returns hbi hq hlog).bind ?_
    rintro ⟨codes, bi1⟩ ⟨hcodes, hbi1⟩
    exact (qtreeBitins_returns (by omega) hcodes h hroom).bind fun a1 h1 => ih hbi1 (by omega) h1

/-- A magnitude with its sign is an `i64`. -/
theorem readSigns_returns (hbi : bi.Ready) (h : Slice Magnitude n a) :
    Returns (Slice FitsI64 n) (readSigns bi a) := by
  induction a generalizing bi n with
  | nil => exact .ok ⟨h.length_eq, by simp⟩
  | cons v values ih =>
    obtain ⟨hlength, hall⟩ := h
    obtain ⟨⟨hlow, hhigh⟩, hrest⟩ := List.forall_mem_cons.mp hall
    have hstep : ∀ w, FitsI64 w → ∀ bi : BitInput, bi.Ready →
        Returns (Slice FitsI64 n) (do
          let rest ← readSigns bi values
          .ok (w :: rest)) := by
      intro w hw bi hbi
      refine (ih hbi ⟨rfl, hrest⟩).bind fun rest h => .ok ⟨?_, ?_⟩
      · rw [List.length_cons, h.length_eq, ← hlength, List.length_cons]
      · exact List.forall_mem_cons.mpr ⟨hw, h.all⟩
    refine .ite (fun _ => ?_) fun _ => hstep v ⟨by omega, hhigh⟩ bi hbi
    refine hbi.inputBit.bind ?_
    rintro ⟨bit, bi1⟩ hbi1
    have hsign : Returns FitsI64 (withSign bit v) := by
      have hneg : FitsI64 (-v) := ⟨by omega, by omega⟩
      exact .ite (fun _ => .of_ok (checkI64_of_fits hneg) hneg) fun _ => .ok ⟨by omega, hhigh⟩
    exact hsign.bind fun w hw => hstep w hw bi1 hbi1

end Planes

/-- Reading the quadrants and the signs of a plane. -/
theorem dodecode_returns (bi : BitInput) {nx ny : ℕ} {nbitplanes : List ℕ} (hnx : 0 < nx)
    (hny : 0 < ny) (hx : nx < 2 ^ 31) (hy : ny < 2 ^ 31) (hcount : nbitplanes.length = 3)
    (hplanes : ∀ planes ∈ nbitplanes, planes ≤ 63) :
    Returns (Slice FitsI64 (nx * ny))
      (dodecode bi (List.replicate (nx * ny) 0) nx ny nbitplanes) := by
  have hzero : Slice Magnitude (nx * ny) (List.replicate (nx * ny) 0) :=
    slice_replicate _ ⟨le_refl 0, by norm_num⟩
  have hquadrants : Returns (fun s : List ℤ × BitInput => Slice Magnitude (nx * ny) s.1 ∧ s.2.Ready)
      ((quadrants nx ny).foldlM (fun (s : List ℤ × BitInput) entry => do
        let planes ← load nbitplanes entry.2
        qtreeDecode entry.1 planes s.2 s.1)
        (List.replicate (nx * ny) 0, bi.startInputingBits)) := by
    refine .foldlM ⟨hzero, bi.ready_start⟩ ?_
    rintro ⟨quadrant, place⟩ hentry ⟨a, bi1⟩ ⟨ha, hbi1⟩
    obtain ⟨row, col, hplaced, hplace, -⟩ := mem_quadrants hnx hny hentry
    have hcounts : Slice (· ≤ 63) 3 nbitplanes := ⟨hcount, hplanes⟩
    have hlt : place < 3 := by
      have h1 := Bool.toNat_le (decide ((ny + 1) / 2 ≤ col))
      have h2 := Bool.toNat_le (decide ((nx + 1) / 2 ≤ row))
      dsimp only at hplace
      omega
    refine (hcounts.load hlt).bind fun planes hle => ?_
    have hlog := quadrant_log2n_lt hnx hny (by omega) (by omega) hentry
    refine qtreeDecode_returns hbi1 hplaced.sound hlog hle ha ?_
    intro r hr c hc
    obtain ⟨hrow, hcol, hat⟩ := hplaced.place ⟨hr, hc, rfl⟩
    dsimp only at hat
    rw [hat]
    exact place_lt hrow hcol
  refine hquadrants.bind ?_
  rintro ⟨a, bi1⟩ ⟨ha, hbi1⟩
  refine hbi1.inputNybble.bind ?_
  rintro ⟨last, bi2⟩ hbi2
  exact .ite (fun _ => Returns.fail _) fun _ => readSigns_returns bi2.ready_start ha

end FitsWell.Hcompress
