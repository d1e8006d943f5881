import FitsWell.Compression.HcompressTransform
import FitsWell.Library.Loops

/-!
# Grids in a slice

A plane lies in a slice row by row. The loops over its 2×2 blocks and the moves of its
records change the values at known places and no others, and they stay inside the slice.
-/

namespace FitsWell.Hcompress

variable {α : Type}

/-- The slice holds `M` in `nx` rows of `ny` values, `stride` apart from `base` on. -/
def Holds (a : List α) (base stride nx ny : ℕ) (M : ℕ → ℕ → α) : Prop :=
  ∀ r < nx, ∀ c < ny, a[base + stride * r + c]? = some (M r c)

/-- Two slices agree outside a grid. -/
def AgreeOutside (a a' : List α) (base stride nx ny : ℕ) : Prop :=
  ∀ i, (∀ r < nx, ∀ c < ny, i ≠ base + stride * r + c) → a'[i]? = a[i]?

/-- A slice with its grid replaced by `N`, and nothing else changed. -/
structure Replaced (a a' : List α) (base stride nx ny : ℕ) (N : ℕ → ℕ → α) : Prop where
  length_eq : a'.length = a.length
  outside : AgreeOutside a a' base stride nx ny
  holds : Holds a' base stride nx ny N

/-- Places of a grid are equal only in the same row and column. -/
theorem place_inj {stride ny r r' c c' : ℕ} (hny : ny ≤ stride) (hc : c < ny) (hc' : c' < ny)
    (h : stride * r + c = stride * r' + c') : r = r' ∧ c = c' := by
  have hpos : 0 < stride := by omega
  have hrow : r = r' := by
    have hdiv := congrArg (· / stride) h
    simp only [Nat.mul_add_div hpos, Nat.div_eq_of_lt (show c < stride by omega),
      Nat.div_eq_of_lt (show c' < stride by omega), Nat.add_zero] at hdiv
    exact hdiv
  subst hrow
  exact ⟨rfl, by omega⟩

/-- A place held is inside the slice. -/
theorem Holds.lt_length {a : List α} {base stride nx ny : ℕ} {M : ℕ → ℕ → α}
    (h : Holds a base stride nx ny M) {r c : ℕ} (hr : r < nx) (hc : c < ny) :
    base + stride * r + c < a.length :=
  (List.getElem?_eq_some_iff.mp (h r hr c hc)).1

/-- A grid held can be named by any equal values. -/
theorem Holds.congr {a : List α} {base stride nx ny : ℕ} {M N : ℕ → ℕ → α}
    (h : Holds a base stride nx ny M) (heq : ∀ r < nx, ∀ c < ny, M r c = N r c) :
    Holds a base stride nx ny N :=
  fun r hr c hc => by rw [h r hr c hc, heq r hr c hc]

/-- A slice is itself with its grid kept. -/
theorem Replaced.refl {a : List α} {base stride nx ny : ℕ} {M : ℕ → ℕ → α}
    (h : Holds a base stride nx ny M) : Replaced a a base stride nx ny M :=
  ⟨rfl, fun _ _ => rfl, h⟩

/-- A grid replaced twice is replaced by the last. -/
theorem Replaced.trans {a a' a'' : List α} {base stride nx ny : ℕ} {M N : ℕ → ℕ → α}
    (h : Replaced a a' base stride nx ny M) (h' : Replaced a' a'' base stride nx ny N) :
    Replaced a a'' base stride nx ny N :=
  ⟨h'.length_eq.trans h.length_eq, fun i hi => (h'.outside i hi).trans (h.outside i hi), h'.holds⟩

/-- The values a grid is replaced by can be named by any equal ones. -/
theorem Replaced.congr {a a' : List α} {base stride nx ny : ℕ} {M N : ℕ → ℕ → α}
    (h : Replaced a a' base stride nx ny M) (heq : ∀ r < nx, ∀ c < ny, M r c = N r c) :
    Replaced a a' base stride nx ny N :=
  ⟨h.length_eq, h.outside, h.holds.congr heq⟩

/-- A grid held is held in part. -/
theorem Holds.mono {a : List α} {base stride nx ny nx' ny' : ℕ} {M : ℕ → ℕ → α}
    (h : Holds a base stride nx ny M) (hx : nx' ≤ nx) (hy : ny' ≤ ny) :
    Holds a base stride nx' ny' M :=
  fun r hr c hc => h r (hr.trans_le hx) c (hc.trans_le hy)

/-- A part of a grid replaced is the grid replaced there. -/
theorem Replaced.widen {a a' : List α} {base stride nx ny nx' ny' : ℕ} {M N : ℕ → ℕ → α}
    (hstride : ny ≤ stride) (h : Holds a base stride nx ny M) (hx : nx' ≤ nx) (hy : ny' ≤ ny)
    (h' : Replaced a a' base stride nx' ny' N) :
    Replaced a a' base stride nx ny fun r c => if r < nx' ∧ c < ny' then N r c else M r c := by
  refine ⟨h'.length_eq, ?_, ?_⟩
  · intro i hi
    exact h'.outside i fun r hr c hc => hi r (hr.trans_le hx) c (hc.trans_le hy)
  · intro r hr c hc
    dsimp only
    by_cases hin : r < nx' ∧ c < ny'
    · rw [if_pos hin, h'.holds r hin.1 c hin.2]
    · rw [if_neg hin, ← h r hr c hc]
      apply h'.outside
      intro r' hr' c' hc' heq
      have hplace := place_inj hstride hc (hc'.trans_le hy)
        (show stride * r + c = stride * r' + c' by omega)
      omega

/-- Slices of one plane that hold the same values are equal. -/
theorem eq_of_holds {a a' : List α} {nx ny : ℕ} {M : ℕ → ℕ → α} (hlength : a.length = nx * ny)
    (hlength' : a'.length = a.length) (h : Holds a 0 ny nx ny M) (h' : Holds a' 0 ny nx ny M) :
    a' = a := by
  refine List.ext_getElem? (fun i => ?_)
  by_cases hi : i < nx * ny
  · have hpos : 0 < ny := by
      rcases Nat.eq_zero_or_pos ny with rfl | hpos
      · simp at hi
      · exact hpos
    have hrow : i / ny < nx := (Nat.div_lt_iff_lt_mul hpos).mpr hi
    have hplace : i = 0 + ny * (i / ny) + i % ny := by
      rw [Nat.zero_add, Nat.div_add_mod]
    rw [hplace, h _ hrow _ (Nat.mod_lt _ hpos), h' _ hrow _ (Nat.mod_lt _ hpos)]
  · rw [List.getElem?_eq_none (by omega), List.getElem?_eq_none (by omega)]

/-! ## Blocks -/

/-- The block of the block row `i` and the block column `j`. -/
def blockAt (nx ny i j : ℕ) : Block :=
  ⟨(ny + 1) / 2 * i + j, 2 * i, 2 * j, decide (2 * i + 1 < nx), decide (2 * j + 1 < ny)⟩

/-- The blocks are those of the block rows and columns. -/
theorem mem_blocks {nx ny : ℕ} {block : Block} :
    block ∈ blocks nx ny ↔
      ∃ i < (nx + 1) / 2, ∃ j < (ny + 1) / 2, blockAt nx ny i j = block := by
  simp [blocks, blockAt, List.mem_flatMap]

/-- Each place lies in a block. -/
theorem blockAt_mem {nx ny r c : ℕ} (hr : r < nx) (hc : c < ny) :
    blockAt nx ny (r / 2) (c / 2) ∈ blocks nx ny :=
  mem_blocks.mpr ⟨r / 2, by omega, c / 2, by omega, rfl⟩

/-- The indices of the blocks count them. -/
theorem map_index_blocks (nx ny : ℕ) :
    (blocks nx ny).map Block.index = List.range ((nx + 1) / 2 * ((ny + 1) / 2)) := by
  generalize hrows : (nx + 1) / 2 = rows
  generalize hcols : (ny + 1) / 2 = cols
  have h : ∀ rows, ((List.range rows).flatMap fun i => (List.range cols).map fun j =>
      (⟨cols * i + j, 2 * i, 2 * j, decide (2 * i + 1 < nx), decide (2 * j + 1 < ny)⟩ :
        Block)).map Block.index = List.range (rows * cols) := by
    intro rows
    induction rows with
    | zero => simp
    | succ rows ih =>
      rw [List.range_succ, List.flatMap_append, List.map_append, ih, Nat.succ_mul,
        List.range_add]
      simp [List.map_map, Function.comp_def, Nat.mul_comm]
  simpa [blocks, hrows, hcols] using h rows

/-- Each block is visited once. -/
theorem nodup_blocks (nx ny : ℕ) : (blocks nx ny).Nodup :=
  List.Nodup.of_map Block.index (by rw [map_index_blocks]; exact List.nodup_range)

/-- The values of a block of a grid, with `absent` for those past its edge. -/
def Block.quad (block : Block) (M : ℕ → ℕ → α) (absent : α) : Quad α :=
  ⟨M block.row block.col,
    if block.right then M block.row (block.col + 1) else absent,
    if block.below then M (block.row + 1) block.col else absent,
    if block.below && block.right then M (block.row + 1) (block.col + 1) else absent⟩

/-- The value of a block at the place `(r, c)`. -/
def Quad.at (q : Quad α) (r c : ℕ) : α :=
  if r % 2 = 0 then (if c % 2 = 0 then q.s00 else q.s01)
  else (if c % 2 = 0 then q.s10 else q.s11)

/-- A block inside a grid: its corner is, and its flags tell whether its other places
are. -/
structure Block.Inside (block : Block) (nx ny : ℕ) : Prop where
  row_lt : block.row < nx
  col_lt : block.col < ny
  row_even : block.row % 2 = 0
  col_even : block.col % 2 = 0
  below_iff : block.below = true ↔ block.row + 1 < nx
  right_iff : block.right = true ↔ block.col + 1 < ny

theorem inside_of_mem {nx ny : ℕ} {block : Block} (h : block ∈ blocks nx ny) :
    block.Inside nx ny := by
  obtain ⟨i, hi, j, hj, rfl⟩ := mem_blocks.mp h
  simp only [blockAt]
  exact ⟨by dsimp only; omega, by dsimp only; omega, by dsimp only; omega, by dsimp only; omega,
    by simp, by simp⟩

/-- The block of a place is the one whose corner is the place's, rounded down. -/
theorem blockAt_eq_of_corner {nx ny : ℕ} {block : Block} (h : block ∈ blocks nx ny) {r c : ℕ}
    (hr : r / 2 = block.row / 2) (hc : c / 2 = block.col / 2) :
    blockAt nx ny (r / 2) (c / 2) = block := by
  obtain ⟨i, hi, j, hj, rfl⟩ := mem_blocks.mp h
  simp only [blockAt] at hr hc
  have hri : r / 2 = i := by omega
  have hcj : c / 2 = j := by omega
  rw [hri, hcj]

/-- A block's values depend on those inside the grid only. -/
theorem Block.quad_congr {nx ny : ℕ} {block : Block} {M N : ℕ → ℕ → α} (absent : α)
    (hblock : block.Inside nx ny) (h : ∀ r < nx, ∀ c < ny, M r c = N r c) :
    block.quad M absent = block.quad N absent := by
  obtain ⟨hrow, hcol, -, -, hbelow, hright⟩ := hblock
  simp only [Block.quad, Quad.mk.injEq]
  refine ⟨h _ hrow _ hcol, ?_, ?_, ?_⟩
  · split
    · rename_i hr
      exact h _ hrow _ (hright.mp hr)
    · rfl
  · split
    · rename_i hb
      exact h _ (hbelow.mp hb) _ hcol
    · rfl
  · split
    · rename_i hbr
      rw [Bool.and_eq_true] at hbr
      exact h _ (hbelow.mp hbr.1) _ (hright.mp hbr.2)
    · rfl

/-- The values of a block each have a property. -/
structure Quad.Forall (P : α → Prop) (q : Quad α) : Prop where
  corner : P q.s00
  right : P q.s01
  below : P q.s10
  opposite : P q.s11

/-- A property of the values of a grid, and of the absent one, is one of its blocks'. -/
theorem Block.quad_forall {P : α → Prop} {nx ny : ℕ} {block : Block} {M : ℕ → ℕ → α} {absent : α}
    (hblock : block.Inside nx ny) (habsent : P absent) (h : ∀ r < nx, ∀ c < ny, P (M r c)) :
    (block.quad M absent).Forall P := by
  obtain ⟨hrow, hcol, -, -, hbelow, hright⟩ := hblock
  constructor
  · exact h _ hrow _ hcol
  · simp only [Block.quad]
    split
    · rename_i hr
      exact h _ hrow _ (hright.mp hr)
    · exact habsent
  · simp only [Block.quad]
    split
    · rename_i hb
      exact h _ (hbelow.mp hb) _ hcol
    · exact habsent
  · simp only [Block.quad]
    split
    · rename_i hbr
      rw [Bool.and_eq_true] at hbr
      exact h _ (hbelow.mp hbr.1) _ (hright.mp hbr.2)
    · exact habsent

/-- A property of a block's values is one of the value at any place. -/
theorem Quad.Forall.at {P : α → Prop} {q : Quad α} (h : q.Forall P) (r c : ℕ) : P (q.at r c) := by
  unfold Quad.at
  split
  · split
    · exact h.corner
    · exact h.right
  · split
    · exact h.below
    · exact h.opposite

/-- The value of a place in its block. -/
theorem blockAt_quad_at {nx ny r c : ℕ} (M : ℕ → ℕ → α) (absent : α) (hr : r < nx) (hc : c < ny) :
    ((blockAt nx ny (r / 2) (c / 2)).quad M absent).at r c = M r c := by
  rcases Nat.mod_two_eq_zero_or_one r with hrp | hrp <;>
    rcases Nat.mod_two_eq_zero_or_one c with hcp | hcp
  · have hr2 : 2 * (r / 2) = r := by omega
    have hc2 : 2 * (c / 2) = c := by omega
    simp [Quad.at, Block.quad, blockAt, hrp, hcp, hr2, hc2]
  · have hr2 : 2 * (r / 2) = r := by omega
    have hc2 : 2 * (c / 2) + 1 = c := by omega
    simp [Quad.at, Block.quad, blockAt, hrp, hcp, hr2, hc2, hc]
  · have hr2 : 2 * (r / 2) + 1 = r := by omega
    have hc2 : 2 * (c / 2) = c := by omega
    simp [Quad.at, Block.quad, blockAt, hrp, hcp, hr2, hc2, hr]
  · have hr2 : 2 * (r / 2) + 1 = r := by omega
    have hc2 : 2 * (c / 2) + 1 = c := by omega
    simp [Quad.at, Block.quad, blockAt, hrp, hcp, hr2, hc2, hr, hc]

section Access

variable {a : List α} {base stride nx ny : ℕ} {M : ℕ → ℕ → α} {block : Block}

theorem loadIf_eq {present : Bool} {i : ℕ} {v : α} (absent : α) (h : present = true → a[i]? = some v) :
    loadIf present a i absent = .ok (if present then v else absent) := by
  cases present with
  | true => exact load_of_getElem? (h rfl)
  | false => rfl

/-- A block's values are loaded from the grid. -/
theorem Block.load_eq (absent : α) (hblock : block.Inside nx ny) (h : ∀ r c,
    (r = block.row ∨ r = block.row + 1) → (c = block.col ∨ c = block.col + 1) → r < nx → c < ny →
      a[base + stride * r + c]? = some (M r c)) :
    block.load a base stride absent = .ok (block.quad M absent) := by
  obtain ⟨hrow, hcol, -, -, hbelow, hright⟩ := hblock
  have hplace : ∀ c, base + stride * (block.row + 1) + c =
      base + stride * block.row + c + stride := by
    intro c
    ring
  have h00 := h block.row block.col (.inl rfl) (.inl rfl) hrow hcol
  have h01 := fun hr : block.right = true =>
    h block.row (block.col + 1) (.inl rfl) (.inr rfl) hrow (hright.mp hr)
  have h10 := fun hb : block.below = true =>
    h (block.row + 1) block.col (.inr rfl) (.inl rfl) (hbelow.mp hb) hcol
  have h11 := fun hb : (block.below && block.right) = true => by
    rw [Bool.and_eq_true] at hb
    exact h (block.row + 1) (block.col + 1) (.inr rfl) (.inr rfl) (hbelow.mp hb.1)
      (hright.mp hb.2)
  rw [hplace] at h10 h11
  have hload00 := load_of_getElem? h00
  have hload01 := loadIf_eq absent h01
  have hload10 := loadIf_eq absent h10
  have hload11 := loadIf_eq absent h11
  rw [← Nat.add_assoc] at hload01
  rw [show base + stride * block.row + (block.col + 1) + stride =
    base + stride * block.row + block.col + stride + 1 by ring] at hload11
  simp only [Block.load, bind, Except.bind, hload00, hload01, hload10, hload11]
  rfl

theorem storeIf_ok {present : Bool} {i : ℕ} (v : α) (h : present = true → i < a.length) :
    ∃ a', storeIf present a i v = .ok a' ∧ a'.length = a.length ∧
      ∀ j, a'[j]? = if present = true ∧ j = i then some v else a[j]? := by
  cases present with
  | false => exact ⟨a, rfl, rfl, by simp⟩
  | true =>
    refine ⟨a.set i v, store_of_lt v (h rfl), by simp, ?_⟩
    intro j
    by_cases hj : j = i
    · subst hj
      simp [List.getElem?_set_self (h rfl)]
    · simp [List.getElem?_set_ne (Ne.symm hj), hj]

/-- Storing a block changes its places in the grid, and no others. -/
theorem Block.store_ok (q : Quad α) (hblock : block.Inside nx ny) (hny : ny ≤ stride)
    (h : ∀ r < nx, ∀ c < ny, base + stride * r + c < a.length) :
    ∃ a', block.store a base stride q = .ok a' ∧ a'.length = a.length ∧
      AgreeOutside a a' base stride nx ny ∧
      ∀ r < nx, ∀ c < ny, a'[base + stride * r + c]? =
        if r / 2 = block.row / 2 ∧ c / 2 = block.col / 2 then some (q.at r c)
        else a[base + stride * r + c]? := by
  obtain ⟨hrow, hcol, hroweven, hcoleven, hbelow, hright⟩ := hblock
  have hp01 : base + stride * block.row + block.col + 1 =
      base + stride * block.row + (block.col + 1) := by ring
  have hp10 : base + stride * block.row + block.col + stride =
      base + stride * (block.row + 1) + block.col := by ring
  have hp11 : base + stride * (block.row + 1) + block.col + 1 =
      base + stride * (block.row + 1) + (block.col + 1) := by ring
  have hl11 : (block.below && block.right) = true →
      base + stride * (block.row + 1) + (block.col + 1) < a.length := by
    rw [Bool.and_eq_true]
    rintro ⟨hb, hr⟩
    exact h _ (hbelow.mp hb) _ (hright.mp hr)
  obtain ⟨a1, hok1, hlen1, hget1⟩ := storeIf_ok q.s11 hl11
  obtain ⟨a2, hok2, hlen2, hget2⟩ := storeIf_ok (a := a1) q.s10 (fun hb : block.below = true =>
    hlen1 ▸ h _ (hbelow.mp hb) _ hcol)
  obtain ⟨a3, hok3, hlen3, hget3⟩ := storeIf_ok (a := a2) q.s01 (fun hr : block.right = true =>
    hlen2 ▸ hlen1 ▸ h _ hrow _ (hright.mp hr))
  have hl00 : base + stride * block.row + block.col < a3.length := by
    rw [hlen3, hlen2, hlen1]
    exact h _ hrow _ hcol
  have hget : ∀ j, (a3.set (base + stride * block.row + block.col) q.s00)[j]? =
      if j = base + stride * block.row + block.col then some q.s00
      else if block.right = true ∧ j = base + stride * block.row + (block.col + 1) then some q.s01
      else if block.below = true ∧ j = base + stride * (block.row + 1) + block.col then some q.s10
      else if (block.below && block.right) = true ∧
        j = base + stride * (block.row + 1) + (block.col + 1) then some q.s11
      else a[j]? := by
    intro j
    rw [← hget1, ← hget2, ← hget3]
    by_cases hj : j = base + stride * block.row + block.col
    · rw [if_pos hj, hj, List.getElem?_set_self hl00]
    · rw [if_neg hj, List.getElem?_set_ne (Ne.symm hj)]
  refine ⟨a3.set (base + stride * block.row + block.col) q.s00, ?_, ?_, ?_, ?_⟩
  · simp only [Block.store, bind, Except.bind, hp01, hp10, hp11, hok1, hok2, hok3]
    exact store_of_lt _ hl00
  · rw [List.length_set, hlen3, hlen2, hlen1]
  · intro i hi
    rw [hget, if_neg (hi _ hrow _ hcol), if_neg, if_neg, if_neg]
    · rintro ⟨hb, rfl⟩
      rw [Bool.and_eq_true] at hb
      exact hi _ (hbelow.mp hb.1) _ (hright.mp hb.2) rfl
    · rintro ⟨hb, rfl⟩
      exact hi _ (hbelow.mp hb) _ hcol rfl
    · rintro ⟨hr, rfl⟩
      exact hi _ hrow _ (hright.mp hr) rfl
  · intro r hr c hc
    have hplace : ∀ r' < nx, ∀ c' < ny, base + stride * r + c = base + stride * r' + c' →
        r = r' ∧ c = c' :=
      fun r' _ c' hc' heq => place_inj hny hc hc' (by omega)
    have h00 := hplace _ hrow _ hcol
    have h01 := fun hr : block.right = true => hplace _ hrow _ (hright.mp hr)
    have h10 := fun hb : block.below = true => hplace _ (hbelow.mp hb) _ hcol
    have h11 := fun (hb : block.below = true) (hr : block.right = true) =>
      hplace _ (hbelow.mp hb) _ (hright.mp hr)
    rw [hget]
    by_cases hsame : r / 2 = block.row / 2 ∧ c / 2 = block.col / 2
    · rw [if_pos hsame]
      obtain ⟨hr2, hc2⟩ := hsame
      rcases Nat.mod_two_eq_zero_or_one r with hrp | hrp <;>
        rcases Nat.mod_two_eq_zero_or_one c with hcp | hcp
      · have hr' : r = block.row := by omega
        have hc' : c = block.col := by omega
        rw [if_pos (by rw [hr', hc']), Quad.at, if_pos hrp, if_pos hcp]
      · have hr' : r = block.row := by omega
        have hc' : c = block.col + 1 := by omega
        rw [if_neg (fun heq => by have := h00 heq; omega),
          if_pos ⟨hright.mpr (by omega), by rw [hr', hc']⟩, Quad.at, if_pos hrp, if_neg (by omega)]
      · have hr' : r = block.row + 1 := by omega
        have hc' : c = block.col := by omega
        rw [if_neg (fun heq => by have := h00 heq; omega),
          if_neg (fun heq => by have := h01 heq.1 heq.2; omega),
          if_pos ⟨hbelow.mpr (by omega), by rw [hr', hc']⟩, Quad.at, if_neg (by omega), if_pos hcp]
      · have hr' : r = block.row + 1 := by omega
        have hc' : c = block.col + 1 := by omega
        rw [if_neg (fun heq => by have := h00 heq; omega),
          if_neg (fun heq => by have := h01 heq.1 heq.2; omega),
          if_neg (fun heq => by have := h10 heq.1 heq.2; omega),
          if_pos ⟨by rw [Bool.and_eq_true]; exact ⟨hbelow.mpr (by omega), hright.mpr (by omega)⟩,
            by rw [hr', hc']⟩, Quad.at, if_neg (by omega), if_neg (by omega)]
    · rw [if_neg hsame, if_neg (fun heq => hsame (by have := h00 heq; omega)),
        if_neg (fun heq => hsame (by have := h01 heq.1 heq.2; omega)),
        if_neg (fun heq => hsame (by have := h10 heq.1 heq.2; omega)),
        if_neg (fun heq => hsame (by
          have hb := Bool.and_eq_true _ _ ▸ heq.1
          have := h11 hb.1 hb.2 heq.2
          omega))]

end Access

/-! ## Updates of all blocks -/

section Update

variable {a : List α} {base stride nx ny : ℕ} {M : ℕ → ℕ → α} {absent : α}
  {body : Block → Quad α → Outcome (Quad α)}

/-- A grid whose blocks `body` has replaced; where it fails, the block is left. -/
def updatedGrid (body : Block → Quad α → Outcome (Quad α)) (nx ny : ℕ) (absent : α)
    (M : ℕ → ℕ → α) (r c : ℕ) : α :=
  match body (blockAt nx ny (r / 2) (c / 2)) ((blockAt nx ny (r / 2) (c / 2)).quad M absent) with
  | .ok q => q.at r c
  | .error _ => M r c

/-- Where the body gives each block of a grid the values of another, the grid becomes it. -/
theorem updatedGrid_eq {N : ℕ → ℕ → α} {r c : ℕ} (hr : r < nx) (hc : c < ny)
    (h : ∀ block ∈ blocks nx ny, body block (block.quad M absent) = .ok (block.quad N absent)) :
    updatedGrid body nx ny absent M r c = N r c := by
  rw [updatedGrid, h _ (blockAt_mem hr hc)]
  exact blockAt_quad_at N absent hr hc

/-- What an update has done after the blocks `done`. -/
structure Updated (body : Block → Quad α → Outcome (Quad α)) (a : List α)
    (base stride nx ny : ℕ) (absent : α) (M : ℕ → ℕ → α) (done : List Block) (a' : List α) :
    Prop extends Replaced a a' base stride nx ny fun r c =>
      if blockAt nx ny (r / 2) (c / 2) ∈ done then updatedGrid body nx ny absent M r c
      else M r c where
  body_ok : ∀ block ∈ done, ∃ q, body block (block.quad M absent) = .ok q

/-- The step of an update is its body's at the block's first values. -/
theorem Updated.load_eq {done todo : List Block} {block : Block} {a' : List α}
    (h : Updated body a base stride nx ny absent M done a')
    (hitems : blocks nx ny = done ++ block :: todo) :
    block.load a' base stride absent = .ok (block.quad M absent) := by
  have hmem : block ∈ blocks nx ny := by simp [hitems]
  have hblock := inside_of_mem hmem
  have hnew : block ∉ done := by
    have hnodup := nodup_blocks nx ny
    rw [hitems, List.nodup_append] at hnodup
    exact fun hdone => hnodup.2.2 block hdone block (by simp) rfl
  apply Block.load_eq absent hblock
  intro r c hr hc hrx hcy
  have hrow := hblock.row_even
  have hcol := hblock.col_even
  have hat : blockAt nx ny (r / 2) (c / 2) = block :=
    blockAt_eq_of_corner hmem (by omega) (by omega)
  have hold := h.holds r hrx c hcy
  simp only [hat, if_neg hnew] at hold
  exact hold

/-- A block whose body succeeds is updated. -/
theorem Updated.step {done todo : List Block} {block : Block} {q : Quad α} {a' : List α}
    (hny : ny ≤ stride) (h : Updated body a base stride nx ny absent M done a')
    (hitems : blocks nx ny = done ++ block :: todo)
    (hbody : body block (block.quad M absent) = .ok q) :
    ∃ a'', block.store a' base stride q = .ok a'' ∧
      Updated body a base stride nx ny absent M (done ++ [block]) a'' := by
  have hmem : block ∈ blocks nx ny := by simp [hitems]
  have hblock := inside_of_mem hmem
  obtain ⟨a'', hok, hlength, hout, hget⟩ :=
    Block.store_ok q hblock hny (fun r hr c hc => h.holds.lt_length hr hc)
  refine ⟨a'', hok, ⟨⟨by rw [hlength, h.length_eq], ?_, ?_⟩, ?_⟩⟩
  · intro i hi
    rw [hout i hi, h.outside i hi]
  · intro r hr c hc
    dsimp only
    rw [hget r hr c hc]
    by_cases hsame : r / 2 = block.row / 2 ∧ c / 2 = block.col / 2
    · have hat := blockAt_eq_of_corner hmem hsame.1 hsame.2
      rw [if_pos hsame, hat, if_pos (by simp), updatedGrid, hat, hbody]
    · have hat : blockAt nx ny (r / 2) (c / 2) ≠ block := by
        rintro rfl
        exact hsame (by simp [blockAt])
      rw [if_neg hsame, h.holds r hr c hc]
      simp [hat]
  · intro other hother
    rcases List.mem_append.mp hother with hdone | hlast
    · exact h.body_ok other hdone
    · rw [List.mem_singleton.mp hlast]
      exact ⟨q, hbody⟩

/-- Nothing is updated before the first block. -/
theorem Updated.start (h : Holds a base stride nx ny M) :
    Updated body a base stride nx ny absent M [] a :=
  ⟨Replaced.refl fun r hr c hc => by simpa using h r hr c hc, by simp⟩

/-- After all blocks the grid is the updated one. -/
theorem Updated.finish {a' : List α}
    (h : Updated body a base stride nx ny absent M (blocks nx ny) a') :
    Replaced a a' base stride nx ny (updatedGrid body nx ny absent M) :=
  h.toReplaced.congr fun r hr c hc => by rw [if_pos (blockAt_mem hr hc)]

/-- An update whose body succeeds on each block succeeds. -/
theorem updateBlocks_total (hny : ny ≤ stride) (h : Holds a base stride nx ny M)
    (hbody : ∀ block ∈ blocks nx ny, ∃ q, body block (block.quad M absent) = .ok q) :
    ∃ a', updateBlocks body base stride nx ny absent a = .ok a' ∧
      Replaced a a' base stride nx ny (updatedGrid body nx ny absent M) := by
  have hrun : ∃ a', updateBlocks body base stride nx ny absent a = .ok a' ∧
      Updated body a base stride nx ny absent M (blocks nx ny) a' := by
    apply Loops.foldlM_total (Updated.start h)
    intro done block todo hitems s hdone
    obtain ⟨q, hq⟩ := hbody block (by simp [hitems])
    obtain ⟨s', hstore, hnext⟩ := hdone.step hny hitems hq
    refine ⟨s', ?_, hnext⟩
    rw [hdone.load_eq hitems]
    simp only [bind, Except.bind, hq]
    exact hstore
  obtain ⟨a', hok, hend⟩ := hrun
  exact ⟨a', hok, hend.finish⟩

/-- The body of an update that succeeds does on each block. -/
theorem body_ok_of_updateBlocks {a' : List α} (hny : ny ≤ stride)
    (h : Holds a base stride nx ny M)
    (hok : updateBlocks body base stride nx ny absent a = .ok a') :
    ∀ block ∈ blocks nx ny, ∃ q, body block (block.quad M absent) = .ok q := by
  have hend : Updated body a base stride nx ny absent M (blocks nx ny) a' := by
    refine Loops.foldlM_partial (Updated.start h) ?_ hok
    intro done block todo hitems s s' hdone hstep
    rw [hdone.load_eq hitems] at hstep
    simp only [bind, Except.bind] at hstep
    cases hq : body block (block.quad M absent) with
    | error fault =>
      rw [hq] at hstep
      cases hstep
    | ok q =>
      rw [hq] at hstep
      obtain ⟨s'', hstore, hnext⟩ := hdone.step hny hitems hq
      have heq : s' = s'' := Except.ok.inj (hstep.symm.trans hstore)
      rwa [heq]
  exact hend.body_ok

end Update

end FitsWell.Hcompress
