import FitsWell.ImageModel.Scaling
import FitsWell.Library.Ends
import FitsWell.Reader.SectionReads

/-!
# The paths to physical values

Stored samples scale one at a time, as a slice, from big-endian bytes a block at a time, and from
cells whose samples gather in one block. The paths give the same values in the same order.
-/

namespace FitsWell

open Chunks (chunk)
open Loops (Ends)
open Scaling (blockSamples)

variable {R τ β : Type}

/-- A stored sample type that scales. -/
structure ScaledSample (R τ : Type) extends Sample τ where
  /-- `a == b`. -/
  same : τ → τ → Bool
  /-- The sample that holds an integer. -/
  integer : ℤ → Option τ
  toF64 : τ → R
  same_comm : ∀ a b, same a b = same b a

namespace ScaledSample

variable [PlaneReals R] [PhysicalSample R β] (sample : ScaledSample R τ) (scaling : Scaling R)

/-- The physical value of one stored sample. -/
def physical (value : τ) : β :=
  if (scaling.blank.bind sample.integer).any (sample.same · value) then
    PhysicalSample.nan
  else if scaling.isIdentity then
    PhysicalSample.ofF64 (sample.toF64 value)
  else
    PhysicalSample.ofF64 (PlaneReals.mulAdd scaling.bscale (sample.toF64 value) scaling.bzero)

/-- Append the physical values of a slice. The null and the identity are decided once. -/
def extendPhysical (samples : List τ) (out : List β) : Outcome (List β) := do
  reserve (PhysicalSample.width β) out.length samples.length
  let affine := fun value => PhysicalSample.ofF64
    (PlaneReals.mulAdd scaling.bscale (sample.toF64 value) scaling.bzero)
  let identity := fun value => PhysicalSample.ofF64 (sample.toF64 value)
  match scaling.blank.bind sample.integer, scaling.isIdentity with
  | none, true => .ok (out ++ samples.map identity)
  | none, false => .ok (out ++ samples.map affine)
  | some blank, true =>
    .ok (out ++ samples.map fun value =>
      if sample.same value blank then PhysicalSample.nan else identity value)
  | some blank, false =>
    .ok (out ++ samples.map fun value =>
      if sample.same value blank then PhysicalSample.nan else affine value)

/-- Decode big-endian bytes into `count` places of a block from `len` on. -/
def decodeAt (block : List τ) (len count : ℕ) (bytes : List UInt8) : Outcome (List τ) := do
  let dst ← subslice block len count
  let decoded ← sample.decodeBe bytes dst
  copySlice block len decoded 0 count

/-- Scale a chunk of big-endian samples through the block. -/
def scaleChunk (s : List τ × List β) (bytes : List UInt8) : Outcome (List τ × List β) := do
  let count := bytes.length / sample.size
  let block ← sample.decodeAt s.1 0 count bytes
  let decoded ← subslice block 0 count
  let out ← sample.extendPhysical scaling decoded s.2
  .ok (block, out)

/-- `bytes.chunks(size)`. -/
def byteChunks (size : ℕ) (bytes : List UInt8) : List (List UInt8) :=
  (List.range ((bytes.length + size - 1) / size)).map (chunk bytes size)

/-- Append the physical values of big-endian samples. -/
def extendPhysicalBe (bytes : List UInt8) (out : List β) : Outcome (List β) := do
  debugAssert (bytes.length % sample.size = 0)
  reserve (PhysicalSample.width β) out.length (bytes.length / sample.size)
  let s ← (byteChunks (blockSamples * sample.size) bytes).foldlM (sample.scaleChunk scaling)
    (List.replicate blockSamples sample.zero, out)
  .ok s.2

/-- The block that the samples of cells gather in, and the values written before them. -/
structure CellBlock (τ β : Type) where
  block : List τ
  len : ℕ
  out : List β
  room : len < blockSamples

theorem blockSamples_pos : 0 < blockSamples := by decide

/-- Decode `count` samples after those gathered: a block that fills is scaled. -/
def fill (s : CellBlock τ β) (bytes : List UInt8) (count : ℕ) : Outcome (CellBlock τ β) := do
  let block ← sample.decodeAt s.block s.len count bytes
  if s.len + count = blockSamples then do
    let out ← sample.extendPhysical scaling block s.out
    .ok ⟨block, 0, out, blockSamples_pos⟩
  else if hroom : s.len + count < blockSamples then
    .ok ⟨block, s.len + count, s.out, hroom⟩
  else
    abort .indexOutOfBounds

omit [PlaneReals R] [PhysicalSample R β] in
theorem take_pos {s : CellBlock τ β} {cell : List UInt8} (hcell : ¬cell = []) :
    0 < min ((blockSamples - s.len) * sample.size) cell.length := by
  have hblock : 0 < (blockSamples - s.len) * sample.size :=
    Nat.mul_pos (Nat.sub_pos_of_lt s.room) sample.size_pos
  have hlength := List.length_pos_iff.mpr hcell
  omega

/-- The samples of a cell, as many at a time as the block has room for. -/
def fillRest (s : CellBlock τ β) (cell : List UInt8) : Outcome (CellBlock τ β) :=
  if _hcell : cell = [] then
    .ok s
  else do
    let take := min ((blockSamples - s.len) * sample.size) cell.length
    let next ← sample.fill scaling s (cell.take take) (take / sample.size)
    fillRest next (cell.drop take)
termination_by cell.length
decreasing_by
  have htake := sample.take_pos _hcell (s := s)
  rw [List.length_drop]
  omega

/-- The samples of a cell. A cell of one sample is taken whole. -/
def fillCell (s : CellBlock τ β) (cell : List UInt8) : Outcome (CellBlock τ β) := do
  debugAssert (cell.length % sample.size = 0)
  if cell.length = sample.size then
    sample.fill scaling s cell 1
  else
    sample.fillRest scaling s cell

/-- Append the physical values of the big-endian samples of cells. -/
def extendPhysicalBeCells (cells : List (List UInt8)) (out : List β) : Outcome (List β) := do
  let s ← cells.foldlM (sample.fillCell scaling)
    ⟨List.replicate blockSamples sample.zero, 0, out, blockSamples_pos⟩
  let block ← subslice s.block 0 s.len
  sample.extendPhysical scaling block s.out

/-! ## One slice -/

variable {sample scaling}

/-- The choice made outside the loop is the one made for each sample. -/
theorem extendPhysical_eq (samples : List τ) (out : List β) :
    sample.extendPhysical scaling samples out = (do
      reserve (PhysicalSample.width β) out.length samples.length
      .ok (out ++ samples.map (sample.physical scaling))) := by
  have hphysical : (sample.physical scaling : τ → β) = fun value =>
      if (scaling.blank.bind sample.integer).any (sample.same · value) then PhysicalSample.nan
      else if scaling.isIdentity then PhysicalSample.ofF64 (sample.toF64 value)
      else PhysicalSample.ofF64
        (PlaneReals.mulAdd scaling.bscale (sample.toF64 value) scaling.bzero) := rfl
  unfold extendPhysical
  rw [hphysical]
  cases scaling.blank.bind sample.integer with
  | none => cases scaling.isIdentity <;> rfl
  | some blank =>
    simp only [Option.any_some, sample.same_comm blank]
    cases scaling.isIdentity <;> rfl

/-- The panic of values that no allocation holds. -/
def Overfull (β : Type) [PhysicalSample R β] (total : ℕ) (fault : Fault) : Prop :=
  fault = .panic .capacityOverflow ∧ ¬total * PhysicalSample.width β ≤ isizeMax

/-- A slice among `total` values. -/
theorem extendPhysical_ends {samples : List τ} {out : List β} {total : ℕ}
    (h : out.length + samples.length ≤ total) :
    Ends (Overfull β total)
      (fun out' => out' = out ++ samples.map (sample.physical scaling) ∧
        (out.length + samples.length) * PhysicalSample.width β ≤ isizeMax)
      (sample.extendPhysical scaling samples out) := by
  rw [extendPhysical_eq, reserve]
  by_cases hfits : (out.length + samples.length) * PhysicalSample.width β ≤ isizeMax
  · rw [if_pos hfits]
    exact ⟨rfl, hfits⟩
  · rw [if_neg hfits]
    exact ⟨rfl, fun hall => hfits ((Nat.mul_le_mul_right _ h).trans hall)⟩

/-! ## Blocks -/

omit [PlaneReals R] [PhysicalSample R β] in
theorem decodeAt_of_le {block : List τ} {len count : ℕ} {bytes : List UInt8}
    (hroom : len + count ≤ block.length) (hbytes : bytes.length = count * sample.size) :
    sample.decodeAt block len count bytes =
      .ok (block.take len ++ sample.ofBe bytes ++ block.drop (len + count)) := by
  have hcount : bytes.length / sample.size = count := by
    rw [hbytes, Nat.mul_div_cancel _ sample.size_pos]
  have hdst : ((block.drop len).take count).length = count := by
    rw [List.length_take, List.length_drop]
    omega
  have hdecoded : (sample.ofBe bytes).length = count := by rw [sample.length_ofBe, hcount]
  rw [decodeAt, subslice_of_le hroom, Loops.bind_ok rfl, Sample.decodeBe, debugAssert,
    if_pos (hdst.trans hcount.symm), Loops.bind_ok rfl, Loops.bind_ok rfl,
    copySlice, if_pos ⟨hroom, by omega⟩, List.drop_zero, List.take_of_length_le hdecoded.le]

omit [PlaneReals R] in
/-- The chunks of whole samples, which fit a block. -/
theorem length_of_mem_byteChunks {bytes part : List UInt8} (hbytes : sample.size ∣ bytes.length)
    (h : part ∈ byteChunks (blockSamples * sample.size) bytes) :
    ∃ count ≤ blockSamples, part.length = count * sample.size := by
  obtain ⟨j, -, rfl⟩ := List.mem_map.mp h
  obtain ⟨n, hn⟩ := hbytes
  have hlength := Chunks.length_chunk bytes (blockSamples * sample.size) j
  have hrest : bytes.length - j * (blockSamples * sample.size) =
      (n - j * blockSamples) * sample.size := by
    rw [hn, Nat.sub_mul, Nat.mul_comm sample.size, Nat.mul_assoc]
  rw [hrest, Nat.mul_min_mul_right] at hlength
  exact ⟨_, Nat.min_le_left _ _, hlength⟩

theorem flatten_byteChunks {size : ℕ} (hsize : 0 < size) (bytes : List UInt8) :
    (byteChunks size bytes).flatten = bytes := by
  refine Chunks.flatten_chunks ?_
  have hceil := Nat.div_add_mod (bytes.length + size - 1) size
  have hmod := Nat.mod_lt (bytes.length + size - 1) hsize
  rw [Nat.mul_comm] at hceil
  omega

/-- A chunk among `total` values. -/
theorem scaleChunk_ends {s : List τ × List β} {bytes : List UInt8} {count total : ℕ}
    (hblock : s.1.length = blockSamples) (hcount : count ≤ blockSamples)
    (hbytes : bytes.length = count * sample.size) (htotal : s.2.length + count ≤ total) :
    Ends (Overfull β total) (fun s' => s'.1.length = blockSamples ∧
        s'.2 = s.2 ++ (sample.ofBe bytes).map (sample.physical scaling))
      (sample.scaleChunk scaling s bytes) := by
  have hdiv : bytes.length / sample.size = count := by
    rw [hbytes, Nat.mul_div_cancel _ sample.size_pos]
  have hdecoded : (sample.ofBe bytes).length = count := by rw [sample.length_ofBe, hdiv]
  rw [scaleChunk, hdiv, decodeAt_of_le (by omega) hbytes, Loops.bind_ok rfl, List.take_zero, List.nil_append,
    Nat.zero_add, subslice_of_le (by rw [List.length_append]; omega), Loops.bind_ok rfl,
    List.drop_zero, List.take_left' hdecoded]
  refine (extendPhysical_ends (by omega)).bind fun out hout => ⟨?_, hout.1⟩
  rw [List.length_append, List.length_drop]
  omega

omit [PlaneReals R] [PhysicalSample R β] in
/-- The samples of parts, of which each holds whole ones. -/
theorem ofBe_flatten_concat {parts done todo : List (List UInt8)} {part : List UInt8}
    (hparts : ∀ part ∈ parts, sample.size ∣ part.length) (hsplit : parts = done ++ part :: todo) :
    sample.ofBe (done ++ [part]).flatten = sample.ofBe done.flatten ++ sample.ofBe part ∧
      (sample.ofBe done.flatten).length + part.length / sample.size ≤
        (sample.ofBe parts.flatten).length := by
  have hdvd : ∀ some : List (List UInt8), (∀ part ∈ some, part ∈ parts) →
      sample.size ∣ some.flatten.length := by
    intro some hsome
    rw [List.length_flatten]
    refine List.dvd_sum fun n hn => ?_
    obtain ⟨part, hpart, rfl⟩ := List.mem_map.mp hn
    exact hparts part (hsome part hpart)
  have hdone := hdvd done fun part hpart => hsplit ▸ List.mem_append_left _ hpart
  have hpart : sample.size ∣ part.length :=
    hparts part (hsplit ▸ List.mem_append_right _ List.mem_cons_self)
  refine ⟨?_, ?_⟩
  · rw [List.flatten_append, List.flatten_singleton, sample.ofBe_append hdone]
  · rw [hsplit, List.flatten_append, List.flatten_cons, sample.ofBe_append hdone,
      sample.ofBe_append hpart, List.length_append, List.length_append, sample.length_ofBe part]
    omega

/-- The values of `bytes` after `out`, or the panic of as many. -/
def expected (sample : ScaledSample R τ) (scaling : Scaling R) (bytes : List UInt8)
    (out : List β) : Outcome (List β) := do
  reserve (PhysicalSample.width β) out.length (bytes.length / sample.size)
  .ok (out ++ (sample.ofBe bytes).map (sample.physical scaling))

/-- A run whose only fault is that of too many values. -/
theorem eq_expected {bytes : List UInt8} {out : List β} {run : Outcome (List β)}
    (h : Ends (Overfull β (out.length + bytes.length / sample.size))
      (fun out' => out' = out ++ (sample.ofBe bytes).map (sample.physical scaling) ∧
        (out.length + bytes.length / sample.size) * PhysicalSample.width β ≤ isizeMax) run) :
    run = expected sample scaling bytes out := by
  unfold expected reserve
  cases run with
  | error fault =>
    obtain ⟨rfl, hfull⟩ := h
    rw [if_neg hfull]
    rfl
  | ok out' =>
    obtain ⟨rfl, hfits⟩ := h
    rw [if_pos hfits]
    rfl

theorem extendPhysicalBe_eq {bytes : List UInt8} (hbytes : sample.size ∣ bytes.length)
    (out : List β) :
    sample.extendPhysicalBe scaling bytes out = expected sample scaling bytes out := by
  refine eq_expected ?_
  have hpos := Nat.mul_pos blockSamples_pos sample.size_pos
  have hflat := flatten_byteChunks hpos bytes
  have hdvd : ∀ part ∈ byteChunks (blockSamples * sample.size) bytes, sample.size ∣ part.length := by
    intro part hpart
    obtain ⟨count, -, hcount⟩ := length_of_mem_byteChunks hbytes hpart
    exact ⟨count, by rw [hcount, Nat.mul_comm]⟩
  unfold extendPhysicalBe
  rw [debugAssert, if_pos (Nat.mod_eq_zero_of_dvd hbytes), Loops.bind_ok rfl, reserve]
  by_cases hfits : (out.length + bytes.length / sample.size) * PhysicalSample.width β ≤ isizeMax
  · rw [if_pos hfits, Loops.bind_ok rfl]
    refine Ends.bind (Ends.foldlM_prefix (P := fun done s => s.1.length = blockSamples ∧
      s.2 = out ++ (sample.ofBe done.flatten).map (sample.physical scaling)) ?_ ?_) ?_
    · exact ⟨List.length_replicate, by simp [Sample.ofBe]⟩
    · rintro done part todo s hsplit ⟨hblock, hout⟩
      obtain ⟨hconcat, hlength⟩ := ofBe_flatten_concat hdvd hsplit
      obtain ⟨count, hcount, hpart⟩ := length_of_mem_byteChunks hbytes
        (hsplit ▸ List.mem_append_right done List.mem_cons_self)
      have hdiv : part.length / sample.size = count := by
        rw [hpart, Nat.mul_div_cancel _ sample.size_pos]
      rw [hflat, hdiv, sample.length_ofBe bytes] at hlength
      refine (scaleChunk_ends hblock hcount hpart ?_).mono fun s' hs' => ⟨hs'.1, ?_⟩
      · rw [hout, List.length_append, List.length_map]
        omega
      · rw [hs'.2, hout, hconcat, List.map_append, List.append_assoc]
    · rintro s ⟨-, hout⟩
      rw [hflat] at hout
      exact ⟨hout, hfits⟩
  · rw [if_neg hfits]
    exact ⟨rfl, hfits⟩

/-! ## Cells -/

/-- The values written, and those of the samples gathered. -/
def CellBlock.values (sample : ScaledSample R τ) (scaling : Scaling R) (s : CellBlock τ β) : List β :=
  s.out ++ (s.block.take s.len).map (sample.physical scaling)

/-- `bytes` have been taken after `out`. -/
structure Gathered (sample : ScaledSample R τ) (scaling : Scaling R) (out : List β)
    (bytes : List UInt8) (s : CellBlock τ β) : Prop where
  length_block : s.block.length = blockSamples
  values : s.values sample scaling = out ++ (sample.ofBe bytes).map (sample.physical scaling)

variable {s : CellBlock τ β} {out : List β} {bytes cell : List UInt8} {count total : ℕ}

theorem Gathered.length (h : Gathered sample scaling out bytes s) :
    s.out.length + s.len = out.length + (sample.ofBe bytes).length := by
  have hlength := congrArg List.length h.values
  have hblock := h.length_block
  have hroom := s.room
  rw [CellBlock.values, List.length_append, List.length_map, List.length_take, List.length_append,
    List.length_map] at hlength
  omega

/-- Samples that the block has room for. -/
theorem Gathered.fill (h : Gathered sample scaling out bytes s) (hbytes : sample.size ∣ bytes.length)
    (hcell : cell.length = count * sample.size) (hroom : s.len + count ≤ blockSamples)
    (htotal : out.length + (sample.ofBe bytes).length + count ≤ total) :
    Ends (Overfull β total) (Gathered sample scaling out (bytes ++ cell))
      (sample.fill scaling s cell count) := by
  have hlength := h.length
  have hblock := h.length_block
  have hcount : (sample.ofBe cell).length = count := by
    rw [sample.length_ofBe, hcell, Nat.mul_div_cancel _ sample.size_pos]
  have hfront : (s.block.take s.len ++ sample.ofBe cell).length = s.len + count := by
    rw [List.length_append, List.length_take, hcount]
    omega
  have hvalues : s.out ++ (s.block.take s.len ++ sample.ofBe cell).map (sample.physical scaling) =
      out ++ (sample.ofBe (bytes ++ cell)).map (sample.physical scaling) := by
    have h := h.values
    rw [CellBlock.values] at h
    rw [sample.ofBe_append hbytes, List.map_append, List.map_append, ← List.append_assoc, h,
      List.append_assoc]
  unfold ScaledSample.fill
  rw [decodeAt_of_le (by omega) hcell, Loops.bind_ok rfl]
  by_cases hfull : s.len + count = blockSamples
  · rw [if_pos hfull, List.drop_of_length_le (by omega), List.append_nil]
    refine (extendPhysical_ends (by omega)).bind fun out' hout' => ⟨hfront.trans hfull, ?_⟩
    rw [CellBlock.values, hout'.1, List.take_zero, List.map_nil, List.append_nil, hvalues]
  · rw [if_neg hfull, dif_pos (by omega)]
    refine ⟨?_, ?_⟩
    · rw [List.length_append, hfront, List.length_drop]
      omega
    · rw [CellBlock.values]
      dsimp only
      rw [List.take_left' hfront, hvalues]

/-- The samples of a cell, however they fall into blocks. -/
theorem Gathered.fillRest (h : Gathered sample scaling out bytes s)
    (hbytes : sample.size ∣ bytes.length) (hcell : cell.length = count * sample.size)
    (htotal : out.length + (sample.ofBe bytes).length + count ≤ total) :
    Ends (Overfull β total) (Gathered sample scaling out (bytes ++ cell))
      (sample.fillRest scaling s cell) := by
  have hsize := sample.size_pos
  induction count using Nat.strong_induction_on generalizing s bytes cell with
  | _ count ih =>
    rw [ScaledSample.fillRest]
    by_cases hempty : cell = []
    · rw [dif_pos hempty, hempty, List.append_nil]
      exact h
    rw [dif_neg hempty]
    dsimp only
    have hroom := s.room
    have hpos : 0 < count := by
      refine Nat.pos_of_ne_zero ?_
      rintro rfl
      exact hempty (List.length_eq_zero_iff.mp (by simpa using hcell))
    -- As many samples as the block has room for, at least one.
    obtain ⟨k, hk⟩ : ∃ k, k = min (blockSamples - s.len) count := ⟨_, rfl⟩
    have htake : min ((blockSamples - s.len) * sample.size) cell.length = k * sample.size := by
      rw [hcell, hk, Nat.mul_min_mul_right]
    have hle : k * sample.size ≤ cell.length := by
      rw [hcell]
      exact Nat.mul_le_mul_right _ (by omega)
    have hpart : (cell.take (k * sample.size)).length = k * sample.size := by
      rw [List.length_take, Nat.min_eq_left hle]
    rw [htake, Nat.mul_div_cancel _ hsize]
    refine (h.fill hbytes hpart (by omega) (by omega)).bind fun next hnext => ?_
    have hlater : sample.size ∣ (bytes ++ cell.take (k * sample.size)).length := by
      rw [List.length_append, hpart]
      exact Nat.dvd_add hbytes (Dvd.intro_left k rfl)
    have hcount : (sample.ofBe (bytes ++ cell.take (k * sample.size))).length =
        (sample.ofBe bytes).length + k := by
      rw [sample.ofBe_append hbytes, List.length_append, sample.length_ofBe (cell.take _), hpart,
        Nat.mul_div_cancel _ hsize]
    have hrest : (cell.drop (k * sample.size)).length = (count - k) * sample.size := by
      rw [List.length_drop, hcell, Nat.sub_mul]
    have hend := ih (count - k) (by omega) hnext hlater hrest (by omega)
    rwa [List.append_assoc, List.take_append_drop] at hend

theorem Gathered.fillCell (h : Gathered sample scaling out bytes s)
    (hbytes : sample.size ∣ bytes.length) (hcell : sample.size ∣ cell.length)
    (htotal : out.length + (sample.ofBe bytes).length + cell.length / sample.size ≤ total) :
    Ends (Overfull β total) (Gathered sample scaling out (bytes ++ cell))
      (sample.fillCell scaling s cell) := by
  have hroom := s.room
  have hcount := (Nat.div_mul_cancel hcell).symm
  unfold ScaledSample.fillCell
  rw [debugAssert, if_pos (Nat.mod_eq_zero_of_dvd hcell), Loops.bind_ok rfl]
  by_cases hone : cell.length = sample.size
  · rw [if_pos hone]
    rw [hone, Nat.div_self sample.size_pos] at htotal
    exact h.fill hbytes (by rw [hone, Nat.one_mul]) (by omega) htotal
  · rw [if_neg hone]
    exact h.fillRest hbytes hcount htotal

/-- The cells' samples come out in order, with the block that is left last. -/
theorem extendPhysicalBeCells_eq {cells : List (List UInt8)}
    (hcells : ∀ cell ∈ cells, sample.size ∣ cell.length) (out : List β) :
    sample.extendPhysicalBeCells scaling cells out = expected sample scaling cells.flatten out := by
  refine eq_expected ?_
  unfold extendPhysicalBeCells
  refine Ends.bind (Ends.foldlM_prefix (P := fun done s => sample.size ∣ done.flatten.length ∧
    Gathered sample scaling out done.flatten s) ?_ ?_) ?_
  · exact ⟨dvd_zero _, List.length_replicate, by simp [CellBlock.values, Sample.ofBe]⟩
  · rintro done cell todo s hsplit ⟨hdvd, hgathered⟩
    obtain ⟨-, hlength⟩ := ofBe_flatten_concat hcells hsplit
    have hcell := hcells cell (hsplit ▸ List.mem_append_right done List.mem_cons_self)
    rw [sample.length_ofBe cells.flatten] at hlength
    refine (hgathered.fillCell hdvd hcell (by omega)).mono fun s' hs' => ?_
    rw [List.flatten_append, List.flatten_singleton, List.length_append]
    exact ⟨Nat.dvd_add hdvd hcell, hs'⟩
  · rintro s ⟨-, hgathered⟩
    have hlength := hgathered.length
    have hroom := s.room
    have hblock := hgathered.length_block
    rw [sample.length_ofBe] at hlength
    have htake : (s.block.take s.len).length = s.len := by
      rw [List.length_take]
      omega
    rw [subslice_of_le (by omega), Loops.bind_ok rfl, List.drop_zero]
    refine (extendPhysical_ends (by omega)).mono fun out' hout' => ?_
    rw [htake, hlength] at hout'
    exact ⟨hout'.1.trans hgathered.values, hout'.2⟩

end ScaledSample

/-- Cells of whole samples, their bytes joined, and their samples one by one scale to the same
values in the same order, after whatever is there already. -/
theorem scaling_paths_agree [PlaneReals R] [PhysicalSample R β] (sample : ScaledSample R τ)
    (scaling : Scaling R) {cells : List (List UInt8)}
    (hcells : ∀ cell ∈ cells, cell.length % sample.size = 0) (out : List β) :
    sample.extendPhysicalBeCells scaling cells out =
        sample.extendPhysicalBe scaling cells.flatten out ∧
      sample.extendPhysicalBe scaling cells.flatten out = (do
        reserve (PhysicalSample.width β) out.length (sample.ofBe cells.flatten).length
        .ok (out ++ (sample.ofBe cells.flatten).map (sample.physical scaling))) := by
  have hdvd : ∀ cell ∈ cells, sample.size ∣ cell.length := fun cell hcell =>
    Nat.dvd_of_mod_eq_zero (hcells cell hcell)
  have hflat : sample.size ∣ cells.flatten.length := by
    rw [List.length_flatten]
    refine List.dvd_sum fun n hn => ?_
    obtain ⟨cell, hcell, rfl⟩ := List.mem_map.mp hn
    exact hdvd cell hcell
  have hbe : sample.extendPhysicalBe scaling cells.flatten out =
      ScaledSample.expected sample scaling cells.flatten out := ScaledSample.extendPhysicalBe_eq hflat out
  refine ⟨(ScaledSample.extendPhysicalBeCells_eq hdvd out).trans hbe.symm, hbe.trans ?_⟩
  rw [sample.length_ofBe]
  rfl

/-- Two-byte samples that scale, by the integers that they hold. -/
def scaledShorts : ScaledSample ℤ ℕ where
  toSample := PlainRead.shorts
  same a b := a == b
  integer value := if 0 ≤ value ∧ value < 2 ^ 16 then some value.toNat else none
  toF64 value := value
  same_comm _ _ := Bool.beq_comm

/-- Cells of one sample, of none and of two, with a null among them. -/
theorem scaling_paths_agree_shorts :
    (scaledShorts.extendPhysicalBeCells ⟨2, 1, some 7⟩ [[0, 1], [], [0, 7, 1, 0]] [some 9] :
        Outcome (List (Option ℤ))) =
      scaledShorts.extendPhysicalBe ⟨2, 1, some 7⟩ [0, 1, 0, 7, 1, 0] [some 9] ∧
    (scaledShorts.extendPhysicalBe ⟨2, 1, some 7⟩ [0, 1, 0, 7, 1, 0] [some 9] :
        Outcome (List (Option ℤ))) = .ok [some 9, some 3, none, some 513] := by
  have hagree := @scaling_paths_agree ℤ ℕ (Option ℤ) _ _ scaledShorts ⟨2, 1, some 7⟩
    [[0, 1], [], [0, 7, 1, 0]] (by decide +kernel) [some 9]
  exact ⟨hagree.1, hagree.2.trans (by decide +kernel)⟩

end FitsWell
