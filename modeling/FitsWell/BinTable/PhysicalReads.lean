import FitsWell.BinTable.ColumnReads

/-!
# The physical values of a column's cells

The blocks that samples gather in do not show in the values: those written and those
gathered are the physical values of the samples read so far, in order.
-/

namespace FitsWell

open Chunks

variable {R σ τ : Type} [PlaneReals R] [PhysicalSample R τ] {scaling : Scaling R}
  {bitpix : Bitpix}

namespace Scaling

/-- The values written, and those of the samples gathered. -/
def Gather.values (scaling : Scaling R) (bitpix : Bitpix) (gather : Gather τ) : List τ :=
  gather.out ++ gather.block.map (scaling.physical bitpix)

theorem Gather.length_values (scaling : Scaling R) (bitpix : Bitpix) (gather : Gather τ) :
    (gather.values scaling bitpix).length = gather.out.length + gather.block.length := by
  rw [Gather.values, List.length_append, List.length_map]

theorem extendPhysical_of_le {samples : List (List UInt8)} {out : List τ}
    (h : (out.length + samples.length) * PhysicalSample.width τ ≤ isizeMax) :
    scaling.extendPhysical bitpix samples out =
      .ok (out ++ samples.map (scaling.physical bitpix)) := by
  rw [extendPhysical, reserve, if_pos h]
  rfl

/-- Samples that the block has room for come after those gathered. -/
theorem pushSamples_run (scaling : Scaling R) (bitpix : Bitpix) (gather : Gather τ)
    (samples : List (List UInt8))
    (hroom : gather.block.length + samples.length ≤ blockSamples)
    (hfits : ((gather.values scaling bitpix).length + samples.length) * PhysicalSample.width τ ≤
      isizeMax) :
    ∃ next : Gather τ, scaling.pushSamples bitpix gather samples = .ok next ∧
      next.values scaling bitpix =
        gather.values scaling bitpix ++ samples.map (scaling.physical bitpix) := by
  unfold pushSamples
  rw [Gather.length_values scaling, Nat.add_assoc, ← List.length_append] at hfits
  rw [← List.length_append] at hroom
  by_cases hlt : (gather.block ++ samples).length < blockSamples
  · refine ⟨_, dif_pos hlt, ?_⟩
    simp [Gather.values]
  · have hfull : (gather.block ++ samples).length = blockSamples := by omega
    rw [dif_neg hlt, if_pos hfull, extendPhysical_of_le hfits]
    refine ⟨_, rfl, ?_⟩
    simp [Gather.values]

/-- The samples of a cell come after those gathered. -/
theorem gatherCell_run (scaling : Scaling R) (gather : Gather τ) {cell : List UInt8} {n : ℕ}
    (hcell : cell.length = n * bitpix.elemSize)
    (hfits : ((gather.values scaling bitpix).length + n) * PhysicalSample.width τ ≤ isizeMax) :
    ∃ next : Gather τ, scaling.gatherCell bitpix gather cell = .ok next ∧
      next.values scaling bitpix = gather.values scaling bitpix ++
        (wholeChunks (bitpix.elemSize - 1) cell).map (scaling.physical bitpix) := by
  have hsize := bitpix.elemSize_pos
  induction n using Nat.strong_induction_on generalizing gather cell with
  | _ n ih =>
    rw [gatherCell]
    by_cases hempty : cell = []
    · subst hempty
      have hnil : wholeChunks (bitpix.elemSize - 1) ([] : List UInt8) = [] := by
        rw [wholeChunks]
        exact if_neg (by simp)
      exact ⟨gather, dif_pos rfl, by rw [hnil]; simp⟩
    · rw [dif_neg hempty]
      have hn : 0 < n := by
        apply Nat.pos_of_ne_zero
        rintro rfl
        exact hempty (List.length_eq_zero_iff.mp (by simpa using hcell))
      have hroom := gather.room
      -- As many samples as the block has room for, at least one.
      obtain ⟨k, hk⟩ : ∃ k, k = min (blockSamples - gather.block.length) n := ⟨_, rfl⟩
      have htake : min ((blockSamples - gather.block.length) * bitpix.elemSize) cell.length =
          k * bitpix.elemSize := by
        rw [hcell, hk, Nat.mul_min_mul_right]
      rw [htake]
      have hle : k * bitpix.elemSize ≤ cell.length := by
        rw [hcell]
        exact Nat.mul_le_mul_right _ (by omega)
      have hhead : (wholeChunks (bitpix.elemSize - 1) (cell.take (k * bitpix.elemSize))).length =
          k := by
        rw [length_wholeChunks hsize, List.length_take, Nat.min_eq_left hle,
          Nat.mul_div_cancel _ hsize]
      have hlater : ((gather.values scaling bitpix).length + k) * PhysicalSample.width τ ≤
          isizeMax := le_trans (Nat.mul_le_mul_right _ (by omega)) hfits
      obtain ⟨next, hnext, hvalues⟩ := pushSamples_run scaling bitpix gather
        (wholeChunks (bitpix.elemSize - 1) (cell.take (k * bitpix.elemSize)))
        (by omega) (by rw [hhead]; exact hlater)
      have hrest : (cell.drop (k * bitpix.elemSize)).length = (n - k) * bitpix.elemSize := by
        rw [List.length_drop, hcell, Nat.sub_mul]
      have hcount : (next.values scaling bitpix).length =
          (gather.values scaling bitpix).length + k := by
        rw [hvalues, List.length_append, List.length_map, hhead]
      obtain ⟨last, hlast, hend⟩ := ih (n - k) (by omega) next hrest (by
        rw [hcount, Nat.add_assoc, Nat.add_sub_cancel' (by omega)]
        exact hfits)
      refine ⟨last, ?_, ?_⟩
      · dsimp only
        rw [hnext, Loops.bind_ok rfl, hlast]
      · rw [hend, hvalues, List.append_assoc, ← List.map_append,
          ← wholeChunks_take_drop cell hsize hle]

end Scaling

variable {next : CellSource σ} {rows : List ℕ} {cellOf : ℕ → Cell} {I : List ℕ → σ → Prop}
  {start : σ}

theorem cellElements_append (size : ℕ) (cellOf : ℕ → Cell) (front back : List ℕ) :
    cellElements size cellOf (front ++ back) =
      cellElements size cellOf front ++ cellElements size cellOf back :=
  List.flatMap_append

theorem extendCell_run (scaling : Scaling R) (h : Gives next rows cellOf I start)
    (hwhole : WholeElements bitpix.elemSize cellOf rows) {out : List τ}
    (hfits : (out.length + (cellElements bitpix.elemSize cellOf rows).length) *
      PhysicalSample.width τ ≤ isizeMax) :
    ∃ s', rows.foldlM (scaling.extendCell bitpix next)
        (start, ({ block := [], out := out, room := by decide } : Scaling.Gather τ)) = .ok s' ∧
      s'.2.values scaling bitpix = out ++
        (cellElements bitpix.elemSize cellOf rows).map (scaling.physical bitpix) ∧ I rows s'.1 := by
  apply Loops.foldlM_total (P := fun (done : List ℕ) (s : σ × Scaling.Gather τ) => s.2.values scaling bitpix = out ++
    (cellElements bitpix.elemSize cellOf done).map (scaling.physical bitpix) ∧ I done s.1)
  · exact ⟨by simp [Scaling.Gather.values, cellElements], h.starts⟩
  · rintro done row todo hrows s ⟨hvalues, hI⟩
    obtain ⟨s', hnext, hI'⟩ := h.gives done row todo hrows s.1 hI
    have hcell := hwhole row (mem_of_split hrows)
    have hmod : (cellOf row).bytes.length % bitpix.elemSize = 0 := by
      rw [hcell, Nat.mul_mod_left]
    have hchunks := length_wholeChunks bitpix.elemSize_pos (cellOf row).bytes
    rw [hcell, Nat.mul_div_cancel _ bitpix.elemSize_pos] at hchunks
    -- The samples so far and the row's are among all rows' samples.
    have hsome : (s.2.values scaling bitpix).length + (cellOf row).count ≤
        out.length + (cellElements bitpix.elemSize cellOf rows).length := by
      rw [hvalues, hrows, List.append_cons, cellElements_append, cellElements_concat]
      simp only [List.length_append, List.length_map, hchunks]
      omega
    obtain ⟨gather, hgather, hlater⟩ := Scaling.gatherCell_run scaling s.2 hcell
      (le_trans (Nat.mul_le_mul_right _ hsome) hfits)
    refine ⟨(s', gather), ?_, ?_, hI'⟩
    · rw [Scaling.extendCell, hnext, Loops.bind_ok rfl, debugAssert, if_pos hmod,
        Loops.bind_ok rfl, hgather]
      rfl
    · rw [hlater, hvalues, cellElements_concat, List.map_append, List.append_assoc]

/-- The cells of a numeric column decode to their physical values. -/
theorem decodePhysical_returns (h : Gives next rows cellOf I start) {kind : ElementKind}
    (hbitpix : kind.bitpix = some bitpix) (hwhole : WholeElements bitpix.elemSize cellOf rows)
    {capacity : ℕ} (hcapacity : (cellElements bitpix.elemSize cellOf rows).length = capacity)
    (out : List τ) :
    Returns (fun decoded => decoded.2 = out ++
        (cellElements bitpix.elemSize cellOf rows).map (scaling.physical bitpix) ∧
      I rows decoded.1) (kind.decodePhysical scaling next start rows capacity out) := by
  unfold ElementKind.decodePhysical
  rw [hbitpix]
  apply Loops.Ends.bind (returns_tryReserve (PhysicalSample.width τ) out.length capacity)
  intro _ hfits
  rw [← hcapacity] at hfits
  obtain ⟨s', hrun, hvalues, hI⟩ := extendCell_run scaling h hwhole hfits
  have hlast : (s'.2.out.length + s'.2.block.length) * PhysicalSample.width τ ≤ isizeMax := by
    rw [← Scaling.Gather.length_values scaling bitpix, hvalues,
      List.length_append, List.length_map]
    exact hfits
  rw [hrun, Loops.bind_ok rfl, Scaling.extendPhysical_of_le hlast, Loops.bind_ok rfl]
  exact ⟨hvalues, hI⟩

end FitsWell
