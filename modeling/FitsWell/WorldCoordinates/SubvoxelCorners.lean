import FitsWell.WorldCoordinates.SubvoxelSearch
import FitsWell.WorldCoordinates.TabularCorners

/-!
# The corners of a voxel

Interpolating between the corners of a cell, one axis after another and in place, leaves at each
corner of a voxel the interpolation there.
-/

namespace FitsWell

open scoped Halves

variable {n : ℕ} {K : Type}

namespace SubvoxelSearch

variable [Field K]

/-! ## One axis -/

/-- Interpolating between disjoint pairs of corners changes each of them once. -/
theorem foldl_mixCorners {lower upper : K} {stride : ℕ} {lowers : List ℕ} (hnodup : lowers.Nodup)
    (hdisjoint : ∀ v ∈ lowers, ∀ w ∈ lowers, v ≠ w + stride) (hstride : 0 < stride)
    (corners : ℕ → Fin n → K) :
    let mixed := lowers.foldl
      (fun corners v => mixCorners lower upper corners v (v + stride)) corners
    (∀ v ∈ lowers, mixed v = (fun axis =>
        corners v axis * (1 - lower) + corners (v + stride) axis * lower) ∧
      mixed (v + stride) = fun axis =>
        corners v axis * (1 - upper) + corners (v + stride) axis * upper) ∧
      ∀ v, v ∉ lowers → (∀ w ∈ lowers, v ≠ w + stride) → mixed v = corners v := by
  induction lowers generalizing corners with
  | nil => exact ⟨nofun, fun _ _ _ => rfl⟩
  | cons first lowers ih =>
    obtain ⟨hnot, hnodup⟩ := List.nodup_cons.mp hnodup
    have hself : first ≠ first + stride := by omega
    have hrest : ∀ v, v ≠ first → v ≠ first + stride →
        mixCorners lower upper corners first (first + stride) v = corners v := by
      intro v hlower hupper
      unfold mixCorners
      rw [Function.update_of_ne hupper, Function.update_of_ne hlower]
    obtain ⟨hmixed, hother⟩ := ih hnodup (fun v hv w hw => hdisjoint v (List.mem_cons_of_mem _ hv) w
      (List.mem_cons_of_mem _ hw)) (mixCorners lower upper corners first (first + stride))
    dsimp only
    rw [List.foldl_cons]
    refine ⟨fun v hv => ?_, fun v hv hw => ?_⟩
    · rcases List.mem_cons.mp hv with rfl | hmem
      · have hfirst := hother v hnot fun w hw =>
          hdisjoint v List.mem_cons_self w (List.mem_cons_of_mem _ hw)
        have hlast := hother (v + stride) (fun hin => hdisjoint (v + stride)
          (List.mem_cons_of_mem _ hin) v List.mem_cons_self rfl) fun w hw heq =>
            hnot (Nat.add_right_cancel heq ▸ hw)
        rw [hfirst, hlast]
        unfold mixCorners
        rw [Function.update_of_ne hself, Function.update_self, Function.update_self]
        exact ⟨rfl, rfl⟩
      · have hne : v ≠ first := ne_of_mem_of_not_mem hmem hnot
        have hv' := hrest v hne (hdisjoint v hv first List.mem_cons_self)
        have hw' := hrest (v + stride)
          (Ne.symm (hdisjoint first List.mem_cons_self v hv)) (by omega)
        obtain ⟨hfirst, hlast⟩ := hmixed v hmem
        rw [hfirst, hlast, hv', hw']
        exact ⟨rfl, rfl⟩
    · rw [hother v (fun hin => hv (List.mem_cons_of_mem _ hin)) fun w hin =>
        hw w (List.mem_cons_of_mem _ hin)]
      exact hrest v (fun heq => hv (heq ▸ List.mem_cons_self)) (hw first List.mem_cons_self)

/-- The corners on the lower side of an axis, in the order of the loop. -/
def lowerCorners (count bit : ℕ) : List ℕ :=
  (List.range ((count + 2 * 2 ^ bit - 1) / (2 * 2 ^ bit))).flatMap fun j =>
    (List.range (2 ^ bit)).map fun offset => j * (2 * 2 ^ bit) + offset

theorem mem_lowerCorners {m bit v : ℕ} (hbit : bit < m) :
    v ∈ lowerCorners (2 ^ m) bit ↔ v < 2 ^ m ∧ v.testBit bit = false := by
  have hpos := Nat.two_pow_pos bit
  obtain ⟨k, rfl⟩ := Nat.exists_eq_add_of_lt hbit
  have hcount : 2 ^ (bit + k + 1) = 2 ^ k * (2 * 2 ^ bit) := by
    rw [Nat.pow_succ, Nat.pow_add]
    ring
  have hblocks : (2 ^ (bit + k + 1) + 2 * 2 ^ bit - 1) / (2 * 2 ^ bit) = 2 ^ k := by
    rw [hcount]
    have hnext := Nat.succ_mul (2 ^ k) (2 * 2 ^ bit)
    refine Nat.div_eq_of_lt_le ?_ ?_
    · omega
    · rw [← Nat.succ_eq_add_one, hnext]
      omega
  unfold lowerCorners
  rw [hblocks, hcount, Multilinear.testBit_eq_false_iff]
  simp only [List.mem_flatMap, List.mem_range, List.mem_map]
  constructor
  · rintro ⟨j, hj, offset, hoffset, rfl⟩
    refine ⟨?_, ?_⟩
    · calc j * (2 * 2 ^ bit) + offset < j * (2 * 2 ^ bit) + 2 * 2 ^ bit := by omega
        _ = (j + 1) * (2 * 2 ^ bit) := (Nat.succ_mul _ _).symm
        _ ≤ 2 ^ k * (2 * 2 ^ bit) := Nat.mul_le_mul_right _ hj
    · rw [Nat.mul_comm, Nat.mul_add_mod, Nat.mod_eq_of_lt (by omega)]
      exact hoffset
  · rintro ⟨hlt, hlower⟩
    refine ⟨v / (2 * 2 ^ bit), (Nat.div_lt_iff_lt_mul (by omega)).mpr hlt, v % (2 * 2 ^ bit), hlower,
      ?_⟩
    rw [Nat.mul_comm]
    exact Nat.div_add_mod _ _

theorem nodup_lowerCorners (count bit : ℕ) : (lowerCorners count bit).Nodup := by
  have hpos := Nat.two_pow_pos bit
  refine List.nodup_flatMap.mpr ⟨fun j _ => ?_, ?_⟩
  · exact List.nodup_range.map fun first second heq => Nat.add_left_cancel heq
  · refine List.pairwise_lt_range.imp fun {first second} hlt v hfirst hsecond => ?_
    obtain ⟨offset, hoffset, rfl⟩ := List.mem_map.mp hfirst
    obtain ⟨other, hother, heq⟩ := List.mem_map.mp hsecond
    rw [List.mem_range] at hoffset hother
    have hle := Nat.mul_le_mul_right (2 * 2 ^ bit) (Nat.succ_le_of_lt hlt)
    rw [Nat.succ_mul] at hle
    omega

variable [LinearOrder K] {table : TabularTable n K}

/-- Interpolating along an axis, at each corner of the cell. -/
theorem mixAxis_eq {lower upper : K} {bit : ℕ} (hbit : bit < table.variableAxes.length)
    (corners : ℕ → Fin n → K) {v : ℕ} (hv : v < table.vertexCount) (hlower : v.testBit bit = false) :
    mixAxis table lower upper bit corners v =
        (fun axis => corners v axis * (1 - lower) + corners (v + 2 ^ bit) axis * lower) ∧
      mixAxis table lower upper bit corners (v + 2 ^ bit) =
        fun axis => corners v axis * (1 - upper) + corners (v + 2 ^ bit) axis * upper := by
  have hloop : mixAxis table lower upper bit corners =
      (lowerCorners table.vertexCount bit).foldl
        (fun corners v => mixCorners lower upper corners v (v + 2 ^ bit)) corners := by
    unfold mixAxis lowerCorners
    rw [List.foldl_flatMap]
    simp only [List.foldl_map]
  have hmixed := (@foldl_mixCorners n K _ lower upper _ _
    (nodup_lowerCorners table.vertexCount bit) (fun v hv w hw heq => ?_) (Nat.two_pow_pos bit)
    corners).1 v ((mem_lowerCorners hbit).mpr ⟨hv, hlower⟩)
  · rw [hloop]
    exact hmixed
  · have hw' := ((mem_lowerCorners hbit).mp hw).2
    have hv' := ((mem_lowerCorners hbit).mp hv).2
    rw [heq, Multilinear.testBit_add_two_pow hw', if_pos rfl] at hv'
    cases hv'

end SubvoxelSearch

end FitsWell
