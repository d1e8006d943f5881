import FitsWell.Compression.ImageDecode
import FitsWell.Library.Lockstep

/-!
# Waves decode tile by tile

A wave decodes its tiles into slots of one buffer and scatters them afterwards. Where the
scatter of a decoded tile always succeeds, that is one pass over the tiles, each decoded
and scattered before the next.
-/

namespace FitsWell

variable {ρ ω δ β : Type}

/-- Decode one tile and hand it to `scatter`. -/
def ImageDecodePlan.decodeStep (plan : ImageDecodePlan ρ ω δ) (rows : ℕ → Outcome TileRows)
    (scatter : β → ℕ → List δ → Outcome β) (out : β) (tile : ℕ) : Outcome β := do
  let place ← rows tile
  let decoded ← plan.decodeTile place
  scatter out place.grid (decoded.2.map plan.sample.narrow)

/-- Slot `offset` of the buffers holds `values`. -/
structure WaveBuffers.Holds (buffers : WaveBuffers δ) (slot offset : ℕ) (values : List δ) :
    Prop where
  length : buffers.lengths[offset]? = some values.length
  room : offset * slot + values.length ≤ buffers.wave.length
  fits : values.length ≤ slot
  values : ∀ j < values.length, buffers.wave[offset * slot + j]? = values[j]?

/-- The samples read back from a slot are those it holds. -/
theorem WaveBuffers.Holds.subslice {buffers : WaveBuffers δ} {slot offset : ℕ} {values : List δ}
    (h : buffers.Holds slot offset values) :
    subslice buffers.wave (offset * slot) values.length = .ok values := by
  rw [FitsWell.subslice, if_pos h.room]
  congr 1
  apply List.ext_getElem?
  intro j
  by_cases hj : j < values.length
  · rw [List.getElem?_take_of_lt hj, List.getElem?_drop, h.values j hj]
  · rw [List.getElem?_eq_none (by rw [List.length_take]; omega), List.getElem?_eq_none (by omega)]

/-- What the steps of a pass need: each decoded tile fits a slot, and its scatter into a
plane that keeps `Inv` succeeds and keeps it. -/
structure ScatterTotal (plan : ImageDecodePlan ρ ω δ) (rows : ℕ → Outcome TileRows)
    (scatter : β → ℕ → List δ → Outcome β) (slot count : ℕ) (Inv : β → Prop) : Prop where
  fits : ∀ tile < count, ∀ place decoded, rows tile = .ok place →
    plan.decodeTile place = .ok decoded → decoded.2.length ≤ slot
  total : ∀ tile < count, ∀ place decoded out, rows tile = .ok place →
    plan.decodeTile place = .ok decoded → Inv out →
    ∃ out', scatter out place.grid (decoded.2.map plan.sample.narrow) = .ok out' ∧ Inv out'

variable {plan : ImageDecodePlan ρ ω δ} {rows : ℕ → Outcome TileRows}
  {scatter : β → ℕ → List δ → Outcome β} {slot count : ℕ} {Inv : β → Prop}

/-- The buffers have a slot for each of `waveLen` tiles. -/
structure WaveBuffers.Sized (buffers : WaveBuffers δ) (slot waveLen : ℕ) : Prop where
  wave : buffers.wave.length = waveLen * slot
  lengths : buffers.lengths.length = waveLen

/-- The tile a slot holds is the one decoded for it. -/
def HoldsTile (plan : ImageDecodePlan ρ ω δ) (rows : ℕ → Outcome TileRows) (slot waveStart : ℕ)
    (buffers : WaveBuffers δ) (offset : ℕ) : Prop :=
  ∃ place decoded, rows (waveStart + offset) = .ok place ∧ plan.decodeTile place = .ok decoded ∧
    buffers.Holds slot offset (decoded.2.map plan.sample.narrow)

/-- Decoding a tile into its slot leaves the slots before it. -/
theorem decodeSlot_ok {waveLen waveStart offset : ℕ} {buffers : WaveBuffers δ}
    (hsized : buffers.Sized slot waveLen) (hoffset : offset < waveLen) {place : TileRows}
    {decoded : TileScratch × List ω} (hplace : rows (waveStart + offset) = .ok place)
    (hdecoded : plan.decodeTile place = .ok decoded) (hfits : decoded.2.length ≤ slot) :
    ∃ buffers', plan.decodeSlot rows slot waveStart buffers offset = .ok buffers' ∧
      buffers'.Sized slot waveLen ∧
      buffers'.Holds slot offset (decoded.2.map plan.sample.narrow) ∧
      ∀ before < offset, ∀ values, buffers.Holds slot before values →
        buffers'.Holds slot before values := by
  have hroom : offset * slot + slot ≤ waveLen * slot := by
    calc offset * slot + slot = (offset + 1) * slot := (Nat.succ_mul _ _).symm
      _ ≤ waveLen * slot := Nat.mul_le_mul_right slot hoffset
  have hlength : (decoded.2.map plan.sample.narrow).length = decoded.2.length :=
    List.length_map _
  have hdst : offset * slot + min slot decoded.2.length ≤ buffers.wave.length := by
    rw [hsized.wave]
    omega
  have hsrc : 0 + min slot decoded.2.length ≤ (decoded.2.map plan.sample.narrow).length := by
    omega
  obtain ⟨wave, hwave, hwaveLength, hget⟩ := copySlice_of_le hdst hsrc
  rw [Nat.min_eq_right hfits] at hwave hget
  refine ⟨⟨wave, buffers.lengths.set offset decoded.2.length⟩, ?_, ?_, ?_, ?_⟩
  · rw [ImageDecodePlan.decodeSlot, hplace, Loops.bind_ok rfl, hdecoded, Loops.bind_ok rfl,
      store_of_lt _ (by rw [hsized.lengths]; exact hoffset), Loops.bind_ok rfl,
      Nat.min_eq_right hfits, hwave]
    rfl
  · exact ⟨hwaveLength.trans hsized.wave, (List.length_set ..).trans hsized.lengths⟩
  · refine ⟨?_, ?_, by omega, ?_⟩
    · rw [hlength]
      exact List.getElem?_set_self (by rw [hsized.lengths]; exact hoffset)
    · rw [hlength, hwaveLength, hsized.wave]
      omega
    · intro j hj
      rw [hget, if_pos (by omega), Nat.zero_add, Nat.add_sub_cancel_left]
  · intro before hbefore values hholds
    have hslots : before * slot + slot ≤ offset * slot := by
      calc before * slot + slot = (before + 1) * slot := (Nat.succ_mul _ _).symm
        _ ≤ offset * slot := Nat.mul_le_mul_right slot hbefore
    have hvalues := hholds.fits
    refine ⟨?_, ?_, hvalues, ?_⟩
    · rw [List.getElem?_set_ne (by omega)]
      exact hholds.length
    · rw [hwaveLength]
      exact hholds.room
    · intro j hj
      rw [hget, if_neg (by omega)]
      exact hholds.values j hj

/-- Scattering a slot is scattering the tile it holds. -/
theorem scatterSlot_eq {waveStart offset : ℕ} {buffers : WaveBuffers δ}
    (h : HoldsTile plan rows slot waveStart buffers offset) (out : β) :
    scatterSlot rows slot waveStart scatter buffers out offset =
      plan.decodeStep rows scatter out (waveStart + offset) := by
  obtain ⟨place, decoded, hplace, hdecoded, hholds⟩ := h
  rw [scatterSlot, load_of_getElem? hholds.length, Loops.bind_ok rfl, hholds.subslice,
    Loops.bind_ok rfl, ImageDecodePlan.decodeStep, hplace, Loops.bind_ok rfl, Loops.bind_ok rfl,
    hdecoded]
  rfl

/-- Decoding a wave agrees with decoding and scattering its tiles one by one. -/
theorem decodeSlots_agree {waveLen waveStart tiles : ℕ} {buffers : WaveBuffers δ} {out : β}
    (htotal : ScatterTotal plan rows scatter slot count Inv) (htiles : tiles ≤ waveLen)
    (hcount : waveStart + tiles ≤ count) (hsized : buffers.Sized slot waveLen) (hout : Inv out) :
    Agree (fun buffers' out' => buffers'.Sized slot waveLen ∧ Inv out' ∧
        ∀ offset < tiles, HoldsTile plan rows slot waveStart buffers' offset)
      ((List.range tiles).foldlM (plan.decodeSlot rows slot waveStart) buffers)
      ((List.range tiles).foldlM
        (fun out offset => plan.decodeStep rows scatter out (waveStart + offset)) out) := by
  refine Agree.range (R := fun k buffers' out' => buffers'.Sized slot waveLen ∧ Inv out' ∧
    ∀ offset < k, HoldsTile plan rows slot waveStart buffers' offset)
    ⟨hsized, hout, fun _ h => absurd h (Nat.not_lt_zero _)⟩ ?_
  rintro k hk buffers' out' ⟨hsized', hout', hheld⟩
  cases hplace : rows (waveStart + k) with
  | error fault =>
    rw [ImageDecodePlan.decodeSlot, ImageDecodePlan.decodeStep, hplace]
    exact .fails fault
  | ok place =>
    cases hdecoded : plan.decodeTile place with
    | error fault =>
      rw [ImageDecodePlan.decodeSlot, ImageDecodePlan.decodeStep, hplace, Loops.bind_ok rfl,
        Loops.bind_ok rfl, hdecoded]
      exact .fails fault
    | ok decoded =>
      have hfits := htotal.fits (waveStart + k) (by omega) place decoded hplace hdecoded
      obtain ⟨next, hnext, hnextSized, hholds, hkeep⟩ :=
        decodeSlot_ok hsized' (by omega : k < waveLen) hplace hdecoded hfits
      obtain ⟨out'', hscatter, hinv⟩ :=
        htotal.total (waveStart + k) (by omega) place decoded out' hplace hdecoded hout'
      rw [hnext, ImageDecodePlan.decodeStep, hplace, Loops.bind_ok rfl, hdecoded,
        Loops.bind_ok rfl, hscatter]
      refine .returns ⟨hnextSized, hinv, fun offset hoffset => ?_⟩
      rcases Nat.lt_succ_iff_lt_or_eq.mp hoffset with hlt | rfl
      · obtain ⟨place', decoded', hplace', hdecoded', hholds'⟩ := hheld offset hlt
        exact ⟨place', decoded', hplace', hdecoded', hkeep offset hlt _ hholds'⟩
      · exact ⟨place, decoded, hplace, hdecoded, hholds⟩

/-- One wave agrees with its tiles decoded and scattered one by one. -/
theorem decodeWave_agree {waveLen wave : ℕ} {buffers : WaveBuffers δ} {out : β}
    (htotal : ScatterTotal plan rows scatter slot count Inv)
    (hwave : wave * max waveLen 1 ≤ count) (hsized : buffers.Sized slot waveLen)
    (hout : Inv out) :
    Agree (fun state out' => state.1.Sized slot waveLen ∧ state.2 = out' ∧ Inv out')
      (plan.decodeWave rows slot waveLen count scatter (buffers, out) wave)
      ((List.range (min waveLen (count - wave * max waveLen 1))).foldlM
        (fun out offset => plan.decodeStep rows scatter out (wave * max waveLen 1 + offset))
        out) := by
  have hend : wave * max waveLen 1 + min waveLen (count - wave * max waveLen 1) ≤ count := by
    omega
  have hslots := decodeSlots_agree htotal (Nat.min_le_left ..) hend hsized hout
  unfold ImageDecodePlan.decodeWave
  dsimp only
  generalize hdecode : (List.range (min waveLen (count - wave * max waveLen 1))).foldlM
    (plan.decodeSlot rows slot (wave * max waveLen 1)) buffers = decode at *
  generalize hsteps : (List.range (min waveLen (count - wave * max waveLen 1))).foldlM
    (fun out offset => plan.decodeStep rows scatter out (wave * max waveLen 1 + offset)) out =
    steps at *
  cases hslots with
  | fails fault => exact .fails fault
  | @returns buffers' out' h =>
    obtain ⟨hsized', hinv, hheld⟩ := h
    have hscatter : (List.range (min waveLen (count - wave * max waveLen 1))).foldlM
        (scatterSlot rows slot (wave * max waveLen 1) scatter buffers') out = .ok out' := by
      rw [← hsteps]
      exact Loops.range_congr (fun k hk s => scatterSlot_eq (hheld k hk) s)
    rw [Loops.bind_ok rfl, hscatter]
    exact .returns ⟨hsized', rfl, hinv⟩

/-- Decoding in waves is decoding and scattering the tiles one by one, whatever the wave's
limit. -/
theorem decodeWaves_eq [Inhabited δ] {limit : ℕ} {out : β} (hlimit : 0 < limit)
    (hslot : plan.geometry.maxTileElements = .ok slot)
    (htotal : ScatterTotal plan rows scatter slot count Inv) (hout : Inv out) :
    plan.decodeWaves limit count rows scatter out =
      (List.range count).foldlM (plan.decodeStep rows scatter) out := by
  rcases Nat.eq_zero_or_pos count with rfl | hcount
  · simp [ImageDecodePlan.decodeWaves, hslot, bind, Except.bind, pure, Except.pure]
  have hstep : max (min limit count) 1 = min limit count := by omega
  have hpos : 0 < min limit count := by omega
  rw [ImageDecodePlan.decodeWaves, hslot, Loops.bind_ok rfl, foldlM_blocks hpos]
  dsimp only
  rw [hstep]
  have hwaves := Agree.range (n := (count + min limit count - 1) / min limit count)
    (f := plan.decodeWave rows slot (min limit count) count scatter)
    (g := fun out wave => (List.range (min (min limit count)
      (count - wave * min limit count))).foldlM
        (fun out tile => plan.decodeStep rows scatter out (wave * min limit count + tile)) out)
    (R := fun _ state out' => state.1.Sized slot (min limit count) ∧ state.2 = out' ∧ Inv out')
    (a := ({ wave := List.replicate (min limit count * slot) default
             lengths := List.replicate (min limit count) 0 }, out))
    ⟨⟨List.length_replicate, List.length_replicate⟩, rfl, hout⟩
    (fun k hk state out' h => by
      obtain ⟨hsized, rfl, hinv⟩ := h
      have hbefore := Nat.div_mul_le_self (count + min limit count - 1) (min limit count)
      have hmul := Nat.mul_le_mul_right (min limit count) hk
      rw [Nat.succ_mul] at hmul
      have hstart : k * max (min limit count) 1 ≤ count := by
        rw [hstep]
        omega
      have hwave := decodeWave_agree htotal hstart hsized hinv
      rwa [hstep] at hwave)
  exact hwaves.map_eq (fun state out' h => h.2.1)

end FitsWell
