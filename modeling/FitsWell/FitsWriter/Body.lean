import FitsWell.Checksum.Running
import FitsWell.Compression.Container
import FitsWell.ImageModel.View
import FitsWell.Writer.TableHeader

/-!
# Data units to write

What a write gives as its data unit. Its bytes are handed over twice, once to the sum and once to
the sink, cut at different places: both times they are the same.
-/

namespace FitsWell

open Checksum (Running)

/-- The samples that are encoded at a time. -/
def chunkSamples : ℕ := 2 ^ 17

/-- The bytes that gather before one write. -/
def chunkBytes : ℕ := 2 ^ 20

/-- A data unit before its block fill: bytes that are encoded already, the samples of an image, a
binary table, or the rows of a compressed container and the cells of its heap. -/
inductive Body (R : Type) [RealText R]
  | bytes (raw : Text)
  | samples (view : View)
  | table (laid : LaidTable R)
  | parts (rows : Text) (heap : List Text)

/-- Encode the samples, so many at a time. -/
def View.eachChunk (samples : View) : Producer Fault Text Unit := fun _ each =>
  (Builder.stepBy samples.len chunkSamples).foldlM (fun _ start => do
    let last ← Stateful.lift (addUsize start chunkSamples)
    let chunk ← Stateful.lift (samples.slice start (min last samples.len))
    each chunk.encode) ()

/-- Hand over the bytes gathered so far where a part has no room beside them. -/
def flushBefore (chunk part : Text) : Producer Fault Text Text := fun _ each => do
  let joined ← Stateful.lift (addUsize chunk.length part.length)
  if chunkBytes < joined ∧ ¬chunk.isEmpty then do
    each chunk
    pure []
  else
    pure chunk

/-- The bytes gathered so far with a part after them. A large part is handed over as it is. -/
def gatherPart (chunk part : Text) : Producer Fault Text Text := fun σ each => do
  let chunk ← flushBefore chunk part σ each
  if chunkBytes ≤ part.length then do
    each part
    pure chunk
  else
    pure (chunk ++ part)

/-- The parts in order, the small ones gathered. -/
def gatherParts (parts : List Text) : Producer Fault Text Unit := fun σ each => do
  let chunk ← parts.foldlM (fun chunk part => gatherPart chunk part σ each) []
  if chunk.isEmpty then pure () else each chunk

namespace Body

section Model

variable {R : Type} [RealText R]

/-- The bytes of the unit, before its fill. -/
def byteLen : Body R → Outcome ℕ
  | .bytes raw => .ok raw.length
  | .parts rows heap =>
    orOverflow (heap.foldlM (fun len cell => checkedAdd len cell.length) rows.length)
  | .samples view => orOverflow (checkedMul view.len view.bitpix.elemSize)
  | .table laid => laid.layout.dataLen

/-- The pieces that the sum is fed. -/
def summed : Body R → Producer Fault Text Unit
  | .bytes raw => fun _ each => each raw
  | .parts rows heap => fun _ each => do
    each rows
    heap.forM each
  | .samples view => view.eachChunk
  | .table laid => laid.builder.encodeChunks laid.layout chunkBytes

/-- The pieces that are written. -/
def emitted : Body R → Producer Fault Text Unit
  | .bytes raw => fun _ each => each raw
  | .parts rows heap => gatherParts (rows :: heap)
  | .samples view => view.eachChunk
  | .table laid => laid.builder.encodeChunks laid.layout chunkBytes

/-- The bytes of the unit. -/
def data : Body R → Text
  | .bytes raw => raw
  | .parts rows heap => rows ++ heap.flatten
  | .samples view => view.encode
  | .table laid => tableBytes laid.builder.columns laid.layout.rowCount

end Model

end Body

/-- Add bytes to a running sum. -/
def updateSum (bytes : Text) : Stateful Fault Running Unit := do
  let sum ← Stateful.get
  let next ← sum.update bytes
  Stateful.set next

/-- Add the bytes of a unit to a sum, which must not fail. -/
def sumBody {R : Type} [RealText R] (body : Body R) (sum : Running) : Outcome Running :=
  let fed := (body.summed Running updateSum).run sum
  (expectOk fed.1).map fun _ => fed.2

/-! ## The pieces -/

/-- The chunks of an image are its samples in order. -/
theorem View.hands_eachChunk (samples : View) :
    ∃ pieces, Hands samples.eachChunk pieces (.ok ()) ∧ pieces.flatten = samples.encode := by
  obtain ⟨size, hsize⟩ : ∃ size, size = chunkSamples := ⟨_, rfl⟩
  have hchunk : size = 131072 := hsize
  unfold View.eachChunk
  rw [← hsize]
  have hlen := samples.len_le
  have hmax : isizeMax = 9223372036854775807 := rfl
  have hword : usizeMax = 18446744073709551615 := rfl
  have hrun : ∃ pieces stop, Hands (fun _ each =>
      (List.range ((samples.len + size - 1) / size)).foldlM (fun _ k => do
        let last ← Stateful.lift (addUsize (k * size) size)
        let chunk ← Stateful.lift (samples.slice (k * size) (min last samples.len))
        each chunk.encode) () : Producer Fault Text Unit) pieces (.ok stop) ∧
      pieces.flatten = (samples.part 0 (min ((List.range ((samples.len + size - 1) /
        size)).length * size) samples.len)).encode := by
    apply Hands.foldlM_total (P := fun (done : List ℕ) (pieces : List Text) (_ : Unit) =>
      pieces.flatten = (samples.part 0 (min (done.length * size) samples.len)).encode)
    · rw [List.length_nil, Nat.zero_mul, Nat.zero_min]
      rfl
    · rintro done k todo pieces - hitems hpieces
      obtain ⟨hlength, hk⟩ := Loops.range_split hitems
      have hstart : k * size < samples.len := by
        have hrow := Nat.mul_le_mul_right size hk
        have hdiv := Nat.div_mul_le_self (samples.len + size - 1) size
        rw [Nat.succ_mul] at hrow
        omega
      obtain ⟨count, hcount⟩ : ∃ count,
          count = min (k * size + size) samples.len - k * size := ⟨_, rfl⟩
      have hslice : samples.slice (k * size)
          (min (k * size + size) samples.len) =
            .ok (samples.part (k * size) count) := by
        rw [View.slice, if_pos ⟨by omega, by omega⟩, hcount]
      refine ⟨[(samples.part (k * size) count).encode], (), ?_, ?_⟩
      · rw [addUsize_of_le (by omega)]
        refine (Hands.lift (.ok _)).bind ?_
        rw [hslice]
        exact (Hands.lift (.ok _)).bind (Hands.each _)
      · have hnext : min ((k + 1) * size) samples.len = k * size + count := by
          rw [Nat.succ_mul]
          omega
        have hhere : min (k * size) samples.len = k * size := by omega
        rw [List.length_append, List.length_singleton, hlength, hnext, View.encode_part_add,
          List.flatten_append, hpieces, hlength, hhere, List.flatten_singleton, Nat.zero_add]
  obtain ⟨pieces, ⟨⟩, hhands, hflatten⟩ := hrun
  refine ⟨pieces, ?_, ?_⟩
  · simpa only [Builder.stepBy, List.foldlM_map] using hhands
  · have hlast : min ((samples.len + size - 1) / size * size) samples.len =
        samples.len := by
      have hdiv := Nat.lt_div_mul_add (by omega : 0 < size)
        (a := samples.len + size - 1)
      omega
    rw [hflatten, List.length_range, hlast, View.part_all]

theorem hands_flushBefore {chunk part : Text} (hroom : chunk.length + part.length ≤ usizeMax) :
    ∃ pieces kept, Hands (flushBefore chunk part) pieces (.ok kept) ∧ pieces.flatten ++ kept = chunk ∧
      kept.length ≤ chunk.length ∧ (chunkBytes ≤ part.length → kept = []) := by
  unfold flushBefore
  rw [addUsize_of_le hroom]
  by_cases hfull : chunkBytes < chunk.length + part.length ∧ ¬chunk.isEmpty
  · refine ⟨[] ++ ([chunk] ++ []), [], (Hands.lift (.ok _)).bind ?_, by simp, Nat.zero_le _,
      fun _ => rfl⟩
    simp only [if_pos hfull]
    exact (Hands.each chunk).bind (Hands.lift (.ok []))
  · refine ⟨[] ++ [], chunk, (Hands.lift (.ok _)).bind ?_, rfl, le_rfl, fun hlarge => ?_⟩
    · simp only [if_neg hfull]
      exact Hands.lift (.ok chunk)
    · by_contra hne
      have hpos := List.length_pos_iff.mpr hne
      exact hfull ⟨by omega, by simpa using hne⟩

/-- A part that is gathered comes after the bytes before it. -/
theorem hands_gatherPart {chunk part : Text} (hroom : chunk.length + part.length ≤ usizeMax) :
    ∃ pieces kept, Hands (gatherPart chunk part) pieces (.ok kept) ∧
      pieces.flatten ++ kept = chunk ++ part ∧ kept.length ≤ chunk.length + part.length := by
  obtain ⟨first, kept, hfirst, hjoin, hlength, hempty⟩ := hands_flushBefore hroom
  unfold gatherPart
  by_cases hlarge : chunkBytes ≤ part.length
  · obtain rfl := hempty hlarge
    rw [List.append_nil] at hjoin
    refine ⟨first ++ ([part] ++ []), [], hfirst.bind ?_, by simp [hjoin], Nat.zero_le _⟩
    simp only [if_pos hlarge]
    exact (Hands.each part).bind (Hands.lift (.ok []))
  · refine ⟨first ++ [], kept ++ part, hfirst.bind ?_, ?_, ?_⟩
    · simp only [if_neg hlarge]
      exact Hands.lift (.ok _)
    · rw [List.append_nil, ← List.append_assoc, hjoin]
    · rw [List.length_append]
      omega

/-- The gathered parts are the parts in order. -/
theorem hands_gatherParts {parts : List Text} (hroom : parts.flatten.length ≤ usizeMax) :
    ∃ pieces, Hands (gatherParts parts) pieces (.ok ()) ∧ pieces.flatten = parts.flatten := by
  have hrun : ∃ pieces kept, Hands (fun σ each =>
      parts.foldlM (fun chunk part => gatherPart chunk part σ each) []) pieces (.ok kept) ∧
      pieces.flatten ++ kept = parts.flatten ∧ kept.length ≤ parts.flatten.length := by
    apply Hands.foldlM_total (P := fun (done pieces : List Text) (kept : Text) =>
      pieces.flatten ++ kept = done.flatten ∧ kept.length ≤ done.flatten.length)
    · exact ⟨rfl, le_rfl⟩
    · rintro done part todo pieces kept hparts ⟨hjoin, hlength⟩
      have htotal : done.flatten.length + part.length ≤ parts.flatten.length := by
        rw [hparts, List.flatten_append, List.flatten_cons, List.length_append, List.length_append]
        omega
      obtain ⟨others, kept', hhands, hnext, hkept⟩ := @hands_gatherPart kept part (by omega)
      refine ⟨others, kept', hhands, ?_, ?_⟩
      · rw [List.flatten_append, List.append_assoc, hnext, ← List.append_assoc, hjoin,
          List.flatten_append, List.flatten_singleton]
      · rw [List.flatten_append, List.flatten_singleton, List.length_append]
        omega
  obtain ⟨pieces, kept, hhands, hjoin, -⟩ := hrun
  obtain ⟨last, hlast, hkept⟩ := Hands.rest kept
  refine ⟨pieces ++ last, hhands.bind hlast, ?_⟩
  rw [List.flatten_append, hkept, hjoin]

namespace Body

variable {R : Type} [RealText R] {body : Body R}

/-- A unit has the bytes that it is said to have. -/
theorem length_data {len : ℕ} (h : body.byteLen = .ok len) : body.data.length = len := by
  cases body with
  | bytes raw => exact Except.ok.inj h
  | parts rows heap =>
    have hfold : ∀ {heap : List Text} {start len : ℕ},
        heap.foldlM (fun len cell => checkedAdd len cell.length) start = some len →
          start + heap.flatten.length = len := by
      intro heap
      induction heap with
      | nil =>
        intro start len hlen
        exact Option.some.inj hlen
      | cons cell heap ih =>
        intro start len hlen
        rw [List.foldlM_cons, Option.bind_eq_bind, Option.bind_eq_some_iff] at hlen
        obtain ⟨next, hnext, hlen⟩ := hlen
        rw [List.flatten_cons, List.length_append, ← ih hlen, ← (checkedAdd_eq_some_iff.mp hnext).2,
          Nat.add_assoc]
    rw [data, List.length_append]
    exact hfold (orOverflow_eq_ok_iff.mp h)
  | samples view =>
    rw [data, view.length_encode]
    exact (checkedMul_eq_some_iff.mp (orOverflow_eq_ok_iff.mp h)).2
  | table laid =>
    have hlength := (Builder.layout_describes laid.laid).length_tableBytes
    obtain ⟨main, hmain, hadd⟩ := Loops.ok_of_bind h
    rw [data, hlength, ← (addUsize_eq_ok_iff.mp hadd).2, ← (mulUsize_eq_ok_iff.mp hmain).2]

theorem hands_heap (heap : List Text) :
    Hands (fun _ each => heap.forM each : Producer Fault Text Unit) heap (.ok ()) := by
  intro σ each
  have hstop : (fun _ => Stateful.lift (.ok ()) : Unit → Stateful Fault σ Unit) = pure := rfl
  rw [hstop, bind_pure]

/-- The sum is fed the bytes of the unit. -/
theorem hands_summed (body : Body R) :
    ∃ pieces, Hands body.summed pieces (.ok ()) ∧ pieces.flatten = body.data := by
  cases body with
  | bytes raw => exact ⟨[raw], Hands.each raw, List.flatten_singleton⟩
  | parts rows heap =>
    exact ⟨[rows] ++ heap, (Hands.each rows).bind (hands_heap heap), rfl⟩
  | samples view => exact view.hands_eachChunk
  | table laid => exact (Builder.layout_describes laid.laid).encodeChunks_hands (by decide)

/-- The pieces that are written are the bytes of the unit too. -/
theorem hands_emitted (h : body.data.length ≤ usizeMax) :
    ∃ pieces, Hands body.emitted pieces (.ok ()) ∧ pieces.flatten = body.data := by
  cases body with
  | bytes raw => exact ⟨[raw], Hands.each raw, List.flatten_singleton⟩
  | parts rows heap => exact hands_gatherParts h
  | samples view => exact view.hands_eachChunk
  | table laid => exact (Builder.layout_describes laid.laid).encodeChunks_hands (by decide)

end Body

/-- The sum of a unit after other bytes is that of both. -/
theorem sumBody_sums {R : Type} [RealText R] {sum : Running} {passed : Text} (h : sum.Sums passed)
    (body : Body R) : ∃ next, sumBody body sum = .ok next ∧ next.Sums (passed ++ body.data) := by
  obtain ⟨pieces, hhands, hflatten⟩ := body.hands_summed
  have hrun : ∃ next, (pieces.forM updateSum).run sum = (.ok (), next) ∧
      next.Sums (passed ++ pieces.flatten) := by
    apply Stateful.forM_total (P := fun (done : List Text) (sum : Running) =>
      sum.Sums (passed ++ done.flatten))
    · rwa [List.flatten_nil, List.append_nil]
    · intro done piece _ sum hsum
      obtain ⟨next, hnext, hsums⟩ := Running.update_sums hsum piece
      refine ⟨next, ?_, ?_⟩
      · unfold updateSum
        rw [Stateful.run_get_bind, Stateful.run_liftM_bind hnext]
        rfl
      · rwa [List.flatten_append, List.flatten_singleton, ← List.append_assoc]
  obtain ⟨next, hrun, hsums⟩ := hrun
  rw [hflatten] at hsums
  refine ⟨next, ?_, hsums⟩
  have hfed : (body.summed Running updateSum).run sum = (.ok (), next) := by
    rw [hhands Running updateSum]
    exact Stateful.run_bind hrun
  unfold sumBody
  rw [hfed]
  rfl

end FitsWell
