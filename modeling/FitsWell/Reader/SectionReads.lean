import FitsWell.Compression.SectionDecode
import FitsWell.Reader.PlainRead

/-!
# A section reads as the crop

Whatever the source, a read by runs gives the samples of the runs' bytes, and the runs of a
section are the rows of the crop.
-/

namespace FitsWell

open Chunks (chunk)
open MixedRadix Tiling

/-- A run inside a run. -/
theorem Run.slice_slice {α : Type} (values : List α) {start len offset width : ℕ}
    (h : offset + width ≤ len) :
    Run.slice (Run.slice values ⟨start, len⟩) ⟨offset, width⟩ =
      Run.slice values ⟨start + offset, width⟩ := by
  simp only [Run.slice]
  rw [List.drop_take, List.take_take, List.drop_drop, Nat.min_eq_left (by omega)]

/-! ## Samples -/

namespace Sample

variable {τ : Type} (sample : Sample τ)

theorem size_pos : 0 < sample.size := by
  have h := sample.size_mem
  simp only [List.mem_cons, List.not_mem_nil, or_false] at h
  omega

theorem size_le : sample.size ≤ 8 := by
  have h := sample.size_mem
  simp only [List.mem_cons, List.not_mem_nil, or_false] at h
  omega

theorem length_ofBe (src : List UInt8) : (sample.ofBe src).length = src.length / sample.size := by
  rw [ofBe, List.length_map, List.length_range]

/-- The sample at `j` of some bytes. -/
def nth (bytes : List UInt8) (j : ℕ) : τ := sample.fromBeBytes (chunk bytes sample.size j)

/-- Whole samples before others. -/
theorem ofBe_append {a : List UInt8} (h : sample.size ∣ a.length) (b : List UInt8) :
    sample.ofBe (a ++ b) = sample.ofBe a ++ sample.ofBe b := by
  obtain ⟨n, hn⟩ := h
  have hpos := sample.size_pos
  have hdiv : a.length / sample.size = n := by rw [hn, Nat.mul_div_cancel_left _ hpos]
  have hcount : (a ++ b).length / sample.size = n + b.length / sample.size := by
    rw [List.length_append, hn, Nat.mul_add_div hpos]
  rw [ofBe, ofBe, ofBe, hcount, hdiv, List.range_add, List.map_append, List.map_map]
  refine congrArg₂ (· ++ ·) (List.map_congr_left fun j hj => ?_) (List.map_congr_left fun j _ => ?_)
  · have hlt := List.mem_range.mp hj
    have hroom : j * sample.size + sample.size ≤ a.length := by
      rw [hn, Nat.mul_comm sample.size, ← Nat.succ_mul]
      exact Nat.mul_le_mul_right _ hlt
    rw [chunk, chunk, List.drop_append_of_le_length (by omega),
      List.take_append_of_le_length (by rw [List.length_drop]; omega)]
  · have hstart : (n + j) * sample.size = a.length + j * sample.size := by
      rw [Nat.add_mul, hn, Nat.mul_comm n]
    rw [Function.comp, chunk, chunk, hstart, List.drop_append, List.drop_of_length_le (by omega),
      Nat.add_sub_cancel_left, List.nil_append]

/-- Samples read natively and swapped are those read big-endian. -/
theorem swapBeInPlace_ofNe (bytes : List UInt8) :
    sample.swapBeInPlace (sample.ofNe bytes) = sample.ofBe bytes := by
  rw [swapBeInPlace, ofNe, ofBe, List.map_map]
  refine List.map_congr_left fun j hj => ?_
  have hlt := List.mem_range.mp hj
  have hroom : (j + 1) * sample.size ≤ bytes.length :=
    le_trans (Nat.mul_le_mul_right _ hlt) (Nat.div_mul_le_self _ _)
  rw [Nat.succ_mul] at hroom
  rw [Function.comp, sample.toNeBytes_fromNeBytes]
  rw [Chunks.length_chunk]
  omega

/-- The samples of a run of whole samples. -/
theorem ofBe_slice {bytes : List UInt8} {cell count : ℕ}
    (h : (cell + count) * sample.size ≤ bytes.length) :
    sample.ofBe (Run.slice bytes ⟨cell * sample.size, count * sample.size⟩) =
      (List.range count).map fun x => sample.nth bytes (cell + x) := by
  rw [Nat.add_mul] at h
  have hlength := @Run.length_slice _ bytes ⟨cell * sample.size, count * sample.size⟩ h
  rw [ofBe, hlength, Nat.mul_div_cancel _ sample.size_pos]
  refine List.map_congr_left fun x hx => ?_
  have hlt := Nat.mul_le_mul_right sample.size (List.mem_range.mp hx)
  rw [Nat.succ_mul] at hlt
  rw [nth, chunk, chunk, Run.slice, List.drop_take, List.take_take, List.drop_drop, Nat.add_mul,
    Nat.min_eq_left (by dsimp only; omega)]

/-- The samples of runs of whole samples are the samples of each. -/
theorem ofBe_flatMap {bytes : List UInt8} {runs : List Run}
    (h : ∀ run ∈ runs, run.stop ≤ bytes.length ∧ sample.size ∣ run.len) :
    sample.ofBe (runs.flatMap (Run.slice bytes)) =
      runs.flatMap fun run => sample.ofBe (run.slice bytes) := by
  induction runs with
  | nil => simp [ofBe]
  | cons run runs ih =>
    obtain ⟨hstop, hwhole⟩ := h run List.mem_cons_self
    rw [List.flatMap_cons, List.flatMap_cons, sample.ofBe_append (by rwa [Run.length_slice hstop]),
      ih fun other hother => h other (List.mem_cons_of_mem run hother)]

end Sample

/-! ## The bytes of a source -/

theorem offsetAt_of_le {base delta : ℕ} (h : base + delta ≤ usizeMax) :
    offsetAt base delta = .ok (base + delta) :=
  orOverflow_eq_ok_iff.mpr (checkedAdd_eq_some_iff.mpr ⟨h, rfl⟩)

theorem Source.checkRange_eq_ok_iff {source : Source} {offset len : ℕ} :
    Source.checkRange offset len source.size = .ok () ↔ offset + len ≤ source.size := by
  have hsized : source.size ≤ usizeMax := source.sized
  unfold Source.checkRange
  constructor
  · intro h
    split at h
    · rename_i stop hstop
      obtain ⟨-, rfl⟩ := checkedAdd_eq_some_iff.mp hstop
      split at h
      · cases h
      · omega
    · cases h
  · intro h
    rw [checkedAdd_eq_some_iff.mpr ⟨le_trans h hsized, rfl⟩]
    exact if_neg (by omega)

namespace DataSource

variable {data : DataSource} {offset len : ℕ}

/-- The error of a stream's read. -/
def Broken (data : DataSource) (fault : Fault) : Prop :=
  data.resident = false ∧ ∃ offset error, data.source.fault offset = some error ∧
    fault = .err error

theorem residentRange_eq (h : offset + len ≤ data.source.size) :
    data.residentRange offset len = .ok (Run.slice data.source.bytes ⟨offset, len⟩) := by
  rw [residentRange, Source.checkRange_eq_ok_iff.mpr h, Loops.bind_ok rfl]
  exact subslice_of_le h

theorem readInto_ends (hstream : data.resident = false) (h : offset + len ≤ data.source.size) :
    Loops.Ends data.Broken (· = Run.slice data.source.bytes ⟨offset, len⟩)
      (data.readInto offset len) := by
  rw [readInto, Source.checkRange_eq_ok_iff.mpr h, Loops.bind_ok rfl]
  cases hfault : data.source.fault offset with
  | none => exact .ok rfl
  | some error => exact .error ⟨hstream, offset, error, hfault, rfl⟩

end DataSource

/-! ## A filled buffer -/

namespace PlainRead

variable {τ : Type} {read : PlainRead} {sample : Sample τ}

/-- A buffer with samples put at the place it is filled to. -/
def after (s : List τ × ℕ) (values : List τ) : List τ × ℕ :=
  (s.1.take s.2 ++ values ++ s.1.drop (s.2 + values.length), s.2 + values.length)

theorem run_put (values : List τ) (s : List τ × ℕ) :
    (put values : Stateful Fault (List τ × ℕ) Unit).run s = (.ok (), after s values) := rfl

theorem after_nil {s : List τ × ℕ} : after s [] = s := by
  rw [after, List.append_nil, List.length_nil, Nat.add_zero, List.take_append_drop]

theorem length_after {s : List τ × ℕ} {values : List τ} (h : s.2 + values.length ≤ s.1.length) :
    (after s values).1.length = s.1.length := by
  simp only [after, List.length_append, List.length_take, List.length_drop]
  omega

/-- Samples put in two parts. -/
theorem after_after {s : List τ × ℕ} {a b : List τ}
    (h : s.2 + (a ++ b).length ≤ s.1.length) : after (after s a) b = after s (a ++ b) := by
  rw [List.length_append] at h
  have hfront : (s.1.take s.2 ++ a).length = s.2 + a.length := by
    rw [List.length_append, List.length_take]
    omega
  simp only [after]
  rw [List.take_append_of_le_length hfront.ge, List.take_of_length_le hfront.le,
    List.drop_append, List.drop_of_length_le (by omega), List.nil_append, List.drop_drop, hfront,
    List.length_append, Nat.add_sub_cancel_left, List.append_assoc (s.1.take s.2), Nat.add_assoc]

/-- The chunks of a slice are as long as it. -/
theorem chunkLens_ok {limit : ℕ} (hlimit : 0 < limit) (count : ℕ) :
    ∃ lens, chunkLens limit count = .ok lens ∧ lens.sum = count := by
  refine ⟨_, if_neg hlimit.ne', ?_⟩
  have hsplit := Nat.div_add_mod count limit
  rw [List.sum_append, List.sum_replicate_nat, Nat.mul_comm]
  split
  · rw [List.sum_nil]
    omega
  · rw [List.sum_singleton]
    exact hsplit

/-- A chunk of a stream lands swapped. -/
theorem fillChunk_ends (hstream : read.data.resident = false) {offset count : ℕ} {s : List τ × ℕ}
    (h : offset + count * sample.size ≤ read.data.source.size) :
    Stateful.Ends read.data.Broken (fun next s' => next = offset + count * sample.size ∧
        s' = after s (sample.ofBe (Run.slice read.data.source.bytes
          ⟨offset, count * sample.size⟩)))
      ((read.fillChunk sample offset count).run s) := by
  have hsized : read.data.source.size ≤ usizeMax := read.data.source.sized
  refine (Stateful.Ends.lift (DataSource.readInto_ends hstream h) s).bind ?_
  rintro bytes s' ⟨rfl, rfl⟩
  have hlength := @Run.length_slice _ read.data.source.bytes ⟨offset, count * sample.size⟩ h
  rw [Stateful.run_bind (run_put _ _), sample.swapBeInPlace_ofNe, hlength,
    offsetAt_of_le (le_trans h hsized)]
  exact ⟨rfl, rfl⟩

/-- The chunks of a run of a stream land in turn. -/
theorem fillChunks_ends (hstream : read.data.resident = false) {offset : ℕ} {lens : List ℕ}
    {s : List τ × ℕ} (h : offset + lens.sum * sample.size ≤ read.data.source.size)
    (hroom : s.2 + lens.sum ≤ s.1.length) :
    Stateful.Ends read.data.Broken (fun _ s' => s' = after s (sample.ofBe
        (Run.slice read.data.source.bytes ⟨offset, lens.sum * sample.size⟩)))
      ((lens.foldlM (read.fillChunk sample) offset).run s) := by
  have hends := @Stateful.Ends.foldlM _ _ _ _ read.data.Broken s
    (fun done next s' => next = offset + done.sum * sample.size ∧
      s' = after s (sample.ofBe (Run.slice read.data.source.bytes
        ⟨offset, done.sum * sample.size⟩)))
    (read.fillChunk sample) lens offset ?_ ?_
  · exact hends.mono fun _ _ hdone => hdone.2
  · refine ⟨by rw [List.sum_nil, Nat.zero_mul, Nat.add_zero], ?_⟩
    rw [List.sum_nil, Nat.zero_mul, Run.slice, List.take_zero, Sample.ofBe, List.length_nil,
      Nat.zero_div, List.range_zero, List.map_nil, after_nil]
  · rintro done count todo next s' rfl ⟨rfl, rfl⟩
    rw [List.sum_append, List.sum_cons] at h hroom
    have hbytes : (done.sum + (count + todo.sum)) * sample.size =
        done.sum * sample.size + (count * sample.size + todo.sum * sample.size) := by
      rw [Nat.add_mul, Nat.add_mul]
    rw [hbytes] at h
    refine (fillChunk_ends hstream (by omega)).mono ?_
    rintro next s' ⟨rfl, rfl⟩
    have hinside : offset + done.sum * sample.size ≤ read.data.source.size := by omega
    have hdone := @Run.length_slice _ read.data.source.bytes ⟨offset, done.sum * sample.size⟩
      hinside
    rw [List.sum_append, List.sum_singleton, Nat.add_mul, Run.slice_add,
      sample.ofBe_append (by rw [hdone]; exact Nat.dvd_mul_left _ _), after_after]
    · exact ⟨(Nat.add_assoc _ _ _), rfl⟩
    · rw [List.length_append, sample.length_ofBe, sample.length_ofBe, hdone,
        Nat.mul_div_cancel _ sample.size_pos]
      have hnext : (Run.slice read.data.source.bytes
          ⟨offset + done.sum * sample.size, count * sample.size⟩).length ≤ count * sample.size := by
        rw [Run.slice, List.length_take]
        exact Nat.min_le_left _ _
      have hcount := Nat.div_le_div_right (c := sample.size) hnext
      rw [Nat.mul_div_cancel _ sample.size_pos] at hcount
      omega

/-! ## Runs -/

/-- The bytes of a data unit of `len` bytes. -/
def unit (read : PlainRead) (len : ℕ) : List UInt8 :=
  Run.slice read.data.source.bytes ⟨read.dataOffset, len⟩

/-- Runs of whole samples of a data unit of `len` bytes. -/
def Whole (sample : Sample τ) (len : ℕ) (runs : List Run) : Prop :=
  ∀ run ∈ runs, run.stop ≤ len ∧ sample.size ∣ run.len

/-- The samples of the runs of a data unit. -/
def samples (read : PlainRead) (sample : Sample τ) (len : ℕ) (runs : List Run) : List τ :=
  runs.flatMap fun run => sample.ofBe (run.slice (read.unit len))

section Unit

variable {len : ℕ} (hunit : read.dataOffset + len ≤ read.data.source.size)
include hunit

theorem length_unit : (read.unit len).length = len := Run.length_slice hunit

omit hunit in
theorem slice_unit {run : Run} (hrun : run.stop ≤ len) :
    Run.slice read.data.source.bytes ⟨read.dataOffset + run.offset, run.len⟩ =
      run.slice (read.unit len) :=
  (Run.slice_slice _ hrun).symm

/-- A run has a sample for each of its elements. -/
theorem length_ofBe_slice {run : Run} (hrun : run.stop ≤ len) :
    (sample.ofBe (run.slice (read.unit len))).length = run.len / sample.size := by
  rw [sample.length_ofBe, Run.length_slice (by rwa [length_unit hunit])]

theorem length_samples {runs : List Run} (h : Whole sample len runs) :
    (read.samples sample len runs).length * sample.size = (runs.map Run.len).sum := by
  induction runs with
  | nil => exact Nat.zero_mul _
  | cons run runs ih =>
    obtain ⟨hstop, hwhole⟩ := h run List.mem_cons_self
    have hrest := ih fun other hother => h other (List.mem_cons_of_mem run hother)
    rw [samples] at hrest ⊢
    rw [List.flatMap_cons, List.length_append, length_ofBe_slice hunit hstop, Nat.add_mul, hrest,
      Nat.div_mul_cancel hwhole, List.map_cons, List.sum_cons]

/-- A run of the unit lands in the buffer. -/
theorem fillRun_ends {run : Run} {s : List τ × ℕ} (hrun : run.stop ≤ len)
    (hwhole : sample.size ∣ run.len) (hroom : s.2 + run.len / sample.size ≤ s.1.length) :
    Stateful.Ends read.data.Broken
      (fun _ s' => s' = after s (sample.ofBe (run.slice (read.unit len))))
      ((read.fillRun sample run).run s) := by
  have hsized : read.data.source.size ≤ usizeMax := read.data.source.sized
  have hinside : read.dataOffset + run.offset + run.len ≤ read.data.source.size := by
    unfold Run.stop at hrun
    omega
  have hlift : ∀ {α : Type} (value : α),
      (Stateful.lift (.ok value) : Stateful Fault (List τ × ℕ) α) = pure value := fun _ => rfl
  have hsamples : ((s.1.drop s.2).take (run.len / sample.size)).length = run.len / sample.size := by
    rw [List.length_take, List.length_drop]
    omega
  rw [← slice_unit hrun, fillRun, offsetAt_of_le (by omega), hlift, pure_bind]
  refine Stateful.Ends.bind (Q := fun value s' => value = s ∧ s' = s) ⟨rfl, rfl⟩ ?_
  rintro value s' ⟨rfl, rfl⟩
  rw [subslice_of_le hroom, hlift, pure_bind]
  by_cases hresident : read.data.resident = true
  · have hbytes := @Run.length_slice _ read.data.source.bytes
      ⟨read.dataOffset + run.offset, run.len⟩ hinside
    rw [if_pos hresident, DataSource.residentRange_eq hinside, hlift, pure_bind, Sample.decodeBe,
      debugAssert, hbytes, if_pos hsamples, Loops.bind_ok rfl, hlift, pure_bind, run_put]
    rfl
  · have hstream : read.data.resident = false := Bool.eq_false_iff.mpr hresident
    have hlimit : 0 < swapChunk / sample.size :=
      Nat.div_pos (le_trans sample.size_le (by decide)) sample.size_pos
    obtain ⟨lens, hlens, hsum⟩ := chunkLens_ok hlimit (run.len / sample.size)
    have hcount : lens.sum * sample.size = run.len := by rw [hsum, Nat.div_mul_cancel hwhole]
    rw [if_neg hresident, hsamples, hlens, hlift, pure_bind]
    have hends := @fillChunks_ends τ read sample hstream (read.dataOffset + run.offset) lens s'
      (by rwa [hcount]) (by rwa [hsum])
    rw [hcount] at hends
    exact hends.bind fun _ s'' hdone => hdone

/-- A run of the unit of a resident source goes to the end of the samples. -/
theorem extendRun_ends {run : Run} {out : List τ}
    (hrun : run.stop ≤ len) (hwhole : sample.size ∣ run.len) :
    (read.extendRun sample run).run out =
      (.ok (), out ++ sample.ofBe (run.slice (read.unit len))) := by
  have hsized : read.data.source.size ≤ usizeMax := read.data.source.sized
  have hinside : read.dataOffset + run.offset + run.len ≤ read.data.source.size := by
    unfold Run.stop at hrun
    omega
  have hbytes := @Run.length_slice _ read.data.source.bytes
    ⟨read.dataOffset + run.offset, run.len⟩ hinside
  have hmod : (Run.slice read.data.source.bytes
      ⟨read.dataOffset + run.offset, run.len⟩).length % sample.size = 0 := by
    rw [hbytes]
    exact Nat.mod_eq_zero_of_dvd hwhole
  rw [extendRun, offsetAt_of_le (by omega), Stateful.run_bind (Stateful.run_lift _ _),
    DataSource.residentRange_eq hinside, Stateful.run_bind (Stateful.run_lift _ _),
    Stateful.run_bind (rfl : Stateful.get.run out = (.ok out, out)), Sample.extendFromBe,
    debugAssert, if_pos hmod, Loops.bind_ok rfl, Stateful.run_bind (Stateful.run_lift _ _),
    slice_unit hrun]
  rfl

variable {runs : StoredRuns} {pieces : List Run} (hvisit : Hands runs.visit pieces (.ok ()))
  (hpieces : Whole sample len pieces) (hlen : (pieces.map Run.len).sum = runs.len)
include hvisit hpieces hlen

/-- A buffer fills with the samples of the runs. -/
theorem fill_ends {out : List τ} (hout : out.length * sample.size = runs.len) :
    Loops.Ends read.data.Broken (· = read.samples sample len pieces)
      (read.fill sample runs out) := by
  have htotal : (read.samples sample len pieces).length = out.length := by
    refine Nat.eq_of_mul_eq_mul_right sample.size_pos ?_
    rw [length_samples hunit hpieces, hlen, hout]
  have hends := @Stateful.Ends.forM _ _ _ read.data.Broken (out, 0)
    (fun done s => s = after (out, 0) (read.samples sample len done))
    (read.fillRun sample) pieces after_nil.symm ?_
  · have hvisited := hvisit (List τ × ℕ) (read.fillRun sample)
    have hlast : (fun _ => Stateful.lift (.ok ()) : Unit → Stateful Fault (List τ × ℕ) Unit) =
        pure := rfl
    rw [hlast, bind_pure] at hvisited
    rw [fill, debugAssert, if_pos hout, Loops.bind_ok rfl, hvisited]
    cases hrun : (pieces.forM (read.fillRun sample)).run (out, 0) with
    | mk outcome s =>
      rw [hrun] at hends
      cases outcome with
      | error fault => exact hends
      | ok _ =>
        have hs : s = after (out, 0) (read.samples sample len pieces) := hends
        rw [hs, after]
        dsimp only
        rw [Loops.bind_ok rfl, List.take_zero, List.nil_append, Nat.zero_add, htotal,
          List.drop_length, List.append_nil]
        exact .ok rfl
  · rintro done run todo s hitems rfl
    obtain ⟨hstop, hwhole⟩ := hpieces run (by rw [hitems]; simp)
    have hparts : (read.samples sample len done).length + run.len / sample.size ≤ out.length := by
      rw [← htotal, hitems, samples, samples, List.flatMap_append, List.flatMap_cons,
        List.length_append, List.length_append, length_ofBe_slice hunit hstop]
      omega
    have hroom : (after (out, 0) (read.samples sample len done)).2 + run.len / sample.size ≤
        (after (out, 0) (read.samples sample len done)).1.length := by
      have hput : (out, 0).2 + (read.samples sample len done).length ≤ (out, 0).1.length := by
        rw [Nat.zero_add]
        exact le_trans (Nat.le_add_right _ _) hparts
      rw [length_after hput]
      change 0 + _ + _ ≤ out.length
      omega
    refine (fillRun_ends hunit hstop hwhole hroom).mono fun _ s' hs' => ?_
    rw [hs', after_after, samples, samples, List.flatMap_append, List.flatMap_singleton]
    rw [List.length_append, length_ofBe_slice hunit hstop]
    change 0 + _ ≤ out.length
    omega

/-- The samples of the runs, owned. -/
theorem filled_ends {count : ℕ} (hcount : count * sample.size = runs.len) :
    Loops.Ends read.data.Broken (· = read.samples sample len pieces)
      (read.filled sample runs count) := by
  rw [filled]
  by_cases hresident : read.data.resident = true
  · rw [if_pos hresident]
    have hends := @Stateful.Ends.forM _ _ _ (fun _ => False) ([] : List τ)
      (fun done out => out = read.samples sample len done) (read.extendRun sample) pieces rfl ?_
    · obtain ⟨_, out, hrun, hout⟩ := hends.exists_ok fun _ => id
      have hvisited := hvisit (List τ) (read.extendRun sample)
      have hlast : (fun _ => Stateful.lift (.ok ()) : Unit → Stateful Fault (List τ) Unit) =
          pure := rfl
      rw [hlast, bind_pure] at hvisited
      rw [hvisited, hrun]
      exact .ok hout
    · rintro done run todo out hitems rfl
      obtain ⟨hstop, hwhole⟩ := hpieces run (by rw [hitems]; simp)
      rw [extendRun_ends hunit hstop hwhole, samples, samples, List.flatMap_append,
        List.flatMap_singleton]
      rfl
  · rw [if_neg hresident]
    exact fill_ends hunit hvisit hpieces hlen (by rw [List.length_replicate, hcount])

end Unit

/-! ## The crop -/

variable {ranges : List AxisRange} {shape : List ℕ}

/-- The rows of a section, and joined ones, are whole samples of the image. -/
theorem whole_sectionRows (h : Stored ranges shape) (hne : ranges ≠ []) :
    Whole sample (shape.prod * sample.size) (sectionRows ranges shape sample.size) := by
  intro run hrun
  obtain ⟨row, hrow, rfl⟩ := List.mem_map.mp hrun
  exact ⟨sectionRow_stop_le h hne _ (List.mem_range.mp hrow), Nat.dvd_mul_left _ _⟩

theorem Whole.join {len : ℕ} {runs : List Run} (h : Whole sample len runs) :
    Whole sample len (Run.join runs) := by
  refine Run.forall_join (fun a b ha hb hjoin => ⟨?_, (Nat.dvd_add_right ha.2).mpr hb.2⟩) h
  have hstop := hb.1
  unfold Run.stop at hjoin hstop ⊢
  dsimp only
  omega

/-- The samples of a section's runs are the cells of the section, in order. -/
theorem samples_join (h : Stored ranges shape) (hne : ranges ≠ [])
    (hunit : read.dataOffset + shape.prod * sample.size ≤ read.data.source.size) :
    read.samples sample (shape.prod * sample.size)
        (Run.join (sectionRows ranges shape sample.size)) =
      (List.range (regionShape ranges).prod).map fun q =>
        sample.nth (read.unit (shape.prod * sample.size)) (sectionCell ranges shape q) := by
  obtain ⟨bytes, hbytes⟩ : ∃ bytes, bytes = read.unit (shape.prod * sample.size) := ⟨_, rfl⟩
  have hlength : bytes.length = shape.prod * sample.size := hbytes ▸ length_unit hunit
  have hrows := @whole_sectionRows _ sample _ _ h hne
  have hjoined := hrows.join
  obtain ⟨-, -, hprod⟩ := regionShape_split h hne
  rw [← hlength] at hrows hjoined
  have hrow : ∀ row ∈ List.range (regionShape ranges).tail.prod,
      sample.ofBe ((sectionRow ranges shape sample.size row).slice bytes) =
        (List.range' (row * (regionShape ranges).headD 0) ((regionShape ranges).headD 0)).map
          fun q => sample.nth bytes (sectionCell ranges shape q) := by
    intro row hrow
    have hstop := sectionRow_stop_le h hne sample.size (List.mem_range.mp hrow)
    rw [sectionRow, sample.ofBe_slice, List.range'_eq_map_range, List.map_map]
    · refine List.map_congr_left fun x hx => ?_
      rw [Function.comp, sectionCell_add h hne row (List.mem_range.mp hx)]
    · rw [hlength, Nat.add_mul]
      exact hstop
  rw [samples, ← hbytes, ← sample.ofBe_flatMap hjoined, Run.flatMap_slice_join,
    sample.ofBe_flatMap hrows, sectionRows, List.flatMap_map, ← hprod, range_mul, List.map_flatMap]
  exact List.flatMap_congr hrow

/-- What a section of a plain image says: its runs are in order, with a gap between any two,
inside the image and as long as the section together; and whatever reads them, of which only
a stream can fail, gives the whole image's samples at the section's cells. -/
structure SectionReads (read : PlainRead) (sample : Sample τ) (shape : List ℕ)
    (ranges : List AxisRange) (total : ℕ) (runs : StoredRuns) (count : ℕ) (pieces : List Run)
    (plane cut : List τ) : Prop where
  region : StoredRuns.ofSection shape ranges sample.size = .ok runs
  size : shapeProduct (regionShape ranges) = .ok count
  visit : Hands runs.visit pieces (.ok ())
  inside : ∀ run ∈ pieces, 0 < run.len ∧ run.stop ≤ total * sample.size
  apart : pieces.IsChain fun a b => a.stop < b.offset
  len : runs.len = count * sample.size
  sum : (pieces.map Run.len).sum = runs.len
  whole : plane.length = total ∧
    Loops.Ends read.data.Broken (· = plane)
      (read.filled sample (.all (total * sample.size)) total) ∧
    ∀ out : List τ, out.length = total → Loops.Ends read.data.Broken (· = plane)
      (read.fill sample (.all (total * sample.size)) out)
  part : cut.length = count ∧
    Loops.Ends read.data.Broken (· = cut) (read.filled sample runs count) ∧
    ∀ out : List τ, out.length = count →
      Loops.Ends read.data.Broken (· = cut) (read.fill sample runs out)
  crop : ∀ cs, InSection ranges cs →
    cut[value (regionShape ranges) (relative ranges cs)]? = plane[value shape cs]?

/-- The whole image reads as its samples. -/
theorem all_reads {total : ℕ}
    (hunit : read.dataOffset + total * sample.size ≤ read.data.source.size) :
    (sample.ofBe (read.unit (total * sample.size))).length = total ∧
      Loops.Ends read.data.Broken (· = sample.ofBe (read.unit (total * sample.size)))
        (read.filled sample (.all (total * sample.size)) total) ∧
      ∀ out : List τ, out.length = total →
        Loops.Ends read.data.Broken (· = sample.ofBe (read.unit (total * sample.size)))
          (read.fill sample (.all (total * sample.size)) out) := by
  have hvisit : Hands (StoredRuns.all (total * sample.size)).visit [⟨0, total * sample.size⟩]
      (.ok ()) := Hands.each _
  have hpieces : Whole sample (total * sample.size) [⟨0, total * sample.size⟩] := by
    intro run hrun
    rw [List.mem_singleton.mp hrun]
    exact ⟨(Nat.zero_add _).le, Nat.dvd_mul_left _ _⟩
  have hsamples : read.samples sample (total * sample.size) [⟨0, total * sample.size⟩] =
      sample.ofBe (read.unit (total * sample.size)) := by
    rw [samples, List.flatMap_singleton, Run.slice, List.drop_zero,
      List.take_of_length_le (length_unit hunit).le]
  rw [← hsamples]
  refine ⟨?_, filled_ends hunit hvisit hpieces rfl rfl,
    fun out hout => fill_ends hunit hvisit hpieces rfl (by rw [hout]; rfl)⟩
  rw [hsamples, sample.length_ofBe, length_unit hunit, Nat.mul_div_cancel _ sample.size_pos]

/-- A section with an empty range, or of an image with no axes, reads as nothing. -/
theorem sectionReads_empty {total : ℕ} (hnil : shape = [] → total = 0)
    (hunit : read.dataOffset + total * sample.size ≤ read.data.source.size)
    (hregion : checkImageRegion ranges shape = .ok ())
    (hempty : ranges = [] ∨ ∃ range ∈ ranges, range.stop ≤ range.start) :
    SectionReads read sample shape ranges total
      (.part ⟨shape, ranges, regionShape ranges, sample.size⟩ 0) 0 []
      (sample.ofBe (read.unit (total * sample.size))) [] := by
  have hranges := checkImageRegion_ok hregion
  have hcount : shapeProduct (regionShape ranges) = .ok 0 := by
    refine if_pos ?_
    rcases hempty with rfl | ⟨range, hrange, hstop⟩
    · exact Or.inl rfl
    · exact Or.inr (List.mem_map.mpr ⟨range, hrange, Nat.sub_eq_zero_of_le hstop⟩)
  have hvisit : Hands (StoredRuns.part ⟨shape, ranges, regionShape ranges, sample.size⟩ 0).visit []
      (.ok ()) := visit_empty hranges sample.size hempty
  have hpieces : Whole sample (total * sample.size) [] :=
    fun run hrun => absurd hrun List.not_mem_nil
  have hwhole := @all_reads _ read sample total hunit
  refine ⟨?_, hcount, hvisit, fun run hrun => absurd hrun List.not_mem_nil, .nil,
    (Nat.zero_mul _).symm, rfl, hwhole, ⟨rfl, ?_, ?_⟩, ?_⟩
  · rw [StoredRuns.ofSection, validateImageRegion_eq hregion, Loops.bind_ok rfl, hcount,
      Loops.bind_ok rfl, checkedMul, Nat.zero_mul, if_pos (Nat.zero_le _)]
    rfl
  · exact filled_ends hunit hvisit hpieces rfl (Nat.zero_mul _)
  · intro out hout
    exact fill_ends hunit hvisit hpieces rfl (by rw [hout, Nat.zero_mul]; rfl)
  · intro cs hin
    rcases hempty with rfl | ⟨range, hrange, hstop⟩
    · rw [hnil (List.forall₂_nil_left_iff.mp hranges)] at hwhole ⊢
      rw [List.eq_nil_of_length_eq_zero hwhole.1]
      rfl
    · obtain ⟨i, hi, rfl⟩ := List.mem_iff_getElem.mp hrange
      have hlt := (List.forall₂_iff_get.mp hin).2 i hi (by rw [← hin.length_eq]; exact hi)
      simp only [List.get_eq_getElem] at hlt
      omega

/-- A section of a plain image reads as the crop of the whole, from any source, through the
runs of its rows joined. -/
theorem plain_section_reads_as_crop (read : PlainRead) (sample : Sample τ) {total : ℕ}
    (htotal : shapeProduct shape = .ok total)
    (hunit : Source.checkRange read.dataOffset (total * sample.size) read.data.source.size =
      .ok ()) (hregion : checkImageRegion ranges shape = .ok ()) :
    ∃ runs count pieces plane cut,
      SectionReads read sample shape ranges total runs count pieces plane cut := by
  obtain ⟨hprod, hnil, -⟩ := shapeProduct_eq_ok htotal
  have hunit := Source.checkRange_eq_ok_iff.mp hunit
  have hsized : read.data.source.size ≤ usizeMax := read.data.source.sized
  by_cases hempty : ranges = [] ∨ ∃ range ∈ ranges, range.stop ≤ range.start
  · exact ⟨_, _, _, _, _, sectionReads_empty hnil hunit hregion hempty⟩
  obtain ⟨hne, hfilled⟩ := not_or.mp hempty
  have hranges := checkImageRegion_ok hregion
  have h : Stored ranges shape :=
    ⟨hranges, fun range hrange => not_le.mp fun hle => hfilled ⟨range, hrange, hle⟩⟩
  have hshape : shape ≠ [] := by
    rintro rfl
    exact hne (List.forall₂_nil_right_iff.mp hranges)
  obtain rfl := hprod hshape
  have hbytes : shape.prod * sample.size ≤ usizeMax := by omega
  have hmax : shape.prod ≤ usizeMax := le_trans (Nat.le_mul_of_pos_right _ sample.size_pos) hbytes
  have hle := regionShape_prod_le hranges
  have hshapeNil : regionShape ranges ≠ [] := by
    rw [regionShape, Ne, List.map_eq_nil_iff]
    exact hne
  have hcount := shapeProduct_of_le fun _ => le_trans hle hmax
  rw [if_neg hshapeNil] at hcount
  have hlen : (regionShape ranges).prod * sample.size ≤ usizeMax :=
    le_trans (Nat.mul_le_mul_right _ hle) hbytes
  have hvisit : Hands (StoredRuns.part ⟨shape, ranges, regionShape ranges, sample.size⟩
      ((regionShape ranges).prod * sample.size)).visit
      (Run.join (sectionRows ranges shape sample.size)) (.ok ()) :=
    visit_hands h hne sample.size_pos hbytes
  have hpieces := (@whole_sectionRows _ sample _ _ h hne).join
  obtain ⟨hrow, -, hsplit⟩ := regionShape_split h hne
  have hsum : ((Run.join (sectionRows ranges shape sample.size)).map Run.len).sum =
      (regionShape ranges).prod * sample.size := by
    rw [Run.sum_len_join, sectionRows, List.map_map, ← hsplit]
    have hlens : (List.range (regionShape ranges).tail.prod).map
        (Run.len ∘ sectionRow ranges shape sample.size) =
          List.replicate (regionShape ranges).tail.prod
            ((regionShape ranges).headD 0 * sample.size) := by
      rw [List.eq_replicate_iff]
      refine ⟨by rw [List.length_map, List.length_range], fun len hmem => ?_⟩
      obtain ⟨row, -, rfl⟩ := List.mem_map.mp hmem
      rfl
    rw [hlens, List.sum_replicate_nat, Nat.mul_assoc]
  have hcut := samples_join h hne hunit
  refine ⟨.part ⟨shape, ranges, regionShape ranges, sample.size⟩
      ((regionShape ranges).prod * sample.size), (regionShape ranges).prod, _, _, _, ?_, hcount,
    hvisit, ?_, Run.isChain_join (isChain_sectionRows h hne _), rfl, hsum, all_reads hunit,
    ⟨?_, filled_ends hunit hvisit hpieces hsum rfl, fun out hout =>
      fill_ends hunit hvisit hpieces hsum (by rw [hout]; rfl)⟩, ?_⟩
  · rw [StoredRuns.ofSection, validateImageRegion_eq hregion, Loops.bind_ok rfl, hcount,
      Loops.bind_ok rfl, checkedMul, if_pos hlen]
    rfl
  · refine Run.forall_join (fun a b ha hb hjoin => ?_) fun run hrun => ?_
    · have hstop := hb.2
      unfold Run.stop at hjoin hstop ⊢
      dsimp only
      omega
    · obtain ⟨row, hrow', rfl⟩ := List.mem_map.mp hrun
      exact ⟨Nat.mul_pos hrow sample.size_pos,
        sectionRow_stop_le h hne _ (List.mem_range.mp hrow')⟩
  · rw [hcut, List.length_map, List.length_range]
  · intro cs hin
    obtain ⟨hlt, hcell⟩ := sectionCell_relative shape hin
    have hvalue := value_lt (hin.below hranges)
    have hplane : (sample.ofBe (read.unit (shape.prod * sample.size)))[value shape cs]? =
        some (sample.nth (read.unit (shape.prod * sample.size)) (value shape cs)) := by
      rw [Sample.ofBe, List.getElem?_map, length_unit hunit,
        Nat.mul_div_cancel _ sample.size_pos, List.getElem?_range hvalue]
      rfl
    rw [hcut, List.getElem?_map, List.getElem?_range hlt, Option.map_some, hcell, hplane]

/-- Two-byte samples of a little-endian host. -/
def shorts : Sample ℕ where
  size := 2
  size_mem := by decide
  zero := 0
  fromBeBytes := Bytes.ofBeBytes
  fromNeBytes := Bytes.ofLeBytes
  toNeBytes := Bytes.leBytes 2
  toNeBytes_fromNeBytes := by
    intro bytes h
    rw [Bytes.leBytes, Bytes.ofLeBytes, ← List.length_reverse.trans h, Bytes.beBytes_ofBeBytes,
      List.reverse_reverse]

/-- An image of three axes after two bytes of a stream. -/
def cube : PlainRead where
  data := {
    source := ⟨List.replicate 2 0 ++ (List.range 24).map UInt8.ofNat, fun _ => none, by decide⟩
    resident := false }
  dataOffset := 2

/-- The two rows of a section that meet join, and the next ones do not. -/
theorem plain_section_reads_as_crop_cube :
    (∃ runs count pieces plane cut, SectionReads cube shorts [2, 3, 2]
      [⟨0, 2⟩, ⟨1, 3⟩, ⟨0, 2⟩] 12 runs count pieces plane cut) ∧
    (StoredRuns.ofSection [2, 3, 2] [⟨0, 2⟩, ⟨1, 3⟩, ⟨0, 2⟩] 2 >>= fun runs =>
      cube.filled shorts runs 8) = .ok ([4, 6, 8, 10, 16, 18, 20, 22].map fun b => b * 257 + 1) :=
  ⟨plain_section_reads_as_crop cube shorts (by decide +kernel) (by decide +kernel)
    (by decide +kernel), by decide +kernel⟩

end PlainRead

end FitsWell
