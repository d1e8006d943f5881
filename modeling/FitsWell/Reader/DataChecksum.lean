import FitsWell.Checksum.Running
import FitsWell.Hdu.Scan
import FitsWell.Reader.SectionReads

/-!
# A sum from what decodes read

The sum of a data unit takes the bytes that decodes read where they continue the bytes it
has summed, and reads the rest of the unit at its end. What was read before, and in what
order, changes nothing: the sum is that of the whole unit.
-/

namespace FitsWell

open Bytes OnesComplement
open Checksum (Running accumulate allOnes)

/-! ## Reads in chunks -/

/-- The bytes a chunked read takes at a time. -/
def sourceChunk : ℕ := 2 ^ 20

namespace DataSource

variable {σ : Type}

/-- The `len` bytes at `offset`. -/
def slice (data : DataSource) (offset len : ℕ) : Outcome (List UInt8) :=
  if data.resident then
    data.residentRange offset len
  else do
    Source.checkRange offset len data.source.size
    data.source.readAppend offset len []

/-- The chunks of a stream from `place` of the `len` bytes at `offset` on. -/
def streamChunks (data : DataSource) (each : σ → ℕ → List UInt8 → Outcome σ) (offset len : ℕ)
    (place : ℕ) (s : σ) : Outcome σ :=
  if _h : place < len then do
    let take := min sourceChunk (len - place)
    let chunkOffset ← offsetAt offset place
    let bytes ← data.slice chunkOffset take
    let s ← each s chunkOffset bytes
    streamChunks data each offset len (place + take) s
  else
    .ok s
termination_by len - place
decreasing_by
  have hchunk : 0 < sourceChunk := by decide
  omega

/-- Give `each` the `len` bytes at `offset`, at once or a chunk at a time. -/
def chunks (data : DataSource) (each : σ → ℕ → List UInt8 → Outcome σ) (offset len : ℕ) (s : σ) :
    Outcome σ :=
  if data.resident then do
    let bytes ← data.residentRange offset len
    each s offset bytes
  else
    data.streamChunks each offset len 0 s

end DataSource

/-! ## The sum of a data unit -/

/-- The sum of an HDU's padded data unit, of the bytes before `next`. -/
structure DataChecksum where
  stop : ℕ
  next : ℕ
  sum : Running
  deriving Repr

/-- Bytes that a decode read at an offset of the file. -/
structure FedRun where
  offset : ℕ
  bytes : List UInt8
  deriving DecidableEq, Repr

namespace DataChecksum

/-- The sum of nothing of the data unit of `hdu`. -/
def of {R : Type} (hdu : Hdu R) : Outcome DataChecksum := do
  let stop ← addUsize hdu.dataOffset hdu.paddedDataBytes
  .ok ⟨stop, hdu.dataOffset, Running.new⟩

/-- How many of `bytes` at `offset` are summed already, where some are not. -/
def skipOf (state : DataChecksum) (offset : ℕ) (bytes : List UInt8) : Option ℕ :=
  if offset ≤ state.next ∧ state.next - offset < bytes.length then some (state.next - offset)
  else none

/-- Sum the part of `bytes` at `offset` that continues what is summed. -/
def feed (state : DataChecksum) (offset : ℕ) (bytes : List UInt8) : Outcome DataChecksum :=
  match state.skipOf offset bytes with
  | none => .ok state
  | some skip =>
    if state.next ≥ state.stop then
      .ok state
    else do
      let rest ← subUsize bytes.length skip
      let unsummed ← subUsize state.stop state.next
      let take := min rest unsummed
      let next ← addUsize state.next take
      let part ← subslice bytes skip take
      let sum ← state.sum.update part
      .ok ⟨state.stop, next, sum⟩

/-- Sum what continues the sum of each of these in turn. -/
def feeds (state : DataChecksum) (runs : List FedRun) : Outcome DataChecksum :=
  runs.foldlM (fun state run => state.feed run.offset run.bytes) state

/-- The sum of the whole unit, the rest of it read from `data`. -/
def total (state : DataChecksum) (data : DataSource) : Outcome ℕ := do
  let remaining ← subUsize state.stop state.next
  let state ← data.chunks feed state.next remaining state
  debugAssert (state.next = state.stop)
  state.sum.finish

end DataChecksum

/-! ## The bytes of a source -/

namespace Source

/-- The bytes of a file from one offset to another. -/
def between (source : Source) (start stop : ℕ) : List UInt8 :=
  (source.bytes.drop start).take (stop - start)

/-- A file holds these bytes at `offset`. -/
def HasBytes (source : Source) (offset : ℕ) (bytes : List UInt8) : Prop :=
  (source.bytes.drop offset).take bytes.length = bytes

variable {source : Source} {start middle stop offset len : ℕ} {bytes : List UInt8}

theorem length_between (h : stop ≤ source.size) :
    (source.between start stop).length = stop - start := by
  unfold size at h
  rw [between, List.length_take, List.length_drop]
  omega

theorem between_append (hstart : start ≤ middle) (hstop : middle ≤ stop) :
    source.between start middle ++ source.between middle stop = source.between start stop := by
  have hsplit : stop - start = (middle - start) + (stop - middle) := by omega
  have hmiddle : middle = start + (middle - start) := by omega
  rw [between, between, between, hsplit, List.take_add, List.drop_drop, ← hmiddle]

theorem HasBytes.stop_le (h : source.HasBytes offset bytes) (hbytes : 0 < bytes.length) :
    offset + bytes.length ≤ source.size := by
  have hlength := congrArg List.length h
  rw [List.length_take, List.length_drop] at hlength
  unfold size
  omega

/-- A part of bytes of the file is that part of the file. -/
theorem HasBytes.part (h : source.HasBytes offset bytes) {skip take : ℕ}
    (hle : skip + take ≤ bytes.length) :
    (bytes.drop skip).take take = source.between (offset + skip) (offset + skip + take) := by
  rw [← h, List.drop_take, List.take_take, List.drop_drop, between, Nat.add_sub_cancel_left,
    Nat.min_eq_left (by omega)]

theorem hasBytes_take (h : offset + len ≤ source.size) :
    source.HasBytes offset ((source.bytes.drop offset).take len) := by
  unfold size at h
  rw [HasBytes, List.length_take, List.length_drop, Nat.min_eq_left (by omega)]

end Source

namespace DataSource

variable {data : DataSource} {offset len stop : ℕ}

/-- How a read up to `stop` fails: the stream's own error, or the end of the file. -/
def Unread (data : DataSource) (stop : ℕ) (fault : Fault) : Prop :=
  data.Broken fault ∨ (data.source.size < stop ∧ fault = .err .unexpectedEof)

/-- The bytes of a range, where the file has it. -/
def Ranged (data : DataSource) (offset len : ℕ) (bytes : List UInt8) : Prop :=
  offset + len ≤ data.source.size ∧ bytes = (data.source.bytes.drop offset).take len

theorem checkRange_ends (hstop : offset + len ≤ stop) : Loops.Ends (data.Unread stop)
    (fun _ => offset + len ≤ data.source.size)
    (Source.checkRange offset len data.source.size) := by
  have hsized : data.source.size ≤ usizeMax := data.source.sized
  by_cases hle : offset + len ≤ data.source.size
  · exact .of_ok (Source.checkRange_eq_ok_iff.mpr hle) hle
  · have heof : Source.checkRange offset len data.source.size = fail .unexpectedEof := by
      unfold Source.checkRange
      split
      · rename_i last hlast
        obtain ⟨-, rfl⟩ := checkedAdd_eq_some_iff.mp hlast
        exact if_pos (by omega)
      · rfl
    rw [heof]
    exact .error (Or.inr ⟨by omega, rfl⟩)

theorem residentRange_ends (hstop : offset + len ≤ stop) :
    Loops.Ends (data.Unread stop) (data.Ranged offset len) (data.residentRange offset len) :=
  (checkRange_ends hstop).bind fun _ hle => .of_ok (subslice_of_le hle) ⟨hle, rfl⟩

theorem slice_ends (hstop : offset + len ≤ stop) :
    Loops.Ends (data.Unread stop) (data.Ranged offset len) (data.slice offset len) := by
  unfold slice
  cases hresident : data.resident with
  | true => exact residentRange_ends hstop
  | false =>
    refine (checkRange_ends hstop).bind fun _ hle => (checkRange_ends hstop).bind fun _ _ => ?_
    cases hfault : data.source.fault offset with
    | none => exact .ok ⟨hle, rfl⟩
    | some error => exact .error (Or.inl ⟨hresident, offset, error, hfault, rfl⟩)

end DataSource

/-! ## What a sum has taken -/

namespace DataChecksum

/-- The bytes of the unit from `start` to `stop` that a sum has taken: each of those before
`next` once, and no other. -/
structure Sums (state : DataChecksum) (source : Source) (start stop : ℕ) : Prop where
  stop_eq : state.stop = stop
  start_le : start ≤ state.next
  next_le : state.next ≤ stop
  inside : state.next ≤ source.size
  sum : state.sum.Sums (source.between start state.next)

variable {state : DataChecksum} {source : Source} {start stop : ℕ}

theorem skipOf_eq_some_iff {offset skip : ℕ} {bytes : List UInt8} :
    state.skipOf offset bytes = some skip ↔
      offset + skip = state.next ∧ skip < bytes.length := by
  unfold skipOf
  split
  · rename_i h
    rw [Option.some.injEq]
    omega
  · rename_i h
    simp only [reduceCtorEq, false_iff]
    omega

theorem skipOf_eq_none_iff {offset : ℕ} {bytes : List UInt8} :
    state.skipOf offset bytes = none ↔
      state.next < offset ∨ offset + bytes.length ≤ state.next := by
  unfold skipOf
  split <;> simp only [reduceCtorEq, false_iff, true_iff] <;> omega

/-- Bytes of the file keep a sum, and take it to their end where they reach its place. -/
theorem feed_sums (h : state.Sums source start stop) (hstop : stop ≤ usizeMax) {offset : ℕ}
    {bytes : List UInt8} (hbytes : source.HasBytes offset bytes) :
    ∃ fed, state.feed offset bytes = .ok fed ∧ fed.Sums source start stop ∧
      (offset ≤ state.next → fed.next = max state.next (min stop (offset + bytes.length))) := by
  obtain ⟨hstopEq, hstart, hnext, hinside, hsum⟩ := id h
  unfold feed
  cases hskip : state.skipOf offset bytes with
  | none =>
    have hplace := skipOf_eq_none_iff.mp hskip
    exact ⟨state, rfl, h, fun hle => by omega⟩
  | some skip =>
    obtain ⟨hplace, hlt⟩ := skipOf_eq_some_iff.mp hskip
    dsimp only
    split
    · exact ⟨state, rfl, h, fun _ => by omega⟩
    · have hend := hbytes.stop_le (by omega)
      obtain ⟨take, htake⟩ : ∃ take, take = min (bytes.length - skip) (state.stop - state.next) :=
        ⟨_, rfl⟩
      have hpart : (bytes.drop skip).take take = source.between state.next (state.next + take) := by
        rw [hbytes.part (by omega), hplace]
      obtain ⟨sum, hupdate, hsums⟩ := Running.update_sums hsum ((bytes.drop skip).take take)
      rw [hpart, Source.between_append hstart (by omega)] at hsums
      have hle : start ≤ state.next + take := by omega
      have hnextStop : state.next + take ≤ stop := by omega
      have htaken : state.next + take ≤ source.size := by omega
      have hplaced : state.next + take = max state.next (min stop (offset + bytes.length)) := by omega
      refine ⟨⟨state.stop, state.next + take, sum⟩, ?_, ⟨hstopEq, hle, hnextStop, htaken, hsums⟩,
        fun _ => hplaced⟩
      rw [Loops.bind_ok (subUsize_of_le (by omega)), Loops.bind_ok (subUsize_of_le (by omega)),
        ← htake, Loops.bind_ok (addUsize_of_le (by omega)),
        Loops.bind_ok (subslice_of_le (by omega)), Loops.bind_ok hupdate]

/-- Whatever was read, in whatever order, a sum has taken the front of its unit. -/
theorem feeds_sums (h : state.Sums source start stop) (hstop : stop ≤ usizeMax)
    {runs : List FedRun} (htrue : ∀ run ∈ runs, source.HasBytes run.offset run.bytes) :
    ∃ fed, state.feeds runs = .ok fed ∧ fed.Sums source start stop := by
  induction runs generalizing state with
  | nil => exact ⟨state, rfl, h⟩
  | cons run runs ih =>
    obtain ⟨fed, hfeed, hfed, -⟩ := feed_sums h hstop (htrue run List.mem_cons_self)
    obtain ⟨last, hlast, hsums⟩ := ih hfed fun other hother =>
      htrue other (List.mem_cons_of_mem run hother)
    refine ⟨last, ?_, hsums⟩
    rw [feeds, List.foldlM_cons, Loops.bind_ok hfeed]
    exact hlast

/-! ## The rest of the unit -/

variable {data : DataSource}

/-- A sum that has taken the whole unit. -/
def Whole (state : DataChecksum) (source : Source) (start stop : ℕ) : Prop :=
  state.Sums source start stop ∧ state.next = stop

theorem streamChunks_ends {offset len place : ℕ} (h : state.Sums data.source start stop)
    (hstop : stop ≤ usizeMax) (hlen : offset + len = stop) (hplace : place ≤ len)
    (hnext : state.next = offset + place) :
    Loops.Ends (data.Unread stop) (Whole · data.source start stop)
      (data.streamChunks feed offset len place state) := by
  fun_induction DataSource.streamChunks data feed offset len place state with
  | case1 place state hlt take ih =>
    have hchunk : 0 < sourceChunk := by decide
    refine Loops.Ends.bind (P := (· = offset + place)) (.of_ok (offsetAt_of_le (by omega)) rfl) ?_
    rintro chunkOffset rfl
    refine Loops.Ends.bind (DataSource.slice_ends (by omega)) fun bytes hbytes => ?_
    obtain ⟨hinside, rfl⟩ := hbytes
    obtain ⟨fed, hfeed, hfed, hfedNext⟩ := feed_sums h hstop (Source.hasBytes_take hinside)
    have hplaced : fed.next = offset + (place + take) := by
      have hlength : ((data.source.bytes.drop (offset + place)).take take).length = take := by
        unfold Source.size at hinside
        rw [List.length_take, List.length_drop]
        omega
      rw [hfedNext (by omega), hlength]
      omega
    rw [Loops.bind_ok hfeed]
    exact ih fed hfed (by omega) hplaced
  | case2 place state hend => exact .ok ⟨h, by omega⟩

theorem chunks_ends (h : state.Sums data.source start stop) (hstop : stop ≤ usizeMax) :
    Loops.Ends (data.Unread stop) (Whole · data.source start stop)
      (data.chunks feed state.next (stop - state.next) state) := by
  have hnext := h.next_le
  unfold DataSource.chunks
  split
  · refine (DataSource.residentRange_ends (by omega)).bind fun bytes hbytes => ?_
    obtain ⟨hinside, rfl⟩ := hbytes
    obtain ⟨fed, hfeed, hfed, hfedNext⟩ := feed_sums h hstop (Source.hasBytes_take hinside)
    refine .of_ok hfeed ⟨hfed, ?_⟩
    unfold Source.size at hinside
    rw [hfedNext (le_refl _), List.length_take, List.length_drop]
    omega
  · exact streamChunks_ends h hstop (by omega) (Nat.zero_le _) (Nat.add_zero _).symm

/-- The rest of a unit read, the sum is that of the whole unit. -/
theorem total_ends (h : state.Sums data.source start stop) (hstop : stop ≤ usizeMax)
    (hwords : (stop - start) % 4 = 0) :
    Loops.Ends (data.Unread stop)
      (fun sum => stop ≤ data.source.size ∧
        sum = rep allOnes (OnesComplement.total 0 (data.source.between start stop)))
      (state.total data) := by
  unfold DataChecksum.total
  rw [Loops.bind_ok (subUsize_of_le (h.stop_eq.symm ▸ h.next_le)), h.stop_eq]
  refine (chunks_ends h hstop).bind fun whole hwhole => ?_
  obtain ⟨hsums, hnext⟩ := hwhole
  have hinside : stop ≤ data.source.size := hnext ▸ hsums.inside
  have hsum := hsums.sum
  rw [hnext] at hsum
  have hlength : (data.source.between start stop).length % 4 = 0 := by
    rw [Source.length_between hinside, hwords]
  rw [debugAssert, if_pos (hnext.trans hsums.stop_eq.symm), Loops.bind_ok rfl]
  exact .of_ok (Running.finish_sums hsum hlength).1 ⟨hinside, rfl⟩

end DataChecksum

/-! ## The unit of an HDU -/

/-- An HDU's data unit starts inside the file, and ends at an offset after whole blocks. -/
structure Hdu.Placed {R : Type} (hdu : Hdu R) (source : Source) : Prop where
  inside : hdu.dataOffset ≤ source.size
  stop_le : hdu.stop ≤ usizeMax
  padded : blockSize ∣ hdu.paddedDataBytes

section Scan

variable {R : Type} [RealWords R] {source : Source}

theorem nextHdu_placed {offset index after : ℕ} {hdu : Hdu R}
    (hok : nextHdu source offset index = .ok (some (hdu, after))) : hdu.Placed source := by
  obtain ⟨hholds, -⟩ := nextHdu_holds hok
  exact ⟨hholds.dataOffset.symm ▸ hholds.unit.inside, nextHdu_stop_le hok, hholds.padded.2.2⟩

/-- Every HDU that a scan lists is placed in its file. -/
theorem scan_placed {found : Hdus R} (hok : scan source = .ok found) :
    ∀ hdu ∈ found.hdus, hdu.Placed source := by
  intro hdu hmem
  obtain ⟨i, hi⟩ := List.mem_iff_getElem?.mp hmem
  exact scanFrom_forall (P := fun _ hdu => hdu.Placed source) nextHdu_placed (by simp) hok i hdu hi

end Scan

namespace DataChecksum

variable {R : Type} {hdu : Hdu R} {data : DataSource}

/-- The sum of nothing of the unit of an HDU. -/
theorem of_sums {source : Source} (hplaced : hdu.Placed source) :
    ∃ state, of hdu = .ok state ∧ state.Sums source hdu.dataOffset hdu.stop := by
  refine ⟨⟨hdu.stop, hdu.dataOffset, Running.new⟩,
    Loops.bind_ok (addUsize_of_le hplaced.stop_le), ?_⟩
  exact {
    stop_eq := rfl
    start_le := le_refl _
    next_le := Nat.le_add_right _ _
    inside := hplaced.inside
    sum := by
      rw [Source.between, Nat.sub_self, List.take_zero]
      exact Running.sums_new }

/-- The sum of an HDU's data unit, fed from any reads of the file. It has taken each byte of the
front of the unit once and no other, never past the unit; its total reads the rest and is the
sum of the words of the whole padded unit, wherever the file holds that and it reads. A unit
that the file cuts short, or a read that fails, is an error. -/
theorem data_checksum_sums_the_unit (hplaced : hdu.Placed data.source) {runs : List FedRun}
    (htrue : ∀ run ∈ runs, data.source.HasBytes run.offset run.bytes) :
    ∃ fed, (of hdu >>= fun state => state.feeds runs) = .ok fed ∧
      fed.stop = hdu.stop ∧ fed.next ≤ fed.stop ∧
      fed.sum.Sums (data.source.between hdu.dataOffset fed.next) ∧
      NoPanic (fed.total data) ∧
      (∀ sum, fed.total data = .ok sum → hdu.stop ≤ data.source.size ∧
        sum = rep allOnes (OnesComplement.total 0 (data.source.between hdu.dataOffset hdu.stop))) ∧
      (hdu.stop ≤ data.source.size →
        (data.resident = true ∨ ∀ place, data.source.fault place = none) →
        fed.total data = accumulate (data.source.between hdu.dataOffset hdu.stop) 0) := by
  obtain ⟨state, hof, hstate⟩ := of_sums hplaced
  obtain ⟨fed, hfeeds, hfed⟩ := feeds_sums hstate hplaced.stop_le htrue
  obtain ⟨blocks, hblocks⟩ := hplaced.padded
  have hwords : (hdu.stop - hdu.dataOffset) % 4 = 0 := by
    have hblock : blockSize = 4 * 720 := rfl
    rw [Hdu.stop, Nat.add_sub_cancel_left, hblocks, hblock, Nat.mul_assoc, Nat.mul_mod_right]
  have hends := total_ends hfed hplaced.stop_le hwords
  refine ⟨fed, (Loops.bind_ok hof).trans hfeeds, hfed.stop_eq, hfed.stop_eq ▸ hfed.next_le,
    hfed.sum, ?_, fun sum hsum => hends.value hsum, fun hinside hreads => ?_⟩
  · rintro panic hpanic
    rw [hpanic] at hends
    rcases hends with ⟨-, -, error, -, herror⟩ | ⟨-, herror⟩ <;> cases herror
  · cases htotal : fed.total data with
    | ok sum =>
      have hlength : (data.source.between hdu.dataOffset hdu.stop).length % 4 = 0 := by
        rw [Source.length_between hinside, hwords]
      rw [(hends.value htotal).2, Checksum.accumulate_eq hlength (Nat.zero_le _), Nat.zero_add]
    | error fault =>
      rw [htotal] at hends
      rcases hends with ⟨hstream, place, error, hfault, -⟩ | ⟨hcut, -⟩
      · rcases hreads with hresident | hnone
        · rw [hstream] at hresident
          cases hresident
        · rw [hnone place] at hfault
          cases hfault
      · omega

/-- A file of `n` equal bytes. -/
def uniform (n : ℕ) (h : n ≤ usizeMax) : Source where
  bytes := List.replicate n 1
  fault := fun _ => none
  sized := by rwa [List.length_replicate]

theorem size_uniform {n : ℕ} (h : n ≤ usizeMax) : (uniform n h).size = n := List.length_replicate

theorem hasBytes_uniform {n offset len : ℕ} (h : n ≤ usizeMax) (hlen : offset + len ≤ n) :
    (uniform n h).HasBytes offset (List.replicate len 1) := by
  rw [Source.HasBytes, uniform, List.length_replicate, List.drop_replicate, List.take_replicate,
    Nat.min_eq_left (by omega)]

/-- Runs before the unit, inside it out of order, over each other, and past its end. -/
theorem data_checksum_sums_the_unit_overlapping :
    ∃ fed, (of (⟨0, .new, .primary, 0, 0, 2880, 1, 4, 2880⟩ : Hdu ℤ) >>= fun state =>
      state.feeds [⟨0, List.replicate 3 1⟩, ⟨2900, List.replicate 2 1⟩, ⟨2879, List.replicate 4 1⟩,
        ⟨2881, List.replicate 9 1⟩, ⟨5760, List.replicate 0 1⟩]) = .ok fed ∧
      fed.total ⟨uniform 5760 (by decide), false⟩ =
        accumulate ((uniform 5760 (by decide)).between 2880 5760) 0 := by
  have hsize := size_uniform (by decide : 5760 ≤ usizeMax)
  have hruns : ∀ run ∈ ([⟨0, List.replicate 3 1⟩, ⟨2900, List.replicate 2 1⟩,
      ⟨2879, List.replicate 4 1⟩, ⟨2881, List.replicate 9 1⟩, ⟨5760, List.replicate 0 1⟩] :
        List FedRun), (uniform 5760 (by decide)).HasBytes run.offset run.bytes := by
    simp only [List.forall_mem_cons, List.not_mem_nil, false_implies, implies_true, and_true]
    refine ⟨?_, ?_, ?_, ?_, ?_⟩ <;> exact hasBytes_uniform _ (by decide)
  obtain ⟨fed, hfed, -, -, -, -, -, hsum⟩ :=
    @data_checksum_sums_the_unit ℤ ⟨0, .new, .primary, 0, 0, 2880, 1, 4, 2880⟩
      ⟨uniform 5760 (by decide), false⟩ ⟨by dsimp only; omega, by decide, by decide⟩ _ hruns
  exact ⟨fed, hfed, hsum hsize.ge (Or.inr fun _ => rfl)⟩

end DataChecksum

end FitsWell
