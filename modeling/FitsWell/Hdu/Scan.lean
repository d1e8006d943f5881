import FitsWell.Hdu.Hdus

/-!
# The scan of a file

Each step of a scan reads a header unit inside the file and leaves the scan inside the
file, nearer to its end, so the scan ends, with the HDUs one after another.
-/

namespace FitsWell

open Checksum (accumulate accumulate_eq allOnes)
open Chunks (chunk)
open OnesComplement (rep rep_le)

/-! ## Header units -/

/-- A header unit of `blocks` blocks at `start` of a file: the last holds its `END` record,
and no other one does. -/
structure Source.HasUnit (source : Source) (start blocks : ℕ) : Prop where
  pos : 0 < blocks
  inside : start + blocks * blockSize ≤ source.size
  ends : ∀ j < blocks,
    blockHasEnd (chunk (source.bytes.drop start) blockSize j) = decide (j + 1 = blocks)

/-- The bytes of so many blocks at `start`. -/
def Source.blocksAt (source : Source) (start blocks : ℕ) : Text :=
  (source.bytes.drop start).take (blocks * blockSize)

/-- A cursor that has read `blocks` blocks from `start` on, none with an `END` record. -/
structure HeaderCursor.Within (cursor : HeaderCursor) (source : Source) (start blocks : ℕ) :
    Prop where
  offset : cursor.offset = start + blocks * blockSize
  inside : cursor.offset ≤ source.size
  bytes : cursor.bytes = source.blocksAt start blocks
  sum : cursor.sum ≤ allOnes
  unended : ∀ j < blocks, blockHasEnd (chunk (source.bytes.drop start) blockSize j) = false

theorem Source.length_blocksAt {source : Source} {start blocks : ℕ}
    (h : start + blocks * blockSize ≤ source.size) :
    (source.blocksAt start blocks).length = blocks * blockSize := by
  unfold size at h
  rw [blocksAt, List.length_take, List.length_drop]
  omega

/-- The blocks read, with the next one. -/
theorem Source.blocksAt_succ (source : Source) (start blocks : ℕ) :
    source.blocksAt start (blocks + 1) = source.blocksAt start blocks ++
      (source.bytes.drop (start + blocks * blockSize)).take blockSize := by
  rw [blocksAt, blocksAt, Nat.add_mul, Nat.one_mul, List.take_add, List.drop_drop]

section Step

variable {source : Source} {position : HduPosition} {cursor : HeaderCursor} {start blocks : ℕ}
  (h : cursor.Within source start blocks)
include h

/-- Nothing is read yet only where the unit starts. -/
theorem HeaderCursor.Within.offset_of_empty (hempty : cursor.bytes = []) :
    cursor.offset = start := by
  have hlength := Source.length_blocksAt (h.offset ▸ h.inside)
  rw [← h.bytes, hempty, List.length_nil] at hlength
  rw [h.offset, ← hlength, Nat.add_zero]

theorem noPanic_headerStep : NoPanic (headerStep source position cursor) := by
  have hblock : blockSize = 2880 := rfl
  refine NoPanic.bind (NoPanic.of_ok (subUsize_of_le h.inside)) (fun avail havail => ?_)
  obtain ⟨-, rfl⟩ := subUsize_eq_ok_iff.mp havail
  refine NoPanic.ite (fun _ => ?_) (fun hnonzero => NoPanic.ite (fun _ => ?_) (fun hwhole => ?_))
  · exact NoPanic.ite (fun _ => NoPanic.ok _) (fun _ => NoPanic.fail _)
  · exact NoPanic.ite (fun _ => NoPanic.ok _) (fun _ => NoPanic.fail _)
  refine NoPanic.bind (noPanic_readAppend _ _ _ _) (fun bytes hbytes => ?_)
  obtain ⟨block, hbytesblock⟩ : ∃ block, block = (source.bytes.drop cursor.offset).take blockSize :=
    ⟨_, rfl⟩
  have hlength : block.length = blockSize := by
    unfold Source.size at hwhole
    rw [hbytesblock, List.length_take, List.length_drop]
    omega
  rw [readAppend_eq_ok hbytes, List.drop_left, ← hbytesblock]
  refine NoPanic.bind (NoPanic.of_ok (subslice_of_le (by omega))) (fun keyword _ => ?_)
  refine NoPanic.ite (fun _ => NoPanic.fail _) (fun _ => NoPanic.ite (fun _ => NoPanic.ok _) ?_)
  intro _
  have hroom : cursor.offset + blockSize ≤ usizeMax := by
    have := source.sized
    unfold Source.size at hwhole
    omega
  refine NoPanic.bind (NoPanic.of_ok (addUsize_of_le hroom)) (fun _ _ => ?_)
  refine NoPanic.bind (NoPanic.of_ok (accumulate_eq (by omega) h.sum)) (fun _ _ => ?_)
  exact NoPanic.ite (fun _ => NoPanic.ok _) (fun _ => NoPanic.ok _)

/-- What a step finds, or where it leaves the cursor. -/
theorem headerStep_within {step : HeaderStep}
    (hstep : headerStep source position cursor = .ok step) :
    match step with
    | .done (.found bytes _) stop => source.HasUnit start (blocks + 1) ∧
        stop = start + (blocks + 1) * blockSize ∧ bytes = source.blocksAt start (blocks + 1)
    | .done _ stop => stop = start
    | .more next => next.Within source start (blocks + 1) := by
  rcases headerStep_cases hstep with ⟨hempty, hdone⟩ | ⟨sum, hinside, hsum, hdone⟩
  · have hoffset := h.offset_of_empty hempty
    rcases hdone with rfl | rfl
    · exact hoffset
    · exact hoffset
  · have hnext : cursor.offset + blockSize = start + (blocks + 1) * blockSize := by
      rw [h.offset, Nat.add_mul, Nat.one_mul, Nat.add_assoc]
    have hchunk : (source.bytes.drop cursor.offset).take blockSize =
        chunk (source.bytes.drop start) blockSize blocks := by
      rw [chunk, List.drop_drop, h.offset]
    have hbytes : cursor.bytes ++ (source.bytes.drop cursor.offset).take blockSize =
        source.blocksAt start (blocks + 1) := by
      rw [Source.blocksAt_succ, h.bytes, h.offset]
    rw [hbytes, hnext] at hdone
    rw [hnext] at hinside
    split at hdone
    · rename_i hend
      rw [hchunk] at hend
      subst hdone
      refine ⟨⟨Nat.succ_pos blocks, hinside, fun j hj => ?_⟩, rfl, rfl⟩
      rcases Nat.lt_succ_iff_lt_or_eq.mp hj with hlt | rfl
      · rw [h.unended j hlt, eq_comm, decide_eq_false_iff_not]
        omega
      · rw [hend, eq_comm, decide_eq_true_iff]
    · rename_i hend
      rw [hchunk] at hend
      subst hdone
      have hblock : blockSize = 2880 := rfl
      have hwhole : ((source.bytes.drop cursor.offset).take blockSize).length % 4 = 0 := by
        unfold Source.size at hinside
        rw [List.length_take, List.length_drop, Nat.min_eq_left (by omega), hblock]
      rw [accumulate_eq hwhole h.sum] at hsum
      refine ⟨rfl, hinside, rfl, Except.ok.inj hsum ▸ rep_le _ (by decide), fun j hj => ?_⟩
      rcases Nat.lt_succ_iff_lt_or_eq.mp hj with hlt | rfl
      · exact h.unended j hlt
      · exact Bool.eq_false_of_not_eq_true hend

end Step

/-- A header unit that a scan reads from a cursor on. -/
theorem nextHeader_spec {source : Source} {position : HduPosition} {cursor : HeaderCursor}
    {start blocks : ℕ} (h : cursor.Within source start blocks) :
    NoPanic (nextHeader source position cursor) ∧
    ∀ next stop, nextHeader source position cursor = .ok (next, stop) →
      match next with
      | .found bytes _ => ∃ n, source.HasUnit start n ∧ stop = start + n * blockSize ∧
          bytes = source.blocksAt start n
      | _ => stop = start := by
  fun_induction nextHeader source position cursor generalizing blocks with
  | case1 cursor fault hstep =>
    exact ⟨(noPanic_headerStep h).error hstep, fun _ _ hok => by cases hok⟩
  | case2 cursor next offset hstep =>
    refine ⟨NoPanic.ok _, fun found stop hok => ?_⟩
    obtain ⟨rfl, rfl⟩ := Prod.mk.inj (Except.ok.inj hok)
    have hwithin := headerStep_within h hstep
    cases next with
    | found bytes sum => exact ⟨blocks + 1, hwithin⟩
    | ended => exact hwithin
    | trailing => exact hwithin
  | case3 cursor next hstep ih => exact ih (headerStep_within h hstep)

/-- A header unit is read from inside the file only. -/
theorem offset_le_of_nextHeader {source : Source} {position : HduPosition} {cursor : HeaderCursor}
    {next : NextHeader × ℕ} (h : nextHeader source position cursor = .ok next) :
    cursor.offset ≤ source.size := by
  have hstep : ∀ step, headerStep source position cursor = .ok step →
      cursor.offset ≤ source.size := by
    intro step hok
    obtain ⟨avail, havail, -⟩ := Loops.ok_of_bind hok
    exact (subUsize_eq_ok_iff.mp havail).1
  rw [nextHeader] at h
  split at h
  · cases h
  · exact hstep _ ‹_›
  · exact hstep _ ‹_›

/-! ## HDUs -/

variable {R : Type}

/-- The end of an HDU's data unit, rounded up to whole blocks. -/
def Hdu.stop (hdu : Hdu R) : ℕ := hdu.dataOffset + hdu.paddedDataBytes

variable [RealWords R]

/-- A file holds an HDU at `offset`: its header unit starts there and its data unit follows
it, of the length that the header declares. -/
structure Source.HoldsHdu (source : Source) (index offset : ℕ) (hdu : Hdu R) : Prop where
  place : hdu.index = index
  headerOffset : hdu.headerOffset = offset
  unit : source.HasUnit offset hdu.headerBlocks
  dataOffset : hdu.dataOffset = offset + hdu.headerBlocks * blockSize
  header : Header.parse (source.blocksAt offset hdu.headerBlocks) = .ok hdu.header
  kind : HduKind.fromHeader hdu.header (HduPosition.ofIndex index) = .ok hdu.kind
  dataBytes : hdu.kind.dataBytes hdu.header = .ok hdu.dataBytes
  padded : hdu.dataBytes ≤ hdu.paddedDataBytes ∧
    hdu.paddedDataBytes < hdu.dataBytes + blockSize ∧ blockSize ∣ hdu.paddedDataBytes

/-- An HDU that the header unit of `blocks` blocks at `offset` parses to is held there. -/
theorem Hdu.holds_of_parse {source : Source} {index offset blocks sum : ℕ} {hdu : Hdu R}
    (hunit : source.HasUnit offset blocks)
    (h : Hdu.parse index ⟨source.blocksAt offset blocks, sum, offset⟩ = .ok hdu) :
    source.HoldsHdu index offset hdu := by
  obtain ⟨header, hheader, h⟩ := Loops.ok_of_bind h
  obtain ⟨kind, hkind, h⟩ := Loops.ok_of_bind h
  obtain ⟨dataBytes, hbytes, h⟩ := Loops.ok_of_bind h
  obtain ⟨dataOffset, hoffset, h⟩ := Loops.ok_of_bind h
  obtain ⟨-, rfl⟩ := addUsize_eq_ok_iff.mp hoffset
  have hlength := Source.length_blocksAt hunit.inside
  have hblocks : (source.blocksAt offset blocks).length / blockSize = blocks := by
    rw [hlength, Nat.mul_div_cancel _ (by decide)]
  split at h
  · cases h
  · rename_i padded hpadded
    obtain rfl := Except.ok.inj h
    dsimp only at hheader hlength hblocks ⊢
    exact {
      place := rfl
      headerOffset := rfl
      unit := hblocks.symm ▸ hunit
      dataOffset := by dsimp only; rw [hblocks, hlength]
      header := by dsimp only; rw [hblocks, hheader]
      kind := hkind
      dataBytes := hbytes
      padded := paddedLen_eq_some hpadded }

theorem Hdu.noPanic_parse [ReadsDecimals R] {index : ℕ} {unit : HeaderUnit}
    (h : unit.offset + unit.bytes.length ≤ usizeMax) :
    NoPanic (Hdu.parse index unit : Outcome (Hdu R)) := by
  refine NoPanic.bind (Header.noPanic_parse unit.bytes) (fun header _ => ?_)
  refine NoPanic.bind (HduKind.noPanic_fromHeader _ _) (fun kind hkind => ?_)
  refine NoPanic.bind (HduKind.noPanic_dataBytes hkind) (fun dataBytes hbytes => ?_)
  refine NoPanic.bind (NoPanic.of_ok (addUsize_of_le h)) (fun _ _ => ?_)
  obtain ⟨padded, hpadded⟩ := HduKind.paddedLen_dataBytes hbytes
  rw [hpadded]
  exact NoPanic.ok _

/-- A scan that has read nothing of a header unit. -/
theorem HeaderCursor.within_start {source : Source} {offset : ℕ} (h : offset ≤ source.size) :
    HeaderCursor.Within ⟨offset, [], 0⟩ source offset 0 where
  offset := by dsimp only; rw [Nat.zero_mul, Nat.add_zero]
  inside := h
  bytes := by rw [Source.blocksAt, Nat.zero_mul, List.take_zero]
  sum := Nat.zero_le _
  unended := fun j hj => absurd hj (Nat.not_lt_zero j)

theorem noPanic_nextHdu [ReadsDecimals R] {source : Source} {offset : ℕ} (index : ℕ)
    (h : offset ≤ source.size) :
    NoPanic (nextHdu source offset index : Outcome (Option (Hdu R × ℕ))) := by
  obtain ⟨hcalm, hfound⟩ :=
    @nextHeader_spec _ (HduPosition.ofIndex index) _ _ _ (HeaderCursor.within_start h)
  refine NoPanic.bind hcalm (fun next hnext => ?_)
  obtain ⟨next, stop⟩ := next
  have hspec := hfound next stop hnext
  cases next with
  | ended => exact NoPanic.ok _
  | trailing => exact NoPanic.ok _
  | found bytes sum =>
    obtain ⟨blocks, hunit, rfl, rfl⟩ := hspec
    have hlength := Source.length_blocksAt hunit.inside
    have hroom := hunit.inside
    have hsized := source.sized
    unfold Source.size at hroom
    refine NoPanic.bind (NoPanic.of_ok (subUsize_of_le (by dsimp only; omega))) (fun start hs => ?_)
    obtain ⟨-, rfl⟩ := subUsize_eq_ok_iff.mp hs
    refine NoPanic.bind (Hdu.noPanic_parse (by dsimp only; omega)) (fun hdu _ => ?_)
    exact NoPanic.bind (noPanic_orOverflow _) (fun _ _ => NoPanic.ok _)

/-- The next HDU is held where the scan is, and the scan moves past its data unit. -/
theorem nextHdu_holds {source : Source} {offset index stop : ℕ} {hdu : Hdu R}
    (hok : nextHdu source offset index = .ok (some (hdu, stop))) :
    source.HoldsHdu index offset hdu ∧ stop = min hdu.stop source.size := by
  obtain ⟨⟨next, after⟩, hnext, hok⟩ := Loops.ok_of_bind hok
  have hle : offset ≤ source.size := offset_le_of_nextHeader hnext
  have hspec := (nextHeader_spec (HeaderCursor.within_start hle)).2 next after hnext
  cases next with
  | ended => cases hok
  | trailing => cases hok
  | found bytes sum =>
    obtain ⟨blocks, hunit, rfl, rfl⟩ := hspec
    obtain ⟨start, hs, hok⟩ := Loops.ok_of_bind hok
    obtain ⟨-, rfl⟩ := subUsize_eq_ok_iff.mp hs
    obtain ⟨found, hparse, hok⟩ := Loops.ok_of_bind hok
    obtain ⟨last, hlast, hok⟩ := Loops.ok_of_bind hok
    obtain ⟨-, rfl⟩ := checkedAdd_eq_some_iff.mp (orOverflow_eq_ok_iff.mp hlast)
    obtain ⟨rfl, rfl⟩ := Prod.mk.inj (Option.some.inj (Except.ok.inj hok))
    dsimp only at hparse
    rw [Source.length_blocksAt hunit.inside, Nat.add_sub_cancel] at hparse
    exact ⟨Hdu.holds_of_parse hunit hparse, rfl⟩

/-- The end of the next HDU's data unit is an offset. -/
theorem nextHdu_stop_le {source : Source} {offset index after : ℕ} {hdu : Hdu R}
    (hok : nextHdu source offset index = .ok (some (hdu, after))) : hdu.stop ≤ usizeMax := by
  obtain ⟨⟨next, place⟩, -, hok⟩ := Loops.ok_of_bind hok
  cases next with
  | ended => cases hok
  | trailing => cases hok
  | found bytes sum =>
    obtain ⟨start, -, hok⟩ := Loops.ok_of_bind hok
    obtain ⟨found, -, hok⟩ := Loops.ok_of_bind hok
    obtain ⟨last, hlast, hok⟩ := Loops.ok_of_bind hok
    obtain ⟨rfl, -⟩ := Prod.mk.inj (Option.some.inj (Except.ok.inj hok))
    exact (checkedAdd_eq_some_iff.mp (orOverflow_eq_ok_iff.mp hlast)).1

/-- A scan moves on by at least the block of a header. -/
theorem nextHdu_progress {source : Source} {offset index stop : ℕ} {hdu : Hdu R}
    (h : nextHdu source offset index = .ok (some (hdu, stop))) :
    source.size - stop < source.size - offset := by
  obtain ⟨hholds, rfl⟩ := nextHdu_holds h
  have hinside := hholds.unit.inside
  have hroom := Nat.mul_le_mul_right blockSize hholds.unit.pos
  have hblock : blockSize = 2880 := rfl
  have hdata := hholds.dataOffset
  unfold Hdu.stop
  omega

/-! ## The scan -/

/-- The HDUs of a file, and the error of the header that ended the list, where one did. -/
structure Hdus (R : Type) where
  hdus : List (Hdu R)
  defect : Option FitsError

/-- Scan from `offset` on, after the HDUs before it. A header after the primary that does not
read ends the list; a source that does not read fails the scan. -/
def scanFrom (source : Source) (offset : ℕ) (hdus : List (Hdu R)) : Outcome (Hdus R) :=
  match _h : (nextHdu source offset hdus.length : Outcome (Option (Hdu R × ℕ))) with
  | .ok (some (hdu, next)) => scanFrom source next (hdus ++ [hdu])
  | .ok none => if hdus.isEmpty then fail .unexpectedEof else .ok ⟨hdus, none⟩
  | .error (.err error) =>
    if error = .io ∨ hdus.isEmpty then fail error else .ok ⟨hdus, some error⟩
  | .error (.panic panic) => abort panic
termination_by source.size - offset
decreasing_by exact nextHdu_progress _h

/-- Scan the HDUs of a source. -/
def scan (source : Source) : Outcome (Hdus R) := scanFrom source 0 []

/-- HDUs that a file holds one after another from `offset` on, the first of them at place
`index`: each header starts where the padded data unit before it ends. -/
def Source.Holds (source : Source) : ℕ → ℕ → List (Hdu R) → Prop
  | _, _, [] => True
  | index, offset, hdu :: hdus =>
    source.HoldsHdu index offset hdu ∧ source.Holds (index + 1) hdu.stop hdus

/-- Where HDUs from the start of a file end. -/
def stopOf (hdus : List (Hdu R)) : ℕ := hdus.foldl (fun _ hdu => hdu.stop) 0

theorem Source.holds_append {source : Source} {index offset : ℕ} {hdus : List (Hdu R)} {hdu : Hdu R}
    (h : source.Holds index offset hdus)
    (hhdu : source.HoldsHdu (index + hdus.length) (hdus.foldl (fun _ hdu => hdu.stop) offset) hdu) :
    source.Holds index offset (hdus ++ [hdu]) := by
  induction hdus generalizing index offset with
  | nil => exact ⟨hhdu, trivial⟩
  | cons first hdus ih =>
    refine ⟨h.1, ih h.2 ?_⟩
    rwa [List.length_cons, Nat.add_comm hdus.length, ← Nat.add_assoc] at hhdu

/-- HDUs one after another from the block grid on are on it, and inside the file. -/
theorem Source.Holds.aligned {source : Source} {index offset : ℕ} {hdus : List (Hdu R)}
    (h : source.Holds index offset hdus) (hoffset : blockSize ∣ offset) :
    ∀ hdu ∈ hdus, blockSize ∣ hdu.headerOffset ∧ blockSize ∣ hdu.dataOffset ∧
      hdu.headerOffset < hdu.dataOffset ∧ hdu.dataOffset ≤ source.size := by
  induction hdus generalizing index offset with
  | nil => exact fun hdu hmem => absurd hmem List.not_mem_nil
  | cons first hdus ih =>
    obtain ⟨hfirst, hrest⟩ := h
    have hdata : blockSize ∣ first.dataOffset := by
      rw [hfirst.dataOffset]
      exact Nat.dvd_add hoffset (Nat.dvd_mul_left _ _)
    intro hdu hmem
    rcases List.mem_cons.mp hmem with rfl | hmem
    · have hroom := Nat.mul_le_mul_right blockSize hfirst.unit.pos
      have hblock : blockSize = 2880 := rfl
      refine ⟨hfirst.headerOffset ▸ hoffset, hdata, ?_, hfirst.dataOffset ▸ hfirst.unit.inside⟩
      rw [hfirst.headerOffset, hfirst.dataOffset]
      omega
    · exact ih hrest (Nat.dvd_add hdata hfirst.padded.2.2) hdu hmem

/-- How a scan ends after the HDUs it lists: at the end of the file or at bytes that follow
them, or at a header that does not read. -/
def ScanEnds (source : Source) (hdus : List (Hdu R)) (outcome : Outcome (Hdus R)) : Prop :=
  let next : Outcome (Option (Hdu R × ℕ)) :=
    nextHdu source (min (stopOf hdus) source.size) hdus.length
  (next = .ok none ∧ outcome = if hdus = [] then fail .unexpectedEof else .ok ⟨hdus, none⟩) ∨
  ∃ error, next = fail error ∧
    outcome = if error = .io ∨ hdus = [] then fail error else .ok ⟨hdus, some error⟩

/-- A scan that is after the HDUs it lists finds the next one after them, and is after it. -/
theorem Source.Holds.next {source : Source} {offset next : ℕ} {hdus : List (Hdu R)} {hdu : Hdu R}
    (h : source.Holds 0 0 hdus) (hoffset : offset = min (stopOf hdus) source.size)
    (hnext : nextHdu source offset hdus.length = .ok (some (hdu, next))) :
    source.Holds 0 0 (hdus ++ [hdu]) ∧ next = min (stopOf (hdus ++ [hdu])) source.size := by
  obtain ⟨hholds, rfl⟩ := nextHdu_holds hnext
  -- a header starts before the end of the file, so the data unit before it is whole
  have hroom := Nat.mul_le_mul_right blockSize hholds.unit.pos
  have hinside := hholds.unit.inside
  have hblock : blockSize = 2880 := rfl
  have hexact : offset = stopOf hdus := by omega
  have hstop : stopOf (hdus ++ [hdu]) = hdu.stop := by rw [stopOf, List.foldl_append]; rfl
  refine ⟨Source.holds_append h ?_, by rw [hstop]⟩
  rwa [Nat.zero_add, ← stopOf, ← hexact]

theorem scanFrom_spec [ReadsDecimals R] {source : Source} {offset : ℕ} {hdus : List (Hdu R)}
    (hheld : source.Holds 0 0 hdus) (hoffset : offset = min (stopOf hdus) source.size) :
    ∃ all, hdus <+: all ∧ source.Holds 0 0 all ∧ ScanEnds source all (scanFrom source offset hdus) := by
  have hle : offset ≤ source.size := hoffset ▸ Nat.min_le_right _ _
  fun_induction scanFrom source offset hdus with
  | case1 offset hdus hdu next hnext ih =>
    obtain ⟨hmore, rfl⟩ := hheld.next hoffset hnext
    obtain ⟨all, hprefix, hall, hends⟩ := ih hmore rfl (Nat.min_le_right _ _)
    exact ⟨all, (List.prefix_append _ _).trans hprefix, hall, hends⟩
  | case2 offset hdus hnext hempty =>
    refine ⟨hdus, List.prefix_rfl, hheld, Or.inl ⟨hoffset ▸ hnext, ?_⟩⟩
    rw [if_pos (List.isEmpty_iff.mp hempty)]
  | case3 offset hdus hnext hempty =>
    refine ⟨hdus, List.prefix_rfl, hheld, Or.inl ⟨hoffset ▸ hnext, ?_⟩⟩
    rw [if_neg (fun hnil => hempty (List.isEmpty_iff.mpr hnil))]
  | case4 offset hdus error hnext hfails =>
    refine ⟨hdus, List.prefix_rfl, hheld, Or.inr ⟨error, hoffset ▸ hnext, ?_⟩⟩
    rw [if_pos (hfails.imp id List.isEmpty_iff.mp)]
  | case5 offset hdus error hnext hends =>
    refine ⟨hdus, List.prefix_rfl, hheld, Or.inr ⟨error, hoffset ▸ hnext, ?_⟩⟩
    rw [if_neg (fun hfails => hends (hfails.imp id List.isEmpty_iff.mpr))]
  | case6 offset hdus panic hnext => exact absurd hnext (noPanic_nextHdu hdus.length hle panic)

/-- The HDUs that a scan lists lie one after another. -/
theorem scanFrom_holds {source : Source} {offset : ℕ} {hdus : List (Hdu R)} {found : Hdus R}
    (hheld : source.Holds 0 0 hdus) (hoffset : offset = min (stopOf hdus) source.size)
    (hok : scanFrom source offset hdus = .ok found) : source.Holds 0 0 found.hdus := by
  fun_induction scanFrom source offset hdus with
  | case1 offset hdus hdu next hnext ih =>
    obtain ⟨hmore, rfl⟩ := hheld.next hoffset hnext
    exact ih hmore rfl hok
  | case2 offset hdus hnext hempty => cases hok
  | case3 offset hdus hnext hsome =>
    obtain rfl := Except.ok.inj hok
    exact hheld
  | case4 offset hdus error hnext hfails => cases hok
  | case5 offset hdus error hnext hends =>
    obtain rfl := Except.ok.inj hok
    exact hheld
  | case6 offset hdus panic hnext => cases hok

/-- HDUs in two runs. -/
theorem Source.Holds.split {source : Source} {index offset : ℕ} {before after : List (Hdu R)}
    (h : source.Holds index offset (before ++ after)) :
    source.Holds index offset before ∧
      source.Holds (index + before.length) (before.foldl (fun _ hdu => hdu.stop) offset) after := by
  induction before generalizing index offset with
  | nil => exact ⟨trivial, h⟩
  | cons first before ih =>
    obtain ⟨hfirst, hrest⟩ := h
    obtain ⟨hbefore, hafter⟩ := ih hrest
    refine ⟨⟨hfirst, hbefore⟩, ?_⟩
    rwa [List.length_cons, Nat.add_comm before.length, ← Nat.add_assoc]

/-- What holds of each HDU where a scan finds it holds of those that the scan lists. -/
theorem scanFrom_forall {P : ℕ → Hdu R → Prop} {source : Source} {offset : ℕ} {hdus : List (Hdu R)}
    {found : Hdus R} (hfound : ∀ {offset index stop : ℕ} {hdu : Hdu R},
      nextHdu source offset index = .ok (some (hdu, stop)) → P index hdu)
    (hheld : ∀ i hdu, hdus[i]? = some hdu → P i hdu) (hok : scanFrom source offset hdus = .ok found) :
    ∀ i hdu, found.hdus[i]? = some hdu → P i hdu := by
  fun_induction scanFrom source offset hdus with
  | case1 offset hdus hdu next hnext ih =>
    refine ih (fun i other hother => ?_) hok
    rcases Nat.lt_or_ge i hdus.length with hlt | hge
    · rw [List.getElem?_append_left hlt] at hother
      exact hheld i other hother
    · obtain ⟨rfl, rfl⟩ : i = hdus.length ∧ other = hdu := by
        rw [List.getElem?_append_right hge] at hother
        obtain ⟨hi, hitem⟩ := List.getElem?_eq_some_iff.mp hother
        rw [List.length_singleton] at hi
        refine ⟨by omega, ?_⟩
        rw [List.getElem_singleton] at hitem
        exact hitem.symm
      exact hfound hnext
  | case2 offset hdus hnext hempty => cases hok
  | case3 offset hdus hnext hsome =>
    obtain rfl := Except.ok.inj hok
    exact hheld
  | case4 offset hdus error hnext hfails => cases hok
  | case5 offset hdus error hnext hends =>
    obtain rfl := Except.ok.inj hok
    exact hheld
  | case6 offset hdus panic hnext => cases hok

end FitsWell
