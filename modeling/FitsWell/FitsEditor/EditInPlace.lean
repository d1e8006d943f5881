import FitsWell.FitsEditor.Editor
import FitsWell.Hdu.ScanFinds
import FitsWell.HeaderModel.SetReads

/-!
# Edits in place keep the rest of the file

An edit that is refused leaves the editor. One that is written changes bytes of the header unit
only, and a `CHECKSUM` it signs with the sum of the data unit brings the HDU to all ones.
-/

namespace FitsWell

open Checksum (accumulate allOnes combine accumulate_eq combine_eq)
open OnesComplement (rep rep_le rep_add_rep)

variable {R : Type} [RealWords R]

/-! ## Rendered units -/

namespace EditedHeader

variable {edited : EditedHeader R} {blocks : ℕ} {out : Text}

/-- A header that is rendered into so many blocks takes them all. -/
theorem length_render (h : edited.render (.blocks blocks) = .ok out) :
    out.length = blocks * blockSize := by
  unfold render signing at h
  split at h
  · obtain ⟨_, _, _, _, _, _, hplain, -⟩ := Header.renderInto_withDataSum h
    exact Header.length_renderInto_unsigned hplain
  · exact Header.length_renderInto_unsigned h

/-- A header that is signed comes to all ones with its data. -/
theorem render_balances {sum : ℕ} {space : Space} (hsum : edited.dataSum = some sum)
    (hword : sum < 2 ^ 32) (h : edited.render space = .ok out) :
    ∃ total, accumulate out 0 = .ok total ∧ combine total sum = allOnes := by
  unfold render signing at h
  rw [hsum] at h
  obtain ⟨_, _, _, _, _, _, _, _, _, _, _, _, _, hbalance⟩ := Header.renderInto_withDataSum h
  rwa [UInt32.toNat_ofNat_of_lt' hword] at hbalance

end EditedHeader

/-- Where an HDU lies that a header unit parses to. -/
theorem Hdu.parse_place {index : ℕ} {unit : HeaderUnit} {hdu : Hdu R}
    (h : Hdu.parse index unit = .ok hdu) :
    hdu.index = index ∧ hdu.headerOffset = unit.offset ∧
      hdu.dataOffset = unit.offset + unit.bytes.length ∧
      hdu.headerBlocks = unit.bytes.length / blockSize ∧ blockSize ∣ hdu.paddedDataBytes := by
  obtain ⟨header, -, h⟩ := Loops.ok_of_bind h
  obtain ⟨kind, -, h⟩ := Loops.ok_of_bind h
  obtain ⟨dataBytes, -, h⟩ := Loops.ok_of_bind h
  obtain ⟨dataOffset, hoffset, h⟩ := Loops.ok_of_bind h
  obtain ⟨-, rfl⟩ := addUsize_eq_ok_iff.mp hoffset
  split at h
  · cases h
  · rename_i padded hpadded
    obtain rfl := Except.ok.inj h
    exact ⟨rfl, rfl, rfl, rfl, (paddedLen_eq_some hpadded).2.2⟩

/-- The sum of a header unit is kept as it is given. -/
theorem Hdu.parse_sum {index sum : ℕ} {unit : HeaderUnit} {hdu : Hdu R}
    (h : Hdu.parse index unit = .ok hdu) :
    Hdu.parse index { unit with sum } = .ok { hdu with headerSum := sum } := by
  obtain ⟨header, hheader, h⟩ := Loops.ok_of_bind h
  obtain ⟨kind, hkind, h⟩ := Loops.ok_of_bind h
  obtain ⟨dataBytes, hbytes, h⟩ := Loops.ok_of_bind h
  obtain ⟨dataOffset, hoffset, h⟩ := Loops.ok_of_bind h
  unfold parse
  rw [Loops.bind_ok hheader, Loops.bind_ok hkind, Loops.bind_ok hbytes, Loops.bind_ok hoffset]
  split at h
  · cases h
  · obtain rfl := Except.ok.inj h
    rfl

namespace FitsEditor

variable {editor editor' : FitsEditor R} {calls : FileCalls} {selector : HduSelector}
  {header : Header R} {out : Text} {hdu target : Hdu R}

/-! ## Editors of a file -/

/-- The HDU of a place of the list, whose header unit the file holds. -/
structure Lies (file : EditedFile) (index : ℕ) (hdu : Hdu R) : Prop where
  index : hdu.index = index
  dataOffset : hdu.dataOffset = hdu.headerOffset + hdu.headerBlocks * blockSize
  inside : hdu.dataOffset ≤ file.bytes.length
  blocks : 0 < hdu.headerBlocks
  padded : blockSize ∣ hdu.paddedDataBytes

/-- An editor whose every HDU lies where its list says. -/
def Placed (editor : FitsEditor R) : Prop :=
  ∀ i hdu, editor.hdus.hdus[i]? = some hdu → Lies editor.file i hdu

theorem placed_openFile {file : EditedFile} (h : openFile calls file = .ok editor) :
    editor.Placed := by
  obtain ⟨_, -, h⟩ := Loops.ok_of_bind h
  obtain ⟨hdus, hscan, h⟩ := Loops.ok_of_bind h
  obtain rfl := Except.ok.inj h
  refine scanFrom_forall (fun hnext => ?_) (by simp) hscan
  obtain ⟨hholds, -⟩ := nextHdu_holds hnext
  exact {
    index := hholds.place
    dataOffset := by rw [hholds.dataOffset, hholds.headerOffset]
    inside := hholds.dataOffset.symm ▸ hholds.unit.inside
    blocks := hholds.unit.pos
    padded := hholds.padded.2.2 }

/-- An HDU that an editor selects. -/
theorem Placed.lies (h : editor.Placed) (hselect : editor.hdus.select selector = .ok target) :
    Lies editor.file target.index target ∧ target.index < editor.hdus.hdus.length := by
  obtain ⟨i, hi⟩ := List.mem_iff_getElem?.mp (Hdus.mem_of_select hselect)
  have hlies := h i target hi
  obtain ⟨hlt, -⟩ := List.getElem?_eq_some_iff.mp hi
  rw [hlies.index]
  exact ⟨hlies, hlt⟩

/-- The unit that an edit writes takes the place of the one it replaces. -/
structure Replaces (editor : FitsEditor R) (target : Hdu R) (out : Text) (hdu : Hdu R) : Prop where
  lies : Lies editor.file target.index target
  listed : target.index < editor.hdus.hdus.length
  length : out.length = target.headerBlocks * blockSize
  index : hdu.index = target.index
  headerOffset : hdu.headerOffset = target.headerOffset
  dataOffset : hdu.dataOffset = target.dataOffset
  headerBlocks : hdu.headerBlocks = target.headerBlocks
  padded : blockSize ∣ hdu.paddedDataBytes

/-- What a unit to write comes from. -/
theorem editedUnit_ok (hplaced : editor.Placed)
    (h : editedUnit calls selector header editor = .ok (out, hdu)) :
    ∃ target sum, editor.hdus.select selector = .ok target ∧ checkUnit target header = .ok () ∧
      dataSum calls editor.file target header = .ok sum ∧
      EditedHeader.render ⟨header, sum⟩ (.blocks target.headerBlocks) = .ok out ∧
      editor.Replaces target out hdu := by
  obtain ⟨target, hselect, h⟩ := Loops.ok_of_bind h
  obtain ⟨_, hcheck, h⟩ := Loops.ok_of_bind h
  obtain ⟨sum, hsum, h⟩ := Loops.ok_of_bind h
  obtain ⟨rendered, hrender, h⟩ := Loops.ok_of_bind h
  obtain ⟨unitSum, -, h⟩ := Loops.ok_of_bind h
  obtain ⟨found, hparse, h⟩ := Loops.ok_of_bind h
  obtain ⟨rfl, rfl⟩ := Prod.mk.inj (Except.ok.inj h)
  obtain ⟨hindex, hheader, hdata, hblocks, hpadded⟩ := Hdu.parse_place hparse
  obtain ⟨hlies, hlisted⟩ := hplaced.lies hselect
  have hlength := EditedHeader.length_render hrender
  dsimp only at hheader hdata hblocks
  refine ⟨target, sum, hselect, hcheck, hsum, hrender, hlies, hlisted, hlength, hindex, hheader,
    ?_, ?_, hpadded⟩
  · rw [hdata, hlength, hlies.dataOffset]
  · rw [hblocks, hlength, Nat.mul_div_cancel _ (by decide)]

omit [RealWords R] in
theorem Replaces.inside (h : editor.Replaces target out hdu) :
    hdu.headerOffset + out.length ≤ editor.file.bytes.length := by
  rw [h.headerOffset, h.length, ← h.lies.dataOffset]
  exact h.lies.inside

/-! ## Runs -/

omit [RealWords R] in
/-- A write inside the file writes all its bytes, or those before a failure. -/
theorem run_writeAll {place : ℕ} (h : place + out.length ≤ editor.file.bytes.length) :
    ∃ file : EditedFile,
      (writeAll calls place out).run editor = (answer calls.write.isNone, { editor with file }) ∧
      file.bytes = overwrite 0 editor.file.bytes place (out.take (calls.write.getD out.length)) := by
  have hwritten : place + (out.take (calls.write.getD out.length)).length ≤
      editor.file.bytes.length := by
    rw [List.length_take]
    omega
  have hsized : (overwrite 0 editor.file.bytes place
      (out.take (calls.write.getD out.length))).length ≤ usizeMax := by
    rw [length_overwrite hwritten]
    exact editor.file.sized
  have hwrite : editor.file.write place (out.take (calls.write.getD out.length)) =
      .ok ⟨_, hsized⟩ := dif_pos hsized
  refine ⟨⟨_, hsized⟩, ?_, rfl⟩
  unfold Stateful.run writeAll
  rw [hwrite]

/-- How an edit in place ends: refused, broken off in a write or a flush, or done. -/
inductive EditEnds (calls : FileCalls) (editor : FitsEditor R) (edit : Outcome (Text × Hdu R)) :
    Outcome Unit × FitsEditor R → Prop
  | refused (hrefused : (∃ fault, edit = .error fault) ∨ calls.seeks = false) (fault : Fault) :
      EditEnds calls editor edit (.error fault, editor)
  | broken {out : Text} {hdu : Hdu R} (hedit : edit = .ok (out, hdu)) (hseeks : calls.seeks = true)
      (hcalls : calls.write ≠ none ∨ calls.flushes = false) (fault : Fault) (file : EditedFile)
      (count : ℕ) (hfile : file.bytes = overwrite 0 editor.file.bytes hdu.headerOffset (out.take count)) :
      EditEnds calls editor edit (.error fault, { editor with file })
  | done {out : Text} {hdu : Hdu R} (hedit : edit = .ok (out, hdu)) (file : EditedFile)
      (hfile : file.bytes = overwrite 0 editor.file.bytes hdu.headerOffset out) :
      EditEnds calls editor edit
        (.ok (), ⟨file, { editor.hdus with hdus := editor.hdus.hdus.set hdu.index hdu }⟩)

omit [RealWords R] in
theorem run_answer (works : Bool) (editor : FitsEditor R) :
    (liftM (answer works) : Stateful Fault (FitsEditor R) Unit).run editor =
      (if works then .ok () else fail .io, editor) := rfl

theorem replaceHeader_ends (hplaced : editor.Placed) :
    EditEnds calls editor (editedUnit calls selector header editor)
      ((replaceHeader calls selector header).run editor) := by
  unfold replaceHeader
  rw [Stateful.run_get_bind]
  cases hedit : editedUnit calls selector header editor with
  | error fault =>
    rw [Stateful.run_bind_error (Stateful.run_liftM _ _)]
    exact .refused (Or.inl ⟨fault, rfl⟩) fault
  | ok edit =>
    obtain ⟨out, hdu⟩ := edit
    obtain ⟨target, -, -, -, -, -, hreplaces⟩ := editedUnit_ok hplaced hedit
    rw [Stateful.run_bind (Stateful.run_liftM _ _)]
    dsimp only
    cases hseeks : calls.seeks with
    | false =>
      rw [Stateful.run_bind_error (run_answer false editor)]
      exact .refused (Or.inr hseeks) _
    | true =>
      rw [Stateful.run_bind (run_answer true editor)]
      obtain ⟨file, hwrite, hfile⟩ := @run_writeAll _ _ calls _ _ hreplaces.inside
      cases hcut : calls.write with
      | some count =>
        rw [hcut] at hwrite hfile
        rw [Stateful.run_bind_error hwrite]
        exact .broken rfl hseeks (Or.inl (by simp [hcut])) _ file count hfile
      | none =>
        rw [hcut, Option.getD_none] at hfile
        rw [hcut] at hwrite
        rw [Stateful.run_bind hwrite]
        cases hflush : calls.flushes with
        | false =>
          rw [Stateful.run_bind_error (run_answer false _)]
          exact .broken rfl hseeks (Or.inr hflush) _ file _ hfile
        | true =>
          rw [Stateful.run_bind (run_answer true _)]
          have hlisted : hdu.index < editor.hdus.hdus.length := hreplaces.index ▸ hreplaces.listed
          rw [List.take_length] at hfile
          unfold replace Hdus.replace
          rw [Stateful.run_get_bind]
          dsimp only
          rw [if_pos hlisted]
          exact .done rfl file hfile

/-! ## Reachable editors -/

omit [RealWords R] in
/-- A write of bytes of the unit keeps the length of the file. -/
theorem Replaces.length_written (h : editor.Replaces target out hdu) {file : EditedFile} {count : ℕ}
    (hfile : file.bytes = overwrite 0 editor.file.bytes hdu.headerOffset (out.take count)) :
    file.bytes.length = editor.file.bytes.length := by
  have hinside := h.inside
  have hwritten : hdu.headerOffset + (out.take count).length ≤ editor.file.bytes.length := by
    rw [List.length_take]
    omega
  rw [hfile, length_overwrite hwritten]

omit [RealWords R] in
theorem Lies.of_length {file file' : EditedFile} {i : ℕ} (h : Lies file i hdu)
    (hlength : file'.bytes.length = file.bytes.length) : Lies file' i hdu :=
  ⟨h.index, h.dataOffset, hlength.symm ▸ h.inside, h.blocks, h.padded⟩

omit [RealWords R] in
/-- The HDU that takes the place of another lies there. -/
theorem Replaces.lies_new (h : editor.Replaces target out hdu) :
    Lies editor.file hdu.index hdu where
  index := rfl
  dataOffset := by rw [h.dataOffset, h.headerOffset, h.headerBlocks, h.lies.dataOffset]
  inside := h.dataOffset.symm ▸ h.lies.inside
  blocks := h.headerBlocks.symm ▸ h.lies.blocks
  padded := h.padded

theorem placed_replaceHeader (hplaced : editor.Placed) :
    ((replaceHeader calls selector header).run editor).2.Placed := by
  have hends := @replaceHeader_ends _ _ _ calls selector header hplaced
  generalize (replaceHeader calls selector header).run editor = result at hends ⊢
  intro i other hother
  cases hends with
  | refused hrefused fault => exact hplaced i other hother
  | broken hedit hseeks hcalls fault file count hfile =>
    obtain ⟨target, -, -, -, -, -, hreplaces⟩ := editedUnit_ok hplaced hedit
    exact (hplaced i other hother).of_length (hreplaces.length_written hfile)
  | @done out hdu hedit file hfile =>
    obtain ⟨target, -, -, -, -, -, hreplaces⟩ := editedUnit_ok hplaced hedit
    rw [← out.take_length] at hfile
    have hlength := hreplaces.length_written hfile
    dsimp only at hother ⊢
    by_cases hi : hdu.index = i
    · subst hi
      rw [List.getElem?_set_self (hreplaces.index ▸ hreplaces.listed)] at hother
      obtain rfl := Option.some.inj hother
      exact hreplaces.lies_new.of_length hlength
    · rw [List.getElem?_set_ne hi] at hother
      exact (hplaced i other hother).of_length hlength

theorem Reachable.placed (h : Reachable editor) : editor.Placed := by
  induction h with
  | opened h => exact placed_openFile h
  | edited _ calls selector header ih => exact placed_replaceHeader ih

/-! ## Sums of an HDU -/

end FitsEditor

namespace EditedFile

variable {R : Type} (file : EditedFile) (hdu : Hdu R)

/-- The bytes of an HDU's data unit. -/
def dataUnit : Text := (file.bytes.drop hdu.dataOffset).take hdu.paddedDataBytes

/-- The bytes of an HDU: its header unit and its data unit. -/
def hduBytes : Text :=
  (file.bytes.drop hdu.headerOffset).take (hdu.headerBlocks * blockSize + hdu.paddedDataBytes)

end EditedFile

namespace FitsEditor

variable {editor editor' : FitsEditor R} {calls : FileCalls} {selector : HduSelector}
  {header : Header R} {out : Text} {hdu target : Hdu R} {file : EditedFile}

/-- A header that declares no data sum, or that of the data unit of an HDU. -/
def DeclaresSum (file : EditedFile) (hdu : Hdu R) (header : Header R) : Prop :=
  ∀ sum, (Declared.read header).dataSum = some sum → accumulate (file.dataUnit hdu) 0 = .ok sum

/-- The sum that a `CHECKSUM` comes from is that of the data unit. -/
theorem dataSum_ok {sum : Option ℕ} (hlies : Lies file target.index target)
    (hchecksum : (Declared.read header).hasChecksum = true)
    (hdeclares : DeclaresSum file target header) (h : dataSum calls file target header = .ok sum) :
    ∃ unitSum, sum = some unitSum ∧ unitSum < 2 ^ 32 ∧
      accumulate (file.dataUnit target) 0 = .ok unitSum := by
  unfold dataSum at h
  rw [if_pos hchecksum] at h
  split at h
  · rename_i declared hdeclared
    obtain rfl := Except.ok.inj h
    exact ⟨declared, rfl, Declared.dataSum_lt hdeclared, hdeclares declared hdeclared⟩
  · obtain ⟨_, -, h⟩ := Loops.ok_of_bind h
    obtain ⟨state, hof, h⟩ := Loops.ok_of_bind h
    obtain ⟨unitSum, htotal, h⟩ := Loops.ok_of_bind h
    obtain rfl := Except.ok.inj h
    obtain ⟨stop, hstop, -⟩ := Loops.ok_of_bind hof
    have hroom := (addUsize_eq_ok_iff.mp hstop).1
    have hplaced : target.Placed (file.source calls) := ⟨hlies.inside, hroom, hlies.padded⟩
    obtain ⟨found, hfound, hsums⟩ := DataChecksum.of_sums hplaced
    obtain rfl := Except.ok.inj (hof.symm.trans hfound)
    have hbetween : (file.source calls).between target.dataOffset target.stop =
        file.dataUnit target := by
      rw [Source.between, Hdu.stop, Nat.add_sub_cancel_left]
      rfl
    obtain ⟨blocks, hblocks⟩ := hlies.padded
    have hwords : (target.stop - target.dataOffset) % 4 = 0 := by
      have hblock : blockSize = 4 * 720 := rfl
      rw [Hdu.stop, Nat.add_sub_cancel_left, hblocks, hblock, Nat.mul_assoc, Nat.mul_mod_right]
    obtain ⟨hwhole, rfl⟩ :=
      (@DataChecksum.total_ends _ _ _ ⟨file.source calls, false⟩ hsums hroom hwords).value htotal
    have hlength : (file.dataUnit target).length % 4 = 0 := by
      rw [← hbetween, Source.length_between hwhole, hwords]
    have hword := rep_le (OnesComplement.total 0 (file.dataUnit target)) (by decide : 0 < allOnes)
    dsimp only
    rw [hbetween]
    refine ⟨_, rfl, ?_, ?_⟩
    · unfold allOnes at hword ⊢
      omega
    · rw [accumulate_eq hlength (Nat.zero_le _), Nat.zero_add]

omit [RealWords R] in
/-- An HDU after its unit is written: the unit, and the data unit as it was. -/
theorem Replaces.hduBytes_written (h : editor.Replaces target out hdu)
    (hfile : file.bytes = overwrite 0 editor.file.bytes hdu.headerOffset out) :
    file.hduBytes target = out ++ editor.file.dataUnit target := by
  have hplace : hdu.headerOffset + out.length = target.dataOffset := by
    rw [h.headerOffset, h.length, h.lies.dataOffset]
  rw [EditedFile.hduBytes, hfile, ← h.headerOffset, drop_overwrite h.inside, ← h.length,
    List.take_length_add_append, hplace]
  rfl

/-! ## Edits in place -/

/-- The bytes of two files outside the header unit of an HDU are the same. -/
def SameOutside (hdu : Hdu R) (file file' : EditedFile) : Prop :=
  file'.bytes.length = file.bytes.length ∧
    ∀ place, place < hdu.headerOffset ∨ hdu.dataOffset ≤ place → file'.bytes[place]? = file.bytes[place]?

/-- What an edit that returned leaves: bytes of the header unit of its HDU changed only, a header
unit of the same blocks in the list, and all ones where it signed the sum of the data unit. -/
structure Edited (editor editor' : FitsEditor R) (header : Header R) (target : Hdu R) : Prop where
  frame : SameOutside target editor.file editor'.file
  listed : ∃ hdu : Hdu R,
    editor'.hdus = { editor.hdus with hdus := editor.hdus.hdus.set target.index hdu } ∧
      hdu.index = target.index ∧ hdu.headerOffset = target.headerOffset ∧
      hdu.headerBlocks = target.headerBlocks ∧ hdu.dataOffset = target.dataOffset
  balanced : header.value (.keyword Keyword.CHECKSUM) ≠ .ok none →
    DeclaresSum editor.file target header → accumulate (editor'.file.hduBytes target) 0 = .ok allOnes

/-- An edit in place of any editor of a file. One that ends in an error leaves the editor, or had
its header unit ready and fails in the write or the flush after it; the list of HDUs stays. One
that returns changes bytes of the header unit only, and leaves that unit its length; where the new
header holds a `CHECKSUM`, and no valid `DATASUM` but the sum of the data unit, the HDU comes to all
ones. -/
theorem replace_header_is_framed (h : Reachable editor) (calls : FileCalls) (selector : HduSelector)
    (header : Header R) :
    (∀ fault, (replaceHeader calls selector header).run editor = (.error fault, editor') →
      editor'.hdus = editor.hdus ∧
        (editor' = editor ∨
          (∃ unit, editedUnit calls selector header editor = .ok unit) ∧ calls.seeks = true ∧
            (calls.write ≠ none ∨ calls.flushes = false))) ∧
    ((replaceHeader calls selector header).run editor = (.ok (), editor') →
      ∃ target, editor.hdus.select selector = .ok target ∧ Edited editor editor' header target) := by
  have hends := @replaceHeader_ends _ _ _ calls selector header h.placed
  constructor
  · intro fault hrun
    rw [hrun] at hends
    cases hends with
    | refused hrefused fault => exact ⟨rfl, Or.inl rfl⟩
    | broken hedit hseeks hcalls fault file count hfile =>
      exact ⟨rfl, Or.inr ⟨⟨_, hedit⟩, hseeks, hcalls⟩⟩
  · intro hrun
    rw [hrun] at hends
    cases hends with
    | @done out hdu hedit file hfile =>
      obtain ⟨target, sum, hselect, -, hsum, hrender, hreplaces⟩ := editedUnit_ok h.placed hedit
      refine ⟨target, hselect, ⟨?_, fun place hplace => ?_⟩, ?_, fun hchecksum hdeclares => ?_⟩
      · dsimp only
        rw [hfile, length_overwrite hreplaces.inside]
      · dsimp only
        rw [hfile, getElem?_overwrite hreplaces.inside]
        rwa [hreplaces.headerOffset, hreplaces.length, ← hreplaces.lies.dataOffset]
      · exact ⟨hdu, by rw [hreplaces.index], hreplaces.index, hreplaces.headerOffset,
          hreplaces.headerBlocks, hreplaces.dataOffset⟩
      · have hsigns := Declared.hasChecksum_iff.mpr hchecksum
        obtain ⟨unitSum, rfl, hword, hunit⟩ := dataSum_ok hreplaces.lies hsigns hdeclares hsum
        obtain ⟨total, htotal, hbalance⟩ := EditedHeader.render_balances rfl hword hrender
        rw [hreplaces.hduBytes_written hfile, Checksum.accumulate_append htotal hunit, hbalance]

/-! ## A file of one block -/

/-- A file of a primary with no data. -/
def emptyPrimary : EditedFile where
  bytes := padTo blockSize (["SIMPLE  =                    T", "BITPIX  =                    8",
    "NAXIS   =                    0", "END"].flatMap fun card => padTo cardSize (ascii card))
  sized := by decide +kernel

/-- Calls that work. -/
def workingCalls : FileCalls := ⟨true, true, fun _ => none, none, true⟩

/-- An editor of the file with the header and the sum that its scan found. -/
def emptyEditor (header : Header R) (sum : ℕ) : FitsEditor R :=
  ⟨emptyPrimary, ⟨[⟨0, header, .primary, sum, 0, 2880, 1, 0, 0⟩], none⟩⟩

/-- The header unit of the file, of three records. -/
theorem parse_emptyPrimary (sum : ℕ) : ∃ header : Header ℤ, header.renderedRecords = .ok 3 ∧
    Hdu.parse 0 ⟨emptyPrimary.bytes, sum, 0⟩ = .ok ⟨0, header, .primary, sum, 0, 2880, 1, 0, 0⟩ := by
  have hparse : (Hdu.parse 0 ⟨emptyPrimary.bytes, 0, 0⟩ : Outcome (Hdu ℤ)).toOption.map (fun hdu =>
      (hdu.header.renderedRecords, hdu.kind, hdu.dataOffset, hdu.headerBlocks, hdu.dataBytes,
        hdu.paddedDataBytes)) = some (.ok 3, .primary, 2880, 1, 0, 0) := by decide +kernel
  cases hfound : (Hdu.parse 0 ⟨emptyPrimary.bytes, 0, 0⟩ : Outcome (Hdu ℤ)) with
  | error fault =>
    rw [hfound] at hparse
    cases hparse
  | ok hdu =>
    rw [hfound] at hparse
    obtain ⟨hindex, hoffset, -⟩ := Hdu.parse_place hfound
    have hfields := Option.some.inj hparse
    simp only [Prod.mk.injEq] at hfields
    obtain ⟨hheld, hkind, hdata, hblocks, hbytes, hpadded⟩ := hfields
    refine ⟨hdu.header, hheld, (@Hdu.parse_sum _ _ 0 sum _ _ hfound).trans ?_⟩
    rw [hindex, hoffset, hkind, hdata, hblocks, hbytes, hpadded]

theorem length_emptyPrimary : emptyPrimary.bytes.length = blockSize := by decide +kernel

theorem openFile_emptyPrimary : ∃ (header : Header ℤ) (sum : ℕ), header.renderedRecords = .ok 3 ∧
    openFile workingCalls emptyPrimary = .ok (emptyEditor header sum) := by
  obtain ⟨source, hsource⟩ : ∃ source, source = emptyPrimary.source workingCalls := ⟨_, rfl⟩
  have hlength := length_emptyPrimary
  have hblock : blockSize = 2880 := rfl
  have hbytes : source.bytes = emptyPrimary.bytes := by rw [hsource]; rfl
  have hsize : source.size = blockSize := by rw [Source.size, hbytes, hlength]
  have hunit : source.HasUnit 0 1 := by
    refine ⟨by decide, by omega, fun j hj => ?_⟩
    obtain rfl : j = 0 := by omega
    rw [hbytes]
    decide +kernel
  have hopens : source.Opens (.ofIndex 0) 0 := by
    rw [Source.Opens, hbytes]
    decide +kernel
  have hblocks : source.blocksAt 0 1 = emptyPrimary.bytes := by
    rw [Source.blocksAt, hbytes, List.drop_zero, List.take_of_length_le (by omega)]
  obtain ⟨header, hheld, hparse⟩ := parse_emptyPrimary (source.sumAt 0 1)
  rw [← hblocks] at hparse
  have hreads : source.Reads := fun place => by rw [hsource]; rfl
  have hstop : min (2880 + 0) source.size = source.size := by omega
  have hroom : 2880 + 0 ≤ usizeMax := by decide
  have hnext := (nextHdu_some_iff hreads).mpr ⟨1, hunit, hopens, hparse, hroom, hstop.symm⟩
  refine ⟨header, source.sumAt 0 1, hheld, ?_⟩
  unfold openFile
  rw [Loops.bind_ok (rfl : answer workingCalls.sizes = .ok ()), scan, ← hsource]
  rw [scanFrom_some hnext, scanFrom_none (nextHdu_at_end source _)]
  rfl

omit [RealWords R] in
theorem placed_emptyEditor (header : Header R) (sum : ℕ) : (emptyEditor header sum).Placed := by
  intro i hdu hhdu
  obtain ⟨hi, hitem⟩ := List.getElem?_eq_some_iff.mp hhdu
  obtain rfl : i = 0 := Nat.lt_one_iff.mp hi
  obtain rfl : _ = hdu := hitem
  exact {
    index := rfl
    dataOffset := (by decide : 2880 = 0 + 1 * blockSize)
    inside := length_emptyPrimary.ge
    blocks := Nat.one_pos
    padded := Nat.dvd_zero _ }

/-- The data sum of a header with no `CHECKSUM`, or with a `DATASUM` of its own. -/
theorem dataSum_eq {new : Header R} (h : (Declared.read new).hasChecksum = true →
    (Declared.read new).dataSum.isSome = true) (calls : FileCalls) (file : EditedFile) (hdu : Hdu R) :
    dataSum calls file hdu new = .ok (if (Declared.read new).hasChecksum then
      (Declared.read new).dataSum else none) := by
  unfold dataSum
  split
  · obtain ⟨sum, hsum⟩ := Option.isSome_iff_exists.mp (h ‹_›)
    rw [hsum]
  · rfl

/-- A header of one block that gives no data takes the place of the file's. -/
theorem replaceHeader_emptyPrimary {new header : Header ℤ} {sum : ℕ} {declared : Option ℕ} {out : Text}
    (hkind : HduKind.fromHeader new .primary = .ok .primary)
    (hbytes : HduKind.primary.dataBytes new = .ok 0)
    (hsum : ∀ hdu, dataSum workingCalls emptyPrimary hdu new = .ok declared)
    (hrender : EditedHeader.render ⟨new, declared⟩ (.blocks 1) = .ok out)
    (hparse : (Hdu.parse 0 ⟨out, 0, 0⟩ : Outcome (Hdu ℤ)).toOption.isSome = true) :
    ∃ editor', (replaceHeader workingCalls (.index 0) new).run (emptyEditor header sum) =
      (.ok (), editor') ∧ editor'.file.bytes = out := by
  have hout : out.length = blockSize := by
    rw [EditedHeader.length_render hrender, Nat.one_mul]
  have hblock : blockSize = 2880 := rfl
  have hcheck : checkUnit ⟨0, header, .primary, sum, 0, 2880, 1, 0, 0⟩ new = .ok () := by
    have hposition : HduKind.fromHeader new (HduPosition.ofIndex 0) = .ok .primary := hkind
    unfold checkUnit
    rw [Loops.bind_ok hposition, if_neg (by simp), Loops.bind_ok hbytes]
    exact if_neg (by simp)
  have hunitSum := @accumulate_eq out 0 (by omega) (Nat.zero_le _)
  have hedit : ∃ hdu, editedUnit workingCalls (.index 0) new (emptyEditor header sum) =
      .ok (out, hdu) ∧ hdu.headerOffset = 0 := by
    cases hfound : (Hdu.parse 0 ⟨out, 0, 0⟩ : Outcome (Hdu ℤ)) with
    | error fault =>
      rw [hfound] at hparse
      cases hparse
    | ok hdu =>
      refine ⟨{ hdu with headerSum := rep allOnes (0 + OnesComplement.total 0 out) }, ?_,
        (Hdu.parse_place hfound).2.1⟩
      have hselect : (emptyEditor header sum).hdus.select (.index 0) =
          .ok ⟨0, header, .primary, sum, 0, 2880, 1, 0, 0⟩ := rfl
      unfold editedUnit
      rw [Loops.bind_ok hselect, Loops.bind_ok hcheck]
      dsimp only [emptyEditor]
      rw [Loops.bind_ok (hsum _), Loops.bind_ok hrender, Loops.bind_ok hunitSum,
        Loops.bind_ok (Hdu.parse_sum hfound)]
  obtain ⟨hdu, hedit, hoffset⟩ := hedit
  have hends := @replaceHeader_ends _ _ _ workingCalls (.index 0) new (placed_emptyEditor header sum)
  rw [hedit] at hends
  generalize (replaceHeader workingCalls (.index 0) new).run (emptyEditor header sum) = result
    at hends ⊢
  cases hends with
  | refused hrefused fault => rcases hrefused with ⟨_, hrefused⟩ | hseeks <;> contradiction
  | broken hother hseeks hcalls fault file count hfile =>
    rcases hcalls with hwrite | hflush <;> contradiction
  | done hother file hfile =>
    obtain ⟨rfl, rfl⟩ := Prod.mk.inj (Except.ok.inj hother)
    refine ⟨_, rfl, ?_⟩
    have hwhole : 0 + out.length ≤ emptyPrimary.bytes.length := by
      rw [hout, length_emptyPrimary, Nat.zero_add]
    have hbytes := @drop_overwrite _ 0 _ _ _ hwhole
    rw [List.drop_zero, Nat.zero_add, List.drop_of_length_le
      (by rw [hout, length_emptyPrimary]), List.append_nil] at hbytes
    rw [hoffset] at hfile
    exact hfile.trans hbytes

/-- The header of the file with a comment more. -/
def notedPrimary : Header ℤ := Header.ofRecords
  [.valued .SIMPLE (.logical true) none, .valued .BITPIX (.ofInt 8) none,
    .valued .NAXIS (.ofInt 0) none,
    .commentary .COMMENT (some (ascii "edited"))]

/-- The edit of the file to that header. -/
theorem notedPrimary_edits (header : Header ℤ) (sum : ℕ) : ∃ editor',
    (replaceHeader workingCalls (.index 0) notedPrimary).run (emptyEditor header sum) =
      (.ok (), editor') := by
  have hnone : (Declared.read notedPrimary).hasChecksum = false := by decide +kernel
  have hsum : ∀ hdu, dataSum workingCalls emptyPrimary hdu notedPrimary = .ok none := fun hdu => by
    rw [dataSum_eq (by simp [hnone]), hnone, if_neg Bool.false_ne_true]
  cases hrender : notedPrimary.renderInto .unsigned (.blocks 1) with
  | error fault =>
    have hok : (notedPrimary.renderInto .unsigned (.blocks 1)).toOption.isSome = true := by
      decide +kernel
    rw [hrender] at hok
    cases hok
  | ok out =>
    have hparses : ((notedPrimary.renderInto .unsigned (.blocks 1)).toOption.map fun out =>
        (Hdu.parse 0 ⟨out, 0, 0⟩ : Outcome (Hdu ℤ)).toOption.isSome) = some true := by decide +kernel
    rw [hrender] at hparses
    obtain ⟨editor', hrun, -⟩ := @replaceHeader_emptyPrimary notedPrimary header sum none out
      (by decide +kernel) (by decide +kernel) hsum hrender (Option.some.inj hparses)
    exact ⟨editor', hrun⟩

theorem replace_header_is_framed_noted : ∃ editor editor' : FitsEditor ℤ,
    openFile workingCalls emptyPrimary = .ok editor ∧
      (replaceHeader workingCalls (.index 0) notedPrimary).run editor = (.ok (), editor') ∧
        ∃ target, Edited editor editor' notedPrimary target := by
  obtain ⟨header, sum, -, hopen⟩ := openFile_emptyPrimary
  obtain ⟨editor', hrun⟩ := notedPrimary_edits header sum
  obtain ⟨target, -, hedited⟩ := (replace_header_is_framed (.opened hopen) workingCalls (.index 0)
    notedPrimary).2 hrun
  exact ⟨_, editor', hopen, hrun, target, hedited⟩

end FitsEditor

end FitsWell
