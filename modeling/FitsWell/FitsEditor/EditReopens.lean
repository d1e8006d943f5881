import FitsWell.FitsEditor.EditInPlace
import FitsWell.Hdu.ScanFrame
import FitsWell.Hdu.WrittenUnit

/-!
# An edited file opens as the editor that edited it

The HDUs of an editor are those that a scan of its file finds, whatever edits in place it made: the
list that an edit changes by hand is the one that a new scan gives.
-/

namespace FitsWell

open Checksum (accumulate allOnes accumulate_eq)
open Chunks (chunk)
open OnesComplement (rep)

variable {R : Type} [RealWords R]

/-! ## HDUs that stay -/

section Kept

variable {source source' : Source} {start index stop : ℕ} {hdu : Hdu R}

/-- An HDU whose header unit stays is found where it was. -/
theorem nextHdu_kept (hsize : source'.size = source.size) (hreads : source.Reads)
    (hreads' : source'.Reads) (hnext : nextHdu source start index = .ok (some (hdu, stop)))
    (hsame : source'.bytes.take hdu.dataOffset = source.bytes.take hdu.dataOffset) :
    nextHdu source' start index = .ok (some (hdu, stop)) := by
  obtain ⟨blocks, hunit, hopens, hparse, hstop, hend⟩ := (nextHdu_some_iff hreads).mp hnext
  have hplace : hdu.dataOffset = start + blocks * blockSize := by
    rw [(Hdu.parse_place hparse).2.2.1, Source.length_blocksAt hunit.inside]
  have hunits : (source'.bytes.drop start).take (blocks * blockSize) =
      (source.bytes.drop start).take (blocks * blockSize) := by
    have hdrop := congrArg (List.drop start) hsame
    rwa [List.drop_take, List.drop_take, hplace, Nat.add_sub_cancel_left] at hdrop
  have hwithin : ∀ {skip len : ℕ}, skip + len ≤ blocks * blockSize →
      ((source'.bytes.drop start).drop skip).take len =
        ((source.bytes.drop start).drop skip).take len := by
    intro skip len hle
    have hpart := congrArg (fun bytes : Text => (bytes.drop skip).take len) hunits
    rwa [List.drop_take, List.drop_take, List.take_take, List.take_take,
      Nat.min_eq_left (by omega)] at hpart
  have hblock : blockSize = 2880 := rfl
  have hpos := hunit.pos
  have hunit' : source'.HasUnit start blocks := by
    refine ⟨hpos, hsize ▸ hunit.inside, fun j hj => ?_⟩
    rw [← hunit.ends j hj, chunk, chunk, hwithin]
    rw [← Nat.succ_mul]
    exact Nat.mul_le_mul_right blockSize hj
  have hopens' : source'.Opens (.ofIndex index) start := by
    have hlong : 0 + 8 ≤ blocks * blockSize := by
      rw [hblock]
      omega
    rw [Source.Opens, ← hopens]
    exact hwithin hlong
  refine (nextHdu_some_iff hreads').mpr ⟨blocks, hunit', hopens', ?_, hstop, hsize ▸ hend⟩
  rw [Source.sumAt, Source.blocksAt, hunits]
  exact hparse

/-- Where one HDU takes the place of another, and the bytes before its header unit and after it stay,
a scan finds it there and the others as they were. -/
theorem scanFrom_replaced {target : Hdu R} {hdus : List (Hdu R)} {found : Hdus R} {k : ℕ}
    (hsize : source'.size = source.size) (hreads : source.Reads) (hreads' : source'.Reads)
    (hfound : scanFrom source start hdus = .ok found) (hk : hdus.length ≤ k)
    (htarget : found.hdus[k]? = some target)
    (hbefore : source'.bytes.take target.headerOffset = source.bytes.take target.headerOffset)
    (hafter : source'.bytes.drop target.dataOffset = source.bytes.drop target.dataOffset)
    (hnew : nextHdu source' target.headerOffset k =
      .ok (some (hdu, min target.stop source.size))) :
    scanFrom source' start hdus = .ok { found with hdus := found.hdus.set k hdu } := by
  fun_induction scanFrom source start hdus with
  | case1 start hdus first next hnext ih =>
    obtain ⟨hholds, rfl⟩ := nextHdu_holds hnext
    have hinside := hholds.dataOffset ▸ hholds.unit.inside
    have hstop : first.dataOffset ≤ min first.stop source.size :=
      Nat.le_min.mpr ⟨Nat.le_add_right _ _, hinside⟩
    rcases Nat.eq_or_lt_of_le hk with rfl | hlt
    · obtain ⟨more, hmore⟩ := scanFrom_prefix hfound
      have hfirst : first = target := by
        rw [← hmore, List.append_assoc, List.getElem?_append_right le_rfl, Nat.sub_self] at htarget
        exact Option.some.inj htarget
      subst hfirst
      rw [hholds.headerOffset] at hnew
      have hsame : source.SameFrom source' (min first.stop source.size) :=
        Source.SameFrom.mono ⟨hsize, hreads, hreads', hafter⟩ hstop
      obtain ⟨rest, hrest, hscan⟩ := @scanFrom_congr _ _ _ R _ (hdus ++ [first]) (hdus ++ [hdu]) found
        hsame (by simp only [List.length_append, List.length_cons, List.length_nil]) hfound
      rw [scanFrom_some hnew, hscan, hrest, List.append_assoc, List.append_assoc,
        List.set_append_right _ _ le_rfl, Nat.sub_self]
      rfl
    · have hplace := scanFrom_start_le hfound (by rw [List.length_append]; exact hlt) htarget
      have hkept : nextHdu source' start hdus.length =
          .ok (some (first, min first.stop source.size)) := by
        refine nextHdu_kept hsize hreads hreads' hnext ?_
        have htake := congrArg (List.take first.dataOffset) hbefore
        rwa [List.take_take, List.take_take, Nat.min_eq_left (hstop.trans hplace)] at htake
      rw [scanFrom_some hkept]
      exact ih hfound (by rw [List.length_append]; exact hlt)
  | case2 start hdus hnext hnil => cases hfound
  | case3 start hdus hnext hnil =>
    obtain rfl := Except.ok.inj hfound
    rw [List.getElem?_eq_none hk] at htarget
    cases htarget
  | case4 start hdus error hnext hfails => cases hfound
  | case5 start hdus error hnext hends =>
    obtain rfl := Except.ok.inj hfound
    rw [List.getElem?_eq_none hk] at htarget
    cases htarget
  | case6 start hdus panic hnext => cases hfound

end Kept

namespace FitsEditor

variable {editor editor' : FitsEditor R} {calls : FileCalls} {selector : HduSelector}
  {header : Header R} {out : Text} {hdu target : Hdu R}

/-- The HDUs of an editor are those that a scan of its file finds. -/
def Reopens (editor : FitsEditor R) : Prop :=
  ∀ source : Source, source.bytes = editor.file.bytes → source.Reads →
    scan source = .ok editor.hdus

theorem reopens_openFile {file : EditedFile} (hreads : ∀ place, calls.read place = none)
    (h : openFile calls file = .ok editor) : editor.Reopens := by
  obtain ⟨_, -, h⟩ := Loops.ok_of_bind h
  obtain ⟨hdus, hscan, h⟩ := Loops.ok_of_bind h
  obtain rfl := Except.ok.inj h
  intro source hbytes hsource
  have hsame : source = file.source calls := by
    obtain ⟨bytes, fault, sized⟩ := source
    obtain rfl : bytes = file.bytes := hbytes
    obtain rfl : fault = calls.read := funext fun place => (hsource place).trans (hreads place).symm
    rfl
  rw [hsame]
  exact hscan

/-- What a unit to write parses to, and the sum that it is parsed with. -/
theorem editedUnit_parse (hplaced : editor.Placed)
    (h : editedUnit calls selector header editor = .ok (out, hdu)) :
    ∃ target sum unitSum, editor.hdus.select selector = .ok target ∧
      checkUnit target header = .ok () ∧
      EditedHeader.render ⟨header, sum⟩ (.blocks target.headerBlocks) = .ok out ∧
      editor.Replaces target out hdu ∧ accumulate out 0 = .ok unitSum ∧
      Hdu.parse target.index ⟨out, unitSum, target.headerOffset⟩ = .ok hdu := by
  obtain ⟨target, sum, hselect, hcheck, -, hrender, hreplaces⟩ := editedUnit_ok hplaced h
  obtain ⟨own, hown, h⟩ := Loops.ok_of_bind h
  obtain rfl := Except.ok.inj (hown.symm.trans hselect)
  obtain ⟨_, -, h⟩ := Loops.ok_of_bind h
  obtain ⟨_, -, h⟩ := Loops.ok_of_bind h
  obtain ⟨rendered, -, h⟩ := Loops.ok_of_bind h
  obtain ⟨unitSum, hunitSum, h⟩ := Loops.ok_of_bind h
  obtain ⟨found, hparse, h⟩ := Loops.ok_of_bind h
  obtain ⟨rfl, rfl⟩ := Prod.mk.inj (Except.ok.inj h)
  exact ⟨own, sum, unitSum, hselect, hcheck, hrender, hreplaces, hunitSum, hparse⟩

/-- Data units of one length round up to the same blocks. -/
theorem padded_unique {len padded padded' : ℕ}
    (h : len ≤ padded ∧ padded < len + blockSize ∧ blockSize ∣ padded)
    (h' : len ≤ padded' ∧ padded' < len + blockSize ∧ blockSize ∣ padded') : padded' = padded := by
  have hblock : blockSize = 2880 := rfl
  rw [hblock] at h h'
  omega

/-- An HDU whose header gives the data unit of another, after a header unit of the same blocks, ends
where that one does. -/
theorem stop_replaced {unitSum : ℕ} {signing : Signing} {back : Header R}
    {source : Source} {offset : ℕ} (hcheck : checkUnit target header = .ok ())
    (hreplaces : editor.Replaces target out hdu)
    (hholds : source.HoldsHdu target.index offset target)
    (hback : Header.parse out = .ok back) (hreads : header.ReadBack signing back)
    (hparse : Hdu.parse target.index ⟨out, unitSum, target.headerOffset⟩ = .ok hdu) :
    hdu.stop = target.stop := by
  obtain ⟨kind, hkind, hcheck⟩ := Loops.ok_of_bind hcheck
  split at hcheck
  · cases hcheck
  rename_i hsame
  obtain rfl := not_not.mp hsame
  obtain ⟨dataBytes, hdata, hcheck⟩ := Loops.ok_of_bind hcheck
  split at hcheck
  · cases hcheck
  rename_i hlength
  obtain rfl := not_not.mp hlength
  have hagrees := hreads.agrees
  obtain ⟨own, hown, hparse⟩ := Loops.ok_of_bind hparse
  obtain rfl := Except.ok.inj (hown.symm.trans hback)
  obtain ⟨ownKind, hownKind, hparse⟩ := Loops.ok_of_bind hparse
  rw [hagrees.fromHeader, hkind] at hownKind
  obtain rfl := Except.ok.inj hownKind
  obtain ⟨ownBytes, hownBytes, hparse⟩ := Loops.ok_of_bind hparse
  rw [hagrees.dataBytes, hdata] at hownBytes
  obtain rfl := Except.ok.inj hownBytes
  obtain ⟨_, -, hparse⟩ := Loops.ok_of_bind hparse
  split at hparse
  · cases hparse
  · rename_i padded hpadded
    have hunique := padded_unique hholds.padded (paddedLen_eq_some hpadded)
    have hdataOffset := hreplaces.dataOffset
    obtain rfl := Except.ok.inj hparse
    rw [Hdu.stop, Hdu.stop, hdataOffset, hunique]

/-- A file with the new header unit of an HDU in place has the HDUs of the editor, with that one. -/
theorem reopens_edited {file : EditedFile} [RealsReadBack R] (hreopens : editor.Reopens)
    (hplaced : editor.Placed) (hedit : editedUnit calls selector header editor = .ok (out, hdu))
    (hheader : ∀ target, editor.hdus.select selector = .ok target →
      header.Scannable (.ofIndex target.index))
    (hfile : file.bytes = overwrite 0 editor.file.bytes hdu.headerOffset out) :
    Reopens ⟨file, { editor.hdus with hdus := editor.hdus.hdus.set hdu.index hdu }⟩ := by
  intro source hbytes hreads
  obtain ⟨target, sum, unitSum, hselect, hcheck, hrender, hreplaces, hunitSum, hparse⟩ :=
    editedUnit_parse hplaced hedit
  obtain ⟨old, hold⟩ : ∃ old : Source, old = ⟨editor.file.bytes, fun _ => none, editor.file.sized⟩ :=
    ⟨_, rfl⟩
  have holdBytes : old.bytes = editor.file.bytes := by rw [hold]
  have holdReads : old.Reads := fun place => by rw [hold]
  have hscan := hreopens old holdBytes holdReads
  -- the target is listed at its index, and the scan found it there
  have htarget : editor.hdus.hdus[target.index]? = some target := by
    obtain ⟨i, hi⟩ := List.mem_iff_getElem?.mp (Hdus.mem_of_select hselect)
    rwa [(hplaced i target hi).index]
  obtain ⟨offset, stop, hnext⟩ : ∃ offset stop,
      nextHdu old offset target.index = .ok (some (target, stop)) :=
    scanFrom_forall (P := fun i hdu => ∃ offset stop, nextHdu old offset i = .ok (some (hdu, stop)))
      (fun hnext => ⟨_, _, hnext⟩) (by simp) hscan _ _ htarget
  obtain ⟨hholds, -⟩ := nextHdu_holds hnext
  have hinside := hreplaces.inside
  rw [hreplaces.headerOffset] at hinside hfile
  have hend : target.headerOffset + out.length = target.dataOffset := by
    rw [hreplaces.length, hreplaces.lies.dataOffset]
  have hsource : source.bytes = editor.file.bytes.take target.headerOffset ++
      (out ++ editor.file.bytes.drop target.dataOffset) := by
    rw [hbytes, hfile, overwrite_inside hinside, hend, List.append_assoc]
  have hplace : (editor.file.bytes.take target.headerOffset).length = target.headerOffset := by
    rw [List.length_take]
    omega
  have hsize : source.size = old.size := by
    rw [Source.size, Source.size, hbytes, holdBytes, hfile, length_overwrite hinside]
  have hsigning : (⟨header, sum⟩ : EditedHeader R).signing ≠ .placeholder := by
    unfold EditedHeader.signing
    split
    · intro h
      cases h
    · intro h
      cases h
  obtain ⟨hunit, hblocks, hopens, back, hback, hreadBack⟩ :=
    source.holds_render hsource hsigning (hheader target hselect) hrender
  rw [hplace] at hunit hblocks hopens
  have hstop := stop_replaced hcheck hreplaces hholds hback hreadBack hparse
  have hfound : nextHdu source target.headerOffset target.index =
      .ok (some (hdu, min target.stop old.size)) := by
    rw [← hstop, ← hsize]
    refine (nextHdu_some_iff hreads).mpr ⟨_, hunit, hopens, ?_, ?_, rfl⟩
    · have hwhole : out.length % 4 = 0 := by
        have hblock : blockSize = 4 * 720 := rfl
        rw [hreplaces.length, hblock]
        omega
      rw [accumulate_eq hwhole (Nat.zero_le _), Nat.zero_add] at hunitSum
      rw [Source.sumAt, hblocks, Except.ok.inj hunitSum]
      exact hparse
    · rw [hstop]
      exact nextHdu_stop_le hnext
  have hreplaced := @scanFrom_replaced R _ old source 0 hdu target [] editor.hdus target.index hsize
    holdReads hreads hscan (Nat.zero_le _) htarget ?_ ?_ hfound
  · rw [scan, hreplaced, hreplaces.index]
  · rw [hsource, holdBytes, List.take_left' hplace]
  · rw [hsource, holdBytes, ← List.append_assoc, List.drop_left']
    rw [List.length_append, hplace, hend]

/-! ## Runs -/

/-- An editor after edits in place, each refused or written whole, of headers that a scan finds where
they go. -/
inductive Edits (editor : FitsEditor R) : FitsEditor R → Prop
  | refl : Edits editor editor
  | step {mid : FitsEditor R} (h : Edits editor mid) (calls : FileCalls) (selector : HduSelector)
      (header : Header R) (hwrite : calls.write = none) (hflushes : calls.flushes = true)
      (hheader : ∀ target, mid.hdus.select selector = .ok target →
        header.Scannable (.ofIndex target.index)) :
      Edits editor ((replaceHeader calls selector header).run mid).2

/-- An editor of a file, after any edits in place of which each was refused or written whole, with
headers that open as their HDUs do and read back: the file opens as the editor. -/
theorem edited_file_reopens [RealsReadBack R] {file : EditedFile} {reads : FileCalls}
    (hopen : openFile reads file = .ok editor) (hreads : ∀ place, reads.read place = none)
    (hedits : Edits editor editor') (hcalls : ∀ place, calls.read place = none)
    (hsizes : calls.sizes = true) : openFile calls editor'.file = .ok editor' := by
  have hboth : editor'.Reopens ∧ editor'.Placed := by
    induction hedits with
    | refl => exact ⟨reopens_openFile hreads hopen, placed_openFile hopen⟩
    | @step mid hedits calls selector header hwrite hflushes hheader ih =>
      obtain ⟨hreopens, hplaced⟩ := ih
      refine ⟨?_, placed_replaceHeader hplaced⟩
      have hends := @replaceHeader_ends _ _ _ calls selector header hplaced
      generalize (replaceHeader calls selector header).run mid = result at hends ⊢
      cases hends with
      | refused hrefused fault => exact hreopens
      | broken hedit hseeks hbroken fault file count hfile =>
        rcases hbroken with hbroken | hbroken
        · exact (hbroken hwrite).elim
        · rw [hflushes] at hbroken
          cases hbroken
      | done hedit file hfile => exact reopens_edited hreopens hplaced hedit hheader hfile
  have hscan := hboth.1 (editor'.file.source calls) rfl hcalls
  rw [openFile, answer, if_pos hsizes, Loops.bind_ok rfl, Loops.bind_ok hscan]

theorem readable_notedPrimary : ∀ record ∈ notedPrimary.records, record.Readable := by
  intro record hmem
  simp only [notedPrimary, Header.ofRecords, List.mem_cons, List.not_mem_nil, or_false] at hmem
  rcases hmem with rfl | rfl | rfl | rfl
  · exact ⟨trivial, fun _ h => by cases h⟩
  · exact ⟨trivial, fun _ h => by cases h⟩
  · exact ⟨trivial, fun _ h => by cases h⟩
  · exact (by decide : (Record.commentary .COMMENT (some (ascii "edited")) : Record ℤ).validate = .ok ())

theorem edited_file_reopens_noted : ∃ editor editor' : FitsEditor ℤ,
    openFile workingCalls emptyPrimary = .ok editor ∧
      (replaceHeader workingCalls (.index 0) notedPrimary).run editor = (.ok (), editor') ∧
        openFile workingCalls editor'.file = .ok editor' := by
  obtain ⟨header, sum, -, hopen⟩ := openFile_emptyPrimary
  obtain ⟨editor', hrun⟩ := notedPrimary_edits header sum
  have hedits : Edits (emptyEditor header sum) editor' := by
    have hstep := Edits.step (.refl : Edits (emptyEditor header sum) _) workingCalls (.index 0)
      notedPrimary rfl rfl fun target htarget => ?_
    · rwa [hrun] at hstep
    · obtain rfl := Except.ok.inj htarget
      exact ⟨readable_notedPrimary, rfl⟩
  exact ⟨_, editor', hopen, hrun,
    edited_file_reopens hopen (fun _ => rfl) hedits (fun _ => rfl) rfl⟩

end FitsEditor

end FitsWell
