import FitsWell.Hdu.Scan

/-!
# What a scan finds

A scan of a source that reads finds the HDU whose header unit starts where the scan is: the blocks
up to the one with the `END` record, which open as a header of their position does.
-/

namespace FitsWell

open Checksum (accumulate accumulate_eq allOnes)
open Chunks (chunk)
open OnesComplement (rep rep_le rep_add_rep)

/-- The first bytes of a header unit at a position. -/
def HduPosition.opening : HduPosition → Text
  | .primary => ascii "SIMPLE  "
  | .extension => ascii "XTENSION"

namespace Source

variable (source : Source)

/-- A header unit of a position may start here. -/
def Opens (position : HduPosition) (start : ℕ) : Prop :=
  (source.bytes.drop start).take 8 = position.opening

/-- Every read succeeds. -/
def Reads : Prop := ∀ place, source.fault place = none

/-- The sum of so many blocks at `start`. -/
def sumAt (start blocks : ℕ) : ℕ :=
  rep allOnes (OnesComplement.total 0 (source.blocksAt start blocks))

end Source

/-! ## Header units -/

section Units

variable {source : Source} {position : HduPosition} {start blocks : ℕ}

theorem Source.length_block {offset : ℕ} (h : offset + blockSize ≤ source.size) :
    ((source.bytes.drop offset).take blockSize).length = blockSize := by
  unfold size at h
  rw [List.length_take, List.length_drop]
  omega

/-- A block that opens a unit, or goes on with one, is taken. -/
theorem takeBlock_of_opens {cursor : HeaderCursor} {block : Text} (hblock : block.length = blockSize)
    (hsum : cursor.sum ≤ allOnes) (hroom : cursor.offset + blockSize ≤ usizeMax)
    (hopens : cursor.bytes = [] → block.take 8 = position.opening) :
    takeBlock position cursor block =
      .ok (if blockHasEnd block then
        .done (.found (cursor.bytes ++ block) (rep allOnes (cursor.sum + OnesComplement.total 0 block)))
          (cursor.offset + blockSize)
      else .more ⟨cursor.offset + blockSize, cursor.bytes ++ block,
        rep allOnes (cursor.sum + OnesComplement.total 0 block)⟩) := by
  have hsize : blockSize = 2880 := rfl
  have hkeyword : subslice block 0 8 = .ok (block.take 8) := by
    rw [subslice_of_le (by omega), List.drop_zero]
  unfold takeBlock
  rw [Loops.bind_ok hkeyword]
  by_cases hempty : cursor.bytes = []
  · rw [hopens hempty]
    have hprimary : ¬(cursor.bytes.isEmpty ∧ position = .primary ∧
        position.opening ≠ ascii "SIMPLE  ") := by
      rintro ⟨-, rfl, hne⟩
      exact hne rfl
    have hextension : ¬(cursor.bytes.isEmpty ∧ position = .extension ∧
        position.opening ≠ ascii "XTENSION") := by
      rintro ⟨-, rfl, hne⟩
      exact hne rfl
    rw [if_neg hprimary, if_neg hextension, Loops.bind_ok (addUsize_of_le hroom),
      Loops.bind_ok (accumulate_eq (by omega) hsum)]
    split <;> rfl
  · have hnone : ¬cursor.bytes.isEmpty := by simpa using hempty
    rw [if_neg (fun h => hnone h.1), if_neg (fun h => hnone h.1),
      Loops.bind_ok (addUsize_of_le hroom), Loops.bind_ok (accumulate_eq (by omega) hsum)]
    split <;> rfl

/-- A block that is no end of trailing bytes opens a unit, or goes on with one. -/
theorem opens_of_takeBlock {cursor : HeaderCursor} {block : Text} {step : HeaderStep}
    (hempty : cursor.bytes = []) (h : takeBlock position cursor block = .ok step)
    (hstep : step ≠ .done .trailing cursor.offset) : block.take 8 = position.opening := by
  obtain ⟨keyword, hkeyword, h⟩ := Loops.ok_of_bind h
  obtain rfl : keyword = block.take 8 := by
    unfold subslice at hkeyword
    split at hkeyword
    · rw [List.drop_zero] at hkeyword
      exact (Except.ok.inj hkeyword).symm
    · cases hkeyword
  have hnil : cursor.bytes.isEmpty = true := by rw [hempty]; rfl
  cases position with
  | primary =>
    by_cases hopens : block.take 8 = ascii "SIMPLE  "
    · exact hopens
    · rw [if_pos ⟨hnil, rfl, hopens⟩] at h
      cases h
  | extension =>
    by_cases hopens : block.take 8 = ascii "XTENSION"
    · exact hopens
    · rw [if_neg (by simp), if_pos ⟨hnil, rfl, hopens⟩] at h
      exact absurd (Except.ok.inj h).symm hstep

/-- A scan that has read some of a unit, from a source that reads, reads it to its end. -/
theorem nextHeader_of_unit (hreads : source.Reads) (hunit : source.HasUnit start blocks)
    (hopens : source.Opens position start) {read : ℕ} (hread : read < blocks) :
    nextHeader source position
        ⟨start + read * blockSize, source.blocksAt start read, source.sumAt start read⟩ =
      .ok (.found (source.blocksAt start blocks) (source.sumAt start blocks),
        start + blocks * blockSize) := by
  have hsize : blockSize = 2880 := rfl
  obtain ⟨left, hleft⟩ : ∃ left, left = blocks - read := ⟨_, rfl⟩
  induction left generalizing read with
  | zero => omega
  | succ left ih =>
    have hinside := hunit.inside
    have hnext : start + read * blockSize + blockSize = start + (read + 1) * blockSize := by
      rw [Nat.add_mul, Nat.one_mul, Nat.add_assoc]
    have hroom : start + read * blockSize + blockSize ≤ source.size := by
      rw [hnext]
      exact (Nat.add_le_add_left (Nat.mul_le_mul_right blockSize hread) start).trans hinside
    have hword := source.sized
    obtain ⟨block, hblock⟩ : ∃ block,
        block = (source.bytes.drop (start + read * blockSize)).take blockSize := ⟨_, rfl⟩
    have hlength : block.length = blockSize := hblock ▸ Source.length_block hroom
    have hread' : (source.blocksAt start read).length = read * blockSize :=
      Source.length_blocksAt (by omega)
    have hmore : source.blocksAt start read ++ block = source.blocksAt start (read + 1) := by
      rw [hblock, Source.blocksAt_succ]
    have hsum : rep allOnes (source.sumAt start read + OnesComplement.total 0 block) =
        source.sumAt start (read + 1) := by
      have hplace : 0 + read * blockSize = 0 + 4 * (read * 720) := by
        rw [hsize]
        omega
      rw [Source.sumAt, rep_add_rep, Source.sumAt, ← hmore, OnesComplement.total_append, hread',
        hplace, OnesComplement.total_add_four_mul]
    have hends := hunit.ends read hread
    have hchunk : chunk (source.bytes.drop start) blockSize read = block := by
      rw [chunk, List.drop_drop, hblock]
    rw [hchunk] at hends
    have hstart : source.blocksAt start read = [] → block.take 8 = position.opening := by
      intro hnil
      rw [hnil, List.length_nil] at hread'
      rw [hblock, List.take_take, ← hread', Nat.add_zero, Nat.min_eq_left (by omega)]
      exact hopens
    have htake := @takeBlock_of_opens position
      ⟨start + read * blockSize, source.blocksAt start read, source.sumAt start read⟩ block hlength
      (rep_le _ (by decide)) (by unfold Source.size at hroom; dsimp only; omega) hstart
    dsimp only at htake
    rw [hmore, hsum, hnext, hends] at htake
    have hstep : headerStep source position
        ⟨start + read * blockSize, source.blocksAt start read, source.sumAt start read⟩ =
        takeBlock position
          ⟨start + read * blockSize, source.blocksAt start read, source.sumAt start read⟩ block := by
      have havail : start + read * blockSize ≤ source.size := by omega
      have hrange : Source.checkRange (start + read * blockSize) blockSize source.size = .ok () := by
        unfold Source.checkRange
        rw [checkedAdd, if_pos (by unfold Source.size at hroom; omega)]
        exact if_neg (by omega)
      unfold headerStep
      dsimp only
      rw [Loops.bind_ok (subUsize_of_le havail), if_neg (by omega), if_neg (by omega),
        Source.readAppend, Loops.bind_ok hrange, hreads, Loops.bind_ok rfl, List.drop_left, hblock]
    rw [nextHeader]
    split
    · rename_i fault hfault
      rw [hstep, htake] at hfault
      cases hfault
    · rename_i found offset hfound
      rw [hstep, htake, Except.ok.injEq] at hfound
      by_cases hlast : read + 1 = blocks
      · rw [if_pos (decide_eq_true hlast)] at hfound
        obtain ⟨rfl, rfl⟩ := HeaderStep.done.inj hfound
        rw [hlast]
      · rw [if_neg (by simpa using hlast)] at hfound
        cases hfound
    · rename_i next hfound
      rw [hstep, htake, Except.ok.injEq] at hfound
      by_cases hlast : read + 1 = blocks
      · rw [if_pos (decide_eq_true hlast)] at hfound
        cases hfound
      · rw [if_neg (by simpa using hlast)] at hfound
        obtain rfl := HeaderStep.more.inj hfound
        exact ih (by omega) (by omega)

/-- A unit that a scan finds opens as its position does. -/
theorem opens_of_nextHeader {bytes : Text} {sum stop : ℕ}
    (h : nextHeader source position ⟨start, [], 0⟩ = .ok (.found bytes sum, stop)) :
    source.Opens position start := by
  have hstep : ∀ step, headerStep source position ⟨start, [], 0⟩ = .ok step →
      step ≠ .done .trailing start → step ≠ .done .ended start → source.Opens position start := by
    intro step hok htrailing hended
    obtain ⟨avail, havail, hok⟩ := Loops.ok_of_bind hok
    split at hok
    · exact absurd (Except.ok.inj hok).symm hended
    split at hok
    · exact absurd (Except.ok.inj hok).symm htrailing
    obtain ⟨read, hread, hok⟩ := Loops.ok_of_bind hok
    have hopens := opens_of_takeBlock rfl hok htrailing
    have hblock : blockSize = 2880 := rfl
    rw [readAppend_eq_ok hread] at hopens
    dsimp only at hopens
    rwa [List.nil_append, List.length_nil, List.drop_zero, List.take_take,
      Nat.min_eq_left (by omega)] at hopens
  rw [nextHeader] at h
  split at h
  · cases h
  · rename_i next offset hfound
    obtain ⟨rfl, -⟩ := Prod.mk.inj (Except.ok.inj h)
    exact hstep _ hfound (by simp) (by simp)
  · rename_i next hfound
    exact hstep _ hfound (by simp) (by simp)

end Units

/-! ## HDUs -/

variable {R : Type} [RealWords R]

/-- The next HDU that a scan of a source that reads finds. -/
theorem nextHdu_some_iff {source : Source} {start index stop : ℕ} {hdu : Hdu R}
    (hreads : source.Reads) :
    nextHdu source start index = .ok (some (hdu, stop)) ↔ ∃ blocks,
      source.HasUnit start blocks ∧ source.Opens (.ofIndex index) start ∧
        Hdu.parse index ⟨source.blocksAt start blocks, source.sumAt start blocks, start⟩ = .ok hdu ∧
        hdu.stop ≤ usizeMax ∧ stop = min hdu.stop source.size := by
  have hempty : (⟨start + 0 * blockSize, source.blocksAt start 0, source.sumAt start 0⟩ :
      HeaderCursor) = ⟨start, [], 0⟩ := by
    rw [Source.sumAt, Source.blocksAt, Nat.zero_mul, List.take_zero, Nat.add_zero]
    rfl
  have hfinds : ∀ blocks, source.HasUnit start blocks → source.Opens (.ofIndex index) start →
      nextHeader source (.ofIndex index) ⟨start, [], 0⟩ =
        .ok (.found (source.blocksAt start blocks) (source.sumAt start blocks),
          start + blocks * blockSize) := by
    intro blocks hunit hopens
    rw [← hempty]
    exact nextHeader_of_unit hreads hunit hopens hunit.pos
  constructor
  · intro h
    have hstop := nextHdu_stop_le h
    obtain ⟨-, hend⟩ := nextHdu_holds h
    obtain ⟨⟨next, place⟩, hnext, h⟩ := Loops.ok_of_bind h
    have hle : start ≤ source.size := offset_le_of_nextHeader hnext
    have hspec := (nextHeader_spec (HeaderCursor.within_start hle)).2 next place hnext
    cases next with
    | ended => cases h
    | trailing => cases h
    | found bytes sum =>
      obtain ⟨blocks, hunit, rfl, rfl⟩ := hspec
      have hopens := opens_of_nextHeader hnext
      have hfound := Prod.mk.inj (Except.ok.inj (hnext.symm.trans (hfinds blocks hunit hopens)))
      obtain ⟨-, rfl⟩ := NextHeader.found.inj hfound.1
      obtain ⟨place, hplace, h⟩ := Loops.ok_of_bind h
      obtain ⟨-, rfl⟩ := subUsize_eq_ok_iff.mp hplace
      obtain ⟨found, hparse, h⟩ := Loops.ok_of_bind h
      obtain ⟨last, -, h⟩ := Loops.ok_of_bind h
      obtain ⟨rfl, -⟩ := Prod.mk.inj (Option.some.inj (Except.ok.inj h))
      dsimp only at hparse
      rw [Source.length_blocksAt hunit.inside, Nat.add_sub_cancel] at hparse
      exact ⟨blocks, hunit, hopens, hparse, hstop, hend⟩
  · rintro ⟨blocks, hunit, hopens, hparse, hstop, rfl⟩
    have hlength := Source.length_blocksAt hunit.inside
    have hplace : subUsize (start + blocks * blockSize) (source.blocksAt start blocks).length =
        .ok start := by
      rw [hlength, subUsize_of_le (Nat.le_add_left _ _), Nat.add_sub_cancel]
    have hlast : orOverflow (checkedAdd hdu.dataOffset hdu.paddedDataBytes) = .ok hdu.stop :=
      orOverflow_eq_ok_iff.mpr (checkedAdd_eq_some_iff.mpr ⟨hstop, rfl⟩)
    unfold nextHdu
    rw [Loops.bind_ok (hfinds blocks hunit hopens)]
    dsimp only
    rw [Loops.bind_ok hplace, Loops.bind_ok hparse, Loops.bind_ok hlast]

/-! ## Scans -/

theorem scanFrom_some {source : Source} {offset next : ℕ} {hdus : List (Hdu R)} {hdu : Hdu R}
    (h : nextHdu source offset hdus.length = .ok (some (hdu, next))) :
    scanFrom source offset hdus = scanFrom source next (hdus ++ [hdu]) := by
  rw [scanFrom]
  split
  · rename_i found after hfound
    obtain ⟨rfl, rfl⟩ := Prod.mk.inj (Option.some.inj (Except.ok.inj (h.symm.trans hfound)))
    rfl
  · rename_i hnone
    cases h.symm.trans hnone
  · rename_i error herror
    cases h.symm.trans herror
  · rename_i panic hpanic
    cases h.symm.trans hpanic

theorem scanFrom_none {source : Source} {offset : ℕ} {hdus : List (Hdu R)}
    (h : (nextHdu source offset hdus.length : Outcome (Option (Hdu R × ℕ))) = .ok none) :
    scanFrom source offset hdus = if hdus.isEmpty then fail .unexpectedEof else .ok ⟨hdus, none⟩ := by
  rw [scanFrom]
  split
  · rename_i found after hfound
    cases h.symm.trans hfound
  · rfl
  · rename_i error herror
    cases h.symm.trans herror
  · rename_i panic hpanic
    cases h.symm.trans hpanic

/-- A scan ends at the end of its source. -/
theorem nextHdu_at_end (source : Source) (index : ℕ) :
    (nextHdu source source.size index : Outcome (Option (Hdu R × ℕ))) = .ok none := by
  have hstep : headerStep source (.ofIndex index) ⟨source.size, [], 0⟩ =
      .ok (.done .ended source.size) := by
    unfold headerStep
    dsimp only
    rw [Loops.bind_ok (subUsize_of_le le_rfl), Nat.sub_self, if_pos rfl]
    rfl
  have hheader : nextHeader source (.ofIndex index) ⟨source.size, [], 0⟩ =
      .ok (.ended, source.size) := by
    rw [nextHeader]
    split
    · rename_i fault hfault
      cases hstep.symm.trans hfault
    · rename_i next offset hfound
      obtain ⟨rfl, rfl⟩ := HeaderStep.done.inj (Except.ok.inj (hstep.symm.trans hfound))
      rfl
    · rename_i next hfound
      cases hstep.symm.trans hfound
  unfold nextHdu
  rw [Loops.bind_ok hheader]

end FitsWell
