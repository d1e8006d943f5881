import FitsWell.FitsWriter.Streamed
import FitsWell.FitsWriter.Writes

/-!
# Checksums of what is written

A writer that writes checksums signs each HDU with the sum of the data unit that it sends, and the
HDU comes to all ones.
-/

namespace FitsWell

open Checksum (accumulate allOnes)

variable {R : Type} [PlaneReals R] {answers : SinkAnswers}

/-- A header unit declares the sum of the data unit after it, in the text of the first `DATASUM` of
the header that it renders, and the two come to all ones. -/
def Verified (R : Type) [PlaneReals R] (space : Space) (head data : Text) : Prop :=
  ∃ (sum : ℕ) (header : Header R) (comment : Option Text),
    accumulate data 0 = .ok sum ∧ header.renderInto .unsigned space = .ok head ∧
      header.first Keyword.DATASUM =
        some (.valued Keyword.DATASUM (.text (Decimal.numeral sum)) comment) ∧
      accumulate (head ++ data) 0 = .ok allOnes

theorem toNat_sum {data : Text} {sum : ℕ} (h : accumulate data 0 = .ok sum)
    (hwhole : data.length % 4 = 0) : (UInt32.ofNat sum).toNat = sum := by
  rw [accumulate_of_whole hwhole] at h
  obtain rfl := Except.ok.inj h
  have hle := OnesComplement.rep_le (OnesComplement.total 0 data) (by decide : 0 < allOnes)
  refine UInt32.toNat_ofNat_of_lt' ?_
  unfold allOnes at hle ⊢
  norm_num at hle ⊢
  omega

/-- A header that is signed with the sum of its data unit verifies. -/
theorem verified_of_signed {header : Header R} {space : Space} {head data : Text} {sum : ℕ}
    (hwhole : data.length % 4 = 0) (hsum : accumulate data 0 = .ok sum)
    (h : header.renderInto (.withDataSum (UInt32.ofNat sum)) space = .ok head) :
    Verified R space head data := by
  obtain ⟨value, _, _, _, -, -, hplain, -, -, -, -, -, hdataSum, total, htotal, hones⟩ :=
    Header.renderInto_withDataSum h
  rw [toNat_sum hsum hwhole] at hdataSum hones
  exact ⟨sum, _, _, hsum, hplain, hdataSum, hones ▸ Checksum.accumulate_append htotal hsum⟩

/-- The signing of a writer of checksums is with the sum. -/
theorem signing_on {form : HeaderForm} (hon : form.checksums = .on) {sum : Outcome ℕ}
    {signing : Signing} (h : form.signing sum = .ok signing) :
    ∃ found, sum = .ok found ∧ signing = .withDataSum (UInt32.ofNat found) := by
  rw [HeaderForm.signing, hon] at h
  obtain ⟨found, hfound, h⟩ := Loops.ok_of_bind h
  exact ⟨found, hfound, (Except.ok.inj h).symm⟩

namespace FitsWriter

/-- The empty primary before an extension verifies too. -/
theorem verified_primary {writer : FitsWriter} (hon : writer.form.checksums = .on)
    {next position : HduPosition} {primary : Text}
    (h : writer.leadingPrimary R next position = .ok (some primary)) :
    Verified R writer.form.space primary [] := by
  unfold leadingPrimary at h
  split at h
  · obtain ⟨header, -, h⟩ := Loops.ok_of_bind h
    obtain ⟨signing, hsigning, h⟩ := Loops.ok_of_bind h
    obtain ⟨out, hout, h⟩ := Loops.ok_of_bind h
    obtain rfl := Option.some.inj (Except.ok.inj h)
    obtain ⟨sum, hsum, rfl⟩ := signing_on hon hsigning
    obtain rfl := Except.ok.inj hsum
    exact verified_of_signed rfl rfl hout
  · cases h

/-- What a write of an HDU sends that returned. -/
theorem wrote_of_ok {writer writer' : FitsWriter} {write : HduWrite R}
    (h : (write.run answers).run writer = (.ok (), writer')) :
    ∃ commit hdu, writer.prepared write = .ok (commit, hdu) ∧
      Wrote writer writer' (hdu.bytes commit.body) := by
  have hends := @write_ends R _ answers writer write
  rw [h] at hends
  generalize hprepared : writer.prepared write = prepared at hends
  cases hends with
  | done commit hdu calls hworks => exact ⟨commit, hdu, rfl, rfl, rfl, rfl, rfl⟩

/-- The records of the header of an image without samples, signed, each of which renders. -/
def emptyRowRecords : Outcome (Marked ℤ) := do
  let base ← imageHeader emptyRow.metadata .primary
  .ok (base.markedRecords (.withDataSum 0))

end FitsWriter

end FitsWell
