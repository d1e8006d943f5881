import FitsWell.HeaderModel.RecordRoundTrip
import FitsWell.HeaderModel.SignedHeader

/-!
# A rendered header unit

The cards of the records, the free ones, the `END` card and blanks: whole blocks, of which only the
last holds an `END` card.
-/

namespace FitsWell

variable {R : Type}

namespace Header

/-! ## Free records -/

theorem spareRecords_blocks {blocks records spare : ℕ}
    (h : spareRecords (.blocks blocks) records = .ok spare) :
    records + spare + 1 = blocks * recordsPerBlock := by
  obtain ⟨needed, hneeded, h⟩ := Loops.ok_of_bind h
  rw [divCeil_of_pos (by decide)] at hneeded
  obtain rfl := Except.ok.inj hneeded
  have hrecords : recordsPerBlock = 36 := rfl
  rw [hrecords] at h ⊢
  split at h
  · cases h
  · obtain ⟨room, hroom, h⟩ := Loops.ok_of_bind h
    obtain ⟨-, rfl⟩ := mulUsize_eq_ok_iff.mp hroom
    obtain ⟨hle, rfl⟩ := subUsize_eq_ok_iff.mp h
    omega

/-- Free records that fill so many blocks are a number of them. -/
theorem layOut_blocks {blocks : ℕ} {bytes out : Text} (h : layOut (.blocks blocks) bytes = .ok out) :
    ∃ spare, bytes.length / cardSize + spare + 1 = blocks * recordsPerBlock ∧
      layOut (.spare spare) bytes = .ok out := by
  rw [layOut] at h
  obtain ⟨spare, hspare, h⟩ := Loops.ok_of_bind h
  refine ⟨spare, spareRecords_blocks hspare, ?_⟩
  rw [layOut, spareRecords, Loops.bind_ok rfl]
  exact h

variable [RealText R]

/-- A plain render is the cards of its records, laid out. -/
theorem renderInto_unsigned_iff {header : Header R} {space : Space} {out : Text} :
    header.renderInto .unsigned space = .ok out ↔
      ∃ cards, Renders header.records cards ∧ layOut space cards.flatten = .ok out := by
  constructor
  · intro h
    obtain ⟨rendered, hrendered, h⟩ := Loops.ok_of_bind h
    obtain ⟨cards, hcards, rfl⟩ := (renderRecords_unsigned _ _).mp hrendered
    obtain ⟨laid, hlaid, h⟩ := Loops.ok_of_bind h
    rw [writeChecksum_unsigned] at h
    obtain rfl := Except.ok.inj h
    exact ⟨cards, hcards, hlaid⟩
  · rintro ⟨cards, hcards, hlaid⟩
    rw [renderInto, (renderRecords_unsigned _ _).mpr ⟨cards, hcards, rfl⟩, Loops.bind_ok rfl, hlaid,
      Loops.bind_ok rfl, writeChecksum_unsigned]

/-- A render into so many blocks leaves a number of records free. -/
theorem renderInto_blocks {header : Header R} {signing : Signing} {blocks : ℕ} {out : Text}
    (h : header.renderInto signing (.blocks blocks) = .ok out) :
    ∃ spare, header.renderInto signing (.spare spare) = .ok out := by
  obtain ⟨rendered, hrendered, h⟩ := Loops.ok_of_bind h
  obtain ⟨laid, hlaid, h⟩ := Loops.ok_of_bind h
  obtain ⟨spare, -, hspare⟩ := layOut_blocks hlaid
  refine ⟨spare, ?_⟩
  rw [renderInto, Loops.bind_ok hrendered, Loops.bind_ok hspare, h]

/-- A render into so many blocks takes them all. -/
theorem length_renderInto_unsigned {header : Header R} {blocks : ℕ} {out : Text}
    (h : header.renderInto .unsigned (.blocks blocks) = .ok out) :
    out.length = blocks * blockSize := by
  obtain ⟨cards, hcards, hlaid⟩ := renderInto_unsigned_iff.mp h
  have hlength := length_renders hcards
  obtain ⟨spare, hfill, hlaid⟩ := layOut_blocks hlaid
  rw [hlength, Nat.mul_div_cancel_left _ (by decide)] at hfill
  obtain ⟨-, rfl⟩ := (layOut_spare_iff hlength).mp hlaid
  have hrecords : recordsPerBlock = 36 := rfl
  have hblock : blockSize = 2880 := rfl
  rw [length_layOut hlength, hfill, blockBytes, hrecords, hblock]
  omega

end Header

end FitsWell
