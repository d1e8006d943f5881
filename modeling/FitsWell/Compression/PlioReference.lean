import FitsWell.Compression.PlioSegments

/-!
# The line list, one pixel at a time

The encoder as it was before it passed a run of equal pixels whole, which the tests keep as
a reference. A pixel equal to the one before it changes nothing but the value read ahead, so
both write the same list.
-/

namespace FitsWell.Plio

variable {offset : ℤ} {values : List ℤ}

/-- The reference's loop from pixel `ip` on: each pixel is a turn of its own. -/
def referenceLoop (offset : ℤ) (values : List ℤ) (s : EncodeState) (ip : ℕ) : List Word :=
  let xe := values.length
  let pix := fun i1 => values.getD (i1 - 1) 0 + offset
  if ip ≤ xe then
    referenceLoop offset values (s.advance xe ip (pix (ip + 1))) (ip + 1)
  else
    s.ll
termination_by values.length + 1 - ip

/-- The reference's list of `values`, before its length is written into its header. -/
def Codec.referenceList (codec : Codec) (values : List ℤ) : List Word :=
  if 0 < values.length then
    let pv := values.getD 0 0 + codec.offset
    referenceLoop codec.offset values ⟨headerWords, pv, 1, 1, 1, 0⟩ 1
  else
    headerWords

/-- The bytes the reference writes. It unwraps the length, which a list too long has not. -/
def Codec.referenceEncode (codec : Codec) (values : List ℤ) : Outcome (List UInt8) :=
  let ll := codec.referenceList values
  match lengthWords ll.length with
  | .ok (low, high) => .ok (((ll.set 3 low).set 4 high).flatMap Word.beBytes)
  | .error _ => abort .expectation

/-! ## Turns of the loop -/

theorem referenceLoop_done {s : EncodeState} {ip : ℕ} (hip : values.length < ip) :
    referenceLoop offset values s ip = s.ll := by
  rw [referenceLoop, if_neg (by omega)]

theorem referenceLoop_step {s : EncodeState} {ip : ℕ} (hle : ip ≤ values.length) :
    referenceLoop offset values s ip =
      referenceLoop offset values (s.advance values.length ip (values.getD ip 0 + offset))
        (ip + 1) := by
  rw [referenceLoop]
  simp only [if_pos hle, Nat.add_sub_cancel]

/-- The value read ahead plays no part in the high value's words. -/
theorem pushHigh_nv (s : EncodeState) (v np nz : ℤ) :
    { s with nv := v : EncodeState }.pushHigh np nz =
      ({ (s.pushHigh np nz).1 with nv := v }, (s.pushHigh np nz).2) := by
  unfold EncodeState.pushHigh
  dsimp only
  split
  · split
    · rfl
    · split <;> rfl
  · rfl

/-- The value read ahead plays no part in a segment's words. -/
theorem flush_nv (s : EncodeState) (v : ℤ) (ip : ℕ) :
    ({ s with nv := v : EncodeState }.flush ip).ll = (s.flush ip).ll := by
  simp only [EncodeState.flush, pushHigh_nv]

/-- A turn before the last pixel reads ahead anew. -/
theorem advance_nv (s : EncodeState) (v next : ℤ) {xe last : ℕ} (hlt : last < xe) :
    { s with nv := v : EncodeState }.advance xe last next = s.advance xe last next := by
  simp only [EncodeState.advance, if_pos hlt]

/-- The words of the last turn do not depend on the value read ahead. -/
theorem advance_nv_last (s : EncodeState) (v next : ℤ) {xe last : ℕ} (hlast : ¬last < xe) :
    ({ s with nv := v : EncodeState }.advance xe last next).ll = (s.advance xe last next).ll := by
  simp only [EncodeState.advance, if_neg hlast]
  split
  · exact flush_nv { s with x1 := (xe : ℤ) + 1 } v last
  · exact flush_nv s v last

/-- A pixel before one of the same value changes the value read ahead only. -/
theorem advance_same {s : EncodeState} {xe ip : ℕ} (hlt : ip < xe) :
    s.advance xe ip s.pv = { s with nv := s.pv } := by
  simp only [EncodeState.advance, if_pos hlt, if_true]

/-- The pixels counted by a run have its value. -/
theorem getD_of_lt_runLen {value : ℤ} {ip k : ℕ}
    (hk : k < runLen (values.drop ip) (value - offset)) :
    ip + k < values.length ∧ values.getD (ip + k) 0 + offset = value := by
  rw [runLen_drop] at hk
  obtain ⟨run, hrun⟩ : ∃ run, run = ((values.map (· + offset)).drop ip).takeWhile
      (fun v => decide (v = value)) := ⟨_, rfl⟩
  rw [← hrun] at hk
  have hmem : run[k] = value := by
    have hmem : run[k] ∈ ((values.map (· + offset)).drop ip).takeWhile
        (fun v => decide (v = value)) := by
      rw [← hrun]
      exact List.getElem_mem hk
    have hsame := List.mem_takeWhile_imp hmem
    exact of_decide_eq_true hsame
  have hprefix : run <+: (values.map (· + offset)).drop ip := hrun ▸ List.takeWhile_prefix _
  have hget := hprefix.getElem hk
  have hlength := hprefix.length_le
  rw [List.length_drop, List.length_map] at hlength
  refine ⟨by omega, ?_⟩
  rw [hmem, List.getElem_drop, List.getElem_map] at hget
  rw [List.getD_eq_getElem?_getD, List.getElem?_eq_getElem (by omega)]
  exact hget.symm

/-- The reference passes the pixels of a run one by one. -/
theorem referenceLoop_run {s : EncodeState} {ip : ℕ} (k : ℕ)
    (hk : k ≤ runLen (values.drop ip) (s.pv - offset)) :
    ∃ v, referenceLoop offset values s ip =
      referenceLoop offset values { s with nv := v } (ip + k) := by
  induction k with
  | zero => exact ⟨s.nv, rfl⟩
  | succ k ih =>
    obtain ⟨v, hpassed⟩ := ih (by omega)
    obtain ⟨hlt, hpixel⟩ := getD_of_lt_runLen (show k < runLen (values.drop ip) (s.pv - offset) by omega)
    refine ⟨s.pv, hpassed.trans ?_⟩
    rw [referenceLoop_step (by omega), advance_nv s v _ hlt, hpixel, advance_same hlt]
    rfl

/-- Passing runs whole and stepping one pixel at a time write the same words. -/
theorem encodeLoop_eq_reference (s : EncodeState) (ip : ℕ) :
    encodeLoop offset values s ip = referenceLoop offset values s ip := by
  induction hleft : values.length + 1 - ip using Nat.strong_induction_on generalizing s ip with
  | _ left ih =>
    by_cases hle : ip ≤ values.length
    · obtain ⟨last, hlast⟩ : ∃ last, last = ip + runLen (values.drop ip) (s.pv - offset) := ⟨_, rfl⟩
      obtain ⟨v, hrun⟩ := referenceLoop_run _ le_rfl
      rw [encodeLoop_step hlast hle, hrun, ← hlast, ih _ (by omega) _ _ rfl]
      by_cases hlt : last < values.length
      · rw [@referenceLoop_step _ _ _ last (by omega), advance_nv s v _ hlt]
      · have hend : last = values.length := by
          have hbound : runLen (values.drop ip) (s.pv - offset) ≤ values.length - ip := by
            rw [runLen_drop]
            refine le_trans (List.takeWhile_prefix _).length_le ?_
            rw [List.length_drop, List.length_map]
          omega
        rw [@referenceLoop_step _ _ _ last (by omega), referenceLoop_done (by omega),
          referenceLoop_done (by omega), advance_nv_last s v _ hlt]
    · rw [encodeLoop_done (by omega), referenceLoop_done (by omega)]

/-- Of values within the format's range, at least one, the encoder writes the list that the
reference writes, and neither writes one where the other does not. -/
theorem encode_eq_reference (codec : Codec) {values : List ℤ} (hne : values ≠ [])
    (hrange : ∀ value ∈ values, streamRange (value + codec.offset) = true) (bytes : List UInt8) :
    codec.encode values = .ok bytes ↔ codec.referenceEncode values = .ok bytes := by
  have hpos : 0 < values.length := List.length_pos_iff.mpr hne
  have hlist : codec.referenceList values = codec.lineList values := by
    rw [Codec.referenceList, if_pos hpos]
    exact (encodeLoop_eq_reference _ _).symm
  rw [Codec.encode, if_pos (List.all_eq_true.mpr hrange), if_neg (by omega), Codec.referenceEncode,
    hlist]
  dsimp only
  cases hwords : lengthWords (codec.lineList values).length with
  | ok words => exact Iff.rfl
  | error fault =>
    constructor
    · intro h
      cases h
    · intro h
      cases h

/-- The list of a lone one after two zeros. -/
theorem encode_eq_reference_short :
    Codec.encode ⟨0⟩ [0, 0, 1] =
        .ok [0, 0, 0, 7, 255, 156, 0, 8, 0, 0, 0, 0, 0, 0, 80, 3] ↔
      Codec.referenceEncode ⟨0⟩ [0, 0, 1] =
        .ok [0, 0, 0, 7, 255, 156, 0, 8, 0, 0, 0, 0, 0, 0, 80, 3] :=
  encode_eq_reference ⟨0⟩ (by decide) (by decide) _

/-- Of no values the encoder leaves the length of its header unset, and the reference sets
it. -/
theorem encode_ne_reference_empty :
    Codec.encode ⟨0⟩ [] = .ok ([0, 7, -100, 0, 0, 0, 0].flatMap fun word =>
      Word.beBytes (BitVec.ofInt 16 word)) ∧
    Codec.referenceEncode ⟨0⟩ [] = .ok ([0, 7, -100, 7, 0, 0, 0].flatMap fun word =>
      Word.beBytes (BitVec.ofInt 16 word)) := by
  refine ⟨by decide +kernel, by decide +kernel⟩

end FitsWell.Plio
