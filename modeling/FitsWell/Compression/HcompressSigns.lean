import FitsWell.Compression.HcompressBits

/-!
# The signs of an HCOMPRESS stream

The coefficients that are not zero have a sign bit each, in the order of the plane. The
reader finds them by the magnitudes it has decoded, so the magnitudes that come out are
those it was given, and they get back their signs where they are the ones written.
-/

namespace FitsWell.Hcompress

open Bytes Bits

/-! ## Writing -/

/-- The sign bits written so far. -/
def SignBits.bits (s : SignBits) : List Bool :=
  byteBits (s.signbits.take s.nsign) ++
    natBits (8 - s.bitsToGo) ((s.signbits.getD s.nsign 0).toNat)

/-- The byte being filled has room for one to eight bits. -/
structure SignBits.Sound (s : SignBits) : Prop where
  pos : 1 ≤ s.bitsToGo
  le : s.bitsToGo ≤ 8

/-- A byte with a bit shifted in has it behind the bits before. -/
theorem natBits_push (byte : UInt8) {held : ℕ} (hheld : held < 8) (negative : Bool) :
    natBits (held + 1) (byte <<< 1 ||| UInt8.ofNat negative.toNat).toNat =
      natBits held byte.toNat ++ [negative] := by
  have hbit : (UInt8.ofNat negative.toNat).toNat = negative.toNat := by cases negative <;> rfl
  have hvalue : (byte <<< 1 ||| UInt8.ofNat negative.toNat).toNat =
      byte.toNat * 2 % 2 ^ 8 ||| negative.toNat := by
    rw [UInt8.toNat_or, UInt8.toNat_shiftLeft, hbit, Nat.shiftLeft_eq]
    rfl
  rw [natBits_append, hvalue]
  refine congrArg₂ (· ++ ·) (natBits_congr (fun i hi => ?_)) ?_
  · rw [Nat.testBit_div_two_pow, Nat.testBit_or, Nat.testBit_mod_two_pow, ← pow_one 2,
      Nat.testBit_mul_two_pow]
    cases negative <;> simp [show i + 1 < 8 by omega, Nat.testBit_succ]
  · cases negative <;> simp [natBits]

/-- A sign bit is appended. -/
theorem SignBits.push_bits {s s' : SignBits} (hs : s.Sound) (negative : Bool)
    (hok : s.push (UInt8.ofNat negative.toNat) = .ok s') :
    s'.Sound ∧ s'.bits = s.bits ++ [negative] := by
  obtain ⟨signbits, nsign, room⟩ := s
  obtain ⟨hpos, hle⟩ := hs
  dsimp only at hpos hle
  obtain ⟨byte, hload, hok⟩ := Loops.ok_of_bind hok
  obtain ⟨hlt, hget⟩ := List.getElem?_eq_some_iff.mp (getElem?_of_load hload)
  dsimp only at hlt hget hok
  rw [store_of_lt _ hlt] at hok
  replace hok := Except.ok.inj hok
  have hold : signbits.getD nsign 0 = byte := by
    rw [List.getD_eq_getElem?_getD, getElem?_of_load hload]
    rfl
  have hpush := natBits_push byte (show 8 - room < 8 by omega) negative
  generalize hnext : byte <<< 1 ||| UInt8.ofNat negative.toNat = next at hok hpush
  have hnew : (signbits.set nsign next).getD nsign 0 = next := by
    rw [List.getD_eq_getElem?_getD, List.getElem?_set_self hlt]
    rfl
  have htake : (signbits.set nsign next).take nsign = signbits.take nsign := by
    rw [List.take_set_of_le (Nat.le_refl _)]
  by_cases hfull : room - 1 = 0
  · rw [if_pos hfull] at hok
    subst hok
    refine ⟨⟨by dsimp only; decide, by dsimp only; decide⟩, ?_⟩
    have hroom : 8 - room + 1 = 8 := by omega
    have hbyte : (signbits.set nsign next).take (nsign + 1) = signbits.take nsign ++ [next] := by
      rw [List.take_add_one, htake, List.getElem?_set_self hlt]
      rfl
    have hnone : ∀ n, natBits 0 n = [] := fun _ => rfl
    rw [hroom] at hpush
    simp only [SignBits.bits, hbyte, hold, byteBits_append, byteBits_cons, byteBits_nil, hpush,
      List.append_assoc, List.append_nil, Nat.sub_self, hnone]
  · rw [if_neg hfull] at hok
    subst hok
    refine ⟨⟨by dsimp only; omega, by dsimp only; omega⟩, ?_⟩
    have hroom : 8 - (room - 1) = 8 - room + 1 := by omega
    simp only [SignBits.bits, htake, hnew, hold, hroom, hpush, List.append_assoc]

/-- The sign bits of some coefficients. -/
def signString (values : List ℤ) : List Bool :=
  (values.filter (· ≠ 0)).map fun v => decide (v < 0)

theorem signString_cons_zero (values : List ℤ) : signString (0 :: values) = signString values := by
  simp [signString]

theorem signString_cons {v : ℤ} (hv : v ≠ 0) (values : List ℤ) :
    signString (v :: values) = decide (v < 0) :: signString values := by
  simp [signString, hv]

/-- The signs are appended, and the magnitudes are what is left. -/
theorem extractSigns_ok {values magnitudes : List ℤ} {s s' : SignBits} (hs : s.Sound)
    (hok : extractSigns s values = .ok (s', magnitudes)) :
    s'.Sound ∧ s'.bits = s.bits ++ signString values ∧ magnitudes = values.map (|·|) ∧
      ∀ v ∈ values, v < 0 → FitsI64 (-v) := by
  induction values generalizing s magnitudes with
  | nil =>
    have heq := Except.ok.inj hok
    rw [Prod.mk.injEq] at heq
    obtain ⟨rfl, rfl⟩ := heq
    exact ⟨hs, by simp [signString], rfl, by simp⟩
  | cons v values ih =>
    -- the branches differ in the sign bit and in the magnitude
    have hsigned : ∀ (negative : Bool) (m : ℤ) (s1 : SignBits) (rest : List ℤ), v ≠ 0 →
        negative = decide (v < 0) → m = |v| → (v < 0 → FitsI64 (-v)) →
        s.push (UInt8.ofNat negative.toNat) = .ok s1 → extractSigns s1 values = .ok (s', rest) →
        s'.Sound ∧ s'.bits = s.bits ++ signString (v :: values) ∧
          m :: rest = (v :: values).map (|·|) ∧ ∀ w ∈ v :: values, w < 0 → FitsI64 (-w) := by
      intro negative m s1 rest hv hnegative hm hfit hpush hrest
      obtain ⟨hsound1, hbits1⟩ := SignBits.push_bits hs negative hpush
      obtain ⟨hsound2, hbits2, hmags, hfits⟩ := ih hsound1 hrest
      refine ⟨hsound2, ?_, by rw [hmags, hm]; rfl, ?_⟩
      · rw [hbits2, hbits1, signString_cons hv, hnegative, List.append_assoc]
        rfl
      · intro w hw hneg
        rcases List.mem_cons.mp hw with rfl | hw
        · exact hfit hneg
        · exact hfits w hw hneg
    unfold extractSigns at hok
    by_cases hpos : 0 < v
    · rw [if_pos hpos] at hok
      obtain ⟨s1, hpush, hok⟩ := Loops.ok_of_bind hok
      obtain ⟨⟨s2, rest⟩, hrest, hok⟩ := Loops.ok_of_bind hok
      obtain ⟨rfl, rfl⟩ := Prod.mk.inj (Except.ok.inj hok)
      exact hsigned false v s1 rest (by omega) (by simp; omega) (abs_of_pos hpos).symm
        (fun hneg => by omega) hpush hrest
    · rw [if_neg hpos] at hok
      by_cases hneg : v < 0
      · rw [if_pos hneg] at hok
        obtain ⟨s1, hpush, hok⟩ := Loops.ok_of_bind hok
        by_cases hfit : FitsI64 (-v)
        · rw [if_pos hfit] at hok
          obtain ⟨⟨s2, rest⟩, hrest, hok⟩ := Loops.ok_of_bind hok
          obtain ⟨rfl, rfl⟩ := Prod.mk.inj (Except.ok.inj hok)
          exact hsigned true (-v) s1 rest (by omega) (by simp [hneg]) (abs_of_neg hneg).symm
            (fun _ => hfit) hpush hrest
        · rw [if_neg hfit] at hok
          cases hok
      · rw [if_neg hneg] at hok
        obtain rfl : v = 0 := by omega
        obtain ⟨⟨s2, rest⟩, hrest, hok⟩ := Loops.ok_of_bind hok
        obtain ⟨rfl, rfl⟩ := Prod.mk.inj (Except.ok.inj hok)
        obtain ⟨hsound, hbits, hmags, hfits⟩ := ih hs hrest
        refine ⟨hsound, by rw [hbits, signString_cons_zero], by rw [hmags]; rfl, ?_⟩
        intro w hw hlt
        rcases List.mem_cons.mp hw with rfl | hw
        · omega
        · exact hfits w hw hlt

/-- The finished bytes spell the sign bits and then fewer than eight others. -/
theorem SignBits.finish_bits {s : SignBits} {bytes : List UInt8} (hs : s.Sound)
    (hok : s.finish = .ok bytes) :
    ∃ padding, padding.length < 8 ∧ byteBits bytes = s.bits ++ padding := by
  obtain ⟨signbits, nsign, room⟩ := s
  obtain ⟨hpos, hle⟩ := hs
  dsimp only at hpos hle
  unfold finish at hok
  dsimp only at hok
  by_cases hpart : room ≠ 8
  · rw [if_pos hpart] at hok
    obtain ⟨byte, hload, hok⟩ := Loops.ok_of_bind hok
    obtain ⟨hlt, hget⟩ := List.getElem?_eq_some_iff.mp (getElem?_of_load hload)
    rw [store_of_lt _ hlt] at hok
    replace hok := Except.ok.inj hok
    subst hok
    have hold : signbits.getD nsign 0 = byte := by
      rw [List.getD_eq_getElem?_getD, getElem?_of_load hload]
      rfl
    have hbyte : natBits 8 (byte <<< UInt8.ofNat room).toNat =
        natBits (8 - room) byte.toNat ++
          natBits room (byte <<< UInt8.ofNat room).toNat := by
      have hsplit := natBits_append (8 - room) room (byte <<< UInt8.ofNat room).toNat
      rw [show 8 - room + room = 8 by omega] at hsplit
      rw [hsplit]
      congr 1
      apply natBits_congr
      intro i hi
      have hshift : (byte <<< UInt8.ofNat room).toNat = byte.toNat * 2 ^ room % 2 ^ 8 := by
        rw [UInt8.toNat_shiftLeft, Nat.shiftLeft_eq]
        congr 3
        simp only [UInt8.toNat_ofNat']
        omega
      rw [hshift, Nat.testBit_div_two_pow, Nat.testBit_mod_two_pow, Nat.testBit_mul_two_pow]
      simp [show i + room < 8 by omega]
    refine ⟨natBits room (byte <<< UInt8.ofNat room).toNat, by rw [natBits_length]; omega, ?_⟩
    rw [List.take_add_one, List.take_set_of_le (Nat.le_refl _), List.getElem?_set_self hlt,
      Option.toList_some, byteBits_append, byteBits_cons, byteBits_nil, List.append_nil, hbyte,
      SignBits.bits, hold, List.append_assoc]
  · rw [if_neg hpart] at hok
    replace hok := Except.ok.inj hok
    subst hok
    obtain rfl : room = 8 := by omega
    exact ⟨[], by decide, by simp [SignBits.bits, natBits]⟩

/-! ## Reading -/

/-- Negate the values whose sign bit is set, with the reader after the last of them. -/
def readSignsFrom : BitInput → List ℤ → Outcome (List ℤ × BitInput)
  | bi, [] => .ok ([], bi)
  | bi, v :: values =>
    if v ≠ 0 then do
      let (bit, bi) ← bi.inputBit
      let v ← withSign bit v
      let (rest, bi) ← readSignsFrom bi values
      .ok (v :: rest, bi)
    else do
      let (rest, bi) ← readSignsFrom bi values
      .ok (v :: rest, bi)

/-- The signed values are those of the read that keeps its reader. -/
theorem readSigns_of_from {bi bi' : BitInput} {magnitudes values : List ℤ}
    (hok : readSignsFrom bi magnitudes = .ok (values, bi')) :
    readSigns bi magnitudes = .ok values := by
  induction magnitudes generalizing bi values with
  | nil => rw [readSigns, (Prod.mk.inj (Except.ok.inj hok)).1]
  | cons v magnitudes ih =>
    unfold readSignsFrom at hok
    unfold readSigns
    by_cases hv : v ≠ 0
    · rw [if_pos hv] at hok ⊢
      obtain ⟨⟨bit, bi₁⟩, hbit, hok⟩ := Loops.ok_of_bind hok
      obtain ⟨signed, hsign, hok⟩ := Loops.ok_of_bind hok
      obtain ⟨⟨rest, bi₂⟩, hrest, hok⟩ := Loops.ok_of_bind hok
      obtain ⟨rfl, rfl⟩ := Prod.mk.inj (Except.ok.inj hok)
      rw [Loops.bind_ok hbit]
      dsimp only
      rw [Loops.bind_ok hsign, Loops.bind_ok (ih hrest)]
    · rw [if_neg hv] at hok ⊢
      obtain ⟨⟨rest, bi₂⟩, hrest, hok⟩ := Loops.ok_of_bind hok
      obtain ⟨rfl, rfl⟩ := Prod.mk.inj (Except.ok.inj hok)
      rw [Loops.bind_ok (ih hrest)]

/-- The magnitudes written get back their signs, and every sign bit is taken. -/
theorem readSignsFrom_signString {values : List ℤ} {bi : BitInput} {tail : List Bool}
    (hvalues : ∀ v ∈ values, FitsI64 v) (h : bi.Left (signString values ++ tail))
    (hheld : bi.bitsToGo ≤ 8) :
    ∃ bi', readSignsFrom bi (values.map (|·|)) = .ok (values, bi') ∧ bi'.Left tail := by
  induction values generalizing bi with
  | nil => exact ⟨bi, rfl, h⟩
  | cons v values ih =>
    rw [List.map_cons]
    unfold readSignsFrom
    obtain ⟨hfit, hrest⟩ := List.forall_mem_cons.mp hvalues
    by_cases hv : v = 0
    · subst hv
      rw [signString_cons_zero] at h
      obtain ⟨bi', hread, hleft⟩ := ih hrest h hheld
      exact ⟨bi', by rw [abs_zero, if_neg (by decide), Loops.bind_ok hread], hleft⟩
    · rw [signString_cons hv, List.cons_append] at h
      obtain ⟨bi₁, hbit, hleft₁, hfew⟩ := h.inputBit hheld
      obtain ⟨bi', hread, hleft⟩ := ih hrest hleft₁ hfew
      have hsign : withSign (decide (v < 0)).toNat |v| = .ok v := by
        by_cases hneg : v < 0
        · simpa [withSign, hneg, abs_of_neg hneg] using checkI64_of_fits hfit
        · simp [withSign, hneg, abs_of_nonneg (show 0 ≤ v by omega)]
      refine ⟨bi', ?_, hleft⟩
      rw [if_pos (abs_ne_zero.mpr hv), Loops.bind_ok hbit]
      dsimp only
      rw [Loops.bind_ok hsign, Loops.bind_ok hread]

/-- The magnitudes written get back their signs. -/
theorem readSigns_signString {values : List ℤ} {bi : BitInput} {tail : List Bool}
    (hvalues : ∀ v ∈ values, FitsI64 v) (h : bi.Left (signString values ++ tail))
    (hheld : bi.bitsToGo ≤ 8) : readSigns bi (values.map (|·|)) = .ok values := by
  obtain ⟨bi', hread, -⟩ := readSignsFrom_signString hvalues h hheld
  exact readSigns_of_from hread

/-- A sign does not change a magnitude. -/
theorem readSigns_abs {magnitudes values : List ℤ} {bi : BitInput}
    (hok : readSigns bi magnitudes = .ok values) : values.map (|·|) = magnitudes.map (|·|) := by
  induction magnitudes generalizing bi values with
  | nil => rw [← Except.ok.inj hok]
  | cons v magnitudes ih =>
    unfold readSigns at hok
    by_cases hv : v ≠ 0
    · rw [if_pos hv] at hok
      obtain ⟨⟨bit, bi'⟩, hread, hok⟩ := Loops.ok_of_bind hok
      obtain ⟨w, hw, hok⟩ := Loops.ok_of_bind hok
      obtain ⟨rest, hrest, hok⟩ := Loops.ok_of_bind hok
      have habs : |w| = |v| := by
        unfold withSign at hw
        split at hw
        · rw [← (checkI64_eq_ok_iff.mp hw).2, abs_neg]
        · rw [← Except.ok.inj hw]
      rw [← Except.ok.inj hok, List.map_cons, List.map_cons, ih hrest, habs]
    · rw [if_neg hv] at hok
      obtain ⟨rest, hrest, hok⟩ := Loops.ok_of_bind hok
      rw [← Except.ok.inj hok, List.map_cons, List.map_cons, ih hrest]

end FitsWell.Hcompress
