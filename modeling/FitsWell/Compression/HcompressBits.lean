import FitsWell.Compression.Hcompress
import FitsWell.Library.Loops

/-!
# The bit strings of the HCOMPRESS writer and reader

The writer holds back the bits of an unfinished byte, and the reader holds those of the
bytes it has taken. Each is described by a bit string: the bits written so far, and the
bits left to read.
-/

namespace FitsWell.Hcompress

open Bytes Bits

/-! ## Writing -/

/-- The bits a writer has been given. -/
def BitOutput.bits (bo : BitOutput) : List Bool :=
  byteBits bo.out ++ natBits (8 - bo.bitsToGo2).toNat bo.buffer2.toNat

/-- The byte being written has room for one to eight bits. -/
structure BitOutput.Sound (bo : BitOutput) : Prop where
  pos : 1 ≤ bo.bitsToGo2
  le : bo.bitsToGo2 ≤ 8

/-- A write that leaves the writer sound and appends `bits`. -/
structure BitOutput.Appends (bo bo' : BitOutput) (bits : List Bool) : Prop where
  sound : bo'.Sound
  bits_eq : bo'.bits = bo.bits ++ bits

/-- Writes in sequence append their bits in sequence. -/
theorem BitOutput.Appends.trans {bo bo' bo'' : BitOutput} {front back : List Bool}
    (h : bo.Appends bo' front) (h' : bo'.Appends bo'' back) : bo.Appends bo'' (front ++ back) :=
  ⟨h'.sound, by rw [h'.bits_eq, h.bits_eq, List.append_assoc]⟩

theorem BitOutput.Appends.refl {bo : BitOutput} (h : bo.Sound) : bo.Appends bo [] :=
  ⟨h, by rw [List.append_nil]⟩

/-- The low bits of a number after a shift that keeps the sign. -/
theorem testBit_sshiftRight {x : BitVec 32} {s i : ℕ} (h : s + i < 32) :
    (x.sshiftRight s).toNat.testBit i = x.toNat.testBit (s + i) := by
  rw [BitVec.testBit_toNat, BitVec.getLsbD_sshiftRight, BitVec.testBit_toNat]
  simp [h, show i < 32 by omega]

/-- The low byte of a shifted buffer. -/
theorem natBits_lowByte_sshiftRight {x : BitVec 32} {s : ℕ} (h : s + 8 ≤ 32) :
    natBits 8 (lowByte (x.sshiftRight s)).toNat = natBits 8 (x.toNat / 2 ^ s) := by
  apply natBits_congr
  intro i hi
  have hbyte : (lowByte (x.sshiftRight s)).toNat = (x.sshiftRight s).toNat % 2 ^ 8 := by
    simp [lowByte]
  rw [hbyte, Nat.testBit_mod_two_pow, testBit_sshiftRight (by omega), Nat.testBit_div_two_pow,
    Nat.add_comm s i]
  simp [hi]

/-- A buffer's low bits with `n` more behind them. -/
theorem natBits_shiftLeft_or (buffer : BitVec 32) {held n bits : ℕ} (hroom : held + n ≤ 32)
    (hbits : bits < 2 ^ n) :
    natBits (held + n) (buffer <<< n ||| BitVec.ofNat 32 bits).toNat =
      natBits held buffer.toNat ++ natBits n bits := by
  have hclear : ∀ i, n ≤ i → bits.testBit i = false := fun i hi =>
    Nat.testBit_lt_two_pow (lt_of_lt_of_le hbits (Nat.pow_le_pow_right (by decide) hi))
  rw [natBits_append]
  refine congrArg₂ (· ++ ·) (natBits_congr (fun i hi => ?_)) (natBits_congr (fun i hi => ?_))
  · rw [Nat.testBit_div_two_pow, BitVec.testBit_toNat, BitVec.getLsbD_or, BitVec.getLsbD_shiftLeft,
      BitVec.getLsbD_ofNat, hclear _ (by omega), BitVec.testBit_toNat,
      show i + n - n = i by omega]
    simp [show i + n < 32 by omega]
  · rw [BitVec.testBit_toNat, BitVec.getLsbD_or, BitVec.getLsbD_shiftLeft, BitVec.getLsbD_ofNat]
    simp [hi, show i < 32 by omega]

/-- A put appends its bits. -/
theorem BitOutput.put_appends {bo : BitOutput} {bits n : ℕ} (hbo : bo.Sound) (hn : n ≤ 8)
    (hbits : bits < 2 ^ n) : bo.Appends (bo.put bits n) (natBits n bits) := by
  obtain ⟨out, buffer2, room⟩ := bo
  obtain ⟨hpos, hle⟩ := hbo
  dsimp only at hpos hle
  obtain ⟨held, hheld⟩ : ∃ held : ℕ, room = 8 - held := ⟨(8 - room).toNat, by omega⟩
  have hlt : held < 8 := by omega
  have hjoin := natBits_shiftLeft_or buffer2 (show held + n ≤ 32 by omega) hbits
  simp only [put]
  by_cases hfull : room - (n : ℤ) ≤ 0
  · rw [if_pos hfull]
    refine ⟨⟨by dsimp only; omega, by dsimp only; omega⟩, ?_⟩
    have hshift : (-(room - (n : ℤ))).toNat = held + n - 8 := by omega
    have hleft : (8 - (room - (n : ℤ) + 8)).toNat = held + n - 8 := by omega
    have hold : (8 - room).toNat = held := by omega
    rw [hshift]
    simp only [BitOutput.bits]
    rw [hleft, hold, byteBits_append, List.append_assoc, List.append_assoc, ← hjoin]
    congr 1
    rw [show held + n = 8 + (held + n - 8) by omega, natBits_append, byteBits_cons,
      natBits_lowByte_sshiftRight (by omega)]
    simp [byteBits_nil, show 8 + (held + n - 8) - 8 = held + n - 8 by omega]
  · rw [if_neg hfull]
    refine ⟨⟨by dsimp only; omega, by dsimp only; omega⟩, ?_⟩
    have hleft : (8 - (room - (n : ℤ))).toNat = held + n := by omega
    have hold : (8 - room).toNat = held := by omega
    simp only [BitOutput.bits]
    rw [hleft, hold, List.append_assoc, hjoin]

/-- Writing the low bits of a number appends them. -/
theorem BitOutput.outputNbits_ok {bo : BitOutput} (hbo : bo.Sound) (bits : ℕ) {n : ℕ}
    (hn : n ≤ 8) : ∃ bo', bo.outputNbits bits n = .ok bo' ∧ bo.Appends bo' (natBits n bits) := by
  have hmasks : ∀ n < 9, bitMask[n]? = some (2 ^ n - 1) := by decide
  have hmask := load_of_getElem? (hmasks n (by omega))
  refine ⟨_, Loops.bind_ok hmask, ?_⟩
  rw [Nat.and_two_pow_sub_one_eq_mod, ← natBits_mod]
  exact put_appends hbo hn (Nat.mod_lt _ (Nat.two_pow_pos n))

/-- Writing a nybble appends its four bits. -/
theorem BitOutput.outputNybble_appends {bo : BitOutput} (hbo : bo.Sound) (bits : ℕ) :
    bo.Appends (bo.outputNybble bits) (natBits 4 bits) := by
  have hmod : bits &&& 15 = bits % 2 ^ 4 := Nat.and_two_pow_sub_one_eq_mod bits 4
  rw [outputNybble, hmod, ← natBits_mod]
  exact put_appends hbo (by decide) (Nat.mod_lt _ (by decide))

/-- Writing a pair of nybbles appends the bits of both. -/
theorem BitOutput.outputPair_appends {bo : BitOutput} (hbo : bo.Sound) (high low : ℕ) :
    bo.Appends (bo.outputPair high low) (natBits 4 high ++ natBits 4 low) := by
  have hhigh : high &&& 15 = high % 2 ^ 4 := Nat.and_two_pow_sub_one_eq_mod high 4
  have hlow : low &&& 15 = low % 2 ^ 4 := Nat.and_two_pow_sub_one_eq_mod low 4
  have hhighlt : high % 2 ^ 4 < 16 := Nat.mod_lt _ (by decide)
  have hlowlt : low % 2 ^ 4 < 16 := Nat.mod_lt _ (by decide)
  have hpair : (high &&& 15) <<< 4 ||| low &&& 15 = high % 2 ^ 4 * 16 + low % 2 ^ 4 := by
    rw [hhigh, hlow, ← Nat.shiftLeft_add_eq_or_of_lt hlowlt, Nat.shiftLeft_eq]
  have hbits : natBits 8 (high % 2 ^ 4 * 16 + low % 2 ^ 4) = natBits 4 high ++ natBits 4 low := by
    have hsplit := natBits_append 4 4 (high % 2 ^ 4 * 16 + low % 2 ^ 4)
    rw [hsplit, ← natBits_mod 4 (high % 2 ^ 4 * 16 + low % 2 ^ 4),
      show (high % 2 ^ 4 * 16 + low % 2 ^ 4) / 2 ^ 4 = high % 2 ^ 4 by omega,
      show (high % 2 ^ 4 * 16 + low % 2 ^ 4) % 2 ^ 4 = low % 2 ^ 4 by omega, natBits_mod,
      natBits_mod]
  have hput := put_appends hbo (show 8 ≤ 8 by decide)
    (show high % 2 ^ 4 * 16 + low % 2 ^ 4 < 2 ^ 8 by omega)
  rw [hbits] at hput
  obtain ⟨out, buffer2, room⟩ := bo
  obtain ⟨hpos, hle⟩ := hbo
  dsimp only at hpos hle
  unfold outputPair
  rw [hpair]
  dsimp only
  by_cases hwhole : room = 8
  · rw [if_pos hwhole]
    refine ⟨⟨by dsimp only; omega, by dsimp only; omega⟩, ?_⟩
    have hbyte : (UInt8.ofNat (high % 2 ^ 4 * 16 + low % 2 ^ 4)).toNat =
        high % 2 ^ 4 * 16 + low % 2 ^ 4 := by
      rw [UInt8.toNat_ofNat']
      omega
    subst hwhole
    have hnone : ∀ x, natBits 0 x = [] := fun _ => rfl
    simp only [BitOutput.bits, byteBits_append, byteBits_cons, byteBits_nil, hbyte, hbits,
      Int.sub_self, Int.toNat_zero, hnone, List.append_nil]
  · rw [if_neg hwhole]
    have hsame : (⟨out, buffer2, room⟩ : BitOutput).put (high % 2 ^ 4 * 16 + low % 2 ^ 4) 8 =
        ⟨out ++ [lowByte ((buffer2 <<< 8 ||| BitVec.ofNat 32
          (high % 2 ^ 4 * 16 + low % 2 ^ 4)).sshiftRight (8 - room).toNat)],
          buffer2 <<< 8 ||| BitVec.ofNat 32 (high % 2 ^ 4 * 16 + low % 2 ^ 4), room⟩ := by
      simp only [put]
      rw [if_pos (by push_cast; omega)]
      congr 1
      · congr 4
        push_cast
        omega
      · push_cast
        omega
    rw [← hsame]
    exact hput

/-- Writing pairs of nybbles appends them in order. -/
theorem BitOutput.outputPairs_ok {bo : BitOutput} (hbo : bo.Sound) {array : List ℕ} {kk jj : ℕ}
    (hroom : kk + 2 * jj ≤ array.length) :
    ∃ bo', bo.outputPairs array kk jj = .ok bo' ∧
      bo.Appends bo' (((array.drop kk).take (2 * jj)).flatMap (natBits 4)) := by
  apply Loops.range_total (P := fun j (bo' : BitOutput) =>
    bo.Appends bo' (((array.drop kk).take (2 * j)).flatMap (natBits 4)))
  · simpa using Appends.refl hbo
  · intro j hj s hs
    have hhigh : (array.drop kk)[2 * j]? = some (array.getD (kk + 2 * j) 0) := by
      rw [List.getElem?_drop, List.getD_eq_getElem?_getD, List.getElem?_eq_getElem (by omega)]
      rfl
    have hlow : (array.drop kk)[2 * j + 1]? = some (array.getD (kk + 2 * j + 1) 0) := by
      rw [List.getElem?_drop, List.getD_eq_getElem?_getD, ← Nat.add_assoc,
        List.getElem?_eq_getElem (by omega)]
      rfl
    have hnext := hs.trans (outputPair_appends hs.sound (array.getD (kk + 2 * j) 0)
      (array.getD (kk + 2 * j + 1) 0))
    refine ⟨s.outputPair (array.getD (kk + 2 * j) 0) (array.getD (kk + 2 * j + 1) 0), ?_, ?_⟩
    · rw [List.getElem?_drop] at hhigh hlow
      rw [← Nat.add_assoc] at hlow
      rw [Loops.bind_ok (load_of_getElem? hhigh), Loops.bind_ok (load_of_getElem? hlow)]
    · have htake : ((array.drop kk).take (2 * (j + 1))).flatMap (natBits 4) =
          ((array.drop kk).take (2 * j)).flatMap (natBits 4) ++
            (natBits 4 (array.getD (kk + 2 * j) 0) ++
              natBits 4 (array.getD (kk + 2 * j + 1) 0)) := by
        rw [show 2 * (j + 1) = 2 * j + 1 + 1 by ring, List.take_add_one, List.take_add_one, hhigh, hlow]
        simp [List.flatMap_append]
      rwa [htake]

/-- Writing the nybbles from a place on appends them. -/
theorem BitOutput.outputRest_ok {bo : BitOutput} (hbo : bo.Sound) {array : List ℕ} {n kk : ℕ}
    (hkk : kk ≤ n) (hn : n ≤ array.length) :
    ∃ bo', bo.outputRest n array kk = .ok bo' ∧
      bo.Appends bo' (((array.drop kk).take (n - kk)).flatMap (natBits 4)) := by
  obtain ⟨bo1, hok1, happ1⟩ := outputPairs_ok hbo
    (show kk + 2 * ((n - kk) / 2) ≤ array.length by omega)
  unfold outputRest
  dsimp only
  rw [Loops.bind_ok hok1]
  by_cases hodd : kk + 2 * ((n - kk) / 2) ≠ n
  · rw [if_pos hodd]
    have hlast : (array.drop kk)[2 * ((n - kk) / 2)]? = some (array.getD (n - 1) 0) := by
      rw [List.getElem?_drop, List.getD_eq_getElem?_getD,
        show kk + 2 * ((n - kk) / 2) = n - 1 by omega, List.getElem?_eq_getElem (by omega)]
      rfl
    have hload : array[n - 1]? = some (array.getD (n - 1) 0) := by
      rwa [List.getElem?_drop, show kk + 2 * ((n - kk) / 2) = n - 1 by omega] at hlast
    refine ⟨bo1.outputNybble (array.getD (n - 1) 0), Loops.bind_ok (load_of_getElem? hload), ?_⟩
    have htake : ((array.drop kk).take (n - kk)).flatMap (natBits 4) =
        ((array.drop kk).take (2 * ((n - kk) / 2))).flatMap (natBits 4) ++
          natBits 4 (array.getD (n - 1) 0) := by
      rw [show n - kk = 2 * ((n - kk) / 2) + 1 by omega, List.take_add_one,
        show (2 * ((n - kk) / 2) + 1) / 2 = (n - kk) / 2 by omega, hlast]
      simp [List.flatMap_append]
    rw [htake]
    exact happ1.trans (outputNybble_appends happ1.sound _)
  · rw [if_neg hodd]
    refine ⟨bo1, rfl, ?_⟩
    rwa [show n - kk = 2 * ((n - kk) / 2) by omega]

/-- Writing nybbles appends them. -/
theorem BitOutput.outputNnybble_ok {bo : BitOutput} (hbo : bo.Sound) {array : List ℕ} {n : ℕ}
    (hpos : 0 < n) (hn : n ≤ array.length) :
    ∃ bo', bo.outputNnybble n array = .ok bo' ∧
      bo.Appends bo' ((array.take n).flatMap (natBits 4)) := by
  have hfirst : array[0]? = some (array.getD 0 0) := by
    rw [List.getD_eq_getElem?_getD, List.getElem?_eq_getElem (by omega)]
    rfl
  have htake : array.take n = array.getD 0 0 :: (array.drop 1).take (n - 1) := by
    cases array with
    | nil => simp at hn; omega
    | cons first rest =>
      obtain ⟨m, rfl⟩ : ∃ m, n = m + 1 := ⟨n - 1, by omega⟩
      simp
  have hhead := outputNybble_appends hbo (array.getD 0 0)
  unfold outputNnybble
  split
  · rename_i hone
    refine ⟨bo.outputNybble (array.getD 0 0), Loops.bind_ok (load_of_getElem? hfirst), ?_⟩
    subst hone
    rw [htake]
    simpa using hhead
  · split
    · rw [Loops.bind_ok (load_of_getElem? hfirst)]
      dsimp only
      rw [htake, List.flatMap_cons]
      split
      · rename_i htwo
        have hsecond : array[1]? = some (array.getD 1 0) := by
          rw [List.getD_eq_getElem?_getD, List.getElem?_eq_getElem (by omega)]
          rfl
        refine ⟨(bo.outputNybble (array.getD 0 0)).outputNybble (array.getD 1 0),
          Loops.bind_ok (load_of_getElem? hsecond), ?_⟩
        have hrest : (array.drop 1).take (n - 1) = [array.getD 1 0] := by
          subst htwo
          rw [show 2 - 1 = 0 + 1 by rfl, List.take_add_one, List.getElem?_drop, hsecond]
          rfl
        rw [hrest]
        simpa using hhead.trans (outputNybble_appends hhead.sound (array.getD 1 0))
      · obtain ⟨bo', hok, happ⟩ := outputRest_ok hhead.sound (show 1 ≤ n by omega) hn
        exact ⟨bo', hok, hhead.trans happ⟩
    · obtain ⟨bo', hok, happ⟩ := outputRest_ok hbo (Nat.zero_le n) hn
      exact ⟨bo', hok, by simpa using happ⟩

/-- A finished bit string spells its bits and fewer than eight zeros. -/
theorem BitOutput.doneOutputingBits_bits {bo : BitOutput} (hbo : bo.Sound) :
    ∃ padding, padding.length < 8 ∧ byteBits bo.doneOutputingBits.out = bo.bits ++ padding := by
  obtain ⟨out, buffer2, room⟩ := bo
  obtain ⟨hpos, hle⟩ := hbo
  dsimp only at hpos hle
  obtain ⟨held, hheld⟩ : ∃ held : ℕ, room = 8 - held := ⟨(8 - room).toNat, by omega⟩
  have hlt : held < 8 := by omega
  unfold doneOutputingBits
  by_cases hpart : room < 8
  · rw [if_pos hpart]
    have hroom : room.toNat = 8 - held := by omega
    have hold : (8 - room).toNat = held := by omega
    have hbyte : natBits 8 (lowByte (buffer2 <<< room.toNat)).toNat =
        natBits held buffer2.toNat ++ natBits (8 - held) 0 := by
      have hjoin := natBits_shiftLeft_or buffer2
        (show held + (8 - held) ≤ 32 by omega) (Nat.two_pow_pos (8 - held))
      have hzero : (buffer2 <<< (8 - held) ||| BitVec.ofNat 32 0) = buffer2 <<< (8 - held) := by
        simp
      rw [hzero, show held + (8 - held) = 8 by omega] at hjoin
      rw [← hjoin, hroom, lowByte, UInt8.toNat_ofNat', natBits_mod]
    refine ⟨natBits (8 - held) 0, by simp; omega, ?_⟩
    simp only [writeBytes, BitOutput.bits, byteBits_append, byteBits_cons, byteBits_nil, hold,
      hbyte, List.append_nil, List.append_assoc]
  · rw [if_neg hpart]
    have hwhole : room = 8 := by omega
    subst hwhole
    exact ⟨[], by simp, by simp [BitOutput.bits, natBits]⟩

/-! ## Reading -/

theorem shiftBuffer_of_lt {n : ℕ} (h : n < 32) (buffer : BitVec 32) :
    shiftBuffer buffer n = .ok (buffer.sshiftRight n) := if_pos h

theorem BitInput.top_of_le {bi : BitInput} {n : ℕ} (h : n ≤ bi.bitsToGo)
    (hroom : bi.bitsToGo ≤ 31) : bi.top n = .ok (bi.buffer.sshiftRight (bi.bitsToGo - n)) :=
  (if_pos h).trans (shiftBuffer_of_lt (by omega) bi.buffer)

/-- A reader whose bits left are `rest`: those it holds and those of the bytes after. -/
structure BitInput.Left (bi : BitInput) (rest : List Bool) : Prop where
  held_le : bi.bitsToGo ≤ 8 * bi.pos
  rest_eq : (byteBits bi.data).drop (8 * bi.pos - bi.bitsToGo) = rest
  held : natBits bi.bitsToGo bi.buffer.toNat = rest.take bi.bitsToGo

/-- The bits after those held are those of the bytes not taken. -/
theorem BitInput.Left.drop_eq {bi : BitInput} {rest : List Bool} (h : bi.Left rest) :
    rest.drop bi.bitsToGo = byteBits (bi.data.drop bi.pos) := by
  have hle := h.held_le
  rw [← h.rest_eq, List.drop_drop, show 8 * bi.pos - bi.bitsToGo + bi.bitsToGo = 8 * bi.pos by omega,
    byteBits_drop]

/-- A reader at a byte boundary has the bytes after it left. -/
theorem BitInput.left_bytes (data : List UInt8) (pos : ℕ) (buffer : BitVec 32) :
    BitInput.Left ⟨data, pos, buffer, 0⟩ (byteBits (data.drop pos)) :=
  ⟨Nat.zero_le _, by rw [← byteBits_drop]; rfl, rfl⟩

/-- A reader with more bits left than it holds has a byte to take. -/
theorem BitInput.Left.byte {bi : BitInput} {rest : List Bool} (h : bi.Left rest)
    (hmore : bi.bitsToGo < rest.length) :
    ∃ byte, bi.data[bi.pos]? = some byte ∧
      rest.take (bi.bitsToGo + 8) = rest.take bi.bitsToGo ++ natBits 8 byte.toNat := by
  have hdrop := h.drop_eq
  cases hbytes : bi.data.drop bi.pos with
  | nil =>
    rw [hbytes, byteBits_nil, List.drop_eq_nil_iff] at hdrop
    omega
  | cons byte bytes =>
    have hbyte : bi.data[bi.pos]? = some byte := by
      have hget := congrArg (fun l => l[0]?) hbytes
      simpa [List.getElem?_drop] using hget
    refine ⟨byte, hbyte, ?_⟩
    rw [List.take_add, hdrop, hbytes, byteBits_cons, List.take_left' (natBits_length 8 _)]

/-- A refill holds eight bits more. -/
theorem BitInput.Left.refill {bi : BitInput} {rest : List Bool} (h : bi.Left rest)
    (hmore : bi.bitsToGo < rest.length) (hroom : bi.bitsToGo + 8 ≤ 32) :
    ∃ bi', bi.refill = .ok bi' ∧ bi'.Left rest ∧ bi'.bitsToGo = bi.bitsToGo + 8 ∧
      bi'.data = bi.data := by
  obtain ⟨byte, hget, htake⟩ := h.byte hmore
  have hbyte : bi.byte = .ok (byte, { bi with pos := bi.pos + 1 }) := by
    rw [BitInput.byte, hget]
  refine ⟨_, Loops.bind_ok hbyte, ⟨?_, ?_, ?_⟩, rfl, rfl⟩
  · have hle := h.held_le
    dsimp only
    omega
  · rw [← h.rest_eq]
    dsimp only
    congr 1
    omega
  · dsimp only
    rw [htake, ← h.held]
    exact natBits_shiftLeft_or _ hroom byte.toNat_lt

/-- A fill holds the bits asked for. -/
theorem BitInput.Left.fill {bi : BitInput} {rest : List Bool} (h : bi.Left rest) {n : ℕ}
    (hn : n ≤ 8) (hmore : n ≤ rest.length) (hroom : bi.bitsToGo ≤ 24) :
    ∃ bi', bi.fill n = .ok bi' ∧ bi'.Left rest ∧ bi'.data = bi.data ∧ n ≤ bi'.bitsToGo ∧
      bi'.bitsToGo ≤ 24 ∧ bi'.bitsToGo ≤ max (n + 7) bi.bitsToGo := by
  unfold BitInput.fill
  by_cases hfew : bi.bitsToGo < n
  · obtain ⟨bi', hok, hleft, hheld, hdata⟩ := h.refill (by omega) (by omega)
    rw [if_pos hfew]
    exact ⟨bi', hok, hleft, hdata, by omega, by omega, by omega⟩
  · rw [if_neg hfew]
    exact ⟨bi, rfl, h, rfl, by omega, by omega, by omega⟩

/-- The bits on top of those held. -/
theorem BitInput.Left.peek {bi : BitInput} {rest : List Bool} (h : bi.Left rest) {n : ℕ}
    (hn : n ≤ bi.bitsToGo) (hroom : bi.bitsToGo ≤ 32) :
    natBits n (bi.buffer.sshiftRight (bi.bitsToGo - n)).toNat = rest.take n := by
  have hsplit := natBits_append n (bi.bitsToGo - n) bi.buffer.toNat
  rw [show n + (bi.bitsToGo - n) = bi.bitsToGo by omega, h.held] at hsplit
  have hfront := congrArg (List.take n) hsplit
  rw [List.take_take, Nat.min_eq_left hn, List.take_left' (natBits_length n _)] at hfront
  rw [hfront]
  apply natBits_congr
  intro i hi
  rw [testBit_sshiftRight (by omega), Nat.testBit_div_two_pow, Nat.add_comm]

/-- A reader holds fewer bits after some are taken. -/
theorem BitInput.Left.take {bi : BitInput} {rest : List Bool} (h : bi.Left rest) {n : ℕ}
    (hn : n ≤ bi.bitsToGo) :
    BitInput.Left { bi with bitsToGo := bi.bitsToGo - n } (rest.drop n) := by
  have hle := h.held_le
  refine ⟨by dsimp only; omega, ?_, ?_⟩
  · dsimp only
    rw [← h.rest_eq, List.drop_drop]
    congr 1
    omega
  · dsimp only
    have hsplit := natBits_append n (bi.bitsToGo - n) bi.buffer.toNat
    rw [show n + (bi.bitsToGo - n) = bi.bitsToGo by omega, h.held] at hsplit
    have hback := congrArg (List.drop n) hsplit
    rw [List.drop_left' (natBits_length n _)] at hback
    rw [← hback, List.drop_take]

/-- Reading bits takes them from those left, and leaves few held. -/
theorem BitInput.Left.inputNbits {bi : BitInput} {n v : ℕ} {tail : List Bool}
    (h : bi.Left (natBits n v ++ tail)) (hn : n ≤ 8) (hv : v < 2 ^ n) (hheld : bi.bitsToGo ≤ 10) :
    ∃ bi', bi.inputNbits n = .ok (v, bi') ∧ bi'.Left tail ∧ bi'.data = bi.data ∧
      bi'.bitsToGo ≤ max 7 (bi.bitsToGo - n) := by
  obtain ⟨bi1, hok, hleft, hdata, henough, hroom, hfew⟩ := h.fill (n := n) hn (by simp) (by omega)
  have htop := hleft.peek henough (by omega)
  rw [List.take_left' (natBits_length n v)] at htop
  have hrest := hleft.take henough
  rw [List.drop_left' (natBits_length n v)] at hrest
  refine ⟨{ bi1 with bitsToGo := bi1.bitsToGo - n }, ?_, hrest, hdata, by dsimp only; omega⟩
  unfold BitInput.inputNbits
  rw [Loops.bind_ok hok, Loops.bind_ok (BitInput.top_of_le henough (by omega))]
  have hmask : (1#32 <<< n - 1).toNat = 2 ^ n - 1 := by
    have hmasks : ∀ n < 9, (1#32 <<< n - 1).toNat = 2 ^ n - 1 := by decide
    exact hmasks n (by omega)
  have hvalue : (bi1.buffer.sshiftRight (bi1.bitsToGo - n) &&& (1#32 <<< n - 1)).toNat = v := by
    rw [BitVec.toNat_and, hmask, Nat.and_two_pow_sub_one_eq_mod]
    apply eq_of_natBits_eq (Nat.mod_lt _ (Nat.two_pow_pos n)) hv
    rw [natBits_mod, htop]
  simp only [hvalue]

/-- Reading a nybble. -/
theorem BitInput.Left.inputNybble {bi : BitInput} {v : ℕ} {tail : List Bool}
    (h : bi.Left (natBits 4 v ++ tail)) (hv : v < 16) (hheld : bi.bitsToGo ≤ 10) :
    ∃ bi', bi.inputNybble = .ok (v, bi') ∧ bi'.Left tail ∧ bi'.data = bi.data ∧
      bi'.bitsToGo ≤ 7 := by
  obtain ⟨bi', hok, hleft, hdata, hfew⟩ := BitInput.Left.inputNbits h (by decide) hv hheld
  exact ⟨bi', hok, hleft, hdata, by omega⟩

/-- Reading the bytes that a reader is at. -/
theorem BitInput.readBytes_ok (bi : BitInput) {bytes back : List UInt8}
    (h : bi.data.drop bi.pos = bytes ++ back) (hsome : 0 < bytes.length) :
    bi.readBytes bytes.length = .ok (bytes, { bi with pos := bi.pos + bytes.length }) ∧
      bi.data.drop (bi.pos + bytes.length) = back := by
  have hlength := congrArg List.length h
  rw [List.length_drop, List.length_append] at hlength
  constructor
  · rw [BitInput.readBytes, if_pos (by omega), h, List.take_left]
  · rw [← List.drop_drop, h, List.drop_left]

/-- Reading the bits of a sign. -/
theorem BitInput.Left.inputBit {bi : BitInput} {bit : Bool} {tail : List Bool}
    (h : bi.Left (bit :: tail)) (hheld : bi.bitsToGo ≤ 8) :
    ∃ bi', bi.inputBit = .ok (bit.toNat, bi') ∧ bi'.Left tail ∧ bi'.bitsToGo ≤ 8 := by
  have hread : ∀ bi1 : BitInput, bi1.Left (bit :: tail) → 1 ≤ bi1.bitsToGo → bi1.bitsToGo ≤ 8 →
      (bi1.buffer.sshiftRight (bi1.bitsToGo - 1) &&& 1).toNat = bit.toNat ∧
        BitInput.Left { bi1 with bitsToGo := bi1.bitsToGo - 1 } tail := by
    intro bi1 hleft hone hle
    refine ⟨?_, hleft.take hone⟩
    have htop := hleft.peek hone (by omega)
    rw [natBits, natBits, List.take_succ_cons, List.take_zero, List.cons.injEq] at htop
    rw [BitVec.toNat_and, show (1 : BitVec 32).toNat = 2 ^ 1 - 1 by rfl,
      Nat.and_two_pow_sub_one_eq_mod, ← htop.1, Nat.testBit_zero]
    rcases Nat.mod_two_eq_zero_or_one (bi1.buffer.sshiftRight (bi1.bitsToGo - 1)).toNat with hm | hm
      <;> simp [hm]
  unfold BitInput.inputBit
  by_cases hnone : bi.bitsToGo = 0
  · obtain ⟨byte, hget, htake⟩ := h.byte (by simp; omega)
    have hbyte : bi.byte = .ok (byte, { bi with pos := bi.pos + 1 }) := by
      rw [BitInput.byte, hget]
    have hleft : BitInput.Left
        ⟨bi.data, bi.pos + 1, BitVec.ofNat 32 byte.toNat, 8⟩ (bit :: tail) := by
      refine ⟨by dsimp only; omega, ?_, ?_⟩
      · rw [← h.rest_eq, hnone]
        dsimp only
        congr 1
      · dsimp only
        rw [hnone] at htake
        rw [BitVec.toNat_ofNat, Nat.mod_eq_of_lt (by have := byte.toNat_lt; omega)]
        simpa using htake.symm
    obtain ⟨hvalue, hrest⟩ := hread _ hleft (by dsimp only; omega) (by dsimp only; omega)
    have htop : BitInput.top ⟨bi.data, bi.pos + 1, BitVec.ofNat 32 byte.toNat, 8⟩ 1 =
        .ok ((BitVec.ofNat 32 byte.toNat).sshiftRight (8 - 1)) :=
      BitInput.top_of_le (by dsimp only; omega) (by dsimp only; omega)
    rw [if_pos hnone, Loops.bind_ok hbyte]
    dsimp only
    rw [Loops.bind_ok rfl, Loops.bind_ok htop]
    exact ⟨_, congrArg (fun v => Except.ok (v, _)) hvalue, hrest, by dsimp only; omega⟩
  · obtain ⟨hvalue, hrest⟩ := hread bi h (by omega) hheld
    have htop : bi.top 1 = .ok (bi.buffer.sshiftRight (bi.bitsToGo - 1)) :=
      BitInput.top_of_le (by omega) (by omega)
    rw [if_neg hnone, Loops.bind_ok rfl]
    dsimp only
    rw [Loops.bind_ok htop]
    exact ⟨_, congrArg (fun v => Except.ok (v, _)) hvalue, hrest, by dsimp only; omega⟩

/-! ## Huffman codes -/

/-- The code of a symbol. -/
def huffmanBits (v : ℕ) : List Bool := natBits (ncode.getD v 0) (code.getD v 0)

theorem huffmanBits_length_ge {v : ℕ} (hv : v < 16) : 3 ≤ (huffmanBits v).length := by
  have h : ∀ v < 16, 3 ≤ (huffmanBits v).length := by decide
  exact h v hv

/-- Six bits that start with a symbol's code decode to it. -/
theorem huffmanDecode_code {v p : ℕ} (hv : v < 16) (hp : p < 64)
    (h : p / 2 ^ (6 - ncode.getD v 0) = code.getD v 0) :
    huffmanDecode p = (v, ncode.getD v 0) := by
  have hall : ∀ v < 16, ∀ p < 64, p / 2 ^ (6 - ncode.getD v 0) = code.getD v 0 →
      huffmanDecode p = (v, ncode.getD v 0) := by decide +kernel
  exact hall v hv p hp h

/-- Reading a symbol takes its code; six bits are looked at, so a code is followed by three
bits at least. -/
theorem BitInput.Left.inputHuffman {bi : BitInput} {v : ℕ} {tail : List Bool} (hv : v < 16)
    (h : bi.Left (huffmanBits v ++ tail)) (htail : 3 ≤ tail.length) (hheld : bi.bitsToGo ≤ 10) :
    ∃ bi', bi.inputHuffman = .ok (v, bi') ∧ bi'.Left tail ∧ bi'.data = bi.data ∧
      bi'.bitsToGo ≤ 10 := by
  have hlens : ∀ v < 16, 3 ≤ ncode.getD v 0 ∧ ncode.getD v 0 ≤ 6 ∧
      code.getD v 0 < 2 ^ ncode.getD v 0 := by decide
  obtain ⟨hlow, hhigh, hcode⟩ := hlens v hv
  have hlength : (huffmanBits v).length = ncode.getD v 0 := natBits_length _ _
  obtain ⟨bi1, hok, hleft, hdata, henough, hroom, hfew⟩ := h.fill (n := 6) (by decide)
    (by rw [List.length_append, hlength]; omega) (by omega)
  have htop := hleft.peek henough (by omega)
  have hrest := hleft.take (show ncode.getD v 0 ≤ bi1.bitsToGo by omega)
  rw [List.drop_left' hlength] at hrest
  -- the bits looked at start with the code
  have hpeek : (bi1.buffer.sshiftRight (bi1.bitsToGo - 6)).toNat % 256 &&& 63 =
      (bi1.buffer.sshiftRight (bi1.bitsToGo - 6)).toNat % 2 ^ 6 := by
    rw [show (63 : ℕ) = 2 ^ 6 - 1 by rfl, Nat.and_two_pow_sub_one_eq_mod]
    omega
  generalize hx : (bi1.buffer.sshiftRight (bi1.bitsToGo - 6)).toNat = x at htop hpeek
  have hdecode : huffmanDecode (x % 2 ^ 6) = (v, ncode.getD v 0) := by
    apply huffmanDecode_code hv (Nat.mod_lt _ (by decide))
    have hsplit := natBits_append (ncode.getD v 0) (6 - ncode.getD v 0) (x % 2 ^ 6)
    rw [show ncode.getD v 0 + (6 - ncode.getD v 0) = 6 by omega, natBits_mod, htop] at hsplit
    have hfront := congrArg (List.take (ncode.getD v 0)) hsplit
    rw [List.take_take, Nat.min_eq_left hhigh, List.take_left' hlength,
      List.take_left' (natBits_length _ _)] at hfront
    have hsmall : x % 2 ^ 6 / 2 ^ (6 - ncode.getD v 0) < 2 ^ ncode.getD v 0 := by
      rw [Nat.div_lt_iff_lt_mul (Nat.two_pow_pos _), ← pow_add,
        show ncode.getD v 0 + (6 - ncode.getD v 0) = 6 by omega]
      exact Nat.mod_lt _ (by decide)
    exact eq_of_natBits_eq hsmall hcode hfront.symm
  refine ⟨{ bi1 with bitsToGo := bi1.bitsToGo - ncode.getD v 0 }, ?_, hrest, hdata,
    by dsimp only; omega⟩
  unfold BitInput.inputHuffman
  rw [Loops.bind_ok hok, Loops.bind_ok (BitInput.top_of_le henough (by omega))]
  dsimp only
  rw [hx, hpeek, hdecode]

/-! ## Runs of nybbles -/

/-- Reading a byte of nybbles keeps the count of bits held. -/
theorem BitInput.Left.pair {bi : BitInput} {high low : ℕ} {tail : List Bool}
    (h : bi.Left (natBits 4 high ++ (natBits 4 low ++ tail))) (hhigh : high < 16) (hlow : low < 16)
    (hheld : bi.bitsToGo ≤ 7) :
    ∃ byte bi', bi.byte = .ok (byte, { bi with pos := bi.pos + 1 }) ∧
      bi' = { bi with
        pos := bi.pos + 1, buffer := bi.buffer <<< 8 ||| BitVec.ofNat 32 byte.toNat } ∧
      (bi'.buffer.sshiftRight (bi.bitsToGo + 4)).toNat % 256 &&& 15 = high ∧
      (bi'.buffer.sshiftRight bi.bitsToGo).toNat % 256 &&& 15 = low ∧ bi'.Left tail := by
  obtain ⟨byte, hget, htake⟩ := h.byte (by simp; omega)
  have hbyte : bi.byte = .ok (byte, { bi with pos := bi.pos + 1 }) := by
    rw [BitInput.byte, hget]
  have hfull : BitInput.Left { bi with
      pos := bi.pos + 1, buffer := bi.buffer <<< 8 ||| BitVec.ofNat 32 byte.toNat,
      bitsToGo := bi.bitsToGo + 8 } (natBits 4 high ++ (natBits 4 low ++ tail)) := by
    have hle := h.held_le
    refine ⟨by dsimp only; omega, ?_, ?_⟩
    · rw [← h.rest_eq]
      dsimp only
      congr 1
      omega
    · dsimp only
      rw [htake, ← h.held]
      exact natBits_shiftLeft_or _ (by omega) byte.toNat_lt
  have hmask : ∀ x : ℕ, x % 256 &&& 15 = x % 2 ^ 4 := by
    intro x
    rw [show (15 : ℕ) = 2 ^ 4 - 1 by rfl, Nat.and_two_pow_sub_one_eq_mod]
    omega
  have htop := hfull.peek (n := 4) (by dsimp only; omega) (by dsimp only; omega)
  have hrest := hfull.take (n := 4) (by dsimp only; omega)
  rw [List.take_left' (natBits_length 4 high)] at htop
  rw [List.drop_left' (natBits_length 4 high)] at hrest
  have hnext := hrest.peek (n := 4) (by dsimp only; omega) (by dsimp only; omega)
  have hend := hrest.take (n := 4) (by dsimp only; omega)
  rw [List.take_left' (natBits_length 4 low)] at hnext
  rw [List.drop_left' (natBits_length 4 low)] at hend
  dsimp only at htop hnext hend
  rw [show bi.bitsToGo + 8 - 4 = bi.bitsToGo + 4 by omega] at htop hnext hend
  rw [show bi.bitsToGo + 4 - 4 = bi.bitsToGo by omega] at hnext hend
  refine ⟨byte, _, hbyte, rfl, ?_, ?_, hend⟩
  · rw [hmask]
    exact eq_of_natBits_eq (Nat.mod_lt _ (by decide)) hhigh (by rw [natBits_mod, htop])
  · rw [hmask]
    exact eq_of_natBits_eq (Nat.mod_lt _ (by decide)) hlow (by rw [natBits_mod, hnext])

/-- Reading pairs of nybbles takes them in order. -/
theorem BitInput.Left.inputPairs {bi : BitInput} {codes array : List ℕ} {pairs : ℕ}
    {tail : List Bool} (h : bi.Left (codes.flatMap (natBits 4) ++ tail))
    (hcodes : ∀ v ∈ codes, v < 16) (hlength : 2 * pairs ≤ codes.length)
    (harray : codes.length ≤ array.length) (hheld : bi.bitsToGo ≤ 7) :
    ∃ array' bi', bi.inputPairs array pairs = .ok (array', bi') ∧
      array'.length = array.length ∧ (∀ i < 2 * pairs, array'[i]? = codes[i]?) ∧
      bi'.Left ((codes.drop (2 * pairs)).flatMap (natBits 4) ++ tail) ∧ bi'.data = bi.data ∧
      bi'.bitsToGo = bi.bitsToGo := by
  have hrun : ∃ s, bi.inputPairs array pairs = .ok s ∧
      s.1.length = array.length ∧ (∀ i < 2 * pairs, s.1[i]? = codes[i]?) ∧
      s.2.Left ((codes.drop (2 * pairs)).flatMap (natBits 4) ++ tail) ∧ s.2.data = bi.data ∧
      s.2.bitsToGo = bi.bitsToGo := by
    apply Loops.range_total (P := fun t (s : List ℕ × BitInput) =>
      s.1.length = array.length ∧ (∀ i < 2 * t, s.1[i]? = codes[i]?) ∧
      s.2.Left ((codes.drop (2 * t)).flatMap (natBits 4) ++ tail) ∧ s.2.data = bi.data ∧
      s.2.bitsToGo = bi.bitsToGo)
    · exact ⟨rfl, fun i hi => absurd hi (by omega), by simpa using h, rfl, rfl⟩
    · rintro t ht ⟨array', bi'⟩ ⟨hlen, hget, hleft, hdata, hgo⟩
      dsimp only at hlen hget hleft hdata hgo ⊢
      have hdrop : codes.drop (2 * t) =
          codes[2 * t] :: codes[2 * t + 1] :: codes.drop (2 * (t + 1)) := by
        rw [List.drop_eq_getElem_cons (show 2 * t < codes.length by omega),
          List.drop_eq_getElem_cons (show 2 * t + 1 < codes.length by omega)]
        rfl
      have hhigh := hcodes _ (List.getElem_mem (show 2 * t < codes.length by omega))
      have hlow := hcodes _ (List.getElem_mem (show 2 * t + 1 < codes.length by omega))
      rw [hdrop, List.flatMap_cons, List.flatMap_cons, List.append_assoc, List.append_assoc]
        at hleft
      obtain ⟨byte, bi1, hbyte, rfl, htop, hnext, hrest⟩ := hleft.pair hhigh hlow (by omega)
      dsimp only at htop hnext
      rw [hgo] at htop hnext
      refine ⟨((array'.set (2 * t) (codes[2 * t])).set (2 * t + 1)
        (codes[2 * t + 1]), _), ?_, ?_, ?_, hrest, hdata, hgo⟩
      · rw [Loops.bind_ok hbyte]
        dsimp only
        rw [Loops.bind_ok (shiftBuffer_of_lt (by omega) _), htop,
          Loops.bind_ok (store_of_lt _ (by omega)), Loops.bind_ok (shiftBuffer_of_lt (by omega) _),
          hnext, Loops.bind_ok (store_of_lt _ (by rw [List.length_set]; omega))]
      · simp [hlen]
      · intro i hi
        by_cases hlast : i = 2 * t + 1
        · subst hlast
          rw [List.getElem?_set_self (by rw [List.length_set]; omega),
            List.getElem?_eq_getElem (by omega)]
        · rw [List.getElem?_set_ne (by omega)]
          by_cases hfirst : i = 2 * t
          · subst hfirst
            rw [List.getElem?_set_self (by omega), List.getElem?_eq_getElem (by omega)]
          · rw [List.getElem?_set_ne (by omega), hget i (by omega)]
  obtain ⟨⟨array', bi'⟩, hok, hrest⟩ := hrun
  exact ⟨array', bi', hok, hrest⟩

/-- Reading nybbles takes them in order. -/
theorem BitInput.Left.inputNnybble {bi : BitInput} {codes : List ℕ} (array : List ℕ)
    {tail : List Bool}
    (h : bi.Left (codes.flatMap (natBits 4) ++ tail)) (hcodes : ∀ v ∈ codes, v < 16)
    (hpos : 0 < codes.length) (harray : codes.length ≤ array.length) (hheld : bi.bitsToGo ≤ 7) :
    ∃ array' bi', bi.inputNnybble codes.length array = .ok (array', bi') ∧
      (∀ i < codes.length, array'[i]? = codes[i]?) ∧ bi'.Left tail ∧ bi'.data = bi.data ∧
      bi'.bitsToGo ≤ 7 := by
  unfold BitInput.inputNnybble
  split
  · rename_i hone
    obtain ⟨v, rfl⟩ := List.length_eq_one_iff.mp hone
    rw [List.flatMap_singleton] at h
    obtain ⟨bi', hok, hleft, hdata, hfew⟩ := BitInput.Left.inputNybble h (hcodes v (by simp))
      (by omega)
    refine ⟨array.set 0 v, bi', ?_, ?_, hleft, hdata, hfew⟩
    · rw [Loops.bind_ok hok]
      dsimp only
      rw [Loops.bind_ok (store_of_lt v (show 0 < array.length by simp at harray; omega))]
    · intro i hi
      have hzero : i = 0 := by simpa using hi
      subst hzero
      rw [List.getElem?_set_self (by simp at harray; omega)]
      rfl
  · rename_i hmany
    have hpart : ¬bi.bitsToGo = 8 := by omega
    obtain ⟨array1, bi1, hok, hlen, hget, hleft, hdata, hgo⟩ := BitInput.Left.inputPairs h hcodes
      (show 2 * (codes.length / 2) ≤ codes.length by omega) harray hheld
    dsimp only
    rw [if_neg hpart, Loops.bind_ok rfl, Loops.bind_ok hok]
    dsimp only
    split
    · rename_i hodd
      have hdrop : codes.drop (2 * (codes.length / 2)) =
          [codes[2 * (codes.length / 2)]] := by
        rw [List.drop_eq_getElem_cons (by omega), List.drop_of_length_le (by omega)]
      have hlast := hcodes _ (List.getElem_mem (show 2 * (codes.length / 2) < codes.length by omega))
      rw [hdrop, List.flatMap_singleton] at hleft
      obtain ⟨bi', hok', hleft', hdata', hfew⟩ := BitInput.Left.inputNybble hleft hlast (by omega)
      refine ⟨array1.set (codes.length - 1) (codes[2 * (codes.length / 2)]), bi', ?_, ?_,
        hleft', hdata'.trans hdata, hfew⟩
      · rw [Loops.bind_ok hok']
        dsimp only
        rw [Loops.bind_ok (store_of_lt _ (show codes.length - 1 < array1.length by omega))]
      · intro i hi
        by_cases heq : i = codes.length - 1
        · subst heq
          rw [List.getElem?_set_self (by omega), List.getElem?_eq_getElem hi]
          congr 2
          omega
        · rw [List.getElem?_set_ne (by omega), hget i (by omega)]
    · rename_i heven
      refine ⟨array1, bi1, rfl, fun i hi => hget i (by omega), ?_, hdata, by omega⟩
      rwa [List.drop_of_length_le (by omega), List.flatMap_nil, List.nil_append] at hleft

end FitsWell.Hcompress
