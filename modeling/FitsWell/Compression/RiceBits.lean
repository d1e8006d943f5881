import FitsWell.Compression.Rice
import FitsWell.Library.Bits
import FitsWell.Library.Chunks

/-!
# The bit strings of the Rice writer and reader

The writer holds back fewer than 32 bits and the reader loads up to 64 ahead. Each is
described by a bit string: the bits given to the writer so far, and the bits the reader
has left. Every operation then appends to the one string or takes from the other.
-/

namespace FitsWell.Rice

open Bytes Bits

/-! ## Writing -/

/-- The bits a writer has been given. -/
def BitOutput.bits (bo : BitOutput) : List Bool :=
  byteBits bo.out ++ natBits bo.pending (bo.acc >>> (64 - bo.pending)).toNat

/-- Between calls fewer than 32 bits are pending, and those below them are clear. -/
structure BitOutput.Sound (bo : BitOutput) : Prop where
  pending_lt : bo.pending < 32
  clear : ∀ i < 64 - bo.pending, bo.acc.getLsbD i = false

/-- A call on a sound writer succeeds, leaves it sound and appends `bits`. -/
def BitOutput.Appends (bo : BitOutput) (call : Outcome BitOutput) (bits : List Bool) : Prop :=
  ∃ bo', call = .ok bo' ∧ bo'.Sound ∧ bo'.bits = bo.bits ++ bits

/-- Calls in sequence append their bits in sequence. -/
theorem BitOutput.Appends.bind {bo : BitOutput} {call : Outcome BitOutput}
    {next : BitOutput → Outcome BitOutput} {front back : List Bool}
    (hcall : bo.Appends call front)
    (hnext : ∀ bo' : BitOutput, bo'.Sound → bo'.Appends (next bo') back) :
    bo.Appends (call >>= next) (front ++ back) := by
  obtain ⟨bo', rfl, hsound, hbits⟩ := hcall
  obtain ⟨bo'', hok, hsound', hbits'⟩ := hnext bo' hsound
  exact ⟨bo'', hok, hsound', by rw [hbits', hbits, List.append_assoc]⟩

/-- A call that does nothing appends nothing. -/
theorem BitOutput.appends_nil {bo : BitOutput} (hbo : bo.Sound) : bo.Appends (.ok bo) [] :=
  ⟨bo, rfl, hbo, by simp⟩

/-- A word whose bits end below `n` has none above. -/
theorem getLsbD_of_lt {bits : U64} {n i : ℕ} (hfit : bits.toNat < 2 ^ n) (hi : n ≤ i) :
    bits.getLsbD i = false := by
  rw [← BitVec.testBit_toNat]
  exact Nat.testBit_lt_two_pow (lt_of_lt_of_le hfit (Nat.pow_le_pow_right (by decide) hi))

/-- The bits pending in the accumulator once `n` more are put in it. -/
theorem natBits_put {acc bits : U64} (pending : ℕ) {n : ℕ} (hroom : pending + n ≤ 64)
    (hclear : ∀ i < 64 - pending, acc.getLsbD i = false) (hfit : bits.toNat < 2 ^ n) :
    natBits (pending + n) ((acc ||| bits <<< (64 - pending - n)) >>> (64 - (pending + n))).toNat =
      natBits pending (acc >>> (64 - pending)).toNat ++ natBits n bits.toNat := by
  rw [natBits_append]
  refine congrArg₂ (· ++ ·) (natBits_congr (fun i hi => ?_)) (natBits_congr (fun i hi => ?_))
  · have hbits := getLsbD_of_lt hfit (show n ≤ n + i by omega)
    rw [Nat.testBit_div_two_pow, BitVec.testBit_toNat, BitVec.testBit_toNat,
      BitVec.getLsbD_ushiftRight, BitVec.getLsbD_ushiftRight, BitVec.getLsbD_or,
      BitVec.getLsbD_shiftLeft, show 64 - (pending + n) + (i + n) = 64 - pending + i by omega,
      show 64 - pending + i - (64 - pending - n) = n + i by omega, hbits]
    simp
  · have hacc := hclear (64 - (pending + n) + i) (by omega)
    rw [BitVec.testBit_toNat, BitVec.testBit_toNat, BitVec.getLsbD_ushiftRight, BitVec.getLsbD_or,
      BitVec.getLsbD_shiftLeft, hacc,
      show 64 - (pending + n) + i - (64 - pending - n) = i by omega]
    have hlow : ¬64 - (pending + n) + i < 64 - pending - n := by omega
    have hhigh : 64 - (pending + n) + i < 64 := by omega
    simp [hlow, hhigh]

/-- Writing out the top half of the accumulator keeps the bits. -/
theorem natBits_flush {acc : U64} {pending : ℕ} (hlow : 32 ≤ pending) (hhigh : pending ≤ 64) :
    natBits pending (acc >>> (64 - pending)).toNat =
      byteBits (beBytes 4 (acc >>> 32).toNat) ++
        natBits (pending - 32) ((acc <<< 32) >>> (64 - (pending - 32))).toNat := by
  have hsplit := natBits_append 32 (pending - 32) (acc >>> (64 - pending)).toNat
  rw [show 32 + (pending - 32) = pending by omega] at hsplit
  rw [hsplit, byteBits_beBytes]
  refine congrArg₂ (· ++ ·) (natBits_congr (fun i hi => ?_)) (natBits_congr (fun i hi => ?_))
  · rw [Nat.testBit_div_two_pow, BitVec.testBit_toNat, BitVec.testBit_toNat,
      BitVec.getLsbD_ushiftRight, BitVec.getLsbD_ushiftRight]
    congr 1
    omega
  · rw [BitVec.testBit_toNat, BitVec.testBit_toNat, BitVec.getLsbD_ushiftRight,
      BitVec.getLsbD_ushiftRight, BitVec.getLsbD_shiftLeft]
    have hplace : ¬64 - (pending - 32) + i < 32 := by omega
    have hwidth : 64 - (pending - 32) + i < 64 := by omega
    simp only [hplace, hwidth, decide_true, decide_false, Bool.not_false, Bool.true_and]
    congr 1
    omega

/-- A put appends its bits. -/
theorem BitOutput.appends_put {bo : BitOutput} {bits : U64} {n : ℕ} (hbo : bo.Sound) (hn : n ≤ 32)
    (hfit : bits.toNat < 2 ^ n) : bo.Appends (bo.put bits n) (natBits n bits.toNat) := by
  obtain ⟨hpending, hclear⟩ := hbo
  have hempty : bits >>> n = 0 := by
    apply BitVec.eq_of_toNat_eq
    simp [Nat.shiftRight_eq_div_pow, Nat.div_eq_of_lt hfit]
  have hput := natBits_put bo.pending (by omega) hclear hfit
  have hcleared : ∀ i < 64 - (bo.pending + n),
      (bo.acc ||| bits <<< (64 - bo.pending - n)).getLsbD i = false := by
    intro i hi
    have hplace : i < 64 - bo.pending - n := by omega
    rw [BitVec.getLsbD_or, hclear i (by omega), BitVec.getLsbD_shiftLeft]
    simp [hplace]
  rw [put, if_pos ⟨hn, hpending, hempty⟩]
  by_cases hzero : n = 0
  · subst hzero
    rw [if_pos rfl]
    exact appends_nil ⟨hpending, hclear⟩
  rw [if_neg hzero]
  dsimp only
  by_cases hfull : 32 ≤ bo.pending + n
  · rw [if_pos hfull]
    refine ⟨_, rfl, ⟨by dsimp only; omega, fun i hi => ?_⟩, ?_⟩
    · dsimp only at hi ⊢
      rw [BitVec.getLsbD_shiftLeft]
      by_cases hlow : i < 32
      · simp [hlow]
      · rw [hcleared (i - 32) (by omega), Bool.and_false]
    · simp only [BitOutput.bits, byteBits_append, List.append_assoc]
      rw [← hput, natBits_flush hfull (by omega)]
  · rw [if_neg hfull]
    refine ⟨_, rfl, ⟨by dsimp only; omega, hcleared⟩, ?_⟩
    simp only [BitOutput.bits, List.append_assoc]
    rw [hput]

/-- A one shifted to place `n`. -/
theorem toNat_one_shiftLeft {n : ℕ} (hn : n < 64) : (1#64 <<< n).toNat = 2 ^ n := by
  rw [BitVec.toNat_shiftLeft, Nat.shiftLeft_eq]
  simpa using Nat.mod_eq_of_lt (Nat.pow_lt_pow_right (a := 2) (by decide) hn)

/-- The ones below place `n`. -/
theorem toNat_one_shiftLeft_sub_one {n : ℕ} (hn : n < 64) :
    (1#64 <<< n - 1).toNat = 2 ^ n - 1 := by
  have hpos : 0 < 2 ^ n := Nat.two_pow_pos n
  have hlt : (2 : ℕ) ^ n < 2 ^ 64 := Nat.pow_lt_pow_right (by decide) hn
  have hone : (1 : U64).toNat = 1 := rfl
  rw [BitVec.toNat_sub, toNat_one_shiftLeft hn, hone]
  omega

/-- The low bits of a word below `n`. -/
theorem toNat_and_lowBits (bits : U64) {n : ℕ} (hn : n ≤ 64) :
    (bits &&& lowBits n).toNat = bits.toNat % 2 ^ n := by
  unfold lowBits
  split
  · rename_i hfull
    subst hfull
    rw [BitVec.and_allOnes, Nat.mod_eq_of_lt bits.isLt]
  · rw [BitVec.toNat_and, toNat_one_shiftLeft_sub_one (by omega), Nat.and_two_pow_sub_one_eq_mod]

/-- Writing the low bits of a word appends them, the most significant first. -/
theorem BitOutput.appends_outputNbits {bo : BitOutput} (bits : U64) {n : ℕ} (hbo : bo.Sound)
    (hn : n ≤ 64) : bo.Appends (bo.outputNbits bits n) (natBits n bits.toNat) := by
  unfold outputNbits
  split
  · rename_i hwide
    have hsplit := natBits_append (n - 32) 32 bits.toNat
    rw [show n - 32 + 32 = n by omega] at hsplit
    have hhigh : (bits >>> 32 &&& lowBits (n - 32)).toNat = bits.toNat / 2 ^ 32 % 2 ^ (n - 32) := by
      rw [toNat_and_lowBits _ (by omega), BitVec.toNat_ushiftRight, Nat.shiftRight_eq_div_pow]
    have hlow : (bits &&& lowBits 32).toNat = bits.toNat % 2 ^ 32 :=
      toNat_and_lowBits bits (by decide)
    rw [hsplit, ← natBits_mod (n - 32), ← natBits_mod 32, ← hhigh, ← hlow]
    refine (appends_put hbo (by omega) ?_).bind (fun bo' hbo' => appends_put hbo' (by decide) ?_)
    · rw [hhigh]
      exact Nat.mod_lt _ (Nat.two_pow_pos _)
    · rw [hlow]
      exact Nat.mod_lt _ (Nat.two_pow_pos _)
  · have hlow := toNat_and_lowBits bits hn
    rw [← natBits_mod, ← hlow]
    refine appends_put hbo (by omega) ?_
    rw [hlow]
    exact Nat.mod_lt _ (Nat.two_pow_pos _)

/-- Zeros are appended whatever their count. -/
theorem BitOutput.appends_outputZeros {bo : BitOutput} (hbo : bo.Sound) (n : ℕ) :
    bo.Appends (bo.outputZeros n) (List.replicate n false) := by
  induction n using Nat.strong_induction_on generalizing bo with
  | _ n ih =>
    rw [outputZeros]
    split
    · rename_i hpos
      have hsplit : List.replicate n false =
          natBits (min n 32) 0 ++ List.replicate (n - min n 32) false := by
        rw [natBits_zero, List.replicate_append_replicate]
        congr 1
        omega
      rw [hsplit]
      exact (appends_put hbo (by omega) (show (0 : U64).toNat < _ by simp)).bind
        (fun bo' hbo' => ih _ (by omega) hbo')
    · rename_i hzero
      obtain rfl : n = 0 := by omega
      exact appends_nil hbo

/-- The bits of a Rice-coded value: its high part in unary, then its low bits. -/
def riceBits (fs v : ℕ) : List Bool :=
  List.replicate (v / 2 ^ fs) false ++ true :: natBits fs v

/-- Writing a value appends its Rice code. -/
theorem BitOutput.appends_outputRiceValue {bo : BitOutput} (v : U64) {fs : ℕ} (hbo : bo.Sound)
    (hfs : fs < 64) :
    bo.Appends (bo.outputRiceValue v fs (1#64 <<< fs - 1)) (riceBits fs v.toNat) := by
  have hmask : (v &&& (1#64 <<< fs - 1)).toNat = v.toNat % 2 ^ fs := by
    have h := toNat_and_lowBits v hfs.le
    rwa [lowBits, if_neg (by omega)] at h
  have htop : (v >>> fs).toNat = v.toNat / 2 ^ fs := by
    rw [BitVec.toNat_ushiftRight, Nat.shiftRight_eq_div_pow]
  have hlow : v.toNat % 2 ^ fs < 2 ^ fs := Nat.mod_lt _ (Nat.two_pow_pos _)
  unfold outputRiceValue
  rw [htop]
  dsimp only
  split
  · rename_i hshort
    have hvalue : (1#64 <<< fs ||| v &&& (1#64 <<< fs - 1)).toNat = 2 ^ fs + v.toNat % 2 ^ fs := by
      rw [BitVec.toNat_or, toNat_one_shiftLeft hfs, hmask]
      have h := Nat.two_pow_add_eq_or_of_lt hlow 1
      simpa using h.symm
    have hbits : natBits (v.toNat / 2 ^ fs + 1 + fs) (2 ^ fs + v.toNat % 2 ^ fs) =
        riceBits fs v.toNat := by
      have hdiv : (2 ^ fs + v.toNat % 2 ^ fs) / 2 ^ fs = 1 := by
        rw [Nat.add_div_left _ (Nat.two_pow_pos fs), Nat.div_eq_of_lt hlow]
      have hmod : (2 ^ fs + v.toNat % 2 ^ fs) % 2 ^ fs = v.toNat % 2 ^ fs := by
        rw [Nat.add_mod_left, Nat.mod_mod]
      rw [natBits_append, hdiv, natBits_append, ← natBits_mod fs, hmod, natBits_mod, riceBits]
      simp [natBits_zero, natBits]
    rw [← hbits, ← hvalue]
    refine appends_put hbo hshort ?_
    rw [hvalue]
    have hpow : (2 : ℕ) ^ (fs + 1) ≤ 2 ^ (v.toNat / 2 ^ fs + 1 + fs) :=
      Nat.pow_le_pow_right (by decide) (by omega)
    rw [pow_succ] at hpow
    omega
  · have hsplit : riceBits fs v.toNat =
        List.replicate (v.toNat / 2 ^ fs) false ++ ([true] ++ natBits fs (v.toNat % 2 ^ fs)) := by
      rw [natBits_mod, riceBits, List.singleton_append]
    rw [hsplit, ← hmask]
    exact (appends_outputZeros hbo _).bind (fun bo₁ hbo₁ =>
      (appends_put hbo₁ (by decide) (by decide)).bind (fun bo₂ hbo₂ =>
        appends_outputNbits _ hbo₂ hfs.le))

/-- A flushed stream spells the writer's bits and a few zeros. -/
theorem BitOutput.byteBits_finish {bo : BitOutput} (hbo : bo.Sound) :
    ∃ padding, byteBits bo.finish = bo.bits ++ padding := by
  have hpending := hbo.pending_lt
  set count := (bo.pending + 7) / 8 with hcount
  have htake : byteBits ((beBytes 8 bo.acc.toNat).take count) =
      natBits bo.pending (bo.acc >>> (64 - bo.pending)).toNat ++
        natBits (8 * count - bo.pending) (bo.acc.toNat / 2 ^ (64 - 8 * count)) := by
    have hwhole := byteBits_beBytes 8 bo.acc.toNat
    rw [← List.take_append_drop count (beBytes 8 bo.acc.toNat), byteBits_append] at hwhole
    have hsplit := natBits_append (8 * count) (64 - 8 * count) bo.acc.toNat
    rw [show 8 * count + (64 - 8 * count) = 8 * 8 by omega] at hsplit
    rw [hsplit] at hwhole
    have hfront := List.append_inj_left hwhole (by simp; omega)
    have hsplit' := natBits_append bo.pending (8 * count - bo.pending)
      (bo.acc.toNat / 2 ^ (64 - 8 * count))
    rw [show bo.pending + (8 * count - bo.pending) = 8 * count by omega] at hsplit'
    rw [hfront, hsplit', Nat.div_div_eq_div_mul, ← Nat.pow_add,
      show 64 - 8 * count + (8 * count - bo.pending) = 64 - bo.pending by omega,
      BitVec.toNat_ushiftRight, Nat.shiftRight_eq_div_pow]
  exact ⟨_, by rw [finish, byteBits_append, htake, bits, List.append_assoc]⟩

/-! ## Reading -/

/-- The bits a reader has left to give. -/
def BitReader.rest (br : BitReader) : List Bool := (byteBits br.bytes).drop (8 * br.pos - br.nbits)

/-- The accumulator's top bits are the next bits of the stream, and each bit set below
them is one of the stream's too. -/
structure BitReader.Sound (br : BitReader) : Prop where
  pos_le : br.pos ≤ br.bytes.length
  nbits_le : br.nbits ≤ 8 * br.pos
  nbits_le_width : br.nbits ≤ 64
  held : ∀ i < br.nbits, br.rest.getD i false = br.acc.getMsbD i
  ahead : ∀ i, br.acc.getMsbD i = true → br.rest.getD i false = true

/-- A sound reader with room for a refill. -/
def BitReader.Ready (br : BitReader) : Prop := br.Sound ∧ br.nbits < 64

/-- A reader at the start of a stream has all of it left. -/
theorem BitReader.ready_start (bytes : List UInt8) : BitReader.Ready ⟨bytes, 0, 0, 0⟩ :=
  ⟨⟨Nat.zero_le _, le_rfl, Nat.zero_le _, fun _ h => absurd h (Nat.not_lt_zero _),
    fun i h => by simp at h⟩, by simp only; decide⟩

/-- The bits left are those of the bytes not loaded and those held. -/
theorem BitReader.length_rest {br : BitReader} (hbr : br.Sound) : br.rest.length = br.left := by
  have hpos := hbr.pos_le
  have hnbits := hbr.nbits_le
  simp only [rest, left, List.length_drop, byteBits_length]
  omega

/-- The stream's bit at a place past those held. -/
theorem BitReader.getD_rest {br : BitReader} (hbr : br.Sound) {i : ℕ} (hi : br.nbits ≤ i) :
    br.rest.getD i false = (byteBits br.bytes).getD (8 * br.pos + (i - br.nbits)) false := by
  have hnbits := hbr.nbits_le
  rw [rest, List.getD_eq_getElem?_getD, List.getElem?_drop, List.getD_eq_getElem?_getD,
    show 8 * br.pos - br.nbits + i = 8 * br.pos + (i - br.nbits) by omega]

/-- The bits of a load of consecutive bytes are the stream's bits at that place. -/
theorem testBit_load (bytes : List UInt8) (pos count : ℕ) {i : ℕ} (hfit : pos + count ≤ bytes.length)
    (hi : i < 8 * count) :
    (ofBeBytes ((bytes.drop pos).take count)).testBit (8 * count - 1 - i) =
      (byteBits bytes).getD (8 * pos + i) false := by
  have hlength : ((bytes.drop pos).take count).length = count := by
    rw [List.length_take, List.length_drop]
    omega
  have hbits := natBits_ofBeBytes ((bytes.drop pos).take count)
  rw [hlength] at hbits
  have hplace := natBits_getElem? (n := ofBeBytes ((bytes.drop pos).take count)) hi
  have hsplit : byteBits bytes = byteBits (bytes.take pos) ++
      (byteBits ((bytes.drop pos).take count) ++ byteBits ((bytes.drop pos).drop count)) := by
    rw [← byteBits_append, List.take_append_drop, ← byteBits_append, List.take_append_drop]
  have hfront : (byteBits (bytes.take pos)).length = 8 * pos := by
    rw [byteBits_length, List.length_take, Nat.min_eq_left (by omega)]
  rw [hsplit, List.getD_eq_getElem?_getD, List.getElem?_append_right (by omega), hfront,
    Nat.add_sub_cancel_left, List.getElem?_append_left (by rw [byteBits_length, hlength]; exact hi),
    ← hbits, hplace, Option.getD_some]

/-- Bits of the stream merged below those held are held too. -/
theorem held_or {bits : List Bool} {acc word : U64} {held total : ℕ}
    (hheld : ∀ i < held, bits.getD i false = acc.getMsbD i)
    (hahead : ∀ i, acc.getMsbD i = true → bits.getD i false = true)
    (hword : ∀ i, word.getMsbD i = true → bits.getD i false = true)
    (hfill : ∀ i, held ≤ i → i < total → word.getMsbD i = bits.getD i false) :
    (∀ i < total, bits.getD i false = (acc ||| word).getMsbD i) ∧
      ∀ i, (acc ||| word).getMsbD i = true → bits.getD i false = true := by
  constructor
  · intro i hi
    rw [BitVec.getMsbD_or]
    cases hbit : bits.getD i false with
    | true =>
      by_cases h : i < held
      · rw [← hheld i h, hbit, Bool.true_or]
      · rw [hfill i (by omega) hi, hbit, Bool.or_true]
    | false =>
      have hacc : acc.getMsbD i = false :=
        Bool.eq_false_iff.mpr (fun h => by rw [hahead i h] at hbit; cases hbit)
      have hword : word.getMsbD i = false :=
        Bool.eq_false_iff.mpr (fun h => by rw [hword i h] at hbit; cases hbit)
      rw [hacc, hword, Bool.or_false]
  · intro i h
    rw [BitVec.getMsbD_or, Bool.or_eq_true] at h
    rcases h with h | h
    · exact hahead i h
    · exact hword i h

/-- Loading whole bytes below the bits held keeps a reader sound and leaves it the same
bits. -/
theorem BitReader.sound_load {br : BitReader} (word : U64) (count : ℕ) (hbr : br.Sound)
    (hpos : br.pos + count ≤ br.bytes.length) (hroom : br.nbits + 8 * count ≤ 64)
    (hword : ∀ i, word.getMsbD i = true → br.rest.getD i false = true)
    (hfill : ∀ i, br.nbits ≤ i → i < br.nbits + 8 * count →
      word.getMsbD i = br.rest.getD i false) :
    let br' : BitReader :=
      { br with acc := br.acc ||| word, pos := br.pos + count, nbits := br.nbits + 8 * count }
    br'.Sound ∧ br'.rest = br.rest := by
  intro br'
  have hnbits := hbr.nbits_le
  have hrest : br'.rest = br.rest := by
    simp only [rest, br']
    congr 1
    omega
  obtain ⟨hheld, hahead⟩ := held_or hbr.held hbr.ahead hword hfill
  refine ⟨⟨hpos, by simp only [br']; omega, hroom, ?_, ?_⟩, hrest⟩
  · rw [hrest]
    exact hheld
  · rw [hrest]
    exact hahead

/-- Refilling by bytes keeps a reader sound and leaves it the same bits, and it stops with
more than 56 bits held or with every bit the stream has left. -/
theorem BitReader.refillBytes_spec {br : BitReader} (hbr : br.Sound) :
    br.refillBytes.Sound ∧ br.refillBytes.rest = br.rest ∧
      (56 < br.refillBytes.nbits ∨ br.refillBytes.nbits = br.rest.length) := by
  induction br using BitReader.refillBytes.induct with
  | case1 br hroom hnone =>
    rw [refillBytes, dif_pos hroom, hnone]
    dsimp only
    have hend := List.getElem?_eq_none_iff.mp hnone
    have hpos := hbr.pos_le
    refine ⟨hbr, rfl, .inr ?_⟩
    rw [length_rest hbr, left]
    omega
  | case2 br hroom byte hbyte ih =>
    obtain ⟨hpos, hget⟩ := List.getElem?_eq_some_iff.mp hbyte
    have hload : ofBeBytes ((br.bytes.drop br.pos).take 1) = byte.toNat := by
      rw [List.drop_eq_getElem_cons hpos, hget]
      simp [ofBeBytes]
    have hbit : ∀ i, (BitVec.ofNat 64 byte.toNat <<< (56 - br.nbits)).getMsbD i =
        (decide (br.nbits ≤ i ∧ i < br.nbits + 8) && br.rest.getD i false) := by
      intro i
      have hbyte_lt := byte.toNat_lt
      rw [BitVec.getMsbD_shiftLeft, BitVec.getMsbD_eq_getLsbD, BitVec.getLsbD_ofNat]
      by_cases hi : br.nbits ≤ i ∧ i < br.nbits + 8
      · have htest := testBit_load br.bytes br.pos 1 (i := i - br.nbits) (by omega) (by omega)
        rw [hload] at htest
        rw [getD_rest hbr hi.1, ← htest,
          show 64 - 1 - (i + (56 - br.nbits)) = 8 * 1 - 1 - (i - br.nbits) by omega]
        simp [hi, show i + (56 - br.nbits) < 64 by omega, show 8 - 1 - (i - br.nbits) < 64 by omega]
      · rw [decide_eq_false hi, Bool.false_and]
        by_cases hlow : i < br.nbits
        · have hhigh : byte.toNat.testBit (64 - 1 - (i + (56 - br.nbits))) = false :=
            Nat.testBit_lt_two_pow (lt_of_lt_of_le hbyte_lt
              (Nat.pow_le_pow_right (n := 2) (i := 8) (by decide) (by omega)))
          rw [hhigh, Bool.and_false, Bool.and_false]
        · rw [decide_eq_false (by omega), Bool.false_and]
    obtain ⟨hsound, hrest⟩ := sound_load
      (BitVec.ofNat 64 byte.toNat <<< (56 - br.nbits)) 1 hbr (by omega) (by omega)
      (fun i h => by rw [hbit i] at h; exact (Bool.and_eq_true _ _ ▸ h).2)
      (fun i hlow hhigh => by rw [hbit i, decide_eq_true ⟨hlow, by omega⟩, Bool.true_and])
    rw [refillBytes, dif_pos hroom, hbyte]
    obtain ⟨hsound', hrest', hfull⟩ := ih hsound
    exact ⟨hsound', hrest'.trans hrest, by rwa [hrest] at hfull⟩
  | case3 br hroom =>
    rw [refillBytes, dif_neg hroom]
    exact ⟨hbr, rfl, .inl (by omega)⟩

/-- A refill keeps a reader sound and leaves it the same bits, and it holds 56 bits after
or every bit the stream has left. An empty accumulator is not filled whole. -/
theorem BitReader.refill_spec {br : BitReader} (hbr : br.Ready) :
    ∃ br', br.refill = .ok br' ∧ br'.Sound ∧ br'.rest = br.rest ∧
      (56 ≤ br'.nbits ∨ br'.nbits = br.rest.length) ∧ (br.nbits = 0 → br'.nbits < 64) := by
  obtain ⟨hsound, hlt⟩ := hbr
  unfold refill
  rw [if_pos hlt]
  split
  · rename_i hload
    set added := (63 - br.nbits) / 8 with hadded
    have hbit : ∀ i, (BitVec.ofNat 64 (ofBeBytes ((br.bytes.drop br.pos).take 8)) >>>
        br.nbits).getMsbD i = (decide (br.nbits ≤ i ∧ i < 64) && br.rest.getD i false) := by
      intro i
      rw [BitVec.getMsbD_ushiftRight, BitVec.getMsbD_eq_getLsbD, BitVec.getLsbD_ofNat]
      by_cases hi : br.nbits ≤ i ∧ i < 64
      · rw [getD_rest hsound hi.1, ← testBit_load _ _ 8 hload (by omega)]
        simp [hi, show ¬i < br.nbits by omega, show i - br.nbits < 64 by omega,
          show 64 - 1 - (i - br.nbits) < 64 by omega]
      · rw [decide_eq_false hi, Bool.false_and]
        by_cases hlow : i < br.nbits
        · simp [hlow]
        · rw [decide_eq_false (by omega), Bool.false_and]
    obtain ⟨hsound', hrest⟩ := sound_load _ added hsound (by omega) (by omega)
      (fun i h => by rw [hbit i] at h; exact (Bool.and_eq_true _ _ ▸ h).2)
      (fun i hlow hhigh => by rw [hbit i, decide_eq_true ⟨hlow, by omega⟩, Bool.true_and])
    exact ⟨_, rfl, hsound', hrest, .inl (by dsimp only; omega), fun _ => by dsimp only; omega⟩
  · rename_i hshort
    obtain ⟨hsound', hrest, hfull⟩ := refillBytes_spec hsound
    refine ⟨_, rfl, hsound', hrest, by omega, fun hzero => ?_⟩
    have hleft := left_refillBytes br
    simp only [left, hzero] at hleft
    omega

/-- A top up holds the bits asked for, or every bit the stream has left, and room for a
refill remains once they are taken. -/
theorem BitReader.topUp_spec {br : BitReader} {n : ℕ} (hbr : br.Ready) (hn : n ≤ 56) :
    ∃ br', br.topUp n = .ok br' ∧ br'.Sound ∧ br'.rest = br.rest ∧
      (n ≤ br'.nbits ∨ br'.nbits = br.rest.length) ∧ br'.nbits - n < 64 ∧
      (br.nbits = 0 → br'.nbits < 64) := by
  unfold topUp
  by_cases hshort : br.nbits < n
  · obtain ⟨br', hrefill, hsound, hsame, hfull, hempty⟩ := refill_spec hbr
    have hwidth := hsound.nbits_le_width
    exact ⟨br', by rw [if_pos hshort, hrefill], hsound, hsame, by omega, by omega, hempty⟩
  · have hlt := hbr.2
    exact ⟨br, if_neg hshort, hbr.1, rfl, by omega, by omega, fun _ => hlt⟩

/-- Dropping bits held takes them from the bits left. -/
theorem BitReader.consume_spec {br : BitReader} {n : ℕ} (hbr : br.Sound) (hn : n ≤ br.nbits)
    (hlt : n < 64) :
    ∃ br', br.consume n = .ok br' ∧ br'.Sound ∧ br'.nbits = br.nbits - n ∧
      br'.rest = br.rest.drop n := by
  obtain ⟨hpos, hnbits, hwidth, hheld, hahead⟩ := hbr
  have hrest : BitReader.rest { br with acc := br.acc <<< n, nbits := br.nbits - n } =
      br.rest.drop n := by
    simp only [rest, List.drop_drop]
    congr 1
    omega
  have hgetD : ∀ i, (br.rest.drop n).getD i false = br.rest.getD (i + n) false := by
    intro i
    rw [List.getD_eq_getElem?_getD, List.getElem?_drop, List.getD_eq_getElem?_getD,
      Nat.add_comm]
  refine ⟨{ br with acc := br.acc <<< n, nbits := br.nbits - n }, ?_, ?_, rfl, hrest⟩
  · simp [consume, shl, hlt, bind, Except.bind]
  · refine ⟨hpos, by dsimp only; omega, by dsimp only; omega, fun i hi => ?_, fun i h => ?_⟩
    · dsimp only at hi
      rw [hrest, hgetD, BitVec.getMsbD_shiftLeft, hheld (i + n) (by omega)]
    · rw [BitVec.getMsbD_shiftLeft] at h
      rw [hrest, hgetD, hahead _ h]

/-- The top bits of the accumulator as a number. -/
theorem BitReader.natBits_top {br : BitReader} {n : ℕ} (hbr : br.Sound) (hn : n ≤ br.nbits)
    (hle : n ≤ 56) :
    (br.acc >>> 1 >>> (63 - n)).toNat < 2 ^ n ∧
      br.rest = natBits n (br.acc >>> 1 >>> (63 - n)).toNat ++ br.rest.drop n := by
  constructor
  · rw [← BitVec.shiftRight_add, BitVec.toNat_ushiftRight, Nat.shiftRight_eq_div_pow,
      Nat.div_lt_iff_lt_mul (Nat.two_pow_pos _), ← Nat.pow_add,
      show n + (1 + (63 - n)) = 64 by omega]
    exact br.acc.isLt
  · conv_lhs => rw [← List.take_append_drop n br.rest]
    have hlength : (br.rest.take n).length = n := by
      have h := length_rest hbr
      rw [List.length_take, h, left]
      omega
    refine congrArg (· ++ br.rest.drop n) ((eq_natBits_iff hlength).mpr (fun i hi => ?_))
    have htake : (br.rest.take n).getD i false = br.rest.getD i false := by
      rw [List.getD_eq_getElem?_getD, List.getElem?_take_of_lt hi, List.getD_eq_getElem?_getD]
    rw [htake, hbr.held i (by omega), BitVec.testBit_toNat, BitVec.getLsbD_ushiftRight,
      BitVec.getLsbD_ushiftRight, BitVec.getMsbD_eq_getLsbD,
      show 1 + (63 - n + (n - 1 - i)) = 64 - 1 - i by omega]
    simp [show i < 64 by omega]

/-- A read takes `tail`'s predecessors: the call returns the number that the next bits
spell and leaves the bits after them. -/
def BitReader.Gives {α : Type} (call : Outcome (α × BitReader)) (value : α)
    (tail : List Bool) : Prop :=
  ∃ br', call = .ok (value, br') ∧ br'.Ready ∧ br'.rest = tail

/-- A number is its high and its low bits joined. -/
theorem join_eq {v high low : U64} {n : ℕ} (hhigh : high.toNat = v.toNat / 2 ^ n)
    (hlow : low.toNat = v.toNat % 2 ^ n) : high <<< n ||| low = v := by
  have hle : v.toNat / 2 ^ n * 2 ^ n < 2 ^ 64 :=
    lt_of_le_of_lt (Nat.div_mul_le_self _ _) v.isLt
  apply BitVec.eq_of_toNat_eq
  rw [BitVec.toNat_or, BitVec.toNat_shiftLeft, hhigh, hlow, Nat.shiftLeft_eq, Nat.mod_eq_of_lt hle,
    Nat.mul_comm, ← Nat.two_pow_add_eq_or_of_lt (Nat.mod_lt _ (Nat.two_pow_pos n)),
    Nat.div_add_mod]

/-- A short read gives the number its bits spell. -/
theorem BitReader.readShort_gives {br : BitReader} {n : ℕ} {v : U64} {tail : List Bool}
    (hbr : br.Ready) (hn : n ≤ 56) (hv : v.toNat < 2 ^ n)
    (hrest : br.rest = natBits n v.toNat ++ tail) : Gives (br.readShort n) v tail := by
  have hlength : n ≤ br.rest.length := by rw [hrest]; simp
  obtain ⟨br', hok, hsound, hsame, hfull, hlt, -⟩ := topUp_spec hbr hn
  have hheld : n ≤ br'.nbits := by omega
  obtain ⟨hvalue_lt, hbits⟩ := natBits_top hsound hheld hn
  obtain ⟨br'', hconsume, hsound'', hnbits, hrest''⟩ := consume_spec hsound hheld (by omega)
  have hvalue : br'.acc >>> 1 >>> (63 - n) = v := by
    rw [hsame, hrest] at hbits
    have hnat := (List.append_inj hbits (by simp)).1
    exact BitVec.eq_of_toNat_eq (eq_of_natBits_eq hvalue_lt hv hnat.symm)
  refine ⟨br'', ?_, ⟨hsound'', by omega⟩, ?_⟩
  · unfold readShort
    simp [hok, bind, Except.bind, show ¬br'.nbits < n by omega, hconsume, hvalue]
  · rw [hrest'', hsame, hrest, List.drop_left' (natBits_length n _)]

/-- A read gives the number its bits spell. -/
theorem BitReader.read_gives {br : BitReader} {n : ℕ} {v : U64} {tail : List Bool}
    (hbr : br.Ready) (hn : n ≤ 64) (hv : v.toNat < 2 ^ n)
    (hrest : br.rest = natBits n v.toNat ++ tail) : Gives (br.read n) v tail := by
  unfold read
  split
  · rename_i hshort
    exact readShort_gives hbr hshort hv hrest
  · rename_i hwide
    rw [readWide, if_neg (by omega)]
    have hsplit := natBits_append (n - 32) 32 v.toNat
    rw [show n - 32 + 32 = n by omega] at hsplit
    have hhigh : (v >>> 32).toNat = v.toNat / 2 ^ 32 := by
      rw [BitVec.toNat_ushiftRight, Nat.shiftRight_eq_div_pow]
    have hlow : (v &&& lowBits 32).toNat = v.toNat % 2 ^ 32 := toNat_and_lowBits v (by decide)
    rw [hsplit, ← hhigh, ← natBits_mod 32, ← hlow, List.append_assoc] at hrest
    obtain ⟨br₁, hok₁, hready₁, hrest₁⟩ := readShort_gives hbr (by omega) (by
      rw [hhigh, Nat.div_lt_iff_lt_mul (by decide), ← Nat.pow_add,
        show n - 32 + 32 = n by omega]
      exact hv) hrest
    obtain ⟨br₂, hok₂, hready₂, hrest₂⟩ := readShort_gives hready₁ (by decide) (by
      rw [hlow]
      exact Nat.mod_lt _ (by decide)) hrest₁
    have hjoin := join_eq hhigh hlow
    exact ⟨br₂, by simp [hok₁, hok₂, bind, Except.bind, hjoin], hready₂, hrest₂⟩

/-- The leading zeros of a word, and the one after them. -/
theorem leadingZeros_spec (acc : U64) :
    (∀ i < leadingZeros acc, acc.getMsbD i = false) ∧
      (leadingZeros acc < 64 → acc.getMsbD (leadingZeros acc) = true) := by
  set p : ℕ → Bool := fun i => !acc.getMsbD i with hp
  have hpre := List.takeWhile_prefix p (l := List.range 64)
  have hcount : leadingZeros acc = ((List.range 64).takeWhile p).length := rfl
  constructor
  · intro i hi
    rw [hcount] at hi
    have hplace : ((List.range 64).takeWhile p)[i] = i := by
      rw [hpre.getElem hi, List.getElem_range]
    have hmem := List.getElem_mem hi
    have himp := List.mem_takeWhile_imp hmem
    rw [hplace, hp] at himp
    simpa using himp
  · intro hlt
    have hdrop : (List.range 64).drop (leadingZeros acc) =
        leadingZeros acc :: (List.range 64).drop (leadingZeros acc + 1) := by
      rw [List.drop_eq_getElem_cons (by rw [List.length_range]; exact hlt), List.getElem_range]
    rw [hcount] at hdrop
    have hnot := Chunks.not_of_drop_takeWhile hdrop
    simpa [hp, hcount] using hnot

/-- A word whose first one is at place `k` has `k` leading zeros. -/
theorem leadingZeros_eq {acc : U64} {k : ℕ} (hk : k < 64)
    (hzeros : ∀ i < k, acc.getMsbD i = false) (hone : acc.getMsbD k = true) :
    leadingZeros acc = k := by
  obtain ⟨hbelow, hat⟩ := leadingZeros_spec acc
  rcases Nat.lt_trichotomy (leadingZeros acc) k with h | h | h
  · exact absurd (hzeros _ h) (by rw [hat (by omega)]; decide)
  · exact h
  · exact absurd (hbelow _ h) (by rw [hone]; decide)

/-- A word whose first `n` bits are zero has as many leading zeros. -/
theorem le_leadingZeros {acc : U64} {n : ℕ} (hn : n ≤ 64)
    (hzeros : ∀ i < n, acc.getMsbD i = false) : n ≤ leadingZeros acc := by
  by_contra hlt
  have hone := (leadingZeros_spec acc).2 (by omega)
  rw [hzeros _ (by omega)] at hone
  cases hone

/-- The bit of a unary code at a place of it. -/
theorem getD_unary {k i : ℕ} {tail : List Bool} (hi : i ≤ k) :
    (List.replicate k false ++ true :: tail).getD i false = decide (i = k) := by
  rw [List.getD_eq_getElem?_getD]
  by_cases h : i < k
  · rw [List.getElem?_append_left (by simpa using h), List.getElem?_replicate, if_pos h]
    simp [h.ne]
  · obtain rfl : i = k := by omega
    rw [List.getElem?_append_right (by simp)]
    simp

/-- Dropping every bit held leaves the bits after them, and room for a refill. -/
theorem BitReader.drop_held {br : BitReader} (hbr : br.Sound) :
    BitReader.Ready { br with acc := 0, nbits := 0 } ∧
      BitReader.rest { br with acc := 0, nbits := 0 } = br.rest.drop br.nbits := by
  refine ⟨⟨⟨hbr.pos_le, Nat.zero_le _, Nat.zero_le _, fun i hi => absurd hi (Nat.not_lt_zero _),
    fun i h => by simp at h⟩, by simp only; decide⟩, ?_⟩
  have hnbits := hbr.nbits_le
  simp only [rest, List.drop_drop]
  congr 1
  omega

/-- A unary read gives the count of zeros before the next one. -/
theorem BitReader.readZeros_gives {br : BitReader} {k z : ℕ} {tail : List Bool} (hbr : br.Ready)
    (hrest : br.rest = List.replicate k false ++ true :: tail) :
    Gives (br.readZeros z) (z + k) tail := by
  induction k using Nat.strong_induction_on generalizing br z with
  | _ k ih =>
    obtain ⟨br', hok, hsound, hsame, hfull, -, hroom⟩ := topUp_spec hbr (show 1 ≤ 56 by decide)
    rw [hrest] at hsame
    have hnonempty : br'.nbits ≠ 0 := by
      rw [hrest] at hfull
      simp at hfull
      omega
    have hlt : br'.nbits < 64 := by
      by_cases hzero : br.nbits = 0
      · exact hroom hzero
      · have hkept : br.topUp 1 = .ok br := if_neg (by omega)
        rw [← Except.ok.inj (hkept.symm.trans hok)]
        exact hbr.2
    have hbit : ∀ i < br'.nbits, i ≤ k → br'.acc.getMsbD i = decide (i = k) := by
      intro i hi hik
      rw [← hsound.held i hi, hsame, getD_unary hik]
    rw [readZeros]
    split
    · rename_i fault htop
      rw [hok] at htop
      cases htop
    · rename_i br₁ htop
      obtain rfl := Except.ok.inj (hok.symm.trans htop)
      rw [dif_neg hnonempty]
      dsimp only
      by_cases hk : k < br'.nbits
      · -- the one is among the bits held
        have hrun : leadingZeros br'.acc = k :=
          leadingZeros_eq (by omega) (fun i hi => by rw [hbit i (by omega) hi.le]; simp [hi.ne])
            (by rw [hbit k hk le_rfl]; simp)
        obtain ⟨br'', hconsume, hsound'', hnbits, hrest''⟩ :=
          consume_spec (n := k + 1) hsound (by omega) (by omega)
        rw [hrun, if_pos hk]
        refine ⟨br'', by simp [hconsume, bind, Except.bind], ⟨hsound'', by omega⟩, ?_⟩
        rw [hrest'', hsame, ← List.drop_drop, List.drop_left' (List.length_replicate ..)]
        rfl
      · -- every bit held is zero, and the bits below them are read again
        have hrun : br'.nbits ≤ leadingZeros br'.acc :=
          le_leadingZeros hlt.le (fun i hi => by rw [hbit i hi (by omega)]; simp; omega)
        rw [if_neg (by omega)]
        obtain ⟨hready, hdrop⟩ := drop_held hsound
        have hleft : BitReader.rest { br' with acc := 0, nbits := 0 } =
            List.replicate (k - br'.nbits) false ++ true :: tail := by
          rw [hdrop, hsame, List.drop_append_of_le_length (by simp; omega), List.drop_replicate]
        have hgives := ih (k - br'.nbits) (by omega) (z := z + br'.nbits) hready hleft
        rwa [show z + br'.nbits + (k - br'.nbits) = z + k by omega] at hgives

/-- A Rice-coded read gives the value its code holds. -/
theorem BitReader.readRiceValue_gives {br : BitReader} {fs : ℕ} {v : U64} {tail : List Bool}
    (hbr : br.Ready) (hfs : fs < 64) (hrest : br.rest = riceBits fs v.toNat ++ tail) :
    Gives (br.readRiceValue fs) v tail := by
  rw [riceBits, List.append_assoc, List.cons_append] at hrest
  obtain ⟨br₁, hok₁, hready₁, hrest₁⟩ := readZeros_gives (z := 0) hbr hrest
  have hlow : (v &&& lowBits fs).toNat = v.toNat % 2 ^ fs := toNat_and_lowBits v hfs.le
  rw [← natBits_mod, ← hlow] at hrest₁
  obtain ⟨br₂, hok₂, hready₂, hrest₂⟩ := read_gives hready₁ hfs.le (by
    rw [hlow]
    exact Nat.mod_lt _ (Nat.two_pow_pos _)) hrest₁
  have hhigh : (BitVec.ofNat 64 (v.toNat / 2 ^ fs)).toNat = v.toNat / 2 ^ fs := by
    rw [BitVec.toNat_ofNat, Nat.mod_eq_of_lt (lt_of_le_of_lt (Nat.div_le_self _ _) v.isLt)]
  refine ⟨br₂, ?_, hready₂, hrest₂⟩
  rw [readRiceValue, hok₁]
  simp [bind, Except.bind, shl, hfs, hok₂, join_eq hhigh hlow]

end FitsWell.Rice
