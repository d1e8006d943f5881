import FitsWell.Library.Bytes
import Mathlib.Data.Nat.Bitwise

/-!
# Bits, most significant first

A number's low bits as a list, and the bit string that a byte string spells. A bit
writer or reader is described by the string it has written or has left, so two of them
with different buffers agree through the same strings.
-/

namespace FitsWell.Bits

open Bytes

/-- The low `width` bits of `n`, most significant first. -/
def natBits : ℕ → ℕ → List Bool
  | 0, _ => []
  | width + 1, n => n.testBit width :: natBits width n

/-- The bits that `bytes` spell, most significant first in each byte. -/
def byteBits (bytes : List UInt8) : List Bool := bytes.flatMap fun byte => natBits 8 byte.toNat

/-- The count of halvings that bring `n` to zero: the bits of `n` from its highest one. -/
def bitLength (n : ℕ) : ℕ := if 0 < n then bitLength (n / 2) + 1 else 0
termination_by n

/-- A number has no bits from its bit length on. -/
theorem lt_two_pow_bitLength (n : ℕ) : n < 2 ^ bitLength n := by
  induction n using Nat.strong_induction_on with
  | _ n ih =>
    rw [bitLength]
    split
    · rename_i hpos
      have hhalf := ih (n / 2) (by omega)
      rw [pow_succ]
      omega
    · omega

/-- A number's bit length is at most any width it fits. -/
theorem bitLength_le {n width : ℕ} (h : n < 2 ^ width) : bitLength n ≤ width := by
  induction width generalizing n with
  | zero =>
    obtain rfl : n = 0 := by simpa using h
    rw [bitLength, if_neg (by decide)]
  | succ width ih =>
    rw [bitLength]
    split
    · have hhalf := ih (show n / 2 < 2 ^ width by rw [pow_succ] at h; omega)
      omega
    · omega

@[simp] theorem natBits_length (width n : ℕ) : (natBits width n).length = width := by
  induction width with
  | zero => rfl
  | succ width ih => simp [natBits, ih]

/-- A bit's place counts down from the width. -/
theorem natBits_getElem? {width n i : ℕ} (hi : i < width) :
    (natBits width n)[i]? = some (n.testBit (width - 1 - i)) := by
  induction width generalizing i with
  | zero => omega
  | succ width ih =>
    cases i with
    | zero => simp [natBits]
    | succ i =>
      rw [natBits, List.getElem?_cons_succ, ih (by omega)]
      congr 2
      omega

/-- A list of bits is determined by its length and its bit at each place. -/
theorem eq_natBits_iff {bits : List Bool} {width n : ℕ} (hlength : bits.length = width) :
    bits = natBits width n ↔ ∀ i < width, bits.getD i false = n.testBit (width - 1 - i) := by
  constructor
  · rintro rfl i hi
    simp [List.getD_eq_getElem?_getD, natBits_getElem? hi]
  · intro h
    refine List.ext_getElem? (fun i => ?_)
    by_cases hi : i < width
    · have hbit := h i hi
      rw [List.getD_eq_getElem?_getD, List.getElem?_eq_getElem (by omega), Option.getD_some] at hbit
      rw [natBits_getElem? hi, List.getElem?_eq_getElem (by omega), hbit]
    · rw [List.getElem?_eq_none (by omega), List.getElem?_eq_none (by simp; omega)]

/-- The bits of one width after those above them. -/
theorem natBits_append (high low n : ℕ) :
    natBits (high + low) n = natBits high (n / 2 ^ low) ++ natBits low n := by
  induction high with
  | zero => simp [natBits]
  | succ high ih =>
    rw [Nat.succ_add, natBits, natBits, ih, List.cons_append, Nat.testBit_div_two_pow]

/-- Two numbers with the same low bits have the same bit string. -/
theorem natBits_congr {width m n : ℕ} (h : ∀ i < width, m.testBit i = n.testBit i) :
    natBits width m = natBits width n := by
  induction width with
  | zero => rfl
  | succ width ih =>
    rw [natBits, natBits, h width (Nat.lt_succ_self _),
      ih (fun i hi => h i (Nat.lt_succ_of_lt hi))]

/-- The bits above the width do not matter. -/
theorem natBits_mod (width n : ℕ) : natBits width (n % 2 ^ width) = natBits width n :=
  natBits_congr fun i hi => by simp [Nat.testBit_mod_two_pow, hi]

/-- A string of zeros is the bits of zero. -/
theorem natBits_zero (width : ℕ) : natBits width 0 = List.replicate width false := by
  induction width with
  | zero => rfl
  | succ width ih => rw [natBits, ih, Nat.zero_testBit, List.replicate_succ]

/-- A number that fits its width is determined by its bits. -/
theorem eq_of_natBits_eq {width m n : ℕ} (hm : m < 2 ^ width) (hn : n < 2 ^ width)
    (h : natBits width m = natBits width n) : m = n := by
  refine Nat.eq_of_testBit_eq (fun i => ?_)
  by_cases hi : i < width
  · have hbit := congrArg (fun bits => bits[width - 1 - i]?) h
    simp only [natBits_getElem? (show width - 1 - i < width by omega)] at hbit
    rw [show width - 1 - (width - 1 - i) = i by omega] at hbit
    exact Option.some.inj hbit
  · have hpow : (2 : ℕ) ^ width ≤ 2 ^ i := Nat.pow_le_pow_right (by decide) (by omega)
    rw [Nat.testBit_lt_two_pow (by omega), Nat.testBit_lt_two_pow (by omega)]

/-- Every list of bits spells a number that fits its length. -/
theorem exists_natBits (bits : List Bool) :
    ∃ n < 2 ^ bits.length, bits = natBits bits.length n := by
  induction bits with
  | nil => exact ⟨0, by simp, rfl⟩
  | cons bit bits ih =>
    obtain ⟨n, hn, hbits⟩ := ih
    have hhigh : (bit.toNat * 2 ^ bits.length + n) / 2 ^ bits.length = bit.toNat := by
      rw [Nat.add_comm, Nat.add_mul_div_right _ _ (Nat.two_pow_pos _), Nat.div_eq_of_lt hn,
        Nat.zero_add]
    have hlow : (bit.toNat * 2 ^ bits.length + n) % 2 ^ bits.length = n := by
      rw [Nat.add_comm, Nat.add_mul_mod_self_right, Nat.mod_eq_of_lt hn]
    have hbit : natBits 1 bit.toNat = [bit] := by cases bit <;> rfl
    refine ⟨bit.toNat * 2 ^ bits.length + n, ?_, ?_⟩
    · have hle := Nat.mul_le_mul_right (2 ^ bits.length) bit.toNat_le
      rw [List.length_cons, pow_succ]
      omega
    · rw [List.length_cons, Nat.add_comm bits.length, natBits_append, hhigh, hbit,
        ← natBits_mod bits.length, hlow, ← hbits, List.singleton_append]

/-! ## Byte strings -/

@[simp] theorem byteBits_nil : byteBits [] = [] := rfl

theorem byteBits_cons (byte : UInt8) (bytes : List UInt8) :
    byteBits (byte :: bytes) = natBits 8 byte.toNat ++ byteBits bytes := by
  rw [byteBits, List.flatMap_cons, byteBits]

theorem byteBits_append (front back : List UInt8) :
    byteBits (front ++ back) = byteBits front ++ byteBits back := by
  rw [byteBits, List.flatMap_append, byteBits, byteBits]

@[simp] theorem byteBits_length (bytes : List UInt8) :
    (byteBits bytes).length = 8 * bytes.length :=
  length_flatMap_width (fun _ => natBits_length 8 _) bytes

/-- Skipping whole bytes skips their bits. -/
theorem byteBits_drop (bytes : List UInt8) (count : ℕ) :
    (byteBits bytes).drop (8 * count) = byteBits (bytes.drop count) :=
  drop_flatMap_width (fun _ => natBits_length 8 _) bytes count

/-- The bytes of a number spell its low bits. -/
theorem byteBits_beBytes (count n : ℕ) : byteBits (beBytes count n) = natBits (8 * count) n := by
  induction count with
  | zero => rfl
  | succ count ih =>
    have hbyte : (UInt8.ofNat (n / 256 ^ count % 256)).toNat = n / 2 ^ (8 * count) % 2 ^ 8 := by
      rw [pow_mul]
      simp
    rw [beBytes, byteBits_cons, hbyte, natBits_mod, ih, Nat.mul_succ, Nat.add_comm (8 * count),
      natBits_append]

/-- The number some bytes spell has their bits. -/
theorem natBits_ofBeBytes (bytes : List UInt8) :
    natBits (8 * bytes.length) (ofBeBytes bytes) = byteBits bytes := by
  induction bytes with
  | nil => rfl
  | cons byte bytes ih =>
    have hpow : (256 : ℕ) ^ bytes.length = 2 ^ (8 * bytes.length) := by
      rw [pow_mul]; rfl
    have hlow := ofBeBytes_lt bytes
    have hhigh : (byte.toNat * 256 ^ bytes.length + ofBeBytes bytes) / 2 ^ (8 * bytes.length) =
        byte.toNat := by
      rw [← hpow, Nat.add_comm, Nat.add_mul_div_right _ _ (Nat.pos_of_neZero _),
        Nat.div_eq_of_lt hlow, Nat.zero_add]
    have hmod : natBits (8 * bytes.length) (byte.toNat * 256 ^ bytes.length + ofBeBytes bytes) =
        natBits (8 * bytes.length) (ofBeBytes bytes) := by
      rw [← natBits_mod, ← hpow, Nat.add_comm, Nat.add_mul_mod_self_right,
        Nat.mod_eq_of_lt hlow]
    rw [ofBeBytes_cons, List.length_cons, Nat.mul_succ, Nat.add_comm (8 * bytes.length),
      natBits_append, hhigh, hmod, ih, byteBits_cons]

/-! ## Packing -/

/-- The number that bits spell, most significant first. -/
def ofBits (bits : List Bool) : ℕ := bits.foldl (fun acc bit => 2 * acc + bit.toNat) 0

/-- The bytes that bits fill, most significant first in each byte. -/
def packBits (bits : List Bool) : List UInt8 := beBytes (bits.length / 8) (ofBits bits)

/-- Zero bytes are zero bits. -/
theorem byteBits_replicate_zero (count : ℕ) :
    byteBits (List.replicate count 0) = List.replicate (8 * count) false := by
  induction count with
  | zero => rfl
  | succ count ih =>
    rw [List.replicate_succ, byteBits_cons, ih, UInt8.toNat_zero, natBits_zero,
      List.replicate_append_replicate]
    congr 1
    omega

@[simp] theorem packBits_length (bits : List Bool) : (packBits bits).length = bits.length / 8 :=
  beBytes_length _ _

end FitsWell.Bits
