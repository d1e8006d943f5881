import FitsWell.FitsError
import FitsWell.Library.Spans
import Mathlib.Algebra.Ring.Int.Defs
import Mathlib.Tactic.Linarith
import Mathlib.Tactic.Positivity
import Mathlib.Tactic.Ring

/-!
# Slices and 64-bit integers

Reads and writes of a slice panic outside its bounds. A signed 64-bit value is an
integer in its range; its bitwise operations are those of its two's-complement word.
-/

namespace FitsWell

variable {α : Type}

/-! ## Slices -/

/-- The element of a slice at `i`. -/
def load (a : List α) (i : ℕ) : Outcome α :=
  match a[i]? with
  | some v => .ok v
  | none => abort .indexOutOfBounds

/-- A slice with its element at `i` replaced. -/
def store (a : List α) (i : ℕ) (v : α) : Outcome (List α) :=
  if i < a.length then .ok (a.set i v) else abort .indexOutOfBounds

/-- `values[start..start + width]`. -/
def subslice (values : List α) (start width : ℕ) : Outcome (List α) :=
  if start + width ≤ values.length then
    .ok ((values.drop start).take width)
  else
    abort .indexOutOfBounds

/-- A slice with its `width` elements from `di` on replaced by those of `src` from `si`
on. Within one slice the elements are taken before any is replaced. -/
def copySlice (dst : List α) (di : ℕ) (src : List α) (si width : ℕ) : Outcome (List α) :=
  if di + width ≤ dst.length ∧ si + width ≤ src.length then
    .ok (dst.take di ++ (src.drop si).take width ++ dst.drop (di + width))
  else
    abort .indexOutOfBounds

theorem load_of_getElem? {a : List α} {i : ℕ} {v : α} (h : a[i]? = some v) : load a i = .ok v := by
  rw [load, h]

theorem getElem?_of_load {a : List α} {i : ℕ} {v : α} (h : load a i = .ok v) :
    a[i]? = some v := by
  unfold load at h
  split at h
  · rename_i hget
    rw [hget, Except.ok.inj h]
  · cases h

theorem subslice_of_le {values : List α} {start width : ℕ} (h : start + width ≤ values.length) :
    subslice values start width = .ok ((values.drop start).take width) := if_pos h

theorem subslice_eq_ok_iff {values part : List α} {start width : ℕ} :
    subslice values start width = .ok part ↔
      start + width ≤ values.length ∧ (values.drop start).take width = part := by
  unfold subslice
  split <;> simp_all [abort]

/-- A store inside a slice succeeds. -/
theorem store_of_lt {a : List α} {i : ℕ} (v : α) (h : i < a.length) :
    store a i v = .ok (a.set i v) := if_pos h

/-- A slice of `n` elements that have `P`. -/
structure Slice (P : α → Prop) (n : ℕ) (a : List α) : Prop where
  length_eq : a.length = n
  all : ∀ v ∈ a, P v

theorem slice_replicate {P : α → Prop} {v : α} (n : ℕ) (h : P v) :
    Slice P n (List.replicate n v) :=
  ⟨List.length_replicate, fun _ hw => (List.mem_replicate.mp hw).2 ▸ h⟩

/-- An element of a slice is read inside it. -/
theorem Slice.load {P : α → Prop} {n i : ℕ} {a : List α} (h : Slice P n a) (hi : i < n) :
    Returns P (load a i) := by
  have hlt : i < a.length := h.length_eq.symm ▸ hi
  exact .of_ok (load_of_getElem? (List.getElem?_eq_getElem hlt)) (h.all _ (List.getElem_mem hlt))

/-- An element of a slice is replaced inside it. -/
theorem Slice.store {P : α → Prop} {n i : ℕ} {v : α} {a : List α} (h : Slice P n a) (hi : i < n)
    (hv : P v) : Returns (Slice P n) (store a i v) := by
  refine .of_ok (store_of_lt v (h.length_eq.symm ▸ hi)) ⟨by simp [h.length_eq], ?_⟩
  intro w hw
  rcases List.mem_or_eq_of_mem_set hw with hold | rfl
  · exact h.all w hold
  · exact hv

/-- A slice's elements after a copy. -/
theorem copySlice_of_le {dst src : List α} {di si width : ℕ} (hdst : di + width ≤ dst.length)
    (hsrc : si + width ≤ src.length) :
    ∃ a, copySlice dst di src si width = .ok a ∧ a.length = dst.length ∧
      ∀ i, a[i]? = if di ≤ i ∧ i < di + width then src[si + (i - di)]? else dst[i]? := by
  refine ⟨_, if_pos ⟨hdst, hsrc⟩, ?_, fun i => ?_⟩
  · simp only [List.length_append, List.length_take, List.length_drop]
    omega
  · have hfront : (dst.take di).length = di := by rw [List.length_take]; omega
    have hmiddle : ((src.drop si).take width).length = width := by
      rw [List.length_take, List.length_drop]; omega
    by_cases hlow : i < di
    · rw [if_neg (by omega), List.append_assoc, List.getElem?_append_left (by omega),
        List.getElem?_take_of_lt hlow]
    · by_cases hmid : i < di + width
      · rw [if_pos ⟨by omega, hmid⟩, List.append_assoc, List.getElem?_append_right (by omega),
          List.getElem?_append_left (by omega), hfront, List.getElem?_take_of_lt (by omega),
          List.getElem?_drop]
      · rw [if_neg (by omega), List.getElem?_append_right (by
          rw [List.length_append]; omega), List.getElem?_drop, List.length_append]
        congr 1
        omega

/-- A copy over a part of as many elements. -/
theorem copySlice_part {front part back src : List α} {di width : ℕ} (hfront : front.length = di)
    (hpart : part.length = width) (hsrc : src.length = width) :
    copySlice (front ++ part ++ back) di src 0 width = .ok (front ++ src ++ back) := by
  subst hfront hpart
  have hroom : front.length + part.length ≤ (front ++ part ++ back).length ∧
      0 + part.length ≤ src.length := by
    rw [List.length_append, List.length_append]
    omega
  rw [copySlice, if_pos hroom, List.drop_zero, List.take_of_length_le hsrc.le,
    ← List.length_append, List.drop_left, List.append_assoc front part back, List.take_left]

theorem subslice_eq {a : List α} {start width : ℕ} (h : start + width ≤ a.length) :
    subslice a start width = .ok (sliceOf a ⟨start, start + width⟩) := by
  rw [subslice_of_le h, sliceOf, Span.len, Nat.add_sub_cancel_left]

/-- A copy changes its range only, to the elements copied. -/
theorem copySlice_agree {dst src out : List α} {di width : ℕ} (hwidth : src.length = width)
    (h : copySlice dst di src 0 width = .ok out) :
    di + width ≤ dst.length ∧ out.length = dst.length ∧
      AgreeOutside dst out ⟨di, di + width⟩ ∧ sliceOf out ⟨di, di + width⟩ = src := by
  have hroom : di + width ≤ dst.length := by
    unfold copySlice at h
    split at h
    · rename_i hroom
      exact hroom.1
    · cases h
  obtain ⟨out', hok, hlength, hget⟩ := copySlice_of_le hroom
    (show 0 + width ≤ src.length by omega)
  obtain rfl := Except.ok.inj (hok.symm.trans h)
  refine ⟨hroom, hlength, ⟨hlength.ge, fun k _ hout => ?_⟩, ?_⟩
  · rw [hget, if_neg (by dsimp only at hout; omega)]
  · apply List.ext_getElem?
    intro k
    rw [getElem?_sliceOf]
    simp only [Span.len, Nat.add_sub_cancel_left]
    split
    · rw [hget, if_pos (by omega), Nat.zero_add, Nat.add_sub_cancel_left]
    · rw [List.getElem?_eq_none (by omega)]

/-! ## Signed 64-bit values -/

/-- Whether an integer is an `i64`. -/
def FitsI64 (v : ℤ) : Prop := -2 ^ 63 ≤ v ∧ v < 2 ^ 63

instance (v : ℤ) : Decidable (FitsI64 v) := inferInstanceAs (Decidable (_ ∧ _))

/-- The result of an operation on `i64`s, which panics on overflow. -/
def checkI64 (v : ℤ) : Outcome ℤ := if FitsI64 v then .ok v else abort .arithmeticOverflow

theorem checkI64_of_fits {v : ℤ} (h : FitsI64 v) : checkI64 v = .ok v := if_pos h

theorem checkI64_eq_ok_iff {v w : ℤ} : checkI64 v = .ok w ↔ FitsI64 v ∧ v = w := by
  unfold checkI64
  split <;> simp_all [abort]

/-- The bitwise and of two `i64`s. -/
def and64 (x y : ℤ) : ℤ := (BitVec.ofInt 64 x &&& BitVec.ofInt 64 y).toInt

/-- The bitwise or of two `i64`s. -/
def or64 (x y : ℤ) : ℤ := (BitVec.ofInt 64 x ||| BitVec.ofInt 64 y).toInt

/-- The bitwise exclusive or of two `i64`s. -/
def xor64 (x y : ℤ) : ℤ := (BitVec.ofInt 64 x ^^^ BitVec.ofInt 64 y).toInt

/-- A bitwise and is an `i64`. -/
theorem fitsI64_and64 (x y : ℤ) : FitsI64 (and64 x y) :=
  ⟨BitVec.le_toInt _, BitVec.toInt_lt⟩

theorem toInt_ofInt_of_fits {v : ℤ} (h : FitsI64 v) : (BitVec.ofInt 64 v).toInt = v := by
  obtain ⟨hlow, hhigh⟩ := h
  rw [BitVec.toInt_ofInt, Int.bmod_eq_of_le (by norm_num; omega) (by norm_num; omega)]

/-- A bit of an integer's word is a binary digit of the integer. -/
theorem getLsbD_ofInt {i : ℕ} (v : ℤ) (hi : i < 64) :
    (BitVec.ofInt 64 v).getLsbD i = decide (v / 2 ^ i % 2 = 1) := by
  have hword : ((BitVec.ofInt 64 v).toNat : ℤ) = v % 2 ^ 64 := by
    rw [BitVec.toNat_ofInt]
    norm_num
    omega
  have hsplit : (2 : ℤ) ^ 64 = 2 ^ i * 2 * 2 ^ (63 - i) := by
    rw [← pow_succ, ← pow_add]
    congr 1
    omega
  have hdigit : v % 2 ^ 64 / 2 ^ i % 2 = v / 2 ^ i % 2 := by
    have hpos : (2 : ℤ) ^ i ≠ 0 := by positivity
    have hv := Int.mul_ediv_add_emod v (2 ^ 64)
    have hquotient : v / 2 ^ i = v % 2 ^ 64 / 2 ^ i + 2 * (2 ^ (63 - i) * (v / 2 ^ 64)) := by
      conv_lhs => rw [← hv]
      rw [show (2 : ℤ) ^ 64 * (v / 2 ^ 64) + v % 2 ^ 64 =
        v % 2 ^ 64 + 2 ^ i * (2 * (2 ^ (63 - i) * (v / 2 ^ 64))) by rw [hsplit]; ring,
        Int.add_mul_ediv_left _ _ hpos]
    rw [hquotient, Int.add_mul_emod_self_left]
  rw [← BitVec.testBit_toNat, Nat.testBit_eq_decide_div_mod_eq]
  congr 1
  rw [eq_iff_iff, ← hdigit, ← hword]
  norm_cast

/-- An operation on words is the `i64` whose digits it gives. -/
theorem toInt_eq_of_digits {word : BitVec 64} {v : ℤ} (hv : FitsI64 v)
    (hdigits : ∀ i < 64, word.getLsbD i = decide (v / 2 ^ i % 2 = 1)) : word.toInt = v := by
  have hword : word = BitVec.ofInt 64 v :=
    BitVec.eq_of_getLsbD_eq (fun i hi => by rw [hdigits i hi, getLsbD_ofInt v hi])
  rw [hword, toInt_ofInt_of_fits hv]

/-- The multiple of a power of two below an `i64` is one too. -/
theorem fitsI64_round {v : ℤ} {m : ℕ} (hv : FitsI64 v) (hm : m < 63) :
    FitsI64 (v / 2 ^ m * 2 ^ m) := by
  have hpos : (0 : ℤ) < 2 ^ m := by positivity
  have hsplit : (2 : ℤ) ^ 63 = 2 ^ (63 - m) * 2 ^ m := by
    rw [← pow_add]
    congr 1
    omega
  have hle : v / 2 ^ m * 2 ^ m ≤ v := Int.ediv_mul_le v hpos.ne'
  have hlow : -2 ^ (63 - m) ≤ v / 2 ^ m := by
    rw [Int.le_ediv_iff_mul_le hpos, neg_mul, ← hsplit]
    exact hv.1
  refine ⟨?_, lt_of_le_of_lt hle hv.2⟩
  calc -2 ^ 63 = -2 ^ (63 - m) * 2 ^ m := by rw [neg_mul, ← hsplit]
    _ ≤ v / 2 ^ m * 2 ^ m := Int.mul_le_mul_of_nonneg_right hlow hpos.le

/-- The digits of a multiple of a power of two. -/
theorem digit_mul_two_pow (v : ℤ) (m i : ℕ) :
    v * 2 ^ m / 2 ^ i % 2 = if i < m then 0 else v / 2 ^ (i - m) % 2 := by
  split
  · rename_i h
    have hsplit : (2 : ℤ) ^ m = 2 ^ i * (2 * 2 ^ (m - i - 1)) := by
      rw [← pow_succ', ← pow_add]
      congr 1
      omega
    rw [hsplit, mul_left_comm, Int.mul_ediv_cancel_left _ (by positivity), mul_left_comm,
      Int.mul_emod_right]
  · rename_i h
    have hsplit : (2 : ℤ) ^ i = 2 ^ m * 2 ^ (i - m) := by
      rw [← pow_add]
      congr 1
      omega
    rw [hsplit, ← Int.ediv_ediv_of_nonneg (by positivity), Int.mul_ediv_cancel _ (by positivity)]

/-- The digits above a place. -/
theorem digit_div_two_pow (v : ℤ) (m i : ℕ) : v / 2 ^ m / 2 ^ i = v / 2 ^ (m + i) := by
  rw [Int.ediv_ediv_of_nonneg (by positivity), ← pow_add]

/-- A power of two has one digit. -/
theorem digit_two_pow (m i : ℕ) : ((2 : ℤ) ^ m / 2 ^ i % 2 = 1) ↔ i = m := by
  have h := digit_mul_two_pow 1 m i
  rw [one_mul] at h
  rw [h]
  split
  · omega
  · rename_i hle
    by_cases heq : i = m
    · subst heq
      simp
    · have hpos : (1 : ℤ) < 2 ^ (i - m) := one_lt_pow₀ (by norm_num) (by omega)
      rw [Int.ediv_eq_zero_of_lt (by norm_num) hpos]
      simp [heq]

/-- Masking by a negated power of two rounds down to a multiple of it. -/
theorem and64_neg_two_pow {v : ℤ} {m : ℕ} (hv : FitsI64 v) (hm : m < 63) :
    and64 v (-2 ^ m) = v / 2 ^ m * 2 ^ m := by
  refine toInt_eq_of_digits (fitsI64_round hv hm) (fun i hi => ?_)
  have hmask : -(2 : ℤ) ^ m = -1 * 2 ^ m := by ring
  have hones : ∀ k : ℕ, (-1 : ℤ) / 2 ^ k = -1 := by
    intro k
    have hpos : (0 : ℤ) < 2 ^ k := by positivity
    rw [Int.neg_one_ediv, Int.sign_eq_one_of_pos hpos]
  rw [BitVec.getLsbD_and, getLsbD_ofInt _ hi, getLsbD_ofInt _ hi, hmask, digit_mul_two_pow,
    digit_mul_two_pow, hones]
  split
  · simp
  · rw [digit_div_two_pow, show m + (i - m) = i by omega]
    simp

/-- Masking by a power of two keeps its digit. -/
theorem and64_two_pow {v : ℤ} {m : ℕ} (hm : m < 63) :
    and64 v (2 ^ m) = v / 2 ^ m % 2 * 2 ^ m := by
  have hpos : (0 : ℤ) < 2 ^ m := by positivity
  have hle : (2 : ℤ) ^ m ≤ 2 ^ 62 := pow_le_pow_right₀ (by norm_num) (by omega)
  have hdigit := Int.emod_two_eq (v / 2 ^ m)
  refine toInt_eq_of_digits ?_ (fun i hi => ?_)
  · rcases hdigit with h | h <;> rw [h] <;> constructor <;> linarith
  · have hmask : decide ((2 : ℤ) ^ m / 2 ^ i % 2 = 1) = decide (i = m) :=
      decide_eq_decide.mpr (digit_two_pow m i)
    rw [BitVec.getLsbD_and, getLsbD_ofInt _ hi, getLsbD_ofInt _ hi, hmask]
    have hvalue : v / 2 ^ m % 2 * 2 ^ m / 2 ^ i % 2 = if i = m then v / 2 ^ m % 2 else 0 := by
      rw [digit_mul_two_pow]
      rcases Nat.lt_trichotomy i m with h | h | h
      · rw [if_pos h, if_neg (by omega)]
      · subst h
        simp
      · have hbig : (1 : ℤ) < 2 ^ (i - m) := one_lt_pow₀ (by norm_num) (by omega)
        rw [if_neg (by omega), if_neg (by omega), Int.ediv_eq_zero_of_lt (by omega) (by omega)]
        rfl
    rw [hvalue]
    by_cases heq : i = m
    · subst heq
      simp
    · simp [heq]

/-- A digit of an exclusive or is the parity of the digits. -/
theorem digit_xor64 (x y : ℤ) {i : ℕ} (hi : i < 63) :
    xor64 x y / 2 ^ i % 2 = (x / 2 ^ i + y / 2 ^ i) % 2 := by
  have hword : BitVec.ofInt 64 (xor64 x y) = BitVec.ofInt 64 x ^^^ BitVec.ofInt 64 y := by
    rw [xor64, BitVec.ofInt_toInt]
  have hbit := congrArg (fun word => word.getLsbD i) hword
  simp only [BitVec.getLsbD_xor, getLsbD_ofInt _ (show i < 64 by omega)] at hbit
  have hx := Int.emod_two_eq (x / 2 ^ i)
  have hy := Int.emod_two_eq (y / 2 ^ i)
  have hz := Int.emod_two_eq (xor64 x y / 2 ^ i)
  rw [Int.add_emod]
  rcases hx with hx | hx <;> rcases hy with hy | hy <;> rcases hz with hz | hz <;>
    simp [hx, hy, hz] at hbit ⊢

/-- An `i64` that is a multiple of a power of two takes a digit below it by an or. -/
theorem or64_of_digit {v d : ℤ} {m : ℕ} (hfit : FitsI64 (v * 2 ^ (m + 1) + d * 2 ^ m))
    (hd : d = 0 ∨ d = 1) :
    or64 (v * 2 ^ (m + 1)) (d * 2 ^ m) = v * 2 ^ (m + 1) + d * 2 ^ m := by
  refine toInt_eq_of_digits hfit (fun i hi => ?_)
  have hsum : v * 2 ^ (m + 1) + d * 2 ^ m = (2 * v + d) * 2 ^ m := by ring
  rw [BitVec.getLsbD_or, getLsbD_ofInt _ hi, getLsbD_ofInt _ hi, hsum, digit_mul_two_pow,
    digit_mul_two_pow, digit_mul_two_pow]
  by_cases hlow : i < m
  · simp [hlow, show i < m + 1 by omega]
  · by_cases heq : i = m
    · subst heq
      simp
    · have hhalf : (2 * v + d) / 2 ^ (i - m) = v / 2 ^ (i - (m + 1)) := by
        rw [show i - m = 1 + (i - (m + 1)) by omega, ← digit_div_two_pow]
        congr 1
        omega
      have hdigit : d / 2 ^ (i - m) = 0 := by
        have hpos : (1 : ℤ) < 2 ^ (i - m) := one_lt_pow₀ (by norm_num) (by omega)
        exact Int.ediv_eq_zero_of_lt (by omega) (by omega)
      rw [if_neg (by omega), if_neg hlow, if_neg hlow, hhalf, hdigit]
      simp

end FitsWell
