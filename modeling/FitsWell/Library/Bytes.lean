import Mathlib.Data.List.Basic
import Mathlib.Tactic.Ring

/-!
# Big-endian bytes

A natural number as a fixed count of bytes, most significant first, and back. The
two conversions are inverse on numbers below the width's bound, and the bytes of a
sequence of fixed-width words can be read back word by word.
-/

namespace FitsWell.Bytes

/-- The low `count` bytes of `value`, most significant first. -/
def beBytes : ℕ → ℕ → List UInt8
  | 0, _ => []
  | count + 1, value => UInt8.ofNat (value / 256 ^ count % 256) :: beBytes count value

/-- The number that `bytes` spell, most significant first. -/
def ofBeBytes (bytes : List UInt8) : ℕ := bytes.foldl (fun acc byte => 256 * acc + byte.toNat) 0

@[simp] theorem beBytes_length (count value : ℕ) : (beBytes count value).length = count := by
  induction count with
  | zero => rfl
  | succ count ih => simp [beBytes, ih]

/-- Reading on from an accumulated prefix shifts the prefix past the bytes read. -/
theorem foldl_ofBeBytes (bytes : List UInt8) (start : ℕ) :
    bytes.foldl (fun acc byte => 256 * acc + byte.toNat) start =
      start * 256 ^ bytes.length + ofBeBytes bytes := by
  induction bytes generalizing start with
  | nil => simp [ofBeBytes]
  | cons byte bytes ih =>
    simp only [List.foldl_cons, List.length_cons, ofBeBytes, Nat.mul_zero, Nat.zero_add]
    rw [ih (256 * start + byte.toNat), ih byte.toNat]
    ring

/-- The first byte of a word is its most significant digit. -/
theorem ofBeBytes_cons (byte : UInt8) (bytes : List UInt8) :
    ofBeBytes (byte :: bytes) = byte.toNat * 256 ^ bytes.length + ofBeBytes bytes := by
  have h := foldl_ofBeBytes bytes byte.toNat
  simpa [ofBeBytes] using h

/-- Decoding the low bytes of a number gives the number reduced to that width. -/
theorem ofBeBytes_beBytes (count value : ℕ) :
    ofBeBytes (beBytes count value) = value % 256 ^ count := by
  induction count with
  | zero => simp [beBytes, ofBeBytes, Nat.mod_one]
  | succ count ih =>
    have hdigit : (UInt8.ofNat (value / 256 ^ count % 256)).toNat = value / 256 ^ count % 256 := by
      simp
    rw [beBytes, ofBeBytes_cons, hdigit, beBytes_length, ih, pow_succ, Nat.mod_mul]
    ring

/-- A number that fits its width survives the round trip through its bytes. -/
theorem ofBeBytes_beBytes_of_lt {count value : ℕ} (hvalue : value < 256 ^ count) :
    ofBeBytes (beBytes count value) = value := by
  rw [ofBeBytes_beBytes, Nat.mod_eq_of_lt hvalue]

/-- The number some bytes spell fits their width. -/
theorem ofBeBytes_lt (bytes : List UInt8) : ofBeBytes bytes < 256 ^ bytes.length := by
  induction bytes with
  | nil => simp [ofBeBytes]
  | cons byte bytes ih =>
    have hbyte : byte.toNat < 256 := byte.toNat_lt
    have hstep : byte.toNat * 256 ^ bytes.length ≤ 255 * 256 ^ bytes.length :=
      Nat.mul_le_mul_right _ (by omega)
    rw [ofBeBytes_cons, List.length_cons, pow_succ]
    omega

/-- The low bytes of a number do not see what is above them. -/
theorem beBytes_add_mul (count value k : ℕ) :
    beBytes count (value + 256 ^ count * k) = beBytes count value := by
  induction count generalizing k with
  | zero => rfl
  | succ count ih =>
    have hsplit : value + 256 ^ (count + 1) * k = value + 256 ^ count * (256 * k) := by ring
    have hpos : 0 < 256 ^ count := Nat.pow_pos (by decide)
    rw [beBytes, hsplit, ih, beBytes, Nat.add_mul_div_left _ _ hpos, Nat.add_mul_mod_self_left]

/-- Bytes come back from the number they spell. -/
theorem beBytes_ofBeBytes (bytes : List UInt8) : beBytes bytes.length (ofBeBytes bytes) = bytes := by
  induction bytes with
  | nil => rfl
  | cons byte bytes ih =>
    have hpos : 0 < 256 ^ bytes.length := Nat.pow_pos (by decide)
    have hdigit : (ofBeBytes bytes + 256 ^ bytes.length * byte.toNat) / 256 ^ bytes.length % 256 =
        byte.toNat := by
      rw [Nat.add_mul_div_left _ _ hpos, Nat.div_eq_of_lt (ofBeBytes_lt bytes), Nat.zero_add,
        Nat.mod_eq_of_lt byte.toNat_lt]
    rw [ofBeBytes_cons, List.length_cons, beBytes, Nat.mul_comm, Nat.add_comm, hdigit,
      UInt8.ofNat_toNat, beBytes_add_mul, ih]

/-- The low `count` bytes of `value`, least significant first. -/
def leBytes (count value : ℕ) : List UInt8 := (beBytes count value).reverse

/-- The number that `bytes` spell, least significant first. -/
def ofLeBytes (bytes : List UInt8) : ℕ := ofBeBytes bytes.reverse

@[simp] theorem leBytes_length (count value : ℕ) : (leBytes count value).length = count := by
  rw [leBytes, List.length_reverse, beBytes_length]

/-- Decoding the low bytes of a number gives the number reduced to that width. -/
theorem ofLeBytes_leBytes (count value : ℕ) :
    ofLeBytes (leBytes count value) = value % 256 ^ count := by
  rw [ofLeBytes, leBytes, List.reverse_reverse, ofBeBytes_beBytes]

section Words

variable {α β : Type} {width : ℕ} {bytes : α → List β}

/-- The bytes of a list of words of one width take that width for each word. -/
theorem length_flatMap_width (hwidth : ∀ a, (bytes a).length = width) (words : List α) :
    (words.flatMap bytes).length = width * words.length := by
  induction words with
  | nil => simp
  | cons word words ih => simp [ih, hwidth]; ring

/-- Skipping whole words of bytes skips as many words. -/
theorem drop_flatMap_width (hwidth : ∀ a, (bytes a).length = width) (words : List α) (index : ℕ) :
    (words.flatMap bytes).drop (width * index) = (words.drop index).flatMap bytes := by
  induction words generalizing index with
  | nil => simp
  | cons word words ih =>
    cases index with
    | zero => simp
    | succ index =>
      have hsplit : width * (index + 1) = (bytes word).length + width * index := by
        rw [hwidth]; ring
      rw [List.flatMap_cons, List.drop_succ_cons, hsplit, List.drop_length_add_append, ih]

/-- The bytes at a word's place are the bytes of that word. -/
theorem take_drop_flatMap_width (hwidth : ∀ a, (bytes a).length = width) {words : List α}
    {index : ℕ} {word : α} (hword : words[index]? = some word) :
    ((words.flatMap bytes).drop (width * index)).take width = bytes word := by
  rw [drop_flatMap_width hwidth]
  obtain ⟨hindex, rfl⟩ := List.getElem?_eq_some_iff.mp hword
  rw [List.drop_eq_getElem_cons hindex, List.flatMap_cons, List.take_append_of_le_length
    (by rw [hwidth]), List.take_of_length_le (by rw [hwidth])]

end Words

end FitsWell.Bytes
