import Mathlib.Data.Nat.Digits.Lemmas

/-!
# Decimal numerals

The numeral of a number, as ASCII digits, and the number that a string of digits spells.
-/

namespace FitsWell.Decimal

/-- The ASCII digit of `d`. -/
def digitByte (d : ℕ) : UInt8 := UInt8.ofNat (0x30 + d)

/-- The number an ASCII digit spells. -/
def digitValue (byte : UInt8) : ℕ := byte.toNat - 0x30

/-- An ASCII digit. -/
def IsDigit (byte : UInt8) : Prop := 0x30 ≤ byte.toNat ∧ byte.toNat ≤ 0x39

/-- The numeral of a number, with no zeros before it. -/
def numeral (n : ℕ) : List UInt8 :=
  if n = 0 then [digitByte 0] else (Nat.digits 10 n).reverse.map digitByte

/-- The number that digits spell. -/
def value (digits : List UInt8) : ℕ := digits.foldl (fun acc byte => 10 * acc + digitValue byte) 0

theorem digitByte_toNat {d : ℕ} (h : d < 10) : (digitByte d).toNat = 0x30 + d := by
  rw [digitByte, UInt8.toNat_ofNat']
  omega

theorem isDigit_digitByte {d : ℕ} (h : d < 10) : IsDigit (digitByte d) := by
  unfold IsDigit
  rw [digitByte_toNat h]
  omega

@[simp] theorem digitValue_digitByte {d : ℕ} (h : d < 10) : digitValue (digitByte d) = d := by
  rw [digitValue, digitByte_toNat h, Nat.add_sub_cancel_left]

theorem digitByte_digitValue {byte : UInt8} (h : IsDigit byte) :
    digitByte (digitValue byte) = byte := by
  apply UInt8.toNat_inj.mp
  obtain ⟨hlow, hhigh⟩ := h
  rw [digitByte_toNat (by unfold digitValue; omega)]
  unfold digitValue
  omega

theorem digitValue_lt {byte : UInt8} (h : IsDigit byte) : digitValue byte < 10 := by
  unfold digitValue
  have := h.2
  omega

theorem numeral_ne_nil (n : ℕ) : numeral n ≠ [] := by
  unfold numeral
  split
  · exact List.cons_ne_nil _ _
  · rename_i hzero
    simpa [Nat.digits_eq_nil_iff_eq_zero] using hzero

theorem isDigit_numeral {n : ℕ} {byte : UInt8} (h : byte ∈ numeral n) : IsDigit byte := by
  unfold numeral at h
  split at h
  · rw [List.mem_singleton.mp h]
    exact isDigit_digitByte (by omega)
  · obtain ⟨d, hd, rfl⟩ := List.mem_map.mp h
    exact isDigit_digitByte (Nat.digits_lt_base (by omega) (List.mem_reverse.mp hd))

/-- Digits spell the number whose base ten digits they are. -/
theorem value_map {digits : List ℕ} (h : ∀ d ∈ digits, d < 10) :
    value (digits.reverse.map digitByte) = Nat.ofDigits 10 digits := by
  induction digits with
  | nil => rfl
  | cons d digits ih =>
    have hd := h d List.mem_cons_self
    have ih := ih (fun e he => h e (List.mem_cons_of_mem d he))
    unfold value at ih ⊢
    rw [List.reverse_cons, List.map_append, List.foldl_append, ih, Nat.ofDigits_cons]
    simp only [List.map_cons, List.map_nil, List.foldl_cons, List.foldl_nil]
    rw [digitValue_digitByte hd]
    exact Nat.add_comm _ _

/-- A number's numeral spells it. -/
theorem value_numeral (n : ℕ) : value (numeral n) = n := by
  unfold numeral
  split
  · rename_i hzero
    rw [hzero]
    rfl
  · rw [value_map (fun d hd => Nat.digits_lt_base (by omega) hd), Nat.ofDigits_digits]

/-- Digits with no zero first are the numeral of the number they spell. -/
theorem numeral_value {digits : List UInt8} (hdigits : ∀ byte ∈ digits, IsDigit byte)
    (hfirst : digits.head? ≠ some 0x30) (hne : digits ≠ []) : numeral (value digits) = digits := by
  obtain ⟨first, rest, rfl⟩ := List.exists_cons_of_ne_nil hne
  have hbase : ∀ d ∈ ((first :: rest).map digitValue).reverse, d < 10 := by
    intro d hd
    obtain ⟨byte, hbyte, rfl⟩ := List.mem_map.mp (List.mem_reverse.mp hd)
    exact digitValue_lt (hdigits byte hbyte)
  have hback : ((first :: rest).map digitValue).map digitByte = first :: rest := by
    rw [List.map_map, List.map_congr_left (f := digitByte ∘ digitValue) (g := id)
      (fun byte hbyte => digitByte_digitValue (hdigits byte hbyte)), List.map_id]
  have hspells : value (first :: rest) =
      Nat.ofDigits 10 ((first :: rest).map digitValue).reverse := by
    rw [← value_map hbase, List.reverse_reverse, hback]
  have hlast : ∀ h, ((first :: rest).map digitValue).reverse.getLast h ≠ 0 := by
    intro h hzero
    rw [List.getLast_reverse, List.head_map, List.head_cons] at hzero
    have hfirst' := digitByte_digitValue (hdigits first List.mem_cons_self)
    rw [hzero] at hfirst'
    exact hfirst (by rw [← hfirst']; rfl)
  have hdigits' := Nat.digits_ofDigits 10 (by omega) _ hbase hlast
  have hpos : value (first :: rest) ≠ 0 := by
    intro hzero
    rw [← hspells, hzero, Nat.digits_zero] at hdigits'
    simp at hdigits'
  rw [numeral, if_neg hpos, hspells, hdigits', List.reverse_reverse, hback]

/-- A number below a power of ten has no more digits than the power has zeros. -/
theorem numeral_length_le {n k : ℕ} (hk : 0 < k) (h : n < 10 ^ k) : (numeral n).length ≤ k := by
  unfold numeral
  split
  · exact hk
  · rw [List.length_map, List.length_reverse]
    exact (Nat.digits_length_le_iff (by omega) n).mpr h

/-- Digits spell a number below the power of ten of as many zeros. -/
theorem value_lt {digits : List UInt8} (h : ∀ byte ∈ digits, IsDigit byte) :
    value digits < 10 ^ digits.length := by
  have hbase : ∀ d ∈ (digits.map digitValue).reverse, d < 10 := by
    intro d hd
    obtain ⟨byte, hbyte, rfl⟩ := List.mem_map.mp (List.mem_reverse.mp hd)
    exact digitValue_lt (h byte hbyte)
  have hback : (digits.map digitValue).map digitByte = digits := by
    rw [List.map_map, List.map_congr_left (f := digitByte ∘ digitValue) (g := id)
      (fun byte hbyte => digitByte_digitValue (h byte hbyte)), List.map_id]
  have hlt := Nat.ofDigits_lt_base_pow_length (b := 10) (by omega) hbase
  rw [← value_map hbase, List.reverse_reverse, hback, List.length_reverse, List.length_map] at hlt
  exact hlt

/-! ## Zeros first -/

/-- A numeral with as many zeros first as make it `width` bytes. -/
def padded (width n : ℕ) : List UInt8 :=
  List.replicate (width - (numeral n).length) 0x30 ++ numeral n

theorem value_replicate_append (count : ℕ) (digits : List UInt8) :
    value (List.replicate count 0x30 ++ digits) = value digits := by
  induction count with
  | zero => rfl
  | succ count ih =>
    rw [List.replicate_succ, List.cons_append, ← ih]
    rfl

theorem value_padded (width n : ℕ) : value (padded width n) = n := by
  rw [padded, value_replicate_append, value_numeral]

theorem isDigit_padded {width n : ℕ} {byte : UInt8} (h : byte ∈ padded width n) :
    IsDigit byte := by
  rcases List.mem_append.mp h with hzero | hdigit
  · rw [List.eq_of_mem_replicate hzero]
    exact isDigit_digitByte (d := 0) (by omega)
  · exact isDigit_numeral hdigit

theorem length_padded {width n : ℕ} (hwidth : 0 < width) (h : n < 10 ^ width) :
    (padded width n).length = width := by
  have hle := numeral_length_le hwidth h
  rw [padded, List.length_append, List.length_replicate]
  omega

end FitsWell.Decimal
