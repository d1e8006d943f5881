import Mathlib.Data.List.Basic
import Mathlib.Data.List.DropRight
import Mathlib.Data.Nat.Notation

/-!
# Characters and their bytes

A string is its characters, and its places are those of its UTF-8 bytes. A part of a string
starts and ends between two characters: at the byte of an ASCII character, and not inside
one of more bytes.
-/

namespace FitsWell.Utf8

/-- The bytes of characters. -/
def encode (chars : List Char) : List UInt8 := chars.flatMap String.utf8EncodeChar

/-- The characters of ASCII bytes. -/
def ofAscii (bytes : List UInt8) : List Char := bytes.map fun byte => Char.ofNat byte.toNat

/-- A character of one byte. -/
def IsAscii (c : Char) : Prop := c.toNat < 0x80

instance (c : Char) : Decidable (IsAscii c) := inferInstanceAs (Decidable (c.toNat < 0x80))

/-- The characters before the byte `pos`, where it is the first of one or the end. -/
def takeBytes : List Char → ℕ → Option (List Char)
  | _, 0 => some []
  | [], _ + 1 => none
  | c :: chars, pos =>
    if pos < (String.utf8EncodeChar c).length then none
    else (takeBytes chars (pos - (String.utf8EncodeChar c).length)).map (c :: ·)

/-- The characters from the byte `pos` on, where it is the first of one or the end. -/
def dropBytes : List Char → ℕ → Option (List Char)
  | chars, 0 => some chars
  | [], _ + 1 => none
  | c :: chars, pos =>
    if pos < (String.utf8EncodeChar c).length then none
    else dropBytes chars (pos - (String.utf8EncodeChar c).length)

variable {c : Char} {chars front back : List Char} {bytes : List UInt8} {byte : UInt8} {pos : ℕ}

/-! ## Characters -/

theorem utf8EncodeChar_ascii (h : IsAscii c) :
    String.utf8EncodeChar c = [UInt8.ofNat c.toNat] := by
  have hle : c.val.toNat ≤ 0x7f := Nat.le_of_lt_succ h
  rw [String.utf8EncodeChar, if_pos hle]
  rfl

/-- No byte of a character past ASCII is ASCII. -/
theorem le_of_mem_utf8EncodeChar (h : ¬IsAscii c) (hbyte : byte ∈ String.utf8EncodeChar c) :
    0x80 ≤ byte.toNat := by
  have hlt : ¬c.val.toNat ≤ 0x7f := fun hle => h (Nat.lt_succ_of_le hle)
  rw [String.utf8EncodeChar, if_neg hlt] at hbyte
  split at hbyte
  · simp only [List.mem_cons, List.not_mem_nil, or_false] at hbyte
    rcases hbyte with rfl | rfl <;> rw [UInt8.toNat_ofNat'] <;> omega
  split at hbyte
  · simp only [List.mem_cons, List.not_mem_nil, or_false] at hbyte
    rcases hbyte with rfl | rfl | rfl <;> rw [UInt8.toNat_ofNat'] <;> omega
  · simp only [List.mem_cons, List.not_mem_nil, or_false] at hbyte
    rcases hbyte with rfl | rfl | rfl | rfl <;> rw [UInt8.toNat_ofNat'] <;> omega

theorem utf8EncodeChar_length_pos (c : Char) : 0 < (String.utf8EncodeChar c).length :=
  List.length_pos_of_ne_nil String.utf8EncodeChar_ne_nil

theorem utf8EncodeChar_length_eq_one : (String.utf8EncodeChar c).length = 1 ↔ IsAscii c := by
  rw [String.length_utf8EncodeChar, Char.utf8Size_eq_one_iff, IsAscii, UInt32.le_iff_toNat_le]
  exact Nat.lt_succ_iff.symm

@[simp] theorem encode_nil : encode [] = [] := rfl

theorem encode_cons (c : Char) (chars : List Char) :
    encode (c :: chars) = String.utf8EncodeChar c ++ encode chars := List.flatMap_cons

theorem encode_append (front back : List Char) :
    encode (front ++ back) = encode front ++ encode back := List.flatMap_append

theorem toNat_ofNat_byte (byte : UInt8) : (Char.ofNat byte.toNat).toNat = byte.toNat := by
  have hlt := byte.toNat_lt
  have hvalid : byte.toNat.isValidChar := Or.inl (by omega)
  rw [Char.ofNat, dif_pos hvalid]
  rfl

/-- ASCII bytes are those of their characters. -/
theorem encode_ofAscii (h : ∀ byte ∈ bytes, byte.toNat < 0x80) :
    encode (ofAscii bytes) = bytes := by
  induction bytes with
  | nil => rfl
  | cons byte bytes ih =>
    have hbyte : IsAscii (Char.ofNat byte.toNat) := by
      rw [IsAscii, toNat_ofNat_byte]
      exact h byte List.mem_cons_self
    rw [ofAscii, List.map_cons, encode_cons, utf8EncodeChar_ascii hbyte, toNat_ofNat_byte,
      UInt8.ofNat_toNat]
    exact congrArg (byte :: ·) (ih fun other hother => h other (List.mem_cons_of_mem byte hother))

/-! ## Places -/

/-- The characters around an ASCII byte. -/
theorem split_of_ascii (hbyte : (encode chars)[pos]? = some byte) (hascii : byte.toNat < 0x80) :
    ∃ front c back, chars = front ++ c :: back ∧ (encode front).length = pos ∧ IsAscii c := by
  induction chars generalizing pos with
  | nil => cases hbyte
  | cons c chars ih =>
    rw [encode_cons] at hbyte
    by_cases hinside : pos < (String.utf8EncodeChar c).length
    · rw [List.getElem?_append_left hinside] at hbyte
      by_cases hc : IsAscii c
      · have hlength := utf8EncodeChar_length_eq_one.mpr hc
        exact ⟨[], c, chars, rfl, by rw [encode_nil, List.length_nil]; omega, hc⟩
      · have hle := le_of_mem_utf8EncodeChar hc (List.mem_of_getElem? hbyte)
        omega
    · rw [List.getElem?_append_right (Nat.le_of_not_lt hinside)] at hbyte
      obtain ⟨front, d, back, rfl, hlength, hd⟩ := ih hbyte
      refine ⟨c :: front, d, back, rfl, ?_, hd⟩
      rw [encode_cons, List.length_append, hlength]
      omega

theorem takeBytes_append (front back : List Char) :
    takeBytes (front ++ back) (encode front).length = some front := by
  induction front with
  | nil => cases back <;> rfl
  | cons c front ih =>
    have hpos := utf8EncodeChar_length_pos c
    obtain ⟨n, hn⟩ : ∃ n, (encode (c :: front)).length = n + 1 :=
      ⟨(encode (c :: front)).length - 1, by rw [encode_cons, List.length_append]; omega⟩
    have hlength : n + 1 - (String.utf8EncodeChar c).length = (encode front).length := by
      rw [← hn, encode_cons, List.length_append]
      omega
    rw [encode_cons, List.length_append] at hn
    rw [encode_cons, List.length_append, hn, List.cons_append, takeBytes, if_neg (by omega), hlength,
      ih, Option.map_some]
    exact Nat.succ_ne_zero n

/-- The byte after the first character is a place where that is ASCII. -/
theorem dropBytes_one (c : Char) (chars : List Char) :
    dropBytes (c :: chars) 1 = if IsAscii c then some chars else none := by
  have hpos := utf8EncodeChar_length_pos c
  have hone := utf8EncodeChar_length_eq_one (c := c)
  rw [dropBytes]
  by_cases hc : IsAscii c
  · rw [if_pos hc, if_neg (by have := hone.mpr hc; omega), hone.mpr hc]
    cases chars <;> rfl
  · rw [if_neg hc, if_pos (by
      have : (String.utf8EncodeChar c).length ≠ 1 := fun h => hc (hone.mp h)
      omega)]
  exact Nat.one_ne_zero

end FitsWell.Utf8
