import FitsWell.ImageModel.Bitpix
import FitsWell.Library.Bytes
import FitsWell.Library.Chunks
import FitsWell.Library.Loops
import FitsWell.Slices

/-!
# Samples and bytes

A sample is stored big-endian, as wide as its type. Samples of a type and their bytes
convert to each other and back.
-/

namespace FitsWell

open Bytes

namespace IntBitpix

/-- The big-endian bytes of the low bits of a value. -/
def toBeBytes (bitpix : IntBitpix) (value : ℤ) : List UInt8 :=
  beBytes bitpix.elemSize (value % 256 ^ bitpix.elemSize).toNat

/-- The sample of big-endian bytes: a byte is unsigned, the wider ones two's complement. -/
def fromBeBytes (bitpix : IntBitpix) (bytes : List UInt8) : ℤ :=
  let word : ℤ := ofBeBytes bytes
  if bitpix = .u8 then word
  else if 256 ^ bitpix.elemSize ≤ 2 * word then word - 256 ^ bitpix.elemSize
  else word

theorem elemSize_pos (bitpix : IntBitpix) : 0 < bitpix.elemSize := by cases bitpix <;> decide

theorem elemSize_le (bitpix : IntBitpix) : bitpix.elemSize ≤ 8 := by cases bitpix <;> decide

@[simp] theorem length_toBeBytes (bitpix : IntBitpix) (value : ℤ) :
    (bitpix.toBeBytes value).length = bitpix.elemSize := beBytes_length _ _

/-- The samples of a type: those of its bytes, unsigned or two's complement. -/
theorem holds_iff (bitpix : IntBitpix) (value : ℤ) : bitpix.Holds value ↔
    if bitpix = .u8 then 0 ≤ value ∧ value < 256 ^ bitpix.elemSize
    else -256 ^ bitpix.elemSize ≤ 2 * value ∧ 2 * value < 256 ^ bitpix.elemSize := by
  cases bitpix with
  | u8 =>
    have hsize : IntBitpix.elemSize .u8 = 1 := rfl
    rw [Holds, if_pos rfl, hsize]
    omega
  | i16 =>
    have hsize : IntBitpix.elemSize .i16 = 2 := rfl
    rw [Holds, if_neg (by decide), hsize]
    omega
  | i32 =>
    have hsize : IntBitpix.elemSize .i32 = 4 := rfl
    rw [Holds, if_neg (by decide), hsize]
    omega
  | i64 =>
    have hsize : IntBitpix.elemSize .i64 = 8 := rfl
    rw [Holds, if_neg (by decide), hsize]
    omega

/-- A sample reads back from its bytes. -/
theorem fromBeBytes_toBeBytes {bitpix : IntBitpix} {value : ℤ} (h : bitpix.Holds value) :
    bitpix.fromBeBytes (bitpix.toBeBytes value) = value := by
  rw [holds_iff] at h
  rw [fromBeBytes, toBeBytes]
  obtain ⟨bound, hbound⟩ : ∃ bound : ℤ, bound = 256 ^ bitpix.elemSize := ⟨_, rfl⟩
  have hpos : 0 < bound := by rw [hbound]; positivity
  have hnonneg := Int.emod_nonneg value hpos.ne'
  have hbelow := Int.emod_lt_of_pos value hpos
  have hlt : (value % bound).toNat < 256 ^ bitpix.elemSize := by
    zify
    rwa [Int.toNat_of_nonneg hnonneg, ← hbound]
  rw [← hbound] at h ⊢
  rw [ofBeBytes_beBytes_of_lt hlt, Int.toNat_of_nonneg hnonneg]
  split at h
  · exact (if_pos ‹_›).trans (Int.emod_eq_of_lt h.1 h.2)
  · rw [if_neg ‹_›]
    by_cases hneg : value < 0
    · have hmod : value % bound = value + bound := by
        rw [← Int.add_emod_right, Int.emod_eq_of_lt (by omega) (by omega)]
      rw [hmod, if_pos (by omega)]
      omega
    · have hmod : value % bound = value := Int.emod_eq_of_lt (by omega) (by omega)
      rw [hmod, if_neg (by omega)]

/-- The sample of bytes is one of its type. -/
theorem holds_fromBeBytes {bitpix : IntBitpix} {bytes : List UInt8}
    (h : bytes.length = bitpix.elemSize) : bitpix.Holds (bitpix.fromBeBytes bytes) := by
  have hlt := ofBeBytes_lt bytes
  rw [h] at hlt
  zify at hlt
  rw [holds_iff, fromBeBytes]
  split
  · exact ⟨by positivity, hlt⟩
  · split <;> omega

/-- Bytes come back from their sample. -/
theorem toBeBytes_fromBeBytes {bitpix : IntBitpix} {bytes : List UInt8}
    (h : bytes.length = bitpix.elemSize) :
    bitpix.toBeBytes (bitpix.fromBeBytes bytes) = bytes := by
  have hlt := ofBeBytes_lt bytes
  rw [h] at hlt
  have hmod : (ofBeBytes bytes : ℤ) % 256 ^ bitpix.elemSize = ofBeBytes bytes :=
    Int.emod_eq_of_lt (by positivity) (by exact_mod_cast hlt)
  have hword : bitpix.fromBeBytes bytes % 256 ^ bitpix.elemSize = ofBeBytes bytes := by
    rw [fromBeBytes]
    split
    · exact hmod
    · split
      · rw [Int.sub_emod_right, hmod]
      · exact hmod
  rw [toBeBytes, hword, Int.toNat_natCast, ← h, beBytes_ofBeBytes]

end IntBitpix

/-! ## Lists of samples -/

/-- The big-endian bytes of samples. -/
def i64ToBe (values : List ℤ) (bitpix : IntBitpix) : List UInt8 := values.flatMap bitpix.toBeBytes

/-- The samples of big-endian bytes, which are whole elements. -/
def beToI64 (bytes : List UInt8) (bitpix : IntBitpix) : Outcome (List ℤ) := do
  debugAssert (bytes.length % bitpix.elemSize = 0)
  .ok ((List.range (bytes.length / bitpix.elemSize)).map fun j =>
    bitpix.fromBeBytes (Chunks.chunk bytes bitpix.elemSize j))

variable {bitpix : IntBitpix}

@[simp] theorem length_i64ToBe (values : List ℤ) (bitpix : IntBitpix) :
    (i64ToBe values bitpix).length = bitpix.elemSize * values.length :=
  length_flatMap_width bitpix.length_toBeBytes values

/-- Samples read back from their bytes. -/
theorem beToI64_i64ToBe {values : List ℤ} (h : ∀ value ∈ values, bitpix.Holds value) :
    beToI64 (i64ToBe values bitpix) bitpix = .ok values := by
  have hwhole : (i64ToBe values bitpix).length % bitpix.elemSize = 0 := by
    rw [length_i64ToBe, Nat.mul_mod_right]
  have hcount : (i64ToBe values bitpix).length / bitpix.elemSize = values.length := by
    rw [length_i64ToBe, Nat.mul_div_cancel_left _ bitpix.elemSize_pos]
  rw [beToI64, debugAssert, if_pos hwhole, Loops.bind_ok rfl, hcount]
  congr 1
  apply List.ext_getElem?
  intro j
  by_cases hj : j < values.length
  · have hvalue := List.getElem?_eq_getElem hj
    have hbytes : Chunks.chunk (i64ToBe values bitpix) bitpix.elemSize j =
        bitpix.toBeBytes values[j] := by
      rw [Chunks.chunk, Nat.mul_comm]
      exact take_drop_flatMap_width bitpix.length_toBeBytes hvalue
    rw [List.getElem?_map, List.getElem?_range hj, Option.map_some, hbytes,
      IntBitpix.fromBeBytes_toBeBytes (h _ (List.getElem_mem hj)), hvalue]
  · rw [List.getElem?_eq_none (by rw [List.length_map, List.length_range]; omega),
      List.getElem?_eq_none (by omega)]

/-- Bytes of whole elements are those of samples of the type. -/
theorem beToI64_of_length {bytes : List UInt8} {count : ℕ}
    (h : bytes.length = count * bitpix.elemSize) :
    ∃ values, beToI64 bytes bitpix = .ok values ∧ values.length = count ∧
      (∀ value ∈ values, bitpix.Holds value) ∧ i64ToBe values bitpix = bytes := by
  have hcount : bytes.length / bitpix.elemSize = count := by
    rw [h, Nat.mul_div_cancel _ bitpix.elemSize_pos]
  have hchunk : ∀ j ∈ List.range count,
      (Chunks.chunk bytes bitpix.elemSize j).length = bitpix.elemSize := by
    intro j hj
    have hroom : (j + 1) * bitpix.elemSize ≤ count * bitpix.elemSize :=
      Nat.mul_le_mul_right _ (List.mem_range.mp hj)
    rw [Nat.succ_mul] at hroom
    rw [Chunks.length_chunk, h]
    omega
  refine ⟨(List.range count).map fun j => bitpix.fromBeBytes (Chunks.chunk bytes bitpix.elemSize j),
    ?_, ?_, ?_, ?_⟩
  · rw [beToI64, debugAssert, if_pos (by rw [h, Nat.mul_mod_left]), Loops.bind_ok rfl, hcount]
  · rw [List.length_map, List.length_range]
  · intro value hvalue
    obtain ⟨j, hj, rfl⟩ := List.mem_map.mp hvalue
    exact IntBitpix.holds_fromBeBytes (hchunk j hj)
  · rw [i64ToBe, List.flatMap_map, List.flatMap_def,
      List.map_congr_left (fun j hj => IntBitpix.toBeBytes_fromBeBytes (hchunk j hj))]
    exact Chunks.flatten_chunks h.le

end FitsWell
