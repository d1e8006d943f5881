import FitsWell.Checksum.Sum
import Mathlib.Algebra.Order.BigOperators.Group.List

/-!
# The complement of a sum

Words sum to the representative of their total modulo `2 ^ 32 - 1`, and the sixteen
characters of a sum's complement bring a header of that sum to all ones.
-/

namespace FitsWell.Checksum

open Bytes Chunks OnesComplement

/-! ## Sums -/

theorem fold_eq (total : ℕ) : fold total = rep allOnes total := by
  induction total using Nat.strong_induction_on with
  | _ total ih =>
    rw [fold]
    split
    · rename_i hlarge
      unfold allOnes at hlarge
      have hsplit : total = (allOnes + 1) * (total / 2 ^ 32) + total % 2 ^ 32 :=
        (Nat.div_add_mod total (2 ^ 32)).symm
      rw [ih _ (by omega), ← rep_fold _ _ (by decide), ← hsplit]
    · rename_i hsmall
      exact (rep_of_le (not_lt.mp hsmall)).symm

theorem combine_eq {left right : ℕ} (hleft : left ≤ allOnes) (hright : right ≤ allOnes) :
    combine left right = rep allOnes (left + right) := by
  rw [← fold_eq, combine, fold]
  unfold allOnes at *
  split
  · rename_i hlarge
    rw [fold, if_neg (by unfold allOnes; omega)]
    omega
  · omega

/-- Words of four bytes sum to the total of their bytes. -/
theorem total_flatten {words : List (List UInt8)} (h : ∀ word ∈ words, word.length = 4) :
    total 0 words.flatten = (words.map ofBeBytes).sum := by
  induction words with
  | nil => rfl
  | cons word words ih =>
    have hword := h word List.mem_cons_self
    have hshift := total_add_four_mul 0 1 words.flatten
    rw [List.flatten_cons, total_append, total_word hword, hword, hshift,
      ih (fun w hw => h w (List.mem_cons_of_mem word hw)), List.map_cons, List.sum_cons]

theorem wordsPerFold_pos : 0 < wordsPerFold := Nat.two_pow_pos 31

/-- A block of words adds to its total in one word of 64 bits. -/
theorem block_total {sum : ℕ} {words : List (List UInt8)} (hsum : sum ≤ allOnes)
    (hwords : ∀ word ∈ words, word.length = 4) (hlength : words.length ≤ wordsPerFold) :
    words.foldlM (fun total word => addUsize total (ofBeBytes word)) sum =
      .ok (sum + (words.map ofBeBytes).sum) := by
  have hword : ∀ value ∈ words.map ofBeBytes, value ≤ allOnes := by
    intro value hvalue
    obtain ⟨word, hword, rfl⟩ := List.mem_map.mp hvalue
    have hlt := ofBeBytes_lt word
    rw [hwords word hword] at hlt
    unfold allOnes
    omega
  have htotal := List.sum_le_card_nsmul _ _ hword
  rw [List.length_map, Nat.nsmul_eq_mul] at htotal
  have hbound : sum + (words.map ofBeBytes).sum ≤ usizeMax := by
    have := Nat.mul_le_mul_right allOnes hlength
    unfold allOnes wordsPerFold usizeMax at *
    omega
  rw [← foldlM_addUsize hbound, List.foldlM_map]

theorem words_length {bytes word : List UInt8} (h : word ∈ words bytes) : word.length = 4 := by
  obtain ⟨j, hj, rfl⟩ := List.mem_map.mp h
  have hj := List.mem_range.mp hj
  rw [length_chunk]
  omega

theorem words_sum {bytes : List UInt8} (h : bytes.length % 4 = 0) :
    ((words bytes).map ofBeBytes).sum = total 0 bytes := by
  rw [← total_flatten (fun _ => words_length), words, flatten_chunks (by omega)]

/-- Blocks of words fold into the sum one after another. -/
theorem blocks_total {seed size : ℕ} {words : List (List UInt8)} (blocks : ℕ)
    (hseed : seed ≤ allOnes) (hsize : size ≤ wordsPerFold)
    (hwords : ∀ word ∈ words, word.length = 4) :
    (List.range blocks).foldlM (fun sum block => do
      let total ← (chunk words size block).foldlM
        (fun total word => addUsize total (ofBeBytes word)) sum
      .ok (fold total)) seed =
    .ok (rep allOnes (seed +
      ((((List.range blocks).map (chunk words size)).flatten).map ofBeBytes).sum)) := by
  have hrun : ∃ sum, (List.range blocks).foldlM (fun sum block => do
      let total ← (chunk words size block).foldlM
        (fun total word => addUsize total (ofBeBytes word)) sum
      .ok (fold total)) seed = .ok sum ∧
    sum = rep allOnes (seed +
      ((((List.range blocks).map (chunk words size)).flatten).map ofBeBytes).sum) := by
    refine Loops.range_total (P := fun j sum => sum = rep allOnes (seed +
      ((((List.range j).map (chunk words size)).flatten).map ofBeBytes).sum))
      (rep_of_le hseed).symm (fun j _ sum hsum => ?_)
    have hlength : (chunk words size j).length ≤ wordsPerFold := by
      rw [length_chunk]
      exact le_trans (Nat.min_le_left _ _) hsize
    have hpart : ∀ word ∈ chunk words size j, word.length = 4 := fun word hword =>
      hwords word (List.mem_of_mem_drop (List.mem_of_mem_take hword))
    have hblock := block_total (hsum ▸ rep_le _ (by decide)) hpart hlength
    refine ⟨_, by rw [hblock]; rfl, ?_⟩
    rw [fold_eq, hsum, rep_add_rep, List.range_succ, List.map_append, List.flatten_append,
      List.map_append, List.sum_append, Nat.add_assoc]
    simp
  obtain ⟨sum, hrun, rfl⟩ := hrun
  exact hrun

/-- The sum of whole words is the representative of their total. -/
theorem accumulate_eq {bytes : List UInt8} {seed : ℕ} (hwhole : bytes.length % 4 = 0)
    (hseed : seed ≤ allOnes) :
    accumulate bytes seed = .ok (rep allOnes (seed + total 0 bytes)) := by
  obtain ⟨size, hsize⟩ : ∃ size, size = wordsPerFold := ⟨_, rfl⟩
  have hpos : 0 < size := hsize ▸ wordsPerFold_pos
  have hcover : (words bytes).length ≤ ((words bytes).length + size - 1) / size * size := by
    have hsplit := Nat.div_add_mod ((words bytes).length + size - 1) size
    have hmod := Nat.mod_lt ((words bytes).length + size - 1) hpos
    rw [Nat.mul_comm] at hsplit
    omega
  rw [accumulate, debugAssert, if_pos hwhole, Loops.bind_ok rfl, ← hsize, divCeil_of_pos hpos,
    Loops.bind_ok rfl, blocks_total _ hseed hsize.le (fun _ => words_length),
    flatten_chunks hcover, words_sum hwhole]

/-! ## Characters -/

/-- A digit or a letter. -/
def isAlphanumeric (byte : UInt8) : Bool :=
  isAsciiDigit byte || isAsciiUppercase byte || isAsciiLowercase byte

/-- Four digits and letters that sum to `byte` past four zeros. -/
def spellsByte (byte : UInt8) (outcome : Outcome (List UInt8)) : Bool :=
  match outcome with
  | .ok [a, b, c, d] =>
    [a, b, c, d].all isAlphanumeric &&
      a.toNat + b.toNat + c.toNat + d.toNat == byte.toNat + 4 * 0x30
  | _ => false

/-- The passes settle the characters of each of the 256 bytes. -/
theorem spellsByte_column : (List.range 256).all (fun value =>
    spellsByte (UInt8.ofNat value) (column (UInt8.ofNat value))) = true := by
  decide +kernel

theorem spellsByte_ok {byte : UInt8} {outcome : Outcome (List UInt8)}
    (h : spellsByte byte outcome = true) : ∃ a b c d, outcome = .ok [a, b, c, d] ∧
      [a, b, c, d].all isAlphanumeric = true ∧
      a.toNat + b.toNat + c.toNat + d.toNat = byte.toNat + 4 * 0x30 := by
  unfold spellsByte at h
  split at h
  · rename_i a b c d
    rw [Bool.and_eq_true, beq_iff_eq] at h
    exact ⟨a, b, c, d, rfl, h.1, h.2⟩
  · cases h

theorem column_ok (byte : UInt8) : ∃ a b c d, column byte = .ok [a, b, c, d] ∧
    [a, b, c, d].all isAlphanumeric = true ∧
    a.toNat + b.toNat + c.toNat + d.toNat = byte.toNat + 4 * 0x30 := by
  have hall := spellsByte_column
  rw [List.all_eq_true] at hall
  have h := hall byte.toNat (List.mem_range.mpr byte.toNat_lt)
  rw [UInt8.ofNat_toNat] at h
  exact spellsByte_ok h

/-- The total of sixteen bytes from the last column of a word on, column by column. -/
theorem total_sixteen (x₀ x₁ x₂ x₃ x₄ x₅ x₆ x₇ x₈ x₉ y₀ y₁ y₂ y₃ y₄ y₅ : UInt8) :
    total 3 [x₀, x₁, x₂, x₃, x₄, x₅, x₆, x₇, x₈, x₉, y₀, y₁, y₂, y₃, y₄, y₅] =
      (x₁.toNat + x₅.toNat + x₉.toNat + y₃.toNat) * 256 ^ 3 +
      (x₂.toNat + x₆.toNat + y₀.toNat + y₄.toNat) * 256 ^ 2 +
      (x₃.toNat + x₇.toNat + y₁.toNat + y₅.toNat) * 256 +
      (x₀.toNat + x₄.toNat + x₈.toNat + y₂.toNat) := by
  simp only [total, weight]
  ring

/-- The characters of a sum are digits and letters, and add its complement to the total of
the placeholder in their place. -/
theorem encode_ok (sum : ℕ) :
    ∃ value, encode sum = .ok value ∧ value.length = 16 ∧ value.all isAlphanumeric = true ∧
      total 3 value = total 3 placeholder + (allOnes - sum) := by
  obtain ⟨b₀, b₁, b₂, b₃, hbytes⟩ := 
    List.length_eq_four.mp (beBytes_length 4 (allOnes - sum))
  have hspells : ofBeBytes [b₀, b₁, b₂, b₃] = allOnes - sum := by
    rw [← hbytes]
    refine ofBeBytes_beBytes_of_lt ?_
    unfold allOnes
    omega
  obtain ⟨a₀, a₁, a₂, a₃, ha, halphaA, hsumA⟩ := column_ok b₀
  obtain ⟨c₀, c₁, c₂, c₃, hc, halphaC, hsumC⟩ := column_ok b₁
  obtain ⟨d₀, d₁, d₂, d₃, hd, halphaD, hsumD⟩ := column_ok b₂
  obtain ⟨e₀, e₁, e₂, e₃, he, halphaE, hsumE⟩ := column_ok b₃
  refine ⟨[e₃, a₀, c₀, d₀, e₀, a₁, c₁, d₁, e₁, a₂, c₂, d₂, e₂, a₃, c₃, d₃], ?_, rfl, ?_, ?_⟩
  · rw [encode, hbytes]
    simp only [List.mapM_cons, List.mapM_nil, ha, hc, hd, he]
    rfl
  · simp only [List.all_cons, List.all_nil, Bool.and_eq_true] at halphaA halphaC halphaD halphaE ⊢
    simp only [halphaA, halphaC, halphaD, halphaE, and_self]
  · rw [← hspells]
    have hzeros : total 3 placeholder = 4 * 0x30 * (256 ^ 3 + 256 ^ 2 + 256 + 1) := by decide
    rw [hzeros]
    have hcolumns : ofBeBytes [b₀, b₁, b₂, b₃] =
        b₀.toNat * 256 ^ 3 + b₁.toNat * 256 ^ 2 + b₂.toNat * 256 + b₃.toNat := by
      simp only [ofBeBytes, List.foldl_cons, List.foldl_nil]
      ring
    have hA : a₀.toNat + a₁.toNat + a₂.toNat + a₃.toNat = b₀.toNat + 4 * 0x30 := hsumA
    rw [total_sixteen, hcolumns, hsumA, hsumC, hsumD]
    have hlast : e₃.toNat + e₀.toNat + e₁.toNat + e₂.toNat = b₃.toNat + 4 * 0x30 := by
      rw [← hsumE]
      omega
    rw [hlast]
    ring

end FitsWell.Checksum
