import FitsWell.Checksum.Complement

/-!
# A sum of bytes as they pass

A sum takes bytes in pieces of any length and holds back the bytes of a word that a piece
splits. Where the pieces are cut changes nothing: the sum is that of the bytes joined.
-/

namespace FitsWell.Checksum

open Bytes OnesComplement

/-- The sum of the words that have passed, and the first bytes of the word that has not. -/
structure Running where
  sum : ℕ
  partialWord : List UInt8
  partial_lt : partialWord.length < 4
  deriving Repr

namespace Running

/-- The sum of no bytes. -/
def new : Running := ⟨0, [], by decide⟩

/-- Add the whole words of `bytes` to `sum`, and hold the rest back. -/
def updateWhole (sum : ℕ) (bytes : List UInt8) : Outcome Running := do
  let whole := bytes.length - bytes.length % 4
  let sum ← accumulate (bytes.take whole) sum
  .ok { sum := sum
        partialWord := bytes.drop (bytes.length - bytes.length % 4)
        partial_lt := by rw [List.length_drop]; omega }

/-- Add `bytes` to the sum. -/
def update (running : Running) (bytes : List UInt8) : Outcome Running :=
  if running.partialWord.length > 0 then
    let fill := min (4 - running.partialWord.length) bytes.length
    let word := running.partialWord ++ bytes.take fill
    if hshort : word.length < 4 then
      .ok { sum := running.sum, partialWord := word, partial_lt := hshort }
    else
      updateWhole (combine running.sum (ofBeBytes word)) (bytes.drop fill)
  else
    updateWhole running.sum bytes

/-- The sum of every byte added, a whole number of words. -/
def finish (running : Running) : Outcome ℕ := do
  debugAssert (running.partialWord.length = 0)
  .ok running.sum

/-- The bytes that have passed: whole words the sum holds, and the bytes held back. -/
def Sums (running : Running) (bytes : List UInt8) : Prop :=
  ∃ whole, bytes = whole ++ running.partialWord ∧ whole.length % 4 = 0 ∧
    running.sum = rep allOnes (total 0 whole)

theorem sums_new : new.Sums [] := ⟨[], rfl, rfl, rfl⟩

/-- Whole words and a rest, after whole words. -/
theorem updateWhole_sums {sum : ℕ} {whole : List UInt8} (hwhole : whole.length % 4 = 0)
    (hsum : sum = rep allOnes (total 0 whole)) (bytes : List UInt8) :
    ∃ running, updateWhole sum bytes = .ok running ∧ running.Sums (whole ++ bytes) := by
  have htake : (bytes.take (bytes.length - bytes.length % 4)).length % 4 = 0 := by
    rw [List.length_take]
    omega
  have hadded := accumulate_eq htake (hsum ▸ rep_le _ (by decide : 0 < allOnes))
  refine ⟨_, Loops.bind_ok hadded, whole ++ bytes.take (bytes.length - bytes.length % 4), ?_, ?_, ?_⟩
  · rw [List.append_assoc, List.take_append_drop]
  · rw [List.length_append]
    omega
  · obtain ⟨k, hk⟩ : ∃ k, whole.length = 4 * k := ⟨whole.length / 4, by omega⟩
    rw [hsum, rep_add_rep, total_append, hk, total_add_four_mul]

/-- A piece adds its bytes to those that have passed. -/
theorem update_sums {running : Running} {passed : List UInt8} (h : running.Sums passed)
    (bytes : List UInt8) :
    ∃ next, running.update bytes = .ok next ∧ next.Sums (passed ++ bytes) := by
  obtain ⟨whole, rfl, hwhole, hsum⟩ := h
  unfold update
  split
  · obtain ⟨fill, hfill⟩ : ∃ fill, fill = min (4 - running.partialWord.length) bytes.length :=
      ⟨_, rfl⟩
    have hlt := running.partial_lt
    have hword : (running.partialWord ++ bytes.take fill).length =
        running.partialWord.length + fill := by
      rw [List.length_append, List.length_take]
      omega
    dsimp only
    rw [← hfill]
    split
    · rename_i hshort
      -- the piece ends inside the word
      have hall : bytes.take fill = bytes := List.take_of_length_le (by omega)
      refine ⟨_, rfl, whole, ?_, hwhole, hsum⟩
      simp only [hall, List.append_assoc]
    · rename_i hfull
      have hfour : (running.partialWord ++ bytes.take fill).length = 4 := by omega
      have hle : ofBeBytes (running.partialWord ++ bytes.take fill) ≤ allOnes := by
        have hlt := ofBeBytes_lt (running.partialWord ++ bytes.take fill)
        rw [hfour] at hlt
        exact Nat.le_of_lt_succ hlt
      have hnext : combine running.sum (ofBeBytes (running.partialWord ++ bytes.take fill)) =
          rep allOnes (total 0 (whole ++ (running.partialWord ++ bytes.take fill))) := by
        obtain ⟨k, hk⟩ : ∃ k, whole.length = 4 * k := ⟨whole.length / 4, by omega⟩
        rw [combine_eq (hsum ▸ rep_le _ (by decide)) hle, hsum, rep_add_rep, total_append, hk,
          total_add_four_mul, total_word hfour]
      have hlengths : (whole ++ (running.partialWord ++ bytes.take fill)).length % 4 = 0 := by
        rw [List.length_append, hfour]
        omega
      obtain ⟨next, hok, hnextSums⟩ := updateWhole_sums hlengths hnext (bytes.drop fill)
      refine ⟨next, hok, ?_⟩
      have hjoin : whole ++ (running.partialWord ++ bytes.take fill) ++ bytes.drop fill =
          whole ++ running.partialWord ++ bytes := by
        simp only [List.append_assoc, List.take_append_drop]
      exact hjoin ▸ hnextSums
  · rename_i hnone
    have hempty : running.partialWord = [] := List.length_eq_zero_iff.mp (by omega)
    rw [hempty, List.append_nil]
    exact updateWhole_sums hwhole hsum bytes

/-- The sum of whole words is that of all the bytes at once. -/
theorem finish_sums {running : Running} {bytes : List UInt8} (h : running.Sums bytes)
    (hwhole : bytes.length % 4 = 0) :
    running.finish = .ok (rep allOnes (total 0 bytes)) ∧
      accumulate bytes 0 = .ok (rep allOnes (total 0 bytes)) := by
  obtain ⟨whole, rfl, hlength, hsum⟩ := h
  have hlt := running.partial_lt
  rw [List.length_append] at hwhole
  have hempty : running.partialWord = [] := List.length_eq_zero_iff.mp (by omega)
  refine ⟨?_, ?_⟩
  · rw [finish, debugAssert, if_pos (by rw [hempty]; rfl), Loops.bind_ok rfl, hsum, hempty,
      List.append_nil]
  · rw [hempty, List.append_nil, accumulate_eq hlength (Nat.zero_le _), Nat.zero_add]

/-- Pieces of any lengths add up to the bytes joined. -/
theorem pieces_sums {running : Running} {passed : List UInt8} (h : running.Sums passed)
    (pieces : List (List UInt8)) :
    ∃ last, pieces.foldlM update running = .ok last ∧ last.Sums (passed ++ pieces.flatten) := by
  induction pieces generalizing running passed with
  | nil => exact ⟨running, rfl, by rwa [List.flatten_nil, List.append_nil]⟩
  | cons piece pieces ih =>
    obtain ⟨next, hnext, hsums⟩ := update_sums h piece
    obtain ⟨last, hlast, hall⟩ := ih hsums
    refine ⟨last, ?_, ?_⟩
    · rw [List.foldlM_cons, Loops.bind_ok hnext, hlast]
    · rwa [List.flatten_cons, ← List.append_assoc]

end Running

/-! ## The law of the sum -/

/-- The sum of one unit and then another is that of both. -/
theorem accumulate_append {unit data : List UInt8} {total sum : ℕ}
    (htotal : accumulate unit 0 = .ok total) (hsum : accumulate data 0 = .ok sum) :
    accumulate (unit ++ data) 0 = .ok (combine total sum) := by
  have hwhole : ∀ {bytes : List UInt8} {sum : ℕ}, accumulate bytes 0 = .ok sum → bytes.length % 4 = 0 := by
    intro bytes sum h
    obtain ⟨_, hwords, -⟩ := Loops.ok_of_bind h
    unfold debugAssert at hwords
    split at hwords
    · assumption
    · cases hwords
  have hones : 0 < allOnes := by decide
  have hunit := hwhole htotal
  have hdata := hwhole hsum
  have hboth : (unit ++ data).length % 4 = 0 := by
    rw [List.length_append]
    omega
  have hplace : 0 + unit.length = 0 + 4 * (unit.length / 4) := by omega
  rw [accumulate_eq hunit (Nat.zero_le _), Except.ok.injEq] at htotal
  rw [accumulate_eq hdata (Nat.zero_le _), Except.ok.injEq] at hsum
  rw [accumulate_eq hboth (Nat.zero_le _), ← htotal, ← hsum, combine_eq (rep_le _ hones) (rep_le _ hones),
    rep_add_rep, Nat.add_comm (0 + _), rep_add_rep, total_append, hplace,
    total_add_four_mul]
  congr 2
  omega

/-- The sum that folds each word's carry at once. -/
def wordByWord (bytes : List UInt8) (seed : ℕ) : ℕ := ((words bytes).map ofBeBytes).foldl combine seed

theorem foldl_combine {values : List ℕ} (h : ∀ value ∈ values, value ≤ allOnes) {seed : ℕ}
    (hseed : seed ≤ allOnes) : values.foldl combine seed = rep allOnes (seed + values.sum) := by
  induction values generalizing seed with
  | nil => exact (rep_of_le hseed).symm
  | cons value values ih =>
    have hvalue := h value List.mem_cons_self
    rw [List.foldl_cons, combine_eq hseed hvalue,
      ih (fun other hother => h other (List.mem_cons_of_mem _ hother)) (rep_le _ (by decide)),
      rep_add_rep, List.sum_cons, Nat.add_assoc]

theorem word_le {bytes : List UInt8} {value : ℕ} (h : value ∈ (words bytes).map ofBeBytes) :
    value ≤ allOnes := by
  obtain ⟨word, hword, rfl⟩ := List.mem_map.mp h
  have hlt := ofBeBytes_lt word
  rw [words_length hword] at hlt
  exact Nat.le_of_lt_succ hlt

/-- The deferred carries, each added in 64 bits, give the sum that adds them word by word: zero
only for a seed and words of zero, and the same however the bytes are cut. -/
theorem accumulate_is_word_by_word {bytes : List UInt8} {seed : ℕ} (hwhole : bytes.length % 4 = 0)
    (hseed : seed ≤ allOnes) :
    accumulate bytes seed = .ok (wordByWord bytes seed) ∧
      (wordByWord bytes seed = 0 ↔ seed = 0 ∧ ∀ word ∈ words bytes, ofBeBytes word = 0) ∧
      (∀ rest : List UInt8, rest.length % 4 = 0 →
        accumulate (bytes ++ rest) seed = accumulate bytes seed >>= accumulate rest) ∧
      ∀ pieces : List (List UInt8), pieces.flatten = bytes →
        pieces.foldlM Running.update Running.new >>= Running.finish = accumulate bytes 0 := by
  have hsum : wordByWord bytes seed = rep allOnes (seed + total 0 bytes) := by
    rw [wordByWord, foldl_combine (fun _ => word_le) hseed, words_sum hwhole]
  refine ⟨?_, ?_, fun rest hrest => ?_, fun pieces hpieces => ?_⟩
  · rw [accumulate_eq hwhole hseed, hsum]
  · rw [hsum, rep_eq_zero_iff, ← words_sum hwhole, Nat.add_eq_zero_iff, List.sum_eq_zero_iff]
    exact and_congr_right fun _ => List.forall_mem_map
  · obtain ⟨k, hk⟩ : ∃ k, bytes.length = 4 * k := ⟨bytes.length / 4, by omega⟩
    have hboth : (bytes ++ rest).length % 4 = 0 := by
      rw [List.length_append]
      omega
    rw [accumulate_eq hboth hseed, accumulate_eq hwhole hseed, Loops.bind_ok rfl,
      accumulate_eq hrest (rep_le _ (by decide)), rep_add_rep, total_append, hk,
      total_add_four_mul, Nat.add_assoc]
  · obtain ⟨last, hlast, hsums⟩ := Running.pieces_sums Running.sums_new pieces
    rw [List.nil_append, hpieces] at hsums
    obtain ⟨hfinish, hall⟩ := Running.finish_sums hsums hwhole
    rw [Loops.bind_ok hlast, hfinish, hall]

/-- A seed and a word that add to all ones, and the word in two pieces. -/
theorem accumulate_is_word_by_word_wraps :
    accumulate [0xff, 0xff, 0xff, 0xfe] 1 = .ok allOnes ∧
      [[0xff, 0xff, 0xff], [0xfe]].foldlM Running.update Running.new >>= Running.finish =
        accumulate [0xff, 0xff, 0xff, 0xfe] 0 := by
  obtain ⟨hsum, -, -, hpieces⟩ := @accumulate_is_word_by_word [0xff, 0xff, 0xff, 0xfe] 1
    (by decide) (by decide)
  exact ⟨hsum, hpieces [[0xff, 0xff, 0xff], [0xfe]] rfl⟩

end FitsWell.Checksum
