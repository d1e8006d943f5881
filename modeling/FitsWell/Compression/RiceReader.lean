import FitsWell.Compression.RiceRoundTrip
import FitsWell.Library.Ends

/-!
# The Rice reader as a reader of single bits

The reader's window and its refills are compared with a reader that takes one bit at a
time from the bit string of the stream. The two agree on every read, so a run of reads
gives the same values and meets the end of the data at the same one.
-/

namespace FitsWell.Rice

open Bits

/-! ## One bit at a time -/

/-- Take one bit. -/
def takeBit : List Bool → Outcome (Bool × List Bool)
  | [] => fail .unexpectedEof
  | bit :: bits => .ok (bit, bits)

/-- Take `n` bits, the most significant first, below those of `high`. -/
def takeField : ℕ → ℕ → List Bool → Outcome (ℕ × List Bool)
  | 0, high, bits => .ok (high, bits)
  | n + 1, high, bits => do
    let (bit, bits) ← takeBit bits
    takeField n (2 * high + bit.toNat) bits

/-- Take the zeros up to the next one, and the one, after `z` zeros. -/
def takeZeros : ℕ → List Bool → Outcome (ℕ × List Bool)
  | _, [] => fail .unexpectedEof
  | z, true :: bits => .ok (z, bits)
  | z, false :: bits => takeZeros (z + 1) bits

/-- A field of bits is the number they spell. -/
theorem takeField_natBits {n v : ℕ} (high : ℕ) (hv : v < 2 ^ n) (tail : List Bool) :
    takeField n high (natBits n v ++ tail) = .ok (high * 2 ^ n + v, tail) := by
  induction n generalizing high v with
  | zero =>
    obtain rfl : v = 0 := by omega
    simp [takeField, natBits]
  | succ n ih =>
    have hlow : v % 2 ^ n < 2 ^ n := Nat.mod_lt _ (Nat.two_pow_pos n)
    have hbit : (v.testBit n).toNat = v / 2 ^ n := by
      have hsmall : v / 2 ^ n < 2 := by
        rw [Nat.div_lt_iff_lt_mul (Nat.two_pow_pos n)]
        rw [pow_succ] at hv
        omega
      rw [Nat.toNat_testBit, Nat.mod_eq_of_lt hsmall]
    rw [natBits, List.cons_append, ← natBits_mod n]
    change takeField n (2 * high + (v.testBit n).toNat) _ = _
    rw [ih _ hlow, hbit]
    have hsplit := Nat.div_add_mod v (2 ^ n)
    congr 2
    rw [pow_succ, Nat.add_mul, Nat.add_assoc, Nat.mul_comm (v / 2 ^ n), hsplit]
    ring

/-- A field longer than what is left meets the end of the data. -/
theorem takeField_short {n : ℕ} (high : ℕ) {bits : List Bool} (hshort : bits.length < n) :
    takeField n high bits = fail .unexpectedEof := by
  induction n generalizing high bits with
  | zero => omega
  | succ n ih =>
    cases bits with
    | nil => rfl
    | cons bit bits =>
      rw [List.length_cons] at hshort
      exact ih _ (by omega)

/-- A unary code is the count of its zeros. -/
theorem takeZeros_unary (z k : ℕ) (tail : List Bool) :
    takeZeros z (List.replicate k false ++ true :: tail) = .ok (z + k, tail) := by
  induction k generalizing z with
  | zero => rfl
  | succ k ih =>
    rw [List.replicate_succ, List.cons_append, takeZeros, ih]
    congr 2
    omega

/-- Zeros with no one after them meet the end of the data. -/
theorem takeZeros_short (z k : ℕ) :
    takeZeros z (List.replicate k false) = fail .unexpectedEof := by
  induction k generalizing z with
  | zero => rfl
  | succ k ih => exact ih (z + 1)

/-- Some bits are a unary code and a tail, or zeros to their end. -/
theorem unary_or_zeros (bits : List Bool) :
    (∃ k tail, bits = List.replicate k false ++ true :: tail) ∨
      ∃ k, bits = List.replicate k false := by
  induction bits with
  | nil => exact .inr ⟨0, rfl⟩
  | cons bit bits ih =>
    cases bit with
    | true => exact .inl ⟨0, bits, rfl⟩
    | false =>
      rcases ih with ⟨k, tail, rfl⟩ | ⟨k, rfl⟩
      · exact .inl ⟨k + 1, tail, rfl⟩
      · exact .inr ⟨k + 1, rfl⟩

/-! ## The windowed reader -/

/-- The first bits of a list, as many as a word holds, are those of a word. -/
theorem exists_word {bits : List Bool} {n : ℕ} (hn : n ≤ 64) (hlength : n ≤ bits.length) :
    ∃ v : U64, v.toNat < 2 ^ n ∧ bits = natBits n v.toNat ++ bits.drop n := by
  obtain ⟨v, hv, hbits⟩ := exists_natBits (bits.take n)
  rw [List.length_take, Nat.min_eq_left hlength] at hv hbits
  have hword : (BitVec.ofNat 64 v).toNat = v := by
    rw [BitVec.toNat_ofNat,
      Nat.mod_eq_of_lt (lt_of_lt_of_le hv (Nat.pow_le_pow_right (by decide) hn))]
  exact ⟨BitVec.ofNat 64 v, by rwa [hword], by rw [hword, ← hbits, List.take_append_drop]⟩

/-- A short read past the end of the stream meets the end of the data. -/
theorem BitReader.readShort_short {br : BitReader} {n : ℕ} (hbr : br.Ready) (hn : n ≤ 56)
    (hshort : br.rest.length < n) : br.readShort n = fail .unexpectedEof := by
  obtain ⟨br', hok, hsound, hsame, hfull, -⟩ := topUp_spec hbr hn
  have hleft := length_rest hsound
  rw [hsame, left] at hleft
  have hheld : br'.nbits < n := by omega
  unfold readShort
  simp [hok, bind, Except.bind, hheld]

/-- A read past the end of the stream meets the end of the data, also where its first half
is still there. -/
theorem BitReader.read_short {br : BitReader} {n : ℕ} (hbr : br.Ready) (hn : n ≤ 64)
    (hshort : br.rest.length < n) : br.read n = fail .unexpectedEof := by
  unfold read
  split
  · rename_i hnarrow
    exact readShort_short hbr hnarrow hshort
  · rename_i hwide
    rw [readWide, if_neg (by omega)]
    by_cases hhigh : br.rest.length < n - 32
    · rw [readShort_short hbr (by omega) hhigh]
      rfl
    · obtain ⟨high, hhigh_lt, hbits⟩ := @exists_word br.rest (n - 32) (by omega) (by omega)
      obtain ⟨br', hok, hready, hrest⟩ := readShort_gives hbr (by omega) hhigh_lt hbits
      have hlow : br'.rest.length < 32 := by
        rw [hrest, List.length_drop]
        omega
      simp only [hok, bind, Except.bind, readShort_short hready (by decide) hlow]
      rfl

/-- A unary read of zeros to the end of the stream meets the end of the data. -/
theorem BitReader.readZeros_short {br : BitReader} {k : ℕ} (z : ℕ) (hbr : br.Ready)
    (hrest : br.rest = List.replicate k false) : br.readZeros z = fail .unexpectedEof := by
  induction k using Nat.strong_induction_on generalizing br z with
  | _ k ih =>
    obtain ⟨br', hok, hsound, hsame, hfull, -, hroom⟩ := topUp_spec hbr (show 1 ≤ 56 by decide)
    rw [hrest] at hsame hfull
    have hlength := length_rest hsound
    rw [hsame, List.length_replicate, left] at hlength
    rw [List.length_replicate] at hfull
    rw [readZeros]
    split
    · rename_i fault htop
      rw [hok] at htop
      cases htop
    · rename_i br₁ htop
      obtain rfl := Except.ok.inj (hok.symm.trans htop)
      by_cases hempty : br'.nbits = 0
      · rw [dif_pos hempty]
      · rw [dif_neg hempty]
        dsimp only
        have hzeros : br'.nbits ≤ leadingZeros br'.acc :=
          le_leadingZeros hsound.nbits_le_width (fun i hi => by
            rw [← hsound.held i hi, hsame, List.getD_replicate _ (by omega)])
        rw [if_neg (by omega)]
        obtain ⟨hready, hdrop⟩ := drop_held hsound
        exact ih (k - br'.nbits) (by omega) _ hready (by rw [hdrop, hsame, List.drop_replicate])

/-! ## Runs of reads -/

/-- A read of the decoder: a field of at most a word's bits, or a unary code. -/
inductive Request where
  | field (n : ℕ) (hn : n ≤ 64)
  | zeros

/-- Answer a read from the window. -/
def BitReader.answer (br : BitReader) : Request → Outcome (ℕ × BitReader)
  | .field n _ => do
    let (v, br) ← br.read n
    .ok (v.toNat, br)
  | .zeros => br.readZeros 0

/-- Answer a read one bit at a time. -/
def answerBits (bits : List Bool) : Request → Outcome (ℕ × List Bool)
  | .field n _ => takeField n 0 bits
  | .zeros => takeZeros 0 bits

/-- The answers to reads in turn, up to the first that fails. -/
def transcript {σ : Type} (answer : σ → Request → Outcome (ℕ × σ)) :
    σ → List Request → List (Outcome ℕ)
  | _, [] => []
  | s, request :: requests =>
    match answer s request with
    | .ok (v, s) => .ok v :: transcript answer s requests
    | .error fault => [.error fault]

/-- A read answered alike by both readers: with the same value, the window then holding the
bits left, or with the end of the data. -/
def Agrees (window : Outcome (ℕ × BitReader)) (single : Outcome (ℕ × List Bool)) : Prop :=
  (∃ v br, window = .ok (v, br) ∧ br.Ready ∧ single = .ok (v, br.rest)) ∨
    (window = fail .unexpectedEof ∧ single = fail .unexpectedEof)

/-- Every read is answered alike. -/
theorem BitReader.answer_agrees {br : BitReader} (hbr : br.Ready) (request : Request) :
    Agrees (br.answer request) (answerBits br.rest request) := by
  cases request with
  | field n hn =>
    by_cases hlength : n ≤ br.rest.length
    · left
      obtain ⟨v, hv, hbits⟩ := exists_word hn hlength
      obtain ⟨br', hok, hready, hrest⟩ := read_gives hbr hn hv hbits
      refine ⟨v.toNat, br', ?_, hready, ?_⟩
      · simp only [answer, hok, bind, Except.bind]
      · rw [answerBits, hbits, takeField_natBits 0 hv, hrest, Nat.zero_mul, Nat.zero_add]
    · right
      constructor
      · rw [answer, read_short hbr hn (by omega)]
        rfl
      · exact takeField_short 0 (by omega)
  | zeros =>
    rcases unary_or_zeros br.rest with ⟨k, tail, hrest⟩ | ⟨k, hrest⟩
    · left
      obtain ⟨br', hok, hready, hrest'⟩ := readZeros_gives (z := 0) hbr hrest
      exact ⟨_, br', hok, hready, by rw [answerBits, hrest, takeZeros_unary, hrest']⟩
    · right
      exact ⟨readZeros_short 0 hbr hrest, by rw [answerBits, hrest, takeZeros_short]⟩

/-- A run of reads gives the same values, and meets the end of the data at the same read. -/
theorem BitReader.transcript_eq {br : BitReader} (hbr : br.Ready) (requests : List Request) :
    transcript answer br requests = transcript answerBits br.rest requests := by
  induction requests generalizing br with
  | nil => rfl
  | cons request requests ih =>
    rw [transcript, transcript]
    rcases br.answer_agrees hbr request with ⟨v, br', hwindow, hready, hsingle⟩ |
      ⟨hwindow, hsingle⟩
    · rw [hwindow, hsingle]
      exact congrArg _ (ih hready)
    · rw [hwindow, hsingle]
      rfl

/-- No answer of the windowed reader is a panic. -/
theorem BitReader.noPanic_of_mem_transcript {br : BitReader} (hbr : br.Ready)
    {requests : List Request} {answered : Outcome ℕ}
    (hmem : answered ∈ transcript answer br requests) : NoPanic answered := by
  induction requests generalizing br with
  | nil => exact absurd hmem List.not_mem_nil
  | cons request requests ih =>
    rw [transcript] at hmem
    rcases br.answer_agrees hbr request with ⟨v, br', hwindow, hready, -⟩ | ⟨hwindow, -⟩
    · rw [hwindow, List.mem_cons] at hmem
      rcases hmem with rfl | hmem
      · exact NoPanic.ok v
      · exact ih hready hmem
    · rw [hwindow] at hmem
      obtain rfl := List.mem_singleton.mp hmem
      exact NoPanic.fail _

/-- A value answered fits a word or is a count of the bits left. -/
theorem answerBits_fits {bits rest : List Bool} {request : Request} {v : ℕ}
    (hanswer : answerBits bits request = .ok (v, rest)) :
    v < max (2 ^ 64) bits.length ∧ rest.length ≤ bits.length := by
  cases request with
  | field n hn =>
    by_cases hlength : n ≤ bits.length
    · obtain ⟨word, hword, hbits⟩ := exists_word hn hlength
      rw [answerBits, hbits, takeField_natBits 0 hword, Nat.zero_mul, Nat.zero_add] at hanswer
      obtain ⟨rfl, rfl⟩ := Prod.mk.inj (Except.ok.inj hanswer)
      exact ⟨lt_of_lt_of_le word.isLt (le_max_left ..), by rw [List.length_drop]; omega⟩
    · rw [answerBits, takeField_short 0 (by omega)] at hanswer
      cases hanswer
  | zeros =>
    rcases unary_or_zeros bits with ⟨k, tail, rfl⟩ | ⟨k, rfl⟩
    · rw [answerBits, takeZeros_unary, Nat.zero_add] at hanswer
      obtain ⟨rfl, rfl⟩ := Prod.mk.inj (Except.ok.inj hanswer)
      rw [List.length_append, List.length_replicate, List.length_cons]
      exact ⟨lt_of_lt_of_le (by omega) (le_max_right ..), by omega⟩
    · rw [answerBits, takeZeros_short] at hanswer
      cases hanswer

/-- So does each value of a run. -/
theorem lt_of_mem_transcript {bits : List Bool} {requests : List Request} {v : ℕ}
    (hmem : .ok v ∈ transcript answerBits bits requests) : v < max (2 ^ 64) bits.length := by
  induction requests generalizing bits with
  | nil => exact absurd hmem List.not_mem_nil
  | cons request requests ih =>
    rw [transcript] at hmem
    split at hmem
    · rename_i answered rest hanswer
      obtain ⟨hfits, hshorter⟩ := answerBits_fits hanswer
      rcases List.mem_cons.mp hmem with hv | hmem
      · rwa [Except.ok.inj hv]
      · exact lt_of_lt_of_le (ih hmem) (max_le_max le_rfl hshorter)
    · cases List.mem_singleton.mp hmem

/-- From the start of any stream, a sequence of reads is answered as it is bit by bit. No
read shifts a word by its width, and a count passes a word only in a stream with as many
bits. -/
theorem bit_reader_refines (bytes : List UInt8) (requests : List Request) :
    transcript BitReader.answer ⟨bytes, 0, 0, 0⟩ requests =
        transcript answerBits (byteBits bytes) requests ∧
      (∀ answered ∈ transcript BitReader.answer ⟨bytes, 0, 0, 0⟩ requests, NoPanic answered) ∧
      ∀ v, .ok v ∈ transcript BitReader.answer ⟨bytes, 0, 0, 0⟩ requests →
        v < max (2 ^ 64) (8 * bytes.length) := by
  have hstart := BitReader.ready_start bytes
  have hrun := BitReader.transcript_eq hstart requests
  refine ⟨hrun, fun _ hmem => BitReader.noPanic_of_mem_transcript hstart hmem, ?_⟩
  intro v hmem
  rw [hrun] at hmem
  have hlt := lt_of_mem_transcript hmem
  rwa [show BitReader.rest ⟨bytes, 0, 0, 0⟩ = byteBits bytes from rfl, byteBits_length] at hlt

end FitsWell.Rice
