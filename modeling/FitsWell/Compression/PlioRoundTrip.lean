import FitsWell.Compression.PlioSegments

/-!
# The PLIO_1 round trip

The decoder is run on the words of the segments the encoder wrote. Every word adds its
pixels to those decoded before, with one exception: the encoder marks a lone high pixel
by adding to the last word of the zeros before it, and when that word already holds 4095
zeros the addition carries into the opcode. The carried word decodes as one high pixel
with no zeros, so the round trip holds exactly for the masks that never reach it.
-/

namespace FitsWell.Plio

/-! ## The decoder on a list of words -/

/-- The word after the current one. -/
def nextWord : List Word → Outcome Word
  | [] => fail .unexpectedEof
  | next :: _ => .ok next

/-- The decoder's loop on the words that remain, the list's own recursion. -/
def decodeList (xe : ℤ) : List Word → DecodeState → Outcome (List ℤ)
  | [], s => .ok s.px
  | word :: words, s =>
    if s.skipWord then decodeList xe words { s with skipWord := false }
    else do
      let s ← s.step xe word (nextWord words)
      if xe < s.x1 then .ok s.px else decodeList xe words s

/-- A word is two bytes. -/
theorem Word.beBytes_length (word : Word) : word.beBytes.length = 2 := Bytes.beBytes_length 2 _

/-- The bytes of a word spell it. -/
theorem Word.ofBeBytes_beBytes (word : Word) :
    BitVec.ofNat 16 (Bytes.ofBeBytes word.beBytes) = word := by
  rw [Word.beBytes, Bytes.ofBeBytes_beBytes_of_lt word.isLt, BitVec.ofNat_toNat,
    BitVec.setWidth_eq]

/-- Reading the bytes of a word list gives its words. -/
theorem beWord_of_getElem? {words : List Word} {index : ℕ} {word : Word}
    (hword : words[index]? = some word) :
    beWord (words.flatMap Word.beBytes) index = .ok word := by
  have htake := Bytes.take_drop_flatMap_width Word.beBytes_length hword
  obtain ⟨high, low, hbytes⟩ : ∃ high low, word.beBytes = [high, low] :=
    List.length_eq_two.mp word.beBytes_length
  rw [hbytes] at htake
  have hsplit := List.take_append_drop 2 ((words.flatMap Word.beBytes).drop (2 * index))
  rw [htake] at hsplit
  rw [beWord, ← hsplit]
  simp only [List.cons_append, List.nil_append]
  rw [← hbytes, Word.ofBeBytes_beBytes]

/-- The decoder's loop follows the words of its list. -/
theorem decodeLoop_eq (words : List Word) (xe : ℤ) (s : DecodeState) (ip : ℕ) :
    decodeLoop (words.flatMap Word.beBytes) words.length xe s (ip + 1) =
      decodeList xe (words.drop ip) s := by
  induction hrest : words.length - ip generalizing s ip with
  | zero =>
    rw [decodeLoop, if_neg (by omega), List.drop_eq_nil_of_le (by omega), decodeList]
  | succ rest ih =>
    have hip : ip < words.length := by omega
    have hword := beWord_of_getElem? (List.getElem?_eq_getElem hip)
    have hnext : (if words.length ≤ ip + 1 then fail .unexpectedEof
        else beWord (words.flatMap Word.beBytes) (ip + 1)) = nextWord (words.drop (ip + 1)) := by
      by_cases hlast : words.length ≤ ip + 1
      · rw [if_pos hlast, List.drop_eq_nil_of_le hlast, nextWord]
      · rw [if_neg hlast, beWord_of_getElem? (List.getElem?_eq_getElem (by omega)),
          List.drop_eq_getElem_cons (by omega), nextWord]
    rw [decodeLoop, if_pos (by omega), List.drop_eq_getElem_cons hip, decodeList, hnext]
    by_cases hskip : s.skipWord = true
    · rw [if_pos hskip, if_pos hskip, ih _ (ip + 1) (by omega)]
    · rw [if_neg hskip, if_neg hskip]
      simp only [Nat.add_sub_cancel, hword, bind, Except.bind]
      cases s.step xe words[ip] _ with
      | error fault => rfl
      | ok s' =>
        simp only
        rw [ih s' (ip + 1) (by omega)]

/-! ## Decoded pixels -/

section Resume

variable {npix : ℕ}

/-- The decoder's state once the pixels `done` are decoded and the high value is `pv`. -/
def decodedState (npix : ℕ) (done : List ℤ) (pv : ℤ) : DecodeState :=
  { skipWord := false
    op := done.length + 1
    x1 := done.length + 1
    pv := pv
    px := done ++ List.replicate (npix - done.length) 0 }

/-- The decoder's result once the pixels `done` are decoded and `words` remain. -/
def resume (npix : ℕ) (words : List Word) (done : List ℤ) (pv : ℤ) : Outcome (List ℤ) :=
  if done.length < npix then decodeList npix words (decodedState npix done pv) else .ok done

/-- A complete image needs no further word. -/
theorem resume_complete {words : List Word} {done : List ℤ} {pv : ℤ} (h : done.length = npix) :
    resume npix words done pv = .ok done := by
  rw [resume, if_neg (by omega)]

/-- One instruction that leads from decoded pixels to more decoded pixels. -/
theorem resume_of_step {word : Word} {words : List Word} {done done' : List ℤ} {pv pv' : ℤ}
    (hlt : done.length < npix) (hle : done'.length ≤ npix)
    (hstep : ∀ next, (decodedState npix done pv).step npix word next =
      .ok (decodedState npix done' pv')) :
    resume npix (word :: words) done pv = resume npix words done' pv' := by
  have hskip : (decodedState npix done pv).skipWord ≠ true := Bool.false_ne_true
  rw [resume, if_pos hlt, decodeList, if_neg hskip, hstep]
  simp only [bind, Except.bind, resume]
  by_cases hfull : done'.length < npix
  · rw [if_pos hfull, if_neg (by simp only [decodedState]; omega)]
  · have hzero : npix - done'.length = 0 := by omega
    rw [if_neg hfull, if_pos (by simp only [decodedState]; omega)]
    simp [decodedState, hzero]

/-- A run in two parts. -/
theorem replicate_split {a b n : ℕ} (value : ℤ) (h : a + b = n) :
    List.replicate n value = List.replicate a value ++ List.replicate b value := by
  rw [List.replicate_append_replicate, h]

/-- The pixels a run word stands for. -/
def runPixels (opcode data : ℕ) (pv : ℤ) : List ℤ :=
  if opcode = 4 then List.replicate data pv
  else if opcode = 5 then List.replicate (data - 1) 0 ++ [pv]
  else List.replicate data 0

/-- A zero word stands for zeros. -/
theorem runPixels_zero (data : ℕ) (pv : ℤ) : runPixels 0 data pv = List.replicate data 0 := rfl

/-- Filling the first places after a prefix. -/
theorem fill_append_replicate (done : List ℤ) {count room : ℕ} (value : ℤ) (h : count ≤ room) :
    fill (done ++ List.replicate room 0) done.length count value =
      done ++ List.replicate count value ++ List.replicate (room - count) 0 := by
  induction count with
  | zero => simp [fill]
  | succ count ih =>
    have hroom : room - count = (room - (count + 1)) + 1 := by omega
    have hlast : fill (done ++ List.replicate room 0) done.length (count + 1) value =
        (fill (done ++ List.replicate room 0) done.length count value).set (done.length + count)
          value := by
      simp only [fill, List.range_succ, List.foldl_append, List.foldl_cons, List.foldl_nil]
    rw [hlast, ih (by omega), hroom, List.replicate_succ, List.set_append_right _ _ (by simp)]
    simp [List.replicate_succ']

/-- Setting one place after a prefix and some zeros. -/
theorem set_append_replicate (done : List ℤ) (zeros : ℕ) {room : ℕ} (value : ℤ) (h : zeros < room) :
    (done ++ List.replicate room 0).set (done.length + zeros) value =
      done ++ (List.replicate zeros 0 ++ [value]) ++ List.replicate (room - (zeros + 1)) 0 := by
  have hroom : room = zeros + ((room - (zeros + 1)) + 1) := by omega
  conv_lhs => rw [hroom, List.replicate_add, List.replicate_succ, ← List.append_assoc]
  rw [List.set_append_right _ _ (by simp)]
  simp

/-- A run word adds its pixels. -/
theorem run_decodedState {done : List ℤ} (pv : ℤ) (opcode : ℕ) {data : ℕ} (hdata : 0 < data)
    (hfit : done.length + data ≤ npix) :
    (decodedState npix done pv).run npix opcode data =
      decodedState npix (done ++ runPixels opcode data pv) pv := by
  have hlength : (runPixels opcode data pv).length = data := by
    unfold runPixels
    split
    · simp
    · split
      · simp; omega
      · simp
  have hx2 : ((done.length : ℤ) + 1 + data - 1) = done.length + data := by ring
  have hmin : min ((done.length : ℤ) + data) npix = done.length + data := by omega
  have hnp : (done.length : ℤ) + data - (done.length + 1) + 1 = data := by ring
  have hop : ((done.length : ℤ) + 1 - 1).toNat = done.length := by omega
  have hotop : ((done.length : ℤ) + data - 1).toNat = done.length + (data - 1) := by omega
  have hpos : (0 : ℤ) < data := by omega
  have hpx : (if opcode = 4 then
        fill (done ++ List.replicate (npix - done.length) 0) done.length data pv
      else if opcode = 5 then
        (done ++ List.replicate (npix - done.length) 0).set (done.length + (data - 1)) pv
      else done ++ List.replicate (npix - done.length) 0) =
      done ++ runPixels opcode data pv ++ List.replicate (npix - (done.length + data)) 0 := by
    have hroom : npix - done.length - data = npix - (done.length + data) := by omega
    unfold runPixels
    split
    · rw [fill_append_replicate _ _ (by omega), hroom]
    · split
      · rw [set_append_replicate _ _ _ (by omega), Nat.sub_add_cancel hdata, hroom]
      · rw [List.append_assoc, List.replicate_append_replicate]
        congr 2
        omega
  simp only [DecodeState.run, decodedState, hx2, hmin, hnp, if_pos hpos, hop, hotop,
    Int.toNat_natCast, and_true, hpx, List.length_append, hlength, Nat.cast_add]

/-- A single-pixel word adds its pixel. -/
theorem single_decodedState {done : List ℤ} {pv high : ℤ} (hlt : done.length < npix) :
    (decodedState npix done pv).single npix high = decodedState npix (done ++ [high]) high := by
  have hle : (done.length : ℤ) + 1 ≤ npix := by omega
  have hop : ((done.length : ℤ) + 1 - 1).toNat = done.length + 0 := by omega
  have hset := set_append_replicate done 0 high (show 0 < npix - done.length by omega)
  have hroom : npix - done.length - (0 + 1) = npix - (done.length + 1) := by omega
  rw [hroom] at hset
  simp only [DecodeState.single, decodedState, if_pos hle, hop, hset]
  simp

/-! ## The words of a segment decode to its pixels -/

/-- A word with opcode 0, 4 or 5 and some data adds its pixels. -/
theorem resume_run {word : Word} {words : List Word} {done : List ℤ} {pv : ℤ} {opcode data : ℕ}
    (hword : word.toNat = opcode * 4096 + data) (hopcode : opcode = 0 ∨ opcode = 4 ∨ opcode = 5)
    (hdata : 0 < data) (hsmall : data ≤ 4095) (hfit : done.length + data ≤ npix) :
    resume npix (word :: words) done pv =
      resume npix words (done ++ runPixels opcode data pv) pv := by
  have hop : word.toNat / 4096 = opcode := by omega
  have hmod : word.toNat % 4096 = data := by omega
  have hrun := run_decodedState pv opcode hdata hfit
  have hlength : (runPixels opcode data pv).length = data := by
    rcases hopcode with rfl | rfl | rfl <;> simp [runPixels]
    omega
  refine resume_of_step (by omega) (by rw [List.length_append, hlength]; exact hfit) ?_
  intro next
  rcases hopcode with rfl | rfl | rfl <;> simp only [DecodeState.step, hop, hmod, hrun]

/-- The words of a zero run decode to its zeros. -/
theorem resume_zeros {n : ℕ} {words : List Word} {done : List ℤ} {pv : ℤ}
    (hfit : done.length + n ≤ npix) :
    resume npix (runWords 0 n ++ words) done pv =
      resume npix words (done ++ List.replicate n 0) pv := by
  induction n using Nat.strong_induction_on generalizing done with
  | _ n ih =>
    rw [runWords]
    by_cases hn : 0 < n
    · have hword : (BitVec.ofNat 16 (min n 4095 + 0)).toNat = 0 * 4096 + min n 4095 := by
        rw [BitVec.toNat_ofNat]; omega
      have hsplit : List.replicate n (0 : ℤ) =
          List.replicate (min n 4095) 0 ++ List.replicate (n - 4095) 0 :=
        replicate_split 0 (by omega)
      rw [if_pos hn, List.cons_append,
        resume_run hword (Or.inl rfl) (by omega) (by omega) (by omega), runPixels_zero,
        ih (n - 4095) (by omega)]
      · rw [hsplit, ← List.append_assoc]
      · rw [List.length_append, List.length_replicate]
        omega
    · have hzero : n = 0 := by omega
      simp [hzero]

/-- The words of a high run decode to its pixels. -/
theorem resume_highs {n : ℕ} {words : List Word} {done : List ℤ} {pv : ℤ}
    (hfit : done.length + n ≤ npix) :
    resume npix (runWords 16384 n ++ words) done pv =
      resume npix words (done ++ List.replicate n pv) pv := by
  induction n using Nat.strong_induction_on generalizing done with
  | _ n ih =>
    rw [runWords]
    by_cases hn : 0 < n
    · have hword : (BitVec.ofNat 16 (min n 4095 + 16384)).toNat = 4 * 4096 + min n 4095 := by
        rw [BitVec.toNat_ofNat]; omega
      have hsplit : List.replicate n pv =
          List.replicate (min n 4095) pv ++ List.replicate (n - 4095) pv :=
        replicate_split pv (by omega)
      rw [if_pos hn, List.cons_append,
        resume_run hword (Or.inr (Or.inl rfl)) (by omega) (by omega) (by omega),
        ih (n - 4095) (by omega)]
      · rw [hsplit, ← List.append_assoc]
        simp [runPixels]
      · simp only [runPixels, if_true, List.length_append, List.length_replicate]
        omega
    · have hzero : n = 0 := by omega
      simp [hzero]

/-- A lone high pixel folded into zeros that do not fill their last word decodes after
them. -/
theorem resume_folded {n : ℕ} {words : List Word} {done : List ℤ} {pv : ℤ}
    (hn : n % 4095 ≠ 0) (hfit : done.length + (n + 1) ≤ npix) :
    resume npix (foldedWords n ++ words) done pv =
      resume npix words (done ++ (List.replicate n 0 ++ [pv])) pv := by
  induction n using Nat.strong_induction_on generalizing done with
  | _ n ih =>
    rw [foldedWords]
    by_cases hlong : 4095 < n
    · have hword : (BitVec.ofNat 16 4095).toNat = 0 * 4096 + 4095 := rfl
      have hsplit : List.replicate n (0 : ℤ) =
          List.replicate 4095 0 ++ List.replicate (n - 4095) 0 :=
        replicate_split 0 (by omega)
      rw [if_pos hlong, List.cons_append,
        resume_run hword (Or.inl rfl) (by omega) (by omega) (by omega),
        runPixels_zero, ih (n - 4095) (by omega) (by omega)]
      · rw [hsplit]
        simp only [List.append_assoc]
      · rw [List.length_append, List.length_replicate]
        omega
    · have hword : (BitVec.ofNat 16 (n + 20481)).toNat = 5 * 4096 + (n + 1) := by
        rw [BitVec.toNat_ofNat]; omega
      rw [if_neg hlong, List.cons_append, List.nil_append,
        resume_run hword (Or.inr (Or.inr rfl)) (by omega) (by omega) hfit]
      simp [runPixels]

/-- The word that overflowed: one high pixel and no change of the high value. -/
theorem resume_carried {words : List Word} {done : List ℤ} {pv : ℤ} (hlt : done.length < npix) :
    resume npix (BitVec.ofNat 16 (6 * 4096) :: words) done pv =
      resume npix words (done ++ [pv]) pv := by
  refine resume_of_step hlt (by simp; omega) (fun next => ?_)
  have hstep : (decodedState npix done pv).step npix (BitVec.ofNat 16 (6 * 4096)) next =
      .ok ((decodedState npix done pv).single npix (pv + (0 : ℕ))) := rfl
  rw [hstep, Nat.cast_zero, add_zero, single_decodedState hlt]

/-- A lone high pixel folded into zeros that fill their last word decodes in place of
that word's 4095 zeros: the word's opcode is 6 and its data 0. -/
theorem resume_overflowed {n : ℕ} {words : List Word} {done : List ℤ} {pv : ℤ} (hn : 0 < n)
    (hfull : n % 4095 = 0) (hfit : done.length + (n + 1) ≤ npix) :
    resume npix (foldedWords n ++ words) done pv =
      resume npix words (done ++ (List.replicate (n - 4095) 0 ++ [pv])) pv := by
  induction n using Nat.strong_induction_on generalizing done with
  | _ n ih =>
    rw [foldedWords]
    by_cases hlong : 4095 < n
    · have hword : (BitVec.ofNat 16 4095).toNat = 0 * 4096 + 4095 := rfl
      have hsplit : List.replicate (n - 4095) (0 : ℤ) =
          List.replicate 4095 0 ++ List.replicate (n - 4095 - 4095) 0 :=
        replicate_split 0 (by omega)
      rw [if_pos hlong, List.cons_append,
        resume_run hword (Or.inl rfl) (by omega) (by omega) (by omega), runPixels_zero,
        ih (n - 4095) (by omega) (by omega) (by omega)]
      · rw [hsplit]
        simp only [List.append_assoc]
      · rw [List.length_append, List.length_replicate]
        omega
    · have hword : n + 20481 = 6 * 4096 := by omega
      have hnone : n - 4095 = 0 := by omega
      rw [if_neg hlong, List.cons_append, List.nil_append, hword, resume_carried (by omega), hnone]
      simp

/-- A value the stream holds. -/
def InRange (value : ℤ) : Prop := 0 ≤ value ∧ value ≤ 0xFFFFFF

instance (value : ℤ) : Decidable (InRange value) :=
  inferInstanceAs (Decidable (0 ≤ value ∧ value ≤ 0xFFFFFF))

/-- A small number as a word. -/
theorem toNat_ofInt {value : ℤ} (h : 0 ≤ value) (hsmall : value < 65536) :
    (BitVec.ofInt 16 value).toNat = value.toNat := by
  rw [BitVec.toNat_ofInt]
  omega

/-- The word that adjusts the high value by at most 4095: opcode 2 up, opcode 3 down. -/
theorem adjustWords_near {hi high : ℤ} (hne : high ≠ hi) (hnear : (high - hi).natAbs ≤ 4095) :
    ∃ word : Word, adjustWords hi high = [word] ∧
      (word.toNat = 2 * 4096 + (high - hi).natAbs ∧ hi < high ∨
        word.toNat = 3 * 4096 + (high - hi).natAbs ∧ high < hi) := by
  have hfar : ¬4095 < (high - hi).natAbs := by omega
  rw [adjustWords, if_neg hne, if_neg hfar]
  by_cases hdown : high < hi
  · rw [if_pos hdown]
    refine ⟨_, rfl, Or.inr ⟨?_, hdown⟩⟩
    rw [toNat_ofInt (by omega) (by omega)]
    omega
  · rw [if_neg hdown]
    refine ⟨_, rfl, Or.inl ⟨?_, by omega⟩⟩
    rw [toNat_ofInt (by omega) (by omega)]
    omega

/-- The adjusting words set the high value and decode no pixel. -/
theorem resume_adjust {words : List Word} {done : List ℤ} {hi high : ℤ}
    (hlt : done.length < npix) (hhigh : InRange high) :
    resume npix (adjustWords hi high ++ words) done hi = resume npix words done high := by
  obtain ⟨hlow, htop⟩ := hhigh
  by_cases hne : high = hi
  · rw [adjustWords, if_pos hne, List.nil_append, hne]
  · by_cases hnear : (high - hi).natAbs ≤ 4095
    · obtain ⟨word, hwords, hword⟩ := adjustWords_near hne hnear
      rw [hwords, List.cons_append, List.nil_append]
      refine resume_of_step hlt (by omega) (fun next => ?_)
      rcases hword with ⟨hword, hup⟩ | ⟨hword, hdown⟩
      · have hop : word.toNat / 4096 = 2 := by omega
        have hdata : hi + ((word.toNat % 4096 : ℕ) : ℤ) = high := by omega
        simp only [DecodeState.step, hop, decodedState, hdata]
      · have hop : word.toNat / 4096 = 3 := by omega
        have hdata : hi - ((word.toNat % 4096 : ℕ) : ℤ) = high := by omega
        simp only [DecodeState.step, hop, decodedState, hdata]
    · have hfirst : (BitVec.ofInt 16 (high % 4096 + 4096)).toNat = (high % 4096).toNat + 4096 := by
        rw [toNat_ofInt (by omega) (by omega)]
        omega
      have hsecond : (BitVec.ofInt 16 (high / 4096)).toNat = (high / 4096).toNat :=
        toNat_ofInt (by omega) (by omega)
      have hop : (BitVec.ofInt 16 (high % 4096 + 4096)).toNat / 4096 = 1 := by omega
      have hvalue : ((BitVec.ofInt 16 (high / 4096)).toNat : ℤ) * 4096 +
          ((BitVec.ofInt 16 (high % 4096 + 4096)).toNat % 4096 : ℕ) = high := by omega
      have hx1 : ¬((npix : ℤ) < (done.length : ℤ) + 1) := by omega
      rw [adjustWords, if_neg hne, if_pos (by omega)]
      simp only [resume, if_pos hlt, List.cons_append, List.nil_append, decodeList, nextWord,
        DecodeState.step, hop, decodedState, hvalue, bind, Except.bind, if_neg hx1, if_true,
        Bool.false_eq_true, if_false]

/-- A lone high pixel in the adjusting word sets the high value and decodes the pixel. -/
theorem resume_single {words : List Word} {done : List ℤ} {hi high : ℤ}
    (hlt : done.length < npix) (hne : high ≠ hi) (hnear : (high - hi).natAbs ≤ 4095) :
    resume npix ((adjustWords hi high).map (· ||| 16384) ++ words) done hi =
      resume npix words (done ++ [high]) high := by
  obtain ⟨word, hwords, hword⟩ := adjustWords_near hne hnear
  have hlow : word.toNat < 2 ^ 14 := by omega
  have hor : (word ||| 16384).toNat = 16384 + word.toNat := by
    have h := Nat.two_pow_add_eq_or_of_lt hlow 1
    rw [Nat.mul_one] at h
    rw [BitVec.toNat_or, Nat.or_comm]
    exact h.symm
  rw [hwords, List.map_cons, List.map_nil, List.cons_append, List.nil_append]
  refine resume_of_step hlt (by simp; omega) (fun next => ?_)
  rcases hword with ⟨hword, hup⟩ | ⟨hword, hdown⟩
  · have hop : (word ||| 16384).toNat / 4096 = 6 := by omega
    have hdata : (decodedState npix done hi).pv + (((word ||| 16384).toNat % 4096 : ℕ) : ℤ) =
        high := by
      simp only [decodedState]; omega
    simp only [DecodeState.step, hop, hdata, single_decodedState hlt]
  · have hop : (word ||| 16384).toNat / 4096 = 7 := by omega
    have hdata : (decodedState npix done hi).pv - (((word ||| 16384).toNat % 4096 : ℕ) : ℤ) =
        high := by
      simp only [decodedState]; omega
    simp only [DecodeState.step, hop, hdata, single_decodedState hlt]

/-- The segments whose words overflow: zeros that fill their words exactly, before a lone
high pixel. -/
def Segment.splitFold (segment : Segment) : Prop :=
  0 < segment.zeros ∧ segment.zeros % 4095 = 0 ∧ segment.count = 1

instance (segment : Segment) : Decidable segment.splitFold :=
  inferInstanceAs (Decidable (_ ∧ _))

/-- The segments a mask has: high pixels are positive and in range, and a segment without
one is of zeros. -/
structure Segment.Valid (segment : Segment) : Prop where
  high : 0 < segment.count → 0 < segment.high ∧ segment.high ≤ 0xFFFFFF
  zeros : segment.count = 0 → 0 < segment.zeros ∧ segment.high = 0

/-- A segment's pixels number its zeros and its high pixels. -/
theorem Segment.pixels_length (segment : Segment) :
    segment.pixels.length = segment.zeros + segment.count := by
  simp [Segment.pixels]

/-- A segment that does not overflow decodes to its pixels. -/
theorem resume_segment {segment : Segment} {words : List Word} {done : List ℤ} {hi : ℤ}
    (hvalid : segment.Valid) (hfold : ¬segment.splitFold)
    (hfit : done.length + segment.pixels.length ≤ npix) :
    resume npix (segment.words hi ++ words) done hi =
      resume npix words (done ++ segment.pixels) (segment.nextHigh hi) := by
  obtain ⟨zeros, high, count⟩ := segment
  rw [Segment.pixels_length] at hfit
  simp only [Segment.splitFold] at hfold hfit
  by_cases hcount : count = 0
  · obtain ⟨hzeros, rfl⟩ := hvalid.zeros hcount
    subst hcount
    simp only [Segment.words, if_true, Segment.pixels, Segment.nextHigh, List.replicate_zero,
      List.append_nil, if_neg (Int.lt_irrefl 0)]
    exact resume_zeros hfit
  · obtain ⟨hpos, htop⟩ := hvalid.high (Nat.pos_of_ne_zero hcount)
    simp only at hpos htop
    have hlt : done.length < npix := by omega
    have hrange : InRange high := ⟨by omega, htop⟩
    simp only [Segment.words, if_neg hcount, Segment.pixels, Segment.nextHigh, if_pos hpos]
    by_cases hsingle : (Segment.mk zeros high count).single hi
    · obtain ⟨hz, hone, hne, hnear⟩ := id hsingle
      simp only at hz hone hne hnear
      subst hz hone
      rw [if_pos hsingle, resume_single hlt hne hnear]
      rfl
    · rw [if_neg hsingle]
      by_cases hone : 0 < zeros ∧ count = 1
      · obtain ⟨hz, rfl⟩ := hone
        rw [if_pos ⟨hz, rfl⟩, List.append_assoc, resume_adjust hlt hrange,
          resume_folded (by omega) (by omega)]
        rfl
      · rw [if_neg hone, List.append_assoc, List.append_assoc, resume_adjust hlt hrange,
          resume_zeros (by omega), resume_highs (by simp; omega), List.append_assoc]

/-! ## Decoded pixels stay -/

/-- Filling from a place on leaves the places before it. -/
theorem fill_getElem? {px : List ℤ} {start count i : ℕ} {value : ℤ} (hi : i < start) :
    (fill px start count value)[i]? = px[i]? := by
  induction count with
  | zero => rfl
  | succ count ih =>
    have hlast : fill px start (count + 1) value =
        (fill px start count value).set (start + count) value := by
      simp only [fill, List.range_succ, List.foldl_append, List.foldl_cons, List.foldl_nil]
    rw [hlast, List.getElem?_set_ne (by omega), ih]

/-- What an instruction keeps: the output position does not move back, and the pixels
before it stay as they are. -/
def Keeps (s s' : DecodeState) : Prop :=
  s.op ≤ s'.op ∧ ∀ i : ℕ, (i : ℤ) + 1 < s.op → s'.px[i]? = s.px[i]?

/-- A run keeps the pixels before it. -/
theorem keeps_run (s : DecodeState) (xe : ℤ) (opcode data : ℕ) :
    Keeps s (s.run xe opcode data) := by
  unfold DecodeState.run
  by_cases hnp : 0 < min (s.x1 + data - 1) xe - s.x1 + 1
  · simp only [if_pos hnp]
    refine ⟨by dsimp only; omega, fun i hi => ?_⟩
    dsimp only
    split
    · exact fill_getElem? (by omega)
    · split
      · exact List.getElem?_set_ne (by omega)
      · rfl
  · simp only [if_neg hnp]
    exact ⟨le_rfl, fun _ _ => rfl⟩

/-- A single pixel keeps the pixels before it. -/
theorem keeps_single (s : DecodeState) (xe pv : ℤ) : Keeps s (s.single xe pv) := by
  unfold DecodeState.single
  by_cases hx1 : s.x1 ≤ xe
  · simp only [if_pos hx1]
    exact ⟨by dsimp only; omega, fun i hi => List.getElem?_set_ne (by omega)⟩
  · simp only [if_neg hx1]
    exact ⟨le_rfl, fun _ _ => rfl⟩

/-- Every instruction keeps the pixels before its output position. -/
theorem keeps_step {s s' : DecodeState} {xe : ℤ} {word : Word} {next : Outcome Word}
    (hstep : s.step xe word next = .ok s') : Keeps s s' := by
  unfold DecodeState.step at hstep
  dsimp only at hstep
  split at hstep
  · cases hstep; exact keeps_run ..
  · cases hstep; exact keeps_run ..
  · cases hstep; exact keeps_run ..
  · cases hnext : next with
    | error fault => rw [hnext] at hstep; cases hstep
    | ok word' => rw [hnext] at hstep; cases hstep; exact ⟨le_rfl, fun _ _ => rfl⟩
  · cases hstep; exact ⟨le_rfl, fun _ _ => rfl⟩
  · cases hstep; exact ⟨le_rfl, fun _ _ => rfl⟩
  · cases hstep; exact keeps_single ..
  · cases hstep; exact keeps_single ..
  · cases hstep

/-- A run of the decoder keeps the pixels before its output position. -/
theorem decodeList_keeps {xe : ℤ} {words : List Word} {s : DecodeState} {px : List ℤ}
    (hdecode : decodeList xe words s = .ok px) {i : ℕ} (hi : (i : ℤ) + 1 < s.op) :
    px[i]? = s.px[i]? := by
  induction words generalizing s with
  | nil => cases hdecode; rfl
  | cons word words ih =>
    rw [decodeList] at hdecode
    by_cases hskip : s.skipWord = true
    · rw [if_pos hskip] at hdecode
      simpa only using ih hdecode hi
    · rw [if_neg hskip] at hdecode
      cases hstep : s.step xe word (nextWord words) with
      | error fault => rw [hstep] at hdecode; cases hdecode
      | ok s' =>
        obtain ⟨hop, hpx⟩ := keeps_step hstep
        rw [hstep] at hdecode
        simp only [bind, Except.bind] at hdecode
        by_cases hdone : xe < s'.x1
        · rw [if_pos hdone] at hdecode
          cases hdecode
          exact hpx i hi
        · rw [if_neg hdone] at hdecode
          rw [ih hdecode (by omega), hpx i hi]

/-- Whatever words remain, the pixels decoded before them stay. -/
theorem resume_keeps {words : List Word} {done px : List ℤ} {pv : ℤ}
    (hresume : resume npix words done pv = .ok px) {i : ℕ} (hi : i < done.length) :
    px[i]? = done[i]? := by
  unfold resume at hresume
  split at hresume
  · rw [decodeList_keeps hresume (by simp only [decodedState]; omega)]
    simp only [decodedState]
    rw [List.getElem?_append_left hi]
  · cases hresume; rfl

/-! ## All segments -/

/-- A segment that overflows does not decode to its pixels: a high pixel stands where its
last 4095 zeros start. -/
theorem resume_splitFold {segment : Segment} (words : List Word) {done : List ℤ} (rest : List ℤ)
    (hi : ℤ)
    (hvalid : segment.Valid) (hfold : segment.splitFold)
    (hfit : done.length + segment.pixels.length ≤ npix) :
    resume npix (segment.words hi ++ words) done hi ≠ .ok (done ++ (segment.pixels ++ rest)) := by
  obtain ⟨zeros, high, count⟩ := segment
  obtain ⟨hzeros, hfull, rfl⟩ := hfold
  obtain ⟨hpos, htop⟩ := hvalid.high Nat.one_pos
  rw [Segment.pixels_length] at hfit
  simp only at hzeros hfull hpos htop hfit
  have hsingle : ¬(Segment.mk zeros high 1).single hi := fun h => by have := h.1; simp at this; omega
  simp only [Segment.words, if_neg Nat.one_ne_zero, if_neg hsingle, and_true, if_pos hzeros]
  rw [List.append_assoc, resume_adjust (by omega) ⟨by omega, htop⟩,
    resume_overflowed hzeros hfull (by omega)]
  intro hresume
  have hplace : done.length + (zeros - 4095) <
      (done ++ (List.replicate (zeros - 4095) 0 ++ [high])).length := by simp
  have hkeep := resume_keeps hresume hplace
  have hdecoded : (done ++ (List.replicate (zeros - 4095) 0 ++ [high]))[done.length + (zeros - 4095)]? =
      some high := by
    rw [List.getElem?_append_right (by omega), List.getElem?_append_right (by simp)]
    simp
  have hpixel : (done ++ ((Segment.mk zeros high 1).pixels ++ rest))[done.length + (zeros - 4095)]? =
      some 0 := by
    rw [List.getElem?_append_right (by omega)]
    simp only [Segment.pixels, List.append_assoc, Nat.add_sub_cancel_left]
    rw [List.getElem?_append_left (by simp; omega), List.getElem?_replicate, if_pos (by omega)]
  rw [hpixel, hdecoded] at hkeep
  have hzero : (0 : ℤ) = high := Option.some.inj hkeep
  omega

/-- The words of a mask's segments decode to its pixels exactly when none overflows. -/
theorem resume_segments {segs : List Segment} {done : List ℤ} (hi : ℤ)
    (hvalid : ∀ segment ∈ segs, segment.Valid)
    (hfit : done.length + (segs.flatMap Segment.pixels).length = npix) :
    resume npix (segmentsWords hi segs) done hi = .ok (done ++ segs.flatMap Segment.pixels) ↔
      ∀ segment ∈ segs, ¬segment.splitFold := by
  induction segs generalizing done hi with
  | nil =>
    have hcomplete : done.length = npix := by simpa using hfit
    simp [resume_complete hcomplete]
  | cons segment segs ih =>
    rw [List.flatMap_cons, List.length_append] at hfit
    have hhead := hvalid segment (List.mem_cons_self ..)
    rw [segmentsWords, List.flatMap_cons]
    by_cases hfold : segment.splitFold
    · have hne := resume_splitFold (segmentsWords (segment.nextHigh hi) segs)
        (segs.flatMap Segment.pixels) hi hhead hfold
        (show done.length + segment.pixels.length ≤ npix by omega)
      exact iff_of_false hne (fun h => h segment (List.mem_cons_self ..) hfold)
    · rw [resume_segment hhead hfold (by omega), ← List.append_assoc,
        ih _ (fun s hs => hvalid s (List.mem_cons_of_mem _ hs)) (by rw [List.length_append]; omega)]
      simp [hfold]

end Resume

/-! ## The segments of a mask -/

/-- A leading run is its value repeated. -/
theorem takeWhile_eq_replicate (value : ℤ) (pixels : List ℤ) :
    pixels.takeWhile (fun v => decide (v = value)) =
      List.replicate (pixels.takeWhile (fun v => decide (v = value))).length value := by
  rw [List.eq_replicate_iff]
  refine ⟨rfl, fun v hv => ?_⟩
  have h := List.mem_takeWhile_imp (p := fun v => decide (v = value)) hv
  exact of_decide_eq_true h

/-- A mask is its leading run of a value and what follows. -/
theorem replicate_append_drop (value : ℤ) (pixels : List ℤ) :
    List.replicate (pixels.takeWhile (fun v => decide (v = value))).length value ++
      pixels.drop (pixels.takeWhile (fun v => decide (v = value))).length = pixels := by
  rw [← takeWhile_eq_replicate, Chunks.drop_length_takeWhile, List.takeWhile_append_dropWhile]

/-- The segments of a mask hold its pixels in order, and each is valid where each pixel is
in the stream's range. -/
theorem segments_spec {pixels : List ℤ} (hrange : ∀ v ∈ pixels, InRange v) :
    (segments pixels).flatMap Segment.pixels = pixels ∧
      ∀ segment ∈ segments pixels, segment.Valid := by
  induction hlength : pixels.length using Nat.strong_induction_on generalizing pixels with
  | _ length ih =>
    by_cases hnil : pixels = []
    · subst hnil
      simp [segments]
    · set zeros := (pixels.takeWhile (fun v => decide (v = 0))).length with hzeros
      have hpixels := replicate_append_drop 0 pixels
      rw [← hzeros] at hpixels
      cases hdrop : pixels.drop zeros with
      | nil =>
        rw [hdrop, List.append_nil] at hpixels
        rw [segments_of_zeros hnil hzeros.symm hdrop]
        have hpos : 0 < zeros := by
          refine Nat.pos_of_ne_zero (fun h => hnil ?_)
          rw [← hpixels, h, List.replicate_zero]
        refine ⟨by simpa [Segment.pixels] using hpixels, fun segment hmem => ?_⟩
        rw [List.mem_singleton.mp hmem]
        exact ⟨fun h => absurd h (Nat.lt_irrefl 0), fun _ => ⟨hpos, rfl⟩⟩
      | cons high rest =>
        set count := (rest.takeWhile (fun v => decide (v = high))).length with hcount
        have hrest := replicate_append_drop high rest
        rw [← hcount] at hrest
        have hmem : high ∈ pixels := List.mem_of_mem_drop (i := zeros) (by rw [hdrop]; simp)
        have hne : high ≠ 0 := by
          rw [hzeros] at hdrop
          have h := Chunks.not_of_drop_takeWhile hdrop
          exact of_decide_eq_false h
        have hlt : (rest.drop count).length < length := by
          have h := congrArg List.length hdrop
          simp only [List.length_drop, List.length_cons] at h ⊢
          omega
        have hsub : ∀ v ∈ rest.drop count, InRange v := fun v hv => hrange v
          (List.mem_of_mem_drop (i := zeros) (by rw [hdrop]; simp [List.mem_of_mem_drop hv]))
        obtain ⟨htail, hvalid⟩ := ih _ hlt hsub rfl
        rw [segments_of_high hzeros.symm hdrop, ← hcount]
        refine ⟨?_, fun segment hsegment => ?_⟩
        · rw [List.flatMap_cons, htail]
          conv_rhs => rw [← hpixels, hdrop, ← hrest]
          simp [Segment.pixels, List.replicate_succ]
        · rcases List.mem_cons.mp hsegment with rfl | hsegment
          · obtain ⟨hlow, htop⟩ := hrange high hmem
            exact ⟨fun _ => ⟨by dsimp only; omega, htop⟩, fun h => absurd h (Nat.succ_ne_zero _)⟩
          · exact hvalid segment hsegment

/-! ## The whole stream -/

/-- A list's length in its two header words. -/
theorem lengthWords_ok {total : ℕ} {low high : Word}
    (hwords : lengthWords total = .ok (low, high)) :
    low.toInt = (total % 32768 : ℕ) ∧ high.toInt = (total / 32768 : ℕ) := by
  unfold lengthWords at hwords
  split at hwords
  · rename_i hsmall
    cases hwords
    constructor <;>
    · rw [BitVec.toInt_eq_toNat_of_lt] <;> simp only [BitVec.toNat_ofNat] <;> omega
  · cases hwords

/-- A written list decodes as its instructions do. -/
theorem decodeWords_list (npix : ℕ) {words : List Word} {low high : Word} (hpos : 0 < npix)
    (hwords : lengthWords (7 + words.length) = .ok (low, high)) :
    decodeWords
        ((((headerWords ++ words).set 3 low).set 4 high).flatMap Word.beBytes) npix =
      resume npix words [] 1 := by
  obtain ⟨hlow, hhigh⟩ := lengthWords_ok hwords
  set list := ((headerWords ++ words).set 3 low).set 4 high with hlist
  have hshape : list = [0, 7, BitVec.ofInt 16 (-100), low, high, 0, 0] ++ words := rfl
  have hlength : list.length = 7 + words.length := by rw [hshape]; simp; omega
  have hword : ∀ (index : ℕ) {word : Word}, list[index]? = some word →
      beWord (list.flatMap Word.beBytes) index = .ok word :=
    fun _ _ => beWord_of_getElem?
  have hbounds : listBounds (list.flatMap Word.beBytes) = .ok (list.length, 8) := by
    have hv3 : ¬(0 < (BitVec.ofInt 16 (-100)).toInt) := by decide
    have hstart : (7 : Word).toInt = 7 := by decide
    have hlo : (0 : ℤ) ≤ low.toInt := by omega
    have hhi : (0 : ℤ) ≤ high.toInt := by omega
    simp only [listBounds, nonnegativeWord, bind, Except.bind,
      hword 2 (show _ = some (BitVec.ofInt 16 (-100)) by rw [hshape]; rfl), if_neg hv3,
      hword 3 (show _ = some low by rw [hshape]; rfl), if_pos hlo,
      hword 4 (show _ = some high by rw [hshape]; rfl), if_pos hhi,
      hword 1 (show _ = some 7 by rw [hshape]; rfl), hstart]
    have htotal : high.toInt.toNat * 32768 + low.toInt.toNat = list.length := by omega
    simp [htotal]
  have hbytes : (list.flatMap Word.beBytes).length = 2 * list.length :=
    Bytes.length_flatMap_width Word.beBytes_length list
  have hloop := decodeLoop_eq list npix (decodedState npix [] 1) 7
  have hdrop : list.drop 7 = words := by rw [hshape]; rfl
  rw [hdrop] at hloop
  have hstate : (⟨false, 1, 1, 1, List.replicate npix 0⟩ : DecodeState) = decodedState npix [] 1 := by
    simp [decodedState]
  simp only [decodeWords, if_neg (Nat.pos_iff_ne_zero.mp hpos), hbounds, bind, Except.bind, hbytes,
    hstate, resume, List.length_nil, if_pos hpos]
  rw [if_neg (by omega), if_neg (by omega), hloop]

/-- Adding the offset and taking it back off. -/
theorem map_sub_offset_eq {px values : List ℤ} {offset : ℤ} :
    (if offset ≠ 0 then px.map (· - offset) else px) = values ↔
      px = values.map (· + offset) := by
  by_cases hzero : offset = 0
  · simp [hzero]
  · rw [if_pos hzero]
    constructor
    · rintro rfl
      simp [List.map_map, Function.comp_def]
    · rintro rfl
      simp [List.map_map, Function.comp_def]

/-- The mask of a list of samples. -/
def Codec.mask (codec : Codec) (values : List ℤ) : List ℤ := values.map (· + codec.offset)

/-- Every list of samples the encoder takes decodes to itself exactly when its mask holds no
zero run of a positive multiple of 4095 pixels before a lone high pixel. -/
theorem decode_encode_iff {codec : Codec} {values : List ℤ} {bytes : List UInt8}
    (hencode : codec.encode values = .ok bytes) :
    codec.decode bytes values.length = .ok values ↔
      ∀ segment ∈ segments (codec.mask values), ¬segment.splitFold := by
  unfold Codec.encode at hencode
  split at hencode
  swap
  · cases hencode
  rename_i hall
  have hrange : ∀ v ∈ codec.mask values, InRange v := by
    intro v hv
    obtain ⟨u, hu, rfl⟩ := List.mem_map.mp hv
    exact of_decide_eq_true (List.all_eq_true.mp hall u hu)
  split at hencode
  · rename_i hempty
    obtain rfl := List.length_eq_zero_iff.mp hempty
    cases hencode
    simp only [Codec.mask, List.map_nil, segments_nil, List.not_mem_nil, false_implies,
      implies_true, iff_true]
    simp [Codec.decode, decodeWords, headerWords, Word.beBytes_length, bind, Except.bind]
  · rename_i hne
    have hvalues : values ≠ [] := fun h => hne (by rw [h]; rfl)
    have hlist := lineList_eq codec hvalues
      (fun v hv => (hrange _ (List.mem_map.mpr ⟨v, hv, rfl⟩)).1)
    rw [hlist] at hencode
    dsimp only at hencode
    cases hwords : lengthWords (headerWords ++
        segmentsWords 1 (segments (values.map (· + codec.offset)))).length with
    | error fault =>
      rw [hwords] at hencode
      cases hencode
    | ok pair =>
      obtain ⟨low, high⟩ := pair
      simp only [hwords, bind, Except.bind, Except.ok.injEq] at hencode
      subst hencode
      rw [List.length_append] at hwords
      obtain ⟨hpixels, hvalid⟩ := segments_spec hrange
      have hdecode := decodeWords_list values.length (by omega) hwords
      have hlength := Bytes.length_flatMap_width Word.beBytes_length
        (((headerWords ++ segmentsWords 1 (segments (values.map (· + codec.offset)))).set 3 low).set
          4 high)
      have heven : ¬(2 * (((headerWords ++ segmentsWords 1 (segments (values.map
          (· + codec.offset)))).set 3 low).set 4 high).length % 2 ≠ 0) := by omega
      have hsegments := resume_segments 1 hvalid
        (show ([] : List ℤ).length + _ = values.length by rw [hpixels]; simp [Codec.mask])
      rw [List.nil_append, hpixels] at hsegments
      rw [← hsegments, Codec.decode, hlength, if_neg heven, hdecode]
      simp only [Codec.mask]
      cases resume values.length (segmentsWords 1 (segments (values.map (· + codec.offset)))) [] 1 with
      | error fault => simp [bind, Except.bind]
      | ok px =>
        simp only [bind, Except.bind, Except.ok.injEq]
        exact map_sub_offset_eq

/-- A mask the encoder takes comes back exactly when no zero run of a positive multiple of
4095 pixels stands before a lone high pixel: the word that folds the pixel in is then the
full zero word, whose count overflows into its opcode. -/
theorem round_trip_iff_no_split_fold (codec : Codec) (values : List ℤ) (bytes : List UInt8)
    (hencode : codec.encode values = .ok bytes) :
    codec.decode bytes values.length = .ok values ↔
      ∀ segment ∈ segments (codec.mask values), ¬segment.splitFold :=
  decode_encode_iff hencode

/-- The segments of a mask that is zeros and then one high pixel. -/
theorem segments_lone {zeros : ℕ} {high : ℤ} (hhigh : high ≠ 0) :
    segments (List.replicate zeros 0 ++ [high]) = [⟨zeros, high, 1⟩] := by
  have hzeros : ((List.replicate zeros 0 ++ [high]).takeWhile
      (fun v => decide (v = 0))).length = zeros := by
    rw [List.takeWhile_append_of_pos (by simp [List.mem_replicate])]
    simp [hhigh]
  have hdrop : (List.replicate zeros 0 ++ [high]).drop zeros = [high] := by
    rw [List.drop_left' (List.length_replicate ..)]
  rw [segments_of_high hzeros hdrop]
  simp [segments_nil]

/-- A codec with no offset writes a lone one after zeros in the words of the zeros. -/
theorem encode_lone (zeros : ℕ) (low high : Word) (hzeros : 0 < zeros)
    (hwords : lengthWords (headerWords ++ foldedWords zeros).length = .ok (low, high)) :
    Codec.encode ⟨0⟩ (List.replicate zeros 0 ++ [1]) =
      .ok ((((headerWords ++ foldedWords zeros).set 3 low).set 4 high).flatMap Word.beBytes) := by
  have hvalues : ∀ v ∈ List.replicate zeros (0 : ℤ) ++ [1], 0 ≤ v + 0 ∧ streamRange (v + 0) := by
    intro v hv
    rcases List.mem_append.mp hv with h | h
    · rw [(List.mem_replicate.mp h).2]; decide
    · rw [List.mem_singleton.mp h]; decide
  have hlist := lineList_eq ⟨0⟩ (show List.replicate zeros 0 ++ [1] ≠ [] by simp)
    (fun v hv => (hvalues v hv).1)
  have hmask : (List.replicate zeros (0 : ℤ) ++ [1]).map (· + 0) = List.replicate zeros 0 ++ [1] := by
    simp
  have hsegment : segmentsWords 1 [⟨zeros, 1, 1⟩] = foldedWords zeros := by
    simp [segmentsWords, Segment.words, Segment.single, adjustWords, hzeros, hzeros.ne']
  rw [hmask, segments_lone (by decide), hsegment] at hlist
  unfold Codec.encode
  rw [if_pos (List.all_eq_true.mpr (fun v hv => (hvalues v hv).2)), if_neg (by simp), hlist]
  dsimp only
  rw [hwords]
  rfl

/-- A lone one after two zeros comes back. -/
theorem round_trip_iff_no_split_fold_short :
    Codec.decode ⟨0⟩ [0, 0, 0, 7, 255, 156, 0, 8, 0, 0, 0, 0, 0, 0, 80, 3] 3 = .ok [0, 0, 1] ↔
      ∀ segment ∈ segments (Codec.mask ⟨0⟩ [0, 0, 1]), ¬segment.splitFold :=
  round_trip_iff_no_split_fold ⟨0⟩ [0, 0, 1] _ (by
    have hfolded : foldedWords 2 = [BitVec.ofNat 16 20483] := by simp [foldedWords]
    have hencode := encode_lone 2 8 0 (by decide)
      (by rw [hfolded]; decide)
    rw [hfolded] at hencode
    exact hencode.trans (by decide))

/-- The encoder takes 4095 zeros before a one, and the decoder does not give them back. -/
theorem round_trip_fails_at_split_fold :
    ¬∀ (codec : Codec) (values : List ℤ) (bytes : List UInt8),
      codec.encode values = .ok bytes → codec.decode bytes values.length = .ok values := by
  intro hround
  have hfolded : foldedWords 4095 = [BitVec.ofNat 16 24576] := by simp [foldedWords]
  have hencode := encode_lone 4095 8 0 (by decide)
    (by rw [hfolded]; decide)
  have hdecode := hround ⟨0⟩ _ _ hencode
  rw [decode_encode_iff hencode] at hdecode
  have hmask : ∀ pixels : List ℤ, Codec.mask ⟨0⟩ pixels = pixels := by
    intro pixels
    simp [Codec.mask]
  rw [hmask, segments_lone (by decide)] at hdecode
  exact hdecode _ (List.mem_singleton_self _) (by decide)

end FitsWell.Plio
