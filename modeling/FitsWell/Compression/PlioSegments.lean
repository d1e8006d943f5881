import FitsWell.Compression.Plio
import Mathlib.Tactic.Ring

/-!
# The segments of a PLIO mask

A mask is a sequence of segments, each a run of zeros followed by a run of one high
value. This file says which words the encoder writes for a segment and proves that its
loop writes exactly the words of the mask's segments, in order.
-/

namespace FitsWell.Plio

/-- A run of zeros followed by `count` pixels of the value `high`. -/
structure Segment where
  zeros : ℕ
  high : ℤ
  count : ℕ

/-- The pixels of a segment. -/
def Segment.pixels (segment : Segment) : List ℤ :=
  List.replicate segment.zeros 0 ++ List.replicate segment.count segment.high

/-- The segments of a mask: each zero run with the maximal run that follows it. Trailing
zeros are a segment with no high pixel. -/
def segments (pixels : List ℤ) : List Segment :=
  if pixels = [] then []
  else
    let zeros := (pixels.takeWhile (fun v => decide (v = 0))).length
    match _hdrop : pixels.drop zeros with
    | [] => [⟨zeros, 0, 0⟩]
    | high :: rest =>
      let count := (rest.takeWhile (fun v => decide (v = high))).length
      ⟨zeros, high, count + 1⟩ :: segments (rest.drop count)
termination_by pixels.length
decreasing_by
  have hdrop : (high :: rest).length = pixels.length - zeros := by
    rw [← List.length_drop, _hdrop]
  simp only [List.length_cons] at hdrop
  simp only [List.length_drop]
  omega

/-- An empty mask has no segment. -/
theorem segments_nil : segments [] = [] := by
  rw [segments, if_pos rfl]

/-- A mask of zeros only is one segment. -/
theorem segments_of_zeros {pixels : List ℤ} {zeros : ℕ} (hne : pixels ≠ [])
    (hzeros : (pixels.takeWhile (fun v => decide (v = 0))).length = zeros)
    (hdrop : pixels.drop zeros = []) : segments pixels = [⟨zeros, 0, 0⟩] := by
  subst hzeros
  rw [segments, if_neg hne]
  dsimp only
  split
  · rfl
  · simp_all

/-- Zeros before a high pixel are one segment with the run of that pixel. -/
theorem segments_of_high {pixels rest : List ℤ} {zeros : ℕ} {high : ℤ}
    (hzeros : (pixels.takeWhile (fun v => decide (v = 0))).length = zeros)
    (hdrop : pixels.drop zeros = high :: rest) :
    segments pixels =
      ⟨zeros, high, (rest.takeWhile (fun v => decide (v = high))).length + 1⟩ ::
        segments (rest.drop (rest.takeWhile (fun v => decide (v = high))).length) := by
  subst hzeros
  have hne : pixels ≠ [] := by
    rintro rfl
    simp at hdrop
  rw [segments, if_neg hne]
  dsimp only
  split
  · simp_all
  · simp_all

/-- The list's high value after a segment. -/
def Segment.nextHigh (segment : Segment) (hi : ℤ) : ℤ :=
  if 0 < segment.high then segment.high else hi

/-! ## The words of a segment -/

/-- The words of a run of `n` pixels, at most 4095 in each, with `tag` added. -/
def runWords (tag n : ℕ) : List Word :=
  if 0 < n then BitVec.ofNat 16 (min n 4095 + tag) :: runWords tag (n - 4095) else []

/-- The words of `n` zeros whose last word also holds one high pixel: the last count is
raised by one and its opcode set to 5, both by one addition. -/
def foldedWords (n : ℕ) : List Word :=
  if 4095 < n then BitVec.ofNat 16 4095 :: foldedWords (n - 4095)
  else [BitVec.ofNat 16 (n + 20481)]

@[simp] theorem runWords_zero (tag : ℕ) : runWords tag 0 = [] := by
  rw [runWords, if_neg (Nat.lt_irrefl 0)]

/-- The words that move the high value from `hi` to `high`. -/
def adjustWords (hi high : ℤ) : List Word :=
  if high = hi then []
  else if 4095 < (high - hi).natAbs then
    [BitVec.ofInt 16 (high % 4096 + 4096), BitVec.ofInt 16 (high / 4096)]
  else if high < hi then [BitVec.ofInt 16 (hi - high + 12288)]
  else [BitVec.ofInt 16 (high - hi + 8192)]

/-- Whether a lone high pixel rides in the word that adjusts the high value. -/
def Segment.single (segment : Segment) (hi : ℤ) : Prop :=
  segment.zeros = 0 ∧ segment.count = 1 ∧ segment.high ≠ hi ∧ (segment.high - hi).natAbs ≤ 4095

instance (segment : Segment) (hi : ℤ) : Decidable (segment.single hi) :=
  inferInstanceAs (Decidable (_ ∧ _))

/-- The words the encoder writes for a segment when the list's high value is `hi`. -/
def Segment.words (segment : Segment) (hi : ℤ) : List Word :=
  if segment.count = 0 then runWords 0 segment.zeros
  else if segment.single hi then
    (adjustWords hi segment.high).map (· ||| 16384)
  else if 0 < segment.zeros ∧ segment.count = 1 then
    adjustWords hi segment.high ++ foldedWords segment.zeros
  else
    adjustWords hi segment.high ++ (runWords 0 segment.zeros ++ runWords 16384 segment.count)

/-- The words of consecutive segments. -/
def segmentsWords (hi : ℤ) : List Segment → List Word
  | [] => []
  | segment :: rest => segment.words hi ++ segmentsWords (segment.nextHigh hi) rest

/-! ## The loops write runs -/

/-- Pushing a run appends its words. -/
theorem pushRun_eq (tag : ℕ) (ll : List Word) (n : ℕ) :
    pushRun tag ll n = ll ++ runWords tag n := by
  induction n using Nat.strong_induction_on generalizing ll with
  | _ n ih =>
    rw [pushRun, runWords]
    by_cases hn : 0 < n
    · have hword : BitVec.ofInt 16 (min (n : ℤ) 4095 + tag) = BitVec.ofNat 16 (min n 4095 + tag) := by
        rw [← BitVec.ofInt_natCast]
        congr 1
        omega
      have hrest : pushRun tag (ll ++ [BitVec.ofNat 16 (min n 4095 + tag)]) ((n : ℤ) - 4095) =
          ll ++ [BitVec.ofNat 16 (min n 4095 + tag)] ++ runWords tag (n - 4095) := by
        by_cases hlong : 4095 ≤ n
        · rw [← ih (n - 4095) (by omega)]
          congr 1
          omega
        · have hempty : n - 4095 = 0 := by omega
          rw [hempty, pushRun, if_neg (by omega), runWords, if_neg (by omega), List.append_nil]
      rw [if_pos (by omega), if_pos hn, hword, hrest]
      simp
    · rw [if_neg (by omega), if_neg hn, List.append_nil]

/-- Updating the last word leaves the words before it. -/
theorem updateLast_append (update : Word → Word) (init : List Word) {tail : List Word}
    (htail : tail ≠ []) :
    updateLast update (init ++ tail) = init ++ updateLast update tail := by
  induction init with
  | nil => rfl
  | cons word init ih =>
    cases hrest : init ++ tail with
    | nil => simp_all
    | cons next words =>
      rw [hrest] at ih
      rw [List.cons_append, hrest, updateLast, ih, List.cons_append]

/-- A run of zeros is not empty of words. -/
theorem runWords_ne_nil (tag : ℕ) {n : ℕ} (hn : 0 < n) : runWords tag n ≠ [] := by
  rw [runWords, if_pos hn]
  exact List.cons_ne_nil _ _

/-- Folding a lone pixel into the last word of a zero run. -/
theorem updateLast_runWords {n : ℕ} (hn : 0 < n) :
    updateLast (fun last => BitVec.ofInt 16 (last.toInt + 20481)) (runWords 0 n) =
      foldedWords n := by
  induction n using Nat.strong_induction_on with
  | _ n ih =>
    rw [runWords, if_pos hn, foldedWords]
    by_cases hlong : 4095 < n
    · have hmin : min n 4095 + 0 = 4095 := by omega
      rw [if_pos hlong, hmin, ← ih (n - 4095) (by omega) (by omega)]
      exact updateLast_append _ [BitVec.ofNat 16 4095] (runWords_ne_nil 0 (by omega))
    · have hrest : n - 4095 = 0 := by omega
      have hmin : min n 4095 + 0 = n := by omega
      have hvalue : (BitVec.ofNat 16 n).toInt = n := by
        rw [BitVec.toInt_eq_toNat_of_lt] <;> simp only [BitVec.toNat_ofNat] <;> omega
      rw [if_neg hlong, hrest, runWords, if_neg (by omega), hmin]
      simp only [updateLast, hvalue]
      rw [← BitVec.ofInt_natCast]
      congr 2

/-! ## A flush writes the words of a segment -/

/-- The word that adjusts the high value is the one the abstract adjustment lists. -/
theorem pushHigh_of_near {s : EncodeState} {np nz : ℤ} (hpv : 0 < s.pv) (hdv : s.pv ≠ s.hi)
    (hnear : (s.pv - s.hi).natAbs ≤ 4095) :
    s.pushHigh np nz =
      if np = 1 ∧ nz = 0 then
        ({ s with hi := s.pv, ll := s.ll ++ (adjustWords s.hi s.pv).map (· ||| 16384) }, true)
      else ({ s with hi := s.pv, ll := s.ll ++ adjustWords s.hi s.pv }, false) := by
  have hne : s.pv - s.hi ≠ 0 := by omega
  have hfar : ¬4095 < (s.pv - s.hi).natAbs := by omega
  have hword : (if s.pv - s.hi < 0 then BitVec.ofInt 16 (-(s.pv - s.hi) + 12288)
      else BitVec.ofInt 16 (s.pv - s.hi + 8192) : Word) =
      if s.pv < s.hi then BitVec.ofInt 16 (s.hi - s.pv + 12288)
      else BitVec.ofInt 16 (s.pv - s.hi + 8192) := by
    by_cases hdown : s.pv < s.hi
    · rw [if_pos hdown, if_pos (by omega)]
      congr 1
      omega
    · rw [if_neg hdown, if_neg (by omega)]
  simp only [EncodeState.pushHigh, if_pos (And.intro hpv hne), if_neg hfar, hword, adjustWords,
    if_neg hdv]
  by_cases hsingle : np = 1 ∧ nz = 0
  · rw [if_pos hsingle, if_pos hsingle, updateLast_append _ _ (List.cons_ne_nil _ _)]
    split <;> rfl
  · rw [if_neg hsingle, if_neg hsingle]
    split <;> rfl

/-- Where no lone pixel can ride in the adjustment, it appends its words only. -/
theorem pushHigh_of_plain {s : EncodeState} {np nz : ℤ} (hpv : 0 < s.pv)
    (hplain : ¬(np = 1 ∧ nz = 0 ∧ s.pv ≠ s.hi ∧ (s.pv - s.hi).natAbs ≤ 4095)) :
    s.pushHigh np nz = ({ s with hi := s.pv, ll := s.ll ++ adjustWords s.hi s.pv }, false) := by
  by_cases hdv : s.pv = s.hi
  · have hzero : ¬(0 < s.pv ∧ s.pv - s.hi ≠ 0) := by omega
    have hsame : s = { s with hi := s.pv } := by cases s; simp_all
    simp only [EncodeState.pushHigh, if_neg hzero, adjustWords, if_pos hdv, List.append_nil]
    exact congrArg (·, false) hsame
  · by_cases hfar : 4095 < (s.pv - s.hi).natAbs
    · have hne : 0 < s.pv ∧ s.pv - s.hi ≠ 0 := ⟨hpv, by omega⟩
      simp only [EncodeState.pushHigh, if_pos hne, if_pos hfar, adjustWords, if_neg hdv]
    · rw [pushHigh_of_near hpv hdv (by omega), if_neg (by omega)]

/-- A flush of a run of high pixels appends the words of its segment. -/
theorem flush_of_high {s : EncodeState} {ip nz np : ℕ} (hnz : s.x1 - s.iz = nz)
    (hnp : (ip : ℤ) - s.x1 + 1 = np) (hpv : 0 < s.pv) (hpos : 0 < np) :
    s.flush ip =
      { s with
        ll := s.ll ++ (Segment.mk nz s.pv np).words s.hi
        hi := s.pv
        x1 := ip + 1
        iz := ip + 1
        pv := s.nv } := by
  have hhigh : ∀ ll : List Word, pushRun 16384 ll np = ll ++ runWords 16384 np :=
    fun ll => pushRun_eq 16384 ll np
  have hzeros : ∀ ll : List Word, pushRun 0 ll nz = ll ++ runWords 0 nz :=
    fun ll => pushRun_eq 0 ll nz
  have hnonempty : np ≠ 0 := by omega
  by_cases hsingle : (Segment.mk nz s.pv np).single s.hi
  · obtain ⟨hz, hone, hdv, hnear⟩ := id hsingle
    simp only at hz hone hdv hnear
    subst hz hone
    simp only [EncodeState.flush, hnz, hnp, pushHigh_of_near hpv hdv hnear, Segment.words,
      if_pos hsingle]
    simp
  · have hplain : ¬((np : ℤ) = 1 ∧ (nz : ℤ) = 0 ∧ s.pv ≠ s.hi ∧ (s.pv - s.hi).natAbs ≤ 4095) := by
      simp only [Segment.single] at hsingle
      omega
    simp only [EncodeState.flush, hnz, hnp, pushHigh_of_plain hpv hplain, Segment.words,
      if_neg hsingle, if_neg hnonempty, hhigh, hzeros]
    by_cases hz : 0 < nz
    · by_cases hone : np = 1
      · subst hone
        rw [updateLast_append _ _ (runWords_ne_nil 0 hz), updateLast_runWords hz]
        simp [hz, hpv]
      · simp [hz, hone]
    · have hz' : nz = 0 := by omega
      subst hz'
      simp

/-- A flush of trailing zeros appends the words of their segment. -/
theorem flush_of_zeros {s : EncodeState} {ip nz : ℕ} (hnz : s.x1 - s.iz = nz)
    (hx1 : s.x1 = ip + 1) (hpv : s.pv = 0) :
    (s.flush ip).ll = s.ll ++ (Segment.mk nz 0 0).words s.hi := by
  have hnp : (ip : ℤ) - s.x1 + 1 = (0 : ℕ) := by omega
  have hhigh : ∀ ll : List Word, pushRun 16384 ll (0 : ℕ) = ll ++ runWords 16384 0 :=
    fun ll => pushRun_eq 16384 ll 0
  have hzeros : ∀ ll : List Word, pushRun 0 ll nz = ll ++ runWords 0 nz :=
    fun ll => pushRun_eq 0 ll nz
  simp only [EncodeState.flush, hnz, hnp, EncodeState.pushHigh, Segment.words, hhigh, hzeros, hpv]
  by_cases hz : 0 < nz
  · simp [hz]
  · have hz' : nz = 0 := by omega
    subst hz'
    simp

/-! ## The loop writes the words of the segments -/

section Loop

variable {offset : ℤ} {values : List ℤ}

/-- A run of equal samples is a run of equal pixels. -/
theorem runLen_drop (value : ℤ) (ip : ℕ) :
    runLen (values.drop ip) (value - offset) =
      (((values.map (· + offset)).drop ip).takeWhile (fun v => decide (v = value))).length := by
  have hpred : (fun v => decide (v = value)) ∘ (· + offset) =
      fun v => decide (v = value - offset) := by
    funext v
    simp only [Function.comp_apply, decide_eq_decide]
    omega
  rw [runLen, Chunks.leadingCount_eq, ← List.map_drop, List.takeWhile_map, List.length_map, hpred]

/-- The pixel at a place of the mask is its sample plus the offset. -/
theorem getD_of_drop {ip : ℕ} {pixel : ℤ} {rest : List ℤ}
    (hdrop : (values.map (· + offset)).drop ip = pixel :: rest) :
    ip < values.length ∧ values.getD ip 0 + offset = pixel := by
  have hlt : ip < values.length := by
    by_contra hge
    rw [List.drop_eq_nil_of_le (by simpa using hge)] at hdrop
    exact absurd hdrop (by simp)
  refine ⟨hlt, ?_⟩
  rw [List.drop_eq_getElem_cons (by simpa using hlt)] at hdrop
  have hhead := (List.cons.inj hdrop).1
  rw [← hhead, List.getElem_map, List.getD_eq_getElem?_getD, List.getElem?_eq_getElem hlt,
    Option.getD_some]

/-- Past the last pixel the loop gives the list. -/
theorem encodeLoop_done {s : EncodeState} {ip : ℕ} (hip : values.length < ip) :
    encodeLoop offset values s ip = s.ll := by
  rw [encodeLoop, if_neg (by omega)]

/-- One turn of the loop, up to the last pixel of the current run. -/
theorem encodeLoop_step {s : EncodeState} {ip last : ℕ}
    (hlast : last = ip + runLen (values.drop ip) (s.pv - offset)) (hle : ip ≤ values.length) :
    encodeLoop offset values s ip =
      encodeLoop offset values
        (s.advance values.length last (values.getD last 0 + offset)) (last + 1) := by
  rw [encodeLoop]
  simp only [if_pos hle, ← hlast, Nat.add_sub_cancel]

/-- From a zero run the loop goes on to the high pixel after it. -/
theorem encodeLoop_zeros {s : EncodeState} {ip : ℕ} (last : ℕ) {pixel : ℤ}
    (hlast : last = ip + runLen (values.drop ip) (s.pv - offset)) (hlt : last < values.length)
    (hpixel : values.getD last 0 + offset = pixel) (hpv : s.pv = 0) (hne : pixel ≠ 0) :
    encodeLoop offset values s ip =
      encodeLoop offset values { s with nv := pixel, pv := pixel, x1 := (last : ℤ) + 1 }
        (last + 1) := by
  rw [encodeLoop_step hlast (by omega), hpixel]
  simp only [EncodeState.advance, if_pos hlt, if_pos hpv]
  rw [if_neg (by omega)]

/-- Trailing zeros end the list with their segment. -/
theorem encodeLoop_trailing {s : EncodeState} {ip : ℕ} (nz : ℕ)
    (hlast : values.length = ip + runLen (values.drop ip) (s.pv - offset)) (hpv : s.pv = 0)
    (hnz : (values.length : ℤ) + 1 - s.iz = nz) :
    encodeLoop offset values s ip = s.ll ++ (Segment.mk nz 0 0).words s.hi := by
  rw [encodeLoop_step hlast (by omega), encodeLoop_done (by omega)]
  simp only [EncodeState.advance, if_neg (Nat.lt_irrefl _), if_pos hpv]
  exact flush_of_zeros hnz rfl hpv

/-- A run of high pixels before another value ends in a flush and a fresh start. -/
theorem encodeLoop_high {s : EncodeState} {ip : ℕ} (last nz np : ℕ) {pixel : ℤ}
    (hlast : last = ip + runLen (values.drop ip) (s.pv - offset)) (hlt : last < values.length)
    (hpixel : values.getD last 0 + offset = pixel) (hpv : 0 < s.pv) (hne : pixel ≠ s.pv)
    (hnz : s.x1 - s.iz = nz) (hnp : (last : ℤ) - s.x1 + 1 = np) (hpos : 0 < np) :
    encodeLoop offset values s ip =
      encodeLoop offset values
        { ll := s.ll ++ (Segment.mk nz s.pv np).words s.hi
          pv := pixel
          x1 := (last : ℤ) + 1
          iz := (last : ℤ) + 1
          hi := s.pv
          nv := pixel } (last + 1) := by
  have hzero : s.pv ≠ 0 := by omega
  rw [encodeLoop_step hlast (by omega), hpixel]
  simp only [EncodeState.advance, if_pos hlt, if_neg hne, if_neg hzero]
  rw [flush_of_high (s := { s with nv := pixel }) hnz hnp hpv hpos]

/-- A run of high pixels at the end of the mask ends the list with its segment. -/
theorem encodeLoop_last {s : EncodeState} {ip : ℕ} (nz np : ℕ)
    (hlast : values.length = ip + runLen (values.drop ip) (s.pv - offset)) (hpv : 0 < s.pv)
    (hnz : s.x1 - s.iz = nz) (hnp : (values.length : ℤ) - s.x1 + 1 = np) (hpos : 0 < np) :
    encodeLoop offset values s ip = s.ll ++ (Segment.mk nz s.pv np).words s.hi := by
  have hzero : s.pv ≠ 0 := by omega
  rw [encodeLoop_step hlast (by omega), encodeLoop_done (by omega)]
  simp only [EncodeState.advance, if_neg (Nat.lt_irrefl _), if_neg hzero]
  rw [flush_of_high hnz hnp hpv hpos]

/-- A state at the start of a segment: the list has its words so far, and the segment's
first pixel is read. -/
def freshState (ll : List Word) (hi pv nv : ℤ) (ip : ℕ) : EncodeState :=
  { ll := ll, pv := pv, x1 := ip, iz := ip, hi := hi, nv := nv }

/-- What the loop writes from the start of a segment on: the words of the segments of the
remaining pixels. -/
def WritesSegments (offset : ℤ) (values : List ℤ) (pv : ℤ) (rest : List ℤ) : Prop :=
  ∀ (k : ℕ) (ll : List Word) (hi nv : ℤ), (values.map (· + offset)).drop k = pv :: rest →
    encodeLoop offset values (freshState ll hi pv nv (k + 1)) (k + 1) =
      ll ++ segmentsWords hi (segments (pv :: rest))

/-- The high pixels of a segment, after its zeros, and the segments after it. -/
theorem encodeLoop_of_high {k : ℕ} (nz : ℕ) (ll : List Word) (hi nv : ℤ) {pv : ℤ} {rest : List ℤ}
    (hdrop : (values.map (· + offset)).drop k = pv :: rest) (hpv : 0 < pv)
    (ih : ∀ pv' rest', rest'.length < rest.length → 0 ≤ pv' →
      WritesSegments offset values pv' rest')
    (hnonneg : ∀ v ∈ rest, 0 ≤ v) :
    let count := (rest.takeWhile (fun v => decide (v = pv))).length
    encodeLoop offset values
        { ll := ll, pv := pv, x1 := k + 1, iz := k + 1 - nz, hi := hi, nv := nv } (k + 1) =
      ll ++ ((Segment.mk nz pv (count + 1)).words hi ++
        segmentsWords pv (segments (rest.drop count))) := by
  intro count
  have hk := (getD_of_drop hdrop).1
  have htail : (values.map (· + offset)).drop (k + 1) = rest := by
    rw [← List.drop_drop, hdrop]; rfl
  have hrun : runLen (values.drop (k + 1)) (pv - offset) = count := by
    rw [runLen_drop, htail]
  have hafter : (values.map (· + offset)).drop (k + 1 + count) = rest.drop count := by
    rw [← List.drop_drop, htail]
  cases hrest : rest.drop count with
  | nil =>
    have hlast : values.length = k + 1 + count := by
      have hcount : count ≤ rest.length := (List.takeWhile_prefix _).length_le
      have hlength := congrArg List.length htail
      have hzero := congrArg List.length hrest
      simp only [List.length_drop, List.length_map, List.length_nil] at hlength hzero
      omega
    rw [encodeLoop_last nz (count + 1) (by simpa only [hrun] using hlast) hpv
      (by simp) (by simp only [hlast]; push_cast; omega) (by omega)]
    simp [segments, segmentsWords]
  | cons next rest' =>
    obtain ⟨hlt, hnext⟩ := getD_of_drop (hafter.trans hrest)
    have hne : next ≠ pv := by simpa using Chunks.not_of_drop_takeWhile hrest
    have hmem : next ∈ rest := List.mem_of_mem_drop (i := count) (by rw [hrest]; simp)
    have hshort : rest'.length < rest.length := by
      have h := congrArg List.length hrest
      simp only [List.length_drop, List.length_cons] at h
      omega
    rw [encodeLoop_high (k + 1 + count) nz (count + 1) (by rw [hrun]) hlt
      hnext hpv hne (by simp) (by push_cast; omega) (by omega)]
    have h := ih next rest' hshort (hnonneg next hmem) (k + 1 + count)
      (ll ++ (Segment.mk nz pv (count + 1)).words hi) pv next (hafter.trans hrest)
    simp only [freshState] at h
    push_cast at h ⊢
    rw [h, List.append_assoc]

/-- The loop writes the words of the segments, from the start of any segment on. -/
theorem writesSegments (hnonneg : ∀ v ∈ values, 0 ≤ v + offset) (pv : ℤ) (rest : List ℤ) :
    WritesSegments offset values pv rest := by
  induction hlength : rest.length using Nat.strong_induction_on generalizing pv rest with
  | _ length ih =>
    intro k ll hi nv hdrop
    have hpixels : ∀ v ∈ pv :: rest, 0 ≤ v := by
      intro v hv
      rw [← hdrop] at hv
      obtain ⟨u, hu, rfl⟩ := List.mem_map.mp (List.mem_of_mem_drop hv)
      exact hnonneg u hu
    have hrestNonneg : ∀ v ∈ rest, 0 ≤ v := fun v hv => hpixels v (List.mem_cons_of_mem _ hv)
    have ih' : ∀ pv' rest', rest'.length < rest.length → WritesSegments offset values pv' rest' :=
      fun pv' rest' h => ih rest'.length (by omega) pv' rest' rfl
    by_cases hzero : pv = 0
    · subst hzero
      set count := (rest.takeWhile (fun v => decide (v = 0))).length with hcount
      have htail : (values.map (· + offset)).drop (k + 1) = rest := by
        rw [← List.drop_drop, hdrop]; rfl
      have hrun : runLen (values.drop (k + 1)) (0 - offset) = count := by
        rw [runLen_drop, htail]
      have hafter : (values.map (· + offset)).drop (k + 1 + count) = rest.drop count := by
        rw [← List.drop_drop, htail]
      have hzeros : ((0 :: rest).takeWhile (fun v => decide (v = 0))).length = count + 1 := by
        simp [hcount]
      cases hrest : rest.drop count with
      | nil =>
        have hk := (getD_of_drop hdrop).1
        have hlast : values.length = k + 1 + count := by
          have hle : count ≤ rest.length := (List.takeWhile_prefix _).length_le
          have hlen := congrArg List.length htail
          have hnil := congrArg List.length hrest
          simp only [List.length_drop, List.length_map, List.length_nil] at hlen hnil
          omega
        rw [encodeLoop_trailing (count + 1) (by simpa only [freshState, hrun] using hlast) rfl
          (by simp only [freshState, hlast]; push_cast; omega)]
        rw [segments_of_zeros (List.cons_ne_nil _ _) hzeros (by simpa using hrest)]
        simp [segmentsWords, freshState]
      | cons high rest' =>
        obtain ⟨hlt, hhigh⟩ := getD_of_drop (hafter.trans hrest)
        have hne : high ≠ 0 := by simpa using Chunks.not_of_drop_takeWhile hrest
        have hmem : high ∈ rest := List.mem_of_mem_drop (i := count) (by rw [hrest]; simp)
        have hpos : 0 < high := by have := hrestNonneg high hmem; omega
        have hshort : rest'.length < rest.length := by
          have h := congrArg List.length hrest
          simp only [List.length_drop, List.length_cons] at h
          omega
        have hsub : ∀ v ∈ rest', 0 ≤ v := fun v hv =>
          hrestNonneg v (List.mem_of_mem_drop (i := count) (by rw [hrest]; simp [hv]))
        rw [encodeLoop_zeros (k + 1 + count) (by simp only [freshState, hrun]) hlt hhigh rfl
          hne]
        have h := encodeLoop_of_high (count + 1) ll hi high
          (hafter.trans hrest) hpos (fun pv' r' h' _ => ih' pv' r' (by omega)) hsub
        simp only at h
        have hiz : ((k + 1 + count : ℕ) : ℤ) + 1 - ((count + 1 : ℕ) : ℤ) = k + 1 := by
          push_cast; omega
        rw [hiz] at h
        simp only [freshState]
        push_cast at h ⊢
        rw [h, segments_of_high hzeros (by simpa using hrest)]
        simp [segmentsWords, Segment.nextHigh, hpos]
    · have hpos : 0 < pv := by have := hpixels pv (List.mem_cons_self ..); omega
      have h := encodeLoop_of_high 0 ll hi nv hdrop hpos
        (fun pv' r' h' _ => ih' pv' r' h') hrestNonneg
      simp only [Nat.cast_zero, sub_zero] at h
      simp only [freshState]
      push_cast at h ⊢
      rw [h, segments_of_high (show _ = 0 by simp [hzero]) rfl]
      simp [segmentsWords, Segment.nextHigh, hpos]

/-- The line list of a nonempty mask is its header and the words of its segments. -/
theorem lineList_eq (codec : Codec) {values : List ℤ} (hne : values ≠ [])
    (hnonneg : ∀ v ∈ values, 0 ≤ v + codec.offset) :
    codec.lineList values =
      headerWords ++ segmentsWords 1 (segments (values.map (· + codec.offset))) := by
  obtain ⟨value, rest, rfl⟩ := List.exists_cons_of_ne_nil hne
  have h := writesSegments hnonneg (value + codec.offset) (rest.map (· + codec.offset)) 0
    headerWords 1 0 rfl
  simpa only [Codec.lineList, freshState, List.getD_cons_zero, Nat.zero_add, Nat.cast_one,
    List.map_cons] using h

end Loop

end FitsWell.Plio
