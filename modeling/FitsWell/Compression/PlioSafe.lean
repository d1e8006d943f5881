import FitsWell.Compression.PlioRoundTrip
import FitsWell.Slices
import FitsWell.Usize

/-!
# Decoding any PLIO_1 stream

The decoder with its arithmetic and its indexing checked, as a build with overflow checks
runs it. The high value moves by less than 4096 a word and a list has fewer than 2³⁰
words, so no sum leaves an `i64`. While the current pixel is inside the line the output
position is its coordinate, so no store leaves the pixels. The checked decoder is
therefore the plain one, and every stream decodes to its count of pixels or to an error.
-/

namespace FitsWell.Plio

/-! ## The checked decoder -/

/-- `v as usize`. -/
def asUsize (v : ℤ) : ℕ := (v % 2 ^ 64).toNat

/-- Set the pixels at the positions `op..=otop` to the high value. -/
def DecodeState.fillChecked (s : DecodeState) (otop : ℤ) : Outcome (List ℤ) :=
  (List.range (otop + 1 - s.op).toNat).foldlM
    (fun px (k : ℕ) => do
      let index ← checkI64 (s.op + k - 1)
      store px (asUsize index) s.pv)
    s.px

/-- The pixels of a run that ends at the position `otop`, where `whole` says that the line
holds all of it. -/
def DecodeState.paintChecked (s : DecodeState) (opcode : ℕ) (whole : Prop) [Decidable whole]
    (otop : ℤ) : Outcome (List ℤ) :=
  if opcode = 4 then
    s.fillChecked otop
  else if opcode = 5 ∧ whole then do
    let index ← checkI64 (otop - 1)
    store s.px (asUsize index) s.pv
  else
    .ok s.px

/-- The `np` pixels of a run inside the line, if there are any. -/
def DecodeState.extendChecked (s : DecodeState) (opcode : ℕ) (whole : Prop) [Decidable whole]
    (np : ℤ) : Outcome DecodeState :=
  if 0 < np then do
    let next ← checkI64 (s.op + np)
    let otop ← checkI64 (next - 1)
    let px ← s.paintChecked opcode whole otop
    let op ← checkI64 (otop + 1)
    .ok { s with px := px, op := op }
  else
    .ok s

/-- A run of `data` pixels. -/
def DecodeState.runChecked (s : DecodeState) (xe : ℤ) (opcode data : ℕ) : Outcome DecodeState := do
  let stop ← checkI64 (s.x1 + data)
  let x2 ← checkI64 (stop - 1)
  let i2 := min x2 xe
  let gap ← checkI64 (i2 - s.x1)
  let np ← checkI64 (gap + 1)
  let s ← s.extendChecked opcode (i2 = x2) np
  let x1 ← checkI64 (x2 + 1)
  .ok { s with x1 := x1 }

/-- The pixel at the current coordinate, if it is inside the line. -/
def DecodeState.plotChecked (s : DecodeState) (xe : ℤ) : Outcome DecodeState :=
  if s.x1 ≤ xe then do
    let index ← checkI64 (s.op - 1)
    let px ← store s.px (asUsize index) s.pv
    let op ← checkI64 (s.op + 1)
    .ok { s with px := px, op := op }
  else
    .ok s

/-- A single high pixel, once the high value is adjusted. -/
def DecodeState.singleChecked (s : DecodeState) (xe : ℤ) (pv : ℤ) : Outcome DecodeState := do
  let s ← DecodeState.plotChecked { s with pv := pv } xe
  let x1 ← checkI64 (s.x1 + 1)
  .ok { s with x1 := x1 }

/-- One instruction, the word `word` before the word `next`. -/
def DecodeState.stepChecked (s : DecodeState) (xe : ℤ) (word : Word) (next : Outcome Word) :
    Outcome DecodeState :=
  let opcode := word.toNat / 4096
  let data := word.toNat % 4096
  match opcode with
  | 0 | 4 | 5 => s.runChecked xe opcode data
  | 1 => do
    let next ← next
    let pv ← checkI64 (next.toNat * 4096 + data)
    .ok { s with pv := pv, skipWord := true }
  | 2 => do
    let pv ← checkI64 (s.pv + data)
    .ok { s with pv := pv }
  | 3 => do
    let pv ← checkI64 (s.pv - data)
    .ok { s with pv := pv }
  | 6 => do
    let pv ← checkI64 (s.pv + data)
    s.singleChecked xe pv
  | 7 => do
    let pv ← checkI64 (s.pv - data)
    s.singleChecked xe pv
  | _ => fail PlioDefect.opcode.error

/-- The decoder's loop from the word `ip` on, of a list of `lllen` words. -/
def decodeLoopChecked (bytes : List UInt8) (lllen : ℕ) (xe : ℤ) (s : DecodeState) (ip : ℕ) :
    Outcome (List ℤ) :=
  if ip ≤ lllen then
    if s.skipWord then
      decodeLoopChecked bytes lllen xe { s with skipWord := false } (ip + 1)
    else do
      let index ← subUsize ip 1
      let word ← beWord bytes index
      let s ← s.stepChecked xe word (if lllen ≤ ip then fail .unexpectedEof else beWord bytes ip)
      if xe < s.x1 then .ok s.px else decodeLoopChecked bytes lllen xe s (ip + 1)
  else
    .ok s.px
termination_by lllen + 1 - ip

/-- A pixel count as an `i64`, which the source expects it to fit. -/
def expectI64 (count : ℕ) : Outcome ℤ := if count < 2 ^ 63 then .ok count else abort .expectation

/-- Decode the line list `bytes` into `npix` stream values. -/
def decodeWordsChecked (bytes : List UInt8) (npix : ℕ) : Outcome (List ℤ) :=
  let px := List.replicate npix 0
  if npix = 0 then
    .ok px
  else do
    let (lllen, llfirst) ← listBounds bytes
    if bytes.length / 2 < lllen then
      fail .unexpectedEof
    else if lllen = 0 ∨ lllen + 1 < llfirst then
      fail PlioDefect.listBounds.error
    else do
      let xe ← expectI64 npix
      decodeLoopChecked bytes lllen xe ⟨false, 1, 1, 1, px⟩ llfirst

/-- Decode the line list `bytes` into `count` values, less the offset. -/
def Codec.decodeChecked (codec : Codec) (bytes : List UInt8) (count : ℕ) : Outcome (List ℤ) :=
  if bytes.length % 2 ≠ 0 then
    fail .unexpectedEof
  else do
    let px ← decodeWordsChecked bytes count
    if codec.offset ≠ 0 then px.mapM fun value => checkI64 (value - codec.offset) else .ok px

/-! ## What a run keeps -/

/-- The bound of a decoded value. -/
def HighBound (value : ℤ) : Prop := -2 ^ 43 < value ∧ value < 2 ^ 43

/-- A state inside the line before the word `ip`: the output position is the current
pixel's, and neither it nor the high value has moved by 4096 for each word before. -/
structure DecodeState.Within (npix ip : ℕ) (s : DecodeState) : Prop where
  pixels : Slice HighBound npix s.px
  op_eq : s.op = s.x1
  one_le : 1 ≤ s.x1
  x1_le : s.x1 ≤ npix
  reach : s.x1 ≤ 4096 * ip
  pv_ge : -(2 ^ 28 + 4096 * ip) ≤ s.pv
  pv_le : s.pv ≤ 2 ^ 28 + 4096 * ip

/-- The state after the word `ip`: its pixels, and, inside the line, its place. -/
def DecodeState.After (npix ip : ℕ) (s : DecodeState) : Prop :=
  Slice HighBound npix s.px ∧ (s.x1 ≤ npix → s.Within npix (ip + 1))

theorem slice_set {P : ℤ → Prop} {n : ℕ} {px : List ℤ} (h : Slice P n px) (i : ℕ) {value : ℤ}
    (hvalue : P value) : Slice P n (px.set i value) := by
  refine ⟨by rw [List.length_set, h.length_eq], fun v hv => ?_⟩
  rcases List.mem_or_eq_of_mem_set hv with hold | rfl
  · exact h.all v hold
  · exact hvalue

theorem fill_succ (px : List ℤ) (start count : ℕ) (value : ℤ) :
    fill px start (count + 1) value = (fill px start count value).set (start + count) value := by
  simp only [fill, List.range_succ, List.foldl_append, List.foldl_cons, List.foldl_nil]

theorem slice_fill {P : ℤ → Prop} {n : ℕ} {px : List ℤ} (h : Slice P n px) (start count : ℕ)
    {value : ℤ} (hvalue : P value) : Slice P n (fill px start count value) := by
  induction count with
  | zero => exact h
  | succ count ih =>
    rw [fill_succ]
    exact slice_set ih _ hvalue

theorem asUsize_of_nonneg {v : ℤ} (hlow : 0 ≤ v) (hhigh : v < 2 ^ 63) : asUsize v = v.toNat := by
  rw [asUsize, Int.emod_eq_of_lt hlow (by omega)]

section Step

variable {npix ip : ℕ} {s : DecodeState}

/-- A high value inside the line is bounded. -/
theorem DecodeState.Within.highBound (hs : s.Within npix ip) (hip : ip ≤ 2 ^ 30) :
    HighBound s.pv := by
  have hlow := hs.pv_ge
  have hhigh := hs.pv_le
  constructor <;> omega

/-- A run of high pixels inside the line is filled. -/
theorem fillChecked_eq (hs : s.Within npix ip) (hip : ip ≤ 2 ^ 30) {otop : ℤ}
    (hotop : otop ≤ npix) (hreach : otop ≤ 4096 * (ip + 1)) :
    s.fillChecked otop =
      .ok (fill s.px (s.op - 1).toNat (otop + 1 - s.op).toNat s.pv) := by
  have hop := hs.op_eq
  have hone := hs.one_le
  have hbound := hs.highBound hip
  unfold DecodeState.fillChecked
  have hstep : ∀ k < (otop + 1 - s.op).toNat, ∀ px, px = fill s.px (s.op - 1).toNat k s.pv →
      ∃ px', (do
        let index ← checkI64 (s.op + (k : ℕ) - 1)
        store px (asUsize index) s.pv) = .ok px' ∧
        px' = fill s.px (s.op - 1).toNat (k + 1) s.pv := by
    rintro k hk px rfl
    have hlength := (slice_fill hs.pixels (s.op - 1).toNat k hbound).length_eq
    have hindex : asUsize (s.op + k - 1) = (s.op - 1).toNat + k := by
      rw [asUsize_of_nonneg (by omega) (by omega)]
      omega
    refine ⟨_, ?_, rfl⟩
    rw [Loops.bind_ok (checkI64_of_fits ⟨by omega, by omega⟩), hindex,
      store_of_lt _ (by omega), fill_succ]
  obtain ⟨px, hok, rfl⟩ := Loops.range_total
    (P := fun k px => px = fill s.px (s.op - 1).toNat k s.pv) (s := s.px) rfl hstep
  exact hok

/-- The pixels of a run inside the line are stored as the plain decoder stores them. -/
theorem paintChecked_eq (hs : s.Within npix ip) (hip : ip ≤ 2 ^ 30) (opcode : ℕ) (whole : Prop)
    [Decidable whole] {otop : ℤ} (hlow : s.op ≤ otop) (hotop : otop ≤ npix)
    (hreach : otop ≤ 4096 * (ip + 1)) :
    s.paintChecked opcode whole otop =
      .ok (if opcode = 4 then fill s.px (s.op - 1).toNat (otop + 1 - s.op).toNat s.pv
        else if opcode = 5 ∧ whole then s.px.set (otop - 1).toNat s.pv
        else s.px) := by
  have hop := hs.op_eq
  have hone := hs.one_le
  have hlength := hs.pixels.length_eq
  unfold DecodeState.paintChecked
  split
  · exact fillChecked_eq hs hip hotop hreach
  · split
    · rw [Loops.bind_ok (checkI64_of_fits ⟨by omega, by omega⟩),
        asUsize_of_nonneg (by omega) (by omega), store_of_lt _ (by omega)]
    · rfl

/-- A run is the plain run. -/
theorem runChecked_eq (hs : s.Within npix ip) (hip : ip ≤ 2 ^ 30) (opcode : ℕ) {data : ℕ}
    (hdata : data < 4096) : s.runChecked npix opcode data = .ok (s.run npix opcode data) := by
  have hop := hs.op_eq
  have hone := hs.one_le
  have hle := hs.x1_le
  have hreach := hs.reach
  unfold DecodeState.runChecked DecodeState.run DecodeState.extendChecked
  rw [Loops.bind_ok (checkI64_of_fits ⟨by omega, by omega⟩),
    Loops.bind_ok (checkI64_of_fits ⟨by omega, by omega⟩)]
  dsimp only
  set i2 := min (s.x1 + data - 1) (npix : ℤ) with hi2
  have hi2_le : i2 ≤ npix := min_le_right ..
  have hi2_reach : i2 ≤ s.x1 + data - 1 := min_le_left ..
  have hi2_ge : s.x1 - 1 ≤ i2 := by omega
  rw [Loops.bind_ok (checkI64_of_fits ⟨by omega, by omega⟩),
    Loops.bind_ok (checkI64_of_fits ⟨by omega, by omega⟩)]
  have hlast := checkI64_of_fits (v := s.x1 + data - 1 + 1) ⟨by omega, by omega⟩
  by_cases hnp : 0 < i2 - s.x1 + 1
  · have hcount : s.op + (i2 - s.x1 + 1) - 1 + 1 - s.op = i2 - s.x1 + 1 := by omega
    rw [if_pos hnp, if_pos hnp, Loops.bind_ok (checkI64_of_fits ⟨by omega, by omega⟩),
      Loops.bind_ok (checkI64_of_fits ⟨by omega, by omega⟩),
      paintChecked_eq hs hip opcode _ (by omega) (by omega) (by omega), hcount]
    have hnext := checkI64_of_fits (v := s.op + (i2 - s.x1 + 1) - 1 + 1) ⟨by omega, by omega⟩
    simp only [bind, Except.bind, hnext, hlast]
  · rw [if_neg hnp, if_neg hnp]
    simp only [bind, Except.bind, hlast]

/-- A run leaves bounded pixels and, inside the line, a state before the next word. -/
theorem run_after (hs : s.Within npix ip) (hip : ip ≤ 2 ^ 30) (opcode : ℕ) {data : ℕ}
    (hdata : data < 4096) : (s.run npix opcode data).After npix ip := by
  have hop := hs.op_eq
  have hone := hs.one_le
  have hle := hs.x1_le
  have hreach := hs.reach
  have hlow := hs.pv_ge
  have hhigh := hs.pv_le
  have hbound := hs.highBound hip
  unfold DecodeState.run
  by_cases hnp : 0 < min (s.x1 + data - 1) (npix : ℤ) - s.x1 + 1
  · simp only [if_pos hnp]
    have hpx : ∀ (start count last : ℕ), Slice HighBound npix
        (if opcode = 4 then fill s.px start count s.pv
          else if opcode = 5 ∧ min (s.x1 + data - 1) (npix : ℤ) = s.x1 + data - 1 then
            s.px.set last s.pv
          else s.px) := by
      intro start count last
      split
      · exact slice_fill hs.pixels _ _ hbound
      · split
        · exact slice_set hs.pixels _ hbound
        · exact hs.pixels
    refine ⟨hpx _ _ _, fun hinside => ⟨hpx _ _ _, ?_, ?_, hinside, ?_, ?_, ?_⟩⟩ <;>
      dsimp only at hinside ⊢ <;> push_cast <;> omega
  · simp only [if_neg hnp]
    refine ⟨hs.pixels, fun hinside => ⟨hs.pixels, ?_, ?_, hinside, ?_, ?_, ?_⟩⟩ <;>
      dsimp only at hinside ⊢ <;> push_cast <;> omega

/-- A single pixel is the plain one, and leaves bounded pixels and, inside the line, a
state before the next word. -/
theorem singleChecked_eq (hs : s.Within npix ip) (hip : ip ≤ 2 ^ 30) {pv : ℤ}
    (hlow : -(2 ^ 28 + 4096 * (ip + 1)) ≤ pv) (hhigh : pv ≤ 2 ^ 28 + 4096 * (ip + 1)) :
    s.singleChecked npix pv = .ok (s.single npix pv) ∧ (s.single npix pv).After npix ip := by
  have hop := hs.op_eq
  have hone := hs.one_le
  have hle := hs.x1_le
  have hreach := hs.reach
  have hlength := hs.pixels.length_eq
  have hbound : HighBound pv := ⟨by omega, by omega⟩
  have hpx := slice_set hs.pixels (s.op - 1).toNat hbound
  unfold DecodeState.singleChecked DecodeState.plotChecked DecodeState.single
  dsimp only
  rw [if_pos hle, if_pos hle]
  constructor
  · rw [Loops.bind_ok (checkI64_of_fits ⟨by omega, by omega⟩),
      asUsize_of_nonneg (by omega) (by omega), Loops.bind_ok (store_of_lt _ (by omega)),
      Loops.bind_ok (checkI64_of_fits ⟨by omega, by omega⟩)]
    have hlast := checkI64_of_fits (v := s.x1 + 1) ⟨by omega, by omega⟩
    simp only [bind, Except.bind, hlast]
  · refine ⟨hpx, fun hinside => ⟨hpx, ?_, ?_, hinside, ?_, ?_, ?_⟩⟩ <;>
      dsimp only at hinside ⊢ <;> push_cast <;> omega

/-- An instruction is the plain one, and leaves bounded pixels and, inside the line, a state
before the next word. -/
theorem stepChecked_eq (hs : s.Within npix ip) (hip : ip ≤ 2 ^ 30) (word : Word)
    (next : Outcome Word) :
    s.stepChecked npix word next = s.step npix word next ∧
      ∀ s', s.step npix word next = .ok s' → s'.After npix ip := by
  have hdata : word.toNat % 4096 < 4096 := Nat.mod_lt _ (by decide)
  have hlow := hs.pv_ge
  have hhigh := hs.pv_le
  -- an instruction that moves the high value only
  have hadjust : ∀ (pv : ℤ) (skip : Bool), -(2 ^ 28 + 4096 * (ip + 1)) ≤ pv →
      pv ≤ 2 ^ 28 + 4096 * (ip + 1) → checkI64 pv = .ok pv ∧
        DecodeState.After npix ip { s with pv := pv, skipWord := skip } := by
    intro pv skip hpv_low hpv_high
    have hreach := hs.reach
    exact ⟨checkI64_of_fits ⟨by omega, by omega⟩, hs.pixels, fun _ =>
      ⟨hs.pixels, hs.op_eq, hs.one_le, hs.x1_le, by push_cast; omega, by push_cast; omega,
        by push_cast; omega⟩⟩
  have hokay : ∀ {after : DecodeState}, after.After npix ip → ∀ s' : DecodeState,
      (.ok after : Outcome DecodeState) = .ok s' → s'.After npix ip := by
    intro after hafter s' hs'
    rwa [← Except.ok.inj hs']
  -- an instruction of a run of pixels
  have hrun : ∀ opcode : ℕ, s.runChecked npix opcode (word.toNat % 4096) =
        .ok (s.run npix opcode (word.toNat % 4096)) ∧
      ∀ s', .ok (s.run npix opcode (word.toNat % 4096)) = (.ok s' : Outcome DecodeState) →
        s'.After npix ip := fun opcode =>
    ⟨runChecked_eq hs hip opcode hdata, hokay (run_after hs hip opcode hdata)⟩
  unfold DecodeState.stepChecked DecodeState.step
  dsimp only
  split
  · rename_i hopcode
    simp -failIfUnchanged only [hopcode]
    exact hrun 0
  · rename_i hopcode
    simp -failIfUnchanged only [hopcode]
    exact hrun 4
  · rename_i hopcode
    simp -failIfUnchanged only [hopcode]
    exact hrun 5
  · rename_i hopcode
    simp -failIfUnchanged only [hopcode]
    cases next with
    | error fault =>
      simp only [bind, Except.bind]
      exact ⟨trivial, fun s' hs' => by cases hs'⟩
    | ok next =>
      have hnext := next.isLt
      obtain ⟨hfits, hafter⟩ :=
        hadjust (next.toNat * 4096 + (word.toNat % 4096 : ℕ)) true (by omega) (by omega)
      rw [Loops.bind_ok rfl, Loops.bind_ok rfl, Loops.bind_ok hfits]
      exact ⟨rfl, hokay hafter⟩
  · rename_i hopcode
    simp -failIfUnchanged only [hopcode]
    obtain ⟨hfits, hafter⟩ := hadjust (s.pv + (word.toNat % 4096 : ℕ)) s.skipWord (by omega)
      (by omega)
    rw [Loops.bind_ok hfits]
    exact ⟨rfl, hokay hafter⟩
  · rename_i hopcode
    simp -failIfUnchanged only [hopcode]
    obtain ⟨hfits, hafter⟩ := hadjust (s.pv - (word.toNat % 4096 : ℕ)) s.skipWord (by omega)
      (by omega)
    rw [Loops.bind_ok hfits]
    exact ⟨rfl, hokay hafter⟩
  · rename_i hopcode
    simp -failIfUnchanged only [hopcode]
    obtain ⟨hsingle, hafter⟩ := @singleChecked_eq _ _ _ hs hip
      (s.pv + (word.toNat % 4096 : ℕ)) (by omega) (by omega)
    rw [Loops.bind_ok (checkI64_of_fits ⟨by omega, by omega⟩), hsingle]
    exact ⟨rfl, hokay hafter⟩
  · rename_i hopcode
    simp -failIfUnchanged only [hopcode]
    obtain ⟨hsingle, hafter⟩ := @singleChecked_eq _ _ _ hs hip
      (s.pv - (word.toNat % 4096 : ℕ)) (by omega) (by omega)
    rw [Loops.bind_ok (checkI64_of_fits ⟨by omega, by omega⟩), hsingle]
    exact ⟨rfl, hokay hafter⟩
  · repeat' split
    all_goals first
      | contradiction
      | exact ⟨rfl, fun s' hs' => by cases hs'⟩

/-- An instruction ends with a state or with an error, as the read of its second word does. -/
theorem step_returns (xe : ℤ) (s : DecodeState) (word : Word) {next : Outcome Word}
    (hnext : Returns (fun _ => True) next) : Returns (fun _ => True) (s.step xe word next) := by
  unfold DecodeState.step
  dsimp only
  split
  · exact trivial
  · exact trivial
  · exact trivial
  · exact hnext.bind fun _ _ => trivial
  · exact trivial
  · exact trivial
  · exact trivial
  · exact trivial
  · exact Returns.fail _

end Step

/-! ## Whole streams -/

/-- A word of a stream that holds it. -/
theorem exists_beWord {bytes : List UInt8} {index : ℕ} (hlt : 2 * index + 1 < bytes.length) :
    ∃ word, beWord bytes index = .ok word := by
  rw [beWord, List.drop_eq_getElem_cons (by omega), List.drop_eq_getElem_cons (by omega)]
  exact ⟨_, rfl⟩

/-- A read of a word returns. -/
theorem beWord_returns (bytes : List UInt8) (index : ℕ) :
    Returns (fun _ => True) (beWord bytes index) := by
  unfold beWord
  split
  · exact trivial
  · exact Returns.fail _

/-- A header value is below half a word's range. -/
theorem nonnegativeWord_returns (bytes : List UInt8) (index : ℕ) :
    Returns (· < 2 ^ 15) (nonnegativeWord bytes index) := by
  unfold nonnegativeWord
  refine (beWord_returns bytes index).bind fun value _ => ?_
  refine .ite (fun hnonneg => ?_) (fun _ => Returns.fail _)
  have hlt := BitVec.toInt_lt (x := value)
  exact .ok (by norm_num at hlt ⊢; omega)

/-- A list's length is below 2³⁰ words, and its first place is not zero. -/
theorem listBounds_returns (bytes : List UInt8) :
    Returns (fun bounds => bounds.1 < 2 ^ 30 ∧ 1 ≤ bounds.2) (listBounds bytes) := by
  unfold listBounds
  refine (beWord_returns bytes 2).bind fun v3 _ => ?_
  refine .ite (fun hpos => ?_) (fun _ => ?_)
  · have hlt := BitVec.toInt_lt (x := v3)
    exact .ok ⟨by norm_num at hlt ⊢; omega, by dsimp only; omega⟩
  · refine (nonnegativeWord_returns bytes 3).bind fun lo hlo => ?_
    refine (nonnegativeWord_returns bytes 4).bind fun hi hhi => ?_
    refine (nonnegativeWord_returns bytes 1).bind fun start _ => ?_
    exact .ok ⟨by dsimp only; omega, by dsimp only; omega⟩

/-- The loop is the plain one, and ends with its pixels or with an error. -/
theorem decodeLoopChecked_spec {bytes : List UInt8} {lllen npix ip : ℕ} {s : DecodeState}
    (hlllen : lllen < 2 ^ 30) (hip : 1 ≤ ip) (hs : s.Within npix ip) :
    decodeLoopChecked bytes lllen npix s ip = decodeLoop bytes lllen npix s ip ∧
      Returns (Slice HighBound npix) (decodeLoop bytes lllen npix s ip) := by
  induction hrest : lllen + 1 - ip generalizing s ip with
  | zero =>
    rw [decodeLoopChecked, decodeLoop, if_neg (by omega), if_neg (by omega)]
    exact ⟨rfl, hs.pixels⟩
  | succ rest ih =>
    have hle : ip ≤ lllen := by omega
    rw [decodeLoopChecked, decodeLoop, if_pos hle, if_pos hle]
    have hreach := hs.reach
    have hlow := hs.pv_ge
    have hhigh := hs.pv_le
    split
    · -- the second word of an instruction
      exact ih (by omega) ⟨hs.pixels, hs.op_eq, hs.one_le, hs.x1_le, by push_cast; omega,
        by push_cast; omega, by push_cast; omega⟩ (by omega)
    · have hindex : subUsize ip 1 = .ok (ip - 1) := subUsize_of_le hip
      rw [Loops.bind_ok hindex]
      cases hword : beWord bytes (ip - 1) with
      | error fault =>
        have hreturns := beWord_returns bytes (ip - 1)
        rw [hword] at hreturns
        exact ⟨rfl, hreturns⟩
      | ok word =>
        rw [Loops.bind_ok rfl, Loops.bind_ok rfl]
        set next : Outcome Word := if lllen ≤ ip then fail .unexpectedEof else beWord bytes ip
          with hnextdef
        obtain ⟨heq, hafter⟩ := stepChecked_eq hs (by omega) word next
        rw [heq]
        cases hstep : s.step npix word next with
        | error fault =>
          refine ⟨rfl, ?_⟩
          have hnext : Returns (fun _ => True) next := by
            rw [hnextdef]
            exact .ite (fun _ => Returns.fail _) (fun _ => beWord_returns bytes ip)
          have hreturns := step_returns npix s word hnext
          rw [hstep] at hreturns
          exact hreturns
        | ok s' =>
          rw [Loops.bind_ok rfl, Loops.bind_ok rfl]
          obtain ⟨hpixels, hinside⟩ := hafter s' hstep
          split
          · exact ⟨rfl, hpixels⟩
          · exact ih (by omega) (hinside (by omega)) (by omega)

/-- A stream's words are decoded as the plain decoder decodes them, to the pixel count of
bounded values or to an error. -/
theorem decodeWordsChecked_spec (bytes : List UInt8) {npix : ℕ} (hnpix : npix < 2 ^ 63) :
    decodeWordsChecked bytes npix = decodeWords bytes npix ∧
      Returns (Slice HighBound npix) (decodeWords bytes npix) := by
  have hzeros : Slice HighBound npix (List.replicate npix 0) :=
    slice_replicate npix ⟨by decide, by decide⟩
  unfold decodeWordsChecked decodeWords
  dsimp only
  split
  · exact ⟨rfl, hzeros⟩
  · rename_i hne
    have hreturns := listBounds_returns bytes
    cases hbounds : listBounds bytes with
    | error fault =>
      rw [hbounds] at hreturns
      exact ⟨rfl, hreturns⟩
    | ok bounds =>
      obtain ⟨lllen, llfirst⟩ := bounds
      rw [hbounds] at hreturns
      obtain ⟨hlllen, hfirst⟩ : lllen < 2 ^ 30 ∧ 1 ≤ llfirst := hreturns
      have hstart : DecodeState.Within npix llfirst
          ⟨false, 1, 1, 1, List.replicate npix 0⟩ :=
        ⟨hzeros, rfl, le_rfl, by dsimp only; omega, by dsimp only; omega, by dsimp only; omega,
          by dsimp only; omega⟩
      have hxe : expectI64 npix = .ok (npix : ℤ) := if_pos hnpix
      rw [Loops.bind_ok rfl, Loops.bind_ok rfl]
      dsimp only
      rw [Loops.bind_ok hxe]
      split
      · exact ⟨rfl, Returns.fail _⟩
      · split
        · exact ⟨rfl, Returns.fail _⟩
        · exact decodeLoopChecked_spec hlllen hfirst hstart

end FitsWell.Plio
