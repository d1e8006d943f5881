import FitsWell.Hdu.Hdus
import FitsWell.Library.Stateful

/-!
# A stream as a source

A stream source remembers where its inner reader stands, and moves only when a range starts
elsewhere. A call on the inner reader may fail and leave it anywhere: what the source remembers is
then nothing, so that each call gives the bytes that a resident file gives.
-/

namespace FitsWell

/-! ## Inner readers -/

/-- What an inner reader makes of a call: it serves it, a read with `most` bytes at most, or fails
and stands at `place`. An interrupted read is made again, and is no answer. -/
inductive Answer
  | serve (most : ℕ)
  | fail (place : ℕ)
  deriving DecidableEq, Repr

/-- A reader of a file: where it stands, and the calls it has answered. -/
structure InnerReader where
  bytes : Text
  answers : ℕ → Answer
  place : ℕ
  clock : ℕ

namespace InnerReader

/-- Answer a seek to the place `target`, if it is one. -/
def seekTo (target : ℤ) : Stateful Fault InnerReader Unit := fun inner =>
  let next := { inner with clock := inner.clock + 1 }
  match inner.answers inner.clock with
  | .fail place => (fail .io, { next with place })
  | .serve _ =>
    if 0 ≤ target then (.ok (), { next with place := target.toNat })
    else (fail .io, next)

/-- `seek(SeekFrom::End(0))`, with the place it moves to. -/
def seekEnd : Stateful Fault InnerReader ℕ := do
  seekTo (← Stateful.get).bytes.length
  return (← Stateful.get).place

/-- `seek(SeekFrom::Start(offset))`. -/
def seekStart (offset : ℕ) : Stateful Fault InnerReader Unit := seekTo offset

/-- `seek_relative(hop)`. -/
def seekRelative (hop : ℤ) : Stateful Fault InnerReader Unit := fun inner =>
  (seekTo (inner.place + hop)).run inner

/-- Read into a buffer of `room` bytes: one byte at least, but at the end of the file. -/
def read (room : ℕ) : Stateful Fault InnerReader Text := fun inner =>
  let next := { inner with clock := inner.clock + 1 }
  match inner.answers inner.clock with
  | .fail place => (fail .io, { next with place })
  | .serve most =>
    let bytes := (inner.bytes.drop inner.place).take (min (max most 1) room)
    (.ok bytes, { next with place := inner.place + bytes.length })

/-- Read until `limit` bytes or the end of the file, each read after the last one's bytes. -/
def readMost (limit : ℕ) : Stateful Fault (InnerReader × Text) Unit := fun s =>
  if _h : limit = 0 then (.ok (), s)
  else
    match (read limit).run s.1 with
    | (.error fault, inner) => (.error fault, inner, s.2)
    | (.ok bytes, inner) =>
      if _h : bytes.length = 0 then (.ok (), inner, s.2)
      else readMost (limit - bytes.length) (inner, s.2 ++ bytes)
termination_by limit

/-- `take(limit).read_to_end(out)`, with the number of bytes read. -/
def readToEnd (limit : ℕ) : Stateful Fault (InnerReader × Text) ℕ := fun s =>
  match (readMost limit).run s with
  | (.error fault, s') => (.error fault, s')
  | (.ok (), s') => (.ok (s'.2.length - s.2.length), s')

/-- `read_exact(out)`. -/
def readExact : Stateful Fault (InnerReader × Text) Unit := fun s =>
  let (outcome, inner, read) := (readMost s.2.length).run (s.1, [])
  let out := read ++ s.2.drop read.length
  match outcome with
  | .error fault => (.error fault, inner, out)
  | .ok () => (if read.length < s.2.length then fail .io else .ok (), inner, out)

end InnerReader

/-! ## Stream sources -/

/-- A source over an inner reader: its length, and where the inner reader stands, when known. -/
structure StreamSource where
  inner : InnerReader
  len : ℕ
  position : Option ℕ

namespace StreamSource

variable {α : Type}

/-- A call on the inner reader and a buffer. -/
def onInner (call : Stateful Fault (InnerReader × Text) α) :
    Stateful Fault (StreamSource × Text) α := fun s =>
  let (outcome, inner, out) := call.run (s.1.inner, s.2)
  (outcome, { s.1 with inner }, out)

/-- Remember where the inner reader stands. -/
def remember (position : Option ℕ) : Stateful Fault (StreamSource × Text) Unit := fun s =>
  (.ok (), { s.1 with position }, s.2)

/-- Capture the length of a reader. -/
def new (inner : InnerReader) : Outcome StreamSource :=
  match InnerReader.seekEnd.run inner with
  | (.error fault, _) => .error fault
  | (.ok len, inner) => .ok ⟨inner, len, some len⟩

/-- The bytes from one offset of a file to another, as an `i64`. -/
def hop (position offset : ℕ) : Outcome ℤ :=
  if -2 ^ 63 ≤ (offset : ℤ) - position ∧ (offset : ℤ) - position < 2 ^ 63 then
    .ok (offset - position)
  else
    abort .expectation

/-- Move to `offset`. -/
def seekTo (offset : ℕ) : Stateful Fault (StreamSource × Text) Unit := do
  match (← Stateful.get).1.position with
  | some position =>
    if position = offset then pure ()
    else do
      remember none
      let hop ← hop position offset
      onInner (.first (InnerReader.seekRelative hop))
  | none =>
    onInner (.first (InnerReader.seekStart offset))

/-- Append the `len` bytes at `offset`. -/
def readAt (offset len : ℕ) : Stateful Fault (StreamSource × Text) Unit := do
  Source.checkRange offset len (← Stateful.get).1.len
  seekTo offset
  tryReserve 1 (← Stateful.get).2.length len
  let read ← (onInner (InnerReader.readToEnd len)).attempt
  remember (read.toOption.map (offset + ·))
  if (← read) = len then pure () else Stateful.lift (fail .unexpectedEof)

/-- The `len` bytes at `offset`, in a buffer that a call before may have filled. -/
def slice (offset len : ℕ) : Stateful Fault (StreamSource × Text) Unit := do
  Source.checkRange offset len (← Stateful.get).1.len
  Stateful.set ((← Stateful.get).1, [])
  tryReserveExact 0 len
  readAt offset len

def readAppend (offset len : ℕ) : Stateful Fault (StreamSource × Text) Unit := readAt offset len

/-- Fill a buffer with the bytes at `offset`. -/
def readInto (offset : ℕ) : Stateful Fault (StreamSource × Text) Unit := do
  let (source, out) ← Stateful.get
  Source.checkRange offset out.length source.len
  seekTo offset
  let read ← (onInner InnerReader.readExact).attempt
  remember (read.toOption.map fun _ => offset + out.length)
  read

end StreamSource

/-! ## Slice sources -/

/-- A file resident as a slice. -/
structure SliceSource where
  bytes : Text
  slice : bytes.length ≤ isizeMax

namespace SliceSource

variable (source : SliceSource)

/-- The `len` bytes at `offset`. -/
def range (offset len : ℕ) : Outcome Text := do
  Source.checkRange offset len source.bytes.length
  subslice source.bytes offset len

def readAppend (offset len : ℕ) (out : Text) : Outcome Text := do
  let bytes ← source.range offset len
  tryReserve 1 out.length len
  .ok (out ++ bytes)

end SliceSource

/-! ## Calls -/

/-- A call on a source, with the buffer it is given. -/
inductive SourceCall
  | slice (offset len : ℕ) (scratch : Text)
  | readAppend (offset len : ℕ) (out : Text)
  | readInto (offset : ℕ) (out : Text)
  deriving DecidableEq, Repr

namespace SourceCall

/-- The call on a stream source, with the bytes it gives. -/
def onStream (call : SourceCall) : Stateful Fault StreamSource Text := fun source =>
  let (outcome, source, out) :=
    match call with
    | slice offset len scratch => (StreamSource.slice offset len).run (source, scratch)
    | readAppend offset len out => (StreamSource.readAppend offset len).run (source, out)
    | readInto offset out => (StreamSource.readInto offset).run (source, out)
  (outcome.map fun _ => out, source)

/-- The call on a resident file, with the bytes it gives. -/
def onSlice (call : SourceCall) (source : SliceSource) : Outcome Text :=
  match call with
  | slice offset len _ => source.range offset len
  | readAppend offset len out => source.readAppend offset len out
  | readInto offset out => source.range offset out.length

end SourceCall

/-! ## The inner reader -/

namespace InnerReader

/-- The same file later. -/
structure Before (inner inner' : InnerReader) : Prop where
  bytes : inner'.bytes = inner.bytes
  answers : inner'.answers = inner.answers
  clock : inner.clock ≤ inner'.clock

/-- A call between two times failed. -/
def FailedBefore (inner inner' : InnerReader) : Prop :=
  ∃ call place, inner.clock ≤ call ∧ call < inner'.clock ∧ inner.answers call = .fail place

variable {inner inner' inner'' : InnerReader}

theorem Before.rfl : Before inner inner := ⟨Eq.refl _, Eq.refl _, le_refl _⟩

theorem Before.trans (h : Before inner inner') (h' : Before inner' inner'') :
    Before inner inner'' :=
  ⟨h'.bytes.trans h.bytes, h'.answers.trans h.answers, h.clock.trans h'.clock⟩

/-- A later failure is one of the longer time. -/
theorem FailedBefore.of_before (h : FailedBefore inner' inner'') (hbefore : Before inner inner') :
    FailedBefore inner inner'' := by
  obtain ⟨call, place, hfrom, hto, hfail⟩ := h
  exact ⟨call, place, hbefore.clock.trans hfrom, hto, hbefore.answers ▸ hfail⟩

/-- A run on an inner reader ends with what has `Q`, or the reader failed in it. -/
def Serves {σ α : Type} (inner : InnerReader) (reader : σ → InnerReader) (Q : α → σ → Prop)
    (result : Outcome α × σ) : Prop :=
  inner.Before (reader result.2) ∧
    ((∃ value, result.1 = .ok value ∧ Q value result.2) ∨
      (∃ fault, result.1 = .error fault) ∧ inner.FailedBefore (reader result.2))

theorem seekTo_serves (inner : InnerReader) {target : ℤ} (h : 0 ≤ target) :
    inner.Serves id (fun _ inner' => (inner'.place : ℤ) = target) ((seekTo target).run inner) := by
  unfold seekTo Stateful.run
  dsimp only
  split
  · rename_i place hanswer
    exact ⟨⟨rfl, rfl, Nat.le_succ _⟩,
      .inr ⟨⟨_, rfl⟩, inner.clock, place, le_rfl, Nat.lt_succ_self _, hanswer⟩⟩
  · rw [if_pos h]
    exact ⟨⟨rfl, rfl, Nat.le_succ _⟩, .inl ⟨_, rfl, Int.toNat_of_nonneg h⟩⟩

/-- Reads of bytes that a file has give them all, unless one fails. -/
theorem readMost_serves {limit : ℕ} (inner : InnerReader) (out : Text)
    (h : inner.place + limit ≤ inner.bytes.length) :
    inner.Serves Prod.fst (fun _ s => s.2 = out ++ (inner.bytes.drop inner.place).take limit ∧
      s.1.place = inner.place + limit) ((readMost limit).run (inner, out)) := by
  induction limit using Nat.strong_induction_on generalizing inner out with
  | h limit ih =>
    unfold Stateful.run
    rw [readMost]
    by_cases hlimit : limit = 0
    · subst hlimit
      rw [dif_pos rfl]
      exact ⟨.rfl, .inl ⟨(), rfl, by simp, rfl⟩⟩
    rw [dif_neg hlimit]
    unfold Stateful.run read
    cases hanswer : inner.answers inner.clock with
    | fail place =>
      exact ⟨⟨rfl, rfl, Nat.le_succ _⟩,
        .inr ⟨⟨_, rfl⟩, inner.clock, place, le_rfl, Nat.lt_succ_self _, hanswer⟩⟩
    | serve most =>
      dsimp only
      have hcount : 0 < min (max most 1) limit ∧ min (max most 1) limit ≤ limit := by omega
      generalize min (max most 1) limit = count at hcount
      have hlength : ((inner.bytes.drop inner.place).take count).length = count := by
        rw [List.length_take, List.length_drop]
        omega
      rw [hlength, dif_neg hcount.1.ne']
      obtain ⟨hbefore, hends⟩ := ih (limit - count) (by omega)
        { inner with place := inner.place + count, clock := inner.clock + 1 }
        (out ++ (inner.bytes.drop inner.place).take count) (by dsimp only; omega)
      have hnext : inner.Before { inner with place := inner.place + count, clock := inner.clock + 1 } :=
        ⟨rfl, rfl, Nat.le_succ _⟩
      refine ⟨hnext.trans hbefore, ?_⟩
      rcases hends with ⟨value, hvalue, hout, hplace⟩ | ⟨hfault, hfailed⟩
      · refine .inl ⟨value, hvalue, ?_, ?_⟩
        · refine hout.trans ?_
          rw [List.append_assoc, ← List.drop_drop, ← List.take_add, Nat.add_sub_cancel' hcount.2]
        · refine hplace.trans ?_
          dsimp only
          omega
      · exact .inr ⟨hfault, hfailed.of_before hnext⟩

theorem readToEnd_serves {limit : ℕ} (inner : InnerReader) (out : Text)
    (h : inner.place + limit ≤ inner.bytes.length) :
    inner.Serves Prod.fst (fun read s => read = limit ∧
        s.2 = out ++ (inner.bytes.drop inner.place).take limit ∧
        s.1.place = inner.place + limit)
      ((readToEnd limit).run (inner, out)) := by
  have hmost := readMost_serves inner out h
  cases hresult : (readMost limit).run (inner, out) with
  | mk outcome s =>
    rw [hresult] at hmost
    unfold Stateful.run
    unfold readToEnd
    rw [hresult]
    obtain ⟨hbefore, hends⟩ := hmost
    cases outcome with
    | error fault =>
      rcases hends with ⟨value, hvalue, -⟩ | hfailed
      · cases hvalue
      · exact ⟨hbefore, .inr ⟨⟨fault, rfl⟩, hfailed.2⟩⟩
    | ok _ =>
      rcases hends with ⟨_, -, hout, hplace⟩ | ⟨⟨fault, hfault⟩, -⟩
      · refine ⟨hbefore, .inl ⟨_, rfl, ?_, hout, hplace⟩⟩
        dsimp only at hout ⊢
        rw [hout, List.length_append, List.length_take, List.length_drop]
        omega
      · cases hfault

theorem readExact_serves (inner : InnerReader) (out : Text)
    (h : inner.place + out.length ≤ inner.bytes.length) :
    inner.Serves Prod.fst (fun _ s => s.2 = (inner.bytes.drop inner.place).take out.length ∧
        s.1.place = inner.place + out.length)
      (readExact.run (inner, out)) := by
  have hmost := readMost_serves inner [] h
  cases hresult : (readMost out.length).run (inner, []) with
  | mk outcome s =>
    rw [hresult] at hmost
    unfold Stateful.run
    unfold readExact
    dsimp only
    rw [hresult]
    obtain ⟨hbefore, hends⟩ := hmost
    cases outcome with
    | error fault =>
      rcases hends with ⟨value, hvalue, -⟩ | hfailed
      · cases hvalue
      · exact ⟨hbefore, .inr ⟨⟨fault, rfl⟩, hfailed.2⟩⟩
    | ok _ =>
      rcases hends with ⟨_, -, hout, hplace⟩ | ⟨⟨fault, hfault⟩, -⟩
      · dsimp only at hout hplace ⊢
        have hlength : s.2.length = out.length := by
          rw [hout, List.nil_append, List.length_take, List.length_drop]
          omega
        refine ⟨hbefore, .inl ⟨(), if_neg (by omega), ?_, hplace⟩⟩
        dsimp only
        rw [hlength, List.drop_length, List.append_nil, hout, List.nil_append]
      · cases hfault

end InnerReader

/-! ## Aligned sources -/

namespace StreamSource

/-- A stream of a file, which knows nothing wrong of where its inner reader stands. -/
structure Aligned (file : SliceSource) (s : StreamSource) : Prop where
  bytes : s.inner.bytes = file.bytes
  len : s.len = file.bytes.length
  position : ∀ place, s.position = some place → s.inner.place = place ∧ place ≤ s.len

variable {file : SliceSource} {s : StreamSource} {out : Text} {offset len : ℕ}

theorem run_onInner {α : Type} {call : Stateful Fault (InnerReader × Text) α} {outcome : Outcome α}
    {served : InnerReader × Text} (h : call.run (s.inner, out) = (outcome, served)) :
    (onInner call).run (s, out) = (outcome, { s with inner := served.1 }, served.2) := by
  unfold Stateful.run
  unfold onInner
  dsimp only
  rw [h]

theorem run_remember (position : Option ℕ) (s : StreamSource × Text) :
    (remember position).run s = (.ok (), { s.1 with position }, s.2) := rfl

theorem hop_of_le {position : ℕ} (hposition : position ≤ file.bytes.length)
    (hoffset : offset ≤ file.bytes.length) : hop position offset = .ok ((offset : ℤ) - position) := by
  have hslice := file.slice
  have hisize : isizeMax = 2 ^ 63 - 1 := rfl
  refine if_pos ⟨?_, ?_⟩
  · omega
  · omega

/-- A seek of the inner reader, where the source does not remember its place. -/
theorem Aligned.moved (h : s.Aligned file) (hposition : s.position = none) :
    let result := (onInner (.first (InnerReader.seekTo offset))).run (s, out)
    s.inner.Serves (·.1.inner) (fun _ s' => s'.1.inner.place = offset) result ∧
      result.2.1.Aligned file ∧ result.2.2 = out := by
  obtain ⟨hbefore, hends⟩ := InnerReader.seekTo_serves s.inner (Int.natCast_nonneg offset)
  refine ⟨⟨hbefore, ?_⟩, ⟨hbefore.bytes.trans h.bytes, h.len, ?_⟩, rfl⟩
  · refine hends.imp_left ?_
    rintro ⟨value, hvalue, hplace⟩
    exact ⟨value, hvalue, Int.ofNat_inj.mp hplace⟩
  · intro place hplace
    exact absurd (hposition.symm.trans hplace) nofun

/-- A move ends with the inner reader at the offset, or with its failure. -/
theorem Aligned.seekTo (h : s.Aligned file) (hoffset : offset ≤ file.bytes.length) :
    let result := (seekTo offset).run (s, out)
    s.inner.Serves (·.1.inner) (fun _ s' => s'.1.inner.place = offset) result ∧
      result.2.1.Aligned file ∧ result.2.2 = out := by
  unfold StreamSource.seekTo
  rw [Stateful.run_get_bind]
  dsimp only
  cases hposition : s.position with
  | none => exact h.moved hposition
  | some position =>
    obtain ⟨hplace, hle⟩ := h.position position hposition
    rw [h.len] at hle
    dsimp only
    by_cases hsame : position = offset
    · rw [if_pos hsame]
      exact ⟨⟨.rfl, .inl ⟨(), rfl, hplace.trans hsame⟩⟩, h, rfl⟩
    · rw [if_neg hsame, hop_of_le hle hoffset]
      have htarget : (s.inner.place : ℤ) + (offset - position) = offset := by omega
      have hforget : Aligned file { s with position := none } := ⟨h.bytes, h.len, nofun⟩
      have hmoved := @Aligned.moved file { s with position := none } out offset hforget rfl
      have hrelative : (InnerReader.seekRelative (offset - position)).run s.inner =
          (InnerReader.seekTo offset).run s.inner := by
        change (InnerReader.seekTo (s.inner.place + (offset - position))).run s.inner = _
        rw [htarget]
      have hcall : (onInner (.first (InnerReader.seekRelative (offset - position)))).run
          ({ s with position := none }, out) =
          (onInner (.first (InnerReader.seekTo offset))).run ({ s with position := none }, out) := by
        unfold onInner Stateful.run Stateful.first
        dsimp only
        rw [hrelative]
      rw [← hcall] at hmoved
      exact hmoved

end StreamSource

/-- A range of a file that has a size is in it, or is refused. -/
theorem Source.checkRange_eq {offset len size : ℕ} (hsize : size ≤ isizeMax) :
    checkRange offset len size =
      if offset + len ≤ size then .ok () else fail .unexpectedEof := by
  have hisize : isizeMax ≤ usizeMax := by decide
  unfold checkRange checkedAdd
  by_cases hfits : offset + len ≤ usizeMax
  · rw [if_pos hfits]
    dsimp only
    by_cases hle : offset + len ≤ size
    · rw [if_pos hle, if_neg hle.not_gt]
    · rw [if_neg hle, if_pos (Nat.lt_of_not_le hle)]
  · rw [if_neg hfits, if_neg (by omega)]

namespace SliceSource

variable {file : SliceSource} {offset len : ℕ}

theorem range_of_le (h : offset + len ≤ file.bytes.length) :
    file.range offset len = .ok ((file.bytes.drop offset).take len) := by
  rw [range, Source.checkRange_eq file.slice, if_pos h, Loops.bind_ok rfl, subslice, if_pos h]

theorem range_of_not_le (h : ¬offset + len ≤ file.bytes.length) :
    file.range offset len = fail .unexpectedEof := by
  rw [range, Source.checkRange_eq file.slice, if_neg h]
  rfl

theorem readAppend_of_le (h : offset + len ≤ file.bytes.length) (out : Text) :
    file.readAppend offset len out =
      (tryReserve 1 out.length len).map fun _ => out ++ (file.bytes.drop offset).take len := by
  rw [readAppend, range_of_le h, Loops.bind_ok rfl]
  cases tryReserve 1 out.length len with
  | error fault => rfl
  | ok value => rfl

/-- No room is another error than the end of the file. -/
theorem readAppend_ne_unexpectedEof (h : offset + len ≤ file.bytes.length) (out : Text) :
    file.readAppend offset len out ≠ fail .unexpectedEof := by
  rw [readAppend_of_le h]
  unfold tryReserve checkedAdd orOverflow
  split
  · rename_i requested hrequested
    rw [Loops.bind_ok rfl]
    split
    · nofun
    · nofun
  · nofun

end SliceSource

namespace StreamSource

variable {file : SliceSource} {s : StreamSource} {out : Text} {offset len : ℕ} {expected : Outcome Text}

/-- A call that started at `inner` gives what the same call on the file gives, or the inner reader
failed in it; the source knows nothing wrong of its place after either. -/
structure Meets (file : SliceSource) (inner : InnerReader) (expected : Outcome Text)
    (result : Outcome Unit × StreamSource × Text) : Prop where
  before : inner.Before result.2.1.inner
  aligned : result.2.1.Aligned file
  agrees : result.1.map (fun _ => result.2.2) = expected ∨
    (∃ fault, result.1 = .error fault) ∧ inner.FailedBefore result.2.1.inner ∧
      expected ≠ fail .unexpectedEof

theorem Meets.of_before {inner inner' : InnerReader} {result : Outcome Unit × StreamSource × Text}
    (h : Meets file inner' expected result) (hbefore : inner.Before inner') :
    Meets file inner expected result where
  before := hbefore.trans h.before
  aligned := h.aligned
  agrees := h.agrees.imp_right fun hfails => ⟨hfails.1, hfails.2.1.of_before hbefore, hfails.2.2⟩

/-- A call that moves first. -/
theorem Aligned.bind_seekTo (h : s.Aligned file) (hoffset : offset ≤ file.bytes.length)
    (hexpected : expected ≠ fail .unexpectedEof)
    {next : Unit → Stateful Fault (StreamSource × Text) Unit}
    (hnext : ∀ s' : StreamSource, s'.Aligned file → s'.inner.place = offset →
      Meets file s'.inner expected ((next ()).run (s', out))) :
    Meets file s.inner expected ((StreamSource.seekTo offset >>= next).run (s, out)) := by
  obtain ⟨⟨hbefore, hends⟩, haligned, hout⟩ := @Aligned.seekTo file s out offset h hoffset
  cases hseek : (StreamSource.seekTo offset).run (s, out) with
  | mk outcome moved =>
    rw [hseek] at hbefore hends haligned hout
    obtain ⟨s', out'⟩ := moved
    obtain rfl : out' = out := hout
    rcases hends with ⟨value, hvalue, hplace⟩ | ⟨⟨fault, hfault⟩, hfailed⟩
    · obtain rfl : outcome = .ok () := hvalue
      rw [Stateful.run_bind hseek]
      exact (hnext s' haligned hplace).of_before hbefore
    · obtain rfl : outcome = .error fault := hfault
      rw [Stateful.run_bind_error hseek]
      exact ⟨hbefore, haligned, .inr ⟨⟨fault, rfl⟩, hfailed, hexpected⟩⟩

/-- A call that remembers the end of what it read, or nothing. -/
theorem Aligned.bind_attempt {α : Type} (h : s.Aligned file)
    {call : Stateful Fault (InnerReader × Text) α} {stop : α → ℕ} {P : α → Text → Prop}
    (hexpected : expected ≠ fail .unexpectedEof)
    (hserves : s.inner.Serves Prod.fst (fun value served => P value served.2 ∧
      served.1.place = stop value ∧ stop value ≤ file.bytes.length) (call.run (s.inner, out)))
    {next : Outcome α → Stateful Fault (StreamSource × Text) Unit}
    (hnext : ∀ value (s' : StreamSource) out', P value out' →
      (next (.ok value)).run (s', out') = (.ok (), s', out') ∧ expected = .ok out')
    (hfault : ∀ fault s', (next (.error fault)).run s' = (.error fault, s')) :
    Meets file s.inner expected
      (((onInner call).attempt >>= fun read =>
        remember (read.toOption.map stop) >>= fun _ => next read).run (s, out)) := by
  rw [Stateful.run_attempt_bind]
  obtain ⟨hbefore, hends⟩ := hserves
  cases hcall : call.run (s.inner, out) with
  | mk outcome served =>
    rw [hcall] at hbefore hends
    rw [run_onInner hcall, Stateful.run_bind (run_remember _ _)]
    rcases hends with ⟨value, hvalue, hout, hplace, hle⟩ | ⟨⟨fault, hfaulted⟩, hfailed⟩
    · obtain rfl : outcome = .ok value := hvalue
      obtain ⟨hrun, hexpected'⟩ := hnext value
        { s with inner := served.1, position := some (stop value) } served.2 hout
      refine hrun ▸ ⟨hbefore, ⟨hbefore.bytes.trans h.bytes, h.len, ?_⟩, .inl hexpected'.symm⟩
      intro place hposition
      obtain rfl := Option.some.inj hposition
      exact ⟨hplace, h.len ▸ hle⟩
    · obtain rfl : outcome = .error fault := hfaulted
      dsimp only [Except.toOption, Option.map_none]
      rw [hfault]
      exact ⟨hbefore, ⟨hbefore.bytes.trans h.bytes, h.len, nofun⟩,
        .inr ⟨⟨fault, rfl⟩, hfailed, hexpected⟩⟩

/-- The path that both appending calls take. -/
theorem Aligned.readAt (h : s.Aligned file) :
    Meets file s.inner (file.readAppend offset len out) ((readAt offset len).run (s, out)) := by
  unfold StreamSource.readAt
  rw [Stateful.run_get_bind, h.len, Source.checkRange_eq file.slice]
  by_cases hle : offset + len ≤ file.bytes.length
  · rw [if_pos hle, Stateful.run_bind (Stateful.run_liftM _ _)]
    refine h.bind_seekTo (by omega) (SliceSource.readAppend_ne_unexpectedEof hle out) ?_
    intro s' h' hplace
    have hroom : s'.inner.place + len ≤ s'.inner.bytes.length := by
      rw [hplace, h'.bytes]
      exact hle
    rw [Stateful.run_get_bind, SliceSource.readAppend_of_le hle]
    cases hreserve : tryReserve 1 out.length len with
    | error fault =>
      rw [Stateful.run_bind_error (Stateful.run_liftM _ _)]
      exact ⟨.rfl, h', .inl rfl⟩
    | ok _ =>
      rw [Stateful.run_bind (Stateful.run_liftM _ _)]
      have hserves := InnerReader.readToEnd_serves s'.inner out hroom
      rw [hplace, h'.bytes] at hserves
      refine h'.bind_attempt (P := fun read served => read = len ∧
        served = out ++ (file.bytes.drop offset).take len) (by nofun) ?_ ?_ (fun _ _ => ?_)
      · refine ⟨hserves.1, hserves.2.imp_left ?_⟩
        rintro ⟨read, hread, rfl, hserved, hplace'⟩
        exact ⟨read, hread, ⟨rfl, hserved⟩, hplace', hle⟩
      · rintro read s'' out' ⟨rfl, hout⟩
        refine ⟨?_, congrArg Except.ok hout.symm⟩
        rw [Stateful.run_bind (Stateful.run_liftM _ _), if_pos rfl]
        rfl
      · exact Stateful.run_bind_error (Stateful.run_liftM _ _)
  · rw [if_neg hle, SliceSource.readAppend, SliceSource.range_of_not_le hle]
    exact ⟨.rfl, h, .inl rfl⟩

theorem Aligned.slice (h : s.Aligned file) :
    Meets file s.inner (file.range offset len) ((StreamSource.slice offset len).run (s, out)) := by
  unfold StreamSource.slice
  rw [Stateful.run_get_bind, h.len, Source.checkRange_eq file.slice]
  by_cases hle : offset + len ≤ file.bytes.length
  · have hslice := file.slice
    have hisize : isizeMax ≤ usizeMax := by decide
    have hroom : tryReserveExact 0 len = .ok () := by
      rw [tryReserveExact, checkedAdd, if_pos (by omega)]
      exact if_pos (by omega)
    have hexpected : file.range offset len = file.readAppend offset len [] := by
      have hreserve : tryReserve 1 0 len = .ok () := by
        rw [tryReserve, checkedAdd, if_pos (by omega)]
        exact if_pos (by omega)
      rw [SliceSource.readAppend_of_le hle, SliceSource.range_of_le hle, List.length_nil, hreserve]
      rfl
    rw [if_pos hle, Stateful.run_bind (Stateful.run_liftM _ _), hroom, hexpected]
    exact h.readAt
  · rw [if_neg hle, SliceSource.range_of_not_le hle]
    exact ⟨.rfl, h, .inl rfl⟩

theorem Aligned.readInto (h : s.Aligned file) :
    Meets file s.inner (file.range offset out.length) ((StreamSource.readInto offset).run (s, out)) := by
  unfold StreamSource.readInto
  rw [Stateful.run_get_bind]
  dsimp only
  rw [h.len, Source.checkRange_eq file.slice]
  by_cases hle : offset + out.length ≤ file.bytes.length
  · rw [if_pos hle, Stateful.run_bind (Stateful.run_liftM _ _), SliceSource.range_of_le hle]
    refine h.bind_seekTo (by omega) (by nofun) (fun s' h' hplace => ?_)
    have hserves := InnerReader.readExact_serves s'.inner out
      (by rw [hplace, h'.bytes]; exact hle)
    rw [hplace, h'.bytes] at hserves
    refine h'.bind_attempt (P := fun _ served => served = (file.bytes.drop offset).take out.length)
      (by nofun) ?_ ?_ (fun _ _ => ?_)
    · refine ⟨hserves.1, hserves.2.imp_left ?_⟩
      rintro ⟨value, hvalue, hserved, hplace'⟩
      exact ⟨value, hvalue, hserved, hplace', hle⟩
    · rintro read s'' out' rfl
      exact ⟨rfl, rfl⟩
    · rfl
  · rw [if_neg hle, SliceSource.range_of_not_le hle]
    exact ⟨.rfl, h, .inl rfl⟩

/-- An opened source knows where its inner reader stands. -/
theorem aligned_new {inner : InnerReader} (hbytes : inner.bytes = file.bytes)
    (h : new inner = .ok s) : s.Aligned file := by
  unfold new InnerReader.seekEnd at h
  rw [Stateful.run_get_bind] at h
  obtain ⟨hbefore, hends⟩ := InnerReader.seekTo_serves inner (Int.natCast_nonneg inner.bytes.length)
  cases hseek : (InnerReader.seekTo inner.bytes.length).run inner with
  | mk outcome moved =>
    rw [hseek] at hbefore hends
    rcases hends with ⟨value, hvalue, hplace⟩ | ⟨⟨fault, hfault⟩, -⟩
    · obtain rfl : outcome = .ok value := hvalue
      rw [Stateful.run_bind hseek] at h
      obtain rfl := Except.ok.inj h
      have hbytes' : moved.bytes = file.bytes := hbefore.bytes.trans hbytes
      have hlen : moved.place = file.bytes.length := (Int.ofNat_inj.mp hplace).trans (hbytes ▸ rfl)
      refine ⟨hbytes', hlen, fun place hposition => ?_⟩
      obtain rfl := Option.some.inj hposition
      exact ⟨rfl, le_rfl⟩
    · obtain rfl : outcome = .error fault := hfault
      rw [Stateful.run_bind_error hseek] at h
      cases h

end StreamSource

namespace SourceCall

variable {file : SliceSource} {s : StreamSource}

/-- The source after calls, whatever each of them ended with. -/
def after (calls : List SourceCall) (s : StreamSource) : StreamSource :=
  calls.foldl (fun s call => (call.onStream.run s).2) s

/-- A call on an aligned source. -/
theorem onStream_meets (call : SourceCall) (h : s.Aligned file) :
    let result := call.onStream.run s
    result.2.Aligned file ∧
      (result.1 = call.onSlice file ∨
        (∃ fault, result.1 = .error fault) ∧ s.inner.FailedBefore result.2.inner ∧
          call.onSlice file ≠ fail .unexpectedEof) := by
  have hmap : ∀ {expected : Outcome Text} {result : Outcome Unit × StreamSource × Text},
      StreamSource.Meets file s.inner expected result → result.2.1.Aligned file ∧
        (result.1.map (fun _ => result.2.2) = expected ∨
          (∃ fault, result.1.map (fun _ => result.2.2) = .error fault) ∧
            s.inner.FailedBefore result.2.1.inner ∧ expected ≠ fail .unexpectedEof) := by
    intro expected result hmeets
    refine ⟨hmeets.aligned, hmeets.agrees.imp_right ?_⟩
    rintro ⟨⟨fault, hfault⟩, hfailed, hexpected⟩
    exact ⟨⟨fault, by rw [hfault]; rfl⟩, hfailed, hexpected⟩
  cases call with
  | slice offset len scratch => exact hmap h.slice
  | readAppend offset len out => exact hmap h.readAt
  | readInto offset out => exact hmap h.readInto

/-- No history of calls makes a source remember a wrong place. -/
theorem aligned_after (calls : List SourceCall) (h : s.Aligned file) : (after calls s).Aligned file := by
  induction calls generalizing s with
  | nil => exact h
  | cons call calls ih => exact ih (onStream_meets call h).1

end SourceCall

/-- After any calls, a call on a stream source that returns gives the bytes that the resident file
gives, one that the file refuses for its end is refused so, and one that fails otherwise failed in
the inner reader. -/
theorem stream_source_reads_as_slice {file : SliceSource} {inner : InnerReader} {opened : StreamSource}
    (hbytes : inner.bytes = file.bytes) (hopened : StreamSource.new inner = .ok opened)
    (calls : List SourceCall) (call : SourceCall) :
    let s := SourceCall.after calls opened
    let result := call.onStream.run s
    (∀ bytes, result.1 = .ok bytes → call.onSlice file = .ok bytes) ∧
      (call.onSlice file = fail .unexpectedEof → result.1 = fail .unexpectedEof) ∧
      ∀ fault, result.1 = .error fault → call.onSlice file ≠ .error fault →
        s.inner.FailedBefore result.2.inner := by
  obtain ⟨-, hagrees⟩ := SourceCall.onStream_meets call
    (SourceCall.aligned_after calls (StreamSource.aligned_new hbytes hopened))
  refine ⟨fun bytes hok => ?_, fun heof => ?_, fun fault hfault hother => ?_⟩
  · rcases hagrees with hsame | ⟨⟨fault, hfault⟩, -⟩
    · rw [← hsame, hok]
    · rw [hok] at hfault
      cases hfault
  · rcases hagrees with hsame | ⟨-, -, hnotEof⟩
    · rw [hsame, heof]
    · exact absurd heof hnotEof
  · rcases hagrees with hsame | ⟨-, hfailed, -⟩
    · exact absurd (hsame.symm.trans hfault) hother
    · exact hfailed

/-- A read after one that failed and left its inner reader at the last byte. -/
theorem stream_source_reads_as_slice_after_failure :
    let file : SliceSource := ⟨[10, 20, 30, 40], Nat.le_of_ble_eq_true rfl⟩
    let answers := fun call => if call = 1 then Answer.fail 3 else .serve 1
    let opened : StreamSource := ⟨⟨file.bytes, answers, 4, 1⟩, 4, some 4⟩
    let failed := SourceCall.after [.readAppend 0 2 []] opened
    opened.inner.FailedBefore failed.inner ∧
      (SourceCall.readInto 1 [0, 0]).onSlice file = .ok [20, 30] := by
  intro file answers opened failed
  have hopened : StreamSource.new ⟨file.bytes, answers, 0, 0⟩ = .ok opened := rfl
  have hbytes : (⟨file.bytes, answers, 0, 0⟩ : InnerReader).bytes = file.bytes := rfl
  refine ⟨?_, ?_⟩
  · exact (stream_source_reads_as_slice hbytes hopened [] (.readAppend 0 2 [])).2.2 (.err .io)
      (by decide +kernel) (by decide +kernel)
  · exact (stream_source_reads_as_slice hbytes hopened [.readAppend 0 2 []]
      (.readInto 1 [0, 0])).1 [20, 30] (by decide +kernel)

end FitsWell
