import FitsWell.FitsWriter.Writes

/-!
# How a stream goes

A stream that starts has written its header at the sink's position. Each chunk adds the bytes of
its samples to the sink and to the sum, and the end writes the block fill and puts a signed header
over the first.
-/

namespace FitsWell

open Checksum (Running)

variable {R : Type} [PlaneReals R] {answers : SinkAnswers}

namespace SeekSink

/-- The sink with bytes put in at a place, and the position where it was, after so many calls. -/
def patched (sink : SeekSink) (place : ℕ) (out : Text) (calls : ℕ) : SeekSink where
  bytes := { sink with position := place }.putAt out
  position := sink.position
  calls := calls

theorem run_streamPosition (sink : SeekSink) :
    ((answers sink.calls).isSome = false ∧
      (streamPosition answers).run sink = (.ok sink.position, sink.wrote [] 1)) ∨
      (answers sink.calls).isSome = true ∧
        (streamPosition answers).run sink = (fail .io, sink.wrote [] 1) := by
  unfold Stateful.run streamPosition answered
  cases hanswer : answers sink.calls with
  | none => exact .inl ⟨rfl, rfl⟩
  | some room => exact .inr ⟨rfl, rfl⟩

theorem run_seekTo (sink : SeekSink) (place : ℕ) :
    (seekTo answers place).run sink =
        (.ok (), { sink with position := place, calls := sink.calls + 1 }) ∨
      ∃ other, (seekTo answers place).run sink =
        (fail .io, { sink with position := other, calls := sink.calls + 1 }) := by
  unfold Stateful.run seekTo answered
  cases hanswer : answers sink.calls with
  | none => exact .inl rfl
  | some other => exact .inr ⟨other, rfl⟩

end SeekSink

namespace FitsWriter

/-- A call of the sink that works. -/
theorem run_onSink {α : Type} {call : Stateful Fault SeekSink α} {writer : FitsWriter}
    {outcome : Outcome α} {sink : SeekSink} (h : call.run writer.sink = (outcome, sink)) :
    (onSink call).run writer = (outcome, { writer with sink := sink }) := by
  unfold Stateful.run at h
  unfold Stateful.run onSink Stateful.run
  rw [h]

omit [PlaneReals R] in
theorem run_orPoison_ok {call : Stateful Fault FitsWriter Unit} {writer writer' : FitsWriter}
    (h : call.run writer = (.ok (), writer')) : (orPoison call).run writer = (.ok (), writer') := by
  unfold Stateful.run orPoison
  rw [h]

omit [PlaneReals R] in
theorem run_orPoison_error {call : Stateful Fault FitsWriter Unit} {writer writer' : FitsWriter}
    {fault : Fault} (h : call.run writer = (.error fault, writer')) :
    (orPoison call).run writer = (.error fault, writer'.poisoned) := by
  unfold Stateful.run orPoison
  rw [h]

/-! ## The start -/

/-- How a stream starts: refused without a byte, broken off by the sink, or with its header in the
sink. -/
inductive StartEnds (answers : SinkAnswers) (writer : FitsWriter) (layout : Metadata R)
    (template : Option (Header R)) : Outcome (ImageWriter R) × FitsWriter → Prop
  | refused (fault : Fault) (calls : ℕ) (hcalls : calls ≤ 1) :
      StartEnds answers writer layout template (.error fault, writer.wrote [] calls)
  | broken (husable : writer.ensureUsable = .ok ()) (error : FitsError) (taken : Text) (calls : ℕ)
      (hfailed : ∃ n, writer.sink.calls < n ∧ n < writer.sink.calls + calls ∧
        (answers n).isSome = true) :
      StartEnds answers writer layout template (fail error, (writer.wrote taken calls).poisoned)
  | started (next : HduPosition) (header : Header R) (expected : ℕ) (head : Text) (calls : ℕ)
      (hnext : writer.nextPosition = .ok next) (hexpected : shapeProduct layout.shape = .ok expected)
      (hheader : imageHeader layout next = .ok header)
      (hhead : (header.withTemplate template).renderInto writer.placeholderSigning
        writer.form.space = .ok head)
      (hworks : ¬SeekSink.Failed answers writer.sink (writer.sink.wrote head calls)) :
      StartEnds answers writer layout template
        (.ok { writer := { writer.wrote head calls with state := .active }
               header := ⟨header.withTemplate template, writer.sink.position⟩
               expectedSamples := expected, writtenSamples := 0
               bitpix := layout.bitpix, checksum := .new },
          { writer.wrote head calls with state := .active })

theorem streamImage_ends (writer : FitsWriter) (layout : Metadata R)
    (template : Option (Header R)) :
    StartEnds answers writer layout template ((streamImage answers layout template).run writer) := by
  unfold streamImage
  cases hexpected : shapeProduct layout.shape with
  | error fault =>
    rw [Stateful.run_bind_error (Stateful.run_liftM _ _)]
    exact .refused fault 0 (Nat.zero_le 1)
  | ok expected =>
  rw [Stateful.run_liftM_bind rfl, Stateful.run_get_bind]
  cases hnext : writer.nextPosition with
  | error fault =>
    rw [Stateful.run_bind_error (Stateful.run_liftM _ _)]
    exact .refused fault 0 (Nat.zero_le 1)
  | ok next =>
  rw [Stateful.run_liftM_bind rfl]
  cases hheader : imageHeader layout next with
  | error fault =>
    rw [Stateful.run_bind_error (Stateful.run_liftM _ _)]
    exact .refused fault 0 (Nat.zero_le 1)
  | ok header =>
  rw [Stateful.run_liftM_bind rfl]
  unfold startStream
  rcases writer.sink.run_streamPosition with ⟨hanswer, hplace⟩ | ⟨-, hplace⟩
  case inr =>
    rw [Stateful.run_bind_error (Stateful.run_bind_error (run_onSink hplace))]
    exact .refused _ 1 le_rfl
  have hplaced : (onSink (SeekSink.streamPosition answers)).run writer =
      (.ok writer.sink.position, writer.wrote [] 1) := run_onSink hplace
  have husable : (writer.wrote [] 1).ensureUsable = .ok () :=
    ensureUsable_wrote (ensureUsable_of_nextPosition hnext) [] 1
  rw [bind_assoc, Stateful.run_bind hplaced, bind_assoc, Stateful.run_get_bind]
  unfold emitHeader
  rw [bind_assoc, bind_assoc, Stateful.run_get_bind]
  cases hhead : (header.withTemplate template).renderInto (writer.wrote [] 1).placeholderSigning
      (writer.wrote [] 1).form.space with
  | error fault =>
    rw [bind_assoc, Stateful.run_bind_error (Stateful.run_liftM _ _)]
    exact .refused fault 1 le_rfl
  | ok head =>
  rw [bind_assoc, Stateful.run_liftM_bind rfl]
  have hemission := @emission_emit answers _ husable head
  generalize hcall : (emit answers head).run (writer.wrote [] 1) = result at hemission
  cases hemission with
  | whole calls hworks =>
    rw [Stateful.run_bind hcall, wrote_wrote]
    have hone : ¬SeekSink.Failed answers writer.sink (writer.wrote [] 1).sink :=
      SeekSink.not_failed_one hanswer rfl
    exact .started next header expected head _ hnext hexpected hheader hhead
      (SeekSink.not_failed_trans hone (hworks ∘ fun h => h.mono le_rfl (by
        show writer.sink.calls + (1 + calls) ≤ writer.sink.calls + 1 + calls
        omega)))
  | broken error taken calls hprefix hfailed =>
    rw [Stateful.run_bind_error hcall, wrote_wrote]
    obtain ⟨n, hfirst, hlast, hsome⟩ := hfailed
    have hcalls : (writer.wrote [] 1).sink.calls = writer.sink.calls + 1 := rfl
    have hend : ((writer.wrote [] 1).sink.wrote taken calls).calls =
        writer.sink.calls + 1 + calls := rfl
    exact .broken (ensureUsable_of_nextPosition hnext) error taken _
      ⟨n, by omega, by omega, hsome⟩

/-! ## The end -/

/-- A header is put over the one that was written, or bytes from its place on change. -/
theorem run_renewHeader {writer : FitsWriter} (husable : writer.ensureUsable = .ok ())
    (header : StreamHeader R) (signing : Signing) :
    (∃ out calls, header.header.renderInto signing writer.form.space = .ok out ∧
      (renewHeader answers header signing).run writer =
        (.ok (), { writer with sink := writer.sink.patched header.offset out calls })) ∨
    ∃ fault writer', (renewHeader answers header signing).run writer = (.error fault, writer') ∧
      writer'.form = writer.form ∧
      writer.sink.bytes.take header.offset <+: writer'.sink.bytes := by
  have hkept : writer.sink.bytes.take header.offset <+: writer.sink.bytes := List.take_prefix _ _
  unfold renewHeader
  rcases writer.sink.run_streamPosition with ⟨hanswer, hplace⟩ | ⟨-, hplace⟩
  case inr =>
    rw [Stateful.run_bind_error (run_onSink hplace)]
    exact .inr ⟨_, _, rfl, rfl, hkept⟩
  rw [Stateful.run_bind (run_onSink hplace)]
  rcases @SeekSink.run_seekTo answers (writer.sink.wrote [] 1) header.offset with
    hseek | ⟨other, hseek⟩
  case inr =>
    rw [Stateful.run_bind_error (run_onSink hseek)]
    exact .inr ⟨_, _, rfl, rfl, hkept⟩
  rw [Stateful.run_bind (run_onSink hseek)]
  unfold emitHeader
  rw [bind_assoc, Stateful.run_get_bind]
  cases hout : header.header.renderInto signing writer.form.space with
  | error fault =>
    rw [bind_assoc, Stateful.run_bind_error (Stateful.run_liftM _ _)]
    exact .inr ⟨_, _, rfl, rfl, hkept⟩
  | ok out =>
  rw [bind_assoc, Stateful.run_liftM_bind rfl]
  obtain ⟨sought, hsought⟩ : ∃ sought : FitsWriter, sought =
      { writer with sink := { writer.sink.wrote [] 1 with
          position := header.offset, calls := (writer.sink.wrote [] 1).calls + 1 } } := ⟨_, rfl⟩
  have hemission := @emission_emit answers sought (hsought ▸ husable) out
  rw [← hsought]
  generalize hcall : (emit answers out).run sought = result at hemission
  have htake : ∀ taken calls, writer.sink.bytes.take header.offset <+:
      (sought.wrote taken calls).sink.bytes := by
    intro taken calls
    have hput := SeekSink.take_isPrefix_putAt sought.sink taken
    rw [hsought] at hput ⊢
    exact hput
  cases hemission with
  | broken error taken calls hprefix hfailed =>
    rw [Stateful.run_bind_error hcall]
    exact .inr ⟨_, _, rfl, by rw [hsought]; rfl, htake taken calls⟩
  | whole calls hworks =>
    rw [Stateful.run_bind hcall]
    rcases @SeekSink.run_seekTo answers (sought.wrote out calls).sink writer.sink.position with
      hback | ⟨other, hback⟩
    · refine .inl ⟨out, (sought.wrote out calls).sink.calls + 1, rfl, ?_⟩
      rw [run_onSink hback, hsought]
      rfl
    · rw [run_onSink hback]
      exact .inr ⟨_, _, rfl, by rw [hsought]; rfl, htake out calls⟩

end FitsWriter

namespace ImageWriter

/-- The writer of a stream that finished: with the block fill written, and the header signed where
it is signed. -/
inductive Ended (stream : ImageWriter R) (dataBytes : ℕ) : FitsWriter → Prop
  | unsigned (calls : ℕ) (hoff : stream.writer.form.checksums = .off) :
      Ended stream dataBytes (stream.writer.wrote (zeroFill dataBytes) calls)
  | signed (hon : stream.writer.form.checksums = .on) (sum : Running) (total : ℕ) (out : Text)
      (calls more : ℕ) (hsum : stream.checksum.update (zeroFill dataBytes) = .ok sum)
      (htotal : sum.finish = .ok total)
      (hout : stream.header.header.renderInto (.withDataSum (UInt32.ofNat total))
        stream.writer.form.space = .ok out) :
      Ended stream dataBytes { stream.writer with
        sink := (stream.writer.wrote (zeroFill dataBytes) calls).sink.patched stream.header.offset out more }

/-- How a stream finishes: not, and its writer is unusable, or with its HDU whole. -/
inductive FinishEnds (stream : ImageWriter R) : Outcome Unit × FitsWriter → Prop
  | failed (fault : Fault) (writer : FitsWriter)
      (hkept : stream.writer.sink.bytes.take stream.header.offset <+: writer.sink.bytes)
      (hnone : stream.writer.state = .failed → writer.sink = stream.writer.sink) :
      FinishEnds stream (.error fault, writer.poisoned)
  | done (husable : stream.writer.ensureUsable = .ok ())
      (hcount : stream.writtenSamples = stream.expectedSamples) (dataBytes : ℕ)
      (hbytes : dataBytes = stream.expectedSamples * stream.bitpix.elemSize) (writer : FitsWriter)
      (hended : Ended stream dataBytes writer) :
      FinishEnds stream (.ok (), writer)

omit [PlaneReals R] in
/-- A call of the writer under a stream. -/
theorem run_onWriter {call : Stateful Fault FitsWriter Unit} {stream : ImageWriter R}
    {outcome : Outcome Unit} {writer : FitsWriter} (h : call.run stream.writer = (outcome, writer)) :
    (onWriter call).run stream = (outcome, { stream with writer := writer }) := by
  unfold Stateful.run at h
  unfold Stateful.run onWriter Stateful.run
  rw [h]

end ImageWriter

namespace FitsWriter

/-- The end of a stream on a usable writer. -/
theorem run_finishStream {stream : ImageWriter R} (husable : stream.writer.ensureUsable = .ok ())
    (hplace : stream.header.offset ≤ stream.writer.sink.position) (dataBytes : ℕ) :
    (∃ writer, (finishStream answers stream.header dataBytes stream.checksum).run stream.writer =
        (.ok (), writer) ∧ ImageWriter.Ended stream dataBytes writer) ∨
    ∃ fault writer, (finishStream answers stream.header dataBytes stream.checksum).run
        stream.writer = (.error fault, writer) ∧
      stream.writer.sink.bytes.take stream.header.offset <+: writer.sink.bytes := by
  have hkept : ∀ taken calls, stream.writer.sink.bytes.take stream.header.offset <+:
      (stream.writer.wrote taken calls).sink.bytes := fun taken calls =>
    (List.take_prefix_take_left hplace).trans (SeekSink.take_isPrefix_putAt _ _)
  unfold finishStream
  have hemission := @emission_emit answers _ husable (zeroFill dataBytes)
  generalize hcall : (emit answers (zeroFill dataBytes)).run stream.writer = result
    at hemission
  cases hemission with
  | broken error taken calls hprefix hfailed =>
    refine .inr ⟨_, _, Stateful.run_bind_error hcall, hkept taken calls⟩
  | whole calls hworks =>
  rw [Stateful.run_bind hcall]
  cases hsum : stream.checksum.update (zeroFill dataBytes) with
  | error fault =>
    exact .inr ⟨fault, _, Stateful.run_bind_error (Stateful.run_liftM _ _), hkept _ calls⟩
  | ok sum =>
  rw [Stateful.run_liftM_bind rfl, Stateful.run_get_bind]
  cases hsigned : (stream.writer.wrote (zeroFill dataBytes) calls).form.checksums with
  | off => exact .inl ⟨_, rfl, .unsigned calls hsigned⟩
  | on =>
  dsimp only
  cases htotal : sum.finish with
  | error fault =>
    rw [Stateful.run_bind_error (Stateful.run_liftM _ _)]
    exact .inr ⟨fault, _, rfl, hkept _ calls⟩
  | ok total =>
  rw [Stateful.run_liftM_bind rfl]
  rcases @run_renewHeader R _ answers _ (ensureUsable_wrote husable (zeroFill dataBytes) calls)
    stream.header (.withDataSum (UInt32.ofNat total)) with
    ⟨out, more, hout, hrun⟩ | ⟨fault, writer, hrun, hform, hprefix⟩
  · exact .inl ⟨_, run_orPoison_ok hrun, .signed hsigned sum total out calls more hsum htotal hout⟩
  · have hfront := (hkept (zeroFill dataBytes) calls).take stream.header.offset
    rw [List.take_take, min_self] at hfront
    exact .inr ⟨fault, _, run_orPoison_error hrun, hfront.trans hprefix⟩

end FitsWriter

namespace ImageWriter

/-- A finish ends the stream, one way or the other. -/
theorem finish_ends (stream : ImageWriter R) (hplace : stream.writer.ensureUsable = .ok () →
    stream.header.offset ≤ stream.writer.sink.position) :
    FinishEnds stream (stream.finish answers) := by
  have hkept := List.take_prefix stream.header.offset stream.writer.sink.bytes
  unfold finish complete
  cases husable : stream.writer.ensureUsable with
  | error fault =>
    rw [Stateful.run_get_bind, husable]
    exact .failed fault _ hkept fun _ => rfl
  | ok husable' =>
  have hstate : stream.writer.state ≠ .failed := by
    intro hstate
    rw [FitsWriter.ensureUsable, hstate] at husable
    cases husable
  rw [Stateful.run_get_bind, husable, Stateful.run_liftM_bind rfl]
  by_cases hcount : stream.writtenSamples = stream.expectedSamples
  case neg =>
    rw [if_pos hcount]
    exact .failed _ _ hkept fun _ => rfl
  rw [if_neg (not_not_intro hcount)]
  cases hbytes : orOverflow (checkedMul stream.expectedSamples stream.bitpix.elemSize) with
  | error fault => exact .failed fault _ hkept fun _ => rfl
  | ok dataBytes =>
  rw [Stateful.run_liftM_bind rfl]
  have hvalue := (checkedMul_eq_some_iff.mp (orOverflow_eq_ok_iff.mp hbytes)).2
  rcases @FitsWriter.run_finishStream R _ answers stream husable (hplace husable) dataBytes with
    ⟨writer, hrun, hended⟩ | ⟨fault, writer, hrun, hprefix⟩
  · rw [run_onWriter hrun]
    exact .done husable hcount dataBytes hvalue.symm writer hended
  · rw [run_onWriter hrun]
    exact .failed fault writer hprefix fun h => (hstate h).elim

/-! ## The chunks -/

/-- Pieces added to a usable stream whose sum holds the bytes that passed: all of them are added,
or the sink breaks off. -/
inductive Feeding (answers : SinkAnswers) (stream : ImageWriter R) (passed out : Text) :
    Outcome Unit × ImageWriter R → Prop
  | whole (sum : Running) (calls : ℕ) (hsums : sum.Sums (passed ++ out))
      (hworks : ¬SeekSink.Failed answers stream.writer.sink (stream.writer.sink.wrote out calls)) :
      Feeding answers stream passed out
        (.ok (), { stream with writer := stream.writer.wrote out calls, checksum := sum })
  | broken (error : FitsError) (sum : Running) (taken : Text) (calls : ℕ)
      (hfailed : SeekSink.Failed answers stream.writer.sink (stream.writer.sink.wrote taken calls)) :
      Feeding answers stream passed out
        (fail error,
          { stream with writer := (stream.writer.wrote taken calls).poisoned, checksum := sum })

omit [PlaneReals R] in
theorem feeding_feed {stream : ImageWriter R} {passed : Text}
    (husable : stream.writer.ensureUsable = .ok ()) (hsums : stream.checksum.Sums passed)
    (chunk : Text) : Feeding answers stream passed chunk ((feed answers chunk).run stream) := by
  obtain ⟨sum, hsum, hnext⟩ := Running.update_sums hsums chunk
  unfold feed
  rw [Stateful.run_get_bind, Stateful.run_liftM_bind hsum]
  have hemission := @FitsWriter.emission_emit answers _ husable chunk
  generalize hcall : (FitsWriter.emit answers chunk).run stream.writer = result at hemission
  have hset : (Stateful.set { stream with checksum := sum } : Stateful Fault (ImageWriter R) Unit).run
      stream = (.ok (), { stream with checksum := sum }) := rfl
  rw [Stateful.run_bind hset, @run_onWriter R _ { stream with checksum := sum } _ _ hcall]
  cases hemission with
  | whole calls hworks => exact .whole sum calls hnext hworks
  | broken error taken calls hprefix hfailed => exact .broken error sum taken calls hfailed

omit [PlaneReals R] in
theorem feeding_forM {stream : ImageWriter R} {passed : Text}
    (husable : stream.writer.ensureUsable = .ok ()) (hsums : stream.checksum.Sums passed)
    (pieces : List Text) :
    Feeding answers stream passed pieces.flatten ((pieces.forM (feed answers)).run stream) := by
  induction pieces generalizing stream passed with
  | nil =>
    exact .whole stream.checksum 0 (by rwa [List.flatten_nil, List.append_nil])
      (SeekSink.not_failed_same rfl)
  | cons piece pieces ih =>
    have hfirst := @feeding_feed R answers _ _ husable hsums piece
    show Feeding answers stream passed _ ((feed answers piece >>= fun _ =>
      pieces.forM (feed answers)).run stream)
    generalize hcall : (feed answers piece).run stream = result at hfirst
    cases hfirst with
    | broken error sum taken calls hfailed =>
      rw [Stateful.run_bind_error hcall]
      exact .broken error sum taken calls hfailed
    | whole sum calls hnext hworks =>
      rw [Stateful.run_bind hcall]
      have hsink : ∀ taken more, (stream.writer.wrote piece calls).sink.wrote taken more =
          stream.writer.sink.wrote (piece ++ taken) (calls + more) :=
        fun taken more => SeekSink.wrote_wrote _ _ _ _ _
      have hrest := @ih { stream with writer := stream.writer.wrote piece calls, checksum := sum } _
        (FitsWriter.ensureUsable_wrote husable piece calls) hnext
      generalize (pieces.forM (feed answers)).run { stream with
        writer := stream.writer.wrote piece calls, checksum := sum } = result at hrest
      cases hrest with
      | whole sum more hlast hmore =>
        dsimp only at hmore ⊢
        rw [FitsWriter.wrote_wrote]
        rw [hsink] at hmore
        exact .whole sum _ (by rwa [List.append_assoc] at hlast)
          (SeekSink.not_failed_trans hworks hmore)
      | broken error sum taken more hfailed =>
        dsimp only at hfailed ⊢
        rw [FitsWriter.wrote_wrote]
        rw [hsink] at hfailed
        exact .broken error sum _ _ (hfailed.mono (Nat.le_add_right _ _) le_rfl)

/-- How a chunk of samples ends on a usable stream: refused, broken off by the sink, or done. -/
inductive ChunkEnds (answers : SinkAnswers) (stream : ImageWriter R) (samples : View)
    (passed : Text) : Outcome Unit × ImageWriter R → Prop
  | refused (fault : Fault) : ChunkEnds answers stream samples passed (.error fault, stream)
  | broken (error : FitsError) (sum : Running) (taken : Text) (calls : ℕ)
      (hfailed : SeekSink.Failed answers stream.writer.sink (stream.writer.sink.wrote taken calls)) :
      ChunkEnds answers stream samples passed
        (fail error,
          { stream with writer := (stream.writer.wrote taken calls).poisoned, checksum := sum })
  | done (sum : Running) (calls : ℕ) (hsums : sum.Sums (passed ++ samples.encode))
      (htype : samples.bitpix = stream.bitpix)
      (hroom : stream.writtenSamples + samples.len ≤ stream.expectedSamples)
      (hworks : ¬SeekSink.Failed answers stream.writer.sink
        (stream.writer.sink.wrote samples.encode calls)) :
      ChunkEnds answers stream samples passed
        (.ok (), { stream with
          writer := stream.writer.wrote samples.encode calls, checksum := sum
          writtenSamples := stream.writtenSamples + samples.len })

omit [PlaneReals R] in
/-- The chunks of samples are fed in turn. -/
theorem run_eachChunk {samples : View} {pieces : List Text}
    (hhands : Hands samples.eachChunk pieces (.ok ())) (stream : ImageWriter R) :
    (samples.eachChunk (ImageWriter R) (feed answers)).run stream =
      (pieces.forM (feed answers)).run stream := by
  have hstop : (fun _ => Stateful.lift (.ok ()) : Unit → Stateful Fault (ImageWriter R) Unit) =
    pure := rfl
  rw [hhands (ImageWriter R) (feed answers), hstop, bind_pure]

omit [PlaneReals R] in
theorem writeChunk_ends {stream : ImageWriter R} {passed : Text}
    (husable : stream.writer.ensureUsable = .ok ()) (hsums : stream.checksum.Sums passed)
    (samples : View) :
    ChunkEnds answers stream samples passed ((writeChunk answers samples).run stream) := by
  obtain ⟨pieces, hhands, hpieces⟩ := samples.hands_eachChunk
  unfold writeChunk
  rw [Stateful.run_get_bind]
  by_cases htype : samples.bitpix = stream.bitpix
  case neg =>
    rw [if_pos htype]
    exact .refused _
  rw [if_neg (not_not_intro htype)]
  cases htotal : orOverflow (checkedAdd stream.writtenSamples samples.len) with
  | error fault => exact .refused fault
  | ok total =>
  obtain rfl := (checkedAdd_eq_some_iff.mp (orOverflow_eq_ok_iff.mp htotal)).2
  rw [Stateful.run_liftM_bind rfl]
  by_cases hroom : stream.expectedSamples < stream.writtenSamples + samples.len
  · rw [if_pos hroom]
    exact .refused _
  rw [if_neg hroom]
  have hfeeding := @feeding_forM R answers _ _ husable hsums pieces
  have hrun := @run_eachChunk R answers _ _ hhands stream
  rw [← hrun, hpieces] at hfeeding
  generalize hcall : (samples.eachChunk (ImageWriter R) (feed answers)).run stream = result
    at hfeeding
  cases hfeeding with
  | broken error sum taken calls hfailed =>
    rw [Stateful.run_bind_error hcall]
    exact .broken error sum taken calls hfailed
  | whole sum calls hnext hworks =>
    rw [Stateful.run_bind hcall]
    exact .done sum calls hnext htype (by omega) hworks

omit [PlaneReals R] in
theorem feed_failed {stream : ImageWriter R} (hstate : stream.writer.state = .failed)
    (chunk : Text) : ∃ fault stream', (feed answers chunk).run stream = (.error fault, stream') ∧
      stream'.writer = stream.writer := by
  unfold feed
  rw [Stateful.run_get_bind]
  cases hsum : stream.checksum.update chunk with
  | error fault => exact ⟨fault, stream, Stateful.run_bind_error (Stateful.run_liftM _ _), rfl⟩
  | ok sum =>
    rw [Stateful.run_liftM_bind rfl]
    have hset : (Stateful.set { stream with checksum := sum } :
        Stateful Fault (ImageWriter R) Unit).run stream = (.ok (), { stream with checksum := sum }) := rfl
    have hcall : (FitsWriter.emit answers chunk).run stream.writer =
        (fail .writerFailed, stream.writer) := by
      unfold Stateful.run FitsWriter.emit FitsWriter.ensureUsable
      rw [hstate]
      rfl
    rw [Stateful.run_bind hset, @run_onWriter R _ { stream with checksum := sum } _ _ hcall]
    exact ⟨_, _, rfl, rfl⟩

omit [PlaneReals R] in
/-- A stream whose writer is unusable writes nothing, and takes no samples. -/
theorem writeChunk_failed {stream : ImageWriter R} (hstate : stream.writer.state = .failed)
    (samples : View) {outcome : Outcome Unit} {stream' : ImageWriter R}
    (hrun : (writeChunk answers samples).run stream = (outcome, stream')) :
    stream'.writer = stream.writer ∧ (outcome = .ok () → samples.encode = []) := by
  obtain ⟨pieces, hhands, hpieces⟩ := samples.hands_eachChunk
  unfold writeChunk at hrun
  rw [Stateful.run_get_bind] at hrun
  split at hrun
  · cases hrun
    exact ⟨rfl, nofun⟩
  cases htotal : orOverflow (checkedAdd stream.writtenSamples samples.len) with
  | error fault =>
    rw [htotal] at hrun
    cases hrun
    exact ⟨rfl, nofun⟩
  | ok total =>
  rw [htotal, Stateful.run_liftM_bind rfl] at hrun
  split at hrun
  · cases hrun
    exact ⟨rfl, nofun⟩
  have heach := @run_eachChunk R answers _ _ hhands stream
  cases pieces with
  | nil =>
    rw [Stateful.run_bind heach] at hrun
    cases hrun
    exact ⟨rfl, fun _ => hpieces.symm⟩
  | cons piece pieces =>
    obtain ⟨fault, failed, hfeed, hsame⟩ := @feed_failed R answers _ hstate piece
    rw [Stateful.run_bind_error (heach.trans (Stateful.run_bind_error hfeed))] at hrun
    cases hrun
    exact ⟨hsame, nofun⟩

end ImageWriter

end FitsWell
