import FitsWell.FitsWriter.StreamRuns

/-!
# Sessions of a writer

The calls that a program makes of a writer, one after another, on a sink that may fail at any of
them. A session keeps the bytes of the HDUs that are whole, and a writer that failed writes no more.
-/

namespace FitsWell

variable {R : Type} [PlaneReals R] {answers : SinkAnswers}

/-- What a program holds: a writer, or a stream that borrows it. -/
inductive Session (R : Type)
  | idle (writer : FitsWriter)
  | streaming (stream : ImageWriter R)

namespace Session

inductive Call (R : Type) [PlaneReals R]
  | withChecksums
  | withSpareRecords (records : ℕ)
  | write (write : HduWrite R)
  | streamImage (layout : Metadata R) (template : Option (Header R))
  | writeChunk (samples : View)
  | finish
  | drop

def writer : Session R → FitsWriter
  | idle writer => writer
  | streaming stream => stream.writer

omit [PlaneReals R] in
@[simp] theorem writer_idle (writer : FitsWriter) : (idle writer : Session R).writer = writer := rfl

omit [PlaneReals R] in
@[simp] theorem writer_streaming (stream : ImageWriter R) :
    (streaming stream).writer = stream.writer := rfl

/-- The offset that the HDUs which are whole end at. -/
def keptLen : Session R → ℕ
  | idle writer => writer.sink.position
  | streaming stream => stream.header.offset

/-- The bytes of the HDUs that are whole. -/
def kept (session : Session R) : Text := session.writer.sink.bytes.take session.keptLen

/-- A session whose sink had more calls. -/
def waited (calls : ℕ) : Session R → Session R
  | idle writer => idle (writer.wrote [] calls)
  | streaming stream => streaming { stream with writer := stream.writer.wrote [] calls }

/-- A call, how it ends, and the session after it. -/
inductive Step (answers : SinkAnswers) : Session R → Call R → Outcome Unit → Session R → Prop
  | withChecksums (writer : FitsWriter) :
      Step answers (idle writer) .withChecksums (.ok ()) (idle writer.withChecksums)
  | withSpareRecords (writer : FitsWriter) (records : ℕ) :
      Step answers (idle writer) (.withSpareRecords records) (.ok ())
        (idle (writer.withSpareRecords records))
  | write {writer writer' : FitsWriter} {write : HduWrite R} {outcome : Outcome Unit}
      (hrun : (write.run answers).run writer = (outcome, writer')) :
      Step answers (idle writer) (.write write) outcome (idle writer')
  | started {writer writer' : FitsWriter} {layout : Metadata R} {template : Option (Header R)}
      {stream : ImageWriter R}
      (hrun : (FitsWriter.streamImage answers layout template).run writer = (.ok stream, writer')) :
      Step answers (idle writer) (.streamImage layout template) (.ok ()) (streaming stream)
  | refused {writer writer' : FitsWriter} {layout : Metadata R} {template : Option (Header R)}
      {fault : Fault}
      (hrun : (FitsWriter.streamImage answers layout template).run writer = (.error fault, writer')) :
      Step answers (idle writer) (.streamImage layout template) (.error fault) (idle writer')
  | writeChunk {stream stream' : ImageWriter R} {samples : View} {outcome : Outcome Unit}
      (hrun : (ImageWriter.writeChunk answers samples).run stream = (outcome, stream')) :
      Step answers (streaming stream) (.writeChunk samples) outcome (streaming stream')
  | finish {stream : ImageWriter R} {outcome : Outcome Unit} {writer : FitsWriter}
      (hrun : stream.finish answers = (outcome, writer)) :
      Step answers (streaming stream) .finish outcome (idle writer)
  | drop (stream : ImageWriter R) :
      Step answers (streaming stream) .drop (.ok ()) (idle stream.dropped)

/-- A session after calls of another. -/
inductive Runs (answers : SinkAnswers) (session : Session R) : Session R → Prop
  | refl : Runs answers session session
  | step {mid after : Session R} {call : Call R} {outcome : Outcome Unit}
      (hruns : Runs answers session mid) (hstep : Step answers mid call outcome after) :
      Runs answers session after

/-- The sink failed at a call that writes, or a stream came to an end that is no finish. -/
def Breaks (answers : SinkAnswers) (session : Session R) (call : Call R) (outcome : Outcome Unit)
    (after : Session R) : Prop :=
  match call with
  | .withChecksums => False
  | .withSpareRecords _ => False
  | .write _ => SeekSink.Failed answers session.writer.sink after.writer.sink
  -- the first call of a stream asks for the position
  | .streamImage _ _ => ∃ n, session.writer.sink.calls < n ∧ n < after.writer.sink.calls ∧
      (answers n).isSome = true
  | .writeChunk _ => SeekSink.Failed answers session.writer.sink after.writer.sink
  | .finish => ∃ fault, outcome = .error fault
  | .drop => True

/-- A call that writes nothing: a setting, a chunk without samples, or the drop of a stream. -/
def Call.Idle : Call R → Prop
  | .withChecksums => True
  | .withSpareRecords _ => True
  | .writeChunk samples => samples.encode = []
  | .drop => True
  | .write _ => False
  | .streamImage _ _ => False
  | .finish => False

/-- A stream on a usable writer began before the position of the sink, and its sum is that of the
bytes that passed. -/
def Sound : Session R → Prop
  | idle _ => True
  | streaming stream => stream.writer.state ≠ .failed →
    stream.header.offset ≤ stream.writer.sink.position ∧ ∃ passed, stream.checksum.Sums passed

/-- The sink holds these bytes, and a usable writer goes on after them. -/
def Holds (bytes : Text) (session : Session R) : Prop :=
  bytes <+: session.writer.sink.bytes ∧
    (session.writer.state ≠ .failed → bytes.length ≤ session.keptLen)

theorem usable_iff {writer : FitsWriter} : writer.ensureUsable = .ok () ↔ writer.state ≠ .failed := by
  unfold FitsWriter.ensureUsable
  cases writer.state with
  | empty => simp
  | active => simp
  | failed => simp [fail]

omit [PlaneReals R] in
/-- A usable writer has the bytes before its position to go on after. -/
theorem Holds.take {bytes : Text} {session : Session R} (h : Holds bytes session)
    (hstate : session.writer.state ≠ .failed) : bytes <+: session.kept :=
  List.prefix_take_iff.mpr ⟨h.1, h.2 hstate⟩

omit [PlaneReals R] in
theorem holds_kept (session : Session R) : Holds session.kept session :=
  ⟨List.take_prefix _ _, fun _ => List.length_take_le _ _⟩

theorem nextPosition_failed {writer : FitsWriter} (hstate : writer.state = .failed) :
    writer.nextPosition = fail .writerFailed := by
  unfold FitsWriter.nextPosition
  rw [hstate]

omit [PlaneReals R] in
/-- Bytes put in at the position leave those before it. -/
theorem prefix_wrote {writer : FitsWriter} {bytes : Text}
    (h : bytes <+: writer.sink.bytes.take writer.sink.position) (out : Text) (calls : ℕ) :
    bytes <+: (writer.wrote out calls).sink.bytes :=
  h.trans (SeekSink.take_isPrefix_putAt _ _)

/-! ## Calls of a usable writer -/

variable {session after : Session R} {call : Call R} {outcome : Outcome Unit} {bytes : Text}

theorem sound_step (hsound : session.Sound) (hstep : Step answers session call outcome after) :
    after.Sound := by
  cases hstep with
  | started hrun =>
    rename_i writer writer' layout template stream
    have hends := @FitsWriter.streamImage_ends R _ answers writer layout template
    rw [hrun] at hends
    cases hends with
    | started next header expected head calls hnext hexpected hheader hhead hworks =>
      exact fun _ => ⟨Nat.le_add_right _ _, [], Checksum.Running.sums_new⟩
  | writeChunk hrun =>
    rename_i stream stream' samples
    intro husable
    by_cases hstate : stream.writer.state = .failed
    · obtain ⟨hsame, -⟩ := ImageWriter.writeChunk_failed hstate samples hrun
      exact (husable (hsame ▸ hstate)).elim
    obtain ⟨hplace, passed, hsums⟩ := hsound hstate
    have hends := @ImageWriter.writeChunk_ends R answers _ _ (usable_iff.mpr hstate) hsums samples
    rw [hrun] at hends
    cases hends with
    | refused fault => exact ⟨hplace, passed, hsums⟩
    | broken error sum taken calls hfailed => exact (husable rfl).elim
    | done sum calls hsums htype hroom hworks =>
      exact ⟨hplace.trans (Nat.le_add_right _ _), _, hsums⟩
  | withChecksums writer => trivial
  | withSpareRecords writer records => trivial
  | write hrun => trivial
  | refused hrun => trivial
  | finish hrun => trivial
  | drop stream => trivial

/-- A write leaves the bytes that were written. -/
theorem holds_write {writer writer' : FitsWriter} {write : HduWrite R}
    (hholds : Holds bytes (idle writer : Session R))
    (hrun : (write.run answers).run writer = (outcome, writer')) :
    Holds bytes (idle writer' : Session R) := by
  have hends := @FitsWriter.write_ends R _ answers writer write
  rw [hrun] at hends
  cases hprepared : writer.prepared write with
  | error fault =>
    rw [hprepared] at hends
    cases hends
    exact hholds
  | ok pair =>
    have hstate : writer.state ≠ .failed := by
      intro hstate
      rw [FitsWriter.prepared, nextPosition_failed hstate] at hprepared
      cases hprepared
    have htake := hholds.take hstate
    rw [hprepared] at hends
    cases hends with
    | broken commit hdu error taken calls htaken hfailed =>
      exact ⟨prefix_wrote htake taken calls, fun husable => (husable rfl).elim⟩
    | done commit hdu calls hworks =>
      exact ⟨prefix_wrote htake _ calls,
        fun _ => (hholds.2 hstate).trans (Nat.le_add_right _ _)⟩

theorem holds_streamImage {writer writer' : FitsWriter} {layout : Metadata R}
    {template : Option (Header R)} {outcome : Outcome (ImageWriter R)}
    (hholds : Holds bytes (idle writer : Session R))
    (hrun : (FitsWriter.streamImage answers layout template).run writer = (outcome, writer')) :
    Holds bytes (idle writer' : Session R) ∧
      ∀ stream, outcome = .ok stream → Holds bytes (streaming stream) := by
  have hends := @FitsWriter.streamImage_ends R _ answers writer layout template
  rw [hrun] at hends
  cases hends with
  | refused fault calls hcalls => exact ⟨hholds, nofun⟩
  | broken husable error taken calls hfailed =>
    have htake := hholds.take (usable_iff.mp husable)
    exact ⟨⟨prefix_wrote htake taken calls, fun husable => (husable rfl).elim⟩, nofun⟩
  | started next header expected head calls hnext hexpected hheader hhead hworks =>
    have hstate := usable_iff.mp (FitsWriter.ensureUsable_of_nextPosition hnext)
    have htaken := prefix_wrote (hholds.take hstate) head calls
    refine ⟨⟨htaken, fun _ => (hholds.2 hstate).trans (Nat.le_add_right _ _)⟩, ?_⟩
    intro stream hstream
    cases hstream
    exact ⟨htaken, fun _ => hholds.2 hstate⟩

omit [PlaneReals R] in
/-- A chunk leaves the bytes before its stream. -/
theorem holds_writeChunk {stream stream' : ImageWriter R} {samples : View}
    (hsound : (streaming stream).Sound) (hholds : Holds bytes (streaming stream))
    (hrun : (ImageWriter.writeChunk answers samples).run stream = (outcome, stream')) :
    Holds bytes (streaming stream') := by
  by_cases hstate : stream.writer.state = .failed
  · obtain ⟨hsame, -⟩ := ImageWriter.writeChunk_failed hstate samples hrun
    have hbytes := hholds.1
    rw [writer_streaming] at hbytes
    refine ⟨by rwa [writer_streaming, hsame], fun husable => ?_⟩
    rw [writer_streaming, hsame] at husable
    exact (husable hstate).elim
  obtain ⟨hplace, passed, hsums⟩ := hsound hstate
  have htake := (hholds.take hstate).trans (List.take_prefix_take_left hplace)
  have hends := @ImageWriter.writeChunk_ends R answers _ _ (usable_iff.mpr hstate) hsums samples
  rw [hrun] at hends
  cases hends with
  | refused fault => exact hholds
  | broken error sum taken calls hfailed =>
    exact ⟨prefix_wrote htake taken calls, fun husable => (husable rfl).elim⟩
  | done sum calls hsums htype hroom hworks =>
    exact ⟨prefix_wrote htake _ calls, fun _ => hholds.2 hstate⟩

/-- A finish leaves the bytes before its stream. -/
theorem holds_finish {stream : ImageWriter R} {writer : FitsWriter}
    (hsound : (streaming stream).Sound) (hholds : Holds bytes (streaming stream))
    (hrun : stream.finish answers = (outcome, writer)) :
    Holds bytes (idle writer : Session R) := by
  have hends := @ImageWriter.finish_ends R _ answers stream fun husable =>
    (hsound (usable_iff.mp husable)).1
  rw [hrun] at hends
  cases hends with
  | failed fault writer hkept hnone =>
    refine ⟨?_, fun husable => (husable rfl).elim⟩
    by_cases hstate : stream.writer.state = .failed
    · show bytes <+: writer.sink.bytes
      rw [hnone hstate]
      exact hholds.1
    · exact (hholds.take hstate).trans hkept
  | done husable hcount dataBytes hbytes writer hended =>
    have hstate := usable_iff.mp husable
    have hplace := (hsound hstate).1
    have htake := (hholds.take hstate).trans (List.take_prefix_take_left hplace)
    have hlength := (hholds.2 hstate).trans hplace
    cases hended with
    | unsigned calls hoff =>
      exact ⟨prefix_wrote htake _ calls, fun _ => hlength.trans (Nat.le_add_right _ _)⟩
    | signed hon sum total out calls more hsum htotal hout =>
      refine ⟨?_, fun _ => hlength.trans (Nat.le_add_right _ _)⟩
      have hfront := List.prefix_take_iff.mpr
        ⟨@prefix_wrote stream.writer bytes htake (zeroFill dataBytes) calls, hholds.2 hstate⟩
      exact hfront.trans (SeekSink.take_isPrefix_putAt
        { (stream.writer.wrote (zeroFill dataBytes) calls).sink with
          position := stream.header.offset } out)

theorem holds_step (hsound : session.Sound) (hholds : Holds bytes session)
    (hstep : Step answers session call outcome after) : Holds bytes after := by
  cases hstep with
  | withChecksums writer => exact hholds
  | withSpareRecords writer records => exact hholds
  | write hrun => exact holds_write hholds hrun
  | started hrun => exact (holds_streamImage hholds hrun).2 _ rfl
  | refused hrun => exact (holds_streamImage hholds hrun).1
  | writeChunk hrun => exact holds_writeChunk hsound hholds hrun
  | finish hrun => exact holds_finish hsound hholds hrun
  | drop stream => exact ⟨hholds.1, fun husable => (husable rfl).elim⟩

/-! ## Calls of a writer that failed -/

/-- A writer that failed writes nothing, and takes nothing that is to be written. -/
theorem failed_step (hstate : session.writer.state = .failed)
    (hstep : Step answers session call outcome after) :
    after.writer.state = .failed ∧ after.writer.sink.bytes = session.writer.sink.bytes ∧
      (outcome = .ok () → call.Idle) := by
  cases hstep with
  | withChecksums writer => exact ⟨hstate, rfl, fun _ => trivial⟩
  | withSpareRecords writer records => exact ⟨hstate, rfl, fun _ => trivial⟩
  | write hrun =>
    rename_i writer writer' write
    have hends := @FitsWriter.write_ends R _ answers writer write
    rw [writer_idle] at hstate
    have hprepared : writer.prepared write = fail .writerFailed := by
      rw [FitsWriter.prepared, nextPosition_failed hstate]
      rfl
    rw [hrun, hprepared] at hends
    cases hends
    exact ⟨hstate, rfl, nofun⟩
  | started hrun =>
    rename_i writer writer' layout template stream
    have hends := @FitsWriter.streamImage_ends R _ answers writer layout template
    rw [hrun] at hends
    cases hends with
    | started next header expected head calls hnext hexpected hheader hhead hworks =>
      rw [writer_idle] at hstate
      rw [nextPosition_failed hstate] at hnext
      cases hnext
  | refused hrun =>
    rename_i writer writer' layout template fault
    have hends := @FitsWriter.streamImage_ends R _ answers writer layout template
    rw [hrun] at hends
    cases hends with
    | refused fault calls hcalls => exact ⟨hstate, rfl, nofun⟩
    | broken husable error taken calls hfailed => exact (usable_iff.mp husable hstate).elim
  | writeChunk hrun =>
    obtain ⟨hsame, hidle⟩ := ImageWriter.writeChunk_failed hstate _ hrun
    rw [writer_streaming] at hstate
    rw [writer_streaming, writer_streaming, hsame]
    exact ⟨hstate, rfl, hidle⟩
  | finish hrun =>
    rename_i stream writer
    have hends := @ImageWriter.finish_ends R _ answers stream fun husable =>
      (usable_iff.mp husable hstate).elim
    rw [hrun] at hends
    cases hends with
    | failed fault writer hkept hnone =>
      refine ⟨rfl, ?_, nofun⟩
      show writer.sink.bytes = stream.writer.sink.bytes
      rw [hnone hstate]
    | done husable hcount dataBytes hbytes writer hended =>
      exact (usable_iff.mp husable hstate).elim
  | drop stream => exact ⟨rfl, rfl, fun _ => trivial⟩

/-! ## Calls that err -/

/-- A call that errs where the sink does not leaves the session as it was. -/
theorem refused_step (hsound : session.Sound) (hstep : Step answers session call outcome after)
    (hfinish : call ≠ .finish) {fault : Fault} (hfault : outcome = .error fault)
    (hsink : ¬SeekSink.Failed answers session.writer.sink after.writer.sink) :
    ∃ calls, after.writer = session.writer.wrote [] calls ∧
      (session.writer.state ≠ .failed → after = session.waited calls) := by
  cases hstep with
  | withChecksums writer => cases hfault
  | withSpareRecords writer records => cases hfault
  | write hrun =>
    rename_i writer writer' write
    have hends := @FitsWriter.write_ends R _ answers writer write
    rw [hrun, hfault] at hends
    generalize writer.prepared write = prepared at hends
    cases hends with
    | refused fault => exact ⟨0, rfl, fun _ => rfl⟩
    | broken commit hdu error taken calls htaken hfailed => exact (hsink hfailed).elim
  | started hrun => cases hfault
  | refused hrun =>
    rename_i writer writer' layout template fault
    have hends := @FitsWriter.streamImage_ends R _ answers writer layout template
    rw [hrun] at hends
    cases hends with
    | refused fault calls hcalls => exact ⟨calls, rfl, fun _ => rfl⟩
    | broken husable error taken calls hfailed =>
      obtain ⟨n, hfirst, hlast, hsome⟩ := hfailed
      exact (hsink ⟨n, hfirst.le, hlast, hsome⟩).elim
  | writeChunk hrun =>
    rename_i stream stream' samples
    by_cases hstate : stream.writer.state = .failed
    · obtain ⟨hsame, -⟩ := ImageWriter.writeChunk_failed hstate samples hrun
      exact ⟨0, hsame, fun husable => (husable hstate).elim⟩
    obtain ⟨hplace, passed, hsums⟩ := hsound hstate
    have hends := @ImageWriter.writeChunk_ends R answers _ _ (usable_iff.mpr hstate) hsums samples
    rw [hrun, hfault] at hends
    cases hends with
    | refused fault => exact ⟨0, rfl, fun _ => rfl⟩
    | broken error sum taken calls hfailed => exact (hsink hfailed).elim
  | finish hrun => exact (hfinish rfl).elim
  | drop stream => cases hfault

/-- A sink that fails at a write, and a stream that does not finish, make the writer unusable. -/
theorem breaks_step (hsound : session.Sound) (hstep : Step answers session call outcome after)
    (hbreaks : Breaks answers session call outcome after) : after.writer.state = .failed := by
  cases hstep with
  | withChecksums writer => cases hbreaks
  | withSpareRecords writer records => cases hbreaks
  | write hrun =>
    rename_i writer writer' write
    have hends := @FitsWriter.write_ends R _ answers writer write
    rw [hrun] at hends
    generalize writer.prepared write = prepared at hends
    cases hends with
    | refused fault => exact (SeekSink.not_failed_same rfl hbreaks).elim
    | broken commit hdu error taken calls htaken hfailed => rfl
    | done commit hdu calls hworks => exact (hworks hbreaks).elim
  | started hrun =>
    rename_i writer writer' layout template stream
    have hends := @FitsWriter.streamImage_ends R _ answers writer layout template
    rw [hrun] at hends
    cases hends with
    | started next header expected head calls hnext hexpected hheader hhead hworks =>
      obtain ⟨n, hfirst, hlast, hsome⟩ := hbreaks
      exact (hworks ⟨n, hfirst.le, hlast, hsome⟩).elim
  | refused hrun =>
    rename_i writer writer' layout template fault
    have hends := @FitsWriter.streamImage_ends R _ answers writer layout template
    rw [hrun] at hends
    cases hends with
    | refused fault calls hcalls =>
      obtain ⟨n, hfirst, hlast, -⟩ := hbreaks
      have hend : n < writer.sink.calls + calls := hlast
      have hstart : writer.sink.calls < n := hfirst
      omega
    | broken husable error taken calls hfailed => rfl
  | writeChunk hrun =>
    rename_i stream stream' samples
    by_cases hstate : stream.writer.state = .failed
    · obtain ⟨hsame, -⟩ := ImageWriter.writeChunk_failed hstate samples hrun
      rwa [writer_streaming, hsame]
    obtain ⟨hplace, passed, hsums⟩ := hsound hstate
    have hends := @ImageWriter.writeChunk_ends R answers _ _ (usable_iff.mpr hstate) hsums samples
    rw [hrun] at hends
    cases hends with
    | refused fault => exact (SeekSink.not_failed_same rfl hbreaks).elim
    | broken error sum taken calls hfailed => rfl
    | done sum calls hsums htype hroom hworks => exact (hworks hbreaks).elim
  | finish hrun =>
    rename_i stream writer
    obtain ⟨fault, hfault⟩ := hbreaks
    have hends := @ImageWriter.finish_ends R _ answers stream fun husable =>
      (hsound (usable_iff.mp husable)).1
    rw [hrun, hfault] at hends
    cases hends with
    | failed fault writer hkept hnone => rfl
  | drop stream => rfl

/-! ## Runs -/

theorem Runs.sound {start : Session R} (hsound : start.Sound) (hruns : Runs answers start session) :
    session.Sound := by
  induction hruns with
  | refl => exact hsound
  | step hruns hstep ih => exact sound_step ih hstep

theorem Runs.holds {start : Session R} (hsound : start.Sound) (hholds : Holds bytes start)
    (hruns : Runs answers start session) : Holds bytes session := by
  induction hruns with
  | refl => exact hholds
  | step hruns hstep ih => exact holds_step (hruns.sound hsound) ih hstep

theorem Runs.failed {start : Session R} (hstate : start.writer.state = .failed)
    (hruns : Runs answers start session) :
    session.writer.state = .failed ∧ session.writer.sink.bytes = start.writer.sink.bytes := by
  induction hruns with
  | refl => exact ⟨hstate, rfl⟩
  | step hruns hstep ih =>
    obtain ⟨hfailed, hbytes, -⟩ := failed_step ih.1 hstep
    exact ⟨hfailed, hbytes.trans ih.2⟩

/-- A sink that takes a hundred bytes of the first write and then fails. -/
def brokenSink : SinkAnswers := fun n => if n = 0 then some 100 else none

end Session

end FitsWell
