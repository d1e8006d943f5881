import FitsWell.FitsWriter.Emission

/-!
# How a write ends

A write of an HDU is refused before its first byte, is broken off by the sink, or writes the whole
HDU at the sink's position.
-/

namespace FitsWell

open Checksum (Running accumulate allOnes)
open OnesComplement (rep total)

variable {R : Type} [PlaneReals R] {answers : SinkAnswers}

/-! ## Sums of a data unit -/

theorem padding_dvd (len : ℕ) : (len + padding len) % blockSize = 0 := by
  unfold padding blockSize
  omega

/-- A data unit with its fill is whole words. -/
theorem whole_of_fill {data fill : Text} (h : fill.length = padding data.length) :
    (data ++ fill).length % 4 = 0 := by
  have hblock : blockSize = 4 * 720 := rfl
  have hdvd := padding_dvd data.length
  rw [hblock] at hdvd
  rw [List.length_append, h]
  omega

theorem accumulate_of_whole {bytes : Text} (h : bytes.length % 4 = 0) :
    accumulate bytes 0 = .ok (rep allOnes (total 0 bytes)) := by
  rw [Checksum.accumulate_eq h (Nat.zero_le _), Nat.zero_add]

/-- A sum of a data unit and its fill is that of both at once. -/
theorem finish_of_sums {sum : Running} {data fill : Text} (h : sum.Sums data)
    (hfill : fill.length = padding data.length) :
    ∃ next sum', sum.update fill = .ok next ∧ next.finish = .ok sum' ∧
      accumulate (data ++ fill) 0 = .ok sum' := by
  obtain ⟨next, hnext, hsums⟩ := Running.update_sums h fill
  obtain ⟨hfinish, hall⟩ := Running.finish_sums hsums (whole_of_fill hfill)
  exact ⟨next, _, hnext, hfinish, hall⟩

theorem HduKind.length_fill (kind : HduKind) (len : ℕ) : (kind.fill len).length = padding len :=
  List.length_replicate

/-- The sum of a body is that of its bytes and the fill. -/
theorem Body.dataSum_eq (body : Body R) {fill : Text} (hfill : fill.length = padding body.data.length) :
    body.dataSum fill = accumulate (body.data ++ fill) 0 := by
  obtain ⟨sum, hsum, hsums⟩ := sumBody_sums Running.sums_new body
  rw [List.nil_append] at hsums
  obtain ⟨next, total, hnext, hfinish, hall⟩ := finish_of_sums hsums hfill
  unfold dataSum
  rw [Loops.bind_ok hsum, Loops.bind_ok hnext, hfinish, hall]

/-! ## What a write commits -/

/-- What a write commits. -/
structure Commit (R : Type) [PlaneReals R] where
  header : Header R
  template : Option (Header R)
  body : Body R

/-- A write of one HDU. -/
inductive HduWrite (R : Type) [PlaneReals R]
  | rawHdu (header : Header R) (raw : Text)
  | encoded (encode : Outcome (Header R × Text)) (template : Option (Header R))
  | encodedUnit (encode : Outcome (EncodedUnit R)) (template : Option (Header R))
  | table (table : Builder R) (template : Option (Header R))
  | image (image : Borrowed R) (template : Option (Header R))
  | emptyPrimary (template : Option (Header R))

namespace HduWrite

/-- The call of the writer. -/
def run (answers : SinkAnswers) : HduWrite R → Stateful Fault FitsWriter Unit
  | .rawHdu header raw => FitsWriter.writeRawHdu answers header raw
  | .encoded encode template => FitsWriter.writeEncoded answers encode template
  | .encodedUnit encode template => FitsWriter.writeUnit answers encode template
  | .table columns template => FitsWriter.writeTable answers columns template
  | .image source template => FitsWriter.writeImage answers source template
  | .emptyPrimary template => @FitsWriter.writeEmptyPrimary R _ answers template

/-- What the write commits at a position. -/
def commit (next : HduPosition) : HduWrite R → Outcome (Commit R)
  | .rawHdu header raw => .ok ⟨header, none, .bytes raw⟩
  | .encoded encode template => do
    let encoded ← encode
    .ok ⟨encoded.1, template, .bytes encoded.2⟩
  | .encodedUnit encode template => do
    let unit ← encode
    .ok ⟨unit.header, template, .parts unit.rows unit.heap⟩
  | .table columns template => do
    let laid ← columns.laidOut
    .ok ⟨laid.1, template, .table laid.2⟩
  | .image source template => do
    let header ← imageHeader source.metadata next
    .ok ⟨header, template, .samples source.samples⟩
  | .emptyPrimary template =>
    if next ≠ .primary then
      fail .primaryAlreadyWritten
    else do
      let header ← emptyPrimaryHeader
      .ok ⟨header, template, .bytes []⟩

end HduWrite

/-- The bytes of an HDU with the empty primary that it needs. -/
def RenderedHdu.bytes (hdu : RenderedHdu) (body : Body R) : Text :=
  hdu.primary.getD [] ++ (hdu.header ++ (body.data ++ hdu.fill))

namespace FitsWriter

/-- A commit with its HDU rendered. -/
def readied (writer : FitsWriter) (commit : Commit R) : Outcome (Commit R × RenderedHdu) := do
  let hdu ← writer.rendered commit.header commit.template commit.body
  .ok (commit, hdu)

/-- What a write has ready before its first byte. -/
def prepared (writer : FitsWriter) (write : HduWrite R) : Outcome (Commit R × RenderedHdu) := do
  let next ← writer.nextPosition
  let commit ← write.commit next
  writer.readied commit

/-- What a rendered HDU comes from: its header, with what it takes of the template, its place, its
kind and the length of its data unit. -/
structure Rendering (writer : FitsWriter) (commit : Commit R) (hdu : RenderedHdu)
    (header : Header R) (next position : HduPosition) (kind : HduKind) : Prop where
  merged : header = commit.header.withTemplate commit.template
  usable : writer.nextPosition = .ok next
  goes : placed header next = .ok position
  described : HduKind.fromHeader header position = .ok kind
  dataBytes : kind.dataBytes header = .ok commit.body.data.length
  fill : hdu.fill = kind.fill commit.body.data.length
  primary : writer.leadingPrimary R next position = .ok hdu.primary
  signed : ∃ signing, writer.form.signing (commit.body.dataSum hdu.fill) = .ok signing ∧
    header.renderInto signing writer.form.space = .ok hdu.header

end FitsWriter

/-- A body whose length its header declares has that length. -/
theorem Body.length_of_checkLength {body : Body R} {kind : HduKind} {header : Header R} {len : ℕ}
    (h : body.checkLength kind header = .ok len) :
    body.data.length = len ∧ kind.dataBytes header = .ok len := by
  obtain ⟨dataBytes, hbytes, h⟩ := Loops.ok_of_bind h
  obtain ⟨found, hfound, h⟩ := Loops.ok_of_bind h
  split at h
  · rename_i hsame
    obtain rfl := Except.ok.inj h
    exact ⟨length_data hfound, hsame ▸ hbytes⟩
  · split at h <;> cases h

/-- A data unit that rounds up to whole blocks is one that a word counts. -/
theorem HduKind.dataBytes_le {kind : HduKind} {header : Header R} {len : ℕ}
    (h : kind.dataBytes header = .ok len) : len ≤ usizeMax := by
  obtain ⟨padded, hpadded⟩ := HduKind.paddedLen_dataBytes h
  obtain ⟨hmax, hvalue⟩ := checkedMul_eq_some_iff.mp hpadded
  have hle := (paddedLen_eq_some hpadded).1
  omega

namespace FitsWriter

/-- What a commit has ready. -/
theorem rendering_of_readied {writer : FitsWriter} {commit commit' : Commit R} {hdu : RenderedHdu}
    (h : writer.readied commit = .ok (commit', hdu)) : commit' = commit ∧
      ∃ header next position kind, Rendering writer commit hdu header next position kind := by
  obtain ⟨rendered, hrendered, hpair⟩ := Loops.ok_of_bind h
  obtain ⟨rfl, rfl⟩ := Prod.mk.inj (Except.ok.inj hpair)
  obtain ⟨next, hnext, h⟩ := Loops.ok_of_bind hrendered
  obtain ⟨position, hposition, h⟩ := Loops.ok_of_bind h
  obtain ⟨kind, hkind, h⟩ := Loops.ok_of_bind h
  obtain ⟨len, hlen, h⟩ := Loops.ok_of_bind h
  obtain ⟨signing, hsigning, h⟩ := Loops.ok_of_bind h
  obtain ⟨primary, hprimary, h⟩ := Loops.ok_of_bind h
  obtain ⟨out, hout, h⟩ := Loops.ok_of_bind h
  obtain rfl := Except.ok.inj h
  obtain ⟨rfl, hbytes⟩ := Body.length_of_checkLength hlen
  exact ⟨rfl, _, next, position, kind, rfl, hnext, hposition, hkind, hbytes, rfl, hprimary, signing,
    hsigning, hout⟩

/-- What a write has ready comes from what it commits. -/
theorem rendering_of_prepared {writer : FitsWriter} {write : HduWrite R} {commit : Commit R}
    {hdu : RenderedHdu} (h : writer.prepared write = .ok (commit, hdu)) :
    ∃ header next position kind, Rendering writer commit hdu header next position kind ∧
      write.commit next = .ok commit := by
  obtain ⟨next, hnext, h⟩ := Loops.ok_of_bind h
  obtain ⟨found, hcommit, h⟩ := Loops.ok_of_bind h
  obtain ⟨rfl, header, next', position, kind, hrendering⟩ := rendering_of_readied h
  obtain rfl := Except.ok.inj (hnext.symm.trans hrendering.usable)
  exact ⟨header, next, position, kind, hrendering, hcommit⟩

/-- How a write ends that had an HDU ready or not: refused before its first byte, broken off by the
sink, or done. -/
inductive WriteEnds (answers : SinkAnswers) (writer : FitsWriter) :
    Outcome (Commit R × RenderedHdu) → Outcome Unit × FitsWriter → Prop
  | refused (fault : Fault) : WriteEnds answers writer (.error fault) (.error fault, writer)
  | broken (commit : Commit R) (hdu : RenderedHdu) (error : FitsError) (taken : Text) (calls : ℕ)
      (htaken : taken <+: hdu.bytes commit.body)
      (hfailed : SeekSink.Failed answers writer.sink (writer.sink.wrote taken calls)) :
      WriteEnds answers writer (.ok (commit, hdu)) (fail error, (writer.wrote taken calls).poisoned)
  | done (commit : Commit R) (hdu : RenderedHdu) (calls : ℕ)
      (hworks : ¬SeekSink.Failed answers writer.sink
        (writer.sink.wrote (hdu.bytes commit.body) calls)) :
      WriteEnds answers writer (.ok (commit, hdu))
        (.ok (), { writer.wrote (hdu.bytes commit.body) calls with state := .active })

theorem ensureUsable_of_nextPosition {writer : FitsWriter} {next : HduPosition}
    (h : writer.nextPosition = .ok next) : writer.ensureUsable = .ok () := by
  unfold nextPosition at h
  unfold ensureUsable
  cases hstate : writer.state with
  | empty => rfl
  | active => rfl
  | failed =>
    rw [hstate] at h
    cases h

/-- The bytes of a rendered HDU go out in order. -/
theorem emission_rendered {writer : FitsWriter} {body : Body R} {hdu : RenderedHdu}
    (husable : writer.ensureUsable = .ok ()) (hlength : body.data.length ≤ usizeMax) :
    Emission answers writer (hdu.bytes body) ((emitPrimary answers hdu.primary >>= fun _ =>
      emit answers hdu.header >>= fun _ => body.emitted FitsWriter (emit answers) >>= fun _ =>
        emit answers hdu.fill).run writer) := by
  obtain ⟨pieces, hhands, hpieces⟩ := Body.hands_emitted hlength
  have hprimary : Emission answers writer (hdu.primary.getD [])
      ((emitPrimary answers hdu.primary).run writer) := by
    cases hdu.primary with
    | none => exact .whole 0 (SeekSink.not_failed_same rfl)
    | some primary => exact emission_emit husable primary
  refine hprimary.bind fun n => ?_
  have husable := ensureUsable_wrote husable (hdu.primary.getD []) n
  refine (emission_emit husable _).bind fun n => ?_
  have husable := ensureUsable_wrote husable hdu.header n
  rw [← hpieces]
  refine (emission_of_hands husable hhands).bind fun n => ?_
  exact emission_emit (ensureUsable_wrote husable _ n) _

/-- A commit of an HDU ends as its rendering and the sink do. -/
theorem finishHdu_ends (writer : FitsWriter) (commit : Commit R) :
    WriteEnds answers writer (writer.readied commit)
      ((finishHdu answers commit.header commit.template commit.body).run writer) := by
  unfold finishHdu
  cases hready : writer.readied commit with
  | error fault =>
    have hrendered : writer.rendered commit.header commit.template commit.body = .error fault := by
      cases hrendered : writer.rendered commit.header commit.template commit.body with
      | error other =>
        rw [readied, hrendered] at hready
        cases hready
        rfl
      | ok hdu =>
        rw [readied, hrendered] at hready
        cases hready
    rw [Stateful.run_get_bind, hrendered]
    exact .refused fault
  | ok pair =>
    obtain ⟨commit', hdu⟩ := pair
    obtain ⟨rfl, header, next, position, kind, hrendering⟩ := rendering_of_readied hready
    obtain ⟨found, hrendered, hpair⟩ := Loops.ok_of_bind hready
    obtain rfl := (Prod.mk.inj (Except.ok.inj hpair)).2
    have husable := ensureUsable_of_nextPosition hrendering.usable
    have hemission := @emission_rendered _ _ answers _ commit'.body found husable
      (HduKind.dataBytes_le hrendering.dataBytes)
    rw [Stateful.run_get_bind, Stateful.run_liftM_bind hrendered]
    simp only [← bind_assoc] at hemission ⊢
    generalize hcall : (((emitPrimary answers found.primary >>= fun _ => emit answers found.header) >>=
      fun _ => commit'.body.emitted FitsWriter (emit answers)) >>= fun _ =>
        emit answers found.fill).run writer = result at hemission
    cases hemission with
    | whole calls hworks =>
      rw [Stateful.run_bind hcall]
      exact .done commit' found calls hworks
    | broken error taken calls htaken hfailed =>
      rw [Stateful.run_bind_error hcall]
      exact .broken commit' found error taken calls htaken hfailed

/-- A call that first checks that the writer is usable, and then commits what an encoder gives. -/
theorem checked_ends (writer : FitsWriter) (given : HduPosition → Outcome (Commit R)) :
    WriteEnds answers writer
      (writer.nextPosition >>= fun next => given next >>= fun commit => writer.readied commit)
      ((Stateful.get >>= fun writer => liftM writer.nextPosition >>= fun next =>
        liftM (given next) >>= fun commit =>
          finishHdu answers commit.header commit.template commit.body).run writer) := by
  rw [Stateful.run_get_bind]
  cases hnext : writer.nextPosition with
  | error fault =>
    rw [Stateful.run_bind_error (Stateful.run_liftM _ _)]
    exact .refused fault
  | ok next =>
    rw [Stateful.run_liftM_bind rfl, Loops.bind_ok rfl]
    cases hgiven : given next with
    | error fault =>
      rw [Stateful.run_bind_error (Stateful.run_liftM _ _)]
      exact .refused fault
    | ok commit =>
      rw [Stateful.run_liftM_bind rfl, Loops.bind_ok rfl]
      exact finishHdu_ends writer commit

/-- A call that checks that the writer is usable before it encodes what it commits. -/
def Checks (answers : SinkAnswers) (write : HduWrite R) : Prop :=
  write.run answers = Stateful.get >>= fun writer => liftM writer.nextPosition >>= fun next =>
    liftM (write.commit next) >>= fun commit =>
      finishHdu answers commit.header commit.template commit.body

omit [PlaneReals R] in
theorem liftM_bind_ok {α β : Type} (outcome : Outcome α) (f : α → β)
    (next : β → Stateful Fault FitsWriter Unit) :
    (liftM (outcome >>= fun a => .ok (f a)) >>= next) = liftM outcome >>= fun a => next (f a) := by
  funext writer
  cases outcome with
  | error fault => rfl
  | ok a => rfl

/-- Every write but a raw one checks the writer first. -/
theorem checks_of_not_raw (write : HduWrite R) :
    (∃ header raw, write = .rawHdu header raw) ∨ Checks answers write := by
  cases write with
  | rawHdu header raw => exact .inl ⟨header, raw, rfl⟩
  | encoded encode template =>
    right
    simp only [Checks, HduWrite.commit, liftM_bind_ok]
    rfl
  | encodedUnit encode template =>
    right
    simp only [Checks, HduWrite.commit, liftM_bind_ok]
    rfl
  | table columns template =>
    right
    simp only [Checks, HduWrite.commit, liftM_bind_ok]
    rfl
  | image source template =>
    right
    simp only [Checks, HduWrite.commit, liftM_bind_ok]
    rfl
  | emptyPrimary template =>
    right
    refine bind_congr fun writer => bind_congr fun next => ?_
    unfold HduWrite.commit
    split
    · rfl
    · rw [liftM_bind_ok]

/-- Every write ends so. -/
theorem write_ends (writer : FitsWriter) (write : HduWrite R) :
    WriteEnds answers writer (writer.prepared write) ((write.run answers).run writer) := by
  rcases @checks_of_not_raw R _ answers write with ⟨header, raw, rfl⟩ | hchecks
  · have hends := @finishHdu_ends R _ answers writer ⟨header, none, .bytes raw⟩
    have hprepared : writer.prepared (.rawHdu header raw) =
        writer.readied ⟨header, none, .bytes raw⟩ := by
      unfold prepared
      cases hnext : writer.nextPosition with
      | error fault =>
        rw [readied, rendered, hnext]
        rfl
      | ok next => rfl
    rw [hprepared]
    exact hends
  · rw [hchecks]
    exact checked_ends writer write.commit

end FitsWriter

end FitsWell
