import FitsWell.FitsWriter.Checksummed
import FitsWell.FitsWriter.GeneratedHeaders
import FitsWell.Reader.SectionReads

/-!
# A written file is scanned

Whatever calls a program makes of a writer, and whichever of them are refused, a scan of the file
finds the HDUs of those that returned, in their order, and nothing else. An image among them reads
as it was written.
-/

namespace FitsWell

open Checksum (accumulate)
open Chunks (wholeChunks wholeChunks_flatten wholeChunks_eq_map)

variable {R : Type} [PlaneReals R] {answers : SinkAnswers}

/-! ## Calls -/

/-- An HDU as a writer takes it: its header, with what that takes of a template, its data unit, and
the form of the headers. -/
structure WrittenHdu (R : Type) where
  header : Header R
  data : Text
  form : HeaderForm

/-- An HDU with the empty primary that it goes after where it is an extension. -/
def WrittenHdu.afterPrimary (hdu : WrittenHdu R) (next : HduPosition) :
    Outcome (List (WrittenHdu R)) := do
  let position ← placed hdu.header next
  if next = .primary ∧ position = .extension then do
    let primary ← emptyPrimaryHeader
    .ok [⟨primary, [], hdu.form⟩, hdu]
  else
    .ok [hdu]

/-- A call of a writer: a setting, a write of an HDU, or a whole stream of an image. -/
inductive FileCall (R : Type) [PlaneReals R]
  | withChecksums
  | withSpareRecords (records : ℕ)
  | write (hdu : HduWrite R)
  | stream (layout : Metadata R) (template : Option (Header R)) (chunks : List View)

namespace FileCall

def run (answers : SinkAnswers) : FileCall R → Stateful Fault FitsWriter Unit
  | .withChecksums => fun writer => (.ok (), writer.withChecksums)
  | .withSpareRecords records => fun writer => (.ok (), writer.withSpareRecords records)
  | .write hdu => hdu.run answers
  | .stream layout template chunks => FitsWriter.streamed answers layout template chunks

/-- The HDUs that a call adds. -/
def hdus (call : FileCall R) (writer : FitsWriter) : Outcome (List (WrittenHdu R)) :=
  match call with
  | .withChecksums => .ok []
  | .withSpareRecords _ => .ok []
  | .write hdu => do
    let next ← writer.nextPosition
    let commit ← hdu.commit next
    WrittenHdu.afterPrimary
      ⟨commit.header.withTemplate commit.template, commit.body.data, writer.form⟩ next
  | .stream layout template chunks => do
    let next ← writer.nextPosition
    let header ← imageHeader layout next
    .ok [⟨header.withTemplate template, encodeChunks chunks, writer.form⟩]

/-- Make calls of a writer, each whatever became of those before it. The HDUs are those of the calls
that return. -/
def filed (answers : SinkAnswers) : List (FileCall R) → FitsWriter → List (WrittenHdu R) × FitsWriter
  | [], writer => ([], writer)
  | call :: calls, writer =>
    match (call.run answers).run writer with
    | (.ok _, after) =>
      let later := filed answers calls after
      ((call.hdus writer).toOption.getD [] ++ later.1, later.2)
    | (.error _, after) => filed answers calls after

end FileCall

/-! ## Headers that a scan finds -/

/-- A header that opens as a header of its kind does, and reads back. -/
structure Header.Sound (header : Header R) : Prop where
  readable : ∀ record ∈ header.records, record.Readable
  opens : header.opensWith = some .XTENSION ∨
    header.opensWith = some .SIMPLE ∧ header.value (.keyword .XTENSION) = .ok none

/-- A template whose records read back. -/
def TemplateReads (template : Option (Header R)) : Prop :=
  ∀ own, template = some own → ∀ record ∈ own.records, record.Readable

/-- A call whose header, and whose template, read back. -/
def FileCall.ReadsBack : FileCall R → Prop
  | .withChecksums => True
  | .withSpareRecords _ => True
  | .write hdu => ∀ next commit, hdu.commit next = .ok commit →
    commit.header.Sound ∧ TemplateReads commit.template
  | .stream _ template _ => TemplateReads template

namespace Header

variable {header : Header R}

omit [PlaneReals R] in
/-- A keyword that a header opens with has a value, or a record that did not parse. -/
theorem value_ne_none {keyword : Keyword} (h : header.opensWith = some keyword) :
    header.value (.keyword keyword) ≠ .ok none := by
  rw [value_eq]
  unfold opensWith at h
  cases hrecords : header.records with
  | nil =>
    rw [hrecords] at h
    cases h
  | cons record records =>
    rw [hrecords] at h
    have hown : record.keyword = some keyword := h
    rw [List.find?_cons_of_pos (by exact decide_eq_true hown)]
    cases record with
    | valued own value comment => exact nofun
    | commentary name text => cases hown
    | hierarch name value comment => cases hown
    | malformed name raw defect => exact nofun

theorem Sound.withTemplate (h : header.Sound) {template : Option (Header R)}
    (htemplate : TemplateReads template) : (header.withTemplate template).Sound := by
  have hgrows := @grows_withTemplate R _ header template htemplate
  refine ⟨hgrows.readable h.readable, ?_⟩
  rcases h.opens with hopens | ⟨hopens, hnone⟩
  · exact .inl (hgrows.opensWith hopens)
  · exact .inr ⟨hgrows.opensWith hopens, (value_withTemplate (by decide)).trans hnone⟩

/-- A header that goes to a place of its kind opens as the place asks. -/
theorem Sound.scannable (h : header.Sound) {next position : HduPosition} {kind : HduKind}
    (hplaced : placed header next = .ok position)
    (hkind : HduKind.fromHeader header position = .ok kind) : header.Scannable position := by
  refine ⟨h.readable, ?_⟩
  unfold placed at hplaced
  rcases h.opens with hopens | ⟨hopens, hnone⟩
  · split at hplaced
    · obtain ⟨xtension, hvalue, hplaced⟩ := Loops.ok_of_bind hplaced
      cases xtension with
      | none => exact (value_ne_none hopens hvalue).elim
      | some value =>
        obtain rfl := Except.ok.inj hplaced
        exact hopens
    · rename_i hnext
      obtain rfl := Except.ok.inj hplaced
      cases next with
      | primary => exact (hnext rfl).elim
      | extension => exact hopens
  · split at hplaced
    · rename_i hnext
      rw [Loops.bind_ok hnone, hnext] at hplaced
      obtain rfl := Except.ok.inj hplaced
      exact hopens
    · rename_i hnext
      obtain rfl := Except.ok.inj hplaced
      cases next with
      | primary => exact (hnext rfl).elim
      | extension =>
        have htext : header.getText .XTENSION = .ok none := by
          rw [getText, typedOptional, Loops.bind_ok hnone]
        rw [HduKind.fromHeader, HduKind.ofExtension, Loops.bind_ok htext] at hkind
        cases hkind

end Header

/-- The header of an image is sound. -/
theorem sound_imageHeader {layout : Metadata R} {position : HduPosition} {base : Header R}
    (h : imageHeader layout position = .ok base) : base.Sound := by
  have hscannable := scannable_imageHeader h
  refine ⟨hscannable.readable, ?_⟩
  cases position with
  | extension => exact .inl hscannable.opens
  | primary =>
    obtain ⟨start, hstart, hvalues⟩ := value_imageHeader h
    have hvalue := hvalues none .XTENSION (by decide) (by decide)
    exact .inr ⟨hscannable.opens, hvalue.trans (Prologue.reads hstart).opening.2⟩

/-- So is the header of a primary without data. -/
theorem sound_emptyPrimaryHeader {header : Header R}
    (h : (emptyPrimaryHeader : Outcome (Header R)) = .ok header) : header.Sound :=
  ⟨(scannable_emptyPrimaryHeader h).readable,
    .inr ⟨(scannable_emptyPrimaryHeader h).opens, (Prologue.reads h).opening.2⟩⟩

/-- An image reads back where its template does. -/
theorem readsBack_image (image : Borrowed R) {template : Option (Header R)}
    (h : TemplateReads template) : (FileCall.write (.image image template)).ReadsBack := by
  intro next commit hcommit
  obtain ⟨header, hheader, hcommit⟩ := Loops.ok_of_bind hcommit
  obtain rfl := Except.ok.inj hcommit
  exact ⟨sound_imageHeader hheader, h⟩

/-- A primary without data reads back where its template does. -/
theorem readsBack_emptyPrimary {template : Option (Header R)} (h : TemplateReads template) :
    (FileCall.write (.emptyPrimary template)).ReadsBack := by
  intro next commit hcommit
  cases next with
  | primary =>
    obtain ⟨header, hheader, hcommit⟩ := Loops.ok_of_bind hcommit
    obtain rfl := Except.ok.inj hcommit
    exact ⟨sound_emptyPrimaryHeader hheader, h⟩
  | extension => cases hcommit

/-! ## Files -/

/-- The bytes that an HDU has at a place of a file. -/
inductive WrittenHdu.LaidAt (hdu : WrittenHdu R) (index : ℕ) : Text → Prop
  | intro (unit : Text) (signing : Signing) (kind : HduKind)
      (hkind : HduKind.fromHeader hdu.header (.ofIndex index) = .ok kind)
      (hsigning : hdu.form.signing
        (accumulate (hdu.data ++ kind.fill hdu.data.length) 0) = .ok signing)
      (hrender : hdu.header.renderInto signing hdu.form.space = .ok unit)
      (hscannable : hdu.header.Scannable (.ofIndex index))
      -- a stream may be longer than a word counts; a file that is read is not
      (hdata : hdu.data.length + padding hdu.data.length ≤ usizeMax →
        kind.dataBytes hdu.header = .ok hdu.data.length) :
      LaidAt hdu index (unit ++ (hdu.data ++ kind.fill hdu.data.length))

/-- The bytes of HDUs, one after another. -/
inductive FileOf : List (WrittenHdu R) → Text → Prop
  | nil : FileOf [] []
  | concat {hdus : List (WrittenHdu R)} {bytes piece : Text} {hdu : WrittenHdu R}
      (hfile : FileOf hdus bytes) (hnext : hdu.LaidAt hdus.length piece) :
      FileOf (hdus ++ [hdu]) (bytes ++ piece)

/-- A writer that goes on after these HDUs. -/
structure FitsWriter.Keeps (writer : FitsWriter) (hdus : List (WrittenHdu R)) : Prop where
  file : FileOf hdus writer.sink.bytes
  position : writer.sink.position = writer.sink.bytes.length
  next : writer.nextPosition = .ok (.ofIndex hdus.length)

omit [PlaneReals R] in
theorem putAt_end {sink : SeekSink} (h : sink.position = sink.bytes.length) (out : Text) :
    sink.putAt out = sink.bytes ++ out := by
  unfold SeekSink.putAt
  split
  · rename_i hempty
    rw [List.isEmpty_iff.mp hempty, List.append_nil]
  · rw [overwrite, h, List.take_length, Nat.sub_self, List.replicate_zero, List.append_nil,
      List.drop_of_length_le (Nat.le_add_right _ _), List.append_nil]

/-- A writer that wrote HDUs at the end of its file. -/
theorem FitsWriter.Keeps.wrote {writer writer' : FitsWriter} {hdus added : List (WrittenHdu R)}
    {out : Text} (h : writer.Keeps hdus) (hadded : added ≠ [])
    (hwrote : FitsWriter.Wrote writer writer' out)
    (hfile : FileOf (hdus ++ added) (writer.sink.bytes ++ out)) : writer'.Keeps (hdus ++ added) := by
  have hbytes := hwrote.bytes.trans (putAt_end h.position out)
  refine ⟨hbytes ▸ hfile, ?_, ?_⟩
  · rw [hwrote.position, hbytes, List.length_append, h.position]
  · have hlength : hdus.length + added.length ≠ 0 := by
      have := List.length_pos_iff.mpr hadded
      omega
    rw [FitsWriter.nextPosition, hwrote.state, List.length_append, HduPosition.ofIndex,
      if_neg hlength]

/-- The length of a data unit in whole blocks. -/
theorem paddedLen_of_le {len : ℕ} (h : len + padding len ≤ usizeMax) :
    paddedLen len = some (len + padding len) := by
  have hblocks : blocksFor len * blockSize = len + padding len := by
    unfold blocksFor padding blockSize
    omega
  rw [paddedLen, checkedMul, hblocks, if_pos h]

omit [PlaneReals R] in
/-- A header goes where the next HDU does, or is an extension that is written first. -/
theorem placed_cases {header : Header R} {next position : HduPosition}
    (h : placed header next = .ok position) :
    next = .primary ∧ position = .extension ∨ position = next := by
  unfold placed at h
  split at h
  · rename_i hnext
    obtain ⟨xtension, -, h⟩ := Loops.ok_of_bind h
    rw [← Except.ok.inj h]
    cases xtension with
    | none => exact .inr rfl
    | some value => exact .inl ⟨hnext, rfl⟩
  · exact .inr (Except.ok.inj h).symm

/-- A write puts the bytes of its HDU in the file. -/
theorem laidAt_of_rendering {writer : FitsWriter} {commit : Commit R} {hdu : RenderedHdu}
    {header : Header R} {next position : HduPosition} {kind : HduKind} {index : ℕ}
    (h : FitsWriter.Rendering writer commit hdu header next position kind)
    (hscannable : header.Scannable position) (hindex : HduPosition.ofIndex index = position) :
    WrittenHdu.LaidAt ⟨header, commit.body.data, writer.form⟩ index
      (hdu.header ++ (commit.body.data ++ hdu.fill)) := by
  obtain ⟨signing, hsigning, hrender⟩ := h.signed
  have hfill : hdu.fill.length = padding commit.body.data.length := by
    rw [h.fill, HduKind.length_fill]
  rw [Body.dataSum_eq _ hfill, h.fill] at hsigning
  rw [h.fill]
  subst hindex
  exact .intro hdu.header signing kind h.described hsigning hrender hscannable fun _ => h.dataBytes

/-- The empty primary before an extension has its bytes at the start of the file. -/
theorem laidAt_primary {writer : FitsWriter} {next position : HduPosition} {primary : Text}
    (h : writer.leadingPrimary R next position = .ok (some primary)) :
    ∃ header : Header R, emptyPrimaryHeader = .ok header ∧
      WrittenHdu.LaidAt ⟨header, [], writer.form⟩ 0 primary := by
  unfold FitsWriter.leadingPrimary at h
  split at h
  case isFalse => cases h
  obtain ⟨header, hheader, h⟩ := Loops.ok_of_bind h
  obtain ⟨signing, hsigning, h⟩ := Loops.ok_of_bind h
  obtain ⟨out, hout, h⟩ := Loops.ok_of_bind h
  obtain rfl := Option.some.inj (Except.ok.inj h)
  obtain ⟨layout, hlayout⟩ : ∃ layout : Metadata R,
      layout = ⟨[], .u8, ⟨RealText.ofI64 1, RealText.ofI64 0, none⟩⟩ := ⟨_, rfl⟩
  have hprologue : (imagePrologue layout .primary).header = .ok header := by
    rw [hlayout]
    exact hheader
  have hdescribes := describes_of_values hprologue fun _ _ _ => rfl
  have hbytes : HduKind.primary.dataBytes header = .ok 0 := by
    have hbytes := @DescribesImage.dataBytes_of_padded R _ header layout .primary 0 0 hdescribes
      (by rw [hlayout]; rfl) (by rw [Nat.zero_mul]; decide)
    rwa [Nat.zero_mul] at hbytes
  have hfill : HduKind.primary.fill ([] : Text).length = [] := by decide
  have hempty : writer.form.signing
      (accumulate ([] ++ HduKind.primary.fill ([] : Text).length) 0) = .ok signing := by
    rw [hfill]
    exact hsigning
  have hlaid := @WrittenHdu.LaidAt.intro R _ ⟨header, [], writer.form⟩ 0 out signing .primary
    hdescribes.kind hempty hout (scannable_emptyPrimaryHeader hheader) fun _ => hbytes
  dsimp only at hlaid
  rw [hfill, List.append_nil, List.append_nil] at hlaid
  exact ⟨header, hheader, hlaid⟩

/-- A stream puts the bytes of its HDU in the file. -/
theorem laidAt_of_streamed {writer writer' : FitsWriter} {layout : Metadata R}
    {template : Option (Header R)} {chunks : List View} {next : HduPosition} {base : Header R}
    {signing : Signing} {head : Text} {index : ℕ}
    (h : FitsWriter.StreamedAs writer writer' layout template chunks next base signing head)
    (htemplate : TemplateReads template) (hindex : HduPosition.ofIndex index = next) :
    WrittenHdu.LaidAt ⟨base.withTemplate template, encodeChunks chunks, writer.form⟩ index
      (head ++ (encodeChunks chunks ++ zeroFill (encodeChunks chunks).length)) := by
  have hdescribes := describes_imageHeader h.opened template
  have hscannable := (scannable_imageHeader h.opened).grows (Header.grows_withTemplate htemplate)
  have hsummed := h.summed
  rw [← fill_imageKind next] at hsummed ⊢
  subst hindex
  refine .intro head signing _ hdescribes.kind hsummed h.rendered hscannable fun hfits => ?_
  have hlength := length_encodeChunks h.types
  have hpadded := paddedLen_of_le hfits
  dsimp only at hpadded ⊢
  rw [hlength] at hpadded ⊢
  exact hdescribes.dataBytes_of_padded h.counted hpadded

/-! ## Runs -/

namespace FileCall

/-- A write that returns adds its HDUs to the file. -/
theorem keeps_write {writer writer' : FitsWriter} {hdus : List (WrittenHdu R)} {write : HduWrite R}
    (hkeeps : writer.Keeps hdus) (hreads : (FileCall.write write).ReadsBack)
    (hrun : (write.run answers).run writer = (.ok (), writer')) :
    ∃ added, (FileCall.write write).hdus writer = .ok added ∧ writer'.Keeps (hdus ++ added) := by
  obtain ⟨commit, hdu, hprepared, hwrote⟩ := FitsWriter.wrote_of_ok hrun
  obtain ⟨header, next, position, kind, hrendering, hcommit⟩ :=
    FitsWriter.rendering_of_prepared hprepared
  obtain ⟨hsound, htemplate⟩ := hreads next commit hcommit
  have hmerged := hrendering.merged
  have hscannable : header.Scannable position := by
    subst hmerged
    exact (hsound.withTemplate htemplate).scannable hrendering.goes hrendering.described
  have hnext : HduPosition.ofIndex hdus.length = next :=
    Except.ok.inj (hkeeps.next.symm.trans hrendering.usable)
  have hhdus : (FileCall.write write).hdus writer =
      WrittenHdu.afterPrimary ⟨header, commit.body.data, writer.form⟩ next := by
    rw [FileCall.hdus, Loops.bind_ok hrendering.usable, Loops.bind_ok hcommit, hmerged]
  rw [hhdus, WrittenHdu.afterPrimary, Loops.bind_ok hrendering.goes]
  by_cases hfirst : next = .primary ∧ position = .extension
  · obtain ⟨rfl, rfl⟩ := hfirst
    have hempty : hdus = [] := by
      cases hdus with
      | nil => rfl
      | cons first rest => cases hnext
    subst hempty
    have hprimary := hrendering.primary
    cases hleading : hdu.primary with
    | none =>
      rw [hleading, FitsWriter.leadingPrimary, if_pos ⟨rfl, rfl⟩] at hprimary
      obtain ⟨_, -, hprimary⟩ := Loops.ok_of_bind hprimary
      obtain ⟨_, -, hprimary⟩ := Loops.ok_of_bind hprimary
      obtain ⟨_, -, hprimary⟩ := Loops.ok_of_bind hprimary
      cases hprimary
    | some primary =>
      rw [hleading] at hprimary
      obtain ⟨own, hown, hlaid⟩ := laidAt_primary hprimary
      rw [if_pos ⟨rfl, rfl⟩, Loops.bind_ok hown]
      refine ⟨_, rfl, hkeeps.wrote (List.cons_ne_nil _ _) hwrote ?_⟩
      have hfile := (hkeeps.file.concat hlaid).concat
        (@laidAt_of_rendering R _ writer commit hdu header _ _ kind 1 hrendering hscannable rfl)
      rw [RenderedHdu.bytes, hleading, Option.getD_some, ← List.append_assoc]
      exact hfile
  · have hleading : hdu.primary = none := by
      have hprimary := hrendering.primary
      rw [FitsWriter.leadingPrimary, if_neg hfirst] at hprimary
      exact (Except.ok.inj hprimary).symm
    rw [if_neg hfirst]
    refine ⟨_, rfl, hkeeps.wrote (List.cons_ne_nil _ _) hwrote ?_⟩
    have hindex := hnext.trans ((placed_cases hrendering.goes).resolve_left hfirst).symm
    rw [RenderedHdu.bytes, hleading, Option.getD_none, List.nil_append]
    exact hkeeps.file.concat (laidAt_of_rendering hrendering hscannable hindex)

/-- A stream that returns adds its HDU to the file. -/
theorem keeps_stream {writer writer' : FitsWriter} {hdus : List (WrittenHdu R)}
    {layout : Metadata R} {template : Option (Header R)} {chunks : List View}
    (hkeeps : writer.Keeps hdus) (hreads : (stream layout template chunks).ReadsBack)
    (hrun : (FitsWriter.streamed answers layout template chunks).run writer = (.ok (), writer')) :
    ∃ added, (stream layout template chunks).hdus writer = .ok added ∧
      writer'.Keeps (hdus ++ added) := by
  obtain ⟨next, base, signing, head, hstreamed⟩ := FitsWriter.streamed_ok hrun
  have hnext : HduPosition.ofIndex hdus.length = next :=
    Except.ok.inj (hkeeps.next.symm.trans hstreamed.usable)
  rw [FileCall.hdus, Loops.bind_ok hstreamed.usable, Loops.bind_ok hstreamed.opened]
  refine ⟨_, rfl, hkeeps.wrote (List.cons_ne_nil _ _) hstreamed.wrote ?_⟩
  exact hkeeps.file.concat (laidAt_of_streamed hstreamed hreads hnext)

/-- What a call that returns adds to the file is what it says. -/
theorem keeps_returned {call : FileCall R} {writer writer' : FitsWriter}
    {hdus : List (WrittenHdu R)} (hkeeps : writer.Keeps hdus) (hreads : call.ReadsBack)
    (hrun : (call.run answers).run writer = (.ok (), writer')) :
    ∃ added, call.hdus writer = .ok added ∧ writer'.Keeps (hdus ++ added) := by
  cases call with
  | withChecksums =>
    cases hrun
    exact ⟨[], rfl, (List.append_nil hdus).symm ▸ ⟨hkeeps.file, hkeeps.position, hkeeps.next⟩⟩
  | withSpareRecords records =>
    cases hrun
    exact ⟨[], rfl, (List.append_nil hdus).symm ▸ ⟨hkeeps.file, hkeeps.position, hkeeps.next⟩⟩
  | write write => exact keeps_write hkeeps hreads hrun
  | stream layout template chunks => exact keeps_stream hkeeps hreads hrun

/-- A call that is refused, and leaves the writer usable, adds nothing. -/
theorem keeps_refused {call : FileCall R} {writer writer' : FitsWriter} {fault : Fault}
    {hdus : List (WrittenHdu R)} (hkeeps : writer.Keeps hdus)
    (hrun : (call.run answers).run writer = (.error fault, writer'))
    (husable : writer'.state ≠ .failed) : writer'.Keeps hdus := by
  have hwaited : ∀ calls, (writer.wrote [] calls).Keeps hdus :=
    fun calls => ⟨hkeeps.file, hkeeps.position, hkeeps.next⟩
  cases call with
  | withChecksums => cases hrun
  | withSpareRecords records => cases hrun
  | write write =>
    have hends := @FitsWriter.write_ends R _ answers writer write
    rw [show (write.run answers).run writer = _ from hrun] at hends
    generalize writer.prepared write = prepared at hends
    cases hends with
    | refused fault => exact hkeeps
    | broken commit hdu error taken calls hprefix hfailed => exact (husable rfl).elim
  | stream layout template chunks =>
    have hends := @FitsWriter.streamImage_ends R _ answers writer layout template
    have hrun : FitsWriter.streamed answers layout template chunks writer = _ := hrun
    unfold FitsWriter.streamed at hrun
    generalize (FitsWriter.streamImage answers layout template).run writer = result at hrun hends
    cases hends with
    | refused fault calls hcalls =>
      obtain ⟨-, rfl⟩ := Prod.mk.inj hrun
      exact hwaited calls
    | broken hfirst error taken calls hfailed =>
      obtain ⟨-, rfl⟩ := Prod.mk.inj hrun
      exact (husable rfl).elim
    | started next base expected head calls hnext hexpected hheader hhead hworks =>
      dsimp only at hrun
      split at hrun
      · obtain ⟨-, rfl⟩ := Prod.mk.inj hrun
        exact (husable rfl).elim
      · unfold ImageWriter.finish at hrun
        split at hrun
        · cases hrun
        · obtain ⟨-, rfl⟩ := Prod.mk.inj hrun
          exact (husable rfl).elim

/-- No call makes an unusable writer usable. -/
theorem failed_run {call : FileCall R} {writer : FitsWriter} (h : writer.state = .failed) :
    ((call.run answers).run writer).2.state = .failed := by
  have hnext : writer.nextPosition = fail .writerFailed := by
    unfold FitsWriter.nextPosition
    rw [h]
  cases call with
  | withChecksums => exact h
  | withSpareRecords records => exact h
  | write write =>
    have hends := @FitsWriter.write_ends R _ answers writer write
    have hprepared : writer.prepared write = fail .writerFailed := by
      rw [FitsWriter.prepared, hnext]
      rfl
    rw [hprepared] at hends
    show ((write.run answers).run writer).2.state = .failed
    generalize (write.run answers).run writer = result at hends ⊢
    cases hends with
    | refused fault => exact h
  | stream layout template chunks =>
    have hends := @FitsWriter.streamImage_ends R _ answers writer layout template
    show (FitsWriter.streamed answers layout template chunks writer).2.state = .failed
    unfold FitsWriter.streamed
    generalize (FitsWriter.streamImage answers layout template).run writer = result at hends ⊢
    cases hends with
    | refused fault calls hcalls => exact h
    | broken hfirst error taken calls hfailed => rfl
    | started next base expected head calls hfirst hexpected hheader hhead hworks =>
      cases hnext.symm.trans hfirst

theorem failed_filed {calls : List (FileCall R)} {writer : FitsWriter}
    (h : writer.state = .failed) : (filed answers calls writer).2.state = .failed := by
  induction calls generalizing writer with
  | nil => exact h
  | cons call calls ih =>
    have hnext := @failed_run R _ answers call writer h
    rw [filed]
    generalize (call.run answers).run writer = result at hnext ⊢
    obtain ⟨outcome, after⟩ := result
    cases outcome with
    | ok returned => exact ih hnext
    | error fault => exact ih hnext

/-- The file of a writer that is usable at the end holds the HDUs of the calls that returned. -/
theorem keeps_filed {calls : List (FileCall R)} {writer : FitsWriter} {hdus : List (WrittenHdu R)}
    (hkeeps : writer.Keeps hdus) (hreads : ∀ call ∈ calls, call.ReadsBack)
    (husable : (filed answers calls writer).2.state ≠ .failed) :
    (filed answers calls writer).2.Keeps (hdus ++ (filed answers calls writer).1) := by
  induction calls generalizing writer hdus with
  | nil =>
    rw [filed, List.append_nil]
    exact hkeeps
  | cons call calls ih =>
    obtain ⟨hcall, hcalls⟩ := List.forall_mem_cons.mp hreads
    rw [filed] at husable ⊢
    cases hrun : (call.run answers).run writer with
    | mk outcome after =>
    rw [hrun] at husable
    cases outcome with
    | ok returned =>
      obtain ⟨added, hadded, hafter⟩ := keeps_returned hkeeps hcall hrun
      dsimp only at husable ⊢
      rw [hadded]
      have hlater := ih hafter hcalls husable
      rwa [List.append_assoc] at hlater
    | error fault =>
      have hafter : after.state ≠ .failed := fun hfailed => husable (failed_filed hfailed)
      exact ih (keeps_refused hkeeps hrun hafter) hcalls husable

end FileCall

/-! ## Scans -/

/-- What a scan finds of an HDU that was written: its header, with its checksum records where the
writer signs, its kind and its data unit. -/
structure Source.Shows (source : Source) (hdu : WrittenHdu R) (found : Hdu R) : Prop where
  kind : HduKind.fromHeader hdu.header (.ofIndex found.index) = .ok found.kind
  header : ∃ signing, hdu.form.signing
    (accumulate (hdu.data ++ found.kind.fill hdu.data.length) 0) = .ok signing ∧
      hdu.header.ReadBack signing found.header
  dataBytes : found.dataBytes = hdu.data.length
  data : (source.bytes.drop found.dataOffset).take found.dataBytes = hdu.data

/-- A scan of HDUs one after another finds them. -/
theorem scan_fileOf [RealsReadBack R] {source : Source} (hreads : source.Reads)
    {hdus : List (WrittenHdu R)} {bytes after : Text} (hfile : FileOf hdus bytes)
    (hbytes : source.bytes = bytes ++ after) :
    ∃ found : List (Hdu R), scan source = scanFrom source bytes.length found ∧
      List.Forall₂ source.Shows hdus found := by
  induction hfile generalizing after with
  | nil => exact ⟨[], rfl, .nil⟩
  | @concat hdus bytes piece hdu hfile hnext ih =>
    rw [List.append_assoc] at hbytes
    obtain ⟨found, hscan, hshows⟩ := ih hbytes
    have hcount := hshows.length_eq
    cases hnext with
    | intro unit signing kind hkind hsigning hrender hscannable hdata =>
    obtain ⟨header, data, form⟩ := hdu
    dsimp only at hkind hsigning hrender hscannable hdata hbytes ⊢
    have hplaceholder : signing ≠ .placeholder := by
      rintro rfl
      unfold HeaderForm.signing at hsigning
      split at hsigning
      · cases hsigning
      · obtain ⟨_, -, hsigning⟩ := Loops.ok_of_bind hsigning
        cases hsigning
    have hfits : data.length + padding data.length ≤ usizeMax := by
      have hsized := source.sized
      rw [hbytes] at hsized
      simp only [List.length_append, HduKind.length_fill] at hsized
      omega
    have hpadded : paddedLen data.length = some (data ++ kind.fill data.length).length := by
      rw [List.length_append, HduKind.length_fill, paddedLen_of_le hfits]
    rw [hcount] at hkind hscannable
    obtain ⟨own, hown, hindex, hback, hkinds, -, hoffset, hlength⟩ :=
      nextHdu_written hreads hbytes hplaceholder hscannable hrender hkind (hdata hfits) hpadded
    refine ⟨found ++ [own], ?_, List.rel_append hshows (.cons ?_ .nil)⟩
    · rw [hscan, scanFrom_some hown]
    · refine ⟨?_, ⟨signing, ?_, hback⟩, hlength, ?_⟩
      · rw [hindex, hkinds]
        exact hkind
      · rw [hkinds]
        exact hsigning
      · rw [hlength, hoffset, hbytes, ← List.drop_drop, List.drop_left, List.append_assoc,
          List.drop_left, List.append_assoc, List.take_left]

/-- A primary without data, and a streamed image without samples after it. -/
def twoCalls : List (FileCall ℤ) := [.write (.emptyPrimary none), .stream emptyRow.metadata none []]

namespace FileCall

theorem filed_append {before after : List (FileCall R)} {writer : FitsWriter} :
    filed answers (before ++ after) writer =
      ((filed answers before writer).1 ++ (filed answers after (filed answers before writer).2).1,
        (filed answers after (filed answers before writer).2).2) := by
  induction before generalizing writer with
  | nil => rfl
  | cons call before ih =>
    rw [List.cons_append, filed, filed]
    generalize (call.run answers).run writer = result
    obtain ⟨outcome, next⟩ := result
    cases outcome with
    | ok returned => dsimp only; rw [ih, List.append_assoc]
    | error fault => exact ih

/-- The HDU of an image that was written. -/
theorem hdus_image {writer : FitsWriter} {image : Borrowed R} {template : Option (Header R)}
    {next : HduPosition} {added : List (WrittenHdu R)} (hnext : writer.nextPosition = .ok next)
    (h : (write (.image image template)).hdus writer = .ok added) : ∃ base,
    imageHeader image.metadata next = .ok base ∧
      added = [⟨base.withTemplate template, image.samples.encode, writer.form⟩] := by
  rw [hdus, Loops.bind_ok hnext] at h
  obtain ⟨commit, hcommit, h⟩ := Loops.ok_of_bind h
  obtain ⟨base, hbase, hcommit⟩ := Loops.ok_of_bind hcommit
  obtain rfl := Except.ok.inj hcommit
  obtain ⟨position, hposition, h⟩ := Loops.ok_of_bind h
  obtain rfl := Except.ok.inj ((describes_imageHeader hbase template).goes.symm.trans hposition)
  refine ⟨base, hbase, ?_⟩
  split at h
  · rename_i hboth
    cases hboth.1.symm.trans hboth.2
  · exact (Except.ok.inj h).symm

end FileCall

/-- Each HDU of a scan has its own index, and its data unit starts in the file. -/
theorem scan_places {source : Source} {found : Hdus R} (h : scan source = .ok found) :
    ∀ (i : ℕ) (hdu : Hdu R), found.hdus[i]? = some hdu →
      hdu.index = i ∧ hdu.dataOffset ≤ source.size := by
  refine scanFrom_forall (fun hnext => ?_) (fun i hdu hmem => ?_) h
  · obtain ⟨hholds, -⟩ := nextHdu_holds hnext
    exact ⟨hholds.place, hholds.dataOffset.trans_le hholds.unit.inside⟩
  · cases hmem

/-- A data unit of so many samples reads as the samples of its bytes. -/
theorem filled_all {τ : Type} {source : Source} {offset len : ℕ} {data : Text}
    (sample : Sample τ) (resident : Bool) (hreads : source.Reads) (hoffset : offset ≤ source.size)
    (hlength : data.length = len * sample.size)
    (hdata : (source.bytes.drop offset).take data.length = data) :
    PlainRead.filled ⟨⟨source, resident⟩, offset⟩ sample (.all (len * sample.size)) len =
      .ok (sample.ofBe data) := by
  have hinside : offset + len * sample.size ≤ source.size := by
    have hcount := congrArg List.length hdata
    rw [List.length_take, List.length_drop, hlength] at hcount
    have hsize : source.bytes.length = source.size := rfl
    omega
  obtain ⟨-, hfilled, -⟩ :=
    @PlainRead.all_reads τ ⟨⟨source, resident⟩, offset⟩ sample len hinside
  have hunit : PlainRead.unit ⟨⟨source, resident⟩, offset⟩ (len * sample.size) = data := by
    rw [← hlength]
    exact hdata
  rw [hunit] at hfilled
  cases hrun : PlainRead.filled ⟨⟨source, resident⟩, offset⟩ sample (.all (len * sample.size))
      len with
  | ok own =>
    rw [hrun] at hfilled
    rw [show own = _ from hfilled]
  | error fault =>
    rw [hrun] at hfilled
    obtain ⟨-, place, error, hfault, -⟩ := hfilled
    rw [hreads place] at hfault
    cases hfault

/-- The bytes of a view are the samples of its words. -/
theorem Sample.ofBe_encode {τ : Type} (sample : Sample τ) (view : View)
    (h : sample.size = view.bitpix.elemSize) : sample.ofBe view.encode =
      view.samples.map fun word => sample.fromBeBytes (Bytes.beBytes sample.size word.toNat) := by
  have hlength : view.encode.length = view.len * sample.size := by rw [View.length_encode, h]
  have hwhole : wholeChunks (sample.size - 1) view.encode =
      view.samples.map fun word => Bytes.beBytes sample.size word.toNat := by
    unfold View.encode
    rw [List.flatMap_def, h]
    refine wholeChunks_flatten view.bitpix.elemSize_pos fun part hpart => ?_
    obtain ⟨word, -, rfl⟩ := List.mem_map.mp hpart
    exact Bytes.beBytes_length _ _
  rw [wholeChunks_eq_map sample.size_pos hlength] at hwhole
  have hread := congrArg (List.map sample.fromBeBytes) hwhole
  rw [List.map_map, List.map_map] at hread
  rw [Sample.ofBe, hlength, Nat.mul_div_cancel _ sample.size_pos]
  exact hread
/-- What a scan finds of an image that a writer was given, and what a read of its data unit gives:
its shape and type, a map that compares equal, and its samples. -/
structure Source.ReadsImage (source : Source) (image : Borrowed R) (found : Hdu R) : Prop where
  geometry : ∃ (scaling : Scaling R) (hlen : shapeProduct image.shape = .ok image.samples.len),
    ImageGeometry.fromHeader found.header found.kind =
        .ok ⟨image.shape, image.samples.bitpix, scaling, image.samples.len, hlen⟩ ∧
      image.scaling.Same scaling
  samples : ∀ {τ : Type} (sample : Sample τ) (resident : Bool),
    sample.size = image.samples.bitpix.elemSize →
      PlainRead.filled ⟨⟨source, resident⟩, found.dataOffset⟩ sample
        (.all (image.samples.len * sample.size)) image.samples.len =
          .ok (image.samples.samples.map fun word =>
            sample.fromBeBytes (Bytes.beBytes sample.size word.toNat))

/-- An HDU of the scan that shows the image that was written reads as it. -/
theorem Source.Shows.readsImage [LawfulPlane R] {source : Source} {image : Borrowed R}
    {template : Option (Header R)} {base : Header R} {form : HeaderForm} {found : Hdu R}
    (h : source.Shows ⟨base.withTemplate template, image.samples.encode, form⟩ found)
    (hbase : imageHeader image.metadata (.ofIndex found.index) = .ok base)
    (hoffset : found.dataOffset ≤ source.size) (hreads : source.Reads)
    (hwords : ∀ blank, image.scaling.blank = some blank → FitsI64 blank) :
    source.ReadsImage image found := by
  obtain ⟨signing, -, hback⟩ := h.header
  have hkind : imageKind (.ofIndex found.index) = found.kind :=
    Except.ok.inj ((describes_imageHeader hbase template).kind.symm.trans h.kind)
  obtain ⟨read, hgeometry, hsame⟩ := geometry_imageHeader hbase template image.counted hwords
  refine ⟨⟨read, image.counted, ?_, hsame⟩, fun sample resident hsize => ?_⟩
  · rw [← hkind, hback.agrees.geometry]
    exact hgeometry
  · have hdata := h.data
    rw [h.dataBytes] at hdata
    rw [← sample.ofBe_encode image.samples hsize]
    refine filled_all sample resident hreads hoffset ?_ hdata
    rw [View.length_encode, hsize]

/-- The HDU of an image that was written is at its place among those of the calls. -/
theorem FileCall.filed_image {before : List (FileCall R)} (after : List (FileCall R))
    {image : Borrowed R} {template : Option (Header R)} {writer writer' : FitsWriter} {hdus : List (WrittenHdu R)}
    (hkeeps : (filed answers before writer).2.Keeps hdus)
    (hreads : (write (.image image template)).ReadsBack)
    (hreturned : ((write (.image image template)).run answers).run (filed answers before writer).2 =
      (.ok (), writer')) : ∃ base,
    imageHeader image.metadata (.ofIndex hdus.length) = .ok base ∧
      (filed answers (before ++ write (.image image template) :: after) writer).1[
          (filed answers before writer).1.length]? =
        some ⟨base.withTemplate template, image.samples.encode,
          (filed answers before writer).2.form⟩ := by
  obtain ⟨added, hadded, -⟩ := keeps_returned hkeeps hreads hreturned
  obtain ⟨base, hbase, rfl⟩ := hdus_image hkeeps.next hadded
  refine ⟨base, hbase, ?_⟩
  rw [filed_append, filed, hreturned, List.getElem?_append_right (Nat.le_refl _), Nat.sub_self]
  dsimp only
  rw [hadded]
  rfl

/-- Two samples of an image. -/
def twoSamples : Borrowed ℤ where
  shape := [2]
  scaling := ⟨1, 0, none⟩
  samples := ⟨.i16, [258, 772], by decide⟩
  counted := by decide

end FitsWell
