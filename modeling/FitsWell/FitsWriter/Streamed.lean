import FitsWell.FitsWriter.ImageHeader
import FitsWell.FitsWriter.StreamRuns
import FitsWell.HeaderModel.SignedSize
import FitsWell.FitsWriter.Writes

/-!
# A whole stream

An image that is written a chunk at a time leaves in the sink a header that is signed with the sum
of its data, the data and the block fill. However its samples are cut into chunks, these are the
bytes of the write of the whole image.
-/

namespace FitsWell

open Checksum (Running accumulate allOnes)
open OnesComplement (rep total)

variable {R : Type} [PlaneReals R] {answers : SinkAnswers}

/-! ## Streams -/

/-- Write an image in these chunks. A call that fails drops the stream. -/
def FitsWriter.streamed (answers : SinkAnswers) (layout : Metadata R)
    (template : Option (Header R)) (chunks : List View) : Stateful Fault FitsWriter Unit :=
  fun writer =>
    match (FitsWriter.streamImage answers layout template).run writer with
    | (.error fault, writer) => (.error fault, writer)
    | (.ok stream, _) =>
      match (chunks.forM (ImageWriter.writeChunk answers)).run stream with
      | (.error fault, stream) => (.error fault, stream.dropped)
      | (.ok _, stream) => stream.finish answers

/-- The bytes of chunks. -/
def encodeChunks (chunks : List View) : Text := (chunks.map View.encode).flatten

namespace ImageWriter

omit [PlaneReals R] in
/-- Chunks that are taken add their bytes to the sink and to the sum. -/
theorem chunks_ok {stream stream' : ImageWriter R} {passed : Text} {chunks : List View}
    (husable : stream.writer.ensureUsable = .ok ()) (hsums : stream.checksum.Sums passed)
    (hrun : (chunks.forM (writeChunk answers)).run stream = (.ok (), stream')) :
    ∃ sum calls, sum.Sums (passed ++ encodeChunks chunks) ∧
      (∀ chunk ∈ chunks, chunk.bitpix = stream.bitpix) ∧
      stream' = { stream with
        writer := stream.writer.wrote (encodeChunks chunks) calls, checksum := sum
        writtenSamples := stream.writtenSamples + (chunks.map View.len).sum } := by
  induction chunks generalizing stream passed with
  | nil =>
    cases hrun
    exact ⟨_, 0, (List.append_nil passed).symm ▸ hsums, nofun, rfl⟩
  | cons chunk chunks ih =>
    obtain ⟨⟨⟩, mid, hchunk, hrest⟩ := Stateful.ok_of_bind hrun
    have hends := @writeChunk_ends R answers _ _ husable hsums chunk
    rw [hchunk] at hends
    cases hends with
    | done sum calls hnext htype hroom hworks =>
      obtain ⟨last, more, hlast, htypes, rfl⟩ := @ih { stream with
        writer := stream.writer.wrote chunk.encode calls, checksum := sum
        writtenSamples := stream.writtenSamples + chunk.len } _
        (FitsWriter.ensureUsable_wrote husable chunk.encode calls) hnext hrest
      refine ⟨last, calls + more, ?_, ?_, ?_⟩
      · rwa [encodeChunks, List.map_cons, List.flatten_cons, ← List.append_assoc]
      · exact List.forall_mem_cons.mpr ⟨htype, htypes⟩
      · dsimp only
        rw [FitsWriter.wrote_wrote, List.map_cons, List.sum_cons, ← Nat.add_assoc]
        rfl

end ImageWriter

/-- A keyword that reads as nothing has no comment. -/
theorem Header.signedComment_of_value {R : Type} {header : Header R} {keyword : Keyword}
    (h : header.value (.keyword keyword) = .ok none) : header.signedComment keyword = none := by
  unfold signedComment
  cases hindex : header.index keyword with
  | none => rfl
  | some i =>
    obtain ⟨record, hrecord, -⟩ := header.keyword_of_index hindex
    have hfirst : header.first? (.keyword keyword) = some i := hindex
    rw [value, hfirst] at h
    obtain ⟨_, -, h⟩ := Loops.ok_of_bind h
    obtain ⟨_, -, h⟩ := Loops.ok_of_bind h
    cases h

theorem length_encodeChunks {chunks : List View} {bitpix : Bitpix}
    (h : ∀ chunk ∈ chunks, chunk.bitpix = bitpix) :
    (encodeChunks chunks).length = (chunks.map View.len).sum * bitpix.elemSize := by
  induction chunks with
  | nil => exact (Nat.zero_mul _).symm
  | cons chunk chunks ih =>
    obtain ⟨hchunk, hchunks⟩ := List.forall_mem_cons.mp h
    have hrest := ih hchunks
    unfold encodeChunks at hrest ⊢
    rw [List.map_cons, List.flatten_cons, List.length_append, hrest, View.length_encode, hchunk,
      List.map_cons, List.sum_cons, Nat.add_mul]

namespace FitsWriter

/-- A writer that wrote whole HDUs of these bytes. -/
structure Wrote (writer writer' : FitsWriter) (out : Text) : Prop where
  bytes : writer'.sink.bytes = writer.sink.putAt out
  position : writer'.sink.position = writer.sink.position + out.length
  state : writer'.state = .active
  form : writer'.form = writer.form

/-- What a stream leaves that returned: its header, signed with the sum of its data unit where it is
signed, the bytes of its chunks and the block fill. -/
structure StreamedAs (writer writer' : FitsWriter) (layout : Metadata R)
    (template : Option (Header R)) (chunks : List View) (next : HduPosition) (base : Header R)
    (signing : Signing) (head : Text) : Prop where
  usable : writer.nextPosition = .ok next
  opened : imageHeader layout next = .ok base
  counted : shapeProduct layout.shape = .ok (chunks.map View.len).sum
  types : ∀ chunk ∈ chunks, chunk.bitpix = layout.bitpix
  summed : writer.form.signing (accumulate (encodeChunks chunks ++
    zeroFill (encodeChunks chunks).length) 0) = .ok signing
  rendered : (base.withTemplate template).renderInto signing writer.form.space = .ok head
  wrote : Wrote writer writer' (head ++ (encodeChunks chunks ++
    zeroFill (encodeChunks chunks).length))

omit [PlaneReals R] in
/-- A header that is put over one as long takes its place. -/
theorem putAt_again {sink : SeekSink} {first second rest : Text} (hfirst : first ≠ [])
    (h : second.length = first.length) {calls : ℕ} :
    { sink.wrote (first ++ rest) calls with position := sink.position }.putAt second =
      sink.putAt (second ++ rest) := by
  have hsecond : second ≠ [] := by
    rw [← List.length_pos_iff, h]
    exact List.length_pos_iff.mpr hfirst
  have hput : ∀ {sink : SeekSink} {out : Text}, out ≠ [] →
      sink.putAt out = overwrite 0 sink.bytes sink.position out := by
    intro sink out hout
    rw [SeekSink.putAt, if_neg (by simpa using hout)]
  have hbytes : (sink.wrote (first ++ rest) calls).bytes =
      overwrite 0 sink.bytes sink.position (first ++ rest) :=
    hput (List.append_ne_nil_of_left_ne_nil hfirst rest)
  rw [hput hsecond, hput (List.append_ne_nil_of_left_ne_nil hsecond rest)]
  dsimp only
  rw [hbytes, overwrite_again 0 sink.bytes sink.position h]

theorem streamed_ok {writer writer' : FitsWriter} {layout : Metadata R}
    {template : Option (Header R)} {chunks : List View}
    (h : (streamed answers layout template chunks).run writer = (.ok (), writer')) :
    ∃ next base signing head,
      StreamedAs writer writer' layout template chunks next base signing head := by
  unfold Stateful.run streamed at h
  have hends := @streamImage_ends R _ answers writer layout template
  generalize hstart : (streamImage answers layout template).run writer = result at h hends
  cases hends with
  | refused fault calls hcalls => cases h
  | broken husable error taken calls hfailed => cases h
  | started next base expected head calls hnext hexpected hheader hhead hworks =>
  dsimp only at h
  obtain ⟨stream, hstream⟩ : ∃ stream : ImageWriter R, stream =
      { writer := { writer.wrote head calls with state := .active }
        header := ⟨base.withTemplate template, writer.sink.position⟩
        expectedSamples := expected, writtenSamples := 0
        bitpix := layout.bitpix, checksum := .new } := ⟨_, rfl⟩
  rw [← hstream] at h
  have husable : stream.writer.ensureUsable = .ok () := by rw [hstream]; rfl
  have hsums : stream.checksum.Sums [] := by rw [hstream]; exact Running.sums_new
  cases hfed : (chunks.forM (ImageWriter.writeChunk answers)).run stream with
  | mk outcome fed =>
  rw [hfed] at h
  cases outcome with
  | error fault => cases h
  | ok fedOk =>
  dsimp only at h
  obtain ⟨sum, more, hlast, htypes, rfl⟩ := ImageWriter.chunks_ok husable hsums hfed
  rw [List.nil_append] at hlast
  have hfinish := @ImageWriter.finish_ends R _ answers { stream with
    writer := stream.writer.wrote (encodeChunks chunks) more, checksum := sum
    writtenSamples := stream.writtenSamples + (chunks.map View.len).sum } fun _ => by
      subst hstream
      exact (Nat.le_add_right _ _).trans (Nat.le_add_right _ _)
  rw [h] at hfinish
  subst hstream
  cases hfinish with
  | done husable hcount dataBytes hbytes writer' hended =>
  dsimp only at hcount hbytes
  rw [Nat.zero_add] at hcount
  have hlength : (encodeChunks chunks).length = dataBytes := by
    rw [length_encodeChunks htypes, hbytes, hcount]
  obtain rfl := hlength
  have hfill : (zeroFill (encodeChunks chunks).length).length = padding (encodeChunks chunks).length :=
    List.length_replicate
  obtain ⟨last, total, hlastSum, htotal, hall⟩ := finish_of_sums hlast hfill
  have hdescribes := describes_imageHeader hheader template
  have hsink : ∀ n, ((writer.sink.wrote head calls).wrote (encodeChunks chunks) more).wrote
      (zeroFill (encodeChunks chunks).length) n = writer.sink.wrote (head ++ (encodeChunks chunks ++
        zeroFill (encodeChunks chunks).length)) (calls + (more + n)) := by
    intro n
    rw [SeekSink.wrote_wrote, SeekSink.wrote_wrote]
  cases hended with
  | unsigned calls' hoff =>
    have hform : writer.form.checksums = .off := hoff
    have hplaceholder : writer.placeholderSigning = .unsigned := by
      rw [placeholderSigning, hform]
    rw [hplaceholder] at hhead
    refine ⟨next, base, .unsigned, head, hnext, hheader, hcount.symm ▸ hexpected, htypes, ?_, hhead,
      ?_, ?_, rfl, rfl⟩
    · rw [HeaderForm.signing, hform]
    · exact congrArg SeekSink.bytes (hsink calls')
    · exact congrArg SeekSink.position (hsink calls')
  | signed hon sum' total' out calls' more' hsum' htotal' hout =>
    have hform : writer.form.checksums = .on := hon
    have hplaceholder : writer.placeholderSigning = .placeholder := by
      rw [placeholderSigning, hform]
    rw [hplaceholder] at hhead
    obtain rfl := Except.ok.inj (hsum'.symm.trans hlastSum)
    obtain rfl := Except.ok.inj (htotal'.symm.trans htotal)
    have hlong : out.length = head.length := Header.length_signed (by simp) (by simp)
      (Header.signedComment_of_value hdescribes.noSum) hhead hout
    have hnonempty : head ≠ [] := by
      obtain ⟨-, -, hblocks⟩ := (Header.renderInto_signed_iff (by simp)).mp ⟨head, hhead, rfl⟩
      rintro rfl
      unfold Header.blockBytes at hblocks
      rw [List.length_nil] at hblocks
      omega
    refine ⟨next, base, _, out, hnext, hheader, hcount.symm ▸ hexpected, htypes, ?_, hout, ?_, ?_,
      rfl, rfl⟩
    · rw [HeaderForm.signing, hform]
      dsimp only
      rw [hall]
      rfl
    · have hbytes := congrArg (fun sink : SeekSink =>
        { sink with position := writer.sink.position }.putAt out) (hsink calls')
      exact hbytes.trans (putAt_again hnonempty hlong)
    · have hposition := congrArg SeekSink.position (hsink calls')
      refine hposition.trans ?_
      show writer.sink.position + _ = _
      simp only [List.length_append, hlong]

end FitsWriter

/-! ## The write of the whole image -/

namespace View

variable (view : View)

/-- The samples from one on in chunks of these counts. -/
def cuts (start : ℕ) : List ℕ → List View
  | [] => []
  | count :: counts => view.part start count :: cuts (start + count) counts

theorem encodeChunks_cuts (start : ℕ) (counts : List ℕ) :
    encodeChunks (view.cuts start counts) = (view.part start counts.sum).encode := by
  induction counts generalizing start with
  | nil => rfl
  | cons count counts ih =>
    have hrest := ih (start + count)
    unfold encodeChunks at hrest ⊢
    rw [cuts, List.map_cons, List.flatten_cons, hrest, List.sum_cons, encode_part_add]

end View

namespace FitsWriter

/-- The stream of an image without samples, in two chunks. -/
def emptyStream : Outcome Unit × FitsWriter :=
  (streamed .work emptyRow.metadata none (emptyRow.samples.cuts 0 [0, 0])).run
    (FitsWriter.new ⟨[], 0, 0⟩)

end FitsWriter

end FitsWell
