import FitsWell.FitsEditor.EditInPlace

/-!
# Edits that copy the file

An editor writes its file to a sink with one header replaced. The header may take more blocks, and
keeps the free records that the old one had in its blocks; all else is copied.
-/

namespace FitsWell

open Header (blockBytes cardsOf)

/-! ## Sinks -/

/-- What a copy is written to: how many bytes it takes, where it fails at some, and whether it
flushes. -/
structure Sink where
  bytes : Text
  room : Option ℕ
  flushes : Bool
  deriving DecidableEq, Repr

namespace Sink

/-- Write bytes: all of them, or those before a failure. -/
def writeAll (out : Text) : Stateful Fault Sink Unit := fun sink =>
  match sink.room with
  | none => (.ok (), { sink with bytes := sink.bytes ++ out })
  | some room =>
    if sink.bytes.length + out.length ≤ room then (.ok (), { sink with bytes := sink.bytes ++ out })
    else (fail .io, { sink with bytes := sink.bytes ++ out.take (room - sink.bytes.length) })

def flush : Stateful Fault Sink Unit := fun sink => (answer sink.flushes, sink)

/-- A sink that does not fail. -/
structure Works (sink : Sink) : Prop where
  room : sink.room = none
  flushes : sink.flushes = true

end Sink

/-! ## Copies -/

/-- The bytes that a copy reads at a time. -/
def copyBuffer : ℕ := 8192

namespace EditedFile

variable (file : EditedFile) (calls : FileCalls)

/-- Copy `limit` bytes from `place` on, or those to the end of the file, in so many reads at most,
with their number. -/
def copyMost : ℕ → ℕ → ℕ → Stateful Fault Sink ℕ
  | 0, _, _ => pure 0
  | reads + 1, place, limit =>
    match calls.read place with
    | some error => Stateful.lift (fail error)
    | none => do
      let bytes := (file.bytes.drop place).take (min limit copyBuffer)
      if bytes.isEmpty then
        pure 0
      else do
        Sink.writeAll bytes
        let rest ← copyMost reads (place + bytes.length) (limit - bytes.length)
        pure (bytes.length + rest)

/-- Copy the `len` bytes from `start` on. -/
def copyRange (start len : ℕ) : Stateful Fault Sink Unit := do
  answer calls.seeks
  -- each read gives a byte at least
  let copied ← file.copyMost calls len start len
  if copied ≠ len then Stateful.lift (fail .unexpectedEof) else pure ()

end EditedFile

variable {R : Type} [RealWords R]

/-- The records of an HDU's blocks that its header leaves free. -/
def freeRecords (target : Hdu R) : Outcome ℕ := do
  let records ← mulUsize target.headerBlocks recordsPerBlock
  let room ← subUsize records 1
  let held ← target.header.renderedRecords
  .ok (room - held)

namespace FitsEditor

/-- Copy an HDU, with another header unit where it is the target. The end of its data unit. -/
def copyHdu (calls : FileCalls) (file : EditedFile) (target : Hdu R) (out : Text) (hdu : Hdu R) :
    Stateful Fault Sink ℕ := do
  let dataEnd ← addUsize hdu.dataOffset hdu.paddedDataBytes
  if hdu.index = target.index then do
    Sink.writeAll out
    file.copyRange calls hdu.dataOffset hdu.paddedDataBytes
  else do
    let len ← subUsize dataEnd hdu.headerOffset
    file.copyRange calls hdu.headerOffset len
  pure dataEnd

/-- Write the file to a sink with the header of an HDU replaced. -/
def replaceHeaderInto (calls : FileCalls) (selector : HduSelector) (header : Header R)
    (editor : FitsEditor R) : Stateful Fault Sink Unit := do
  let target ← editor.hdus.select selector
  checkUnit target header
  let sum ← dataSum calls editor.file target header
  let free ← freeRecords target
  let out ← EditedHeader.render ⟨header, sum⟩ (.spare free)
  let stop ← editor.hdus.hdus.foldlM
    (fun _ hdu => copyHdu calls editor.file target out hdu) 0
  answer calls.sizes
  let rest ← subUsize editor.file.bytes.length stop
  editor.file.copyRange calls stop rest
  Sink.flush

end FitsEditor

/-! ## Calls that work -/

/-- Calls that do not fail. -/
structure FileCalls.Work (calls : FileCalls) : Prop where
  sizes : calls.sizes = true
  seeks : calls.seeks = true
  read : ∀ place, calls.read place = none
  write : calls.write = none
  flushes : calls.flushes = true

section Copies

variable {file : EditedFile} {calls : FileCalls} {sink : Sink} {out : Text}

/-- A sink that works takes what is written to it. -/
def Sink.Took (sink sink' : Sink) (out : Text) : Prop :=
  sink'.Works ∧ sink'.bytes = sink.bytes ++ out

theorem Sink.run_writeAll (h : sink.Works) (out : Text) :
    ∃ sink', (Sink.writeAll out).run sink = (.ok (), sink') ∧ sink.Took sink' out := by
  refine ⟨{ sink with bytes := sink.bytes ++ out }, ?_, ⟨h.room, h.flushes⟩, rfl⟩
  unfold Stateful.run writeAll
  rw [h.room]

theorem Sink.Took.append {sink' sink'' : Sink} {one other : Text} (h : sink.Took sink' one)
    (h' : sink'.Took sink'' other) : sink.Took sink'' (one ++ other) :=
  ⟨h'.1, by rw [h'.2, h.2, List.append_assoc]⟩

theorem Sink.took_nil (h : sink.Works) : sink.Took sink [] := ⟨h, (List.append_nil _).symm⟩

/-- A copy of bytes that the file has copies them all. -/
theorem EditedFile.run_copyMost (hreads : ∀ place, calls.read place = none) {reads place limit : ℕ}
    (hlimit : limit ≤ reads) (hinside : place + limit ≤ file.bytes.length) (h : sink.Works) :
    ∃ sink', (file.copyMost calls reads place limit).run sink = (.ok limit, sink') ∧
      sink.Took sink' ((file.bytes.drop place).take limit) := by
  induction reads generalizing place limit sink with
  | zero =>
    obtain rfl : limit = 0 := by omega
    rw [List.take_zero]
    exact ⟨sink, rfl, Sink.took_nil h⟩
  | succ reads ih =>
    have hbuffer : 0 < copyBuffer := by decide
    obtain ⟨bytes, hbytes⟩ : ∃ bytes,
        bytes = (file.bytes.drop place).take (min limit copyBuffer) := ⟨_, rfl⟩
    have hlength : bytes.length = min limit copyBuffer := by
      rw [hbytes, List.length_take, List.length_drop]
      omega
    rw [copyMost, hreads]
    dsimp only
    rw [← hbytes]
    by_cases hnone : limit = 0
    · subst hnone
      obtain rfl := List.eq_nil_of_length_eq_zero hlength
      rw [List.take_zero]
      exact ⟨sink, rfl, Sink.took_nil h⟩
    · have hsome : ¬bytes.isEmpty := by
        rw [List.isEmpty_iff_length_eq_zero]
        omega
      obtain ⟨between, hwrite, htook⟩ := Sink.run_writeAll h bytes
      obtain ⟨sink', hrest, htook'⟩ := @ih between (place + bytes.length) (limit - bytes.length)
        (by omega) (by omega) htook.1
      have hsplit : limit = bytes.length + (limit - bytes.length) := by omega
      have hwhole : (file.bytes.drop place).take limit =
          bytes ++ (file.bytes.drop (place + bytes.length)).take (limit - bytes.length) := by
        conv_lhs => rw [hsplit]
        rw [List.take_add, List.drop_drop, hlength, ← hbytes]
      refine ⟨sink', ?_, hwhole ▸ htook.append htook'⟩
      rw [if_neg hsome, Stateful.run_bind hwrite, Stateful.run_bind hrest, ← hsplit]
      rfl

theorem EditedFile.run_copyRange (hcalls : calls.Work) {start len : ℕ}
    (hinside : start + len ≤ file.bytes.length) (h : sink.Works) :
    ∃ sink', (file.copyRange calls start len).run sink = (.ok (), sink') ∧
      sink.Took sink' ((file.bytes.drop start).take len) := by
  obtain ⟨sink', hcopy, htook⟩ := run_copyMost hcalls.read le_rfl hinside h
  refine ⟨sink', ?_, htook⟩
  have hseek : (liftM (answer calls.seeks) : Stateful Fault Sink Unit).run sink = (.ok (), sink) := by
    rw [hcalls.seeks]
    rfl
  unfold copyRange
  rw [Stateful.run_bind hseek, Stateful.run_bind hcopy, if_neg (by simp)]
  rfl

end Copies

/-! ## The new header unit -/

namespace EditedHeader

variable {edited : EditedHeader R} {blocks free : ℕ} {out out' : Text}

/-- A header that renders into blocks renders with fewer free records than these hold. -/
theorem render_spare (h : edited.render (.blocks blocks) = .ok out)
    (hfree : free + 1 ≤ blocks * recordsPerBlock) (hroom : 2 * (blocks * blockSize) ≤ isizeMax) :
    ∃ out', edited.render (.spare free) = .ok out' := by
  have hlength := length_render h
  have hrecords : recordsPerBlock = 36 := rfl
  have hblock : blockSize = 2880 := rfl
  -- so many cards, with the free ones, take twice the blocks at most
  have hfits : ∀ {cards spare : ℕ}, blockBytes (cards + spare + 1) = blocks * blockSize →
      blockBytes (cards + free + 1) ≤ isizeMax := by
    intro cards spare hblocks
    refine le_trans ?_ hroom
    unfold blockBytes at hblocks ⊢
    rw [hrecords] at hfree
    rw [hblock] at hblocks ⊢
    omega
  unfold render at h ⊢
  cases hsigning : edited.signing with
  | withDataSum sum =>
    rw [hsigning] at h
    obtain ⟨spare, hspare⟩ := Header.renderInto_blocks h
    obtain ⟨hcards, -, hlen⟩ := (Header.renderInto_signed_iff (by simp)).mp ⟨out, hspare, rfl⟩
    rw [hlength] at hlen
    obtain ⟨out', hout', -⟩ := (Header.renderInto_signed_iff (by simp)).mpr
      ⟨hcards, hfits hlen.symm, rfl⟩
    exact ⟨out', hout'⟩
  | unsigned =>
    rw [hsigning] at h
    obtain ⟨spare, hspare⟩ := Header.renderInto_blocks h
    obtain ⟨cards, hcards, hlaid⟩ := Header.renderInto_unsigned_iff.mp hspare
    have hbytes := Header.length_renders hcards
    obtain ⟨-, rfl⟩ := (Header.layOut_spare_iff hbytes).mp hlaid
    rw [Header.length_layOut hbytes] at hlength
    exact ⟨_, Header.renderInto_unsigned_iff.mpr
      ⟨cards, hcards, (Header.layOut_spare_iff hbytes).mpr ⟨hfits hlength, rfl⟩⟩⟩
  | placeholder =>
    unfold signing at hsigning
    split at hsigning <;> cases hsigning

/-- The header that a render writes: one that is signed carries the sum, and a checksum. -/
def plain (edited : EditedHeader R) (value : Text) : Header R :=
  match edited.dataSum with
  | some sum => edited.header.carrying (UInt32.ofNat sum) value
  | none => edited.header

/-- A unit holds the records of a header, and a checksum of sixteen digits and letters where that
is signed. -/
def Holds (edited : EditedHeader R) (out : Text) : Prop :=
  ∃ value spare, value.length = 16 ∧ value.all Checksum.isAlphanumeric = true ∧
    (edited.plain value).renderInto .unsigned (.spare spare) = .ok out

theorem holds_render {space : Space} (h : edited.render space = .ok out)
    (hspace : ∀ {header : Header R} {signing : Signing}, header.renderInto signing space = .ok out →
      ∃ spare, header.renderInto signing (.spare spare) = .ok out) : edited.Holds out := by
  cases hsum : edited.dataSum with
  | some sum =>
    rw [render, signing, hsum] at h
    obtain ⟨value, _, _, _, hlength, halpha, hplain, -⟩ := Header.renderInto_withDataSum h
    obtain ⟨spare, hspare⟩ := hspace hplain
    refine ⟨value, spare, hlength, halpha, ?_⟩
    rw [plain, hsum]
    exact hspare
  | none =>
    rw [render, signing, hsum] at h
    obtain ⟨spare, hspare⟩ := hspace h
    refine ⟨Checksum.placeholder, spare, by decide, by decide, ?_⟩
    rw [plain, hsum]
    exact hspare

end EditedHeader

/-! ## The file in parts -/

section Parts

variable {file : EditedFile} {calls : FileCalls} {source : Source} {index offset : ℕ}
  {hdus : List (Hdu R)}

theorem Source.HoldsHdu.lies {hdu : Hdu R} (h : (file.source calls).HoldsHdu index offset hdu) :
    FitsEditor.Lies file index hdu where
  index := h.place
  dataOffset := by rw [h.dataOffset, h.headerOffset]
  inside := h.dataOffset.symm ▸ h.unit.inside
  blocks := h.unit.pos
  padded := h.padded.2.2

/-- HDUs that lie one after another are the bytes from the first to the end of the last. -/
theorem Source.Holds.flatten (h : (file.source calls).Holds index offset hdus) :
    offset ≤ hdus.foldl (fun _ hdu => hdu.stop) offset ∧
      (hdus.map file.hduBytes).flatten = (file.bytes.drop offset).take
        (hdus.foldl (fun _ hdu => hdu.stop) offset - offset) := by
  induction hdus generalizing index offset with
  | nil => exact ⟨le_rfl, by rw [List.foldl_nil, Nat.sub_self, List.take_zero]; rfl⟩
  | cons first rest ih =>
    obtain ⟨hfirst, hrest⟩ := h
    obtain ⟨hle, hflat⟩ := ih hrest
    have hstop : first.stop = offset + (first.headerBlocks * blockSize + first.paddedDataBytes) := by
      rw [Hdu.stop, hfirst.dataOffset, Nat.add_assoc]
    rw [List.foldl_cons]
    refine ⟨by omega, ?_⟩
    have hsplit : rest.foldl (fun _ hdu => hdu.stop) first.stop - offset =
        (first.headerBlocks * blockSize + first.paddedDataBytes) +
          (rest.foldl (fun _ hdu => hdu.stop) first.stop - first.stop) := by omega
    rw [List.map_cons, List.flatten_cons, hflat, hsplit, List.take_add, List.drop_drop, ← hstop,
      EditedFile.hduBytes, hfirst.headerOffset]

end Parts

namespace FitsEditor

variable {file : EditedFile} {calls : FileCalls} {sink : Sink} {target : Hdu R} {out : Text}
  {hdus : List (Hdu R)}

/-- What a copy writes of an HDU. -/
def piece (file : EditedFile) (target : Hdu R) (out : Text) (hdu : Hdu R) : Text :=
  if hdu.index = target.index then out ++ file.dataUnit hdu else file.hduBytes hdu

omit [RealWords R] in
theorem run_copyHdu (hcalls : calls.Work) {hdu : Hdu R} {index : ℕ} (hlies : Lies file index hdu)
    (hwhole : hdu.stop ≤ file.bytes.length) (h : sink.Works) :
    ∃ sink', (copyHdu calls file target out hdu).run sink = (.ok hdu.stop, sink') ∧
      sink.Took sink' (piece file target out hdu) := by
  have hsized := file.sized
  have hend : (liftM (addUsize hdu.dataOffset hdu.paddedDataBytes) : Stateful Fault Sink ℕ).run sink =
      (.ok hdu.stop, sink) := by
    rw [addUsize_of_le (hwhole.trans hsized)]
    rfl
  unfold copyHdu piece
  rw [Stateful.run_bind hend]
  by_cases htarget : hdu.index = target.index
  · obtain ⟨between, hunit, htook⟩ := Sink.run_writeAll h out
    obtain ⟨sink', hdata, htook'⟩ := EditedFile.run_copyRange hcalls hwhole htook.1
    refine ⟨sink', ?_, ?_⟩
    · rw [if_pos htarget, Stateful.run_bind hunit, Stateful.run_bind hdata]
      rfl
    · rw [if_pos htarget]
      exact htook.append htook'
  · have hlen : hdu.headerOffset ≤ hdu.stop := by
      rw [Hdu.stop, hlies.dataOffset, Nat.add_assoc]
      exact Nat.le_add_right _ _
    have hplace : hdu.headerOffset + (hdu.stop - hdu.headerOffset) ≤ file.bytes.length := by omega
    have hsub : (liftM (subUsize hdu.stop hdu.headerOffset) : Stateful Fault Sink ℕ).run sink =
        (.ok (hdu.stop - hdu.headerOffset), sink) := by
      rw [subUsize_of_le hlen]
      rfl
    obtain ⟨sink', hcopy, htook⟩ := EditedFile.run_copyRange hcalls hplace h
    have hwidth : hdu.stop - hdu.headerOffset =
        hdu.headerBlocks * blockSize + hdu.paddedDataBytes := by
      rw [Hdu.stop, hlies.dataOffset]
      omega
    refine ⟨sink', ?_, ?_⟩
    · rw [if_neg htarget, Stateful.run_bind hsub, Stateful.run_bind hcopy]
      rfl
    · rw [if_neg htarget, EditedFile.hduBytes, ← hwidth]
      exact htook

omit [RealWords R] in
/-- A copy of whole HDUs writes each in turn. -/
theorem run_copyHdus (hcalls : calls.Work)
    (hlies : ∀ hdu ∈ hdus, Lies file hdu.index hdu ∧ hdu.stop ≤ file.bytes.length) (stop : ℕ)
    (h : sink.Works) :
    ∃ sink', (hdus.foldlM (fun _ hdu => copyHdu calls file target out hdu) stop).run sink =
        (.ok (hdus.foldl (fun _ hdu => hdu.stop) stop), sink') ∧
      sink.Took sink' (hdus.map (piece file target out)).flatten := by
  induction hdus generalizing stop sink with
  | nil => exact ⟨sink, rfl, Sink.took_nil h⟩
  | cons hdu hdus ih =>
    obtain ⟨hfirst, hwhole⟩ := hlies hdu List.mem_cons_self
    obtain ⟨between, hcopy, htook⟩ := @run_copyHdu _ _ _ _ target out hcalls _ _ hfirst hwhole h
    obtain ⟨sink', hrest, htook'⟩ := ih (fun other hother =>
      hlies other (List.mem_cons_of_mem hdu hother)) hdu.stop htook.1
    refine ⟨sink', ?_, htook.append htook'⟩
    rw [List.foldlM_cons, Stateful.run_bind hcopy]
    exact hrest

/-! ## The copy -/

/-- A file of HDUs one after another with the header unit of one replaced. -/
theorem flatten_pieces (hholds : (file.source calls).Holds 0 0 hdus) (hmem : target ∈ hdus)
    (hindexed : ∀ i (hdu : Hdu R), hdus[i]? = some hdu → hdu.index = i)
    (hstop : hdus.foldl (fun _ hdu => hdu.stop) 0 ≤ file.bytes.length) :
    (hdus.map (piece file target out)).flatten ++
        file.bytes.drop (hdus.foldl (fun _ hdu => hdu.stop) 0) =
      file.bytes.take target.headerOffset ++ out ++ file.bytes.drop target.dataOffset := by
  obtain ⟨before, after, rfl⟩ := List.append_of_mem hmem
  have htarget : target.index = before.length :=
    hindexed _ _ (by rw [List.getElem?_append_right le_rfl, Nat.sub_self]; rfl)
  have hother : ∀ hdu ∈ before ++ after, hdu.index ≠ target.index := by
    intro hdu hhdu
    rw [htarget]
    rcases List.mem_append.mp hhdu with hbefore | hafter
    · obtain ⟨i, hi⟩ := List.mem_iff_getElem?.mp hbefore
      obtain ⟨hlt, -⟩ := List.getElem?_eq_some_iff.mp hi
      rw [hindexed i hdu (by rwa [List.getElem?_append_left hlt])]
      omega
    · obtain ⟨i, hi⟩ := List.mem_iff_getElem?.mp hafter
      rw [hindexed (before.length + 1 + i) hdu (by
        rw [List.getElem?_append_right (by omega), ← hi, Nat.add_assoc, Nat.add_sub_cancel_left,
          Nat.add_comm 1 i, List.getElem?_cons_succ])]
      omega
  have hcopied : ∀ part : List (Hdu R), (∀ hdu ∈ part, hdu ∈ before ++ after) →
      part.map (piece file target out) = part.map file.hduBytes := by
    intro part hpart
    refine List.map_congr_left fun hdu hhdu => ?_
    rw [piece, if_neg (hother hdu (hpart hdu hhdu))]
  obtain ⟨hbefore, hrest⟩ := hholds.split
  obtain ⟨hheld, hafter⟩ := hrest
  obtain ⟨-, hfront⟩ := hbefore.flatten
  obtain ⟨hle, hback⟩ := hafter.flatten
  rw [hheld.headerOffset.symm, List.drop_zero, Nat.sub_zero] at hfront
  rw [List.foldl_append, List.foldl_cons] at hstop ⊢
  rw [List.map_append, List.map_cons, hcopied before (fun _ h => List.mem_append_left _ h),
    hcopied after (fun _ h => List.mem_append_right _ h), List.flatten_append, List.flatten_cons,
    hfront, hback, piece, if_pos rfl, EditedFile.dataUnit]
  have hend : file.bytes.drop (after.foldl (fun _ hdu => hdu.stop) target.stop) =
      (file.bytes.drop target.stop).drop
        (after.foldl (fun _ hdu => hdu.stop) target.stop - target.stop) := by
    rw [List.drop_drop, Nat.add_sub_cancel' hle]
  have hunit : file.bytes.drop target.stop = (file.bytes.drop target.dataOffset).drop
      target.paddedDataBytes := by rw [List.drop_drop, Hdu.stop]
  rw [hend]
  simp only [List.append_assoc]
  rw [List.take_append_drop, hunit, List.take_append_drop]

section Whole

variable {editor editor' : FitsEditor R} {opening : FileCalls} {selector : HduSelector}
  {header : Header R} {held : ℕ} (hopen : openFile opening file = .ok editor)
  (hwhole : ∀ hdu ∈ editor.hdus.hdus, hdu.stop ≤ file.bytes.length) (hcalls : calls.Work)
  (hedit : (replaceHeader calls selector header).run editor = (.ok (), editor'))
  (hselect : editor.hdus.select selector = .ok target)
  (hheld : target.header.renderedRecords = .ok held)
  (hroom : 2 * (target.headerBlocks * blockSize) ≤ isizeMax) (hsink : sink.Works)
include hopen hwhole hcalls hedit hselect hheld hroom hsink

/-- The two edits of a whole file, where the one in place returns and the old header renders. -/
theorem run_replaceHeaderInto : ∃ sum inPlace out sink',
    dataSum calls file target header = .ok sum ∧
      EditedHeader.render ⟨header, sum⟩ (.blocks target.headerBlocks) = .ok inPlace ∧
      (editor'.file.bytes.drop target.headerOffset).take (target.headerBlocks * blockSize) = inPlace ∧
      EditedHeader.render ⟨header, sum⟩
        (.spare (target.headerBlocks * recordsPerBlock - 1 - held)) = .ok out ∧
      (replaceHeaderInto calls selector header editor).run sink = (.ok (), sink') ∧
      sink'.bytes = sink.bytes ++
        (file.bytes.take target.headerOffset ++ out ++ file.bytes.drop target.dataOffset) := by
  have hplaced := placed_openFile hopen
  have hmem := Hdus.mem_of_select hselect
  obtain ⟨_, -, hopened⟩ := Loops.ok_of_bind hopen
  obtain ⟨hdus, hscan, hopened⟩ := Loops.ok_of_bind hopened
  obtain rfl := Except.ok.inj hopened
  have hholds := @scanFrom_holds _ _ _ _ [] _ trivial (Nat.zero_min _).symm hscan
  dsimp only at hwhole hmem hselect
  have hends := @replaceHeader_ends _ _ _ calls selector header hplaced
  rw [hedit] at hends
  cases hends with
  | @done inPlace hdu hunit file' hfile =>
    obtain ⟨found, sum, hfound, hcheck, hsum, hrender, hreplaces⟩ := editedUnit_ok hplaced hunit
    obtain rfl := Except.ok.inj (hselect.symm.trans hfound)
    dsimp only at hsum hreplaces hfile
    have hlies := hreplaces.lies
    have hrecords : recordsPerBlock = 36 := rfl
    have hblock : blockSize = 2880 := rfl
    have hblocks := hlies.blocks
    have hword : isizeMax < usizeMax := by decide
    -- the free records of the old header, and the new header with as many
    obtain ⟨free, hfree⟩ : ∃ free, free = target.headerBlocks * recordsPerBlock - 1 - held := ⟨_, rfl⟩
    have hfreeOk : freeRecords target = .ok free := by
      unfold freeRecords
      rw [Loops.bind_ok (mulUsize_of_le (by rw [hrecords]; rw [hblock] at hroom; omega)),
        Loops.bind_ok (subUsize_of_le (by rw [hrecords]; omega)), Loops.bind_ok hheld, hfree]
    obtain ⟨out, hout⟩ := @EditedHeader.render_spare _ _ _ _ free _ hrender
      (by rw [hfree, hrecords]; omega) hroom
    -- the copy of every HDU, and of what follows them
    obtain ⟨stop, hstop⟩ : ∃ stop, stop = hdus.hdus.foldl (fun _ hdu => hdu.stop) 0 := ⟨_, rfl⟩
    have hlast : stop ≤ file.bytes.length := by
      rw [hstop]
      rcases List.eq_nil_or_concat' hdus.hdus with hnil | ⟨front, last, hall⟩
      · rw [hnil] at hmem
        cases hmem
      · rw [hall, List.foldl_append]
        exact hwhole last (by rw [hall]; exact List.mem_append_right _ List.mem_cons_self)
    have hall : ∀ hdu ∈ hdus.hdus, Lies file hdu.index hdu ∧ hdu.stop ≤ file.bytes.length := by
      intro other hother
      obtain ⟨i, hi⟩ := List.mem_iff_getElem?.mp hother
      have hother' := hplaced i other hi
      exact ⟨hother'.index.symm ▸ hother', hwhole other hother⟩
    obtain ⟨between, hcopied, htook⟩ :=
      @run_copyHdus _ _ _ _ target out _ hcalls hall 0 hsink
    rw [← hstop] at hcopied
    obtain ⟨sink', hrest, htook'⟩ := @EditedFile.run_copyRange file _ _ hcalls stop
      (file.bytes.length - stop) (by omega) htook.1
    have hparts := @flatten_pieces _ _ _ _ _ out _ hholds hmem (fun i other hother =>
      (hplaced i other hother).index) (hstop ▸ hlast)
    refine ⟨sum, inPlace, out, sink', hsum, hrender, ?_, hfree ▸ hout, ?_, ?_⟩
    · rw [hfile, ← hreplaces.headerOffset, drop_overwrite hreplaces.inside, ← hreplaces.length,
        List.take_left' rfl]
    · have hflush : Sink.flush.run sink' = (.ok (), sink') := by
        unfold Stateful.run Sink.flush
        rw [htook'.1.flushes]
        rfl
      have hsizes : answer calls.sizes = .ok () := by
        rw [hcalls.sizes]
        rfl
      unfold replaceHeaderInto
      rw [Stateful.run_liftM_bind hselect, Stateful.run_liftM_bind hcheck]
      dsimp only
      rw [Stateful.run_liftM_bind hsum, Stateful.run_liftM_bind hfreeOk,
        Stateful.run_liftM_bind hout, Stateful.run_bind hcopied, Stateful.run_liftM_bind hsizes,
        Stateful.run_liftM_bind (subUsize_of_le hlast), Stateful.run_bind hrest, hflush]
    · rw [htook'.2, htook.2, List.append_assoc, ← hparts, ← hstop]
      congr 2
      exact List.take_of_length_le (by rw [List.length_drop])

/-- A copying edit of a whole file, where an edit in place returns and the old header renders,
returns too. It writes the file with the header unit replaced by one that holds the records of the
unit that the edit in place leaves, with another number of free ones, and where it is signed with a
checksum of its own. -/
theorem replace_header_into_copies :
    ∃ sum out sink', (replaceHeaderInto calls selector header editor).run sink = (.ok (), sink') ∧
      sink'.bytes = sink.bytes ++
        (file.bytes.take target.headerOffset ++ out ++ file.bytes.drop target.dataOffset) ∧
      EditedHeader.Holds ⟨header, sum⟩ out ∧
      EditedHeader.Holds ⟨header, sum⟩ ((editor'.file.bytes.drop target.headerOffset).take
        (target.headerBlocks * blockSize)) := by
  obtain ⟨sum, inPlace, out, sink', -, hrender, hunit, hout, hrun, hbytes⟩ :=
    run_replaceHeaderInto hopen hwhole hcalls hedit hselect hheld hroom hsink
  refine ⟨sum, out, sink', hrun, hbytes, EditedHeader.holds_render hout fun h => ⟨_, h⟩, ?_⟩
  rw [hunit]
  exact EditedHeader.holds_render hrender Header.renderInto_blocks

end Whole

/-! ## A signed header, edited both ways -/

theorem works_workingCalls : workingCalls.Work := ⟨rfl, rfl, fun _ => rfl, rfl, rfl⟩

/-- An empty sink that works. -/
def emptySink : Sink := ⟨[], none, true⟩

omit [RealWords R] in
theorem whole_emptyEditor (header : Header R) (sum : ℕ) :
    ∀ hdu ∈ (emptyEditor header sum).hdus.hdus, hdu.stop ≤ emptyPrimary.bytes.length := by
  intro hdu hhdu
  rw [List.mem_singleton.mp hhdu, length_emptyPrimary]
  exact le_rfl

theorem replace_header_into_copies_noted : ∃ (editor editor' : FitsEditor ℤ) (sink' : Sink),
    openFile workingCalls emptyPrimary = .ok editor ∧
      (replaceHeader workingCalls (.index 0) notedPrimary).run editor = (.ok (), editor') ∧
      (replaceHeaderInto workingCalls (.index 0) notedPrimary editor).run emptySink = (.ok (), sink') := by
  obtain ⟨header, sum, hheld, hopen⟩ := openFile_emptyPrimary
  obtain ⟨editor', hrun⟩ := notedPrimary_edits header sum
  obtain ⟨_, _, sink', hcopy, -⟩ := replace_header_into_copies hopen (whole_emptyEditor header sum)
    works_workingCalls hrun rfl hheld (by decide : 2 * (1 * blockSize) ≤ isizeMax)
    (⟨rfl, rfl⟩ : emptySink.Works)
  exact ⟨_, editor', sink', hopen, hrun, hcopy⟩

/-- A header with a data sum and a checksum of its own. -/
def signedPrimary : Header ℤ := Header.ofRecords
  [.valued .SIMPLE (.logical true) none, .valued .BITPIX (.ofInt 8) none,
    .valued .NAXIS (.ofInt 0) none,
    .valued .DATASUM (.text (ascii "0")) none, .valued .CHECKSUM (.text []) none]

/-- A signed render, with the sum of its unit in closed form. -/
theorem toOption_renderInto {header : Header R} {sum : UInt32} {space : Space} :
    (header.renderInto (.withDataSum sum) space).toOption =
      (header.renderRecords (.withDataSum sum)).toOption.bind fun rendered =>
        (Header.layOut space rendered.out).toOption.bind fun base =>
          rendered.checksumAt.elim (some base) fun start =>
            (Checksum.encode (Checksum.combine (OnesComplement.rep Checksum.allOnes
              (OnesComplement.total 0 base)) sum.toNat) >>= fun value =>
                copySlice base (start + 11) value 0 16).toOption := by
  have hbind : ∀ {α β : Type} (value : α) (next : α → Option β),
      (Except.ok value : Outcome α).toOption.bind next = next value := fun _ _ => rfl
  unfold Header.renderInto
  cases header.renderRecords (.withDataSum sum) with
  | error fault => rfl
  | ok rendered =>
    rw [Loops.bind_ok rfl, hbind]
    cases hbase : Header.layOut space rendered.out with
    | error fault => rfl
    | ok base =>
      have hwhole : base.length % 4 = 0 := by
        have hblock : base.length % 2880 = 0 := (Header.layOut_ok hbase).1
        omega
      rw [Loops.bind_ok rfl, hbind, Header.writeChecksum.eq_def]
      cases rendered.checksumAt with
      | none => rfl
      | some start =>
        dsimp only
        rw [Loops.bind_ok (Checksum.accumulate_eq hwhole (Nat.zero_le _)), Nat.zero_add]
        rfl

/-- What follows the records of a unit is blank, but for the three letters of its end. -/
theorem blank_of_layOut {spare records i : ℕ} {bytes out : Text}
    (hbytes : bytes.length = cardSize * records) (h : Header.layOut (.spare spare) bytes = .ok out)
    (hi : bytes.length ≤ i) (hcolumn : 3 ≤ i % 80) (hlt : i < out.length) :
    out[i]? = some FitsWell.space := by
  have hcard : cardSize = 80 := rfl
  have hword : (ascii "END").length = 3 := by decide
  have hend : padTo cardSize (ascii "END") = ascii "END" ++ List.replicate 77 FitsWell.space := by
    decide
  obtain ⟨-, rfl⟩ := (Header.layOut_spare_iff hbytes).mp h
  rw [Header.fillBlock, hend] at hlt ⊢
  simp only [List.length_append, List.length_replicate, hword] at hlt
  simp only [List.getElem?_append, List.getElem?_replicate, List.length_append,
    List.length_replicate, hword]
  rw [hcard] at hbytes hlt ⊢
  split_ifs <;> first | rfl | omega

/-- No header renders to both of two units whose bytes differ past their records' ends. -/
theorem no_common_header {one other : Text} {byte byte' : UInt8} {i : ℕ} (hi : one[i]? = some byte)
    (hi' : other[i]? = some byte') (hne : byte ≠ byte') (hcolumn : 3 ≤ i % 80)
    (hbyte : byte ≠ FitsWell.space) :
    ¬∃ (plain : Header R) (spare spare' : ℕ),
      plain.renderInto .unsigned (.spare spare) = .ok one ∧
        plain.renderInto .unsigned (.spare spare') = .ok other := by
  rintro ⟨plain, spare, spare', hone, hother⟩
  obtain ⟨cards, hcards, hlaid⟩ := Header.renderInto_unsigned_iff.mp hone
  obtain ⟨cards', hcards', hlaid'⟩ := Header.renderInto_unsigned_iff.mp hother
  have hrendered := (Header.renderRecords_unsigned _ _).mpr ⟨cards, hcards, rfl⟩
  have hrendered' := (Header.renderRecords_unsigned _ _).mpr ⟨cards', hcards', rfl⟩
  have hsame : cards.flatten = cards'.flatten :=
    congrArg Rendered.out (Except.ok.inj (hrendered.symm.trans hrendered'))
  have hbytes := Header.length_renders hcards
  rw [← hsame] at hlaid'
  obtain ⟨hlt, -⟩ := List.getElem?_eq_some_iff.mp hi
  rcases Nat.lt_or_ge i cards.flatten.length with hinside | hafter
  · obtain ⟨-, tail, rfl, -⟩ := Header.layOut_ok hlaid
    obtain ⟨-, tail', rfl, -⟩ := Header.layOut_ok hlaid'
    rw [List.getElem?_append_left hinside] at hi hi'
    exact hne (Option.some.inj (hi.symm.trans hi'))
  · rw [blank_of_layOut hbytes hlaid hafter hcolumn hlt] at hi
    exact hbyte (Option.some.inj hi).symm

/-- The same header edited both ways: the copy has a block more, and so another checksum. -/
theorem copied_checksum_differs : ∃ (editor editor' : FitsEditor ℤ) (sink' : Sink),
    openFile workingCalls emptyPrimary = .ok editor ∧
      (replaceHeader workingCalls (.index 0) signedPrimary).run editor = (.ok (), editor') ∧
      (replaceHeaderInto workingCalls (.index 0) signedPrimary editor).run emptySink =
        (.ok (), sink') ∧
      ¬∃ (plain : Header ℤ) (spare spare' : ℕ),
        plain.renderInto .unsigned (.spare spare) = .ok editor'.file.bytes ∧
          plain.renderInto .unsigned (.spare spare') = .ok sink'.bytes := by
  have hinPlace : (signedPrimary.renderInto (.withDataSum 0) (.blocks 1)).toOption.map (fun out =>
      (out[331]?, (Hdu.parse 0 ⟨out, 0, 0⟩ : Outcome (Hdu ℤ)).toOption.isSome)) =
        some (some 66, true) := by
    rw [toOption_renderInto]
    decide +kernel
  have hcopied : (signedPrimary.renderInto (.withDataSum 0) (.spare 32)).toOption.map (fun out =>
      out[331]?) = some (some 108) := by
    rw [toOption_renderInto]
    decide +kernel
  have hdeclared : (Declared.read signedPrimary).hasChecksum = true ∧
      (Declared.read signedPrimary).dataSum = some 0 := by decide +kernel
  have hsum : ∀ hdu, dataSum workingCalls emptyPrimary hdu signedPrimary = .ok (some 0) := fun hdu => by
    rw [dataSum_eq (by simp [hdeclared.2]), hdeclared.1, if_pos rfl, hdeclared.2]
  obtain ⟨header, sum, hheld, hopen⟩ := openFile_emptyPrimary
  cases hrender : signedPrimary.renderInto (.withDataSum 0) (.blocks 1) with
  | error fault =>
    rw [hrender] at hinPlace
    cases hinPlace
  | ok inPlace =>
    rw [hrender] at hinPlace
    obtain ⟨hbyte, hparse⟩ := Prod.mk.inj (Option.some.inj hinPlace)
    obtain ⟨editor', hrun, hfile⟩ := @replaceHeader_emptyPrimary signedPrimary header sum (some 0)
      inPlace (by decide +kernel) (by decide +kernel) hsum hrender hparse
    obtain ⟨declared, _, out, sink', hfound, -, -, hout, hcopy, hbytes⟩ :=
      run_replaceHeaderInto hopen (whole_emptyEditor header sum) works_workingCalls hrun rfl hheld
        (by decide : 2 * (1 * blockSize) ≤ isizeMax) (⟨rfl, rfl⟩ : emptySink.Works)
    obtain rfl := Except.ok.inj ((hsum _).symm.trans hfound)
    have hcopy' : signedPrimary.renderInto (.withDataSum 0) (.spare 32) = .ok out := hout
    rw [hcopy'] at hcopied
    have hwhole : sink'.bytes = out := by
      have hend : emptyPrimary.bytes.drop 2880 = [] := List.drop_of_length_le length_emptyPrimary.le
      rw [hbytes]
      dsimp only [emptySink]
      rw [List.take_zero, hend, List.append_nil]
      rfl
    refine ⟨_, editor', sink', hopen, hrun, hcopy, ?_⟩
    rw [hfile, hwhole]
    exact no_common_header hbyte (Option.some.inj hcopied) (by decide) (by decide) (by decide)

end FitsEditor

end FitsWell
