import FitsWell.Library.Bytes
import FitsWell.Library.Transpose
import FitsWell.Usize

/-!
# `GZIP_1` and `GZIP_2`

A gzip stream is one member: a header, deflate data, and a trailer of the CRC-32 and the
size. `GZIP_2` lays the bytes of its samples out in planes first, the most significant bytes
of all samples before the next ones.

The deflate data and the CRC-32 are another crate's, and a parameter here.
-/

namespace FitsWell.Gzip

open Bytes Transpose

/-! ## The deflate crate -/

/-- What a call of an inflate state gives: the bytes, the input it took, and whether the
deflate data ended. -/
structure Inflated where
  out : List UInt8
  consumed : ℕ
  ended : Bool
  deriving DecidableEq, Repr

/-- The functions of the deflate crate. -/
structure Flate where
  /-- The whole deflate data that compressing bytes at a level writes. -/
  deflate : ℕ → List UInt8 → List UInt8
  /-- Inflate from the start of a deflate stream into a buffer of `room` bytes. -/
  inflate : List UInt8 → ℕ → Option Inflated
  crc : List UInt8 → UInt32

/-- Deflate data inflates to the bytes it was made of, in a buffer with room past them,
whatever follows it. -/
def Flate.Inverse (flate : Flate) : Prop :=
  ∀ (level : ℕ) (raw rest : List UInt8) (room : ℕ), raw.length < room →
    flate.inflate (flate.deflate level raw ++ rest) room =
      some ⟨raw, (flate.deflate level raw).length, true⟩

/-! ## The shuffle -/

/-- The bytes of samples `width` wide as significance planes: byte `p` of sample `i` goes to
place `i` of plane `p`. Bytes past whole samples become zeros. -/
def shuffleBytes (raw : List UInt8) (width : ℕ) : List UInt8 :=
  if width ≤ 1 then raw
  else
    let n := raw.length / width
    transpose 0 n width raw ++ List.replicate (raw.length - n * width) 0

/-- The samples whose byte `p` is plane `p`. -/
def interleave (width : ℕ) (planes : List UInt8) : List UInt8 :=
  let n := planes.length / width
  transpose 0 width n planes ++ List.replicate (planes.length - n * width) 0

/-- Gather the planes back into samples. -/
def unshuffleBytes (shuffled : List UInt8) (width : ℕ) : List UInt8 :=
  if width = 2 ∨ width = 4 ∨ width = 8 then interleave width shuffled else shuffled

/-! ## Members -/

/-- The 10-byte header of a member. -/
def memberHeader (level : ℕ) : List UInt8 :=
  [0x1f, 0x8b, 8, 0, 0, 0, 0, 0, if 9 ≤ level then 2 else if level ≤ 1 then 4 else 0, 255]

variable (flate : Flate)

/-- The member of bytes. -/
def member (level : ℕ) (raw : List UInt8) : List UInt8 :=
  memberHeader level ++ flate.deflate level raw ++
    (leBytes 4 (flate.crc raw).toNat ++ leBytes 4 raw.length)

/-- A header that is not a member's. -/
def headerError {α : Type} : Outcome α := fail (.corruptCompressedData .gzipHeader)

/-- Past the extra field, where the flags announce one. -/
def skipExtra (stream : List UInt8) (flags : UInt8) (pos : ℕ) : Outcome ℕ :=
  if flags &&& 0x04 = 0 then .ok pos
  else if pos + 2 ≤ stream.length then .ok (pos + 2 + ofLeBytes ((stream.drop pos).take 2))
  else headerError

/-- Past a name or a comment, where the flags announce one: up to its zero. -/
def skipText (stream : List UInt8) (flags mask : UInt8) (pos : ℕ) : Outcome ℕ :=
  if flags &&& mask = 0 then .ok pos
  else
    match (stream.drop pos).findIdx? (· == 0) with
    | some stop => .ok (pos + stop + 1)
    | none => headerError

/-- Past the header CRC, where the flags announce one, which is checked. -/
def skipHeaderCrc (stream : List UInt8) (flags : UInt8) (pos : ℕ) : Outcome ℕ :=
  if flags &&& 0x02 = 0 then .ok pos
  else if pos + 2 ≤ stream.length then
    if ofLeBytes ((stream.drop pos).take 2) = (flate.crc (stream.take pos)).toNat % 2 ^ 16 then
      .ok (pos + 2)
    else headerError
  else headerError

/-- The deflate data of a member and what follows it. -/
def memberBody (stream : List UInt8) : Outcome (List UInt8) :=
  if 10 ≤ stream.length ∧ stream.take 3 = [0x1f, 0x8b, 8] then
    let flags := stream.getD 3 0
    if flags &&& 0xE0 ≠ 0 then headerError
    else do
      let extra ← skipExtra stream flags 10
      let name ← skipText stream flags 0x08 extra
      let comment ← skipText stream flags 0x10 name
      let start ← skipHeaderCrc flate stream flags comment
      if start ≤ stream.length then .ok (stream.drop start) else headerError
  else headerError

/-- The bytes reserved to inflate `expected` ones: one past them. -/
def room (expected : ℕ) : ℕ := min (expected + 1) usizeMax

/-- Check what a member's data inflated to against its trailer and its size. -/
def checkInflated (body : List UInt8) (expected : ℕ) (inflated : Inflated) :
    Outcome (List UInt8) :=
  let trailer := (body.drop inflated.consumed).take 8
  if expected < inflated.out.length then fail (.corruptCompressedData .gzipOverrun)
  else if inflated.ended = false then fail (.corruptCompressedData .gzipTruncated)
  else if trailer.length ≠ 8 then fail (.corruptCompressedData .gzipTruncated)
  else if ofLeBytes (trailer.take 4) ≠ (flate.crc inflated.out).toNat ∨
      ofLeBytes (trailer.drop 4) ≠ inflated.out.length % 2 ^ 32 then
    fail (.corruptCompressedData .gzipChecksum)
  else if inflated.out.length ≠ expected then
    fail (SizeUnit.bytes.mismatch expected inflated.out.length)
  else .ok inflated.out

/-- Inflate a member to its `expected` bytes, into a buffer that holds `capacity` ones
before it is grown. -/
def gunzip (stream : List UInt8) (expected capacity : ℕ) : Outcome (List UInt8) := do
  let body ← memberBody flate stream
  tryReserveExact 0 (room expected)
  match flate.inflate body (max capacity (room expected)) with
  | none => fail (.corruptCompressedData .gzipStream)
  | some inflated => checkInflated flate body expected inflated

/-! ## The codec -/

/-- A gzip stream's parameters: the deflate level, and the width of its samples for `GZIP_2`,
1 for `GZIP_1`. -/
structure Codec where
  level : ℕ
  shuffle : ℕ
  deriving DecidableEq, Repr

/-- The stream of the big-endian samples `raw`. -/
def Codec.encode (codec : Codec) (raw : List UInt8) : List UInt8 :=
  member flate codec.level (if codec.shuffle ≤ 1 then raw else shuffleBytes raw codec.shuffle)

/-- The `expected` bytes of a stream. -/
def Codec.decode (codec : Codec) (bytes : List UInt8) (expected capacity : ℕ) :
    Outcome (List UInt8) :=
  if codec.shuffle ≤ 1 then gunzip flate bytes expected capacity
  else do
    let reordered ← gunzip flate bytes expected capacity
    .ok (unshuffleBytes reordered codec.shuffle)

/-! ## Round trips -/

@[simp] theorem length_shuffleBytes (raw : List UInt8) (width : ℕ) :
    (shuffleBytes raw width).length = raw.length := by
  have hwhole := Nat.div_mul_le_self raw.length width
  unfold shuffleBytes
  split
  · rfl
  · rw [List.length_append, length_transpose, List.length_replicate]
    exact Nat.add_sub_cancel' hwhole

/-- The planes of whole samples gather back into them. -/
theorem unshuffle_shuffle {raw : List UInt8} {width n : ℕ}
    (hwidth : width = 2 ∨ width = 4 ∨ width = 8) (h : raw.length = n * width) :
    unshuffleBytes (shuffleBytes raw width) width = raw := by
  have hpos : 0 < width := by omega
  have hcount : raw.length / width = n := by rw [h, Nat.mul_div_cancel _ hpos]
  have hplanes : shuffleBytes raw width = transpose 0 n width raw := by
    rw [shuffleBytes, if_neg (by omega)]
    dsimp only
    rw [hcount, h, Nat.sub_self, List.replicate_zero, List.append_nil]
  have hlength : (transpose 0 n width raw).length = n * width := length_transpose 0 n width raw
  rw [unshuffleBytes, if_pos hwidth, hplanes, interleave, hlength, Nat.mul_div_cancel _ hpos, Nat.sub_self, List.replicate_zero, List.append_nil]
  exact transpose_transpose 0 h

variable {flate}

/-- A member's body is its deflate data and its trailer. -/
theorem memberBody_append (level : ℕ) (rest : List UInt8) :
    memberBody flate (memberHeader level ++ rest) = .ok rest := by
  have hheader : (memberHeader level).length = 10 := rfl
  have hlength : 10 ≤ (memberHeader level ++ rest).length := by
    rw [List.length_append, hheader]
    omega
  have hflags : (memberHeader level ++ rest).getD 3 0 = 0 := rfl
  rw [memberBody, if_pos ⟨hlength, rfl⟩]
  dsimp only
  rw [hflags, if_neg (by decide), skipExtra, if_pos (by decide), Loops.bind_ok rfl, skipText,
    if_pos (by decide), Loops.bind_ok rfl, skipText, if_pos (by decide), Loops.bind_ok rfl,
    skipHeaderCrc, if_pos (by decide), Loops.bind_ok rfl, if_pos hlength, ← hheader,
    List.drop_left]

/-- A member inflates to the bytes it was made of. -/
theorem gunzip_member (hinverse : flate.Inverse) {level capacity : ℕ} {raw : List UInt8}
    (h : raw.length < isizeMax) :
    gunzip flate (member flate level raw) raw.length capacity = .ok raw := by
  have hisize : isizeMax = 2 ^ 63 - 1 := rfl
  have husize : usizeMax = 2 ^ 64 - 1 := rfl
  have hroom : room raw.length = raw.length + 1 := Nat.min_eq_left (by omega)
  have hreserve : tryReserveExact 0 (room raw.length) = .ok () := by
    rw [hroom, tryReserveExact, checkedAdd, if_pos (by omega), orOverflow, Loops.bind_ok rfl,
      if_pos (by omega)]
  have hcrc : (flate.crc raw).toNat < 256 ^ 4 := (flate.crc raw).toNat_lt
  obtain ⟨trailer, htrailer⟩ : ∃ trailer,
      trailer = leBytes 4 (flate.crc raw).toNat ++ leBytes 4 raw.length := ⟨_, rfl⟩
  have hlength : trailer.length = 8 := by
    rw [htrailer, List.length_append, leBytes_length, leBytes_length]
  have hfields : trailer.take 4 = leBytes 4 (flate.crc raw).toNat ∧
      trailer.drop 4 = leBytes 4 raw.length := by
    rw [htrailer]
    exact ⟨List.take_left' (leBytes_length 4 _), List.drop_left' (leBytes_length 4 _)⟩
  rw [gunzip, member, ← htrailer, List.append_assoc, memberBody_append, Loops.bind_ok rfl, hreserve,
    Loops.bind_ok rfl, hinverse level raw trailer _ (by omega)]
  dsimp only [checkInflated]
  rw [List.drop_left, List.take_of_length_le hlength.le, if_neg (Nat.lt_irrefl _),
    if_neg (by decide : ¬true = false), if_neg (not_not.mpr hlength), if_neg, if_neg (not_not.mpr rfl)]
  rw [hfields.1, hfields.2, ofLeBytes_leBytes, ofLeBytes_leBytes, Nat.mod_eq_of_lt hcrc]
  simp

/-- A stream of whole samples decodes to them. -/
theorem Codec.decode_encode (hinverse : flate.Inverse) {codec : Codec} {raw : List UInt8} {n : ℕ}
    (hshuffle : codec.shuffle ∈ [1, 2, 4, 8]) (hwhole : raw.length = n * codec.shuffle)
    (h : raw.length < isizeMax) (capacity : ℕ) :
    codec.decode flate (codec.encode flate raw) raw.length capacity = .ok raw := by
  rw [decode, encode]
  split
  · exact gunzip_member hinverse h
  · have hwidth : codec.shuffle = 2 ∨ codec.shuffle = 4 ∨ codec.shuffle = 8 := by
      simpa [show codec.shuffle ≠ 1 by omega] using hshuffle
    have hraw : gunzip flate (member flate codec.level (shuffleBytes raw codec.shuffle))
        (shuffleBytes raw codec.shuffle).length capacity = .ok (shuffleBytes raw codec.shuffle) :=
      gunzip_member hinverse (by rwa [length_shuffleBytes])
    rw [length_shuffleBytes] at hraw
    rw [hraw, Loops.bind_ok rfl, unshuffle_shuffle hwidth hwhole]

/-! ## Stored blocks -/

/-- The deflate data of level 0: blocks that store their bytes, the last one marked. -/
def storedBlocks (raw : List UInt8) : List UInt8 :=
  if raw.length < 2 ^ 16 then
    1 :: (leBytes 2 raw.length ++ (leBytes 2 (0xffff - raw.length) ++ raw))
  else
    0 :: (leBytes 2 0xffff ++ (leBytes 2 0 ++ (raw.take 0xffff ++ storedBlocks (raw.drop 0xffff))))
termination_by raw.length
decreasing_by
  rw [List.length_drop]
  omega

/-- Inflate blocks that store their bytes. -/
def inflateStored (stream : List UInt8) (room : ℕ) : Option Inflated :=
  let size := ofLeBytes ((stream.drop 1).take 2)
  if _h : stream.length < 5 + size then some ⟨[], 0, false⟩
  else if ofLeBytes ((stream.drop 3).take 2) ≠ 0xffff - size then none
  else
    let block := (stream.drop 5).take size
    match stream.headD 0 with
    | 1 => some ⟨block.take room, 5 + size, size ≤ room⟩
    | 0 =>
      match inflateStored (stream.drop (5 + size)) (room - size) with
      | some rest => some ⟨block.take room ++ rest.out, 5 + size + rest.consumed, rest.ended⟩
      | none => none
    | _ => none
termination_by stream.length
decreasing_by
  rw [List.length_drop]
  omega

/-- The CRC-32 of bytes, a bit at a time. -/
def crc32 (bytes : List UInt8) : UInt32 :=
  let bit (crc : UInt32) := if crc &&& 1 = 1 then (crc >>> 1) ^^^ 0xedb88320 else crc >>> 1
  bytes.foldl (fun crc byte => bit^[8] (crc ^^^ byte.toUInt32)) 0xffffffff ^^^ 0xffffffff

/-- A deflate crate that stores its bytes. -/
def stored : Flate where
  deflate _ := storedBlocks
  inflate := inflateStored
  crc := crc32

/-- One block of a stream of stored blocks. -/
theorem inflateStored_block (final : UInt8) {block : List UInt8} (rest : List UInt8) {room : ℕ}
    (hsize : block.length ≤ 0xffff) (hroom : block.length < room) :
    inflateStored (final :: (leBytes 2 block.length ++
        (leBytes 2 (0xffff - block.length) ++ (block ++ rest)))) room =
      match final with
      | 1 => some ⟨block, 5 + block.length, true⟩
      | 0 =>
        match inflateStored rest (room - block.length) with
        | some next => some ⟨block ++ next.out, 5 + block.length + next.consumed, next.ended⟩
        | none => none
      | _ => none := by
  have hbound : (256 : ℕ) ^ 2 = 65536 := rfl
  obtain ⟨a, b, hab⟩ : ∃ a b, leBytes 2 block.length = [a, b] :=
    List.length_eq_two.mp (leBytes_length 2 _)
  obtain ⟨c, d, hcd⟩ : ∃ c d, leBytes 2 (0xffff - block.length) = [c, d] :=
    List.length_eq_two.mp (leBytes_length 2 _)
  have hsizeField : ofLeBytes [a, b] = block.length := by
    rw [← hab, ofLeBytes_leBytes, Nat.mod_eq_of_lt (by omega)]
  have hcheckField : ofLeBytes [c, d] = 0xffff - block.length := by
    rw [← hcd, ofLeBytes_leBytes, Nat.mod_eq_of_lt (by omega)]
  rw [hab, hcd, inflateStored]
  simp only [List.cons_append, List.nil_append, List.drop_succ_cons, List.drop_zero,
    List.take_succ_cons, List.take_zero, hsizeField, hcheckField, List.length_cons,
    List.length_append, List.headD_cons, ne_eq, not_true_eq_false, if_false]
  rw [dif_neg (by omega), List.take_left, List.take_of_length_le hroom.le,
    show 5 + block.length = block.length + 5 from Nat.add_comm _ _, List.drop_succ_cons,
    List.drop_succ_cons, List.drop_succ_cons, List.drop_succ_cons, List.drop_succ_cons,
    List.drop_left, decide_eq_true hroom.le]

/-- Stored blocks inflate to their bytes. -/
theorem stored_inverse : stored.Inverse := by
  intro level raw rest room hroom
  change inflateStored (storedBlocks raw ++ rest) room = some ⟨raw, (storedBlocks raw).length, true⟩
  induction raw using storedBlocks.induct generalizing room with
  | case1 raw hshort =>
    have hblock := inflateStored_block 1 rest (by omega) hroom
    rw [storedBlocks, if_pos hshort]
    simp only [List.cons_append, List.append_assoc]
    rw [hblock]
    simp [leBytes_length]
    omega
  | case2 raw hlong ih =>
    have hblock : (raw.take 0xffff).length = 0xffff := List.length_take_of_le (by omega)
    have hlength := List.length_drop (i := 0xffff) (l := raw)
    have hnext := ih (room - 0xffff) (by omega)
    have hwhole := inflateStored_block 0 (storedBlocks (raw.drop 0xffff) ++ rest) hblock.le
      (by omega : (raw.take 0xffff).length < room)
    rw [hblock, hnext, Nat.sub_self] at hwhole
    rw [storedBlocks, if_neg hlong]
    simp only [List.cons_append, List.append_assoc]
    rw [hwhole]
    simp [leBytes_length]
    omega

end FitsWell.Gzip
