import FitsWell.Compression.TileCodec

/-!
# The length of a tile's stream

No codec writes an empty stream for a tile with samples, and `PLIO_1` writes whole words.
-/

namespace FitsWell

open Bytes Bits

/-! ## `RICE_1` -/

namespace Rice

/-- The blocks that are encoded follow the bits written before them. -/
theorem Codec.bits_encodeBlocks (codec : Codec) {bo bo' : BitOutput} {lastpix : U64}
    {values : List ℤ} (hbo : bo.Sound) (h : codec.encodeBlocks bo lastpix values = .ok bo') :
    bo'.Sound ∧ bo.bits <+: bo'.bits := by
  induction hlength : values.length using Nat.strong_induction_on generalizing values bo lastpix with
  | _ length ih =>
    rw [encodeBlocks] at h
    split at h
    · obtain rfl := Except.ok.inj h
      exact ⟨hbo, List.prefix_refl _⟩
    · rename_i hsome
      split at h
      · cases h
      · rename_i hsize
        dsimp only at h
        obtain ⟨middle, hmiddle, h⟩ := Loops.ok_of_bind h
        obtain ⟨_, hok, hsound, hbits⟩ := codec.appends_encodeBlock
          (blockDiffs codec.nbits lastpix (values.take codec.blocksize)).1 hbo
        obtain rfl := Except.ok.inj (hok.symm.trans hmiddle)
        obtain ⟨hend, hprefix⟩ := ih _ (by rw [List.length_drop]; omega) hsound h rfl
        exact ⟨hend, (hbits ▸ List.prefix_append _ _).trans hprefix⟩

/-- A stream holds its first pixel. -/
theorem Codec.encode_ne_nil (codec : Codec) {values : List ℤ} {stream : List UInt8}
    (h : codec.encode values = .ok stream) : stream ≠ [] := by
  have hstart : BitOutput.Sound ⟨[], 0, 0⟩ := ⟨by decide, fun i _ => by simp⟩
  obtain ⟨first, hfirst, h⟩ := Loops.ok_of_bind h
  obtain ⟨_, hok, hsound, hbits⟩ := BitOutput.appends_outputNbits
    (BitVec.ofInt 64 (values.headD 0) &&& pixelMask codec.nbits) hstart codec.nbits_le
  obtain rfl := Except.ok.inj (hok.symm.trans hfirst)
  obtain ⟨bo, hblocks, h⟩ := Loops.ok_of_bind h
  obtain ⟨hend, hprefix⟩ := codec.bits_encodeBlocks hsound hblocks
  obtain ⟨padding, hpadding⟩ := BitOutput.byteBits_finish hend
  obtain rfl := Except.ok.inj h
  have hlength := hprefix.length_le
  rw [hbits, List.length_append, natBits_length] at hlength
  have hpixel : 0 < codec.nbits := by
    rcases codec.nbits_cases with h | h | h | h <;> omega
  intro hnil
  rw [hnil] at hpadding
  have hempty := congrArg List.length hpadding
  rw [List.length_append] at hempty
  simp only [byteBits, List.flatMap_nil, List.length_nil] at hempty
  omega

end Rice

/-! ## `HCOMPRESS_1` -/

namespace Hcompress

namespace BitOutput

variable {bo bo' : BitOutput}

theorem put_ne_nil (bits n : ℕ) (h : bo.out ≠ []) : (bo.put bits n).out ≠ [] := by
  unfold put
  dsimp only
  split
  · exact List.append_ne_nil_of_left_ne_nil h _
  · exact h

theorem outputNbits_ne_nil {bits n : ℕ} (h : bo.out ≠ []) (hok : bo.outputNbits bits n = .ok bo') :
    bo'.out ≠ [] := by
  obtain ⟨mask, -, hok⟩ := Loops.ok_of_bind hok
  rw [← Except.ok.inj hok]
  exact put_ne_nil _ _ h

theorem outputPairs_ne_nil {array : List ℕ} {kk jj : ℕ} (h : bo.out ≠ [])
    (hok : bo.outputPairs array kk jj = .ok bo') : bo'.out ≠ [] := by
  refine Loops.foldlM_partial (P := fun _ bo => bo.out ≠ []) h ?_ hok
  intro done t todo _ bo bo' hbo hstep
  obtain ⟨high, -, hstep⟩ := Loops.ok_of_bind hstep
  obtain ⟨low, -, hstep⟩ := Loops.ok_of_bind hstep
  rw [← Except.ok.inj hstep]
  unfold outputPair
  dsimp only
  split <;> exact List.append_ne_nil_of_left_ne_nil hbo _

theorem outputRest_ne_nil {array : List ℕ} {n kk : ℕ} (h : bo.out ≠ [])
    (hok : bo.outputRest n array kk = .ok bo') : bo'.out ≠ [] := by
  obtain ⟨pairs, hpairs, hok⟩ := Loops.ok_of_bind hok
  have hout := outputPairs_ne_nil h hpairs
  split at hok
  · obtain ⟨last, -, hok⟩ := Loops.ok_of_bind hok
    rw [← Except.ok.inj hok]
    exact put_ne_nil _ _ hout
  · rwa [← Except.ok.inj hok]

theorem outputNnybble_ne_nil {array : List ℕ} {n : ℕ} (h : bo.out ≠ [])
    (hok : bo.outputNnybble n array = .ok bo') : bo'.out ≠ [] := by
  unfold outputNnybble at hok
  split at hok
  · obtain ⟨first, -, hok⟩ := Loops.ok_of_bind hok
    rw [← Except.ok.inj hok]
    exact put_ne_nil _ _ h
  split at hok
  · obtain ⟨first, -, hok⟩ := Loops.ok_of_bind hok
    split at hok
    · obtain ⟨second, -, hok⟩ := Loops.ok_of_bind hok
      rw [← Except.ok.inj hok]
      exact put_ne_nil _ _ (put_ne_nil _ _ h)
    · exact outputRest_ne_nil (put_ne_nil _ _ h) hok
  · exact outputRest_ne_nil h hok

theorem outputBytes_ne_nil {buffer : List UInt8} {count : ℕ} (h : bo.out ≠ [])
    (hok : (List.range count).foldlM (fun (bo : BitOutput) k => do
      let byte ← load buffer (count - 1 - k)
      bo.outputNbits byte.toNat 8) bo = .ok bo') : bo'.out ≠ [] := by
  refine Loops.foldlM_partial (P := fun _ bo => bo.out ≠ []) h ?_ hok
  intro done k todo _ bo bo' hbo hstep
  obtain ⟨byte, -, hstep⟩ := Loops.ok_of_bind hstep
  exact outputNbits_ne_nil hbo hstep

theorem writeCodes_ne_nil {s : CodeBuffer} (h : bo.out ≠ []) (hok : bo.writeCodes s = .ok bo') :
    bo'.out ≠ [] := by
  have hstart : (bo.outputNybble 15).out ≠ [] := put_ne_nil _ _ h
  unfold writeCodes at hok
  dsimp only at hok
  split at hok
  · split at hok
    · exact outputNbits_ne_nil hstart hok
    · obtain ⟨value, -, hok⟩ := Loops.ok_of_bind hok
      obtain ⟨bits, -, hok⟩ := Loops.ok_of_bind hok
      exact outputNbits_ne_nil hstart hok
  · split at hok
    · obtain ⟨leftover, hleftover, hok⟩ := Loops.ok_of_bind hok
      exact outputBytes_ne_nil (outputNbits_ne_nil hstart hleftover) hok
    · exact outputBytes_ne_nil hstart hok

theorem qtreePlane_ne_nil {a : List ℤ} {quadrant : Quadrant} {bit : ℕ} (h : bo.out ≠ [])
    (hok : bo.qtreePlane a quadrant bit = .ok bo') : bo'.out ≠ [] := by
  unfold qtreePlane at hok
  dsimp only at hok
  obtain ⟨scratch, -, hok⟩ := Loops.ok_of_bind hok
  obtain ⟨⟨s, overflow⟩, -, hok⟩ := Loops.ok_of_bind hok
  dsimp only at hok
  split at hok
  · obtain ⟨codes, -, hok⟩ := Loops.ok_of_bind hok
    exact outputNnybble_ne_nil (put_ne_nil _ _ h) hok
  · exact writeCodes_ne_nil h hok

theorem qtreeEncode_ne_nil {a : List ℤ} {quadrant : Quadrant} {planes : ℕ} (h : bo.out ≠ [])
    (hok : BitOutput.qtreeEncode a quadrant planes bo = .ok bo') : bo'.out ≠ [] := by
  induction planes generalizing bo with
  | zero =>
    rw [qtreeEncode] at hok
    rwa [← Except.ok.inj hok]
  | succ bit ih =>
    rw [qtreeEncode] at hok
    obtain ⟨middle, hplane, hok⟩ := Loops.ok_of_bind hok
    exact ih (qtreePlane_ne_nil h hplane) hok

theorem doencode_ne_nil {a : List ℤ} {nx ny : ℕ} {nbitplanes : List ℕ} (h : bo.out ≠ [])
    (hok : bo.doencode a nx ny nbitplanes = .ok bo') : bo'.out ≠ [] := by
  obtain ⟨coded, hcoded, hok⟩ := Loops.ok_of_bind hok
  have hout : coded.out ≠ [] := by
    refine Loops.foldlM_partial (P := fun _ bo => bo.out ≠ []) h ?_ hcoded
    intro done entry todo _ bo bo' hbo hstep
    obtain ⟨planes, -, hstep⟩ := Loops.ok_of_bind hstep
    exact qtreeEncode_ne_nil hbo hstep
  have hend : (coded.outputNybble 0).out ≠ [] := put_ne_nil _ _ hout
  rw [← Except.ok.inj hok]
  unfold doneOutputingBits
  split
  · exact List.append_ne_nil_of_left_ne_nil hend _
  · exact hend

end BitOutput

/-- A stream starts with its magic. -/
theorem Codec.encode_ne_nil (codec : Codec) {values : List ℤ} {shape : List ℕ} {blank : Option ℤ}
    {stream : List UInt8} (h : codec.encode values shape blank = .ok stream) : stream ≠ [] := by
  obtain ⟨⟨ny, nx⟩, -, h⟩ := Loops.ok_of_bind h
  obtain ⟨scale, -, h⟩ := Loops.ok_of_bind h
  split at h
  · cases h
  split at h
  · cases h
  obtain ⟨plane, -, h⟩ := Loops.ok_of_bind h
  obtain ⟨digitized, -, h⟩ := Loops.ok_of_bind h
  unfold encodePlane at h
  dsimp only at h
  obtain ⟨nxField, -, h⟩ := Loops.ok_of_bind h
  obtain ⟨nyField, -, h⟩ := Loops.ok_of_bind h
  obtain ⟨a0, -, h⟩ := Loops.ok_of_bind h
  obtain ⟨a, -, h⟩ := Loops.ok_of_bind h
  obtain ⟨⟨signs, magnitudes⟩, -, h⟩ := Loops.ok_of_bind h
  obtain ⟨signbits, -, h⟩ := Loops.ok_of_bind h
  obtain ⟨bo, hcoded, h⟩ := Loops.ok_of_bind h
  rw [← Except.ok.inj h]
  refine List.append_ne_nil_of_left_ne_nil (BitOutput.doencode_ne_nil ?_ hcoded) _
  simp only [magic, List.cons_append]
  exact List.cons_ne_nil _ _

end Hcompress

/-! ## `PLIO_1` -/

namespace Plio

theorem length_words (words : List Word) : (words.flatMap Word.beBytes).length = 2 * words.length := by
  induction words with
  | nil => rfl
  | cons word words ih =>
    rw [List.flatMap_cons, List.length_append, ih, List.length_cons]
    have hword : (Word.beBytes word).length = 2 := beBytes_length _ _
    omega

/-- A stream is of whole words. -/
theorem Codec.length_encode (codec : Codec) {values : List ℤ} {stream : List UInt8}
    (h : codec.encode values = .ok stream) : ∃ words : List Word, stream.length = 2 * words.length := by
  unfold encode at h
  split at h
  · split at h
    · rw [← Except.ok.inj h]
      exact ⟨_, length_words _⟩
    · obtain ⟨⟨low, high⟩, -, h⟩ := Loops.ok_of_bind h
      rw [← Except.ok.inj h]
      exact ⟨_, length_words _⟩
  · cases h

end Plio

/-! ## Every codec -/

namespace TileCodec

variable {flate : Gzip.Flate} {codec : TileCodec} {tile : Tile} {samples : TileSamples}
  {stream : List UInt8}

/-- The stream of a tile is not empty, where that of stored samples has samples. The streams of
`PLIO_1` are left out. -/
theorem encode_ne_nil (h : codec.encode flate tile samples = .ok stream)
    (hplio : ∀ coder, codec ≠ .plio coder)
    (hstored : codec = .noCompress → samples.toBytes tile.width ≠ []) : stream ≠ [] := by
  have hmember : ∀ level raw, Gzip.member flate level raw ≠ [] := fun level raw =>
    List.append_ne_nil_of_left_ne_nil
      (List.append_ne_nil_of_left_ne_nil (List.cons_ne_nil _ _) _) _
  cases codec with
  | gzip1 level =>
    rw [← Except.ok.inj h]
    exact hmember _ _
  | gzip2 level =>
    rw [← Except.ok.inj h]
    exact hmember _ _
  | rice coder =>
    obtain ⟨values, -, h⟩ := Loops.ok_of_bind h
    exact coder.encode_ne_nil h
  | plio coder => exact absurd rfl (hplio coder)
  | hcompress coder =>
    obtain ⟨values, -, h⟩ := Loops.ok_of_bind h
    exact coder.encode_ne_nil h
  | noCompress =>
    rw [← Except.ok.inj h]
    exact hstored rfl

end TileCodec

end FitsWell
