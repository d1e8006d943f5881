import FitsWell.Compression.HcompressSigns
import FitsWell.Compression.HcompressTile

/-!
# The stream of a plane

The header gives the extents, the first coefficient and the plane counts, and the planes
and the signs follow. A reader of a stream that was written has the coded magnitudes as
they are received, and the sign bits left.
-/

namespace FitsWell.Hcompress

open Bytes Bits

/-! ## Plane counts -/

/-- The greatest value of the places that count, and the start where none is greater. -/
theorem foldl_vmax (p : ℕ → Prop) [DecidablePred p] (entries : List (ℤ × ℕ)) (start : ℤ) :
    start ≤ entries.foldl (fun vmax (v, index) => if p index ∧ vmax < v then v else vmax) start ∧
      (∀ e ∈ entries, p e.2 →
        e.1 ≤ entries.foldl (fun vmax (v, index) => if p index ∧ vmax < v then v else vmax) start) ∧
      ∀ bound, start < bound → (∀ e ∈ entries, e.1 < bound) →
        entries.foldl (fun vmax (v, index) => if p index ∧ vmax < v then v else vmax) start <
          bound := by
  induction entries generalizing start with
  | nil => simp
  | cons entry entries ih =>
    obtain ⟨v, index⟩ := entry
    rw [List.foldl_cons]
    dsimp only
    obtain ⟨hle, hall, hbound⟩ := ih (if p index ∧ start < v then v else start)
    have hstart : start ≤ if p index ∧ start < v then v else start := by
      split <;> omega
    refine ⟨hstart.trans hle, ?_, ?_⟩
    · intro e he hp
      rcases List.mem_cons.mp he with rfl | he
      · refine le_trans ?_ hle
        by_cases hlt : start < v
        · rw [if_pos ⟨hp, hlt⟩]
        · rw [if_neg fun h => hlt h.2]
          exact not_lt.mp hlt
      · exact hall e he hp
    · intro bound hlt hentries
      apply hbound bound
      · have hv := hentries (v, index) (by simp)
        split <;> simp_all
      · exact fun e he => hentries e (List.mem_cons_of_mem _ he)

section Planes

variable {nx ny : ℕ} {a : List ℤ}

/-- The greatest magnitude of a quadrant bounds those of its places. -/
theorem le_vmax (nx ny : ℕ) {i : ℕ} {v : ℤ} (h : a[i]? = some v) :
    v ≤ vmax a nx ny (quadrantOf nx ny i) := by
  apply (foldl_vmax (fun index => quadrantOf nx ny index = quadrantOf nx ny i) a.zipIdx 0).2.1
    (v, i)
  · exact List.mem_zipIdx_iff_getElem?.mpr h
  · rfl

theorem vmax_lt (nx ny : ℕ) {bound : ℤ} (hpos : 0 < bound) (h : ∀ v ∈ a, v < bound) (q : ℕ) :
    0 ≤ vmax a nx ny q ∧ vmax a nx ny q < bound := by
  obtain ⟨hnonneg, -, hbound⟩ := foldl_vmax (fun index => quadrantOf nx ny index = q) a.zipIdx 0
  refine ⟨hnonneg, hbound bound hpos ?_⟩
  intro e he
  exact h _ (List.fst_mem_of_mem_zipIdx he)

/-- The plane counts fit the stream's bytes. -/
theorem bitPlanes_le (h : ∀ v ∈ a, v < 2 ^ 63) : ∀ planes ∈ bitPlanes a nx ny, planes ≤ 63 := by
  intro planes hplanes
  obtain ⟨q, -, rfl⟩ := List.mem_map.mp hplanes
  have hbound := vmax_lt nx ny (show (0 : ℤ) < 2 ^ 63 by norm_num) h q
  apply bitLength_le
  omega

/-- The places of a quadrant count for its own plane count. -/
theorem quadrantOf_place (hnx : 0 < nx) (hny : 0 < ny) {entry : Quadrant × ℕ}
    (h : entry ∈ quadrants nx ny) {i r c : ℕ} (hat : entry.1.At i r c) :
    quadrantOf nx ny i = entry.2 := by
  obtain ⟨row, col, hplaced, hcount, hrows, hcols⟩ := mem_quadrants hnx hny h
  obtain ⟨hrow, hcol, rfl⟩ := hplaced.place hat
  have hr := hat.1
  have hc := hat.2.1
  have hdiv : (ny * (row + r) + (col + c)) / ny = row + r := by
    rw [Nat.mul_add_div hny, Nat.div_eq_of_lt hcol, Nat.add_zero]
  have hmod : (ny * (row + r) + (col + c)) % ny = col + c := by
    rw [Nat.mul_add_mod, Nat.mod_eq_of_lt hcol]
  have hx : ((nx + 1) / 2 ≤ row + r) ↔ (nx + 1) / 2 ≤ row := by omega
  have hy : ((ny + 1) / 2 ≤ col + c) ↔ (ny + 1) / 2 ≤ col := by omega
  rw [quadrantOf, hdiv, hmod, hcount]
  simp only [hx, hy]

/-- The magnitudes of a plane fit the plane counts it is written with. -/
theorem quadrant_fits (hnx : 0 < nx) (hny : 0 < ny)
    (h : ∀ v ∈ a, 0 ≤ v ∧ v < 2 ^ 63) {entry : Quadrant × ℕ} (hentry : entry ∈ quadrants nx ny)
    (hholds : entry.1.Holds a (entry.1.values fun i => a.getD i 0)) :
    ∃ planes, (bitPlanes a nx ny)[entry.2]? = some planes ∧
      entry.1.Fits (fun i => a.getD i 0) planes := by
  have hcount : entry.2 < 3 := by
    obtain ⟨row, col, -, hcount, -⟩ := mem_quadrants hnx hny hentry
    have hbits : ∀ p q : Bool, p.toNat + q.toNat < 3 := by decide
    rw [hcount]
    exact hbits _ _
  have hget : (bitPlanes a nx ny)[entry.2]? =
      some (bitLength (vmax a nx ny entry.2).toNat) := by
    rw [bitPlanes, List.getElem?_map, List.getElem?_range hcount]
    rfl
  refine ⟨_, hget, bitPlanes_le (fun v hv => (h v hv).2) _ (List.mem_of_getElem? hget), ?_⟩
  intro r hr c hc
  have hplace := hholds r hr c hc
  obtain ⟨hnonneg, -⟩ := h _ (List.mem_of_getElem? hplace)
  have hmax := le_vmax nx ny hplace
  rw [quadrantOf_place hnx hny hentry ⟨hr, hc, rfl⟩] at hmax
  have hlength := lt_two_pow_bitLength (vmax a nx ny entry.2).toNat
  refine ⟨hnonneg, ?_⟩
  zify at hlength
  rw [Int.toNat_of_nonneg (hnonneg.trans hmax)] at hlength
  exact hmax.trans_lt hlength

/-- A plane holds the values of each of its quadrants. -/
theorem quadrant_holds (hnx : 0 < nx) (hny : 0 < ny) (hlength : a.length = nx * ny)
    {entry : Quadrant × ℕ} (hentry : entry ∈ quadrants nx ny) :
    entry.1.Holds a (entry.1.values fun i => a.getD i 0) := by
  intro r hr c hc
  obtain ⟨row, col, hplaced, -⟩ := mem_quadrants hnx hny hentry
  obtain ⟨hrow, hcol, heq⟩ := hplaced.place ⟨hr, hc, rfl⟩
  have hlt : ny * (row + r) + (col + c) < nx * ny := by
    calc ny * (row + r) + (col + c) < ny * (row + r) + ny := by omega
      _ = ny * (row + r + 1) := by ring
      _ ≤ ny * nx := Nat.mul_le_mul_left _ (by omega)
      _ = nx * ny := Nat.mul_comm _ _
  rw [Quadrant.values, List.getD_eq_getElem?_getD, List.getElem?_eq_getElem (by omega),
    Option.getD_some]

end Planes

/-! ## Header fields -/

/-- A signed field reads back. -/
theorem ofIntBytes_intBytes {count : ℕ} {value : ℤ} (hlow : -256 ^ count ≤ value * 2)
    (hhigh : value * 2 < 256 ^ count) : ofIntBytes (intBytes count value) = value := by
  have hpow : (0 : ℤ) < 256 ^ count := by positivity
  have hlt : (value % 256 ^ count).toNat < 256 ^ count := by
    have h := Int.emod_lt_of_pos value hpow
    have hnonneg := Int.emod_nonneg value hpow.ne'
    zify
    rwa [Int.toNat_of_nonneg hnonneg]
  have hwidth : 2 ^ (8 * count) = 256 ^ count := pow_mul 2 8 count
  rw [ofIntBytes, intBytes, beBytes_length, ofBeBytes_beBytes_of_lt hlt, BitVec.toInt_ofNat',
    Int.toNat_of_nonneg (Int.emod_nonneg value hpow.ne'), hwidth]
  rw [show (256 : ℤ) ^ count = ((256 ^ count : ℕ) : ℤ) by push_cast; rfl, Int.emod_bmod]
  apply Int.bmod_eq_of_le
  · push_cast
    omega
  · push_cast
    omega

/-- Reading the signed field that a reader is at. -/
theorem BitInput.readInt_ok (bi : BitInput) {count : ℕ} {value : ℤ} {back : List UInt8}
    (h : bi.data.drop bi.pos = intBytes count value ++ back) (hcount : 0 < count)
    (hlow : -256 ^ count ≤ value * 2) (hhigh : value * 2 < 256 ^ count) :
    bi.readInt count = .ok (value, { bi with pos := bi.pos + count }) ∧
      bi.data.drop (bi.pos + count) = back := by
  have hsize : (intBytes count value).length = count := beBytes_length count _
  obtain ⟨hread, hrest⟩ := readBytes_ok bi h (by omega)
  rw [hsize] at hread hrest
  refine ⟨?_, hrest⟩
  rw [readInt, Loops.bind_ok hread]
  dsimp only
  rw [ofIntBytes_intBytes hlow hhigh]

/-- A dimension within the stream's field is written as a signed value. -/
theorem tileDimension_ok {length : ℕ} {bytes : List UInt8} (hok : tileDimension length = .ok bytes) :
    length < 2 ^ 31 ∧ bytes = intBytes 4 length := by
  unfold tileDimension at hok
  split at hok
  · rename_i hlt
    refine ⟨hlt, ?_⟩
    rw [← Except.ok.inj hok, intBytes, Int.emod_eq_of_lt (by omega) (by norm_num; omega)]
    rfl
  · cases hok

/-- The bytes of a stream start with those whose bits it starts with. -/
theorem bytes_of_byteBits {front bytes : List UInt8} {bits : List Bool}
    (h : byteBits bytes = byteBits front ++ bits) :
    ∃ back, bytes = front ++ back ∧ byteBits back = bits := by
  induction front generalizing bytes with
  | nil => exact ⟨bytes, rfl, h⟩
  | cons byte front ih =>
    cases bytes with
    | nil =>
      have hlength := congrArg List.length h
      rw [byteBits_cons] at hlength
      simp only [byteBits_nil, List.length_nil, List.length_append, natBits_length] at hlength
      omega
    | cons byte' bytes =>
      rw [byteBits_cons, byteBits_cons, List.append_assoc] at h
      obtain ⟨hbyte, hrest⟩ := List.append_inj h (by simp)
      obtain ⟨back, rfl, hback⟩ := ih hrest
      have heq := eq_of_natBits_eq byte'.toNat_lt byte.toNat_lt hbyte
      rw [UInt8.toNat_inj.mp heq]
      exact ⟨back, rfl, hback⟩

/-! ## The stream -/

/-- A reader within a byte of a byte string that follows some padding is at the string. -/
theorem BitInput.Left.startInputingBits {bi : BitInput} {padding : List Bool} {bytes : List UInt8}
    (h : bi.Left (padding ++ byteBits bytes)) (hpadding : padding.length < 8)
    (hheld : bi.bitsToGo ≤ 7) : bi.startInputingBits.Left (byteBits bytes) := by
  have hdrop := h.drop_eq
  have hfew := congrArg List.length h.held
  rw [natBits_length, List.length_take] at hfew
  have hlength := congrArg List.length hdrop
  simp only [List.length_drop, List.length_append, byteBits_length] at hlength hfew
  have heq : bi.bitsToGo = padding.length := by omega
  rw [heq, List.drop_left] at hdrop
  rw [hdrop]
  exact left_bytes bi.data bi.pos bi.buffer

/-- The magnitudes of a plane as they are coded: the first has a field of its own. -/
def codedMagnitudes (a : List ℤ) : List ℤ := (a.set 0 0).map (|·|)

/-- A plane whose quadrants are those of some magnitudes as they are received. -/
structure Received (nx ny : ℕ) (magnitudes received : List ℤ) : Prop where
  length_eq : received.length = nx * ny
  holds : ∀ e ∈ quadrants nx ny,
    e.1.Holds received (e.1.receivedValues fun i => magnitudes.getD i 0)

theorem codedMagnitudes_first {a : List ℤ} (h : 0 < a.length) :
    (codedMagnitudes a)[0]? = some 0 := by
  rw [codedMagnitudes, List.getElem?_map, List.getElem?_set_self h]
  rfl

/-- The quadrant of the sums. -/
def sumQuadrant (nx ny : ℕ) : Quadrant := ⟨0, ny, (nx + 1) / 2, (ny + 1) / 2⟩

/-- The quadrant of the sums is the first. -/
theorem quadrants_cons (nx ny : ℕ) : ∃ rest, quadrants nx ny = (sumQuadrant nx ny, 0) :: rest :=
  ⟨_, by unfold quadrants; simp only [List.append_assoc, List.singleton_append]; rfl⟩

/-- A first magnitude of zero is received as zero where its planes are written. -/
theorem received_first {a : List ℤ} {nx ny planes : ℕ} {bo bo' : BitOutput} (hnx : 0 < nx)
    (hny : 0 < ny) (hlength : a.length = nx * ny) (hzero : a[0]? = some 0)
    (hfits : (sumQuadrant nx ny).Fits (fun i => a.getD i 0) planes)
    (hok : BitOutput.qtreeEncode a (sumQuadrant nx ny) planes bo = .ok bo') :
    (sumQuadrant nx ny).receivedValues (fun i => a.getD i 0) 0 0 = 0 := by
  obtain ⟨rest, hrest⟩ := quadrants_cons nx ny
  have hmem : (sumQuadrant nx ny, 0) ∈ quadrants nx ny := by simp [hrest]
  have hholds := quadrant_holds hnx hny hlength hmem
  obtain ⟨row, col, hplaced, -⟩ := mem_quadrants hnx hny hmem
  have hreceived := receivedGrid_below hfits.1 hfits.2 0 hplaced.sound.rows 0 hplaced.sound.cols
  have hcorner : (sumQuadrant nx ny).values (fun i => a.getD i 0) 0 0 = 0 := by
    simp [Quadrant.values, sumQuadrant, hzero]
  exact received_corner_zero hfits.1 hreceived hcorner
    fun bit hbit => BitOutput.qtreeEncode_first hplaced.sound hholds hbit hok

/-- A quadrant of a plane in memory has fewer levels than a word has bits. -/
theorem quadrant_log2n_lt {nx ny : ℕ} (hnx : 0 < nx) (hny : 0 < ny) (hx : nx < 2 ^ 60)
    (hy : ny < 2 ^ 60) {entry : Quadrant × ℕ} (h : entry ∈ quadrants nx ny) :
    entry.1.log2n < 64 := by
  obtain ⟨row, col, hplaced, -⟩ := mem_quadrants hnx hny h
  have hrows := hplaced.sound.rows
  have hrow := hplaced.row_le
  have hcol := hplaced.col_le
  exact Nat.lt_of_le_of_lt (@log2Ceil_le _ 60 (by omega) (by omega)) (by decide)

/-- The planes written spell the magnitudes received, and the zero that ends them. -/
theorem BitOutput.doencode_ok {header : List UInt8} {bo : BitOutput} {a : List ℤ} {nx ny : ℕ}
    (hnx : 0 < nx) (hny : 0 < ny) (hx : nx < 2 ^ 60) (hy : ny < 2 ^ 60)
    (hlength : a.length = nx * ny) (ha : ∀ v ∈ a, 0 ≤ v ∧ v < 2 ^ 63)
    (hok : BitOutput.doencode ⟨header, 0, 8⟩ a nx ny (bitPlanes a nx ny) = .ok bo) :
    (∃ planes back padding, bo.out = header ++ back ∧ padding.length < 8 ∧
      byteBits back = planes ++ (natBits 4 0 ++ padding) ∧
      SpellsQuadrants (bitPlanes a nx ny) (fun i => a.getD i 0) (quadrants nx ny) planes) ∧
    (a[0]? = some 0 → (sumQuadrant nx ny).receivedValues (fun i => a.getD i 0) 0 0 = 0) := by
  have hstart : BitOutput.Sound (startOutputingBits ⟨header, 0, 8⟩) :=
    ⟨by dsimp only [startOutputingBits]; decide, by dsimp only [startOutputingBits]; decide⟩
  have hbits : BitOutput.bits (startOutputingBits ⟨header, 0, 8⟩) = byteBits header :=
    List.append_nil _
  have hentries : ∀ entry ∈ quadrants nx ny, entry.1.Sound ∧
      entry.1.Holds a (entry.1.values fun i => a.getD i 0) ∧
      ∃ planes, (bitPlanes a nx ny)[entry.2]? = some planes ∧
        entry.1.Fits (fun i => a.getD i 0) planes := by
    intro entry hentry
    have hholds := quadrant_holds hnx hny hlength hentry
    obtain ⟨row, col, hplaced, -⟩ := mem_quadrants hnx hny hentry
    exact ⟨hplaced.sound, hholds, quadrant_fits hnx hny ha hentry hholds⟩
  obtain ⟨bo1, hplanes, hdone⟩ := Loops.ok_of_bind hok
  have hfirst : a[0]? = some 0 →
      (sumQuadrant nx ny).receivedValues (fun i => a.getD i 0) 0 0 = 0 := by
    intro hzero
    obtain ⟨rest, hrest⟩ := quadrants_cons nx ny
    obtain ⟨-, -, planes, hcount, hfits⟩ :=
      hentries (sumQuadrant nx ny, 0) (by simp [hrest])
    rw [hrest, List.foldlM_cons] at hplanes
    obtain ⟨bo2, hsums, -⟩ := Loops.ok_of_bind hplanes
    dsimp only at hsums hcount
    rw [Loops.bind_ok (load_of_getElem? hcount)] at hsums
    exact received_first hnx hny hlength hzero hfits hsums
  refine ⟨?_, hfirst⟩
  obtain ⟨planes, happ, hspells⟩ := quadrants_ok hstart (quadrants_disjoint hnx hny)
    (fun e he => quadrant_log2n_lt hnx hny hx hy he) hentries hplanes
  have hend := happ.trans (outputNybble_appends happ.sound 0)
  obtain ⟨padding, hfew, hout⟩ := doneOutputingBits_bits hend.sound
  rw [Except.ok.inj hdone, hend.bits_eq, hbits, List.append_assoc] at hout
  obtain ⟨back, hbytes, hback⟩ := bytes_of_byteBits hout
  exact ⟨planes, back, padding, hbytes, hfew, by rw [hback, List.append_assoc], hspells⟩

/-- Read the quadrants and the zero that ends them, with the reader at the signs. -/
def dodecodePlanes (bi : BitInput) (a : List ℤ) (nx ny : ℕ) (nbitplanes : List ℕ) :
    Outcome (List ℤ × BitInput) := do
  let (a, bi) ← (quadrants nx ny).foldlM (fun (s : List ℤ × BitInput) (quadrant, place) => do
    let planes ← load nbitplanes place
    qtreeDecode quadrant planes s.2 s.1) (a, bi.startInputingBits)
  let (last, bi) ← bi.inputNybble
  if last ≠ 0 then
    fail HcompressDefect.bitPlaneEnd.error
  else
    .ok (a, bi.startInputingBits)

/-- The planes are read before the signs. -/
theorem dodecode_of_planes {bi bi' : BitInput} {a magnitudes : List ℤ} {nx ny : ℕ}
    {nbitplanes : List ℕ} (hok : dodecodePlanes bi a nx ny nbitplanes = .ok (magnitudes, bi')) :
    dodecode bi a nx ny nbitplanes = readSigns bi' magnitudes := by
  obtain ⟨⟨a', bi₁⟩, hrun, hok⟩ := Loops.ok_of_bind hok
  obtain ⟨⟨last, bi₂⟩, hnybble, hok⟩ := Loops.ok_of_bind hok
  unfold dodecode
  rw [Loops.bind_ok hrun]
  dsimp only
  rw [Loops.bind_ok hnybble]
  dsimp only at hok ⊢
  split at hok
  · cases hok
  · rename_i hlast
    obtain ⟨rfl, rfl⟩ := Prod.mk.inj (Except.ok.inj hok)
    rw [if_neg hlast]

/-- A reader at the planes reads the magnitudes received and has the signs left. -/
theorem dodecode_planes (bi : BitInput) {nx ny : ℕ} {nbitplanes : List ℕ} {magnitudes : List ℤ}
    {planes padding : List Bool} {signs : List UInt8}
    (hspells : SpellsQuadrants nbitplanes (fun i => magnitudes.getD i 0) (quadrants nx ny) planes)
    (hpadding : padding.length < 8) (hnx : 0 < nx) (hny : 0 < ny)
    (hbi : bi.startInputingBits.Left (planes ++ (natBits 4 0 ++ (padding ++ byteBits signs)))) :
    ∃ received bi', Received nx ny magnitudes received ∧ bi'.Left (byteBits signs) ∧
      bi'.bitsToGo ≤ 8 ∧
      dodecodePlanes bi (List.replicate (nx * ny) 0) nx ny nbitplanes = .ok (received, bi') := by
  have hzero : ∀ e ∈ quadrants nx ny, e.1.Holds (List.replicate (nx * ny) (0 : ℤ))
      fun _ _ => 0 := by
    intro e he r hr c hc
    have hget := quadrant_holds hnx hny (List.length_replicate (n := nx * ny) (a := (0 : ℤ))) he
      r hr c hc
    have hvalue := List.eq_of_mem_replicate (List.mem_of_getElem? hget)
    rw [hget, hvalue]
  obtain ⟨received, bi1, hrun, hlength, hholds, -, hleft, -, hfew⟩ :=
    hspells bi.startInputingBits _ (List.replicate (nx * ny) 0) hbi
      (by rw [List.length_append, natBits_length]; omega) (Nat.zero_le _) hzero
  obtain ⟨bi2, hnybble, hleft2, -, hfew2⟩ := hleft.inputNybble (by decide) hfew
  refine ⟨received, bi2.startInputingBits, ⟨by rw [hlength, List.length_replicate], hholds⟩,
    hleft2.startInputingBits hpadding hfew2, Nat.zero_le _, ?_⟩
  rw [dodecodePlanes, Loops.bind_ok hrun]
  dsimp only
  rw [Loops.bind_ok hnybble]
  rfl

/-- The header of a lossless stream. -/
def header (nx ny : ℕ) (a0 : ℤ) (counts : List ℕ) : List UInt8 :=
  magic ++ intBytes 4 nx ++ intBytes 4 ny ++ intBytes 4 0 ++ intBytes 8 a0 ++
    counts.map UInt8.ofNat

/-- Plane counts that are bytes read back. -/
theorem map_toNat_ofNat {counts : List ℕ} (h : ∀ planes ∈ counts, planes ≤ 63) :
    (counts.map UInt8.ofNat).map UInt8.toNat = counts := by
  rw [List.map_map]
  refine (List.map_congr_left fun planes hplanes => ?_).trans (List.map_id counts)
  have hle := h planes hplanes
  simp only [Function.comp_apply, UInt8.toNat_ofNat', id_eq]
  omega

/-- Reading the header of a lossless stream. -/
theorem hdecompress_header (codec : Codec) {nx ny : ℕ} {a0 : ℤ} {counts : List ℕ}
    {bytes rest : List UInt8} (hnx : 0 < nx) (hny : 0 < ny) (hx : nx < 2 ^ 31) (hy : ny < 2 ^ 31)
    (ha0 : FitsI64 a0) (hlength : counts.length = 3) (hcounts : ∀ planes ∈ counts, planes ≤ 63)
    (hbytes : bytes = header nx ny a0 counts ++ rest) :
    bytes.drop 25 = rest ∧ codec.hdecompress bytes ny nx = (do
      let a ← dodecode ⟨bytes, 25, 0, 0⟩ (List.replicate (nx * ny) 0) nx ny counts
      let a ← store a 0 a0
      hinv a nx ny 0 codec.smoothing) := by
  rw [header] at hbytes
  simp only [List.append_assoc] at hbytes
  obtain ⟨hmagic, hrest⟩ := BitInput.readBytes_ok ⟨bytes, 0, 0, 0⟩ hbytes (by decide)
  obtain ⟨hnxField, hrest⟩ := BitInput.readInt_ok ⟨bytes, 2, 0, 0⟩ hrest (by decide)
    (by omega) (by omega)
  obtain ⟨hnyField, hrest⟩ := BitInput.readInt_ok ⟨bytes, 6, 0, 0⟩ hrest (by decide)
    (by omega) (by omega)
  obtain ⟨hscale, hrest⟩ := BitInput.readInt_ok ⟨bytes, 10, 0, 0⟩ hrest (by decide)
    (by decide) (by decide)
  obtain ⟨hsum, hrest⟩ := BitInput.readInt_ok ⟨bytes, 14, 0, 0⟩ hrest (by decide)
    (by have := ha0.1; omega) (by have := ha0.2; omega)
  obtain ⟨hplanes, hrest⟩ := BitInput.readBytes_ok ⟨bytes, 22, 0, 0⟩ hrest (by simp; omega)
  have hback := map_toNat_ofNat hcounts
  have hany : ¬(counts.any (63 < ·)) := by
    simpa using hcounts
  rw [List.length_map, hlength] at hplanes hrest
  refine ⟨hrest, ?_⟩
  have hdims : ∀ n : ℕ, streamDimension n = .ok n := by
    intro n
    rw [streamDimension, if_pos (Int.natCast_nonneg n), Int.toNat_natCast]
  rw [Codec.hdecompress]
  refine (Loops.bind_ok hmagic).trans ?_
  dsimp only
  rw [if_neg (by decide)]
  refine (Loops.bind_ok hnxField).trans ?_
  dsimp only
  rw [Loops.bind_ok (hdims nx)]
  refine (Loops.bind_ok hnyField).trans ?_
  dsimp only
  have hcells : ¬(nx * ny = 0 ∨ (nx, ny) ≠ (nx, ny)) := by
    have := Nat.mul_pos hnx hny
    simp
    omega
  have hroom : nx * ny ≤ usizeMax :=
    (Nat.mul_le_mul hx.le hy.le).trans (by decide)
  rw [Loops.bind_ok (hdims ny), Loops.bind_ok (mulUsize_of_le hroom), if_neg hcells]
  refine (Loops.bind_ok hscale).trans ?_
  refine (Loops.bind_ok hsum).trans ?_
  refine (Loops.bind_ok hplanes).trans ?_
  dsimp only
  rw [hback, if_neg hany]
  rfl

/-- The extents of a plane that is written fit their fields. -/
theorem encodePlane_extents {a : List ℤ} {nx ny : ℕ} {scale : ℤ} {bytes : List UInt8}
    (hok : encodePlane a nx ny scale = .ok bytes) : nx < 2 ^ 31 ∧ ny < 2 ^ 31 := by
  obtain ⟨nxField, hnxField, hok⟩ := Loops.ok_of_bind hok
  obtain ⟨nyField, hnyField, -⟩ := Loops.ok_of_bind hok
  exact ⟨(tileDimension_ok hnxField).1, (tileDimension_ok hnyField).1⟩

/-- The stream of a plane reads back as the magnitudes received, with the signs written. -/
theorem hdecompress_encodePlane (codec : Codec) {a : List ℤ} {a0 : ℤ} {bytes : List UInt8}
    {nx ny : ℕ} (hnx : 0 < nx) (hny : 0 < ny) (hlength : a.length = nx * ny)
    (ha : ∀ v ∈ a, FitsI64 v) (ha0 : a[0]? = some a0)
    (hok : encodePlane a nx ny 0 = .ok bytes) :
    (∀ v ∈ codedMagnitudes a, v < 2 ^ 63) ∧ ∃ received bi tail,
      Received nx ny (codedMagnitudes a) received ∧ received[0]? = some 0 ∧
      bi.Left (signString (a.set 0 0) ++ tail) ∧ bi.bitsToGo ≤ 8 ∧
      codec.hdecompress bytes ny nx = (do
        let a ← readSigns bi received
        let a ← store a 0 a0
        hinv a nx ny 0 codec.smoothing) := by
  obtain ⟨nxField, hnxField, hok⟩ := Loops.ok_of_bind hok
  obtain ⟨nyField, hnyField, hok⟩ := Loops.ok_of_bind hok
  obtain ⟨hx, rfl⟩ := tileDimension_ok hnxField
  obtain ⟨hy, rfl⟩ := tileDimension_ok hnyField
  obtain ⟨v0, hload, hok⟩ := Loops.ok_of_bind hok
  obtain rfl := Option.some.inj (ha0.symm.trans (getElem?_of_load hload))
  have hlt : 0 < a.length := (List.getElem?_eq_some_iff.mp ha0).1
  rw [Loops.bind_ok (store_of_lt _ hlt)] at hok
  obtain ⟨⟨signs, magnitudes⟩, hsigns, hok⟩ := Loops.ok_of_bind hok
  dsimp only at hok
  obtain ⟨signbits, hfinish, hok⟩ := Loops.ok_of_bind hok
  obtain ⟨bo, hencode, hbytes⟩ := Loops.ok_of_bind hok
  replace hbytes := Except.ok.inj hbytes
  obtain ⟨hsound, hsignbits, hmagnitudes, hnegated⟩ :=
    extractSigns_ok ⟨by dsimp only; decide, by dsimp only; decide⟩ hsigns
  obtain ⟨signPadding, -, hsignbytes⟩ := SignBits.finish_bits hsound hfinish
  have hcoded : magnitudes = codedMagnitudes a := hmagnitudes
  have hmags : ∀ v ∈ magnitudes, 0 ≤ v ∧ v < 2 ^ 63 := by
    intro v hv
    rw [hmagnitudes] at hv
    obtain ⟨w, hw, rfl⟩ := List.mem_map.mp hv
    refine ⟨abs_nonneg w, ?_⟩
    have hfit : FitsI64 w := by
      rcases List.mem_or_eq_of_mem_set hw with hw | rfl
      · exact ha w hw
      · decide
    by_cases hneg : w < 0
    · rw [abs_of_neg hneg]
      exact (hnegated w hw hneg).2
    · rw [abs_of_nonneg (not_lt.mp hneg)]
      exact hfit.2
  have hsize : magnitudes.length = nx * ny := by
    rw [hmagnitudes, List.length_map, List.length_set, hlength]
  obtain ⟨⟨planes, back, padding, hout, hfew, hback, hspells⟩, hfirst⟩ :=
    BitOutput.doencode_ok hnx hny (by omega) (by omega) hsize hmags hencode
  rw [hout] at hbytes
  have hstring : SignBits.bits ⟨List.replicate ((nx * ny + 7) / 8) 0, 0, 8⟩ = [] := rfl
  rw [hstring, List.nil_append] at hsignbits
  have hhead : bytes = header nx ny a0 (bitPlanes magnitudes nx ny) ++ (back ++ signbits) := by
    rw [← hbytes, header, List.append_assoc]
  obtain ⟨hrest, hdecode⟩ := hdecompress_header codec hnx hny hx hy
    (ha a0 (List.mem_of_getElem? ha0)) (by simp [bitPlanes])
    (bitPlanes_le fun v hv => (hmags v hv).2) hhead
  have hleft := BitInput.left_bytes bytes 25 0
  rw [hrest, byteBits_append, hback, List.append_assoc, List.append_assoc] at hleft
  obtain ⟨received, bi, hreceived, hbi, hfewbits, hrun⟩ := dodecode_planes
    ⟨bytes, 25, 0, 0⟩ hspells hfew hnx hny hleft
  rw [hsignbytes, hsignbits] at hbi
  have hcorner : received[0]? = some 0 := by
    obtain ⟨rest, hquadrants⟩ := quadrants_cons nx ny
    have hmem : (sumQuadrant nx ny, 0) ∈ quadrants nx ny := by simp [hquadrants]
    obtain ⟨row, col, hplaced, -⟩ := mem_quadrants hnx hny hmem
    have hget := hreceived.holds _ hmem 0 hplaced.sound.rows 0 hplaced.sound.cols
    rw [hfirst (by rw [hcoded]; exact codedMagnitudes_first hlt)] at hget
    simpa [sumQuadrant] using hget
  rw [hcoded] at hreceived
  refine ⟨fun v hv => (hmags v (hcoded ▸ hv)).2, received, bi, signPadding, hreceived, hcorner, hbi, hfewbits, ?_⟩
  rw [hdecode, dodecode_of_planes hrun]

end FitsWell.Hcompress
