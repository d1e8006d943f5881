import FitsWell.Slices
import FitsWell.Usize

/-!
# The H-transform

The transform takes the sums and differences of 2×2 blocks, moves the sums to the front
of the plane and goes on with them, until one sum is left. Each level rounds what it
keeps to multiples of a power of two, which the inverse restores from the parities of the
differences. A plane is a slice of rows of `ny` values, and a level works on its first
rows and columns.
-/

namespace FitsWell.Hcompress

variable {α : Type}

/-- An encoder's refusal of a value the stream's 64-bit field does not hold. -/
def transformOverflow : FitsError := .unsupportedCompression .hcompressRange

/-- A transform value as the `i64` the plane holds. -/
def checkedTransformValue (value : ℤ) : Outcome ℤ :=
  if FitsI64 value then .ok value else fail transformOverflow

/-- A transform value rounded to a multiple of `-mask`. -/
def roundedTransformValue (value rounding mask : ℤ) : Outcome ℤ := do
  let value ← checkedTransformValue (value + rounding)
  .ok (and64 value mask)

/-- A decoded transform value as the `i64` the plane holds: an encoder's stream never
leaves that range. -/
def decodedCoefficient (value : ℤ) : Outcome ℤ :=
  if FitsI64 value then .ok value else fail HcompressDefect.coefficientOverflow.error

/-- Round `v` to a multiple of `-mask`, by the constant of its sign. -/
def roundSigned (v prnd nrnd mask : ℤ) : Outcome ℤ := do
  let value ← decodedCoefficient (v + if 0 ≤ v then prnd else nrnd)
  .ok (and64 value mask)

/-- The rounded base-two logarithm: `log₂ n + 0.5` rounded down. Where the source's float
logarithm falls on the other side of a half, `log2Ceil` is the same. -/
def roundedLog2 (n : ℕ) : ℕ := Nat.log2 (2 * n * n) / 2

/-- The least power of two not below `n`, from a rounded logarithm. -/
def log2Ceil (n : ℕ) : ℕ :=
  let log2n := roundedLog2 n
  if 2 ^ log2n < n then log2n + 1 else log2n

/-- `1 << log2n`, of a 64-bit word. -/
def onePlace (log2n : ℕ) : Outcome ℕ :=
  if log2n < 64 then .ok (2 ^ log2n) else abort .shiftOverflow

/-! ## Blocks -/

/-- The four values of a 2×2 block. -/
structure Quad (α : Type) where
  s00 : α
  s01 : α
  s10 : α
  s11 : α
  deriving DecidableEq, Repr

/-- A block's place in the order of blocks, its first row and column, and whether the plane
reaches below and right of them. -/
structure Block where
  index : ℕ
  row : ℕ
  col : ℕ
  below : Bool
  right : Bool
  deriving DecidableEq, Repr

/-- The blocks of `nx` rows of `ny` values, row by row. -/
def blocks (nx ny : ℕ) : List Block :=
  (List.range ((nx + 1) / 2)).flatMap fun i =>
    (List.range ((ny + 1) / 2)).map fun j =>
      ⟨(ny + 1) / 2 * i + j, 2 * i, 2 * j, decide (2 * i + 1 < nx), decide (2 * j + 1 < ny)⟩

/-- The element at `i` where it is present, else `absent`. -/
def loadIf (present : Bool) (a : List α) (i : ℕ) (absent : α) : Outcome α :=
  if present then load a i else .ok absent

/-- Replace the element at `i` where it is present. -/
def storeIf (present : Bool) (a : List α) (i : ℕ) (v : α) : Outcome (List α) :=
  if present then store a i v else .ok a

/-- The values of a block of the plane whose first row starts at `base`, with `absent` for
those past the plane's edge. -/
def Block.load (block : Block) (a : List α) (base stride : ℕ) (absent : α) :
    Outcome (Quad α) := do
  let s00 := base + stride * block.row + block.col
  let s10 := s00 + stride
  let v00 ← FitsWell.load a s00
  let v01 ← loadIf block.right a (s00 + 1) absent
  let v10 ← loadIf block.below a s10 absent
  let v11 ← loadIf (block.below && block.right) a (s10 + 1) absent
  .ok ⟨v00, v01, v10, v11⟩

/-- Replace the values of a block, those inside the plane. -/
def Block.store (block : Block) (a : List α) (base stride : ℕ) (q : Quad α) :
    Outcome (List α) := do
  let s00 := base + stride * block.row + block.col
  let s10 := s00 + stride
  let a ← storeIf (block.below && block.right) a (s10 + 1) q.s11
  let a ← storeIf block.below a s10 q.s10
  let a ← storeIf block.right a (s00 + 1) q.s01
  FitsWell.store a s00 q.s00

/-- Replace each block of a plane in place by what `body` makes of it. -/
def updateBlocks (body : Block → Quad α → Outcome (Quad α)) (base stride nx ny : ℕ) (absent : α)
    (a : List α) : Outcome (List α) :=
  (blocks nx ny).foldlM (fun a block => do
    let q ← block.load a base stride absent
    let q ← body block q
    block.store a base stride q) a

/-! ## Shuffling -/

/-- Move the records of odd index behind those of even index: `n` records of `width`
values, `stride` apart, through the buffer `tmp`. -/
def deinterleave (base stride width n : ℕ) (a tmp : List α) : Outcome (List α × List α) := do
  let tmp ← (List.range (n / 2)).foldlM (fun tmp pt =>
    copySlice tmp (pt * width) a (base + stride * (2 * pt + 1)) width) tmp
  let a ← (List.range ((n + 1) / 2 - 1)).foldlM (fun a k =>
    copySlice a (base + stride * (k + 1)) a (base + stride * (2 * (k + 1))) width) a
  let a ← (List.range (n / 2)).foldlM (fun a pt =>
    copySlice a (base + stride * ((n + 1) / 2 + pt)) tmp (pt * width) width) a
  .ok (a, tmp)

/-- Move the records of the second half between those of the first, the inverse of
`deinterleave`. -/
def interleave (base stride width n : ℕ) (a tmp : List α) : Outcome (List α × List α) := do
  let nhalf := (n + 1) / 2
  let tmp ← (List.range (n - nhalf)).foldlM (fun tmp i =>
    copySlice tmp (i * width) a (base + stride * (nhalf + i)) width) tmp
  let a ← (List.range nhalf).foldlM (fun a k =>
    let i := nhalf - 1 - k
    copySlice a (base + stride * (2 * i)) a (base + stride * i) width) a
  let a ← (List.range (n / 2)).foldlM (fun a pt =>
    copySlice a (base + stride * (2 * pt + 1)) tmp (pt * width) width) a
  .ok (a, tmp)

/-- Group the `n` values from `base` on, `n2` apart, by the parity of their place. -/
def shuffle (a : List ℤ) (base n n2 : ℕ) (tmp : List ℤ) : Outcome (List ℤ × List ℤ) :=
  deinterleave base n2 1 n a tmp

/-- Group the first `nxtop` rows by the parity of their place, in their first `nytop`
values. -/
def shuffleRows (a : List ℤ) (nxtop nytop ny : ℕ) (rowTmp : List ℤ) :
    Outcome (List ℤ × List ℤ) :=
  deinterleave 0 ny nytop nxtop a rowTmp

/-- Undo `shuffle`. -/
def unshuffle (a : List ℤ) (base n n2 : ℕ) (tmp : List ℤ) : Outcome (List ℤ × List ℤ) :=
  interleave base n2 1 n a tmp

/-- Undo `shuffleRows`. -/
def unshuffleRows (a : List ℤ) (nxtop nytop ny : ℕ) (rowTmp : List ℤ) :
    Outcome (List ℤ × List ℤ) :=
  interleave 0 ny nytop nxtop a rowTmp

/-- Apply `move` to each of the first `nxtop` rows. -/
def eachRow (move : List ℤ → ℕ → List ℤ → Outcome (List ℤ × List ℤ)) (nxtop ny : ℕ)
    (a tmp : List ℤ) : Outcome (List ℤ × List ℤ) :=
  (List.range nxtop).foldlM (fun (s : List ℤ × List ℤ) i => move s.1 (ny * i) s.2) (a, tmp)

/-! ## The forward transform -/

/-- The constants of a level of the forward transform. -/
structure ForwardLevel where
  shift : ℕ
  mask : ℤ
  mask2 : ℤ
  prnd : ℤ
  prnd2 : ℤ
  nrnd2 : ℤ

/-- The constants of the first level. -/
def ForwardLevel.first : ForwardLevel := ⟨0, -2, -4, 1, 2, 1⟩

/-- The constants of the level after one. -/
def ForwardLevel.next (l : ForwardLevel) : ForwardLevel :=
  ⟨1, l.mask2, l.mask2 * 2, l.prnd2, l.prnd2 * 2, l.prnd2 * 2 - 1⟩

/-- The sum of a block, rounded. -/
def ForwardLevel.roundSum (l : ForwardLevel) (h0 : ℤ) : Outcome ℤ :=
  roundedTransformValue h0 (if 0 ≤ h0 then l.prnd2 else l.nrnd2) l.mask2

/-- A difference of a block, rounded. -/
def ForwardLevel.roundDifference (l : ForwardLevel) (h : ℤ) : Outcome ℤ :=
  roundedTransformValue h (if 0 ≤ h then l.prnd else 0) l.mask

/-- The sums and differences of a block; at an odd edge, of the values there are. -/
def ForwardLevel.block (l : ForwardLevel) (block : Block) (q : Quad ℤ) : Outcome (Quad ℤ) :=
  match block.below, block.right with
  | true, true => do
    let h0 ← checkedTransformValue ((q.s11 + q.s10 + q.s01 + q.s00) >>> l.shift)
    let hx ← checkedTransformValue ((q.s11 + q.s10 - q.s01 - q.s00) >>> l.shift)
    let hy ← checkedTransformValue ((q.s11 - q.s10 + q.s01 - q.s00) >>> l.shift)
    let hc ← checkedTransformValue ((q.s11 - q.s10 - q.s01 + q.s00) >>> l.shift)
    let s10 ← l.roundDifference hx
    let s01 ← l.roundDifference hy
    let s00 ← l.roundSum h0
    .ok ⟨s00, s01, s10, hc⟩
  | true, false => do
    let h0 ← checkedTransformValue ((q.s10 + q.s00) * 2 ^ (1 - l.shift))
    let hx ← checkedTransformValue ((q.s10 - q.s00) * 2 ^ (1 - l.shift))
    let s10 ← l.roundDifference hx
    let s00 ← l.roundSum h0
    .ok ⟨s00, q.s01, s10, q.s11⟩
  | false, true => do
    let h0 ← checkedTransformValue ((q.s01 + q.s00) * 2 ^ (1 - l.shift))
    let hy ← checkedTransformValue ((q.s01 - q.s00) * 2 ^ (1 - l.shift))
    let s01 ← l.roundDifference hy
    let s00 ← l.roundSum h0
    .ok ⟨s00, s01, q.s10, q.s11⟩
  | false, false => do
    let h0 ← checkedTransformValue (q.s00 * 2 ^ (2 - l.shift))
    let s00 ← l.roundSum h0
    .ok ⟨s00, q.s01, q.s10, q.s11⟩

/-- The workspaces of a transform: a line and its rows. -/
structure Workspace where
  tmp : List ℤ
  rowTmp : List ℤ

/-- One level of the forward transform. -/
def ForwardLevel.run (l : ForwardLevel) (ny nxtop nytop : ℕ) (a : List ℤ) (ws : Workspace) :
    Outcome (List ℤ × Workspace) := do
  let a ← updateBlocks l.block 0 ny nxtop nytop 0 a
  let (a, tmp) ← eachRow (fun a base tmp => shuffle a base nytop 1 tmp) nxtop ny a ws.tmp
  let (a, rowTmp) ← shuffleRows a nxtop nytop ny ws.rowTmp
  .ok (a, ⟨tmp, rowTmp⟩)

/-- The levels of the forward transform from one on, each on the sums of the one before. -/
def forwardLevels (ny : ℕ) : ℕ → ForwardLevel → ℕ → ℕ → List ℤ → Workspace → Outcome (List ℤ)
  | 0, _, _, _, a, _ => .ok a
  | count + 1, l, nxtop, nytop, a, ws => do
    let (a, ws) ← l.run ny nxtop nytop a ws
    forwardLevels ny count l.next ((nxtop + 1) / 2) ((nytop + 1) / 2) a ws

/-- The forward H-transform of a plane of `nx` rows of `ny` values. -/
def htrans (a : List ℤ) (nx ny : ℕ) : Outcome (List ℤ) :=
  let nmax := max nx ny
  let log2n := log2Ceil nmax
  if 62 < log2n then
    fail transformOverflow
  else
    let tmp : List ℤ := List.replicate (max ((nmax + 1) / 2) 1) 0
    let rowTmp : List ℤ := List.replicate ((nx + 1) / 2 * max ny 1) 0
    forwardLevels ny log2n .first nx ny a ⟨tmp, rowTmp⟩

/-- Round each coefficient to a multiple of `scale`, which a lossless one leaves. -/
def digitize (a : List ℤ) (scale : ℤ) : Outcome (List ℤ) :=
  if scale ≤ 1 then
    .ok a
  else
    let d := (scale + 1) / 2 - 1
    a.mapM fun v => checkedTransformValue ((if 0 < v then v + d else v - d).tdiv scale)

/-- Undo `digitize`, as far as it can be undone. -/
def undigitize (a : List ℤ) (scale : ℤ) : Outcome (List ℤ) :=
  if scale ≤ 1 then .ok a else a.mapM fun v => decodedCoefficient (v * scale)

/-! ## The inverse transform -/

/-- The constants of a level of the inverse transform. -/
structure InverseLevel where
  shift : ℕ
  bit0 : ℤ
  bit1 : ℤ
  mask0 : ℤ
  mask1 : ℤ
  prnd0 : ℤ
  prnd1 : ℤ
  nrnd0 : ℤ
  nrnd1 : ℤ

/-- The constants of the coarsest of `log2n` levels. -/
def InverseLevel.first (log2n : ℕ) : InverseLevel :=
  let bit0 : ℤ := 2 ^ (log2n - 1)
  let bit1 := bit0 * 2
  let mask0 := -bit0
  let prnd0 := bit0 >>> (1 : ℕ)
  let prnd1 := bit1 >>> (1 : ℕ)
  ⟨1, bit0, bit1, mask0, mask0 * 2, prnd0, prnd1, prnd0 - 1, prnd1 - 1⟩

/-- The constants of a level as its step uses them: the last one, `k = 0`, ends the
halving. -/
def InverseLevel.at (l : InverseLevel) (k : ℕ) : InverseLevel :=
  if k = 0 then { l with nrnd0 := 0, shift := 2 } else l

/-- The constants of the level after one. -/
def InverseLevel.next (l : InverseLevel) : InverseLevel :=
  let prnd0 := l.prnd0 >>> (1 : ℕ)
  { l with
    bit1 := l.bit0
    bit0 := l.bit0 >>> (1 : ℕ)
    mask1 := l.mask0
    mask0 := l.mask0 >>> (1 : ℕ)
    prnd1 := l.prnd0
    prnd0 := prnd0
    nrnd1 := l.nrnd0
    nrnd0 := prnd0 - 1 }

/-- One value of a block from its sum and differences. -/
def inverseCoefficient (h0 hx hy hc : ℤ) (shift : ℕ) (sx sy sc : ℤ) : Outcome ℤ :=
  decodedCoefficient ((h0 + hx * sx + hy * sy + hc * sc) >>> shift)

/-- The values of a block from its rounded sum and differences: the digits the rounding
took from the sum and the differences are the parities of the others. -/
def InverseLevel.block (l : InverseLevel) (block : Block) (q : Quad ℤ) : Outcome (Quad ℤ) :=
  match block.below, block.right with
  | true, true => do
    let hx ← roundSigned q.s10 l.prnd1 l.nrnd1 l.mask1
    let hy ← roundSigned q.s01 l.prnd1 l.nrnd1 l.mask1
    let hc ← roundSigned q.s11 l.prnd0 l.nrnd0 l.mask0
    let lowbit0 := and64 hc l.bit0
    let hx ← checkI64 (if 0 ≤ hx then hx - lowbit0 else hx + lowbit0)
    let hy ← checkI64 (if 0 ≤ hy then hy - lowbit0 else hy + lowbit0)
    let lowbit1 := and64 (xor64 (xor64 hc hx) hy) l.bit1
    let h0 ← decodedCoefficient (q.s00 +
      if 0 ≤ q.s00 then lowbit0 - lowbit1
      else if lowbit0 = 0 then lowbit1 else lowbit0 - lowbit1)
    let s11 ← inverseCoefficient h0 hx hy hc l.shift 1 1 1
    let s10 ← inverseCoefficient h0 hx hy hc l.shift 1 (-1) (-1)
    let s01 ← inverseCoefficient h0 hx hy hc l.shift (-1) 1 (-1)
    let s00 ← inverseCoefficient h0 hx hy hc l.shift (-1) (-1) 1
    .ok ⟨s00, s01, s10, s11⟩
  | true, false => do
    let hx ← roundSigned q.s10 l.prnd1 l.nrnd1 l.mask1
    let lowbit1 := and64 hx l.bit1
    let h0 ← decodedCoefficient (q.s00 + if 0 ≤ q.s00 then -lowbit1 else lowbit1)
    let s10 ← decodedCoefficient ((h0 + hx) >>> l.shift)
    let s00 ← decodedCoefficient ((h0 - hx) >>> l.shift)
    .ok ⟨s00, q.s01, s10, q.s11⟩
  | false, true => do
    let hy ← roundSigned q.s01 l.prnd1 l.nrnd1 l.mask1
    let lowbit1 := and64 hy l.bit1
    let h0 ← decodedCoefficient (q.s00 + if 0 ≤ q.s00 then -lowbit1 else lowbit1)
    let s01 ← decodedCoefficient ((h0 + hy) >>> l.shift)
    let s00 ← decodedCoefficient ((h0 - hy) >>> l.shift)
    .ok ⟨s00, s01, q.s10, q.s11⟩
  | false, false => .ok ⟨q.s00 >>> l.shift, q.s01, q.s10, q.s11⟩

/-! ## Smoothing -/

/-- The places `start`, `start + 2` and on below `stop`. -/
def evens (start stop : ℕ) : List ℕ :=
  (List.range ((stop - start + 1) / 2)).map fun t => start + 2 * t

/-- A value divided by a power of two, rounded toward zero. -/
def shr (s : ℤ) (k : ℕ) : ℤ := if 0 ≤ s then s >>> k else (s + 2 ^ k - 1) >>> k

/-- A value brought into a range. -/
def clamp (v low high : ℤ) : ℤ := max low (min v high)

/-- Adjust the difference at `place` toward `diff`, an estimate of `2 ^ k` times it from the
values around it, by at most `smax`; bounds out of order leave it. -/
def adjust (a : List ℤ) (place k : ℕ) (diff dmin dmax smax : ℤ) : Outcome (List ℤ) :=
  if dmin < dmax then do
    let h ← load a place
    let s := clamp (shr (clamp diff dmin dmax - h * 2 ^ k) k) (-smax) smax
    let h ← decodedCoefficient (h + s)
    store a place h
  else
    .ok a

/-- Adjust a difference by the sums before, at and after its block along its axis. -/
def smoothAxis (a : List ℤ) (before centre after place : ℕ) (smax : ℤ) : Outcome (List ℤ) := do
  let hm ← load a before
  let h0 ← load a centre
  let hp ← load a after
  let dmax := max (min (hp - h0) (h0 - hm)) 0 * 4
  let dmin := min (max (hp - h0) (h0 - hm)) 0 * 4
  adjust a place 3 (hp - hm) dmin dmax smax

/-- Adjust the curvature of the block at `s00` by the sums of the blocks at its corners. -/
def smoothCurvature (a : List ℤ) (s00 ny : ℕ) (smax : ℤ) : Outcome (List ℤ) := do
  let ny2 := ny * 2
  let s10 := s00 + ny
  let above ← subUsize s00 ny2
  let aboveLeft ← subUsize above 2
  let hmm ← load a aboveLeft
  let belowLeft ← subUsize (s00 + ny2) 2
  let hpm ← load a belowLeft
  let hmp ← load a (above + 2)
  let hpp ← load a (s00 + ny2 + 2)
  let h0 ← load a s00
  let diff := hpp + hmm - hmp - hpm
  let hx ← load a s10
  let hy ← load a (s00 + 1)
  let hx2 := hx * 2
  let hy2 := hy * 2
  let m1 := min (max (hpp - h0) 0 - hx2 - hy2) (max (h0 - hpm) 0 + hx2 - hy2)
  let m2 := min (max (h0 - hmp) 0 - hx2 + hy2) (max (hmm - h0) 0 + hx2 + hy2)
  let dmax := min m1 m2 * 16
  let m1 := max (min (hpp - h0) 0 - hx2 - hy2) (min (h0 - hpm) 0 + hx2 - hy2)
  let m2 := max (min (h0 - hmp) 0 - hx2 + hy2) (min (hmm - h0) 0 + hx2 + hy2)
  let dmin := max m1 m2 * 16
  adjust a (s10 + 1) 6 diff dmin dmax smax

/-- Smooth the differences of a level by interpolation between the sums: along the rows,
along the columns, then the curvatures. A lossless scale has no room to adjust in. -/
def hsmooth (a : List ℤ) (nxtop nytop ny : ℕ) (scale : ℤ) : Outcome (List ℤ) :=
  let smax := scale >>> (1 : ℕ)
  if smax ≤ 0 then
    .ok a
  else do
    let ny2 := ny * 2
    let a ← (evens 2 (nxtop - 2)).foldlM (fun a i =>
      (evens 0 nytop).foldlM (fun a j => do
        let s00 := ny * i + j
        let above ← subUsize s00 ny2
        smoothAxis a above s00 (s00 + ny2) (s00 + ny) smax) a) a
    let a ← (evens 0 nxtop).foldlM (fun a i =>
      (evens 2 (nytop - 2)).foldlM (fun a j => do
        let s00 := ny * i + j
        let left ← subUsize s00 2
        smoothAxis a left s00 (s00 + 2) (s00 + 1) smax) a) a
    (evens 2 (nxtop - 2)).foldlM (fun a i =>
      (evens 2 (nytop - 2)).foldlM (fun a j =>
        smoothCurvature a (ny * i + j) ny smax) a) a

/-- Whether the inverse transform smooths each level first. -/
inductive Smoothing
  | off
  | on
  deriving DecidableEq, Repr

/-! ## The inverse levels -/

/-- One axis of the levels of a transform, from the coarsest on: its extent at the level,
and the part of its whole extent that the last of its steps of `c` covers. -/
structure Axis where
  top : ℕ
  left : ℕ
  deriving DecidableEq, Repr

/-- The axis at the next finer level, whose steps are `c`. -/
def Axis.grow (axis : Axis) (c : ℕ) : Axis :=
  if axis.left ≤ c then ⟨2 * axis.top - 1, axis.left⟩ else ⟨2 * axis.top, axis.left - c⟩

/-- One level of the inverse transform. -/
def InverseLevel.run (l : InverseLevel) (smoothing : Smoothing) (scale : ℤ) (ny nxtop nytop : ℕ)
    (a : List ℤ) (ws : Workspace) : Outcome (List ℤ × Workspace) := do
  let (a, tmp) ← eachRow (fun a base tmp => unshuffle a base nytop 1 tmp) nxtop ny a ws.tmp
  let (a, rowTmp) ← unshuffleRows a nxtop nytop ny ws.rowTmp
  let a ← if smoothing = .on then hsmooth a nxtop nytop ny scale else .ok a
  let a ← updateBlocks l.block 0 ny nxtop nytop 0 a
  .ok (a, ⟨tmp, rowTmp⟩)

/-- The levels of the inverse transform, from the coarsest of `count` on. -/
def inverseLevels (smoothing : Smoothing) (scale : ℤ) (ny : ℕ) :
    ℕ → InverseLevel → ℕ → Axis → Axis → List ℤ → Workspace → Outcome (List ℤ)
  | 0, _, _, _, _, a, _ => .ok a
  | k + 1, l, c, x, y, a, ws => do
    let c := c / 2
    let x := x.grow c
    let y := y.grow c
    let l := l.at k
    let (a, ws) ← l.run smoothing scale ny x.top y.top a ws
    inverseLevels smoothing scale ny k l.next c x y a ws

/-- The inverse H-transform of a plane of `nx` rows of `ny` values. -/
def hinv (a : List ℤ) (nx ny : ℕ) (scale : ℤ) (smoothing : Smoothing) : Outcome (List ℤ) :=
  let nmax := max nx ny
  if nmax ≤ 1 then
    .ok a
  else do
    let log2n := log2Ceil nmax
    let c ← onePlace log2n
    let tmp : List ℤ := List.replicate ((nmax + 1) / 2) 0
    let rowTmp : List ℤ := List.replicate ((nx + 1) / 2 * ny) 0
    let l := InverseLevel.first log2n
    let bit2 := l.bit0 * 4
    let prnd2 := bit2 >>> (1 : ℕ)
    let mask2 := l.mask0 * 4
    let a0 ← load a 0
    let a0 ← roundSigned a0 prnd2 (prnd2 - 1) mask2
    let a ← store a 0 a0
    inverseLevels smoothing scale ny log2n l c ⟨1, nx⟩ ⟨1, ny⟩ a ⟨tmp, rowTmp⟩

end FitsWell.Hcompress
