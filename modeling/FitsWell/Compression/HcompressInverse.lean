import FitsWell.Compression.HcompressPlane
import FitsWell.Usize

/-!
# The H-transform and its inverse

A plane of any extents comes back from its transform, whatever the parities of the extents
its levels run through, and a line of values comes back from its shuffle.
-/

namespace FitsWell.Hcompress

/-! ## Shuffles -/

/-- A slice whose grid is replaced by the values it held is unchanged. -/
theorem Replaced.eq_self {α : Type} {a a' : List α} {base stride nx ny : ℕ} {M : ℕ → ℕ → α}
    (h : Replaced a a' base stride nx ny M) (hholds : Holds a base stride nx ny M) : a' = a := by
  refine List.ext_getElem? (fun i => ?_)
  by_cases hplace : ∃ r < nx, ∃ c < ny, i = base + stride * r + c
  · obtain ⟨r, hr, c, hc, rfl⟩ := hplace
    rw [h.holds r hr c hc, hholds r hr c hc]
  · refine h.outside i (fun r hr c hc heq => hplace ⟨r, hr, c, hc, heq⟩)

/-- A copy of an element over an equal one changes nothing. -/
theorem copySlice_same {α : Type} {dst src : List α} {di si : ℕ} {v : α}
    (hdst : dst[di]? = some v) (hsrc : src[si]? = some v) : copySlice dst di src si 1 = .ok dst := by
  have hdi := (List.getElem?_eq_some_iff.mp hdst).1
  have hsi := (List.getElem?_eq_some_iff.mp hsrc).1
  obtain ⟨dst', hok, -, hget⟩ := copySlice_of_le (show di + 1 ≤ dst.length by omega)
    (show si + 1 ≤ src.length by omega)
  rw [hok]
  congr 1
  refine List.ext_getElem? (fun i => ?_)
  rw [hget i]
  split
  · obtain rfl : i = di := by omega
    rw [Nat.sub_self, Nat.add_zero, hsrc, hdst]
  · rfl

section Line

variable {a tmp tmp' : List ℤ} {base n stride : ℕ}

/-- The values of a line as a grid of one column. -/
theorem line_holds (hline : ∀ r < n, base + stride * r < a.length) :
    Holds a base stride n 1 fun r c => a.getD (base + stride * r + c) 0 := by
  intro r hr c hc
  have hlt := hline r hr
  obtain rfl : c = 0 := by omega
  dsimp only
  rw [List.getD_eq_getElem?_getD, List.getElem?_eq_getElem (by omega), Option.getD_some]

/-- Copies of the value at `base` fill a buffer with it. -/
theorem buffer_of_base {v : ℤ} {count : ℕ} {source : ℕ → ℕ} (hline : 0 < count → a[base]? = some v)
    (hsource : ∀ k, source k = base) (htmp : count ≤ tmp.length) :
    ∃ t, (List.range count).foldlM (fun tmp k => copySlice tmp (k * 1) a (source k) 1) tmp =
        .ok t ∧ t.length = tmp.length ∧ ∀ k < count, t[k]? = some v :=
  Loops.range_total
    (P := fun count (t : List ℤ) => t.length = tmp.length ∧ ∀ k < count, t[k]? = some v)
    ⟨rfl, fun k hk => absurd hk (Nat.not_lt_zero k)⟩
    (by
      rintro k hk t ⟨hlength, hheld⟩
      have hsrc := hline (by omega)
      have hlt := (List.getElem?_eq_some_iff.mp hsrc).1
      obtain ⟨t', hok, hlength', hget⟩ := @copySlice_of_le _ t a (k * 1) (source k) 1
        (by omega) (by rw [hsource]; omega)
      refine ⟨t', hok, hlength'.trans hlength, fun i hi => ?_⟩
      rw [hget i]
      split
      · rwa [hsource, show base + (i - k * 1) = base by omega]
      · exact hheld i (by omega))

/-- Copies of the value at `base` over itself change nothing. -/
theorem same_of_base {count : ℕ} {copies : List ℤ → ℕ → Outcome (List ℤ)}
    (hcopies : ∀ k < count, copies a k = .ok a) :
    (List.range count).foldlM copies a = .ok a := by
  have hstep : ∀ k < count, ∀ a', a' = a → ∃ next, copies a' k = .ok next ∧ next = a := by
    intro k hk a' hsame
    exact ⟨a, hsame ▸ hcopies k hk, rfl⟩
  obtain ⟨a', hok, hsame⟩ := Loops.range_total (P := fun _ a' => a' = a) (s := a) rfl hstep
  rwa [hsame] at hok

/-- A line whose values all lie in one place is its own shuffle. -/
theorem shuffle_zero {v : ℤ} (hline : 0 < n → a[base]? = some v) (htmp : n / 2 ≤ tmp.length) :
    ∃ t, shuffle a base n 0 tmp = .ok (a, t) := by
  obtain ⟨t, hok, -, hheld⟩ := buffer_of_base (fun hcount => hline (by omega))
    (fun pt => by omega : ∀ pt, base + 0 * (2 * pt + 1) = base) htmp
  refine ⟨t, ?_⟩
  rw [shuffle, deinterleave, Loops.bind_ok hok, Loops.bind_ok, Loops.bind_ok]
  · refine same_of_base fun pt hpt => copySlice_same (v := v) ?_ ?_
    · rw [Nat.zero_mul]
      exact hline (by omega)
    · rw [Nat.mul_one]
      exact hheld pt hpt
  · refine same_of_base fun k hk => copySlice_same (v := v) ?_ ?_
    · rw [Nat.zero_mul]
      exact hline (by omega)
    · rw [Nat.zero_mul]
      exact hline (by omega)

/-- And its own unshuffling. -/
theorem unshuffle_zero {v : ℤ} (hline : 0 < n → a[base]? = some v) (htmp : n / 2 ≤ tmp.length) :
    ∃ t, unshuffle a base n 0 tmp = .ok (a, t) := by
  obtain ⟨t, hok, -, hheld⟩ := buffer_of_base (fun hcount => hline (by omega))
    (fun i => by omega : ∀ i, base + 0 * ((n + 1) / 2 + i) = base)
    (by omega : n - (n + 1) / 2 ≤ tmp.length)
  refine ⟨t, ?_⟩
  rw [unshuffle, interleave]
  dsimp only
  rw [Loops.bind_ok hok, Loops.bind_ok, Loops.bind_ok]
  · refine same_of_base fun pt hpt => copySlice_same (v := v) ?_ ?_
    · rw [Nat.zero_mul]
      exact hline (by omega)
    · rw [Nat.mul_one]
      exact hheld pt (by omega)
  · refine same_of_base fun k hk => copySlice_same (v := v) ?_ ?_
    · rw [Nat.zero_mul]
      exact hline (by omega)
    · rw [Nat.zero_mul]
      exact hline (by omega)

/-- A line comes back from its shuffle, whatever its length and stride. -/
theorem unshuffle_shuffle (hline : ∀ r < n, base + stride * r < a.length)
    (htmp : n / 2 ≤ tmp.length) (htmp' : n / 2 ≤ tmp'.length) :
    ∃ shuffled t t', shuffle a base n stride tmp = .ok (shuffled, t) ∧
      unshuffle shuffled base n stride tmp' = .ok (a, t') := by
  rcases Nat.eq_zero_or_pos stride with rfl | hstride
  · have hfirst : 0 < n → a[base]? = some (a.getD base 0) := by
      intro hn
      have hlt := hline 0 hn
      rw [List.getD_eq_getElem?_getD, List.getElem?_eq_getElem (by omega), Option.getD_some]
    obtain ⟨t, hshuffle⟩ := shuffle_zero hfirst htmp
    obtain ⟨t', hunshuffle⟩ := unshuffle_zero hfirst htmp'
    exact ⟨a, t, t', hshuffle, hunshuffle⟩
  · have hholds := line_holds hline
    obtain ⟨shuffled, t, hshuffle, -, hreplaced⟩ :=
      deinterleave_ok Nat.one_pos hstride hholds (by omega : n / 2 * 1 ≤ tmp.length)
    obtain ⟨back, t', hunshuffle, -, hreplaced'⟩ :=
      interleave_ok Nat.one_pos hstride hreplaced.holds (by omega : n / 2 * 1 ≤ tmp'.length)
    have hsame : back = a := by
      refine (hreplaced.trans (hreplaced'.congr fun r hr c _ => ?_)).eq_self hholds
      rw [shuffledFrom_unshuffledFrom hr]
    exact ⟨shuffled, t, t', hshuffle, by rw [unshuffle, hunshuffle, hsame]⟩

end Line

/-! ## Planes -/

/-- A plane of `nx` rows of `ny` values, in one slice. -/
structure Plane (nx ny : ℕ) where
  values : List ℤ
  length_eq : values.length = nx * ny
  fits : ∀ v ∈ values, FitsI64 v
  room : 8 * values.length ≤ isizeMax

/-- A plane in one slice has fewer levels than a word has bits. -/
theorem Plane.levels_le {nx ny : ℕ} (plane : Plane nx ny) (hnx : 0 < nx) (hny : 0 < ny) :
    levels nx ny ≤ 60 := by
  have hroom := plane.room
  rw [plane.length_eq, isizeMax] at hroom
  have hx : nx ≤ nx * ny := Nat.le_mul_of_pos_right nx hny
  have hy : ny ≤ nx * ny := Nat.le_mul_of_pos_left ny hnx
  exact log2Ceil_le (by omega) (by omega)

/-- A plane whose transform leaves no sum out of range comes back from it, and a line of any
length and stride from its shuffle. -/
theorem h_transform_inverts {nx ny : ℕ} (hnx : 1 ≤ nx) (hny : 1 ≤ ny) (plane : Plane nx ny)
    {a : List ℤ} (hok : htrans plane.values nx ny = .ok a) :
    (∀ scale, hinv a nx ny scale .off = .ok plane.values) ∧
      ∀ (line : List ℤ) (base n stride : ℕ) (tmp tmp' : List ℤ),
        (∀ r < n, base + stride * r < line.length) → n / 2 ≤ tmp.length → n / 2 ≤ tmp'.length →
          ∃ shuffled t t', shuffle line base n stride tmp = .ok (shuffled, t) ∧
            unshuffle shuffled base n stride tmp' = .ok (line, t') := by
  have hlevels := plane.levels_le hnx hny
  refine ⟨fun scale => ?_, fun line base n stride tmp tmp' hline htmp htmp' => ?_⟩
  · exact hinv_htrans hnx hny (by omega) plane.length_eq plane.fits hok
  · exact unshuffle_shuffle hline htmp htmp'

/-- A plane of two rows of three values. -/
def smallPlane : Plane 2 3 := ⟨[5, -7, 0, 9, 2, -1], rfl, by decide, by decide⟩

/-- An odd row length and negative values come back. -/
theorem h_transform_inverts_small : ∃ a, htrans smallPlane.values 2 3 = .ok a ∧
    hinv a 2 3 0 .off = .ok smallPlane.values := by
  have hrun : (htrans smallPlane.values 2 3).isOk = true := by decide +kernel
  cases hok : htrans smallPlane.values 2 3 with
  | error fault =>
    rw [hok] at hrun
    cases hrun
  | ok a => exact ⟨a, rfl, (h_transform_inverts (by decide) (by decide) smallPlane hok).1 0⟩

end FitsWell.Hcompress
