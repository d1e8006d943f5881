import FitsWell.Compression.HcompressGrid

/-!
# The shuffles of the H-transform

A shuffle moves the records of even index to the front of a line and those of odd index
behind them, and an unshuffle moves them back. Both are stated on the grid the records
form: its rows are permuted, and nothing else changes.
-/

namespace FitsWell.Hcompress

variable {α : Type}

/-- The index a record had before its line of `n` was shuffled. -/
def shuffledFrom (n r : ℕ) : ℕ := if r < (n + 1) / 2 then 2 * r else 2 * (r - (n + 1) / 2) + 1

/-- The index a record had before its line of `n` was unshuffled. -/
def unshuffledFrom (n r : ℕ) : ℕ := if r % 2 = 0 then r / 2 else (n + 1) / 2 + r / 2

theorem shuffledFrom_lt {n r : ℕ} (h : r < n) : shuffledFrom n r < n := by
  unfold shuffledFrom
  split <;> omega

theorem unshuffledFrom_lt {n r : ℕ} (h : r < n) : unshuffledFrom n r < n := by
  unfold unshuffledFrom
  split <;> omega

/-- Unshuffling undoes a shuffle. -/
theorem shuffledFrom_unshuffledFrom {n r : ℕ} (h : r < n) :
    shuffledFrom n (unshuffledFrom n r) = r := by
  unfold shuffledFrom unshuffledFrom
  split <;> split <;> omega

/-- A shuffle undoes an unshuffling. -/
theorem unshuffledFrom_shuffledFrom (n r : ℕ) :
    unshuffledFrom n (shuffledFrom n r) = r := by
  unfold shuffledFrom
  split
  · rw [unshuffledFrom, if_pos (by omega)]
    omega
  · rw [unshuffledFrom, if_neg (by omega)]
    omega

section Records

variable {a tmp : List α} {base stride n width : ℕ} {M : ℕ → ℕ → α}

/-- A record copied over another one replaces that row of the grid. -/
theorem copyRecord_ok {src : List α} {si d : ℕ} {v : ℕ → α} (hwidth : 0 < width)
    (hstride : width ≤ stride) (h : Holds a base stride n width M) (hd : d < n)
    (hsrc : ∀ c < width, src[si + c]? = some (v c)) :
    ∃ a', copySlice a (base + stride * d) src si width = .ok a' ∧
      Replaced a a' base stride n width fun r c => if r = d then v c else M r c := by
  have hlast := h.lt_length hd (show width - 1 < width by omega)
  have hsrclast := (List.getElem?_eq_some_iff.mp (hsrc (width - 1) (by omega))).1
  obtain ⟨a', hok, hlength, hget⟩ := copySlice_of_le
    (show base + stride * d + width ≤ a.length by omega)
    (show si + width ≤ src.length by omega)
  refine ⟨a', hok, hlength, ?_, ?_⟩
  · intro i hi
    rw [hget, if_neg]
    rintro ⟨hlow, hhigh⟩
    exact hi d hd (i - (base + stride * d)) (by omega) (by omega)
  · intro r hr c hc
    dsimp only
    rw [hget]
    by_cases heq : r = d
    · subst heq
      rw [if_pos ⟨by omega, by omega⟩, if_pos rfl, ← hsrc c hc]
      congr 1
      omega
    · rw [if_neg, h r hr c hc, if_neg heq]
      rintro ⟨hlow, hhigh⟩
      have hplace : stride * r + c = stride * d + (base + stride * r + c - (base + stride * d)) := by
        omega
      exact heq (place_inj hstride hc (by omega) hplace).1

/-- A record copied to a buffer lies at its place there. -/
theorem copyToBuffer_ok {t d : ℕ} {v : ℕ → ℕ → α} (hwidth : 0 < width)
    (h : Holds a base stride n width M) (hd : d < n) (ht : (t + 1) * width ≤ tmp.length)
    (htmp : ∀ k < t, ∀ c < width, tmp[k * width + c]? = some (v k c))
    (hv : ∀ c < width, v t c = M d c) :
    ∃ tmp', copySlice tmp (t * width) a (base + stride * d) width = .ok tmp' ∧
      tmp'.length = tmp.length ∧
      ∀ k < t + 1, ∀ c < width, tmp'[k * width + c]? = some (v k c) := by
  have hlast := h.lt_length hd (show width - 1 < width by omega)
  rw [Nat.add_mul, Nat.one_mul] at ht
  obtain ⟨tmp', hok, hlength, hget⟩ := copySlice_of_le
    (show t * width + width ≤ tmp.length by omega)
    (show base + stride * d + width ≤ a.length by omega)
  refine ⟨tmp', hok, hlength, ?_⟩
  intro k hk c hc
  rw [hget]
  by_cases heq : k = t
  · subst heq
    rw [if_pos ⟨by omega, by omega⟩, hv c hc, ← h d hd c hc]
    congr 1
    omega
  · have hbelow : (k + 1) * width ≤ t * width := Nat.mul_le_mul_right _ (by omega)
    rw [Nat.add_mul, Nat.one_mul] at hbelow
    rw [if_neg (by omega), htmp k (by omega) c hc]

/-- A shuffle permutes the records. -/
theorem deinterleave_ok (hwidth : 0 < width) (hstride : width ≤ stride)
    (h : Holds a base stride n width M) (htmp : n / 2 * width ≤ tmp.length) :
    ∃ a' tmp', deinterleave base stride width n a tmp = .ok (a', tmp') ∧
      tmp'.length = tmp.length ∧
      Replaced a a' base stride n width fun r c => M (shuffledFrom n r) c := by
  -- The odd records go to the buffer, the even ones move to the front, the odd ones return.
  have hodd : ∃ tmp', (List.range (n / 2)).foldlM (fun tmp pt =>
      copySlice tmp (pt * width) a (base + stride * (2 * pt + 1)) width) tmp = .ok tmp' ∧
      tmp'.length = tmp.length ∧
      ∀ k < n / 2, ∀ c < width, tmp'[k * width + c]? = some (M (2 * k + 1) c) := by
    apply Loops.range_total (P := fun t (tmp' : List α) => tmp'.length = tmp.length ∧
      ∀ k < t, ∀ c < width, tmp'[k * width + c]? = some (M (2 * k + 1) c))
    · exact ⟨rfl, fun k hk => absurd hk (Nat.not_lt_zero k)⟩
    · rintro t ht s ⟨hlength, hrows⟩
      have hroom : (t + 1) * width ≤ n / 2 * width := Nat.mul_le_mul_right _ ht
      obtain ⟨s', hok, hlength', hrows'⟩ := copyToBuffer_ok (v := fun k c => M (2 * k + 1) c)
        hwidth h (show 2 * t + 1 < n by omega) (by omega) hrows (fun _ _ => rfl)
      exact ⟨s', hok, hlength'.trans hlength, hrows'⟩
  obtain ⟨tmp', hok1, hlength, hbuffer⟩ := hodd
  have heven : ∃ a', (List.range ((n + 1) / 2 - 1)).foldlM (fun a k =>
      copySlice a (base + stride * (k + 1)) a (base + stride * (2 * (k + 1))) width) a = .ok a' ∧
      Replaced a a' base stride n width fun r c =>
        if r ≤ (n + 1) / 2 - 1 then M (2 * r) c else M r c := by
    apply Loops.range_total (P := fun k a' => Replaced a a' base stride n width fun r c =>
        if r ≤ k then M (2 * r) c else M r c)
    · apply (Replaced.refl h).congr
      intro r hr c hc
      split
      · rw [show r = 0 by omega]
      · rfl
    · intro k hk s hs
      have hsrc : ∀ c < width, s[base + stride * (2 * (k + 1)) + c]? = some (M (2 * (k + 1)) c) := by
        intro c hc
        rw [hs.holds _ (show 2 * (k + 1) < n by omega) c hc]
        dsimp only
        rw [if_neg (by omega)]
      obtain ⟨s', hok, hnext⟩ := copyRecord_ok hwidth hstride hs.holds
        (show k + 1 < n by omega) hsrc
      refine ⟨s', hok, (hs.trans hnext).congr ?_⟩
      intro r hr c hc
      by_cases heq : r = k + 1
      · rw [if_pos heq, if_pos (by omega), heq]
      · rw [if_neg heq]
        by_cases hle : r ≤ k
        · rw [if_pos hle, if_pos (by omega)]
        · rw [if_neg hle, if_neg (by omega)]
  obtain ⟨a1, hok2, hfront⟩ := heven
  have hback : ∃ a', (List.range (n / 2)).foldlM (fun a pt =>
      copySlice a (base + stride * ((n + 1) / 2 + pt)) tmp' (pt * width) width) a1 = .ok a' ∧
      Replaced a1 a' base stride n width fun r c =>
        if r < (n + 1) / 2 + n / 2 then M (shuffledFrom n r) c else M r c := by
    apply Loops.range_total (P := fun k a' => Replaced a1 a' base stride n width fun r c =>
        if r < (n + 1) / 2 + k then M (shuffledFrom n r) c else M r c)
    · apply (Replaced.refl hfront.holds).congr
      intro r hr c hc
      by_cases hlow : r < (n + 1) / 2
      · rw [if_pos (by omega), if_pos (by omega), shuffledFrom, if_pos hlow]
      · rw [if_neg (by omega), if_neg (by omega)]
    · intro k hk s hs
      obtain ⟨s', hok, hnext⟩ := copyRecord_ok hwidth hstride hs.holds
        (show (n + 1) / 2 + k < n by omega) (hbuffer k hk)
      refine ⟨s', hok, (hs.trans hnext).congr ?_⟩
      intro r hr c hc
      by_cases heq : r = (n + 1) / 2 + k
      · rw [if_pos heq, if_pos (by omega), shuffledFrom, if_neg (by omega), heq,
          Nat.add_sub_cancel_left]
      · rw [if_neg heq]
        by_cases hlt : r < (n + 1) / 2 + k
        · rw [if_pos hlt, if_pos (by omega)]
        · rw [if_neg hlt, if_neg (by omega)]
  obtain ⟨a2, hok3, hall⟩ := hback
  refine ⟨a2, tmp', ?_, hlength, (hfront.trans hall).congr ?_⟩
  · simp only [deinterleave, bind, Except.bind, hok1, hok2, hok3]
  · intro r hr c hc
    rw [if_pos (by omega)]

/-- An unshuffle permutes the records back. -/
theorem interleave_ok (hwidth : 0 < width) (hstride : width ≤ stride)
    (h : Holds a base stride n width M) (htmp : n / 2 * width ≤ tmp.length) :
    ∃ a' tmp', interleave base stride width n a tmp = .ok (a', tmp') ∧
      tmp'.length = tmp.length ∧
      Replaced a a' base stride n width fun r c => M (unshuffledFrom n r) c := by
  -- The second half goes to the buffer, the first one spreads out from its end, and the
  -- buffer fills the gaps.
  have hhigh : ∃ tmp', (List.range (n - (n + 1) / 2)).foldlM (fun tmp i =>
      copySlice tmp (i * width) a (base + stride * ((n + 1) / 2 + i)) width) tmp = .ok tmp' ∧
      tmp'.length = tmp.length ∧
      ∀ k < n - (n + 1) / 2, ∀ c < width,
        tmp'[k * width + c]? = some (M ((n + 1) / 2 + k) c) := by
    apply Loops.range_total (P := fun t (tmp' : List α) => tmp'.length = tmp.length ∧
      ∀ k < t, ∀ c < width, tmp'[k * width + c]? = some (M ((n + 1) / 2 + k) c))
    · exact ⟨rfl, fun k hk => absurd hk (Nat.not_lt_zero k)⟩
    · rintro t ht s ⟨hlength, hrows⟩
      have hroom : (t + 1) * width ≤ n / 2 * width := Nat.mul_le_mul_right _ (by omega)
      obtain ⟨s', hok, hlength', hrows'⟩ := copyToBuffer_ok (v := fun k c => M ((n + 1) / 2 + k) c)
        hwidth h (show (n + 1) / 2 + t < n by omega) (by omega) hrows (fun _ _ => rfl)
      exact ⟨s', hok, hlength'.trans hlength, hrows'⟩
  obtain ⟨tmp', hok1, hlength, hbuffer⟩ := hhigh
  have hspread : ∃ a', (List.range ((n + 1) / 2)).foldlM (fun a k =>
      copySlice a (base + stride * (2 * ((n + 1) / 2 - 1 - k))) a
        (base + stride * ((n + 1) / 2 - 1 - k)) width) a = .ok a' ∧
      Replaced a a' base stride n width fun r c =>
        if r % 2 = 0 ∧ (n + 1) / 2 ≤ r / 2 + (n + 1) / 2 then M (r / 2) c else M r c := by
    apply Loops.range_total (P := fun k a' => Replaced a a' base stride n width fun r c =>
        if r % 2 = 0 ∧ (n + 1) / 2 ≤ r / 2 + k then M (r / 2) c else M r c)
    · apply (Replaced.refl h).congr
      intro r hr c hc
      rw [if_neg (by omega)]
    · intro k hk s hs
      have hsrc : ∀ c < width, s[base + stride * ((n + 1) / 2 - 1 - k) + c]? =
          some (M ((n + 1) / 2 - 1 - k) c) := by
        intro c hc
        rw [hs.holds _ (show (n + 1) / 2 - 1 - k < n by omega) c hc]
        dsimp only
        rw [if_neg (by omega)]
      obtain ⟨s', hok, hnext⟩ := copyRecord_ok hwidth hstride hs.holds
        (show 2 * ((n + 1) / 2 - 1 - k) < n by omega) hsrc
      refine ⟨s', hok, (hs.trans hnext).congr ?_⟩
      intro r hr c hc
      by_cases heq : r = 2 * ((n + 1) / 2 - 1 - k)
      · rw [if_pos heq, if_pos (by omega)]
        congr 1
        omega
      · rw [if_neg heq]
        by_cases hmoved : r % 2 = 0 ∧ (n + 1) / 2 ≤ r / 2 + k
        · rw [if_pos hmoved, if_pos (by omega)]
        · rw [if_neg hmoved, if_neg (by omega)]
  obtain ⟨a1, hok2, heven⟩ := hspread
  have hfill : ∃ a', (List.range (n / 2)).foldlM (fun a pt =>
      copySlice a (base + stride * (2 * pt + 1)) tmp' (pt * width) width) a1 = .ok a' ∧
      Replaced a1 a' base stride n width fun r c =>
        if r % 2 = 0 ∨ r / 2 < n / 2 then M (unshuffledFrom n r) c else M r c := by
    apply Loops.range_total (P := fun k a' => Replaced a1 a' base stride n width fun r c =>
        if r % 2 = 0 ∨ r / 2 < k then M (unshuffledFrom n r) c else M r c)
    · apply (Replaced.refl heven.holds).congr
      intro r hr c hc
      by_cases hpar : r % 2 = 0
      · rw [if_pos (by omega), if_pos (by omega), unshuffledFrom, if_pos hpar]
      · rw [if_neg (by omega), if_neg (by omega)]
    · intro k hk s hs
      obtain ⟨s', hok, hnext⟩ := copyRecord_ok hwidth hstride hs.holds
        (show 2 * k + 1 < n by omega) (hbuffer k (by omega))
      refine ⟨s', hok, (hs.trans hnext).congr ?_⟩
      intro r hr c hc
      by_cases heq : r = 2 * k + 1
      · rw [if_pos heq, if_pos (by omega), unshuffledFrom, if_neg (by omega)]
        congr 1
        omega
      · rw [if_neg heq]
        by_cases hmoved : r % 2 = 0 ∨ r / 2 < k
        · rw [if_pos hmoved, if_pos (by omega)]
        · rw [if_neg hmoved, if_neg (by omega)]
  obtain ⟨a2, hok3, hall⟩ := hfill
  refine ⟨a2, tmp', ?_, hlength, (heven.trans hall).congr ?_⟩
  · simp only [interleave, bind, Except.bind, hok1, hok2, hok3]
  · intro r hr c hc
    rw [if_pos (by omega)]

end Records

/-! ## Shuffles of a plane -/

section Plane

variable {a tmp rowTmp : List ℤ} {ny nxtop nytop : ℕ} {M : ℕ → ℕ → ℤ}

/-- A permutation of each row of a grid. -/
theorem eachRow_ok {move : List ℤ → ℕ → List ℤ → Outcome (List ℤ × List ℤ)} {σ : ℕ → ℕ}
    (tmp : List ℤ)
    (hny : nytop ≤ ny) (h : Holds a 0 ny nxtop nytop M)
    (hmove : ∀ s base t N, Holds s base 1 nytop 1 N → t.length = tmp.length →
      ∃ s' t', move s base t = .ok (s', t') ∧ t'.length = t.length ∧
        Replaced s s' base 1 nytop 1 fun r c => N (σ r) c) :
    ∃ a' tmp', eachRow move nxtop ny a tmp = .ok (a', tmp') ∧ tmp'.length = tmp.length ∧
      Replaced a a' 0 ny nxtop nytop fun r c => M r (σ c) := by
  have hrun : ∃ s, eachRow move nxtop ny a tmp = .ok s ∧ s.2.length = tmp.length ∧
      Replaced a s.1 0 ny nxtop nytop fun r c => if r < nxtop then M r (σ c) else M r c := by
    apply Loops.range_total (P := fun k (s : List ℤ × List ℤ) => s.2.length = tmp.length ∧
      Replaced a s.1 0 ny nxtop nytop fun r c => if r < k then M r (σ c) else M r c)
    · refine ⟨rfl, (Replaced.refl h).congr ?_⟩
      intro r _ c _
      rw [if_neg (by omega)]
    · rintro k hk ⟨s, t⟩ ⟨hlength, hs⟩
      have hrow : Holds s (ny * k) 1 nytop 1 fun r _ => M k r := by
        intro r hr c hc
        have hget := hs.holds k hk r hr
        rw [if_neg (by omega)] at hget
        rw [← hget]
        congr 1
        omega
      obtain ⟨s', t', hok, hlength', hnext⟩ := hmove s (ny * k) t _ hrow hlength
      refine ⟨(s', t'), hok, hlength'.trans hlength, hnext.length_eq.trans hs.length_eq, ?_, ?_⟩
      · intro i hi
        rw [hnext.outside i, hs.outside i hi]
        intro r hr c hc
        have := hi k hk r hr
        omega
      · intro r hr c hc
        dsimp only
        by_cases heq : r = k
        · subst heq
          have hget := hnext.holds c hc 0 (by omega)
          rw [if_pos (by omega), ← hget]
          congr 1
          omega
        · have hkeep : s'[0 + ny * r + c]? = s[0 + ny * r + c]? := by
            apply hnext.outside
            intro c' hc' z hz hplace
            exact heq (place_inj hny hc hc' (by omega)).1
          rw [hkeep, hs.holds r hr c hc]
          dsimp only
          by_cases hlt : r < k
          · rw [if_pos hlt, if_pos (by omega)]
          · rw [if_neg hlt, if_neg (by omega)]
  obtain ⟨⟨a', tmp'⟩, hok, hlength, hend⟩ := hrun
  refine ⟨a', tmp', hok, hlength, hend.congr ?_⟩
  intro r hr c _
  rw [if_pos hr]

/-- The shuffles of a level permute the rows and the columns of its part of the plane. -/
theorem shuffles_ok (hnx : 0 < nytop) (hny : nytop ≤ ny) (h : Holds a 0 ny nxtop nytop M)
    (htmp : nytop / 2 ≤ tmp.length) (hrowTmp : nxtop / 2 * nytop ≤ rowTmp.length) :
    ∃ a1 tmp' a2 rowTmp',
      eachRow (fun a base tmp => shuffle a base nytop 1 tmp) nxtop ny a tmp = .ok (a1, tmp') ∧
      shuffleRows a1 nxtop nytop ny rowTmp = .ok (a2, rowTmp') ∧
      tmp'.length = tmp.length ∧ rowTmp'.length = rowTmp.length ∧
      Replaced a a2 0 ny nxtop nytop fun r c =>
        M (shuffledFrom nxtop r) (shuffledFrom nytop c) := by
  obtain ⟨a1, tmp', hok1, hlength1, hrows⟩ := eachRow_ok tmp hny h
    (fun s base t N hs ht => deinterleave_ok (by decide) (Nat.le_refl 1) hs (by omega))
  obtain ⟨a2, rowTmp', hok2, hlength2, hall⟩ := deinterleave_ok hnx hny hrows.holds hrowTmp
  exact ⟨a1, tmp', a2, rowTmp', hok1, hok2, hlength1, hlength2, hrows.trans hall⟩

/-- The unshuffles of a level permute them back. -/
theorem unshuffles_ok (hnx : 0 < nytop) (hny : nytop ≤ ny) (h : Holds a 0 ny nxtop nytop M)
    (htmp : nytop / 2 ≤ tmp.length) (hrowTmp : nxtop / 2 * nytop ≤ rowTmp.length) :
    ∃ a1 tmp' a2 rowTmp',
      eachRow (fun a base tmp => unshuffle a base nytop 1 tmp) nxtop ny a tmp = .ok (a1, tmp') ∧
      unshuffleRows a1 nxtop nytop ny rowTmp = .ok (a2, rowTmp') ∧
      tmp'.length = tmp.length ∧ rowTmp'.length = rowTmp.length ∧
      Replaced a a2 0 ny nxtop nytop fun r c =>
        M (unshuffledFrom nxtop r) (unshuffledFrom nytop c) := by
  obtain ⟨a1, tmp', hok1, hlength1, hrows⟩ := eachRow_ok tmp hny h
    (fun s base t N hs ht => interleave_ok (by decide) (Nat.le_refl 1) hs (by omega))
  obtain ⟨a2, rowTmp', hok2, hlength2, hall⟩ := interleave_ok hnx hny hrows.holds hrowTmp
  exact ⟨a1, tmp', a2, rowTmp', hok1, hok2, hlength1, hlength2, hrows.trans hall⟩

end Plane

end FitsWell.Hcompress
