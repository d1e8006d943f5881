import FitsWell.Hdu.ScanFinds

/-!
# What a scan depends on

A scan finds an HDU by the bytes of its header unit, and goes on by those after it. So where one
header unit takes the place of another, of an HDU that ends where it did, a scan finds the HDUs that
it found, with the new one in its place.
-/

namespace FitsWell

open Chunks (chunk)

namespace Source

/-- Two sources that read the same from a place on. -/
structure SameFrom (source source' : Source) (start : ℕ) : Prop where
  size : source'.size = source.size
  reads : source.Reads
  reads' : source'.Reads
  drop : source'.bytes.drop start = source.bytes.drop start

variable {source source' : Source} {start place : ℕ}

theorem SameFrom.mono (h : source.SameFrom source' start) (hplace : start ≤ place) :
    source.SameFrom source' place := by
  refine ⟨h.size, h.reads, h.reads', ?_⟩
  obtain ⟨more, rfl⟩ := Nat.exists_eq_add_of_le hplace
  rw [← List.drop_drop, ← List.drop_drop, h.drop]

theorem SameFrom.readAppend (h : source.SameFrom source' start) (len : ℕ) (out : Text) :
    source'.readAppend start len out = source.readAppend start len out := by
  unfold Source.readAppend
  rw [h.size, h.reads, h.reads', h.drop]

end Source

/-! ## What follows a place -/

section After

variable {source source' : Source} {start : ℕ}

theorem headerStep_congr {position : HduPosition} {cursor : HeaderCursor}
    (h : source.SameFrom source' cursor.offset) :
    headerStep source' position cursor = headerStep source position cursor := by
  unfold headerStep
  rw [h.size, h.readAppend]

theorem nextHeader_congr {position : HduPosition} {cursor : HeaderCursor}
    (h : source.SameFrom source' cursor.offset) :
    nextHeader source' position cursor = nextHeader source position cursor := by
  fun_induction nextHeader source position cursor with
  | case1 cursor fault hstep =>
    rw [nextHeader]
    split
    · rename_i other hother
      rw [headerStep_congr h, hstep] at hother
      rw [Except.error.inj hother]
    · rename_i hother
      cases (headerStep_congr h).symm.trans hother |>.symm.trans hstep
    · rename_i hother
      cases (headerStep_congr h).symm.trans hother |>.symm.trans hstep
  | case2 cursor next offset hstep =>
    rw [nextHeader]
    split
    · rename_i hother
      cases (headerStep_congr h).symm.trans hother |>.symm.trans hstep
    · rename_i hother
      cases (headerStep_congr h).symm.trans hother |>.symm.trans hstep
      rfl
    · rename_i hother
      cases (headerStep_congr h).symm.trans hother |>.symm.trans hstep
  | case3 cursor next hstep ih =>
    rw [nextHeader]
    have hafter : cursor.offset ≤ next.offset := by
      have hmore := headerStep_more hstep
      omega
    split
    · rename_i hother
      cases (headerStep_congr h).symm.trans hother |>.symm.trans hstep
    · rename_i hother
      cases (headerStep_congr h).symm.trans hother |>.symm.trans hstep
    · rename_i hother
      cases (headerStep_congr h).symm.trans hother |>.symm.trans hstep
      exact ih (h.mono hafter)

variable {R : Type} [RealWords R]

theorem nextHdu_congr (h : source.SameFrom source' start) (index : ℕ) :
    (nextHdu source' start index : Outcome (Option (Hdu R × ℕ))) = nextHdu source start index := by
  have hheader : nextHeader source' (.ofIndex index) ⟨start, [], 0⟩ =
      nextHeader source (.ofIndex index) ⟨start, [], 0⟩ := nextHeader_congr h
  unfold nextHdu
  rw [hheader, h.size]

theorem scanFrom_fail {source : Source} {offset : ℕ} {hdus : List (Hdu R)} {error : FitsError}
    (h : (nextHdu source offset hdus.length : Outcome (Option (Hdu R × ℕ))) = fail error) :
    scanFrom source offset hdus =
      if error = .io ∨ hdus.isEmpty then fail error else .ok ⟨hdus, some error⟩ := by
  rw [scanFrom]
  split
  · rename_i found after hfound
    cases h.symm.trans hfound
  · rename_i hnone
    cases h.symm.trans hnone
  · rename_i other hother
    cases h.symm.trans hother
    rfl
  · rename_i panic hpanic
    cases h.symm.trans hpanic

omit [RealWords R] in
theorem isEmpty_congr {hdus hdus' : List (Hdu R)} (h : hdus'.length = hdus.length) :
    hdus'.isEmpty = hdus.isEmpty := by
  rw [Bool.eq_iff_iff, List.isEmpty_iff_length_eq_zero, List.isEmpty_iff_length_eq_zero, h]

/-- A scan goes on from a place as it does in another source that reads the same from there, after as
many HDUs. -/
theorem scanFrom_congr {hdus hdus' : List (Hdu R)} {found : Hdus R}
    (h : source.SameFrom source' start) (hcount : hdus'.length = hdus.length)
    (hfound : scanFrom source start hdus = .ok found) :
    ∃ more, found.hdus = hdus ++ more ∧
      scanFrom source' start hdus' = .ok ⟨hdus' ++ more, found.defect⟩ := by
  fun_induction scanFrom source start hdus generalizing hdus' with
  | case1 start hdus hdu next hnext ih =>
    have hother : nextHdu source' start hdus'.length = .ok (some (hdu, next)) := by
      rw [nextHdu_congr h, hcount, hnext]
    have hafter : start ≤ next := by
      have hprogress := nextHdu_progress hnext
      omega
    have hlengths : (hdus' ++ [hdu]).length = (hdus ++ [hdu]).length := by
      simp only [List.length_append, hcount]
    obtain ⟨more, hhdus, hscan⟩ := ih (h.mono hafter) hlengths hfound
    refine ⟨hdu :: more, ?_, ?_⟩
    · rw [hhdus, List.append_assoc, List.singleton_append]
    · rw [scanFrom_some hother, hscan, List.append_assoc, List.singleton_append]
  | case2 start hdus hnext hnil => cases hfound
  | case3 start hdus hnext hnil =>
    obtain rfl := Except.ok.inj hfound
    have hother : (nextHdu source' start hdus'.length : Outcome (Option (Hdu R × ℕ))) = .ok none := by
      rw [nextHdu_congr h, hcount, hnext]
    refine ⟨[], (List.append_nil _).symm, ?_⟩
    rw [scanFrom_none hother, isEmpty_congr hcount, if_neg hnil, List.append_nil]
  | case4 start hdus error hnext hfails => cases hfound
  | case5 start hdus error hnext hends =>
    obtain rfl := Except.ok.inj hfound
    have hother : (nextHdu source' start hdus'.length : Outcome (Option (Hdu R × ℕ))) =
        fail error := by
      rw [nextHdu_congr h, hcount]
      exact hnext
    refine ⟨[], (List.append_nil _).symm, ?_⟩
    rw [scanFrom_fail hother, isEmpty_congr hcount, if_neg hends, List.append_nil]
  | case6 start hdus panic hnext => cases hfound

/-- A scan goes on after the HDUs that it has. -/
theorem scanFrom_prefix {hdus : List (Hdu R)} {found : Hdus R}
    (hfound : scanFrom source start hdus = .ok found) : hdus <+: found.hdus := by
  fun_induction scanFrom source start hdus with
  | case1 start hdus hdu next hnext ih => exact (List.prefix_append _ _).trans (ih hfound)
  | case2 start hdus hnext hnil => cases hfound
  | case3 start hdus hnext hnil =>
    obtain rfl := Except.ok.inj hfound
    exact List.prefix_rfl
  | case4 start hdus error hnext hfails => cases hfound
  | case5 start hdus error hnext hends =>
    obtain rfl := Except.ok.inj hfound
    exact List.prefix_rfl
  | case6 start hdus panic hnext => cases hfound

/-- The HDUs that a scan finds from a place on start there or after it. -/
theorem scanFrom_start_le {hdus : List (Hdu R)} {found : Hdus R}
    (hfound : scanFrom source start hdus = .ok found) {k : ℕ} {hdu : Hdu R}
    (hk : hdus.length ≤ k) (hhdu : found.hdus[k]? = some hdu) : start ≤ hdu.headerOffset := by
  fun_induction scanFrom source start hdus with
  | case1 start hdus first next hnext ih =>
    obtain ⟨hholds, rfl⟩ := nextHdu_holds hnext
    have hprogress := nextHdu_progress hnext
    rcases Nat.eq_or_lt_of_le hk with rfl | hlt
    · -- the first that the scan finds
      have hfirst : found.hdus[hdus.length]? = some first := by
        obtain ⟨more, hmore⟩ := scanFrom_prefix hfound
        rw [← hmore, List.append_assoc, List.getElem?_append_right le_rfl, Nat.sub_self]
        rfl
      rw [hfirst] at hhdu
      obtain rfl := Option.some.inj hhdu
      exact hholds.headerOffset.ge
    · have hlater := ih hfound (by rw [List.length_append]; exact hlt)
      omega
  | case2 start hdus hnext hnil => cases hfound
  | case3 start hdus hnext hnil =>
    obtain rfl := Except.ok.inj hfound
    rw [List.getElem?_eq_none hk] at hhdu
    cases hhdu
  | case4 start hdus error hnext hfails => cases hfound
  | case5 start hdus error hnext hends =>
    obtain rfl := Except.ok.inj hfound
    rw [List.getElem?_eq_none hk] at hhdu
    cases hhdu
  | case6 start hdus panic hnext => cases hfound

end After

end FitsWell
