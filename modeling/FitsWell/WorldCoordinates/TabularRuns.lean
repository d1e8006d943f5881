import FitsWell.WorldCoordinates.Tabular
import Mathlib.Data.Rat.Floor
import Mathlib.Order.Interval.Set.UnorderedInterval

/-!
# Searching the runs of a one-axis table

A binary search in each monotonic run, in order, finds the interval that a scan over all intervals
finds: the first one in array order that holds the target.
-/

namespace FitsWell

open scoped Halves

open PartitionPoint (partitionPoint IsPoint)

variable {n : ℕ} {K : Type}

/-! ## Directions -/

/-- Whether a value comes before another in a direction. -/
def IndexDirection.before [LinearOrder K] : IndexDirection → K → K → Prop
  | .increasing, a, b => a < b
  | .decreasing, a, b => b < a

namespace IndexDirection

instance [LinearOrder K] (direction : IndexDirection) (a b : K) :
    Decidable (direction.before a b) :=
  match direction with
  | .increasing => inferInstanceAs (Decidable (a < b))
  | .decreasing => inferInstanceAs (Decidable (b < a))

variable [LinearOrder K] {direction : IndexDirection} {a b c : K}

theorem before_irrefl (direction : IndexDirection) (a : K) : ¬direction.before a a := by
  cases direction
  · exact lt_irrefl a
  · exact lt_irrefl a

theorem before_trans (h : direction.before a b) (h' : direction.before b c) :
    direction.before a c := by
  cases direction with
  | increasing => exact lt_trans h h'
  | decreasing => exact lt_trans h' h

theorem before_asymm (h : direction.before a b) : ¬direction.before b a := fun h' =>
  before_irrefl direction a (before_trans h h')

theorem ne_of_before (h : direction.before a b) : a ≠ b := by
  rintro rfl
  exact before_irrefl direction a h

theorem eq_of_not_before (h : ¬direction.before a b) (h' : ¬direction.before b a) : a = b := by
  cases direction with
  | increasing => exact le_antisymm (not_lt.mp h') (not_lt.mp h)
  | decreasing => exact le_antisymm (not_lt.mp h) (not_lt.mp h')

/-- A value not after one that comes before a third comes before the third. -/
theorem before_of_not_before (h : ¬direction.before b a) (h' : direction.before b c) :
    direction.before a c := by
  cases direction with
  | increasing => exact lt_of_le_of_lt (not_lt.mp h) h'
  | decreasing => exact lt_of_lt_of_le h' (not_lt.mp h)

theorem before_of_before_of_not (h : direction.before a b) (h' : ¬direction.before c b) :
    direction.before a c := by
  cases direction with
  | increasing => exact lt_of_lt_of_le h (not_lt.mp h')
  | decreasing => exact lt_of_le_of_lt (not_lt.mp h') h

/-- The values between two others, told by the direction from one to the other. -/
theorem mem_uIcc_iff {target : K} (h : direction.before a b) :
    target ∈ Set.uIcc a b ↔ ¬direction.before target a ∧ ¬direction.before b target := by
  cases direction with
  | increasing =>
    rw [Set.uIcc_of_le (le_of_lt h), Set.mem_Icc]
    exact and_congr not_lt.symm not_lt.symm
  | decreasing =>
    rw [Set.uIcc_of_ge (le_of_lt h), Set.mem_Icc, and_comm]
    exact and_congr not_lt.symm not_lt.symm

end IndexDirection

variable [Field K] [LinearOrder K]

namespace TabularTable

/-! ## The runs -/

section Runs

variable (table : TabularTable n K) (first : Fin n)

/-- Whether the interval after a node goes in a direction. -/
def Goes (direction : Bool) (position : ℕ) : Prop :=
  table.usable first position = true ∧ table.rising position = direction

/-- A run: its intervals go in its direction, and neither neighbour of them does. -/
structure IsRun (run : MonotonicRun) : Prop where
  lt : run.start < run.stop
  stop_lt : run.stop < table.coordinates.length
  goes : ∀ position, run.start ≤ position → position < run.stop →
    table.Goes first (run.direction == .increasing) position
  maximal_stop : run.stop + 1 < table.coordinates.length →
    ¬table.Goes first (run.direction == .increasing) run.stop
  maximal_start : 0 < run.start →
    ¬table.Goes first (run.direction == .increasing) (run.start - 1)

variable {table first}

theorem runEnd_spec {direction : Bool} {position : ℕ} (h : position < table.coordinates.length) :
    table.runEnd first direction position < table.coordinates.length ∧
      (∀ p, position ≤ p → p < table.runEnd first direction position → table.Goes first direction p) ∧
      (table.runEnd first direction position + 1 < table.coordinates.length →
        ¬table.Goes first direction (table.runEnd first direction position)) := by
  induction hleft : table.coordinates.length - position using Nat.strong_induction_on
    generalizing position with
  | _ left ih =>
    rw [runEnd]
    by_cases hroom : position + 1 < table.coordinates.length
    · rw [dif_pos hroom]
      by_cases hgoes : (table.usable first position && table.rising position == direction) = true
      · rw [if_pos hgoes]
        obtain ⟨hlt, hinside, hend⟩ := ih _ (by omega) hroom rfl
        refine ⟨hlt, fun p hp hstop => ?_, hend⟩
        rcases Nat.eq_or_lt_of_le hp with rfl | hgt
        · obtain ⟨husable, hsame⟩ := Bool.and_eq_true_iff.mp hgoes
          exact ⟨husable, beq_iff_eq.mp hsame⟩
        · exact hinside p hgt hstop
      · rw [if_neg hgoes]
        refine ⟨h, fun p hp hstop => absurd hstop (by omega), fun _ hend => hgoes ?_⟩
        exact Bool.and_eq_true_iff.mpr ⟨hend.1, beq_iff_eq.mpr hend.2⟩
    · rw [dif_neg hroom]
      exact ⟨h, fun p hp hstop => absurd hstop (by omega), fun hend => absurd hend hroom⟩

theorem direction_beq (rising : Bool) :
    ((if rising then IndexDirection.increasing else .decreasing) == .increasing) = rising := by
  cases rising <;> rfl

/-- The runs from a place that no run goes through are runs, in order, and contain every usable
interval from there on. -/
theorem monotonicRuns_spec {position : ℕ}
    (hstart : 0 < position → position + 1 < table.coordinates.length →
      ¬(table.usable first position = true ∧
        table.Goes first (table.rising position) (position - 1))) :
    (∀ run ∈ table.monotonicRuns first position, table.IsRun first run ∧ position ≤ run.start) ∧
      (table.monotonicRuns first position).Pairwise (fun run later => run.stop ≤ later.start) ∧
      ∀ p, position ≤ p → p + 1 < table.coordinates.length → table.usable first p = true →
        ∃ run ∈ table.monotonicRuns first position, run.start ≤ p ∧ p < run.stop := by
  induction hleft : table.coordinates.length - position using Nat.strong_induction_on
    generalizing position with
  | _ left ih =>
    rw [monotonicRuns]
    by_cases hroom : position + 1 < table.coordinates.length
    · rw [dif_pos hroom]
      by_cases husable : table.usable first position = true
      · rw [dif_pos husable]
        dsimp only
        have hlt := table.lt_runEnd hroom husable
        obtain ⟨hstop, hinside, hend⟩ := @runEnd_spec n K _ _ table first (table.rising position)
          position (by omega)
        generalize table.runEnd first (table.rising position) position = stop at hlt hstop hinside hend
        obtain ⟨hruns, hpairwise, hcover⟩ := @ih _ (by omega) stop (fun _ hroom' hgoes => by
          obtain ⟨hnext, hlast⟩ := hgoes
          have hlast' := hinside (stop - 1) (by omega) (by omega)
          exact hend hroom' ⟨hnext, hlast.2.symm.trans hlast'.2⟩) rfl
        refine ⟨?_, ?_, ?_⟩
        · intro run hrun
          rcases List.mem_cons.mp hrun with rfl | hrun
          · refine ⟨⟨hlt, hstop, ?_, ?_, ?_⟩, le_rfl⟩
            · dsimp only
              rw [direction_beq]
              exact hinside
            · dsimp only
              rw [direction_beq]
              exact hend
            · dsimp only
              rw [direction_beq]
              exact fun hpos hgoes => hstart hpos hroom ⟨husable, hgoes⟩
          · exact ⟨(hruns run hrun).1, hlt.le.trans (hruns run hrun).2⟩
        · exact List.pairwise_cons.mpr ⟨fun run hrun => (hruns run hrun).2, hpairwise⟩
        · intro p hp hp' hpusable
          by_cases hpstop : p < stop
          · exact ⟨_, List.mem_cons_self, hp, hpstop⟩
          · obtain ⟨run, hrun, hcovers⟩ := hcover p (by omega) hp' hpusable
            exact ⟨run, List.mem_cons_of_mem _ hrun, hcovers⟩
      · rw [dif_neg husable]
        obtain ⟨hruns, hpairwise, hcover⟩ := @ih _ (by omega) (position + 1) (fun _ _ hgoes => by
          rw [Nat.add_sub_cancel] at hgoes
          exact husable hgoes.2.1) rfl
        refine ⟨fun run hrun => ⟨(hruns run hrun).1, (Nat.le_succ _).trans (hruns run hrun).2⟩,
          hpairwise, fun p hp hp' hpusable => hcover p ?_ hp' hpusable⟩
        refine Nat.lt_of_le_of_ne hp ?_
        rintro rfl
        exact husable hpusable
    · rw [dif_neg hroom]
      exact ⟨nofun, List.Pairwise.nil, fun p hp hp' => absurd hp' (by omega)⟩

/-- The nodes of a run follow its direction. -/
theorem Goes.before {direction : IndexDirection} {position : ℕ}
    (h : table.Goes first (direction == .increasing) position) :
    direction.before (table.node position) (table.node (position + 1)) := by
  obtain ⟨husable, hrising⟩ := h
  have hne : table.node position ≠ table.node (position + 1) :=
    of_decide_eq_true (Bool.and_eq_true_iff.mp husable).1
  cases direction with
  | increasing => exact of_decide_eq_true hrising
  | decreasing => exact lt_of_le_of_ne (not_lt.mp (of_decide_eq_false hrising)) hne.symm

theorem IsRun.before {run : MonotonicRun} (h : table.IsRun first run) {i j : ℕ}
    (hstart : run.start ≤ i) (hij : i < j) (hstop : j ≤ run.stop) :
    run.direction.before (table.node i) (table.node j) := by
  induction j, hij using Nat.le_induction with
  | base => exact (h.goes i hstart hstop).before
  | succ j hij ih =>
    have hij : i < j := hij
    exact IndexDirection.before_trans (ih (by omega)) (h.goes j (by omega) (by omega)).before

end Runs

end TabularTable

/-! ## The search of one run -/

namespace TabularTransform

variable {transform : TabularTransform n K} {first : Fin n}

/-- The nodes of a run. -/
def runNodes (transform : TabularTransform n K) (run : MonotonicRun) : List K :=
  (transform.coordinates.drop run.start).take (run.stop + 1 - run.start)

theorem runNodes_any {run : MonotonicRun} (h : transform.IsRun first run) (p : K → Bool) {i : ℕ}
    (hi : run.start + i ≤ run.stop) :
    (transform.runNodes run)[i]?.any p = p (transform.node (run.start + i)) := by
  have hlength : run.start + i < transform.coordinates.length := hi.trans_lt h.stop_lt
  unfold runNodes TabularTable.node
  rw [List.getElem?_take, if_pos (by omega), List.getElem?_drop, List.getD_eq_getElem?_getD,
    List.getElem?_eq_getElem hlength]
  rfl

theorem length_runNodes {run : MonotonicRun} (h : transform.IsRun first run) :
    (transform.runNodes run).length = run.stop + 1 - run.start := by
  have hstop := h.stop_lt
  unfold runNodes
  rw [List.length_take, List.length_drop]
  omega

/-- The interval of a run, for both directions. -/
theorem runInterval_eq (run : MonotonicRun) (target : K) :
    transform.runInterval run target =
      if ¬run.direction.before target (transform.node run.start) ∧
          ¬run.direction.before (transform.node run.stop) target then
        let below := partitionPoint (fun value => decide (run.direction.before value target))
          (transform.runNodes run)
        let position := run.start + (below - 1)
        some ⟨position, (target - transform.node position) /
          (transform.node (position + 1) - transform.node position)⟩
      else none := by
  obtain ⟨start, stop, direction⟩ := run
  cases direction with
  | increasing =>
    unfold runInterval
    by_cases h : transform.node start ≤ target ∧ target ≤ transform.node stop
    · have hspan : ¬IndexDirection.increasing.before target (transform.node start) ∧
          ¬IndexDirection.increasing.before (transform.node stop) target :=
        ⟨not_lt.mpr h.1, not_lt.mpr h.2⟩
      dsimp only
      rw [if_pos h, if_pos hspan]
      rfl
    · have hspan : ¬(¬IndexDirection.increasing.before target (transform.node start) ∧
          ¬IndexDirection.increasing.before (transform.node stop) target) := fun hspan =>
        h ⟨not_lt.mp hspan.1, not_lt.mp hspan.2⟩
      dsimp only
      rw [if_neg h, if_neg hspan]
      rfl
  | decreasing =>
    unfold runInterval
    by_cases h : transform.node stop ≤ target ∧ target ≤ transform.node start
    · have hspan : ¬IndexDirection.decreasing.before target (transform.node start) ∧
          ¬IndexDirection.decreasing.before (transform.node stop) target :=
        ⟨not_lt.mpr h.2, not_lt.mpr h.1⟩
      dsimp only
      rw [if_pos h, if_pos hspan]
      rfl
    · have hspan : ¬(¬IndexDirection.decreasing.before target (transform.node start) ∧
          ¬IndexDirection.decreasing.before (transform.node stop) target) := fun hspan =>
        h ⟨not_lt.mp hspan.2, not_lt.mp hspan.1⟩
      dsimp only
      rw [if_neg h, if_neg hspan]
      rfl

/-- The nodes of a run that come before a target come first. -/
theorem partitioned_runNodes {run : MonotonicRun} (h : transform.IsRun first run) (target : K) :
    PartitionPoint.Partitioned (fun value => decide (run.direction.before value target))
      (transform.runNodes run) := by
  intro i j hij hj hholds
  have hlt := h.lt
  rw [length_runNodes h] at hj
  rw [runNodes_any h _ (by omega), decide_eq_true_iff] at hholds ⊢
  rcases Nat.eq_or_lt_of_le hij with rfl | hlt
  · exact hholds
  · exact IndexDirection.before_trans (h.before (by omega) (by omega) (by omega)) hholds

end TabularTransform

/-! ## The scan of all intervals -/

namespace TabularTable

/-- Whether the interval after a node is usable and holds a target. -/
def Holds (table : TabularTable n K) (first : Fin n) (target : K) (position : ℕ) : Prop :=
  position + 1 < table.coordinates.length ∧ table.usable first position = true ∧
    target ∈ Set.uIcc (table.node position) (table.node (position + 1))

/-- Whether the interval after a node is the first usable one that holds a target. -/
def FirstHolding (table : TabularTable n K) (first : Fin n) (target : K) (position : ℕ) : Prop :=
  table.Holds first target position ∧ ∀ earlier < position, ¬table.Holds first target earlier

variable {table : TabularTable n K} {first : Fin n}

theorem IsRun.holds_iff {run : MonotonicRun} (h : table.IsRun first run) {target : K} {position : ℕ}
    (hstart : run.start ≤ position) (hstop : position < run.stop) :
    table.Holds first target position ↔ ¬run.direction.before target (table.node position) ∧
      ¬run.direction.before (table.node (position + 1)) target := by
  have hlength := h.stop_lt
  have hgoes := h.goes position hstart hstop
  have hmem := @IndexDirection.mem_uIcc_iff K _ run.direction _ _ target hgoes.before
  rw [← hmem]
  exact ⟨fun hholds => hholds.2.2, fun htarget => ⟨by omega, hgoes.1, htarget⟩⟩

end TabularTable

namespace TabularTransform

variable {transform : TabularTransform n K} {first : Fin n}

/-- A run's search finds the first of its intervals that holds the target, or none of them does. -/
theorem runInterval_spec {run : MonotonicRun} (h : transform.IsRun first run) (target : K) :
    (transform.runInterval run target = none ∧
      ∀ p, run.start ≤ p → p < run.stop → ¬transform.Holds first target p) ∨
    ∃ position, transform.runInterval run target =
        some ⟨position, (target - transform.node position) /
          (transform.node (position + 1) - transform.node position)⟩ ∧
      run.start ≤ position ∧ position < run.stop ∧ transform.Holds first target position ∧
      ∀ p, run.start ≤ p → p < position → ¬transform.Holds first target p := by
  have hlt := h.lt
  rw [runInterval_eq]
  by_cases hspan : ¬run.direction.before target (transform.node run.start) ∧
      ¬run.direction.before (transform.node run.stop) target
  · rw [if_pos hspan]
    dsimp only
    right
    have hpoint := PartitionPoint.isPoint (partitioned_runNodes h target)
    generalize partitionPoint (fun value => decide (run.direction.before value target))
      (transform.runNodes run) = below at hpoint ⊢
    have hle := hpoint.le
    rw [length_runNodes h] at hle
    have hbefore : ∀ i < below, run.direction.before (transform.node (run.start + i)) target := by
      intro i hi
      have hi' := hpoint.before i hi
      rw [runNodes_any h _ (by omega)] at hi'
      exact of_decide_eq_true hi'
    have hafter : ∀ i, below ≤ i → run.start + i ≤ run.stop →
        ¬run.direction.before (transform.node (run.start + i)) target := by
      intro i hi hstop
      have hi' := hpoint.after i hi (by rw [length_runNodes h]; omega)
      rw [runNodes_any h _ hstop] at hi'
      exact of_decide_eq_false hi'
    have hbelow : run.start + below ≤ run.stop := by
      by_contra hgt
      have hlast := hbefore (run.stop - run.start) (by omega)
      rw [show run.start + (run.stop - run.start) = run.stop by omega] at hlast
      exact hspan.2 hlast
    refine ⟨run.start + (below - 1), rfl, by omega, by omega, ?_, fun p hp hposition hholds => ?_⟩
    · rw [h.holds_iff (by omega) (by omega)]
      refine ⟨?_, ?_⟩
      · rcases Nat.eq_zero_or_pos below with rfl | hpos
        · exact hspan.1
        · exact IndexDirection.before_asymm (hbefore (below - 1) (by omega))
      · rw [Nat.add_assoc]
        exact hafter (below - 1 + 1) (by omega) (by omega)
    · rw [h.holds_iff hp (by omega)] at hholds
      have hnext := hbefore (p + 1 - run.start) (by omega)
      rw [show run.start + (p + 1 - run.start) = p + 1 by omega] at hnext
      exact hholds.2 hnext
  · rw [if_neg hspan]
    refine .inl ⟨rfl, fun p hp hp' hholds => hspan ?_⟩
    rw [h.holds_iff hp hp'] at hholds
    refine ⟨fun hearly => hholds.1 ?_, fun hlate => hholds.2 ?_⟩
    · rcases Nat.eq_or_lt_of_le hp with heq | hgt
      · rw [← heq]
        exact hearly
      · exact IndexDirection.before_trans hearly (h.before le_rfl hgt (by omega))
    · rcases Nat.eq_or_lt_of_le hp' with heq | hgt
      · rw [Nat.succ_eq_add_one] at heq
        rw [heq]
        exact hlate
      · exact IndexDirection.before_trans (h.before (by omega) hgt le_rfl) hlate

/-- Searching the runs in turn finds the first interval that holds the target. -/
theorem findSome_runInterval {runs : List MonotonicRun} {target : K} {position : ℕ}
    (hruns : ∀ run ∈ runs, transform.IsRun first run)
    (hpairwise : runs.Pairwise fun run later => run.stop ≤ later.start)
    (hcover : ∃ run ∈ runs, run.start ≤ position ∧ position < run.stop)
    (hfirst : transform.FirstHolding first target position) :
    runs.findSome? (transform.runInterval · target) =
      some ⟨position, (target - transform.node position) /
        (transform.node (position + 1) - transform.node position)⟩ := by
  induction runs with
  | nil =>
    obtain ⟨run, hrun, -⟩ := hcover
    cases hrun
  | cons run runs ih =>
    obtain ⟨hlater, hpairwise⟩ := List.pairwise_cons.mp hpairwise
    rw [List.findSome?_cons]
    rcases runInterval_spec (hruns run List.mem_cons_self) target with
      ⟨hnone, hnot⟩ | ⟨found, hsome, hstart, hstop, hholds, hnot⟩
    · rw [hnone]
      refine ih (fun run hrun => hruns run (List.mem_cons_of_mem _ hrun)) hpairwise ?_
      obtain ⟨cover, hcover, hstart, hstop⟩ := hcover
      rcases List.mem_cons.mp hcover with rfl | hcover
      · exact absurd hfirst.1 (hnot position hstart hstop)
      · exact ⟨cover, hcover, hstart, hstop⟩
    · rw [hsome]
      have hle : position ≤ found := by
        by_contra hlt
        exact hfirst.2 found (by omega) hholds
      have hge : ¬position < found := by
        intro hlt
        obtain ⟨cover, hcover, hcstart, hcstop⟩ := hcover
        rcases List.mem_cons.mp hcover with rfl | hcover
        · exact hnot position hcstart hlt hfirst.1
        · have horder := hlater cover hcover
          omega
      obtain rfl : found = position := by omega
      rfl

theorem fromArrays_inverse {descriptor : TabularDescriptor 1 K} {arrays : TabularArrays 1 K}
    {transform : TabularTransform 1 K} (h : fromArrays descriptor arrays = .ok transform) :
    transform.inverse = .runs (transform.monotonicRuns 0 0) := by
  unfold fromArrays at h
  obtain ⟨table, htable, h⟩ := Loops.ok_of_bind h
  obtain ⟨inverse, hinverse, h⟩ := Loops.ok_of_bind h
  cases h
  unfold TabularTable.inverseIndex at hinverse
  rw [dif_pos rfl] at hinverse
  cases hinverse
  rfl

end TabularTransform

theorem TabularTable.Holds.exists_first {table : TabularTable n K} {first : Fin n} {target : K}
    {position : ℕ} (h : table.Holds first target position) :
    ∃ position, table.FirstHolding first target position := by
  induction position using Nat.strong_induction_on with
  | _ position ih =>
    by_cases hearlier : ∃ earlier < position, table.Holds first target earlier
    · obtain ⟨earlier, hlt, hearlier⟩ := hearlier
      exact ih earlier hlt hearlier
    · exact ⟨position, h, fun earlier hlt hholds => hearlier ⟨earlier, hlt, hholds⟩⟩

end FitsWell
