import FitsWell.Usize
import Mathlib.Data.List.Perm.Basic

/-!
# The first failure of a parallel run

Workers run the jobs of an index range, each its own pieces in order. An index past the
lowest failure a worker has seen is skipped, and the values are gathered in index order
when every worker is done. The run gives what a serial loop does, whatever the pieces and
the order of the workers' steps.
-/

namespace FitsWell.FirstFailure

/-! ## The run -/

/-- What an item leaves: `none` where it skipped. -/
abbrev Slot (T : Type) := Option (Except FitsError T)

/-- A job of an index, with the scratch it leaves. -/
abbrev Job (S T : Type) := S → ℕ → Except FitsError T × S

/-- Where a worker is between two steps. -/
inductive Phase
  | ready
  | admitted (index : ℕ)
  | failed (index : ℕ) (error : FitsError)
  deriving DecidableEq, Repr

/-- A worker on one piece of the range. -/
structure Worker (S : Type) where
  scratch : S
  phase : Phase
  todo : List ℕ

/-- What the workers share. A relaxed load of the lowest failure may give any value that it
has held, so the values before the newest are kept. -/
structure Shared (T : Type) where
  lowestFailure : ℕ
  earlier : List ℕ
  slots : ℕ → Option (Slot T)

namespace Shared

variable {T : Type} (shared : Shared T)

/-- The values a load may give. -/
def hints : List ℕ := shared.lowestFailure :: shared.earlier

/-- Write the slot of an index. -/
def fill (index : ℕ) (slot : Slot T) : Shared T :=
  { shared with slots := Function.update shared.slots index (some slot) }

theorem fill_self (index : ℕ) (slot : Slot T) :
    (shared.fill index slot).slots index = some slot := Function.update_self ..

theorem fill_of_ne {index other : ℕ} (slot : Slot T) (h : other ≠ index) :
    (shared.fill index slot).slots other = shared.slots other := Function.update_of_ne h ..

/-- `lowest_failure.fetch_min(index)`. -/
def fetchMin (index : ℕ) : Shared T where
  lowestFailure := min shared.lowestFailure index
  earlier := shared.hints
  slots := shared.slots

end Shared

variable {S T : Type}

/-- One step of a worker whose load, if it makes one, gives `seen`. -/
def advance (f : Job S T) (shared : Shared T) (seen : ℕ) (worker : Worker S) :
    Option (Shared T × Worker S) :=
  match worker.phase, worker.todo with
  | .ready, [] => none
  | .ready, index :: todo =>
    if seen ∉ shared.hints then
      none
    else if index > seen then
      some (shared.fill index none, ⟨worker.scratch, .ready, todo⟩)
    else
      some (shared, ⟨worker.scratch, .admitted index, todo⟩)
  | .admitted index, todo =>
    match f worker.scratch index with
    | (.ok value, scratch) => some (shared.fill index (some (.ok value)), ⟨scratch, .ready, todo⟩)
    | (.error error, scratch) => some (shared, ⟨scratch, .failed index error, todo⟩)
  | .failed index error, todo =>
    some ((shared.fetchMin index).fill index (some (.error error)), ⟨worker.scratch, .ready, todo⟩)

/-- A parallel run. -/
structure Run (S T : Type) where
  shared : Shared T
  workers : List (Worker S)

namespace Run

/-- A run on pieces of the range, each with its scratch. -/
def start (pieces : List (S × List ℕ)) : Run S T where
  shared := ⟨usizeMax, [], fun _ => none⟩
  workers := pieces.map fun piece => ⟨piece.1, .ready, piece.2⟩

/-- One step of the worker `turn.1`, whose load gives `turn.2`. -/
def step (f : Job S T) (run : Run S T) (turn : ℕ × ℕ) : Option (Run S T) := do
  let worker ← run.workers[turn.1]?
  let next ← advance f run.shared turn.2 worker
  some ⟨next.1, run.workers.set turn.1 next.2⟩

/-- The steps of a schedule. -/
def exec (f : Job S T) (schedule : List (ℕ × ℕ)) (run : Run S T) : Option (Run S T) :=
  schedule.foldlM (step f) run

/-- Whether every worker is done. -/
def finished (run : Run S T) : Bool :=
  run.workers.all fun worker => worker.phase = .ready ∧ worker.todo = []

end Run

/-- The values of the slots in order, up to the first error. A slot that skipped, or that no
worker wrote, panics. -/
def gather (slots : ℕ → Option (Slot T)) : List ℕ → Outcome (List T)
  | [] => .ok []
  | index :: indices =>
    match slots index with
    | some (some (.ok value)) => do
      let values ← gather slots indices
      .ok (value :: values)
    | some (some (.error error)) => fail error
    | some none | none => abort .expectation

/-- The serial loop: each job in turn, with one scratch, up to the first error. -/
def serial (f : Job S T) (scratch : S) : List ℕ → Outcome (List T)
  | [] => .ok []
  | index :: indices =>
    match f scratch index with
    | (.ok value, scratch) => do
      let values ← serial f scratch indices
      .ok (value :: values)
    | (.error error, _) => fail error

/-! ## Steps -/

/-- The indices a worker has still to settle. -/
def Worker.pending (worker : Worker S) : List ℕ :=
  match worker.phase with
  | .ready => worker.todo
  | .admitted index | .failed index _ => index :: worker.todo

/-- The steps a worker can still take. -/
def Worker.fuel (worker : Worker S) : ℕ :=
  3 * worker.todo.length +
    match worker.phase with
    | .ready => 0
    | .admitted _ => 2
    | .failed _ _ => 1

/-- The four steps of a worker. -/
inductive Advances (f : Job S T) (shared : Shared T) : Worker S → Shared T → Worker S → Prop
  | skip {scratch : S} {index seen : ℕ} {todo : List ℕ} (hseen : seen ∈ shared.hints)
      (hpast : seen < index) :
      Advances f shared ⟨scratch, .ready, index :: todo⟩ (shared.fill index none)
        ⟨scratch, .ready, todo⟩
  | enter {scratch : S} {index : ℕ} {todo : List ℕ} :
      Advances f shared ⟨scratch, .ready, index :: todo⟩ shared ⟨scratch, .admitted index, todo⟩
  | succeed {scratch next : S} {index : ℕ} {value : T} {todo : List ℕ}
      (hjob : f scratch index = (.ok value, next)) :
      Advances f shared ⟨scratch, .admitted index, todo⟩ (shared.fill index (some (.ok value)))
        ⟨next, .ready, todo⟩
  | fault {scratch next : S} {index : ℕ} {error : FitsError} {todo : List ℕ}
      (hjob : f scratch index = (.error error, next)) :
      Advances f shared ⟨scratch, .admitted index, todo⟩ shared ⟨next, .failed index error, todo⟩
  | report {scratch : S} {index : ℕ} {error : FitsError} {todo : List ℕ} :
      Advances f shared ⟨scratch, .failed index error, todo⟩
        ((shared.fetchMin index).fill index (some (.error error))) ⟨scratch, .ready, todo⟩

theorem advance_cases {f : Job S T} {shared next : Shared T} {seen : ℕ} {worker moved : Worker S}
    (h : advance f shared seen worker = some (next, moved)) :
    Advances f shared worker next moved := by
  obtain ⟨scratch, phase, todo⟩ := worker
  unfold advance at h
  cases phase with
  | ready =>
    cases todo with
    | nil => cases h
    | cons index todo =>
      dsimp only at h
      split at h
      · cases h
      · rename_i hseen
        split at h
        · rename_i hpast
          obtain ⟨rfl, rfl⟩ := Prod.mk.inj (Option.some.inj h)
          exact .skip (not_not.mp hseen) hpast
        · obtain ⟨rfl, rfl⟩ := Prod.mk.inj (Option.some.inj h)
          exact .enter
  | admitted index =>
    dsimp only at h
    split at h
    · rename_i hjob
      obtain ⟨rfl, rfl⟩ := Prod.mk.inj (Option.some.inj h)
      exact .succeed hjob
    · rename_i hjob
      obtain ⟨rfl, rfl⟩ := Prod.mk.inj (Option.some.inj h)
      exact .fault hjob
  | failed index error =>
    obtain ⟨rfl, rfl⟩ := Prod.mk.inj (Option.some.inj h)
    exact .report

/-- A step of a run is one of a worker, in its place among the others. -/
theorem Run.step_cases {f : Job S T} {run next : Run S T} {turn : ℕ × ℕ}
    (h : run.step f turn = some next) :
    ∃ before worker moved after, run.workers = before ++ worker :: after ∧
      next.workers = before ++ moved :: after ∧
      Advances f run.shared worker next.shared moved := by
  obtain ⟨worker, hworker, h⟩ := Option.bind_eq_some_iff.mp h
  obtain ⟨⟨shared, moved⟩, hmoved, h⟩ := Option.bind_eq_some_iff.mp h
  obtain rfl := Option.some.inj h
  obtain ⟨hlt, hget⟩ := List.getElem?_eq_some_iff.mp hworker
  refine ⟨run.workers.take turn.1, worker, moved, run.workers.drop (turn.1 + 1), ?_, ?_,
    advance_cases hmoved⟩
  · rw [← hget, List.getElem_cons_drop, List.take_append_drop]
  · rw [List.set_eq_take_append_cons_drop, if_pos hlt]

/-- A worker that is not done has a step. -/
theorem advance_isSome (f : Job S T) (shared : Shared T) {worker : Worker S}
    (h : ¬(worker.phase = .ready ∧ worker.todo = [])) :
    ∃ next, advance f shared shared.lowestFailure worker = some next := by
  obtain ⟨scratch, phase, todo⟩ := worker
  unfold advance
  cases phase with
  | ready =>
    cases todo with
    | nil => exact absurd ⟨rfl, rfl⟩ h
    | cons index todo =>
      have hseen : shared.lowestFailure ∈ shared.hints := List.mem_cons_self
      dsimp only
      rw [if_neg (not_not.mpr hseen)]
      split <;> exact ⟨_, rfl⟩
  | admitted index =>
    dsimp only
    split <;> exact ⟨_, rfl⟩
  | failed index error => exact ⟨_, rfl⟩

/-- A run that is not finished has a step. -/
theorem Run.step_isSome (f : Job S T) {run : Run S T} (h : run.finished = false) :
    ∃ turn next, run.step f turn = some next := by
  rw [finished, List.all_eq_false] at h
  obtain ⟨worker, hworker, hbusy⟩ := h
  rw [decide_eq_true_eq] at hbusy
  obtain ⟨place, hplace⟩ := List.mem_iff_getElem?.mp hworker
  obtain ⟨next, hnext⟩ := advance_isSome f run.shared hbusy
  refine ⟨(place, run.shared.lowestFailure), ⟨next.1, run.workers.set place next.2⟩, ?_⟩
  rw [step, hplace, Option.bind_eq_bind, Option.bind_some, hnext]
  rfl

/-- The steps a run can still take. -/
def Run.fuel (run : Run S T) : ℕ := (run.workers.map Worker.fuel).sum

theorem Advances.fuel_lt {f : Job S T} {shared next : Shared T} {worker moved : Worker S}
    (h : Advances f shared worker next moved) : moved.fuel < worker.fuel := by
  cases h <;> simp only [Worker.fuel, List.length_cons] <;> omega

theorem Run.fuel_lt {f : Job S T} {run next : Run S T} {turn : ℕ × ℕ}
    (h : run.step f turn = some next) : next.fuel < run.fuel := by
  obtain ⟨before, worker, moved, after, hworkers, hmoved, hstep⟩ := step_cases h
  have hlt := hstep.fuel_lt
  rw [fuel, fuel, hworkers, hmoved]
  simp only [List.map_append, List.map_cons, List.sum_append, List.sum_cons]
  omega

/-! ## The invariant -/

section Invariant

variable {f : Job S T} {job : ℕ → Except FitsError T} {indices : List ℕ}

/-- An index below `index` fails. -/
def FailsBefore (job : ℕ → Except FitsError T) (indices : List ℕ) (index : ℕ) : Prop :=
  ∃ lower ∈ indices, lower < index ∧ ∃ error, job lower = .error error

/-- What a slot may hold: the result of its job, or a skip past a failure. -/
def Fits (job : ℕ → Except FitsError T) (indices : List ℕ) (index : ℕ) (slot : Slot T) : Prop :=
  match slot with
  | some result => result = job index
  | none => FailsBefore job indices index

/-- A run whose hints are failures, whose slots hold the results of their jobs, and whose
every index is settled or in hand. -/
structure Sound (job : ℕ → Except FitsError T) (indices : List ℕ) (run : Run S T) : Prop where
  hint : ∀ seen ∈ run.shared.hints, seen = usizeMax ∨
    seen ∈ indices ∧ ∃ error, job seen = .error error
  slot : ∀ index slot, run.shared.slots index = some slot → Fits job indices index slot
  pending : ∀ worker ∈ run.workers, ∀ index ∈ worker.pending, index ∈ indices
  failed : ∀ worker ∈ run.workers, ∀ index error, worker.phase = .failed index error →
    job index = .error error
  covered : ∀ index ∈ indices, (run.shared.slots index).isSome ∨
    ∃ worker ∈ run.workers, index ∈ worker.pending

/-- A run starts sound where its pieces make up the range. -/
theorem Sound.start {pieces : List (S × List ℕ)}
    (hpieces : (pieces.map Prod.snd).flatten.Perm indices) :
    Sound job indices (Run.start pieces : Run S T) where
  hint seen hseen := Or.inl (List.mem_singleton.mp hseen)
  slot index slot hslot := by cases hslot
  pending worker hworker index hindex := by
    obtain ⟨piece, hpiece, rfl⟩ := List.mem_map.mp hworker
    exact hpieces.mem_iff.mp (List.mem_flatten.mpr ⟨_, List.mem_map_of_mem hpiece, hindex⟩)
  failed worker hworker index error hphase := by
    obtain ⟨piece, -, rfl⟩ := List.mem_map.mp hworker
    cases hphase
  covered index hindex := by
    obtain ⟨_, hmem, hin⟩ := List.mem_flatten.mp (hpieces.mem_iff.mpr hindex)
    obtain ⟨piece, hpiece, rfl⟩ := List.mem_map.mp hmem
    exact Or.inr ⟨_, List.mem_map_of_mem hpiece, hin⟩

/-- A worker's step that keeps what the invariant says of its own part keeps the whole. -/
theorem Sound.replace {run next : Run S T} (h : Sound job indices run)
    {before after : List (Worker S)} {worker moved : Worker S}
    (hworkers : run.workers = before ++ worker :: after)
    (hmoved : next.workers = before ++ moved :: after)
    (hhint : ∀ seen ∈ next.shared.hints, seen = usizeMax ∨
      seen ∈ indices ∧ ∃ error, job seen = .error error)
    (hslot : ∀ index slot, next.shared.slots index = some slot → Fits job indices index slot)
    (hkept : ∀ index, (run.shared.slots index).isSome → (next.shared.slots index).isSome)
    (hpending : ∀ index ∈ moved.pending, index ∈ worker.pending)
    (hsettled : ∀ index ∈ worker.pending, index ∈ moved.pending ∨
      (next.shared.slots index).isSome)
    (hfailed : ∀ index error, moved.phase = .failed index error → job index = .error error) :
    Sound job indices next where
  hint := hhint
  slot := hslot
  pending other hother index hindex := by
    rw [hmoved, List.mem_append, List.mem_cons] at hother
    rcases hother with hother | rfl | hother
    · exact h.pending other (by simp [hworkers, hother]) index hindex
    · exact h.pending worker (by simp [hworkers]) index (hpending index hindex)
    · exact h.pending other (by simp [hworkers, hother]) index hindex
  failed other hother index error hphase := by
    rw [hmoved, List.mem_append, List.mem_cons] at hother
    rcases hother with hother | rfl | hother
    · exact h.failed other (by simp [hworkers, hother]) index error hphase
    · exact hfailed index error hphase
    · exact h.failed other (by simp [hworkers, hother]) index error hphase
  covered index hindex := by
    rcases h.covered index hindex with hsome | ⟨other, hother, hin⟩
    · exact Or.inl (hkept index hsome)
    rw [hworkers, List.mem_append, List.mem_cons] at hother
    rcases hother with hother | rfl | hother
    · exact Or.inr ⟨other, by simp [hmoved, hother], hin⟩
    · rcases hsettled index hin with hin | hsome
      · exact Or.inr ⟨moved, by simp [hmoved], hin⟩
      · exact Or.inl hsome
    · exact Or.inr ⟨other, by simp [hmoved, hother], hin⟩

theorem fill_isSome {shared : Shared T} {index : ℕ} {slot : Slot T} :
    ((shared.fill index slot).slots index).isSome := by
  rw [Shared.fill_self]
  rfl

theorem fill_kept {shared : Shared T} {index other : ℕ} {slot : Slot T}
    (h : (shared.slots other).isSome) : ((shared.fill index slot).slots other).isSome := by
  by_cases hsame : other = index
  · exact hsame ▸ fill_isSome
  · rwa [Shared.fill_of_ne _ _ hsame]

/-- A slot written with what fits it. -/
theorem Fits.fill {shared : Shared T} {index : ℕ} {slot : Slot T}
    (hslots : ∀ other slot, shared.slots other = some slot → Fits job indices other slot)
    (hfits : Fits job indices index slot) (other : ℕ) (written : Slot T)
    (h : (shared.fill index slot).slots other = some written) : Fits job indices other written := by
  by_cases hsame : other = index
  · obtain rfl := hsame
    rw [Shared.fill_self] at h
    exact Option.some.inj h ▸ hfits
  · rw [Shared.fill_of_ne _ _ hsame] at h
    exact hslots other written h

/-- Every step of a worker keeps the invariant. -/
theorem Sound.step {run next : Run S T} {turn : ℕ × ℕ}
    (hjob : ∀ scratch index, (f scratch index).1 = job index)
    (hbound : ∀ index ∈ indices, index < usizeMax) (h : Sound job indices run)
    (hstep : run.step f turn = some next) : Sound job indices next := by
  obtain ⟨before, worker, moved, after, hworkers, hmoved, hstep⟩ := Run.step_cases hstep
  have hmem : worker ∈ run.workers := by simp [hworkers]
  obtain ⟨shared, workers⟩ := next
  dsimp only at hmoved hstep
  cases hstep with
  | @skip scratch index seen todo hseen hpast =>
    have hindex : index ∈ indices := h.pending _ hmem index List.mem_cons_self
    have hlower : FailsBefore job indices index := by
      rcases h.hint seen hseen with rfl | ⟨hin, hfails⟩
      · exact absurd (hbound index hindex) (by omega)
      · exact ⟨seen, hin, hpast, hfails⟩
    refine h.replace hworkers hmoved h.hint (Fits.fill h.slot hlower) (fun _ => fill_kept)
      (fun i hi => List.mem_cons_of_mem _ hi) (fun i hi => ?_) (fun i e hphase => by cases hphase)
    rcases List.mem_cons.mp hi with rfl | hi
    · exact Or.inr fill_isSome
    · exact Or.inl hi
  | enter =>
    exact h.replace hworkers hmoved h.hint h.slot (fun _ hsome => hsome) (fun i hi => hi)
      (fun i hi => Or.inl hi) (fun i e hphase => by cases hphase)
  | @succeed scratch left index value todo hresult =>
    have hfits : Fits job indices index (some (.ok value)) := by
      rw [Fits, ← hjob scratch, hresult]
    refine h.replace hworkers hmoved h.hint (Fits.fill h.slot hfits) (fun _ => fill_kept)
      (fun i hi => List.mem_cons_of_mem _ hi) (fun i hi => ?_) (fun i e hphase => by cases hphase)
    rcases List.mem_cons.mp hi with rfl | hi
    · exact Or.inr fill_isSome
    · exact Or.inl hi
  | @fault scratch left index error todo hresult =>
    refine h.replace hworkers hmoved h.hint h.slot (fun _ hsome => hsome) (fun i hi => hi)
      (fun i hi => Or.inl hi) (fun i e hphase => ?_)
    obtain ⟨rfl, rfl⟩ := Phase.failed.inj hphase
    rw [← hjob scratch, hresult]
  | @report scratch index error todo =>
    have hfails : job index = .error error := h.failed _ hmem index error rfl
    have hindex : index ∈ indices := h.pending _ hmem index List.mem_cons_self
    refine h.replace hworkers hmoved (fun seen hseen => ?_) (Fits.fill h.slot hfails.symm)
      (fun _ => fill_kept) (fun i hi => List.mem_cons_of_mem _ hi) (fun i hi => ?_)
      (fun i e hphase => by cases hphase)
    · have hhints : seen ∈ min run.shared.lowestFailure index :: run.shared.hints := hseen
      rcases List.mem_cons.mp hhints with hseen | hseen
      · rcases min_choice run.shared.lowestFailure index with hmin | hmin
        · rw [hmin] at hseen
          exact h.hint seen (hseen ▸ List.mem_cons_self)
        · exact Or.inr (hseen ▸ hmin.symm ▸ ⟨hindex, error, hfails⟩)
      · exact h.hint seen hseen
    · rcases List.mem_cons.mp hi with rfl | hi
      · exact Or.inr fill_isSome
      · exact Or.inl hi

/-- A run of a sound state is sound, and no longer than the steps it has. -/
theorem Sound.exec {run next : Run S T} {schedule : List (ℕ × ℕ)}
    (hjob : ∀ scratch index, (f scratch index).1 = job index)
    (hbound : ∀ index ∈ indices, index < usizeMax) (h : Sound job indices run)
    (hrun : run.exec f schedule = some next) :
    Sound job indices next ∧ schedule.length + next.fuel ≤ run.fuel := by
  induction schedule generalizing run with
  | nil =>
    obtain rfl := Option.some.inj hrun
    exact ⟨h, by simp⟩
  | cons turn schedule ih =>
    rw [Run.exec, List.foldlM_cons] at hrun
    obtain ⟨moved, hmoved, hrun⟩ := Option.bind_eq_some_iff.mp hrun
    obtain ⟨hsound, hlength⟩ := ih (h.step hjob hbound hmoved) hrun
    have hlt := Run.fuel_lt hmoved
    exact ⟨hsound, by rw [List.length_cons]; omega⟩

/-- A finished run has written every slot. -/
theorem Sound.filled {run : Run S T} (h : Sound job indices run) (hdone : run.finished = true) :
    ∀ index ∈ indices, ∃ slot, run.shared.slots index = some slot ∧ Fits job indices index slot := by
  intro index hindex
  rcases h.covered index hindex with hsome | ⟨worker, hworker, hpending⟩
  · obtain ⟨slot, hslot⟩ := Option.isSome_iff_exists.mp hsome
    exact ⟨slot, hslot, h.slot index slot hslot⟩
  · rw [Run.finished, List.all_eq_true] at hdone
    have hidle := hdone worker hworker
    rw [decide_eq_true_eq] at hidle
    rw [Worker.pending, hidle.1] at hpending
    rw [hidle.2] at hpending
    cases hpending

/-! ## The values -/

/-- Slots that fit their jobs gather to what the serial loop gives, from the first index with
no failure before it. -/
theorem gather_eq_serial (hjob : ∀ scratch index, (f scratch index).1 = job index)
    {slots : ℕ → Option (Slot T)} (done : List ℕ) {todo : List ℕ} (hindices : indices = done ++ todo)
    (hsorted : indices.Pairwise (· < ·))
    (hslots : ∀ index ∈ todo, ∃ slot, slots index = some slot ∧ Fits job indices index slot)
    (hdone : ∀ index ∈ done, ∃ value, job index = .ok value) (scratch : S) :
    gather slots todo = serial f scratch todo := by
  induction todo generalizing done scratch with
  | nil => rfl
  | cons index todo ih =>
    obtain ⟨slot, hslot, hfits⟩ := hslots index List.mem_cons_self
    -- every index before this one succeeded, so it did not skip
    have hresult : slot = some (job index) := by
      cases slot with
      | some result => exact congrArg some hfits
      | none =>
        obtain ⟨lower, hlower, hlt, error, hfails⟩ := hfits
        rw [hindices, List.mem_append] at hlower
        rcases hlower with hlower | hlower
        · obtain ⟨value, hvalue⟩ := hdone lower hlower
          rw [hvalue] at hfails
          cases hfails
        · rw [hindices, List.pairwise_append] at hsorted
          rcases List.mem_cons.mp hlower with rfl | hlower
          · exact absurd hlt (lt_irrefl _)
          · exact absurd hlt (List.rel_of_pairwise_cons hsorted.2.1 hlower).le.not_gt
    rw [gather, serial, hslot, hresult]
    have hrun := hjob scratch index
    cases hcall : f scratch index with
    | mk result next =>
      rw [hcall] at hrun
      dsimp only at hrun
      rw [← hrun]
      cases result with
      | error error => rfl
      | ok value =>
        dsimp only
        have hnext : ∀ i ∈ done ++ [index], ∃ value, job i = .ok value := by
          intro i hi
          rcases List.mem_append.mp hi with hi | hi
          · exact hdone i hi
          · rw [List.mem_singleton.mp hi]
            exact ⟨value, hrun.symm⟩
        rw [ih (done ++ [index]) (by rw [hindices, List.append_assoc, List.singleton_append])
          (fun i hi => hslots i (List.mem_cons_of_mem _ hi)) hnext next]

end Invariant

/-! ## The run is the loop -/

/-- The steps of a run on pieces of a range. -/
theorem Run.fuel_start {indices : List ℕ} {pieces : List (S × List ℕ)}
    (hpieces : (pieces.map Prod.snd).flatten.Perm indices) :
    (Run.start pieces : Run S T).fuel = 3 * indices.length := by
  rw [← hpieces.length_eq, fuel, start]
  clear hpieces
  induction pieces with
  | nil => rfl
  | cons piece pieces ih =>
    simp only [List.map_cons, List.sum_cons, List.flatten_cons, List.length_append, ih,
      Worker.fuel, Nat.add_zero]
    omega

/-- Whatever the pieces of the range, the scratch of each and the order of the workers'
steps, a run ends after at most three steps an index, with every slot written, and the
values gathered are those of the serial loop: the failure of the lowest index, or every
value in order. -/
theorem tryMapInit_eq_serial {f : Job S T} (first count : ℕ) {pieces : List (S × List ℕ)}
    {schedule : List (ℕ × ℕ)} {run : Run S T} (scratch : S)
    (hscratch : ∀ one other index, (f one index).1 = (f other index).1)
    (hrange : first + count ≤ usizeMax)
    (hpieces : (pieces.map Prod.snd).flatten.Perm (List.range' first count))
    (hrun : (Run.start pieces).exec f schedule = some run) :
    schedule.length ≤ 3 * count ∧
    (run.finished = false → ∃ turn next, run.step f turn = some next) ∧
    (run.finished = true →
      (∀ index ∈ List.range' first count, (run.shared.slots index).isSome) ∧
      gather run.shared.slots (List.range' first count) =
        serial f scratch (List.range' first count)) := by
  have hjob : ∀ other index, (f other index).1 = (f scratch index).1 :=
    fun other index => hscratch other scratch index
  have hbound : ∀ index ∈ List.range' first count, index < usizeMax := by
    intro index hindex
    have := (List.mem_range'_1.mp hindex).2
    omega
  obtain ⟨hsound, hlength⟩ := (Sound.start hpieces).exec hjob hbound hrun
  rw [Run.fuel_start hpieces, List.length_range'] at hlength
  refine ⟨by omega, Run.step_isSome f, fun hdone => ⟨fun index hindex => ?_, ?_⟩⟩
  · obtain ⟨slot, hslot, -⟩ := hsound.filled hdone index hindex
    rw [hslot]
    rfl
  · exact gather_eq_serial hjob [] rfl List.pairwise_lt_range' (hsound.filled hdone)
      (fun _ hnone => by cases hnone) scratch

/-- Two workers: the second meets the failure of index 2 first, and the first that of 0. -/
theorem tryMapInit_eq_serial_two :
    let f : Job Unit ℕ := fun _ index => (if index = 1 then .ok 7 else .error .missingEnd, ())
    let pieces := [((), [0, 1]), ((), [2])]
    let schedule := [(0, usizeMax), (1, usizeMax), (1, 0), (1, 0), (0, 0), (0, 0), (0, 2), (0, 0)]
    ∃ run, (Run.start pieces).exec f schedule = some run ∧
      gather run.shared.slots (List.range' 0 3) = serial f () (List.range' 0 3) := by
  intro f pieces schedule
  have hrun : ((Run.start pieces).exec f schedule).isSome := by decide
  obtain ⟨run, hrun⟩ := Option.isSome_iff_exists.mp hrun
  have hend : ((Run.start pieces).exec f schedule).map Run.finished = some true := by decide
  rw [hrun] at hend
  have hsame := tryMapInit_eq_serial 0 3 () (fun _ _ _ => rfl) (by decide)
    (List.Perm.refl _) hrun
  exact ⟨run, hrun, (hsame.2.2 (Option.some.inj hend)).2⟩

end FitsWell.FirstFailure
