import Mathlib.Data.Nat.Notation

/-!
# Loops that may fail

A loop over a list in `Except` is a monadic fold. An invariant of the items already
passed holds at the end of a run that succeeds, and where each step succeeds from a
state with the invariant, the run does too.
-/

namespace FitsWell.Loops

variable {ε σ β : Type} {step : σ → β → Except ε σ}

/-- A run that succeeds has a first call that does. -/
theorem ok_of_bind {α : Type} {call : Except ε α} {next : α → Except ε β} {v : β}
    (h : (call >>= next) = .ok v) : ∃ a, call = .ok a ∧ next a = .ok v := by
  cases call with
  | error fault => cases h
  | ok a => exact ⟨a, rfl, h⟩

/-- A run goes on from a first call that succeeds. -/
theorem bind_ok {α : Type} {call : Except ε α} {next : α → Except ε β} {a : α}
    (h : call = .ok a) : (call >>= next) = next a := by
  rw [h]
  rfl

/-- Each step succeeds and keeps the invariant, so the whole loop does. -/
theorem foldlM_total {P : List β → σ → Prop} {items : List β} {s : σ} (hstart : P [] s)
    (hstep : ∀ done item todo, items = done ++ item :: todo → ∀ s, P done s →
      ∃ s', step s item = .ok s' ∧ P (done ++ [item]) s') :
    ∃ s', items.foldlM step s = .ok s' ∧ P items s' := by
  have hrun : ∀ todo done s, items = done ++ todo → P done s →
      ∃ s', todo.foldlM step s = .ok s' ∧ P items s' := by
    intro todo
    induction todo with
    | nil =>
      intro done s hitems hdone
      rw [List.append_nil] at hitems
      exact ⟨s, rfl, hitems ▸ hdone⟩
    | cons item todo ih =>
      intro done s hitems hdone
      obtain ⟨s', hok, hnext⟩ := hstep done item todo hitems s hdone
      obtain ⟨s'', hrest, hend⟩ := ih (done ++ [item]) s' (by simp [hitems]) hnext
      exact ⟨s'', by rw [List.foldlM_cons, hok]; exact hrest, hend⟩
  exact hrun items [] s rfl hstart

/-- Each step that succeeds keeps the invariant, so a loop that succeeds does. -/
theorem foldlM_partial {P : List β → σ → Prop} {items : List β} {s s' : σ} (hstart : P [] s)
    (hstep : ∀ done item todo, items = done ++ item :: todo → ∀ s s', P done s →
      step s item = .ok s' → P (done ++ [item]) s')
    (hok : items.foldlM step s = .ok s') : P items s' := by
  have hrun : ∀ todo done s, items = done ++ todo → P done s →
      todo.foldlM step s = .ok s' → P items s' := by
    intro todo
    induction todo with
    | nil =>
      intro done s hitems hdone hrest
      rw [List.append_nil] at hitems
      rw [← Except.ok.inj hrest]
      exact hitems ▸ hdone
    | cons item todo ih =>
      intro done s hitems hdone hrest
      rw [List.foldlM_cons] at hrest
      cases hitem : step s item with
      | error fault =>
        rw [hitem] at hrest
        cases hrest
      | ok next =>
        rw [hitem] at hrest
        exact ih (done ++ [item]) next (by simp [hitems])
          (hstep done item todo hitems s next hdone hitem) hrest
  exact hrun items [] s rfl hstart hok

/-- Calls that succeed give their values. -/
theorem mapM_eq_map {f : β → Except ε σ} {g : β → σ} {items : List β}
    (h : ∀ item ∈ items, f item = .ok (g item)) : items.mapM f = .ok (items.map g) := by
  induction items with
  | nil => rfl
  | cons item items ih =>
    rw [List.mapM_cons, h item List.mem_cons_self,
      ih fun other hother => h other (List.mem_cons_of_mem item hother)]
    rfl

/-- Each value of calls that succeed is that of one of them. -/
theorem mem_mapM {f : β → Except ε σ} {items : List β} {values : List σ} {v : σ}
    (h : items.mapM f = .ok values) (hv : v ∈ values) : ∃ item ∈ items, f item = .ok v := by
  induction items generalizing values with
  | nil =>
    obtain rfl := Except.ok.inj h
    exact absurd hv List.not_mem_nil
  | cons item items ih =>
    rw [List.mapM_cons] at h
    obtain ⟨first, hfirst, h⟩ := ok_of_bind h
    obtain ⟨rest, hrest, h⟩ := ok_of_bind h
    obtain rfl := Except.ok.inj h
    rcases List.mem_cons.mp hv with rfl | hv
    · exact ⟨item, List.mem_cons_self, hfirst⟩
    · obtain ⟨other, hother, hvalue⟩ := ih hrest hv
      exact ⟨other, List.mem_cons_of_mem _ hother, hvalue⟩

section Counting

variable {step : σ → ℕ → Except ε σ} {P : ℕ → σ → Prop} {n : ℕ} {s : σ}

/-- A prefix of the numbers below `n` and the number after it. -/
theorem range_split {done todo : List ℕ} {k : ℕ} (h : List.range n = done ++ k :: todo) :
    done.length = k ∧ k < n := by
  have hlt : done.length < n := by
    have hlength := congrArg List.length h
    simp only [List.length_range, List.length_append, List.length_cons] at hlength
    omega
  have hplace := congrArg (fun items => items[done.length]?) h
  simp only [List.getElem?_range hlt] at hplace
  rw [List.getElem?_append_right (Nat.le_refl _), Nat.sub_self, List.getElem?_cons_zero] at hplace
  have hk := Option.some.inj hplace
  omega

/-- The rule for a counting loop whose every step succeeds. -/
theorem range_total (hstart : P 0 s)
    (hstep : ∀ k < n, ∀ s, P k s → ∃ s', step s k = .ok s' ∧ P (k + 1) s') :
    ∃ s', (List.range n).foldlM step s = .ok s' ∧ P n s' := by
  obtain ⟨s', hok, hend⟩ := foldlM_total (P := fun done s => P done.length s) hstart
    (fun done k todo hitems s hdone => by
      obtain ⟨hlength, hlt⟩ := range_split hitems
      rw [List.length_append, List.length_singleton, hlength]
      exact hstep k hlt s (hlength ▸ hdone))
  rw [List.length_range] at hend
  exact ⟨s', hok, hend⟩

/-- The rule for a counting loop that succeeds. -/
theorem range_partial {s' : σ} (hstart : P 0 s)
    (hstep : ∀ k < n, ∀ s s', P k s → step s k = .ok s' → P (k + 1) s')
    (hok : (List.range n).foldlM step s = .ok s') : P n s' := by
  have hend := foldlM_partial (P := fun done s => P done.length s) hstart
    (fun done k todo hitems s s' hdone hstep' => by
      obtain ⟨hlength, hlt⟩ := range_split hitems
      rw [List.length_append, List.length_singleton, hlength]
      exact hstep k hlt s s' (hlength ▸ hdone) hstep') hok
  rwa [List.length_range] at hend

/-- Counting loops with the same steps from the states a run meets are equal. -/
theorem range_congr {f g : σ → ℕ → Except ε σ} (h : ∀ k < n, ∀ s, f s k = g s k) :
    (List.range n).foldlM f s = (List.range n).foldlM g s := by
  induction n with
  | zero => rfl
  | succ n ih =>
    rw [List.range_succ, List.foldlM_append, List.foldlM_append,
      ih (fun k hk => h k (Nat.lt_succ_of_lt hk))]
    refine bind_congr (fun s' => ?_)
    rw [List.foldlM_cons, List.foldlM_cons, h n (Nat.lt_succ_self n)]
    rfl

end Counting

/-! ## Items mapped -/

/-- The values of calls that succeed, each at its item's place. -/
theorem getElem_mapM {α : Type} {f : α → Except ε β} {items : List α} {values : List β}
    (h : items.mapM f = .ok values) : values.length = items.length ∧
    ∀ (i : ℕ) (value : β), values[i]? = some value → ∃ item, items[i]? = some item ∧
      f item = .ok value := by
  induction items generalizing values with
  | nil =>
    obtain rfl := Except.ok.inj h
    exact ⟨rfl, fun i value hvalue => by cases hvalue⟩
  | cons item items ih =>
    rw [List.mapM_cons] at h
    obtain ⟨first, hfirst, h⟩ := ok_of_bind h
    obtain ⟨rest, hrest, h⟩ := ok_of_bind h
    obtain rfl := Except.ok.inj h
    obtain ⟨hlength, hplaces⟩ := ih hrest
    refine ⟨by rw [List.length_cons, hlength, List.length_cons], fun i value hvalue => ?_⟩
    cases i with
    | zero =>
      obtain rfl := Option.some.inj hvalue
      exact ⟨item, rfl, hfirst⟩
    | succ i => exact hplaces i value hvalue

/-! ## Every index -/

/-- The values of a call for each index, in order. -/
def traverseFin : {n : ℕ} → {β : Fin n → Type} → ((i : Fin n) → Except ε (β i)) →
    Except ε ((i : Fin n) → β i)
  | 0, _, _ => .ok fun i => i.elim0
  | _ + 1, _, call => do
    let first ← call 0
    let rest ← traverseFin fun i => call i.succ
    .ok (Fin.cases first rest)

theorem traverseFin_of_ok {n : ℕ} {β : Fin n → Type} {call : (i : Fin n) → Except ε (β i)}
    {values : (i : Fin n) → β i} (h : ∀ i, call i = .ok (values i)) :
    traverseFin call = .ok values := by
  induction n with
  | zero => exact congrArg Except.ok (funext fun i => i.elim0)
  | succ n ih =>
    rw [traverseFin, bind_ok (h 0), bind_ok (ih fun i => h i.succ)]
    refine congrArg Except.ok (funext fun i => ?_)
    cases i using Fin.cases with
    | zero => rfl
    | succ i => rfl

theorem traverseFin_ok {n : ℕ} {β : Fin n → Type} {call : (i : Fin n) → Except ε (β i)}
    {values : (i : Fin n) → β i} (h : traverseFin call = .ok values) (i : Fin n) :
    call i = .ok (values i) := by
  induction n with
  | zero => exact i.elim0
  | succ n ih =>
    obtain ⟨first, hfirst, h⟩ := ok_of_bind h
    obtain ⟨rest, hrest, h⟩ := ok_of_bind h
    obtain rfl := Except.ok.inj h
    refine Fin.cases ?_ (fun i => ?_) i
    · exact hfirst
    · exact ih hrest i

end FitsWell.Loops
