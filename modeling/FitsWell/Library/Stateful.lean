import FitsWell.Library.Ends
import FitsWell.Library.Loops

/-!
# Calls on a state

A call on a state ends with a value or a fault, and leaves a state either way. A producer
hands pieces to its caller one at a time; what it hands over does not depend on what the
caller does with a piece, as long as the caller takes it.
-/

namespace FitsWell

/-- A call on a state. -/
def Stateful (ε σ α : Type) : Type := σ → Except ε α × σ

namespace Stateful

variable {ε σ τ α β : Type}

/-- The outcome of a call from a state, and the state it leaves. -/
def run (call : Stateful ε σ α) (s : σ) : Except ε α × σ := call s

instance : Monad (Stateful ε σ) where
  pure value := fun s => (.ok value, s)
  bind call next := fun s =>
    match call.run s with
    | (.ok value, s') => (next value).run s'
    | (.error fault, s') => (.error fault, s')

/-- A call that reads and leaves no state. -/
def lift (outcome : Except ε α) : Stateful ε σ α := fun s => (outcome, s)

instance : MonadLift (Except ε) (Stateful ε σ) := ⟨lift⟩

/-- The state. -/
def get : Stateful ε σ σ := fun s => (.ok s, s)

/-- Leave another state. -/
def set (s : σ) : Stateful ε σ Unit := fun _ => (.ok (), s)

/-- A call whose outcome is kept, whatever it is. -/
def attempt (call : Stateful ε σ α) : Stateful ε σ (Except ε α) := fun s =>
  (.ok (call.run s).1, (call.run s).2)

/-- A call on the first of two states. -/
def first (call : Stateful ε σ α) : Stateful ε (σ × τ) α := fun s =>
  ((call.run s.1).1, ((call.run s.1).2, s.2))

/-- A call on the second of two states. -/
def second (call : Stateful ε τ α) : Stateful ε (σ × τ) α := fun s =>
  ((call.run s.2).1, (s.1, (call.run s.2).2))

theorem run_pure (value : α) (s : σ) : (pure value : Stateful ε σ α).run s = (.ok value, s) := rfl

theorem run_lift (outcome : Except ε α) (s : σ) :
    (lift outcome : Stateful ε σ α).run s = (outcome, s) := rfl

theorem run_liftM (outcome : Except ε α) (s : σ) :
    (liftM outcome : Stateful ε σ α).run s = (outcome, s) := rfl

/-- A run goes on from a first call that succeeds. -/
theorem run_bind {call : Stateful ε σ α} {next : α → Stateful ε σ β} {s s' : σ} {value : α}
    (h : call.run s = (.ok value, s')) : (call >>= next).run s = (next value).run s' := by
  unfold run at h
  simp only [bind, run, h]

/-- A run ends at a first call that fails. -/
theorem run_bind_error {call : Stateful ε σ α} {next : α → Stateful ε σ β} {s s' : σ} {fault : ε}
    (h : call.run s = (.error fault, s')) : (call >>= next).run s = (.error fault, s') := by
  unfold run at h
  simp only [bind, run, h]

/-- A run goes on from an outcome with a value. -/
theorem run_liftM_bind {outcome : Except ε α} {next : α → Stateful ε σ β} {s : σ} {value : α}
    (h : outcome = .ok value) :
    ((liftM outcome : Stateful ε σ α) >>= next).run s = (next value).run s := by
  rw [h]
  rfl

theorem run_get_bind (next : σ → Stateful ε σ β) (s : σ) :
    (get >>= next).run s = (next s).run s := rfl

/-- A run goes on from an attempt, whatever it ended with. -/
theorem run_attempt_bind (call : Stateful ε σ α) (next : Except ε α → Stateful ε σ β) (s : σ) :
    (call.attempt >>= next).run s = (next (call.run s).1).run (call.run s).2 := rfl

/-- A run that succeeds has a first call that does. -/
theorem ok_of_bind {call : Stateful ε σ α} {next : α → Stateful ε σ β} {s s'' : σ} {value : β}
    (h : (call >>= next).run s = (.ok value, s'')) :
    ∃ a s', call.run s = (.ok a, s') ∧ (next a).run s' = (.ok value, s'') := by
  cases hcall : call.run s with
  | mk outcome s' =>
    cases outcome with
    | error fault =>
      rw [run_bind_error hcall] at h
      cases h
    | ok a =>
      rw [run_bind hcall] at h
      exact ⟨a, s', rfl, h⟩

/-- A lifted outcome that succeeds leaves the state. -/
theorem ok_of_lift {outcome : Except ε α} {s s' : σ} {value : α}
    (h : (lift outcome : Stateful ε σ α).run s = (.ok value, s')) : outcome = .ok value ∧ s' = s :=
  ⟨congrArg Prod.fst h, (congrArg Prod.snd h).symm⟩

instance : LawfulMonad (Stateful ε σ) := by
  refine LawfulMonad.mk' _ (fun call => ?_) (fun _ _ => rfl) (fun call next last => ?_)
  · funext s
    simp only [Functor.map, run, id, Function.comp]
    split <;> simp_all
  · funext s
    simp only [bind, run]
    cases call s with
    | mk outcome s' =>
      cases outcome with
      | error fault => rfl
      | ok a => rfl

/-- A loop keeps what each of its steps does. -/
theorem foldlM_ok {P : List β → σ → α → Prop} {step : α → β → Stateful ε σ α} {items : List β}
    {s s' : σ} {a a' : α} (hstart : P [] s a)
    (hstep : ∀ done item s s' a a', P done s a → (step a item).run s = (.ok a', s') →
      P (done ++ [item]) s' a')
    (h : (items.foldlM step a).run s = (.ok a', s')) : P items s' a' := by
  have hrest : ∀ todo done s a, P done s a → (todo.foldlM step a).run s = (.ok a', s') →
      P (done ++ todo) s' a' := by
    intro todo
    induction todo with
    | nil =>
      intro done s a hdone hrun
      obtain ⟨hvalue, hstate⟩ := Prod.mk.inj hrun
      rw [List.append_nil, ← hstate, ← Except.ok.inj hvalue]
      exact hdone
    | cons item todo ih =>
      intro done s a hdone hrun
      rw [List.foldlM_cons] at hrun
      obtain ⟨next, between, hitem, hrun⟩ := ok_of_bind hrun
      rw [List.append_cons]
      exact ih _ _ _ (hstep _ _ _ _ _ _ hdone hitem) hrun
  exact hrest items [] s a hstart h

/-- A loop without a value keeps what each of its steps does. -/
theorem forM_ok {P : List β → σ → Prop} {step : β → Stateful ε σ Unit} {items : List β}
    {s s' : σ} (hstart : P [] s)
    (hstep : ∀ done item s s', P done s → (step item).run s = (.ok (), s') → P (done ++ [item]) s')
    (h : (items.forM step).run s = (.ok (), s')) : P items s' := by
  have hrest : ∀ todo done s, P done s → (todo.forM step).run s = (.ok (), s') →
      P (done ++ todo) s' := by
    intro todo
    induction todo with
    | nil =>
      intro done s hdone hrun
      obtain ⟨-, hstate⟩ := Prod.mk.inj hrun
      rw [List.append_nil, ← hstate]
      exact hdone
    | cons item todo ih =>
      intro done s hdone hrun
      obtain ⟨_, between, hitem, hrun⟩ := ok_of_bind hrun
      rw [List.append_cons]
      exact ih _ _ (hstep _ _ _ _ hdone hitem) hrun
  exact hrest items [] s hstart h

/-- A loop whose steps succeed from what the steps before it leave succeeds. -/
theorem forM_total {P : List β → σ → Prop} {step : β → Stateful ε σ Unit} {items : List β} {s : σ}
    (hstart : P [] s)
    (hstep : ∀ done, ∀ item ∈ items, ∀ s, P done s → ∃ s', (step item).run s = (.ok (), s') ∧
      P (done ++ [item]) s') :
    ∃ s', (items.forM step).run s = (.ok (), s') ∧ P items s' := by
  have hrest : ∀ todo, (∀ item ∈ todo, item ∈ items) → ∀ done s, P done s →
      ∃ s', (todo.forM step).run s = (.ok (), s') ∧ P (done ++ todo) s' := by
    intro todo
    induction todo with
    | nil =>
      intro _ done s hdone
      exact ⟨s, rfl, (List.append_nil done).symm ▸ hdone⟩
    | cons item todo ih =>
      intro hmem done s hdone
      obtain ⟨next, hitem, hnext⟩ := hstep done item (hmem item List.mem_cons_self) s hdone
      obtain ⟨s', hrun, hend⟩ := ih (fun other hother => hmem other (List.mem_cons_of_mem item hother))
        _ _ hnext
      refine ⟨s', ?_, List.append_cons done item todo ▸ hend⟩
      exact (run_bind hitem).trans hrun
  exact hrest items (fun _ h => h) [] s hstart

/-- A run ends with a value and a state that have `Q`, or with a fault that has `E`. -/
def Ends (E : ε → Prop) (Q : α → σ → Prop) (result : Except ε α × σ) : Prop :=
  match result with
  | (.ok value, s) => Q value s
  | (.error fault, _) => E fault

namespace Ends

variable {E : ε → Prop} {Q : α → σ → Prop} {s : σ}

theorem of_ok {result : Except ε α × σ} {value : α} (h : Ends E Q result)
    (hok : result = (.ok value, s)) : Q value s := by
  rw [hok] at h
  exact h

/-- A run that does not end with a fault ends with a value. -/
theorem exists_ok {result : Except ε α × σ} (h : Ends E Q result) (hnone : ∀ fault, ¬E fault) :
    ∃ value s, result = (.ok value, s) ∧ Q value s := by
  rcases result with ⟨_ | value, s⟩
  · exact (hnone _ h).elim
  · exact ⟨value, s, rfl, h⟩

theorem mono {R : α → σ → Prop} {result : Except ε α × σ} (h : Ends E Q result)
    (himp : ∀ value s, Q value s → R value s) : Ends E R result := by
  rcases result with ⟨_ | value, s⟩
  · exact h
  · exact himp value s h

/-- A lifted outcome leaves the state. -/
theorem lift {P : α → Prop} {outcome : Except ε α} (h : Loops.Ends E P outcome) (s : σ) :
    Ends E (fun value s' => P value ∧ s' = s) ((Stateful.lift outcome : Stateful ε σ α).run s) := by
  cases outcome with
  | error fault => exact h
  | ok value => exact ⟨h, rfl⟩

/-- A run and one from where it ends. -/
theorem bind {call : Stateful ε σ α} {next : α → Stateful ε σ β} {R : β → σ → Prop}
    (h : Ends E Q (call.run s)) (hnext : ∀ value s', Q value s' → Ends E R ((next value).run s')) :
    Ends E R ((call >>= next).run s) := by
  cases hcall : call.run s with
  | mk outcome s' =>
    rw [hcall] at h
    cases outcome with
    | error fault =>
      rw [run_bind_error hcall]
      exact h
    | ok value =>
      rw [run_bind hcall]
      exact hnext value s' h

/-- A loop keeps what each of its steps does. -/
theorem foldlM {P : List β → α → σ → Prop} {step : α → β → Stateful ε σ α} {items : List β}
    {a : α} (hstart : P [] a s)
    (hstep : ∀ done item todo a s, items = done ++ item :: todo → P done a s →
      Ends E (P (done ++ [item])) ((step a item).run s)) :
    Ends E (P items) ((items.foldlM step a).run s) := by
  have hrest : ∀ todo done a s, items = done ++ todo → P done a s →
      Ends E (P items) ((todo.foldlM step a).run s) := by
    intro todo
    induction todo with
    | nil =>
      intro done a s hitems hdone
      rw [hitems, List.append_nil]
      exact hdone
    | cons item todo ih =>
      intro done a s hitems hdone
      rw [List.foldlM_cons]
      exact (hstep done item todo a s hitems hdone).bind fun next s' hnext =>
        ih _ _ _ (hitems.trans (List.append_cons done item todo)) hnext
  exact hrest items [] a s rfl hstart

/-- A loop without a value keeps what each of its steps does. -/
theorem forM {P : List β → σ → Prop} {step : β → Stateful ε σ Unit} {items : List β}
    (hstart : P [] s)
    (hstep : ∀ done item todo s, items = done ++ item :: todo → P done s →
      Ends E (fun _ => P (done ++ [item])) ((step item).run s)) :
    Ends E (fun _ => P items) ((items.forM step).run s) := by
  have hrest : ∀ todo done s, items = done ++ todo → P done s →
      Ends E (fun _ => P items) ((todo.forM step).run s) := by
    intro todo
    induction todo with
    | nil =>
      intro done s hitems hdone
      rw [hitems, List.append_nil]
      exact hdone
    | cons item todo ih =>
      intro done s hitems hdone
      exact (hstep done item todo s hitems hdone).bind fun _ s' hnext =>
        ih _ _ (hitems.trans (List.append_cons done item todo)) hnext
  exact hrest items [] s rfl hstart

end Ends

end Stateful

/-! ## Producers -/

/-- A call that hands pieces to a caller with a state of its own. -/
abbrev Producer (ε β α : Type) : Type 1 := ∀ σ : Type, (β → Stateful ε σ Unit) → Stateful ε σ α

/-- A producer hands over `pieces` and then ends as `stop` says. -/
def Hands {ε β α : Type} (producer : Producer ε β α) (pieces : List β) (stop : Except ε α) : Prop :=
  ∀ (σ : Type) (each : β → Stateful ε σ Unit),
    producer σ each = (pieces.forM each >>= fun _ => Stateful.lift stop)

namespace Hands

variable {ε α β γ : Type}

/-- A producer that hands over nothing. -/
theorem lift (stop : Except ε α) :
    Hands (fun _ _ => Stateful.lift stop : Producer ε β α) [] stop := fun _ _ => rfl

/-- A producer that hands over one piece. -/
theorem each (piece : β) : Hands (fun _ each => each piece : Producer ε β Unit) [piece] (.ok ()) := by
  intro σ each
  have hstop : (fun _ => Stateful.lift (.ok ()) : Unit → Stateful ε σ Unit) = pure := rfl
  have hone : [piece].forM each = each piece := by
    show (each piece >>= fun _ => pure ()) = each piece
    exact bind_pure_unit
  rw [hone, hstop, bind_pure]

/-- A producer that succeeds does so for a caller that takes every piece. -/
theorem run_ok {producer : Producer ε β α} {pieces : List β} {value : α}
    (h : Hands producer pieces (.ok value)) {σ : Type} {each : β → Stateful ε σ Unit}
    (heach : ∀ piece s, ∃ s', (each piece).run s = (.ok (), s')) (s : σ) :
    ∃ s', (producer σ each).run s = (.ok value, s') := by
  have hpieces : ∃ s', (pieces.forM each).run s = (.ok (), s') ∧ True := by
    apply Stateful.forM_total (P := fun _ _ => True) trivial
    intro _ piece _ s _
    obtain ⟨s', hpiece⟩ := heach piece s
    exact ⟨s', hpiece, trivial⟩
  obtain ⟨s', hrun, -⟩ := hpieces
  refine ⟨s', ?_⟩
  rw [h σ each]
  exact Stateful.run_bind hrun

/-- What is left is handed over where there is any. -/
theorem rest (kept : List γ) : ∃ pieces, Hands (fun _ each =>
    if kept.isEmpty then pure () else each kept : Producer ε (List γ) Unit) pieces (.ok ()) ∧
      pieces.flatten = kept := by
  cases kept with
  | nil => exact ⟨[], lift (.ok ()), rfl⟩
  | cons item kept => exact ⟨[item :: kept], each _, List.flatten_singleton⟩

/-- Producers in turn. -/
theorem bind {producer : Producer ε β α} {next : α → Producer ε β γ} {pieces others : List β}
    {value : α} {stop : Except ε γ} (hfirst : Hands producer pieces (.ok value))
    (hnext : Hands (next value) others stop) :
    Hands (fun σ each => producer σ each >>= fun a => next a σ each) (pieces ++ others) stop := by
  intro σ each
  have hvalue : (Stateful.lift (.ok value) : Stateful ε σ α) = pure value := rfl
  dsimp only
  rw [hfirst σ each, bind_assoc, hvalue]
  simp only [pure_bind, List.forM_eq_forM]
  rw [hnext σ each, List.forM_append, bind_assoc, List.forM_eq_forM]

/-- A producer that fails hands over nothing more. -/
theorem bind_error {producer : Producer ε β α} {next : α → Producer ε β γ} {pieces : List β}
    {fault : ε} (hfirst : Hands producer pieces (.error fault)) :
    Hands (fun σ each => producer σ each >>= fun a => next a σ each) pieces
      (.error fault) := by
  intro σ each
  dsimp only
  rw [hfirst σ each, bind_assoc]
  rfl

/-- Producers in turn, whatever the first ends with. -/
theorem exists_bind {producer : Producer ε β α} {next : α → Producer ε β γ}
    (hfirst : ∃ pieces stop, Hands producer pieces stop)
    (hnext : ∀ value, ∃ pieces stop, Hands (next value) pieces stop) :
    ∃ pieces stop, Hands (fun σ each => producer σ each >>= fun a => next a σ each) pieces stop := by
  obtain ⟨pieces, stop, hfirst⟩ := hfirst
  cases stop with
  | error fault => exact ⟨pieces, _, hfirst.bind_error⟩
  | ok value =>
    obtain ⟨others, stop, hnext⟩ := hnext value
    exact ⟨pieces ++ others, stop, hfirst.bind hnext⟩

/-- A loop of producers that succeed. -/
theorem foldlM_total {P : List γ → List β → α → Prop} {step : α → γ → Producer ε β α}
    {items : List γ} {init : α} (hstart : P [] [] init)
    (hstep : ∀ done item todo pieces a, items = done ++ item :: todo → P done pieces a →
      ∃ others a', Hands (step a item) others (.ok a') ∧
        P (done ++ [item]) (pieces ++ others) a') :
    ∃ pieces a', Hands (fun σ each => items.foldlM (fun a item => step a item σ each) init)
      pieces (.ok a') ∧ P items pieces a' := by
  have hrest : ∀ todo done pieces a, items = done ++ todo → P done pieces a →
      ∃ others a', Hands (fun σ each => todo.foldlM (fun a item => step a item σ each) a)
        others (.ok a') ∧ P items (pieces ++ others) a' := by
    intro todo
    induction todo with
    | nil =>
      intro done pieces a hitems hdone
      rw [List.append_nil] at hitems
      refine ⟨[], a, lift _, ?_⟩
      rw [List.append_nil, hitems]
      exact hdone
    | cons item todo ih =>
      intro done pieces a hitems hdone
      obtain ⟨first, next, hfirst, hnext⟩ := hstep done item todo pieces a hitems hdone
      obtain ⟨others, a', hothers, hend⟩ :=
        ih (done ++ [item]) (pieces ++ first) next (by simp [hitems]) hnext
      refine ⟨first ++ others, a', ?_, List.append_assoc pieces first others ▸ hend⟩
      simp only [List.foldlM_cons]
      exact hfirst.bind hothers
  obtain ⟨pieces, a', hpieces, hend⟩ := hrest items [] [] init rfl hstart
  exact ⟨pieces, a', hpieces, hend⟩

/-- A loop of producers. -/
theorem exists_foldlM {step : α → γ → Producer ε β α} {items : List γ} {init : α}
    (hstep : ∀ a, ∀ item ∈ items, ∃ pieces stop, Hands (step a item) pieces stop) :
    ∃ pieces stop, Hands (fun σ each => items.foldlM (fun a item => step a item σ each) init)
      pieces stop := by
  induction items generalizing init with
  | nil => exact ⟨[], .ok init, Hands.lift _⟩
  | cons item items ih =>
    simp only [List.foldlM_cons]
    exact exists_bind (hstep init item List.mem_cons_self) (fun value =>
      ih (fun a other hother => hstep a other (List.mem_cons_of_mem item hother)))

end Hands

end FitsWell
