import FitsWell.FitsWriter.ImageWriter

/-!
# What a write puts in the sink

A writer that is usable writes all the bytes of an HDU in order, or some of the first where a call
of the sink fails, and is then unusable.
-/

namespace FitsWell

variable {R : Type} [PlaneReals R] {answers : SinkAnswers}

namespace FitsWriter

/-- The writer with bytes written, in so many calls of the sink. -/
def wrote (writer : FitsWriter) (out : Text) (calls : ℕ) : FitsWriter :=
  { writer with sink := writer.sink.wrote out calls }

/-- A usable writer wrote `out`, or some of its first bytes where a call of the sink failed. -/
inductive Emission (answers : SinkAnswers) (writer : FitsWriter) (out : Text) :
    Outcome Unit × FitsWriter → Prop
  | whole (calls : ℕ)
      (hworks : ¬SeekSink.Failed answers writer.sink (writer.sink.wrote out calls)) :
      Emission answers writer out (.ok (), writer.wrote out calls)
  | broken (error : FitsError) (taken : Text) (calls : ℕ) (htaken : taken <+: out)
      (hfailed : SeekSink.Failed answers writer.sink (writer.sink.wrote taken calls)) :
      Emission answers writer out (fail error, (writer.wrote taken calls).poisoned)

theorem wrote_wrote (writer : FitsWriter) (first second : Text) (m n : ℕ) :
    (writer.wrote first m).wrote second n = writer.wrote (first ++ second) (m + n) := by
  unfold wrote
  rw [SeekSink.wrote_wrote]

theorem ensureUsable_wrote {writer : FitsWriter} (h : writer.ensureUsable = .ok ()) (out : Text)
    (calls : ℕ) : (writer.wrote out calls).ensureUsable = .ok () := h

theorem emission_emit {writer : FitsWriter} (h : writer.ensureUsable = .ok ()) (out : Text) :
    Emission answers writer out ((emit answers out).run writer) := by
  unfold Stateful.run emit
  rw [h]
  rcases writer.sink.run_writeAll out with ⟨hanswer, hrun⟩ | ⟨taken, htaken, hanswer, hrun⟩
  · rw [hrun]
    exact .whole 1 (SeekSink.not_failed_one hanswer rfl)
  · rw [hrun]
    refine .broken .io taken 1 htaken ⟨writer.sink.calls, le_rfl, Nat.lt_succ_self _, hanswer⟩

/-- Bytes after others. -/
theorem Emission.bind {writer : FitsWriter} {first second : Text}
    {call : Stateful Fault FitsWriter Unit} {next : Unit → Stateful Fault FitsWriter Unit}
    (hfirst : Emission answers writer first (call.run writer))
    (hnext : ∀ calls, Emission answers (writer.wrote first calls) second
      ((next ()).run (writer.wrote first calls))) :
    Emission answers writer (first ++ second) ((call >>= next).run writer) := by
  generalize hcall : call.run writer = result at hfirst
  cases hfirst with
  | whole calls hworks =>
    rw [Stateful.run_bind hcall]
    have hrest := hnext calls
    have hsink : ∀ taken more, (writer.wrote first calls).sink.wrote taken more =
        writer.sink.wrote (first ++ taken) (calls + more) :=
      fun taken more => SeekSink.wrote_wrote _ _ _ _ _
    generalize (next ()).run (writer.wrote first calls) = result at hrest
    cases hrest with
    | whole more hlast =>
      rw [wrote_wrote]
      rw [hsink] at hlast
      exact .whole (calls + more) (SeekSink.not_failed_trans hworks hlast)
    | broken error taken more htaken hfailed =>
      rw [wrote_wrote]
      rw [hsink] at hfailed
      exact .broken error _ _ ((List.prefix_append_right_inj first).mpr htaken)
        (hfailed.mono (Nat.le_add_right _ _) le_rfl)
  | broken error taken calls htaken hfailed =>
    rw [Stateful.run_bind_error hcall]
    exact .broken error taken calls (htaken.trans (List.prefix_append first second)) hfailed

/-- The pieces of a body, one after another. -/
theorem emission_forM {writer : FitsWriter} (h : writer.ensureUsable = .ok ()) (pieces : List Text) :
    Emission answers writer pieces.flatten ((pieces.forM (emit answers)).run writer) := by
  induction pieces generalizing writer with
  | nil => exact .whole 0 (SeekSink.not_failed_same rfl)
  | cons piece pieces ih =>
    exact (emission_emit h piece).bind fun calls => ih (ensureUsable_wrote h piece calls)

/-- A producer writes the pieces that it hands over. -/
theorem emission_of_hands {writer : FitsWriter} (h : writer.ensureUsable = .ok ())
    {producer : Producer Fault Text Unit} {pieces : List Text} (hhands : Hands producer pieces (.ok ())) :
    Emission answers writer pieces.flatten ((producer FitsWriter (emit answers)).run writer) := by
  rw [hhands FitsWriter (emit answers), ← List.append_nil pieces.flatten]
  exact (emission_forM h pieces).bind fun _ => .whole 0 (SeekSink.not_failed_same rfl)

end FitsWriter

end FitsWell
