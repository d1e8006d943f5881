import FitsWell.FitsError
import FitsWell.HeaderModel.Text
import FitsWell.Library.Overwrite
import FitsWell.Library.Stateful

/-!
# Sinks that seek

A sink holds bytes and a position at which it is written. Any of its calls may fail, a write after
some of its bytes.
-/

namespace FitsWell

/-- The bytes of a sink, its position, and how many calls it has had. -/
structure SeekSink where
  bytes : Text
  position : ℕ
  calls : ℕ
  deriving DecidableEq, Repr

/-- How a sink answers its calls: each works, or fails, a write after so many bytes and a seek at
such a position. -/
abbrev SinkAnswers : Type := ℕ → Option ℕ

/-- A sink whose calls all work. -/
def SinkAnswers.work : SinkAnswers := fun _ => none

namespace SeekSink

variable (answers : SinkAnswers)

/-- The outcome of the next call. -/
def answered (sink : SeekSink) : Outcome Unit :=
  if (answers sink.calls).isNone then .ok () else fail .io

/-- The bytes with others put in at the position. Where there are none, they stay as they are. -/
def putAt (sink : SeekSink) (out : Text) : Text :=
  if out.isEmpty then sink.bytes else overwrite 0 sink.bytes sink.position out

/-- Write bytes at the position: all of them, or those before a failure. -/
def writeAll (out : Text) : Stateful Fault SeekSink Unit := fun sink =>
  let taken := out.take ((answers sink.calls).getD out.length)
  (sink.answered answers,
    { bytes := sink.putAt taken
      position := sink.position + taken.length
      calls := sink.calls + 1 })

def streamPosition : Stateful Fault SeekSink ℕ := fun sink =>
  ((sink.answered answers).map fun _ => sink.position, { sink with calls := sink.calls + 1 })

/-- Go to a place. -/
def seekTo (place : ℕ) : Stateful Fault SeekSink Unit := fun sink =>
  (sink.answered answers,
    { sink with position := (answers sink.calls).getD place, calls := sink.calls + 1 })

/-- The sink with bytes written at its position, in so many calls. -/
def wrote (sink : SeekSink) (out : Text) (calls : ℕ) : SeekSink where
  bytes := sink.putAt out
  position := sink.position + out.length
  calls := sink.calls + calls

/-- A call of a sink failed between two of its states. -/
def Failed (sink sink' : SeekSink) : Prop :=
  ∃ n, sink.calls ≤ n ∧ n < sink'.calls ∧ (answers n).isSome = true

variable {answers}

theorem wrote_nil (sink : SeekSink) : sink.wrote [] 0 = sink := rfl

/-- Bytes written one after the other are written at once. -/
theorem wrote_wrote (sink : SeekSink) (first second : Text) (m n : ℕ) :
    (sink.wrote first m).wrote second n = sink.wrote (first ++ second) (m + n) := by
  have hbytes : (sink.wrote first m).putAt second = sink.putAt (first ++ second) := by
    cases first with
    | nil => rfl
    | cons byte first =>
      cases second with
      | nil =>
        rw [List.append_nil]
        rfl
      | cons other second => exact overwrite_overwrite _ _ _ (byte :: first) (other :: second)
  unfold wrote at hbytes ⊢
  rw [hbytes, List.length_append, Nat.add_assoc, Nat.add_assoc]

/-- The bytes before the position stay. -/
theorem take_isPrefix_putAt (sink : SeekSink) (out : Text) :
    sink.bytes.take sink.position <+: sink.putAt out := by
  unfold putAt
  split
  · exact List.take_prefix _ _
  · exact take_isPrefix_overwrite _ _ _ _

/-- A write puts all its bytes at the position, or some of the first where the call fails. -/
theorem run_writeAll (sink : SeekSink) (out : Text) :
    ((answers sink.calls).isSome = false ∧
      (writeAll answers out).run sink = (.ok (), sink.wrote out 1)) ∨
      ∃ taken, taken <+: out ∧ (answers sink.calls).isSome = true ∧
        (writeAll answers out).run sink = (fail .io, sink.wrote taken 1) := by
  unfold Stateful.run writeAll answered
  cases hanswer : answers sink.calls with
  | none =>
    refine .inl ⟨rfl, ?_⟩
    simp [wrote]
  | some room =>
    right
    exact ⟨out.take room, List.take_prefix room out, rfl, rfl⟩

theorem Failed.mono {sink sink' : SeekSink} (h : Failed answers sink sink') {before after : SeekSink}
    (hbefore : before.calls ≤ sink.calls) (hafter : sink'.calls ≤ after.calls) :
    Failed answers before after := by
  obtain ⟨n, hfirst, hlast, hsome⟩ := h
  exact ⟨n, hbefore.trans hfirst, hlast.trans_le hafter, hsome⟩

/-- One call that works. -/
theorem not_failed_one {sink sink' : SeekSink} (h : (answers sink.calls).isSome = false)
    (hcalls : sink'.calls = sink.calls + 1) : ¬Failed answers sink sink' := by
  rintro ⟨n, hfirst, hlast, hsome⟩
  obtain rfl : n = sink.calls := by omega
  rw [h] at hsome
  cases hsome

/-- Calls that work one after the other. -/
theorem not_failed_trans {sink sink' sink'' : SeekSink} (h : ¬Failed answers sink sink')
    (h' : ¬Failed answers sink' sink'') : ¬Failed answers sink sink'' := by
  rintro ⟨n, hfirst, hlast, hsome⟩
  rcases Nat.lt_or_ge n sink'.calls with hlt | hge
  · exact h ⟨n, hfirst, hlt, hsome⟩
  · exact h' ⟨n, hge, hlast, hsome⟩

theorem not_failed_same {sink sink' : SeekSink} (hcalls : sink'.calls = sink.calls) :
    ¬Failed answers sink sink' := by
  rintro ⟨n, hfirst, hlast, -⟩
  omega

theorem not_failed_work (sink sink' : SeekSink) : ¬Failed .work sink sink' := by
  rintro ⟨n, -, -, hsome⟩
  cases hsome

end SeekSink

end FitsWell
