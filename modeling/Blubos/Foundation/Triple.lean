import Mathlib.Data.List.Basic

/-!
# Triples for programs that may stop

Programs over a state that return a value or stop early with an error.  A triple says what holds of
the state when the program returns and what holds of it when the program stops; with nothing allowed
to a program that stops, it says that the program returns.
-/

namespace Blubos

/-- A program over a state that may stop early. -/
abbrev Attempt (σ ε α : Type) : Type := σ → Except ε α × σ

namespace Attempt

variable {σ ε α β : Type}

def andThen (first : Attempt σ ε α) (next : α → Attempt σ ε β) : Attempt σ ε β := fun s =>
  match first s with
  | (.ok value, s) => next value s
  | (.error error, s) => (.error error, s)

/-- Started where `before` holds, the program returns where `after` holds or stops where `stopped`
does. -/
def Triple (before : σ → Prop) (program : Attempt σ ε α) (after : α → σ → Prop)
    (stopped : σ → Prop) : Prop :=
  ∀ s, before s → match program s with
    | (.ok value, s) => after value s
    | (.error _, s) => stopped s

namespace Triple

variable {before : σ → Prop} {program : Attempt σ ε α} {after : α → σ → Prop} {stopped : σ → Prop}

theorem andThen {next : α → Attempt σ ε β} {later : β → σ → Prop}
    (first : Triple before program after stopped)
    (second : ∀ value, Triple (after value) (next value) later stopped) :
    Triple before (program.andThen next) later stopped := by
  intro s holds
  have middle := first s holds
  rw [Attempt.andThen]
  match outcome : program s with
  | (.ok value, s') =>
      rw [outcome] at middle
      exact second value s' middle
  | (.error error, s') =>
      rw [outcome] at middle
      exact middle

theorem weaken {before' : σ → Prop} {after' : α → σ → Prop} {stopped' : σ → Prop}
    (triple : Triple before program after stopped) (stronger : ∀ s, before' s → before s)
    (returned : ∀ value s, after value s → after' value s) (stops : ∀ s, stopped s → stopped' s) :
    Triple before' program after' stopped' := by
  intro s holds
  have outcome := triple s (stronger s holds)
  split at outcome
  · exact returned _ _ outcome
  · exact stops _ outcome

theorem and {after' : α → σ → Prop} (triple : Triple before program after stopped)
    (other : Triple before program after' stopped) :
    Triple before program (fun value s => after value s ∧ after' value s) stopped := by
  intro s holds
  have first := triple s holds
  have second := other s holds
  split at first <;> rename_i ran
  · rw [ran] at second
    exact ⟨first, second⟩
  · exact first

/-- What does not depend on the state can be assumed. -/
theorem assume {fact : Prop} (triple : fact → Triple before program after stopped) :
    Triple (fun s => fact ∧ before s) program after stopped :=
  fun s holds => triple holds.1 s holds.2

theorem returns (triple : Triple before program after fun _ => False) {s : σ} (holds : before s) :
    ∃ value s', program s = (.ok value, s') ∧ after value s' := by
  have outcome := triple s holds
  match ran : program s with
  | (.ok value, s') =>
      rw [ran] at outcome
      exact ⟨value, s', rfl, outcome⟩
  | (.error error, s') =>
      rw [ran] at outcome
      exact outcome.elim

end Triple

end Attempt

end Blubos
