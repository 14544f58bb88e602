import Blubos.Foundation.Run
import Mathlib.Data.Set.Basic

/-!
# Traces of a transition system

A path is a run from a given state together with the label of every step and the state after it.
Two systems have the same traces when an abstraction function carries the steps of one to steps of
the other and every step of the other comes from one of these.
-/

namespace Blubos

namespace Behaviour

variable {State Label : Type*}

/-- A run from one state to another, with the label of each step and the state it leads to. -/
inductive Path (system : Behaviour State Label) : State → List (Label × State) → State → Prop
  | nil (state : State) : Path system state [] state
  | cons {state next last : State} {label : Label} {steps : List (Label × State)} :
      system.step state label next → Path system next steps last →
      Path system state ((label, next) :: steps) last

/-- The label sequences of the runs from a state. -/
def traces (system : Behaviour State Label) (state : State) : Set (List Label) :=
  {labels | ∃ steps last, system.Path state steps last ∧ steps.map Prod.fst = labels}

variable {system : Behaviour State Label}

/-- What is kept by every step holds at the end of a path that it holds at the start of. -/
theorem Path.invariant {holds : State → Prop}
    (keeps : ∀ state label next, holds state → system.step state label next → holds next)
    {state last : State} {steps : List (Label × State)} (begins : holds state)
    (path : system.Path state steps last) : holds last := by
  induction path with
  | nil => exact begins
  | cons taken _ induction => exact induction (keeps _ _ _ begins taken)

/-- A measure that every step raises to the size of the new state, where that is larger, ends as the
largest of the sizes on the way. -/
theorem Path.peak {measure size : State → ℕ} {holds : State → Prop}
    (keeps : ∀ state label next, holds state → system.step state label next → holds next)
    (raises : ∀ state label next, holds state → system.step state label next →
      measure next = max (measure state) (size next))
    {state last : State} {steps : List (Label × State)} (begins : holds state)
    (path : system.Path state steps last) :
    measure last = (steps.map fun step => size step.2).foldl max (measure state) := by
  induction path with
  | nil => rfl
  | cons taken _ induction =>
      rw [induction (keeps _ _ _ begins taken), raises _ _ _ begins taken]
      rfl

theorem Computes.path {perform : State → Label → Option State} {allowed : State → Label → Prop}
    [∀ state label, Decidable (allowed state label)] (computes : system.Computes perform)
    {state last : State} {labels : List Label}
    (ran : run perform allowed state labels = some last) :
    ∃ steps, system.Path state steps last := by
  induction labels generalizing state with
  | nil => exact ⟨[], Option.some.inj ran ▸ .nil state⟩
  | cons label labels induction =>
      rw [Behaviour.run] at ran
      split_ifs at ran with permitted
      obtain ⟨next, performed, ran⟩ := Option.bind_eq_some_iff.mp ran
      obtain ⟨steps, path⟩ := induction ran
      exact ⟨(label, next) :: steps, .cons (computes _ _ _ performed) path⟩

/-- The steps of two systems correspond along an abstraction of the states that satisfy an
invariant. -/
structure Bisimulates {Abstract : Type*} (concrete : Behaviour State Label)
    (abstract : Behaviour Abstract Label) (abstraction : State → Abstract)
    (holds : State → Prop) : Prop where
  keeps : ∀ state label next, holds state → concrete.step state label next → holds next
  /-- A step is a step of the abstract system. -/
  forward : ∀ state label next, holds state → concrete.step state label next →
    abstract.step (abstraction state) label (abstraction next)
  /-- A step of the abstract system comes from a step. -/
  backward : ∀ state label next, holds state → abstract.step (abstraction state) label next →
    ∃ next', concrete.step state label next' ∧ abstraction next' = next

variable {Abstract : Type*} {abstract : Behaviour Abstract Label} {abstraction : State → Abstract}
  {holds : State → Prop}

theorem Bisimulates.path_forward (bisimulates : Bisimulates system abstract abstraction holds)
    {state last : State} {steps : List (Label × State)} (begins : holds state)
    (path : system.Path state steps last) :
    abstract.Path (abstraction state) (steps.map (Prod.map id abstraction)) (abstraction last) := by
  induction path with
  | nil => exact .nil _
  | cons taken _ induction =>
      exact .cons (bisimulates.forward _ _ _ begins taken)
        (induction (bisimulates.keeps _ _ _ begins taken))

theorem Bisimulates.path_backward (bisimulates : Bisimulates system abstract abstraction holds)
    {first last : Abstract} {steps : List (Label × Abstract)}
    (path : abstract.Path first steps last) {state : State} (begins : holds state)
    (represents : abstraction state = first) :
    ∃ steps' last', system.Path state steps' last' ∧ abstraction last' = last ∧
      steps'.map (Prod.map id abstraction) = steps := by
  induction path generalizing state with
  | nil => exact ⟨[], state, .nil state, represents, rfl⟩
  | @cons first next last label steps taken _ induction =>
      subst represents
      obtain ⟨next', taken', rfl⟩ := bisimulates.backward _ _ _ begins taken
      obtain ⟨steps', last', path', ends, same⟩ :=
        induction (bisimulates.keeps _ _ _ begins taken') rfl
      exact ⟨(label, next') :: steps', last', .cons taken' path', ends, by simp [same]⟩

theorem Bisimulates.traces_eq (bisimulates : Bisimulates system abstract abstraction holds)
    {state : State} (begins : holds state) :
    system.traces state = abstract.traces (abstraction state) := by
  ext labels
  constructor
  · rintro ⟨steps, last, path, rfl⟩
    refine ⟨_, _, bisimulates.path_forward begins path, ?_⟩
    rw [List.map_map]
    rfl
  · rintro ⟨steps, last, path, rfl⟩
    obtain ⟨steps', last', path', -, rfl⟩ := bisimulates.path_backward path begins rfl
    refine ⟨steps', last', path', ?_⟩
    rw [List.map_map]
    rfl

end Behaviour

end Blubos
