import Mathlib.Data.Option.Basic
import Mathlib.Tactic.SplitIfs

/-!
# Runs of a transition system

A system of states and labelled steps, the states it reaches by steps that all satisfy a given
condition, and the induction that turns an invariant of one step into an invariant of every run.
-/

namespace Blubos

/-- A transition system with labelled steps. -/
structure Behaviour (State Label : Type*) where
  initial : State → Prop
  step : State → Label → State → Prop

namespace Behaviour

variable {State Label : Type*}

/-- The states reached by runs all of whose steps satisfy `allowed`. -/
inductive Reach (system : Behaviour State Label) (allowed : State → Label → Prop) : State → Prop
  | start {state : State} : system.initial state → Reach system allowed state
  | step {state next : State} {label : Label} : Reach system allowed state → allowed state label →
      system.step state label next → Reach system allowed next

def Reachable (system : Behaviour State Label) : State → Prop := system.Reach fun _ _ => True

variable {system : Behaviour State Label} {allowed allowed' : State → Label → Prop}

/-- What holds at the beginning and is kept by every allowed step holds in every state reached. -/
theorem Reach.invariant {holds : State → Prop}
    (begins : ∀ state, system.initial state → holds state)
    (keeps : ∀ state label next, holds state → allowed state label →
      system.step state label next → holds next)
    {state : State} (reach : system.Reach allowed state) : holds state := by
  induction reach with
  | start initial => exact begins _ initial
  | step _ permitted taken induction => exact keeps _ _ _ induction permitted taken

/-- A weaker condition on the steps reaches more states, where the stronger one is only needed in
states that a run reaches. -/
theorem Reach.weaken
    (weaker : ∀ state label, system.Reach allowed' state → allowed state label →
      allowed' state label)
    {state : State} (reach : system.Reach allowed state) : system.Reach allowed' state := by
  induction reach with
  | start initial => exact .start initial
  | step _ permitted taken induction =>
      exact .step induction (weaker _ _ induction permitted) taken

theorem Reach.reachable {state : State} (reach : system.Reach allowed state) :
    system.Reachable state := reach.weaken fun _ _ _ _ => trivial

/-! ## Systems whose steps are computed -/

/-- The system in which a label has at most one effect, computed by a function. -/
def ofPerform (initial : State → Prop) (perform : State → Label → Option State) :
    Behaviour State Label where
  initial := initial
  step state label next := perform state label = some next

/-- Perform allowed labels one after the other. -/
def run (perform : State → Label → Option State) (allowed : State → Label → Prop)
    [∀ state label, Decidable (allowed state label)] : State → List Label → Option State
  | state, [] => some state
  | state, label :: labels =>
      if allowed state label then
        (perform state label).bind fun next => run perform allowed next labels
      else none

/-- A function that computes steps of a system. -/
def Computes (system : Behaviour State Label) (perform : State → Label → Option State) : Prop :=
  ∀ state label next, perform state label = some next → system.step state label next

theorem computes_ofPerform (initial : State → Prop) (perform : State → Label → Option State) :
    (ofPerform initial perform).Computes perform := fun _ _ _ => id

variable {perform : State → Label → Option State} [∀ state label, Decidable (allowed state label)]

theorem Computes.reach (computes : system.Computes perform) {state last : State}
    {labels : List Label} (reach : system.Reach allowed state)
    (ran : run perform allowed state labels = some last) : system.Reach allowed last := by
  induction labels generalizing state with
  | nil => exact Option.some.inj ran ▸ reach
  | cons label labels induction =>
      rw [Behaviour.run] at ran
      split_ifs at ran with permitted
      obtain ⟨next, performed, ran⟩ := Option.bind_eq_some_iff.mp ran
      exact induction (.step reach permitted (computes _ _ _ performed)) ran

/-- What an executed run computes holds of a state that is reached. -/
theorem Computes.exists_reach (computes : system.Computes perform) {first : State}
    {labels : List Label} {α : Type*} {f : State → α} {x : α} (start : system.initial first)
    (executed : (run perform allowed first labels).map f = some x) :
    ∃ state, system.Reach allowed state ∧ f state = x := by
  obtain ⟨state, ran, value⟩ := Option.map_eq_some_iff.mp executed
  exact ⟨state, computes.reach (.start start) ran, value⟩

theorem exists_reach {initial : State → Prop} {first : State} {labels : List Label} {α : Type*}
    {f : State → α} {x : α} (start : initial first)
    (executed : (run perform allowed first labels).map f = some x) :
    ∃ state, (ofPerform initial perform).Reach allowed state ∧ f state = x :=
  (computes_ofPerform initial perform).exists_reach start executed

end Behaviour

end Blubos
