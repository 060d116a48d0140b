import Mathlib.Logic.Function.Basic

/-!
# Transition systems

A partial step function with the states it reaches, and the invariant rule.
-/
namespace RedactGate.Library

variable {State Action : Type}

/-- The states that some sequence of steps reaches from `start`, whatever actions are taken. -/
inductive Reaches (step : State → Action → Option State) (start : State) : State → Prop where
  | refl : Reaches step start start
  | step {s s' : State} (a : Action) : Reaches step start s → step s a = some s' →
      Reaches step start s'

/-- A run of a list of actions. -/
def runSteps (step : State → Action → Option State) : State → List Action → Option State
  | s, [] => some s
  | s, a :: rest => (step s a).bind fun s' => runSteps step s' rest

variable {step : State → Action → Option State} {start : State}

/-- What holds at the start and is kept by every step holds in every state reached. -/
theorem Reaches.invariant {P : State → Prop} {s : State} (reaches : Reaches step start s)
    (initial : P start) (kept : ∀ s a s', P s → step s a = some s' → P s') : P s := by
  induction reaches with
  | refl => exact initial
  | step a _ taken ih => exact kept _ a _ ih taken

theorem Reaches.trans {s s' : State} (first : Reaches step start s) (second : Reaches step s s') :
    Reaches step start s' := by
  induction second with
  | refl => exact first
  | step a _ taken ih => exact ih.step a taken

theorem reaches_of_runSteps {actions : List Action} {s s' : State}
    (run : runSteps step s actions = some s') : Reaches step s s' := by
  induction actions generalizing s with
  | nil =>
    cases run
    exact .refl
  | cons a rest ih =>
    obtain ⟨middle, taken, run⟩ := Option.bind_eq_some_iff.mp run
    exact (Reaches.refl.step a taken).trans (ih run)

/-! ## Runs of allowed steps -/

/-- The states that steps reach from `start` of which each is allowed in the state where it is
taken. -/
inductive ReachesBy (allowed : State → Action → Prop) (step : State → Action → Option State)
    (start : State) : State → Prop where
  | refl : ReachesBy allowed step start start
  | step {s s' : State} (a : Action) : ReachesBy allowed step start s → allowed s a →
      step s a = some s' → ReachesBy allowed step start s'

variable {allowed : State → Action → Prop}

/-- The invariant rule for runs of allowed steps. -/
theorem ReachesBy.invariant {P : State → Prop} {s : State}
    (reaches : ReachesBy allowed step start s) (initial : P start)
    (kept : ∀ s a s', P s → allowed s a → step s a = some s' → P s') : P s := by
  induction reaches with
  | refl => exact initial
  | step a _ fits taken ih => exact kept _ a _ ih fits taken

theorem ReachesBy.reaches {s : State} (reaches : ReachesBy allowed step start s) :
    Reaches step start s := by
  induction reaches with
  | refl => exact .refl
  | step a _ _ taken ih => exact ih.step a taken

/-- What more steps are allowed reaches as much. -/
theorem ReachesBy.imp {allowed' : State → Action → Prop} {s : State}
    (reaches : ReachesBy allowed step start s) (weaker : ∀ s a, allowed s a → allowed' s a) :
    ReachesBy allowed' step start s := by
  induction reaches with
  | refl => exact .refl
  | step a _ fits taken ih => exact ih.step a (weaker _ a fits) taken

/-- A run of allowed steps of which the later ones depend on the earlier. -/
theorem ReachesBy.trans {s s' : State} (first : ReachesBy allowed step start s)
    (second : ReachesBy allowed step s s') : ReachesBy allowed step start s' := by
  induction second with
  | refl => exact first
  | step a _ fits taken ih => exact ih.step a fits taken

section

variable [∀ s a, Decidable (allowed s a)]

/-- A run of a list of actions, each of which has to be allowed in its state and enabled there. -/
def runAllowed (allowed : State → Action → Prop) [∀ s a, Decidable (allowed s a)]
    (step : State → Action → Option State) : State → List Action → Option State
  | s, [] => some s
  | s, a :: rest =>
    if allowed s a then (step s a).bind fun s' => runAllowed allowed step s' rest else none

theorem reachesBy_of_runAllowed {actions : List Action} {s s' : State}
    (run : runAllowed allowed step s actions = some s') : ReachesBy allowed step s s' := by
  induction actions generalizing s with
  | nil =>
    cases run
    exact .refl
  | cons a rest ih =>
    rw [runAllowed] at run
    split at run
    · next fits =>
      obtain ⟨middle, taken, run⟩ := Option.bind_eq_some_iff.mp run
      exact (ReachesBy.refl.step a fits taken).trans (ih run)
    · cases run

theorem runSteps_of_runAllowed {actions : List Action} {s s' : State}
    (run : runAllowed allowed step s actions = some s') : runSteps step s actions = some s' := by
  induction actions generalizing s with
  | nil => exact run
  | cons a rest ih =>
    rw [runAllowed] at run
    split at run
    · obtain ⟨middle, taken, run⟩ := Option.bind_eq_some_iff.mp run
      rw [runSteps, taken, Option.bind_some]
      exact ih run
    · cases run

end

end RedactGate.Library
