import Acceptor.State

/-!
  Acceptor.Run — the record of one walk through an automaton

  A run holds where the walk started, each step it took, and how it ended: whether the whole
  pattern was consumed and whether it was accepted. Recording does not check that the steps
  follow one another.

  Main statements:
    1. `Run.getLast?_path` — the path ends in the run's last state.
    2. `Run.length_path` — the path has one state more than the run has steps.
-/

namespace Acceptor

variable {α : Type}

/-- One step of a run: the state left, the symbol consumed, the state reached. -/
structure Step (α : Type) where
  source : StateId
  symbol : α
  target : StateId
  deriving DecidableEq

/-- The record of a walk. -/
structure Run (α : Type) where
  start : StateId
  steps : List (Step α)
  consumed : Bool
  accepted : Bool
  deriving DecidableEq

namespace Run

/-- A run that has not moved. -/
def new (start : StateId) : Run α := ⟨start, [], false, false⟩

/-- The run with one more step at its end. -/
def record (run : Run α) (step : Step α) : Run α := { run with steps := run.steps ++ [step] }

/-- The run with its outcome. A pattern that was not consumed is not accepted. -/
def finish (run : Run α) (consumed accepted : Bool) : Run α :=
  { run with consumed, accepted := accepted && consumed }

/-- The states visited: the start, then the target of each step. -/
def path (run : Run α) : List StateId := run.start :: run.steps.map Step.target

def lastState (run : Run α) : StateId :=
  match run.steps.getLast? with
  | some step => step.target
  | none => run.start

theorem length_path (run : Run α) : run.path.length = run.steps.length + 1 := by
  simp [path]

theorem getLast?_path (run : Run α) : run.path.getLast? = some run.lastState := by
  unfold path lastState
  rw [List.getLast?_cons, List.getLast?_map]
  cases run.steps.getLast? <;> rfl

end Run

end Acceptor
