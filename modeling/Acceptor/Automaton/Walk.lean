import Acceptor.Automaton.Basic
import Acceptor.Run

/-!
  Acceptor.Automaton.Walk — stepping, recognizing and tracing

  A step follows the rule for a symbol from the cursor's state and fails where the symbol is
  outside the alphabet or no rule applies; the cursor then stays. Recognizing and tracing walk
  a whole pattern from the initial state, stop at the first step that fails, and leave the
  cursor at the initial state.

  Main statements:
    1. `Automaton.restart_step` — a step moves nothing but the cursor.
-/

namespace Acceptor.Automaton

variable {α : Type} [Letter α]

/-- Puts the cursor back to the initial state. -/
def restart (a : Automaton α) : Automaton α := { a with current := a.initial.id }

/-- One step on a symbol: whether it succeeded, and the automaton after it. -/
def step (a : Automaton α) (x : α) : Bool × Automaton α :=
  if a.containsSymbol x then
    match a.ruleFor? a.current x with
    | some r => (true, { a with current := r.destination.id })
    | none => (false, a)
  else (false, a)

/-- Steps on each symbol of a pattern up to the first failure. -/
def walk (a : Automaton α) : List α → Bool × Automaton α
  | [] => (true, a)
  | x :: rest =>
    match a.step x with
    | (true, b) => b.walk rest
    | (false, b) => (false, b)

def accepting (a : Automaton α) : Bool := a.isFinal a.current

/-- Whether a pattern is accepted from the initial state. -/
def recognize (a : Automaton α) (pattern : List α) : Bool × Automaton α :=
  let (consumed, b) := a.restart.walk pattern
  (consumed && b.accepting, b.restart)

/-- Walks a pattern and records each step in a run. -/
def follow (a : Automaton α) (run : Run α) : List α → Run α × Automaton α
  | [] => (run.finish true a.accepting, a)
  | x :: rest =>
    match a.step x with
    | (true, b) => b.follow (run.record ⟨a.current, x, b.current⟩) rest
    | (false, b) => (run.finish false false, b)

/-- The run of a pattern from the initial state. -/
def trace (a : Automaton α) (pattern : List α) : Run α × Automaton α :=
  let (run, b) := a.restart.follow (.new a.restart.current) pattern
  (run, b.restart)

theorem restart_step (a : Automaton α) (x : α) : (a.step x).2.restart = a.restart := by
  unfold step
  split
  · split <;> rfl
  · rfl

end Acceptor.Automaton
