import Acceptor.Rule

/-!
  Acceptor.Check.Violation — what can be wrong with an automaton

  A violation names the offending state or rule. Violations are collected, not thrown: a check
  answers the list of all it found, and the empty list means that nothing is wrong.

  Main statements:
    1. `reportUnless_eq_nil_iff` — a report is empty exactly where its condition holds.
-/

namespace Acceptor

/-- A broken condition on an automaton. -/
inductive Violation (α : Type) where
  | initialOutside (state : StateId)
  | cursorOutside (state : StateId)
  /-- A listing names the state more than once. -/
  | duplicateState (state : StateId)
  | finalOutside (state : StateId)
  | ruleStateUnknown (rule : Rule α) (state : StateId)
  /-- The rule's symbol is not in the alphabet. -/
  | ruleSymbolUnknown (rule : Rule α)
  | duplicateRule (rule : Rule α)
  /-- The state has more than one rule on the symbol. -/
  | nondeterministic (state : StateId) (symbol : α) (count : Nat)
  | unreachable (state : StateId)
  /-- A condition of the caller's own does not hold. -/
  | custom (message : String)
  deriving DecidableEq

def Violation.message {α : Type} [Letter α] : Violation α → String
  | initialOutside q => "Initial state " ++ q.text ++ " is not in the state set"
  | cursorOutside q => "Cursor state " ++ q.text ++ " is not in the state set"
  | duplicateState q => "State " ++ q.text ++ " is listed more than once"
  | finalOutside q => "Final state " ++ q.text ++ " is not in the state set"
  | ruleStateUnknown r q => "Rule " ++ r.text ++ " references unknown state " ++ q.text
  | ruleSymbolUnknown r =>
    "Rule " ++ r.text ++ " uses symbol " ++ Letter.text r.symbol ++ " outside the alphabet"
  | duplicateRule r => "Rule " ++ r.text ++ " is present more than once"
  | nondeterministic q x n =>
    "State " ++ q.text ++ " has " ++ n.repr ++ " transitions on symbol " ++ Letter.text x
  | unreachable q => "State " ++ q.text ++ " is unreachable from the initial state"
  | custom message => "Custom check failed: " ++ message

/-- A report has the violation where a condition does not hold, and nothing where it does. -/
def reportUnless {α : Type} (holds : Bool) (violation : Violation α) : List (Violation α) :=
  if holds then [] else [violation]

@[simp] theorem reportUnless_eq_nil_iff {α : Type} {holds : Bool} {v : Violation α} :
    reportUnless holds v = [] ↔ holds := by
  cases holds <;> simp [reportUnless]

end Acceptor
