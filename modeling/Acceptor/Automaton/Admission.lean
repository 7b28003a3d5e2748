import Acceptor.Automaton.Basic
import Acceptor.Payload

/-!
  Acceptor.Automaton.Admission — adding rules and final states

  A rule or a final state is admitted as a whole or refused with a cause, and a refusal changes
  nothing. A state is refused when the state set knows its identity with another ancestor; a
  rule also when it is there already and, under the `reject` policy, when its trigger has a
  rule.

  Main statements:
    1. `Automaton.addRule_eq_ok_iff` — what an admitted rule does.
    2. `Automaton.checkKnown_eq_ok_iff` — when a state agrees with the state set.
-/

namespace Acceptor

/-- Why a rule or a final state is refused. -/
inductive Refusal (α : Type) where
  /-- The rule is present. -/
  | duplicate (rule : Rule α)
  /-- The rule's trigger has a rule, the first of which is given. -/
  | nondeterministic (rule existing : Rule α)
  /-- The identity is known with another ancestor. -/
  | stateConflict (id : StateId) (existing incoming : Option StateId)
  /-- The payload is no symbol. -/
  | invalidSymbol (cause : Payload.Error)

namespace Refusal

/-- How a refusal shows an ancestor. -/
def ancestorText : Option StateId → String
  | none => "None"
  | some q => "Some(StateId(" ++ q.toNat.repr ++ "))"

def message {α : Type} [Letter α] : Refusal α → String
  | duplicate rule => "Rule " ++ rule.text ++ " is already present"
  | nondeterministic rule existing =>
    "Rule " ++ rule.text ++ " makes the automaton nondeterministic (existing: " ++
      existing.text ++ ")"
  | stateConflict id existing incoming =>
    "State " ++ id.text ++ " is already known with ancestor " ++ ancestorText existing ++
      ", got " ++ ancestorText incoming
  | invalidSymbol cause => "Invalid rule symbol: " ++ cause.message

end Refusal

namespace Automaton

variable {α : Type} [Letter α]

/-- Refuses a state whose identity is known with another ancestor. -/
def checkKnown (a : Automaton α) (q : State) : Except (Refusal α) Unit :=
  match a.states.get? q.id with
  | some known =>
    if known = q.ancestor then .ok () else .error (.stateConflict q.id known q.ancestor)
  | none => .ok ()

/-- The state set with one more state; one that is known stays as it is. -/
def learn (states : SortedMap StateId (Option StateId)) (q : State) :
    SortedMap StateId (Option StateId) :=
  states.insertNew q.id q.ancestor

/-- Refuses a rule that may not be added. -/
def checkRule (a : Automaton α) (r : Rule α) : Except (Refusal α) Unit := do
  a.checkKnown r.source
  a.checkKnown r.destination
  let waiting := a.book.candidates r.trigger
  if waiting.any (·.rule.same r) then throw (.duplicate r)
  match a.policy, waiting with
  | .reject, existing :: _ => throw (.nondeterministic r existing.rule)
  | _, _ => return

/-- Adds a rule with its states and its symbol; the answer has the rule's number. -/
def addRule (a : Automaton α) (r : Rule α) : Except (Refusal α) (Nat × Automaton α) := do
  a.checkRule r
  return (a.book.size,
    { a with
      states := learn (learn a.states r.source) r.destination
      alphabet := a.alphabet.insert r.symbol
      book := a.book.push r })

/-- Makes a state final; the answer tells whether it was not final before. -/
def addFinal (a : Automaton α) (q : State) : Except (Refusal α) (Bool × Automaton α) := do
  a.checkKnown q
  return (!a.isFinal q.id,
    { a with
      states := learn a.states q
      finals := a.finals.insert q.id })

/-- Adds a rule of a word automaton whose symbol is given as a text. -/
def addRuleText (a : Automaton Char) (source : State) (payload : String) (destination : State) :
    Except (Refusal Char) (Nat × Automaton Char) :=
  match Payload.parse payload with
  | .error cause => .error (.invalidSymbol cause)
  | .ok symbol => a.addRule ⟨source, symbol, destination⟩

theorem checkKnown_eq_ok_iff {a : Automaton α} {q : State} :
    a.checkKnown q = .ok () ↔ ∀ known, a.states.get? q.id = some known → known = q.ancestor := by
  unfold checkKnown
  split
  · next known h => split <;> simp_all
  · next h => simp [h]

theorem addRule_eq_ok_iff {a b : Automaton α} {r : Rule α} {n : Nat} :
    a.addRule r = .ok (n, b) ↔ a.checkRule r = .ok () ∧ n = a.rules.length ∧
      b = { a with
        states := learn (learn a.states r.source) r.destination
        alphabet := a.alphabet.insert r.symbol
        book := a.book.push r } := by
  unfold addRule
  cases a.checkRule r with
  | error e => simp [bind, Except.bind]
  | ok u => simp [bind, Except.bind, pure, Except.pure, Rulebook.size, rules, eq_comm]

end Automaton

end Acceptor
