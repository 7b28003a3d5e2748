import Acceptor.Registry
import Acceptor.Rulebook
import Acceptor.SortedSet

/-!
  Acceptor.Automaton.Basic — automata and what can be asked of them

  An automaton has a set of states, an initial state, final states, an alphabet and a rulebook,
  a policy on nondeterminism, and a cursor for walking. The state set keeps one ancestor for
  each identity, so a state in it is found by identity alone.

  Main statements:
    1. `Automaton.state?_eq_some_iff` — a state is found by its identity, as the set knows it.
-/

namespace Acceptor

/-- What happens to a second rule for a trigger. -/
inductive Policy where
  /-- It is refused, so the automaton stays deterministic. -/
  | reject
  /-- It is accepted; a walk takes the first by text. -/
  | allow
  deriving DecidableEq

def Policy.name : Policy → String
  | reject => "Reject"
  | allow => "Allow"

/-- A finite automaton with a cursor. -/
structure Automaton (α : Type) [Letter α] where
  policy : Policy
  /-- The state set: each identity with its ancestor. -/
  states : SortedMap StateId (Option StateId)
  initial : State
  finals : SortedSet StateId
  alphabet : SortedSet α
  book : Rulebook α
  /-- The cursor. -/
  current : StateId

namespace Automaton

variable {α : Type} [Letter α]

/-! ## Construction -/

/-- The automaton with one state and nothing else. -/
def ofInitial (q : State) : Automaton α where
  policy := .reject
  states := SortedMap.empty.insert q.id q.ancestor
  initial := q
  finals := .empty
  alphabet := .empty
  book := .empty
  current := q.id

/-- The automaton around a freshly issued initial state. -/
def new (registry : Registry) : Except Registry.Error (Automaton α × Registry) := do
  let (q, registry) ← registry.create none
  return (ofInitial q, registry)

/-- An automaton of given parts, unchecked; of states with one identity the last counts. -/
def assemble (policy : Policy) (states : List State) (initial : State) (finals : List StateId)
    (alphabet : List α) (rules : List (Rule α)) : Automaton α where
  policy
  states := .ofList (states.map fun q => (q.id, q.ancestor))
  initial
  finals := .ofList finals
  alphabet := .ofList alphabet
  book := .ofList rules
  current := initial.id

/-- The automaton with another policy for the rules to come. -/
def withPolicy (a : Automaton α) (policy : Policy) : Automaton α := { a with policy }

/-- Starts anew around an initial state, under the same policy. -/
def reset (a : Automaton α) (initial : State) : Automaton α :=
  (ofInitial initial).withPolicy a.policy

/-! ## Questions -/

def rules (a : Automaton α) : List (Rule α) := a.book.rules

def rule? (a : Automaton α) (number : Nat) : Option (Rule α) := a.rules[number]?

/-- The states, by identity. -/
def stateList (a : Automaton α) : List State := a.states.entries.map fun p => ⟨p.1, p.2⟩

/-- The state with an identity, as the state set knows it. -/
def state? (a : Automaton α) (id : StateId) : Option State := (a.states.get? id).map (⟨id, ·⟩)

def containsState (a : Automaton α) (id : StateId) : Bool := a.states.contains id

def containsSymbol (a : Automaton α) (x : α) : Bool := a.alphabet.contains x

def isFinal (a : Automaton α) (id : StateId) : Bool := a.finals.contains id

/-- The rule a walk takes from a state on a symbol: the first by text. -/
def ruleFor? (a : Automaton α) (source : StateId) (x : α) : Option (Rule α) :=
  a.book.first? ⟨source, x⟩

/-- The rules that leave a state, by symbol and then by text. -/
def transitionsFrom (a : Automaton α) (source : StateId) : List (Rule α) :=
  a.book.leaving source

/-- Whether no state has two rules on one symbol. -/
def isDeterministic (a : Automaton α) : Bool := a.book.isDeterministic

theorem state?_eq_some_iff {a : Automaton α} {id : StateId} {q : State} :
    a.state? id = some q ↔ q.id = id ∧ a.states.get? id = some q.ancestor := by
  obtain ⟨i, anc⟩ := q
  simp only [state?, Option.map_eq_some_iff, State.mk.injEq]
  grind

end Automaton

end Acceptor
