import Acceptor.Automaton.Admission
import Acceptor.Automaton.Walk

/-!
  Acceptor.PrefixTree — automata grown from sample words

  A builder walks each sample down its automaton, takes the rules that are there, and grows a
  new branch where none is: each new state comes from the builder's own registry and lies in
  the lineage of the state before it. The end of the sample becomes final. Begun from nothing,
  the automaton is the prefix tree of the samples; it can also be begun from an automaton that
  exists, with identities above all of its own.

  Main statements:
    1. `PrefixTree.empty_registry` — a new builder's registry has issued just the initial state.
-/

namespace Acceptor

/-- A prefix tree under construction. -/
structure PrefixTree where
  registry : Registry
  automaton : Automaton Char
  /-- How many samples were inserted, repetitions included. The number has no bound: the overflow
  of a 64-bit counter, after 2^64 insertions, is left out. -/
  samples : Nat

namespace PrefixTree

/-- Why a sample is not inserted. -/
inductive Error where
  /-- A rule that the sample needs is refused. -/
  | rule (sample : String) (cause : Refusal Char)
  /-- There is no identity left for a state that the sample needs. -/
  | registry (cause : Registry.Error)

def Error.message : Error → String
  | rule sample cause =>
    "Sample " ++ Text.quote sample ++ " could not be inserted: " ++ cause.message
  | registry cause => cause.message

/-- The tree of no samples: the initial state `q0` alone. -/
def empty : PrefixTree := ⟨⟨1⟩, .ofInitial ⟨⟨0⟩, none⟩, 0⟩

/-- The greatest identity in the state set, or the initial one where there is none. -/
def lastId (a : Automaton Char) : StateId := a.states.keys.getLast?.getD a.initial.id

/-- Goes on with an automaton that exists; new states come after its greatest identity. -/
def extend (a : Automaton Char) : Except Registry.Error PrefixTree := do
  return ⟨← Registry.resumeAfter (lastId a), a, 0⟩

/-- Sets the policy for the rules to come. -/
def withPolicy (t : PrefixTree) (policy : Policy) : PrefixTree :=
  { t with automaton := t.automaton.withPolicy policy }

/-- Begins anew with no samples, under the same policy. -/
def reset (t : PrefixTree) : PrefixTree := empty.withPolicy t.automaton.policy

/-- One letter down the tree from a state: along the rule that is there, or along a new one to
a new state. The new state's identity is used up even where the rule is refused. -/
def descend (t : PrefixTree) (q : State) (c : Char) :
    PrefixTree × Except (Registry.Error ⊕ Refusal Char) State :=
  match t.automaton.ruleFor? q.id c with
  | some r => (t, .ok r.destination)
  | none =>
    match t.registry.derive q with
    | .error e => (t, .error (.inl e))
    | .ok (next, registry) =>
      match t.automaton.addRule ⟨q, c, next⟩ with
      | .error e => ({ t with registry }, .error (.inr e))
      | .ok (_, automaton) => ({ t with registry, automaton }, .ok next)

/-- The letters of a word down the tree from a state, up to the first that fails. -/
def descendAll (t : PrefixTree) (q : State) :
    List Char → PrefixTree × Except (Registry.Error ⊕ Refusal Char) State
  | [] => (t, .ok q)
  | c :: rest =>
    match t.descend q c with
    | (t, .ok next) => t.descendAll next rest
    | (t, .error e) => (t, .error e)

/-- Inserts a sample: its way down from the initial state, and the end made final. The answer
is the end's identity. What grew before a failure stays. -/
def insert (t : PrefixTree) (sample : String) : PrefixTree × Except Error StateId :=
  match t.descendAll t.automaton.initial sample.toList with
  | (t, .error (.inl e)) => (t, .error (.registry e))
  | (t, .error (.inr e)) => (t, .error (.rule sample e))
  | (t, .ok q) =>
    let automaton := match t.automaton.addFinal q with
      | .ok (_, a) => a
      | .error _ => t.automaton
    ({ t with automaton, samples := t.samples + 1 }, .ok q.id)

def sample (t : PrefixTree) (sample : String) : Except Error PrefixTree :=
  match t.insert sample with
  | (t, .ok _) => .ok t
  | (_, .error e) => .error e

/-- Inserts samples in order, or fails at the first that fails. -/
def sampleAll (t : PrefixTree) (samples : List String) : Except Error PrefixTree :=
  samples.foldlM sample t

def build (t : PrefixTree) : Automaton Char := t.automaton

/-- The prefix tree of the samples; one that fails is left out. -/
def ofSamples (samples : List String) : Automaton Char :=
  (samples.foldl (fun t s => (t.insert s).1) empty).build

theorem empty_registry : Registry.new.create none = .ok (empty.automaton.initial, empty.registry) :=
  rfl

end PrefixTree

end Acceptor
