import Acceptor.Automaton.Reach
import Acceptor.Check.Violation

/-!
  Acceptor.Check.Checker — checks that report every violation

  A checker always tests the structure: the initial state, the cursor and the final states are
  in the state set, each rule's states and symbol are known, no rule is there twice, and no
  trigger has two rules where the policy refuses that. On request it also wants determinism
  under any policy, every state reachable, and conditions of the caller's own.

  Main statements:
    1. `duplicateStates_eq_nil_iff` — a listing passes when its identities are distinct.
-/

namespace Acceptor

variable {α : Type} [Letter α]

/-- What is asked of an automaton beyond its structure. -/
structure Checker (α : Type) [Letter α] where
  deterministic : Bool
  reachable : Bool
  custom : List (Automaton α → List (Violation α))

namespace Checker

/-- The checker that tests the structure only. -/
def structural : Checker α := ⟨false, false, []⟩

/-- Also wants determinism under any policy. -/
def requireDeterministic (c : Checker α) : Checker α := { c with deterministic := true }

/-- Also wants every state reachable from the initial one. -/
def requireReachable (c : Checker α) : Checker α := { c with reachable := true }

/-- Also runs a check of the caller's own, after the others. -/
def require (c : Checker α) (check : Automaton α → List (Violation α)) : Checker α :=
  { c with custom := c.custom ++ [check] }

/-- Also wants a condition of the caller's own, which fails with a message. -/
def requirePred (c : Checker α) (holds : Automaton α → Bool) (message : String) : Checker α :=
  c.require fun a => reportUnless (holds a) (.custom message)

/-- What is wrong with the rules, in their order; `seen` are the texts of those before. -/
def ruleReport (a : Automaton α) (seen : List String) : List (Rule α) → List (Violation α)
  | [] => []
  | r :: rest =>
    reportUnless (a.containsState r.source.id) (.ruleStateUnknown r r.source.id) ++
    reportUnless (a.containsState r.destination.id) (.ruleStateUnknown r r.destination.id) ++
    reportUnless (a.containsSymbol r.symbol) (.ruleSymbolUnknown r) ++
    reportUnless (r.text ∉ seen) (.duplicateRule r) ++
    ruleReport a (r.text :: seen) rest

/-- One violation for each trigger with several rules. -/
def determinismReport (a : Automaton α) : List (Violation α) :=
  a.book.groups.flatMap fun group =>
    reportUnless (group.2 ≤ 1) (.nondeterministic group.1.source group.1.symbol group.2)

/-- One violation for each state that no rules reach. -/
def reachReport (a : Automaton α) : List (Violation α) :=
  let reached := a.reachable
  a.states.keys.flatMap fun q => reportUnless (reached.contains q) (.unreachable q)

/-- All that is wrong with an automaton. -/
def check (c : Checker α) (a : Automaton α) : List (Violation α) :=
  reportUnless (a.containsState a.initial.id) (.initialOutside a.initial.id) ++
  reportUnless (a.containsState a.current) (.cursorOutside a.current) ++
  a.finals.toList.flatMap (fun q => reportUnless (a.containsState q) (.finalOutside q)) ++
  ruleReport a [] a.rules ++
  (if c.deterministic || a.policy = .reject then determinismReport a else []) ++
  (if c.reachable then reachReport a else []) ++
  c.custom.flatMap (· a)

end Checker

/-- What is wrong with the structure of an automaton. -/
def Automaton.checkInvariants (a : Automaton α) : List (Violation α) :=
  Checker.structural.check a

/-- One violation for each state of a listing whose identity came before; `seen` came first. -/
def duplicateStates (seen : List StateId) : List State → List (Violation α)
  | [] => []
  | q :: rest =>
    reportUnless (q.id ∉ seen) (.duplicateState q.id) ++ duplicateStates (q.id :: seen) rest

omit [Letter α] in
theorem duplicateStates_eq_nil_iff {seen : List StateId} {states : List State} :
    duplicateStates (α := α) seen states = [] ↔
      (states.map State.id).Nodup ∧ ∀ q ∈ states, q.id ∉ seen := by
  induction states generalizing seen with
  | nil => simp [duplicateStates]
  | cons q rest ih =>
    simp only [duplicateStates, List.append_eq_nil_iff, reportUnless_eq_nil_iff, ih,
      List.map_cons, List.nodup_cons, List.mem_map, decide_eq_true_eq, List.mem_cons]
    grind

end Acceptor
