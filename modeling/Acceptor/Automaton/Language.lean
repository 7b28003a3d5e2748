import Acceptor.Automaton.Reach

/-!
  Acceptor.Automaton.Language — the words an automaton spells

  The words are read off all sequences of rules from the initial state to a final one. They can
  be listed only where no such way comes back to a state of its own; otherwise there is no
  list. A way that visits a new state each time is bounded by the targets of the rules.

  Main statements:
    1. `Rulebook.acyclicFrom_eq` and `Automaton.wordsFrom_eq` — one step of each search.
-/

namespace Acceptor

namespace Rulebook

variable {α : Type} [Letter α]

theorem missing_cons_lt {b : Rulebook α} {path : List StateId} {r : Rule α} {q : StateId}
    (leaves : r ∈ b.leaving q) (new : r.destination.id ∉ path) :
    b.missing (r.destination.id :: path).contains < b.missing path.contains := by
  refine missing_lt (fun p hp => ?_)
    (List.mem_map.2 ⟨r, (mem_leaving_iff.1 leaves).1, rfl⟩) ?_ ?_ <;> simp_all

/-- Whether no way on from the last state of a path comes back to a state of its own. -/
def acyclicFrom (b : Rulebook α) (path : List StateId) (q : StateId) : Bool :=
  (b.leaving q).attach.all fun r =>
    if r.1.destination.id ∈ q :: path then false
    else b.acyclicFrom (q :: path) r.1.destination.id
termination_by b.missing (q :: path).contains
decreasing_by exact missing_cons_lt r.2 (by assumption)

theorem acyclicFrom_eq (b : Rulebook α) (path : List StateId) (q : StateId) :
    b.acyclicFrom path q = (b.leaving q).all fun r =>
      if r.destination.id ∈ q :: path then false
      else b.acyclicFrom (q :: path) r.destination.id := by
  rw [acyclicFrom]
  conv => rhs; rw [← List.attach_map_subtype_val (b.leaving q), List.all_map]
  rfl

end Rulebook

namespace Automaton

variable {α : Type} [Letter α]

/-- The words spelled from the last state of a path on, never back to a state of the path. -/
def wordsFrom (a : Automaton α) (path : List StateId) (q : StateId) : List (List α) :=
  (if a.isFinal q then [[]] else []) ++
    (a.transitionsFrom q).attach.flatMap fun r =>
      if r.1.destination.id ∈ q :: path then []
      else (a.wordsFrom (q :: path) r.1.destination.id).map (r.1.symbol :: ·)
termination_by a.book.missing (q :: path).contains
decreasing_by exact Rulebook.missing_cons_lt r.2 (by assumption)

theorem wordsFrom_eq (a : Automaton α) (path : List StateId) (q : StateId) :
    a.wordsFrom path q = (if a.isFinal q then [[]] else []) ++
      (a.transitionsFrom q).flatMap fun r =>
        if r.destination.id ∈ q :: path then []
        else (a.wordsFrom (q :: path) r.destination.id).map (r.symbol :: ·) := by
  rw [wordsFrom]
  conv =>
    rhs; rhs
    rw [← List.attach_map_subtype_val (a.transitionsFrom q), List.flatMap_map]

/-- The words spelled from the initial state to a final one, unless a cycle is on the way. -/
def words (a : Automaton α) : Option (List (List α)) :=
  if a.book.acyclicFrom [] a.initial.id then some (a.wordsFrom [] a.initial.id) else none

/-- The words of a word automaton, as a set of texts, unless a cycle is on the way. -/
def language (a : Automaton Char) : Option (SortedSet String) :=
  a.words.map fun words => .ofList (words.map String.ofList)

end Automaton

end Acceptor
