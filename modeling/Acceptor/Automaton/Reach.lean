import Acceptor.Automaton.Basic

/-!
  Acceptor.Automaton.Reach — the states that rules lead to

  The search keeps the states reached so far and a queue of those whose rules are still to be
  followed. Each round takes one state from the queue and puts in the new destinations of its
  rules. It ends because a state enters the queue when it leaves the targets not yet reached,
  and leaves the queue once.

  Main statements:
    1. `Rulebook.pending_visit` — a round never raises the work that is left.
-/

namespace Acceptor

namespace Rulebook

variable {α : Type} [Letter α]

def targets (b : Rulebook α) : List StateId := b.rules.map (·.destination.id)

/-- How many rules lead to identities outside a collection. -/
def missing (b : Rulebook α) (known : StateId → Bool) : Nat := b.targets.countP fun q => !known q

theorem missing_lt {b : Rulebook α} {known known' : StateId → Bool} {q : StateId}
    (grows : ∀ p, known p → known' p) (target : q ∈ b.targets) (new : ¬ known q)
    (reached : known' q) : b.missing known' < b.missing known := by
  unfold missing
  revert target
  induction b.targets with
  | nil => simp
  | cons p rest ih =>
    intro target
    have mono : rest.countP (fun p => !known' p) ≤ rest.countP (fun p => !known p) :=
      List.countP_mono_left fun p _ h => by
        cases hp : known p with
        | false => rfl
        | true => simp [grows p hp] at h
    rw [List.countP_cons, List.countP_cons]
    obtain rfl | later := List.mem_cons.1 target
    · simp [new, reached]
      omega
    · have step := ih later
      cases hp : known p with
      | false =>
        rw [if_pos (by rfl : (!false) = true)]
        split <;> omega
      | true => simpa [grows p hp] using step

/-- Adds the destinations of rules that are not reached yet to the reached and to the queue. -/
def visit (reached : SortedSet StateId) (queue : List StateId) :
    List (Rule α) → SortedSet StateId × List StateId
  | [] => (reached, queue)
  | r :: rest =>
    if reached.contains r.destination.id then visit reached queue rest
    else visit (reached.insert r.destination.id) (queue ++ [r.destination.id]) rest

theorem pending_visit {b : Rulebook α} {rules : List (Rule α)} (known : ∀ r ∈ rules, r ∈ b.rules)
    (reached : SortedSet StateId) (queue : List StateId) :
    b.missing (visit reached queue rules).1.contains + (visit reached queue rules).2.length ≤
      b.missing reached.contains + queue.length := by
  induction rules generalizing reached queue with
  | nil => exact Nat.le_refl _
  | cons r rest ih =>
    have hrest : ∀ s ∈ rest, s ∈ b.rules := fun s hs => known s (List.mem_cons_of_mem _ hs)
    rw [visit]
    split
    · exact ih hrest _ _
    · next hnew =>
      refine Nat.le_trans (ih hrest _ _) ?_
      have target : r.destination.id ∈ b.targets :=
        List.mem_map.2 ⟨r, known r List.mem_cons_self, rfl⟩
      have fewer : b.missing (reached.insert r.destination.id).contains <
          b.missing reached.contains :=
        missing_lt (fun p hp => SortedSet.mem_insert.2 (.inr hp)) target hnew
          (SortedSet.mem_insert.2 (.inl rfl))
      rw [List.length_append, List.length_singleton]
      omega

/-- Follows the rules of the queued states until the queue is empty. -/
def search (b : Rulebook α) (reached : SortedSet StateId) : List StateId → SortedSet StateId
  | [] => reached
  | q :: queue =>
    let next := visit reached queue (b.leaving q)
    b.search next.1 next.2
termination_by queue => b.missing reached.contains + queue.length
decreasing_by
  have known : ∀ r ∈ b.leaving q, r ∈ b.rules := fun r hr => (mem_leaving_iff.1 hr).1
  have := pending_visit known reached queue
  simp only [List.length_cons]
  omega

/-- The identities reached from one by following rules. -/
def reachableFrom (b : Rulebook α) (start : StateId) : SortedSet StateId :=
  b.search (SortedSet.empty.insert start) [start]

end Rulebook

/-- The identities that rules reach from the initial state. -/
def Automaton.reachable {α : Type} [Letter α] (a : Automaton α) : SortedSet StateId :=
  a.book.reachableFrom a.initial.id

end Acceptor
