import Acceptor.Proofs.Reachable
import Acceptor.Proofs.Report
import Acceptor.Proofs.Walk
import Mathlib.Data.List.Perm.Subperm
import Mathlib.Logic.Function.Iterate
import Mathlib.Order.Bounds.Basic

/-!
  Acceptor.Proofs.Rounds — how long the search takes, and what it is good for

  A state enters the queue in the round that reaches it, and no other round brings it back. Each
  round takes one state out, so the search has as many rounds as there are states to be reached,
  whatever cycles there are. Rules may also lead out of the state set; their targets count too.

  Main statements:
    1. `Rulebook.size_visit` — what a round adds to the reached states, it adds to the queue.
    2. `Rulebook.iterate_round` — after how many rounds the queue is empty.
    3. `Automaton.spells_stepEach` — stepping by hand comes to states that rules lead to.
    4. `Automaton.reachable_exact` — what the search finds, after how many rounds, and that a
       state that a cursor can visit is not among those reported.
-/

namespace Acceptor

/-! ## The size of a set -/

theorem SortedSet.size_insert {κ : Type} [Ordered κ] {s : SortedSet κ} {k : κ} (new : k ∉ s) :
    (s.insert k).size = s.size + 1 := by
  have hperm : (s.insert k).toList.Perm (k :: s.toList) := by
    refine (List.perm_ext_iff_of_nodup (nodup_toList _) ?_).2 ?_
    · exact List.nodup_cons.2 ⟨fun hk => new (mem_toList.1 hk), s.nodup_toList⟩
    · intro j
      rw [mem_toList, mem_insert, List.mem_cons, mem_toList]
  rw [← length_toList, ← length_toList, hperm.length_eq, List.length_cons]

namespace Rulebook

variable {α : Type} [Letter α]

/-! ## One round -/

/-- One round of the search: a state is taken from the queue and its rules are followed. With
nothing in the queue nothing happens. -/
def round (b : Rulebook α) : SortedSet StateId × List StateId → SortedSet StateId × List StateId
  | (reached, []) => (reached, [])
  | (reached, q :: queue) => visit reached queue (b.leaving q)

omit [Letter α] in
theorem size_visit (reached : SortedSet StateId) (queue : List StateId) (rules : List (Rule α)) :
    (visit reached queue rules).1.size + queue.length =
      reached.size + (visit reached queue rules).2.length := by
  induction rules generalizing reached queue with
  | nil => rfl
  | cons r rest ih =>
    rw [visit]
    split
    · exact ih reached queue
    · next hnew =>
      have hrest := ih (reached.insert r.destination.id) (queue ++ [r.destination.id])
      rw [SortedSet.size_insert hnew, List.length_append, List.length_singleton] at hrest
      omega

/-- What a search from a state begins with: it is reached, and its rules are to be followed. -/
def seed (start : StateId) : SortedSet StateId × List StateId :=
  (SortedSet.empty.insert start, [start])

/-! ## All rounds -/

/-- The rounds end with the queue empty, and not before each state that is found has been taken
from it: those in it at first, and those that are reached on the way. -/
theorem iterate_round (b : Rulebook α) (reached : SortedSet StateId) (queue : List StateId) :
    ∃ n, n + reached.size = (b.search reached queue).size + queue.length ∧
      b.round^[n] (reached, queue) = (b.search reached queue, []) ∧
      ∀ m < n, (b.round^[m] (reached, queue)).2 ≠ [] := by
  induction reached, queue using search.induct b with
  | case1 reached =>
    refine ⟨0, ?_, ?_, fun m hm => absurd hm (Nat.not_lt_zero m)⟩
    · rw [search, List.length_nil, Nat.add_comm]
    · rw [search, Function.iterate_zero, id]
  | case2 reached q queue next ih =>
    obtain ⟨n, hcount, hend, hbefore⟩ := ih
    have hround : b.round (reached, q :: queue) = (next.1, next.2) := rfl
    have hsize : next.1.size + queue.length = reached.size + next.2.length :=
      size_visit reached queue (b.leaving q)
    have hsearch : b.search reached (q :: queue) = b.search next.1 next.2 := by rw [search]
    refine ⟨n + 1, ?_, ?_, ?_⟩
    · rw [hsearch, List.length_cons]
      omega
    · rw [hsearch, Function.iterate_succ_apply, hround, hend]
    · intro m hm
      cases m with
      | zero => exact List.cons_ne_nil q queue
      | succ m =>
        rw [Function.iterate_succ_apply, hround]
        exact hbefore m (Nat.lt_of_succ_lt_succ hm)

theorem iterate_round_seed (b : Rulebook α) (start : StateId) :
    b.round^[(b.reachableFrom start).size] (seed start) = (b.reachableFrom start, []) ∧
      ∀ n < (b.reachableFrom start).size, (b.round^[n] (seed start)).2 ≠ [] := by
  obtain ⟨n, hcount, hend, hbefore⟩ := b.iterate_round (SortedSet.empty.insert start) [start]
  have hone : (SortedSet.empty.insert start).size = 1 :=
    SortedSet.size_insert (SortedSet.not_mem_empty start)
  have hn : n = (b.reachableFrom start).size := by
    rw [hone, List.length_singleton] at hcount
    exact Nat.add_right_cancel hcount
  rw [← hn]
  exact ⟨hend, hbefore⟩

theorem size_reachableFrom_le (b : Rulebook α) (start : StateId) :
    (b.reachableFrom start).size ≤ b.rules.length + 1 := by
  have hsub : (b.reachableFrom start).toList ⊆ start :: b.targets := by
    intro q hq
    obtain ⟨w, hw⟩ := mem_reachableFrom_iff.1 (SortedSet.mem_toList.1 hq)
    refine hw.along (P := (· ∈ start :: b.targets)) ?_ List.mem_cons_self
    intro r hr _
    exact List.mem_cons_of_mem _ (List.mem_map.2 ⟨r, hr, rfl⟩)
  calc (b.reachableFrom start).size
      = (b.reachableFrom start).toList.length := (SortedSet.length_toList _).symm
    _ ≤ (start :: b.targets).length := ((SortedSet.nodup_toList _).subperm hsub).length_le
    _ = b.rules.length + 1 := by rw [List.length_cons, targets, List.length_map]

end Rulebook

namespace Automaton

variable {α : Type} [Letter α]

/-! ## Where a cursor can come -/

theorem spells_stepEach (a : Automaton α) (p : List α) :
    ∃ w, a.book.Spells a.current w (a.stepEach p).2.current := by
  induction p generalizing a with
  | nil => exact ⟨[], .nil a.current⟩
  | cons x rest ih =>
    obtain ⟨w, hw⟩ := ih (a.step x).2
    have hend : (a.stepEach (x :: rest)).2 = ((a.step x).2.stepEach rest).2 := rfl
    rw [hend]
    rcases step_eq_or a x with hstay | ⟨r, hr, hsource, hmove⟩
    · rw [hstay] at hw ⊢
      exact ⟨w, hw⟩
    · rw [hmove] at hw ⊢
      exact ⟨r.symbol :: w, Rulebook.spells_cons_iff.2 ⟨r, hr, hsource, rfl, hw⟩⟩

/-- A state is reported as one that cannot be reached where that is asked for, the state is in the
state set and no rules lead to it; else a check of the caller's own has reported it. -/
theorem unreachable_mem_check_iff {c : Checker α} {a : Automaton α} {q : StateId} :
    .unreachable q ∈ c.check a ↔
      (c.reachable ∧ a.containsState q ∧ ¬ ∃ w, a.book.Spells a.initial.id w q) ∨
        .unreachable q ∈ c.custom.flatMap (· a) := by
  have hunreached : .unreachable q ∈ Checker.unreachedFindings a ↔
      a.containsState q ∧ ¬ ∃ w, a.book.Spells a.initial.id w q := by
    simp [Checker.unreachedFindings, SortedMap.mem_keys_iff, containsState]
  -- the other parts of the report have violations of other kinds
  have hrules :
      .unreachable q ∉ a.rules.zipIdx.flatMap fun p => Checker.ruleFindings a p.2 p.1 := by
    simp [Checker.ruleFindings]
  have hbranches : .unreachable q ∉ Checker.branchFindings a := by
    simp [Checker.branchFindings]
  rw [Checker.check_eq_findings, Checker.findings]
  simp [hunreached, hrules, hbranches]

/-- Whatever the rules, and wherever they lead, the search ends: it takes as many rounds as there
are states to be found, at most one for each rule and one for the initial state. It finds the
states that rules lead to from the initial one, which is the least set that has the initial state
and the destination of each rule that leaves one of its members. Stepping from the initial state
comes to no other, so none that a cursor can visit is reported as unreachable, unless by a check
of the caller's own. -/
theorem reachable_exact (a : Automaton α) :
    (a.book.round^[a.reachable.size] (Rulebook.seed a.initial.id) = (a.reachable, []) ∧
      (∀ n < a.reachable.size, (a.book.round^[n] (Rulebook.seed a.initial.id)).2 ≠ []) ∧
      a.reachable.size ≤ a.rules.length + 1) ∧
    (∀ q, q ∈ a.reachable ↔ ∃ w, a.book.Spells a.initial.id w q) ∧
    IsLeast {s : Set StateId | a.initial.id ∈ s ∧
      ∀ r ∈ a.rules, r.source.id ∈ s → r.destination.id ∈ s} {q | q ∈ a.reachable} ∧
    (∀ (p : List α) (c : Checker α), .unreachable (a.restart.stepEach p).2.current ∈ c.check a →
      .unreachable (a.restart.stepEach p).2.current ∈ c.custom.flatMap (· a)) := by
  obtain ⟨hend, hbefore⟩ := a.book.iterate_round_seed a.initial.id
  have hreached (q : StateId) : q ∈ a.reachable ↔ ∃ w, a.book.Spells a.initial.id w q :=
    Rulebook.mem_reachableFrom_iff
  refine ⟨⟨hend, hbefore, a.book.size_reachableFrom_le a.initial.id⟩, hreached,
    ⟨⟨?initial, ?along⟩, ?least⟩, ?visited⟩
  case initial => exact (hreached _).2 ⟨[], .nil a.initial.id⟩
  case along =>
    intro r hr hsource
    obtain ⟨w, hw⟩ := (hreached _).1 hsource
    exact (hreached _).2 ⟨w ++ [r.symbol], hw.append (.cons hr (.nil _))⟩
  case least =>
    intro s ⟨hinitial, halong⟩ q hq
    obtain ⟨w, hw⟩ := (hreached q).1 hq
    exact hw.along (P := (· ∈ s)) halong hinitial
  case visited =>
    intro p c h
    refine (unreachable_mem_check_iff.1 h).resolve_left ?_
    intro ⟨_, _, hnone⟩
    exact hnone (a.restart.spells_stepEach p)

/-- A cycle, a loop on it, and a rule that leads out of the state set: after three rounds the queue
is empty. -/
example :
    let q (n : UInt64) : State := ⟨⟨n⟩, none⟩
    let a : Automaton Char := .assemble .allow [q 0, q 1] (q 0) [] ['a']
      [⟨q 0, 'a', q 1⟩, ⟨q 1, 'a', q 0⟩, ⟨q 1, 'a', q 1⟩, ⟨q 1, 'a', q 2⟩]
    let (reached, queue) := a.book.round^[3] (Rulebook.seed a.initial.id)
    reached.toList = [⟨0⟩, ⟨1⟩, ⟨2⟩] ∧ queue = [] := by
  decide

end Automaton

end Acceptor
