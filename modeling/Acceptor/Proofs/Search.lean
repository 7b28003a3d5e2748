import Acceptor.Check.Checker
import Acceptor.Proofs.Spelling

/-!
  Acceptor.Proofs.Search — the search finds the states that rules lead to

  Each state in the queue has been reached, and of a state that has been reached either the rules
  are still to be followed or their destinations have been reached too. So at the end, when the
  queue is empty, the reached states are closed under the rules, and none was reached without them.

  Main statements:
    1. `Rulebook.search_sound` and `Rulebook.search_closed` — what is reached from a queue.
    2. `Rulebook.mem_reachableFrom_iff` — what is reached is what rules lead to.
-/

namespace Acceptor

namespace Rulebook

variable {α : Type} [Letter α]

/-! ## One state -/

omit [Letter α] in
theorem mem_visit_iff {reached : SortedSet StateId} {queue : List StateId} {rules : List (Rule α)}
    {p : StateId} :
    p ∈ (visit reached queue rules).1 ↔ p ∈ reached ∨ ∃ r ∈ rules, r.destination.id = p := by
  induction rules generalizing reached queue with
  | nil => simp [visit]
  | cons r rest ih =>
    rw [visit]
    split
    · next hr =>
      have hmem : r.destination.id ∈ reached := hr
      simp only [ih, List.mem_cons, exists_eq_or_imp]
      grind
    · simp only [ih, SortedSet.mem_insert, List.mem_cons, exists_eq_or_imp]
      grind

omit [Letter α] in
theorem mem_queue_visit_iff {reached : SortedSet StateId} {queue : List StateId}
    {rules : List (Rule α)} {p : StateId} :
    p ∈ (visit reached queue rules).2 ↔
      p ∈ queue ∨ (p ∉ reached ∧ ∃ r ∈ rules, r.destination.id = p) := by
  induction rules generalizing reached queue with
  | nil => simp [visit]
  | cons r rest ih =>
    rw [visit]
    split
    · next hr =>
      have hmem : r.destination.id ∈ reached := hr
      simp only [ih, List.mem_cons, exists_eq_or_imp]
      grind
    · next hr =>
      have hmem : r.destination.id ∉ reached := hr
      simp only [ih, SortedSet.mem_insert, List.mem_append, List.mem_cons, exists_eq_or_imp]
      grind

/-! ## The whole search -/

theorem search_sound {b : Rulebook α} {P : StateId → Prop}
    (along : ∀ r ∈ b.rules, P r.source.id → P r.destination.id) {reached : SortedSet StateId}
    {queue : List StateId} (start : ∀ p ∈ reached, P p) (waiting : ∀ p ∈ queue, P p) :
    ∀ p ∈ b.search reached queue, P p := by
  induction reached, queue using search.induct b with
  | case1 reached =>
    rw [search]
    exact start
  | case2 reached q queue _ ih =>
    have hleaving : ∀ p, (∃ r ∈ b.leaving q, r.destination.id = p) → P p := by
      intro p ⟨r, hr, hp⟩
      obtain ⟨hmem, hsource⟩ := mem_leaving_iff.1 hr
      rw [← hp]
      exact along r hmem (hsource ▸ waiting q List.mem_cons_self)
    rw [search]
    apply ih
    · intro p hp
      exact (mem_visit_iff.1 hp).elim (start p) (hleaving p)
    · intro p hp
      rcases mem_queue_visit_iff.1 hp with hp | hp
      · exact waiting p (List.mem_cons_of_mem _ hp)
      · exact hleaving p hp.2

/-- Whether the states that rules lead to from each reached state are reached as well, unless that
state is still in the queue. -/
def Closed (b : Rulebook α) (reached : SortedSet StateId) (queue : List StateId) : Prop :=
  ∀ p ∈ reached, p ∈ queue ∨ ∀ r ∈ b.rules, r.source.id = p → r.destination.id ∈ reached

theorem Closed.visit {b : Rulebook α} {reached : SortedSet StateId} {q : StateId}
    {queue : List StateId} (h : b.Closed reached (q :: queue)) :
    b.Closed (visit reached queue (b.leaving q)).1 (visit reached queue (b.leaving q)).2 := by
  intro p hp
  by_cases hold : p ∈ reached
  · rcases h p hold with hqueue | hdone
    · rcases List.mem_cons.1 hqueue with rfl | hqueue
      · -- the rules of the state that was taken from the queue have now been followed
        refine .inr fun r hr hsource => mem_visit_iff.2 (.inr ⟨r, ?_, rfl⟩)
        exact mem_leaving_iff.2 ⟨hr, hsource⟩
      · exact .inl (mem_queue_visit_iff.2 (.inl hqueue))
    · exact .inr fun r hr hsource => mem_visit_iff.2 (.inl (hdone r hr hsource))
  · have hnew := (mem_visit_iff.1 hp).resolve_left hold
    exact .inl (mem_queue_visit_iff.2 (.inr ⟨hold, hnew⟩))

/-- What was reached stays so, and at the end all that the rules lead to has been reached. -/
theorem search_closed {b : Rulebook α} {reached : SortedSet StateId} {queue : List StateId}
    (h : b.Closed reached queue) :
    (∀ p ∈ reached, p ∈ b.search reached queue) ∧ b.Closed (b.search reached queue) [] := by
  induction reached, queue using search.induct b with
  | case1 reached =>
    rw [search]
    exact ⟨fun _ hp => hp, h⟩
  | case2 reached q queue _ ih =>
    obtain ⟨hkept, hclosed⟩ := ih h.visit
    rw [search]
    exact ⟨fun p hp => hkept p (mem_visit_iff.2 (.inl hp)), hclosed⟩

theorem Closed.of_spells {b : Rulebook α} {reached : SortedSet StateId} (h : b.Closed reached [])
    {q p : StateId} {w : List α} (hw : b.Spells q w p) (hq : q ∈ reached) : p ∈ reached := by
  refine hw.along (P := (· ∈ reached)) ?_ hq
  intro r hr hsource
  have hdone := (h _ hsource).resolve_left List.not_mem_nil
  exact hdone r hr rfl

theorem mem_reachableFrom_iff {b : Rulebook α} {start q : StateId} :
    q ∈ b.reachableFrom start ↔ ∃ w, b.Spells start w q := by
  have hstart : ∀ p, p ∈ SortedSet.empty.insert start ↔ p = start := by
    intro p
    rw [SortedSet.mem_insert, or_iff_left (SortedSet.not_mem_empty p)]
  refine ⟨?_, ?_⟩
  · refine search_sound (P := fun q => ∃ w, b.Spells start w q) ?_ ?_ ?_ q
    · intro r hr ⟨w, hw⟩
      exact ⟨w ++ [r.symbol], hw.append (.cons hr (.nil _))⟩
    · intro p hp
      rw [(hstart p).1 hp]
      exact ⟨[], .nil start⟩
    · intro p hp
      rw [List.mem_singleton.1 hp]
      exact ⟨[], .nil start⟩
  · intro ⟨w, hw⟩
    have hclosed : b.Closed (SortedSet.empty.insert start) [start] := by
      intro p hp
      exact .inl (List.mem_singleton.2 ((hstart p).1 hp))
    obtain ⟨hkept, hdone⟩ := search_closed hclosed
    exact hdone.of_spells hw (hkept start ((hstart start).2 rfl))

end Rulebook

theorem Checker.reachReport_eq_nil_iff {α : Type} [Letter α] {a : Automaton α} :
    reachReport a = [] ↔ ∀ q, a.containsState q → ∃ w, a.book.Spells a.initial.id w q := by
  rw [reachReport, List.flatMap_eq_nil_iff]
  apply forall_congr'
  intro q
  rw [reportUnless_eq_nil_iff, SortedMap.mem_keys_iff]
  exact imp_congr_right fun _ => Rulebook.mem_reachableFrom_iff

end Acceptor
