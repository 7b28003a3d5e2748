import Acceptor.Proofs.Check
import Acceptor.Proofs.Refusal

/-!
  Acceptor.Proofs.Aliasing — identities that occur with two ancestors

  A rule stores its two states, each with the ancestor that it carries. Admission compares them
  with the state set, so what a rule stores is what the set knows. It compares both before it
  learns either, though: the two ends of one rule are never compared with each other. A rule from
  a new state to that state itself may therefore carry two ancestors for it, and stores the second
  one beside the first, which the set has learnt. Nothing else gets two ancestors for an identity
  into an automaton.

  Main statements:
    1. `Automaton.Anchored.addRule` and `Automaton.Anchored.runAll` — what rules store is known,
       but for the destinations of such loops.
    2. `Automaton.Anchored.addRule_of_mem` — what becomes of a rule that is inserted once more.
    3. `Automaton.aliased_only_in_loops` — all of it.
-/

namespace Acceptor

/-- Whether a rule leads from a state to itself and stores it with two ancestors. -/
def Rule.SplitLoop {α : Type} (r : Rule α) : Prop :=
  r.source.id = r.destination.id ∧ r.source.ancestor ≠ r.destination.ancestor

instance {α : Type} (r : Rule α) : Decidable r.SplitLoop :=
  inferInstanceAs (Decidable (_ ∧ _))

namespace Automaton

variable {α : Type} [Letter α]

/-- The rules store states as the state set knows them, but for the destinations of split loops. -/
def Anchored (a : Automaton α) : Prop :=
  ∀ r ∈ a.rules, a.Knows r.source ∧ (r.SplitLoop ∨ a.Knows r.destination)

/-- The rules store states as the state set knows them. -/
def Unaliased (a : Automaton α) : Prop :=
  ∀ r ∈ a.rules, a.Knows r.source ∧ a.Knows r.destination

/-- Whether an automaton has a state somewhere: as its initial one, in its state set or in a rule. -/
def Holds (a : Automaton α) (q : State) : Prop :=
  q = a.initial ∨ a.Knows q ∨ ∃ r ∈ a.rules, q = r.source ∨ q = r.destination

/-! ## What operations preserve -/

theorem Anchored.ofInitial (q : State) : (ofInitial q : Automaton α).Anchored := by
  intro r hr
  exact absurd hr List.not_mem_nil

theorem Anchored.addFinal {a b : Automaton α} (h : a.Anchored) {q : State} {new : Bool}
    (ok : a.addFinal q = .ok (new, b)) : b.Anchored := by
  have hkept {p : State} (hp : a.Knows p) : b.Knows p := hp.addFinal ok
  obtain ⟨_, _, rfl⟩ := addFinal_eq_ok_iff.1 ok
  intro r hr
  obtain ⟨hsource, hdestination⟩ := h r hr
  exact ⟨hkept hsource, hdestination.imp_right hkept⟩

theorem Anchored.addRule {a b : Automaton α} (h : a.Anchored) {r : Rule α} {n : Nat}
    (ok : a.addRule r = .ok (n, b)) : b.Anchored := by
  have hkept {p : State} (hp : a.Knows p) : b.Knows p := hp.addRule ok
  obtain ⟨hsource, hdestination⟩ := knows_of_addRule ok
  obtain ⟨_, _, rfl⟩ := addRule_eq_ok_iff.1 ok
  intro s hs
  rcases mem_rules_push.1 hs with hs | rfl
  · obtain ⟨hs, hd⟩ := h s hs
    exact ⟨hkept hs, hd.imp_right hkept⟩
  · refine ⟨hsource, ?_⟩
    by_cases hloop : s.source.id = s.destination.id
    · by_cases hancestor : s.source.ancestor = s.destination.ancestor
      · exact .inr (State.ext hloop hancestor ▸ hsource)
      · exact .inl ⟨hloop, hancestor⟩
    · exact .inr (hdestination hloop)

theorem Anchored.apply {a : Automaton α} (h : a.Anchored) (op : Operation α) :
    (a.apply op).Anchored := by
  apply apply_induction h
  case moved =>
    intro q _
    exact h
  case withPolicy =>
    intro policy
    exact h
  case reset =>
    intro q
    exact Anchored.ofInitial q
  case addRule => exact h.addRule
  case addFinal => exact h.addFinal

theorem Anchored.runAll {a : Automaton α} (h : a.Anchored) (ops : List (Operation α)) :
    (a.runAll ops).Anchored :=
  runAll_induction (P := Anchored) (fun _ op h => h.apply op) h ops

theorem Built.anchored {a : Automaton α} (h : a.Built) : a.Anchored := by
  obtain ⟨b, ops, hfresh, rfl⟩ := h
  obtain ⟨q, rfl⟩ := hfresh.eq_ofInitial
  exact (Anchored.ofInitial q).runAll ops

/-! ## What is stored and what is known -/

theorem Anchored.knows_destination_iff {a : Automaton α} (h : a.Anchored) {r : Rule α}
    (hr : r ∈ a.rules) : a.Knows r.destination ↔ ¬ r.SplitLoop := by
  obtain ⟨hsource, hdestination⟩ := h r hr
  refine ⟨?_, hdestination.resolve_left⟩
  intro hknown hloop
  exact hloop.2 (congrArg State.ancestor (hsource.eq hknown hloop.1))

theorem Anchored.unaliased_iff {a : Automaton α} (h : a.Anchored) :
    a.Unaliased ↔ ∀ r ∈ a.rules, ¬ r.SplitLoop := by
  refine forall₂_congr fun r hr => ?_
  rw [← h.knows_destination_iff hr]
  exact and_iff_right (h r hr).1

theorem Unaliased.knows_of_holds {a : Automaton α} (h : a.Unaliased) (initial : a.Knows a.initial)
    {q : State} (hq : a.Holds q) : a.Knows q := by
  rcases hq with rfl | hq | ⟨r, hr, rfl | rfl⟩
  · exact initial
  · exact hq
  · exact (h r hr).1
  · exact (h r hr).2

theorem Anchored.holds_unique_iff {a : Automaton α} (h : a.Anchored) (initial : a.Knows a.initial) :
    (∀ p q, a.Holds p → a.Holds q → p.id = q.id → p = q) ↔ ∀ r ∈ a.rules, ¬ r.SplitLoop := by
  refine ⟨?_, ?_⟩
  · intro hunique r hr hloop
    have heq := hunique r.source r.destination (.inr (.inr ⟨r, hr, .inl rfl⟩))
      (.inr (.inr ⟨r, hr, .inr rfl⟩)) hloop.1
    exact hloop.2 (congrArg State.ancestor heq)
  · intro hnone p q hp hq
    have hunaliased := h.unaliased_iff.2 hnone
    exact (hunaliased.knows_of_holds initial hp).eq (hunaliased.knows_of_holds initial hq)

/-! ## Inserting a rule once more -/

/-- A rule that is there is refused as a duplicate, but a split loop for its destination. -/
theorem Anchored.addRule_of_mem {a : Automaton α} (h : a.Anchored) {r : Rule α}
    (hr : r ∈ a.rules) :
    a.addRule r = .error (if r.SplitLoop
      then .stateConflict r.destination.id r.source.ancestor r.destination.ancestor
      else .duplicate r) := by
  obtain ⟨hsource, hdestination⟩ := h r hr
  rw [addRule_eq_error_iff, checkRule_eq, checkKnown_of_knows hsource]
  by_cases hloop : r.SplitLoop
  · have hget : a.states.get? r.destination.id = some r.source.ancestor := hloop.1 ▸ hsource
    rw [checkKnown_of_conflict hget hloop.2, if_pos hloop]
    rfl
  · have hsame : a.rules.any (·.same r) :=
      List.any_eq_true.2 ⟨r, hr, Rule.same_iff.2 ⟨rfl, rfl, rfl⟩⟩
    rw [checkKnown_of_knows (hdestination.resolve_left hloop), if_neg hloop]
    simp [hsame, bind, Except.bind]

/-- A split loop is admitted where its identity is new, and only there. -/
theorem WellFormed.addRule_splitLoop_iff {a : Automaton α} (h : a.WellFormed) {r : Rule α}
    (hloop : r.SplitLoop) :
    (∃ n b, a.addRule r = .ok (n, b)) ↔ ¬ a.containsState r.source.id := by
  refine ⟨?_, ?_⟩
  · intro ⟨n, b, ok⟩ hknown
    obtain ⟨hcheck, _⟩ := addRule_eq_ok_iff.1 ok
    obtain ⟨hsource, hdestination, _⟩ := checkRule_eq_ok_iff.1 hcheck
    have hs := (checkKnown_eq_ok_iff_knows hknown).1 hsource
    have hd := (checkKnown_eq_ok_iff_knows (hloop.1 ▸ hknown)).1 hdestination
    exact hloop.2 (congrArg State.ancestor (hs.eq hd hloop.1))
  · intro hnew
    have hget : a.states.get? r.source.id = none := by
      simpa [containsState, SortedMap.contains] using hnew
    have hrules : ∀ s ∈ a.rules, s.trigger ≠ r.trigger := by
      intro s hs htrigger
      have hsource : s.source.id = r.source.id := congrArg Trigger.source htrigger
      exact hnew (hsource ▸ (h.endpoints s hs).1)
    have hcheck : a.checkRule r = .ok () := by
      refine checkRule_eq_ok_iff.2 ⟨?_, ?_, ?_, fun _ => hrules⟩
      · rw [checkKnown, hget]
      · rw [checkKnown, ← hloop.1, hget]
      · intro s hs hsame
        exact hrules s hs (Rule.trigger_eq_of_same hsame)
    exact ⟨_, _, addRule_eq_ok_iff.2 ⟨hcheck, rfl, rfl⟩⟩

/-! ## Runs -/

/-- In an automaton that was built rule by rule, a rule stores its states as the state set knows
them, unless it is a split loop: of that the destination is not known as it is stored. So no
identity occurs with two ancestors exactly where no rule is a split loop. A rule that is there is
refused as a duplicate, or for its destination where it is a split loop. And a split loop is let in
just where its identity is new. -/
theorem aliased_only_in_loops {a : Automaton α} (built : Built a) :
    (∀ r ∈ a.rules, a.Knows r.source ∧ (a.Knows r.destination ↔ ¬ r.SplitLoop)) ∧
    ((∀ p q, a.Holds p → a.Holds q → p.id = q.id → p = q) ↔ ∀ r ∈ a.rules, ¬ r.SplitLoop) ∧
    (∀ r ∈ a.rules, a.addRule r = .error (if r.SplitLoop
      then .stateConflict r.destination.id r.source.ancestor r.destination.ancestor
      else .duplicate r)) ∧
    (∀ r : Rule α, r.SplitLoop →
      ((∃ n b, a.addRule r = .ok (n, b)) ↔ ¬ a.containsState r.source.id)) := by
  have hanchored := built.anchored
  have hwell := built.reachable.wellFormed
  refine ⟨?_, hanchored.holds_unique_iff hwell.initial, fun r hr => hanchored.addRule_of_mem hr,
    fun r hloop => hwell.addRule_splitLoop_iff hloop⟩
  intro r hr
  exact ⟨(hanchored r hr).1, hanchored.knows_destination_iff hr⟩

/-- A loop on a new state with two ancestors for it is admitted, and refused for them when it is
inserted once more. -/
theorem split_loop_admitted :
    let r : Rule Char := ⟨⟨⟨1⟩, none⟩, 'a', ⟨⟨1⟩, some ⟨0⟩⟩⟩
    let a : Automaton Char := (ofInitial ⟨⟨0⟩, none⟩).runAll [.addRule r]
    Built a ∧ r ∈ a.rules ∧ a.Knows r.source ∧ ¬ a.Knows r.destination ∧
      a.addRule r = .error (.stateConflict ⟨1⟩ none (some ⟨0⟩)) := by
  intro r a
  refine ⟨⟨_, _, .ofInitial _, rfl⟩, by decide, by decide, by decide, rfl⟩

/-- A run with a split loop, which gets one rule more to its state and refuses another split loop
there, and a run without one, in which a state is stored by two rules. -/
theorem aliased_only_in_loops_of_runs :
    let r : Rule Char := ⟨⟨⟨1⟩, none⟩, 'a', ⟨⟨1⟩, some ⟨0⟩⟩⟩
    let s : Rule Char := ⟨⟨⟨0⟩, none⟩, 'b', ⟨⟨1⟩, none⟩⟩
    let t : Rule Char := ⟨⟨⟨1⟩, none⟩, 'c', ⟨⟨1⟩, none⟩⟩
    let a : Automaton Char := (ofInitial ⟨⟨0⟩, none⟩).runAll [.addRule r, .addRule s, .restart]
    let b : Automaton Char := (ofInitial ⟨⟨0⟩, none⟩).runAll [.addRule s, .addRule r, .addRule t]
    (Built a ∧ r ∈ a.rules ∧ r.SplitLoop ∧ ¬ a.Knows r.destination ∧
      a.addRule r = .error (.stateConflict ⟨1⟩ none (some ⟨0⟩)) ∧
      a.addRule s = .error (.duplicate s) ∧
      ¬ ∀ p q, a.Holds p → a.Holds q → p.id = q.id → p = q) ∧
    (Built b ∧ b.rules = [s, t] ∧ (∀ p q, b.Holds p → b.Holds q → p.id = q.id → p = q) ∧
      ¬ ∃ n c, b.addRule r = .ok (n, c)) := by
  intro r s t a b
  have ha : Built a := ⟨_, _, .ofInitial _, rfl⟩
  have hb : Built b := ⟨_, _, .ofInitial _, rfl⟩
  have hloop : r.SplitLoop := by decide
  obtain ⟨hstored, hunique, hagain, _⟩ := aliased_only_in_loops ha
  obtain ⟨_, hunique', _, hnew⟩ := aliased_only_in_loops hb
  have hr : r ∈ a.rules := by decide
  refine ⟨⟨ha, hr, hloop, ?_, hagain r hr, hagain s (by decide), ?_⟩, hb, by decide,
    hunique'.2 (by decide), ?_⟩
  · exact fun hknown => (hstored r hr).2.1 hknown hloop
  · exact fun h => hunique.1 h r hr hloop
  · exact fun h => (hnew r hloop).1 h (by decide)

end Automaton

end Acceptor
