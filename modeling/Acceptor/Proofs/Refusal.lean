import Acceptor.Proofs.WellFormed

/-!
  Acceptor.Proofs.Refusal — which states are refused, and which are known

  The state set keeps one ancestor for each identity. A state that carries another one is refused,
  and a rule or a final state with it. A state that passes is known from then on, as it is.

  Main statements:
    1. `Automaton.checkKnown_of_knows` and `Automaton.checkKnown_of_conflict` — what passes, and
       how the rest is refused.
    2. `Automaton.addRule_eq_error_iff` and `Automaton.addFinal_eq_error_iff` — what a refused
       attempt answers.
    3. `Automaton.knows_of_addRule` — what is known of an admitted rule.
-/

namespace Acceptor.Automaton

variable {α : Type} [Letter α]

/-- Whether the state set knows a state as it is, with the ancestor that it carries. -/
def Knows (a : Automaton α) (q : State) : Prop := a.states.get? q.id = some q.ancestor

instance (a : Automaton α) (q : State) : Decidable (a.Knows q) :=
  inferInstanceAs (Decidable (_ = _))

/-! ## States -/

theorem checkKnown_of_knows {a : Automaton α} {q : State} (h : a.Knows q) :
    a.checkKnown q = .ok () :=
  checkKnown_eq_ok_of_get? h

theorem checkKnown_of_conflict {a : Automaton α} {q : State} {known : Option StateId}
    (h : a.states.get? q.id = some known) (hne : known ≠ q.ancestor) :
    a.checkKnown q = .error (.stateConflict q.id known q.ancestor) := by
  rw [checkKnown, h]
  exact if_neg hne

theorem exists_of_checkKnown_eq_error {a : Automaton α} {q : State} {e : Refusal α}
    (h : a.checkKnown q = .error e) :
    ∃ known, a.states.get? q.id = some known ∧ known ≠ q.ancestor ∧
      e = .stateConflict q.id known q.ancestor := by
  cases hget : a.states.get? q.id with
  | none =>
    rw [checkKnown, hget] at h
    exact absurd h (by simp)
  | some known =>
    by_cases heq : known = q.ancestor
    · rw [checkKnown_of_knows (by rw [Knows, hget, heq])] at h
      exact absurd h (by simp)
    · rw [checkKnown_of_conflict hget heq] at h
      exact ⟨known, rfl, heq, (Except.error.inj h).symm⟩

theorem checkKnown_eq_ok_iff_knows {a : Automaton α} {q : State} (h : a.containsState q.id) :
    a.checkKnown q = .ok () ↔ a.Knows q := by
  refine ⟨?_, checkKnown_of_knows⟩
  intro hok
  obtain ⟨known, hknown⟩ := Option.isSome_iff_exists.1 h
  rw [Knows, hknown, checkKnown_eq_ok_iff.1 hok known hknown]

theorem Knows.eq {a : Automaton α} {p q : State} (hp : a.Knows p) (hq : a.Knows q)
    (h : p.id = q.id) : p = q := by
  refine State.ext h ?_
  rw [Knows, h] at hp
  exact Option.some.inj (hp.symm.trans hq)

theorem get?_learn_of_checkKnown {a : Automaton α} {q : State} (h : a.checkKnown q = .ok ()) :
    (learn a.states q).get? q.id = some q.ancestor := by
  rw [learn, SortedMap.get?_insertNew, if_pos rfl]
  cases hget : a.states.get? q.id with
  | none => rfl
  | some known => rw [Option.getD_some, checkKnown_eq_ok_iff.1 h known hget]

/-! ## Attempts -/

theorem addRule_eq_error_iff {a : Automaton α} {r : Rule α} {e : Refusal α} :
    a.addRule r = .error e ↔ a.checkRule r = .error e := by
  unfold addRule
  cases a.checkRule r <;> simp [bind, Except.bind, pure, Except.pure]

theorem addFinal_eq_error_iff {a : Automaton α} {q : State} {e : Refusal α} :
    a.addFinal q = .error e ↔ a.checkKnown q = .error e := by
  unfold addFinal
  cases a.checkKnown q <;> simp [bind, Except.bind, pure, Except.pure]

/-- What a rule is refused for: one of its states, that it is there, or that its trigger has a rule. -/
theorem refusal_of_checkRule {a : Automaton α} {r : Rule α} {e : Refusal α}
    (h : a.checkRule r = .error e) :
    a.checkKnown r.source = .error e ∨ a.checkKnown r.destination = .error e ∨
      (e = .duplicate r ∧ ∃ s ∈ a.rules, s.same r) ∨
      (a.policy = .reject ∧ ∃ s, a.ruleFor? r.source.id r.symbol = some s ∧
        e = .nondeterministic r s) := by
  rw [checkRule_eq] at h
  cases hsource : a.checkKnown r.source with
  | error e' =>
    rw [hsource] at h
    exact .inl h
  | ok =>
    cases hdestination : a.checkKnown r.destination with
    | error e' =>
      rw [hsource, hdestination] at h
      exact .inr (.inl h)
    | ok =>
      rw [hsource, hdestination] at h
      simp only [bind, Except.bind] at h
      split at h
      · next hdup => exact .inr (.inr (.inl ⟨(Except.error.inj h).symm, List.any_eq_true.1 hdup⟩))
      · split at h
        · next s hpolicy hs =>
          exact .inr (.inr (.inr ⟨hpolicy, s, hs, (Except.error.inj h).symm⟩))
        · exact absurd h (by simp)

theorem checkKnown_source_of_refused {a : Automaton α} {r : Rule α} {e : Refusal α}
    (free : a.ruleFor? r.source.id r.symbol = none) (new : ¬ a.containsState r.destination.id)
    (refused : a.addRule r = .error e) : a.checkKnown r.source = .error e := by
  rcases refusal_of_checkRule (addRule_eq_error_iff.1 refused) with
    hsource | hdestination | ⟨_, s, hs, hsame⟩ | ⟨_, s, hs, _⟩
  · exact hsource
  · obtain ⟨known, hget, _⟩ := exists_of_checkKnown_eq_error hdestination
    exact absurd (Option.isSome_iff_exists.2 ⟨known, hget⟩) new
  · exact absurd (Rule.trigger_eq_of_same hsame) (Rulebook.first?_eq_none_iff.1 free s hs)
  · exact absurd (free.symm.trans hs) (by simp)

theorem exists_addRule_of_new {a : Automaton α} {r : Rule α} (source : a.Knows r.source)
    (free : a.ruleFor? r.source.id r.symbol = none) (new : ¬ a.containsState r.destination.id) :
    ∃ n b, a.addRule r = .ok (n, b) := by
  cases hadd : a.addRule r with
  | ok result => exact ⟨result.1, result.2, rfl⟩
  | error e =>
    have hsource := checkKnown_source_of_refused free new hadd
    rw [checkKnown_of_knows source] at hsource
    exact absurd hsource (by simp)

/-- The source of an admitted rule is known from then on. So is its destination, unless that is the
source, which was learnt first. -/
theorem knows_of_addRule {a b : Automaton α} {r : Rule α} {n : Nat}
    (ok : a.addRule r = .ok (n, b)) :
    b.Knows r.source ∧ (r.source.id ≠ r.destination.id → b.Knows r.destination) := by
  obtain ⟨hcheck, _, rfl⟩ := addRule_eq_ok_iff.1 ok
  obtain ⟨hsource, hdestination, _⟩ := checkRule_eq_ok_iff.1 hcheck
  refine ⟨get?_learn_of_some (get?_learn_of_checkKnown hsource), ?_⟩
  intro hne
  -- learning the source says nothing of the destination, which still passes
  have hpass := get?_learn_of_checkKnown hdestination
  show (learn (learn a.states r.source) r.destination).get? r.destination.id = _
  rw [learn, SortedMap.get?_insertNew, if_pos rfl] at hpass ⊢
  rw [learn, SortedMap.get?_insertNew, if_neg (Ne.symm hne)]
  exact hpass

theorem Knows.addRule {a b : Automaton α} {q : State} (h : a.Knows q) {r : Rule α} {n : Nat}
    (ok : a.addRule r = .ok (n, b)) : b.Knows q := by
  obtain ⟨_, _, rfl⟩ := addRule_eq_ok_iff.1 ok
  exact get?_learn_of_some (get?_learn_of_some h)

theorem Knows.addFinal {a b : Automaton α} {q p : State} (h : a.Knows q) {new : Bool}
    (ok : a.addFinal p = .ok (new, b)) : b.Knows q := by
  obtain ⟨_, _, rfl⟩ := addFinal_eq_ok_iff.1 ok
  exact get?_learn_of_some h

end Acceptor.Automaton
