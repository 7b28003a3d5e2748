import Acceptor.Proofs.Index
import Acceptor.Proofs.Reachable

/-!
  Acceptor.Proofs.WellFormed — the structure that every operation preserves

  The collections of an automaton refer to each other: the cursor, the final states and the
  rules to the state set, the rules to the alphabet. No operation changes one of them without
  the others, whether it succeeds or is refused. Begun from one state, an automaton holds
  besides no state and no symbol without a cause.

  Main statements:
    1. `Automaton.checkRule_eq` and `Automaton.checkRule_eq_ok_iff` — what admission asks, and when
       a rule is admitted.
    2. `Automaton.apply_induction` — what an operation leaves.
    3. `Automaton.WellFormed.apply` and `Automaton.Grounded.apply` — what one operation preserves.
    4. `Automaton.WellFormed.runAll` and `Automaton.Grounded.runAll` — what a run preserves.
-/

namespace Acceptor

theorem Rulebook.any_same_iff {α : Type} [Letter α] {b : Rulebook α} {r : Rule α} :
    (b.candidates r.trigger).any (·.rule.same r) ↔ ∃ s ∈ b.rules, s.same r := by
  rw [List.any_eq_true]
  refine ⟨?_, ?_⟩
  · intro ⟨c, hc, hsame⟩
    exact ⟨c.rule, List.mem_of_getElem? (mem_candidates_iff.1 hc).2, hsame⟩
  · intro ⟨s, hs, hsame⟩
    obtain ⟨n, hn⟩ := List.getElem?_of_mem hs
    have ht : s.trigger = r.trigger := Rule.trigger_eq_of_same hsame
    exact ⟨⟨n, s⟩, mem_candidates_iff.2 ⟨ht, hn⟩, hsame⟩

namespace Automaton

variable {α : Type} [Letter α]

/-- The references between the collections of an automaton. -/
structure WellFormed (a : Automaton α) : Prop where
  /-- The initial state is in the state set, with the ancestor it has there. -/
  initial : a.states.get? a.initial.id = some a.initial.ancestor
  cursor : a.containsState a.current
  finals : ∀ q, a.isFinal q → a.containsState q
  endpoints : ∀ r ∈ a.rules, a.containsState r.source.id ∧ a.containsState r.destination.id
  symbols : ∀ r ∈ a.rules, a.containsSymbol r.symbol
  /-- No two rules have the same source, symbol and destination. -/
  distinct : a.rules.Pairwise fun r s => ¬ r.same s

/-- Whether each state and each symbol of an automaton is there for a cause. -/
structure Grounded (a : Automaton α) : Prop where
  states : ∀ q, a.containsState q ↔ q = a.initial.id ∨ a.isFinal q ∨
    ∃ r ∈ a.rules, r.source.id = q ∨ r.destination.id = q
  alphabet : ∀ x, a.containsSymbol x ↔ ∃ r ∈ a.rules, r.symbol = x

/-! ## Admission -/

theorem checkKnown_eq_ok_of_get? {a : Automaton α} {q : State}
    (h : a.states.get? q.id = some q.ancestor) : a.checkKnown q = .ok () := by
  rw [checkKnown_eq_ok_iff]
  intro known hknown
  exact Option.some.inj (hknown.symm.trans h)

/-- Admission asks its questions of the rules themselves: whether the rule is there, and which one
is found for its trigger. -/
theorem checkRule_eq (a : Automaton α) (r : Rule α) :
    a.checkRule r = (do
      a.checkKnown r.source
      a.checkKnown r.destination
      if a.rules.any (·.same r) then .error (.duplicate r)
      else match a.policy, a.ruleFor? r.source.id r.symbol with
        | .reject, some existing => .error (.nondeterministic r existing)
        | _, _ => .ok ()) := by
  have hany : (a.book.candidates r.trigger).any (·.rule.same r) = a.rules.any (·.same r) := by
    rw [Bool.eq_iff_iff]
    exact Rulebook.any_same_iff.trans List.any_eq_true.symm
  have hfirst : a.ruleFor? r.source.id r.symbol =
      (a.book.candidates r.trigger).head?.map Candidate.rule := rfl
  rw [checkRule, hfirst]
  simp only [hany]
  refine congrArg (bind _) (funext fun _ => congrArg (bind _) (funext fun _ => ?_))
  split
  · rfl
  · cases a.policy <;> cases a.book.candidates r.trigger <;> rfl

/-- A rule is admitted when its states agree with the state set, it is not there yet, and its
trigger has no rule where the policy refuses a second one. -/
theorem checkRule_eq_ok_iff {a : Automaton α} {r : Rule α} :
    a.checkRule r = .ok () ↔ a.checkKnown r.source = .ok () ∧ a.checkKnown r.destination = .ok () ∧
      (∀ s ∈ a.rules, ¬ s.same r) ∧
      (a.policy = .reject → ∀ s ∈ a.rules, s.trigger ≠ r.trigger) := by
  have hfree : a.ruleFor? r.source.id r.symbol = none ↔ ∀ s ∈ a.rules, s.trigger ≠ r.trigger :=
    Rulebook.first?_eq_none_iff
  have hdup : a.rules.any (·.same r) = false ↔ ∀ s ∈ a.rules, ¬ s.same r := List.any_eq_false
  rw [checkRule_eq, ← hfree, ← hdup]
  cases a.checkKnown r.source with
  | error e => simp [bind, Except.bind]
  | ok =>
    cases a.checkKnown r.destination with
    | error e => simp [bind, Except.bind]
    | ok =>
      -- a rule that is there already is refused first, under either policy
      cases a.rules.any (·.same r) with
      | true => simp [bind, Except.bind]
      | false =>
        cases a.policy <;> cases a.ruleFor? r.source.id r.symbol <;> simp [bind, Except.bind]

theorem addFinal_eq_ok_iff {a b : Automaton α} {q : State} {new : Bool} :
    a.addFinal q = .ok (new, b) ↔ a.checkKnown q = .ok () ∧ new = !a.isFinal q.id ∧
      b = { a with states := learn a.states q, finals := a.finals.insert q.id } := by
  unfold addFinal
  cases a.checkKnown q with
  | error e => simp [bind, Except.bind]
  | ok u => simp [bind, Except.bind, pure, Except.pure, eq_comm]

theorem addRule_of_addRuleText {a b : Automaton Char} {source destination : State}
    {payload : String} {n : Nat} (h : a.addRuleText source payload destination = .ok (n, b)) :
    ∃ c, a.addRule ⟨source, c, destination⟩ = .ok (n, b) := by
  unfold addRuleText at h
  split at h
  · exact absurd h (by simp)
  · next c _ => exact ⟨c, h⟩

/-- What an operation leaves: a new automaton, the one before with its cursor on the initial state
or at the end of a rule, with another policy, or with a rule or a final state more. -/
theorem apply_induction {P : Automaton α → Prop} {a : Automaton α} (start : P a)
    (moved : ∀ q, (q = a.initial.id ∨ ∃ r ∈ a.rules, r.destination.id = q) →
      P { a with current := q })
    (withPolicy : ∀ policy, P (a.withPolicy policy)) (reset : ∀ q, P (a.reset q))
    (addRule : ∀ {r n b}, a.addRule r = .ok (n, b) → P b)
    (addFinal : ∀ {q new b}, a.addFinal q = .ok (new, b) → P b) (op : Operation α) :
    P (a.apply op) := by
  cases op with
  | addRule r => exact settle_induction start fun _ _ ok => addRule ok
  | addRuleText source payload destination =>
    apply settle_induction start
    intro n b ok
    obtain ⟨_, ok⟩ := addRule_of_addRuleText ok
    exact addRule ok
  | addFinal q => exact settle_induction start fun _ _ ok => addFinal ok
  | step x =>
    rcases step_eq_or a x with hstay | ⟨r, hr, _, hmove⟩
    · rw [Automaton.apply, hstay]
      exact start
    · rw [Automaton.apply, hmove]
      exact moved _ (.inr ⟨r, hr, rfl⟩)
  | restart => exact moved _ (.inl rfl)
  | recognize pattern =>
    rw [Automaton.apply, recognize_snd]
    exact moved _ (.inl rfl)
  | trace pattern =>
    rw [Automaton.apply, trace_snd]
    exact moved _ (.inl rfl)
  | reset q => exact reset q
  | withPolicy policy => exact withPolicy policy

/-! ## What an admission changes -/

theorem contains_learn {states : SortedMap StateId (Option StateId)} {q : State} {p : StateId} :
    (learn states q).contains p ↔ p = q.id ∨ states.contains p := by
  simp only [SortedMap.contains, learn, SortedMap.get?_insertNew]
  split
  · next h => simp [h]
  · next h => simp [h]

theorem learn_of_known {states : SortedMap StateId (Option StateId)} {q : State}
    {ancestor : Option StateId} (h : states.get? q.id = some ancestor) : learn states q = states := by
  apply SortedMap.ext_get?
  intro p
  rw [learn, SortedMap.get?_insertNew]
  split
  · next heq => rw [heq, h, Option.getD_some]
  · rfl

theorem get?_learn_of_some {states : SortedMap StateId (Option StateId)} {q : State} {p : StateId}
    {ancestor : Option StateId} (h : states.get? p = some ancestor) :
    (learn states q).get? p = some ancestor := by
  rw [learn, SortedMap.get?_insertNew]
  split
  · next heq =>
    subst heq
    rw [h, Option.getD_some]
  · exact h

theorem isFinal_insert {s : SortedSet StateId} {p q : StateId} :
    (s.insert q).contains p ↔ p = q ∨ s.contains p :=
  SortedSet.mem_insert

theorem isFinal_of_addFinal {a b : Automaton α} {q : State} {new : Bool}
    (ok : a.addFinal q = .ok (new, b)) {p : StateId} : b.isFinal p ↔ p = q.id ∨ a.isFinal p := by
  obtain ⟨_, _, rfl⟩ := addFinal_eq_ok_iff.1 ok
  exact isFinal_insert

theorem mem_rules_push {b : Rulebook α} {r s : Rule α} :
    s ∈ (b.push r).rules ↔ s ∈ b.rules ∨ s = r := by
  simp

/-! ## What one operation preserves -/

theorem WellFormed.ofInitial (q : State) : (ofInitial q : Automaton α).WellFormed where
  initial := by simp [Automaton.ofInitial]
  cursor := by simp [Automaton.ofInitial, containsState, SortedMap.contains]
  finals := by
    intro p hp
    exact absurd hp (SortedSet.not_mem_empty p)
  endpoints := by simp [Automaton.ofInitial, rules, Rulebook.empty]
  symbols := by simp [Automaton.ofInitial, rules, Rulebook.empty]
  distinct := List.Pairwise.nil

theorem WellFormed.withPolicy {a : Automaton α} (h : a.WellFormed) (policy : Policy) :
    (a.withPolicy policy).WellFormed :=
  ⟨h.initial, h.cursor, h.finals, h.endpoints, h.symbols, h.distinct⟩

theorem WellFormed.moved {a : Automaton α} (h : a.WellFormed) {q : StateId}
    (hq : a.containsState q) : ({ a with current := q } : Automaton α).WellFormed :=
  ⟨h.initial, hq, h.finals, h.endpoints, h.symbols, h.distinct⟩

theorem WellFormed.containsState_initial {a : Automaton α} (h : a.WellFormed) :
    a.containsState a.initial.id := by
  rw [containsState, SortedMap.contains, h.initial]
  rfl

theorem WellFormed.restart {a : Automaton α} (h : a.WellFormed) : a.restart.WellFormed :=
  h.moved h.containsState_initial

theorem WellFormed.addFinal {a b : Automaton α} (h : a.WellFormed) {q : State} {new : Bool}
    (ok : a.addFinal q = .ok (new, b)) : b.WellFormed := by
  obtain ⟨_, _, rfl⟩ := addFinal_eq_ok_iff.1 ok
  have hgrow : ∀ p, a.containsState p → (learn a.states q).contains p := by
    intro p hp
    exact contains_learn.2 (.inr hp)
  refine ⟨get?_learn_of_some h.initial, hgrow _ h.cursor, ?_, ?_, h.symbols, h.distinct⟩
  · intro p hp
    rcases isFinal_insert.1 hp with rfl | hp
    · exact contains_learn.2 (.inl rfl)
    · exact hgrow p (h.finals p hp)
  · intro r hr
    obtain ⟨hsource, hdestination⟩ := h.endpoints r hr
    exact ⟨hgrow _ hsource, hgrow _ hdestination⟩

theorem WellFormed.addRule {a b : Automaton α} (h : a.WellFormed) {r : Rule α} {n : Nat}
    (ok : a.addRule r = .ok (n, b)) : b.WellFormed := by
  obtain ⟨hcheck, _, rfl⟩ := addRule_eq_ok_iff.1 ok
  obtain ⟨_, _, hnew, _⟩ := checkRule_eq_ok_iff.1 hcheck
  have hgrow : ∀ p, a.containsState p →
      (learn (learn a.states r.source) r.destination).contains p := by
    intro p hp
    exact contains_learn.2 (.inr (contains_learn.2 (.inr hp)))
  refine ⟨get?_learn_of_some (get?_learn_of_some h.initial), hgrow _ h.cursor, ?_, ?_, ?_, ?_⟩
  · intro p hp
    exact hgrow p (h.finals p hp)
  · intro s hs
    rcases mem_rules_push.1 hs with hs | rfl
    · obtain ⟨hsource, hdestination⟩ := h.endpoints s hs
      exact ⟨hgrow _ hsource, hgrow _ hdestination⟩
    · exact ⟨contains_learn.2 (.inr (contains_learn.2 (.inl rfl))), contains_learn.2 (.inl rfl)⟩
  · intro s hs
    apply SortedSet.mem_insert.2
    rcases mem_rules_push.1 hs with hs | rfl
    · exact .inr (h.symbols s hs)
    · exact .inl rfl
  · refine List.pairwise_append.2 ⟨h.distinct, List.pairwise_singleton _ _, ?_⟩
    intro s hs s' hs'
    rw [List.mem_singleton.1 hs']
    exact hnew s hs

theorem WellFormed.apply {a : Automaton α} (h : a.WellFormed) (op : Operation α) :
    (a.apply op).WellFormed := by
  apply apply_induction h
  case moved =>
    intro q hq
    apply h.moved
    rcases hq with rfl | ⟨r, hr, rfl⟩
    · exact h.containsState_initial
    · exact (h.endpoints r hr).2
  case withPolicy => exact h.withPolicy
  case reset =>
    intro q
    exact (WellFormed.ofInitial q).withPolicy a.policy
  case addRule => exact h.addRule
  case addFinal => exact h.addFinal

/-! ## Nothing without a cause -/

theorem Grounded.ofInitial (q : State) : (ofInitial q : Automaton α).Grounded where
  states := by
    intro p
    have hfinal : ¬ (SortedSet.empty : SortedSet StateId).contains p := SortedSet.not_mem_empty p
    simp [Automaton.ofInitial, containsState, SortedMap.contains, isFinal, rules, Rulebook.empty,
      hfinal]
  alphabet := by
    intro x
    have hsymbol : ¬ (SortedSet.empty : SortedSet α).contains x := SortedSet.not_mem_empty x
    simp [Automaton.ofInitial, containsSymbol, rules, Rulebook.empty, hsymbol]

theorem Grounded.withPolicy {a : Automaton α} (h : a.Grounded) (policy : Policy) :
    (a.withPolicy policy).Grounded :=
  ⟨h.states, h.alphabet⟩

theorem Grounded.moved {a : Automaton α} (h : a.Grounded) (q : StateId) :
    ({ a with current := q } : Automaton α).Grounded :=
  ⟨h.states, h.alphabet⟩

theorem Grounded.addFinal {a b : Automaton α} (h : a.Grounded) {q : State} {new : Bool}
    (ok : a.addFinal q = .ok (new, b)) : b.Grounded := by
  obtain ⟨_, _, rfl⟩ := addFinal_eq_ok_iff.1 ok
  refine ⟨?_, h.alphabet⟩
  intro p
  have hold := h.states p
  simp only [containsState, isFinal, rules, contains_learn, isFinal_insert] at hold ⊢
  rw [hold]
  grind

theorem Grounded.addRule {a b : Automaton α} (h : a.Grounded) {r : Rule α} {n : Nat}
    (ok : a.addRule r = .ok (n, b)) : b.Grounded := by
  obtain ⟨_, _, rfl⟩ := addRule_eq_ok_iff.1 ok
  refine ⟨?_, ?_⟩
  · intro p
    have hold := h.states p
    simp only [containsState, isFinal, rules, contains_learn, mem_rules_push] at hold ⊢
    rw [hold]
    grind
  · intro x
    have hold := h.alphabet x
    have hinsert : (a.alphabet.insert r.symbol).contains x ↔ x = r.symbol ∨ a.alphabet.contains x :=
      SortedSet.mem_insert
    simp only [containsSymbol, rules, mem_rules_push] at hold ⊢
    rw [hinsert, hold]
    grind

theorem Grounded.apply {a : Automaton α} (h : a.Grounded) (op : Operation α) :
    (a.apply op).Grounded := by
  apply apply_induction h
  case moved =>
    intro q _
    exact h.moved q
  case withPolicy => exact h.withPolicy
  case reset =>
    intro q
    exact (Grounded.ofInitial q).withPolicy a.policy
  case addRule => exact h.addRule
  case addFinal => exact h.addFinal

/-! ## What a run preserves -/

theorem WellFormed.runAll {a : Automaton α} (h : a.WellFormed) (ops : List (Operation α)) :
    (a.runAll ops).WellFormed :=
  runAll_induction (P := WellFormed) (fun _ op h => h.apply op) h ops

theorem Grounded.runAll {a : Automaton α} (h : a.Grounded) (ops : List (Operation α)) :
    (a.runAll ops).Grounded :=
  runAll_induction (P := Grounded) (fun _ op h => h.apply op) h ops

theorem Fresh.wellFormed {a : Automaton α} (h : Fresh a) : a.WellFormed := by
  obtain ⟨q, rfl⟩ := h.eq_ofInitial
  exact WellFormed.ofInitial q

theorem Fresh.grounded {a : Automaton α} (h : Fresh a) : a.Grounded := by
  obtain ⟨q, rfl⟩ := h.eq_ofInitial
  exact Grounded.ofInitial q

end Automaton

end Acceptor
