import Acceptor.Proofs.RuleText
import Acceptor.Proofs.WellFormed

/-!
  Acceptor.Proofs.Check — what the structural check finds

  The check looks at one collection after another and reports what it misses there. Of a well
  formed automaton it can only report a trigger with several rules. A restored snapshot has
  passed the check, so a run may begin from it.

  Main statements:
    1. `Checker.ruleReport_eq_nil_iff` — when nothing is reported of the rules.
    2. `Automaton.WellFormed.of_restore` — what is restored is well formed.
    3. `Automaton.Reachable.wellFormed` — every run keeps the structure.
-/

namespace Acceptor

variable {α : Type} [Letter α]

/-! ## Rules -/

theorem nodup_texts_iff {rules : List (Rule α)} :
    (rules.map Rule.text).Nodup ↔ rules.Pairwise fun r s => ¬ r.same s := by
  rw [List.Nodup, List.pairwise_map]
  refine ⟨?_, ?_⟩
  · intro h
    exact h.imp fun hne hsame => hne (Rule.text_eq_iff.2 hsame)
  · intro h
    exact h.imp fun hne heq => hne (Rule.text_eq_iff.1 heq)

theorem Checker.ruleReport_eq_nil_iff {a : Automaton α} {seen : List String}
    {rules : List (Rule α)} :
    ruleReport a seen rules = [] ↔
      (∀ r ∈ rules, (a.containsState r.source.id ∧ a.containsState r.destination.id) ∧
        a.containsSymbol r.symbol) ∧
      (rules.map Rule.text).Nodup ∧ ∀ r ∈ rules, r.text ∉ seen := by
  induction rules generalizing seen with
  | nil => simp [ruleReport]
  | cons r rest ih =>
    -- the rest is checked against the texts seen before and this rule's
    simp only [ruleReport, List.append_eq_nil_iff, reportUnless_eq_nil_iff, ih,
      decide_eq_true_eq, List.map_cons, List.nodup_cons, List.mem_map, List.mem_cons,
      forall_eq_or_imp, not_or]
    grind

theorem Checker.determinismReport_eq_nil_iff {a : Automaton α} :
    determinismReport a = [] ↔ (a.rules.map Rule.trigger).Nodup := by
  rw [Automaton.rules, ← Rulebook.isDeterministic_iff, Rulebook.isDeterministic,
    List.all_eq_true, determinismReport, List.flatMap_eq_nil_iff]
  apply forall₂_congr
  intro group _
  exact reportUnless_eq_nil_iff

/-! ## The check as a whole -/

namespace Automaton

theorem mem_stateList_iff {a : Automaton α} {q : State} :
    q ∈ a.stateList ↔ a.states.get? q.id = some q.ancestor := by
  rw [stateList, List.mem_map, ← SortedMap.mem_entries_iff]
  refine ⟨?_, fun h => ⟨_, h, rfl⟩⟩
  rintro ⟨⟨i, ancestor⟩, hmem, rfl⟩
  exact hmem

theorem checkInvariants_eq (a : Automaton α) :
    a.checkInvariants =
      reportUnless (a.containsState a.initial.id) (.initialOutside a.initial.id) ++
      reportUnless (a.containsState a.current) (.cursorOutside a.current) ++
      a.finals.toList.flatMap (fun q => reportUnless (a.containsState q) (.finalOutside q)) ++
      Checker.ruleReport a [] a.rules ++
      (if a.policy = .reject then Checker.determinismReport a else []) := by
  simp [checkInvariants, Checker.check, Checker.structural]

theorem finalReport_eq_nil_iff {a : Automaton α} :
    a.finals.toList.flatMap (fun q => reportUnless (a.containsState q) (.finalOutside q)) =
      ([] : List (Violation α)) ↔ ∀ q, a.isFinal q → a.containsState q := by
  rw [List.flatMap_eq_nil_iff]
  refine ⟨?_, ?_⟩
  · intro h q hq
    exact reportUnless_eq_nil_iff.1 (h q (SortedSet.mem_toList.2 hq))
  · intro h q hq
    exact reportUnless_eq_nil_iff.2 (h q (SortedSet.mem_toList.1 hq))

/-- Of a well formed automaton a checker reports what was asked beyond the structure at most. -/
theorem WellFormed.check_eq {a : Automaton α} (h : a.WellFormed) (c : Checker α) :
    c.check a =
      (if c.deterministic || a.policy = .reject then Checker.determinismReport a else []) ++
      (if c.reachable then Checker.reachReport a else []) ++ c.custom.flatMap (· a) := by
  have hrules : Checker.ruleReport a [] a.rules = [] := by
    refine Checker.ruleReport_eq_nil_iff.2 ⟨?_, nodup_texts_iff.2 h.distinct, by simp⟩
    intro r hr
    exact ⟨h.endpoints r hr, h.symbols r hr⟩
  rw [Checker.check, reportUnless_eq_nil_iff.2 h.containsState_initial,
    reportUnless_eq_nil_iff.2 h.cursor, finalReport_eq_nil_iff.2 h.finals, hrules]
  rfl

theorem WellFormed.checkInvariants_eq {a : Automaton α} (h : a.WellFormed) :
    a.checkInvariants = if a.policy = .reject then Checker.determinismReport a else [] := by
  rw [checkInvariants, h.check_eq]
  simp [Checker.structural]

theorem WellFormed.checkInvariants_eq_nil_iff {a : Automaton α} (h : a.WellFormed) :
    a.checkInvariants = [] ↔ (a.policy = .reject → a.isDeterministic) := by
  have hreport : Checker.determinismReport a = [] ↔ a.isDeterministic :=
    Checker.determinismReport_eq_nil_iff.trans Rulebook.isDeterministic_iff.symm
  rw [h.checkInvariants_eq]
  split
  · next hreject => simp [hreject, hreport]
  · next hallow => simp [hallow]

theorem eq_nondeterministic_of_mem_determinismReport {a : Automaton α} {v : Violation α}
    (h : v ∈ Checker.determinismReport a) : ∃ q x n, v = .nondeterministic q x n := by
  obtain ⟨group, _, hv⟩ := List.mem_flatMap.1 h
  unfold reportUnless at hv
  split at hv
  · exact absurd hv List.not_mem_nil
  · exact ⟨_, _, _, List.mem_singleton.1 hv⟩

end Automaton

/-! ## What is restored -/

namespace Snapshot

omit [Letter α] in
theorem id_initialState (s : Snapshot α) : s.initialState.id = s.initial := by
  unfold initialState
  cases h : s.states.find? (·.id = s.initial) with
  | none => rfl
  | some q => simpa using List.find?_some h

omit [Letter α] in
theorem mem_initialState {s : Snapshot α} (h : s.initial ∈ s.states.map State.id) :
    s.initialState ∈ s.states := by
  unfold initialState
  cases hfind : s.states.find? (·.id = s.initial) with
  | some q => exact List.mem_of_find?_eq_some hfind
  | none =>
    obtain ⟨q, hq, hid⟩ := List.mem_map.1 h
    rw [List.find?_eq_none] at hfind
    exact absurd hid (by simpa using hfind q hq)

omit [Letter α] in
theorem map_fst_states (s : Snapshot α) :
    (s.states.map fun q => (q.id, q.ancestor)).map Prod.fst = s.states.map State.id := by
  simp [Function.comp_def]

end Snapshot

namespace Automaton

/-- What is restored has passed the check, so it is well formed. -/
theorem WellFormed.of_restore {s : Snapshot α} {a : Automaton α} (h : s.restore = .ok a) :
    a.WellFormed := by
  obtain ⟨_, hclean, rfl⟩ := Snapshot.restore_eq_ok_iff.1 h
  obtain ⟨hlisting, hcheck⟩ := List.append_eq_nil_iff.1 hclean
  have hnodup := (duplicateStates_eq_nil_iff.1 hlisting).1
  rw [Automaton.checkInvariants_eq] at hcheck
  simp only [List.append_eq_nil_iff, reportUnless_eq_nil_iff, finalReport_eq_nil_iff,
    Checker.ruleReport_eq_nil_iff, nodup_texts_iff] at hcheck
  obtain ⟨⟨⟨⟨hinitial, hcursor⟩, hfinals⟩, hrules, hdistinct, _⟩, _⟩ := hcheck
  refine ⟨?_, hcursor, hfinals, fun r hr => (hrules r hr).1, fun r hr => (hrules r hr).2,
    hdistinct⟩
  have hlisted := SortedMap.contains_ofList.1 hinitial
  rw [Snapshot.map_fst_states] at hlisted
  have hmem := Snapshot.mem_initialState (s := s) (Snapshot.id_initialState s ▸ hlisted)
  rw [← Snapshot.map_fst_states] at hnodup
  exact SortedMap.get?_ofList_of_mem hnodup (List.mem_map.2 ⟨_, hmem, rfl⟩)

theorem Origin.wellFormed {a : Automaton α} (h : Origin a) : a.WellFormed := by
  cases h with
  | fresh h => exact h.wellFormed
  | restored h => exact WellFormed.of_restore h

theorem Reachable.wellFormed {a : Automaton α} (h : Reachable a) : a.WellFormed := by
  obtain ⟨b, ops, horigin, rfl⟩ := h
  exact horigin.wellFormed.runAll ops

/-- After any run the collections of an automaton refer to each other as they should, so the check
can only report triggers with several rules. Begun from one state, the automaton has besides no
state and no symbol without a cause. -/
theorem structure_of_run {a : Automaton α} (origin : Origin a) (ops : List (Operation α)) :
    (a.runAll ops).WellFormed ∧
    (∀ v ∈ (a.runAll ops).checkInvariants, ∃ q x n, v = .nondeterministic q x n) ∧
    (Fresh a → (a.runAll ops).Grounded) := by
  have hwell := origin.wellFormed.runAll ops
  refine ⟨hwell, ?_, fun hfresh => hfresh.grounded.runAll ops⟩
  intro v hv
  rw [hwell.checkInvariants_eq] at hv
  split at hv
  · exact eq_nondeterministic_of_mem_determinismReport hv
  · exact absurd hv List.not_mem_nil

/-- A run with two rules on one symbol, a rule that is refused, and a policy that forbids what the
automaton already has. -/
theorem structure_of_branching_run :
    let a : Automaton Char := .ofInitial ⟨⟨0⟩, none⟩
    let ops : List (Operation Char) := [.withPolicy .allow,
      .addRule ⟨⟨⟨0⟩, none⟩, 'a', ⟨⟨1⟩, some ⟨0⟩⟩⟩, .addRuleText ⟨⟨0⟩, none⟩ "a" ⟨⟨2⟩, some ⟨0⟩⟩,
      .addRule ⟨⟨⟨0⟩, none⟩, 'a', ⟨⟨1⟩, some ⟨0⟩⟩⟩, .addRuleText ⟨⟨0⟩, none⟩ "ab" ⟨⟨3⟩, none⟩,
      .addFinal ⟨⟨4⟩, none⟩, .step 'a', .withPolicy .reject]
    (Origin a ∧ Fresh a) ∧
    (a.runAll ops).WellFormed ∧
    (∀ v ∈ (a.runAll ops).checkInvariants, ∃ q x n, v = .nondeterministic q x n) ∧
    (a.runAll ops).Grounded ∧
    (a.runAll ops).checkInvariants = [.nondeterministic ⟨0⟩ 'a' 2] := by
  intro a ops
  have fresh : Fresh a := .ofInitial _
  have hrun := structure_of_run (.fresh fresh) ops
  exact ⟨⟨.fresh fresh, fresh⟩, hrun.1, hrun.2.1, hrun.2.2 fresh, by decide⟩

end Automaton

end Acceptor
