import Acceptor.Proofs.Check
import Acceptor.Proofs.Search

/-!
  Acceptor.Proofs.Report — what a checker reports, read off the automaton

  A checker finds repeated rules by their texts, triggers with several rules in the index, and
  states that cannot be reached by a search. What it reports can be said without all three: a rule
  is there twice when one before it is the same, a trigger has as many rules as wait for it, and a
  state is reached when rules lead to it. Each part of the report is then the list of all that
  breaks one condition, in order, whatever the other parts have found.

  Main statements:
    1. `Rulebook.groups_eq` — the index counts the rules of each trigger.
    2. `Checker.ruleReport_eq` — what is reported of the rules.
    3. `Checker.check_eq_findings` and `Checker.report_exact` — the report as a whole, and what one
       more demand adds to it.
-/

namespace Acceptor

variable {α : Type} [Letter α]

/-! ## What there is to find -/

namespace Rulebook

/-- Whether rules lead from one state to another can be tested. -/
instance (b : Rulebook α) (start q : StateId) : Decidable (∃ w, b.Spells start w q) :=
  decidable_of_iff (q ∈ b.reachableFrom start) mem_reachableFrom_iff

/-- The triggers that rules wait for, each once, ascending. -/
def triggers (b : Rulebook α) : List (Trigger α) :=
  (SortedSet.ofList (b.rules.map Rule.trigger)).toList

/-- How many rules wait for a trigger. -/
def waiting (b : Rulebook α) (t : Trigger α) : Nat := (b.rules.map Rule.trigger).count t

end Rulebook

namespace Checker

/-- What breaks a condition on the rule with a number. -/
def ruleFindings (a : Automaton α) (n : Nat) (r : Rule α) : List (Violation α) :=
  (if a.containsState r.source.id then [] else [.ruleStateUnknown r r.source.id]) ++
  (if a.containsState r.destination.id then [] else [.ruleStateUnknown r r.destination.id]) ++
  (if a.containsSymbol r.symbol then [] else [.ruleSymbolUnknown r]) ++
  (if ∃ s ∈ a.rules.take n, s.same r then [.duplicateRule r] else [])

/-- The triggers with two rules or more, ascending, with the number of their rules. -/
def branchFindings (a : Automaton α) : List (Violation α) :=
  (a.book.triggers.filter fun t => 2 ≤ a.book.waiting t).map fun t =>
    .nondeterministic t.source t.symbol (a.book.waiting t)

/-- The states that no sequence of rules leads to from the initial one, ascending. -/
def unreachedFindings (a : Automaton α) : List (Violation α) :=
  (a.states.keys.filter fun q => ¬ ∃ w, a.book.Spells a.initial.id w q).map .unreachable

/-- All that breaks a condition, in the order of the conditions. -/
def findings (c : Checker α) (a : Automaton α) : List (Violation α) :=
  (if a.containsState a.initial.id then [] else [.initialOutside a.initial.id]) ++
  (if a.containsState a.current then [] else [.cursorOutside a.current]) ++
  (a.finals.toList.filter fun q => ¬ a.containsState q).map .finalOutside ++
  (a.rules.zipIdx.flatMap fun p => ruleFindings a p.2 p.1) ++
  (if c.deterministic ∨ a.policy = .reject then branchFindings a else []) ++
  (if c.reachable then unreachedFindings a else []) ++
  c.custom.flatMap (· a)

end Checker

/-! ## What the index counts -/

namespace Rulebook

theorem keys_index (b : Rulebook α) : b.index.keys = b.triggers := by
  refine Ordered.eq_of_pairwise (R := fun s t => s < t) Ordered.irrefl Ordered.trans
    b.index.ascending_keys (SortedSet.ascending_toList _) ?_
  intro t
  rw [triggers, SortedSet.mem_toList, SortedSet.mem_ofList, SortedMap.mem_keys_iff, List.mem_map]
  refine ⟨?_, ?_⟩
  · intro h
    obtain ⟨slot, hget⟩ := Option.isSome_iff_exists.1 h
    have hentry := SortedMap.mem_entries_iff.2 hget
    obtain ⟨c, hc⟩ := List.exists_mem_of_ne_nil slot (ne_nil_of_mem_index hentry)
    obtain ⟨ht, hn⟩ := trigger_of_mem_index hentry hc
    exact ⟨c.rule, List.mem_of_getElem? hn, ht⟩
  · intro ⟨r, hr, heq⟩
    subst heq
    obtain ⟨n, hn⟩ := List.getElem?_of_mem hr
    have hmem : ⟨n, r⟩ ∈ b.candidates r.trigger := mem_candidates_iff.2 ⟨rfl, hn⟩
    rw [SortedMap.contains, Option.isSome_iff_ne_none]
    intro hnone
    rw [candidates, RuleIndex.slot, hnone] at hmem
    exact absurd hmem List.not_mem_nil

theorem groups_eq (b : Rulebook α) : b.groups = b.triggers.map fun t => (t, b.waiting t) := by
  have hcount : ∀ entry ∈ b.index.entries, entry.2.length = b.waiting entry.1 := by
    intro entry hentry
    rw [waiting, ← length_candidates, candidates_of_mem_index hentry]
  calc b.groups
      = b.index.entries.map fun entry => (entry.1, b.waiting entry.1) :=
        List.map_congr_left fun entry hentry => by rw [hcount entry hentry]
    _ = b.index.keys.map fun t => (t, b.waiting t) := by
        rw [SortedMap.keys, List.map_map]
        rfl
    _ = b.triggers.map fun t => (t, b.waiting t) := by rw [keys_index]

end Rulebook

/-! ## The parts of the report -/

namespace Checker

omit [Letter α] in
theorem flatMap_reportUnless {β : Type} (holds : β → Bool) (violation : β → Violation α)
    (l : List β) :
    (l.flatMap fun x => reportUnless (holds x) (violation x)) =
      (l.filter fun x => ¬ holds x).map violation := by
  induction l with
  | nil => rfl
  | cons x rest ih =>
    rw [List.flatMap_cons, ih]
    cases hx : holds x <;> simp [reportUnless, hx]

theorem text_mem_iff {seen : List String} {before : List (Rule α)}
    (texts : ∀ text, text ∈ seen ↔ ∃ s ∈ before, s.text = text) (r : Rule α) :
    r.text ∈ seen ↔ ∃ s ∈ before, s.same r := by
  simp only [texts, Rule.text_eq_iff]

/-- What is reported of the rules: of each in order what breaks a condition on it. -/
theorem ruleReport_eq {a : Automaton α} {seen : List String} {before rest : List (Rule α)}
    (rules : a.rules = before ++ rest)
    (texts : ∀ text, text ∈ seen ↔ ∃ s ∈ before, s.text = text) :
    ruleReport a seen rest =
      (rest.zipIdx before.length).flatMap fun p => ruleFindings a p.2 p.1 := by
  induction rest generalizing before seen with
  | nil => rfl
  | cons r rest ih =>
    have htake : a.rules.take before.length = before := by rw [rules, List.take_left]
    have hnew : (decide (r.text ∉ seen)) = !decide (∃ s ∈ before, s.same r) := by
      rw [← decide_not, decide_eq_decide, text_mem_iff texts]
    have hrules : a.rules = (before ++ [r]) ++ rest := by
      rw [rules, List.append_assoc, List.singleton_append]
    have htexts : ∀ text, text ∈ r.text :: seen ↔ ∃ s ∈ before ++ [r], s.text = text := by
      intro text
      simp only [List.mem_cons, texts, List.mem_append, List.not_mem_nil, or_false]
      grind
    have hrest := ih hrules htexts
    rw [List.length_append, List.length_singleton] at hrest
    rw [ruleReport, hrest, List.zipIdx_cons, List.flatMap_cons, ruleFindings, htake, hnew]
    congr 1
    by_cases hdup : ∃ s ∈ before, s.same r <;> simp [reportUnless, hdup]

theorem determinismReport_eq (a : Automaton α) : determinismReport a = branchFindings a := by
  have hmany (t : Trigger α) :
      (¬ decide (a.book.waiting t ≤ 1) = true) ↔ 2 ≤ a.book.waiting t := by
    rw [decide_eq_true_eq]
    omega
  rw [determinismReport, Rulebook.groups_eq, List.flatMap_map,
    flatMap_reportUnless (fun t => decide (a.book.waiting t ≤ 1)), branchFindings]
  simp only [hmany]

theorem reachReport_eq (a : Automaton α) : reachReport a = unreachedFindings a := by
  have hreached (q : StateId) :
      a.reachable.contains q = true ↔ ∃ w, a.book.Spells a.initial.id w q :=
    Rulebook.mem_reachableFrom_iff
  rw [reachReport, flatMap_reportUnless a.reachable.contains, unreachedFindings]
  simp only [hreached]

theorem check_eq_findings (c : Checker α) (a : Automaton α) : c.check a = c.findings a := by
  have hnone : ∀ text, text ∈ ([] : List String) ↔ ∃ s ∈ ([] : List (Rule α)), s.text = text := by
    simp
  have hrules : ruleReport a [] a.rules =
      a.rules.zipIdx.flatMap fun p => ruleFindings a p.2 p.1 :=
    ruleReport_eq rfl hnone
  rw [check, hrules, determinismReport_eq, reachReport_eq, flatMap_reportUnless a.containsState,
    findings]
  simp [reportUnless]

/-- A checker reports exactly what breaks a condition, in the order of the conditions: the initial
state and the cursor, the final states, the rules one after another with those that came before,
the triggers with several rules where they are refused or determinism is asked for, the states that
no rules lead to where that is asked for, and what the checks of the caller's own report. A
condition of the caller's own adds its message where it does not hold, and another checker adds its
whole report; both come after all that is found without them. -/
theorem report_exact (c : Checker α) (a : Automaton α) :
    c.check a = c.findings a ∧
    (∀ (holds : Automaton α → Bool) (message : String), (c.requirePred holds message).check a =
      c.findings a ++ (if holds a then [] else [.custom message])) ∧
    (∀ inner : Checker α, (c.require inner.check).check a = c.findings a ++ inner.findings a) := by
  have hmore (check : Automaton α → List (Violation α)) :
      (c.require check).check a = c.findings a ++ check a := by
    rw [check_eq_findings, require, findings, findings, List.flatMap_append,
      List.flatMap_singleton]
    simp only [List.append_assoc]
  refine ⟨c.check_eq_findings a, ?_, ?_⟩
  · intro holds message
    exact hmore _
  · intro inner
    rw [hmore, inner.check_eq_findings]

/-- Two rules that are the same, without their symbol in the alphabet, beside a final state that is
not in the state set. -/
example :
    let q : State := ⟨⟨0⟩, none⟩
    let r : Rule Char := ⟨q, 'a', q⟩
    structural.check (Automaton.assemble .reject [q] q [⟨2⟩] [] [r, r]) =
      [.finalOutside ⟨2⟩, .ruleSymbolUnknown r, .ruleSymbolUnknown r, .duplicateRule r,
        .nondeterministic ⟨0⟩ 'a' 2] := by
  decide

end Checker

end Acceptor
