import Acceptor.Proofs.Refusal
import Acceptor.Proofs.Report

/-!
  Acceptor.Proofs.RuleIdentity — rules told apart by their texts

  Three places ask whether two rules are one. Admission compares a new rule with those in its slot,
  part by part; the check collects texts and looks for one that it has seen; and a slot is kept in
  the order of texts. As a text says which rule it is of, whatever its symbol looks like, the first
  two find the same rules, and the third puts distinct rules in one order only.

  Main statements:
    1. `Automaton.addRule_eq_duplicate_iff` — what admission refuses as present.
    2. `Automaton.duplicateRule_mem_iff` — what the check reports as present twice.
    3. `Rule.text_lt_trichotomy` and `Rulebook.ascending_candidates_iff` — the order of texts.
    4. `Rule.identified_by_text` — all of it.
-/

namespace Acceptor

variable {α : Type} [Letter α]

namespace Automaton

/-! ## Rules that are there -/

/-- A rule is refused as present when its states pass and a rule like it is there. -/
theorem addRule_eq_duplicate_iff {a : Automaton α} {r : Rule α} :
    a.addRule r = .error (.duplicate r) ↔ a.checkKnown r.source = .ok () ∧
      a.checkKnown r.destination = .ok () ∧ ∃ s ∈ a.rules, s.same r := by
  have hany : a.rules.any (·.same r) = true ↔ ∃ s ∈ a.rules, s.same r := List.any_eq_true
  rw [addRule_eq_error_iff, checkRule_eq, ← hany]
  -- a state is refused for another cause, and so is a rule whose trigger is taken
  cases hsource : a.checkKnown r.source with
  | error e =>
    obtain ⟨known, _, _, rfl⟩ := exists_of_checkKnown_eq_error hsource
    simp [bind, Except.bind]
  | ok =>
    cases hdestination : a.checkKnown r.destination with
    | error e =>
      obtain ⟨known, _, _, rfl⟩ := exists_of_checkKnown_eq_error hdestination
      simp [bind, Except.bind]
    | ok =>
      cases a.rules.any (·.same r) with
      | true => simp [bind, Except.bind]
      | false => cases a.policy <;> cases a.ruleFor? r.source.id r.symbol <;> simp [bind, Except.bind]

theorem duplicateRule_mem_iff {a : Automaton α} {r : Rule α} :
    .duplicateRule r ∈ a.checkInvariants ↔
      ∃ n, a.rules[n]? = some r ∧ ∃ s ∈ a.rules.take n, s.same r := by
  have hown (n : Nat) (s : Rule α) : .duplicateRule r ∈ Checker.ruleFindings a n s ↔
      (∃ t ∈ a.rules.take n, t.same s) ∧ r = s := by
    simp [Checker.ruleFindings]
  -- of the parts of the report only that on the rules has findings of this kind
  rw [checkInvariants, Checker.check_eq_findings]
  simp [Checker.findings, Checker.branchFindings, Checker.structural, hown,
    List.mk_mem_zipIdx_iff_getElem?]

end Automaton

/-! ## The order of texts -/

theorem Rule.text_lt_trichotomy (r s : Rule α) : r.text < s.text ∨ r.same s ∨ s.text < r.text := by
  rw [← Rule.text_eq_iff]
  exact Ordered.trichotomous r.text s.text

theorem Rulebook.ascending_candidates_iff {b : Rulebook α} {t : Trigger α} :
    ((b.candidates t).Pairwise fun c d => c.rule.text < d.rule.text) ↔
      (b.candidates t).Pairwise fun c d => ¬ c.rule.same d.rule := by
  refine ⟨?_, ?_⟩
  · intro h
    exact h.imp fun hlt hsame => Ordered.ne_of_lt hlt (Rule.text_eq_iff.2 hsame)
  · intro h
    refine (h.and (b.sorted_candidates t)).imp ?_
    intro c d ⟨hne, hle⟩
    rcases Rule.text_lt_trichotomy c.rule d.rule with hlt | hsame | hlt
    · exact hlt
    · exact absurd hsame hne
    · exact absurd hlt hle

/-- The text of a rule says which rule it is of. So admission, which compares rules part by part,
refuses as present what has the text of a rule that is there, and the check, which compares texts,
reports what admission would have found among the rules before. Texts put any two distinct rules in
one order only, and each slot, which is in this order, ascends strictly unless it has a rule
twice. -/
theorem Rule.identified_by_text :
    (∀ r s : Rule α, r.text = s.text ↔
      r.source.id = s.source.id ∧ r.symbol = s.symbol ∧ r.destination.id = s.destination.id) ∧
    (∀ (a : Automaton α) (r : Rule α),
      (a.addRule r = .error (.duplicate r) ↔ a.checkKnown r.source = .ok () ∧
        a.checkKnown r.destination = .ok () ∧ r.text ∈ a.rules.map Rule.text) ∧
      (.duplicateRule r ∈ a.checkInvariants ↔ ∃ n, a.rules[n]? = some r ∧
        ((Rulebook.ofList (a.rules.take n)).candidates r.trigger).any (·.rule.same r))) ∧
    (∀ r s t : Rule α, (r.same s → ¬ r.text < s.text) ∧
      (r.text < s.text ∨ r.same s ∨ s.text < r.text) ∧
      (r.text < s.text → s.text < t.text → r.text < t.text)) ∧
    (∀ (b : Rulebook α) (t : Trigger α),
      ((b.candidates t).Pairwise fun c d => c.rule.text < d.rule.text) ↔
        (b.candidates t).Pairwise fun c d => ¬ c.rule.same d.rule) := by
  have htext (rules : List (Rule α)) (r : Rule α) :
      (∃ s ∈ rules, s.same r) ↔ r.text ∈ rules.map Rule.text := by
    simp only [List.mem_map, Rule.text_eq_iff]
  refine ⟨?_, ?_, ?_, fun b t => Rulebook.ascending_candidates_iff⟩
  · intro r s
    rw [Rule.text_eq_iff, Rule.same_iff]
  · intro a r
    refine ⟨?_, ?_⟩
    · rw [Automaton.addRule_eq_duplicate_iff, htext]
    · simp only [Automaton.duplicateRule_mem_iff, Rulebook.any_same_iff, Rulebook.rules_ofList]
  · intro r s t
    refine ⟨?_, Rule.text_lt_trichotomy r s, Ordered.trans⟩
    intro hsame
    rw [Rule.text_eq_iff.2 hsame]
    exact Ordered.irrefl s.text

/-- A symbol that looks like two arrows and a state. -/
example : (Rule.mk ⟨⟨0⟩, none⟩ "a--> q1 --b" ⟨⟨2⟩, none⟩).text = "q0 --a--> q1 --b--> q2" := by
  decide

end Acceptor
