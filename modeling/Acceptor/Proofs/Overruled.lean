import Acceptor.Proofs.Storage
import Mathlib.Data.List.Induction

/-!
  Acceptor.Proofs.Overruled — policies that refuse what is there

  A rule is admitted under the policy of the moment, and the check judges all rules under the
  policy in effect. A change of policy asks nothing of the rules that are there. So an automaton
  with two rules on one trigger can get the policy that refuses this; from then on the check
  reports the trigger, and no snapshot of the automaton is restored, until the rules are dropped or
  allowed again. Nothing else in a run leads to an automaton that does not pass the check.

  Main statements:
    1. `Automaton.overruled_apply_iff` — what one operation does.
    2. `Automaton.overruled_runAll_iff` — which runs end with rules that the policy refuses.
    3. `Automaton.valid_unless_overruled` — all others pass the check and are restored.
-/

namespace Acceptor

/-- Whether an operation puts an end to the refusal of rules that are there: it drops the rules, or
it allows them. -/
inductive Operation.Relieves {α : Type} [Letter α] : Operation α → Prop where
  | reset (initial : State) : Relieves (.reset initial)
  | allow : Relieves (.withPolicy .allow)

namespace Automaton

variable {α : Type} [Letter α] {a b : Automaton α}

/-- Whether an automaton has several rules on one trigger and a policy that refuses this. -/
def Overruled (a : Automaton α) : Prop := a.policy = .reject ∧ ¬ a.isDeterministic

theorem not_overruled_iff : ¬ a.Overruled ↔ (a.policy = .reject → a.isDeterministic) := by
  rw [Overruled, not_and, not_not]

/-! ## What one operation does -/

theorem overruled_congr (policy : b.policy = a.policy) (book : b.book = a.book) :
    b.Overruled ↔ a.Overruled := by
  rw [Overruled, Overruled, isDeterministic, isDeterministic, policy, book]

theorem isDeterministic_addRule {r : Rule α} {n : Nat} (ok : a.addRule r = .ok (n, b))
    (policy : a.policy = .reject) : b.isDeterministic ↔ a.isDeterministic := by
  obtain ⟨hcheck, _, rfl⟩ := addRule_eq_ok_iff.1 ok
  obtain ⟨_, _, _, hfree⟩ := checkRule_eq_ok_iff.1 hcheck
  have hnew : r.trigger ∉ a.rules.map Rule.trigger := by
    intro hmem
    obtain ⟨s, hs, htrigger⟩ := List.mem_map.1 hmem
    exact hfree policy s hs htrigger
  have hrules : (a.book.push r).rules.map Rule.trigger = a.rules.map Rule.trigger ++ [r.trigger] := by
    rw [Rulebook.rules_push, List.map_append]
    rfl
  refine Rulebook.isDeterministic_iff.trans (Iff.trans ?_ Rulebook.isDeterministic_iff.symm)
  rw [hrules]
  refine ⟨fun h => (List.nodup_append.1 h).1, ?_⟩
  intro h
  exact h.append (List.nodup_singleton _) (List.disjoint_singleton.2 hnew)

theorem overruled_addRule {r : Rule α} {n : Nat} (ok : a.addRule r = .ok (n, b)) :
    b.Overruled ↔ a.Overruled := by
  have hpolicy : b.policy = a.policy := by
    obtain ⟨_, _, rfl⟩ := addRule_eq_ok_iff.1 ok
    rfl
  rw [Overruled, Overruled, hpolicy]
  refine and_congr_right fun hreject => not_congr ?_
  exact isDeterministic_addRule ok hreject

theorem overruled_apply_of_kept {op : Operation α} (keeps : ¬ op.Relieves)
    (ne : op ≠ .withPolicy .reject) : (a.apply op).Overruled ↔ a.Overruled := by
  have hattempt {β : Type} {attempt : Except (Refusal α) (β × Automaton α)}
      (ok : ∀ v b, attempt = .ok (v, b) → (b.Overruled ↔ a.Overruled)) :
      (a.settle attempt).Overruled ↔ a.Overruled :=
    settle_induction (P := fun b => b.Overruled ↔ a.Overruled) Iff.rfl ok
  cases op with
  | addRule r => exact hattempt fun _ _ ok => overruled_addRule ok
  | addRuleText source payload destination =>
    apply hattempt
    intro n b ok
    obtain ⟨_, ok⟩ := addRule_of_addRuleText ok
    exact overruled_addRule ok
  | addFinal q =>
    apply hattempt
    intro new b ok
    obtain ⟨_, _, rfl⟩ := addFinal_eq_ok_iff.1 ok
    exact overruled_congr rfl rfl
  | step x =>
    rcases step_eq_or a x with hstay | ⟨_, _, _, hmove⟩
    · rw [Automaton.apply, hstay]
    · rw [Automaton.apply, hmove]
      exact overruled_congr rfl rfl
  | restart => exact overruled_congr rfl rfl
  | recognize pattern =>
    rw [Automaton.apply, recognize_snd]
    exact overruled_congr rfl rfl
  | trace pattern =>
    rw [Automaton.apply, trace_snd]
    exact overruled_congr rfl rfl
  | reset q => exact absurd (.reset q) keeps
  | withPolicy policy =>
    cases policy with
    | reject => exact absurd rfl ne
    | allow => exact absurd .allow keeps

theorem not_overruled_of_relieves {op : Operation α} (relieves : op.Relieves) :
    ¬ (a.apply op).Overruled := by
  cases relieves with
  | reset q => exact fun h => h.2 rfl
  | allow => exact fun h => absurd h.1 Policy.noConfusion

/-- The refusing policy comes to an automaton that is not deterministic; and from then on it refuses
what is there, up to an operation that puts an end to this. -/
theorem overruled_apply_iff (op : Operation α) : (a.apply op).Overruled ↔
    (a.Overruled ∧ ¬ op.Relieves) ∨ (op = .withPolicy .reject ∧ ¬ a.isDeterministic) := by
  by_cases hrelieves : op.Relieves
  · have hne : op ≠ .withPolicy .reject := by
      rintro rfl
      exact nomatch hrelieves
    simp [not_overruled_of_relieves hrelieves, hrelieves, hne]
  · by_cases hreject : op = .withPolicy .reject
    · subst hreject
      have hnow : (a.apply (.withPolicy .reject)).Overruled ↔ ¬ a.isDeterministic :=
        and_iff_right rfl
      rw [hnow]
      exact ⟨fun h => .inr ⟨rfl, h⟩, fun h => h.elim (fun h => h.1.2) And.right⟩
    · rw [overruled_apply_of_kept hrelieves hreject]
      simp [hrelieves, hreject]

/-! ## Runs -/

theorem runAll_append_singleton (a : Automaton α) (ops : List (Operation α)) (op : Operation α) :
    a.runAll (ops ++ [op]) = (a.runAll ops).apply op := by
  rw [runAll, List.foldl_append]
  rfl

/-- A run ends with rules that the policy refuses exactly where the refusing policy came, at some
point, to an automaton that was not deterministic, and nothing after it put an end to this. -/
theorem overruled_runAll_iff (start : ¬ a.Overruled) (ops : List (Operation α)) :
    (a.runAll ops).Overruled ↔ ∃ before after, ops = before ++ .withPolicy .reject :: after ∧
      ¬ (a.runAll before).isDeterministic ∧ ∀ op ∈ after, ¬ op.Relieves := by
  induction ops using List.reverseRecOn with
  | nil =>
    refine ⟨fun h => absurd h start, ?_⟩
    rintro ⟨before, after, heq, _⟩
    exact absurd heq (by simp)
  | append_singleton ops op ih =>
    rw [runAll_append_singleton, overruled_apply_iff, ih]
    refine ⟨?_, ?_⟩
    · rintro (⟨⟨before, after, rfl, hbranching, hafter⟩, hop⟩ | ⟨rfl, hbranching⟩)
      · refine ⟨before, after ++ [op], ?_, hbranching, ?_⟩
        · rw [List.append_assoc, List.cons_append]
        · exact List.forall_mem_append.2 ⟨hafter, List.forall_mem_singleton.2 hop⟩
      · exact ⟨ops, [], rfl, hbranching, fun _ h => absurd h List.not_mem_nil⟩
    · rintro ⟨before, after, heq, hbranching, hafter⟩
      rcases List.eq_nil_or_concat after with rfl | ⟨after, last, rfl⟩
      · -- the operation is the change of policy itself
        obtain ⟨rfl, hop⟩ := List.append_inj' heq rfl
        exact .inr ⟨List.singleton_inj.1 hop, hbranching⟩
      · rw [List.concat_eq_append] at heq hafter
        rw [← List.cons_append, ← List.append_assoc] at heq
        obtain ⟨rfl, hop⟩ := List.append_inj' heq rfl
        obtain rfl := List.singleton_inj.1 hop
        obtain ⟨hafter, hlast⟩ := List.forall_mem_append.1 hafter
        exact .inl ⟨⟨before, after, rfl, hbranching, hafter⟩, hlast op List.mem_cons_self⟩

/-! ## What the check finds -/

theorem Origin.not_overruled (h : Origin a) : ¬ a.Overruled := by
  cases h with
  | fresh h =>
    obtain ⟨q, rfl⟩ := h.eq_ofInitial
    exact fun h => h.2 rfl
  | restored h =>
    rw [not_overruled_iff, ← (WellFormed.of_restore h).checkInvariants_eq_nil_iff]
    obtain ⟨_, hclean, rfl⟩ := Snapshot.restore_eq_ok_iff.1 h
    exact (List.append_eq_nil_iff.1 hclean).2

/-- An automaton passes the check exactly where it is deterministic or its policy asks for no such
thing, and its own snapshot is restored exactly where it passes the check. After a run that is so,
unless the run gave the refusing policy to an automaton that was not deterministic and has neither
dropped nor allowed its rules since. -/
theorem valid_unless_overruled (origin : Origin a) (ops : List (Operation α)) :
    ((a.runAll ops).checkInvariants = [] ↔
      ((a.runAll ops).policy = .reject → (a.runAll ops).isDeterministic)) ∧
    (∀ id takenAt, ((a.runAll ops).snapshot id takenAt).restore =
      if (a.runAll ops).checkInvariants = [] then .ok (a.runAll ops).restart
      else .error (.invalid (a.runAll ops).checkInvariants)) ∧
    ((a.runAll ops).checkInvariants = [] ↔
      ¬ ∃ before after, ops = before ++ .withPolicy .reject :: after ∧
        ¬ (a.runAll before).isDeterministic ∧ ∀ op ∈ after, ¬ op.Relieves) := by
  have hwell : (a.runAll ops).WellFormed := origin.wellFormed.runAll ops
  have hcheck := hwell.checkInvariants_eq_nil_iff
  have hruns := overruled_runAll_iff origin.not_overruled ops
  exact ⟨hcheck, hwell.restore_snapshot,
    hcheck.trans (not_overruled_iff.symm.trans (not_congr hruns))⟩

/-- Two rules on one symbol are allowed, and then refused where they are: the automaton does not
pass the check, and its own snapshot is not restored. -/
theorem overruled_by_change_of_policy :
    let a : Automaton Char := (ofInitial ⟨⟨0⟩, none⟩).runAll [.withPolicy .allow,
      .addRule ⟨⟨⟨0⟩, none⟩, 'a', ⟨⟨1⟩, none⟩⟩, .addRule ⟨⟨⟨0⟩, none⟩, 'a', ⟨⟨2⟩, none⟩⟩,
      .withPolicy .reject]
    let id : Uuid := ⟨List.replicate 16 7, rfl⟩
    let takenAt : Instant :=
      ⟨⟨2024, 2, 29, by decide, by decide, by decide⟩, 0, 0, by decide, by decide, by decide⟩
    Built a ∧ a.policy = .reject ∧ ¬ a.isDeterministic ∧
      a.checkInvariants = [.nondeterministic ⟨0⟩ 'a' 2] ∧
      (a.snapshot id takenAt).restore = .error (.invalid [.nondeterministic ⟨0⟩ 'a' 2]) := by
  intro a id takenAt
  have built : Built a := ⟨_, _, .ofInitial _, rfl⟩
  have hfound : a.checkInvariants = [.nondeterministic ⟨0⟩ 'a' 2] := by decide
  refine ⟨built, rfl, by decide, hfound, ?_⟩
  rw [built.reachable.wellFormed.restore_snapshot, hfound]
  rfl

/-- A run that gives the refusing policy to two rules on one symbol, with steps and a refused rule
after it, and the same run with the two rules allowed again: the one does not pass the check and the
other does. -/
theorem valid_unless_overruled_of_two_runs :
    let a : Automaton Char := .ofInitial ⟨⟨0⟩, none⟩
    let before : List (Operation Char) := [.withPolicy .allow,
      .addRule ⟨⟨⟨0⟩, none⟩, 'a', ⟨⟨1⟩, none⟩⟩, .addRuleText ⟨⟨0⟩, none⟩ "a" ⟨⟨2⟩, none⟩]
    let after : List (Operation Char) := [.step 'a', .addFinal ⟨⟨3⟩, none⟩,
      .addRule ⟨⟨⟨0⟩, none⟩, 'a', ⟨⟨3⟩, none⟩⟩]
    let ops := before ++ .withPolicy .reject :: after
    let id : Uuid := ⟨List.replicate 16 7, rfl⟩
    let takenAt : Instant :=
      ⟨⟨2024, 2, 29, by decide, by decide, by decide⟩, 0, 0, by decide, by decide, by decide⟩
    Origin a ∧ (a.runAll ops).checkInvariants ≠ [] ∧
      (a.runAll (ops ++ [.withPolicy .allow])).checkInvariants = [] ∧
      ((a.runAll (ops ++ [.withPolicy .allow])).snapshot id takenAt).restore =
        .ok (a.runAll (ops ++ [.withPolicy .allow])).restart := by
  intro a before after ops id takenAt
  have origin : Origin a := .fresh (.ofInitial _)
  obtain ⟨_, _, hruns⟩ := valid_unless_overruled origin ops
  obtain ⟨hvalid, hrestore, _⟩ := valid_unless_overruled origin (ops ++ [.withPolicy .allow])
  have hbranching : ¬ (a.runAll before).isDeterministic := by decide
  have hkeeps : ∀ op ∈ after, ¬ op.Relieves := by
    intro op hop
    simp only [after, List.mem_cons, List.not_mem_nil, or_false] at hop
    rcases hop with rfl | rfl | rfl <;> exact nofun
  have hclean := hvalid.2 (fun hreject => absurd hreject (by decide))
  refine ⟨origin, fun hclean => hruns.1 hclean ⟨before, after, rfl, hbranching, hkeeps⟩, hclean, ?_⟩
  rw [hrestore, if_pos hclean]

end Automaton

end Acceptor
