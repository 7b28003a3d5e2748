import Acceptor.Proofs.Arrival
import Acceptor.Proofs.Verdict

/-!
  Acceptor.Proofs.Permanence — what later insertions leave of what was decided

  Where nothing starts the automaton anew and its policy stays in force, an operation adds one rule,
  makes one state final, or moves the cursor at most. So nothing that was there is taken back, and
  what was refused stays refused: the refusal is the one given before, unless by then an end of the
  rule has come to be known with another ancestor, which is asked first. Under the refusing policy a
  trigger that has a rule gets no other one. Then walks go on as they went, through automata with
  several rules on one trigger as well.

  Main statements:
    1. `Automaton.apply_cases` — what an operation of this kind does.
    2. `Automaton.continues_runAll` — what a run of them leaves.
    3. `Automaton.Continues.refuses` — what it leaves of a refusal.
    4. `Automaton.nothing_taken_back` — states, symbols, rules and refusals after a run.
    5. `Automaton.walks_kept_under_rejection` — answers and traces after a run.
-/

namespace Acceptor

/-! ## Operations that add -/

namespace Operation

/-- Whether an operation leaves what is there and a policy in force: it does not start anew, and
it puts no other policy in force. -/
def keeps (policy : Policy) : {α : Type} → [Letter α] → Operation α → Bool
  | _, _, @Operation.reset _ _ _ => false
  | _, _, @Operation.withPolicy _ _ other => other = policy
  | _, _, _ => true

/-- The rule that an operation asks to insert; a text that is no symbol asks for none. -/
def rule? : {α : Type} → [Letter α] → Operation α → Option (Rule α)
  | _, _, @Operation.addRule _ _ rule => some rule
  | _, _, @Operation.addRuleText source payload destination =>
    (Payload.parse payload).toOption.map fun symbol => ⟨source, symbol, destination⟩
  | _, _, _ => none

/-- The state that an operation asks to make final. -/
def final? : {α : Type} → [Letter α] → Operation α → Option State
  | _, _, @Operation.addFinal _ _ state => some state
  | _, _, _ => none

end Operation

namespace Automaton

variable {α : Type} [Letter α] {a b c : Automaton α} {r : Rule α} {q : State} {e : Refusal α}

/-- What an operation that keeps the policy does: it asks for a rule, or for a final state, and does
what the request does, or it asks for neither and moves the cursor at most. -/
theorem apply_cases {op : Operation α} (keeps : op.keeps a.policy) :
    (∃ r, op.rule? = some r ∧ op.final? = none ∧ a.apply op = a.settle (a.addRule r)) ∨
    (∃ q, op.rule? = none ∧ op.final? = some q ∧ a.apply op = a.settle (a.addFinal q)) ∨
    (op.rule? = none ∧ op.final? = none ∧ ∃ p, a.apply op = a.withCursor p) := by
  cases op with
  | addRule r => exact .inl ⟨r, rfl, rfl, rfl⟩
  | addRuleText source payload destination =>
    cases hparse : Payload.parse payload with
    | ok symbol =>
      refine .inl ⟨⟨source, symbol, destination⟩, ?_, rfl, ?_⟩
      · rw [Operation.rule?, hparse]
        rfl
      · rw [apply, addRuleText, hparse]
    | error cause =>
      refine .inr (.inr ⟨?_, rfl, a.current, ?_⟩)
      · rw [Operation.rule?, hparse]
        rfl
      · rw [apply, addRuleText, hparse]
        rfl
  | addFinal q => exact .inr (.inl ⟨q, rfl, rfl, rfl⟩)
  | step x =>
    refine .inr (.inr ⟨rfl, rfl, ?_⟩)
    rcases step_eq_or a x with hstay | ⟨r, _, _, hmove⟩
    · exact ⟨a.current, hstay⟩
    · exact ⟨r.destination.id, hmove⟩
  | restart => exact .inr (.inr ⟨rfl, rfl, a.initial.id, rfl⟩)
  | recognize pattern => exact .inr (.inr ⟨rfl, rfl, a.initial.id, recognize_snd a pattern⟩)
  | trace pattern => exact .inr (.inr ⟨rfl, rfl, a.initial.id, trace_snd a pattern⟩)
  | reset p => exact absurd keeps Bool.false_ne_true
  | withPolicy policy =>
    refine .inr (.inr ⟨rfl, rfl, a.current, ?_⟩)
    have hpolicy : policy = a.policy := of_decide_eq_true keeps
    rw [apply, hpolicy]
    rfl

/-! ## What comes to it later -/

/-- Whether one automaton continues another one: nothing that was there is gone, and under the
refusing policy no rule has come to a trigger that had one. -/
structure Continues (a b : Automaton α) : Prop where
  policy : b.policy = a.policy
  initial : b.initial = a.initial
  knows : ∀ q, a.Knows q → b.Knows q
  finals : ∀ p, a.isFinal p → b.isFinal p
  symbols : ∀ x, a.containsSymbol x → b.containsSymbol x
  rules : a.rules <+: b.rules
  reserved : a.policy = .reject → ∀ s ∈ b.rules, ∀ r ∈ a.rules, s.trigger = r.trigger → s ∈ a.rules

theorem Continues.refl (a : Automaton α) : a.Continues a :=
  ⟨rfl, rfl, fun _ h => h, fun _ h => h, fun _ h => h, List.prefix_rfl, fun _ _ hs _ _ _ => hs⟩

theorem Continues.mem_rules (h : a.Continues b) (hr : r ∈ a.rules) : r ∈ b.rules :=
  h.rules.subset hr

theorem Continues.trans (hab : a.Continues b) (hbc : b.Continues c) : a.Continues c where
  policy := hbc.policy.trans hab.policy
  initial := hbc.initial.trans hab.initial
  knows q h := hbc.knows q (hab.knows q h)
  finals p h := hbc.finals p (hab.finals p h)
  symbols x h := hbc.symbols x (hab.symbols x h)
  rules := hab.rules.trans hbc.rules
  reserved := by
    intro hpolicy s hs r hr htrigger
    have hsb : s ∈ b.rules :=
      hbc.reserved (hab.policy.trans hpolicy) s hs r (hab.mem_rules hr) htrigger
    exact hab.reserved hpolicy s hsb r hr htrigger

theorem continues_withCursor (a : Automaton α) (p : StateId) : a.Continues (a.withCursor p) :=
  ⟨rfl, rfl, fun _ h => h, fun _ h => h, fun _ h => h, List.prefix_rfl, fun _ _ hs _ _ _ => hs⟩

theorem continues_addRule {n : Nat} (ok : a.addRule r = .ok (n, b)) : a.Continues b := by
  have hgains := gains_of_addRule ok
  obtain ⟨hcheck, _, _⟩ := addRule_eq_ok_iff.1 ok
  obtain ⟨_, _, _, hfree⟩ := checkRule_eq_ok_iff.1 hcheck
  refine ⟨hgains.policy, hgains.initial, fun q h => h.addRule ok, ?_,
    fun x h => (hgains.symbols x).2 (.inr h), ?_, ?_⟩
  · intro p h
    rw [isFinal, hgains.finals]
    exact h
  · rw [hgains.rules]
    exact List.prefix_append _ _
  · intro hpolicy s hs t ht htrigger
    rw [hgains.rules] at hs
    rcases List.mem_append.1 hs with hs | hs
    · exact hs
    · -- the rule that came has a trigger that was free
      rw [List.mem_singleton.1 hs] at htrigger
      exact absurd htrigger.symm (hfree hpolicy t ht)

theorem continues_addFinal {new : Bool} (ok : a.addFinal q = .ok (new, b)) : a.Continues b := by
  have hmarks := marks_of_addFinal ok
  refine ⟨hmarks.policy, hmarks.initial, fun p h => h.addFinal ok,
    fun p h => (hmarks.finals p).2 (.inr h), ?_, hmarks.rules ▸ List.prefix_rfl, ?_⟩
  · intro x h
    rw [containsSymbol, hmarks.alphabet]
    exact h
  · intro _ s hs _ _ _
    rw [← hmarks.rules]
    exact hs

theorem continues_apply {op : Operation α} (keeps : op.keeps a.policy) :
    a.Continues (a.apply op) := by
  rcases apply_cases keeps with ⟨r, _, _, happly⟩ | ⟨q, _, _, happly⟩ | ⟨_, _, p, happly⟩
  · rw [happly]
    exact settle_induction (P := a.Continues) (.refl a) fun _ _ ok => continues_addRule ok
  · rw [happly]
    exact settle_induction (P := a.Continues) (.refl a) fun _ _ ok => continues_addFinal ok
  · rw [happly]
    exact continues_withCursor a p

theorem continues_runAll {ops : List (Operation α)} (keeps : ∀ op ∈ ops, op.keeps a.policy) :
    a.Continues (a.runAll ops) := by
  induction ops generalizing a with
  | nil => exact .refl a
  | cons op rest ih =>
    obtain ⟨hop, hrest⟩ := List.forall_mem_cons.1 keeps
    have hstep := continues_apply hop
    refine hstep.trans (ih ?_)
    rw [hstep.policy]
    exact hrest

/-! ## Refusals -/

/-- Whether a refusal is that of an end of a rule for its ancestor. -/
def ForAnEnd (r : Rule α) (e : Refusal α) : Prop :=
  ∃ q known, (q = r.source ∨ q = r.destination) ∧ e = .stateConflict q.id known q.ancestor

namespace Continues

theorem conflicts (h : a.Continues b) {known : Option StateId} (hq : a.Conflicts q known) :
    b.Conflicts q known :=
  ⟨h.knows ⟨q.id, known⟩ hq.1, hq.2⟩

theorem least (h : a.Continues b) (policy : a.policy = .reject) {t : Trigger α}
    (hr : a.book.Least t r) : b.book.Least t r where
  mem := h.mem_rules hr.mem
  trigger := hr.trigger
  least := by
    intro s hs ht
    have hold : s ∈ a.rules := h.reserved policy s hs r hr.mem (ht.trans hr.trigger.symm)
    exact hr.least s hold ht

/-- What was refused is refused as it was, unless by now an end of the rule is known with another
ancestor. -/
theorem refuses (h : a.Continues b) (he : a.Refuses r e) :
    b.Refuses r e ∨ ∃ e', b.Refuses r e' ∧ ForAnEnd r e' := by
  by_cases hsource : ∃ known, b.Conflicts r.source known
  · obtain ⟨known, conflict⟩ := hsource
    exact .inr ⟨_, .source conflict, r.source, known, .inl rfl, rfl⟩
  rw [not_exists] at hsource
  by_cases hdestination : ∃ known, b.Conflicts r.destination known
  · obtain ⟨known, conflict⟩ := hdestination
    exact .inr ⟨_, .destination hsource conflict, r.destination, known, .inr rfl, rfl⟩
  rw [not_exists] at hdestination
  have agrees : b.Agrees r := ⟨hsource, hdestination⟩
  left
  cases he with
  | source conflict => exact absurd (h.conflicts conflict) (hsource _)
  | destination _ conflict => exact absurd (h.conflicts conflict) (hdestination _)
  | duplicate _ mem same => exact .duplicate agrees (h.mem_rules mem) same
  | nondeterministic _ new policy least =>
    refine .nondeterministic agrees ?_ (h.policy.trans policy) (h.least policy least)
    -- the same rule would have come to a trigger that had one
    intro s hs hsame
    have htrigger : s.trigger = r.trigger := Rule.trigger_eq_of_same hsame
    have hold := h.reserved policy s hs _ least.mem (htrigger.trans least.trigger.symm)
    exact new s hold hsame

theorem addFinal_eq_error (h : a.Continues b) (he : a.addFinal q = .error e) :
    b.addFinal q = .error e := by
  rw [addFinal_eq_error_iff, checkKnown_eq_error_iff] at he ⊢
  obtain ⟨known, conflict, he⟩ := he
  exact ⟨known, h.conflicts conflict, he⟩

theorem rule? (h : a.Continues b) {n : Nat} (hn : a.rule? n = some r) : b.rule? n = some r := by
  obtain ⟨hlt, hget⟩ := List.getElem?_eq_some_iff.1 hn
  rw [Automaton.rule?, List.prefix_iff_getElem?.1 h.rules n hlt, hget]

theorem state? (h : a.Continues b) {id : StateId} (hq : a.state? id = some q) :
    b.state? id = some q := by
  obtain ⟨rfl, hget⟩ := state?_eq_some_iff.1 hq
  exact state?_eq_some_iff.2 ⟨rfl, h.knows q hget⟩

end Continues

/-- A run that neither starts anew nor puts another policy in force takes nothing back: states stay
with their ancestors, and final states, symbols and rules stay, the rules under their numbers. The
number that an admitted rule gets stands for it from then on. A rule that was refused is refused
for the same reason, or because of an end that is known with another ancestor by then; a state that
was refused for its ancestor is refused for it again. -/
theorem nothing_taken_back {a : Automaton α} (reachable : Reachable a) (ops : List (Operation α))
    (keeps : ∀ op ∈ ops, op.keeps a.policy) :
    (∀ id q, a.state? id = some q → (a.runAll ops).state? id = some q) ∧
    (∀ id, a.isFinal id → (a.runAll ops).isFinal id) ∧
    (∀ x, a.containsSymbol x → (a.runAll ops).containsSymbol x) ∧
    a.rules <+: (a.runAll ops).rules ∧
    (∀ n r, a.rule? n = some r → (a.runAll ops).rule? n = some r) ∧
    (∀ r n b, a.addRule r = .ok (n, b) → (b.runAll ops).rule? n = some r) ∧
    (∀ r e, a.addRule r = .error e →
      ∃ e', (a.runAll ops).addRule r = .error e' ∧ (e' = e ∨ ForAnEnd r e')) ∧
    (∀ q e, a.addFinal q = .error e → (a.runAll ops).addFinal q = .error e) := by
  have hruns := continues_runAll keeps
  refine ⟨fun _ _ => hruns.state?, hruns.finals, hruns.symbols, hruns.rules, fun _ _ => hruns.rule?,
    ?_, ?_, fun _ _ => hruns.addFinal_eq_error⟩
  · intro r n b ok
    have hgains := gains_of_addRule ok
    have hrule : b.rule? n = some r := by
      obtain ⟨_, rfl, _⟩ := addRule_eq_ok_iff.1 ok
      rw [Automaton.rule?, hgains.rules, List.getElem?_concat_length]
    exact (continues_runAll (hgains.policy ▸ keeps)).rule? hrule
  · intro r e herror
    have hwell := reachable.wellFormed
    have hrefuses := (addRule_eq_error_iff_refuses hwell.distinct).1 herror
    have hanswer {e' : Refusal α} : (a.runAll ops).Refuses r e' →
        (a.runAll ops).addRule r = .error e' :=
      (addRule_eq_error_iff_refuses (hwell.runAll ops).distinct).2
    rcases hruns.refuses hrefuses with hsame | ⟨e', hother, hend⟩
    · exact ⟨e, hanswer hsame, .inl rfl⟩
    · exact ⟨e', hanswer hother, .inr hend⟩

/-- A run with refused and admitted attempts. A second rule on a symbol is refused before it, and
after it for its destination, which the run has made final with another ancestor. -/
theorem nothing_taken_back_in_run :
    let first : Rule Char := ⟨⟨⟨0⟩, none⟩, 'a', ⟨⟨1⟩, some ⟨0⟩⟩⟩
    let second : Rule Char := ⟨⟨⟨0⟩, none⟩, 'a', ⟨⟨2⟩, none⟩⟩
    let other : State := ⟨⟨1⟩, none⟩
    let a : Automaton Char := (ofInitial ⟨⟨0⟩, none⟩).runAll [.addRule first]
    let ops : List (Operation Char) := [.addFinal ⟨⟨2⟩, some ⟨0⟩⟩, .addRule second, .step 'a',
      .addRuleText ⟨⟨2⟩, some ⟨0⟩⟩ "b" ⟨⟨0⟩, none⟩, .withPolicy .reject, .recognize ['a']]
    let b := a.runAll ops
    Reachable a ∧ (∀ op ∈ ops, op.keeps a.policy) ∧
      a.addRule second = .error (.nondeterministic second first) ∧
      b.addRule second = .error (.stateConflict ⟨2⟩ (some ⟨0⟩) none) ∧
      ForAnEnd second (.stateConflict ⟨2⟩ (some ⟨0⟩) none) ∧ b.rule? 0 = some first ∧
      b.addFinal other = .error (.stateConflict ⟨1⟩ (some ⟨0⟩) none) := by
  intro first second other a ops b
  have reachable : Reachable a := ⟨_, _, .fresh (.ofInitial _), rfl⟩
  have keeps : ∀ op ∈ ops, op.keeps a.policy := by
    simp only [ops, List.forall_mem_cons]
    decide
  obtain ⟨_, _, _, _, hrules, _, hrefused, hfinals⟩ := nothing_taken_back reachable ops keeps
  have hsecond : a.Refuses second (.nondeterministic second first) :=
    .nondeterministic ⟨not_conflicts_of_knows (by decide), not_conflicts_of_new (by decide)⟩
      (by decide) (by decide) ⟨by decide, by decide, by decide⟩
  have hbefore : a.addRule second = .error (.nondeterministic second first) :=
    (addRule_eq_error_iff_refuses reachable.wellFormed.distinct).2 hsecond
  -- what was given as a reason before is not asked any more
  have hconflict : b.Refuses second (.stateConflict ⟨2⟩ (some ⟨0⟩) none) :=
    .destination (not_conflicts_of_knows (by decide)) ⟨by decide, by decide⟩
  have hafter :=
    (addRule_eq_error_iff_refuses (reachable.wellFormed.runAll ops).distinct).2 hconflict
  obtain ⟨e, he, hreason⟩ := hrefused second _ hbefore
  obtain rfl := Except.error.inj (he.symm.trans hafter)
  have hother : a.addFinal other = .error (.stateConflict ⟨1⟩ (some ⟨0⟩) none) :=
    addFinal_eq_error_iff.2 (checkKnown_of_conflict (by decide) (by decide))
  exact ⟨reachable, keeps, hbefore, hafter, hreason.resolve_left (by simp),
    hrules 0 first (by decide), hfinals other _ hother⟩

/-! ## Walks under the refusing policy -/

theorem extends_of_continues (h : a.Continues b) (policy : a.policy = .reject)
    (distinct : b.rules.Pairwise fun r s => ¬ r.same s) : a.Extends b where
  initial := h.initial
  knows := h.knows
  finals := h.finals
  lookups := by
    intro q x r hr
    exact (Rulebook.first?_eq_some_iff distinct).2 (h.least policy (Rulebook.least_of_first? hr))

namespace Extends

theorem follows? (h : a.Extends b) {q p : StateId} {w : List α}
    (hw : a.follows? q w = some p) : b.follows? q w = some p := by
  have hid (c : Automaton α) : c.follows? q w = (c.arrives? ⟨q, none⟩ w).map State.id :=
    (map_id_arrives? ⟨q, none⟩ w).symm
  rw [hid] at hw ⊢
  obtain ⟨e, he, rfl⟩ := Option.map_eq_some_iff.1 hw
  rw [h.arrives? he, Option.map_some]

theorem stepsFrom_prefix (h : a.Extends b) (q : StateId) (w : List α) :
    a.stepsFrom q w <+: b.stepsFrom q w := by
  induction w generalizing q with
  | nil => exact List.prefix_rfl
  | cons x rest ih =>
    cases hr : a.ruleFor? q x with
    | some r =>
      rw [stepsFrom_of_some hr, stepsFrom_of_some (h.lookups q x r hr)]
      exact List.cons_prefix_cons.2 ⟨rfl, ih r.destination.id⟩
    | none =>
      rw [stepsFrom_of_none hr]
      exact List.nil_prefix

end Extends

/-- Under the refusing policy, whatever rules and final states a run asks for and wherever it moves
the cursor: a pattern that was accepted is accepted, and the steps of a trace are those it had
before and maybe more. -/
theorem walks_kept_under_rejection {a : Automaton α} (reachable : Reachable a)
    (policy : a.policy = .reject) {ops : List (Operation α)}
    (keeps : ∀ op ∈ ops, op.keeps .reject) (p : List α) :
    ((a.recognize p).1 → ((a.runAll ops).recognize p).1) ∧
    (a.trace p).1.steps <+: ((a.runAll ops).trace p).1.steps := by
  have hwell := reachable.wellFormed
  have hlater := hwell.runAll ops
  have hruns : a.Continues (a.runAll ops) := continues_runAll (policy ▸ keeps)
  have hextends := extends_of_continues hruns policy hlater.distinct
  rw [fst_recognize hwell.symbols, fst_recognize hlater.symbols, fst_trace hwell.symbols,
    fst_trace hlater.symbols, hextends.initial]
  refine ⟨?_, hextends.stepsFrom_prefix a.initial.id p⟩
  intro haccepted
  obtain ⟨q, hq, hfinal⟩ := (Option.any_eq_true _ _).1 haccepted
  rw [hextends.follows? hq]
  exact hextends.finals q hfinal

/-- Two rules on one symbol were allowed before the refusing policy came. A rule of lesser text is
refused then, so the walk goes on as it went, and on to a state that comes later. -/
theorem walks_kept_after_change_of_policy :
    let a : Automaton Char := (ofInitial ⟨⟨0⟩, none⟩).runAll [.withPolicy .allow,
      .addRule ⟨⟨⟨0⟩, none⟩, 'a', ⟨⟨3⟩, none⟩⟩, .addRule ⟨⟨⟨0⟩, none⟩, 'a', ⟨⟨2⟩, none⟩⟩,
      .addFinal ⟨⟨2⟩, none⟩, .withPolicy .reject]
    let ops : List (Operation Char) := [.addRule ⟨⟨⟨0⟩, none⟩, 'a', ⟨⟨10⟩, none⟩⟩,
      .addRuleText ⟨⟨2⟩, none⟩ "b" ⟨⟨4⟩, none⟩, .step 'a', .addFinal ⟨⟨4⟩, none⟩]
    Reachable a ∧ a.policy = .reject ∧ ¬ a.isDeterministic ∧ (∀ op ∈ ops, op.keeps .reject) ∧
      (a.recognize ['a']).1 ∧ ((a.runAll ops).recognize ['a']).1 ∧
      (a.trace ['a', 'b']).1.steps = [⟨⟨0⟩, 'a', ⟨2⟩⟩] ∧
      [⟨⟨0⟩, 'a', ⟨2⟩⟩] <+: ((a.runAll ops).trace ['a', 'b']).1.steps ∧
      ¬ (a.recognize ['a', 'b']).1 ∧ ((a.runAll ops).recognize ['a', 'b']).1 := by
  intro a ops
  have reachable : Reachable a := ⟨_, _, .fresh (.ofInitial _), rfl⟩
  have keeps : ∀ op ∈ ops, op.keeps .reject := by
    simp only [ops, List.forall_mem_cons]
    decide
  obtain ⟨haccepts, _⟩ := walks_kept_under_rejection reachable (by decide) keeps ['a']
  obtain ⟨_, hsteps⟩ := walks_kept_under_rejection reachable (by decide) keeps ['a', 'b']
  have haccepted : (a.recognize ['a']).1 := by decide
  have hbefore : (a.trace ['a', 'b']).1.steps = [⟨⟨0⟩, 'a', ⟨2⟩⟩] := by decide
  rw [hbefore] at hsteps
  exact ⟨reachable, by decide, by decide, keeps, haccepted, haccepts haccepted, hbefore, hsteps,
    by decide, by decide⟩

end Automaton

end Acceptor
