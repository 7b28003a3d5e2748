import Acceptor.Proofs.Permanence
import Acceptor.Proofs.Rebuild
import Mathlib.Data.List.Perm.Subperm

/-!
  Acceptor.Proofs.Interleaving — parts that may come in any order

  Rules and final states are inserted into a new automaton, in some order and with walks between
  them. Where the parts fit together, none of them is in another's way: no insertion is refused,
  and what has been made at any time is told by the parts that have come by then. The order is seen
  in the list of the rules alone. What is looked up for a trigger, and the rules that leave a state,
  are ordered by text, and distinct rules have distinct texts.

  Main statements:
    1. `Rulebook.first?_of_perm` and `Rulebook.leaving_of_perm` — the order of the rules is not
       seen in what is looked up and listed.
    2. `Made.apply` — what an operation does to an automaton that has been made of parts.
    3. `made_of_insertedBy` — no part is refused, and what is there in the end.
    4. `Automaton.insertion_order_irrelevant` — all of it.
-/

namespace Acceptor

/-! ## Rulebooks with the same rules -/

namespace Rulebook

variable {α : Type} [Letter α] {b c : Rulebook α}

theorem distinct_of_perm {rules rules' : List (Rule α)} (perm : rules'.Perm rules)
    (distinct : rules.Pairwise fun r s => ¬ r.same s) :
    rules'.Pairwise fun r s => ¬ r.same s := by
  rw [← nodup_texts_iff] at distinct ⊢
  exact (perm.map Rule.text).nodup_iff.2 distinct

theorem ascending_leaving (distinct : b.rules.Pairwise fun r s => ¬ r.same s) (q : StateId) :
    (b.leaving q).Pairwise fun r s =>
      r.symbol < s.symbol ∨ (r.symbol = s.symbol ∧ r.text < s.text) := by
  have hdistinct : (b.leaving q).Pairwise fun r s => ¬ r.same s :=
    distinct_of_perm (b.leaving_perm q) (distinct.sublist List.filter_sublist)
  refine ((b.pairwise_leaving q).and hdistinct).imp ?_
  rintro r s ⟨hlt | ⟨heq, hle⟩, hsame⟩
  · exact .inl hlt
  · have hne : s.text ≠ r.text := fun htext => hsame (Rule.text_eq_iff.1 htext.symm)
    exact .inr ⟨heq, (Ordered.not_lt_iff.1 hle).resolve_left hne⟩

section

variable (perm : c.rules.Perm b.rules) (distinct : b.rules.Pairwise fun r s => ¬ r.same s)

include perm

theorem isDeterministic_of_perm : c.isDeterministic = b.isDeterministic := by
  rw [Bool.eq_iff_iff, isDeterministic_iff, isDeterministic_iff]
  exact (perm.map Rule.trigger).nodup_iff

theorem least_iff_of_perm {t : Trigger α} {r : Rule α} : c.Least t r ↔ b.Least t r := by
  have hmem {s : Rule α} : s ∈ c.rules ↔ s ∈ b.rules := perm.mem_iff
  refine ⟨?_, ?_⟩
  · intro h
    exact ⟨hmem.1 h.mem, h.trigger, fun s hs => h.least s (hmem.2 hs)⟩
  · intro h
    exact ⟨hmem.2 h.mem, h.trigger, fun s hs => h.least s (hmem.1 hs)⟩

include distinct

theorem first?_of_perm (t : Trigger α) : c.first? t = b.first? t := by
  apply Option.ext
  intro r
  rw [first?_eq_some_iff (distinct_of_perm perm distinct), first?_eq_some_iff distinct,
    least_iff_of_perm perm]

theorem leaving_of_perm (q : StateId) : c.leaving q = b.leaving q := by
  refine Ordered.eq_of_pairwise ?_ ?_ (ascending_leaving (distinct_of_perm perm distinct) q)
    (ascending_leaving distinct q) ?_
  · rintro r (h | ⟨_, h⟩)
    · exact Ordered.irrefl _ h
    · exact Ordered.irrefl _ h
  · rintro r s u (h | ⟨heq, h⟩) (h' | ⟨heq', h'⟩)
    · exact .inl (Ordered.trans h h')
    · exact .inl (heq' ▸ h)
    · exact .inl (heq ▸ h')
    · exact .inr ⟨heq.trans heq', Ordered.trans h h'⟩
  · intro r
    rw [mem_leaving_iff, mem_leaving_iff, perm.mem_iff]

end

theorem acyclicFrom_congr (h : ∀ q, c.leaving q = b.leaving q) (path : List StateId)
    (q : StateId) : c.acyclicFrom path q = b.acyclicFrom path q := by
  induction path, q using acyclicFrom.induct b with
  | case1 path q ih =>
    rw [acyclicFrom_eq, acyclicFrom_eq, h, Bool.eq_iff_iff, List.all_eq_true, List.all_eq_true]
    refine forall₂_congr fun r hr => ?_
    split
    · rfl
    · next hnew => rw [ih ⟨r, hr⟩ hnew]

end Rulebook

/-! ## Parts -/

/-- The parts of an automaton: its initial state, its policy, and the rules and final states that
are inserted into it. -/
structure Parts (α : Type) where
  initial : State
  policy : Policy
  rules : List (Rule α)
  finals : List State

namespace Parts

variable {α : Type} {p p' : Parts α} {r : Rule α} {q : State}

/-- The states that parts name. -/
def named (p : Parts α) : List State :=
  p.initial :: p.rules.flatMap (fun r => [r.source, r.destination]) ++ p.finals

/-- The parts without rules and final states. -/
def bare (p : Parts α) : Parts α := { p with rules := [], finals := [] }

def withRule (p : Parts α) (r : Rule α) : Parts α := { p with rules := p.rules ++ [r] }

def withFinal (p : Parts α) (q : State) : Parts α := { p with finals := p.finals ++ [q] }

theorem mem_named : q ∈ p.named ↔
    q = p.initial ∨ (∃ r ∈ p.rules, q = r.source ∨ q = r.destination) ∨ q ∈ p.finals := by
  simp [named]

theorem mem_named_withRule :
    q ∈ (p.withRule r).named ↔ q ∈ p.named ∨ q = r.source ∨ q = r.destination := by
  simp only [mem_named, withRule, List.mem_append, List.mem_singleton]
  grind

theorem mem_named_withFinal {s : State} : q ∈ (p.withFinal s).named ↔ q ∈ p.named ∨ q = s := by
  simp only [mem_named, withFinal, List.mem_append, List.mem_singleton, or_assoc]

variable [Letter α]

/-- Whether parts fit together: the rules are distinct, no identity is named with two ancestors, and
under the refusing policy no two rules wait for one trigger. -/
structure Consistent (p : Parts α) : Prop where
  distinct : p.rules.Pairwise fun r s => ¬ r.same s
  oneAncestor : OneAncestorEach p.named
  deterministic : p.policy = .reject → (p.rules.map Rule.trigger).Nodup

/-- The new automaton that the rules and final states are inserted into. -/
def start (p : Parts α) : Automaton α := (Automaton.ofInitial p.initial).withPolicy p.policy

/-- Whether operations insert the rules and final states, in any order and with walks and requests
for nothing between them. -/
structure InsertedBy (p : Parts α) (ops : List (Operation α)) : Prop where
  keeps : ∀ op ∈ ops, op.keeps p.policy
  rules : (ops.filterMap Operation.rule?).Perm p.rules
  finals : (ops.filterMap Operation.final?).Perm p.finals

/-- The parts with what operations ask for. -/
def adding (p : Parts α) (ops : List (Operation α)) : Parts α :=
  { p with
    rules := p.rules ++ ops.filterMap Operation.rule?
    finals := p.finals ++ ops.filterMap Operation.final? }

theorem adding_nil (p : Parts α) : p.adding [] = p := by
  simp [adding]

theorem adding_cons (p : Parts α) (op : Operation α) (rest : List (Operation α)) :
    p.adding (op :: rest) = (p.adding [op]).adding rest := by
  rw [← List.singleton_append]
  simp only [adding, List.filterMap_append, List.append_assoc]

section

variable {op : Operation α}

theorem adding_of_rule (rule : op.rule? = some r) (final : op.final? = none) :
    p.adding [op] = p.withRule r := by
  simp [adding, withRule, rule, final]

theorem adding_of_final (rule : op.rule? = none) (final : op.final? = some q) :
    p.adding [op] = p.withFinal q := by
  simp [adding, withFinal, rule, final]

theorem adding_of_none (rule : op.rule? = none) (final : op.final? = none) :
    p.adding [op] = p := by
  simp [adding, rule, final]

end

theorem Consistent.of_subperm (h : p'.Consistent) (initial : p.initial = p'.initial)
    (policy : p.policy = p'.policy) (rules : p.rules.Subperm p'.rules)
    (finals : p.finals ⊆ p'.finals) : p.Consistent := by
  obtain ⟨l, hperm, hsub⟩ := rules
  refine ⟨?_, ?_, ?_⟩
  · exact Rulebook.distinct_of_perm hperm.symm (h.distinct.sublist hsub)
  · have hnamed : ∀ q ∈ p.named, q ∈ p'.named := by
      intro q hq
      rw [mem_named] at hq ⊢
      rw [← initial]
      rcases hq with hq | ⟨r, hr, hq⟩ | hq
      · exact .inl hq
      · exact .inr (.inl ⟨r, hsub.subset (hperm.mem_iff.2 hr), hq⟩)
      · exact .inr (.inr (finals hq))
    intro q hq s hs
    exact h.oneAncestor q (hnamed q hq) s (hnamed s hs)
  · intro hpolicy
    have htriggers := (hsub.map Rule.trigger).nodup (h.deterministic (policy ▸ hpolicy))
    exact (hperm.map Rule.trigger).nodup_iff.1 htriggers

end Parts

/-! ## What has been made -/

section

variable {α : Type} [Letter α]

/-- Whether an automaton has been made of parts: it has these and nothing else. -/
structure Made (p : Parts α) (b : Automaton α) : Prop where
  policy : b.policy = p.policy
  initial : b.initial = p.initial
  rules : b.rules.Perm p.rules
  knows : ∀ q, b.Knows q ↔ q ∈ p.named
  finals : ∀ id, b.isFinal id ↔ ∃ q ∈ p.finals, q.id = id
  symbols : ∀ x, b.containsSymbol x ↔ ∃ r ∈ p.rules, r.symbol = x

namespace Automaton

/-- Whether an automaton grants what an operation asks for: its rule, or its final state. -/
structure Grants (a : Automaton α) (op : Operation α) : Prop where
  rule : ∀ r, op.rule? = some r → ∃ n b, a.addRule r = .ok (n, b)
  final : ∀ q, op.final? = some q → ∃ new b, a.addFinal q = .ok (new, b)

/-- Whether each operation of a run is granted what it asks for. -/
def GrantsAll : Automaton α → List (Operation α) → Prop
  | _, [] => True
  | a, op :: rest => a.Grants op ∧ (a.apply op).GrantsAll rest

end Automaton

namespace Made

variable {p : Parts α} {b c : Automaton α} {r : Rule α} {q : State}

theorem start (p : Parts α) : Made p.bare p.start where
  policy := rfl
  initial := rfl
  rules := .nil
  knows := by
    intro q
    have hget : p.start.states.get? q.id =
        if q.id = p.initial.id then some p.initial.ancestor else none :=
      SortedMap.get?_insert .empty p.initial.id q.id p.initial.ancestor
    rw [Automaton.Knows, hget, Parts.mem_named]
    refine ⟨?_, ?_⟩
    · intro h
      split at h
      · next hid => exact .inl (State.ext hid (Option.some.inj h).symm)
      · exact absurd h (by simp)
    · rintro (rfl | ⟨_, hr, _⟩ | hq)
      · exact if_pos rfl
      · exact absurd hr List.not_mem_nil
      · exact absurd hq List.not_mem_nil
  finals := by
    intro id
    have hnone : ¬ p.start.isFinal id := SortedSet.not_mem_empty id
    simp [hnone, Parts.bare]
  symbols := by
    intro x
    have hnone : ¬ p.start.containsSymbol x := SortedSet.not_mem_empty x
    simp [hnone, Parts.bare]

theorem checkKnown (h : Made p b) (agrees : ∀ s ∈ p.named, s.id = q.id → s = q) :
    b.checkKnown q = .ok () := by
  rw [Automaton.checkKnown_eq_ok_iff]
  intro known hknown
  have hnamed : ⟨q.id, known⟩ ∈ p.named := (h.knows ⟨q.id, known⟩).1 hknown
  exact congrArg State.ancestor (agrees _ hnamed rfl)

theorem exists_addRule (h : Made p b) (consistent : (p.withRule r).Consistent) :
    ∃ n c, b.addRule r = .ok (n, c) := by
  have hknown {q : State} (hq : q = r.source ∨ q = r.destination) : b.checkKnown q = .ok () := by
    apply h.checkKnown
    intro s hs hid
    exact consistent.oneAncestor s (Parts.mem_named_withRule.2 (.inl hs)) q
      (Parts.mem_named_withRule.2 (.inr hq)) hid
  have hcheck : b.checkRule r = .ok () := by
    refine Automaton.checkRule_eq_ok_iff.2 ⟨hknown (.inl rfl), hknown (.inr rfl), ?_, ?_⟩
    · intro s hs
      obtain ⟨_, _, hacross⟩ := List.pairwise_append.1 consistent.distinct
      exact hacross s (h.rules.mem_iff.1 hs) r List.mem_cons_self
    · intro hpolicy s hs
      have htriggers := List.pairwise_map.1 (consistent.deterministic (h.policy ▸ hpolicy))
      obtain ⟨_, _, hacross⟩ := List.pairwise_append.1 htriggers
      exact hacross s (h.rules.mem_iff.1 hs) r List.mem_cons_self
  exact ⟨_, _, Automaton.addRule_eq_ok_iff.2 ⟨hcheck, rfl, rfl⟩⟩

theorem exists_addFinal (h : Made p b) (consistent : (p.withFinal q).Consistent) :
    ∃ new c, b.addFinal q = .ok (new, c) := by
  have hcheck : b.checkKnown q = .ok () := by
    apply h.checkKnown
    intro s hs hid
    exact consistent.oneAncestor s (Parts.mem_named_withFinal.2 (.inl hs)) q
      (Parts.mem_named_withFinal.2 (.inr rfl)) hid
  exact ⟨_, _, Automaton.addFinal_eq_ok_iff.2 ⟨hcheck, rfl, rfl⟩⟩

theorem addRule (h : Made p b) (consistent : (p.withRule r).Consistent) {n : Nat}
    (ok : b.addRule r = .ok (n, c)) : Made (p.withRule r) c := by
  have hgains := Automaton.gains_of_addRule ok
  obtain ⟨hsource, hdestination⟩ := Automaton.knows_of_addRule ok
  refine ⟨hgains.policy.trans h.policy, hgains.initial.trans h.initial, ?_, ?_, ?_, ?_⟩
  · rw [hgains.rules]
    exact h.rules.append_right [r]
  · intro q
    rw [Parts.mem_named_withRule, ← h.knows]
    refine ⟨?_, ?_⟩
    · obtain ⟨_, _, rfl⟩ := Automaton.addRule_eq_ok_iff.1 ok
      intro hq
      rcases Automaton.eq_or_of_get?_learn hq with hq | hq
      · exact (Automaton.eq_or_of_get?_learn hq).imp_right .inl
      · exact .inr (.inr hq)
    · rintro (hq | rfl | rfl)
      · exact hq.addRule ok
      · exact hsource
      · by_cases hid : r.source.id = r.destination.id
        · have hloop : r.source = r.destination :=
            consistent.oneAncestor _ (Parts.mem_named_withRule.2 (.inr (.inl rfl))) _
              (Parts.mem_named_withRule.2 (.inr (.inr rfl))) hid
          exact hloop ▸ hsource
        · exact hdestination hid
  · intro id
    rw [Automaton.isFinal, hgains.finals]
    exact h.finals id
  · intro x
    rw [hgains.symbols, h.symbols]
    simp only [Parts.withRule, List.mem_append, List.mem_singleton]
    grind

theorem addFinal (h : Made p b) {new : Bool} (ok : b.addFinal q = .ok (new, c)) :
    Made (p.withFinal q) c := by
  have hmarks := Automaton.marks_of_addFinal ok
  obtain ⟨hcheck, _, hc⟩ := Automaton.addFinal_eq_ok_iff.1 ok
  refine ⟨hmarks.policy.trans h.policy, hmarks.initial.trans h.initial, ?_, ?_, ?_, ?_⟩
  · rw [hmarks.rules]
    exact h.rules
  · intro s
    rw [Parts.mem_named_withFinal, ← h.knows]
    refine ⟨?_, ?_⟩
    · intro hs
      rw [hc] at hs
      exact Automaton.eq_or_of_get?_learn hs
    · rintro (hs | rfl)
      · exact hs.addFinal ok
      · rw [hc]
        exact Automaton.get?_learn_of_checkKnown hcheck
  · intro id
    rw [hmarks.finals, h.finals]
    simp only [Parts.withFinal, List.mem_append, List.mem_singleton]
    grind
  · intro x
    rw [Automaton.containsSymbol, hmarks.alphabet]
    exact h.symbols x

/-- An operation on what has been made of parts is granted what it asks for, where that fits
together with them, and adds it to them. -/
theorem apply (h : Made p b) {op : Operation α} (keeps : op.keeps p.policy)
    (consistent : (p.adding [op]).Consistent) :
    b.Grants op ∧ Made (p.adding [op]) (b.apply op) := by
  rcases Automaton.apply_cases (h.policy ▸ keeps) with
    ⟨r, hrule, hfinal, happly⟩ | ⟨q, hrule, hfinal, happly⟩ | ⟨hrule, hfinal, id, happly⟩
  · rw [Parts.adding_of_rule hrule hfinal] at consistent ⊢
    obtain ⟨n, c, ok⟩ := h.exists_addRule consistent
    rw [happly, ok]
    refine ⟨⟨?_, by simp [hfinal]⟩, h.addRule consistent ok⟩
    intro s hs
    obtain rfl := Option.some.inj (hrule.symm.trans hs)
    exact ⟨n, c, ok⟩
  · rw [Parts.adding_of_final hrule hfinal] at consistent ⊢
    obtain ⟨new, c, ok⟩ := h.exists_addFinal consistent
    rw [happly, ok]
    refine ⟨⟨by simp [hrule], ?_⟩, h.addFinal ok⟩
    intro s hs
    obtain rfl := Option.some.inj (hfinal.symm.trans hs)
    exact ⟨new, c, ok⟩
  · rw [Parts.adding_of_none hrule hfinal, happly]
    exact ⟨⟨by simp [hrule], by simp [hfinal]⟩,
      ⟨h.policy, h.initial, h.rules, h.knows, h.finals, h.symbols⟩⟩

theorem runAll (h : Made p b) {ops : List (Operation α)} (keeps : ∀ op ∈ ops, op.keeps p.policy)
    (consistent : (p.adding ops).Consistent) :
    b.GrantsAll ops ∧ Made (p.adding ops) (b.runAll ops) := by
  induction ops generalizing p b with
  | nil =>
    rw [Parts.adding_nil]
    exact ⟨trivial, h⟩
  | cons op rest ih =>
    rw [Parts.adding_cons] at consistent ⊢
    obtain ⟨hop, hrest⟩ := List.forall_mem_cons.1 keeps
    -- what has been asked for by now fits together, since all that is asked for does
    have hfirst : (p.adding [op]).Consistent := consistent.of_subperm rfl rfl
      (List.sublist_append_left _ _).subperm (List.subset_append_left _ _)
    obtain ⟨hgrants, hmade⟩ := h.apply hop hfirst
    obtain ⟨hall, hend⟩ := ih hmade hrest consistent
    exact ⟨⟨hgrants, hall⟩, hend⟩

end Made

/-- Parts that fit together are inserted in any order without a refusal, and are what the automaton
has been made of in the end. -/
theorem made_of_insertedBy {p : Parts α} {ops : List (Operation α)} (consistent : p.Consistent)
    (h : p.InsertedBy ops) : p.start.GrantsAll ops ∧ Made p (p.start.runAll ops) := by
  have hconsistent : (p.bare.adding ops).Consistent :=
    consistent.of_subperm rfl rfl h.rules.subperm h.finals.subset
  obtain ⟨hall, hmade⟩ := (Made.start p).runAll h.keeps hconsistent
  have hrules {r : Rule α} : r ∈ (p.bare.adding ops).rules ↔ r ∈ p.rules := h.rules.mem_iff
  have hfinals {q : State} : q ∈ (p.bare.adding ops).finals ↔ q ∈ p.finals := h.finals.mem_iff
  refine ⟨hall, hmade.policy, hmade.initial, hmade.rules.trans h.rules, ?_, ?_, ?_⟩
  · intro q
    rw [hmade.knows, Parts.mem_named, Parts.mem_named]
    simp only [hrules, hfinals]
    rfl
  · intro id
    rw [hmade.finals]
    simp only [hfinals]
  · intro x
    rw [hmade.symbols]
    simp only [hrules]

end

/-! ## Automata made of the same parts -/

namespace Automaton

variable {α : Type} [Letter α] {a b : Automaton α}

/-- Whether two automata are alike in all but the order of their rules and their cursor. -/
structure Alike (a b : Automaton α) : Prop where
  policy : b.policy = a.policy
  initial : b.initial = a.initial
  states : b.states = a.states
  finals : b.finals = a.finals
  alphabet : b.alphabet = a.alphabet
  rules : b.rules.Perm a.rules
  lookups : ∀ q x, b.ruleFor? q x = a.ruleFor? q x
  transitions : ∀ q, b.transitionsFrom q = a.transitionsFrom q
  deterministic : b.isDeterministic = a.isDeterministic
  recognized : ∀ w, (b.recognize w).1 = (a.recognize w).1
  traced : ∀ w, (b.trace w).1 = (a.trace w).1
  words : b.words = a.words

theorem wordsFrom_congr (transitions : ∀ q, b.transitionsFrom q = a.transitionsFrom q)
    (finals : b.finals = a.finals) (path : List StateId) (q : StateId) :
    b.wordsFrom path q = a.wordsFrom path q := by
  induction path, q using wordsFrom.induct a with
  | case1 path q ih =>
    rw [wordsFrom_eq, wordsFrom_eq, transitions, isFinal, isFinal, finals]
    congr 1
    apply List.flatMap_congr
    intro r hr
    split
    · rfl
    · next hnew => rw [ih ⟨r, hr⟩ hnew]

theorem Alike.language {a b : Automaton Char} (h : a.Alike b) : b.language = a.language := by
  rw [Automaton.language, Automaton.language, h.words]

/-- What has been made of parts that fit together is told by them. -/
theorem alike_of_made {p : Parts α} (consistent : p.Consistent) (ha : Made p a) (hb : Made p b) :
    a.Alike b := by
  have hrules : b.rules.Perm a.rules := hb.rules.trans ha.rules.symm
  have hdistinct := Rulebook.distinct_of_perm ha.rules consistent.distinct
  have hinitial : b.initial = a.initial := hb.initial.trans ha.initial.symm
  have hstates : b.states = a.states := by
    apply SortedMap.ext_get?
    intro id
    apply Option.ext
    intro known
    exact (hb.knows ⟨id, known⟩).trans (ha.knows ⟨id, known⟩).symm
  have hfinals : b.finals = a.finals :=
    SortedSet.ext_mem fun id => (hb.finals id).trans (ha.finals id).symm
  have halphabet : b.alphabet = a.alphabet :=
    SortedSet.ext_mem fun x => (hb.symbols x).trans (ha.symbols x).symm
  have hlookups (q : StateId) (x : α) : b.ruleFor? q x = a.ruleFor? q x :=
    Rulebook.first?_of_perm hrules hdistinct ⟨q, x⟩
  have htransitions (q : StateId) : b.transitionsFrom q = a.transitionsFrom q :=
    Rulebook.leaving_of_perm hrules hdistinct q
  have hknown {c : Automaton α} (hc : Made p c) : c.SymbolsKnown := fun r hr =>
    (hc.symbols r.symbol).2 ⟨r, hc.rules.mem_iff.1 hr, rfl⟩
  have hwalks := walks_congr (hknown ha) (hknown hb) hlookups hinitial hfinals
  have hwords : b.words = a.words := by
    rw [words, words, hinitial, Rulebook.acyclicFrom_congr htransitions,
      wordsFrom_congr htransitions hfinals]
  exact ⟨hb.policy.trans ha.policy.symm, hinitial, hstates, hfinals, halphabet, hrules, hlookups,
    htransitions, Rulebook.isDeterministic_of_perm hrules, fun w => (hwalks w).1,
    fun w => (hwalks w).2, hwords⟩

/-- Rules and final states that fit together are inserted into a new automaton in two orders, each
with walks and moves of the cursor anywhere between them. Nothing is refused in either, and the two
automata are alike in all but the order of their rules; those of characters list the same
language. -/
theorem insertion_order_irrelevant :
    (∀ {α : Type} [Letter α] {p : Parts α} {ops ops' : List (Operation α)}, p.Consistent →
      p.InsertedBy ops → p.InsertedBy ops' →
      p.start.GrantsAll ops ∧ p.start.GrantsAll ops' ∧
        (p.start.runAll ops).Alike (p.start.runAll ops')) ∧
    (∀ {p : Parts Char} {ops ops' : List (Operation Char)}, p.Consistent →
      p.InsertedBy ops → p.InsertedBy ops' →
      (p.start.runAll ops').language = (p.start.runAll ops).language) := by
  refine ⟨?_, ?_⟩
  · intro α _ p ops ops' consistent hops hops'
    obtain ⟨hall, hmade⟩ := made_of_insertedBy consistent hops
    obtain ⟨hall', hmade'⟩ := made_of_insertedBy consistent hops'
    exact ⟨hall, hall', alike_of_made consistent hmade hmade'⟩
  · intro p ops ops' consistent hops hops'
    obtain ⟨_, hmade⟩ := made_of_insertedBy consistent hops
    obtain ⟨_, hmade'⟩ := made_of_insertedBy consistent hops'
    exact (alike_of_made consistent hmade hmade').language

/-- Two rules on one symbol come in two orders, among others, with walks between them and a final
state that is made final twice. The rules are listed in two orders, and the same one is taken. -/
theorem insertion_order_irrelevant_of_two_orders :
    let nine : State := ⟨⟨9⟩, some ⟨0⟩⟩
    let ten : State := ⟨⟨10⟩, some ⟨0⟩⟩
    let last : State := ⟨⟨1⟩, some ⟨10⟩⟩
    let p : Parts Char := {
      initial := ⟨⟨0⟩, none⟩
      policy := .allow
      rules := [⟨⟨⟨0⟩, none⟩, 'a', nine⟩, ⟨⟨⟨0⟩, none⟩, 'a', ten⟩, ⟨ten, 'b', last⟩]
      finals := [last, nine, last] }
    let ops : List (Operation Char) := [.addRule ⟨⟨⟨0⟩, none⟩, 'a', nine⟩, .step 'a',
      .addFinal last, .addRule ⟨⟨⟨0⟩, none⟩, 'a', ten⟩, .recognize ['a'], .addFinal nine,
      .addRule ⟨ten, 'b', last⟩, .restart, .addFinal last]
    let ops' : List (Operation Char) := [.addFinal last, .addRuleText ten "b" last, .addFinal nine,
      .addRule ⟨⟨⟨0⟩, none⟩, 'a', ten⟩, .trace ['a', 'b'], .addFinal last,
      .addRule ⟨⟨⟨0⟩, none⟩, 'a', nine⟩, .step 'a']
    p.Consistent ∧ p.InsertedBy ops ∧ p.InsertedBy ops' ∧ p.start.GrantsAll ops ∧
      p.start.GrantsAll ops' ∧ (p.start.runAll ops).Alike (p.start.runAll ops') ∧
      (p.start.runAll ops').language = (p.start.runAll ops).language ∧
      (p.start.runAll ops').rules ≠ (p.start.runAll ops).rules ∧
      (p.start.runAll ops).ruleFor? ⟨0⟩ 'a' = some ⟨⟨⟨0⟩, none⟩, 'a', ten⟩ := by
  intro nine ten last p ops ops'
  have consistent : p.Consistent := ⟨by decide, by decide, fun h => absurd h (by decide)⟩
  have hops : p.InsertedBy ops := by
    refine ⟨?_, by decide, by decide⟩
    simp only [ops, List.forall_mem_cons]
    decide
  have hops' : p.InsertedBy ops' := by
    refine ⟨?_, by decide, by decide⟩
    simp only [ops', List.forall_mem_cons]
    decide
  obtain ⟨hany, hchar⟩ := insertion_order_irrelevant
  obtain ⟨hall, hall', halike⟩ := hany consistent hops hops'
  exact ⟨consistent, hops, hops', hall, hall', halike, hchar consistent hops hops', by decide,
    by decide⟩

end Automaton

end Acceptor
