import Acceptor.Proofs.Check
import Acceptor.Proofs.Refusal
import Mathlib.Data.List.Nodup

/-!
  Acceptor.Proofs.Verdict — what admission decides, read off the rules

  Admission asks one question after another, two of the state set and two of the index, and stops
  at the first that speaks against a rule. The reasons can be said of the state set, the rules and
  the policy alone, each one where those before it do not hold; then a rule is refused for exactly
  these reasons. A rule that nothing speaks against is admitted, and what it adds is all that
  changes.

  Main statements:
    1. `Rulebook.first?_eq_some_iff` — the rule that is looked up is the one of least text.
    2. `Automaton.checkRule_of_refuses` and `Automaton.refuses_or_admits` — each reason leads to its
       refusal, and where there is none the rule is admitted.
    3. `Automaton.addRule_eq_ok_iff_gains` and `Automaton.addFinal_eq_ok_iff_marks` — what is
       changed, and nothing else.
    4. `Automaton.admission_exact` — all of it.
-/

namespace Acceptor

/-! ## The rule of least text -/

namespace Rulebook

variable {α : Type} [Letter α]

/-- Whether a rule waits for a trigger and no other rule that does has a lesser text. -/
structure Least (b : Rulebook α) (t : Trigger α) (r : Rule α) : Prop where
  mem : r ∈ b.rules
  trigger : r.trigger = t
  least : ∀ s ∈ b.rules, s.trigger = t → ¬ s.text < r.text

theorem least_of_first? {b : Rulebook α} {t : Trigger α} {r : Rule α} (h : b.first? t = some r) :
    b.Least t r := by
  obtain ⟨hmem, htrigger⟩ := mem_of_first? h
  exact ⟨hmem, htrigger, fun s hs ht => first?_text_le h hs ht⟩

theorem Least.eq {b : Rulebook α} {t : Trigger α} {r s : Rule α}
    (distinct : b.rules.Pairwise fun r s => ¬ r.same s) (hr : b.Least t r) (hs : b.Least t s) :
    r = s := by
  have htext : r.text = s.text := by
    rcases Ordered.trichotomous r.text s.text with hlt | heq | hlt
    · exact absurd hlt (hs.least r hr.mem hr.trigger)
    · exact heq
    · exact absurd hlt (hr.least s hs.mem hs.trigger)
  exact List.inj_on_of_nodup_map (nodup_texts_iff.2 distinct) hr.mem hs.mem htext

theorem first?_eq_some_iff {b : Rulebook α} {t : Trigger α} {r : Rule α}
    (distinct : b.rules.Pairwise fun r s => ¬ r.same s) : b.first? t = some r ↔ b.Least t r := by
  refine ⟨least_of_first?, ?_⟩
  intro hr
  have hsome : (b.first? t).isSome := first?_isSome_iff.2 ⟨r, hr.mem, hr.trigger⟩
  obtain ⟨s, hs⟩ := Option.isSome_iff_exists.1 hsome
  rw [hs, (least_of_first? hs).eq distinct hr]

/-- The one of two rules that is looked up: the first where its text is less, else the second. -/
def lesser : Option (Rule α) → Rule α → Rule α
  | some s, r => if s.text < r.text then s else r
  | none, r => r

theorem head?_insert (c : Candidate α) (slot : List (Candidate α)) :
    (c.insert slot).head?.map Candidate.rule =
      some (lesser (slot.head?.map Candidate.rule) c.rule) := by
  cases slot with
  | nil => rfl
  | cons d rest =>
    show (if d.rule.text < c.rule.text then _ else _ : List (Candidate α)).head?.map _ =
      some (if d.rule.text < c.rule.text then d.rule else c.rule)
    split <;> rfl

/-- What is looked up once a rule has come: for its trigger the lesser of it and the one before. -/
theorem first?_push (b : Rulebook α) (r : Rule α) (t : Trigger α) :
    (b.push r).first? t =
      if t = r.trigger then some (lesser (b.first? t) r) else b.first? t := by
  have hslot : (b.push r).candidates t = if t = r.trigger then
      Candidate.insert ⟨b.rules.length, r⟩ (b.candidates t) else b.candidates t :=
    RuleIndex.slot_file b.index ⟨b.rules.length, r⟩ t
  rw [first?, hslot]
  split
  · exact head?_insert ⟨b.rules.length, r⟩ (b.candidates t)
  · rfl

end Rulebook

namespace Automaton

variable {α : Type} [Letter α] {a b c : Automaton α} {r : Rule α} {q : State} {e : Refusal α}

/-! ## Why a rule is refused -/

/-- Whether the state set knows the identity of a state with another ancestor than the state has. -/
def Conflicts (a : Automaton α) (q : State) (known : Option StateId) : Prop :=
  a.states.get? q.id = some known ∧ known ≠ q.ancestor

/-- Whether the state set has nothing against either end of a rule. -/
structure Agrees (a : Automaton α) (r : Rule α) : Prop where
  source : ∀ known, ¬ a.Conflicts r.source known
  destination : ∀ known, ¬ a.Conflicts r.destination known

/-- The reasons to refuse a rule, each where the ones before it do not hold, with the refusal that
it leads to. -/
inductive Refuses (a : Automaton α) (r : Rule α) : Refusal α → Prop where
  | source {known : Option StateId} (conflict : a.Conflicts r.source known) :
    Refuses a r (.stateConflict r.source.id known r.source.ancestor)
  | destination {known : Option StateId} (source : ∀ known, ¬ a.Conflicts r.source known)
    (conflict : a.Conflicts r.destination known) :
    Refuses a r (.stateConflict r.destination.id known r.destination.ancestor)
  | duplicate {s : Rule α} (agrees : a.Agrees r) (mem : s ∈ a.rules) (same : s.same r) :
    Refuses a r (.duplicate r)
  | nondeterministic {s : Rule α} (agrees : a.Agrees r) (new : ∀ s ∈ a.rules, ¬ s.same r)
    (policy : a.policy = .reject) (least : a.book.Least r.trigger s) :
    Refuses a r (.nondeterministic r s)

theorem checkKnown_eq_error_iff : a.checkKnown q = .error e ↔
    ∃ known, a.Conflicts q known ∧ e = .stateConflict q.id known q.ancestor := by
  refine ⟨?_, ?_⟩
  · intro h
    obtain ⟨known, hget, hne, he⟩ := exists_of_checkKnown_eq_error h
    exact ⟨known, ⟨hget, hne⟩, he⟩
  · rintro ⟨known, ⟨hget, hne⟩, rfl⟩
    exact checkKnown_of_conflict hget hne

theorem checkKnown_eq_ok_iff_forall :
    a.checkKnown q = .ok () ↔ ∀ known, ¬ a.Conflicts q known := by
  rw [checkKnown_eq_ok_iff]
  refine forall_congr' fun known => ?_
  rw [Conflicts, not_and, not_not]

theorem not_conflicts_of_knows (h : a.Knows q) (known : Option StateId) :
    ¬ a.Conflicts q known :=
  checkKnown_eq_ok_iff_forall.1 (checkKnown_of_knows h) known

theorem not_conflicts_of_new (h : ¬ a.containsState q.id) (known : Option StateId) :
    ¬ a.Conflicts q known := by
  intro ⟨hget, _⟩
  apply h
  rw [containsState, SortedMap.contains, hget]
  rfl

theorem checkRule_of_refuses (distinct : a.rules.Pairwise fun r s => ¬ r.same s)
    (h : a.Refuses r e) : a.checkRule r = .error e := by
  rw [checkRule_eq]
  cases h with
  | source conflict =>
    rw [checkKnown_of_conflict conflict.1 conflict.2]
    rfl
  | destination source conflict =>
    rw [checkKnown_eq_ok_iff_forall.2 source, checkKnown_of_conflict conflict.1 conflict.2]
    rfl
  | duplicate agrees mem same =>
    have hdup : a.rules.any (·.same r) = true := List.any_eq_true.2 ⟨_, mem, same⟩
    rw [checkKnown_eq_ok_iff_forall.2 agrees.source,
      checkKnown_eq_ok_iff_forall.2 agrees.destination, hdup]
    rfl
  | nondeterministic agrees new policy least =>
    have hnew : a.rules.any (·.same r) = false := List.any_eq_false.2 new
    have hfirst : a.ruleFor? r.source.id r.symbol = some _ :=
      (Rulebook.first?_eq_some_iff distinct).2 least
    rw [checkKnown_eq_ok_iff_forall.2 agrees.source,
      checkKnown_eq_ok_iff_forall.2 agrees.destination, hnew, policy, hfirst]
    rfl

/-- A rule is refused for one of the reasons, or it is admitted. -/
theorem refuses_or_admits (a : Automaton α) (r : Rule α) :
    (∃ e, a.Refuses r e) ∨ a.checkRule r = .ok () := by
  by_cases hsource : ∃ known, a.Conflicts r.source known
  · obtain ⟨known, conflict⟩ := hsource
    exact .inl ⟨_, .source conflict⟩
  rw [not_exists] at hsource
  by_cases hdestination : ∃ known, a.Conflicts r.destination known
  · obtain ⟨known, conflict⟩ := hdestination
    exact .inl ⟨_, .destination hsource conflict⟩
  rw [not_exists] at hdestination
  have agrees : a.Agrees r := ⟨hsource, hdestination⟩
  by_cases hdup : ∃ s ∈ a.rules, s.same r
  · obtain ⟨s, mem, same⟩ := hdup
    exact .inl ⟨_, .duplicate agrees mem same⟩
  have hnew : ∀ s ∈ a.rules, ¬ s.same r := fun s hs hsame => hdup ⟨s, hs, hsame⟩
  by_cases hblocked : a.policy = .reject ∧ ∃ s, a.book.Least r.trigger s
  · obtain ⟨hpolicy, s, least⟩ := hblocked
    exact .inl ⟨_, .nondeterministic agrees hnew hpolicy least⟩
  refine .inr (checkRule_eq_ok_iff.2 ⟨checkKnown_eq_ok_iff_forall.2 hsource,
    checkKnown_eq_ok_iff_forall.2 hdestination, hnew, ?_⟩)
  intro hpolicy
  refine Rulebook.first?_eq_none_iff.1 (Option.eq_none_iff_forall_ne_some.2 ?_)
  intro s hs
  exact hblocked ⟨hpolicy, s, Rulebook.least_of_first? hs⟩

theorem addRule_eq_error_iff_refuses (distinct : a.rules.Pairwise fun r s => ¬ r.same s) :
    a.addRule r = .error e ↔ a.Refuses r e := by
  rw [addRule_eq_error_iff]
  refine ⟨?_, checkRule_of_refuses distinct⟩
  intro herror
  rcases refuses_or_admits a r with ⟨e', hrefuses⟩ | hok
  · have herror' := checkRule_of_refuses distinct hrefuses
    rw [herror] at herror'
    rw [Except.error.inj herror']
    exact hrefuses
  · rw [herror] at hok
    exact absurd hok (by simp)

theorem checkRule_eq_ok_iff_forall (distinct : a.rules.Pairwise fun r s => ¬ r.same s) :
    a.checkRule r = .ok () ↔ ∀ e, ¬ a.Refuses r e := by
  refine ⟨?_, ?_⟩
  · intro hok e hrefuses
    rw [checkRule_of_refuses distinct hrefuses] at hok
    exact absurd hok (by simp)
  · intro hnone
    exact (refuses_or_admits a r).resolve_left fun ⟨e, hrefuses⟩ => hnone e hrefuses

/-! ## What is changed -/

/-- What a rule that is admitted makes of an automaton. -/
structure Gains (a : Automaton α) (r : Rule α) (b : Automaton α) : Prop where
  policy : b.policy = a.policy
  initial : b.initial = a.initial
  finals : b.finals = a.finals
  current : b.current = a.current
  rules : b.rules = a.rules ++ [r]
  /-- The ends of the rule are learnt where they are missing, its source first. -/
  states : ∀ p, b.states.get? p = (a.states.get? p).or
    (if p = r.source.id then some r.source.ancestor
      else if p = r.destination.id then some r.destination.ancestor else none)
  symbols : ∀ x, b.containsSymbol x ↔ x = r.symbol ∨ a.containsSymbol x
  lookups : ∀ p x, b.ruleFor? p x =
    if p = r.source.id ∧ x = r.symbol then some (Rulebook.lesser (a.ruleFor? p x) r)
    else a.ruleFor? p x

/-- What a state that is made final makes of an automaton. -/
structure Marks (a : Automaton α) (q : State) (b : Automaton α) : Prop where
  policy : b.policy = a.policy
  initial : b.initial = a.initial
  alphabet : b.alphabet = a.alphabet
  current : b.current = a.current
  rules : b.rules = a.rules
  /-- The state is learnt where it is missing. -/
  states : ∀ p, b.states.get? p =
    (a.states.get? p).or (if p = q.id then some q.ancestor else none)
  finals : ∀ p, b.isFinal p ↔ p = q.id ∨ a.isFinal p

theorem get?_learn (states : SortedMap StateId (Option StateId)) (q : State) (p : StateId) :
    (learn states q).get? p =
      (states.get? p).or (if p = q.id then some q.ancestor else none) := by
  rw [learn, SortedMap.get?_insertNew]
  split
  · next h =>
    rw [h]
    cases states.get? q.id <;> rfl
  · rw [Option.or_none]

theorem eq_of_parts (policy : b.policy = c.policy) (states : b.states = c.states)
    (initial : b.initial = c.initial) (finals : b.finals = c.finals)
    (alphabet : b.alphabet = c.alphabet) (rules : b.rules = c.rules)
    (current : b.current = c.current) : b = c := by
  have hbook : b.book = c.book := Rulebook.ext_rules rules
  cases b
  cases c
  subst policy states initial finals alphabet hbook current
  rfl

theorem gains_of_addRule {n : Nat} (ok : a.addRule r = .ok (n, b)) : a.Gains r b := by
  obtain ⟨_, _, rfl⟩ := addRule_eq_ok_iff.1 ok
  refine ⟨rfl, rfl, rfl, rfl, rfl, ?_, fun x => SortedSet.mem_insert, ?_⟩
  · intro p
    show (learn (learn a.states r.source) r.destination).get? p = _
    rw [get?_learn, get?_learn, Option.or_assoc]
    split <;> rfl
  · intro p x
    have hpush := Rulebook.first?_push a.book r ⟨p, x⟩
    simp only [Rule.trigger, Trigger.mk.injEq] at hpush
    exact hpush

theorem Gains.eq (hb : a.Gains r b) (hc : a.Gains r c) : b = c := by
  apply eq_of_parts
  · exact hb.policy.trans hc.policy.symm
  · exact SortedMap.ext_get? fun p => (hb.states p).trans (hc.states p).symm
  · exact hb.initial.trans hc.initial.symm
  · exact hb.finals.trans hc.finals.symm
  · exact SortedSet.ext_mem fun x => (hb.symbols x).trans (hc.symbols x).symm
  · exact hb.rules.trans hc.rules.symm
  · exact hb.current.trans hc.current.symm

theorem marks_of_addFinal {new : Bool} (ok : a.addFinal q = .ok (new, b)) : a.Marks q b := by
  obtain ⟨_, _, rfl⟩ := addFinal_eq_ok_iff.1 ok
  exact ⟨rfl, rfl, rfl, rfl, rfl, get?_learn a.states q, fun p => isFinal_insert⟩

theorem Marks.eq (hb : a.Marks q b) (hc : a.Marks q c) : b = c := by
  apply eq_of_parts
  · exact hb.policy.trans hc.policy.symm
  · exact SortedMap.ext_get? fun p => (hb.states p).trans (hc.states p).symm
  · exact hb.initial.trans hc.initial.symm
  · exact SortedSet.ext_mem fun p => (hb.finals p).trans (hc.finals p).symm
  · exact hb.alphabet.trans hc.alphabet.symm
  · exact hb.rules.trans hc.rules.symm
  · exact hb.current.trans hc.current.symm

theorem addRule_eq_ok_iff_gains (distinct : a.rules.Pairwise fun r s => ¬ r.same s) {n : Nat} :
    a.addRule r = .ok (n, b) ↔ (∀ e, ¬ a.Refuses r e) ∧ n = a.rules.length ∧ a.Gains r b := by
  refine ⟨?_, ?_⟩
  · intro ok
    obtain ⟨hcheck, hn, _⟩ := addRule_eq_ok_iff.1 ok
    exact ⟨(checkRule_eq_ok_iff_forall distinct).1 hcheck, hn, gains_of_addRule ok⟩
  · rintro ⟨hnone, rfl, hgains⟩
    have hcheck := (checkRule_eq_ok_iff_forall distinct).2 hnone
    have ok := addRule_eq_ok_iff.2 ⟨hcheck, rfl, rfl⟩
    rw [ok, (gains_of_addRule ok).eq hgains]

theorem addFinal_eq_ok_iff_marks {new : Bool} :
    a.addFinal q = .ok (new, b) ↔
      (∀ known, ¬ a.Conflicts q known) ∧ new = !a.isFinal q.id ∧ a.Marks q b := by
  refine ⟨?_, ?_⟩
  · intro ok
    obtain ⟨hcheck, hnew, _⟩ := addFinal_eq_ok_iff.1 ok
    exact ⟨checkKnown_eq_ok_iff_forall.1 hcheck, hnew, marks_of_addFinal ok⟩
  · rintro ⟨hnone, rfl, hmarks⟩
    have hcheck := checkKnown_eq_ok_iff_forall.2 hnone
    have ok := addFinal_eq_ok_iff.2 ⟨hcheck, rfl, rfl⟩
    rw [ok, (marks_of_addFinal ok).eq hmarks]

/-! ## Symbols given as texts -/

theorem addRuleText_eq_error {w : Automaton Char} {source destination : State} {payload : String}
    (h : ∀ c, payload.toList ≠ [c]) : w.addRuleText source payload destination =
      .error (.invalidSymbol (if payload = "" then .empty else .tooLong payload)) := by
  have hparse : Payload.parse payload =
      .error (if payload = "" then .empty else .tooLong payload) := by
    unfold Payload.parse
    split
    · next hnil => rw [if_pos (String.toList_eq_nil_iff.1 hnil)]
    · next c hone => exact absurd hone (h c)
    · next hmany =>
      rw [if_neg]
      rintro rfl
      exact absurd hmany (by simp)
  rw [addRuleText, hparse]

theorem addRuleText_of_toList {w : Automaton Char} {source destination : State} {payload : String}
    {c : Char} (h : payload.toList = [c]) :
    w.addRuleText source payload destination = w.addRule ⟨source, c, destination⟩ := by
  rw [addRuleText, Payload.parse_eq_ok_iff.2 h]

/-! ## Admission -/

/-- A rule is refused for exactly the reasons that there are, of which the first counts: the state
set knows one of its ends with another ancestor, the rule is there, or under the refusing policy
another one waits for its trigger, of which the one of least text is named. Otherwise it is admitted
under the next number, and all that is changed is what it adds. A final state is refused for its
ancestor alone. What is refused changes nothing. A rule of a word automaton whose symbol is given
as a text is that rule where the text is one character, and is refused for the text where it is
not. -/
theorem admission_exact {a : Automaton α} (reachable : Reachable a) (r : Rule α) (q : State) :
    (∀ e, a.addRule r = .error e ↔ a.Refuses r e) ∧
    (∀ n b, a.addRule r = .ok (n, b) ↔
      (∀ e, ¬ a.Refuses r e) ∧ n = a.rules.length ∧ a.Gains r b) ∧
    (∀ e, a.addFinal q = .error e ↔
      ∃ known, a.Conflicts q known ∧ e = .stateConflict q.id known q.ancestor) ∧
    (∀ new b, a.addFinal q = .ok (new, b) ↔
      (∀ known, ¬ a.Conflicts q known) ∧ new = !a.isFinal q.id ∧ a.Marks q b) ∧
    (∀ e, a.addRule r = .error e → a.apply (.addRule r) = a) ∧
    (∀ e, a.addFinal q = .error e → a.apply (.addFinal q) = a) ∧
    (∀ (w : Automaton Char) (source : State) (payload : String) (destination : State),
      (∀ c, payload.toList = [c] →
        w.addRuleText source payload destination = w.addRule ⟨source, c, destination⟩) ∧
      ((∀ c, payload.toList ≠ [c]) → w.addRuleText source payload destination =
        .error (.invalidSymbol (if payload = "" then .empty else .tooLong payload)))) := by
  have distinct := reachable.wellFormed.distinct
  refine ⟨fun e => addRule_eq_error_iff_refuses distinct,
    fun n b => addRule_eq_ok_iff_gains distinct, ?_, fun new b => addFinal_eq_ok_iff_marks, ?_, ?_,
    fun w source payload destination => ⟨fun c => addRuleText_of_toList, addRuleText_eq_error⟩⟩
  · intro e
    rw [addFinal_eq_error_iff, checkKnown_eq_error_iff]
  · intro e herror
    show a.settle (a.addRule r) = a
    rw [herror]
    rfl
  · intro e herror
    show a.settle (a.addFinal q) = a
    rw [herror]
    rfl

/-- An automaton with two rules on one symbol and the refusing policy, to which rules come that are
refused for each of the reasons, and one that is admitted. -/
theorem admission_exact_of_each_reason :
    let known : Rule Char := ⟨⟨⟨0⟩, none⟩, 'a', ⟨⟨9⟩, some ⟨0⟩⟩⟩
    let first : Rule Char := ⟨⟨⟨0⟩, none⟩, 'a', ⟨⟨10⟩, some ⟨0⟩⟩⟩
    let foreign : Rule Char := ⟨⟨⟨7⟩, none⟩, 'b', ⟨⟨9⟩, none⟩⟩
    let third : Rule Char := ⟨⟨⟨0⟩, none⟩, 'a', ⟨⟨1⟩, none⟩⟩
    let fourth : Rule Char := ⟨⟨⟨9⟩, some ⟨0⟩⟩, 'b', ⟨⟨2⟩, some ⟨9⟩⟩⟩
    let nine : State := ⟨⟨9⟩, some ⟨0⟩⟩
    let a : Automaton Char := (ofInitial ⟨⟨0⟩, none⟩).runAll [.withPolicy .allow,
      .addRule known, .addRule first, .withPolicy .reject, .step 'a']
    Reachable a ∧ a.addRule foreign = .error (.stateConflict ⟨9⟩ (some ⟨0⟩) none) ∧
      a.addRule known = .error (.duplicate known) ∧
      a.addRule third = .error (.nondeterministic third first) ∧ a.apply (.addRule third) = a ∧
      (∃ b, a.addRule fourth = .ok (2, b) ∧ (∀ e, ¬ a.Refuses fourth e) ∧ a.Gains fourth b) ∧
      (∃ b, a.addFinal nine = .ok (true, b) ∧ a.Marks nine b) ∧
      a.addRuleText nine "bc" nine = .error (.invalidSymbol (.tooLong "bc")) := by
  intro known first foreign third fourth nine a
  have reachable : Reachable a := ⟨_, _, .fresh (.ofInitial _), rfl⟩
  have hexact := fun r => admission_exact reachable r nine
  -- the reasons, each by what there is in the automaton
  have hforeign : a.Refuses foreign (.stateConflict ⟨9⟩ (some ⟨0⟩) none) :=
    .destination (not_conflicts_of_new (by decide)) ⟨by decide, by decide⟩
  have hknown : a.Refuses known (.duplicate known) :=
    .duplicate (s := known) ⟨not_conflicts_of_knows (by decide), not_conflicts_of_knows (by decide)⟩
      (by decide) (by decide)
  have hthird : a.Refuses third (.nondeterministic third first) :=
    .nondeterministic ⟨not_conflicts_of_knows (by decide), not_conflicts_of_new (by decide)⟩
      (by decide) (by decide) ⟨by decide, by decide, by decide⟩
  have hrefused := ((hexact third).1 _).2 hthird
  have hcheck : a.checkRule fourth = .ok () := checkRule_eq_ok_iff.2
    ⟨checkKnown_eq_ok_iff_forall.2 (not_conflicts_of_knows (by decide)),
      checkKnown_eq_ok_iff_forall.2 (not_conflicts_of_new (by decide)), by decide,
      fun _ => by decide⟩
  obtain ⟨b, hb⟩ : ∃ b, a.addRule fourth = .ok (2, b) :=
    ⟨_, addRule_eq_ok_iff.2 ⟨hcheck, by decide, rfl⟩⟩
  obtain ⟨c, hc⟩ : ∃ c, a.addFinal nine = .ok (true, c) :=
    ⟨_, addFinal_eq_ok_iff.2 ⟨checkKnown_of_knows (by decide), by decide, rfl⟩⟩
  obtain ⟨_, hfourth, _, hmarks, _, _, htext⟩ := hexact fourth
  obtain ⟨hnone, _, hgains⟩ := (hfourth 2 b).1 hb
  exact ⟨reachable, ((hexact foreign).1 _).2 hforeign, ((hexact known).1 _).2 hknown, hrefused,
    (hexact third).2.2.2.2.1 _ hrefused, ⟨b, hb, hnone, hgains⟩,
    ⟨c, hc, ((hmarks true c).1 hc).2.2⟩, (htext a nine "bc" nine).2 (by simp)⟩

end Automaton

end Acceptor
