import Acceptor.Proofs.Extension
import Acceptor.Proofs.Report

/-!
  Acceptor.Proofs.Conservation — what growth leaves of an automaton that exists

  A builder adds a rule only where none is found, and only towards a state with an identity past
  all of the state set. So whatever the automaton was, what is added never meets what was there:
  no trigger gets a second rule, and a rule is refused for nothing but the state that it leaves.
  A sample that fails halfway leaves a part of its branch, which is no different from another, and
  may use up an identity, which is not issued again.

  Main statements:
    1. `Rulebook.waiting_push` — the rules of a trigger, when one more is there.
    2. `PrefixTree.Accruing.lasting` — growth adds to what is there, and changes none of it.
    3. `PrefixTree.exists_of_descendAll_eq_error` — where the way of a word down has failed.
    4. `PrefixTree.growth_conservative` — all of it, for any samples on any automaton.
-/

namespace Acceptor

/-! ## How many rules wait for a trigger -/

namespace Rulebook

variable {α : Type} [Letter α]

theorem waiting_push (b : Rulebook α) (r : Rule α) (t : Trigger α) :
    (b.push r).waiting t = b.waiting t + if r.trigger = t then 1 else 0 := by
  rw [waiting, rules_push, List.map_append, List.count_append, List.map_singleton,
    List.count_singleton, waiting]
  simp only [beq_iff_eq]

theorem waiting_eq_zero_iff {b : Rulebook α} {t : Trigger α} :
    b.waiting t = 0 ↔ b.first? t = none := by
  rw [waiting, List.count_eq_zero, first?_eq_none_iff, List.mem_map]
  grind

theorem isDeterministic_iff_waiting_le {b : Rulebook α} :
    b.isDeterministic ↔ ∀ t, b.waiting t ≤ 1 :=
  isDeterministic_iff.trans List.nodup_iff_count_le_one

end Rulebook

namespace PrefixTree

/-- The tree in the middle of a sample, after the letters of a word. -/
def midway (t : PrefixTree) (w : List Char) : PrefixTree :=
  (t.descendAll t.automaton.initial w).1

@[simp] theorem midway_nil (t : PrefixTree) : t.midway [] = t := rfl

/-! ## What is added -/

/-- A tree grown on an automaton by additions alone. -/
structure Accruing (a : Automaton Char) (t : PrefixTree) : Prop extends Growing a t where
  policy : t.automaton.policy = a.policy
  rules : a.rules <+: t.automaton.rules
  /-- A trigger has the rules that it had, or the first one. -/
  waiting : ∀ tr, t.automaton.book.waiting tr = a.book.waiting tr ∨
    a.book.waiting tr = 0 ∧ t.automaton.book.waiting tr = 1
  past : (lastId a).toNat < t.registry.issued
  /-- The identities that were added come after all that were there. -/
  later : ∀ q, t.automaton.containsState q → a.containsState q ∨ (lastId a).toNat < q.toNat

theorem containsState_lastId {a : Automaton Char} (h : a.WellFormed) :
    a.containsState (lastId a) := by
  rw [lastId]
  cases hlast : a.states.keys.getLast? with
  | none => exact h.containsState_initial
  | some last => exact SortedMap.mem_keys_iff.1 (List.mem_of_getLast? hlast)

namespace Accruing

variable {a : Automaton Char} {t : PrefixTree}

theorem start (h : a.WellFormed) (extended : extend a = .ok t) : Accruing a t := by
  have hgrowing := Growing.start h extended
  obtain ⟨rfl, hissued⟩ := extend_eq_ok extended
  exact ⟨hgrowing, rfl, List.prefix_rfl, fun _ => .inl rfl, by omega, fun _ hq => .inl hq⟩

theorem descend (h : Accruing a t) {q : State} (hq : t.automaton.containsState q.id) (c : Char) :
    Accruing a (t.descend q c).1 := by
  have hgrowing := h.toGrowing.descend hq c
  revert hgrowing
  apply descend_cases (P := fun p => Growing a p.1 → Accruing a p.1)
  case there => exact fun _ _ _ => h
  case exhausted => exact fun _ _ _ => h
  case refused =>
    intro next registry e _ hderive _ hgrowing
    obtain ⟨_, _, _, hissued⟩ := Registry.allocate_eq_ok_iff.1 hderive
    have hpast : (lastId a).toNat < registry.issued := by
      rw [hissued]
      exact Nat.lt_succ_of_lt h.past
    exact ⟨hgrowing, h.policy, h.rules, h.waiting, hpast, h.later⟩
  case grown =>
    intro next registry n automaton hfree hderive hadd hgrowing
    obtain ⟨_, hid, _, hissued⟩ := Registry.allocate_eq_ok_iff.1 hderive
    obtain ⟨_, _, rfl⟩ := Automaton.addRule_eq_ok_iff.1 hadd
    refine ⟨hgrowing, h.policy, h.rules.trans ?_, ?_, ?_, ?_⟩
    · show t.automaton.rules <+: (t.automaton.book.push ⟨q, c, next⟩).rules
      rw [Rulebook.rules_push]
      exact List.prefix_append _ _
    · intro tr
      have hnone : t.automaton.book.waiting (Rule.trigger ⟨q, c, next⟩) = 0 :=
        Rulebook.waiting_eq_zero_iff.2 hfree
      have hold := h.waiting tr
      show (t.automaton.book.push ⟨q, c, next⟩).waiting tr = _ ∨
        _ ∧ (t.automaton.book.push ⟨q, c, next⟩).waiting tr = 1
      rw [Rulebook.waiting_push]
      split
      · next htr =>
        -- the tree had no rule for the trigger, so the automaton had none
        rw [← htr] at hold ⊢
        omega
      · exact hold
    · show (lastId a).toNat < registry.issued
      have hpast := h.past
      omega
    · intro p hp
      rcases Automaton.contains_learn.1 hp with rfl | hp
      · exact .inr (hid ▸ h.past)
      · rcases Automaton.contains_learn.1 hp with rfl | hp
        · exact h.later _ hq
        · exact h.later p hp

theorem mark (h : Accruing a t) {q : State} (hq : t.automaton.containsState q.id) (n : Nat) :
    Accruing a { t with
      automaton := t.automaton.settle (t.automaton.addFinal q)
      samples := n } := by
  have hgrowing := h.toGrowing.mark hq n
  revert hgrowing
  apply Automaton.settle_induction (P := fun automaton =>
    Growing a { t with automaton, samples := n } → Accruing a { t with automaton, samples := n })
  · exact fun hgrowing => ⟨hgrowing, h.policy, h.rules, h.waiting, h.past, h.later⟩
  · intro new automaton hadd hgrowing
    obtain ⟨_, _, rfl⟩ := Automaton.addFinal_eq_ok_iff.1 hadd
    refine ⟨hgrowing, h.policy, h.rules, h.waiting, h.past, ?_⟩
    intro p hp
    rcases Automaton.contains_learn.1 hp with rfl | hp
    · exact h.later _ hq
    · exact h.later p hp

theorem lasting (a : Automaton Char) : Lasting (Accruing a) where
  descend h := h.descend
  mark h := h.mark

end Accruing

/-! ## What fails -/

/-- Where a word fails on its way down: at a letter, after those before it. -/
theorem exists_of_descendAll_eq_error {t : PrefixTree} {q : State} {w : List Char}
    {e : Registry.Error ⊕ Refusal Char} (fails : (t.descendAll q w).2 = .error e) :
    ∃ v c p, v ++ [c] <+: w ∧ (t.descendAll q v).2 = .ok p ∧
      (t.descendAll q v).1.descend p c = ((t.descendAll q w).1, .error e) := by
  induction w generalizing t q with
  | nil => exact absurd fails (by simp [descendAll])
  | cons c rest ih =>
    cases hstep : t.descend q c with
    | mk t' result =>
      cases result with
      | error e' =>
        have hall : t.descendAll q (c :: rest) = (t', .error e') := by rw [descendAll, hstep]
        rw [hall] at fails ⊢
        exact ⟨[], c, q, List.prefix_append [c] rest, rfl, by rw [← fails, ← hstep]; rfl⟩
      | ok next =>
        have hall (v : List Char) : t.descendAll q (c :: v) = t'.descendAll next v := by
          rw [descendAll, hstep]
        rw [hall] at fails ⊢
        obtain ⟨v, d, p, hprefix, hv, hfails⟩ := ih fails
        refine ⟨c :: v, d, p, ?_, ?_, ?_⟩
        · exact List.cons_prefix_cons.2 ⟨rfl, hprefix⟩
        · rw [hall, hv]
        · rw [hall, hfails]

/-- Why a sample may fail on an automaton, and what the tree is left as. -/
inductive Fails (a : Automaton Char) (t : PrefixTree) (s : String) : Error → Prop where
  /-- The counter has come to its end. -/
  | exhausted (full : t.registry.issued + 1 = UInt64.size) : Fails a t s (.registry .exhausted)
  /-- A word that begins the sample leads, in the automaton itself, to a state that the last rule
  on the way stores with another ancestor than the state set has. -/
  | conflict {w : List Char} {q : State} {known : Option StateId} (begins : w <+: s.toList)
      (leads : a.arrives? a.initial w = some q) (get? : a.states.get? q.id = some known)
      (ne : known ≠ q.ancestor) : Fails a t s (.rule s (.stateConflict q.id known q.ancestor))

namespace Growing

variable {a : Automaton Char} {t : PrefixTree}

/-- A letter fails where the counter is at its end, or for the state that it comes from. -/
theorem descend_eq_error (h : Growing a t) {t' : PrefixTree} {q : State} {c : Char}
    {e : Registry.Error ⊕ Refusal Char} (fails : t.descend q c = (t', .error e)) :
    (e = .inl .exhausted ∧ t'.registry.issued + 1 = UInt64.size) ∨
      ∃ cause, e = .inr cause ∧ t.automaton.checkKnown q = .error cause := by
  revert fails
  apply descend_cases (P := fun p => p = (t', .error e) →
    (e = .inl .exhausted ∧ t'.registry.issued + 1 = UInt64.size) ∨
      ∃ cause, e = .inr cause ∧ t.automaton.checkKnown q = .error cause)
  case there => exact fun _ _ fails => absurd (congrArg Prod.snd fails) (by simp)
  case exhausted =>
    intro cause hderive fails
    obtain ⟨rfl, hcause⟩ := Prod.mk.inj fails
    cases cause
    exact .inl ⟨(Except.error.inj hcause).symm, Registry.allocate_eq_error_iff.1 hderive⟩
  case refused =>
    intro next registry cause hfree hderive hadd fails
    have hnew := h.new_of_derive hderive
    refine .inr ⟨cause, (Except.error.inj (congrArg Prod.snd fails)).symm, ?_⟩
    exact Automaton.checkKnown_source_of_refused hfree hnew hadd
  case grown => exact fun _ _ _ _ _ _ _ fails => absurd (congrArg Prod.snd fails) (by simp)

/-- A state that a word has led to is refused where the automaton itself stores it otherwise than
it knows it. -/
theorem arrives?_of_conflict (h : Growing a t) (wellFormed : a.WellFormed) {w : List Char}
    {q : State} (leads : t.automaton.arrives? t.automaton.initial w = some q)
    {known : Option StateId} (hget : t.automaton.states.get? q.id = some known)
    (hne : known ≠ q.ancestor) :
    a.arrives? a.initial w = some q ∧ a.states.get? q.id = some known := by
  rcases h.beyond w q leads with hold | hknows
  · refine ⟨hold, ?_⟩
    have hin := wellFormed.containsState_arrives? wellFormed.containsState_initial hold
    obtain ⟨ancestor, hancestor⟩ := Option.isSome_iff_exists.1 hin
    rwa [← Option.some.inj (hget.symm.trans (h.kept.get?_states hancestor))] at hancestor
  · exact absurd (Option.some.inj (hget.symm.trans hknows)) hne

/-- A sample fails at the end of the counter, or for a state of the automaton that it comes to. -/
theorem fails_insert (h : Growing a t) (wellFormed : a.WellFormed) {s : String} {e : Error}
    (fails : (t.insert s).2 = .error e) : Fails a (t.insert s).1 s e := by
  revert fails
  apply insert_cases (P := fun p => p.2 = .error e → Fails a p.1 s e)
  case ended => exact fun _ _ _ fails => absurd fails (by simp)
  case failed =>
    intro t' cause hresult fails
    obtain rfl := Except.error.inj fails
    have hfails : (t.descendAll t.automaton.initial s.toList).2 = .error cause :=
      congrArg Prod.snd hresult
    obtain ⟨v, c, q, hprefix, hv, hletter⟩ := exists_of_descendAll_eq_error hfails
    have hbefore := (lasting a).descendAll h.wellFormed h h.wellFormed.containsState_initial v
    rw [hresult] at hletter
    rcases hbefore.descend_eq_error hletter with ⟨rfl, hfull⟩ | ⟨cause, rfl, hcheck⟩
    · exact .exhausted hfull
    · obtain ⟨known, hget, hne, rfl⟩ := Automaton.exists_of_checkKnown_eq_error hcheck
      have hinitial := (extends_descendAll t t.automaton.initial v).initial
      have hleads := arrives?_descendAll hv
      rw [congrArg (Automaton.arrives? _) hinitial.symm] at hleads
      obtain ⟨hold, hknown⟩ := hbefore.arrives?_of_conflict wellFormed hleads hget hne
      exact .conflict ((List.prefix_append v [c]).trans hprefix) hold hknown hne

end Growing

/-! ## All of it -/

/-- What growth on an automaton leaves as it was, and what it may add. -/
structure Conservative (a : Automaton Char) (t : PrefixTree) : Prop where
  /-- The counter is past every identity of the state set. -/
  ahead : ∀ q, t.automaton.containsState q → q.toNat < t.registry.issued
  /-- What is issued is new, and the counter goes on; at its end it fails before it comes back to
  what was there. -/
  issued : ∀ parent, match t.registry.derive parent with
    | .ok (next, registry) => ¬ t.automaton.containsState next.id ∧
        next.id.toNat = t.registry.issued ∧ registry.issued = t.registry.issued + 1
    | .error _ => t.registry.issued + 1 = UInt64.size
  /-- The states that were added come after all that were there. -/
  later : ∀ q, t.automaton.containsState q → a.containsState q ∨ (lastId a).toNat < q.toNat
  rules : a.rules <+: t.automaton.rules
  lookups : ∀ q x r, a.ruleFor? q x = some r → t.automaton.ruleFor? q x = some r
  /-- No trigger gets a second rule. -/
  waiting : ∀ tr, t.automaton.book.waiting tr = a.book.waiting tr ∨
    a.book.waiting tr = 0 ∧ t.automaton.book.waiting tr = 1
  accepts : ∀ w, (a.recognize w).1 → (t.automaton.recognize w).1
  check : a.checkInvariants = [] → t.automaton.checkInvariants = []

theorem Accruing.conservative {a : Automaton Char} {t : PrefixTree} (h : Accruing a t)
    (wellFormed : a.WellFormed) : Conservative a t := by
  refine ⟨h.ahead, ?issued, h.later, h.rules, h.kept.lookups, h.waiting, ?accepts, ?check⟩
  case issued =>
    intro parent
    cases hderive : t.registry.derive parent with
    | ok result =>
      obtain ⟨_, hid, _, hissued⟩ := Registry.allocate_eq_ok_iff.1 hderive
      exact ⟨h.new_of_derive hderive, hid, hissued⟩
    | error e => exact Registry.allocate_eq_error_iff.1 hderive
  case accepts => exact fun w hw => h.kept.recognize wellFormed.symbols h.wellFormed.symbols hw
  case check =>
    rw [wellFormed.checkInvariants_eq_nil_iff, h.wellFormed.checkInvariants_eq_nil_iff, h.policy]
    intro hold hreject
    have hdeterministic := Rulebook.isDeterministic_iff_waiting_le.1 (hold hreject)
    refine Rulebook.isDeterministic_iff_waiting_le.2 fun tr => ?_
    rcases h.waiting tr with heq | ⟨_, hone⟩
    · exact heq ▸ hdeterministic tr
    · exact Nat.le_of_eq hone

/-- Whatever the automaton was, growth adds to it and takes nothing back, between the letters of a
sample as between samples, and whether samples fail or not: the counter stays past every identity,
so what is issued is new; the rules come after those that were there, none where one was found;
what was found is found, what was accepted is accepted, and what passed the check passes it. A
sample that goes in leads to the state that is answered, and one that fails never does so for a
rule that is there or that is found. -/
theorem growth_conservative {a : Automaton Char} (reachable : a.Reachable)
    (room : ∀ q, a.containsState q → q.toNat + 1 < UInt64.size) :
    ∃ t, extend a = .ok t ∧ ∀ samples,
      (∀ w, Conservative a ((t.insertEach samples).midway w)) ∧
      (∀ s id, ((t.insertEach samples).insert s).2 = .ok id →
        ((t.insertEach samples).insert s).1.automaton.LeadsTo s.toList id) ∧
      (∀ s e, ((t.insertEach samples).insert s).2 = .error e →
        Fails a ((t.insertEach samples).insert s).1 s e) := by
  have hwell := reachable.wellFormed
  obtain ⟨t, extended⟩ := exists_extend (room _ (containsState_lastId hwell))
  have hstart := Accruing.start hwell extended
  refine ⟨t, extended, fun samples => ?_⟩
  have hgrown := (Accruing.lasting a).insertEach hstart.wellFormed hstart samples
  refine ⟨?_, fun s id ok => hgrown.toGrowing.leadsTo_insertEach ok [],
    fun s e fails => hgrown.toGrowing.fails_insert hwell fails⟩
  intro w
  have hinitial := hgrown.wellFormed.containsState_initial
  exact ((Accruing.lasting a).descendAll hgrown.wellFormed hgrown hinitial w).conservative hwell

/-- On an automaton with a cycle, two rules for one trigger and a loop that stores its state with
two ancestors, a sample fails and uses an identity up, and the next one goes in. On an automaton
with the last identity that has a successor, a sample fails for want of another. -/
theorem growth_conservative_after_failures :
    let a : Automaton Char := (Automaton.ofInitial ⟨⟨0⟩, none⟩).runAll [.withPolicy .allow,
      .addRule ⟨⟨⟨0⟩, none⟩, 'a', ⟨⟨1⟩, none⟩⟩, .addRule ⟨⟨⟨0⟩, none⟩, 'a', ⟨⟨2⟩, none⟩⟩,
      .addRule ⟨⟨⟨1⟩, none⟩, 'b', ⟨⟨0⟩, none⟩⟩, .addRule ⟨⟨⟨5⟩, none⟩, 'c', ⟨⟨5⟩, some ⟨0⟩⟩⟩,
      .addRule ⟨⟨⟨0⟩, none⟩, 'd', ⟨⟨5⟩, none⟩⟩]
    let b : Automaton Char := .ofInitial ⟨⟨18446744073709551614⟩, none⟩
    (a.isDeterministic = false ∧ a.follows? ⟨0⟩ ['a', 'b'] = some ⟨0⟩ ∧
      ∃ t, extend a = .ok t ∧
        (t.insert "dcx").2 = .error (.rule "dcx" (.stateConflict ⟨5⟩ none (some ⟨0⟩))) ∧
        Fails a (t.insert "dcx").1 "dcx" (.rule "dcx" (.stateConflict ⟨5⟩ none (some ⟨0⟩))) ∧
        ((t.insert "dcx").1.insert "xy").2 = .ok ⟨8⟩ ∧
        (t.insertEach ["dcx", "xy"]).automaton.LeadsTo "xy".toList ⟨8⟩ ∧
        Conservative a (t.insertEach ["dcx", "xy"])) ∧
    (∃ t, extend b = .ok t ∧ (t.insert "x").2 = .error (.registry .exhausted) ∧
      Fails b (t.insert "x").1 "x" (.registry .exhausted) ∧
      Conservative b (t.insertEach ["x"])) := by
  intro a b
  have ha : a.Reachable := ⟨_, _, .fresh (.ofInitial _), rfl⟩
  have hb : b.Reachable := ⟨b, [], .fresh (.ofInitial _), rfl⟩
  have rooma : ∀ q ∈ a.states.keys, q.toNat + 1 < UInt64.size := by decide
  have roomb : ∀ q ∈ b.states.keys, q.toNat + 1 < UInt64.size := by decide
  obtain ⟨t, ht, hgrown⟩ :=
    growth_conservative ha fun q hq => rooma q (SortedMap.mem_keys_iff.2 hq)
  obtain ⟨u, hu, hgrown'⟩ :=
    growth_conservative hb fun q hq => roomb q (SortedMap.mem_keys_iff.2 hq)
  obtain rfl : ⟨⟨6⟩, a, 0⟩ = t := Except.ok.inj ht
  obtain rfl : ⟨⟨18446744073709551615⟩, b, 0⟩ = u := Except.ok.inj hu
  have hafter := (hgrown ["dcx", "xy"]).1 []
  have hafter' := (hgrown' ["x"]).1 []
  rw [midway_nil] at hafter hafter'
  exact ⟨⟨rfl, rfl, _, ht, rfl, (hgrown []).2.2 "dcx" _ rfl, rfl,
    (hgrown ["dcx"]).2.1 "xy" ⟨8⟩ rfl, hafter⟩, _, hu, rfl, (hgrown' []).2.2 "x" _ rfl, hafter'⟩

end PrefixTree

end Acceptor
