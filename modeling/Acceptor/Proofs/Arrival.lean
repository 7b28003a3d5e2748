import Acceptor.Proofs.Aliasing
import Acceptor.Proofs.Walk

/-!
  Acceptor.Proofs.Arrival — where words lead, and what insertion leaves of it

  A word leads to a state, and the last rule on the way stores that state with an ancestor of its
  own. An automaton that has all that another one had still leads the words of that one where they
  led. A rule that is inserted where none was found, towards a state that is new, adds the way to
  that state and no other.

  Main statements:
    1. `Automaton.leadsTo_of_arrives?` — what a trace and an answer say of a word that leads to a
       state.
    2. `Automaton.Extends.arrives?` — where a word leads, it leads in what has been added to.
    3. `Automaton.arrives?_addRule` — what a rule to a new state adds.
    4. `Automaton.isFinal_settle_addFinal_iff` — when a state that is asked to be final is.
-/

namespace Acceptor.Automaton

variable {α : Type} [Letter α] {a b c : Automaton α}

/-! ## Where words lead -/

/-- The state that a word leads to, as the last rule on the way stores it. -/
def arrives? (a : Automaton α) (q : State) : List α → Option State
  | [] => some q
  | x :: rest =>
    match a.ruleFor? q.id x with
    | some r => a.arrives? r.destination rest
    | none => none

/-- Whether each state is known, or final, as it is stored where a word leads to it. -/
def Settled (a : Automaton α) : Prop :=
  ∀ w e, a.arrives? a.initial w = some e → a.Knows e ∨ a.isFinal e.id

/-- Whether a word leads to a state: its trace consumes it and ends there, and the word is
recognized exactly where that state is final. -/
structure LeadsTo (a : Automaton α) (w : List α) (q : StateId) : Prop where
  consumed : (a.trace w).1.consumed
  last : (a.trace w).1.lastState = q
  recognized : (a.recognize w).1 ↔ a.isFinal q

theorem arrives?_cons_iff {q e : State} {x : α} {rest : List α} :
    a.arrives? q (x :: rest) = some e ↔
      ∃ r, a.ruleFor? q.id x = some r ∧ a.arrives? r.destination rest = some e := by
  rw [arrives?]
  split
  · next r hr => simp [hr]
  · next hnone => simp [hnone]

theorem arrives?_append_singleton {q p : State} {w : List α} (hw : a.arrives? q w = some p)
    (x : α) : a.arrives? q (w ++ [x]) = (a.ruleFor? p.id x).map Rule.destination := by
  induction w generalizing q with
  | nil =>
    rw [Option.some.inj hw, List.nil_append, arrives?]
    cases a.ruleFor? p.id x <;> rfl
  | cons y rest ih =>
    obtain ⟨r, hr, hrest⟩ := arrives?_cons_iff.1 hw
    rw [List.cons_append, arrives?, hr]
    exact ih hrest

theorem map_id_arrives? (q : State) (w : List α) :
    (a.arrives? q w).map State.id = a.follows? q.id w := by
  induction w generalizing q with
  | nil => rfl
  | cons x rest ih =>
    rw [arrives?, follows?]
    cases a.ruleFor? q.id x with
    | some r => exact ih r.destination
    | none => rfl

theorem leadsTo_of_arrives? (known : a.SymbolsKnown) {w : List α} {e : State}
    (h : a.arrives? a.initial w = some e) : a.LeadsTo w e.id := by
  have hfollows : a.follows? a.initial.id w = some e.id := by
    rw [← map_id_arrives?, h, Option.map_some]
  refine ⟨?_, lastState_trace known hfollows, ?_⟩
  · rw [fst_trace known, hfollows]
    rfl
  · rw [fst_recognize known, hfollows]
    exact Iff.rfl

theorem recognize_iff_arrives? (known : a.SymbolsKnown) {w : List α} :
    (a.recognize w).1 ↔ ∃ e, a.arrives? a.initial w = some e ∧ a.isFinal e.id := by
  rw [fst_recognize known, ← map_id_arrives?, Option.any_map, Option.any_eq_true]

theorem arrives?_congr (h : b.book = a.book) (q : State) (w : List α) :
    b.arrives? q w = a.arrives? q w := by
  have hrule (q : StateId) (x : α) : b.ruleFor? q x = a.ruleFor? q x := by
    rw [ruleFor?, ruleFor?, h]
  induction w generalizing q with
  | nil => rfl
  | cons x rest ih => simp only [arrives?, hrule, ih]

/-- A word leads to the state where it begins or to the destination of a rule. -/
theorem arrives?_induction {P : State → Prop} {q e : State} {w : List α} (start : P q)
    (step : ∀ r ∈ a.rules, P r.destination) (hw : a.arrives? q w = some e) : P e := by
  induction w generalizing q with
  | nil => exact Option.some.inj hw ▸ start
  | cons x rest ih =>
    obtain ⟨r, hr, hrest⟩ := arrives?_cons_iff.1 hw
    exact ih (step r (Rulebook.mem_of_first? hr).1) hrest

theorem WellFormed.containsState_arrives? (h : a.WellFormed) {q e : State} {w : List α}
    (hq : a.containsState q.id) (hw : a.arrives? q w = some e) : a.containsState e.id :=
  arrives?_induction (P := fun p => a.containsState p.id) hq (fun r hr => (h.endpoints r hr).2) hw

theorem Unaliased.knows_of_arrives? (h : a.Unaliased) (initial : a.Knows a.initial) {w : List α}
    {e : State} (hw : a.arrives? a.initial w = some e) : a.Knows e :=
  arrives?_induction initial (fun r hr => (h r hr).2) hw

theorem Unaliased.settled (h : a.Unaliased) (initial : a.Knows a.initial) : a.Settled :=
  fun _ _ hw => .inl (h.knows_of_arrives? initial hw)

/-! ## What is there stays -/

/-- Whether an automaton has all that another one has, found where it was found there. -/
structure Extends (a b : Automaton α) : Prop where
  initial : b.initial = a.initial
  knows : ∀ q, a.Knows q → b.Knows q
  finals : ∀ q, a.isFinal q → b.isFinal q
  lookups : ∀ q x r, a.ruleFor? q x = some r → b.ruleFor? q x = some r

theorem Extends.refl (a : Automaton α) : a.Extends a :=
  ⟨rfl, fun _ h => h, fun _ h => h, fun _ _ _ h => h⟩

theorem Extends.trans (hab : a.Extends b) (hbc : b.Extends c) : a.Extends c where
  initial := hbc.initial.trans hab.initial
  knows q h := hbc.knows q (hab.knows q h)
  finals q h := hbc.finals q (hab.finals q h)
  lookups q x r h := hbc.lookups q x r (hab.lookups q x r h)

theorem Extends.arrives? (h : a.Extends b) {q e : State} {w : List α}
    (hw : a.arrives? q w = some e) : b.arrives? q w = some e := by
  induction w generalizing q with
  | nil => exact hw
  | cons x rest ih =>
    obtain ⟨r, hr, hrest⟩ := arrives?_cons_iff.1 hw
    exact arrives?_cons_iff.2 ⟨r, h.lookups _ _ _ hr, ih hrest⟩

theorem Extends.knows_iff (h : a.Extends b) {q : State} (hq : a.containsState q.id) :
    b.Knows q ↔ a.Knows q := by
  refine ⟨?_, h.knows q⟩
  intro hb
  obtain ⟨ancestor, hget⟩ := Option.isSome_iff_exists.1 hq
  have heq : (⟨q.id, ancestor⟩ : State) = q := (h.knows ⟨q.id, ancestor⟩ hget).eq hb rfl
  exact heq ▸ hget

theorem Extends.get?_states (h : a.Extends b) {q : StateId} {ancestor : Option StateId}
    (hq : a.states.get? q = some ancestor) : b.states.get? q = some ancestor :=
  h.knows ⟨q, ancestor⟩ hq

theorem Extends.containsState (h : a.Extends b) {q : StateId} (hq : a.containsState q) :
    b.containsState q := by
  obtain ⟨ancestor, hget⟩ := Option.isSome_iff_exists.1 hq
  exact Option.isSome_iff_exists.2 ⟨ancestor, h.get?_states hget⟩

theorem Extends.recognize (h : a.Extends b) (known : a.SymbolsKnown) (known' : b.SymbolsKnown)
    {w : List α} (hw : (a.recognize w).1) : (b.recognize w).1 := by
  obtain ⟨e, harrives, hfinal⟩ := (recognize_iff_arrives? known).1 hw
  have hlater := h.arrives? harrives
  rw [← h.initial] at hlater
  exact (recognize_iff_arrives? known').2 ⟨e, hlater, h.finals e.id hfinal⟩

theorem extends_addFinal {q : State} {new : Bool} (ok : a.addFinal q = .ok (new, b)) :
    a.Extends b := by
  have hknows : ∀ p, a.Knows p → b.Knows p := fun p hp => hp.addFinal ok
  have hfinals : ∀ p, a.isFinal p → b.isFinal p := fun p hp =>
    (isFinal_of_addFinal ok).2 (.inr hp)
  obtain ⟨_, _, rfl⟩ := addFinal_eq_ok_iff.1 ok
  exact ⟨rfl, hknows, hfinals, fun _ _ _ h => h⟩

theorem arrives?_addFinal {q : State} {new : Bool} (ok : a.addFinal q = .ok (new, b)) (w : List α) :
    b.arrives? b.initial w = a.arrives? a.initial w := by
  have hbook : b.book = a.book := by
    obtain ⟨_, _, rfl⟩ := addFinal_eq_ok_iff.1 ok
    rfl
  rw [(extends_addFinal ok).initial, arrives?_congr hbook]

theorem ruleFor?_addRule {r : Rule α} {n : Nat} (free : a.ruleFor? r.source.id r.symbol = none)
    (ok : a.addRule r = .ok (n, b)) (q : StateId) (x : α) :
    b.ruleFor? q x = if q = r.source.id ∧ x = r.symbol then some r else a.ruleFor? q x := by
  obtain ⟨_, _, rfl⟩ := addRule_eq_ok_iff.1 ok
  have hpush := Rulebook.first?_push_of_free (r := r) free ⟨q, x⟩
  simp only [Rule.trigger, Trigger.mk.injEq] at hpush
  exact hpush

theorem extends_addRule {r : Rule α} {n : Nat} (free : a.ruleFor? r.source.id r.symbol = none)
    (ok : a.addRule r = .ok (n, b)) : a.Extends b := by
  have hknows : ∀ p, a.Knows p → b.Knows p := fun p hp => hp.addRule ok
  have hlookup := ruleFor?_addRule free ok
  obtain ⟨_, _, rfl⟩ := addRule_eq_ok_iff.1 ok
  refine ⟨rfl, hknows, fun _ h => h, ?_⟩
  intro q x s hs
  rw [hlookup, if_neg]
  · exact hs
  · rintro ⟨rfl, rfl⟩
    exact absurd (free.symm.trans hs) (by simp)

/-- A rule to a new state is the last on the way of each word that it is on. -/
theorem arrives?_addRule {r : Rule α} {n : Nat} (h : a.WellFormed)
    (free : a.ruleFor? r.source.id r.symbol = none) (source : a.containsState r.source.id)
    (new : ¬ a.containsState r.destination.id) (ok : a.addRule r = .ok (n, b)) {q e : State}
    {w : List α} (hw : b.arrives? q w = some e) : a.arrives? q w = some e ∨ e = r.destination ∧
      ∃ v p, w = v ++ [r.symbol] ∧ a.arrives? q v = some p ∧ p.id = r.source.id := by
  have hlookup := ruleFor?_addRule free ok
  have hleaf (x : α) : b.ruleFor? r.destination.id x = none := by
    rw [hlookup, if_neg]
    · refine Rulebook.first?_eq_none_iff.2 ?_
      intro s hs htrigger
      have hsource : s.source.id = r.destination.id := congrArg Trigger.source htrigger
      exact new (hsource ▸ (h.endpoints s hs).1)
    · intro ⟨heq, _⟩
      exact new (heq ▸ source)
  induction w generalizing q with
  | nil => exact .inl hw
  | cons x rest ih =>
    obtain ⟨s, hs, hrest⟩ := arrives?_cons_iff.1 hw
    rw [hlookup] at hs
    split at hs
    · next htrigger =>
      obtain rfl := Option.some.inj hs
      -- from the new state nothing leads on
      cases rest with
      | nil =>
        have hword : [x] = [] ++ [r.symbol] := congrArg (fun x => [x]) htrigger.2
        exact .inr ⟨(Option.some.inj hrest).symm, [], q, hword, rfl, htrigger.1⟩
      | cons y rest =>
        obtain ⟨_, hy, _⟩ := arrives?_cons_iff.1 hrest
        exact absurd ((hleaf y).symm.trans hy) (by simp)
    · rcases ih hrest with hold | ⟨he, v, p, rfl, hv, hp⟩
      · exact .inl (arrives?_cons_iff.2 ⟨s, hs, hold⟩)
      · exact .inr ⟨he, x :: v, p, rfl, arrives?_cons_iff.2 ⟨s, hs, hv⟩, hp⟩

theorem extends_settle_addFinal (a : Automaton α) (q : State) :
    a.Extends (a.settle (a.addFinal q)) :=
  settle_induction (P := a.Extends) (.refl a) fun _ _ ok => extends_addFinal ok

/-- What was final before, or was asked for and is known as it was asked for, is final after an
attempt to make a state of the state set final. -/
theorem isFinal_settle_addFinal_iff {q : State} (hq : a.containsState q.id) :
    (a.settle (a.addFinal q)).isFinal q.id ↔ a.isFinal q.id ∨ a.Knows q := by
  cases hadd : a.addFinal q with
  | ok result =>
    have hknows := (checkKnown_eq_ok_iff_knows hq).1 (addFinal_eq_ok_iff.1 hadd).1
    have hfinal : (a.settle (.ok result)).isFinal q.id := (isFinal_of_addFinal hadd).2 (.inl rfl)
    simp [hfinal, hknows]
  | error e =>
    have hunknown : ¬ a.Knows q := by
      intro hknows
      rw [addFinal_eq_error_iff, checkKnown_of_knows hknows] at hadd
      exact absurd hadd (by simp)
    simp [settle, hunknown]

end Acceptor.Automaton
