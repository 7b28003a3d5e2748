import Acceptor.Proofs.Aliasing
import Acceptor.Proofs.Restore
import Acceptor.Proofs.Walk

/-!
  Acceptor.Proofs.Rebuild — a restored automaton, inserted piece by piece

  A snapshot is checked as a whole, a rule or a final state on its own when it is inserted. The
  check lets pass what insertion would: of the rules of a restored automaton, none is a duplicate
  and none is in another's way. It does not look at the ancestors that the rules store, however,
  and insertion does. So an automaton may be restored that cannot be built: one in which a state is
  stored with two ancestors. Where it can be built, the outcome walks as the restored one does.

  Main statements:
    1. `Automaton.Underway.addRule` and `Automaton.Underway.addFinal` — what one insertion does.
    2. `Automaton.underway_of_rebuild` — what has been built in the end.
    3. `Automaton.Underway.clash_of_addRule` — a rule is refused for an ancestor at most.
    4. `Automaton.rebuilt_from_restored` — all of it.
-/

namespace Acceptor

/-- Whether no identity occurs with two ancestors among some states. -/
def OneAncestorEach (states : List State) : Prop :=
  ∀ p ∈ states, ∀ q ∈ states, p.id = q.id → p = q

instance (states : List State) : Decidable (OneAncestorEach states) :=
  inferInstanceAs (Decidable (∀ p ∈ states, ∀ q ∈ states, p.id = q.id → p = q))

namespace Automaton

variable {α : Type} [Letter α]

/-! ## Building -/

/-- Inserts things one after another, up to the first that is refused. -/
def addAll {β γ : Type} (add : Automaton α → β → Except (Refusal α) (γ × Automaton α))
    (a : Automaton α) : List β → Except (Refusal α) (Automaton α)
  | [] => .ok a
  | x :: rest =>
    match add a x with
    | .ok (_, b) => addAll add b rest
    | .error e => .error e

/-- The final states, as the state set knows them. -/
def finalStates (a : Automaton α) : List State := a.stateList.filter fun q => a.isFinal q.id

/-- The automaton built anew: its rules, then its final states, inserted one by one into a new
automaton around its initial state and under its policy. -/
def rebuild (a : Automaton α) : Except (Refusal α) (Automaton α) :=
  match addAll addRule ((ofInitial a.initial).withPolicy a.policy) a.rules with
  | .ok b => addAll addFinal b a.finalStates
  | .error e => .error e

/-- The states that building an automaton names, as they are named. -/
def named (a : Automaton α) : List State :=
  a.initial :: a.rules.flatMap (fun r => [r.source, r.destination]) ++ a.finalStates

section

variable {β γ : Type} {add : Automaton α → β → Except (Refusal α) (γ × Automaton α)}
  {P : Automaton α → List β → Prop}

theorem addAll_induction (step : ∀ {a x rest v b}, P a (x :: rest) → add a x = .ok (v, b) → P b rest)
    {a b : Automaton α} {xs : List β} (start : P a xs) (ok : addAll add a xs = .ok b) : P b [] := by
  induction xs generalizing a with
  | nil =>
    rw [← Except.ok.inj ok]
    exact start
  | cons x rest ih =>
    rw [addAll] at ok
    split at ok
    · next hadd => exact ih (step start hadd) ok
    · exact absurd ok (by simp)

theorem exists_of_addAll_eq_error
    (step : ∀ {a x rest v b}, P a (x :: rest) → add a x = .ok (v, b) → P b rest)
    {a : Automaton α} {xs : List β} {e : Refusal α} (start : P a xs)
    (error : addAll add a xs = .error e) :
    ∃ b x rest, P b (x :: rest) ∧ add b x = .error e := by
  induction xs generalizing a with
  | nil => exact absurd error (by simp [addAll])
  | cons x rest ih =>
    rw [addAll] at error
    split at error
    · next hadd => exact ih (step start hadd) error
    · next hadd => exact ⟨a, x, rest, start, Except.error.inj error ▸ hadd⟩

end

/-! ## What building keeps -/

/-- An automaton built as far as `b`, with some rules and final states still to come. -/
structure Underway (a b : Automaton α) (rulesLeft : List (Rule α)) (finalsLeft : List State) :
    Prop where
  policy : b.policy = a.policy
  initial : b.initial = a.initial
  wellFormed : b.WellFormed
  anchored : b.Anchored
  rules : b.rules ++ rulesLeft = a.rules
  finals : ∀ q, a.isFinal q ↔ b.isFinal q ∨ ∃ p ∈ finalsLeft, p.id = q
  left : ∀ q ∈ finalsLeft, q ∈ a.finalStates
  marked : ∀ q ∈ a.finalStates, q ∈ finalsLeft ∨ b.Knows q
  /-- All that is known has been named. -/
  known : ∀ q, b.Knows q → q ∈ a.named

theorem mem_finalStates {a : Automaton α} {q : State} :
    q ∈ a.finalStates ↔ a.Knows q ∧ a.isFinal q.id := by
  rw [finalStates, List.mem_filter, mem_stateList_iff]
  rfl

theorem mem_named {a : Automaton α} {q : State} :
    q ∈ a.named ↔ q = a.initial ∨ (∃ r ∈ a.rules, q = r.source ∨ q = r.destination) ∨
      q ∈ a.finalStates := by
  simp [named]

theorem WellFormed.isFinal_iff_exists {a : Automaton α} (h : a.WellFormed) {q : StateId} :
    a.isFinal q ↔ ∃ p ∈ a.finalStates, p.id = q := by
  refine ⟨?_, ?_⟩
  · intro hfinal
    obtain ⟨ancestor, hget⟩ := Option.isSome_iff_exists.1 (h.finals q hfinal)
    exact ⟨⟨q, ancestor⟩, mem_finalStates.2 ⟨hget, hfinal⟩, rfl⟩
  · rintro ⟨p, hp, rfl⟩
    exact (mem_finalStates.1 hp).2

theorem eq_or_of_get?_learn {states : SortedMap StateId (Option StateId)} {p q : State}
    (h : (learn states q).get? p.id = some p.ancestor) :
    states.get? p.id = some p.ancestor ∨ p = q := by
  rw [learn, SortedMap.get?_insertNew] at h
  split at h
  · next hid =>
    cases hget : states.get? q.id with
    | none =>
      rw [hget, Option.getD_none] at h
      exact .inr (State.ext hid (Option.some.inj h).symm)
    | some known =>
      rw [hget, Option.getD_some] at h
      exact .inl (by rw [hid, hget, h])
  · exact .inl h

theorem underway_start {a : Automaton α} (h : a.WellFormed) :
    Underway a ((ofInitial a.initial).withPolicy a.policy) a.rules a.finalStates where
  policy := rfl
  initial := rfl
  wellFormed := (WellFormed.ofInitial a.initial).withPolicy a.policy
  anchored := Anchored.ofInitial a.initial
  rules := rfl
  finals := by
    intro q
    rw [h.isFinal_iff_exists, or_iff_right]
    exact SortedSet.not_mem_empty q
  left := fun _ hq => hq
  marked := fun _ hq => .inl hq
  known := by
    intro q hq
    have hget : (SortedMap.empty.insert a.initial.id a.initial.ancestor).get? q.id =
        some q.ancestor := hq
    rw [SortedMap.get?_insert] at hget
    split at hget
    · next hid => exact mem_named.2 (.inl (State.ext hid (Option.some.inj hget).symm))
    · exact absurd hget (by simp)

theorem source_mem_named {a : Automaton α} {r : Rule α} (hr : r ∈ a.rules) : r.source ∈ a.named :=
  mem_named.2 (.inr (.inl ⟨r, hr, .inl rfl⟩))

theorem destination_mem_named {a : Automaton α} {r : Rule α} (hr : r ∈ a.rules) :
    r.destination ∈ a.named :=
  mem_named.2 (.inr (.inl ⟨r, hr, .inr rfl⟩))

namespace Underway

variable {a b c : Automaton α} {rulesLeft : List (Rule α)} {finalsLeft : List State}

theorem mem_rules {r : Rule α} (h : Underway a b (r :: rulesLeft) finalsLeft) : r ∈ a.rules := by
  rw [← h.rules]
  exact List.mem_append_right _ List.mem_cons_self

theorem addRule {r : Rule α} {n : Nat} (h : Underway a b (r :: rulesLeft) finalsLeft)
    (ok : b.addRule r = .ok (n, c)) : Underway a c rulesLeft finalsLeft := by
  have hwell := h.wellFormed.addRule ok
  have hanchored := h.anchored.addRule ok
  obtain ⟨_, _, rfl⟩ := addRule_eq_ok_iff.1 ok
  refine ⟨h.policy, h.initial, hwell, hanchored, ?_, h.finals, h.left, ?_, ?_⟩
  · rw [← h.rules]
    exact List.append_assoc _ [r] rulesLeft
  · intro q hq
    exact (h.marked q hq).imp_right fun hq => hq.addRule ok
  · intro q hq
    rcases eq_or_of_get?_learn hq with hq | rfl
    · rcases eq_or_of_get?_learn hq with hq | rfl
      · exact h.known q hq
      · exact source_mem_named h.mem_rules
    · exact destination_mem_named h.mem_rules

theorem addFinal {q : State} {new : Bool} (h : Underway a b rulesLeft (q :: finalsLeft))
    (ok : b.addFinal q = .ok (new, c)) : Underway a c rulesLeft finalsLeft := by
  have hwell := h.wellFormed.addFinal ok
  have hanchored := h.anchored.addFinal ok
  have hfinal {p : StateId} := isFinal_of_addFinal ok (p := p)
  obtain ⟨hcheck, _, rfl⟩ := addFinal_eq_ok_iff.1 ok
  refine ⟨h.policy, h.initial, hwell, hanchored, h.rules, ?_,
    fun p hp => h.left p (List.mem_cons_of_mem _ hp), ?_, ?_⟩
  · intro p
    rw [h.finals p, hfinal]
    simp only [List.mem_cons, exists_eq_or_imp]
    grind
  · intro p hp
    rcases h.marked p hp with hp | hp
    · rcases List.mem_cons.1 hp with rfl | hp
      · exact .inr (get?_learn_of_checkKnown hcheck)
      · exact .inl hp
    · exact .inr (get?_learn_of_some hp)
  · intro p hp
    rcases eq_or_of_get?_learn hp with hp | rfl
    · exact h.known p hp
    · exact mem_named.2 (.inr (.inr (h.left p List.mem_cons_self)))

/-- In the end every state that was named is known, but for the destinations of split loops. -/
theorem knows_of_named (h : Underway a b [] []) (nosplit : ∀ r ∈ a.rules, ¬ r.SplitLoop)
    {q : State} (hq : q ∈ a.named) : b.Knows q := by
  have hrules : b.rules = a.rules := by simpa using h.rules
  have hunaliased : b.Unaliased := h.anchored.unaliased_iff.2 (hrules ▸ nosplit)
  rcases mem_named.1 hq with rfl | ⟨r, hr, rfl | rfl⟩ | hq
  · rw [← h.initial]
    exact h.wellFormed.initial
  · exact (hunaliased r (hrules ▸ hr)).1
  · exact (hunaliased r (hrules ▸ hr)).2
  · exact (h.marked q hq).resolve_left List.not_mem_nil

theorem finals_eq (h : Underway a b [] []) : b.finals = a.finals := by
  apply SortedSet.ext_mem
  intro q
  show b.isFinal q ↔ a.isFinal q
  simp [h.finals q]

end Underway

theorem underway_of_rules {a b : Automaton α} (h : a.WellFormed)
    (ok : addAll addRule ((ofInitial a.initial).withPolicy a.policy) a.rules = .ok b) :
    Underway a b [] a.finalStates :=
  addAll_induction (P := fun b left => Underway a b left a.finalStates) Underway.addRule
    (underway_start h) ok

theorem underway_of_rebuild {a b : Automaton α} (h : a.WellFormed) (ok : a.rebuild = .ok b) :
    Underway a b [] [] := by
  rw [rebuild] at ok
  split at ok
  · next hrules =>
    exact addAll_induction (P := fun b left => Underway a b [] left) Underway.addFinal
      (underway_of_rules h hrules) ok
  · exact absurd ok (by simp)

/-! ## What building refuses -/

/-- Whether a refusal is that of a state for its ancestor, where another one was named before. -/
def Clash (a : Automaton α) (e : Refusal α) : Prop :=
  ∃ p ∈ a.named, ∃ q ∈ a.named, p.id = q.id ∧ p.ancestor ≠ q.ancestor ∧
    e = .stateConflict q.id p.ancestor q.ancestor

theorem Clash.not_oneAncestorEach {a : Automaton α} {e : Refusal α} (h : a.Clash e) :
    ¬ OneAncestorEach a.named := by
  obtain ⟨p, hp, q, hq, hid, hne, _⟩ := h
  intro hone
  exact hne (congrArg State.ancestor (hone p hp q hq hid))

namespace Underway

variable {a b : Automaton α} {rulesLeft : List (Rule α)} {finalsLeft : List State} {e : Refusal α}

theorem clash_of_checkKnown (h : Underway a b rulesLeft finalsLeft) {q : State} (hq : q ∈ a.named)
    (error : b.checkKnown q = .error e) : a.Clash e := by
  obtain ⟨known, hknown, hne, rfl⟩ := exists_of_checkKnown_eq_error error
  exact ⟨⟨q.id, known⟩, h.known ⟨q.id, known⟩ hknown, q, hq, rfl, hne, rfl⟩

/-- Of a rule under way nothing but its states can be refused: it is not there yet, and where that
matters none of its trigger is. -/
theorem clash_of_addRule {r : Rule α} (h : Underway a b (r :: rulesLeft) finalsLeft)
    (distinct : a.rules.Pairwise fun r s => ¬ r.same s)
    (deterministic : a.policy = .reject → (a.rules.map Rule.trigger).Nodup)
    (error : b.addRule r = .error e) : a.Clash e := by
  rcases refusal_of_checkRule (addRule_eq_error_iff.1 error) with
    hsource | hdestination | ⟨_, s, hs, hsame⟩ | ⟨hpolicy, s, hs, _⟩
  · exact h.clash_of_checkKnown (source_mem_named h.mem_rules) hsource
  · exact h.clash_of_checkKnown (destination_mem_named h.mem_rules) hdestination
  · rw [← h.rules] at distinct
    exact absurd hsame ((List.pairwise_append.1 distinct).2.2 s hs r List.mem_cons_self)
  · obtain ⟨hmem, htrigger⟩ := Rulebook.mem_of_first? hs
    have hnodup := List.pairwise_map.1 (deterministic (h.policy ▸ hpolicy))
    rw [← h.rules] at hnodup
    exact absurd htrigger ((List.pairwise_append.1 hnodup).2.2 s hmem r List.mem_cons_self)

theorem clash_of_addFinal {q : State} (h : Underway a b rulesLeft (q :: finalsLeft))
    (error : b.addFinal q = .error e) : a.Clash e :=
  h.clash_of_checkKnown (mem_named.2 (.inr (.inr (h.left q List.mem_cons_self))))
    (addFinal_eq_error_iff.1 error)

end Underway

theorem clash_of_rebuild {a : Automaton α} {e : Refusal α} (h : a.WellFormed)
    (deterministic : a.policy = .reject → (a.rules.map Rule.trigger).Nodup)
    (error : a.rebuild = .error e) : a.Clash e := by
  rw [rebuild] at error
  split at error
  · next hrules =>
    obtain ⟨b, q, rest, hunder, hrefused⟩ :=
      exists_of_addAll_eq_error (P := fun b left => Underway a b [] left) Underway.addFinal
        (underway_of_rules h hrules) error
    exact hunder.clash_of_addFinal hrefused
  · next hrules =>
    rw [Except.error.inj error] at hrules
    obtain ⟨b, r, rest, hunder, hrefused⟩ :=
      exists_of_addAll_eq_error (P := fun b left => Underway a b left a.finalStates)
        Underway.addRule (underway_start h) hrules
    exact hunder.clash_of_addRule h.distinct deterministic hrefused

/-- Building goes through, and without split loops, exactly where no identity is named with two
ancestors. -/
theorem rebuild_iff_oneAncestorEach {a : Automaton α} (h : a.WellFormed)
    (deterministic : a.policy = .reject → (a.rules.map Rule.trigger).Nodup) :
    ((∃ b, a.rebuild = .ok b) ∧ ∀ r ∈ a.rules, ¬ r.SplitLoop) ↔ OneAncestorEach a.named := by
  refine ⟨?_, ?_⟩
  · intro ⟨⟨b, ok⟩, nosplit⟩ p hp q hq hid
    have hunder := underway_of_rebuild h ok
    exact (hunder.knows_of_named nosplit hp).eq (hunder.knows_of_named nosplit hq) hid
  · intro hone
    refine ⟨?_, ?_⟩
    · cases hresult : a.rebuild with
      | ok b => exact ⟨b, rfl⟩
      | error e =>
        exact absurd hone (clash_of_rebuild h deterministic hresult).not_oneAncestorEach
    · intro r hr hloop
      have heq := hone _ (source_mem_named hr) _ (destination_mem_named hr) hloop.1
      exact hloop.2 (congrArg State.ancestor heq)

/-! ## Walks -/

theorem walks_congr {a b : Automaton α} (ha : a.SymbolsKnown) (hb : b.SymbolsKnown)
    (lookups : ∀ q x, b.ruleFor? q x = a.ruleFor? q x) (initial : b.initial = a.initial)
    (finals : b.finals = a.finals) (w : List α) :
    (b.recognize w).1 = (a.recognize w).1 ∧ (b.trace w).1 = (a.trace w).1 := by
  have hfollows (q : StateId) : b.follows? q w = a.follows? q w := by
    induction w generalizing q with
    | nil => rfl
    | cons x rest ih => simp only [follows?, lookups, ih]
  have hsteps (q : StateId) : b.stepsFrom q w = a.stepsFrom q w := by
    clear hfollows
    induction w generalizing q with
    | nil => rfl
    | cons x rest ih => simp only [stepsFrom, lookups, ih]
  have hfinal : b.isFinal = a.isFinal := by
    funext q
    rw [isFinal, isFinal, finals]
  rw [fst_recognize ha, fst_recognize hb, fst_trace ha, fst_trace hb, initial, hfollows, hsteps,
    hfinal]
  exact ⟨rfl, rfl⟩

theorem walks_eq {a b : Automaton α} (ha : a.SymbolsKnown) (hb : b.SymbolsKnown)
    (rules : b.rules = a.rules) (initial : b.initial = a.initial) (finals : b.finals = a.finals)
    (w : List α) : (b.recognize w).1 = (a.recognize w).1 ∧ (b.trace w).1 = (a.trace w).1 := by
  refine walks_congr ha hb ?_ initial finals w
  intro q x
  rw [ruleFor?, ruleFor?, Rulebook.ext_rules rules]

/-! ## Restored automata -/

/-- When a restored automaton is built anew from its rules and final states, none of them is
refused but for its ancestor, where a state of that identity was named with another one before.
Building goes through, and without split loops, exactly where no identity is named with two
ancestors. What has been built has the same rules in the same order and the same final states, and
recognizes and traces every word alike. -/
theorem rebuilt_from_restored {s : Snapshot α} {a : Automaton α} (restored : s.restore = .ok a) :
    (∀ e, a.rebuild = .error e → a.Clash e) ∧
    (((∃ b, a.rebuild = .ok b) ∧ ∀ r ∈ a.rules, ¬ r.SplitLoop) ↔ OneAncestorEach a.named) ∧
    (∀ b, a.rebuild = .ok b →
      b.policy = a.policy ∧ b.initial = a.initial ∧ b.rules = a.rules ∧ b.finals = a.finals ∧
      ∀ w, (b.recognize w).1 = (a.recognize w).1 ∧ (b.trace w).1 = (a.trace w).1) := by
  have hwell := WellFormed.of_restore restored
  have hdeterministic : a.policy = .reject → (a.rules.map Rule.trigger).Nodup := by
    obtain ⟨_, hs, rfl⟩ := Snapshot.restore_eq_ok_iff_wellFormed.1 restored
    rw [s.rules_assemble]
    exact hs.deterministic
  refine ⟨fun e error => clash_of_rebuild hwell hdeterministic error,
    rebuild_iff_oneAncestorEach hwell hdeterministic, ?_⟩
  intro b ok
  have hunder := underway_of_rebuild hwell ok
  have hrules : b.rules = a.rules := by simpa using hunder.rules
  refine ⟨hunder.policy, hunder.initial, hrules, hunder.finals_eq, ?_⟩
  exact walks_eq hwell.symbols hunder.wellFormed.symbols hrules hunder.initial hunder.finals_eq

/-- A snapshot with a state that two rules store with two ancestors is restored, and cannot be
built. -/
theorem restored_not_rebuilt :
    let s : Snapshot Char := {
      version := 1
      id := ⟨List.replicate 16 7, rfl⟩
      takenAt := ⟨⟨2024, 2, 29, by decide, by decide, by decide⟩, 0, 0, by decide, by decide, by decide⟩
      policy := .reject
      states := [⟨⟨0⟩, none⟩, ⟨⟨1⟩, some ⟨0⟩⟩]
      initial := ⟨0⟩
      finals := []
      alphabet := ['a', 'b']
      rules := [⟨⟨⟨0⟩, none⟩, 'a', ⟨⟨1⟩, some ⟨0⟩⟩⟩, ⟨⟨⟨0⟩, none⟩, 'b', ⟨⟨1⟩, none⟩⟩] }
    ∃ a, s.restore = .ok a ∧ a.rebuild = .error (.stateConflict ⟨1⟩ (some ⟨0⟩) none) := by
  intro s
  have wellFormed : s.WellFormed := ⟨by decide, by decide, by decide, by decide, by decide,
    by decide, fun _ => by decide⟩
  exact ⟨s.assemble, Snapshot.restore_eq_ok_iff_wellFormed.2 ⟨rfl, wellFormed, rfl⟩, rfl⟩

/-- A snapshot that agrees with itself, which is built to an automaton that walks alike, and one
that does not, which is refused for a state that is named twice. -/
theorem rebuilt_from_restored_of_two :
    let s : Snapshot Char := {
      version := 1
      id := ⟨List.replicate 16 7, rfl⟩
      takenAt := ⟨⟨2024, 2, 29, by decide, by decide, by decide⟩, 0, 0, by decide, by decide, by decide⟩
      policy := .allow
      states := [⟨⟨2⟩, none⟩, ⟨⟨0⟩, none⟩, ⟨⟨1⟩, some ⟨0⟩⟩]
      initial := ⟨0⟩
      finals := [⟨1⟩]
      alphabet := ['a', 'b', 'c']
      rules := [⟨⟨⟨0⟩, none⟩, 'b', ⟨⟨2⟩, none⟩⟩, ⟨⟨⟨0⟩, none⟩, 'b', ⟨⟨1⟩, some ⟨0⟩⟩⟩] }
    let t : Snapshot Char := { s with finals := [⟨2⟩], rules := [⟨⟨⟨0⟩, none⟩, 'b', ⟨⟨2⟩, some ⟨0⟩⟩⟩] }
    (∃ a b, s.restore = .ok a ∧ a.rebuild = .ok b ∧ OneAncestorEach a.named ∧ b.rules = s.rules ∧
      ∀ w, (b.recognize w).1 = (a.recognize w).1 ∧ (b.trace w).1 = (a.trace w).1) ∧
    (∃ a e, t.restore = .ok a ∧ a.rebuild = .error e ∧ a.Clash e ∧ ¬ OneAncestorEach a.named) := by
  intro s t
  have hs : s.WellFormed := ⟨by decide, by decide, by decide, by decide, by decide, by decide,
    fun h => absurd h (by decide)⟩
  have ht : t.WellFormed := ⟨by decide, by decide, by decide, by decide, by decide, by decide,
    fun h => absurd h (by decide)⟩
  have hsok : s.restore = .ok s.assemble :=
    Snapshot.restore_eq_ok_iff_wellFormed.2 ⟨rfl, hs, rfl⟩
  have htok : t.restore = .ok t.assemble :=
    Snapshot.restore_eq_ok_iff_wellFormed.2 ⟨rfl, ht, rfl⟩
  obtain ⟨_, hbuilt, hsame⟩ := rebuilt_from_restored hsok
  obtain ⟨hclash, _⟩ := rebuilt_from_restored htok
  have hone : OneAncestorEach s.assemble.named := by decide
  obtain ⟨b, hb⟩ := (hbuilt.2 hone).1
  obtain ⟨_, _, hrules, _, hwalks⟩ := hsame b hb
  have hrefused : t.assemble.rebuild = .error (.stateConflict ⟨2⟩ (some ⟨0⟩) none) := rfl
  exact ⟨⟨_, b, hsok, hb, hone, hrules, hwalks⟩, _, _, htok, hrefused, hclash _ hrefused,
    (hclash _ hrefused).not_oneAncestorEach⟩

end Automaton

end Acceptor
