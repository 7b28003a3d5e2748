import Acceptor.Proofs.Check
import Acceptor.Proofs.Spelling
import Mathlib.Data.List.Nodup

/-!
  Acceptor.Proofs.Walk — one walk behind recognizing, tracing and stepping

  A word is followed from a state by taking each time the rule of least text. Recognizing,
  tracing and stepping by hand all walk as far as the word can be followed, and nothing else of
  the automaton matters: not where the cursor was, and not the alphabet, since a rule's symbol is
  always in it.

  Main statements:
    1. `Automaton.step_eq` — the test of the alphabet never stops a step that a rule allows.
    2. `Automaton.fst_follow` — a trace records the steps of the word that is followed.
    3. `Automaton.fst_recognize` and `Automaton.stepEach_of_follows?` — the same for the others.
    4. `Automaton.follows?_take_iff` — how far a word can be followed.
    5. `Automaton.recognize_iff_spells` — what a deterministic automaton accepts.
    6. `Automaton.oneWalk_of_known` — all of it, while the alphabet has the rules' symbols.
-/

namespace Acceptor.Automaton

variable {α : Type} [Letter α]

/-- The automaton with its cursor elsewhere. -/
def withCursor (a : Automaton α) (q : StateId) : Automaton α := { a with current := q }

/-- The state that a word leads to, taking the rule of least text each time. -/
def follows? (a : Automaton α) (q : StateId) : List α → Option StateId
  | [] => some q
  | x :: rest =>
    match a.ruleFor? q x with
    | some r => a.follows? r.destination.id rest
    | none => none

/-- The steps that a word takes from a state, up to the first symbol without a rule. -/
def stepsFrom (a : Automaton α) (q : StateId) : List α → List (Step α)
  | [] => []
  | x :: rest =>
    match a.ruleFor? q x with
    | some r => ⟨q, x, r.destination.id⟩ :: a.stepsFrom r.destination.id rest
    | none => []

/-- Steps on every symbol of a pattern, whatever the answers, which it collects. -/
def stepEach (a : Automaton α) : List α → List Bool × Automaton α
  | [] => ([], a)
  | x :: rest =>
    let (moved, b) := a.step x
    let (answers, c) := b.stepEach rest
    (moved :: answers, c)

/-! ## One step -/

/-- The symbols of the rules are in the alphabet. -/
def SymbolsKnown (a : Automaton α) : Prop := ∀ r ∈ a.rules, a.containsSymbol r.symbol

theorem step_eq {a : Automaton α} (known : a.SymbolsKnown) (q : StateId) (x : α) :
    (a.withCursor q).step x = ((a.ruleFor? q x).isSome,
      a.withCursor (((a.ruleFor? q x).map (·.destination.id)).getD q)) := by
  have hrule : (a.withCursor q).ruleFor? (a.withCursor q).current x = a.ruleFor? q x := rfl
  unfold step
  by_cases hx : (a.withCursor q).containsSymbol x = true
  · rw [if_pos hx, hrule]
    cases a.ruleFor? q x <;> rfl
  · -- outside the alphabet there is no rule to take
    rw [if_neg hx]
    cases hr : a.ruleFor? q x with
    | none => rfl
    | some r =>
      obtain ⟨hmem, htrigger⟩ := Rulebook.mem_of_first? hr
      have hsymbol : r.symbol = x := congrArg Trigger.symbol htrigger
      exact absurd (hsymbol ▸ known r hmem) hx

theorem step_of_some {a : Automaton α} (known : a.SymbolsKnown) {q : StateId} {x : α} {r : Rule α}
    (h : a.ruleFor? q x = some r) :
    (a.withCursor q).step x = (true, a.withCursor r.destination.id) := by
  rw [step_eq known, h]
  rfl

theorem step_of_none {a : Automaton α} (known : a.SymbolsKnown) {q : StateId} {x : α}
    (h : a.ruleFor? q x = none) : (a.withCursor q).step x = (false, a.withCursor q) := by
  rw [step_eq known, h]
  rfl

theorem follows?_of_some {a : Automaton α} {q : StateId} {x : α} {r : Rule α}
    (h : a.ruleFor? q x = some r) (rest : List α) :
    a.follows? q (x :: rest) = a.follows? r.destination.id rest := by
  rw [follows?, h]

theorem follows?_of_none {a : Automaton α} {q : StateId} {x : α} (h : a.ruleFor? q x = none)
    (rest : List α) : a.follows? q (x :: rest) = none := by
  rw [follows?, h]

theorem stepsFrom_of_some {a : Automaton α} {q : StateId} {x : α} {r : Rule α}
    (h : a.ruleFor? q x = some r) (rest : List α) :
    a.stepsFrom q (x :: rest) =
      ⟨q, x, r.destination.id⟩ :: a.stepsFrom r.destination.id rest := by
  rw [stepsFrom, h]

theorem stepsFrom_of_none {a : Automaton α} {q : StateId} {x : α} (h : a.ruleFor? q x = none)
    (rest : List α) : a.stepsFrom q (x :: rest) = [] := by
  rw [stepsFrom, h]

/-! ## A whole pattern -/

/-- A walk consumes the pattern when it can be followed, and ends where it leads. -/
theorem walk_eq {a : Automaton α} (known : a.SymbolsKnown) (q : StateId) (p : List α) :
    ((a.withCursor q).walk p).1 = (a.follows? q p).isSome ∧
      ∀ e, a.follows? q p = some e → ((a.withCursor q).walk p).2 = a.withCursor e := by
  induction p generalizing q with
  | nil =>
    refine ⟨rfl, ?_⟩
    intro e he
    rw [← Option.some.inj he]
    rfl
  | cons x rest ih =>
    cases hr : a.ruleFor? q x with
    | some r =>
      rw [walk, step_of_some known hr, follows?_of_some hr]
      exact ih r.destination.id
    | none =>
      rw [walk, step_of_none known hr, follows?_of_none hr]
      exact ⟨rfl, fun e he => absurd he (by simp)⟩

theorem fst_recognize {a : Automaton α} (known : a.SymbolsKnown) (p : List α) :
    (a.recognize p).1 = (a.follows? a.initial.id p).any a.isFinal := by
  obtain ⟨hconsumed, hend⟩ := walk_eq known a.initial.id p
  have hrec : (a.recognize p).1 = (((a.withCursor a.initial.id).walk p).1 &&
      ((a.withCursor a.initial.id).walk p).2.accepting) := rfl
  rw [hrec, hconsumed]
  cases he : a.follows? a.initial.id p with
  | none => rfl
  | some e =>
    rw [hend e he]
    rfl

/-- Stepping by hand: every answer is true when the pattern can be followed, else one is false. -/
theorem stepEach_of_follows? {a : Automaton α} (known : a.SymbolsKnown) (q : StateId)
    (p : List α) :
    ((∀ moved ∈ ((a.withCursor q).stepEach p).1, moved = true) ↔ (a.follows? q p).isSome) ∧
      ∀ e, a.follows? q p = some e → ((a.withCursor q).stepEach p).2 = a.withCursor e := by
  induction p generalizing q with
  | nil =>
    refine ⟨by simp [stepEach, follows?], ?_⟩
    intro e he
    rw [← Option.some.inj he]
    rfl
  | cons x rest ih =>
    cases hr : a.ruleFor? q x with
    | some r =>
      obtain ⟨hall, hend⟩ := ih r.destination.id
      simp only [stepEach, step_of_some known hr, follows?_of_some hr, List.mem_cons,
        forall_eq_or_imp, true_and]
      exact ⟨hall, hend⟩
    | none =>
      -- the refusal is among the answers, whatever the later steps do
      simp only [stepEach, step_of_none known hr, follows?_of_none hr, List.mem_cons,
        forall_eq_or_imp]
      exact ⟨by simp, fun e he => absurd he (by simp)⟩

theorem fst_follow {a : Automaton α} (known : a.SymbolsKnown) (q : StateId) (run : Run α)
    (p : List α) :
    ((a.withCursor q).follow run p).1 =
      ({ run with steps := run.steps ++ a.stepsFrom q p } : Run α).finish
        (a.follows? q p).isSome ((a.follows? q p).any a.isFinal) := by
  induction p generalizing q run with
  | nil =>
    rw [follow, stepsFrom, List.append_nil]
    rfl
  | cons x rest ih =>
    cases hr : a.ruleFor? q x with
    | some r =>
      rw [follow, step_of_some known hr, follows?_of_some hr, stepsFrom_of_some hr]
      have hrest := ih r.destination.id (run.record ⟨q, x, r.destination.id⟩)
      rw [Run.record, List.append_assoc, List.singleton_append] at hrest
      exact hrest
    | none =>
      rw [follow, step_of_none known hr, follows?_of_none hr, stepsFrom_of_none hr,
        List.append_nil]
      rfl

theorem fst_trace {a : Automaton α} (known : a.SymbolsKnown) (p : List α) :
    (a.trace p).1 =
      ⟨a.initial.id, a.stepsFrom a.initial.id p, (a.follows? a.initial.id p).isSome,
        (a.follows? a.initial.id p).any a.isFinal⟩ := by
  have hfollow := fst_follow known a.initial.id (.new a.initial.id) p
  have htrace : (a.trace p).1 =
      ((a.withCursor a.initial.id).follow (.new a.initial.id) p).1 := rfl
  rw [htrace, hfollow]
  cases a.follows? a.initial.id p <;> simp [Run.finish, Run.new]

/-! ## How far a pattern can be followed -/

theorem length_stepsFrom_le (a : Automaton α) (q : StateId) (p : List α) :
    (a.stepsFrom q p).length ≤ p.length := by
  induction p generalizing q with
  | nil => exact Nat.le_refl 0
  | cons x rest ih =>
    cases hr : a.ruleFor? q x with
    | some r =>
      rw [stepsFrom_of_some hr]
      exact Nat.succ_le_succ (ih r.destination.id)
    | none =>
      rw [stepsFrom_of_none hr]
      exact Nat.zero_le _

theorem follows?_take_iff (a : Automaton α) (q : StateId) (p : List α) {j : Nat}
    (hj : j ≤ p.length) :
    (a.follows? q (p.take j)).isSome ↔ j ≤ (a.stepsFrom q p).length := by
  induction p generalizing q j with
  | nil =>
    have hzero : j = 0 := Nat.le_zero.1 hj
    simp [hzero, follows?]
  | cons x rest ih =>
    cases j with
    | zero => simp [follows?]
    | succ j =>
      have hj : j ≤ rest.length := Nat.le_of_succ_le_succ hj
      cases hr : a.ruleFor? q x with
      | some r =>
        rw [List.take_succ_cons, follows?_of_some hr, stepsFrom_of_some hr, ih _ hj,
          List.length_cons, Nat.succ_le_succ_iff]
      | none => simp [follows?_of_none hr, stepsFrom_of_none hr]

theorem follows?_isSome_iff (a : Automaton α) (q : StateId) (p : List α) :
    (a.follows? q p).isSome ↔ (a.stepsFrom q p).length = p.length := by
  have hwhole := follows?_take_iff a q p (Nat.le_refl p.length)
  have hle := length_stepsFrom_le a q p
  rw [List.take_length] at hwhole
  rw [hwhole]
  omega

/-- Each step carries the next symbol, leaves the state reached before, and takes its rule. -/
theorem getElem?_stepsFrom {a : Automaton α} {q : StateId} {p : List α} {i : Nat} {step : Step α}
    (h : (a.stepsFrom q p)[i]? = some step) :
    p[i]? = some step.symbol ∧
      (q :: (a.stepsFrom q p).map Step.target)[i]? = some step.source ∧
      (a.ruleFor? step.source step.symbol).map (·.destination.id) = some step.target := by
  induction p generalizing q i with
  | nil => exact absurd h (by simp [stepsFrom])
  | cons x rest ih =>
    cases hr : a.ruleFor? q x with
    | none =>
      rw [stepsFrom_of_none hr] at h
      exact absurd h (by simp)
    | some r =>
      rw [stepsFrom_of_some hr] at h ⊢
      cases i with
      | zero =>
        rw [List.getElem?_cons_zero] at h
        rw [← Option.some.inj h, hr]
        exact ⟨rfl, rfl, rfl⟩
      | succ i =>
        rw [List.getElem?_cons_succ] at h
        exact ih h

theorem getLast?_of_follows? {a : Automaton α} {q e : StateId} {p : List α}
    (h : a.follows? q p = some e) :
    (q :: (a.stepsFrom q p).map Step.target).getLast? = some e := by
  induction p generalizing q with
  | nil => exact h
  | cons x rest ih =>
    cases hr : a.ruleFor? q x with
    | none =>
      rw [follows?_of_none hr] at h
      exact absurd h (by simp)
    | some r =>
      rw [follows?_of_some hr] at h
      rw [stepsFrom_of_some hr, List.map_cons, List.getLast?_cons_cons]
      exact ih h

theorem lastState_trace {a : Automaton α} (known : a.SymbolsKnown) {p : List α} {e : StateId}
    (h : a.follows? a.initial.id p = some e) : (a.trace p).1.lastState = e := by
  have hend := getLast?_of_follows? h
  have hpath := (a.trace p).1.getLast?_path
  rw [Run.path, fst_trace known] at hpath
  rw [fst_trace known]
  exact Option.some.inj (hpath.symm.trans hend)

theorem any_isFinal_iff {a : Automaton α} (known : a.SymbolsKnown) (p : List α) :
    (a.follows? a.initial.id p).any a.isFinal ↔
      (a.follows? a.initial.id p).isSome ∧ a.isFinal (a.trace p).1.lastState := by
  cases he : a.follows? a.initial.id p with
  | none => simp
  | some e => simp [lastState_trace known he]

theorem recognize_iff_stepEach {a : Automaton α} (known : a.SymbolsKnown) (p : List α) :
    (a.recognize p).1 ↔ (∀ moved ∈ (a.restart.stepEach p).1, moved = true) ∧
      (a.restart.stepEach p).2.accepting := by
  obtain ⟨hall, hend⟩ := stepEach_of_follows? known a.initial.id p
  have hrestart : a.restart = a.withCursor a.initial.id := rfl
  rw [fst_recognize known, hrestart, hall]
  cases he : a.follows? a.initial.id p with
  | none => simp
  | some e =>
    rw [hend e he]
    simp [accepting, withCursor, isFinal]

/-! ## Walks and spelling -/

theorem spells_of_follows? {a : Automaton α} {q e : StateId} {p : List α}
    (h : a.follows? q p = some e) : a.book.Spells q p e := by
  induction p generalizing q with
  | nil => exact Rulebook.spells_nil_iff.2 (Option.some.inj h).symm
  | cons x rest ih =>
    cases hr : a.ruleFor? q x with
    | none =>
      rw [follows?_of_none hr] at h
      exact absurd h (by simp)
    | some r =>
      rw [follows?_of_some hr] at h
      obtain ⟨hmem, htrigger⟩ := Rulebook.mem_of_first? hr
      obtain ⟨hq, hx⟩ := Trigger.mk.inj htrigger
      exact Rulebook.spells_cons_iff.2 ⟨r, hmem, hq, hx, ih h⟩

theorem ruleFor?_of_mem {a : Automaton α} (deterministic : a.isDeterministic) {r : Rule α}
    (hr : r ∈ a.rules) : a.ruleFor? r.source.id r.symbol = some r := by
  have hnodup := Rulebook.isDeterministic_iff.1 deterministic
  refine Rulebook.first?_eq_some_of_unique hr ?_
  intro s hs htrigger
  exact List.inj_on_of_nodup_map hnodup hs hr htrigger

theorem follows?_of_spells {a : Automaton α} (deterministic : a.isDeterministic)
    {q e : StateId} {p : List α} (h : a.book.Spells q p e) : a.follows? q p = some e := by
  induction h with
  | nil q => rfl
  | cons mem _ ih =>
    rw [follows?_of_some (ruleFor?_of_mem deterministic mem)]
    exact ih

theorem recognize_iff_spells {a : Automaton α} (known : a.SymbolsKnown)
    (deterministic : a.isDeterministic) (p : List α) :
    (a.recognize p).1 ↔ ∃ e, a.book.Spells a.initial.id p e ∧ a.isFinal e := by
  rw [fst_recognize known]
  refine ⟨?_, ?_⟩
  · intro h
    obtain ⟨e, he, hfinal⟩ := (Option.any_eq_true _ _).1 h
    exact ⟨e, spells_of_follows? he, hfinal⟩
  · intro ⟨e, hspells, hfinal⟩
    rw [follows?_of_spells deterministic hspells]
    exact hfinal

/-! ## One walk -/

/-- The walk of a pattern from the initial state, `k` symbols far: as a trace, as an answer, and
step by step. -/
structure OneWalk (a : Automaton α) (p : List α) (k : Nat) : Prop where
  follows : k ≤ p.length ∧ (a.follows? a.initial.id (p.take k)).isSome
  longest : ∀ j, j ≤ p.length → (a.follows? a.initial.id (p.take j)).isSome → j ≤ k
  length_steps : (a.trace p).1.steps.length = k
  /-- A step carries the next symbol, leaves the state visited last, and takes its rule. -/
  steps : ∀ (i : Nat) (step : Step α), (a.trace p).1.steps[i]? = some step →
    p[i]? = some step.symbol ∧ (a.trace p).1.path[i]? = some step.source ∧
      (a.ruleFor? step.source step.symbol).map (·.destination.id) = some step.target
  start : (a.trace p).1.path.head? = some a.initial.id
  length_path : (a.trace p).1.path.length = k + 1
  last : (a.trace p).1.path.getLast? = some (a.trace p).1.lastState
  consumed : (a.trace p).1.consumed ↔ k = p.length
  accepted : (a.trace p).1.accepted ↔ k = p.length ∧ a.isFinal (a.trace p).1.lastState
  recognized : (a.recognize p).1 = (a.trace p).1.accepted
  /-- By hand: from the initial state every step succeeds, and the last ends in a final state. -/
  byHand : (a.recognize p).1 ↔ (∀ moved ∈ (a.restart.stepEach p).1, moved = true) ∧
    (a.restart.stepEach p).2.accepting
  /-- Nothing is left of the walk but the cursor at the initial state. -/
  after : (a.recognize p).2 = a.withCursor a.initial.id ∧
    (a.trace p).2 = a.withCursor a.initial.id
  /-- It does not matter where the cursor was. -/
  anywhere : ∀ q, ((a.withCursor q).recognize p).1 = (a.recognize p).1 ∧
    ((a.withCursor q).trace p).1 = (a.trace p).1

/-- The walk goes as many symbols far as it takes steps. -/
theorem oneWalk_of_known {a : Automaton α} (known : a.SymbolsKnown) (p : List α) :
    OneWalk a p (a.stepsFrom a.initial.id p).length where
  follows := by
    have hlength := length_stepsFrom_le a a.initial.id p
    exact ⟨hlength, (follows?_take_iff a _ p hlength).2 (Nat.le_refl _)⟩
  longest := by
    intro j hj hfollows
    exact (follows?_take_iff a _ p hj).1 hfollows
  length_steps := by rw [fst_trace known]
  steps := by
    intro i step hstep
    rw [fst_trace known] at hstep ⊢
    exact getElem?_stepsFrom hstep
  start := by
    rw [fst_trace known]
    rfl
  length_path := by rw [Run.length_path, fst_trace known]
  last := Run.getLast?_path _
  consumed := by rw [← follows?_isSome_iff, fst_trace known]
  accepted := by rw [← follows?_isSome_iff, ← any_isFinal_iff known, fst_trace known]
  recognized := by rw [fst_recognize known, fst_trace known]
  byHand := recognize_iff_stepEach known p
  after := ⟨recognize_snd a p, trace_snd a p⟩
  anywhere := fun q => ⟨rfl, rfl⟩

/-- Recognizing, tracing and stepping by hand are one walk, as far as the pattern can be followed;
the test of the alphabet stops no step that a rule allows. In a deterministic automaton the
accepted patterns are those that rules spell to a final state. -/
theorem one_walk {a : Automaton α} (reachable : Reachable a) (p : List α) :
    (∃ k, OneWalk a p k) ∧
    (∀ q x, (a.withCursor q).step x = ((a.ruleFor? q x).isSome,
      a.withCursor (((a.ruleFor? q x).map (·.destination.id)).getD q))) ∧
    (a.isDeterministic →
      ((a.recognize p).1 ↔ ∃ e, a.book.Spells a.initial.id p e ∧ a.isFinal e)) := by
  -- a run keeps the symbols of the rules in the alphabet, and nothing else is needed of it
  have known : a.SymbolsKnown := reachable.wellFormed.symbols
  refine ⟨⟨_, oneWalk_of_known known p⟩, step_eq known, ?_⟩
  intro deterministic
  exact recognize_iff_spells known deterministic p

/-- Two automata with their cursors moved, one with two rules on one symbol, and patterns of which
one gets halfway and the other is accepted. -/
theorem one_walk_of_moved_cursor :
    let a : Automaton Char := (ofInitial ⟨⟨0⟩, none⟩).runAll [.withPolicy .allow,
      .addRule ⟨⟨⟨0⟩, none⟩, 'a', ⟨⟨9⟩, some ⟨0⟩⟩⟩, .addRule ⟨⟨⟨0⟩, none⟩, 'a', ⟨⟨10⟩, some ⟨0⟩⟩⟩,
      .addRule ⟨⟨⟨10⟩, some ⟨0⟩⟩, 'b', ⟨⟨0⟩, none⟩⟩, .addFinal ⟨⟨10⟩, some ⟨0⟩⟩, .step 'a']
    let b : Automaton Char := (ofInitial ⟨⟨0⟩, none⟩).runAll [
      .addRule ⟨⟨⟨0⟩, none⟩, 'a', ⟨⟨1⟩, some ⟨0⟩⟩⟩, .addRule ⟨⟨⟨1⟩, some ⟨0⟩⟩, 'b', ⟨⟨0⟩, none⟩⟩,
      .addFinal ⟨⟨1⟩, some ⟨0⟩⟩, .step 'a']
    (Reachable a ∧ (a.trace ['a', 'b', 'b']).1.path = [⟨0⟩, ⟨10⟩, ⟨0⟩] ∧
      (∃ k, OneWalk a ['a', 'b', 'b'] k) ∧
      ∀ q x, (a.withCursor q).step x = ((a.ruleFor? q x).isSome,
        a.withCursor (((a.ruleFor? q x).map (·.destination.id)).getD q))) ∧
    (Reachable b ∧ b.isDeterministic ∧ (b.recognize ['a', 'b', 'a']).1 = true ∧
      (∃ k, OneWalk b ['a', 'b', 'a'] k) ∧
      ∃ e, b.book.Spells b.initial.id ['a', 'b', 'a'] e ∧ b.isFinal e) := by
  intro a b
  have ha : Reachable a := ⟨_, _, .fresh (.ofInitial _), rfl⟩
  have hb : Reachable b := ⟨_, _, .fresh (.ofInitial _), rfl⟩
  have hwalk := one_walk ha ['a', 'b', 'b']
  have hwalk' := one_walk hb ['a', 'b', 'a']
  exact ⟨⟨ha, by decide, hwalk.1, hwalk.2.1⟩, hb, by decide, by decide, hwalk'.1,
    (hwalk'.2.2 (by decide)).1 (by decide)⟩

end Acceptor.Automaton
