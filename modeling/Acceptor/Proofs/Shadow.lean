import Acceptor.Proofs.Language

/-!
  Acceptor.Proofs.Shadow — rules that a walk passes over

  Of several rules on one symbol a walk takes the first by text and passes over the others. The
  language is listed from all rules. So each accepted word is listed, but a word may be listed that
  is spelled only through a rule that is passed over. Where that does not happen depends on what
  the rules lead to: the rule that is taken must accept all that those in its shadow accept.

  Main statements:
    1. `Automaton.exists_shadowed` — a word that is spelled and not accepted goes through a shadowed
       rule.
    2. `Automaton.Covered.any_isFinal` — where shadowed rules add nothing, what is spelled is walked.
    3. `Automaton.listed_iff_recognized` — all of it, of the listed language.
-/

namespace Acceptor.Automaton

variable {α : Type} [Letter α] {a : Automaton α}

/-- Whether rules spell a word from a state to a final one. -/
def Accepts (a : Automaton α) (q : StateId) (w : List α) : Prop :=
  ∃ p, a.book.Spells q w p ∧ a.isFinal p

/-- Whether a rule is there, and a walk takes another one in its place. -/
def Shadowed (a : Automaton α) (r : Rule α) : Prop :=
  r ∈ a.rules ∧ a.ruleFor? r.source.id r.symbol ≠ some r

/-- Whether, wherever a walk comes, the rule that it takes accepts all that those in its shadow
accept. -/
def Covered (a : Automaton α) : Prop :=
  ∀ v r s, a.follows? a.initial.id v = some r.source.id → a.Shadowed r →
    a.ruleFor? r.source.id r.symbol = some s →
    ∀ w, a.Accepts r.destination.id w → a.Accepts s.destination.id w

/-! ## Spelling to a final state -/

theorem accepts_nil_iff {q : StateId} : a.Accepts q [] ↔ a.isFinal q := by
  simp [Accepts, Rulebook.spells_nil_iff]

theorem accepts_cons_iff {q : StateId} {x : α} {w : List α} :
    a.Accepts q (x :: w) ↔
      ∃ r ∈ a.rules, r.source.id = q ∧ r.symbol = x ∧ a.Accepts r.destination.id w := by
  simp only [Accepts, Rulebook.spells_cons_iff]
  refine ⟨?_, ?_⟩
  · intro ⟨p, ⟨r, hr, hq, hx, hrest⟩, hfinal⟩
    exact ⟨r, hr, hq, hx, p, hrest, hfinal⟩
  · intro ⟨r, hr, hq, hx, p, hrest, hfinal⟩
    exact ⟨p, ⟨r, hr, hq, hx, hrest⟩, hfinal⟩

theorem accepts_of_any_isFinal {q : StateId} {w : List α}
    (h : (a.follows? q w).any a.isFinal) : a.Accepts q w := by
  obtain ⟨p, hp, hfinal⟩ := (Option.any_eq_true _ _).1 h
  exact ⟨p, spells_of_follows? hp, hfinal⟩

/-! ## The rule that is taken -/

theorem exists_ruleFor? {r : Rule α} (hr : r ∈ a.rules) :
    ∃ s, a.ruleFor? r.source.id r.symbol = some s :=
  Option.isSome_iff_exists.1 (Rulebook.first?_isSome_iff.2 ⟨r, hr, rfl⟩)

theorem follows?_append (q : StateId) (v w : List α) :
    a.follows? q (v ++ w) = (a.follows? q v).bind (a.follows? · w) := by
  induction v generalizing q with
  | nil => rfl
  | cons x v ih =>
    rw [List.cons_append]
    cases hr : a.ruleFor? q x with
    | some r => rw [follows?_of_some hr, follows?_of_some hr, ih]
    | none => rw [follows?_of_none hr, follows?_of_none hr, Option.bind_none]

theorem follows?_through {q p : StateId} {v : List α} {x : α} {s : Rule α}
    (hv : a.follows? q v = some p) (hs : a.ruleFor? p x = some s) (w : List α) :
    a.follows? q (v ++ x :: w) = a.follows? s.destination.id w :=
  calc a.follows? q (v ++ x :: w)
      = (a.follows? q v).bind (a.follows? · (x :: w)) := follows?_append q v (x :: w)
    _ = a.follows? p (x :: w) := by rw [hv, Option.bind_some]
    _ = a.follows? s.destination.id w := follows?_of_some hs w

/-- Where a word that is spelled is not accepted by a walk, the two part at a shadowed rule. -/
theorem exists_shadowed {q : StateId} {w : List α} (spelled : a.Accepts q w)
    (missed : ¬ (a.follows? q w).any a.isFinal) :
    ∃ v r u, w = v ++ r.symbol :: u ∧ a.follows? q v = some r.source.id ∧ a.Shadowed r ∧
      a.Accepts r.destination.id u := by
  induction w generalizing q with
  | nil => exact absurd (accepts_nil_iff.1 spelled) missed
  | cons x rest ih =>
    obtain ⟨r, hr, rfl, rfl, hrest⟩ := accepts_cons_iff.1 spelled
    by_cases htaken : a.ruleFor? r.source.id r.symbol = some r
    · -- the walk goes along, so they part later
      rw [follows?_of_some htaken] at missed
      obtain ⟨v, s, u, rfl, hv, hs, hu⟩ := ih hrest missed
      exact ⟨r.symbol :: v, s, u, rfl, (follows?_of_some htaken v).trans hv, hs, hu⟩
    · exact ⟨[], r, rest, rfl, rfl, ⟨hr, htaken⟩, hrest⟩

theorem Covered.any_isFinal (h : a.Covered) {v w : List α} {q : StateId}
    (hv : a.follows? a.initial.id v = some q) (hw : a.Accepts q w) :
    (a.follows? q w).any a.isFinal := by
  induction w generalizing v q with
  | nil => exact accepts_nil_iff.1 hw
  | cons x rest ih =>
    obtain ⟨r, hr, rfl, rfl, hrest⟩ := accepts_cons_iff.1 hw
    obtain ⟨s, hs⟩ := exists_ruleFor? hr
    have htaken : a.Accepts s.destination.id rest := by
      by_cases heq : s = r
      · exact heq ▸ hrest
      · have hshadowed : a.Shadowed r := ⟨hr, fun hr' => heq (Option.some.inj (hs.symm.trans hr'))⟩
        exact h v r s hv hshadowed hs rest hrest
    rw [follows?_of_some hs]
    exact ih (follows?_through hv hs []) htaken

/-- What is spelled from the initial state is what is recognized, exactly where shadowed rules add
nothing. -/
theorem accepts_iff_recognize_iff_covered (known : a.SymbolsKnown) :
    (∀ w, a.Accepts a.initial.id w ↔ (a.recognize w).1) ↔ a.Covered := by
  simp only [fst_recognize known]
  refine ⟨?_, ?_⟩
  · intro h v r s hv hshadowed hs w hw
    have hspelled : a.Accepts a.initial.id (v ++ r.symbol :: w) := by
      obtain ⟨p, hp, hfinal⟩ := hw
      exact ⟨p, (spells_of_follows? hv).append (.cons hshadowed.1 hp), hfinal⟩
    have hwalk := (h _).1 hspelled
    rw [follows?_through hv hs] at hwalk
    exact accepts_of_any_isFinal hwalk
  · intro h w
    exact ⟨h.any_isFinal (v := []) rfl, accepts_of_any_isFinal⟩

/-- Where the language is listed, each word that is recognized is in the list. A word of the list
that is not recognized is spelled through a rule that a walk comes to and passes over. And the list
has no such word exactly where, wherever a walk comes, the rule that it takes accepts all that those
in its shadow accept. -/
theorem listed_iff_recognized {a : Automaton Char} (reachable : Reachable a)
    {words : SortedSet String} (listed : a.language = some words) :
    (∀ w : String, (a.recognize w.toList).1 → w ∈ words) ∧
    (∀ w ∈ words, ¬ (a.recognize w.toList).1 →
      ∃ v r u, w.toList = v ++ r.symbol :: u ∧ a.follows? a.initial.id v = some r.source.id ∧
        a.Shadowed r ∧ a.Accepts r.destination.id u) ∧
    ((∀ w : String, w ∈ words ↔ (a.recognize w.toList).1) ↔ a.Covered) := by
  have known : a.SymbolsKnown := reachable.wellFormed.symbols
  have hmem (w : String) : w ∈ words ↔ a.Accepts a.initial.id w.toList := mem_language_iff listed
  refine ⟨?_, ?_, ?_⟩
  · intro w hw
    rw [fst_recognize known] at hw
    exact (hmem w).2 (accepts_of_any_isFinal hw)
  · intro w hw hmissed
    rw [fst_recognize known] at hmissed
    exact exists_shadowed ((hmem w).1 hw) hmissed
  · rw [← accepts_iff_recognize_iff_covered known]
    refine ⟨?_, fun h w => (hmem w).trans (h w.toList)⟩
    intro h w
    have hw := (hmem (String.ofList w)).symm.trans (h (String.ofList w))
    rwa [String.toList_ofList] at hw

/-- Two rules on one symbol of which the second leads to a final state: its word is listed, and not
recognized. -/
theorem shadowed_word_listed :
    let a : Automaton Char := (ofInitial ⟨⟨0⟩, none⟩).runAll [.withPolicy .allow,
      .addRule ⟨⟨⟨0⟩, none⟩, 'a', ⟨⟨1⟩, none⟩⟩, .addRule ⟨⟨⟨0⟩, none⟩, 'a', ⟨⟨2⟩, none⟩⟩,
      .addFinal ⟨⟨2⟩, none⟩]
    Reachable a ∧ ∃ words, a.language = some words ∧ "a" ∈ words ∧
      (a.recognize "a".toList).1 = false := by
  intro a
  obtain ⟨words, hwords, hmem⟩ := language_eq_some (a := a)
    (Rulebook.acyclicFrom_of_ascending (by decide) [] _ (by simp))
  refine ⟨⟨_, _, .fresh (.ofInitial _), rfl⟩, words, hwords, ?_, by decide⟩
  refine (hmem "a").2 ⟨⟨2⟩, ?_, by decide⟩
  exact .cons (r := ⟨⟨⟨0⟩, none⟩, 'a', ⟨⟨2⟩, none⟩⟩) (by decide) (.nil _)

/-- The same automaton, where the shadowed rule adds a word, and one where both rules lead to final
states, so that it adds none. -/
theorem listed_iff_recognized_of_two_branchings :
    let a : Automaton Char := (ofInitial ⟨⟨0⟩, none⟩).runAll [.withPolicy .allow,
      .addRule ⟨⟨⟨0⟩, none⟩, 'a', ⟨⟨1⟩, none⟩⟩, .addRule ⟨⟨⟨0⟩, none⟩, 'a', ⟨⟨2⟩, none⟩⟩,
      .addFinal ⟨⟨2⟩, none⟩]
    let b : Automaton Char := (ofInitial ⟨⟨0⟩, none⟩).runAll [.withPolicy .allow,
      .addRule ⟨⟨⟨0⟩, none⟩, 'a', ⟨⟨1⟩, none⟩⟩, .addRule ⟨⟨⟨0⟩, none⟩, 'a', ⟨⟨2⟩, none⟩⟩,
      .addFinal ⟨⟨1⟩, none⟩, .addFinal ⟨⟨2⟩, none⟩]
    (Reachable a ∧ ¬ a.Covered ∧ ∃ words, a.language = some words ∧
      ∃ w ∈ words, (a.recognize w.toList).1 = false) ∧
    (Reachable b ∧ ¬ b.isDeterministic ∧ b.Covered ∧ ∃ words, b.language = some words ∧
      ∀ w : String, w ∈ words ↔ (b.recognize w.toList).1) := by
  intro a b
  have ha : Reachable a := ⟨_, _, .fresh (.ofInitial _), rfl⟩
  have hb : Reachable b := ⟨_, _, .fresh (.ofInitial _), rfl⟩
  obtain ⟨words, hwords, hmem⟩ := language_eq_some (a := a)
    (Rulebook.acyclicFrom_of_ascending (by decide) [] _ (by simp))
  obtain ⟨words', hwords', _⟩ := language_eq_some (a := b)
    (Rulebook.acyclicFrom_of_ascending (by decide) [] _ (by simp))
  have hlisted : "a" ∈ words := by
    refine (hmem "a").2 ⟨⟨2⟩, ?_, by decide⟩
    exact .cons (r := ⟨⟨⟨0⟩, none⟩, 'a', ⟨⟨2⟩, none⟩⟩) (by decide) (.nil _)
  have hmissed : (a.recognize "a".toList).1 = false := by decide
  have huncovered : ¬ a.Covered := by
    intro hcovered
    have hagree := (listed_iff_recognized ha hwords).2.2.2 hcovered "a"
    exact Bool.false_ne_true (hmissed.symm.trans (hagree.1 hlisted))
  -- both rules lead to a final state without rules, which accepts the empty word alone
  have hcovered : b.Covered := by
    intro v r s _ hshadowed hs w hw
    have hleaf : ∀ t ∈ b.rules, b.isFinal t.destination.id ∧
        ∀ u ∈ b.rules, u.source.id ≠ t.destination.id := by decide
    cases w with
    | nil => exact accepts_nil_iff.2 (hleaf s (Rulebook.mem_of_first? hs).1).1
    | cons x rest =>
      obtain ⟨t, ht, hsource, _⟩ := accepts_cons_iff.1 hw
      exact absurd hsource ((hleaf r hshadowed.1).2 t ht)
  exact ⟨⟨ha, huncovered, words, hwords, "a", hlisted, hmissed⟩,
    hb, by decide, hcovered, words', hwords', (listed_iff_recognized hb hwords').2.2.2 hcovered⟩

end Acceptor.Automaton
