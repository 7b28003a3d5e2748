import Acceptor.Proofs.Walk

/-!
  Acceptor.Proofs.Language — when the words can be listed, and what the list is

  The words that rules spell to a final state can be listed where no cycle is in reach: a way that
  comes back to one of its own states could be repeated, and without one each way is short. The
  list is made by a search in depth that keeps one set of the states on its way and one buffer of
  letters, and changes both in place. It gives up at the first state that it meets again; as long
  as it does not, it leaves way and buffer as it found them.

  Main statements:
    1. `Rulebook.acyclicFrom_nil_iff` — the way comes back to a state exactly when a cycle of rules
       is in reach.
    2. `WordSearch.visit_finds` — what the search finds and what it leaves.
    3. `Automaton.searchWords_eq_language` — the search in depth lists the language.
    4. `Automaton.language_eq_none_iff` and `Automaton.mem_language_iff` — the language is listed
       exactly when no cycle is in reach, and then has the words spelled to a final state.
    5. `Automaton.language_of_rules` — all of it, and how it compares with what is accepted.
-/

namespace Acceptor

/-! ## Cycles -/

namespace Rulebook

variable {α : Type} [Letter α]

/-- Whether rules lead from a state to one from which they lead back to it. -/
def CycleInReach (b : Rulebook α) (start : StateId) : Prop :=
  ∃ w q v, b.Spells start w q ∧ v ≠ [] ∧ b.Spells q v q

theorem CycleInReach.step {b : Rulebook α} {r : Rule α} (hr : r ∈ b.rules)
    (h : b.CycleInReach r.destination.id) : b.CycleInReach r.source.id := by
  obtain ⟨w, q, v, hw, hne, hv⟩ := h
  exact ⟨r.symbol :: w, q, v, .cons hr hw, hne, hv⟩

/-- A way that comes back to its path or to itself: some rules lead to the path, or round. -/
theorem of_not_acyclicFrom {b : Rulebook α} {path : List StateId} {q : StateId}
    (h : ¬ b.acyclicFrom path q) :
    b.CycleInReach q ∨ ∃ p ∈ path, ∃ w, b.Spells q w p := by
  induction path, q using acyclicFrom.induct b with
  | case1 path q ih =>
    rw [acyclicFrom_eq, List.all_eq_true] at h
    obtain ⟨r, hr, hback⟩ : ∃ r ∈ b.leaving q, ¬ (if r.destination.id ∈ q :: path then false
        else b.acyclicFrom (q :: path) r.destination.id) = true := by
      simpa only [Classical.not_forall, exists_prop] using h
    obtain ⟨hmem, rfl⟩ := mem_leaving_iff.1 hr
    -- a way to the longer path leads round where it ends in the state that was added
    have hround : (∃ p ∈ r.source.id :: path, ∃ w, b.Spells r.destination.id w p) →
        b.CycleInReach r.source.id ∨ ∃ p ∈ path, ∃ w, b.Spells r.source.id w p := by
      rintro ⟨p, hp, w, hw⟩
      have hlonger : b.Spells r.source.id (r.symbol :: w) p := .cons hmem hw
      rcases List.mem_cons.1 hp with rfl | hp
      · exact .inl ⟨[], _, _, .nil _, by simp, hlonger⟩
      · exact .inr ⟨p, hp, _, hlonger⟩
    by_cases hon : r.destination.id ∈ r.source.id :: path
    · exact hround ⟨_, hon, [], .nil _⟩
    · rw [if_neg hon] at hback
      rcases ih ⟨r, hr⟩ hon hback with hcycle | hway
      · exact .inl (hcycle.step hmem)
      · exact hround hway

/-- Where no way comes back, the states in reach are new, and from none of them does a way come
back. -/
theorem acyclicFrom_of_spells {b : Rulebook α} {q p : StateId} {w : List α}
    (hw : b.Spells q w p) {path : List StateId} (hnew : q ∉ path) (h : b.acyclicFrom path q) :
    ∃ longer, b.acyclicFrom longer p ∧ p ∉ longer ∧ (∀ s ∈ path, s ∈ longer) ∧
      (w ≠ [] → q ∈ longer) := by
  induction hw generalizing path with
  | nil q => exact ⟨path, h, hnew, fun _ hs => hs, fun hne => absurd rfl hne⟩
  | cons hr _ ih =>
    obtain ⟨hnext, hacyclic⟩ := acyclicFrom_step h (mem_leaving_iff.2 ⟨hr, rfl⟩)
    obtain ⟨longer, hlonger, hout, hsubset, _⟩ := ih hnext hacyclic
    refine ⟨longer, hlonger, hout, fun s hs => hsubset s (List.mem_cons_of_mem _ hs), ?_⟩
    exact fun _ => hsubset _ List.mem_cons_self

theorem acyclicFrom_nil_iff {b : Rulebook α} {start : StateId} :
    b.acyclicFrom [] start ↔ ¬ b.CycleInReach start := by
  refine ⟨?_, ?_⟩
  · intro h ⟨w, q, v, hw, hne, hv⟩
    obtain ⟨before, hbefore, hnew, _⟩ := acyclicFrom_of_spells hw List.not_mem_nil h
    -- once round the cycle its state would be on the way and not
    obtain ⟨after, _, hout, _, hin⟩ := acyclicFrom_of_spells hv hnew hbefore
    exact hout (hin hne)
  · intro hnone
    by_contra h
    rcases of_not_acyclicFrom h with hcycle | ⟨p, hp, _⟩
    · exact hnone hcycle
    · exact absurd hp List.not_mem_nil

end Rulebook

/-! ## The search in depth -/

/-- What a search for words works on: the letters on its way, the states on it, and the words it
has found. -/
structure WordSearch where
  letters : List Char
  onPath : SortedSet StateId
  words : SortedSet String

namespace WordSearch

/-- The search with one more letter on its way. -/
def push (s : WordSearch) (c : Char) : WordSearch := { s with letters := s.letters ++ [c] }

/-- The search without the last letter of its way. -/
def pop (s : WordSearch) : WordSearch := { s with letters := s.letters.dropLast }

/-- The search at a state that it has come to: on its way now, and noted where it is final. -/
def enter (a : Automaton Char) (q : StateId) (s : WordSearch) : WordSearch where
  letters := s.letters
  onPath := s.onPath.insert q
  words := if a.isFinal q then s.words.insert (String.ofList s.letters) else s.words

/-- What becomes of a search that entered with some states on its way: whether it met none of them
again, and what it leaves. -/
structure Outcome (onPath : SortedSet StateId) where
  finite : Bool
  after : WordSearch
  /-- A search that goes through leaves its way as it was. -/
  restored : finite → after.onPath = onPath

theorem leaving_subset (b : Rulebook Char) (q : StateId) : ∀ r ∈ b.leaving q, r ∈ b.rules :=
  fun _ hr => (Rulebook.mem_leaving_iff.1 hr).1

theorem missing_insert_lt {b : Rulebook Char} {s : SortedSet StateId} {q : StateId}
    (target : q ∈ b.targets) (h : q ∉ s) :
    b.missing (s.insert q).contains < b.missing s.contains :=
  Rulebook.missing_lt (fun _ hp => SortedSet.mem_insert.2 (.inr hp)) target h
    (SortedSet.mem_insert.2 (.inl rfl))

mutual

/-- Searches on from a state: gives up where the state is on the way already, else notes the word
where the state is final and follows each rule that leaves it. -/
def visit (a : Automaton Char) (q : StateId) (s : WordSearch) : Outcome s.onPath :=
  if h : q ∈ s.onPath then ⟨false, s, nofun⟩
  else
    let out := visitAll a (a.transitionsFrom q) (leaving_subset a.book q) (s.enter a q)
    if hout : out.finite then
      ⟨true, { out.after with onPath := out.after.onPath.erase q }, fun _ => by
        show out.after.onPath.erase q = s.onPath
        rw [out.restored hout]
        exact SortedSet.erase_insert h⟩
    else ⟨false, out.after, nofun⟩
termination_by (a.book.missing (s.onPath.insert q).contains,
  if q ∈ s.onPath then 0 else (a.transitionsFrom q).length + 2)
decreasing_by
  rw [if_neg h]
  exact Prod.Lex.right _ (Nat.lt_succ_self _)

/-- Follows rules one after another, each with its letter on the way, and gives up with the first
that does. -/
def visitAll (a : Automaton Char) (rules : List (Rule Char)) (known : ∀ r ∈ rules, r ∈ a.book.rules)
    (s : WordSearch) : Outcome s.onPath :=
  match rules, known with
  | [], _ => ⟨true, s, fun _ => rfl⟩
  | r :: rest, known =>
    let out := visit a r.destination.id (s.push r.symbol)
    if hout : out.finite then
      let next := visitAll a rest (fun t ht => known t (List.mem_cons_of_mem _ ht)) out.after.pop
      ⟨next.finite, next.after, fun h => (next.restored h).trans (out.restored hout)⟩
    else ⟨false, out.after.pop, nofun⟩
termination_by (a.book.missing s.onPath.contains, rules.length + 1)
decreasing_by
  · -- a state that is on the way is not entered, one that is not leaves fewer to come
    by_cases h : r.destination.id ∈ s.onPath
    · show Prod.Lex _ _ (a.book.missing (s.onPath.insert _).contains, _) _
      rw [SortedSet.insert_of_mem h, push, if_pos h]
      exact Prod.Lex.right _ (Nat.succ_pos _)
    · have target : r.destination.id ∈ a.book.targets :=
        List.mem_map.2 ⟨r, known r List.mem_cons_self, rfl⟩
      exact Prod.Lex.left _ _ (missing_insert_lt target h)
  · have hway : out.after.pop.onPath = s.onPath := out.restored hout
    show Prod.Lex _ _ (a.book.missing out.after.pop.onPath.contains, _) _
    rw [hway]
    exact Prod.Lex.right _ (Nat.lt_succ_self _)

end

/-- What a search from `s` comes to. It goes through exactly where no way comes back; then its
letters are as they were, and it has found certain words, each behind those letters. -/
structure Finds {onPath : SortedSet StateId} (out : Outcome onPath) (s : WordSearch)
    (acyclic : Bool) (found : List (List Char)) : Prop where
  finite : out.finite = acyclic
  letters : out.finite → out.after.letters = s.letters
  words : out.finite → ∀ w, w ∈ out.after.words ↔
    w ∈ s.words ∨ ∃ v ∈ found, String.ofList (s.letters ++ v) = w

/-- The states on the way of a search are those of a path. -/
def OnPath (s : WordSearch) (path : List StateId) : Prop := ∀ p, p ∈ s.onPath ↔ p ∈ path

theorem finite_visit_of_mem {a : Automaton Char} {q : StateId} {s : WordSearch}
    (h : q ∈ s.onPath) : (visit a q s).finite = false := by
  rw [visit, dif_pos h]

theorem visitAll_finds {a : Automaton Char} {path : List StateId} {rules : List (Rule Char)}
    (known : ∀ r ∈ rules, r ∈ a.book.rules)
    (each : ∀ r ∈ rules, r.destination.id ∉ path → ∀ {s : WordSearch}, s.OnPath path →
      Finds (visit a r.destination.id s) s (a.book.acyclicFrom path r.destination.id)
        (a.wordsFrom path r.destination.id))
    {s : WordSearch} (hs : s.OnPath path) :
    Finds (visitAll a rules known s) s
      (rules.all fun r => if r.destination.id ∈ path then false
        else a.book.acyclicFrom path r.destination.id)
      (rules.flatMap fun r => if r.destination.id ∈ path then []
        else (a.wordsFrom path r.destination.id).map (r.symbol :: ·)) := by
  induction rules generalizing s with
  | nil =>
    rw [visitAll]
    exact ⟨rfl, fun _ => rfl, by simp⟩
  | cons r rest ih =>
    rw [visitAll, List.all_cons, List.flatMap_cons]
    by_cases hon : r.destination.id ∈ path
    · -- the rule leads back to the way, so the search gives up here
      have hstop : (visit a r.destination.id (s.push r.symbol)).finite = false :=
        finite_visit_of_mem ((hs _).2 hon)
      rw [dif_neg (by simp [hstop]), if_pos hon, Bool.false_and]
      exact ⟨rfl, by simp, by simp⟩
    · have hfirst := each r List.mem_cons_self hon (s := s.push r.symbol) hs
      rw [if_neg hon, if_neg hon, ← hfirst.finite]
      split
      · next hout =>
        have hletters : (visit a r.destination.id (s.push r.symbol)).after.pop.letters =
            s.letters := by
          rw [pop, hfirst.letters hout, push, List.dropLast_concat]
        have hway : (visit a r.destination.id (s.push r.symbol)).after.pop.OnPath path := by
          intro p
          rw [← hs p, pop, (visit a r.destination.id (s.push r.symbol)).restored hout]
          rfl
        have hnext := ih (fun t ht => known t (List.mem_cons_of_mem _ ht))
          (fun t ht => each t (List.mem_cons_of_mem _ ht)) hway
        rw [hout, Bool.true_and]
        refine ⟨hnext.finite, fun h => (hnext.letters h).trans hletters, ?_⟩
        intro h w
        rw [hnext.words h, hletters, pop, hfirst.words hout, push]
        simp [or_assoc, or_and_right, exists_or]
      · next hout =>
        rw [Bool.not_eq_true] at hout
        rw [hout, Bool.false_and]
        exact ⟨rfl, by simp, by simp⟩

/-- What the search finds from a state that is not on its way. -/
theorem visit_finds {a : Automaton Char} {path : List StateId} {q : StateId} (hq : q ∉ path)
    {s : WordSearch} (hs : s.OnPath path) :
    Finds (visit a q s) s (a.book.acyclicFrom path q) (a.wordsFrom path q) := by
  induction path, q using Rulebook.acyclicFrom.induct a.book generalizing s with
  | case1 path q ih =>
    have hnew : q ∉ s.onPath := fun h => hq ((hs q).1 h)
    have hway : (s.enter a q).OnPath (q :: path) := by
      intro p
      rw [enter, SortedSet.mem_insert, List.mem_cons, hs p]
    have hall := visitAll_finds (leaving_subset a.book q)
      (fun r hr hout _ hs' => ih ⟨r, hr⟩ hout hout hs') hway
    have hown : ∀ w, w ∈ (s.enter a q).words ↔
        w ∈ s.words ∨ ∃ v ∈ (if a.isFinal q then [[]] else [] : List (List Char)),
          String.ofList (s.letters ++ v) = w := by
      intro w
      rw [enter]
      split <;> simp [or_comm, eq_comm]
    rw [visit, dif_neg hnew, Rulebook.acyclicFrom_eq, ← hall.finite]
    by_cases hout : (visitAll a (a.transitionsFrom q) (leaving_subset a.book q)
        (s.enter a q)).finite = true
    · rw [dif_pos hout]
      refine ⟨hout.symm, fun _ => hall.letters hout, ?_⟩
      intro _ w
      rw [Automaton.wordsFrom_eq]
      simp only [List.mem_append, or_and_right, exists_or]
      rw [← or_assoc, ← hown]
      exact hall.words hout w
    · rw [dif_neg hout]
      rw [Bool.not_eq_true] at hout
      exact ⟨hout.symm, by simp, by simp⟩

end WordSearch

namespace Automaton

/-- The words that a search in depth finds from the initial state, unless it gives up. -/
def searchWords (a : Automaton Char) : Option (SortedSet String) :=
  let out := WordSearch.visit a a.initial.id ⟨[], .empty, .empty⟩
  if out.finite then some out.after.words else none

theorem searchWords_eq_language (a : Automaton Char) : a.searchWords = a.language := by
  have hway : WordSearch.OnPath ⟨[], .empty, .empty⟩ [] := by
    intro p
    simp
  have hfinds := WordSearch.visit_finds (a := a) (q := a.initial.id) List.not_mem_nil hway
  rw [searchWords, language, words]
  by_cases h : a.book.acyclicFrom [] a.initial.id = true
  · have hfinite := hfinds.finite.trans h
    rw [if_pos hfinite, if_pos h, Option.map_some]
    congr 1
    apply SortedSet.ext_mem
    intro w
    rw [hfinds.words hfinite, SortedSet.mem_ofList, List.mem_map]
    simp
  · rw [if_neg h, if_neg (by rw [hfinds.finite]; exact h)]
    rfl

/-! ## The language -/

theorem language_eq_none_iff {a : Automaton Char} :
    a.language = none ↔ a.book.CycleInReach a.initial.id := by
  have hacyclic : a.book.acyclicFrom [] a.initial.id ↔ ¬ a.book.CycleInReach a.initial.id :=
    Rulebook.acyclicFrom_nil_iff
  rw [language, Option.map_eq_none_iff, words]
  split <;> simp_all

theorem mem_language_iff {a : Automaton Char} {words : SortedSet String}
    (h : a.language = some words) {w : String} :
    w ∈ words ↔ ∃ q, a.book.Spells a.initial.id w.toList q ∧ a.isFinal q := by
  have hnone : ¬ a.book.CycleInReach a.initial.id := by
    rw [← language_eq_none_iff, h]
    simp
  obtain ⟨listed, hlisted, hmem⟩ := language_eq_some (Rulebook.acyclicFrom_nil_iff.2 hnone)
  obtain rfl : listed = words := Option.some.inj (hlisted.symm.trans h)
  exact hmem w

/-- The language is listed exactly when no cycle of rules is in reach of the initial state, and
then has the words that rules spell from there to a final state: the accepted words are among them,
and are all of them where the automaton is deterministic. It is what a search in depth finds. -/
theorem language_of_rules {a : Automaton Char} (reachable : Reachable a) :
    (a.language = none ↔ a.book.CycleInReach a.initial.id) ∧
    (∀ words, a.language = some words →
      (∀ w : String, w ∈ words ↔ ∃ q, a.book.Spells a.initial.id w.toList q ∧ a.isFinal q) ∧
      (∀ w : String, (a.recognize w.toList).1 → w ∈ words) ∧
      (a.isDeterministic → ∀ w : String, w ∈ words ↔ (a.recognize w.toList).1)) ∧
    a.searchWords = a.language := by
  have known : a.SymbolsKnown := reachable.wellFormed.symbols
  refine ⟨language_eq_none_iff, ?_, a.searchWords_eq_language⟩
  intro words hwords
  refine ⟨fun w => mem_language_iff hwords, ?_, ?_⟩
  · intro w hw
    rw [fst_recognize known] at hw
    obtain ⟨q, hq, hfinal⟩ := (Option.any_eq_true _ _).1 hw
    exact (mem_language_iff hwords).2 ⟨q, spells_of_follows? hq, hfinal⟩
  · intro deterministic w
    rw [mem_language_iff hwords, recognize_iff_spells known deterministic]

/-- Two rules that go round, two rules on one symbol of which a walk takes one, and a deterministic
automaton. -/
theorem language_of_branching_rules :
    let a : Automaton Char := (ofInitial ⟨⟨0⟩, none⟩).runAll [
      .addRule ⟨⟨⟨0⟩, none⟩, 'a', ⟨⟨1⟩, none⟩⟩, .addRule ⟨⟨⟨1⟩, none⟩, 'b', ⟨⟨0⟩, none⟩⟩,
      .addFinal ⟨⟨1⟩, none⟩]
    let b : Automaton Char := (ofInitial ⟨⟨0⟩, none⟩).runAll [.withPolicy .allow,
      .addRule ⟨⟨⟨0⟩, none⟩, 'a', ⟨⟨1⟩, none⟩⟩, .addRule ⟨⟨⟨0⟩, none⟩, 'a', ⟨⟨2⟩, none⟩⟩,
      .addRule ⟨⟨⟨2⟩, none⟩, 'b', ⟨⟨3⟩, none⟩⟩, .addFinal ⟨⟨1⟩, none⟩, .addFinal ⟨⟨3⟩, none⟩]
    let c : Automaton Char := (ofInitial ⟨⟨0⟩, none⟩).runAll [
      .addRule ⟨⟨⟨0⟩, none⟩, 'a', ⟨⟨1⟩, none⟩⟩, .addFinal ⟨⟨1⟩, none⟩]
    (Reachable a ∧ a.book.CycleInReach ⟨0⟩ ∧ a.language = none) ∧
    (Reachable b ∧ ∃ words, b.language = some words ∧ "ab" ∈ words ∧
      (b.recognize ['a', 'b']).1 = false ∧ ∀ w : String, (b.recognize w.toList).1 → w ∈ words) ∧
    (Reachable c ∧ c.isDeterministic ∧ ∃ words, c.language = some words ∧
      ∀ w : String, w ∈ words ↔ (c.recognize w.toList).1) := by
  intro a b c
  have ha : Reachable a := ⟨_, _, .fresh (.ofInitial _), rfl⟩
  have hb : Reachable b := ⟨_, _, .fresh (.ofInitial _), rfl⟩
  have hc : Reachable c := ⟨_, _, .fresh (.ofInitial _), rfl⟩
  have cyclic : a.book.CycleInReach ⟨0⟩ := by
    refine ⟨[], ⟨0⟩, ['a', 'b'], .nil _, by simp, ?_⟩
    exact .cons (r := ⟨⟨⟨0⟩, none⟩, 'a', ⟨⟨1⟩, none⟩⟩) (by decide)
      (.cons (r := ⟨⟨⟨1⟩, none⟩, 'b', ⟨⟨0⟩, none⟩⟩) (by decide) (.nil _))
  -- rules that lead to greater states do not go round
  have listed : ∀ d : Automaton Char, Reachable d →
      (∀ r ∈ d.rules, r.source.id < r.destination.id) → ∃ words, d.language = some words := by
    intro d hd ascending
    have hnone := Rulebook.acyclicFrom_nil_iff.1
      (Rulebook.acyclicFrom_of_ascending ascending [] d.initial.id (by simp))
    exact Option.ne_none_iff_exists'.1 (mt (language_of_rules hd).1.1 hnone)
  obtain ⟨words, hwords⟩ := listed b hb (by decide)
  obtain ⟨words', hwords'⟩ := listed c hc (by decide)
  obtain ⟨hspelled, hrecognized, _⟩ := (language_of_rules hb).2.1 words hwords
  have hab : "ab" ∈ words := by
    refine (hspelled "ab").2 ⟨⟨3⟩, ?_, by decide⟩
    exact .cons (r := ⟨⟨⟨0⟩, none⟩, 'a', ⟨⟨2⟩, none⟩⟩) (by decide)
      (.cons (r := ⟨⟨⟨2⟩, none⟩, 'b', ⟨⟨3⟩, none⟩⟩) (by decide) (.nil _))
  exact ⟨⟨ha, cyclic, (language_of_rules ha).1.2 cyclic⟩,
    ⟨hb, words, hwords, hab, by decide, hrecognized⟩,
    hc, by decide, words', hwords', ((language_of_rules hc).2.1 words' hwords').2.2 (by decide)⟩

end Automaton

end Acceptor
