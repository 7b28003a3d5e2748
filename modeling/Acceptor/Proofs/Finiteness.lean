import Acceptor.Proofs.Search
import Acceptor.Proofs.Shadow
import Mathlib.Data.Set.Finite.Basic
import Mathlib.Data.Set.Finite.List

/-!
  Acceptor.Proofs.Finiteness — when infinitely many words are accepted

  A cycle in reach can be gone round any number of times, so it makes the language infinite where
  rules lead on from it to a final state. The search for words gives up at any cycle in reach. Hence
  no infinite language is ever listed, but a finite one may not be either: its automaton may go
  round where no final state can be reached any more. Such dead ends can be cut off, which changes
  no accepted word; what goes round then goes on to a final state.

  Main statements:
    1. `Automaton.accepts_trim_iff` — rules to dead ends add no words.
    2. `Automaton.exists_live_of_cycle_trim` — without them every cycle leads on to a final state.
    3. `Automaton.infinite_accepts_iff` — which languages are infinite.
    4. `Automaton.unlisted_exact` — where a language that is not listed is infinite.
-/

namespace Acceptor

theorem Rulebook.Spells.round {α : Type} [Letter α] {b : Rulebook α} {q : StateId} {v : List α}
    (h : b.Spells q v q) (n : Nat) : b.Spells q (List.replicate n v).flatten q := by
  induction n with
  | zero => exact .nil q
  | succ n ih =>
    rw [List.replicate_succ, List.flatten_cons]
    exact h.append ih

namespace Automaton

variable {α : Type} [Letter α] {a : Automaton α}

/-- Whether rules lead from the initial state to a cycle, and on from the cycle to a final state. -/
def LiveCycleInReach (a : Automaton α) : Prop :=
  ∃ w q v u, a.book.Spells a.initial.id w q ∧ v ≠ [] ∧ a.book.Spells q v q ∧ a.Accepts q u

theorem LiveCycleInReach.cycleInReach (h : a.LiveCycleInReach) :
    a.book.CycleInReach a.initial.id := by
  obtain ⟨w, q, v, _, hw, hne, hv, _⟩ := h
  exact ⟨w, q, v, hw, hne, hv⟩

/-! ## Dead ends -/

/-- Whether rules lead from a state to a final one. -/
def isLive (a : Automaton α) (q : StateId) : Bool :=
  a.finals.toList.any (a.book.reachableFrom q).contains

/-- The automaton without the rules to states from which no final one is reached. -/
def trim (a : Automaton α) : Automaton α :=
  { a with book := .ofList (a.rules.filter fun r => a.isLive r.destination.id) }

theorem isLive_iff {q : StateId} : a.isLive q ↔ ∃ w, a.Accepts q w := by
  rw [isLive, List.any_eq_true]
  refine ⟨?_, ?_⟩
  · intro ⟨p, hp, hreached⟩
    obtain ⟨w, hw⟩ := Rulebook.mem_reachableFrom_iff.1 hreached
    exact ⟨w, p, hw, SortedSet.mem_toList.1 hp⟩
  · intro ⟨w, p, hw, hfinal⟩
    exact ⟨p, SortedSet.mem_toList.2 hfinal, Rulebook.mem_reachableFrom_iff.2 ⟨w, hw⟩⟩

theorem mem_rules_trim {r : Rule α} :
    r ∈ a.trim.rules ↔ r ∈ a.rules ∧ a.isLive r.destination.id := by
  show r ∈ (Rulebook.ofList _).rules ↔ _
  rw [Rulebook.rules_ofList, List.mem_filter]

/-- A word that is accepted never comes to a dead end, so all its rules are still there. -/
theorem accepts_trim_iff {q : StateId} {w : List α} : a.trim.Accepts q w ↔ a.Accepts q w := by
  induction w generalizing q with
  | nil => rw [accepts_nil_iff, accepts_nil_iff]; rfl
  | cons x w ih =>
    rw [accepts_cons_iff, accepts_cons_iff]
    refine ⟨?_, ?_⟩
    · intro ⟨r, hr, hq, hx, hw⟩
      exact ⟨r, (mem_rules_trim.1 hr).1, hq, hx, ih.1 hw⟩
    · intro ⟨r, hr, hq, hx, hw⟩
      have hlive : a.isLive r.destination.id := isLive_iff.2 ⟨w, hw⟩
      exact ⟨r, mem_rules_trim.2 ⟨hr, hlive⟩, hq, hx, ih.2 hw⟩

theorem isLive_of_spells_trim {q p : StateId} {w : List α} (hw : a.trim.book.Spells q w p)
    (hne : w ≠ []) : a.isLive p := by
  induction hw with
  | nil q => exact absurd rfl hne
  | @cons r v p mem rest ih =>
    cases v with
    | nil =>
      rw [Rulebook.spells_nil_iff.1 rest]
      exact (mem_rules_trim.1 mem).2
    | cons x v => exact ih (List.cons_ne_nil x v)

/-- Without dead ends, what goes round goes on to a final state. -/
theorem exists_live_of_cycle_trim (h : a.trim.book.CycleInReach a.initial.id) :
    a.LiveCycleInReach := by
  have hrules : ∀ r ∈ a.trim.book.rules, r ∈ a.book.rules := fun r hr => (mem_rules_trim.1 hr).1
  obtain ⟨w, q, v, hw, hne, hv⟩ := h
  obtain ⟨u, hu⟩ := isLive_iff.1 (isLive_of_spells_trim hv hne)
  exact ⟨w, q, v, u, hw.mono hrules, hne, hv.mono hrules, hu⟩

/-! ## Infinitely many words -/

/-- Each time round a cycle makes a longer word. -/
theorem LiveCycleInReach.infinite_accepts (h : a.LiveCycleInReach) :
    {w | a.Accepts a.initial.id w}.Infinite := by
  obtain ⟨w, q, v, u, hw, hne, hv, p, hu, hfinal⟩ := h
  have hpos : 0 < v.length := List.length_pos_iff.2 hne
  refine Set.infinite_of_injective_forall_mem
    (f := fun n : Nat => w ++ ((List.replicate n v).flatten ++ u)) ?_ ?_
  · intro m n heq
    have hlength := congrArg List.length heq
    simp only [List.length_append, List.length_flatten, List.map_replicate,
      List.sum_replicate_nat] at hlength
    have hmul : m * v.length = n * v.length := by omega
    exact Nat.eq_of_mul_eq_mul_right hpos hmul
  · intro n
    exact ⟨p, hw.append ((hv.round n).append hu), hfinal⟩

theorem infinite_accepts_iff :
    {w | a.Accepts a.initial.id w}.Infinite ↔ a.LiveCycleInReach := by
  refine ⟨?_, LiveCycleInReach.infinite_accepts⟩
  intro hinfinite
  by_contra hnone
  -- cut off its dead ends, and nothing goes round any more
  have hacyclic : a.trim.book.acyclicFrom [] a.initial.id :=
    Rulebook.acyclicFrom_nil_iff.2 fun hcycle => hnone (exists_live_of_cycle_trim hcycle)
  refine hinfinite ((List.finite_toSet (a.trim.wordsFrom [] a.initial.id)).subset ?_)
  intro w hw
  exact (mem_wordsFrom_iff hacyclic).2 (accepts_trim_iff.2 hw)

/-! ## The listed language -/

theorem infinite_texts_iff {P : List Char → Prop} :
    {w : String | P w.toList}.Infinite ↔ {w | P w}.Infinite := by
  have himage : String.toList '' {w : String | P w.toList} = {w | P w} := by
    ext w
    refine ⟨?_, fun hw => ⟨String.ofList w, ?_, String.toList_ofList⟩⟩
    · rintro ⟨s, hs, rfl⟩
      exact hs
    · show P (String.ofList w).toList
      rw [String.toList_ofList]
      exact hw
  rw [← himage, Set.infinite_image_iff fun _ _ _ _ h => String.toList_inj.1 h]

/-- The words that an automaton accepts. -/
def accepted (a : Automaton Char) : Set String := {w | (a.recognize w.toList).1 = true}

theorem accepts_of_mem_accepted {a : Automaton Char} (known : a.SymbolsKnown) {w : String}
    (hw : w ∈ a.accepted) : a.Accepts a.initial.id w.toList :=
  accepts_of_any_isFinal ((fst_recognize known w.toList).symm.trans hw)

theorem accepted_subset_of_dead {a : Automaton Char} (known : a.SymbolsKnown)
    (dead : ∀ r ∈ a.rules, ¬ a.isFinal r.destination.id) : a.accepted ⊆ {""} := by
  intro w hw
  obtain ⟨p, hp, hfinal⟩ := accepts_of_mem_accepted known hw
  cases hchars : w.toList with
  | nil => exact String.toList_eq_nil_iff.1 hchars
  | cons x rest =>
    rw [hchars] at hp
    obtain ⟨r, hr, _, _, hrest⟩ := Rulebook.spells_cons_iff.1 hp
    have hdead := hrest.along (P := fun q => ¬ a.isFinal q) (fun s hs _ => dead s hs) (dead r hr)
    exact absurd hfinal hdead

/-- No infinite language is listed. In a deterministic automaton infinitely many words are accepted
exactly where a cycle in reach leads on to a final state; so what is not listed is infinite exactly
where, if any cycle is in reach, then one that leads on to a final state is. -/
theorem unlisted_exact {a : Automaton Char} (reachable : Reachable a) :
    (a.accepted.Infinite → a.language = none) ∧
    (a.isDeterministic → (a.accepted.Infinite ↔ a.LiveCycleInReach) ∧
      ((a.language = none ↔ a.accepted.Infinite) ↔
        (a.book.CycleInReach a.initial.id → a.LiveCycleInReach))) := by
  have known : a.SymbolsKnown := reachable.wellFormed.symbols
  have hspelled : {w : String | a.Accepts a.initial.id w.toList}.Infinite ↔ a.LiveCycleInReach :=
    infinite_texts_iff.trans infinite_accepts_iff
  refine ⟨?_, ?_⟩
  · intro hinfinite
    rw [language_eq_none_iff]
    have hsubset : a.accepted ⊆ {w : String | a.Accepts a.initial.id w.toList} :=
      fun w hw => accepts_of_mem_accepted known hw
    exact (hspelled.1 (hinfinite.mono hsubset)).cycleInReach
  · intro deterministic
    have hsame : a.accepted = {w : String | a.Accepts a.initial.id w.toList} :=
      Set.ext fun w => recognize_iff_spells known deterministic w.toList
    have hinfinite : a.accepted.Infinite ↔ a.LiveCycleInReach := hsame ▸ hspelled
    refine ⟨hinfinite, ?_⟩
    rw [language_eq_none_iff, hinfinite]
    exact ⟨fun h => h.1, fun h => ⟨h, LiveCycleInReach.cycleInReach⟩⟩

/-- A rule to a state that only leads back to itself and is not final: the one word that is accepted
is the empty word, and yet the language is not listed. -/
theorem finite_language_unlisted :
    let a : Automaton Char := (ofInitial ⟨⟨0⟩, none⟩).runAll [
      .addRule ⟨⟨⟨0⟩, none⟩, 'a', ⟨⟨1⟩, none⟩⟩, .addRule ⟨⟨⟨1⟩, none⟩, 'b', ⟨⟨1⟩, none⟩⟩,
      .addFinal ⟨⟨0⟩, none⟩]
    Reachable a ∧ a.isDeterministic ∧ a.accepted = {""} ∧ a.language = none ∧
      ¬ (a.language = none ↔ a.accepted.Infinite) := by
  intro a
  have ha : Reachable a := ⟨_, _, .fresh (.ofInitial _), rfl⟩
  have hdead : ∀ r ∈ a.rules, ¬ a.isFinal r.destination.id := by decide
  have hempty : a.accepted = {""} := by
    refine (accepted_subset_of_dead ha.wellFormed.symbols hdead).antisymm ?_
    rintro w rfl
    show (a.recognize []).1 = true
    decide
  have hnone : a.language = none := by
    refine language_eq_none_iff.2 ⟨['a'], ⟨1⟩, ['b'], ?_, by simp, ?_⟩
    · exact .cons (r := ⟨⟨⟨0⟩, none⟩, 'a', ⟨⟨1⟩, none⟩⟩) (by decide) (.nil _)
    · exact .cons (r := ⟨⟨⟨1⟩, none⟩, 'b', ⟨⟨1⟩, none⟩⟩) (by decide) (.nil _)
  refine ⟨ha, by decide, hempty, hnone, ?_⟩
  intro h
  have hinfinite := h.1 hnone
  rw [hempty] at hinfinite
  exact hinfinite (Set.finite_singleton "")

/-- A cycle from which no final state is reached, so that the accepted words are finitely many, and
one with a final state on it, so that they are not. Neither language is listed. -/
theorem unlisted_exact_of_two_cycles :
    let a : Automaton Char := (ofInitial ⟨⟨0⟩, none⟩).runAll [
      .addRule ⟨⟨⟨0⟩, none⟩, 'a', ⟨⟨1⟩, none⟩⟩, .addRule ⟨⟨⟨1⟩, none⟩, 'b', ⟨⟨2⟩, none⟩⟩,
      .addRule ⟨⟨⟨2⟩, none⟩, 'a', ⟨⟨1⟩, none⟩⟩, .addFinal ⟨⟨0⟩, none⟩]
    let b : Automaton Char := (ofInitial ⟨⟨0⟩, none⟩).runAll [
      .addRule ⟨⟨⟨0⟩, none⟩, 'a', ⟨⟨1⟩, none⟩⟩, .addRule ⟨⟨⟨1⟩, none⟩, 'b', ⟨⟨0⟩, none⟩⟩,
      .addFinal ⟨⟨1⟩, none⟩]
    (Reachable a ∧ a.isDeterministic ∧ a.book.CycleInReach ⟨0⟩ ∧ ¬ a.LiveCycleInReach ∧
      ¬ (a.language = none ↔ a.accepted.Infinite)) ∧
    (Reachable b ∧ b.isDeterministic ∧ b.LiveCycleInReach ∧ b.accepted.Infinite ∧
      b.language = none) := by
  intro a b
  have ha : Reachable a := ⟨_, _, .fresh (.ofInitial _), rfl⟩
  have hb : Reachable b := ⟨_, _, .fresh (.ofInitial _), rfl⟩
  obtain ⟨_, hacases⟩ := unlisted_exact ha
  obtain ⟨hainfinite, haunlisted⟩ := hacases (by decide)
  obtain ⟨hbunlisted, hbcases⟩ := unlisted_exact hb
  have hacycle : a.book.CycleInReach ⟨0⟩ := by
    refine ⟨['a'], ⟨1⟩, ['b', 'a'], ?_, by simp, ?_⟩
    · exact .cons (r := ⟨⟨⟨0⟩, none⟩, 'a', ⟨⟨1⟩, none⟩⟩) (by decide) (.nil _)
    · exact .cons (r := ⟨⟨⟨1⟩, none⟩, 'b', ⟨⟨2⟩, none⟩⟩) (by decide)
        (.cons (r := ⟨⟨⟨2⟩, none⟩, 'a', ⟨⟨1⟩, none⟩⟩) (by decide) (.nil _))
  have hdead : ∀ r ∈ a.rules, ¬ a.isFinal r.destination.id := by decide
  have hadead : ¬ a.LiveCycleInReach := by
    rw [← hainfinite, Set.not_infinite]
    exact (Set.finite_singleton "").subset (accepted_subset_of_dead ha.wellFormed.symbols hdead)
  have hblive : b.LiveCycleInReach := by
    have hto : b.book.Spells ⟨0⟩ ['a'] ⟨1⟩ :=
      .cons (r := ⟨⟨⟨0⟩, none⟩, 'a', ⟨⟨1⟩, none⟩⟩) (by decide) (.nil _)
    have hback : b.book.Spells ⟨1⟩ ['b'] ⟨0⟩ :=
      .cons (r := ⟨⟨⟨1⟩, none⟩, 'b', ⟨⟨0⟩, none⟩⟩) (by decide) (.nil _)
    exact ⟨['a'], ⟨1⟩, ['b', 'a'], [], hto, by simp, hback.append hto, ⟨1⟩, .nil _, by decide⟩
  have hbinfinite : b.accepted.Infinite := (hbcases (by decide)).1.2 hblive
  exact ⟨⟨ha, by decide, hacycle, hadead, fun h => hadead (haunlisted.1 h hacycle)⟩,
    hb, by decide, hblive, hbinfinite, hbunlisted hbinfinite⟩

end Automaton

end Acceptor
