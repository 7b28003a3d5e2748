import Acceptor.Automaton.Language

/-!
  Acceptor.Proofs.Spelling — the words that rules spell

  Rules that follow one another spell a word: the symbols they wait for. The search for words
  tries all of them and gives up where a way comes back to a state of its own. Where it does not
  give up, what it finds is what the rules spell.

  Main statements:
    1. `Automaton.mem_wordsFrom_iff` — a search that meets no cycle finds the spelled words.
    2. `Rulebook.acyclicFrom_of_ascending` — where rules lead to greater states there is none.
    3. `Automaton.language_eq_some` — the listed language has the words spelled to a final state.
-/

namespace Acceptor

namespace Rulebook

variable {α : Type} [Letter α]

/-- Whether rules lead from one state to another and spell a word on the way. -/
inductive Spells (b : Rulebook α) : StateId → List α → StateId → Prop where
  | nil (q : StateId) : Spells b q [] q
  | cons {r : Rule α} {w : List α} {p : StateId} (mem : r ∈ b.rules)
      (rest : Spells b r.destination.id w p) : Spells b r.source.id (r.symbol :: w) p

theorem spells_nil_iff {b : Rulebook α} {q p : StateId} : b.Spells q [] p ↔ p = q := by
  refine ⟨?_, ?_⟩
  · intro h
    cases h
    rfl
  · intro h
    rw [h]
    exact .nil q

theorem spells_cons_iff {b : Rulebook α} {q p : StateId} {x : α} {w : List α} :
    b.Spells q (x :: w) p ↔
      ∃ r ∈ b.rules, r.source.id = q ∧ r.symbol = x ∧ b.Spells r.destination.id w p := by
  refine ⟨?_, ?_⟩
  · intro h
    cases h with
    | cons mem rest => exact ⟨_, mem, rfl, rfl, rest⟩
  · intro ⟨r, mem, hq, hx, rest⟩
    rw [← hq, ← hx]
    exact .cons mem rest

theorem Spells.mono {b c : Rulebook α} (h : ∀ r ∈ b.rules, r ∈ c.rules) {q p : StateId}
    {w : List α} (hw : b.Spells q w p) : c.Spells q w p := by
  induction hw with
  | nil q => exact .nil q
  | cons mem _ ih => exact .cons (h _ mem) ih

theorem Spells.append {b : Rulebook α} {q p s : StateId} {v w : List α} (hv : b.Spells q v p)
    (hw : b.Spells p w s) : b.Spells q (v ++ w) s := by
  induction hv with
  | nil q => exact hw
  | cons mem _ ih => exact .cons mem (ih hw)

theorem Spells.along {b : Rulebook α} {P : StateId → Prop}
    (along : ∀ r ∈ b.rules, P r.source.id → P r.destination.id) {q p : StateId} {w : List α}
    (hw : b.Spells q w p) (hq : P q) : P p := by
  induction hw with
  | nil q => exact hq
  | cons mem _ ih => exact ih (along _ mem hq)

/-- Where no way on from `q` comes back to the path, no rule leads back to it. -/
theorem acyclicFrom_step {b : Rulebook α} {path : List StateId} {q : StateId}
    (h : b.acyclicFrom path q) {r : Rule α} (hr : r ∈ b.leaving q) :
    r.destination.id ∉ q :: path ∧ b.acyclicFrom (q :: path) r.destination.id := by
  rw [acyclicFrom_eq, List.all_eq_true] at h
  have hstep := h r hr
  split at hstep
  · exact absurd hstep (by simp)
  · next hnew => exact ⟨hnew, hstep⟩

theorem acyclicFrom_of_ascending {b : Rulebook α}
    (ascending : ∀ r ∈ b.rules, r.source.id < r.destination.id) (path : List StateId)
    (q : StateId) (below : ∀ p ∈ path, p < q) : b.acyclicFrom path q := by
  induction path, q using acyclicFrom.induct b with
  | case1 path q ih =>
    rw [acyclicFrom_eq, List.all_eq_true]
    intro r hr
    obtain ⟨hmem, hsource⟩ := mem_leaving_iff.1 hr
    have hlt : q < r.destination.id := hsource ▸ ascending r hmem
    -- all of the path lies below the destination, so it is not on the path
    have hbelow : ∀ p ∈ q :: path, p < r.destination.id := by
      intro p hp
      rcases List.mem_cons.1 hp with rfl | hp
      · exact hlt
      · exact Ordered.trans (below p hp) hlt
    have hnew : r.destination.id ∉ q :: path := by
      intro hmem
      exact Ordered.irrefl _ (hbelow _ hmem)
    rw [if_neg hnew]
    exact ih ⟨r, hr⟩ hnew hbelow

end Rulebook

namespace Automaton

variable {α : Type} [Letter α]

theorem mem_wordsFrom_cons {a : Automaton α} {path : List StateId} {q : StateId} {x : α}
    {w : List α} :
    x :: w ∈ a.wordsFrom path q ↔ ∃ r ∈ a.transitionsFrom q, r.symbol = x ∧
      r.destination.id ∉ q :: path ∧ w ∈ a.wordsFrom (q :: path) r.destination.id := by
  have hstart : x :: w ∉ (if a.isFinal q then [[]] else [] : List (List α)) := by
    split <;> simp
  rw [wordsFrom_eq, List.mem_append, List.mem_flatMap]
  refine ⟨?_, ?_⟩
  · intro h
    rcases h with h | ⟨r, hr, h⟩
    · exact absurd h hstart
    · split at h
      · exact absurd h List.not_mem_nil
      · next hnew =>
        obtain ⟨w', hw', heq⟩ := List.mem_map.1 h
        obtain ⟨hx, rfl⟩ := List.cons.inj heq
        exact ⟨r, hr, hx, hnew, hw'⟩
  · intro ⟨r, hr, hx, hnew, hw⟩
    refine .inr ⟨r, hr, ?_⟩
    rw [if_neg hnew, ← hx]
    exact List.mem_map.2 ⟨w, hw, rfl⟩

theorem nil_mem_wordsFrom {a : Automaton α} {path : List StateId} {q : StateId} :
    [] ∈ a.wordsFrom path q ↔ a.isFinal q := by
  rw [wordsFrom_eq, List.mem_append]
  refine ⟨?_, ?_⟩
  · intro h
    rcases h with h | h
    · split at h
      · next hfinal => exact hfinal
      · exact absurd h List.not_mem_nil
    · obtain ⟨r, _, h⟩ := List.mem_flatMap.1 h
      split at h
      · exact absurd h List.not_mem_nil
      · obtain ⟨w, _, heq⟩ := List.mem_map.1 h
        exact absurd heq (by simp)
  · intro h
    exact .inl (by simp [h])

/-- A search that meets no cycle finds the words that rules spell to a final state. -/
theorem mem_wordsFrom_iff {a : Automaton α} {path : List StateId} {q : StateId}
    (acyclic : a.book.acyclicFrom path q) {w : List α} :
    w ∈ a.wordsFrom path q ↔ ∃ p, a.book.Spells q w p ∧ a.isFinal p := by
  induction w generalizing path q with
  | nil =>
    rw [nil_mem_wordsFrom]
    refine ⟨fun h => ⟨q, .nil q, h⟩, ?_⟩
    intro ⟨p, hp, hfinal⟩
    rw [← Rulebook.spells_nil_iff.1 hp]
    exact hfinal
  | cons x w ih =>
    rw [mem_wordsFrom_cons]
    refine ⟨?_, ?_⟩
    · intro ⟨r, hr, hx, _, hw⟩
      obtain ⟨p, hp, hfinal⟩ := (ih (Rulebook.acyclicFrom_step acyclic hr).2).1 hw
      obtain ⟨hmem, hsource⟩ := Rulebook.mem_leaving_iff.1 hr
      exact ⟨p, Rulebook.spells_cons_iff.2 ⟨r, hmem, hsource, hx, hp⟩, hfinal⟩
    · intro ⟨p, hp, hfinal⟩
      obtain ⟨r, hmem, hsource, hx, hrest⟩ := Rulebook.spells_cons_iff.1 hp
      have hr : r ∈ a.transitionsFrom q := Rulebook.mem_leaving_iff.2 ⟨hmem, hsource⟩
      obtain ⟨hnew, hacyclic⟩ := Rulebook.acyclicFrom_step acyclic hr
      exact ⟨r, hr, hx, hnew, (ih hacyclic).2 ⟨p, hrest, hfinal⟩⟩

theorem language_eq_some {a : Automaton Char} (acyclic : a.book.acyclicFrom [] a.initial.id) :
    ∃ words, a.language = some words ∧
      ∀ w, w ∈ words ↔ ∃ p, a.book.Spells a.initial.id w.toList p ∧ a.isFinal p := by
  refine ⟨_, by rw [language, Automaton.words, if_pos acyclic]; rfl, ?_⟩
  intro w
  rw [SortedSet.mem_ofList, List.mem_map, ← mem_wordsFrom_iff acyclic]
  refine ⟨?_, ?_⟩
  · intro ⟨v, hv, heq⟩
    rw [← heq, String.toList_ofList]
    exact hv
  · intro h
    exact ⟨w.toList, h, String.ofList_toList⟩

end Automaton

end Acceptor
