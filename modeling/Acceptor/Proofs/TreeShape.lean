import Acceptor.Proofs.PrefixTree
import Acceptor.Proofs.Search
import Mathlib.Logic.Equiv.Defs

/-!
  Acceptor.Proofs.TreeShape — a prefix tree has no state and no rule too many

  The states of a tree are those of the prefixes of its samples, one each, numbered in the order
  in which the prefixes are met; one rule leads to each from the prefix before. The order of the
  samples, and how often each is given, changes nothing but those numbers: where two trees have
  the same samples, the number of a prefix in one is renamed to its number in the other.

  Main statements:
    1. `PrefixTree.Grown.minimal` — the shape of what a tree has grown.
    2. `PrefixTree.Minimal.renames` — trees of the same samples differ in their numbers alone.
    3. `PrefixTree.minimal_of_samples` — both, of the trees that are made of samples.
-/

namespace Acceptor

namespace PrefixTree

/-! ## The shape of a tree -/

/-- Whether an automaton is the prefix tree of words: nothing is missing from it and nothing is
there that the words do not need. -/
structure Minimal (a : Automaton Char) (words : List String) : Prop where
  /-- The states, by identity, are those of the prefixes in the order in which they are met. -/
  states : a.stateList = (prefixes words).map (stateOf (prefixes words))
  /-- Their identities are the numbers from zero on. -/
  numbers : a.stateList.map (·.id.toNat) = List.range (prefixes words).length
  /-- Each state belongs to one prefix. -/
  unique : ∀ q ∈ a.stateList, ∃! p, p ∈ prefixes words ∧ stateOf (prefixes words) p = q
  initial : a.initial = ⟨⟨0⟩, none⟩
  ancestors : ∀ q ∈ a.stateList, q.ancestor = if q.id = ⟨0⟩ then none else some ⟨0⟩
  /-- To trace a prefix leads to its state. -/
  leads : ∀ p ∈ prefixes words,
    (a.trace p).1.consumed ∧ (a.trace p).1.lastState = (stateOf (prefixes words) p).id
  rules : ∀ r, r ∈ a.rules ↔ ∃ p c, p ++ [c] ∈ prefixes words ∧ r = edge (prefixes words) p c
  once : a.rules.Nodup
  finals : ∀ q, a.isFinal q ↔ ∃ w ∈ words, (stateOf (prefixes words) w.toList).id = q
  /-- The tree is deterministic and all of it can be reached. -/
  clean : Checker.structural.requireDeterministic.requireReachable.check a = []

theorem map_stateOf {known : List (List Char)} (nodup : known.Nodup) :
    known.map (stateOf known) = (List.range known.length).map stateAt := by
  apply List.ext_getElem
  · rw [List.length_map, List.length_map, List.length_range]
  · intro i hi _
    rw [List.length_map] at hi
    rw [List.getElem_map, List.getElem_map, List.getElem_range, stateOf, nodup.idxOf_getElem i hi]

namespace Grown

variable {t : PrefixTree} {known : List (List Char)} {words : List String}

theorem toNat_of_mem_range (h : Grown t known words) {i : Nat} (hi : i ∈ List.range known.length) :
    (stateAt i).id.toNat = i :=
  toNat_stateAt (Nat.lt_trans (List.mem_range.1 hi) h.length_lt)

theorem stateList_eq (h : Grown t known words) :
    t.automaton.stateList = (List.range known.length).map stateAt := by
  refine Ordered.eq_of_pairwise (R := fun p q : State => p.id < q.id)
    (fun q => Ordered.irrefl q.id) Ordered.trans ?_ ?_ ?_
  · exact List.pairwise_map.2 t.automaton.states.ascending
  · refine List.pairwise_map.2 (List.pairwise_lt_range.imp_of_mem ?_)
    intro i j hi hj hlt
    rw [StateId.lt_iff_toNat_lt, h.toNat_of_mem_range hi, h.toNat_of_mem_range hj]
    exact hlt
  · intro q
    rw [Automaton.mem_stateList_iff, h.states, List.mem_map]
    refine ⟨?_, ?_⟩
    · intro hq
      split at hq
      · next hlt =>
        have hid : (stateAt q.id.toNat).id = q.id := by
          rw [← StateId.toNat_inj, toNat_stateAt q.id.toNat_lt]
        exact ⟨q.id.toNat, List.mem_range.2 hlt, State.ext hid (Option.some.inj hq)⟩
      · exact absurd hq (by simp)
    · intro ⟨i, hi, hq⟩
      have htoNat := h.toNat_of_mem_range hi
      rw [← hq, htoNat, if_pos (List.mem_range.1 hi)]

theorem follows?_of_mem (h : Grown t known words) {p : List Char} (hp : p ∈ known) :
    t.automaton.follows? t.automaton.initial.id p = some (stateOf known p).id := by
  have hspells := (h.spells_iff h.ordered.root_mem (w := p)).2 ⟨hp, rfl⟩
  rw [List.nil_append, ← h.initial_eq] at hspells
  exact Automaton.follows?_of_spells h.deterministic hspells

theorem spells_of_containsState (h : Grown t known words) (nodup : known.Nodup) {q : StateId}
    (hq : t.automaton.containsState q) :
    ∃ w, t.automaton.book.Spells t.automaton.initial.id w q := by
  have hlt : q.toNat < known.length := by
    rw [Automaton.containsState, SortedMap.contains, h.states] at hq
    by_contra hge
    rw [if_neg hge] at hq
    exact absurd hq (by simp)
  have hnumber : (stateOf known known[q.toNat]).id = q := by
    rw [stateOf, nodup.idxOf_getElem q.toNat hlt, ← StateId.toNat_inj, toNat_stateAt q.toNat_lt]
  refine ⟨known[q.toNat], ?_⟩
  rw [h.initial_eq]
  exact (h.spells_iff h.ordered.root_mem).2 ⟨List.getElem_mem hlt, hnumber⟩

theorem check_eq_nil (h : Grown t known words) (nodup : known.Nodup) :
    Checker.structural.requireDeterministic.requireReachable.check t.automaton = [] := by
  have hdeterministic : Checker.determinismReport t.automaton = [] :=
    Checker.determinismReport_eq_nil_iff.2 (Rulebook.isDeterministic_iff.1 h.deterministic)
  have hreach : Checker.reachReport t.automaton = [] := by
    rw [Checker.reachReport_eq_nil_iff]
    intro q hq
    exact h.spells_of_containsState nodup hq
  rw [h.wellFormed.check_eq, hdeterministic, hreach, ite_self, ite_self]
  rfl

/-- What a tree has grown of its samples has their shape. -/
theorem minimal (h : Grown t (prefixes words) words) : Minimal t.automaton words where
  states := by rw [h.stateList_eq, map_stateOf (nodup_prefixes words)]
  numbers := by
    rw [h.stateList_eq, List.map_map]
    conv => rhs; rw [← List.map_id (List.range _)]
    apply List.map_congr_left
    intro i hi
    exact h.toNat_of_mem_range hi
  unique := by
    intro q hq
    rw [h.stateList_eq, ← map_stateOf (nodup_prefixes words), List.mem_map] at hq
    obtain ⟨p, hp, rfl⟩ := hq
    refine ⟨p, ⟨hp, rfl⟩, ?_⟩
    intro p' ⟨hp', heq⟩
    exact h.stateOf_inj hp' hp (congrArg State.id heq)
  initial := h.initial
  ancestors := by
    intro q hq
    rw [h.stateList_eq] at hq
    obtain ⟨i, hi, rfl⟩ := List.mem_map.1 hq
    have hzero : (stateAt i).id = ⟨0⟩ ↔ i = 0 := by
      rw [← StateId.toNat_inj, h.toNat_of_mem_range hi]
      rfl
    simp only [hzero]
    rfl
  leads := by
    intro p hp
    have hfollows := h.follows?_of_mem hp
    refine ⟨?_, Automaton.lastState_trace h.wellFormed.symbols hfollows⟩
    rw [Automaton.fst_trace h.wellFormed.symbols, hfollows]
    rfl
  rules := h.rules
  once := by
    refine h.wellFormed.distinct.imp ?_
    intro r s hdistinct heq
    exact hdistinct (Rule.same_iff.2 (heq ▸ ⟨rfl, rfl, rfl⟩))
  finals := h.finals
  clean := h.check_eq_nil (nodup_prefixes words)

end Grown

end PrefixTree

/-! ## Renaming -/

/-- A state with the identities in it renamed. -/
def State.rename (f : Equiv.Perm StateId) (q : State) : State := ⟨f q.id, q.ancestor.map f⟩

/-- A rule with the identities in it renamed. -/
def Rule.rename {α : Type} (f : Equiv.Perm StateId) (r : Rule α) : Rule α :=
  ⟨r.source.rename f, r.symbol, r.destination.rename f⟩

theorem State.rename_injective (f : Equiv.Perm StateId) : Function.Injective (State.rename f) := by
  intro p q h
  obtain ⟨hid, hancestor⟩ := State.mk.inj h
  exact State.ext (f.injective hid) (Option.map_injective f.injective hancestor)

theorem Rule.rename_injective {α : Type} (f : Equiv.Perm StateId) :
    Function.Injective (Rule.rename (α := α) f) := by
  intro r s h
  obtain ⟨hsource, hsymbol, hdestination⟩ := Rule.mk.inj h
  cases r
  cases s
  rw [Rule.mk.injEq]
  exact ⟨State.rename_injective f hsource, hsymbol, State.rename_injective f hdestination⟩

/-- Whether a renaming of identities keeps the initial state and takes the states, the final states
and the rules of one automaton to those of another. -/
structure Automaton.Renames {α : Type} [Letter α] (f : Equiv.Perm StateId) (a b : Automaton α) :
    Prop where
  initial : a.initial.rename f = a.initial ∧ b.initial = a.initial
  states : ∀ q, q ∈ a.stateList ↔ q.rename f ∈ b.stateList
  finals : ∀ q, a.isFinal q ↔ b.isFinal (f q)
  rules : ∀ r, r ∈ a.rules ↔ r.rename f ∈ b.rules

namespace PrefixTree

/-- The identity that the prefix with a given identity has where others were met before it. -/
def renumber (known other : List (List Char)) (q : StateId) : StateId :=
  match known[q.toNat]? with
  | some p => (stateOf other p).id
  | none => q

section

variable {known other : List (List Char)}

theorem renumber_stateOf {p : List Char} (hp : p ∈ known) (room : known.length < UInt64.size) :
    renumber known other (stateOf known p).id = (stateOf other p).id := by
  rw [renumber, toNat_stateOf_of_mem hp room, List.getElem?_idxOf hp]

theorem renumber_renumber (nodup : known.Nodup) (perm : known.Perm other)
    (room : known.length < UInt64.size) (q : StateId) :
    renumber other known (renumber known other q) = q := by
  have hlength := perm.length_eq
  by_cases hq : q.toNat < known.length
  · have hmem : known[q.toNat] ∈ known := List.getElem_mem hq
    have hnumber : (stateOf known known[q.toNat]).id = q := by
      rw [← StateId.toNat_inj, toNat_stateOf_of_mem hmem room, nodup.idxOf_getElem q.toNat hq]
    rw [← hnumber, renumber_stateOf hmem room,
      renumber_stateOf (perm.mem_iff.1 hmem) (hlength ▸ room)]
  · have hnone : known[q.toNat]? = none := List.getElem?_eq_none (by omega)
    have hnone' : other[q.toNat]? = none := List.getElem?_eq_none (by omega)
    rw [renumber, renumber, hnone, hnone']

/-- The renaming between two orders in which the same prefixes are met. -/
def reorder (nodup : known.Nodup) (perm : known.Perm other) (room : known.length < UInt64.size) :
    Equiv.Perm StateId where
  toFun := renumber known other
  invFun := renumber other known
  left_inv := renumber_renumber nodup perm room
  right_inv := renumber_renumber (perm.nodup_iff.1 nodup) perm.symm (perm.length_eq ▸ room)

end

variable {words others : List String}

theorem stateOf_nil (words : List String) : stateOf (prefixes words) [] = ⟨⟨0⟩, none⟩ := by
  rw [stateOf, idxOf_nil_prefixes]
  rfl

theorem ancestor_stateOf {p : List Char} (hp : p ≠ []) :
    (stateOf (prefixes words) p).ancestor = some ⟨0⟩ := by
  have hne : (prefixes words).idxOf p ≠ 0 := by
    rw [← idxOf_nil_prefixes words]
    intro heq
    exact hp ((List.idxOf_inj (mem_prefixes_iff.2 (.inl rfl))).1 heq.symm).symm
  rw [stateOf, stateAt, if_neg hne]

/-- The renaming between trees of the same words. -/
def renamingOf (same : ∀ w, w ∈ words ↔ w ∈ others)
    (room : (prefixes words).length < UInt64.size) : Equiv.Perm StateId :=
  reorder (nodup_prefixes words) (prefixes_perm same) room

section

variable (same : ∀ w, w ∈ words ↔ w ∈ others) (room : (prefixes words).length < UInt64.size)

theorem rename_stateOf {p : List Char} (hp : p ∈ prefixes words) :
    (stateOf (prefixes words) p).rename (renamingOf same room) = stateOf (prefixes others) p := by
  have hid : ∀ q ∈ prefixes words, renamingOf same room (stateOf (prefixes words) q).id =
      (stateOf (prefixes others) q).id := fun q hq => renumber_stateOf hq room
  have hzero : renamingOf same room ⟨0⟩ = ⟨0⟩ := by
    have hnil := hid [] (mem_prefixes_iff.2 (.inl rfl))
    rw [stateOf_nil, stateOf_nil] at hnil
    exact hnil
  refine State.ext (hid p hp) ?_
  by_cases hnil : p = []
  · rw [hnil, stateOf_nil, stateOf_nil]
    rfl
  · rw [State.rename, ancestor_stateOf hnil, ancestor_stateOf hnil, Option.map_some, hzero]

theorem rename_edge {p : List Char} {c : Char} (hp : p ++ [c] ∈ prefixes words) :
    (edge (prefixes words) p c).rename (renamingOf same room) = edge (prefixes others) p c := by
  have hbefore := mem_prefixes_of_append hp
  rw [Rule.rename, edge, edge, rename_stateOf same room hbefore, rename_stateOf same room hp]

end

/-- Trees of the same samples differ in the numbers of their states alone. -/
theorem Minimal.renames {a b : Automaton Char} (ha : Minimal a words) (hb : Minimal b others)
    (same : ∀ w, w ∈ words ↔ w ∈ others) (room : (prefixes words).length < UInt64.size) :
    Automaton.Renames (renamingOf same room) a b where
  initial := by
    have hnil := rename_stateOf same room (mem_prefixes_iff.2 (.inl rfl))
    rw [stateOf_nil, stateOf_nil] at hnil
    rw [ha.initial, hb.initial]
    exact ⟨hnil, rfl⟩
  states := by
    intro q
    rw [ha.states, hb.states, List.mem_map, List.mem_map]
    refine ⟨?_, ?_⟩
    · intro ⟨p, hp, hq⟩
      refine ⟨p, (prefixes_perm same).mem_iff.1 hp, ?_⟩
      rw [← hq, rename_stateOf same room hp]
    · intro ⟨p, hp, hq⟩
      have hp' := (prefixes_perm same).mem_iff.2 hp
      refine ⟨p, hp', State.rename_injective (renamingOf same room) ?_⟩
      rw [rename_stateOf same room hp', hq]
  finals := by
    intro q
    rw [ha.finals, hb.finals]
    simp only [← same]
    apply exists_congr
    intro w
    apply and_congr_right
    intro hw
    have hmem : w.toList ∈ prefixes words := mem_prefixes_iff.2 (.inr ⟨w, hw, List.prefix_rfl⟩)
    rw [← rename_stateOf same room hmem]
    exact (renamingOf same room).injective.eq_iff.symm
  rules := by
    intro r
    rw [ha.rules, hb.rules]
    refine ⟨?_, ?_⟩
    · intro ⟨p, c, hp, hr⟩
      refine ⟨p, c, (prefixes_perm same).mem_iff.1 hp, ?_⟩
      rw [hr, rename_edge same room hp]
    · intro ⟨p, c, hp, hr⟩
      have hp' := (prefixes_perm same).mem_iff.2 hp
      refine ⟨p, c, hp', Rule.rename_injective (renamingOf same room) ?_⟩
      rw [rename_edge same room hp', hr]

/-- The trees that are made of samples, as a list or in a run of operations, are their prefix trees
and have nothing besides; and trees of the same samples, in any order and with any repetitions,
differ in the numbers of their states alone. -/
theorem minimal_of_samples (samples : List String)
    (room : (prefixes samples).length < UInt64.size) :
    Minimal (ofSamples samples) samples ∧
    (∀ ops, inserted ops = samples →
      (∀ before, before <+: ops → (prefixes (inserted before)).length < UInt64.size) →
        ∃ t, run ops = .ok t ∧ Minimal t.build samples) ∧
    (∀ others, (∀ w, w ∈ samples ↔ w ∈ others) → ∃ f : Equiv.Perm StateId,
      Automaton.Renames f (ofSamples samples) (ofSamples others) ∧
      ∀ a b, Minimal a samples → Minimal b others → Automaton.Renames f a b) := by
  have hmade : ∀ words, (prefixes words).length < UInt64.size → Minimal (ofSamples words) words :=
    fun words hroom => (Grown.empty.insertAll words hroom).minimal
  refine ⟨hmade samples room, ?_, ?_⟩
  · intro ops hsamples hroom
    obtain ⟨t, hrun, h⟩ := Grown.empty.applyAll ops hroom
    have hminimal : Minimal t.automaton (inserted ops) := h.minimal
    rw [hsamples] at hminimal
    exact ⟨t, hrun, hminimal⟩
  · intro others same
    have hroom : (prefixes others).length < UInt64.size := (prefixes_perm same).length_eq ▸ room
    refine ⟨renamingOf same room, ?_, fun a b ha hb => ha.renames hb same room⟩
    exact (hmade samples room).renames (hmade others hroom) same room

/-- Two lists of the same samples, of which the second has another order and a repetition, and a
run that comes to the first after a reset. -/
theorem minimal_of_repeated_samples :
    let samples := ["ab", "b"]
    let others := ["b", "ab", "b"]
    let ops : List Operation := [.sample "c", .reset, .withPolicy .allow, .insert "ab", .sample "b"]
    (prefixes samples).length < UInt64.size ∧
    (ofSamples samples).stateList = [⟨⟨0⟩, none⟩, ⟨⟨1⟩, some ⟨0⟩⟩, ⟨⟨2⟩, some ⟨0⟩⟩, ⟨⟨3⟩, some ⟨0⟩⟩] ∧
    (∃ t, run ops = .ok t ∧ Minimal t.build samples) ∧
    (ofSamples samples).rules ≠ (ofSamples others).rules ∧
    ∃ f : Equiv.Perm StateId, Automaton.Renames f (ofSamples samples) (ofSamples others) := by
  intro samples others ops
  have room : (prefixes samples).length < UInt64.size := by decide
  have hroom : ∀ before ∈ ops.inits, (prefixes (inserted before)).length < UInt64.size := by
    decide
  have same : ∀ w, w ∈ samples ↔ w ∈ others := by
    intro w
    simp only [samples, others, List.mem_cons, List.not_mem_nil, or_false]
    tauto
  obtain ⟨hminimal, hrun, hrenames⟩ := minimal_of_samples samples room
  obtain ⟨f, hf, _⟩ := hrenames others same
  exact ⟨room, hminimal.states,
    hrun ops rfl fun before hbefore => hroom before ((List.mem_inits before ops).2 hbefore),
    by decide, f, hf⟩

end PrefixTree

end Acceptor
