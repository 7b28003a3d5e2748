import Acceptor.Proofs.Growth
import Acceptor.Proofs.Walk

/-!
  Acceptor.Proofs.PrefixTree — what a prefix tree accepts

  The rules of a tree spell each prefix on the way to its own state and nothing else, so the words
  that lead to a final state are the samples. No way comes back, so they can be listed. A run of
  operations keeps this up: samples are added one by one, in lists, or begun anew.

  Main statements:
    1. `PrefixTree.Grown.spells_iff` — what the rules of a tree spell.
    2. `PrefixTree.Grown.accepts` — a tree accepts exactly its samples.
    3. `PrefixTree.Grown.applyAll` — no run fails while there are identities left.
-/

namespace Acceptor.PrefixTree

namespace Grown

variable {t : PrefixTree} {known : List (List Char)} {words : List String}

/-! ## What the tree accepts -/

theorem deterministic (h : Grown t known words) : t.automaton.isDeterministic := by
  apply Rulebook.isDeterministic_iff.2
  apply List.pairwise_map.2
  refine List.Pairwise.imp_of_mem ?_ h.wellFormed.distinct
  intro r s hr hs hdistinct htrigger
  apply hdistinct
  obtain ⟨p, c, hp, rfl⟩ := (h.rules r).1 hr
  obtain ⟨_, rfl⟩ := h.eq_edge_of_trigger (h.ordered.earlier p c hp).1 hs htrigger.symm
  exact Rule.same_iff.2 ⟨rfl, rfl, rfl⟩

theorem ascending (h : Grown t known words) :
    ∀ r ∈ t.automaton.rules, r.source.id < r.destination.id := by
  intro r hr
  obtain ⟨p, c, hp, rfl⟩ := (h.rules r).1 hr
  obtain ⟨hmem, hlt⟩ := h.ordered.earlier p c hp
  rw [StateId.lt_iff_toNat_lt]
  show (stateOf known p).id.toNat < (stateOf known (p ++ [c])).id.toNat
  rw [h.toNat_stateOf hmem, h.toNat_stateOf hp]
  exact hlt

/-- From a prefix the rules spell what leads to another prefix, and end in its state. -/
theorem spells_iff (h : Grown t known words) {p : List Char} (hp : p ∈ known) {w : List Char}
    {q : StateId} : t.automaton.book.Spells (stateOf known p).id w q ↔
      p ++ w ∈ known ∧ (stateOf known (p ++ w)).id = q := by
  -- from any prefix: after one rule the rest of the word goes on from a longer one
  induction w generalizing p with
  | nil =>
    rw [Rulebook.spells_nil_iff, List.append_nil]
    refine ⟨fun heq => ⟨hp, heq.symm⟩, fun heq => heq.2.symm⟩
  | cons c rest ih =>
    have hassoc : p ++ c :: rest = p ++ [c] ++ rest := by
      rw [List.append_assoc, List.singleton_append]
    rw [Rulebook.spells_cons_iff, hassoc]
    refine ⟨?_, ?_⟩
    · intro hspells
      obtain ⟨r, hr, hsource, hsymbol, hrest⟩ := hspells
      have htrigger : r.trigger = ⟨(stateOf known p).id, c⟩ := by
        rw [Rule.trigger, hsource, hsymbol]
      obtain ⟨hmem, rfl⟩ := h.eq_edge_of_trigger hp hr htrigger
      exact (ih hmem).1 hrest
    · intro hleads
      obtain ⟨hmem, hq⟩ := hleads
      have hstep : p ++ [c] ∈ known := h.ordered.of_append hmem
      exact ⟨edge known p c, (h.rules _).2 ⟨p, c, hstep, rfl⟩, rfl, rfl, (ih hstep).2 ⟨hmem, hq⟩⟩

/-- The samples are the words that rules spell to a final state. -/
theorem mem_words_iff (h : Grown t known words) {w : String} :
    w ∈ words ↔ ∃ q, t.automaton.book.Spells t.automaton.initial.id w.toList q ∧
      t.automaton.isFinal q := by
  have hspells := fun q => h.spells_iff h.ordered.root_mem (w := w.toList) (q := q)
  simp only [List.nil_append] at hspells
  rw [h.initial_eq]
  refine ⟨?_, ?_⟩
  · intro hw
    refine ⟨_, (hspells _).2 ⟨h.ends w hw, rfl⟩, ?_⟩
    exact (h.finals _).2 ⟨w, hw, rfl⟩
  · intro ⟨q, hq, hfinal⟩
    obtain ⟨hmem, heq⟩ := (hspells q).1 hq
    obtain ⟨v, hv, heq'⟩ := (h.finals q).1 hfinal
    have hvw := h.stateOf_inj (h.ends v hv) hmem (heq'.trans heq.symm)
    rw [← String.toList_inj.1 hvw]
    exact hv

end Grown

/-- Whether an automaton accepts certain words and no others, and lists them as its language. -/
structure AcceptsExactly (a : Automaton Char) (words : List String) : Prop where
  recognizes : ∀ w : String, (a.recognize w.toList).1 ↔ w ∈ words
  language : a.language = some (.ofList words)

theorem Grown.accepts {t : PrefixTree} {known : List (List Char)} {words : List String}
    (h : Grown t known words) : AcceptsExactly t.automaton words := by
  refine ⟨?_, ?_⟩
  · intro w
    rw [Automaton.recognize_iff_spells h.wellFormed.symbols h.deterministic, ← h.mem_words_iff]
  · have hacyclic := Rulebook.acyclicFrom_of_ascending h.ascending [] t.automaton.initial.id
      (fun p hp => absurd hp List.not_mem_nil)
    obtain ⟨listed, hlisted, hmem⟩ := Automaton.language_eq_some hacyclic
    have hset : listed = .ofList words := by
      apply SortedSet.ext_mem
      intro w
      rw [hmem, SortedSet.mem_ofList, ← h.mem_words_iff]
    rw [hlisted, hset]

/-! ## Runs -/

/-- An operation on a tree under construction. -/
inductive Operation where
  /-- Inserts a sample in place. -/
  | insert (sample : String)
  | sample (sample : String)
  | sampleAll (samples : List String)
  | withPolicy (policy : Policy)
  | reset

/-- The tree after an operation, unless it fails. -/
def apply (t : PrefixTree) : Operation → Except Error PrefixTree
  | .insert s => (t.insert s).2.map fun _ => (t.insert s).1
  | .sample s => t.sample s
  | .sampleAll samples => t.sampleAll samples
  | .withPolicy policy => .ok (t.withPolicy policy)
  | .reset => .ok t.reset

/-- The tree after operations on a new one, unless one of them fails. -/
def run (ops : List Operation) : Except Error PrefixTree := ops.foldlM apply empty

/-- The samples in a tree after an operation, by those before. -/
def Operation.record (words : List String) : Operation → List String
  | insert s => words ++ [s]
  | sample s => words ++ [s]
  | sampleAll samples => words ++ samples
  | withPolicy _ => words
  | reset => []

/-- The samples inserted since the last reset, in order. -/
def inserted (ops : List Operation) : List String := ops.foldl Operation.record []

namespace Grown

variable {t : PrefixTree} {known : List (List Char)} {words : List String}

theorem withPolicy (h : Grown t known words) (policy : Policy) :
    Grown (t.withPolicy policy) known words :=
  ⟨h.ordered, h.issued, h.wellFormed.withPolicy policy, h.initial, h.states, h.rules, h.ends,
    h.finals, h.samples⟩

theorem empty : Grown empty (prefixes []) [] where
  ordered := ⟨rfl, by
    intro p c hmem
    exact absurd (List.mem_singleton.1 hmem) (by simp)⟩
  issued := rfl
  wellFormed := .ofInitial _
  initial := rfl
  states := by
    intro q
    show (SortedMap.empty.insert (⟨0⟩ : StateId) none).get? q =
      if q.toNat < 1 then some (stateAt q.toNat).ancestor else none
    rw [SortedMap.get?_insert]
    by_cases hq : q = ⟨0⟩
    · rw [if_pos hq, hq]
      rfl
    · have hne : ¬ q.toNat < 1 := by
        intro hlt
        exact hq (StateId.toNat_inj.1 (Nat.lt_one_iff.1 hlt))
      rw [if_neg hq, if_neg hne]
      rfl
  rules := by
    intro r
    refine ⟨fun hr => absurd hr List.not_mem_nil, ?_⟩
    intro ⟨p, c, hmem, _⟩
    exact absurd (List.mem_singleton.1 hmem) (by simp)
  ends := by
    intro w hw
    exact absurd hw List.not_mem_nil
  finals := by
    intro q
    refine ⟨fun hq => absurd hq (SortedSet.not_mem_empty q), ?_⟩
    intro ⟨w, hw, _⟩
    exact absurd hw List.not_mem_nil
  samples := rfl

theorem sampleAll (h : Grown t (prefixes words) words) (samples : List String)
    (room : (prefixes (words ++ samples)).length < UInt64.size) :
    ∃ t', t.sampleAll samples = .ok t' ∧
      Grown t' (prefixes (words ++ samples)) (words ++ samples) := by
  induction samples generalizing t words with
  | nil =>
    rw [List.append_nil]
    exact ⟨t, rfl, h⟩
  | cons s rest ih =>
    have hassoc : words ++ s :: rest = words ++ [s] ++ rest := by
      rw [List.append_assoc, List.singleton_append]
    rw [hassoc] at room ⊢
    have hroom := Nat.lt_of_le_of_lt (length_prefixes_le (words ++ [s]) rest) room
    obtain ⟨t', id, hinsert, h'⟩ := h.insert s hroom
    obtain ⟨t'', hrest, h''⟩ := ih h' room
    refine ⟨t'', ?_, h''⟩
    rw [PrefixTree.sampleAll, List.foldlM_cons, PrefixTree.sample, hinsert]
    exact hrest

theorem apply (h : Grown t (prefixes words) words) (op : Operation)
    (room : (prefixes (op.record words)).length < UInt64.size) :
    ∃ t', t.apply op = .ok t' ∧ Grown t' (prefixes (op.record words)) (op.record words) := by
  cases op with
  | insert s =>
    obtain ⟨t', id, hinsert, h'⟩ := h.insert s room
    refine ⟨t', ?_, h'⟩
    rw [PrefixTree.apply, hinsert]
    rfl
  | sample s =>
    obtain ⟨t', id, hinsert, h'⟩ := h.insert s room
    refine ⟨t', ?_, h'⟩
    rw [PrefixTree.apply, PrefixTree.sample, hinsert]
  | sampleAll samples => exact h.sampleAll samples room
  | withPolicy policy => exact ⟨_, rfl, h.withPolicy policy⟩
  | reset => exact ⟨_, rfl, empty.withPolicy _⟩

/-- No run fails while there are identities for the prefixes of its samples. -/
theorem applyAll (h : Grown t (prefixes words) words) (ops : List Operation)
    (room : ∀ before, before <+: ops →
      (prefixes (before.foldl Operation.record words)).length < UInt64.size) :
    ∃ t', ops.foldlM PrefixTree.apply t = .ok t' ∧
      Grown t' (prefixes (ops.foldl Operation.record words))
        (ops.foldl Operation.record words) := by
  induction ops generalizing t words with
  | nil => exact ⟨t, rfl, h⟩
  | cons op rest ih =>
    obtain ⟨t', happly, h'⟩ := h.apply op (room [op] (List.prefix_append [op] rest))
    obtain ⟨t'', hrest, h''⟩ := ih h' fun before hbefore =>
      room (op :: before) (List.prefix_cons_inj op |>.2 hbefore)
    refine ⟨t'', ?_, h''⟩
    rw [List.foldlM_cons, happly]
    exact hrest

theorem insertAll (h : Grown t (prefixes words) words) (samples : List String)
    (room : (prefixes (words ++ samples)).length < UInt64.size) :
    Grown (samples.foldl (fun t s => (t.insert s).1) t) (prefixes (words ++ samples))
      (words ++ samples) := by
  induction samples generalizing t words with
  | nil =>
    rw [List.append_nil]
    exact h
  | cons s rest ih =>
    have hassoc : words ++ s :: rest = words ++ [s] ++ rest := by
      rw [List.append_assoc, List.singleton_append]
    rw [hassoc] at room ⊢
    have hroom := Nat.lt_of_le_of_lt (length_prefixes_le (words ++ [s]) rest) room
    obtain ⟨t', id, hinsert, h'⟩ := h.insert s hroom
    rw [List.foldl_cons, hinsert]
    exact ih h' room

end Grown

/-- As long as there are identities for all prefixes, no operation of a run fails, and at each
point the tree accepts exactly the samples inserted since the last reset and has counted each
of them. A tree made of a list of samples leaves none out. -/
theorem exact_on_runs (ops : List Operation)
    (room : ∀ before, before <+: ops → (prefixes (inserted before)).length < UInt64.size) :
    (∀ before, before <+: ops → ∃ t, run before = .ok t ∧
      t.registry.issued = (prefixes (inserted before)).length ∧
      AcceptsExactly t.automaton (inserted before) ∧ t.samples = (inserted before).length) ∧
    (∀ samples, (prefixes samples).length < UInt64.size →
      AcceptsExactly (ofSamples samples) samples ∧
      ∀ before s after, samples = before ++ s :: after →
        ∃ id, ((before.foldl (fun t s => (t.insert s).1) empty).insert s).2 = .ok id) := by
  refine ⟨?_, ?_⟩
  · intro before hbefore
    obtain ⟨t, hrun, h⟩ := Grown.empty.applyAll before fun early hearly =>
      room early (hearly.trans hbefore)
    exact ⟨t, hrun, h.issued, h.accepts, h.samples⟩
  · intro samples hroom
    refine ⟨(Grown.empty.insertAll samples hroom).accepts, ?_⟩
    intro before s after heq
    rw [heq, List.append_cons] at hroom
    have hnext := Nat.lt_of_le_of_lt (length_prefixes_le (before ++ [s]) after) hroom
    have hbefore := Nat.lt_of_le_of_lt (length_prefixes_le before [s]) hnext
    obtain ⟨_, id, hinsert, _⟩ := (Grown.empty.insertAll before hbefore).insert s hnext
    exact ⟨id, congrArg Prod.snd hinsert⟩

/-- A run over a change of policy, repeated samples, the empty one, and a reset. -/
theorem exact_on_run_with_reset :
    let ops : List Operation := [.sampleAll ["ab", "", "ab"], .withPolicy .allow, .insert "a",
      .reset, .sample "b", .insert "bé", .insert "b"]
    (∀ before ∈ ops.inits, (prefixes (inserted before)).length < UInt64.size) ∧
      inserted ops = ["b", "bé", "b"] ∧
      (∃ t, run ops = .ok t ∧ t.registry.issued = 3 ∧ AcceptsExactly t.automaton ["b", "bé", "b"] ∧
        t.samples = 3) ∧
      AcceptsExactly (ofSamples ["ab", "", "ab"]) ["ab", "", "ab"] := by
  intro ops
  have hroom : ∀ before ∈ ops.inits, (prefixes (inserted before)).length < UInt64.size := by
    decide
  have hexact := exact_on_runs ops fun before hbefore =>
    hroom before ((List.mem_inits before ops).2 hbefore)
  obtain ⟨t, hrun, hissued, haccepts, hsamples⟩ := hexact.1 ops List.prefix_rfl
  exact ⟨hroom, rfl, ⟨t, hrun, hissued, haccepts, hsamples⟩, (hexact.2 _ (by decide)).1⟩

end Acceptor.PrefixTree
