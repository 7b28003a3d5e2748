import Acceptor.PrefixTree
import Acceptor.Proofs.Prefixes
import Acceptor.Proofs.Refusal

/-!
  Acceptor.Proofs.Growth — how a prefix tree grows

  A tree begun from nothing has one state for each prefix of its samples, numbered in the order
  in which the prefixes were met, and one rule from each prefix to each that is a letter longer.
  The states of the samples are the final ones. As long as the registry has identities for all
  prefixes, nothing that a sample needs is refused.

  Main statements:
    1. `PrefixTree.Grown.descend` — what one letter does.
    2. `PrefixTree.Grown.insert` — what one sample does.
-/

namespace Acceptor.PrefixTree

/-! ## States and rules of prefixes -/

/-- The state with a number: the initial state has no ancestor, all others have it for one. -/
def stateAt (n : Nat) : State := ⟨⟨UInt64.ofNat n⟩, if n = 0 then none else some ⟨0⟩⟩

/-- The state of a prefix, numbered by when it was met. -/
def stateOf (known : List (List Char)) (p : List Char) : State := stateAt (known.idxOf p)

/-- The rule from a prefix over one more letter. -/
def edge (known : List (List Char)) (p : List Char) (c : Char) : Rule Char :=
  ⟨stateOf known p, c, stateOf known (p ++ [c])⟩

theorem toNat_stateAt {n : Nat} (h : n < UInt64.size) : (stateAt n).id.toNat = n :=
  UInt64.toNat_ofNat_of_lt' h

theorem toNat_stateOf_of_mem {known : List (List Char)} {p : List Char} (hp : p ∈ known)
    (room : known.length < UInt64.size) : (stateOf known p).id.toNat = known.idxOf p :=
  toNat_stateAt (Nat.lt_trans (List.idxOf_lt_length_iff.2 hp) room)

theorem lineageRoot_stateAt (n : Nat) : (stateAt n).lineageRoot = ⟨0⟩ := by
  by_cases h : n = 0
  · rw [h]
    rfl
  · simp [stateAt, State.lineageRoot, h]

theorem stateOf_append {known : List (List Char)} {q : List Char} (hq : q ∈ known)
    (p : List Char) : stateOf (known ++ [p]) q = stateOf known q := by
  rw [stateOf, List.idxOf_append_of_mem hq, stateOf]

theorem stateOf_new {known : List (List Char)} {p : List Char} (hp : p ∉ known) :
    stateOf (known ++ [p]) p = stateAt known.length := by
  rw [stateOf, List.idxOf_append_of_notMem hp, List.idxOf_cons_self, Nat.add_zero]

theorem edge_append {known : List (List Char)} (ordered : PrefixOrdered known) {q : List Char}
    {d : Char} (hq : q ++ [d] ∈ known) (p : List Char) :
    edge (known ++ [p]) q d = edge known q d := by
  rw [edge, stateOf_append (ordered.earlier q d hq).1, stateOf_append hq, edge]

/-- What a tree has grown: a state for each prefix met, the rules between them, and the samples
so far, each of which ends in a final state. -/
structure Grown (t : PrefixTree) (known : List (List Char)) (words : List String) : Prop where
  ordered : PrefixOrdered known
  /-- Each identity that was issued is that of a prefix. -/
  issued : t.registry.issued = known.length
  wellFormed : t.automaton.WellFormed
  initial : t.automaton.initial = stateAt 0
  states : ∀ q, t.automaton.states.get? q =
    if q.toNat < known.length then some (stateAt q.toNat).ancestor else none
  rules : ∀ r, r ∈ t.automaton.rules ↔ ∃ p c, p ++ [c] ∈ known ∧ r = edge known p c
  ends : ∀ w ∈ words, w.toList ∈ known
  finals : ∀ q, t.automaton.isFinal q ↔ ∃ w ∈ words, (stateOf known w.toList).id = q
  /-- Repeated samples count. -/
  samples : t.samples = words.length

namespace Grown

variable {t : PrefixTree} {known : List (List Char)} {words : List String}

theorem length_lt (h : Grown t known words) : known.length < UInt64.size := by
  rw [← h.issued]
  exact t.registry.next.toNat_lt

theorem toNat_stateOf (h : Grown t known words) {p : List Char} (hp : p ∈ known) :
    (stateOf known p).id.toNat = known.idxOf p :=
  toNat_stateOf_of_mem hp h.length_lt

theorem stateOf_inj (h : Grown t known words) {p q : List Char} (hp : p ∈ known) (hq : q ∈ known)
    (heq : (stateOf known p).id = (stateOf known q).id) : p = q := by
  have hnum := congrArg StateId.toNat heq
  rw [h.toNat_stateOf hp, h.toNat_stateOf hq] at hnum
  exact (List.idxOf_inj hp).1 hnum

theorem get?_stateOf (h : Grown t known words) {p : List Char} (hp : p ∈ known) :
    t.automaton.states.get? (stateOf known p).id = some (stateOf known p).ancestor := by
  rw [h.states, h.toNat_stateOf hp, if_pos (List.idxOf_lt_length_iff.2 hp)]
  rfl

theorem initial_eq (h : Grown t known words) : t.automaton.initial = stateOf known [] := by
  rw [h.initial, stateOf, h.ordered.idxOf_root]

/-! ## One letter -/

/-- The rule on a letter from a known prefix is the one to the longer prefix, which is known. -/
theorem eq_edge_of_trigger (h : Grown t known words) {p : List Char} (hp : p ∈ known) {c : Char}
    {r : Rule Char} (hr : r ∈ t.automaton.rules)
    (htrigger : r.trigger = ⟨(stateOf known p).id, c⟩) :
    p ++ [c] ∈ known ∧ r = edge known p c := by
  obtain ⟨q, d, hq, rfl⟩ := (h.rules r).1 hr
  obtain ⟨hsource, hsymbol⟩ := Trigger.mk.inj htrigger
  obtain rfl : d = c := hsymbol
  -- the source tells the prefix, since a state belongs to one
  obtain rfl := h.stateOf_inj (h.ordered.earlier q d hq).1 hp hsource
  exact ⟨hq, rfl⟩

theorem ruleFor?_of_mem (h : Grown t known words) {p : List Char} {c : Char}
    (hmem : p ++ [c] ∈ known) :
    t.automaton.ruleFor? (stateOf known p).id c = some (edge known p c) := by
  have hp := (h.ordered.earlier p c hmem).1
  have hrule : edge known p c ∈ t.automaton.rules := (h.rules _).2 ⟨p, c, hmem, rfl⟩
  apply Rulebook.first?_eq_some_of_unique hrule
  intro s hs htrigger
  exact (h.eq_edge_of_trigger hp hs htrigger).2

theorem ruleFor?_of_not_mem (h : Grown t known words) {p : List Char} (hp : p ∈ known) {c : Char}
    (hnew : p ++ [c] ∉ known) : t.automaton.ruleFor? (stateOf known p).id c = none := by
  apply Rulebook.first?_eq_none_iff.2
  intro s hs htrigger
  exact hnew (h.eq_edge_of_trigger hp hs htrigger).1

theorem not_containsState_next (h : Grown t known words) :
    ¬ t.automaton.containsState (stateAt known.length).id := by
  rw [Automaton.containsState, SortedMap.contains, h.states, toNat_stateAt h.length_lt,
    if_neg (Nat.lt_irrefl _)]
  exact Bool.false_ne_true

theorem get?_learn_next (h : Grown t known words) (q : StateId) :
    (Automaton.learn t.automaton.states (stateAt known.length)).get? q =
      if q.toNat < known.length + 1 then some (stateAt q.toNat).ancestor else none := by
  have hnext : (stateAt known.length).id.toNat = known.length := toNat_stateAt h.length_lt
  rw [Automaton.learn, SortedMap.get?_insertNew, h.states, h.states]
  by_cases hq : q = (stateAt known.length).id
  · rw [if_pos hq, hq, hnext, if_neg (Nat.lt_irrefl _), if_pos (Nat.lt_succ_self _)]
    rfl
  · have hne : q.toNat ≠ known.length := by
      intro heq
      exact hq (StateId.toNat_inj.1 (heq.trans hnext.symm))
    rw [if_neg hq]
    by_cases hlt : q.toNat < known.length
    · rw [if_pos hlt, if_pos (by omega)]
    · rw [if_neg hlt, if_neg (by omega)]

theorem mem_rules_next_iff (h : Grown t known words) {p : List Char} (hp : p ∈ known) {c : Char}
    (hnew : p ++ [c] ∉ known) {r : Rule Char} :
    (r ∈ t.automaton.rules ∨ r = ⟨stateOf known p, c, stateAt known.length⟩) ↔
      ∃ q d, q ++ [d] ∈ known ++ [p ++ [c]] ∧ r = edge (known ++ [p ++ [c]]) q d := by
  have hedge : edge (known ++ [p ++ [c]]) p c = ⟨stateOf known p, c, stateAt known.length⟩ := by
    rw [edge, stateOf_append hp, stateOf_new hnew]
  refine ⟨?_, ?_⟩
  · intro hr
    rcases hr with hr | hr
    · obtain ⟨q, d, hq, hr⟩ := (h.rules r).1 hr
      exact ⟨q, d, List.mem_append_left _ hq, hr.trans (edge_append h.ordered hq _).symm⟩
    · exact ⟨p, c, List.mem_append_right _ (List.mem_singleton.2 rfl), hr.trans hedge.symm⟩
  · intro ⟨q, d, hq, hr⟩
    rcases List.mem_append.1 hq with hq | hq
    · exact .inl ((h.rules r).2 ⟨q, d, hq, hr.trans (edge_append h.ordered hq _)⟩)
    · -- the only rule to the next prefix is the one that was added
      obtain ⟨rfl, hd⟩ := List.append_inj' (List.mem_singleton.1 hq) rfl
      obtain rfl := List.singleton_inj.1 hd
      exact .inr (hr.trans hedge)

/-- A tree with one more prefix, its state and its rule. -/
theorem push (h : Grown t known words) {p : List Char} (hp : p ∈ known) {c : Char}
    (hnew : p ++ [c] ∉ known) {registry : Registry} {automaton : Automaton Char} {n : Nat}
    (hissued : registry.issued = known.length + 1)
    (hadd : t.automaton.addRule ⟨stateOf known p, c, stateAt known.length⟩ = .ok (n, automaton)) :
    Grown { t with registry, automaton } (known ++ [p ++ [c]]) words := by
  have hordered : PrefixOrdered (known ++ [p ++ [c]]) := by
    rw [← meet_of_not_mem hnew]
    exact h.ordered.meet hp c
  have hlength : (known ++ [p ++ [c]]).length = known.length + 1 := by
    rw [List.length_append, List.length_singleton]
  have hsource := Automaton.learn_of_known (q := stateOf known p) (h.get?_stateOf hp)
  have hwellFormed : automaton.WellFormed := h.wellFormed.addRule hadd
  obtain ⟨_, _, rfl⟩ := Automaton.addRule_eq_ok_iff.1 hadd
  refine ⟨hordered, hissued.trans hlength.symm, hwellFormed, h.initial, ?_, ?_, ?_, ?_, h.samples⟩
  · intro q
    show (Automaton.learn (Automaton.learn t.automaton.states (stateOf known p))
      (stateAt known.length)).get? q = _
    rw [hsource, hlength]
    exact h.get?_learn_next q
  · intro r
    exact Automaton.mem_rules_push.trans (h.mem_rules_next_iff hp hnew)
  · intro w hw
    exact List.mem_append_left _ (h.ends w hw)
  · intro q
    apply (h.finals q).trans
    apply exists_congr
    intro w
    apply and_congr_right
    intro hw
    rw [stateOf_append (h.ends w hw)]

theorem derive (h : Grown t known words) (p : List Char) (room : known.length + 1 < UInt64.size) :
    ∃ registry, t.registry.derive (stateOf known p) = .ok (stateAt known.length, registry) ∧
      registry.issued = known.length + 1 := by
  obtain ⟨q, registry, hderive⟩ : ∃ q registry,
      t.registry.derive (stateOf known p) = .ok (q, registry) :=
    Registry.exists_allocate (h.issued.symm ▸ room) _
  obtain ⟨_, hid, hancestor, hissued⟩ := Registry.allocate_eq_ok_iff.1 hderive
  -- the empty prefix is known, so the next state is not the initial one
  have hpos : known.length ≠ 0 := by
    intro hzero
    exact absurd (List.length_eq_zero_iff.1 hzero ▸ h.ordered.root_mem) List.not_mem_nil
  have hq : q = stateAt known.length := by
    rw [h.issued] at hid
    rw [stateOf, lineageRoot_stateAt] at hancestor
    have hsame : q.id = (stateAt known.length).id := by
      rw [← StateId.toNat_inj, hid, toNat_stateAt h.length_lt]
    refine State.ext hsame (hancestor.trans ?_)
    rw [stateAt, if_neg hpos]
  exact ⟨registry, by rw [hderive, hq], by rw [hissued, h.issued]⟩

/-- One letter leads to the state of the longer prefix, which the tree has from then on. -/
theorem descend (h : Grown t known words) {p : List Char} (hp : p ∈ known) (c : Char)
    (room : (meet known (p ++ [c])).length < UInt64.size) :
    ∃ t', t.descend (stateOf known p) c = (t', .ok (stateOf (meet known (p ++ [c])) (p ++ [c]))) ∧
      Grown t' (meet known (p ++ [c])) words := by
  by_cases hmem : p ++ [c] ∈ known
  · rw [meet_of_mem hmem]
    refine ⟨t, ?_, h⟩
    rw [PrefixTree.descend, h.ruleFor?_of_mem hmem]
    rfl
  · rw [meet_of_not_mem hmem] at room ⊢
    rw [List.length_append, List.length_singleton] at room
    obtain ⟨registry, hderive, hissued⟩ := h.derive p room
    obtain ⟨n, automaton, hadd⟩ :=
      Automaton.exists_addRule_of_new (r := ⟨stateOf known p, c, stateAt known.length⟩)
        (h.get?_stateOf hp) (h.ruleFor?_of_not_mem hp hmem) h.not_containsState_next
    refine ⟨_, ?_, h.push hp hmem hissued hadd⟩
    rw [PrefixTree.descend, h.ruleFor?_of_not_mem hp hmem]
    simp only [hderive, hadd, stateOf_new hmem]

/-! ## One sample -/

theorem descendAll (h : Grown t known words) {p : List Char} (hp : p ∈ known) (w : List Char)
    (room : (meetBelow known p w).length < UInt64.size) :
    ∃ t', t.descendAll (stateOf known p) w = (t', .ok (stateOf (meetBelow known p w) (p ++ w))) ∧
      Grown t' (meetBelow known p w) words := by
  induction w generalizing t known p with
  | nil =>
    rw [List.append_nil]
    exact ⟨t, rfl, h⟩
  | cons c rest ih =>
    have hroom := Nat.lt_of_le_of_lt (length_meetBelow_le _ (p ++ [c]) rest) room
    obtain ⟨t', hstep, h'⟩ := h.descend hp c hroom
    obtain ⟨t'', hrest, h''⟩ := ih h' (mem_meet_iff.2 (.inr rfl)) room
    refine ⟨t'', ?_, h''⟩
    rw [PrefixTree.descendAll, hstep]
    rw [List.append_assoc, List.singleton_append] at hrest
    exact hrest

theorem finish (h : Grown t known words) {w : String} (hw : w.toList ∈ known) :
    ∃ automaton new, t.automaton.addFinal (stateOf known w.toList) = .ok (new, automaton) ∧
      Grown { t with automaton, samples := t.samples + 1 } known (words ++ [w]) := by
  have hknown := h.get?_stateOf hw
  have hadd := Automaton.addFinal_eq_ok_iff.2
    ⟨Automaton.checkKnown_eq_ok_of_get? hknown, rfl, rfl⟩
  have hwellFormed := h.wellFormed.addFinal hadd
  refine ⟨_, _, hadd, h.ordered, h.issued, hwellFormed, h.initial, ?_, h.rules, ?_, ?_, ?_⟩
  · intro q
    rw [Automaton.learn_of_known hknown]
    exact h.states q
  · intro v hv
    rcases List.mem_append.1 hv with hv | hv
    · exact h.ends v hv
    · rw [List.mem_singleton.1 hv]
      exact hw
  · intro q
    apply Automaton.isFinal_insert.trans
    simp only [List.mem_append, List.mem_singleton]
    have hold := h.finals q
    rw [Automaton.isFinal] at hold
    rw [hold]
    grind
  · rw [List.length_append, List.length_singleton, h.samples]

/-- A tree of samples takes in one more, as long as there are identities for its prefixes. -/
theorem insert (h : Grown t (prefixes words) words) (w : String)
    (room : (prefixes (words ++ [w])).length < UInt64.size) :
    ∃ t' id, t.insert w = (t', .ok id) ∧ Grown t' (prefixes (words ++ [w])) (words ++ [w]) := by
  rw [← meetBelow_prefixes] at room ⊢
  obtain ⟨t', hdescend, h'⟩ := h.descendAll h.ordered.root_mem w.toList room
  have hend : w.toList ∈ meetBelow (prefixes words) [] w.toList :=
    mem_meetBelow h.ordered.root_mem w.toList
  obtain ⟨automaton, new, hfinal, h''⟩ := h'.finish hend
  refine ⟨_, (stateOf (meetBelow (prefixes words) [] w.toList) w.toList).id, ?_, h''⟩
  rw [List.nil_append] at hdescend
  rw [PrefixTree.insert, h.initial_eq, hdescend]
  simp only [hfinal]

end Grown

end Acceptor.PrefixTree
