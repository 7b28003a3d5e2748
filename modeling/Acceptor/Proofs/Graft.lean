import Acceptor.Proofs.Extension
import Acceptor.Proofs.Prefixes

/-!
  Acceptor.Proofs.Graft — samples grafted on a tree

  An automaton is a tree where no two words lead to one state, whatever other states and rules it
  has that no word comes to. A builder that goes on with a tree hangs each sample on the node where
  it leaves the tree. The branch leads to new states alone, so it is a tree again, and the end of a
  sample is the end of no other word: what is accepted is what was, and the samples.

  Main statements:
    1. `Automaton.Branch.arrives?_iff` and `Automaton.Branch.treelike` — a branch makes one word
       more lead somewhere, and a tree stays one.
    2. `PrefixTree.Grafted.descend` and `PrefixTree.Grafted.insert` — what one letter and one sample
       add.
    3. `PrefixTree.grafted_exactly` — all of it, while there are identities left.
-/

namespace Acceptor

namespace Automaton

variable {α : Type} [Letter α] {a b : Automaton α}

/-- Whether an automaton is a tree: no two words lead from its initial state to one state. -/
def Treelike (a : Automaton α) : Prop :=
  ∀ v w q, a.follows? a.initial.id v = some q → a.follows? a.initial.id w = some q → v = w

theorem isSome_arrives? (q : State) (w : List α) :
    (a.arrives? q w).isSome = (a.follows? q.id w).isSome := by
  rw [← map_id_arrives?, Option.isSome_map]

/-! ## Trees -/

namespace Treelike

theorem of_arrives? (h : ∀ v w p q, a.arrives? a.initial v = some p →
    a.arrives? a.initial w = some q → p.id = q.id → v = w) : a.Treelike := by
  intro v w i hv hw
  rw [← map_id_arrives?, Option.map_eq_some_iff] at hv hw
  obtain ⟨p, hp, rfl⟩ := hv
  obtain ⟨q, hq, heq⟩ := hw
  exact h v w p q hp hq heq.symm

theorem eq_of_arrives? (h : a.Treelike) {v w : List α} {p q : State}
    (hv : a.arrives? a.initial v = some p) (hw : a.arrives? a.initial w = some q)
    (heq : p.id = q.id) : v = w := by
  apply h v w q.id
  · rw [← map_id_arrives?, hv, Option.map_some, heq]
  · rw [← map_id_arrives?, hw, Option.map_some]

end Treelike

/-- An automaton is a tree where states have addresses: the empty one for the initial state, and
one letter more for each rule that is taken from a state with an address. -/
theorem treelike_of_address (address : StateId → Option (List α))
    (root : address a.initial.id = some [])
    (along : ∀ r ∈ a.rules, a.ruleFor? r.source.id r.symbol = some r →
      (address r.source.id).isSome →
        address r.destination.id = (address r.source.id).map (· ++ [r.symbol])) :
    a.Treelike := by
  have hend {q e : StateId} {w p : List α} (hq : address q = some p)
      (hw : a.follows? q w = some e) : address e = some (p ++ w) := by
    induction w generalizing q p with
    | nil => rw [← Option.some.inj hw, hq, List.append_nil]
    | cons x rest ih =>
      cases hr : a.ruleFor? q x with
      | none =>
        rw [follows?_of_none hr] at hw
        exact absurd hw (by simp)
      | some r =>
        rw [follows?_of_some hr] at hw
        obtain ⟨hmem, htrigger⟩ := Rulebook.mem_of_first? hr
        obtain ⟨rfl, rfl⟩ := Trigger.mk.inj htrigger
        have hnext := along r hmem hr (by rw [hq]; rfl)
        rw [hq, Option.map_some] at hnext
        rw [ih hnext hw, List.append_assoc, List.singleton_append]
  intro v w q hv hw
  exact Option.some.inj ((hend root hv).symm.trans (hend root hw))

/-! ## One branch -/

/-- Whether an automaton is another one with a branch: a rule from the end of a word to a new state,
where none was found. -/
structure Branch (a : Automaton α) (p : List α) (r : Rule α) (b : Automaton α) : Prop where
  wellFormed : a.WellFormed
  source : a.arrives? a.initial p = some r.source
  free : a.ruleFor? r.source.id r.symbol = none
  new : ¬ a.containsState r.destination.id
  added : ∃ n, a.addRule r = .ok (n, b)

namespace Branch

variable {p : List α} {r : Rule α}

theorem containsState_source (h : Branch a p r b) : a.containsState r.source.id :=
  h.wellFormed.containsState_arrives? h.wellFormed.containsState_initial h.source

/-- On a tree a branch makes one word lead somewhere that did not, to the new state. -/
theorem arrives?_iff (h : Branch a p r b) (tree : a.Treelike) {w : List α} {e : State} :
    b.arrives? b.initial w = some e ↔
      a.arrives? a.initial w = some e ∨ w = p ++ [r.symbol] ∧ e = r.destination := by
  obtain ⟨n, ok⟩ := h.added
  have hextends := extends_addRule h.free ok
  rw [hextends.initial]
  refine ⟨?_, ?_⟩
  · intro hw
    rcases arrives?_addRule h.wellFormed h.free h.containsState_source h.new ok hw with
      hold | ⟨he, v, q, rfl, hv, hq⟩
    · exact .inl hold
    · -- the state that the rule leaves is the end of one word only
      rw [tree.eq_of_arrives? hv h.source hq]
      exact .inr ⟨rfl, he⟩
  · intro hw
    rcases hw with hold | ⟨rfl, rfl⟩
    · exact hextends.arrives? hold
    · rw [arrives?_append_singleton (hextends.arrives? h.source), ruleFor?_addRule h.free ok,
        if_pos ⟨rfl, rfl⟩]
      rfl

theorem treelike (h : Branch a p r b) (tree : a.Treelike) : b.Treelike := by
  have hold {w : List α} {e : State} (hw : a.arrives? a.initial w = some e) :
      e.id ≠ r.destination.id := by
    intro heq
    exact h.new (heq ▸ h.wellFormed.containsState_arrives? h.wellFormed.containsState_initial hw)
  apply Treelike.of_arrives?
  intro v w e e' hv hw heq
  rcases (h.arrives?_iff tree).1 hv with hv | ⟨rfl, rfl⟩
  · rcases (h.arrives?_iff tree).1 hw with hw | ⟨rfl, rfl⟩
    · exact tree.eq_of_arrives? hv hw heq
    · exact absurd heq (hold hv)
  · rcases (h.arrives?_iff tree).1 hw with hw | ⟨rfl, rfl⟩
    · exact absurd heq.symm (hold hw)
    · rfl

theorem recognize_iff (h : Branch a p r b) (tree : a.Treelike) (w : List α) :
    (b.recognize w).1 ↔ (a.recognize w).1 := by
  obtain ⟨n, ok⟩ := h.added
  have hfinals (q : StateId) : b.isFinal q ↔ a.isFinal q := by
    obtain ⟨_, _, rfl⟩ := addRule_eq_ok_iff.1 ok
    exact Iff.rfl
  rw [recognize_iff_arrives? (h.wellFormed.addRule ok).symbols,
    recognize_iff_arrives? h.wellFormed.symbols]
  refine exists_congr fun e => ?_
  rw [h.arrives?_iff tree, hfinals]
  refine ⟨?_, fun ⟨hw, hfinal⟩ => ⟨.inl hw, hfinal⟩⟩
  intro ⟨hw, hfinal⟩
  rcases hw with hw | ⟨_, rfl⟩
  · exact ⟨hw, hfinal⟩
  · exact absurd (h.wellFormed.finals _ hfinal) h.new

theorem unaliased (h : Branch a p r b) (unaliased : a.Unaliased) : b.Unaliased := by
  obtain ⟨n, ok⟩ := h.added
  have hanchored : a.Anchored := fun s hs => ⟨(unaliased s hs).1, .inr (unaliased s hs).2⟩
  have hloops := hanchored.unaliased_iff.1 unaliased
  refine (hanchored.addRule ok).unaliased_iff.2 ?_
  obtain ⟨_, _, rfl⟩ := addRule_eq_ok_iff.1 ok
  intro s hs
  rcases mem_rules_push.1 hs with hs | rfl
  · exact hloops s hs
  · intro ⟨heq, _⟩
    exact h.new (heq ▸ h.containsState_source)

end Branch

/-! ## The end of a word made final -/

section

variable {p : List α} {q : State} {new : Bool}

theorem Treelike.addFinal (h : a.Treelike) (ok : a.addFinal q = .ok (new, b)) : b.Treelike := by
  apply of_arrives?
  intro v w e e' hv hw
  rw [arrives?_addFinal ok] at hv hw
  exact h.eq_of_arrives? hv hw

theorem Unaliased.addFinal (h : a.Unaliased) (ok : a.addFinal q = .ok (new, b)) : b.Unaliased := by
  have hkept {s : State} (hs : a.Knows s) : b.Knows s := hs.addFinal ok
  obtain ⟨_, _, rfl⟩ := addFinal_eq_ok_iff.1 ok
  exact fun r hr => ⟨hkept (h r hr).1, hkept (h r hr).2⟩

/-- On a tree the end of a word is the end of no other. -/
theorem Treelike.recognize_addFinal_iff (h : a.Treelike) (wellFormed : a.WellFormed)
    (ends : a.arrives? a.initial p = some q) (ok : a.addFinal q = .ok (new, b)) (w : List α) :
    (b.recognize w).1 ↔ (a.recognize w).1 ∨ w = p := by
  rw [recognize_iff_arrives? (wellFormed.addFinal ok).symbols,
    recognize_iff_arrives? wellFormed.symbols]
  simp only [arrives?_addFinal ok, isFinal_of_addFinal ok]
  refine ⟨?_, ?_⟩
  · intro ⟨e, hw, hfinal⟩
    rcases hfinal with heq | hfinal
    · exact .inr (h.eq_of_arrives? hw ends heq)
    · exact .inl ⟨e, hw, hfinal⟩
  · intro hw
    rcases hw with ⟨e, hw, hfinal⟩ | rfl
    · exact ⟨e, hw, .inr hfinal⟩
    · exact ⟨q, ends, .inl rfl⟩

end

end Automaton

namespace PrefixTree

/-! ## The prefixes that need a state -/

/-- Of some prefixes, those that an automaton cannot follow. -/
def unfollowed (a : Automaton Char) (known : List (List Char)) : List (List Char) :=
  known.filter fun p => (a.follows? a.initial.id p).isNone

section

variable {a : Automaton Char} {known more : List (List Char)} {p : List Char}

theorem length_unfollowed_le (h : known <+: more) :
    (unfollowed a known).length ≤ (unfollowed a more).length :=
  (h.sublist.filter _).length_le

theorem unfollowed_meet_of_follows (h : (a.follows? a.initial.id p).isSome ∨ p ∈ known) :
    unfollowed a (meet known p) = unfollowed a known := by
  by_cases hp : p ∈ known
  · rw [meet_of_mem hp]
  · have hfollows := h.resolve_right hp
    rw [meet_of_not_mem hp, unfollowed, List.filter_append]
    simp [unfollowed, Option.isSome_iff_ne_none.1 hfollows]

theorem unfollowed_meet_of_new (h : ¬ ((a.follows? a.initial.id p).isSome ∨ p ∈ known)) :
    unfollowed a (meet known p) = unfollowed a known ++ [p] := by
  obtain ⟨hfollows, hp⟩ := not_or.1 h
  rw [meet_of_not_mem hp, unfollowed, List.filter_append]
  simp [unfollowed, Option.not_isSome_iff_eq_none.1 hfollows]

end

/-! ## What a tree has taken in -/

/-- A tree with samples grafted on it: the prefixes met on their ways, and the samples so far. -/
structure Grafted (a : Automaton Char) (known : List (List Char)) (words : List String)
    (t : PrefixTree) : Prop where
  growing : Growing a t
  unaliased : t.automaton.Unaliased
  treelike : t.automaton.Treelike
  leads : ∀ w, (t.automaton.arrives? t.automaton.initial w).isSome ↔
    (a.follows? a.initial.id w).isSome ∨ w ∈ known
  /-- Each identity that was issued is that of a prefix without a state before. -/
  issued : t.registry.issued = (lastId a).toNat + 1 + (unfollowed a known).length
  accepts : ∀ w, (t.automaton.recognize w).1 ↔ (a.recognize w).1 ∨ ∃ s ∈ words, s.toList = w

namespace Grafted

variable {a : Automaton Char} {known : List (List Char)} {words : List String} {t : PrefixTree}

theorem start (h : a.WellFormed) (unaliased : a.Unaliased) (treelike : a.Treelike)
    (extended : extend a = .ok t) : Grafted a (prefixes []) [] t := by
  have hgrowing := Growing.start h extended
  obtain ⟨rfl, hissued⟩ := extend_eq_ok extended
  refine ⟨hgrowing, unaliased, treelike, ?_, hissued, by simp⟩
  intro w
  have hroot : w ∈ prefixes [] ↔ w = [] := by simp [mem_prefixes_iff]
  rw [Automaton.isSome_arrives?, hroot, eq_comm, or_iff_left_of_imp]
  intro hw
  rw [hw]
  rfl

theorem knows (h : Grafted a known words t) {w : List Char} {q : State}
    (ends : t.automaton.arrives? t.automaton.initial w = some q) : t.automaton.Knows q :=
  h.unaliased.knows_of_arrives? h.growing.wellFormed.initial ends

theorem containsState (h : Grafted a known words t) {w : List Char} {q : State}
    (ends : t.automaton.arrives? t.automaton.initial w = some q) : t.automaton.containsState q.id :=
  h.growing.wellFormed.containsState_arrives? h.growing.wellFormed.containsState_initial ends

/-! ## One letter -/

theorem there (h : Grafted a known words t) {p : List Char}
    (leads : (t.automaton.arrives? t.automaton.initial p).isSome) :
    Grafted a (meet known p) words t := by
  have hp := (h.leads p).1 leads
  refine ⟨h.growing, h.unaliased, h.treelike, ?_, ?_, h.accepts⟩
  · intro w
    rw [h.leads, mem_meet_iff, ← or_assoc]
    refine ⟨.inl, ?_⟩
    intro hw
    rcases hw with hw | rfl
    · exact hw
    · exact hp
  · rw [h.issued, unfollowed_meet_of_follows hp]

theorem push (h : Grafted a known words t) {p : List Char} {q next : State} {c : Char}
    {registry : Registry} {automaton : Automaton Char}
    (growing : Growing a { t with registry, automaton })
    (branch : Automaton.Branch t.automaton p ⟨q, c, next⟩ automaton)
    (new : ¬ ((a.follows? a.initial.id (p ++ [c])).isSome ∨ p ++ [c] ∈ known))
    (issued : registry.issued = t.registry.issued + 1) :
    Grafted a (meet known (p ++ [c])) words { t with registry, automaton } := by
  refine ⟨growing, branch.unaliased h.unaliased, branch.treelike h.treelike, ?_, ?_, ?_⟩
  · intro w
    rw [mem_meet_iff, ← or_assoc, ← h.leads, Option.isSome_iff_exists, Option.isSome_iff_exists]
    simp only [branch.arrives?_iff h.treelike]
    grind
  · show registry.issued = _
    rw [issued, h.issued, unfollowed_meet_of_new new, List.length_append, List.length_singleton]
    rfl
  · intro w
    rw [branch.recognize_iff h.treelike, h.accepts]

theorem descend (h : Grafted a known words t) {p : List Char} {q : State}
    (ends : t.automaton.arrives? t.automaton.initial p = some q) (c : Char)
    (room : (lastId a).toNat + 1 + (unfollowed a (meet known (p ++ [c]))).length < UInt64.size) :
    ∃ t' e, t.descend q c = (t', .ok e) ∧
      t'.automaton.arrives? t'.automaton.initial (p ++ [c]) = some e ∧
      Grafted a (meet known (p ++ [c])) words t' := by
  have hleads := Automaton.arrives?_append_singleton ends c
  cases hrule : t.automaton.ruleFor? q.id c with
  | some r =>
    rw [hrule, Option.map_some] at hleads
    have hdescend : t.descend q c = (t, .ok r.destination) := by rw [PrefixTree.descend, hrule]
    exact ⟨t, r.destination, hdescend, hleads, h.there (hleads ▸ rfl)⟩
  | none =>
    rw [hrule, Option.map_none] at hleads
    have hnew : ¬ ((a.follows? a.initial.id (p ++ [c])).isSome ∨ p ++ [c] ∈ known) := by
      rw [← h.leads, hleads]
      exact Bool.false_ne_true
    have hroom : t.registry.issued + 1 < UInt64.size := by
      rw [unfollowed_meet_of_new hnew, List.length_append, List.length_singleton] at room
      rw [h.issued]
      omega
    obtain ⟨next, registry, hderive⟩ :
        ∃ next registry, t.registry.derive q = .ok (next, registry) :=
      Registry.exists_allocate hroom _
    have hfresh := h.growing.new_of_derive hderive
    obtain ⟨n, automaton, hadd⟩ :=
      Automaton.exists_addRule_of_new (r := ⟨q, c, next⟩) (h.knows ends) hrule hfresh
    have hdescend : t.descend q c = ({ t with registry, automaton }, .ok next) := by
      rw [PrefixTree.descend, hrule]
      simp only [hderive, hadd]
    have hbranch : Automaton.Branch t.automaton p ⟨q, c, next⟩ automaton :=
      ⟨h.growing.wellFormed, ends, hrule, hfresh, n, hadd⟩
    have hgrowing := h.growing.descend (h.containsState ends) c
    rw [hdescend] at hgrowing
    refine ⟨_, next, hdescend, (hbranch.arrives?_iff h.treelike).2 (.inr ⟨rfl, rfl⟩), ?_⟩
    exact h.push hgrowing hbranch hnew (Registry.allocate_eq_ok_iff.1 hderive).2.2.2

/-! ## One sample -/

/-- The letters of a word lead on, while there are identities for the prefixes that need one. -/
theorem descendAll (h : Grafted a known words t) {p : List Char} {q : State}
    (ends : t.automaton.arrives? t.automaton.initial p = some q) (w : List Char)
    (room : (lastId a).toNat + 1 + (unfollowed a (meetBelow known p w)).length < UInt64.size) :
    ∃ t' e, t.descendAll q w = (t', .ok e) ∧
      t'.automaton.arrives? t'.automaton.initial (p ++ w) = some e ∧
      Grafted a (meetBelow known p w) words t' := by
  induction w generalizing t known p q with
  | nil =>
    rw [List.append_nil]
    exact ⟨t, q, rfl, ends, h⟩
  | cons c rest ih =>
    have hle := length_unfollowed_le (a := a)
      (prefix_meetBelow (meet known (p ++ [c])) (p ++ [c]) rest)
    rw [meetBelow] at room
    obtain ⟨t', r, hstep, hends, h'⟩ := h.descend ends c (by omega)
    obtain ⟨t'', e, hrest, hends', h''⟩ := ih h' hends room
    rw [List.append_assoc, List.singleton_append] at hends'
    exact ⟨t'', e, by rw [PrefixTree.descendAll, hstep]; exact hrest, hends', h''⟩

theorem finish (h : Grafted a known words t) {s : String} {q : State}
    (ends : t.automaton.arrives? t.automaton.initial s.toList = some q) :
    ∃ new automaton, t.automaton.addFinal q = .ok (new, automaton) ∧
      Grafted a known (words ++ [s]) { t with automaton, samples := t.samples + 1 } := by
  have hadd := Automaton.addFinal_eq_ok_iff.2
    ⟨Automaton.checkKnown_of_knows (h.knows ends), rfl, rfl⟩
  have hgrowing := h.growing.mark (h.containsState ends) (t.samples + 1)
  rw [hadd] at hgrowing
  refine ⟨_, _, hadd, hgrowing, h.unaliased.addFinal hadd, h.treelike.addFinal hadd, ?_,
    h.issued, ?_⟩
  · intro w
    rw [Automaton.arrives?_addFinal hadd, h.leads]
  · intro w
    rw [h.treelike.recognize_addFinal_iff h.growing.wellFormed ends hadd, h.accepts]
    simp only [List.mem_append, List.mem_singleton]
    grind

/-- A tree takes in one sample more, while there are identities for its prefixes. -/
theorem insert (h : Grafted a (prefixes words) words t) (s : String)
    (room : (lastId a).toNat + 1 + (unfollowed a (prefixes (words ++ [s]))).length < UInt64.size) :
    (∃ id, (t.insert s).2 = .ok id) ∧
      Grafted a (prefixes (words ++ [s])) (words ++ [s]) (t.insert s).1 := by
  rw [← meetBelow_prefixes] at room ⊢
  have hroot : t.automaton.arrives? t.automaton.initial [] = some t.automaton.initial := rfl
  obtain ⟨t', q, hdescend, hends, h'⟩ := h.descendAll hroot s.toList room
  obtain ⟨new, automaton, hfinal, h''⟩ := h'.finish hends
  have hinsert : t.insert s = ({ t' with automaton, samples := t'.samples + 1 }, .ok q.id) := by
    rw [PrefixTree.insert, hdescend]
    simp only [hfinal]
  rw [hinsert]
  exact ⟨⟨q.id, rfl⟩, h''⟩

theorem insertEach (h : Grafted a (prefixes words) words t) (samples : List String)
    (room : (lastId a).toNat + 1 + (unfollowed a (prefixes (words ++ samples))).length <
      UInt64.size) :
    Grafted a (prefixes (words ++ samples)) (words ++ samples) (t.insertEach samples) := by
  induction samples generalizing t words with
  | nil =>
    rw [List.append_nil]
    exact h
  | cons s rest ih =>
    have hle := length_unfollowed_le (a := a) (prefix_prefixes (words ++ [s]) rest)
    rw [List.append_cons] at room ⊢
    exact ih (h.insert s (by omega)).2 room

end Grafted

/-! ## Grafted on a tree -/

/-- On any tree of which the rules store what is known, whatever else the automaton has, samples go
in without an error while there are identities for the prefixes that need a state. Each of those
gets one, and no other identity is used. The tree stays a tree, its rules store what is known, and
it accepts what it accepted before and the samples, and nothing else. -/
theorem grafted_exactly {a : Automaton Char} (reachable : a.Reachable) (unaliased : a.Unaliased)
    (treelike : a.Treelike) {samples : List String}
    (room : (lastId a).toNat + 1 + (unfollowed a (prefixes samples)).length < UInt64.size) :
    ∃ t, extend a = .ok t ∧ ∀ before after, before ++ after = samples →
      (∀ s, after.head? = some s → ∃ id, ((t.insertEach before).insert s).2 = .ok id) ∧
      (t.insertEach before).automaton.Unaliased ∧ (t.insertEach before).automaton.Treelike ∧
      (t.insertEach before).registry.issued =
        (lastId a).toNat + 1 + (unfollowed a (prefixes before)).length ∧
      ∀ w : String, ((t.insertEach before).automaton.recognize w.toList).1 ↔
        (a.recognize w.toList).1 ∨ w ∈ before := by
  have hwell := reachable.wellFormed
  obtain ⟨t, extended⟩ := exists_extend (a := a) (by omega)
  have hstart := Grafted.start hwell unaliased treelike extended
  refine ⟨t, extended, ?_⟩
  intro before after hsplit
  subst hsplit
  have hbefore := length_unfollowed_le (a := a) (prefix_prefixes before after)
  have h := hstart.insertEach before (by rw [List.nil_append]; omega)
  rw [List.nil_append] at h
  refine ⟨?_, h.unaliased, h.treelike, h.issued, ?_⟩
  · intro s hs
    obtain ⟨rest, rfl⟩ := List.head?_eq_some_iff.1 hs
    have hnext := length_unfollowed_le (a := a) (prefix_prefixes (before ++ [s]) rest)
    rw [List.append_cons] at room
    exact (h.insert s (by omega)).1
  · intro w
    rw [h.accepts]
    simp only [String.toList_inj, exists_eq_right]

/-- A tree with a rule that is passed over, ways back from there and from a state that no word comes
to, and identities in no order: samples that leave it at several nodes, end inside, or are there. -/
theorem grafted_exactly_on_tangled_tree :
    let a : Automaton Char := (Automaton.ofInitial ⟨⟨3⟩, none⟩).runAll [.withPolicy .allow,
      .addRule ⟨⟨⟨3⟩, none⟩, 'a', ⟨⟨9⟩, some ⟨3⟩⟩⟩, .addRule ⟨⟨⟨3⟩, none⟩, 'a', ⟨⟨5⟩, none⟩⟩,
      .addRule ⟨⟨⟨9⟩, some ⟨3⟩⟩, 'b', ⟨⟨3⟩, none⟩⟩, .addRule ⟨⟨⟨5⟩, none⟩, 'b', ⟨⟨4⟩, some ⟨11⟩⟩⟩,
      .addRule ⟨⟨⟨20⟩, none⟩, 'c', ⟨⟨20⟩, none⟩⟩, .addRule ⟨⟨⟨20⟩, none⟩, 'd', ⟨⟨5⟩, none⟩⟩,
      .addFinal ⟨⟨4⟩, some ⟨11⟩⟩, .addFinal ⟨⟨9⟩, some ⟨3⟩⟩]
    let samples := ["abc", "b", "ab", "aa", ""]
    a.Reachable ∧ a.Unaliased ∧ a.Treelike ∧ a.isDeterministic = false ∧
      unfollowed a (prefixes samples) = [['a', 'b', 'c'], ['b'], ['a', 'a']] ∧
      ∃ t, extend a = .ok t ∧ (t.insert "abc").2 = .ok ⟨21⟩ ∧
        (∃ id, ((t.insertEach ["abc", "b", "ab"]).insert "aa").2 = .ok id) ∧
        (t.insertEach samples).automaton.Treelike ∧ (t.insertEach samples).registry.issued = 24 ∧
        (∀ w : String, ((t.insertEach samples).automaton.recognize w.toList).1 ↔
          (a.recognize w.toList).1 ∨ w ∈ samples) ∧
        ¬ ((t.insertEach samples).automaton.recognize "a".toList).1 := by
  intro a samples
  have reachable : a.Reachable := ⟨_, _, .fresh (.ofInitial _), rfl⟩
  have unaliased : a.Unaliased := by
    unfold Automaton.Unaliased
    decide
  have treelike : a.Treelike := by
    let address (q : StateId) : Option (List Char) :=
      if q = ⟨3⟩ then some [] else if q = ⟨5⟩ then some ['a']
      else if q = ⟨4⟩ then some ['a', 'b'] else none
    exact Automaton.treelike_of_address address rfl (by decide)
  have hprefixes : unfollowed a (prefixes samples) = [['a', 'b', 'c'], ['b'], ['a', 'a']] := by
    decide
  have room : (lastId a).toNat + 1 + (unfollowed a (prefixes samples)).length < UInt64.size := by
    rw [hprefixes]
    decide
  obtain ⟨t, extended, hgrafted⟩ := grafted_exactly reachable unaliased treelike room
  obtain ⟨_, _, htree, hissued, haccepts⟩ := hgrafted samples [] (List.append_nil samples)
  obtain ⟨hmiddle, _⟩ := hgrafted ["abc", "b", "ab"] ["aa", ""] rfl
  rw [hprefixes] at hissued
  obtain rfl : ⟨⟨21⟩, a, 0⟩ = t := Except.ok.inj extended
  refine ⟨reachable, unaliased, treelike, rfl, hprefixes, _, extended, rfl, hmiddle "aa" rfl, htree,
    hissued, haccepts, ?_⟩
  rw [haccepts]
  decide

end PrefixTree

end Acceptor
