import Acceptor.Rule
import Acceptor.SortedMap

/-!
  Acceptor.Rulebook — rules in the order they came, and an index to them

  A rulebook numbers its rules from zero as they arrive. Beside the rules it keeps an index:
  under each trigger the rules that wait for it, in the order of their texts. A new rule goes
  before the first rule of its slot whose text is not less. The index is always the one that
  filing the rules one by one gives, so rulebooks with the same rules are equal.

  Main statements:
    1. `Rulebook.mem_candidates_iff` — a slot holds exactly the rules with its trigger, each
       under its own number.
    2. `Rulebook.mem_leaving_iff` — the rules listed for a state are those with that source.
    3. `Rulebook.ext_rules` — the rules determine the rulebook.
-/

namespace Acceptor

variable {α : Type} [Letter α]

/-- A rule with its number in the rulebook. -/
structure Candidate (α : Type) where
  number : Nat
  rule : Rule α
  deriving DecidableEq

/-- Puts a candidate before the first one whose text is not less. -/
def Candidate.insert (c : Candidate α) : List (Candidate α) → List (Candidate α)
  | [] => [c]
  | d :: rest => if d.rule.text < c.rule.text then d :: insert c rest else c :: d :: rest

/-- The rules of each trigger, in the order of their texts. -/
abbrev RuleIndex (α : Type) [Letter α] := SortedMap (Trigger α) (List (Candidate α))

namespace RuleIndex

/-- The rules filed under a trigger. -/
def slot (index : RuleIndex α) (t : Trigger α) : List (Candidate α) := (index.get? t).getD []

/-- Files one rule under its trigger. -/
def file (index : RuleIndex α) (c : Candidate α) : RuleIndex α :=
  index.alter c.rule.trigger fun slot => c.insert (slot.getD [])

/-- Files rules one after another, the first under the number `n`. -/
def fileAll (index : RuleIndex α) (n : Nat) : List (Rule α) → RuleIndex α
  | [] => index
  | r :: rest => fileAll (index.file ⟨n, r⟩) (n + 1) rest

def ofRules (rules : List (Rule α)) : RuleIndex α := fileAll .empty 0 rules

theorem fileAll_append_singleton (index : RuleIndex α) (n : Nat) (rules : List (Rule α))
    (r : Rule α) :
    index.fileAll n (rules ++ [r]) = (index.fileAll n rules).file ⟨n + rules.length, r⟩ := by
  induction rules generalizing index n with
  | nil => rfl
  | cons s rest ih =>
    rw [List.cons_append, fileAll, ih, fileAll, List.length_cons, Nat.add_assoc,
      Nat.add_comm 1]

theorem ofRules_append_singleton (rules : List (Rule α)) (r : Rule α) :
    ofRules (rules ++ [r]) = (ofRules rules).file ⟨rules.length, r⟩ := by
  rw [ofRules, fileAll_append_singleton, Nat.zero_add, ofRules]

end RuleIndex

theorem Candidate.mem_insert {c d : Candidate α} {slot : List (Candidate α)} :
    d ∈ c.insert slot ↔ d = c ∨ d ∈ slot := by
  induction slot with
  | nil => simp [insert]
  | cons e rest ih =>
    rw [insert]
    split
    · rw [List.mem_cons, ih, List.mem_cons]
      grind
    · rw [List.mem_cons]

namespace RuleIndex

theorem slot_file (index : RuleIndex α) (c : Candidate α) (t : Trigger α) :
    (index.file c).slot t =
      if t = c.rule.trigger then c.insert (index.slot t) else index.slot t := by
  unfold slot file
  rw [SortedMap.get?_alter]
  split
  · next h => rw [h, Option.getD_some]
  · rfl

theorem mem_slot_fileAll {index : RuleIndex α} {n : Nat} {rules : List (Rule α)}
    {t : Trigger α} {c : Candidate α} :
    c ∈ (index.fileAll n rules).slot t ↔
      c ∈ index.slot t ∨
        (c.rule.trigger = t ∧ n ≤ c.number ∧ rules[c.number - n]? = some c.rule) := by
  induction rules generalizing index n with
  | nil => simp [fileAll]
  | cons r rest ih =>
    obtain ⟨k, s⟩ := c
    rw [fileAll, ih, slot_file]
    have hstep : n + 1 ≤ k → (r :: rest)[k - n]? = rest[k - (n + 1)]? := by
      intro h
      rw [show k - n = k - (n + 1) + 1 by omega, List.getElem?_cons_succ]
    by_cases hk : n + 1 ≤ k
    · have hne : ({ number := k, rule := s } : Candidate α) ≠ ⟨n, r⟩ := by
        intro h
        injection h with h
        omega
      split
      · next ht =>
        subst ht
        rw [Candidate.mem_insert]
        simp only [hstep hk, hk, hne, true_and, false_or, show n ≤ k by omega]
      · simp only [hstep hk, hk, true_and, show n ≤ k by omega]
    · by_cases hn : k = n
      · subst hn
        simp only [hk, false_and, and_false, or_false, Nat.sub_self, Nat.le_refl, true_and,
          List.getElem?_cons_zero, Option.some.injEq]
        split
        · next ht =>
          subst ht
          rw [Candidate.mem_insert]
          simp only [Candidate.mk.injEq, true_and]
          grind
        · grind
      · have hlt : ¬ n ≤ k := by omega
        have hne : ({ number := k, rule := s } : Candidate α) ≠ ⟨n, r⟩ := by
          intro h
          injection h with h
          omega
        simp only [hk, hlt, false_and, and_false, or_false]
        split
        · rw [Candidate.mem_insert]
          simp [hne]
        · rfl

theorem mem_slot_ofRules {rules : List (Rule α)} {t : Trigger α} {c : Candidate α} :
    c ∈ (ofRules rules).slot t ↔ c.rule.trigger = t ∧ rules[c.number]? = some c.rule := by
  rw [ofRules, mem_slot_fileAll]
  simp [slot]

end RuleIndex

/-- Rules in the order they came, with their index. -/
structure Rulebook (α : Type) [Letter α] where
  rules : List (Rule α)
  index : RuleIndex α
  index_eq : index = RuleIndex.ofRules rules

namespace Rulebook

def empty : Rulebook α := ⟨[], .empty, rfl⟩

/-- The rulebook with one more rule; its number is the number of rules before. -/
def push (b : Rulebook α) (r : Rule α) : Rulebook α where
  rules := b.rules ++ [r]
  index := b.index.file ⟨b.rules.length, r⟩
  index_eq := by rw [b.index_eq, RuleIndex.ofRules_append_singleton]

def ofList (rules : List (Rule α)) : Rulebook α := rules.foldl push empty

def size (b : Rulebook α) : Nat := b.rules.length

/-- The rules that wait for a trigger, in the order of their texts. -/
def candidates (b : Rulebook α) (t : Trigger α) : List (Candidate α) := b.index.slot t

/-- The first rule, by text, that waits for a trigger. -/
def first? (b : Rulebook α) (t : Trigger α) : Option (Rule α) :=
  (b.candidates t).head?.map Candidate.rule

/-- The rules that leave a state, by symbol and then by text. -/
def leaving (b : Rulebook α) (source : StateId) : List (Rule α) :=
  b.index.entries.flatMap fun entry =>
    if entry.1.source = source then entry.2.map Candidate.rule else []

/-- How many rules wait for each trigger that has any. -/
def groups (b : Rulebook α) : List (Trigger α × Nat) :=
  b.index.entries.map fun entry => (entry.1, entry.2.length)

/-- Whether no trigger has two rules. -/
def isDeterministic (b : Rulebook α) : Bool := b.groups.all fun group => group.2 ≤ 1

theorem ext_rules {b c : Rulebook α} (h : b.rules = c.rules) : b = c := by
  obtain ⟨rules, index, hb⟩ := b
  obtain ⟨rules', index', hc⟩ := c
  subst hb hc h
  rfl

@[simp] theorem rules_push (b : Rulebook α) (r : Rule α) : (b.push r).rules = b.rules ++ [r] :=
  rfl

theorem rules_foldl_push (b : Rulebook α) (rules : List (Rule α)) :
    (rules.foldl push b).rules = b.rules ++ rules := by
  induction rules generalizing b with
  | nil => simp
  | cons r rest ih => simp [ih]

@[simp] theorem rules_ofList (rules : List (Rule α)) : (ofList rules).rules = rules := by
  simp [ofList, rules_foldl_push, empty]

theorem mem_candidates_iff {b : Rulebook α} {t : Trigger α} {c : Candidate α} :
    c ∈ b.candidates t ↔ c.rule.trigger = t ∧ b.rules[c.number]? = some c.rule := by
  rw [candidates, b.index_eq, RuleIndex.mem_slot_ofRules]

theorem mem_leaving_iff {b : Rulebook α} {source : StateId} {r : Rule α} :
    r ∈ b.leaving source ↔ r ∈ b.rules ∧ r.source.id = source := by
  rw [leaving, List.mem_flatMap]
  constructor
  · rintro ⟨⟨t, slot⟩, hentry, hr⟩
    split at hr
    · next hsource =>
      obtain ⟨c, hc, rfl⟩ := List.mem_map.1 hr
      have hslot : c ∈ b.candidates t := by
        rw [candidates, RuleIndex.slot, SortedMap.mem_entries_iff.1 hentry]
        exact hc
      obtain ⟨ht, hget⟩ := mem_candidates_iff.1 hslot
      exact ⟨List.mem_of_getElem? hget, by rw [← hsource, ← ht]; rfl⟩
    · exact absurd hr List.not_mem_nil
  · rintro ⟨hr, hsource⟩
    obtain ⟨n, hn⟩ := List.getElem?_of_mem hr
    have hslot : ⟨n, r⟩ ∈ b.candidates r.trigger := mem_candidates_iff.2 ⟨rfl, hn⟩
    rw [candidates, RuleIndex.slot] at hslot
    cases hget : b.index.get? r.trigger with
    | none => simp [hget] at hslot
    | some slot =>
      refine ⟨(r.trigger, slot), SortedMap.mem_entries_iff.2 hget, ?_⟩
      rw [hget] at hslot
      rw [if_pos (show r.trigger.source = source from hsource)]
      exact List.mem_map.2 ⟨_, hslot, rfl⟩

end Rulebook

end Acceptor
