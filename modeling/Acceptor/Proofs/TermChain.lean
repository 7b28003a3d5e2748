import Acceptor.Term

/-!
  Acceptor.Proofs.TermChain — how large terms are, and the terms of words

  A new child adds its symbols to those of a term, and one level more than it has itself is then a
  way down. No way down is longer than the symbols that lie on it, so a term has at most as many
  levels as symbols. It has just as many where each symbol has one child at most.

  A word makes such a chain. Its last symbol is there first, and each symbol before it takes what is
  there as its only child; no other chain has the word's symbols from top to bottom.

  Main statements:
    1. `Term.depth_le_size` — the levels of a term and its symbols.
    2. `Term.ofWord_eq_foldl` — the chain of a word grows from the last symbol up.
    3. `Term.ofWord_eq_some_iff` — it is the one term that spells the word.
    4. `Term.measured_and_spelled` — all of it, with the measures.
-/

namespace Acceptor.Term

variable {α : Type} {t : Term α} {v w : List α}

/-! ## Levels and symbols -/

mutual

theorem depth_le_size : ∀ t : Term α, t.depth ≤ t.size
  | node _ ts => by
    rw [depth, size]
    exact Nat.succ_le_succ (depths_le_sizes ts)

theorem depths_le_sizes : ∀ ts : List (Term α), depths ts ≤ sizes ts
  | [] => Nat.le_refl 0
  | t :: ts => by
    have ht := depth_le_size t
    have hts := depths_le_sizes ts
    rw [depths, sizes]
    omega

end

/-! ## Chains -/

/-- A symbol above what is there, if anything is. -/
def above (a : α) : Option (Term α) → Term α
  | none => leaf a
  | some t => (leaf a).append t

theorem ofWord_cons (a : α) (w : List α) : ofWord (a :: w) = some (above a (ofWord w)) := by
  rw [ofWord]
  cases ofWord w <;> rfl

/-- The chain of a word grows from its last symbol up. -/
theorem ofWord_eq_foldl (w : List α) :
    ofWord w = w.reverse.foldl (fun below a => some (above a below)) none := by
  rw [List.foldl_reverse]
  induction w with
  | nil => rfl
  | cons a rest ih => rw [List.foldr_cons, ← ih, ofWord_cons]

theorem ofWord_eq_none_iff : ofWord w = none ↔ w = [] := by
  cases w <;> simp [ofWord]

/-- Whether a term is a chain, each symbol the only child of the one above it, and its symbols are
those of a word from top to bottom. -/
inductive Spells : Term α → List α → Prop where
  | leaf (a : α) : Spells (leaf a) [a]
  | above (a : α) {t : Term α} {w : List α} (h : Spells t w) : Spells (node a [t]) (a :: w)

namespace Spells

theorem size_eq (h : t.Spells w) : t.size = w.length := by
  induction h with
  | leaf a => rfl
  | above a _ ih => rw [size, sizes, sizes, ih, Nat.add_zero, List.length_cons]

theorem depth_eq (h : t.Spells w) : t.depth = w.length := by
  induction h with
  | leaf a => rfl
  | above a _ ih => rw [depth, depths, depths, ih, Nat.max_zero, List.length_cons]

theorem unique (hv : t.Spells v) (hw : t.Spells w) : v = w := by
  induction hv generalizing w with
  | leaf a => cases hw; rfl
  | above a _ ih =>
    cases hw with
    | above _ h => rw [ih h]

end Spells

/-- The chain of a word is the term that spells it, and there is no other. -/
theorem ofWord_eq_some_iff : ofWord w = some t ↔ t.Spells w := by
  refine ⟨?_, ?_⟩
  · intro h
    induction w generalizing t with
    | nil => exact nomatch h
    | cons a rest ih =>
      rw [ofWord_cons] at h
      cases hrest : ofWord rest with
      | none =>
        rw [hrest] at h
        obtain rfl := ofWord_eq_none_iff.1 hrest
        obtain rfl := Option.some.inj h
        exact .leaf a
      | some u =>
        rw [hrest] at h
        obtain rfl := Option.some.inj h
        exact .above a (ih hrest)
  · intro h
    induction h with
    | leaf a => rfl
    | above a _ ih => rw [ofWord_cons, ih]; rfl

theorem ofWord_injective : Function.Injective (ofWord : List α → Option (Term α)) := by
  intro v w h
  cases ht : ofWord v with
  | none =>
    rw [ofWord_eq_none_iff.1 ht, ofWord_eq_none_iff.1 (h.symm.trans ht)]
  | some t => exact (ofWord_eq_some_iff.1 ht).unique (ofWord_eq_some_iff.1 (h.symm.trans ht))

/-- A new child comes after the others, adds its symbols, and makes a way down of one level more
than its own. A term has no more levels than symbols. The empty word makes no term; another word
makes the only chain that spells it, from the last symbol up, with one symbol and one level for each
symbol of the word. No two words make one term. -/
theorem measured_and_spelled :
    (∀ t c : Term α, (t.append c).root = t.root ∧ (t.append c).children = t.children ++ [c] ∧
      (t.append c).size = t.size + c.size ∧ (t.append c).depth = max t.depth (1 + c.depth)) ∧
    (∀ t : Term α, t.depth ≤ t.size) ∧
    (∀ w : List α, ofWord w = w.reverse.foldl (fun below a => some (above a below)) none) ∧
    (∀ w : List α, ofWord w = none ↔ w = []) ∧
    (∀ (a : α) (w : List α), ∃ t, ofWord (a :: w) = some t ∧
      t.size = (a :: w).length ∧ t.depth = (a :: w).length) ∧
    (∀ (w : List α) (t : Term α), ofWord w = some t ↔ t.Spells w) ∧
    Function.Injective (ofWord : List α → Option (Term α)) := by
  refine ⟨?_, depth_le_size, ofWord_eq_foldl, fun _ => ofWord_eq_none_iff, ?_,
    fun _ _ => ofWord_eq_some_iff, ofWord_injective⟩
  · intro t c
    refine ⟨rfl, rfl, size_append t c, ?_⟩
    rw [depth_append, Nat.add_comm 1]
  · intro a w
    have hchain := ofWord_cons a w
    have hspells := ofWord_eq_some_iff.1 hchain
    exact ⟨_, hchain, hspells.size_eq, hspells.depth_eq⟩

/-- The chain of a word of three symbols, and its measures. -/
example : (ofWord ['a', 'b', 'c']).map (fun t => (t.text, t.size, t.depth)) =
    some ("a(b(c))", 3, 3) := by decide

end Acceptor.Term
