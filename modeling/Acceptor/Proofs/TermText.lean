import Acceptor.Term

/-!
  Acceptor.Proofs.TermText — a character term's text and what it says of the term

  The text of a term holds its symbols as they are, and a symbol may itself be a mark of the text.
  The text can still be read in one way only. A symbol is one character, so a reader always knows
  whether a symbol or a mark comes next: what stands at the place of a symbol is one, and after a
  symbol its children begin exactly when an opening mark stands there, since a text is never
  followed by another opening mark. Symbols of more than one character give no such text.

  Main statements:
    1. `Term.chars_append_inj` — a term's text is told from what follows it.
    2. `Term.tails_append_inj` — and so is a list's, whatever follows.
    3. `Term.text_unambiguous` — both, of whole texts.
-/

namespace Acceptor.Term

/-- What may stand after the text of a term: anything that does not open a list of children. -/
def Follows (r : List Char) : Prop := r.head? ≠ some '('

theorem follows_nil : Follows [] := nofun

theorem follows_tails_append (ts : List (Term Char)) (r : List Char) : Follows (tails ts ++ r) := by
  cases ts <;> simp [Follows, tails]

theorem chars_leaf (a : Char) : (node a []).chars = [a] := by
  simp [chars, Letter.text]

theorem chars_node_cons (a : Char) (t : Term Char) (ts : List (Term Char)) :
    (node a (t :: ts)).chars = a :: '(' :: (t.chars ++ tails ts) := by
  simp [chars, Letter.text]

theorem leaf_append_ne {a b : Char} {u : Term Char} {us : List (Term Char)} {r s : List Char}
    (hr : Follows r) : (node a []).chars ++ r ≠ (node b (u :: us)).chars ++ s := by
  intro h
  rw [chars_leaf, chars_node_cons] at h
  have hopen : r = '(' :: (u.chars ++ tails us) ++ s := (List.cons.inj h).2
  exact hr (congrArg List.head? hopen)

theorem tails_cons_append_eq_iff {t u : Term Char} {ts us : List (Term Char)} {r s : List Char} :
    tails (t :: ts) ++ r = tails (u :: us) ++ s ↔
      '(' :: (t.chars ++ tails ts) ++ r = '(' :: (u.chars ++ tails us) ++ s := by
  simp [tails]

mutual

/-- Where one text begins with the texts of two terms, neither of which is followed by an opening
mark, the terms are one and so is what follows. -/
theorem chars_append_inj : ∀ (t u : Term Char) {r s : List Char}, Follows r → Follows s →
    t.chars ++ r = u.chars ++ s → t = u ∧ r = s
  | node a [], node b [], r, s, _, _, h => by
    rw [chars_leaf, chars_leaf] at h
    obtain ⟨rfl, hrest⟩ := List.cons.inj h
    exact ⟨rfl, hrest⟩
  | node _ [], node _ (_ :: _), _, _, hr, _, h => absurd h (leaf_append_ne hr)
  | node _ (_ :: _), node _ [], _, _, _, hs, h => absurd h.symm (leaf_append_ne hs)
  | node a (t :: ts), node b (u :: us), r, s, _, _, h => by
    rw [chars_node_cons, chars_node_cons] at h
    obtain ⟨rfl, hopened⟩ := List.cons.inj h
    have hlist := tails_cons_append_eq_iff.2 hopened
    obtain ⟨hchildren, hrest⟩ := tails_append_inj (t :: ts) (u :: us) hlist
    exact ⟨by rw [hchildren], hrest⟩

/-- Where one text begins with the rests of two lists, the rests are one and so is what follows. -/
theorem tails_append_inj : ∀ (ts us : List (Term Char)) {r s : List Char},
    tails ts ++ r = tails us ++ s → ts = us ∧ r = s
  | [], [], _, _, h => ⟨rfl, (List.cons.inj h).2⟩
  | [], _ :: _, _, _, h => absurd (List.cons.inj h).1 (by decide)
  | _ :: _, [], _, _, h => absurd (List.cons.inj h).1 (by decide)
  | t :: ts, u :: us, r, s, h => by
    have hlist : t.chars ++ (tails ts ++ r) = u.chars ++ (tails us ++ s) := by
      simpa [tails] using h
    -- a term of the list is followed by a comma or by the closing mark
    obtain ⟨rfl, hothers⟩ := chars_append_inj t u (follows_tails_append ts r)
      (follows_tails_append us s) hlist
    obtain ⟨rfl, hrest⟩ := tails_append_inj ts us hothers
    exact ⟨rfl, hrest⟩

end

/-- Two character terms have one text exactly when they are equal. And where a text begins with
two lists of terms between marks, whatever follows each, it is one list. -/
theorem text_unambiguous :
    (∀ s t : Term Char, s.text = t.text ↔ s = t) ∧
    (∀ (t u : Term Char) (ts us : List (Term Char)) (r s : List Char),
      '(' :: (t.chars ++ tails ts) ++ r = '(' :: (u.chars ++ tails us) ++ s ↔
        t :: ts = u :: us ∧ r = s) := by
  refine ⟨?_, ?_⟩
  · intro s t
    refine ⟨?_, congrArg text⟩
    intro h
    have hchars : s.chars ++ [] = t.chars ++ [] := by
      rw [String.ofList_injective h]
    exact (chars_append_inj s t follows_nil follows_nil hchars).1
  · intro t u ts us r s
    refine ⟨?_, ?_⟩
    · intro h
      exact tails_append_inj (t :: ts) (u :: us) (tails_cons_append_eq_iff.2 h)
    · intro ⟨hlists, hrest⟩
      obtain ⟨rfl, rfl⟩ := List.cons.inj hlists
      rw [hrest]

/-- Marks as symbols: a term with two children, and its text. -/
example : text (node '(' [leaf ',', node ')' [leaf ' ']]) = "((,, )( ))" := by decide

/-- Two terms over texts that look alike. -/
example : text (leaf "a(b)") = text (node "a" [leaf "b"]) := by decide

end Acceptor.Term
