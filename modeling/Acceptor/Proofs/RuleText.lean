import Acceptor.Rule

/-!
  Acceptor.Proofs.RuleText — a rule's text and what it says of the rule

  The text of a rule holds its symbol as it is, and a symbol may itself contain an arrow and
  what looks like states. The text can still be read in one way only: the source's number ends
  where the first blank stands, the destination's number begins after the last `q`, and the
  symbol is what is left between two known marks.

  Main statements:
    1. `Rule.text_eq_iff` — two rules have one text exactly when they are the same rule.
-/

namespace Acceptor

/-- A run of letters of one kind before a letter of another is found again in the whole. -/
theorem append_cons_inj {β : Type} {kind : β → Bool} {l l' r r' : List β} {a a' : β}
    (hl : ∀ x ∈ l, kind x = true) (hl' : ∀ x ∈ l', kind x = true) (ha : kind a = false)
    (ha' : kind a' = false) (h : l ++ a :: r = l' ++ a' :: r') :
    l = l' ∧ a :: r = a' :: r' := by
  induction l generalizing l' with
  | nil =>
    cases l' with
    | nil => exact ⟨rfl, h⟩
    | cons x l' =>
      obtain ⟨rfl, _⟩ := List.cons.inj h
      have hx := hl' a List.mem_cons_self
      rw [ha] at hx
      exact absurd hx (by simp)
  | cons x l ih =>
    cases l' with
    | nil =>
      obtain ⟨rfl, _⟩ := List.cons.inj h
      have hx := hl x List.mem_cons_self
      rw [ha'] at hx
      exact absurd hx (by simp)
    | cons x' l' =>
      obtain ⟨rfl, htail⟩ := List.cons.inj h
      have hrest := ih (fun y hy => hl y (List.mem_cons_of_mem _ hy))
        (fun y hy => hl' y (List.mem_cons_of_mem _ hy)) htail
      exact ⟨by rw [hrest.1], hrest.2⟩

theorem isDigit_of_mem_repr {n : Nat} {c : Char} (h : c ∈ n.repr.toList) : c.isDigit = true := by
  rw [Nat.toList_repr] at h
  exact Nat.isDigit_of_mem_toDigits (by decide) (by decide) h

theorem repr_append_inj {m n : Nat} {c d : Char} {r s : List Char} (hc : c.isDigit = false)
    (hd : d.isDigit = false) (h : m.repr.toList ++ c :: r = n.repr.toList ++ d :: s) :
    m = n ∧ c :: r = d :: s := by
  obtain ⟨hnum, hrest⟩ := append_cons_inj (fun _ => isDigit_of_mem_repr)
    (fun _ => isDigit_of_mem_repr) hc hd h
  exact ⟨repr_nat_inj (String.toList_inj.1 hnum), hrest⟩

theorem append_repr_inj {m n : Nat} {c d : Char} {r s : List Char} (hc : c.isDigit = false)
    (hd : d.isDigit = false) (h : r ++ c :: m.repr.toList = s ++ d :: n.repr.toList) :
    m = n ∧ r ++ [c] = s ++ [d] := by
  -- read from the end, this is a number before what is no digit
  have hrev := congrArg List.reverse h
  simp only [List.reverse_append, List.reverse_cons, List.append_assoc, List.singleton_append]
    at hrev
  obtain ⟨hnum, hrest⟩ := append_cons_inj (fun x hx => isDigit_of_mem_repr (List.mem_reverse.1 hx))
    (fun x hx => isDigit_of_mem_repr (List.mem_reverse.1 hx)) hc hd hrev
  refine ⟨repr_nat_inj (String.toList_inj.1 (List.reverse_inj.1 hnum)), ?_⟩
  simpa using congrArg List.reverse hrest

namespace Rule

variable {α : Type} [Letter α]

theorem toList_text (r : Rule α) :
    r.text.toList = 'q' :: (r.source.id.toNat.repr.toList ++ ' ' :: '-' :: '-' ::
      ((Letter.text r.symbol).toList ++ '-' :: '-' :: '>' :: ' ' :: 'q' ::
        r.destination.id.toNat.repr.toList)) := by
  simp [text, State.text, StateId.text]

theorem text_eq_iff {r s : Rule α} : r.text = s.text ↔ r.same s := by
  rw [same_iff]
  refine ⟨?_, ?_⟩
  · intro h
    have hlist := congrArg String.toList h
    rw [toList_text, toList_text] at hlist
    obtain ⟨hsource, hmiddle⟩ := repr_append_inj (by decide) (by decide) (List.cons.inj hlist).2
    simp only [List.cons.injEq, true_and] at hmiddle
    -- what is left is the symbol, a known mark and the destination's number
    have hend : ∀ t : Rule α, (Letter.text t.symbol).toList ++ '-' :: '-' :: '>' :: ' ' :: 'q' ::
        t.destination.id.toNat.repr.toList = ((Letter.text t.symbol).toList ++ "--> ".toList) ++
          'q' :: t.destination.id.toNat.repr.toList := by
      intro t
      simp
    rw [hend, hend] at hmiddle
    obtain ⟨hdestination, hsymbol⟩ := append_repr_inj (by decide) (by decide) hmiddle
    refine ⟨StateId.toNat_inj.1 hsource, ?_, StateId.toNat_inj.1 hdestination⟩
    have hboth := List.append_cancel_right (List.append_cancel_right hsymbol)
    exact Letter.text_inj.1 (String.toList_inj.1 hboth)
  · intro ⟨hsource, hsymbol, hdestination⟩
    simp [text, State.text, hsource, hsymbol, hdestination]

end Rule

end Acceptor
