/-!
  Acceptor.Order — decidable strict total orders

  Sets and maps keep their keys in ascending order, so what they list is fixed by what they
  hold. `Ordered` is what a type must offer to be such a key: a decidable `<` that is
  irreflexive, transitive and total on distinct values.

  Main statements:
    1. `Ordered.asymm` — of two values at most one is the lesser.
    2. `Ordered.not_lt_iff` and `Ordered.not_lt_trans` — what is not less is equal or greater.
    3. `Ordered.eq_of_pairwise` — ascending lists with the same members are equal.
    4. `Ordered.pairwise_mergeSort` — lists can be sorted.
-/

namespace Acceptor

/-- A type with a decidable strict total order. -/
class Ordered (α : Type) extends LT α where
  /-- Equality can be tested. -/
  decEq : DecidableEq α
  /-- The order can be tested. -/
  decLT : DecidableLT α
  irrefl : ∀ a : α, ¬ a < a
  trans : ∀ {a b c : α}, a < b → b < c → a < c
  trichotomous : ∀ a b : α, a < b ∨ a = b ∨ b < a

namespace Ordered

variable {α : Type} [Ordered α]

instance (priority := low) instDecidableEq : DecidableEq α := Ordered.decEq

instance (priority := low) instDecidableLT : DecidableLT α := Ordered.decLT

theorem asymm {a b : α} (h : a < b) : ¬ b < a :=
  fun h' => irrefl a (trans h h')

theorem ne_of_lt {a b : α} (h : a < b) : a ≠ b := by
  rintro rfl
  exact irrefl a h

theorem not_lt_iff {a b : α} : ¬ a < b ↔ a = b ∨ b < a := by
  constructor
  · intro h
    obtain h' | h' | h' := trichotomous a b
    · exact absurd h' h
    · exact .inl h'
    · exact .inr h'
  · rintro (rfl | h)
    · exact irrefl a
    · exact asymm h

theorem not_lt_trans {a b c : α} (h : ¬ b < a) (h' : ¬ c < b) : ¬ c < a := by
  intro hca
  rcases not_lt_iff.1 h with heq | hab
  · exact h' (heq ▸ hca)
  · exact h' (trans hca hab)

/-! ## Ascending lists -/

theorem eq_of_pairwise {β : Type} {R : β → β → Prop} (irrefl : ∀ a, ¬ R a a)
    (trans : ∀ {a b c}, R a b → R b c → R a c) {l₁ l₂ : List β} (h₁ : l₁.Pairwise R)
    (h₂ : l₂.Pairwise R) (h : ∀ a, a ∈ l₁ ↔ a ∈ l₂) : l₁ = l₂ := by
  induction l₁ generalizing l₂ with
  | nil => exact (List.eq_nil_iff_forall_not_mem.2 fun a ha => by simpa using (h a).2 ha).symm
  | cons x xs ih =>
    cases l₂ with
    | nil => exact absurd ((h x).1 List.mem_cons_self) (by simp)
    | cons y ys =>
      obtain ⟨hx, hxs⟩ := List.pairwise_cons.1 h₁
      obtain ⟨hy, hys⟩ := List.pairwise_cons.1 h₂
      have hxy : x = y := by
        obtain heq | hin := List.mem_cons.1 ((h x).1 List.mem_cons_self)
        · exact heq
        · obtain heq | hin' := List.mem_cons.1 ((h y).2 List.mem_cons_self)
          · exact heq.symm
          · exact absurd (trans (hy x hin) (hx y hin')) (irrefl y)
      subst hxy
      congr 1
      refine ih hxs hys fun a => ?_
      constructor
      · intro ha
        obtain rfl | hin := List.mem_cons.1 ((h a).1 (List.mem_cons_of_mem _ ha))
        · exact absurd (hx a ha) (irrefl a)
        · exact hin
      · intro ha
        obtain rfl | hin := List.mem_cons.1 ((h a).2 (List.mem_cons_of_mem _ ha))
        · exact absurd (hy a ha) (irrefl a)
        · exact hin

theorem pairwise_mergeSort {β : Type} {R : β → β → Prop} [DecidableRel R]
    (asymm : ∀ {a b}, R a b → ¬ R b a) (trans : ∀ {a b c}, ¬ R b a → ¬ R c b → ¬ R c a)
    (l : List β) : (l.mergeSort fun a b => ¬ R b a).Pairwise fun a b => ¬ R b a := by
  have htrans : ∀ a b c : β, decide (¬ R b a) = true → decide (¬ R c b) = true →
      decide (¬ R c a) = true := by
    intro a b c hab hbc
    rw [decide_eq_true_eq] at hab hbc ⊢
    exact trans hab hbc
  have htotal : ∀ a b : β, (decide (¬ R b a) || decide (¬ R a b)) = true := by
    intro a b
    rw [Bool.or_eq_true, decide_eq_true_eq, decide_eq_true_eq]
    by_cases h : R b a
    · exact .inr (asymm h)
    · exact .inl h
  exact (List.pairwise_mergeSort htrans htotal l).imp (by simp)

end Ordered

/-! ## The orders of the basic types -/

/-- Characters are ordered by code point. -/
instance : Ordered Char where
  decEq := instDecidableEqChar
  decLT := Char.instDecidableLt
  irrefl := Char.lt_irrefl
  trans := Char.lt_trans
  trichotomous := Std.lt_trichotomy

/-- Texts are ordered character by character, a text after each of its beginnings. -/
instance : Ordered String where
  decEq := instDecidableEqString
  decLT := String.decidableLT
  irrefl := String.lt_irrefl
  trans := String.lt_trans
  trichotomous _ _ := Std.lt_trichotomy _ _

/-- Signed 64-bit integers are ordered by value. -/
instance : Ordered Int64 where
  decEq := instDecidableEqInt64
  decLT := Int64.decLt
  irrefl _ := Int64.lt_irrefl
  trans := Int64.lt_trans
  trichotomous _ _ := Std.lt_trichotomy _ _

end Acceptor
