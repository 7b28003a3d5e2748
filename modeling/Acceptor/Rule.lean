import Acceptor.Letter
import Acceptor.State

/-!
  Acceptor.Rule — transition rules

  A rule leads from a source state over a symbol to a destination state. What it waits for,
  the source's identity and the symbol, is its trigger. Two rules are the same to an automaton
  when triggers and destinations' identities agree; the ancestors stored with the states do
  not count.

  Main statements:
    1. `Rule.same_iff` — sameness read off the three parts.
-/

namespace Acceptor

variable {α : Type}

/-- What a rule waits for: the identity of its source and its symbol. -/
structure Trigger (α : Type) where
  source : StateId
  symbol : α
  deriving DecidableEq

/-- Triggers are ordered by source, then by symbol. -/
instance [Ordered α] : Ordered (Trigger α) where
  lt s t := s.source < t.source ∨ (s.source = t.source ∧ s.symbol < t.symbol)
  decEq := instDecidableEqTrigger
  decLT s t := inferInstanceAs
    (Decidable (s.source < t.source ∨ (s.source = t.source ∧ s.symbol < t.symbol)))
  irrefl t h := by
    obtain h | h := h
    · exact Ordered.irrefl _ h
    · exact Ordered.irrefl _ h.2
  trans := by
    rintro s t u (h | ⟨h, hs⟩) (h' | ⟨h', hs'⟩)
    · exact .inl (Ordered.trans h h')
    · exact .inl (h' ▸ h)
    · exact .inl (h ▸ h')
    · exact .inr ⟨h.trans h', Ordered.trans hs hs'⟩
  trichotomous := by
    rintro ⟨p, a⟩ ⟨q, b⟩
    obtain h | h | h := Ordered.trichotomous p q
    · exact .inl (.inl h)
    · obtain h' | h' | h' := Ordered.trichotomous a b
      · exact .inl (.inr ⟨h, h'⟩)
      · exact .inr (.inl (by rw [h, h']))
      · exact .inr (.inr (.inr ⟨h.symm, h'⟩))
    · exact .inr (.inr (.inl h))

/-- A transition rule. -/
structure Rule (α : Type) where
  source : State
  symbol : α
  destination : State
  deriving DecidableEq

namespace Rule

def trigger (r : Rule α) : Trigger α := ⟨r.source.id, r.symbol⟩

/-- Whether two rules are one rule to an automaton. -/
def same [Ordered α] (r s : Rule α) : Bool :=
  r.trigger = s.trigger && r.destination.same s.destination

/-- A rule is written as `q0 --a--> q1`. -/
def text [Letter α] (r : Rule α) : String :=
  r.source.text ++ " --" ++ Letter.text r.symbol ++ "--> " ++ r.destination.text

theorem same_iff [Ordered α] {r s : Rule α} :
    r.same s ↔ r.source.id = s.source.id ∧ r.symbol = s.symbol ∧
      r.destination.id = s.destination.id := by
  simp [same, trigger, State.same, and_assoc]

theorem trigger_eq_of_same [Ordered α] {r s : Rule α} (h : r.same s) : r.trigger = s.trigger := by
  obtain ⟨hsource, hsymbol, _⟩ := same_iff.1 h
  rw [trigger, trigger, hsource, hsymbol]

end Rule

end Acceptor
