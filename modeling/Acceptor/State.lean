import Acceptor.Order

/-!
  Acceptor.State — state identities and states

  A state is an identity, a number of 64 bits, and the identity of the state it was derived
  from, if any. Automata refer to states by identity alone; the ancestor is a record that two
  states of one identity may disagree on, so `State.same` is weaker than equality.

  Main statements:
    1. `StateId.toNat_inj` — an identity is its number.
    2. `State.lineageRoot_of_ancestor` — the lineage root is one link up, or the state itself.
-/

namespace Acceptor

/-- The identity of a state. -/
structure StateId where
  val : UInt64
  deriving DecidableEq

namespace StateId

def toNat (q : StateId) : Nat := q.val.toNat

/-- An identity is written as `q` and its number in decimal. -/
def text (q : StateId) : String := "q" ++ q.toNat.repr

theorem toNat_inj {p q : StateId} : p.toNat = q.toNat ↔ p = q := by
  cases p
  cases q
  simp [toNat, UInt64.toNat_inj]

theorem toNat_lt (q : StateId) : q.toNat < UInt64.size := q.val.toNat_lt

/-- Identities are ordered by number. -/
instance : Ordered StateId where
  lt p q := p.val < q.val
  decEq := instDecidableEqStateId
  decLT p q := UInt64.decLt p.val q.val
  irrefl q := UInt64.lt_irrefl q.val
  trans := UInt64.lt_trans
  trichotomous p q := by
    show p.val < q.val ∨ p = q ∨ q.val < p.val
    obtain h | h | h := Std.lt_trichotomy p.val q.val
    · exact .inl h
    · exact .inr (.inl (by cases p; cases q; simp_all))
    · exact .inr (.inr h)

theorem lt_iff_toNat_lt {p q : StateId} : p < q ↔ p.toNat < q.toNat :=
  UInt64.lt_iff_toNat_lt

end StateId

/-- A state: its identity and that of the state it was derived from, if any. -/
structure State where
  id : StateId
  ancestor : Option StateId
  deriving DecidableEq

namespace State

/-- Whether two states are one state to an automaton: their identities are equal. -/
def same (p q : State) : Bool := p.id = q.id

/-- The root of the state's lineage: its ancestor, or itself where it has none. -/
def lineageRoot (q : State) : StateId := q.ancestor.getD q.id

/-- A state is written as its identity. -/
def text (q : State) : String := q.id.text

theorem ext {p q : State} (id : p.id = q.id) (ancestor : p.ancestor = q.ancestor) : p = q := by
  cases p
  cases q
  simp_all

theorem lineageRoot_of_ancestor (q : State) :
    (q.ancestor = none → q.lineageRoot = q.id) ∧ ∀ r, q.ancestor = some r → q.lineageRoot = r := by
  cases h : q.ancestor <;> simp [lineageRoot, h]

end State

end Acceptor
