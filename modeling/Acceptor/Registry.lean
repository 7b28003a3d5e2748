import Acceptor.State

/-!
  Acceptor.Registry — the source of fresh identities

  A registry is a counter of 64 bits. It hands out the identities in ascending order and
  records with each new state the ancestor it is given. The counter is advanced by addition that
  is checked for overflow, as in a build with overflow checks: at the last number the addition
  fails and does not wrap to zero. So the last identity is never issued.

  Main statements:
    1. `Registry.resumeAfter_eq_ok_iff` — when a registry can go on after an identity.
    2. `Registry.allocate_eq_ok_iff` — when a state is issued, and which.
    3. `Registry.allocate_eq_error_iff` — issuing fails exactly at the last number.
-/

namespace Acceptor

/-- A counter of identities; `next` is the number of the next state. -/
structure Registry where
  next : UInt64
  deriving DecidableEq

namespace Registry

/-- Why a registry refuses. -/
inductive Error where
  /-- The counter cannot be advanced. -/
  | exhausted
  deriving DecidableEq

def Error.message : Error → String
  | exhausted => "attempt to add with overflow"

/-- The last number the counter can hold. -/
def limit : UInt64 := 0xFFFFFFFFFFFFFFFF

/-- The registry whose first state is `q0`. -/
def new : Registry := ⟨0⟩

/-- The number after this one, unless the counter is at its limit. -/
def successor (n : UInt64) : Except Error UInt64 :=
  if n = limit then .error .exhausted else .ok (n + 1)

/-- The registry whose first state comes right after `last`. -/
def resumeAfter (last : StateId) : Except Error Registry := do
  return ⟨← successor last.val⟩

/-- Issues the next identity with a given ancestor. -/
def allocate (r : Registry) (ancestor : Option StateId) : Except Error (State × Registry) := do
  return (⟨⟨r.next⟩, ancestor⟩, ⟨← successor r.next⟩)

/-- Issues a state whose ancestor is the given state. -/
def create (r : Registry) (parent : Option State) : Except Error (State × Registry) :=
  r.allocate (parent.map State.id)

/-- Issues a state in the lineage of `parent`: its ancestor is the lineage root of `parent`. -/
def derive (r : Registry) (parent : State) : Except Error (State × Registry) :=
  r.allocate (some parent.lineageRoot)

/-- Starts numbering again at zero. -/
def reset (_ : Registry) : Registry := new

/-- The number of states issued since the last reset, for a registry that began at `q0`. -/
def issued (r : Registry) : Nat := r.next.toNat

theorem toNat_limit : limit.toNat + 1 = UInt64.size := rfl

theorem next_eq_limit_iff {r : Registry} : r.next = limit ↔ r.issued = limit.toNat :=
  UInt64.toNat_inj.symm

theorem issued_le_limit (r : Registry) : r.issued ≤ limit.toNat :=
  Nat.le_of_lt_succ r.next.toNat_lt

theorem successor_eq_ok_iff {n m : UInt64} :
    successor n = .ok m ↔ n.toNat + 1 < UInt64.size ∧ m.toNat = n.toNat + 1 := by
  have hn := n.toNat_lt
  have hl := toNat_limit
  have hs : UInt64.size = 18446744073709551616 := rfl
  unfold successor
  split
  · next h => simp [h, hl]
  · next h =>
    have hne : n.toNat ≠ limit.toNat := fun h' => h (UInt64.toNat_inj.1 h')
    have hsum : (n + 1).toNat = n.toNat + 1 := by
      rw [UInt64.toNat_add]
      exact Nat.mod_eq_of_lt (by simpa using by omega)
    constructor
    · rintro ⟨rfl⟩
      exact ⟨by omega, hsum⟩
    · rintro ⟨_, hm⟩
      rw [UInt64.toNat_inj.1 (hm.trans hsum.symm)]

theorem successor_eq_error_iff {n : UInt64} {e : Error} : successor n = .error e ↔ n = limit := by
  cases e
  unfold successor
  split <;> simp_all

theorem resumeAfter_eq_ok_iff {last : StateId} {r : Registry} :
    resumeAfter last = .ok r ↔ last.toNat + 1 < UInt64.size ∧ r.issued = last.toNat + 1 := by
  have key : resumeAfter last = .ok r ↔ successor last.val = .ok r.next := by
    unfold resumeAfter
    cases successor last.val with
    | error e => simp [bind, Except.bind]
    | ok n =>
      obtain ⟨m⟩ := r
      simp [bind, Except.bind, pure, Except.pure]
  exact key.trans successor_eq_ok_iff

theorem resumeAfter_eq_error_iff {last : StateId} {e : Error} :
    resumeAfter last = .error e ↔ last.val = limit := by
  rw [← successor_eq_error_iff (e := e), resumeAfter]
  cases successor last.val <;> simp [bind, Except.bind, pure, Except.pure]

theorem allocate_eq_ok_iff {r r' : Registry} {a : Option StateId} {q : State} :
    r.allocate a = .ok (q, r') ↔
      r.issued + 1 < UInt64.size ∧ q.id.toNat = r.issued ∧ q.ancestor = a ∧
        r'.issued = r.issued + 1 := by
  have key : r.allocate a = .ok (q, r') ↔
      q = ⟨⟨r.next⟩, a⟩ ∧ successor r.next = .ok r'.next := by
    unfold allocate
    cases h : successor r.next with
    | error e => simp [bind, Except.bind]
    | ok m =>
      obtain ⟨n⟩ := r'
      simp [bind, Except.bind, pure, Except.pure, eq_comm]
  rw [key, successor_eq_ok_iff]
  obtain ⟨⟨n⟩, b⟩ := q
  simp only [State.mk.injEq, StateId.mk.injEq, StateId.toNat, issued, UInt64.toNat_inj]
  grind

theorem allocate_eq_error_iff {r : Registry} {a : Option StateId} {e : Error} :
    r.allocate a = .error e ↔ r.issued + 1 = UInt64.size := by
  have hlast : r.next = limit ↔ r.issued + 1 = UInt64.size := by
    rw [next_eq_limit_iff, ← toNat_limit, Nat.add_right_cancel_iff]
  rw [← hlast, ← successor_eq_error_iff (e := e), allocate]
  cases successor r.next <;> simp [bind, Except.bind, pure, Except.pure]

theorem exists_allocate {r : Registry} (room : r.issued + 1 < UInt64.size) (a : Option StateId) :
    ∃ q r', r.allocate a = .ok (q, r') := by
  cases h : r.allocate a with
  | ok result => exact ⟨result.1, result.2, rfl⟩
  | error e => exact absurd (allocate_eq_error_iff.1 h) (Nat.ne_of_lt room)

end Registry

end Acceptor
