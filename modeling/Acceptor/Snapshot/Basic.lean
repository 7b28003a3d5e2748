import Acceptor.Automaton.Basic
import Acceptor.Calendar.Instant
import Acceptor.Uuid

/-!
  Acceptor.Snapshot.Basic — snapshots of automata

  A snapshot lists what makes an automaton, without the cursor: the states and final states by
  identity, the alphabet in order, the rules in the order they came. It has a version, an
  identifier and the instant when it was taken, the last two of which its taker chooses.

  Main statements:
    1. `Automaton.nodup_snapshot_states` — a snapshot of an automaton lists no state twice.
-/

namespace Acceptor

/-- What is written down of an automaton. -/
structure Snapshot (α : Type) where
  version : UInt32
  id : Uuid
  takenAt : Instant
  policy : Policy
  states : List State
  initial : StateId
  finals : List StateId
  alphabet : List α
  rules : List (Rule α)
  deriving DecidableEq

/-- The version of the snapshots taken here, the only one that is restored. -/
def Snapshot.supportedVersion : UInt32 := 1

def Automaton.snapshot {α : Type} [Letter α] (a : Automaton α) (id : Uuid) (takenAt : Instant) :
    Snapshot α where
  version := Snapshot.supportedVersion
  id
  takenAt
  policy := a.policy
  states := a.stateList
  initial := a.initial.id
  finals := a.finals.toList
  alphabet := a.alphabet.toList
  rules := a.rules

theorem Automaton.nodup_snapshot_states {α : Type} [Letter α] (a : Automaton α) (id : Uuid)
    (takenAt : Instant) : ((a.snapshot id takenAt).states.map State.id).Nodup := by
  have ids : (a.snapshot id takenAt).states.map State.id = a.states.keys := by
    simp [snapshot, stateList, SortedMap.keys]
  rw [ids]
  exact a.states.ascending_keys.imp Ordered.ne_of_lt

end Acceptor
