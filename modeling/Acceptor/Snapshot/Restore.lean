import Acceptor.Check.Checker
import Acceptor.Snapshot.Basic

/-!
  Acceptor.Snapshot.Restore — automata from snapshots

  A snapshot of the supported version is assembled to an automaton and checked as a whole: it
  is refused with all that is wrong with it, states listed twice first. The cursor of what is
  restored stands on the initial state.

  Main statements:
    1. `Snapshot.restore_eq_ok_iff` — a snapshot is restored to what it assembles to, when its
       version is supported and nothing is wrong with it.
-/

namespace Acceptor

variable {α : Type} [Letter α]

/-- Why a snapshot is not restored. -/
inductive RestoreError (α : Type) where
  | unsupportedVersion (found : UInt32)
  | invalid (violations : List (Violation α))
  deriving DecidableEq

def RestoreError.message {α : Type} : RestoreError α → String
  | unsupportedVersion found =>
    "Unsupported snapshot version " ++ found.toNat.repr ++ ", supported: " ++
      Snapshot.supportedVersion.toNat.repr
  | invalid violations =>
    "Snapshot failed validation with " ++ violations.length.repr ++ " violation(s)"

namespace Snapshot

/-- The initial state as it is listed first, or without an ancestor where it is not listed. -/
def initialState (s : Snapshot α) : State :=
  (s.states.find? (·.id = s.initial)).getD ⟨s.initial, none⟩

/-- The automaton that a snapshot describes, unchecked. -/
def assemble (s : Snapshot α) : Automaton α :=
  .assemble s.policy s.states s.initialState s.finals s.alphabet s.rules

/-- All that is wrong with a snapshot. -/
def violations (s : Snapshot α) : List (Violation α) :=
  duplicateStates [] s.states ++ s.assemble.checkInvariants

/-- The automaton that a snapshot describes, when nothing is wrong with it. -/
def restore (s : Snapshot α) : Except (RestoreError α) (Automaton α) :=
  if s.version ≠ supportedVersion then .error (.unsupportedVersion s.version)
  else
    match s.violations with
    | [] => .ok s.assemble
    | violations => .error (.invalid violations)

theorem restore_eq_ok_iff {s : Snapshot α} {a : Automaton α} :
    s.restore = .ok a ↔ s.version = supportedVersion ∧ s.violations = [] ∧ a = s.assemble := by
  by_cases hv : s.version = supportedVersion
  · rw [restore, if_neg (not_not_intro hv)]
    cases hs : s.violations with
    | nil => simp [hv, eq_comm]
    | cons v vs => simp
  · rw [restore, if_pos hv]
    simp [hv]

end Snapshot

end Acceptor
