import Acceptor.Text.Quoted

/-!
  Acceptor.Payload — one-character symbols given as texts

  A symbol of a word automaton is one character. A payload is the text it may be given as; it
  is refused unless it is exactly one character long.

  Main statements:
    1. `Payload.parse_eq_ok_iff` — a payload is accepted exactly when it is one character.
-/

namespace Acceptor.Payload

/-- Why a payload is refused. -/
inductive Error where
  | empty
  /-- The payload has more than one character. -/
  | tooLong (payload : String)
  deriving DecidableEq

def Error.message : Error → String
  | empty => "Symbol payload must be exactly one character, got an empty string"
  | tooLong payload =>
    "Symbol payload must be exactly one character, got " ++ payload.length.repr ++ ": " ++
      Text.quote payload

/-- The payload's only character. -/
def parse (payload : String) : Except Error Char :=
  match payload.toList with
  | [] => .error .empty
  | [c] => .ok c
  | _ :: _ :: _ => .error (.tooLong payload)

theorem parse_eq_ok_iff {payload : String} {c : Char} :
    parse payload = .ok c ↔ payload.toList = [c] := by
  unfold parse
  split <;> simp_all

end Acceptor.Payload
