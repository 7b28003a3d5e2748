import Acceptor.Text.Hex

/-!
  Acceptor.Json.Value — JSON values and how they are written

  A value is a tree. Texts and keys are optional: nothing stands for a text whose escapes name
  half of a surrogate pair, which is well-formed JSON but no text. Numbers are integers or,
  as no reader asks for their value, literals with a fraction or an exponent and negative zero.

  A value is written under a layout, which says what stands at each line break and after each
  colon. The compact layout has nothing there; the pretty one puts every item on its own line,
  two more spaces in for each level, and one space after a colon.
-/

namespace Acceptor.Json

open Text (hexDigit)

inductive Value where
  | null
  | bool (b : Bool)
  | int (n : Int)
  /-- A number that is not an integer, as it was written. -/
  | real (literal : String)
  /-- A text, or nothing where an escape names half of a pair. -/
  | string (text : Option String)
  | array (items : List Value)
  | object (fields : List (Option String × Value))

/-! ## Texts -/

/-- How one character of a text is written. -/
def escape (c : Char) : List Char :=
  if c = '"' then ['\\', '"']
  else if c = '\\' then ['\\', '\\']
  else if c = '\n' then ['\\', 'n']
  else if c = '\r' then ['\\', 'r']
  else if c = '\t' then ['\\', 't']
  else if c = '\x08' then ['\\', 'b']
  else if c = '\x0c' then ['\\', 'f']
  else if c.toNat < 0x20 then
    ['\\', 'u', '0', '0', hexDigit (c.toNat / 16), hexDigit (c.toNat % 16)]
  else [c]

/-- A text between quotes. Half of a pair is written as such. -/
def printText : Option String → List Char
  | some s => '"' :: (s.toList.flatMap escape ++ ['"'])
  | none => ['"', '\\', 'u', 'd', '8', '0', '0', '"']

/-! ## Layouts -/

/-- What stands at a line break of some depth and after a colon. -/
structure Layout where
  newline : Nat → List Char
  afterColon : List Char

/-- Nothing between the marks. -/
def Layout.compact : Layout := ⟨fun _ => [], []⟩

/-- Each item on its own line, two spaces in for each level. -/
def Layout.pretty : Layout := ⟨fun depth => '\n' :: List.replicate (2 * depth) ' ', [' ']⟩

mutual

/-- A value, written at some depth. -/
def Value.print (l : Layout) (depth : Nat) : Value → List Char
  | .null => ['n', 'u', 'l', 'l']
  | .bool true => ['t', 'r', 'u', 'e']
  | .bool false => ['f', 'a', 'l', 's', 'e']
  | .int n => n.repr.toList
  | .real literal => literal.toList
  | .string text => printText text
  | .array [] => ['[', ']']
  | .array (v :: vs) =>
    '[' :: (l.newline (depth + 1) ++ (v.print l (depth + 1) ++ printItems l depth vs))
  | .object [] => ['\x7b', '\x7d']
  | .object ((k, v) :: fs) =>
    '\x7b' :: (l.newline (depth + 1) ++ (printText k ++ ':' :: (l.afterColon ++
      (v.print l (depth + 1) ++ printFields l depth fs))))

/-- The further items of an array and its end. -/
def printItems (l : Layout) (depth : Nat) : List Value → List Char
  | [] => l.newline depth ++ [']']
  | v :: vs =>
    ',' :: (l.newline (depth + 1) ++ (v.print l (depth + 1) ++ printItems l depth vs))

/-- The further fields of an object and its end. -/
def printFields (l : Layout) (depth : Nat) : List (Option String × Value) → List Char
  | [] => l.newline depth ++ ['\x7d']
  | (k, v) :: fs =>
    ',' :: (l.newline (depth + 1) ++ (printText k ++ ':' :: (l.afterColon ++
      (v.print l (depth + 1) ++ printFields l depth fs))))

end

def Value.text (l : Layout) (v : Value) : String := String.ofList (v.print l 0)

end Acceptor.Json
