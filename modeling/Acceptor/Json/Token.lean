import Acceptor.Json.Numeral
import Acceptor.Json.Quoted

/-!
  Acceptor.Json.Token — texts as lists of tokens

  A token is a mark or an atom: a value without parts. White space between tokens is a space, a
  line feed, a carriage return or a tab, and stands for nothing. A number or a word extends as
  far as its characters go.

  Main statements:
    1. `Token.list?_blank` — white space in front changes nothing.
-/

namespace Acceptor.Json

/-- A mark, or a value without parts. -/
inductive Token where
  | openArray
  | closeArray
  | openObject
  | closeObject
  | colon
  | comma
  | atom (v : Value)

namespace Token

def isBlank (c : Char) : Bool := c = ' ' || c = '\n' || c = '\r' || c = '\t'

/-- The mark that a character is. -/
def mark? (c : Char) : Option Token :=
  if c = '[' then some openArray
  else if c = ']' then some closeArray
  else if c = '\x7b' then some openObject
  else if c = '\x7d' then some closeObject
  else if c = ':' then some colon
  else if c = ',' then some comma
  else none

def isNumeral (c : Char) : Bool :=
  c.isDigit || c = '-' || c = '+' || c = '.' || c = 'e' || c = 'E'

/-- The atom that a word names. -/
def word? (cs : List Char) : Option Value :=
  if cs = ['n', 'u', 'l', 'l'] then some .null
  else if cs = ['t', 'r', 'u', 'e'] then some (.bool true)
  else if cs = ['f', 'a', 'l', 's', 'e'] then some (.bool false)
  else none

def beginsNumeral (c : Char) : Bool := c.isDigit || c = '-'

def list? : List Char → Option (List Token)
  | [] => some []
  | c :: rest =>
    if isBlank c then list? rest
    else match mark? c with
    | some mark => (list? rest).map (mark :: ·)
    | none =>
      if c = '"' then
        match _ : readText rest with
        | some (text, rest') => (list? rest').map (atom (.string text) :: ·)
        | none => none
      else if beginsNumeral c then do
        let v ← numeral? (c :: rest.takeWhile isNumeral)
        return atom v :: (← list? (rest.dropWhile isNumeral))
      else do
        let v ← word? (c :: rest.takeWhile Char.isAlpha)
        return atom v :: (← list? (rest.dropWhile Char.isAlpha))
termination_by cs => cs.length
decreasing_by
  · simp
  · simp
  · have := length_readText ‹_›
    simp only [List.length_cons]
    omega
  · exact Nat.lt_succ_of_le (List.dropWhile_sublist _).length_le
  · exact Nat.lt_succ_of_le (List.dropWhile_sublist _).length_le

theorem list?_blank {c : Char} (h : isBlank c) (rest : List Char) :
    list? (c :: rest) = list? rest := by
  rw [list?, if_pos h]

end Token

end Acceptor.Json
