import Acceptor.Json.Value

/-!
  Acceptor.Json.Numeral — reading numbers

  A number is an optional minus sign, digits without a leading zero, an optional fraction and
  an optional exponent. It is an integer where it has neither fraction nor exponent and is not
  negative zero.
-/

namespace Acceptor.Json

/-- At least one digit and nothing else. -/
def isDigits (cs : List Char) : Bool := !cs.isEmpty && cs.all Char.isDigit

/-- An exponent, or nothing. -/
def isExponent : List Char → Bool
  | [] => true
  | mark :: '+' :: rest => (mark = 'e' || mark = 'E') && isDigits rest
  | mark :: '-' :: rest => (mark = 'e' || mark = 'E') && isDigits rest
  | mark :: rest => (mark = 'e' || mark = 'E') && isDigits rest

/-- A fraction and an exponent, or either, or nothing. -/
def isFraction : List Char → Bool
  | '.' :: rest =>
    !(rest.takeWhile Char.isDigit).isEmpty && isExponent (rest.dropWhile Char.isDigit)
  | cs => isExponent cs

/-- Digits that may begin a number: some, and no zero before others. -/
def isWhole (ds : List Char) : Bool := !ds.isEmpty && (ds.length = 1 || ds.head? != some '0')

/-- The number without its sign. -/
def magnitude? (literal : String) (negative : Bool) (cs : List Char) : Option Value :=
  let whole := cs.takeWhile Char.isDigit
  let tail := cs.dropWhile Char.isDigit
  let n := Nat.ofDigitChars 10 whole 0
  if !isWhole whole || !isFraction tail then none
  else if tail.isEmpty && !(negative && n = 0) then
    some (.int (if negative then -(n : Int) else n))
  else some (.real literal)

/-- The number that a literal writes. -/
def numeral? : List Char → Option Value
  | '-' :: rest => magnitude? (String.ofList ('-' :: rest)) true rest
  | cs => magnitude? (String.ofList cs) false cs

end Acceptor.Json
