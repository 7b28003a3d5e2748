import Acceptor.Json.Token

/-!
  Acceptor.Json.Parse — values from tokens

  Tokens are read one by one by a machine with a stack. A frame of the stack is an array or an
  object that is not finished; the phase says what may come next. No depth is too great here:
  a reader that has a limit applies it to the value.
-/

namespace Acceptor.Json

/-- A field of an object. -/
abbrev Field := Option String × Value

/-- A container that is not finished; its parts so far, the last one first. -/
inductive Frame where
  | array (done : List Value)
  /-- The object's field under this key is being read. -/
  | object (done : List Field) (key : Option String)

/-- What may come next. -/
inductive Phase where
  /-- A value. -/
  | value
  /-- A value, or the end of an array without items. -/
  | item
  /-- A key of an object with these fields, or its end where that is allowed. -/
  | key (done : List Field) (mayEnd : Bool)
  /-- The colon after a key of an object with these fields. -/
  | colon (done : List Field) (key : Option String)
  /-- A value is complete; more of its container, or the end of it. -/
  | complete (v : Value)

abbrev Machine := Phase × List Frame

/-- A token that begins a value. -/
def beginValue (stack : List Frame) : Token → Option Machine
  | .atom v => some (.complete v, stack)
  | .openArray => some (.item, .array [] :: stack)
  | .openObject => some (.key [] true, stack)
  | _ => none

def step : Token → Machine → Option Machine
  | t, (.value, stack) => beginValue stack t
  | .closeArray, (.item, .array done :: stack) => some (.complete (.array done.reverse), stack)
  | t, (.item, stack) => beginValue stack t
  | .atom (.string k), (.key done _, stack) => some (.colon done k, stack)
  | .closeObject, (.key done true, stack) => some (.complete (.object done.reverse), stack)
  | .colon, (.colon done k, stack) => some (.value, .object done k :: stack)
  | .comma, (.complete v, .array done :: stack) => some (.value, .array (v :: done) :: stack)
  | .closeArray, (.complete v, .array done :: stack) =>
    some (.complete (.array (v :: done).reverse), stack)
  | .comma, (.complete v, .object done k :: stack) => some (.key ((k, v) :: done) false, stack)
  | .closeObject, (.complete v, .object done k :: stack) =>
    some (.complete (.object ((k, v) :: done).reverse), stack)
  | _, _ => none

def run : List Token → Machine → Option Machine
  | [], m => some m
  | t :: rest, m => (step t m).bind (run rest)

/-- The value that a list of tokens writes. -/
def Value.ofTokens? (ts : List Token) : Option Value :=
  match run ts (.value, []) with
  | some (.complete v, []) => some v
  | _ => none

def Value.ofText? (s : String) : Option Value := (Token.list? s.toList).bind ofTokens?

end Acceptor.Json
