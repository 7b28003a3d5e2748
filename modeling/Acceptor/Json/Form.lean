import Acceptor.Json.Parse

/-!
  Acceptor.Json.Form — types with a JSON form

  A type has a JSON form when its values can be written as JSON values and read back. Records
  are read from objects, whose other keys are ignored while a key of the record's must not come
  twice, and from arrays of all their fields in order.

  Main statements:
    1. `Form.decode_encode` (a field of the class) — what is written is read back.
    2. `Form.ofText?_text` reduces a text's round trip to that of the value in it.
-/

namespace Acceptor.Json

/-- A type whose values are written as JSON values and read back. -/
class Form (α : Type) where
  encode : α → Value
  decode? : Value → Option α
  decode_encode : ∀ a, decode? (encode a) = some a

namespace Form

def text {α : Type} [Form α] (l : Layout) (a : α) : String := (encode a).text l

/-- The value whose JSON form a text writes. -/
def ofText? {α : Type} [Form α] (s : String) : Option α := (Value.ofText? s).bind decode?

theorem ofText?_text {α : Type} [Form α] {l : Layout} {a : α}
    (h : Value.ofText? ((encode a).text l) = some (encode a)) : ofText? (text l a) = some a := by
  rw [ofText?, text, h, Option.bind_some, decode_encode]

end Form

/-! ## Basic types -/

/-- The natural number below a bound that a value is. -/
def Value.nat? (bound : Nat) : Value → Option Nat
  | .int (.ofNat n) => if n < bound then some n else none
  | _ => none

instance : Form Bool where
  encode := .bool
  decode?
    | .bool b => some b
    | _ => none
  decode_encode _ := rfl

instance : Form UInt32 where
  encode n := .int n.toNat
  decode? v := (v.nat? UInt32.size).map UInt32.ofNat
  decode_encode n := by
    have h : n.toNat < UInt32.size := n.toNat_lt
    show (Value.nat? _ (.int (.ofNat n.toNat))).map UInt32.ofNat = some n
    rw [Value.nat?, if_pos h, Option.map_some, UInt32.ofNat_toNat]

instance : Form UInt64 where
  encode n := .int n.toNat
  decode? v := (v.nat? UInt64.size).map UInt64.ofNat
  decode_encode n := by
    have h : n.toNat < UInt64.size := n.toNat_lt
    show (Value.nat? _ (.int (.ofNat n.toNat))).map UInt64.ofNat = some n
    rw [Value.nat?, if_pos h, Option.map_some, UInt64.ofNat_toNat]

/-- An integer counts when the type holds it. -/
instance : Form Int64 where
  encode n := .int n.toInt
  decode?
    | .int n => if (Int64.ofInt n).toInt = n then some (Int64.ofInt n) else none
    | _ => none
  decode_encode n := by
    have back : Int64.ofInt n.toInt = n := Int64.ofInt_toInt n
    simp only [back, if_true]

instance : Form String where
  encode s := .string (some s)
  decode?
    | .string text => text
    | _ => none
  decode_encode _ := rfl

/-- A character is a text of one character. -/
instance : Form Char where
  encode c := .string (some c.toString)
  decode?
    | .string (some s) =>
      match s.toList with
      | [c] => some c
      | _ => none
    | _ => none
  decode_encode c := by simp [Char.toString]

/-- Items read one by one. -/
def decodeAll? {α : Type} [Form α] : List Value → Option (List α)
  | [] => some []
  | v :: rest => do return (← Form.decode? v) :: (← decodeAll? rest)

theorem decodeAll?_map_encode {α : Type} [Form α] (l : List α) :
    decodeAll? (l.map Form.encode) = some l := by
  induction l with
  | nil => rfl
  | cons a rest ih => simp [decodeAll?, Form.decode_encode, ih]

instance {α : Type} [Form α] : Form (List α) where
  encode l := .array (l.map Form.encode)
  decode?
    | .array items => decodeAll? items
    | _ => none
  decode_encode := decodeAll?_map_encode

/-! ## Records -/

/-- The value under a key that comes at most once; nothing where it does not come. -/
def fieldOf? (name : String) (fields : List Field) : Option (Option Value) :=
  match fields.filter fun field => field.1 = some name with
  | [] => some none
  | [field] => some (some field.2)
  | _ => none

/-- The values of a record's fields, each nothing where its key does not come. -/
def Value.record? (names : List String) : Value → Option (List (Option Value))
  | .object fields =>
    if fields.any (·.1.isNone) then none else names.mapM (fieldOf? · fields)
  | .array items => if items.length = names.length then some (items.map some) else none
  | _ => none

/-- The object of a record. -/
def recordValue (fields : List (String × Value)) : Value :=
  .object (fields.map fun field => (some field.1, field.2))

end Acceptor.Json
