import Acceptor.Text.Hex

/-!
  Acceptor.Uuid — identifiers of 128 bits

  An identifier is written in five groups of lower-case digits with hyphens between them. It is
  read in that form, without the hyphens, in braces, and after `urn:uuid:`; digits and letters
  may be of either case.

  Main statements:
    1. `Uuid.ofText?_text` — a written identifier is read back.
-/

namespace Acceptor

/-- An identifier. -/
structure Uuid where
  bytes : List UInt8
  length_bytes : bytes.length = 16
  deriving DecidableEq

namespace Uuid

open Text (hexOfBytes bytesOfHex? bytesOfHex?_hexOfBytes)

/-- How many bytes each group holds. -/
def groups : List Nat := [4, 2, 2, 2, 6]

/-- Bytes in groups of given sizes, with a hyphen between two groups. -/
def printGroups : List Nat → List UInt8 → List Char
  | [], _ => []
  | [n], bytes => hexOfBytes (bytes.take n)
  | n :: sizes, bytes => hexOfBytes (bytes.take n) ++ '-' :: printGroups sizes (bytes.drop n)

/-- The bytes that groups of given sizes write. -/
def readGroups : List Nat → List Char → Option (List UInt8)
  | [], cs => if cs.isEmpty then some [] else none
  | [n], cs => if cs.length = 2 * n then bytesOfHex? cs else none
  | n :: sizes, cs =>
    match cs.drop (2 * n) with
    | '-' :: rest => do return (← bytesOfHex? (cs.take (2 * n))) ++ (← readGroups sizes rest)
    | _ => none

/-- The text within braces. -/
def withoutBraces? : List Char → Option (List Char)
  | '\x7b' :: rest => if rest.getLast? = some '\x7d' then some rest.dropLast else none
  | _ => none

/-- The text after the name of the identifiers' namespace, in letters of either case. -/
def withoutNamespace? (cs : List Char) : Option (List Char) :=
  let name := "urn:uuid:".toList
  if name.isPrefixOf (cs.map Char.toLower) then some (cs.drop name.length) else none

/-- The bytes that a text of any of the four forms writes. -/
def bytesOfText? (cs : List Char) : Option (List UInt8) :=
  readGroups groups cs <|> bytesOfHex? cs <|> (withoutBraces? cs).bind (readGroups groups) <|>
    (withoutNamespace? cs).bind (readGroups groups)

/-- The identifier of given bytes, when there are sixteen. -/
def ofBytes? (bytes : List UInt8) : Option Uuid :=
  if h : bytes.length = 16 then some ⟨bytes, h⟩ else none

def text (u : Uuid) : String := String.ofList (printGroups groups u.bytes)

def ofText? (s : String) : Option Uuid := (bytesOfText? s.toList).bind ofBytes?

/-! ## Reading back -/

theorem ofBytes?_bytes (u : Uuid) : ofBytes? u.bytes = some u := dif_pos u.length_bytes

theorem readGroups_printGroups :
    ∀ (sizes : List Nat) (bytes : List UInt8), bytes.length = sizes.foldr (· + ·) 0 →
      readGroups sizes (printGroups sizes bytes) = some bytes
  | [], bytes, h => by
    obtain rfl : bytes = [] := List.eq_nil_of_length_eq_zero h
    rfl
  | [n], bytes, h => by
    simp only [List.foldr_cons, List.foldr_nil, Nat.add_zero] at h
    simp [readGroups, printGroups, h, List.take_of_length_le, bytesOfHex?_hexOfBytes]
  | n :: m :: sizes, bytes, h => by
    simp only [List.foldr_cons] at h
    have rest := readGroups_printGroups (m :: sizes) (bytes.drop n)
      (by simp only [List.length_drop, List.foldr_cons]; omega)
    have width : (hexOfBytes (bytes.take n)).length = 2 * n := by simp; omega
    simp [readGroups, printGroups, List.drop_left' width, List.take_left' width, rest,
      bytesOfHex?_hexOfBytes]

theorem ofText?_text (u : Uuid) : ofText? u.text = some u := by
  have h := readGroups_printGroups groups u.bytes u.length_bytes
  simp [ofText?, text, bytesOfText?, h, ofBytes?_bytes]

end Uuid

end Acceptor
