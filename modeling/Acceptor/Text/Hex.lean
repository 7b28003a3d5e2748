/-!
  Acceptor.Text.Hex — hexadecimal digits

  A byte is written as two lower-case digits, the high half first. Digits of either case are
  read.

  Main statements:
    1. `hexValue?_hexDigit` — a written digit is read back.
    2. `bytesOfHex?_hexOfBytes` — written bytes are read back.
-/

namespace Acceptor.Text

/-- The lower-case hexadecimal digit of a number below sixteen. -/
def hexDigit (n : Nat) : Char := Nat.digitChar n

/-- The value of a hexadecimal digit of either case. -/
def hexValue? (c : Char) : Option Nat :=
  if '0' ≤ c ∧ c ≤ '9' then some (c.toNat - '0'.toNat)
  else if 'a' ≤ c ∧ c ≤ 'f' then some (c.toNat - 'a'.toNat + 10)
  else if 'A' ≤ c ∧ c ≤ 'F' then some (c.toNat - 'A'.toNat + 10)
  else none

theorem hexValue?_hexDigit : ∀ n < 16, hexValue? (hexDigit n) = some n := by decide

/-- The two digits of a byte. -/
def hexOfByte (b : UInt8) : List Char := [hexDigit (b.toNat / 16), hexDigit (b.toNat % 16)]

def hexOfBytes (bytes : List UInt8) : List Char := bytes.flatMap hexOfByte

def bytesOfHex? : List Char → Option (List UInt8)
  | [] => some []
  | [_] => none
  | high :: low :: rest => do
    let b := UInt8.ofNat ((← hexValue? high) * 16 + (← hexValue? low))
    return b :: (← bytesOfHex? rest)

theorem bytesOfHex?_hexOfBytes (bytes : List UInt8) :
    bytesOfHex? (hexOfBytes bytes) = some bytes := by
  induction bytes with
  | nil => rfl
  | cons b rest ih =>
    have hb : b.toNat < 256 := b.toNat_lt
    have high := hexValue?_hexDigit (b.toNat / 16) (by omega)
    have low := hexValue?_hexDigit (b.toNat % 16) (by omega)
    have whole : b.toNat / 16 * 16 + b.toNat % 16 = b.toNat := by omega
    rw [hexOfBytes] at ih
    simp only [hexOfBytes, List.flatMap_cons, hexOfByte, List.cons_append, List.nil_append,
      bytesOfHex?, high, low, ih, Option.bind_eq_bind, Option.bind_some, Option.pure_def, whole,
      UInt8.ofNat_toNat]

@[simp] theorem length_hexOfBytes (bytes : List UInt8) :
    (hexOfBytes bytes).length = 2 * bytes.length := by
  induction bytes with
  | nil => rfl
  | cons b rest ih =>
    rw [hexOfBytes] at ih
    simp [hexOfBytes, hexOfByte, ih]
    omega

end Acceptor.Text
