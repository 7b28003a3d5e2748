import Acceptor.Binary.Reader

/-!
  Acceptor.Binary.Form — types with a binary form

  Numbers have a fixed width and the least significant byte first. A list has the number of its
  items before them, a text the number of its bytes, each in eight bytes; a character is its
  UTF-8 bytes alone. A value that may be missing has a byte before it that tells whether it is
  there. The form of a list or text that is longer than eight bytes can count is no use, so
  what is written is only read back where the counts fit.

  Main statements:
    1. `Form.run_encode` (a field of the class) — what is written is read back, whatever
       follows.
    2. `Form.run_eq_none_of_proper` — nothing is found where a written value is cut short.
-/

namespace Acceptor.Binary

/-- A type whose values are written as bytes and read back. -/
class Form (α : Type) where
  encode : α → List UInt8
  reader : Reader α
  /-- Whether every count in a value's form fits its width. -/
  Fits : α → Prop
  run_encode : ∀ {a}, Fits a → ∀ rest, reader.run (encode a ++ rest) = some (a, rest)

namespace Form

/-- The value whose form bytes begin with. -/
def ofBytes? {α : Type} [Form α] (bytes : List UInt8) : Option α :=
  (reader : Reader α).first? bytes

theorem ofBytes?_append {α : Type} [Form α] {a : α} (h : Fits a) (rest : List UInt8) :
    ofBytes? (encode a ++ rest) = some a := by
  rw [ofBytes?, Reader.first?, run_encode h, Option.map_some]

theorem run_eq_none_of_proper {α : Type} [Form α] {a : α} (h : Fits a)
    {bytes more : List UInt8} (split : encode a = bytes ++ more) (ne : more ≠ []) :
    (reader : Reader α).run bytes = none := by
  have whole := run_encode h []
  rw [List.append_nil, split] at whole
  exact Reader.run_eq_none_of_append whole ne

end Form

/-! ## Numbers -/

instance : Form UInt32 where
  encode n := littleEndian 4 n.toNat
  reader := UInt32.ofNat <$> unsigned 4
  Fits _ := True
  run_encode {n} _ rest := by
    rw [Reader.run_map (run_unsigned n.toNat_lt rest), UInt32.ofNat_toNat]

instance : Form UInt64 where
  encode n := littleEndian 8 n.toNat
  reader := UInt64.ofNat <$> unsigned 8
  Fits _ := True
  run_encode {n} _ rest := by
    rw [Reader.run_map (run_unsigned n.toNat_lt rest), UInt64.ofNat_toNat]

/-- A signed number is written as the unsigned one with the same bits. -/
instance : Form Int64 where
  encode n := Form.encode n.toUInt64
  reader := UInt64.toInt64 <$> Form.reader
  Fits _ := True
  run_encode {n} _ rest := by
    rw [Reader.run_map (Form.run_encode trivial rest), Int64.toInt64_toUInt64]

/-! ## Texts -/

/-- How long a list or text can be. -/
def countLimit : Nat := capacity 8

/-- The count before a list or text. -/
def encodeCount (n : Nat) : List UInt8 := littleEndian 8 n

/-- The character that bytes begin with, and what comes after. -/
def leadingChar? (bytes : List UInt8) : Option (Char × List UInt8) :=
  ((bytes.take 4).toByteArray.utf8DecodeChar? 0).map fun c => (c, bytes.drop c.utf8Size)

theorem leadingChar?_append (c : Char) (rest : List UInt8) :
    leadingChar? (String.utf8EncodeChar c ++ rest) = some (c, rest) := by
  have size := String.length_utf8EncodeChar c
  have four := c.utf8Size_le_four
  rw [leadingChar?, List.take_append, List.take_of_length_le (by omega), List.toByteArray_append,
    ByteArray.utf8DecodeChar?_utf8EncodeChar_append, Option.map_some, List.drop_left' size]

theorem eq_append_of_leadingChar? {bytes rest : List UInt8} {c : Char}
    (h : leadingChar? bytes = some (c, rest)) : bytes = String.utf8EncodeChar c ++ rest := by
  obtain ⟨d, hd, h⟩ := Option.map_eq_some_iff.1 h
  simp only [Prod.mk.injEq] at h
  obtain ⟨rfl, rfl⟩ := h
  have front := congrArg (fun b => b.data.toList)
    (String.toByteArray_utf8EncodeChar_of_utf8DecodeChar?_eq_some hd)
  have four := d.utf8Size_le_four
  simp only [List.data_toByteArray, ByteArray.data_extract, List.extract_toArray] at front
  simp [List.take_take, Nat.min_eq_left four] at front
  rw [front, List.take_append_drop]

/-- Takes the bytes of a character. -/
def utf8Char : Reader Char where
  run := leadingChar?
  run_append h more := by
    rw [eq_append_of_leadingChar? h, List.append_assoc, leadingChar?_append]

instance : Form Char where
  encode := String.utf8EncodeChar
  reader := utf8Char
  Fits _ := True
  run_encode {c} _ rest := leadingChar?_append c rest

/-- Takes so many bytes of a text. -/
def utf8Text (size : Nat) : Reader String := do
  let bytes ← Reader.take size
  Reader.ofOption (String.fromUTF8? bytes.toByteArray)

instance : Form String where
  encode s := encodeCount s.utf8ByteSize ++ s.toByteArray.data.toList
  reader := unsigned 8 >>= utf8Text
  Fits s := s.utf8ByteSize < countLimit
  run_encode {s} h rest := by
    have back : s.toByteArray.data.toList.toByteArray = s.toByteArray := by
      apply ByteArray.ext
      simp
    have size : s.toByteArray.data.toList.length = s.utf8ByteSize := by simp
    have valid : String.fromUTF8? s.toByteArray = some s := dif_pos s.isValidUTF8
    rw [encodeCount, List.append_assoc, Reader.run_bind (run_unsigned h _), utf8Text,
      Reader.run_bind (Reader.run_take size), back, valid, Reader.run_ofOption_some]

/-! ## Lists and missing values -/

instance {α : Type} [Form α] : Form (List α) where
  encode l := encodeCount l.length ++ l.flatMap Form.encode
  reader := unsigned 8 >>= Reader.times Form.reader
  Fits l := l.length < countLimit ∧ ∀ a ∈ l, Form.Fits a
  run_encode {l} h rest := by
    rw [encodeCount, List.append_assoc, Reader.run_bind (run_unsigned h.1 _),
      Reader.run_times fun a ha => Form.run_encode (h.2 a ha)]

/-- Takes a value that may be missing, after the byte that tells. -/
def optional {α : Type} [Form α] : Reader (Option α) := do
  match ← unsigned 1 with
  | 0 => return none
  | 1 => return some (← Form.reader)
  | _ => Reader.fail

instance {α : Type} [Form α] : Form (Option α) where
  encode
    | none => littleEndian 1 0
    | some a => littleEndian 1 1 ++ Form.encode a
  reader := optional
  Fits
    | none => True
    | some a => Form.Fits a
  run_encode {a} h rest := by
    cases a with
    | none => exact Reader.run_bind (run_unsigned (by decide) rest)
    | some a =>
      rw [optional, List.append_assoc, Reader.run_bind (run_unsigned (by decide) _)]
      exact Reader.run_bind (Form.run_encode h rest)

end Acceptor.Binary
