import Acceptor.Automaton.Basic
import Acceptor.Binary.Form
import Acceptor.Calendar.Timestamp
import Acceptor.Uuid

/-!
  Acceptor.Binary.Records — binary forms of states, rules, policies and marks

  A record is its fields one after another, a policy its number in four bytes. An identifier is
  written like a list of its sixteen bytes, an instant like its text.

  Main statements:
    1. The `run_encode` field of each instance.
    2. `utf8ByteSize_instant_lt` — the count before an instant's text always fits.
-/

namespace Acceptor.Binary

instance : Form StateId where
  encode q := Form.encode q.val
  reader := StateId.mk <$> Form.reader
  Fits _ := True
  run_encode _ rest := Reader.run_map (Form.run_encode trivial rest)

instance : Form State where
  encode q := Form.encode q.id ++ Form.encode q.ancestor
  reader := do
    let id ← Form.reader
    let ancestor ← Form.reader
    return ⟨id, ancestor⟩
  Fits _ := True
  run_encode {q} _ rest := by
    have ancestor : Form.Fits q.ancestor := by cases q.ancestor <;> trivial
    rw [List.append_assoc, Reader.run_bind (Form.run_encode trivial _),
      Reader.run_bind (Form.run_encode ancestor rest), Reader.run_pure]

instance {α : Type} [Form α] : Form (Rule α) where
  encode r := Form.encode r.source ++ (Form.encode r.symbol ++ Form.encode r.destination)
  reader := do
    let source ← Form.reader
    let symbol ← Form.reader
    let destination ← Form.reader
    return ⟨source, symbol, destination⟩
  Fits r := Form.Fits r.symbol
  run_encode {r} h rest := by
    rw [List.append_assoc, List.append_assoc, Reader.run_bind (Form.run_encode trivial _),
      Reader.run_bind (Form.run_encode h _), Reader.run_bind (Form.run_encode trivial rest),
      Reader.run_pure]

def policyNumber : Policy → Nat
  | .reject => 0
  | .allow => 1

def policyOfNumber? : Nat → Option Policy
  | 0 => some .reject
  | 1 => some .allow
  | _ => none

instance : Form Policy where
  encode p := littleEndian 4 (policyNumber p)
  reader := do
    let n ← unsigned 4
    Reader.ofOption (policyOfNumber? n)
  Fits _ := True
  run_encode {p} _ rest := by
    have small : policyNumber p < capacity 4 := by cases p <;> decide
    have back : policyOfNumber? (policyNumber p) = some p := by cases p <;> rfl
    rw [Reader.run_bind (run_unsigned small rest), back, Reader.run_ofOption_some]

instance : Form Uuid where
  encode u := encodeCount u.bytes.length ++ u.bytes
  reader := do
    let n ← unsigned 8
    let bytes ← Reader.take n
    Reader.ofOption (Uuid.ofBytes? bytes)
  Fits _ := True
  run_encode {u} _ rest := by
    have small : u.bytes.length < capacity 8 := by
      rw [u.length_bytes]
      decide
    rw [encodeCount, List.append_assoc, Reader.run_bind (run_unsigned small _),
      Reader.run_bind (Reader.run_take rfl), Uuid.ofBytes?_bytes, Reader.run_ofOption_some]

/-! ## Instants -/

theorem utf8ByteSize_ofList_le (cs : List Char) :
    (String.ofList cs).utf8ByteSize ≤ 4 * cs.length := by
  induction cs with
  | nil => simp
  | cons c cs ih =>
    have four := c.utf8Size_le_four
    rw [String.ofList_cons, String.utf8ByteSize_append, String.utf8ByteSize_singleton,
      List.length_cons]
    omega

theorem utf8ByteSize_instant_lt (t : Instant) : t.text.utf8ByteSize < countLimit := by
  have short := t.length_print_le
  have size := utf8ByteSize_ofList_le t.print
  have limit : 4 * 33 < countLimit := by decide
  rw [Instant.text]
  omega

instance : Form Instant where
  encode t := Form.encode t.text
  reader := do
    let text ← Form.reader
    Reader.ofOption (Instant.ofText? text)
  Fits _ := True
  run_encode {t} _ rest := by
    have fits : Form.Fits t.text := utf8ByteSize_instant_lt t
    rw [Reader.run_bind (Form.run_encode fits rest), t.ofText?_text, Reader.run_ofOption_some]

end Acceptor.Binary
