import Acceptor.Binary.Records
import Acceptor.Json.Records
import Acceptor.Snapshot.Basic

/-!
  Acceptor.Snapshot.Storage — snapshots as texts and as bytes

  As JSON a snapshot is a record on many lines, with its policy within settings. As bytes it is
  its fields one after another.

  Main statements:
    1. The `decode_encode` and `run_encode` fields of the instances — both forms are read back.
    2. `Snapshot.ofBinary?_toBinary` — the same for the bytes, whatever follows them.
-/

namespace Acceptor

variable {α : Type}

/-! ## JSON -/

namespace Json

instance [Form α] : Form (Snapshot α) where
  encode s := recordValue [("version", Form.encode s.version), ("id", Form.encode s.id),
    ("taken_at", Form.encode s.takenAt), ("config", encodeSettings s.policy),
    ("states", Form.encode s.states), ("initial", Form.encode s.initial),
    ("finals", Form.encode s.finals), ("alphabet", Form.encode s.alphabet),
    ("rules", Form.encode s.rules)]
  decode? v :=
    match v.record? ["version", "id", "taken_at", "config", "states", "initial", "finals",
      "alphabet", "rules"] with
    | some [some version, some id, some takenAt, some settings, some states, some initial,
      some finals, some alphabet, some rules] => do
      return ⟨← Form.decode? version, ← Form.decode? id, ← Form.decode? takenAt,
        ← decodeSettings? settings, ← Form.decode? states, ← Form.decode? initial,
        ← Form.decode? finals, ← Form.decode? alphabet, ← Form.decode? rules⟩
    | _ => none
  decode_encode s := by
    simp [recordValue, Value.record?, fieldOf?, Form.decode_encode,
      decodeSettings?_encodeSettings]

end Json

/-! ## Bytes -/

namespace Binary

instance [Form α] : Form (Snapshot α) where
  encode s := Form.encode s.version ++ (Form.encode s.id ++ (Form.encode s.takenAt ++
    (Form.encode s.policy ++ (Form.encode s.states ++ (Form.encode s.initial ++
      (Form.encode s.finals ++ (Form.encode s.alphabet ++ Form.encode s.rules)))))))
  reader := do
    let version ← Form.reader
    let id ← Form.reader
    let takenAt ← Form.reader
    let policy ← Form.reader
    let states ← Form.reader
    let initial ← Form.reader
    let finals ← Form.reader
    let alphabet ← Form.reader
    let rules ← Form.reader
    return ⟨version, id, takenAt, policy, states, initial, finals, alphabet, rules⟩
  Fits s := Form.Fits s.states ∧ Form.Fits s.finals ∧ Form.Fits s.alphabet ∧ Form.Fits s.rules
  run_encode {s} h rest := by
    obtain ⟨states, finals, alphabet, rules⟩ := h
    simp only [List.append_assoc]
    rw [Reader.run_bind (Form.run_encode trivial _), Reader.run_bind (Form.run_encode trivial _),
      Reader.run_bind (Form.run_encode trivial _), Reader.run_bind (Form.run_encode trivial _),
      Reader.run_bind (Form.run_encode states _), Reader.run_bind (Form.run_encode trivial _),
      Reader.run_bind (Form.run_encode finals _), Reader.run_bind (Form.run_encode alphabet _),
      Reader.run_bind (Form.run_encode rules rest), Reader.run_pure]

end Binary

namespace Snapshot

def toJson [Json.Form α] (s : Snapshot α) : String := Json.Form.text .pretty s

def ofJson? [Json.Form α] (text : String) : Option (Snapshot α) := Json.Form.ofText? text

def toBinary [Binary.Form α] (s : Snapshot α) : List UInt8 := Binary.Form.encode s

/-- The snapshot that bytes begin with. -/
def ofBinary? [Binary.Form α] (bytes : List UInt8) : Option (Snapshot α) :=
  Binary.Form.ofBytes? bytes

theorem ofBinary?_toBinary [Binary.Form α] {s : Snapshot α} (h : Binary.Form.Fits s)
    (rest : List UInt8) : ofBinary? (s.toBinary ++ rest) = some s :=
  Binary.Form.ofBytes?_append h rest

end Snapshot

end Acceptor
