import Acceptor.Automaton.Basic
import Acceptor.Calendar.Timestamp
import Acceptor.Json.Form
import Acceptor.Run
import Acceptor.Term
import Acceptor.Uuid

/-!
  Acceptor.Json.Records — JSON forms of states, rules, runs, terms and marks

  Identifiers and instants are their texts, states, rules, runs and terms records with their
  fields in a fixed order. An ancestor may be left out and is then absent. A policy is its name,
  also as the only key of an object with null under it; settings are a record whose one field,
  the policy, may be left out and is then `reject`.

  A reader follows at most `bracketLimit` nested brackets. Only terms can have more: each level
  of a term takes two.

  Main statements:
    1. The `decode_encode` field of each instance — what is written is read back.
    2. `decodeTerm?_encodeTerm` — a term is read back where the brackets suffice.
-/

namespace Acceptor.Json

instance : Form StateId where
  encode q := Form.encode q.val
  decode? v := (Form.decode? v).map StateId.mk
  decode_encode q := by rw [Form.decode_encode, Option.map_some]

/-! ## States, rules and runs -/

/-- An ancestor, or null. -/
def encodeAncestor : Option StateId → Value
  | some q => Form.encode q
  | none => .null

/-- An ancestor; null and a missing field mean that there is none. -/
def decodeAncestor? : Option Value → Option (Option StateId)
  | none | some .null => some none
  | some v => (Form.decode? v).map some

theorem decodeAncestor?_encodeAncestor (a : Option StateId) :
    decodeAncestor? (some (encodeAncestor a)) = some a := by
  cases a with
  | none => rfl
  | some q =>
    show (Form.decode? (Form.encode q)).map some = some (some q)
    rw [Form.decode_encode, Option.map_some]

instance : Form State where
  encode q := recordValue [("id", Form.encode q.id), ("ancestor", encodeAncestor q.ancestor)]
  decode? v :=
    match v.record? ["id", "ancestor"] with
    | some [some id, ancestor] => do
      return ⟨← Form.decode? id, ← decodeAncestor? ancestor⟩
    | _ => none
  decode_encode q := by
    simp [recordValue, Value.record?, fieldOf?, Form.decode_encode,
      decodeAncestor?_encodeAncestor]

instance {α : Type} [Form α] : Form (Rule α) where
  encode r := recordValue [("source", Form.encode r.source), ("symbol", Form.encode r.symbol),
    ("destination", Form.encode r.destination)]
  decode? v :=
    match v.record? ["source", "symbol", "destination"] with
    | some [some source, some symbol, some destination] => do
      return ⟨← Form.decode? source, ← Form.decode? symbol, ← Form.decode? destination⟩
    | _ => none
  decode_encode r := by simp [recordValue, Value.record?, fieldOf?, Form.decode_encode]

instance {α : Type} [Form α] : Form (Step α) where
  encode s := recordValue [("from", Form.encode s.source), ("symbol", Form.encode s.symbol),
    ("to", Form.encode s.target)]
  decode? v :=
    match v.record? ["from", "symbol", "to"] with
    | some [some source, some symbol, some target] => do
      return ⟨← Form.decode? source, ← Form.decode? symbol, ← Form.decode? target⟩
    | _ => none
  decode_encode s := by simp [recordValue, Value.record?, fieldOf?, Form.decode_encode]

instance {α : Type} [Form α] : Form (Run α) where
  encode r := recordValue [("start", Form.encode r.start), ("steps", Form.encode r.steps),
    ("consumed", Form.encode r.consumed), ("accepted", Form.encode r.accepted)]
  decode? v :=
    match v.record? ["start", "steps", "consumed", "accepted"] with
    | some [some start, some steps, some consumed, some accepted] => do
      return ⟨← Form.decode? start, ← Form.decode? steps, ← Form.decode? consumed,
        ← Form.decode? accepted⟩
    | _ => none
  decode_encode r := by simp [recordValue, Value.record?, fieldOf?, Form.decode_encode]

/-! ## Policies and settings -/

/-- The policy with a name. -/
def policyOfName? (name : String) : Option Policy :=
  if name = Policy.reject.name then some .reject
  else if name = Policy.allow.name then some .allow
  else none

instance : Form Policy where
  encode p := .string (some p.name)
  decode?
    | .string (some name) => policyOfName? name
    | .object [(some name, .null)] => policyOfName? name
    | _ => none
  decode_encode p := by cases p <;> rfl

/-- Settings with a policy. -/
def encodeSettings (p : Policy) : Value := recordValue [("nondeterminism", Form.encode p)]

/-- The policy of settings. -/
def decodeSettings? (v : Value) : Option Policy :=
  match v with
  | .array [] => some .reject
  | v =>
    match v.record? ["nondeterminism"] with
    | some [none] => some .reject
    | some [some p] => Form.decode? p
    | _ => none

theorem decodeSettings?_encodeSettings (p : Policy) :
    decodeSettings? (encodeSettings p) = some p := by
  simp [decodeSettings?, encodeSettings, recordValue, Value.record?, fieldOf?,
    Form.decode_encode]

def settingsText (l : Layout) (p : Policy) : String := (encodeSettings p).text l

/-- The policy of the settings that a text writes. -/
def settingsOfText? (s : String) : Option Policy := (Value.ofText? s).bind decodeSettings?

/-! ## Identifiers and instants -/

instance : Form Uuid where
  encode u := Form.encode u.text
  decode? v := (Form.decode? v).bind Uuid.ofText?
  decode_encode u := by rw [Form.decode_encode, Option.bind_some, u.ofText?_text]

instance : Form Instant where
  encode t := Form.encode t.text
  decode? v := (Form.decode? v).bind Instant.ofText?
  decode_encode t := by rw [Form.decode_encode, Option.bind_some, t.ofText?_text]

/-! ## Terms -/

/-- How many brackets a reader follows inside one another. -/
def bracketLimit : Nat := 127

mutual

def encodeTerm {α : Type} [Form α] : Term α → Value
  | .node a ts => recordValue [("root", Form.encode a), ("children", .array (encodeTerms ts))]

def encodeTerms {α : Type} [Form α] : List (Term α) → List Value
  | [] => []
  | t :: ts => encodeTerm t :: encodeTerms ts

end

/-- The term that a record writes, in at most so many brackets inside one another. -/
def decodeTerm? {α : Type} [Form α] : Nat → Value → Option (Term α)
  | brackets + 2, v =>
    match v.record? ["root", "children"] with
    | some [some root, some (.array children)] => do
      return .node (← Form.decode? root) (← children.mapM (decodeTerm? brackets))
    | _ => none
  | _, _ => none

mutual

theorem decodeTerm?_encodeTerm {α : Type} [Form α] :
    ∀ (t : Term α) (brackets : Nat), 2 * t.depth ≤ brackets →
      decodeTerm? brackets (encodeTerm t) = some t
  | .node a ts, brackets, h => by
    obtain ⟨n, rfl⟩ : ∃ n, brackets = n + 2 := ⟨brackets - 2, by rw [Term.depth] at h; omega⟩
    have hts := decodeTerms?_encodeTerms ts n (by rw [Term.depth] at h; omega)
    simp [decodeTerm?, encodeTerm, recordValue, Value.record?, fieldOf?, Form.decode_encode,
      hts]

theorem decodeTerms?_encodeTerms {α : Type} [Form α] :
    ∀ (ts : List (Term α)) (brackets : Nat), 2 * Term.depths ts ≤ brackets →
      (encodeTerms ts).mapM (decodeTerm? brackets) = some ts
  | [], _, _ => rfl
  | t :: ts, brackets, h => by
    have ht := decodeTerm?_encodeTerm t brackets (by rw [Term.depths] at h; omega)
    have hts := decodeTerms?_encodeTerms ts brackets (by rw [Term.depths] at h; omega)
    simp [encodeTerms, ht, hts]

end

def termText {α : Type} [Form α] (l : Layout) (t : Term α) : String := (encodeTerm t).text l

def termOfText? {α : Type} [Form α] (s : String) : Option (Term α) :=
  (Value.ofText? s).bind (decodeTerm? bracketLimit)

end Acceptor.Json
