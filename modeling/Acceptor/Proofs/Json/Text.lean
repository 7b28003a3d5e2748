import Acceptor.Json.Form
import Acceptor.Proofs.Json.Atom

/-!
  Acceptor.Proofs.Json.Text — values are read back from their texts

  A value's text has one token for each mark and each part of the value, under any layout that
  puts nothing but white space between them. The machine takes these tokens to the value itself
  and leaves its stack as it was. Only numbers that are no integers are left out: such a number
  is kept as it was written, and no type with a JSON form writes one.

  Main statements:
    1. `Token.list?_print` — the tokens of a value's text.
    2. `run_tokens` — what the machine makes of them.
    3. `Value.ofText?_text` — a value is read back from its text.
    4. `Form.ofText?_text_of_exact` — so is what a type writes.
-/

namespace Acceptor.Json

/-! ## Tokens of a value -/

mutual

/-- Whether no part of a value is a number that is not an integer. -/
def Value.Exact : Value → Prop
  | .null => True
  | .bool _ => True
  | .int _ => True
  | .real _ => False
  | .string _ => True
  | .array items => ItemsExact items
  | .object fields => FieldsExact fields

def ItemsExact : List Value → Prop
  | [] => True
  | v :: vs => v.Exact ∧ ItemsExact vs

def FieldsExact : List Field → Prop
  | [] => True
  | (_, v) :: fs => v.Exact ∧ FieldsExact fs

end

mutual

/-- The tokens of a value. -/
def Value.tokens : Value → List Token
  | .null => [.atom .null]
  | .bool b => [.atom (.bool b)]
  | .int n => [.atom (.int n)]
  | .real literal => [.atom (.real literal)]
  | .string text => [.atom (.string text)]
  | .array [] => [.openArray, .closeArray]
  | .array (v :: vs) => .openArray :: (v.tokens ++ itemTokens vs)
  | .object [] => [.openObject, .closeObject]
  | .object ((k, v) :: fs) =>
    .openObject :: .atom (.string k) :: .colon :: (v.tokens ++ fieldTokens fs)

/-- The tokens of the further items of an array and of its end. -/
def itemTokens : List Value → List Token
  | [] => [.closeArray]
  | v :: vs => .comma :: (v.tokens ++ itemTokens vs)

/-- The tokens of the further fields of an object and of its end. -/
def fieldTokens : List Field → List Token
  | [] => [.closeObject]
  | (k, v) :: fs => .comma :: .atom (.string k) :: .colon :: (v.tokens ++ fieldTokens fs)

end

/-! ## Layouts -/

/-- Whether a layout puts only white space between the marks. -/
structure Layout.Blank (l : Layout) : Prop where
  newline : ∀ depth, ∀ c ∈ l.newline depth, Token.isBlank c = true
  afterColon : ∀ c ∈ l.afterColon, Token.isBlank c = true

theorem Layout.blank_compact : Layout.compact.Blank where
  newline := by simp [Layout.compact]
  afterColon := by simp [Layout.compact]

theorem Layout.blank_pretty : Layout.pretty.Blank where
  newline := by
    intro depth c hc
    rcases List.mem_cons.1 hc with rfl | hc
    · decide
    · rw [List.eq_of_mem_replicate hc]
      decide
  afterColon := List.all_eq_true.1 (by decide)

namespace Token

/-! ## From texts to tokens -/

theorem ends_nil : Ends [] := by simp [Ends]

theorem ends_cons {c : Char} (h : isNumeral c = false ∧ c.isAlpha = false) (rest : List Char) :
    Ends (c :: rest) := by
  intro d hd
  rw [← Option.some.inj hd]
  exact h

theorem ends_of_isBlank {c : Char} (h : isBlank c = true) :
    isNumeral c = false ∧ c.isAlpha = false := by
  simp only [isBlank, Bool.or_eq_true, decide_eq_true_eq] at h
  rcases h with ((rfl | rfl) | rfl) | rfl <;> decide

theorem ends_blanks {blanks rest : List Char} (h : ∀ c ∈ blanks, isBlank c = true)
    (ends : Ends rest) : Ends (blanks ++ rest) := by
  cases blanks with
  | nil => exact ends
  | cons c blanks => exact ends_cons (ends_of_isBlank (h c List.mem_cons_self)) _

theorem ends_printItems {l : Layout} (blank : l.Blank) (depth : Nat) (vs : List Value)
    (rest : List Char) : Ends (printItems l depth vs ++ rest) := by
  cases vs with
  | nil =>
    rw [printItems, List.append_assoc]
    exact ends_blanks (blank.newline depth) (ends_cons (by decide) rest)
  | cons v vs => exact ends_cons (by decide) _

theorem ends_printFields {l : Layout} (blank : l.Blank) (depth : Nat) (fs : List Field)
    (rest : List Char) : Ends (printFields l depth fs ++ rest) := by
  cases fs with
  | nil =>
    rw [printFields, List.append_assoc]
    exact ends_blanks (blank.newline depth) (ends_cons (by decide) rest)
  | cons f fs => exact ends_cons (by decide) _

theorem list?_key {l : Layout} (blank : l.Blank) (k : Option String) (rest : List Char) :
    list? (printText k ++ ':' :: (l.afterColon ++ rest)) =
      (list? rest).map fun ts => atom (.string k) :: colon :: ts := by
  rw [list?_printText, list?_mark (t := colon) rfl rfl,
    list?_blanks blank.afterColon, Option.map_map]
  rfl

mutual

/-- The tokens of a value's text. -/
theorem list?_print {l : Layout} (blank : l.Blank) : ∀ (v : Value) (depth : Nat)
    (rest : List Char), v.Exact → Ends rest →
      list? (v.print l depth ++ rest) = (list? rest).map (v.tokens ++ ·)
  | .null, _, _, _, ends => list?_word (w := ['u', 'l', 'l']) rfl (by decide) (by decide) ends
  | .bool true, _, _, _, ends =>
    list?_word (w := ['r', 'u', 'e']) rfl (by decide) (by decide) ends
  | .bool false, _, _, _, ends =>
    list?_word (w := ['a', 'l', 's', 'e']) rfl (by decide) (by decide) ends
  | .int n, _, _, _, ends => list?_repr n ends
  | .real _, _, _, exact, _ => exact.elim
  | .string text, _, rest, _, _ => list?_printText text rest
  | .array [], _, rest, _, _ => by
    show list? ('[' :: ']' :: rest) = _
    rw [list?_mark (t := openArray) rfl rfl,
      list?_mark (t := closeArray) rfl rfl, Option.map_map]
    rfl
  | .array (v :: vs), depth, rest, exact, _ => by
    have first := list?_print blank v (depth + 1) (printItems l depth vs ++ rest) exact.1
      (ends_printItems blank depth vs rest)
    have others := list?_printItems blank vs depth rest exact.2
    rw [Value.print, List.cons_append, list?_mark (t := openArray) rfl rfl,
      List.append_assoc, list?_blanks (blank.newline _), List.append_assoc, first, others]
    simp only [Option.map_map, Function.comp_def, Value.tokens, List.cons_append,
      List.append_assoc]
  | .object [], _, rest, _, _ => by
    show list? ('\x7b' :: '\x7d' :: rest) = _
    rw [list?_mark (t := openObject) rfl rfl,
      list?_mark (t := closeObject) rfl rfl, Option.map_map]
    rfl
  | .object ((k, v) :: fs), depth, rest, exact, _ => by
    have first := list?_print blank v (depth + 1) (printFields l depth fs ++ rest) exact.1
      (ends_printFields blank depth fs rest)
    have others := list?_printFields blank fs depth rest exact.2
    rw [Value.print, List.cons_append, list?_mark (t := openObject) rfl rfl,
      List.append_assoc, list?_blanks (blank.newline _), List.append_assoc, List.cons_append,
      List.append_assoc, List.append_assoc, list?_key blank, first, others]
    simp only [Option.map_map, Function.comp_def, Value.tokens, List.cons_append,
      List.append_assoc]

theorem list?_printItems {l : Layout} (blank : l.Blank) : ∀ (vs : List Value) (depth : Nat)
    (rest : List Char), ItemsExact vs →
      list? (printItems l depth vs ++ rest) = (list? rest).map (itemTokens vs ++ ·)
  | [], depth, rest, _ => by
    rw [printItems, List.append_assoc, list?_blanks (blank.newline _), List.singleton_append,
      list?_mark (t := closeArray) rfl rfl]
    rfl
  | v :: vs, depth, rest, exact => by
    have first := list?_print blank v (depth + 1) (printItems l depth vs ++ rest) exact.1
      (ends_printItems blank depth vs rest)
    have others := list?_printItems blank vs depth rest exact.2
    rw [printItems, List.cons_append, list?_mark (t := comma) rfl rfl,
      List.append_assoc, list?_blanks (blank.newline _), List.append_assoc, first, others]
    simp only [Option.map_map, Function.comp_def, itemTokens, List.cons_append,
      List.append_assoc]

theorem list?_printFields {l : Layout} (blank : l.Blank) : ∀ (fs : List Field) (depth : Nat)
    (rest : List Char), FieldsExact fs →
      list? (printFields l depth fs ++ rest) = (list? rest).map (fieldTokens fs ++ ·)
  | [], depth, rest, _ => by
    rw [printFields, List.append_assoc, list?_blanks (blank.newline _), List.singleton_append,
      list?_mark (t := closeObject) rfl rfl]
    rfl
  | (k, v) :: fs, depth, rest, exact => by
    have first := list?_print blank v (depth + 1) (printFields l depth fs ++ rest) exact.1
      (ends_printFields blank depth fs rest)
    have others := list?_printFields blank fs depth rest exact.2
    rw [printFields, List.cons_append, list?_mark (t := comma) rfl rfl,
      List.append_assoc, list?_blanks (blank.newline _), List.append_assoc, List.cons_append,
      List.append_assoc, List.append_assoc, list?_key blank, first, others]
    simp only [Option.map_map, Function.comp_def, fieldTokens, List.cons_append,
      List.append_assoc]

end

end Token

/-! ## From tokens to values -/

theorem tokens_eq_cons (v : Value) : ∃ t ts, v.tokens = t :: ts ∧ t ≠ .closeArray := by
  cases v with
  | array items => cases items <;> exact ⟨_, _, rfl, by simp⟩
  | object fields => cases fields <;> exact ⟨_, _, rfl, by simp⟩
  | null | bool | int | real | string => exact ⟨_, _, rfl, by simp⟩

/-- The first item of an array is read like any value. -/
theorem run_item (v : Value) (ts : List Token) (stack : List Frame) :
    run (v.tokens ++ ts) (.item, stack) = run (v.tokens ++ ts) (.value, stack) := by
  obtain ⟨t, us, htokens, hne⟩ := tokens_eq_cons v
  have hstep : step t (.item, stack) = step t (.value, stack) := by
    cases t <;> simp_all [step]
  rw [htokens, List.cons_append, run, run, hstep]

mutual

/-- The machine takes the tokens of a value to the value, whatever its stack holds. -/
theorem run_tokens : ∀ (v : Value) (ts : List Token) (stack : List Frame),
    run (v.tokens ++ ts) (.value, stack) = run ts (.complete v, stack)
  | .null, _, _ => rfl
  | .bool _, _, _ => rfl
  | .int _, _, _ => rfl
  | .real _, _, _ => rfl
  | .string _, _, _ => rfl
  | .array [], _, _ => rfl
  | .array (v :: vs), ts, stack => by
    have first := run_tokens v (itemTokens vs ++ ts) (.array [] :: stack)
    have others := run_itemTokens vs ts v [] stack
    show run (v.tokens ++ itemTokens vs ++ ts) (.item, .array [] :: stack) = _
    rw [List.append_assoc, run_item, first, others]
    rfl
  | .object [], _, _ => rfl
  | .object ((k, v) :: fs), ts, stack => by
    have first := run_tokens v (fieldTokens fs ++ ts) (.object [] k :: stack)
    have others := run_fieldTokens fs ts k v [] stack
    show run (v.tokens ++ fieldTokens fs ++ ts) (.value, .object [] k :: stack) = _
    rw [List.append_assoc, first, others]
    rfl

theorem run_itemTokens : ∀ (vs : List Value) (ts : List Token) (v : Value) (done : List Value)
    (stack : List Frame), run (itemTokens vs ++ ts) (.complete v, .array done :: stack) =
      run ts (.complete (.array (done.reverse ++ v :: vs)), stack)
  | [], ts, v, done, stack => by
    show run ts (.complete (.array (v :: done).reverse), stack) = _
    rw [List.reverse_cons]
  | w :: vs, ts, v, done, stack => by
    have first := run_tokens w (itemTokens vs ++ ts) (.array (v :: done) :: stack)
    have others := run_itemTokens vs ts w (v :: done) stack
    show run (w.tokens ++ itemTokens vs ++ ts) (.value, .array (v :: done) :: stack) = _
    rw [List.append_assoc, first, others, List.reverse_cons, List.append_assoc]
    rfl

theorem run_fieldTokens : ∀ (fs : List Field) (ts : List Token) (k : Option String) (v : Value)
    (done : List Field) (stack : List Frame),
      run (fieldTokens fs ++ ts) (.complete v, .object done k :: stack) =
        run ts (.complete (.object (done.reverse ++ (k, v) :: fs)), stack)
  | [], ts, k, v, done, stack => by
    show run ts (.complete (.object ((k, v) :: done).reverse), stack) = _
    rw [List.reverse_cons]
  | (k', w) :: fs, ts, k, v, done, stack => by
    have first := run_tokens w (fieldTokens fs ++ ts) (.object ((k, v) :: done) k' :: stack)
    have others := run_fieldTokens fs ts k' w ((k, v) :: done) stack
    show run (w.tokens ++ fieldTokens fs ++ ts) (.value, .object ((k, v) :: done) k' :: stack) = _
    rw [List.append_assoc, first, others, List.reverse_cons, List.append_assoc]
    rfl

end

theorem ofTokens?_tokens (v : Value) : Value.ofTokens? v.tokens = some v := by
  have hrun := run_tokens v [] []
  rw [List.append_nil] at hrun
  rw [Value.ofTokens?, hrun]
  rfl

/-! ## Whole texts -/

theorem Value.ofText?_text {l : Layout} (blank : l.Blank) {v : Value} (exact : v.Exact) :
    Value.ofText? (v.text l) = some v := by
  have htokens := Token.list?_print blank v 0 [] exact Token.ends_nil
  have hnil : Token.list? [] = some [] := by rw [Token.list?]
  rw [List.append_nil, hnil, Option.map_some, List.append_nil] at htokens
  rw [Value.ofText?, Value.text, String.toList_ofList, htokens, Option.bind_some,
    ofTokens?_tokens]

/-- A type whose values are written with no numbers but integers. -/
class ExactForm (α : Type) [Form α] : Prop where
  exact : ∀ a : α, (Form.encode a).Exact

theorem Form.ofText?_text_of_exact {α : Type} [Form α] [ExactForm α] {l : Layout}
    (blank : l.Blank) (a : α) : Form.ofText? (Form.text l a) = some a :=
  Form.ofText?_text (Value.ofText?_text blank (ExactForm.exact a))

instance : ExactForm UInt32 := ⟨fun _ => trivial⟩

instance : ExactForm Int64 := ⟨fun _ => trivial⟩

instance : ExactForm String := ⟨fun _ => trivial⟩

instance : ExactForm Char := ⟨fun _ => trivial⟩

instance {α : Type} [Form α] [ExactForm α] : ExactForm (List α) where
  exact l := by
    show ItemsExact (l.map Form.encode)
    induction l with
    | nil => trivial
    | cons a rest ih => exact ⟨ExactForm.exact a, ih⟩

theorem exact_recordValue {fields : List (String × Value)}
    (h : ∀ field ∈ fields, field.2.Exact) : (recordValue fields).Exact := by
  show FieldsExact (fields.map fun field => (some field.1, field.2))
  induction fields with
  | nil => trivial
  | cons field rest ih =>
    exact ⟨h field List.mem_cons_self, ih fun f hf => h f (List.mem_cons_of_mem _ hf)⟩

end Acceptor.Json
