import Acceptor.Json.Records
import Acceptor.Proofs.Json.Text

/-!
  Acceptor.Proofs.Json.Records — states, rules, runs and terms and their texts

  None of these types writes a number that is not an integer, so its values are read back from
  their texts. A term takes two brackets for each of its levels, and a reader follows only so many:
  it takes a term of 63 levels and refuses a deeper one. The text of a deeper term still says which
  term it is, as a reader with more brackets would show.

  Main statements:
    1. `decodeTerm?_eq` — which terms are read back in so many brackets.
    2. `termOfText?_termText` — what is read from the text of a term.
    3. `Form.text_injective` and `termText_injective` — no two values have one text.
    4. `read_back_from_compact_text` — all of it, under the compact layout.
-/

namespace Acceptor.Json

variable {α : Type} [Form α] {l : Layout}

/-! ## States, rules and runs -/

instance : ExactForm Bool := ⟨fun _ => trivial⟩

instance : ExactForm StateId := ⟨fun _ => trivial⟩

theorem exact_encodeAncestor (ancestor : Option StateId) : (encodeAncestor ancestor).Exact := by
  cases ancestor <;> trivial

instance : ExactForm State where
  exact q := by
    apply exact_recordValue
    simp [ExactForm.exact, exact_encodeAncestor]

instance [ExactForm α] : ExactForm (Rule α) where
  exact r := by
    apply exact_recordValue
    simp [ExactForm.exact]

instance [ExactForm α] : ExactForm (Step α) where
  exact s := by
    apply exact_recordValue
    simp [ExactForm.exact]

instance [ExactForm α] : ExactForm (Run α) where
  exact r := by
    apply exact_recordValue
    simp [ExactForm.exact]

theorem Form.text_injective [ExactForm α] (blank : l.Blank) :
    Function.Injective (Form.text l : α → String) := by
  intro a b h
  have ha := Form.ofText?_text_of_exact blank a
  rw [h, Form.ofText?_text_of_exact blank b] at ha
  exact (Option.some.inj ha).symm

/-! ## Terms -/

mutual

theorem exact_encodeTerm [ExactForm α] : ∀ t : Term α, (encodeTerm t).Exact
  | .node a ts => by
    rw [encodeTerm]
    apply exact_recordValue
    exact List.forall_mem_cons.2 ⟨ExactForm.exact a,
      List.forall_mem_singleton.2 (exact_encodeTerms ts)⟩

theorem exact_encodeTerms [ExactForm α] : ∀ ts : List (Term α), ItemsExact (encodeTerms ts)
  | [] => trivial
  | t :: ts => ⟨exact_encodeTerm t, exact_encodeTerms ts⟩

end

mutual

theorem decodeTerm?_of_deep : ∀ (t : Term α) (brackets : Nat), brackets < 2 * t.depth →
    decodeTerm? (α := α) brackets (encodeTerm t) = none
  | .node _ _, 0, _ => rfl
  | .node _ _, 1, _ => rfl
  | .node a ts, n + 2, h => by
    have hts := decodeTerms?_of_deep ts n (by rw [Term.depth] at h; omega)
    simp [decodeTerm?, encodeTerm, recordValue, Value.record?, fieldOf?, Form.decode_encode, hts]

theorem decodeTerms?_of_deep : ∀ (ts : List (Term α)) (brackets : Nat),
    brackets < 2 * Term.depths ts →
      (encodeTerms ts).mapM (decodeTerm? (α := α) brackets) = none
  | [], _, h => absurd h (by simp [Term.depths])
  | t :: ts, brackets, h => by
    rw [encodeTerms, List.mapM_cons]
    rcases Nat.lt_or_ge brackets (2 * t.depth) with hdeep | hfits
    · rw [decodeTerm?_of_deep t brackets hdeep]
      rfl
    · -- the first term is read, and one of those after it is not
      have hts := decodeTerms?_of_deep ts brackets (by rw [Term.depths] at h; omega)
      rw [decodeTerm?_encodeTerm t brackets hfits, hts]
      rfl

end

/-- A term is read back in two brackets for each of its levels, and in no fewer. -/
theorem decodeTerm?_eq (t : Term α) (brackets : Nat) :
    decodeTerm? brackets (encodeTerm t) = if 2 * t.depth ≤ brackets then some t else none := by
  split
  · next h => exact decodeTerm?_encodeTerm t brackets h
  · next h => exact decodeTerm?_of_deep t brackets (Nat.lt_of_not_le h)

theorem encodeTerm_injective : Function.Injective (encodeTerm : Term α → Value) := by
  intro t u h
  have ht := decodeTerm?_encodeTerm t (2 * max t.depth u.depth) (by omega)
  rw [h, decodeTerm?_encodeTerm u _ (by omega)] at ht
  exact (Option.some.inj ht).symm

theorem termOfText?_termText [ExactForm α] (blank : l.Blank) (t : Term α) :
    termOfText? (termText l t) = if t.depth ≤ 63 then some t else none := by
  have hlimit : 2 * t.depth ≤ bracketLimit ↔ t.depth ≤ 63 := by
    rw [bracketLimit]
    omega
  rw [termOfText?, termText, Value.ofText?_text blank (exact_encodeTerm t), Option.bind_some,
    decodeTerm?_eq]
  simp only [hlimit]

/-- No two terms have one text, however many levels they have. -/
theorem termText_injective [ExactForm α] (blank : l.Blank) :
    Function.Injective (termText l : Term α → String) := by
  intro t u h
  have ht := Value.ofText?_text blank (exact_encodeTerm t)
  have htext : (encodeTerm t).text l = (encodeTerm u).text l := h
  rw [htext, Value.ofText?_text blank (exact_encodeTerm u)] at ht
  exact encodeTerm_injective (Option.some.inj ht).symm

/-! ## The compact layout -/

/-- States with their ancestors, rules and runs over characters are read back from their compact
texts, and so are terms of up to 63 levels; a deeper term is refused. No two values of one of these
types have one text. -/
theorem read_back_from_compact_text :
    (∀ q : State, Form.ofText? (Form.text .compact q) = some q) ∧
    (∀ r : Rule Char, Form.ofText? (Form.text .compact r) = some r) ∧
    (∀ run : Run Char, Form.ofText? (Form.text .compact run) = some run) ∧
    (∀ t : Term Char, termOfText? (termText .compact t) = if t.depth ≤ 63 then some t else none) ∧
    Function.Injective (Form.text .compact : State → String) ∧
    Function.Injective (Form.text .compact : Rule Char → String) ∧
    Function.Injective (Form.text .compact : Run Char → String) ∧
    Function.Injective (termText .compact : Term Char → String) := by
  have blank := Layout.blank_compact
  refine ⟨?_, ?_, ?_, termOfText?_termText blank, ?_, ?_, ?_, termText_injective blank⟩
  · exact Form.ofText?_text_of_exact blank
  · exact Form.ofText?_text_of_exact blank
  · exact Form.ofText?_text_of_exact blank
  · exact Form.text_injective blank
  · exact Form.text_injective blank
  · exact Form.text_injective blank

/-- A character that needs an escape, in a term of two levels. -/
example : termText .compact (Term.node 'f' [.leaf '"']) =
    "\x7b\"root\":\"f\",\"children\":[\x7b\"root\":\"\\\"\",\"children\":[]\x7d]\x7d" := by
  decide

end Acceptor.Json
