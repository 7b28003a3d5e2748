import Acceptor.Json.Token
import Mathlib.Data.List.TakeWhile

/-!
  Acceptor.Proofs.Json.Atom — values without parts are read back from their texts

  A text between quotes ends where its closing quote stands, since a quote within it is escaped.
  A number or a word ends where another character follows, so what comes after a value has to
  begin with a mark or with white space. Both are stated for the tokens of a whole text, whatever
  comes after the value.

  Main statements:
    1. `readText_escape` — what is escaped is read back.
    2. `numeral?_repr` — an integer is read back.
    3. `Token.list?_printText`, `Token.list?_repr` and `Token.list?_word` — the token of each.
-/

namespace Acceptor.Json

open Text (hexDigit hexValue?_hexDigit)

/-! ## Texts -/

/-- A control character without a short escape is read back from its number. -/
theorem readPieces_unit {c : Char} (h : c.toNat < 0x20) (rest : List Char) :
    readPieces ('\\' :: 'u' :: '0' :: '0' :: hexDigit (c.toNat / 16) ::
      hexDigit (c.toNat % 16) :: rest) =
        (readPieces rest).map fun p => (.char c :: p.1, p.2) := by
  have high := hexValue?_hexDigit (c.toNat / 16) (by omega)
  have low := hexValue?_hexDigit (c.toNat % 16) (by omega)
  have hunit : unit? '0' '0' (hexDigit (c.toNat / 16)) (hexDigit (c.toNat % 16)) =
      some c.toNat := by
    have hsum : (0 * 16 + 0) * 16 + c.toNat / 16 = c.toNat / 16 := by omega
    have hzero : Text.hexValue? '0' = some 0 := by decide
    simp only [unit?, hzero, high, low, Option.bind_eq_bind, Option.bind_some, Option.pure_def,
      hsum, Option.some.injEq]
    omega
  have hpiece : Piece.ofUnit c.toNat = .char c := by
    rw [Piece.ofUnit, if_neg (by omega), Char.ofNat_toNat]
  rw [readPieces, hunit]
  cases readPieces rest <;> simp [hpiece]

theorem readPieces_short {e c : Char} (h : shortEscape? e = some c) (rest : List Char) :
    readPieces ('\\' :: e :: rest) = (readPieces rest).map fun p => (.char c :: p.1, p.2) := by
  rw [readPieces, h]
  · cases readPieces rest <;> rfl
  · rintro _ _ _ _ _ rfl
    exact absurd h (by simp [shortEscape?])

theorem readPieces_plain {c : Char} (quote : c ≠ '"') (back : c ≠ '\\') (low : ¬ c.toNat < 0x20)
    (rest : List Char) :
    readPieces (c :: rest) = (readPieces rest).map fun p => (.char c :: p.1, p.2) := by
  rw [readPieces, if_neg low]
  · cases readPieces rest <;> rfl
  · exact quote
  · intro _ _ _ _ _ h
    exact absurd h back
  · intro _ _ h
    exact absurd h back

theorem readPieces_escape (c : Char) (rest : List Char) :
    readPieces (escape c ++ rest) = (readPieces rest).map fun p => (.char c :: p.1, p.2) := by
  unfold escape
  split
  · next h => exact readPieces_short (by rw [h]; decide) rest
  · next quote =>
    split
    · next h => exact readPieces_short (by rw [h]; decide) rest
    · next back =>
      -- the short escapes of controls, the other controls, and what is not escaped
      split
      · next h => exact readPieces_short (by rw [h]; decide) rest
      split
      · next h => exact readPieces_short (by rw [h]; decide) rest
      split
      · next h => exact readPieces_short (by rw [h]; decide) rest
      split
      · next h => exact readPieces_short (by rw [h]; decide) rest
      split
      · next h => exact readPieces_short (by rw [h]; decide) rest
      split
      · next low => exact readPieces_unit low rest
      · next low => exact readPieces_plain quote back low rest

theorem readPieces_flatMap_escape (cs rest : List Char) :
    readPieces (cs.flatMap escape ++ '"' :: rest) = some (cs.map .char, rest) := by
  induction cs with
  | nil => rfl
  | cons c cs ih =>
    rw [List.flatMap_cons, List.append_assoc, readPieces_escape, ih]
    rfl

theorem join_map_char (cs : List Char) : join (cs.map .char) = some cs := by
  induction cs with
  | nil => rfl
  | cons c cs ih => rw [List.map_cons, join, ih, Option.map_some]

theorem readText_escape (s : String) (rest : List Char) :
    readText (s.toList.flatMap escape ++ '"' :: rest) = some (some s, rest) := by
  rw [readText, readPieces_flatMap_escape]
  simp only [Option.map_some, join_map_char, String.ofList_toList]

/-! ## Numbers -/

/-- The letters of one kind before a letter of another are those taken, and the rest is left. -/
theorem span_append {p : Char → Bool} {cs r : List Char} (all : ∀ c ∈ cs, p c = true)
    (stop : ∀ c ∈ r.head?, p c = false) :
    (cs ++ r).takeWhile p = cs ∧ (cs ++ r).dropWhile p = r := by
  have hrest : r.takeWhile p = [] ∧ r.dropWhile p = r := by
    cases r with
    | nil => exact ⟨rfl, rfl⟩
    | cons c r => simp [stop c rfl]
  rw [List.takeWhile_append_of_pos all, List.dropWhile_append_of_pos all, hrest.1, hrest.2,
    List.append_nil]
  exact ⟨rfl, rfl⟩

theorem isDigit_of_mem_toDigits {n : Nat} {c : Char} (h : c ∈ Nat.toDigits 10 n) :
    c.isDigit = true :=
  Nat.isDigit_of_mem_toDigits (by decide) (by decide) h

theorem digitChar_ne_zero : ∀ n < 10, n ≠ 0 → n.digitChar ≠ '0' := by decide

theorem head?_toDigits_ne {n : Nat} (h : n ≠ 0) : (Nat.toDigits 10 n).head? ≠ some '0' := by
  induction n using Nat.strongRecOn with
  | ind n ih =>
    rw [Nat.toDigits_eq_if (by decide)]
    split
    · next hlt => simpa using digitChar_ne_zero n hlt h
    · -- the first digit is that of the number without its last digit
      have hhead := ih (n / 10) (by omega) (by omega)
      obtain ⟨c, cs, hcs⟩ :=
        List.exists_cons_of_ne_nil (Nat.toDigits_ne_nil (b := 10) (n := n / 10))
      rw [hcs] at hhead ⊢
      exact hhead

theorem isWhole_toDigits (n : Nat) : isWhole (Nat.toDigits 10 n) = true := by
  by_cases h : n = 0
  · rw [h]
    decide
  · have hhead := head?_toDigits_ne h
    have hne : Nat.toDigits 10 n ≠ [] := Nat.toDigits_ne_nil
    simp [isWhole, hne, hhead]

theorem magnitude?_toDigits (literal : String) {negative : Bool} {n : Nat}
    (h : negative = true → n ≠ 0) : magnitude? literal negative (Nat.toDigits 10 n) =
      some (.int (if negative then -(n : Int) else n)) := by
  obtain ⟨htake, hdrop⟩ := span_append (p := Char.isDigit) (r := [])
    (fun _ => isDigit_of_mem_toDigits (n := n)) (by simp)
  rw [List.append_nil] at htake hdrop
  have hzero : (negative && decide (n = 0)) = false := by
    cases negative <;> simp_all
  have hfraction : isFraction [] = true := rfl
  simp [magnitude?, htake, hdrop, isWhole_toDigits, hfraction, hzero,
    Nat.ofDigitChars_ten_toDigits]

theorem numeral?_repr (n : Int) : numeral? n.repr.toList = some (.int n) := by
  rw [Int.repr_eq_if]
  split
  · next hpos =>
    rw [Nat.toList_repr, numeral?, magnitude?_toDigits _ (by simp)]
    · have hn : (n.toNat : Int) = n := Int.toNat_of_nonneg hpos
      simp [hn]
    · intro rest h
      have hminus : '-' ∈ Nat.toDigits 10 n.toNat := h ▸ List.mem_cons_self
      exact absurd (isDigit_of_mem_toDigits hminus) (by decide)
  · next hneg =>
    have hn : ((-n).toNat : Int) = -n := Int.toNat_of_nonneg (by omega)
    rw [String.toList_append, Nat.toList_repr]
    show magnitude? _ true (Nat.toDigits 10 (-n).toNat) = some (.int n)
    rw [magnitude?_toDigits _ (by omega)]
    simp [hn]

namespace Token

/-! ## Tokens -/

/-- Whether a number or a word ends before a text. -/
def Ends (rest : List Char) : Prop :=
  ∀ c ∈ rest.head?, isNumeral c = false ∧ c.isAlpha = false

theorem list?_mark {c : Char} {t : Token} (blank : isBlank c = false) (h : mark? c = some t)
    (rest : List Char) : list? (c :: rest) = (list? rest).map (t :: ·) := by
  rw [list?, blank, h]
  rfl

theorem list?_blanks {blanks : List Char} (h : ∀ c ∈ blanks, isBlank c = true)
    (rest : List Char) : list? (blanks ++ rest) = list? rest := by
  induction blanks with
  | nil => rfl
  | cons c blanks ih =>
    rw [List.cons_append, list?_blank (h c List.mem_cons_self)]
    exact ih fun d hd => h d (List.mem_cons_of_mem _ hd)

theorem list?_quote {cs rest : List Char} {text : Option String}
    (h : readText cs = some (text, rest)) :
    list? ('"' :: cs) = (list? rest).map (atom (.string text) :: ·) := by
  have hblank : isBlank '"' = false := by decide
  have hmark : mark? '"' = none := by decide
  rw [list?, hblank, hmark]
  simp only [Bool.false_eq_true, if_false, if_true]
  split <;> simp_all

theorem list?_printText (text : Option String) (rest : List Char) :
    list? (printText text ++ rest) = (list? rest).map (atom (.string text) :: ·) := by
  cases text with
  | some s =>
    have hread := readText_escape s rest
    rw [printText, List.cons_append, List.append_assoc]
    exact list?_quote hread
  | none =>
    have hread : readText ('\\' :: 'u' :: 'd' :: '8' :: '0' :: '0' :: '"' :: rest) =
        some (none, rest) := rfl
    exact list?_quote hread

theorem beginsNumeral_plain {c : Char} (h : beginsNumeral c = true) :
    isBlank c = false ∧ mark? c = none ∧ c ≠ '"' := by
  have hne : ∀ d, beginsNumeral d = false → c ≠ d := by
    rintro d hd rfl
    rw [hd] at h
    exact absurd h (by simp)
  refine ⟨?_, ?_, hne _ rfl⟩
  · simp [isBlank, hne ' ' rfl, hne '\n' rfl, hne '\r' rfl, hne '\t' rfl]
  · simp [mark?, hne '[' rfl, hne ']' rfl, hne '\x7b' rfl, hne '\x7d' rfl, hne ':' rfl,
      hne ',' rfl]

/-- A number is one token, where it ends. -/
theorem list?_numeral {c : Char} {cs rest : List Char} {v : Value}
    (h : numeral? (c :: cs) = some v) (begins : beginsNumeral c = true)
    (all : ∀ d ∈ cs, isNumeral d = true) (ends : Ends rest) :
    list? (c :: (cs ++ rest)) = (list? rest).map (atom v :: ·) := by
  obtain ⟨hblank, hmark, hquote⟩ := beginsNumeral_plain begins
  obtain ⟨htake, hdrop⟩ := span_append all fun d hd => (ends d hd).1
  rw [list?, hblank, hmark]
  simp only [Bool.false_eq_true, if_false, hquote, begins, if_true, htake, hdrop, h]
  cases list? rest <;> rfl

theorem list?_word {c : Char} {w rest : List Char} {v : Value} (h : word? (c :: w) = some v)
    (begins : isBlank c = false ∧ mark? c = none ∧ c ≠ '"' ∧ beginsNumeral c = false)
    (all : w.all Char.isAlpha) (ends : Ends rest) :
    list? (c :: (w ++ rest)) = (list? rest).map (atom v :: ·) := by
  obtain ⟨hblank, hmark, hquote, hnumeral⟩ := begins
  obtain ⟨htake, hdrop⟩ := span_append (List.all_eq_true.1 all) fun d hd => (ends d hd).2
  rw [list?, hblank, hmark]
  simp only [Bool.false_eq_true, if_false, hquote, hnumeral, htake, hdrop, h]
  cases list? rest <;> rfl

theorem repr_eq_cons (n : Int) : ∃ c cs, n.repr.toList = c :: cs ∧ beginsNumeral c = true ∧
    ∀ d ∈ cs, isNumeral d = true := by
  have hdigits : ∀ k : Nat, ∀ d ∈ Nat.toDigits 10 k, isNumeral d = true := by
    intro k d hd
    simp [isNumeral, isDigit_of_mem_toDigits hd]
  rw [Int.repr_eq_if]
  split
  · obtain ⟨c, cs, hcs⟩ :=
      List.exists_cons_of_ne_nil (Nat.toDigits_ne_nil (b := 10) (n := n.toNat))
    have hc : c.isDigit = true := isDigit_of_mem_toDigits (hcs ▸ List.mem_cons_self)
    refine ⟨c, cs, by rw [Nat.toList_repr, hcs], by simp [beginsNumeral, hc], ?_⟩
    intro d hd
    exact hdigits n.toNat d (hcs ▸ List.mem_cons_of_mem _ hd)
  · refine ⟨'-', Nat.toDigits 10 (-n).toNat, ?_, by decide, hdigits _⟩
    rw [String.toList_append, Nat.toList_repr]
    rfl

theorem list?_repr (n : Int) {rest : List Char} (ends : Ends rest) :
    list? (n.repr.toList ++ rest) = (list? rest).map (atom (.int n) :: ·) := by
  have hnumeral := numeral?_repr n
  obtain ⟨c, cs, hcs, hbegins, hall⟩ := repr_eq_cons n
  rw [hcs] at hnumeral ⊢
  exact list?_numeral hnumeral hbegins hall ends

end Token

end Acceptor.Json
