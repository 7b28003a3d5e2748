/-!
  Acceptor.Text.Digits — decimal numbers inside a text

  A number is written with leading zeros up to a width, and read from the digits at the
  beginning of a text, of which at most a given count belong to it.

  Main statements:
    1. `leadingNumber?_padded` — a written number is read back, whatever comes after it, when
       the next character is no digit or the count is used up.
-/

namespace Acceptor.Text

/-- A number in decimal, with leading zeros up to a width. -/
def padded (width n : Nat) : List Char :=
  List.replicate (width - (Nat.toDigits 10 n).length) '0' ++ Nat.toDigits 10 n

/-- The leading digits, at most `limit` of them, and what comes after. -/
def splitDigits : Nat → List Char → List Char × List Char
  | limit + 1, c :: rest =>
    if c.isDigit then (c :: (splitDigits limit rest).1, (splitDigits limit rest).2)
    else ([], c :: rest)
  | _, cs => ([], cs)

/-- The number at the beginning of a text, of at most `limit` digits, and what comes after. -/
def leadingNumber? (limit : Nat) (cs : List Char) : Option (Nat × List Char) :=
  match splitDigits limit cs with
  | ([], _) => none
  | (digits, rest) => some (Nat.ofDigitChars 10 digits 0, rest)

/-! ## Reading back -/

/-- Whether a text does not begin with a digit. -/
def NoDigit (cs : List Char) : Prop := ∀ c ∈ cs.head?, c.isDigit = false

theorem noDigit_cons {c : Char} {rest : List Char} (h : c.isDigit = false) :
    NoDigit (c :: rest) := by simp [NoDigit, h]

theorem isDigit_of_mem_padded {width n : Nat} {c : Char} (h : c ∈ padded width n) :
    c.isDigit := by
  rcases List.mem_append.1 h with h | h
  · rw [List.eq_of_mem_replicate h]
    rfl
  · exact Nat.isDigit_of_mem_toDigits (by decide) (by decide) h

theorem padded_ne_nil (width n : Nat) : padded width n ≠ [] := by
  simp [padded, Nat.toDigits_ne_nil]

theorem padded_eq_cons (width n : Nat) : ∃ c cs, padded width n = c :: cs ∧ c.isDigit := by
  obtain ⟨c, cs, h⟩ := List.exists_cons_of_ne_nil (padded_ne_nil width n)
  exact ⟨c, cs, h, isDigit_of_mem_padded (h ▸ List.mem_cons_self ..)⟩

theorem length_padded (width : Nat) {n : Nat} (pos : 0 < width) (h : n < Nat.pow 10 width) :
    (padded width n).length = width := by
  have := (Nat.length_toDigits_le_iff (b := 10) (by decide) pos).2 h
  simp only [padded, List.length_append, List.length_replicate]
  omega

theorem length_padded_le (width k : Nat) {n : Nat} (pos : 0 < k) (le : width ≤ k)
    (h : n < Nat.pow 10 k) :
    (padded width n).length ≤ k := by
  have := (Nat.length_toDigits_le_iff (b := 10) (by decide) pos).2 h
  simp only [padded, List.length_append, List.length_replicate]
  omega

theorem ofDigitChars_padded (width n : Nat) : Nat.ofDigitChars 10 (padded width n) 0 = n := by
  rw [padded, Nat.ofDigitChars_append, Nat.ofDigitChars_replicate_zero, Nat.mul_zero,
    Nat.ofDigitChars_ten_toDigits]

theorem splitDigits_append {digits rest : List Char} {limit : Nat}
    (all : ∀ c ∈ digits, c.isDigit) (le : digits.length ≤ limit)
    (stop : digits.length = limit ∨ NoDigit rest) :
    splitDigits limit (digits ++ rest) = (digits, rest) := by
  induction digits generalizing limit with
  | nil =>
    cases limit with
    | zero => rfl
    | succ limit =>
      have hr : NoDigit rest := stop.resolve_left (by simp)
      cases rest with
      | nil => rfl
      | cons c rest => simp [splitDigits, hr c rfl]
  | cons c digits ih =>
    obtain ⟨limit, rfl⟩ : ∃ k, limit = k + 1 := ⟨limit - 1, by simp at le; omega⟩
    have le : digits.length ≤ limit := by simpa using le
    have hd := ih (fun x hx => all x (List.mem_cons_of_mem c hx)) le (by simpa using stop)
    simp [splitDigits, all c (List.mem_cons_self ..), hd]

theorem leadingNumber?_padded {width limit n : Nat} {rest : List Char}
    (le : (padded width n).length ≤ limit)
    (stop : (padded width n).length = limit ∨ NoDigit rest) :
    leadingNumber? limit (padded width n ++ rest) = some (n, rest) := by
  rw [leadingNumber?, splitDigits_append (fun _ => isDigit_of_mem_padded) le stop]
  have number := ofDigitChars_padded width n
  obtain ⟨c, cs, h, -⟩ := padded_eq_cons width n
  rw [h] at number ⊢
  simp only [number]

end Acceptor.Text
