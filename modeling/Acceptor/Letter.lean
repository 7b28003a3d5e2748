import Acceptor.Order

/-!
  Acceptor.Letter — the alphabets

  A letter type is ordered, so that look-ups and listings have one order, and its letters have
  a text that tells them apart. Characters, texts and signed 64-bit integers are letters.

  Main statements:
    1. `Letter.text_inj` — letters with the same text are equal.
-/

namespace Acceptor

/-- A type whose values can be the symbols of an automaton. -/
class Letter (α : Type) extends Ordered α where
  /-- How a symbol is written. -/
  text : α → String
  text_injective : ∀ {a b : α}, text a = text b → a = b

theorem Letter.text_inj {α : Type} [Letter α] {a b : α} : text a = text b ↔ a = b :=
  ⟨text_injective, fun h => h ▸ rfl⟩

theorem repr_nat_inj {m n : Nat} (h : m.repr = n.repr) : m = n := by
  have hd := congrArg String.toList h
  simp only [Nat.toList_repr] at hd
  have hv := congrArg (Nat.ofDigitChars 10 · 0) hd
  simpa using hv

theorem minus_append_ne_repr {s : String} {n : Nat} : "-" ++ s ≠ n.repr := by
  intro h
  have hd := congrArg String.toList h
  simp only [String.toList_append, Nat.toList_repr] at hd
  have hm : '-' ∈ Nat.toDigits 10 n := by
    rw [← hd]
    simp
  have := Nat.isDigit_of_mem_toDigits (by decide) (by decide) hm
  simp at this

theorem repr_int_inj {a b : Int} (h : a.repr = b.repr) : a = b := by
  rw [Int.repr_eq_if, Int.repr_eq_if] at h
  split at h <;> split at h
  · have := repr_nat_inj h
    omega
  · exact absurd h.symm minus_append_ne_repr
  · exact absurd h minus_append_ne_repr
  · have := repr_nat_inj (String.append_right_inj "-" |>.1 h)
    omega

/-- A character is written as itself. -/
instance : Letter Char where
  text := String.singleton
  text_injective h := by simpa using congrArg String.toList h

/-- A text is written as itself. -/
instance : Letter String where
  text := id
  text_injective := id

/-- A number is written in decimal, with a minus sign where it is negative. -/
instance : Letter Int64 where
  text a := a.toInt.repr
  text_injective h := Int64.toInt_inj.1 (repr_int_inj h)

end Acceptor
