import Acceptor.Calendar.Instant
import Acceptor.Text.Blank
import Acceptor.Text.Digits

/-!
  Acceptor.Calendar.Timestamp — instants as texts

  An instant is written in universal time as `2024-02-29T12:34:56.789Z`: a year outside four
  digits has a sign, and the fraction has none, three, six or nine digits, the fewest that are
  exact. The reader takes more: blanks before every number and mark and after the clock, short
  numbers, a blank or a small `t` between date and clock, digits of a fraction after the ninth
  (which do not count), and an offset in place of the `Z`.

  Main statements:
    1. `Instant.ofText?_text` — a written instant is read back.
    2. `Instant.length_print_le` — its text is short.
-/

namespace Acceptor

open Text (padded skipBlanks leadingNumber? splitDigits isBlank)

/-- A reader of the beginning of a text, which leaves the rest. -/
abbrev Scan := StateT (List Char) Option

namespace Scan

def blanks : Scan Unit := fun cs => some ((), skipBlanks cs)

/-- A character that passes a test. -/
def one (test : Char → Bool) : Scan Unit
  | c :: rest => if test c then some ((), rest) else none
  | [] => none

/-- A character after blanks. -/
def mark (c : Char) : Scan Unit := do
  blanks
  one (· = c)

/-- A number of at most `limit` digits after blanks. -/
def number (limit : Nat) : Scan Nat := do
  blanks
  leadingNumber? limit

/-- Exactly two digits. -/
def twoDigits : Scan Nat
  | a :: b :: rest =>
    if a.isDigit ∧ b.isDigit then some (Nat.ofDigitChars 10 [a, b] 0, rest) else none
  | _ => none

/-- A year after blanks: up to four digits, or any number of them after a sign. -/
def year : Scan Int := fun cs =>
  match skipBlanks cs with
  | '-' :: rest => (leadingNumber? rest.length rest).map fun (n, rest) => (-(n : Int), rest)
  | '+' :: rest => (leadingNumber? rest.length rest).map fun (n, rest) => ((n : Int), rest)
  | cs => (leadingNumber? 4 cs).map fun (n, rest) => ((n : Int), rest)

def date : Scan Date := do
  let y ← year
  mark '-'
  let m ← number 2
  mark '-'
  let d ← number 2
  Date.ofParts? y m d

/-- The nanoseconds of a fraction, if there is one. -/
def fraction : Scan Nat
  | '.' :: rest =>
    match splitDigits 9 rest with
    | ([], _) => none
    | (digits, rest) =>
      some (Nat.ofDigitChars 10 digits 0 * Nat.pow 10 (9 - digits.length),
        rest.dropWhile Char.isDigit)
  | cs => some (0, cs)

/-- What a clock shows on a date. -/
def clock (date : Date) : Scan Instant := do
  let hour ← number 2
  mark ':'
  let minute ← number 2
  mark ':'
  let second ← number 2
  let nano ← fraction
  Instant.ofClock? date hour minute second nano

/-- Hours and minutes with colons or blanks between them, in minutes. -/
def hoursAndMinutes : Scan Int := do
  let hours ← twoDigits
  modify (·.dropWhile fun c => c = ':' || isBlank c)
  let minutes ← twoDigits
  if hours < 24 ∧ minutes < 60 then return (hours * 60 + minutes : Nat) else failure

/-- How many minutes a clock is ahead of universal time. -/
def offset : Scan Int := fun cs =>
  match cs with
  | 'Z' :: rest | 'z' :: rest => some (0, rest)
  | '+' :: rest => hoursAndMinutes rest
  | '-' :: rest | '\u2212' :: rest => (hoursAndMinutes rest).map fun (n, rest) => (-n, rest)
  | cs => if (cs.take 3).map Char.toUpper = ['U', 'T', 'C'] then some (0, cs.drop 3) else none

def instant : Scan Instant := do
  let day ← date
  one fun c => c = 'T' || c = 't' || c = ' '
  let t ← clock day
  blanks
  let ahead ← offset
  t.back? ahead

end Scan

namespace Instant

/-! ## Writing -/

/-- A year: four digits, or a sign and at least four digits. -/
def printYear (y : Int) : List Char :=
  if 0 ≤ y ∧ y ≤ 9999 then padded 4 y.toNat
  else (if y < 0 then '-' else '+') :: padded 4 y.natAbs

/-- A fraction of a second: the fewest digits that are exact, in groups of three. -/
def printFraction (nano : Nat) : List Char :=
  if nano = 0 then []
  else if nano % 1000000 = 0 then '.' :: padded 3 (nano / 1000000)
  else if nano % 1000 = 0 then '.' :: padded 6 (nano / 1000)
  else '.' :: padded 9 nano

def print (t : Instant) : List Char :=
  printYear t.date.year ++ '-' :: (padded 2 t.date.month ++ '-' :: (padded 2 t.date.day ++
    'T' :: (padded 2 t.hour ++ ':' :: (padded 2 t.minute ++ ':' :: (padded 2 t.secondShown ++
      (printFraction t.nanoShown ++ ['Z']))))))

def text (t : Instant) : String := String.ofList t.print

/-- The instant that a text writes, with blanks after it or not. -/
def ofText? (s : String) : Option Instant :=
  match Scan.instant s.toList with
  | some (t, rest) => if (skipBlanks rest).isEmpty then some t else none
  | none => none

end Instant

/-! ## Reading back -/

open Text (NoDigit noDigit_cons leadingNumber?_padded length_padded padded_eq_cons
  isDigit_of_mem_padded ofDigitChars_padded splitDigits_append)

theorem skipBlanks_padded (width n : Nat) (rest : List Char) :
    skipBlanks (padded width n ++ rest) = padded width n ++ rest := by
  obtain ⟨c, cs, h, digit⟩ := padded_eq_cons width n
  rw [h]
  exact Text.skipBlanks_cons (Text.isBlank_of_isDigit digit)

namespace Scan

theorem bind_apply {α β : Type} {x : Scan α} {f : α → Scan β} {cs : List Char} :
    (x >>= f) cs = (x cs).bind fun p => f p.1 p.2 := rfl

theorem bind_eq {α β : Type} {x : Scan α} {f : α → Scan β} {cs rest : List Char} {a : α}
    (h : x cs = some (a, rest)) : (x >>= f) cs = f a rest := by
  rw [bind_apply, h, Option.bind_some]

theorem lift_apply {α : Type} {o : Option α} {cs : List Char} :
    (liftM o : Scan α) cs = o.map fun a => (a, cs) := by
  cases o <;> rfl

theorem mark_cons {c : Char} {rest : List Char} (h : isBlank c = false) :
    mark c (c :: rest) = some ((), rest) := by
  simp [mark, bind_apply, blanks, Text.skipBlanks_cons h, one]

theorem number_padded {n : Nat} (h : n < 100) (rest : List Char) :
    number 2 (padded 2 n ++ rest) = some (n, rest) := by
  have width := length_padded 2 (by decide) h
  simp only [number, bind_apply, blanks, skipBlanks_padded, Option.bind_some]
  exact leadingNumber?_padded (by omega) (.inl width)

theorem year_of_digit {c : Char} {rest : List Char} (digit : c.isDigit) :
    year (c :: rest) =
      (leadingNumber? 4 (c :: rest)).map fun (n, rest) => ((n : Int), rest) := by
  rw [year, Text.skipBlanks_cons (Text.isBlank_of_isDigit digit)]
  split
  · rename_i h
    cases h
    exact absurd digit (by decide)
  · rename_i h
    cases h
    exact absurd digit (by decide)
  · rfl

theorem year_printYear (y : Int) {rest : List Char} (stop : NoDigit rest) :
    year (Instant.printYear y ++ rest) = some (y, rest) := by
  by_cases h : 0 ≤ y ∧ y ≤ 9999
  · have width := length_padded 4 (by decide) (show y.toNat < 10000 by omega)
    have number : leadingNumber? 4 (padded 4 y.toNat ++ rest) = some (y.toNat, rest) :=
      leadingNumber?_padded (by omega) (.inl width)
    have back : (y.toNat : Int) = y := by omega
    rw [Instant.printYear, if_pos h]
    obtain ⟨c, cs, hc, digit⟩ := padded_eq_cons 4 y.toNat
    rw [hc, List.cons_append] at number ⊢
    simp only [year_of_digit digit, number, Option.map_some, back]
  · have number : leadingNumber? (padded 4 y.natAbs ++ rest).length
        (padded 4 y.natAbs ++ rest) = some (y.natAbs, rest) :=
      leadingNumber?_padded (by simp) (.inr stop)
    rw [Instant.printYear, if_neg h]
    by_cases neg : y < 0
    · have back : -(y.natAbs : Int) = y := by omega
      rw [if_pos neg, List.cons_append, year, Text.skipBlanks_cons (by decide)]
      simp only [number, Option.map_some, back]
    · have back : (y.natAbs : Int) = y := by omega
      rw [if_neg neg, List.cons_append, year, Text.skipBlanks_cons (by decide)]
      simp only [number, Option.map_some, back]

theorem fraction_digits (width : Nat) {n : Nat} {rest : List Char} (pos : 0 < width)
    (le : width ≤ 9) (h : n < Nat.pow 10 width) (stop : NoDigit rest) :
    fraction ('.' :: (padded width n ++ rest)) = some (n * Nat.pow 10 (9 - width), rest) := by
  have length := length_padded width pos h
  have number := ofDigitChars_padded width n
  have digits := splitDigits_append (fun _ => isDigit_of_mem_padded) (length ▸ le) (.inr stop)
  have after : rest.dropWhile Char.isDigit = rest := by
    cases rest with
    | nil => rfl
    | cons c rest => exact List.dropWhile_cons_of_neg (by simp [stop c rfl])
  rw [fraction, digits]
  obtain ⟨c, cs, hc, -⟩ := padded_eq_cons width n
  rw [hc] at length number ⊢
  simp only [length, number, after]

theorem fraction_printFraction {nano : Nat} (h : nano < 1000000000) (rest : List Char) :
    fraction (Instant.printFraction nano ++ 'Z' :: rest) = some (nano, 'Z' :: rest) := by
  have stop : NoDigit ('Z' :: rest) := noDigit_cons (by decide)
  have whole {n : Nat} (eq : n = nano) : some (n, 'Z' :: rest) = some (nano, 'Z' :: rest) := by
    rw [eq]
  rw [Instant.printFraction]
  split
  · subst nano
    rfl
  · split
    · have small : nano / 1000000 < 1000 := by omega
      have back : nano / 1000000 * 1000000 = nano := by omega
      exact (fraction_digits 3 (by decide) (by decide) small stop).trans (whole back)
    · split
      · have small : nano / 1000 < 1000000 := by omega
        have back : nano / 1000 * 1000 = nano := by omega
        exact (fraction_digits 6 (by decide) (by decide) small stop).trans (whole back)
      · have back : nano * 1 = nano := by omega
        exact (fraction_digits 9 (by decide) (by decide) h stop).trans (whole back)

theorem date_print (d : Date) {rest : List Char} :
    date (Instant.printYear d.year ++ '-' :: (padded 2 d.month ++ '-' :: (padded 2 d.day ++
      rest))) = some (d, rest) := by
  have parts : Date.ofParts? d.year d.month d.day = some d :=
    Date.ofParts?_eq_some_iff.2 ⟨rfl, rfl, rfl⟩
  have dash : isBlank '-' = false := by decide
  have stop {rest : List Char} : NoDigit ('-' :: rest) := noDigit_cons (by decide)
  simp only [date, bind_apply, year_printYear _ stop, mark_cons dash, number_padded d.month_lt,
    number_padded d.day_lt, Option.bind_some, lift_apply, parts, Option.map_some]

theorem clock_print (t : Instant) {rest : List Char} :
    clock t.date (padded 2 t.hour ++ ':' :: (padded 2 t.minute ++ ':' ::
      (padded 2 t.secondShown ++ (Instant.printFraction t.nanoShown ++ 'Z' :: rest)))) =
      some (t, 'Z' :: rest) := by
  have hour : t.hour < 100 := Nat.lt_trans t.hour_lt (by decide)
  have minute : t.minute < 100 := Nat.lt_trans t.minute_lt (by decide)
  have second : t.secondShown < 100 := Nat.lt_of_le_of_lt t.secondShown_le (by decide)
  have colon : isBlank ':' = false := by decide
  simp only [clock, bind_apply, number_padded hour, number_padded minute, number_padded second,
    mark_cons colon, fraction_printFraction t.nanoShown_lt, Option.bind_some, lift_apply,
    t.ofClock?_clock, Option.map_some]

theorem instant_print (t : Instant) (rest : List Char) :
    instant (t.print ++ rest) = some (t, rest) := by
  have zero : offset ('Z' :: rest) = some (0, rest) := rfl
  have skip : blanks ('Z' :: rest) = some ((), 'Z' :: rest) :=
    congrArg (fun cs => some ((), cs)) (Text.skipBlanks_cons (by decide))
  simp only [Instant.print, List.append_assoc, List.cons_append, List.nil_append]
  rw [instant, bind_eq (date_print t.date), bind_eq rfl, bind_eq (clock_print t), bind_eq skip,
    bind_eq zero, lift_apply, t.back?_zero, Option.map_some]

end Scan

namespace Instant

theorem ofText?_text (t : Instant) : ofText? t.text = some t := by
  have h := Scan.instant_print t []
  rw [List.append_nil] at h
  rw [ofText?, text, String.toList_ofList, h]
  rfl

/-! ## Lengths -/

theorem length_printYear_le (d : Date) : (printYear d.year).length ≤ 7 := by
  have range := d.year_range
  simp only [firstYear, lastYear] at range
  have digits : (padded 4 d.year.natAbs).length ≤ 6 :=
    Text.length_padded_le 4 6 (by decide) (by decide) (show _ < 1000000 by omega)
  rw [printYear]
  split
  · have := Text.length_padded 4 (by decide) (show d.year.toNat < 10000 by omega)
    omega
  · rw [List.length_cons]
    omega

theorem length_printFraction_le {nano : Nat} (h : nano < 1000000000) :
    (printFraction nano).length ≤ 10 := by
  have le (width n : Nat) (hw : width ≤ 9) (hn : n < 1000000000) :
      ('.' :: padded width n).length ≤ 10 :=
    Nat.succ_le_succ (Text.length_padded_le width 9 (by decide) hw hn)
  rw [printFraction]
  split
  · decide
  · split
    · exact le 3 _ (by decide) (by omega)
    · split
      · exact le 6 _ (by decide) (by omega)
      · exact le 9 _ (by decide) h

theorem length_print_le (t : Instant) : t.print.length ≤ 33 := by
  have two {n : Nat} (h : n < 100) : (padded 2 n).length ≤ 2 :=
    Text.length_padded_le 2 2 (by decide) (by decide) h
  have year := length_printYear_le t.date
  have month := two (Date.month_lt t.date)
  have day := two (Date.day_lt t.date)
  have hour := two (Nat.lt_trans t.hour_lt (by decide))
  have minute := two (Nat.lt_trans t.minute_lt (by decide))
  have second := two (Nat.lt_of_le_of_lt t.secondShown_le (by decide))
  have fraction := length_printFraction_le t.nanoShown_lt
  simp only [print, List.length_append, List.length_cons, List.length_nil]
  omega

end Instant

end Acceptor
