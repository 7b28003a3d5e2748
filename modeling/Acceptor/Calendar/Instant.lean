import Acceptor.Calendar.Date

/-!
  Acceptor.Calendar.Instant — moments of universal time

  An instant is a date, a second of the day and nanoseconds. A leap second has no second of the
  day of its own: it is the last second of its minute with a full second of nanoseconds more.

  Main statements:
    1. `Instant.ofClock?_clock` — an instant is given by what a clock shows.
-/

namespace Acceptor

/-- A moment of universal time. -/
structure Instant where
  date : Date
  /-- The second of the day. -/
  second : Nat
  /-- Nanoseconds; from a full second on they tell of a leap second. -/
  nano : Nat
  second_lt : second < 86400
  nano_lt : nano < 2000000000
  leap : 1000000000 ≤ nano → second % 60 = 59
  deriving DecidableEq

namespace Instant

/-- The instant at which a clock shows a time of a day. Second 60 is a leap second. -/
def ofClock? (date : Date) (hour minute second nano : Nat) : Option Instant :=
  if h : hour < 24 ∧ minute < 60 ∧ second ≤ 60 ∧ nano < 1000000000 then
    some {
      date
      second := hour * 3600 + minute * 60 + min second 59
      nano := if second = 60 then nano + 1000000000 else nano
      second_lt := by omega
      nano_lt := by split <;> omega
      leap := by split <;> omega }
  else none

/-! ## What a clock shows -/

def hour (t : Instant) : Nat := t.second / 3600

def minute (t : Instant) : Nat := t.second / 60 % 60

/-- The second of the minute, 60 in a leap second. -/
def secondShown (t : Instant) : Nat := t.second % 60 + t.nano / 1000000000

def nanoShown (t : Instant) : Nat := t.nano % 1000000000

theorem hour_lt (t : Instant) : t.hour < 24 := by
  have := t.second_lt
  rw [hour]
  omega

theorem minute_lt (t : Instant) : t.minute < 60 := Nat.mod_lt _ (by decide)

theorem secondShown_le (t : Instant) : t.secondShown ≤ 60 := by
  have := t.nano_lt
  have := t.leap
  rw [secondShown]
  omega

theorem nanoShown_lt (t : Instant) : t.nanoShown < 1000000000 := Nat.mod_lt _ (by decide)

theorem ofClock?_clock (t : Instant) :
    ofClock? t.date t.hour t.minute t.secondShown t.nanoShown = some t := by
  have seconds : t.hour * 3600 + t.minute * 60 + min t.secondShown 59 = t.second := by
    have := t.nano_lt
    have := t.leap
    rw [hour, minute, secondShown]
    omega
  have nanos : (if t.secondShown = 60 then t.nanoShown + 1000000000 else t.nanoShown) =
      t.nano := by
    have := t.nano_lt
    have := t.leap
    split <;> rename_i h <;> rw [secondShown] at h <;> rw [nanoShown] <;> omega
  rw [ofClock?, dif_pos ⟨t.hour_lt, t.minute_lt, t.secondShown_le, t.nanoShown_lt⟩]
  simp only [seconds, nanos]

/-! ## Offsets -/

/-- The instant some minutes earlier, or later where they are negative; less than a day. -/
def back? (t : Instant) (minutes : Int) : Option Instant :=
  let second : Int := t.second - minutes * 60
  let at? (date : Date) (second : Int) : Option Instant :=
    if h : second.toNat < 86400 ∧ (1000000000 ≤ t.nano → second.toNat % 60 = 59) then
      some ⟨date, second.toNat, t.nano, h.1, t.nano_lt, h.2⟩
    else none
  if second < 0 then t.date.previous?.bind (at? · (second + 86400))
  else if second < 86400 then at? t.date second
  else t.date.next?.bind (at? · (second - 86400))

theorem back?_zero (t : Instant) : t.back? 0 = some t := by
  have := t.second_lt
  simp only [back?]
  rw [if_neg (by omega), if_pos (by omega)]
  simpa [t.second_lt] using t.leap

end Instant

end Acceptor
