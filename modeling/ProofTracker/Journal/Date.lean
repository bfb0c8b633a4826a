/-!
# Dates

Dates of the Gregorian calendar, extended to all years. Years before the year 1 are counted down
from 0.
-/

namespace ProofTracker

/-- A day of a month of a year. Months and days are counted from 1. -/
structure Date where
  year : Int
  month : Nat
  day : Nat
deriving DecidableEq, Repr

namespace Date

/-- Whether the year has a 29th of February. -/
def isLeap (year : Int) : Bool :=
  year % 4 = 0 ∧ (year % 100 ≠ 0 ∨ year % 400 = 0)

/-- How many days the month has. -/
def daysIn (year : Int) : (month : Nat) → Nat
  | 2 => if isLeap year then 29 else 28
  | 4 | 6 | 9 | 11 => 30
  | _ => 31

/-- The years that a date may have. -/
def inRange (year : Int) : Prop :=
  -262143 ≤ year ∧ year ≤ 262142

/-- A date that the calendar has. -/
def Valid (d : Date) : Prop :=
  inRange d.year ∧ 1 ≤ d.month ∧ d.month ≤ 12 ∧ 1 ≤ d.day ∧ d.day ≤ daysIn d.year d.month

instance (d : Date) : Decidable d.Valid :=
  inferInstanceAs (Decidable ((_ ∧ _) ∧ _ ∧ _ ∧ _ ∧ _))

/-- The day after. -/
def next (d : Date) : Date :=
  if d.day < daysIn d.year d.month then { d with day := d.day + 1 }
  else if d.month < 12 then ⟨d.year, d.month + 1, 1⟩
  else ⟨d.year + 1, 1, 1⟩

/-- The day before. -/
def previous (d : Date) : Date :=
  if 1 < d.day then { d with day := d.day - 1 }
  else if 1 < d.month then ⟨d.year, d.month - 1, daysIn d.year (d.month - 1)⟩
  else ⟨d.year - 1, 12, 31⟩

theorem previous_next {d : Date} (h : d.Valid) : d.next.previous = d := by
  obtain ⟨y, m, k⟩ := d
  obtain ⟨-, first, hm, hk, hlast⟩ := h
  simp only at first hm hk hlast
  simp only [next]
  split
  · simp [previous]
    omega
  · have last : k = daysIn y m := by omega
    split
    · simp [previous, last]
      omega
    · obtain rfl : m = 12 := by omega
      simpa [previous, daysIn] using last.symm

/-- The date so many days after the first of January 1970. Years are counted from March, so that the
leap day ends a year, in eras of 400 years. -/
def ofDays (n : Nat) : Date :=
  let n := n + 719468
  let inEra := n % 146097
  let yearOfEra := (inEra - inEra / 1460 + inEra / 36524 - inEra / 146096) / 365
  let dayOfYear := inEra - (365 * yearOfEra + yearOfEra / 4 - yearOfEra / 100)
  let march := (5 * dayOfYear + 2) / 153
  let month := if march < 10 then march + 3 else march - 9
  { year := n / 146097 * 400 + yearOfEra + if month ≤ 2 then 1 else 0
    month
    day := dayOfYear - (153 * march + 2) / 5 + 1 }

end Date

end ProofTracker
