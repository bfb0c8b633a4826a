import ProofTracker.Journal.Date
import ProofTracker.Text.Blank

/-!
# Timestamps

A timestamp is a point in time to the nanosecond, in UTC. It is written as date, `T`, time and `Z`,
with no more digits behind the second than it needs, three at a time. It is read more freely: numbers
may lack leading zeros and stand behind blanks, and the time may be that of another offset.
-/

namespace ProofTracker

/-- A point in time, in UTC. A leap second is the second 60 of its minute. -/
structure Timestamp where
  date : Date
  minute : Nat
  second : Nat
  nano : Nat
deriving DecidableEq, Repr

namespace Timestamp

/-- The point in time so long after the start of the year 1970. -/
def ofUnix (seconds nano : Nat) : Timestamp :=
  ⟨.ofDays (seconds / 86400), seconds % 86400 / 60, seconds % 60, nano⟩

/-! ### Writing -/

/-- The number with at least so many digits. -/
def padded (width n : Nat) : List Char :=
  let digits := Nat.toDigits 10 n
  List.replicate (width - digits.length) '0' ++ digits

/-- The year in four digits. A year that has more, or is negative, carries its sign. -/
def yearText (y : Int) : List Char :=
  if 0 ≤ y ∧ y ≤ 9999 then padded 4 y.toNat
  else (if y < 0 then '-' else '+') :: padded 4 y.natAbs

/-- The date. -/
def dateText (d : Date) : List Char :=
  yearText d.year ++ '-' :: padded 2 d.month ++ '-' :: padded 2 d.day

/-- The time to the second. -/
def timeText (t : Timestamp) : List Char :=
  padded 2 (t.minute / 60) ++ ':' :: padded 2 (t.minute % 60) ++ ':' :: padded 2 t.second

/-- The part behind the second, if there is any. -/
def fractionText (nano : Nat) : List Char :=
  if nano = 0 then []
  else if nano % 1000000 = 0 then '.' :: padded 3 (nano / 1000000)
  else if nano % 1000 = 0 then '.' :: padded 6 (nano / 1000)
  else '.' :: padded 9 nano

/-- The timestamp in full. -/
def render (t : Timestamp) : String :=
  .ofList (dateText t.date ++ 'T' :: timeText t ++ fractionText t.nano ++ ['Z'])

/-- The timestamp to the second, for people. -/
def renderBrief (t : Timestamp) : String :=
  .ofList (dateText t.date ++ ' ' :: timeText t)

/-! ### Reading -/

/-- What a reader finds at the start of a text, and the text behind it. -/
abbrev Reader (α : Type) := StateT (List Char) Option α

/-- Passes over blanks. -/
def skipBlanks : Reader Unit :=
  modify Text.trimStart

/-- Passes over the character, and over blanks in front of it. -/
def mark (c : Char) : Reader Unit := do
  skipBlanks
  let d :: s ← get | failure
  guard (d = c)
  set s

/-- Takes digits, at least one and at most `width` if there is such a limit. -/
def digits (width : Option Nat) : Reader (List Char) := do
  let s ← get
  let ds := (s.take (width.getD s.length)).takeWhile Char.isDigit
  guard (ds ≠ [])
  set (s.drop ds.length)
  return ds

/-- Takes a number of at most two digits, perhaps behind blanks. -/
def twoDigits : Reader Nat := do
  skipBlanks
  return Nat.ofDigitChars 10 (← digits (some 2)) 0

/-- Takes a year: at most four digits, or a sign and any number of them. -/
def year : Reader Int := do
  skipBlanks
  match ← get with
  | '-' :: s =>
    set s
    return -Nat.ofDigitChars 10 (← digits none) 0
  | '+' :: s =>
    set s
    return Nat.ofDigitChars 10 (← digits none) 0
  | _ => return Nat.ofDigitChars 10 (← digits (some 4)) 0

/-- Takes a fraction of a second, in nanoseconds. Digits behind the ninth do not count. -/
def fraction : Reader Nat := do
  match ← get with
  | '.' :: s =>
    set s
    let ds := ← digits none
    return Nat.ofDigitChars 10 ((ds ++ List.replicate 9 '0').take 9) 0
  | _ => return 0

/-- Takes the hours and minutes of an offset. -/
def offsetMinutes : Reader Nat := do
  let h₁ :: h₂ :: s ← get | failure
  guard (h₁.isDigit ∧ h₂.isDigit)
  let m₁ :: m₂ :: s := s.dropWhile (fun c => c = ':' || Text.isBlank c) | failure
  guard (m₁.isDigit ∧ m₁ ≤ '5' ∧ m₂.isDigit)
  set s
  return 60 * Nat.ofDigitChars 10 [h₁, h₂] 0 + Nat.ofDigitChars 10 [m₁, m₂] 0

/-- Takes an offset to UTC, in minutes. The minus sign may be a hyphen. -/
def offset : Reader Int := do
  match ← get with
  | 'Z' :: s | 'z' :: s =>
    set s
    return 0
  | '+' :: s =>
    set s
    return (← offsetMinutes)
  | '-' :: s | '−' :: s =>
    set s
    return -(← offsetMinutes)
  | u :: t :: c :: s =>
    guard ([u.toUpper, t.toUpper, c.toUpper] = ['U', 'T', 'C'])
    set s
    return 0
  | _ => failure

/-- Moves a date and a minute of its day, which may lie on the day before or after, to the day on
which it is. -/
def settle (d : Date) (minute : Int) : Date × Nat :=
  if minute < 0 then (d.previous, (minute + 1440).toNat)
  else if 1440 ≤ minute then (d.next, (minute - 1440).toNat)
  else (d, minute.toNat)

/-- Takes a timestamp. -/
def reader : Reader Timestamp := do
  let y ← year
  mark '-'
  let month ← twoDigits
  mark '-'
  let day ← twoDigits
  let t :: s ← get | failure
  guard (t ∈ ['t', 'T', ' '])
  set s
  let hour ← twoDigits
  mark ':'
  let minute ← twoDigits
  mark ':'
  let second ← twoDigits
  let nano ← fraction
  skipBlanks
  let shift ← offset
  skipBlanks
  let date : Date := ⟨y, month, day⟩
  guard (date.Valid ∧ hour < 24 ∧ minute < 60 ∧ second ≤ 60 ∧ -1440 < shift ∧ shift < 1440)
  let (date, minute) := settle date ((60 * hour + minute : Nat) - shift)
  guard date.Valid
  return ⟨date, minute, second, nano⟩

/-- The timestamp that the text gives. -/
def parse? (s : String) : Option Timestamp :=
  match reader s.toList with
  | some (t, []) => some t
  | _ => none

end Timestamp

end ProofTracker
