/-!
# Counts

Attempts, budgets and priorities are 32-bit counts. A count is written in decimal without leading
zeros. It is read more freely: one plus sign may stand in front, and leading zeros do not matter.
-/

namespace ProofTracker.Text

/-- The number that a nonempty run of decimal digits stands for. -/
def digits? (s : List Char) : Option Nat :=
  if s ≠ [] ∧ s.all Char.isDigit then some (Nat.ofDigitChars 10 s 0) else none

/-- The number as a count, unless it is too large for one. -/
def toCount? (n : Nat) : Option UInt32 :=
  if h : n < UInt32.size then some (.ofNatLT n h) else none

/-- Reads a count: decimal digits after at most one plus sign. -/
def count? : List Char → Option UInt32
  | '+' :: s => digits? s >>= toCount?
  | s => digits? s >>= toCount?

/-- The decimal digits of a count. -/
def ofCount (n : UInt32) : List Char :=
  Nat.toDigits 10 n.toNat

theorem toCount?_toNat (n : UInt32) : toCount? n.toNat = some n := by
  simp [toCount?, n.toNat_lt]

end ProofTracker.Text
