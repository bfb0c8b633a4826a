/-!
# Sections of a record

A record of a document has a section of fields, a section for the statement and, usually, one for
the proof. Each starts with a heading of the second level and occurs at most once.
-/

namespace ProofTracker.Document

/-- A part of a record. -/
inductive Section where
  /-- The label, the dependencies, the status and the other fields. -/
  | fields
  | statement
  | proof
deriving DecidableEq, Repr

namespace Section

/-- Every section. -/
def all : List Section := [.fields, .statement, .proof]

/-- The word in the heading of the section. -/
def name : Section → String
  | .fields => "meta"
  | .statement => "statement"
  | .proof => "proof"

/-- The name as a complaint gives it. -/
def title : Section → String
  | .fields => "Meta"
  | .statement => "Statement"
  | .proof => "Proof"

/-- The line that opens the section. -/
def heading (s : Section) : List Char :=
  '#' :: '#' :: ' ' :: s.name.toList

/-- The section that the line opens. -/
def ofHeading? (line : List Char) : Option Section :=
  all.find? (·.heading = line)

theorem ofHeading?_heading (s : Section) : ofHeading? s.heading = some s := by
  cases s <;> decide

end Section

end ProofTracker.Document
