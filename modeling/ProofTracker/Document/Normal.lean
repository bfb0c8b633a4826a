import ProofTracker.Item.Basic
import ProofTracker.Text.Lines

/-!
# Normal form of an item's texts

A document keeps texts only up to blanks at the ends of lines and blank lines at the ends of the
text, and it has a phrase for the location of an item that has none yet. An item in normal form is
one that a document keeps as it is.
-/

namespace ProofTracker.Document

/-- The text without blanks at the ends of its lines and around it. -/
def normalText (s : List Char) : List Char :=
  Text.trim (Text.joinLines ((Text.lines s).map Text.trimEnd))

/-- The phrase for the location of an item that has no formal version yet. -/
def noLocation : String :=
  "(to be created)"

/-- The location without blanks around it. Nothing, and the phrase for nothing, is no location. -/
def normalLocation (l : Option String) : Option String :=
  (l.map Text.trimmed).filter fun l => l ≠ "" ∧ l ≠ noLocation

end ProofTracker.Document

/-- The item with its texts and its location in normal form. -/
def ProofTracker.Item.normalize (i : Item) : Item :=
  { i with
    location := Document.normalLocation i.location
    statement := .ofList (Document.normalText i.statement.toList)
    proof := .ofList (Document.normalText i.proof.toList) }
