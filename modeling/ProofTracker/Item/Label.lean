import ProofTracker.Text.Blank

/-!
# Labels

Labels stand in the headings and in the dependency lists of a document, so they are made of
characters that end neither.
-/

namespace ProofTracker.Label

/-- Whether the character may occur in a label: no blank, no bracket, no comma. -/
def allows (c : Char) : Bool :=
  !Text.isBlank c && c != '[' && c != ']' && c != ','

/-- A label is valid if it is not empty and a label's characters are all it has. -/
def Valid (l : String) : Prop :=
  l ≠ "" ∧ l.toList.all allows

instance (l : String) : Decidable (Valid l) :=
  inferInstanceAs (Decidable (l ≠ "" ∧ l.toList.all allows))

/-- A name is solid if it is not empty and holds no blank. -/
def Solid (l : List Char) : Prop :=
  l ≠ [] ∧ l.all fun c => !Text.isBlank c

instance (l : List Char) : Decidable (Solid l) :=
  inferInstanceAs (Decidable (l ≠ [] ∧ l.all fun c => !Text.isBlank c))

end ProofTracker.Label
