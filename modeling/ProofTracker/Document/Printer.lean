import ProofTracker.Document.Line
import ProofTracker.Document.Normal
import ProofTracker.Text.Count

/-!
# Writing a document

A document has one record for each item, with an empty line between two of them. A record is its
heading, the fields, the statement and the proof; a definition without a proof has no section for
one. Items are written in normal form.
-/

namespace ProofTracker.Document

/-- The line of one field. -/
def fieldLine (key : String) (value : List Char) : List Char :=
  '-' :: ' ' :: key.toList ++ ':' :: ' ' :: value

/-- The labels in brackets, with brackets around them all. -/
def usesText (uses : LabelSet) : List Char :=
  '[' :: [',', ' '].intercalate (uses.toList.map fun l => '[' :: l.toList ++ [']']) ++ [']']

/-- The counter and the budget around a slash. -/
def attemptsText (a : Attempts) : List Char :=
  Text.ofCount a.current ++ ' ' :: '/' :: ' ' :: Text.ofCount a.budget

/-- The lines of the fields. The lowest priority is left out. -/
def fieldLines (i : Item) : List (List Char) :=
  [ fieldLine "label" i.label.toList,
    fieldLine "uses" (usesText i.uses),
    fieldLine "file" (i.location.getD noLocation).toList,
    fieldLine "status" i.status.name.toList,
    fieldLine "attempts" (attemptsText i.attempts) ] ++
  if i.priority = 0 then [] else [fieldLine "priority" (Text.ofCount i.priority)]

/-- The lines of a free text. An empty text has none. -/
def textLines (s : List Char) : List (List Char) :=
  if s = [] then [] else (Text.lines s).map escape

/-- The lines of the record of an item in normal form. -/
def recordLines (i : Item) : List (List Char) :=
  heading i.kind i.label.toList ::
    Section.fields.heading :: fieldLines i ++
    Section.statement.heading :: textLines i.statement.toList ++
    if i.kind = .defn ∧ i.proof = "" then []
    else Section.proof.heading :: textLines i.proof.toList

/-- The document with a record for each of the items, in their order. -/
def render (items : List Item) : String :=
  .ofList (Text.joinLines (items.map fun i => Text.closeLines (recordLines i.normalize)))

end ProofTracker.Document
