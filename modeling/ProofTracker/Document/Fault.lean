import ProofTracker.Document.Section
import ProofTracker.Item.Basic

/-!
# Faults of a document

What can be wrong with a document, each with its wording. The number of the line stands beside the
fault, not in it.
-/

namespace ProofTracker.Document

/-- A reason why a document cannot be read. -/
inductive Fault where
  /-- A line before the first record that is neither blank nor a record's heading. -/
  | stray (text : String)
  /-- A line of a record before its first section. -/
  | sectionless (label : String)
  /-- A section that the record has already. -/
  | repeatedSection (opened : Section) (label : String)
  /-- A line among the fields that is not a list entry. -/
  | notEntry (text : String)
  /-- A list entry without a colon. -/
  | noColon (text : String)
  /-- Dependencies that are not in brackets. -/
  | usesNotList (value : String)
  /-- A dependency that is not a label in brackets. -/
  | badUse (piece : String)
  /-- A status that does not exist. -/
  | badStatus (word : UnknownWord)
  /-- Attempts that are not two counts around a slash. -/
  | badAttempts (value : String)
  /-- More attempts than the budget allows. -/
  | overBudget (current budget : UInt32)
  /-- A priority that is not a count. -/
  | badPriority (value : String)
  /-- A record without fields. -/
  | noFields (label : String)
  /-- A label among the fields that differs from the one in the heading. -/
  | labelMismatch (heading field : String)
  /-- A record without a field that it must have. -/
  | missing (label key : String)
  /-- A label that an earlier record has. -/
  | repeatedLabel (label : String)
deriving DecidableEq, Repr

/-- The wording of the fault. -/
def Fault.message : Fault → String
  | .stray t => s!"expected `# <kind> <label>`, got `{t}`"
  | .sectionless l => s!"expected `## meta` under `{l}`"
  | .repeatedSection s l => s!"duplicate {s.title} section in `{l}`"
  | .notEntry t => s!"expected `- key: value`, got `{t}`"
  | .noColon t => s!"missing `:` in `{t}`"
  | .usesNotList v => s!"`uses` must be a list, got `{v}`"
  | .badUse p => s!"bad `uses` entry `{p}`"
  | .badStatus w => w.message
  | .badAttempts v => s!"`attempts` must be `<current> / <budget>`, got `{v}`"
  | .overBudget c b => s!"attempts {c.toNat} exceed budget {b.toNat}"
  | .badPriority v => s!"bad priority `{v}`"
  | .noFields l => s!"`{l}` has no meta section"
  | .labelMismatch h f => s!"heading says `{h}` but meta label is `{f}`"
  | .missing l k => s!"`{l}` is missing `{k}`"
  | .repeatedLabel l => s!"duplicate label `{l}`"

end ProofTracker.Document
