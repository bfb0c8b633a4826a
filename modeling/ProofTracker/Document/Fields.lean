import ProofTracker.Document.Fault
import ProofTracker.Document.Line
import ProofTracker.Document.Normal
import ProofTracker.Item.Label
import ProofTracker.Text.Count

/-!
# Fields of a record

A field is a list entry with a key, a colon and a value. Of several fields with one key the last
counts, and fields with unknown keys are passed over.
-/

namespace ProofTracker.Document

/-- What the fields of a record say. -/
structure Fields where
  label : Option (List Char) := none
  uses : LabelSet := ∅
  location : Option String := none
  status : Option Status := none
  attempts : Option Attempts := none
  priority : UInt32 := 0

/-- Reads one dependency out of a piece of the list that ended at a closing bracket. A piece that
holds commas and blanks only is none. -/
def readUse (piece : List Char) : Except Fault (Option String) :=
  match Text.trim ((Text.trim piece).dropWhile (· = ',')) with
  | [] => .ok none
  | '[' :: l =>
    if Label.Solid (Text.trim l) then .ok (some (.ofList (Text.trim l)))
    else .error (.badUse (.ofList ('[' :: l)))
  | piece => .error (.badUse (.ofList piece))

/-- Reads the dependencies: labels in brackets, with brackets around them all. -/
def readUses (value : List Char) : Except Fault LabelSet := do
  let fault := .usesNotList (.ofList value)
  let '[' :: rest := value | throw fault
  unless rest.getLast? = some ']' do throw fault
  let labels ← (rest.dropLast.splitOn ']').mapM readUse
  return .ofList (labels.filterMap id)

/-- Reads the attempts: two counts around a slash, the first within the second. -/
def readAttempts (value : List Char) : Except Fault Attempts := do
  let fault := .badAttempts (.ofList value)
  let (current, '/' :: budget) := value.span (· ≠ '/') | throw fault
  let some current := Text.count? (Text.trim current) | throw fault
  let some budget := Text.count? (Text.trim budget) | throw fault
  if budget < current then throw (.overBudget current budget)
  return ⟨current, budget⟩

/-- Takes in the value of one field. -/
def Fields.set (f : Fields) (key : String) (value : List Char) : Except Fault Fields := do
  match key with
  | "label" => return { f with label := some value }
  | "uses" => return { f with uses := ← readUses value }
  | "file" => return { f with location := normalLocation (some (.ofList value)) }
  | "status" =>
    match Status.read (.ofList value) with
    | .ok s => return { f with status := some s }
    | .error w => throw (.badStatus w)
  | "attempts" => return { f with attempts := some (← readAttempts value) }
  | "priority" =>
    let some p := Text.count? value | throw (.badPriority (.ofList value))
    return { f with priority := p }
  | _ => return f

/-- Takes in one line. Empty lines say nothing. -/
def Fields.add (f : Fields) (line : List Char) : Except Fault Fields := do
  if line = [] then return f
  let '-' :: ' ' :: entry := line | throw (.notEntry (.ofList line))
  let (key, ':' :: value) := entry.span (· ≠ ':') | throw (.noColon (.ofList line))
  f.set (Text.trimmed (.ofList key)) (Text.trim value)

end ProofTracker.Document
