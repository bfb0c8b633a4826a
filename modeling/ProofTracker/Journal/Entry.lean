import ProofTracker.Journal.Timestamp
import ProofTracker.Json.Records

/-!
# Journal entries

The journal has one entry for each change that was made: what was done, to which items, and when.
It is kept as a text with one JSON value on each line.
-/

namespace ProofTracker

/-- What can be done to a blueprint. -/
inductive Operation where
  /-- An item was added or replaced. -/
  | upsert
  /-- An item was moved to another status. -/
  | advance
  /-- The best item was started. -/
  | claim
  /-- A done item was reopened. -/
  | revert
  /-- An item was replaced by a chain of steps. -/
  | split
deriving DecidableEq, Repr

namespace Operation

/-- Every operation. -/
def all : List Operation := [.upsert, .advance, .claim, .revert, .split]

/-- The word for the operation. -/
def name : Operation → String
  | .upsert => "upsert"
  | .advance => "advance"
  | .claim => "claim"
  | .revert => "revert"
  | .split => "split"

/-- The operation with the given name. -/
def ofName? (w : String) : Option Operation :=
  all.find? (·.name = w)

theorem ofName?_name (o : Operation) : ofName? o.name = some o := by
  cases o <;> decide

end Operation

/-- A change without the time at which it was made. -/
structure Change where
  /-- What was done. -/
  operation : Operation
  /-- The label of the item it was done to, and then those of the items it made. -/
  labels : List String
  /-- The status before, where there was one. -/
  before : Option Status := none
  /-- The status after, where there was one. -/
  after : Option Status := none
  /-- The attempts after, where they matter. -/
  attempts : Option Attempts := none
deriving DecidableEq, Repr

namespace Change

/-- The label of the item it was done to. -/
def subject (c : Change) : String :=
  c.labels.headD ""

/-- What was done, on one line. -/
def summary (c : Change) : String :=
  match c.operation, c.before, c.after with
  | .split, _, _ => s!"split {c.subject} into " ++ ", ".intercalate c.labels.tail
  | o, some before, some after => s!"{o.name} {c.subject} ({before.name} -> {after.name})"
  | o, _, _ => s!"{o.name} " ++ ", ".intercalate c.labels

/-- The change of an item's status by the operation. -/
def ofTransition (o : Operation) (t : Transition) : Change :=
  ⟨o, [t.label], t.before, t.applied, t.attempts⟩

end Change

/-- A change and the time at which it was made. -/
structure Entry extends Change where
  time : Timestamp
deriving DecidableEq, Repr

namespace Entry

open Json

/-- The JSON form of the entry. What it does not say is left out. -/
def toJson (e : Entry) : Value :=
  .record <|
    [ ("operation", .ofText e.operation.name),
      ("labels", .array (e.labels.map .ofText)) ] ++
    (e.before.map fun s => ("from", Value.ofText s.name)).toList ++
    (e.after.map fun s => ("to", Value.ofText s.name)).toList ++
    (e.attempts.map fun a => ("attempts", a.toJson)).toList ++
    [("at", .ofText e.time.render)]

/-- Reads an entry. The statuses and the attempts may be left out. -/
def ofJson? (v : Value) : Option Entry := do
  let r ← v.record? ["operation", "labels", "from", "to", "attempts", "at"]
  return {
    operation := ← required? r "operation" (fun v => v.choice? >>= Operation.ofName?)
    labels := ← required? r "labels" (Value.list? Value.text?)
    before := ← orElse? r "from" (Value.optional? Status.ofJson?) none
    after := ← orElse? r "to" (Value.optional? Status.ofJson?) none
    attempts := ← orElse? r "attempts" (Value.optional? Attempts.ofJson?) none
    time := ← required? r "at" (fun v => v.text? >>= Timestamp.parse?) }

end Entry

namespace Journal

/-- The line that is added for the entry. -/
def line (e : Entry) : String :=
  .ofList (Json.compact e.toJson ++ ['\n'])

/-- The entries of a journal. Blank lines are passed over. -/
def parse (text : String) : Except Error (List Entry) :=
  ((Text.lines text.toList).filter fun l => !l.all Text.isBlank).mapM fun l =>
    Json.read Entry.ofJson? (.ofList l)

end Journal

end ProofTracker
