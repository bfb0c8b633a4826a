import ProofTracker.Json.Decode
import ProofTracker.Json.Printer
import ProofTracker.Blueprint.Basic
import ProofTracker.Lifecycle

/-!
# The JSON form of items, steps and transitions

Each kind of record is written with all its values, in the order in which they are listed here.
Which of them may be left out when it is read is said at each.
-/

namespace ProofTracker

open Json

/-! ### Writing -/

/-- The value for an option, null for nothing. -/
def Json.Value.ofOption {α : Type} (write : α → Value) : Option α → Value
  | some a => write a
  | none => .null

/-- The JSON form of the attempts. -/
def Attempts.toJson (a : Attempts) : Value :=
  .record [("current", .ofCount a.current), ("budget", .ofCount a.budget)]

/-- The JSON form of the item. -/
def Item.toJson (i : Item) : Value :=
  .record
    [ ("label", .ofText i.label),
      ("kind", .ofText i.kind.name),
      ("dependencies", .array (i.uses.toList.map .ofText)),
      ("status", .ofText i.status.name),
      ("attempts", i.attempts.toJson),
      ("location", .ofOption .ofText i.location),
      ("informal_statement", .ofText i.statement),
      ("informal_proof", .ofText i.proof),
      ("priority", .ofCount i.priority) ]

/-- The JSON form of the step. -/
def Step.toJson (s : Step) : Value :=
  .record
    [ ("label", .ofOption .ofText s.label),
      ("kind", .ofOption (fun k : Kind => .ofText k.name) s.kind),
      ("statement", .ofText s.statement),
      ("proof", .ofText s.proof) ]

/-- The JSON form of the transition. -/
def Transition.toJson (t : Transition) : Value :=
  .record
    [ ("label", .ofText t.label),
      ("from", .ofText t.before.name),
      ("requested", .ofText t.requested.name),
      ("applied", .ofText t.applied.name),
      ("attempts", t.attempts.toJson) ]

/-- The JSON form of the summary. -/
def Summary.toJson (s : Summary) : Value :=
  .record
    [ ("total", .ofNat s.total), ("todo", .ofNat s.todo), ("partial", .ofNat s.underway),
      ("done", .ofNat s.done), ("hard", .ofNat s.hard), ("eligible", .ofNat s.eligible) ]

/-! ### Reading -/

/-- Reads a kind. -/
def Kind.ofJson? (v : Value) : Option Kind :=
  v.choice? >>= Kind.ofName?

/-- Reads a status. -/
def Status.ofJson? (v : Value) : Option Status :=
  v.choice? >>= Status.ofName?

/-- Reads attempts, which may well exceed the budget. -/
def Attempts.ofJson? (v : Value) : Option Attempts := do
  let r ← v.record? ["current", "budget"]
  return { current := ← required? r "current" Value.count?
           budget := ← required? r "budget" Value.count? }

/-- Reads an item. The location and the priority may be left out. -/
def Item.ofJson? (v : Value) : Option Item := do
  let r ← v.record? ["label", "kind", "dependencies", "status", "attempts", "location",
    "informal_statement", "informal_proof", "priority"]
  return {
    label := ← required? r "label" Value.text?
    kind := ← required? r "kind" Kind.ofJson?
    uses := .ofList (← required? r "dependencies" (Value.list? Value.text?))
    status := ← required? r "status" Status.ofJson?
    attempts := ← required? r "attempts" Attempts.ofJson?
    location := ← orElse? r "location" (Value.optional? Value.text?) none
    statement := ← required? r "informal_statement" Value.text?
    proof := ← required? r "informal_proof" Value.text?
    priority := ← orElse? r "priority" Value.count? 0 }

/-- Reads a step. Only the statement has to be there. -/
def Step.ofJson? (v : Value) : Option Step := do
  let r ← v.record? ["label", "kind", "statement", "proof"]
  return {
    label := ← orElse? r "label" (Value.optional? Value.text?) none
    kind := ← orElse? r "kind" (Value.optional? Kind.ofJson?) none
    statement := ← required? r "statement" Value.text?
    proof := ← orElse? r "proof" Value.text? "" }

/-- Reads a transition. -/
def Transition.ofJson? (v : Value) : Option Transition := do
  let r ← v.record? ["label", "from", "requested", "applied", "attempts"]
  return {
    label := ← required? r "label" Value.text?
    before := ← required? r "from" Status.ofJson?
    requested := ← required? r "requested" Status.ofJson?
    applied := ← required? r "applied" Status.ofJson?
    attempts := ← required? r "attempts" Attempts.ofJson? }

/-- Reads a text that holds a value of the given form. -/
def Json.read {α : Type} (ofJson? : Value → Option α) (text : String) : Except Error α :=
  match Json.parse? text.toList >>= ofJson? with
  | some a => .ok a
  | none => .error .json

end ProofTracker
