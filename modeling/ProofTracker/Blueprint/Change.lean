import ProofTracker.Blueprint.Basic
import ProofTracker.Catalog.Check
import ProofTracker.Document.Parser
import ProofTracker.Lifecycle
import ProofTracker.Split

/-!
# Changing a blueprint

Every change is checked as a whole, and its result is a new blueprint: there is none if the change
is refused. Items are only ever added or replaced. Where an item is replaced it keeps its status and
its attempts, since those change by their own rules.
-/

namespace ProofTracker

/-- The item as a blueprint keeps it, if its label and its fields allow that. -/
def Item.accept (i : Item) : Except Error Item := do
  unless Label.Valid i.label do throw (.badLabel i.label)
  let i := i.normalize
  if i.attempts.budget < i.attempts.current then
    throw (.badItem i.label (.overBudget i.attempts.current i.attempts.budget))
  if i.location.any (·.toList.any fun c => c = '\n' || c = '\r') then
    throw (.badItem i.label .multilineLocation)
  return i

namespace Blueprint

/-- The order with new labels in front of the anchor, or at the end if there is no anchor. -/
def place (order : List String) (anchor : Option String) (new : List String) : List String :=
  order.takeWhile (some · ≠ anchor) ++ new ++ order.dropWhile (some · ≠ anchor)

/-- Puts items into the blueprint as they are. New labels are placed in front of the first one of
the batch that is there already. -/
def put (b : Blueprint) (batch : List Item) : Except Error Blueprint := do
  let batch ← batch.mapM Item.accept
  let items : Catalog := batch.foldl SortedBy.insert b.items
  items.check
  let labels := batch.map (·.label)
  let new := (labels.filter (!b.items.contains ·)).eraseDups
  return ⟨items, place b.order (labels.find? b.items.contains) new⟩

/-- The blueprint with the listed items, in their order. -/
def ofItems (items : List Item) : Except Error Blueprint :=
  (∅ : Blueprint).put items

/-- The blueprint that the document describes. -/
def parse (doc : String) : Except Error Blueprint := do
  ofItems (← Document.parse doc)

/-- The item with the progress of the one that it replaces. An item that replaces none has to start
from the beginning. -/
def keepProgress (b : Blueprint) (i : Item) : Except Error Item :=
  match b.items.get? i.label with
  | some stored => .ok { i with status := stored.status, attempts := stored.attempts }
  | none =>
    if i.status = .todo then .ok i
    else .error (.transition i.label .todo i.status .newNotTodo)

/-- Adds or replaces items. -/
def upsertBatch (b : Blueprint) (batch : List Item) : Except Error Blueprint := do
  b.put (← batch.mapM b.keepProgress)

/-- Adds or replaces an item. -/
def upsert (b : Blueprint) (i : Item) : Except Error Blueprint :=
  b.upsertBatch [i]

/-- Moves an item to another status and counts the attempts made since the last change. -/
def advance (b : Blueprint) (label : String) (requested : Status) (delta : UInt32) :
    Except Error (Blueprint × Transition) := do
  let (items, t) ← b.items.advance label requested delta
  return ({ b with items }, t)

/-- Reopens a done item. -/
def revert (b : Blueprint) (label : String) : Except Error (Blueprint × Transition) := do
  let (items, t) ← b.items.revert label
  return ({ b with items }, t)

/-- Replaces an item by a chain of steps that ends in it. The labels of the steps are given back
too. -/
def split (b : Blueprint) (target : String) (steps : List Step) (budget : UInt32) :
    Except Error (Blueprint × List String) := do
  let batch ← b.items.split target steps budget
  let labels := (batch.map (·.label)).filter (· ≠ target)
  return (← b.put batch, labels)

end Blueprint

end ProofTracker
