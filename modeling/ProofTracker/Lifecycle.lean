import ProofTracker.Catalog.Basic
import ProofTracker.Error

/-!
# Lifecycle

An item is started once everything it uses is done, worked on in rounds that cost attempts, and then
finished, put back or given up. One whose attempts are used up becomes hard, whatever was asked for,
unless it has just been finished. A done item is reopened only by a revert, a hard one only by a
split.
-/

namespace ProofTracker

/-- Whether an item may be moved from the one status to the other. -/
def Status.mayBecome : Status → Status → Bool
  | .todo, .underway => true
  | .underway, _ => true
  | _, _ => false

/-- Why an item may not be moved from the one status to the other. -/
def Status.refusal : Status → Status → Refusal
  | .todo, .done => .unstarted
  | .done, .todo => .needsRevert
  | .hard, .todo => .needsSplit
  | _, _ => .illegal

/-- Whether an item needs the items it uses to be done before it gets the status. -/
def Status.needsUses : Status → Bool
  | .underway | .done => true
  | .todo | .hard => false

/-- A change of an item's status. -/
structure Transition where
  label : String
  before : Status
  /-- The status that was asked for. -/
  requested : Status
  /-- The status that the item got. -/
  applied : Status
  /-- The attempts of the item afterwards. -/
  attempts : Attempts
deriving DecidableEq, Repr

/-- Whether the item did not get the status that was asked for. -/
def Transition.forced (t : Transition) : Bool :=
  t.applied ≠ t.requested

/-- The status that an item gets which has made these attempts. -/
def Attempts.settle (a : Attempts) (requested : Status) : Status :=
  if a.exhausted ∧ requested ≠ .done then .hard else requested

namespace Catalog

/-- Moves an item to another status and counts the attempts made since the last change. -/
def advance (c : Catalog) (label : String) (requested : Status) (delta : UInt32) :
    Except Error (Catalog × Transition) := do
  let some i := c.get? label | throw (.notFound label)
  unless i.status.mayBecome requested do
    throw (.transition label i.status requested (i.status.refusal requested))
  if requested.needsUses && !c.usesDone i then
    throw (.transition label i.status requested .usesUnfinished)
  let attempts := i.attempts.record delta
  let applied := attempts.settle requested
  return (c.insert { i with status := applied, attempts },
    ⟨label, i.status, requested, applied, attempts⟩)

/-- Reopens a done item on which nothing that has been started rests. -/
def revert (c : Catalog) (label : String) : Except Error (Catalog × Transition) := do
  let some i := c.get? label | throw (.notFound label)
  unless i.status = .done do
    throw (.transition label i.status .todo .notDone)
  let started := (c.dependents label).filter (·.status ≠ .todo)
  unless started.isEmpty do
    throw (.transition label .done .todo (.dependentsStarted (started.map (·.label))))
  return (c.insert { i with status := .todo }, ⟨label, .done, .todo, .todo, i.attempts⟩)

end Catalog

end ProofTracker
