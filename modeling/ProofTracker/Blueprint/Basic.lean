import ProofTracker.Catalog.Reach
import ProofTracker.Catalog.Order
import ProofTracker.Document.Printer

/-!
# Blueprints

A blueprint is a catalog together with the order in which its document lists the items.
-/

namespace ProofTracker

/-- The items of a formalization. -/
structure Blueprint where
  /-- The items by label. -/
  items : Catalog := ∅
  /-- The labels in the order of the document. -/
  order : List String := []
deriving DecidableEq

/-- How many items there are, for each status and in all. -/
structure Summary where
  total : Nat
  todo : Nat
  underway : Nat
  done : Nat
  hard : Nat
  eligible : Nat
deriving DecidableEq, Repr

namespace Blueprint

instance : EmptyCollection Blueprint := ⟨{}⟩

/-- The items in the order of the document. -/
def list (b : Blueprint) : List Item :=
  b.order.filterMap b.items.get?

/-- The item with the label. -/
def get (b : Blueprint) (label : String) : Except Error Item :=
  match b.items.get? label with
  | some i => .ok i
  | none => .error (.notFound label)

/-- The document that describes the blueprint. -/
def toDocument (b : Blueprint) : String :=
  Document.render b.list

/-- Counts the items. -/
def summary (b : Blueprint) : Summary :=
  let count (s : Status) := b.items.toList.countP (·.status = s)
  ⟨b.items.size, count .todo, count .underway, count .done, count .hard, b.items.eligible.length⟩

end Blueprint

end ProofTracker
