import ProofTracker.Item.Basic

/-!
# Catalogs

A catalog holds items by label. Nothing is demanded of their dependencies: an item may use a label
that the catalog does not have, itself, or items that use it in turn. What may be started next is
read off the statuses alone.
-/

namespace ProofTracker

/-- Items with different labels, in the order of the labels. -/
abbrev Catalog := SortedBy Item.label

namespace Catalog

/-- Whether the label belongs to an item that is done. -/
def isDone (c : Catalog) (label : String) : Bool :=
  (c.get? label).any (·.status = .done)

/-- Whether everything that the item uses is there and done. -/
def usesDone (c : Catalog) (i : Item) : Bool :=
  i.uses.toList.all c.isDone

/-- The order in which items are offered: by priority, then by label. -/
def offeredBefore (a b : Item) : Bool :=
  a.priority < b.priority || (a.priority = b.priority && a.label ≤ b.label)

/-- The items that may be started now, the best one first. -/
def eligible (c : Catalog) : List Item :=
  (c.toList.filter fun i => i.status = .todo && c.usesDone i).mergeSort offeredBefore

/-- The items that use the label themselves, in the order of their labels. -/
def dependents (c : Catalog) (label : String) : List Item :=
  c.toList.filter (·.uses.contains label)

/-- The labels that the item with this label uses itself. -/
def usesOf (c : Catalog) (label : String) : List String :=
  match c.get? label with
  | some i => i.uses.toList
  | none => []

theorem mem_dependents {c : Catalog} {label : String} {i : Item} :
    i ∈ c.dependents label ↔ i ∈ c ∧ label ∈ i.uses := by
  simp [dependents, SortedBy.contains_iff]

end Catalog

end ProofTracker
