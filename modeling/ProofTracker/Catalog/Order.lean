import ProofTracker.Catalog.Basic
import ProofTracker.Error
import Std.Data.HashSet

/-!
# Linear order

A linear order puts every item after the items that it uses. It is built step by step: of the items
whose known dependencies are all placed, the one with the least label goes next. Items that can
never be placed are on a cycle or rest on one; those that no other such item uses are taken away
again and again until the ones on cycles and between cycles are left.
-/

namespace ProofTracker.Catalog

/-- An item that is not placed yet. -/
structure Waiting where
  item : Item
  /-- How many of the items that it uses are not placed yet. -/
  blockers : Nat

/-- Every item, with the number of known labels that it uses. Unknown ones block nothing. -/
def waiting (c : Catalog) : List Waiting :=
  c.toList.map fun i => ⟨i, i.uses.toList.countP c.contains⟩

/-- The item after the given label has been placed. -/
def Waiting.afterPlacing (w : Waiting) (label : String) : Waiting :=
  if w.item.uses.contains label then { w with blockers := w.blockers - 1 } else w

/-- Places items as long as there is one without a blocker, always the first such. The result is the
items in the order of their placing and those that cannot be placed. -/
def place (ws : List Waiting) : List Item × List Item :=
  match _h : ws.find? (·.blockers = 0) with
  | none => ([], ws.map (·.item))
  | some w =>
    let r := place ((ws.eraseP (·.blockers = 0)).map (·.afterPlacing w.item.label))
    (w.item :: r.1, r.2)
termination_by ws.length
decreasing_by
  have hw := List.mem_of_find?_eq_some _h
  have := List.length_eraseP_of_mem hw (List.find?_some _h)
  have := List.length_pos_of_mem hw
  simp only [List.length_map]
  omega

/-- Those of the items that one of them uses. -/
def used (stuck : List Item) : List Item :=
  let labels := Std.HashSet.ofList (stuck.flatMap (·.uses.toList))
  stuck.filter fun i => labels.contains i.label

theorem mem_used {stuck : List Item} {i : Item} :
    i ∈ used stuck ↔ i ∈ stuck ∧ ∃ j ∈ stuck, i.label ∈ j.uses := by
  simp [used]

/-- Drops the items that none of the items uses, until there is none. -/
def peel (stuck : List Item) : List Item :=
  if (used stuck).length < stuck.length then peel (used stuck) else stuck
termination_by stuck.length

/-- The items, each after all known ones that it uses, and otherwise as early as its label allows.
There is no such order if items depend on themselves. -/
def linearOrder (c : Catalog) : Except Error (List Item) :=
  match place c.waiting with
  | (order, []) => .ok order
  | (_, stuck) => .error (.cycle ((peel stuck).map (·.label)))

end ProofTracker.Catalog
