import ProofTracker.Catalog.Basic

/-!
# What an item rests on and what rests on it

Both directions are one search: from a label it goes on to the labels that `next` gives, and takes
each label of a finite universe at most once. The start itself is found only if a step leads back
to it. Every turn of the search either takes labels out of the universe or shortens the list of
labels still to be visited.
-/

namespace ProofTracker.Catalog

theorem length_partition (p : String → Bool) (ls : List String) :
    (ls.partition p).1.length + (ls.partition p).2.length = ls.length := by
  rw [List.partition_eq_filter_filter]
  induction ls with
  | nil => rfl
  | cons l ls ih => cases h : p l <;> simp [h] at ih ⊢ <;> omega

/-- The labels of `unseen` found by going on with `next` from the labels still to be visited. -/
def reach (next : String → List String) : (unseen toVisit : List String) → List String
  | _, [] => []
  | unseen, l :: toVisit =>
    let ahead := next l
    let found := unseen.partition (· ∈ ahead)
    found.1 ++ reach next found.2 (found.1 ++ toVisit)
termination_by unseen toVisit => 2 * unseen.length + toVisit.length
decreasing_by
  have := length_partition (· ∈ next l) unseen
  simp only [List.length_append, List.length_cons]
  omega

/-- Every label that some item uses. -/
def usedLabels (c : Catalog) : LabelSet :=
  .ofList (c.toList.flatMap (·.uses.toList))

/-- The labels that the item uses, itself or through others. Labels without an item are found too,
but lead no further. -/
def ancestors (c : Catalog) (label : String) : LabelSet :=
  let found := reach c.usesOf c.usedLabels.toList [label]
  c.usedLabels.filter (· ∈ found)

/-- The labels of the items that use the label, themselves or through others. -/
def descendants (c : Catalog) (label : String) : LabelSet :=
  let found := reach (fun l => (c.dependents l).map (·.label)) c.keys.toList [label]
  c.keys.filter (· ∈ found)

end ProofTracker.Catalog
