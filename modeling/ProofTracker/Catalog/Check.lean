import ProofTracker.Catalog.Order

/-!
# Sound catalogs

A catalog is sound if every label that an item uses belongs to an item, no item depends on itself,
and no done item uses one that is not done.
-/

namespace ProofTracker.Catalog

/-- The first label that an item uses and no item has. -/
def dangling? (c : Catalog) : Option String :=
  c.toList.findSome? fun i => i.uses.toList.find? (!c.contains ·)

/-- The first done item that uses one that is not done, with the label of the latter. -/
def premature? (c : Catalog) : Option (Item × String) :=
  (c.toList.filter (·.status = .done)).findSome? fun i =>
    (i.uses.toList.find? (!c.isDone ·)).map (i, ·)

/-- Complains about a catalog that is not sound. -/
def check (c : Catalog) : Except Error Unit := do
  if let some l := c.dangling? then throw (.notFound l)
  let _ ← c.linearOrder
  if let some (i, l) := c.premature? then throw (.transition i.label .done .done (.doneOver l))

end ProofTracker.Catalog
