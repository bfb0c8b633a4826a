import ProofTracker.Catalog.Reach
import ProofTracker.Error
import ProofTracker.Item.Label

/-!
# Splitting an item

An item that turned out too hard is replaced by a chain: the first step uses what the item used,
every other step uses the one before it, and the item itself uses the last step and starts again
with a fresh counter. Steps without a label of their own get the label of the item with a number
behind it, the least ones that are free.
-/

namespace ProofTracker.Catalog

/-- The first complaint about the labels that steps are given. They must be solid, and neither
belong to an item nor repeat an earlier one. -/
def givenRefusal? (c : Catalog) : (earlier given : List String) → Option Refusal
  | _, [] => none
  | earlier, l :: given =>
    if ¬Label.Solid l.toList then some (.badStepLabel l)
    else if c.contains l ∨ l ∈ earlier then some (.stepLabelTaken l)
    else c.givenRefusal? (l :: earlier) given

/-- The first `k` numbered labels that are neither in the catalog nor given to a step. At most as
many numbers are taken as there are such labels, so the first few numbers hold enough free ones. -/
def freeLabels (c : Catalog) (target : String) (given : List String) (k : Nat) : List String :=
  let numbered := (List.range' 1 (c.size + given.length + k)).map fun n => s!"{target}_{n}"
  (numbered.filter fun l => !c.contains l && l ∉ given).take k

/-- Fills the gaps in a list of labels from a list of free ones. -/
def fillIn : List (Option String) → (free : List String) → List String
  | [], _ => []
  | some l :: ls, free => l :: fillIn ls free
  | none :: ls, l :: free => l :: fillIn ls free
  | none :: _, [] => []

/-- The labels of the steps, in order. -/
def stepLabels (c : Catalog) (target : String) (steps : List Step) :
    Except Refusal (List String) :=
  let asked := steps.map fun s => s.label.map Text.trimmed
  let given := asked.filterMap id
  match c.givenRefusal? [] given with
  | some r => .error r
  | none => .ok (fillIn asked (c.freeLabels target given (asked.countP (·.isNone))))

/-- The chain that replaces the target: a new item for each step, of which the first rests on
`uses`, and the target at the end. -/
def chain (target : Item) (budget : UInt32) : (uses : LabelSet) → List (String × Step) → List Item
  | uses, [] => [{ target with
      uses, status := .todo, attempts := .fresh target.attempts.budget }]
  | uses, (l, s) :: rest =>
    .fresh l (s.kind.getD .lem) budget uses s.statement s.proof target.priority none ::
      chain target budget {l} rest

/-- The items to be put into the catalog so that the target is split into the steps. -/
def split (c : Catalog) (target : String) (steps : List Step) (budget : UInt32) :
    Except Error (List Item) := do
  let some i := c.get? target | throw (.notFound target)
  if steps.isEmpty then throw (.emptySplit target)
  if i.status = .done then throw (.transition target .done .todo .splitDone)
  let underway := (c.ancestors target).toList.filter fun l =>
    (c.get? l).any (·.status = .underway)
  unless underway.isEmpty do
    throw (.transition target i.status .todo (.ancestorsUnderway underway))
  match c.stepLabels target steps with
  | .error r => throw (.transition target i.status .todo r)
  | .ok labels => return chain i budget i.uses (labels.zip steps)

end ProofTracker.Catalog
