import ProofTracker.Document.Fault

/-!
# Errors

Everything that can go wrong with a request, as causes. `Error.message` is the wording.
-/

namespace ProofTracker

/-- Why a change of status is refused. -/
inductive Refusal where
  /-- An item cannot be finished before it is started. -/
  | unstarted
  /-- A done item is reopened by a revert. -/
  | needsRevert
  /-- A hard item is reopened by a split. -/
  | needsSplit
  /-- No rule allows the change. -/
  | illegal
  /-- An item that the changed one uses is not done. -/
  | usesUnfinished
  | notDone
  /-- Items that use the reverted one have been started. -/
  | dependentsStarted (labels : List String)
  | splitDone
  /-- Something that the split item rests on is being worked on. -/
  | ancestorsUnderway (labels : List String)
  /-- A step is given a label that is empty or holds a blank. -/
  | badStepLabel (label : String)
  /-- A step is given a label that belongs to an item or to another step. -/
  | stepLabelTaken (label : String)
  /-- A new item has to start from the beginning. -/
  | newNotTodo
  /-- A done item uses one that is not done. -/
  | doneOver (label : String)
deriving DecidableEq, Repr

/-- The wording of the refusal. -/
def Refusal.message : Refusal → String
  | .unstarted => "item must be started first"
  | .needsRevert => "done items are reopened with revert"
  | .needsSplit => "hard items are reopened by splitting"
  | .illegal => "not allowed"
  | .usesUnfinished => "dependencies are not all done"
  | .notDone => "only done items can be reverted"
  | .dependentsStarted ls => "dependents already started: " ++ ", ".intercalate ls
  | .splitDone => "done items are not split"
  | .ancestorsUnderway ls => "dependencies still in progress: " ++ ", ".intercalate ls
  | .badStepLabel l => s!"invalid sub-item label `{l}`"
  | .stepLabelTaken l => s!"sub-item label `{l}` is already used"
  | .newNotTodo => "new items start as todo"
  | .doneOver l => s!"dependency `{l}` is not done"

/-- What is wrong with the fields of an item. -/
inductive ItemFault where
  /-- More attempts than the budget allows. -/
  | overBudget (current budget : UInt32)
  | multilineLocation
deriving DecidableEq, Repr

/-- The wording of the fault. -/
def ItemFault.message : ItemFault → String
  | .overBudget c b => s!"attempts {c.toNat} exceed budget {b.toNat}"
  | .multilineLocation => "location must be a single line"

/-- What is wrong with settings that can be read. -/
inductive SettingsFault where
  /-- The path of the document is empty. -/
  | emptyPath
  /-- New items of a split would have no attempt. -/
  | noSplitBudget
deriving DecidableEq, Repr

/-- The wording of the fault. -/
def SettingsFault.message : SettingsFault → String
  | .emptyPath => "blueprint_path must not be empty"
  | .noSplitBudget => "split_budget must be at least 1"

/-- Why a request fails. -/
inductive Error where
  | notFound (label : String)
  /-- The listed items depend on themselves. -/
  | cycle (labels : List String)
  /-- The item cannot go from the one status to the other. -/
  | transition (label : String) (before after : Status) (refusal : Refusal)
  /-- An item is split into no steps. -/
  | emptySplit (label : String)
  /-- The label is empty or has a character that no label has. -/
  | badLabel (label : String)
  /-- A field of the item has a value that it cannot have. -/
  | badItem (label : String) (fault : ItemFault)
  | document (line : Nat) (fault : Document.Fault)
  | settings (fault : SettingsFault)
  /-- A file cannot be read or written. -/
  | storage
  /-- A text is no JSON, or no JSON of the expected form. -/
  | json
  /-- The settings file is no TOML, or no TOML of the expected form. -/
  | toml
deriving DecidableEq, Repr

/-- The wording of the error. -/
def Error.message : Error → String
  | .notFound l => s!"Item not found: {l}"
  | .cycle ls => "Dependency cycle detected among: " ++ ", ".intercalate ls
  | .transition l a b r =>
    s!"Invalid transition for {l}: {a.name} -> {b.name} ({r.message})"
  | .emptySplit l => s!"Split of {l} needs at least one sub-item"
  | .badLabel l =>
    s!"Invalid label `{l}`: labels must be non-empty and contain no whitespace, brackets or commas"
  | .badItem l f => s!"Invalid item {l}: {f.message}"
  | .document n f => s!"Parse error at line {n}: {f.message}"
  | .settings f => "Config error: " ++ f.message
  | .storage => "IO error"
  | .json => "JSON error"
  | .toml => "TOML parse error"

end ProofTracker
