import ProofTracker.Error
import ProofTracker.Settings.Toml

/-!
# Settings

The settings say where the document and the journal are, and what new items start with. They are
read from a file, in which every setting may be left out and nothing else may occur. The environment
may give another place for the document.
-/

namespace ProofTracker

/-- The settings. -/
structure Settings where
  path : String := "BLUEPRINT.md"
  budget : UInt32 := 50
  splitBudget : UInt32 := 50
  /-- Whether every change is committed. -/
  commits : Bool := false
  /-- The path of the journal, if one is kept. -/
  journal : Option String := none
deriving DecidableEq, Repr

namespace Settings

/-- The name of the file with the settings. -/
def fileName : String := "blueprint.toml"

/-- The text that a value gives. -/
def text? : Toml.Value → Option String
  | .text s => some (.ofList s)
  | _ => none

/-- The count that a value gives. -/
def count? : Toml.Value → Option UInt32
  | .integer n => if 0 ≤ n then Text.toCount? n.toNat else none
  | _ => none

/-- The truth value that a value gives. -/
def bool? : Toml.Value → Option Bool
  | .bool b => some b
  | _ => none

/-- Takes in the value of one key. -/
def set? (s : Settings) (key : String) (v : Toml.Value) : Option Settings :=
  match key with
  | "blueprint_path" => (text? v).map fun p => { s with path := p }
  | "default_budget" => (count? v).map fun n => { s with budget := n }
  | "split_budget" => (count? v).map fun n => { s with splitBudget := n }
  | "git_commit" => (bool? v).map fun b => { s with commits := b }
  | "audit_log" => (text? v).map fun p => { s with journal := some p }
  | _ => none

/-- The settings that the text gives. No key occurs twice. -/
def parse (text : String) : Except Error Settings :=
  let settings? := do
    let entries ← Toml.parse? text.toList
    guard (entries.map (·.1)).Nodup
    entries.foldlM (fun s (k, v) => s.set? k v) {}
  match settings? with
  | some s => .ok s
  | none => .error .toml

/-- Complains about settings that make no sense. -/
def check (s : Settings) : Except Error Unit := do
  if s.path = "" then throw (.settings .emptyPath)
  if s.splitBudget = 0 then throw (.settings .noSplitBudget)

/-- The settings in force: those of the file, if there is one, with the path from the environment
in place of theirs, if it gives one. -/
def load (file path : Option String) : Except Error Settings := do
  let s ← match file with
    | some text => parse text
    | none => pure {}
  let s := match path with
    | some p => if p = "" then s else { s with path := p }
    | none => s
  s.check
  return s

end Settings

end ProofTracker
