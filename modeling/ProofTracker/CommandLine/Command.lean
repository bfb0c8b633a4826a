import ProofTracker.CommandLine.Arguments
import ProofTracker.Item.Basic
import ProofTracker.Text.Count

/-!
# Commands

A command is a word with words and options of its own. Some options belong to every command; they
may stand in front of it and behind it, and count from both places.
-/

namespace ProofTracker.CommandLine

/-- What to add. -/
structure Addition where
  label : String
  kind : Kind
  /-- The labels of the items it uses, as they are given. -/
  uses : List String
  statement : String
  proof : String
  location : Option String
  /-- The budget, if it is not the usual one. -/
  budget : Option UInt32
  priority : UInt32
deriving DecidableEq, Repr

/-- How to split an item. -/
structure Splitting where
  label : String
  statements : List String
  /-- The proofs of the first steps. -/
  proofs : List String
  /-- A file with the steps. -/
  file : Option String
  /-- The budget of the steps, if it is not the usual one. -/
  budget : Option UInt32
deriving DecidableEq, Repr

/-- A command. -/
inductive Command where
  /-- Make an empty document. -/
  | init
  /-- Add or replace an item. -/
  | add (a : Addition)
  /-- Tell everything about an item. -/
  | info (label : String)
  /-- Tell of all items, in the order of the document. -/
  | list
  /-- Tell which items may be started. -/
  | next
  /-- Start the best of them. -/
  | claim
  /-- Tell of all items, each after those that it uses. -/
  | order
  /-- Move an item to another status. -/
  | advance (label : String) (requested : Status) (attempts : UInt32)
  | revert (label : String)
  /-- Replace an item by a chain of steps. -/
  | split (s : Splitting)
  | validate
  | status
  /-- Tell what has been done. -/
  | history
deriving DecidableEq, Repr

/-- A command with the options that belong to every command. -/
structure Invocation where
  command : Command
  /-- The path of the document, if it is not that of the settings. -/
  file : Option String
  /-- Whether to commit the change, whatever the settings say. -/
  commit : Bool
  /-- Whether to answer in JSON. -/
  json : Bool
deriving DecidableEq, Repr

/-! ### Options -/

/-- The options of every command. -/
def commonOpts : List Opt :=
  [ { name := "file", letter := some 'f', takesValue := true },
    { name := "commit" },
    { name := "json" },
    { name := "verbose", letter := some 'v' },
    { name := "help", letter := some 'h' } ]

/-- The options in front of the command. -/
def outerOpts : List Opt :=
  { name := "version", letter := some 'V' } :: commonOpts

/-- An option with a value. -/
def valued (name : String) : Opt :=
  { name, takesValue := true }

/-- An option with a value that may be given more than once. -/
def listed (name : String) : Opt :=
  { name, takesValue := true, repeatable := true }

/-- The words for the commands, each with the options of its own. -/
def commandOpts : List (String × List Opt) :=
  [ ("init", []),
    ("add", listed "uses" ::
      ["kind", "statement", "proof", "location", "budget", "priority"].map valued),
    ("show", []),
    ("list", []),
    ("next", [{ name := "claim" }]),
    ("order", []),
    ("advance", [valued "attempts"]),
    ("revert", []),
    ("split", [listed "step", listed "proof", valued "steps", valued "budget"]),
    ("validate", []),
    ("status", []),
    ("history", []) ]

/-! ### Values -/

/-- The value that the text gives, if it gives one. -/
def orRefuse {α : Type} : Option α → Except Stop α
  | some a => .ok a
  | none => .error .refused

/-- Reads the value of an option, if it is given. -/
def valueOf? {α : Type} (args : List Arg) (name : String) (read : String → Option α) :
    Except Stop (Option α) :=
  match values args name with
  | v :: _ => some <$> orRefuse (read v)
  | [] => .ok none

/-- The count that the text gives. It may have a sign, but must not be negative. -/
def count? (v : String) : Option UInt32 :=
  match v.toList with
  | '-' :: s => if Text.digits? s = some 0 then some 0 else none
  | s => Text.count? s

/-- The path that the text gives. -/
def path? (v : String) : Option String :=
  if v = "" then none else some v

/-! ### Reading -/

/-- The only word among the arguments. -/
def oneWord (args : List Arg) : Except Stop String :=
  match wordsOf args with
  | [w] => .ok w
  | _ => .error .refused

/-- The command itself, since there are no words among the arguments. -/
def noWord (args : List Arg) (c : Command) : Except Stop Command :=
  if wordsOf args = [] then .ok c else .error .refused

/-- Reads what to add. -/
def Addition.read (args : List Arg) : Except Stop Addition := do
  return {
    label := ← oneWord args
    kind := (← valueOf? args "kind" Kind.ofName?).getD .lem
    uses := (values args "uses").flatMap fun v => v.splitOn ","
    statement := (← valueOf? args "statement" some).getD ""
    proof := (← valueOf? args "proof" some).getD ""
    location := ← valueOf? args "location" some
    budget := ← valueOf? args "budget" count?
    priority := (← valueOf? args "priority" count?).getD 0 }

/-- Reads how to split. The steps are given one by one or in a file, but not in both ways, and
proofs need steps that they belong to. -/
def Splitting.read (args : List Arg) : Except Stop Splitting := do
  let s : Splitting := {
    label := ← oneWord args
    statements := values args "step"
    proofs := values args "proof"
    file := ← valueOf? args "steps" path?
    budget := ← valueOf? args "budget" count? }
  if s.file.isSome ∧ s.statements ≠ [] then throw .refused
  if s.file.isNone ∧ s.statements = [] ∧ s.proofs ≠ [] then throw .refused
  return s

/-- Reads the command for the given word. -/
def Command.read (word : String) (args : List Arg) : Except Stop Command :=
  match word with
  | "init" => noWord args .init
  | "add" => .add <$> Addition.read args
  | "show" => .info <$> oneWord args
  | "list" => noWord args .list
  | "next" => noWord args (if hasFlag args "claim" then .claim else .next)
  | "order" => noWord args .order
  | "advance" => do
    let attempts := (← valueOf? args "attempts" count?).getD 0
    match wordsOf args with
    | [label, w] => return .advance label (← orRefuse (Status.ofName? w)) attempts
    | _ => throw .refused
  | "revert" => .revert <$> oneWord args
  | "split" => .split <$> Splitting.read args
  | "validate" => noWord args .validate
  | "status" => noWord args .status
  | "history" => noWord args .history
  | _ => throw .refused

/-- Reads a command with everything around it. -/
def Invocation.read (args : List String) : Except Stop Invocation := do
  let (outer, rest) ← level outerOpts false args
  let outerFile ← valueOf? outer "file" path?
  match rest with
  | [] => throw .refused
  | "help" :: topic =>
    throw (if topic.length ≤ 1 ∧ topic.all ((commandOpts.map (·.1)).contains ·) then .help
      else .refused)
  | word :: rest =>
    let own ← orRefuse (commandOpts.lookup word)
    let (inner, _) ← level (own ++ commonOpts) true rest
    let innerFile ← valueOf? inner "file" path?
    let either (name : String) := hasFlag outer name || hasFlag inner name
    return ⟨← Command.read word inner, innerFile <|> outerFile, either "commit", either "json"⟩

end ProofTracker.CommandLine
