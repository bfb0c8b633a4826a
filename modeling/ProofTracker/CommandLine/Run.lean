import ProofTracker.CommandLine.Command
import ProofTracker.Report
import ProofTracker.Session.Basic

/-!
# Carrying out commands

A command loads the settings and the blueprint, does its work and answers with a text, or with JSON.
It either answers or complains.
-/

namespace ProofTracker.CommandLine

/-- How a run ends. -/
inductive Exit where
  /-- With an answer. -/
  | done (out : String)
  /-- With a complaint. -/
  | failed (complaint : String)
  /-- Before it began, since the arguments make no sense. -/
  | refused
deriving DecidableEq, Repr

/-- The exit code. -/
def Exit.code : Exit → UInt8
  | .done _ => 0
  | .failed _ => 1
  | .refused => 2

/-- The complaint about an error. -/
def complain {α : Type} : Except Error α → Except String α :=
  Except.mapError Error.message

/-- The complaint about an error, behind what it was that went wrong. -/
def complainThat {α : Type} (what : String) : Except Error α → Except String α :=
  Except.mapError fun e => what ++ ": " ++ e.message

/-- The answer in JSON, or for people. -/
def answer (json : Bool) (v : Json.Value) (ls : List String) : String :=
  if json then .ofList (Json.pretty 0 v ++ ['\n']) else Report.lines ls

/-- The steps with the statements and the proofs, as far as there are any. -/
def pairUp : (statements proofs : List String) → List Step
  | [], _ => []
  | s :: ss, [] => { statement := s } :: pairUp ss []
  | s :: ss, p :: ps => { statement := s, proof := p } :: pairUp ss ps

/-- The item that is to be added. -/
def Addition.item (a : Addition) (s : Settings) : Item :=
  .fresh a.label a.kind (a.budget.getD s.budget)
    (.ofList ((a.uses.map Text.trimmed).filter (· ≠ "")))
    a.statement a.proof a.priority a.location

section

variable {m : Type → Type} [Monad m] (h : Host m) (color : Bool)

/-- The steps of a splitting. -/
def Splitting.steps (p : Splitting) : m (Except String (List Step)) := do
  let proofs := p.proofs.length
  let statements := p.statements.length
  if statements < proofs then
    return .error s!"{proofs} --proof values given for {statements} --step values"
  match p.file with
  | none => return .ok (pairUp p.statements p.proofs)
  | some path =>
    match ← h.look path with
    | .text s =>
      match Json.read (Json.Value.list? Step.ofJson?) s with
      | .ok steps => return .ok steps
      | .error _ => return .error s!"invalid steps file {path}"
    | _ => return .error s!"failed to read {path}"

/-- The answer to a command, for the given settings and blueprint. -/
def Command.run (json : Bool) (s : Settings) (b : Blueprint) :
    Command → ExceptT String m String
  | .init => do
    if ← complain (← liftM (Session.init h s b)) then
      return Report.lines [Report.success color s!"created {s.path}"]
    else return Report.lines [Report.notice color s!"{s.path} already exists"]
  | .add a => do
    let (b, r) ← liftM (Session.perform h s b (.upsert (a.item s)))
    let _ ← complain r
    let i ← complain (b.get a.label)
    return answer json i.toJson (Report.item color i)
  | .info label => do
    let i ← complain (b.get label)
    let dependents := (b.items.descendants label).toList
    let needed := if dependents = [] then []
      else ["", "Needed by: " ++ ", ".intercalate dependents]
    return answer json i.toJson (Report.item color i ++ needed)
  | .list => return answer json (.array (b.list.map Item.toJson)) (b.list.map (Report.itemLine color))
  | .next =>
    let eligible := b.items.eligible
    let ls := if eligible = [] then [Report.notice color "no eligible items"]
      else eligible.map (Report.itemLine color)
    return answer json (.array (eligible.map Item.toJson)) ls
  | .claim => do move .claim
  | .order => do
    let items ← complain b.items.linearOrder
    return answer json (.array (items.map fun i => .ofText i.label))
      (items.map (Report.itemLine color))
  | .advance l requested n => do move (.advance l requested n)
  | .revert l => do move (.revert l)
  | .split p => do
    let steps ← (← liftM (p.steps h))
    let budget := p.budget.getD s.splitBudget
    let (_, r) ← liftM (Session.perform h s b (.split p.label steps budget))
    match ← complain r with
    | .created ls =>
      return answer json (.array (ls.map .ofText))
        [Report.success color (s!"split {p.label} into " ++ ", ".intercalate ls)]
    | _ => return ""
  | .validate =>
    return answer json b.summary.toJson
      [Report.success color s!"{s.path} is valid ({b.summary.total} items)"]
  | .status => return answer json b.summary.toJson [Report.summary color b.summary]
  | .history => do
    let some journal := s.journal | throw "no audit_log configured in blueprint.toml"
    let entries ← complain (← liftM (Session.history h journal))
    return answer json (.array (entries.map Entry.toJson)) (entries.map (Report.entry color))
where
  /-- Carries out a request that moves an item, if there is one to be moved. -/
  move (r : Request) : ExceptT String m String := do
    let (_, r) ← liftM (Session.perform h s b r)
    match ← complain r with
    | .moved t => return answer json t.toJson (Report.transition color t)
    | _ => return answer json .null [Report.notice color "no eligible items"]

/-- The answer to an invocation. The environment may give the path of the document. -/
def Invocation.run (environment : Option String) (i : Invocation) : ExceptT String m String := do
  let file := (← liftM (h.look Settings.fileName)).read
  let s ← complainThat s!"failed to load {Settings.fileName}" do Settings.load (← file) environment
  let s := { s with path := i.file.getD s.path, commits := s.commits || i.commit }
  let b ← complainThat s!"failed to open {s.path}" (← liftM (Session.load h s))
  i.command.run h color i.json s b

end

/-- What the program can do, in short. -/
def usage : String :=
  Report.lines
    [ "Keeps track of the items of a formalization.",
      "",
      "Usage: blueprint [OPTIONS] <COMMAND>",
      "",
      "Commands: " ++ ", ".intercalate (commandOpts.map (·.1)),
      "Options: --file <FILE>, --commit, --json, --verbose, --help, --version" ]

/-- The name of the program and its version. -/
def version : String := "blueprint 0.1.0\n"

/-- Runs the program with the given arguments. -/
def run {m : Type → Type} [Monad m] (h : Host m) (color : Bool) (environment : Option String)
    (args : List String) : m Exit := do
  match Invocation.read args with
  | .error .refused => return .refused
  | .error .help => return .done usage
  | .error .version => return .done version
  | .ok i =>
    match ← (i.run h color environment).run with
    | .ok out => return .done out
    | .error complaint => return .failed complaint

end ProofTracker.CommandLine
